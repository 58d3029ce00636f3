import CharmExperiments.Ipc.Queue

/-!
# The queue under calls that interleave

`Lib.LockedList` says what a list behind a head that is its lock needs: that the
exchanges are the moves `take` and `put`, and that the links written meanwhile
are of blocks in no list. `QueueInv` is that, for the list of the queue, with
what the processes inside know of it. `proceed_cases` lists what the next step of
a call does; `step_inv` says what each step does to the list.
-/

namespace CharmExperiments.Ipc

open CharmExperiments.Lib

variable {ι β : Type}

/-- What a process has taken from the head: it is between its two exchanges. -/
def Caller.held : Caller β → Option (Link β)
  | .linking _ prev | .publishing _ prev | .reading prev | .restoring prev _ => some prev
  | _ => none

/-- The block a process is putting into the queue. -/
def Caller.block : Caller β → Option β
  | .enqueue ptr | .linking ptr _ | .publishing ptr _ => some ptr
  | _ => none

namespace Shared

/-- Process `p` is between its two exchanges. -/
def Inside (s : Shared ι β) (p : ι) : Prop := ∃ l, (s.callers p).held = some l

/-- The blocks in the list, from the head or from what the process between its two
exchanges took. -/
def Content (s : Shared ι β) (L : List β) : Prop :=
  (s.queue.head ≠ .null ∧ Linked s.queue.next s.queue.head L) ∨
  (s.queue.head = .null ∧ ∃ p l, (s.callers p).held = some l ∧ Linked s.queue.next l L)

/-- Block `b` is neither in the queue nor being put into it. -/
def Free (s : Shared ι β) (b : β) : Prop :=
  (∀ L, s.Content L → b ∉ L) ∧ ∀ p, (s.callers p).block ≠ some b

/-- Blocks are enqueued, and written by other code, only while they are in no queue. -/
def Owned (s : Shared ι β) : QueueAction ι β → Prop
  | .enqueue _ ptr | .store ptr _ => s.Free ptr
  | .dequeue _ | .step _ => True

/-- The head and the processes, as `Lib.LockedList` sees them. -/
def slots (s : Shared ι β) : Slots Unit ι β where
  heads _ := s.queue.head
  next := s.queue.next
  held p := (s.callers p).held.map fun l => ((), l)

variable [DecidableEq ι] [DecidableEq β]

/-- What the next step of a call does. -/
inductive Proceeds (s : Shared ι β) (p : ι) : Shared ι β → Prop
  | refuse {ptr : β} : s.callers p = .enqueue ptr → s.queue.head = .null →
      Proceeds s p (s.back p (.refused ptr))
  | nothing : s.callers p = .dequeue → s.queue.head = .null →
    Proceeds s p (s.back p .nothing)
  | takeEnqueue {ptr : β} : s.callers p = .enqueue ptr → s.queue.head ≠ .null →
      Proceeds s p ({ s with queue := ⟨.null, s.queue.next⟩ }.goto p
        (.linking ptr s.queue.head))
  | takeDequeue : s.callers p = .dequeue → s.queue.head ≠ .null →
      Proceeds s p ({ s with queue := ⟨.null, s.queue.next⟩ }.goto p
        (.reading s.queue.head))
  | link {ptr : β} {prev : Link β} : s.callers p = .linking ptr prev →
      Proceeds s p ({ s with queue := s.queue.link ptr prev }.goto p
        (.publishing ptr prev))
  | read {prev : Link β} : s.callers p = .reading prev →
      Proceeds s p (s.goto p (.restoring prev (s.queue.after prev)))
  | publish {ptr : β} {prev : Link β} : s.callers p = .publishing ptr prev →
      s.queue.head = .null →
      Proceeds s p ({ s with queue := ⟨.node ptr, s.queue.next⟩ }.back p (.enqueued ptr))
  | restore {prev next : Link β} : s.callers p = .restoring prev next →
    s.queue.head = .null →
      Proceeds s p ({ s with queue := ⟨next, s.queue.next⟩ }.back p
        (.ofLink (if prev = Link.tail then Link.null else prev)))
  | fail {s' : Shared ι β} {l : Link β} : (s.callers p).held = some l →
    s.queue.head ≠ .null →
      Proceeds s p s'

omit [DecidableEq ι] [DecidableEq β] in
theorem exchange_null {s : Shared ι β} (hnull : s.queue.head = .null) :
    { s with queue := ⟨.null, s.queue.next⟩ } = s := by
  rw [← hnull]

theorem proceed_cases {s s' : Shared ι β} {p : ι} (h : s.proceed p = some s') :
    Proceeds s p s' := by
  unfold proceed at h
  cases hc : s.callers p with
  | idle =>
    rw [hc] at h
    cases h
  | enqueue ptr =>
    rw [hc] at h
    obtain rfl := Option.some.inj h
    show Proceeds s p (if s.queue.head = .null then _ else _)
    by_cases hnull : s.queue.head = .null
    · -- the queue is taken: the exchange has changed nothing
      rw [if_pos hnull, exchange_null hnull]
      exact .refuse hc hnull
    · rw [if_neg hnull]
      exact .takeEnqueue hc hnull
  | linking ptr prev =>
    rw [hc] at h
    obtain rfl := Option.some.inj h
    exact .link hc
  | publishing ptr prev =>
    rw [hc] at h
    obtain rfl := Option.some.inj h
    show Proceeds s p (if s.queue.head = .null then _ else _)
    by_cases hnull : s.queue.head = .null
    · rw [if_pos hnull]
      exact .publish hc hnull
    · exact .fail (by rw [hc]; rfl) hnull
  | dequeue =>
    rw [hc] at h
    obtain rfl := Option.some.inj h
    show Proceeds s p (if s.queue.head = .null then _ else _)
    by_cases hnull : s.queue.head = .null
    · rw [if_pos hnull, exchange_null hnull]
      exact .nothing hc hnull
    · rw [if_neg hnull]
      exact .takeDequeue hc hnull
  | reading prev =>
    rw [hc] at h
    obtain rfl := Option.some.inj h
    exact .read hc
  | restoring prev next =>
    rw [hc] at h
    obtain rfl := Option.some.inj h
    show Proceeds s p (if s.queue.head = .null then _ else _)
    by_cases hnull : s.queue.head = .null
    · rw [if_pos hnull]
      exact .restore hc hnull
    · exact .fail (by rw [hc]; rfl) hnull

/-! ## The invariant -/

/-- What a process knows of the links it wrote or read. -/
def Knows (q : Queue β) : Caller β → Prop
  | .publishing ptr prev => q.next ptr = prev
  | .restoring prev next => next = q.after prev
  | _ => True

/-- The list of the queue is `L`. -/
structure QueueInv (s : Shared ι β) (L : List β) : Prop where
  locked : Locked s.slots fun _ => L
  blocks : ∀ p b, (s.callers p).block = some b → b ∉ L
  own : ∀ p q b, (s.callers p).block = some b → (s.callers q).block = some b → p = q
  knows : ∀ p, Knows s.queue (s.callers p)
  running : s.failed = false
  counts : ∀ b, s.returned.count (.enqueued b) =
    s.returned.count (.dequeued b) + L.count b

variable {s s' : Shared ι β} {L L' : List β} {p : ι}

omit [DecidableEq ι] in
theorem QueueInv.content (h : QueueInv s L) : s.Content L := by
  by_cases hnull : s.queue.head = .null
  · obtain ⟨p, l, hp⟩ := h.locked.taken () hnull
    obtain ⟨l', hl', heq⟩ := Option.map_eq_some_iff.mp hp
    obtain rfl : l' = l := (Prod.mk.inj heq).2
    exact Or.inr ⟨hnull, p, l', hl', (h.locked.held p () l' hp).2⟩
  · exact Or.inl ⟨hnull, h.locked.linked () hnull⟩

omit [DecidableEq ι] [DecidableEq β] in
theorem slots_held {l : Link β} (hp : (s.callers p).held = some l) :
    s.slots.held p = some ((), l) := by
  show (s.callers p).held.map _ = _
  rw [hp]
  rfl

omit [DecidableEq ι] in
/-- What a process inside took is where the list starts. -/
theorem QueueInv.held (h : QueueInv s L) {l : Link β} (hp : (s.callers p).held = some l) :
    s.queue.head = .null ∧ Linked s.queue.next l L :=
  h.locked.held p () l (slots_held hp)

omit [DecidableEq ι] in
theorem QueueInv.content_eq (h : QueueInv s L) (hc : s.Content L') : L' = L := by
  rcases hc with ⟨hhead, hlinked⟩ | ⟨_, q, l, hq, hlinked⟩
  · exact hlinked.unique (h.locked.linked () hhead)
  · exact hlinked.unique (h.held hq).2

/-! ## Steps -/

section Steps

variable {c : Caller β} {q : Queue β} {rs : List (Returned β)}

omit [DecidableEq ι] [DecidableEq β] in
theorem update_unit {α : Type} (f : Unit → α) (x : α) : Function.update f () x = fun _ =>
    x :=
  funext fun _ => Function.update_self ..

omit [DecidableEq β] in
/-- A process that goes on, as the library sees it. -/
theorem slots_update (s : Shared ι β) (q : Queue β) (p : ι) (c : Caller β) (failed : Bool)
    (rs : List (Returned β)) :
    (⟨q, Function.update s.callers p c, failed, rs⟩ : Shared ι β).slots
      = ⟨fun _ => q.head, q.next,
        Function.update s.slots.held p (c.held.map fun l => ((), l))⟩ := by
  unfold slots
  dsimp only
  congr 1
  funext p'
  by_cases hp : p' = p
  · subst hp
    rw [Function.update_self, Function.update_self]
  · rw [Function.update_of_ne hp, Function.update_of_ne hp]

omit [DecidableEq β] in
theorem update_block (hc : ∀ b, c.block = some b → (s.callers p).block = some b)
    {p' : ι} {b : β}
    (h : (Function.update s.callers p c p').block = some b) :
    (s.callers p').block = some b := by
  by_cases hp : p' = p
  · subst hp
    rw [Function.update_self] at h
    exact hc b h
  · rwa [Function.update_of_ne hp] at h

omit [DecidableEq ι] in
/-- While a process is inside, no other is. -/
theorem QueueInv.alone (h : QueueInv s L) {p p' : ι} (hp : s.Inside p)
    (hp' : s.Inside p') :
    p = p' := by
  obtain ⟨l, hl⟩ := hp
  obtain ⟨l', hl'⟩ := hp'
  exact h.locked.one p p' () l l' (slots_held hl) (slots_held hl')

omit [DecidableEq ι] [DecidableEq β] in
/-- Only a process inside knows anything. -/
theorem knows_outside (q : Queue β) (hc : c.held = none) : Knows q c := by
  cases c with
  | publishing | restoring => cases hc
  | _ => trivial

omit [DecidableEq ι] [DecidableEq β] in
/-- While no other process is inside, no other knows anything. -/
theorem knows_others (q : Queue β) (h : ∀ p', p' ≠ p → ¬ s.Inside p') :
    ∀ p', p' ≠ p → Knows q (s.callers p') := by
  intro p' hne
  refine knows_outside q ?_
  by_contra hin
  exact h p' hne (Option.ne_none_iff_exists'.mp hin)

omit [DecidableEq β] in
/-- What the processes know when `p` goes on. -/
theorem knows_update {q : Queue β} (hc : Knows q c)
    (hothers : ∀ p', p' ≠ p → Knows q (s.callers p')) :
    ∀ p', Knows q (Function.update s.callers p c p') := by
  intro p'
  by_cases hp : p' = p
  · subst hp
    rw [Function.update_self]
    exact hc
  · rw [Function.update_of_ne hp]
    exact hothers p' hp

/-- A process goes on without touching the queue. -/
theorem inv_same (h : QueueInv s L) (hheld : c.held = (s.callers p).held)
    (hblock : ∀ b, c.block = some b → (s.callers p).block = some b)
    (hknows : Knows s.queue c)
    (hcounts : ∀ b, rs.count (.enqueued b) = rs.count (.dequeued b) + L.count b) :
    QueueInv ⟨s.queue, Function.update s.callers p c, s.failed, rs⟩ L where
  locked := by
    rw [slots_update, hheld]
    have hself : Function.update s.slots.held p ((s.callers p).held.map fun l => ((), l))
        = s.slots.held := Function.update_eq_self p s.slots.held
    rw [hself]
    exact h.locked
  blocks := fun p' b hb => h.blocks p' b (update_block hblock hb)
  own := fun p' p'' b hb hb' =>
    h.own p' p'' b (update_block hblock hb) (update_block hblock hb')
  knows := knows_update hknows fun p' _ => h.knows p'
  running := h.running
  counts := hcounts

/-- The first exchange finds the list. -/
theorem inv_take (h : QueueInv s L) (hout : (s.callers p).held = none)
    (hhead : s.queue.head ≠ .null) (hheld : c.held = some s.queue.head)
    (hblock : ∀ b, c.block = some b → (s.callers p).block = some b)
    (hknows : ∀ q, Knows q c) :
    QueueInv ⟨⟨.null, s.queue.next⟩, Function.update s.callers p c, s.failed,
      s.returned⟩ L where
  locked := by
    have hnone : s.slots.held p = none := by
      show (s.callers p).held.map _ = none
      rw [hout]
      rfl
    have htaken := take_locked h.locked hnone ()
    rw [slots_update, hheld]
    refine Eq.mp (congrArg (fun t => Locked t _) ?_) htaken
    rw [take_open p (show s.slots.heads () ≠ .null from hhead), update_unit]
    rfl
  blocks := fun p' b hb => h.blocks p' b (update_block hblock hb)
  own := fun p' p'' b hb hb' =>
    h.own p' p'' b (update_block hblock hb) (update_block hblock hb')
  knows := knows_update (hknows _) (knows_others _ fun _ _ ⟨_, hl⟩ => hhead (h.held hl).1)
  running := h.running
  counts := h.counts

/-- Inside, `ptr->next` is written. -/
theorem inv_link (h : QueueInv s L) {ptr : β} {prev : Link β}
    (hp : s.callers p = .linking ptr prev) :
    QueueInv ⟨s.queue.link ptr prev,
      Function.update s.callers p (.publishing ptr prev), s.failed,
      s.returned⟩ L where
  locked := by
    have hblock : ptr ∉ L := h.blocks p ptr (by rw [hp]; rfl)
    have hwritten := write_locked h.locked (fun _ => hblock) prev
    have hself : Function.update s.slots.held p ((Caller.publishing ptr prev).held.map
        fun l => ((), l)) = s.slots.held := by
      have hheld : (Caller.publishing ptr prev).held =
          (s.callers p).held := by rw [hp]; rfl
      rw [hheld]
      exact Function.update_eq_self p s.slots.held
    rw [slots_update, hself]
    exact hwritten
  blocks := fun p' b hb =>
    h.blocks p' b (update_block (fun _ hc => by rw [hp]; exact hc) hb)
  own := fun p' p'' b hb hb' => h.own p' p'' b
    (update_block (fun _ hc => by rw [hp]; exact hc) hb)
    (update_block (fun _ hc => by rw [hp]; exact hc) hb')
  knows := knows_update (Function.update_self ..)
    (knows_others _ fun _ hne hin => hne (h.alone hin ⟨prev, by rw [hp]; rfl⟩))
  running := h.running
  counts := h.counts

/-- The second exchange gives the list back. -/
theorem inv_put (h : QueueInv s L) {l₀ l : Link β} (hp : (s.callers p).held = some l₀)
    (hl : Linked s.queue.next l L')
    (hblocks : ∀ p' b, p' ≠ p → (s.callers p').block = some b → b ∉ L')
    (hcounts : ∀ b, rs.count (.enqueued b) = rs.count (.dequeued b) + L'.count b) :
    QueueInv ⟨⟨l, s.queue.next⟩, Function.update s.callers p .idle, s.failed, rs⟩ L' where
  locked := by
    have hput := put_locked h.locked (slots_held hp) hl fun b _ k hk => absurd rfl hk
    rw [update_unit] at hput
    rw [slots_update]
    refine Eq.mp (congrArg (fun t => Locked t _) ?_) hput
    unfold Slots.put
    rw [update_unit]
    rfl
  blocks := by
    intro p' b hb
    have hb' : (Function.update s.callers p .idle p').block = some b := hb
    by_cases hp' : p' = p
    · subst hp'
      rw [Function.update_self] at hb'
      cases hb'
    · rw [Function.update_of_ne hp'] at hb'
      exact hblocks p' b hp' hb'
  own := fun p' p'' b hb hb' => h.own p' p'' b (update_block (fun _ hc => by cases hc) hb)
    (update_block (fun _ hc => by cases hc) hb')
  knows := knows_update trivial
    (knows_others _ fun _ hne hin => hne (h.alone hin ⟨l₀, hp⟩))
  running := h.running
  counts := hcounts

omit [DecidableEq ι] in
/-- What other code writes is not in the list. -/
theorem inv_store (h : QueueInv s L) {ptr : β} (hfree : s.Free ptr) (l : Link β) :
    QueueInv { s with queue := s.queue.link ptr l } L where
  locked := write_locked h.locked (fun _ => hfree.1 L h.content) l
  blocks := h.blocks
  own := h.own
  knows := by
    intro p
    have hknows := h.knows p
    have hblock := hfree.2 p
    show Knows (s.queue.link ptr l) (s.callers p)
    cases hc : s.callers p with
    | publishing ptr' prev =>
      rw [hc] at hknows hblock
      have hne : ptr' ≠ ptr := fun heq => hblock (heq ▸ rfl)
      exact (Function.update_of_ne hne ..).trans hknows
    | restoring prev next =>
      rw [hc] at hknows
      have hlinked := (h.held (p := p) (l := prev) (by rw [hc]; rfl)).2
      cases prev with
      | null | tail => exact hknows
      | node b =>
        obtain ⟨rest, rfl, _⟩ := linked_node.mp hlinked
        have hne : b ≠ ptr := fun heq => hfree.1 _ h.content (heq ▸ List.mem_cons_self)
        exact Eq.trans hknows (Function.update_of_ne hne ..).symm
    | _ => trivial
  running := h.running
  counts := h.counts

/-- What a step did to the list: a block was put in front of it when `enqueue`
returned `true`, the first was taken out when `dequeue` returned it, and nothing
changed when a call returned `false` or `nullptr`, or did not return. -/
inductive Changes (s s' : Shared ι β) (L : List β) : List β → Prop
  | enqueued (ptr : β) : s'.returned = s.returned ++ [.enqueued ptr] →
    Changes s s' L (ptr :: L)
  | dequeued (ptr : β) {rest : List β} : s'.returned = s.returned ++ [.dequeued ptr] →
      L = ptr :: rest → Changes s s' L rest
  | refused (ptr : β) : s'.returned = s.returned ++ [.refused ptr] → Changes s s' L L
  | nothing : s'.returned = s.returned ++ [.nothing] → Changes s s' L L
  | inside : s'.returned = s.returned → Changes s s' L L

omit [DecidableEq ι] in
theorem count_snoc (rs : List (Returned β)) (r x : Returned β) :
    (rs ++ [r]).count x = rs.count x + if r = x then 1 else 0 := by
  rw [List.count_append, List.count_singleton]
  exact congrArg _ (if_congr beq_iff_eq rfl rfl)

/-- **The next step of a call keeps the invariant.** -/
theorem proceed_inv (h : QueueInv s L) (hs : s.proceed p = some s') :
    ∃ L', QueueInv s' L' ∧ Changes s s' L L' := by
  have hquiet : ∀ {r : Returned β}, (∀ ptr, r ≠ .enqueued ptr ∧ r ≠ .dequeued ptr) →
    ∀ ptr,
      (s.returned ++ [r]).count (.enqueued ptr) = s.returned.count (.enqueued ptr) ∧
      (s.returned ++ [r]).count (.dequeued ptr) = s.returned.count (.dequeued ptr) := by
    intro r hr ptr
    rw [count_snoc, count_snoc, if_neg (hr ptr).1, if_neg (hr ptr).2]
    exact ⟨rfl, rfl⟩
  cases proceed_cases hs with
  | @refuse ptr hp _ =>
    have hq := hquiet (r := .refused ptr) fun _ => ⟨nofun, nofun⟩
    exact ⟨L, inv_same h (by rw [hp]; rfl) (fun _ hc => by cases hc) trivial
      (fun b => by rw [(hq b).1, (hq b).2]; exact h.counts b), .refused ptr rfl⟩
  | nothing hp _ =>
    have hq := hquiet (r := .nothing) fun _ => ⟨nofun, nofun⟩
    exact ⟨L, inv_same h (by rw [hp]; rfl) (fun _ hc => by cases hc) trivial
      (fun b => by rw [(hq b).1, (hq b).2]; exact h.counts b), .nothing rfl⟩
  | takeEnqueue hp hhead =>
    exact ⟨L, inv_take h (by rw [hp]; rfl) hhead rfl (fun _ hc => by rw [hp]; exact hc)
      (fun _ => trivial), .inside rfl⟩
  | takeDequeue hp hhead =>
    exact ⟨L, inv_take h (by rw [hp]; rfl) hhead rfl (fun _ hc => by cases hc)
      (fun _ => trivial), .inside rfl⟩
  | link hp => exact ⟨L, inv_link h hp, .inside rfl⟩
  | read hp =>
    exact ⟨L, inv_same h (by rw [hp]; rfl) (fun _ hc => by cases hc) rfl h.counts,
      .inside rfl⟩
  | @publish ptr prev hp _ =>
    have hknows := h.knows p
    rw [hp] at hknows
    have hheld : (s.callers p).held = some prev := by rw [hp]; rfl
    have hblock : (s.callers p).block = some ptr := by rw [hp]; rfl
    have hlinked : Linked s.queue.next (.node ptr) (ptr :: L) :=
      ⟨rfl, hknows.symm ▸ (h.held hheld).2⟩
    refine ⟨ptr :: L, inv_put h hheld hlinked (fun p' b hne hb hmem => ?_) (fun b => ?_),
      .enqueued ptr rfl⟩
    · rcases List.mem_cons.mp hmem with rfl | hmem
      · exact hne (h.own p' p b hb hblock)
      · exact h.blocks p' b hb hmem
    · have hcount := h.counts b
      show (s.returned ++ [Returned.enqueued ptr]).count _
        = (s.returned ++ [Returned.enqueued ptr]).count _ + _
      rw [count_snoc, count_snoc,
        if_neg (show Returned.enqueued ptr ≠ .dequeued b from nofun),
        List.count_cons]
      by_cases hb : ptr = b
      · rw [if_pos (congrArg _ hb), if_pos (beq_iff_eq.mpr hb)]
        omega
      · rw [if_neg fun heq => hb (Returned.enqueued.inj heq),
          if_neg (mt beq_iff_eq.mp hb)]
        omega
  | @restore prev next hp _ =>
    have hknows : next = s.queue.after prev := by
      have hknows := h.knows p
      rw [hp] at hknows
      exact hknows
    have hheld : (s.callers p).held = some prev := by rw [hp]; rfl
    have hlinked := (h.held hheld).2
    cases prev with
    -- what was taken is the end of an empty queue, or a front
    | null => exact (hlinked.ne_null rfl).elim
    | tail =>
      obtain rfl := linked_tail.mp hlinked
      subst hknows
      have hq := hquiet (r := .nothing) fun _ => ⟨nofun, nofun⟩
      exact ⟨[], inv_put h hheld hlinked (fun p' b _ hb => h.blocks p' b hb)
        (fun b => (hq b).1.trans ((h.counts b).trans (congrArg (· + _) (hq b).2.symm))),
        .nothing rfl⟩
    | node ptr =>
      obtain ⟨rest, rfl, hrest⟩ := linked_node.mp hlinked
      subst hknows
      refine ⟨rest, inv_put h hheld hrest (fun p' b _ hb hmem =>
        h.blocks p' b hb (List.mem_cons_of_mem _ hmem)) (fun b => ?_),
          .dequeued ptr rfl rfl⟩
      have hcount := h.counts b
      show (s.returned ++ [Returned.dequeued ptr]).count _
        = (s.returned ++ [Returned.dequeued ptr]).count _ + _
      rw [count_snoc, count_snoc,
        if_neg (show Returned.dequeued ptr ≠ .enqueued b from nofun)]
      rw [List.count_cons] at hcount
      by_cases hb : ptr = b
      · rw [if_pos (congrArg _ hb)]
        rw [if_pos (beq_iff_eq.mpr hb)] at hcount
        omega
      · rw [if_neg fun heq => hb (Returned.dequeued.inj heq)]
        rw [if_neg (mt beq_iff_eq.mp hb)] at hcount
        omega
  | fail hp hhead => exact (hhead (h.held hp).1).elim

theorem step_inv (h : QueueInv s L) {a : QueueAction ι β} (hown : s.Owned a)
    (hs : s.step a = some s') : ∃ L', QueueInv s' L' ∧ Changes s s' L L' := by
  unfold step at hs
  rw [if_neg (h.running ▸ Bool.false_ne_true)] at hs
  cases a with
  | enqueue p ptr =>
    cases hc : s.callers p with
    | idle =>
      simp only [hc] at hs
      obtain rfl := Option.some.inj hs
      refine ⟨L, ?_, .inside rfl⟩
      have hcases :
        ∀ {p' b}, (Function.update s.callers p (.enqueue ptr) p').block = some b →
          (p' = p ∧ b = ptr) ∨ (s.callers p').block = some b := by
        intro p' b hb
        by_cases hp : p' = p
        · subst hp
          rw [Function.update_self] at hb
          exact Or.inl ⟨rfl, (Option.some.inj hb).symm⟩
        · rw [Function.update_of_ne hp] at hb
          exact Or.inr hb
      -- the caller is no longer idle, which is all that changes
      have hidle :=
        inv_same h (p := p) (c := .dequeue) (by rw [hc]; rfl) (fun _ hb => by cases hb)
        trivial h.counts
      refine ⟨?_, fun p' b hb => ?_, fun p' p'' b hb hb' => ?_, fun p' => ?_,
        h.running, h.counts⟩
      · have hlocked := hidle.locked
        rw [slots_update] at hlocked
        show Locked (Shared.slots ⟨s.queue, Function.update s.callers p _, s.failed,
          s.returned⟩) _
        rw [slots_update]
        exact hlocked
      · rcases hcases hb with ⟨_, rfl⟩ | hb
        · exact hown.1 L h.content
        · exact h.blocks p' b hb
      · rcases hcases hb with ⟨rfl, rfl⟩ | hb₁
        · rcases hcases hb' with ⟨rfl, _⟩ | hb₂
          · rfl
          · exact (hown.2 p'' hb₂).elim
        · rcases hcases hb' with ⟨_, rfl⟩ | hb₂
          · exact (hown.2 p' hb₁).elim
          · exact h.own p' p'' b hb₁ hb₂
      · show Knows _ (Function.update s.callers p _ p')
        by_cases hp : p' = p
        · subst hp
          rw [Function.update_self]
          trivial
        · rw [Function.update_of_ne hp]
          exact h.knows p'
    | _ =>
      simp only [hc] at hs
      cases hs
  | dequeue p =>
    cases hc : s.callers p with
    | idle =>
      simp only [hc] at hs
      obtain rfl := Option.some.inj hs
      exact ⟨L, inv_same h (by rw [hc]; rfl) (fun _ hb => by cases hb) trivial h.counts,
        .inside rfl⟩
    | _ =>
      simp only [hc] at hs
      cases hs
  | step p => exact proceed_inv h hs
  | store ptr l =>
    obtain rfl := Option.some.inj hs
    exact ⟨L, inv_store h hown l, .inside rfl⟩

/-! ## What holds of every run -/

omit [DecidableEq ι] in
theorem init_inv (next : β → Link β) : QueueInv (init next : Shared ι β) [] where
  locked := by
    refine ⟨fun p k l hp => ?_, fun p q k l l' hp => ?_, fun k hk => ?_, fun _ _ => rfl,
      fun _ _ _ _ _ => rfl⟩
    · cases hp
    · cases hp
    · cases hk
  blocks := fun _ _ h => by cases h
  own := fun _ _ _ h => by cases h
  knows := fun _ => trivial
  running := rfl
  counts := fun _ => rfl

theorem reachable_inv (h : (system ι β).Reachable Owned s) : ∃ L, QueueInv s L := by
  refine h.invariant (I := fun s => ∃ L, QueueInv s L) ?_ ?_
  · rintro s ⟨next, rfl⟩
    exact ⟨[], init_inv next⟩
  · rintro s a s' ⟨L, hL⟩ hown hs
    obtain ⟨L', hL', _⟩ := step_inv hL hown hs
    exact ⟨L', hL'⟩

/-- What is promised of a state: the list ends, every block is in it once, and it
is there for each `enqueue` that returned `true` until one `dequeue` returned it;
one process at most is between its exchanges; and no assertion has failed. -/
structure QueueSound (s : Shared ι β) : Prop where
  content : ∃ L, s.Content L ∧ L.Nodup ∧
    ∀ b, s.returned.count (.enqueued b) = s.returned.count (.dequeued b) + L.count b
  alone : ∀ p q, s.Inside p → s.Inside q → p = q
  asserted : s.failed = false

omit [DecidableEq ι] in
theorem QueueInv.nodup (h : QueueInv s L) : L.Nodup := by
  rcases h.content with ⟨_, hlinked⟩ | ⟨_, _, _, _, hlinked⟩
  · exact hlinked.nodup
  · exact hlinked.nodup

omit [DecidableEq ι] in
theorem QueueInv.sound (h : QueueInv s L) : QueueSound s :=
  ⟨⟨L, h.content, h.nodup, h.counts⟩, fun _ _ => h.alone, h.running⟩

/-- **The queue keeps its blocks.** However the calls of any number of processes
interleave, where blocks are enqueued only while they are in no queue: every
state is sound, and a step changes the list only when it returns `true` from
`enqueue` or a block from `dequeue`. -/
theorem queue_sound (h : (system ι β).Reachable Owned s) :
    QueueSound s ∧ ∀ a s' L L', s.Owned a → s.step a = some s' → s.Content L →
      s'.Content L' →
      Changes s s' L L' := by
  obtain ⟨L, hinv⟩ := reachable_inv h
  refine ⟨hinv.sound, fun a s' L₁ L₂ hown hs h₁ h₂ => ?_⟩
  obtain ⟨L', hinv', hchanges⟩ := step_inv hinv hown hs
  rw [hinv.content_eq h₁, hinv'.content_eq h₂]
  exact hchanges

omit [DecidableEq ι] [DecidableEq β] in
theorem free_of_tail {b : β} (h : s.queue.head = .tail)
    (hb : ∀ p, (s.callers p).block ≠ some b) :
    s.Free b := by
  refine ⟨fun L hc => ?_, hb⟩
  rcases hc with ⟨_, hlinked⟩ | ⟨hnull, _⟩
  · rw [h] at hlinked
    rw [linked_tail.mp hlinked]
    exact List.not_mem_nil
  · rw [h] at hnull
    cases hnull

/-- One process is inside with its block written, another was refused. -/
theorem queue_sound_two :
    ∃ s, (system Bool Nat).run (init fun _ => .null)
        [.enqueue false 7, .step false, .step false, .dequeue true, .step true] = some s ∧
      s.callers false = .publishing 7 .tail ∧ s.returned = [.nothing] ∧ QueueSound s := by
  refine ⟨_, rfl, rfl, rfl, (queue_sound ?_).1⟩
  have hfree : (init fun _ => .null : Shared Bool Nat).Free 7 :=
    free_of_tail rfl fun _ hb => by cases hb
  have hcall : (system Bool Nat).Reachable Owned _ :=
    .step (.init ⟨fun _ => .null, rfl⟩) (a := .enqueue false 7) hfree rfl
  refine Transition.run_reachable [.step false, .step false, .dequeue true, .step true]
    (fun a ha t => ?_) hcall rfl
  simp only [List.mem_cons, List.not_mem_nil, or_false] at ha
  rcases ha with rfl | rfl | rfl | rfl <;> trivial

end Steps

end Shared

end CharmExperiments.Ipc
