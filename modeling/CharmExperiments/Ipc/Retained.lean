import CharmExperiments.Ipc.Pool
import CharmExperiments.Ipc.Queue

/-!
# The blocks a sender retains

`archive/tests/pingpong/tester.cc`: `send_xpmem` takes a block of its peer, first
from the list of the blocks it had before (`retained_[peer]`), else from the
peer's pool; puts it in front of that list; and passes it to the peer's queue. The
list and the queue use the same field of the block: what `cache_block` writes,
`enqueue` overwrites. So the list is as it should be until the first block is
enqueued, and never again (`retained_iff`): from then on no link the sender can
follow is `nullptr`.

Mirroring notes:
- `alloc_from` is cut at the rounds of its loops, as the peer frees blocks in the
  meantime. A call of `ralloc`, `enqueue` or `dequeue` is one step.
- A step that follows a pointer that is no block is undefined: it is none here.
- `xlatd` and the data of the block are left out: neither is read again.
- `obtained` has the blocks that `ralloc` returned and `sent` counts those
  enqueued; no function reads them.
-/

namespace CharmExperiments.Ipc

open CharmExperiments.Lib

variable {β : Type}

def kMaxSpin : Nat := 16

/-- Where the sender is in `send_xpmem`. -/
inductive Sender (β : Type)
  | idle
  /-- `alloc_from`, before a round of its first loop. -/
  | walking (sz : Nat) (block : Link β)
  /-- `alloc_from`, before a round of its second loop. -/
  | spinning (sz spins : Nat)
  /-- `cache_block(block)`. -/
  | caching (block : β)
  /-- The loop of `enqueue`. -/
  | enqueuing (block : β)

/-- A sender, the pool and the queue of its peer, and what the peer dequeued and has
not marked unused yet. -/
structure PingPong (β : Type) where
  pool : Pool β
  head : Link β
  retained : Link β
  sender : Sender β
  held : List β
  obtained : List β
  sent : Nat

/-- What can happen: `send_xpmem` of a size is called, it takes its next step, the
peer dequeues, or it marks a block unused. -/
inductive PingPongAction (β : Type)
  | send (sz : Nat)
  | step
  | receive
  | release (block : β)

namespace PingPong

variable [DecidableEq β]

/-- The queue of the peer, whose links are in the blocks of the pool. -/
def queue (s : PingPong β) : Queue β := ⟨s.head, s.pool.next⟩

def setQueue (s : PingPong β) (q : Queue β) : PingPong β :=
  { s with head := q.head, pool := { s.pool with next := q.next } }

/-- `cache_block`. -/
def cacheBlock (s : PingPong β) (block : β) : PingPong β :=
  { s with retained := .node block, pool := s.pool.link block s.retained }

/-- The next step of `send_xpmem`. -/
def proceed (beyond : Nat) (s : PingPong β) : Option (PingPong β) :=
  match s.sender with
  | .idle => none
  | .walking sz block =>
    match block with
    | .null => some { s with sender := .spinning sz 0 }
    | .tail => none
    | .node b =>
      if sz ≤ s.pool.size b ∧ s.pool.used b = false then
        some { s with sender := .caching b, pool := (s.pool.mark b true).2 }
      else some { s with sender := .walking sz (s.pool.next b) }
  | .spinning sz spins =>
    match s.pool.ralloc beyond sz with
    | none => none
    | some (.node b, m) =>
      some { s with sender := .caching b, pool := m, obtained := s.obtained ++ [b] }
    | some (_, m) =>
      -- `alloc_from` gives up in the end, and `send_xpmem` calls it again
      if spins + 1 < kMaxSpin then
        some { s with sender := .spinning sz (spins + 1), pool := m }
      else some { s with sender := .walking sz s.retained, pool := m }
  | .caching b => some { s.cacheBlock b with sender := .enqueuing b }
  | .enqueuing b =>
    match s.queue.enqueue b with
    | none => none
    | some (true, q) => some { s.setQueue q with sender := .idle, sent := s.sent + 1 }
    | some (false, q) => some (s.setQueue q)

/-- One step; `none` when it cannot be taken, or is undefined. -/
def step (beyond : Nat) (s : PingPong β) : PingPongAction β → Option (PingPong β)
  | .send sz =>
    match s.sender with
    | .idle => some { s with sender := .walking sz s.retained }
    | _ => none
  | .step => s.proceed beyond
  | .receive =>
    match s.queue.dequeue with
    | some (.node b, q) => some { s.setQueue q with held := s.held ++ [b] }
    | some (_, q) => some (s.setQueue q)
    | none => none
  | .release b =>
    if b ∈ s.held then
      some { s with held := s.held.erase b, pool := (s.pool.mark b false).2 }
    else none

/-- A pool into which unused blocks were put. -/
def Stocked (beyond : Nat) (m : Pool β) : Prop :=
  ∃ lists : Fin kNumCutOffPoints → List β,
    (∀ pt, Linked m.next (m.heads pt) (lists pt)) ∧
    (∀ pt pt' b, b ∈ lists pt → b ∈ lists pt' → pt = pt') ∧
    ∀ pt, ∀ b ∈ lists pt, m.used b = false ∧ m.size b = cutOffPoint beyond pt

/-- The sender and its peer, before the first block is sent. -/
def system (beyond : Nat) (β : Type) [DecidableEq β] :
    Transition (PingPong β) (PingPongAction β) where
  init s := ∃ m, Stocked beyond m ∧ s = ⟨m, .tail, .null, .idle, [], [], 0⟩
  step := step beyond

/-! ## The list -/

/-- The blocks from a link on are `bs`, and `nullptr` ends them. -/
def Retains (next : β → Link β) : Link β → List β → Prop
  | l, [] => l = .null
  | l, b :: bs => l = .node b ∧ Retains next (next b) bs

/-- The retained list ends in `nullptr`, and has blocks obtained from the peer's pool
only, each once. -/
def RetainedOk (s : PingPong β) : Prop :=
  ∃ L, Retains s.pool.next s.retained L ∧ L.Nodup ∧ ∀ b ∈ L, b ∈ s.obtained

/-- A link to a block of `P`, or the sentinel. -/
def Within (P : β → Prop) : Link β → Prop
  | .null => False
  | .tail => True
  | .node b => P b

omit [DecidableEq β] in
/-- Among blocks whose links are all `Within`, no list ends in `nullptr`. -/
theorem not_retains {P : β → Prop} {next : β → Link β}
    (hnext : ∀ b, P b → Within P (next b)) :
    ∀ {L : List β} {l : Link β}, Within P l → ¬Retains next l L := by
  intro L
  induction L with
  | nil =>
    intro l hl h
    rw [show l = .null from h] at hl
    exact hl
  | cons b L ih =>
    rintro l hl ⟨rfl, hrest⟩
    exact ih (hnext b hl) hrest

/-- What every reachable state keeps, of the blocks `P` that were in the pool. Before
the first block is enqueued, the only link to `nullptr` is of the block being
enqueued; afterwards there is none. -/
structure RetainedInv (P : β → Prop) (s : PingPong β) : Prop where
  heads : ∀ pt, Within P (s.pool.heads pt)
  head : Within P s.head
  next : ∀ b, P b → Within P (s.pool.next b) ∨ s.sent = 0 ∧ s.sender = .enqueuing b
  walking : ∀ sz b, s.sender = .walking sz (.node b) → P b ∧ s.sent ≠ 0
  caching : ∀ b, s.sender = .caching b → P b ∧ (s.sent = 0 → b ∈ s.obtained)
  enqueuing : ∀ b, s.sender = .enqueuing b → P b ∧
    (s.sent = 0 → b ∈ s.obtained ∧ s.retained = .node b ∧ s.pool.next b = .null)
  first : s.sent = 0 → s.head = .tail ∧
    (s.retained = .null ∨ ∃ b, s.sender = .enqueuing b)
  later : s.sent ≠ 0 → Within P s.retained

variable {P : β → Prop} {beyond : Nat} {s s' : PingPong β}

omit [DecidableEq β] in
theorem RetainedInv.next_within (h : RetainedInv P s) {b : β} (hb : P b)
    (hsender : ∀ b, s.sender ≠ .enqueuing b) : Within P (s.pool.next b) :=
  (h.next b hb).resolve_right fun hlast => hsender b hlast.2

omit [DecidableEq β] in
theorem RetainedInv.retained (h : RetainedInv P s)
    (hsender : ∀ b, s.sender ≠ .enqueuing b) :
    s.sent = 0 ∧ s.retained = .null ∨ s.sent ≠ 0 ∧ Within P s.retained := by
  by_cases hsent : s.sent = 0
  · exact Or.inl ⟨hsent, (h.first hsent).2.resolve_right fun ⟨b, hb⟩ => hsender b hb⟩
  · exact Or.inr ⟨hsent, h.later hsent⟩

omit [DecidableEq β] in
theorem RetainedInv.retained_node (h : RetainedInv P s)
    (hsender : ∀ b, s.sender ≠ .enqueuing b)
    {b : β} (hl : s.retained = .node b) : P b ∧ s.sent ≠ 0 := by
  rcases h.retained hsender with ⟨_, hnull⟩ | ⟨hsent, hwithin⟩
  · exact (Link.node_ne_null b (hl.symm.trans hnull)).elim
  · rw [hl] at hwithin
    exact ⟨hwithin, hsent⟩

omit [DecidableEq β] in
/-- The sender starts on its list, or goes on to the pool. -/
theorem inv_goes (h : RetainedInv P s) (hsender : ∀ b, s.sender ≠ .enqueuing b)
    {c : Sender β}
    (hwalking : ∀ sz b, c = .walking sz (.node b) → P b ∧ s.sent ≠ 0)
    (hcaching : ∀ b, c = .caching b → P b ∧ s.sent ≠ 0) (hc : ∀ b, c ≠ .enqueuing b)
    {m : Pool β} (hheads : ∀ pt, Within P (m.heads pt)) (hnext : m.next = s.pool.next) :
    RetainedInv P { s with sender := c, pool := m } where
  heads := hheads
  head := h.head
  next := fun b hb => Or.inl (by rw [hnext]; exact h.next_within hb hsender)
  walking := hwalking
  caching := fun b hb => ⟨(hcaching b hb).1, fun hsent => absurd hsent (hcaching b hb).2⟩
  enqueuing := fun b hb => absurd hb (hc b)
  first := fun hsent =>
    ⟨(h.first hsent).1, Or.inl ((h.first hsent).2.resolve_right fun ⟨b, hb⟩ =>
      hsender b hb)⟩
  later := h.later

/-- What `ralloc` does to the pool. -/
theorem ralloc_cases {m m' : Pool β} {sz : Nat} {l : Link β}
    (h : m.ralloc beyond sz = some (l, m')) :
    (l = .null ∧ m'.next = m.next ∧ ∀ pt, m'.heads pt = m.heads pt) ∨
    ∃ pt b, l = .node b ∧ m.heads pt = .node b ∧ m'.next = m.next ∧
      m'.heads = Function.update m.heads pt (m.next b) := by
  unfold Pool.ralloc at h
  cases hpt : sizeClass beyond sz with
  | none =>
    rw [hpt] at h
    obtain ⟨rfl, rfl⟩ := Prod.mk.inj (Option.some.inj h)
    exact Or.inl ⟨rfl, rfl, fun _ => rfl⟩
  | some pt =>
    rw [hpt] at h
    cases hhead : m.heads pt with
    | null =>
      simp only [Pool.exchange, hhead] at h
      obtain ⟨rfl, rfl⟩ := Prod.mk.inj (Option.some.inj h)
      refine Or.inl ⟨rfl, rfl, fun pt' => ?_⟩
      exact congrFun (hhead ▸ Function.update_eq_self pt m.heads) pt'
    | tail =>
      simp only [Pool.exchange, hhead, Function.update_self, if_true,
        Function.update_idem] at h
      obtain ⟨rfl, rfl⟩ := Prod.mk.inj (Option.some.inj h)
      refine Or.inl ⟨rfl, rfl, fun pt' => ?_⟩
      exact congrFun (hhead ▸ Function.update_eq_self pt m.heads) pt'
    | node b =>
      simp only [Pool.exchange, Pool.mark, hhead, Function.update_self, and_true,
        Function.update_idem] at h
      split at h
      next =>
        obtain ⟨rfl, rfl⟩ := Prod.mk.inj (Option.some.inj h)
        exact Or.inr ⟨pt, b, rfl, hhead, rfl, rfl⟩
      next => cases h

/-- The walk goes on, or ends at a block that fits or at the end of the list. -/
theorem walking_inv (h : RetainedInv P s) {sz : Nat} {block : Link β}
    (hc : s.sender = .walking sz block) (hs : s.proceed beyond = some s') :
    RetainedInv P s' := by
  have hsender : ∀ b, s.sender ≠ .enqueuing b := by rw [hc]; exact nofun
  unfold proceed at hs
  simp only [hc] at hs
  cases block with
  | null =>
    obtain rfl := Option.some.inj hs
    exact inv_goes h (c := .spinning sz 0) hsender nofun nofun nofun h.heads rfl
  | tail => cases hs
  | node b =>
    obtain ⟨hb, hsent⟩ := h.walking sz b hc
    simp only at hs
    split at hs
    next =>
      obtain rfl := Option.some.inj hs
      refine inv_goes h (c := .caching b) hsender nofun
        (fun c hcb => ?_) nofun h.heads rfl
      obtain rfl := Sender.caching.inj hcb
      exact ⟨hb, hsent⟩
    next =>
      obtain rfl := Option.some.inj hs
      refine inv_goes h (c := .walking sz (s.pool.next b)) hsender
        (fun sz' c hcb => ⟨?_, hsent⟩)
        nofun nofun h.heads rfl
      have hnext := h.next_within hb hsender
      rw [(Sender.walking.inj hcb).2] at hnext
      exact hnext

/-- `ralloc` has a block, or there is one more spin, or the list is walked again. -/
theorem spinning_inv (h : RetainedInv P s) {sz spins : Nat}
    (hc : s.sender = .spinning sz spins) (hs : s.proceed beyond = some s') :
    RetainedInv P s' := by
  have hsender : ∀ b, s.sender ≠ .enqueuing b := by rw [hc]; exact nofun
  unfold proceed at hs
  simp only [hc] at hs
  cases hr : s.pool.ralloc beyond sz with
  | none =>
    rw [hr] at hs
    cases hs
  | some r =>
    obtain ⟨l, m⟩ := r
    rw [hr] at hs
    rcases ralloc_cases hr with ⟨rfl, hnext, hheads⟩ | ⟨pt, b, rfl, hhead, hnext, hheads⟩
    · have hheads' : ∀ pt, Within P (m.heads pt) :=
        fun pt => by rw [hheads]; exact h.heads pt
      simp only at hs
      split at hs
      next =>
        obtain rfl := Option.some.inj hs
        exact inv_goes h (c := .spinning sz (spins + 1)) hsender nofun nofun
          nofun hheads' hnext
      next =>
        obtain rfl := Option.some.inj hs
        refine inv_goes h (c := .walking sz s.retained) hsender
          (fun sz' b hb => ?_) nofun nofun
          hheads' hnext
        exact h.retained_node hsender (Sender.walking.inj hb).2
    · -- the block of `ralloc` was in one of the lists of the pool
      have hb : P b := by
        have hwithin := h.heads pt
        rw [hhead] at hwithin
        exact hwithin
      obtain rfl := Option.some.inj hs
      refine ⟨fun pt' => ?_, h.head, fun a ha => Or.inl ?_, nofun, fun a ha => ?_, nofun,
        fun hsent => ?_, h.later⟩
      · show Within P (m.heads pt')
        rw [hheads]
        by_cases hpt : pt' = pt
        · subst hpt
          rw [Function.update_self]
          exact h.next_within hb hsender
        · rw [Function.update_of_ne hpt]
          exact h.heads pt'
      · show Within P (m.next a)
        rw [hnext]
        exact h.next_within ha hsender
      · obtain rfl := Sender.caching.inj ha
        exact ⟨hb, fun _ => List.mem_append_right _ (List.mem_singleton_self _)⟩
      · exact ⟨(h.first hsent).1,
          Or.inl ((h.first hsent).2.resolve_right fun ⟨b, hb⟩ => hsender b hb)⟩

/-- The block becomes the front of the retained list. -/
theorem caching_inv (h : RetainedInv P s) {b : β} (hc : s.sender = .caching b)
    (hs : s.proceed beyond = some s') : RetainedInv P s' := by
  have hsender : ∀ b, s.sender ≠ .enqueuing b := by rw [hc]; exact nofun
  unfold proceed at hs
  obtain ⟨hb, hobtained⟩ := h.caching b hc
  rw [hc] at hs
  obtain rfl := Option.some.inj hs
  refine ⟨h.heads, h.head, fun a ha => ?_, nofun, nofun, fun a ha => ?_,
    fun hsent => ⟨(h.first hsent).1, Or.inr ⟨b, rfl⟩⟩, fun _ => hb⟩
  · show Within P (Function.update s.pool.next b s.retained a) ∨ _
    -- only the link of the new front is written
    by_cases hab : a = b
    · subst hab
      rw [Function.update_self]
      rcases h.retained hsender with ⟨hsent, _⟩ | ⟨_, hwithin⟩
      · exact Or.inr ⟨hsent, rfl⟩
      · exact Or.inl hwithin
    · rw [Function.update_of_ne hab]
      exact Or.inl (h.next_within ha hsender)
  · obtain rfl := Sender.enqueuing.inj ha
    refine ⟨hb, fun hsent => ⟨hobtained hsent, rfl, ?_⟩⟩
    show Function.update s.pool.next b s.retained b = _
    rw [Function.update_self]
    exact (h.first hsent).2.resolve_right fun ⟨b, hb⟩ => hsender b hb

/-- The block is linked into the queue, by the field that linked it into the retained list. -/
theorem enqueuing_inv (h : RetainedInv P s) {b : β} (hc : s.sender = .enqueuing b)
    (hs : s.proceed beyond = some s') : RetainedInv P s' := by
  unfold proceed at hs
  obtain ⟨hb, hfirst⟩ := h.enqueuing b hc
  have hopen : s.queue.head ≠ .null := fun hnull => by
    have hwithin := h.head
    rw [show s.head = .null from hnull] at hwithin
    exact hwithin
  simp only [hc, Queue.enqueue_open hopen] at hs
  obtain rfl := Option.some.inj hs
  refine ⟨h.heads, hb, fun a ha => Or.inl ?_, nofun, nofun, nofun, nofun, fun _ => ?_⟩
  · show Within P (Function.update s.pool.next b s.head a)
    by_cases hab : a = b
    · subst hab
      rw [Function.update_self]
      exact h.head
    · rw [Function.update_of_ne hab]
      refine (h.next a ha).resolve_right fun hlast => hab ?_
      exact (Sender.enqueuing.inj (hc.symm.trans hlast.2)).symm
  · show Within P s.retained
    -- with the first send the retained list is that block; later it is `Within` already
    by_cases hsent : s.sent = 0
    · rw [(hfirst hsent).2.1]
      exact hb
    · exact h.later hsent

/-- **The next step of the sender keeps the invariant.** -/
theorem proceed_inv (h : RetainedInv P s) (hs : s.proceed beyond = some s') :
    RetainedInv P s' := by
  cases hc : s.sender with
  | idle =>
    unfold proceed at hs
    rw [hc] at hs
    cases hs
  | walking sz block => exact walking_inv h hc hs
  | spinning sz spins => exact spinning_inv h hc hs
  | caching b => exact caching_inv h hc hs
  | enqueuing b => exact enqueuing_inv h hc hs

theorem step_inv (h : RetainedInv P s) {a : PingPongAction β}
    (hs : s.step beyond a = some s') :
    RetainedInv P s' := by
  cases a with
  | send sz =>
    cases hc : s.sender with
    | idle =>
      have hsender : ∀ b, s.sender ≠ .enqueuing b := by rw [hc]; exact nofun
      simp only [step, hc] at hs
      obtain rfl := Option.some.inj hs
      refine inv_goes h (c := .walking sz s.retained) hsender
        (fun sz' b hb => ?_) nofun nofun
        h.heads rfl
      exact h.retained_node hsender (Sender.walking.inj hb).2
    | _ =>
      simp only [step, hc] at hs
      cases hs
  | step => exact proceed_inv h hs
  | receive =>
    simp only [step, queue] at hs
    cases hhead : s.head with
    | null =>
      have hwithin := h.head
      rw [hhead] at hwithin
      exact hwithin.elim
    | tail =>
      rw [hhead, Queue.dequeue_tail] at hs
      obtain rfl := Option.some.inj hs
      rw [show s.setQueue ⟨.tail, s.pool.next⟩ = s by unfold setQueue; rw [← hhead]]
      exact h
    | node b =>
      have hb : P b := by
        have hwithin := h.head
        rw [hhead] at hwithin
        exact hwithin
      -- something was sent, else the queue were empty
      have hsent : s.sent ≠ 0 := fun hsent =>
        Link.node_ne_tail b (hhead.symm.trans (h.first hsent).1)
      rw [hhead, Queue.dequeue_node] at hs
      obtain rfl := Option.some.inj hs
      exact ⟨h.heads, (h.next b hb).resolve_right fun hlast => hsent hlast.1,
        h.next, h.walking, h.caching, h.enqueuing, fun hs => absurd hs hsent, h.later⟩
  | release b =>
    simp only [step] at hs
    split at hs
    next =>
      obtain rfl := Option.some.inj hs
      exact ⟨h.heads, h.head, h.next, h.walking, h.caching, h.enqueuing, h.first, h.later⟩
    next => cases hs

/-! ## What holds of every run -/

omit [DecidableEq β] in
theorem linked_within {next : β → Link β} {l : Link β} {bs : List β}
    (h : Linked next l bs) (hP : ∀ b ∈ bs, P b) : Within P l := by
  cases bs with
  | nil =>
    rw [show l = .tail from h]
    trivial
  | cons b bs =>
    rw [h.1]
    exact hP b List.mem_cons_self

theorem reachable_inv (h : (system beyond β).Reachable (fun _ _ => True) s) :
    ∃ P, RetainedInv P s := by
  refine h.invariant (I := fun s => ∃ P, RetainedInv P s) ?_ ?_
  · rintro s ⟨m, ⟨lists, hlinked, _, _⟩, rfl⟩
    refine ⟨fun b => ∃ pt, b ∈ lists pt, fun pt => ?_, trivial, fun b hb =>
      Or.inl ?_, nofun, nofun, nofun, fun _ => ⟨rfl, Or.inl rfl⟩, fun hsent =>
        absurd rfl hsent⟩
    · exact linked_within (hlinked pt) fun b hb => ⟨pt, hb⟩
    · obtain ⟨pt, hmem⟩ := hb
      obtain ⟨pre, post, heq, hpost⟩ := (hlinked pt).suffix hmem
      refine linked_within hpost fun c hc => ⟨pt, ?_⟩
      rw [heq]
      exact List.mem_append_right _ (List.mem_cons_of_mem _ hc)
  · rintro s a s' ⟨P, hP⟩ _ hs
    exact ⟨P, step_inv hP hs⟩

/-- **The retained list is as it should be until the first block is enqueued, and
never again.** -/
theorem retained_iff (h : (system beyond β).Reachable (fun _ _ => True) s) :
    s.RetainedOk ↔ s.sent = 0 := by
  obtain ⟨P, hinv⟩ := reachable_inv h
  constructor
  · rintro ⟨L, hL, _⟩
    by_contra hsent
    refine not_retains (fun b hb => ?_) (hinv.later hsent) hL
    exact (hinv.next b hb).resolve_right fun hlast => hsent hlast.1
  · intro hsent
    rcases (hinv.first hsent).2 with hnull | ⟨b, hb⟩
    · exact ⟨[], hnull, List.nodup_nil, fun _ hmem => by cases hmem⟩
    · obtain ⟨hmem, hretained, hnext⟩ := (hinv.enqueuing b hb).2 hsent
      exact ⟨[b], ⟨hretained, hnext⟩, List.nodup_singleton b,
        fun c hc => List.mem_singleton.mp hc ▸ hmem⟩

/-- A pool with block 5, of 64 bytes. -/
def onePool : Pool Nat :=
  ⟨fun pt => if pt.val = 0 then .node 5
    else .tail, fun _ => .tail, fun _ => false, fun _ => 64⟩

theorem onePool_stocked : Stocked 0 onePool := by
  refine ⟨fun pt => if pt.val = 0 then [5]
    else [], fun pt => ?_, fun pt pt' b hb hb' => ?_,
    fun pt b hb => ⟨rfl, ?_⟩⟩
  · by_cases hpt : pt.val = 0
    · simp only [onePool, hpt, if_true]
      exact ⟨rfl, rfl⟩
    · simp only [onePool, hpt, if_false]
      rfl
  · by_cases hpt : pt.val = 0 <;> by_cases hpt' : pt'.val = 0 <;>
      simp_all [Fin.ext_iff]
  · by_cases hpt : pt.val = 0
    · rw [hpt]
      rfl
    · simp [hpt] at hb

def oneStart : PingPong Nat := ⟨onePool, .tail, .null, .idle, [], [], 0⟩

theorem oneStart_reachable {s : PingPong Nat} (as : List (PingPongAction Nat))
    (h : (system 0 Nat).run oneStart as = some s) :
    (system 0 Nat).Reachable (fun _ _ => True) s :=
  Transition.run_reachable as (fun _ _ _ => trivial) (.init ⟨_, onePool_stocked, rfl⟩) h

/-- The first block is in the list and not yet in the queue. -/
theorem retained_iff_first :
    ∃ s, (system 0 Nat).run oneStart [.send 64, .step, .step, .step] = some s ∧
      s.retained = .node 5 ∧ (s.RetainedOk ↔ s.sent = 0) :=
  ⟨_, rfl, rfl, retained_iff (oneStart_reachable [.send 64, .step, .step, .step] rfl)⟩

/-- Once the first block is sent, the list does not end; the next `send_xpmem` takes
the sentinel of the queue for a block. -/
theorem past_the_end :
    ∃ s, (system 0 Nat).Reachable (fun _ _ => True) s ∧ ¬s.RetainedOk ∧
      ∃ s', (system 0 Nat).run s [.send 64, .step] = some s' ∧
        s'.sender = .walking 64 .tail := by
  have hsent := oneStart_reachable (s := _) [.send 64, .step, .step, .step, .step] rfl
  refine ⟨_, hsent, ?_, _, rfl, rfl⟩
  rintro ⟨L, hL, _⟩
  cases L with
  | nil => cases hL
  | cons b L =>
    obtain ⟨hb, hrest⟩ := hL
    obtain rfl := Link.node.inj hb
    cases L with
    | nil => cases hrest
    | cons c L => cases hrest.1

end PingPong

end CharmExperiments.Ipc
