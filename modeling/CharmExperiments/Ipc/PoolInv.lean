import CharmExperiments.Ipc.Pool

/-!
# The pool under calls that interleave

Every block has a `Place`: in the list of a class, in the hands of a call, or with
whoever was given it. `PoolInv` is a place for every block that fits the lists
(`Lib.LockedList`), what the processes inside know, and what the calls returned.
As a block has one place, that it is nowhere else needs no proof.

`PoolInv.act` is the frame: a step is of some processes and touches some blocks
that no other process looks at, and what has to be shown is about those only.
-/

namespace CharmExperiments.Ipc

open CharmExperiments.Lib

variable {ι β : Type}

/-- Where a block is. -/
inductive Place (ι : Type)
  /-- With whoever `ralloc` returned it to, or not yet put. -/
  | outside
  /-- In the list of a class. -/
  | listed (pt : Fin kNumCutOffPoints)
  /-- In the hands of the call of a process. -/
  | inCall (p : ι)

namespace PoolCaller

/-- What a process has taken from which head: it is between its two exchanges. -/
def held : PoolCaller β → Option (Fin kNumCutOffPoints × Link β)
  | .linking _ pt head | .publishing _ pt head => some (pt, head)
  | .restoring pt => some (pt, .tail)
  | .reading _ pt xlatd | .swapping _ pt xlatd _ => some (pt, .node xlatd)
  | .idle | .lput _ | .ralloc _ | .marking .. => none

/-- The block a call is putting, or has taken out. -/
def block : PoolCaller β → Option β
  | .lput blk | .linking blk _ _ | .publishing blk _ _ | .marking _ blk _ => some blk
  | .idle | .ralloc _ | .restoring _ | .reading .. | .swapping .. => none

/-- The call relies on what is in block `b`. -/
def Watches (c : PoolCaller β) (b : β) : Prop :=
  c.block = some b ∨ ∃ pt, c.held = some (pt, .node b)

end PoolCaller

namespace Pooled

/-- Process `p` is between its two exchanges of the head of class `pt`. -/
def Inside (s : Pooled ι β) (pt : Fin kNumCutOffPoints) (p : ι) : Prop :=
  ∃ l, (s.callers p).held = some (pt, l)

/-- The blocks in the list of class `pt`, from the head or from what the process
between its two exchanges took. -/
def Content (s : Pooled ι β) (pt : Fin kNumCutOffPoints) (L : List β) : Prop :=
  (s.pool.heads pt ≠ .null ∧ Linked s.pool.next (s.pool.heads pt) L) ∨
  (s.pool.heads pt = .null ∧
    ∃ p l, (s.callers p).held = some (pt, l) ∧ Linked s.pool.next l L)

/-- Block `b` is neither in the pool nor in the hands of a call. -/
def Free (s : Pooled ι β) (b : β) : Prop :=
  (∀ pt L, s.Content pt L → b ∉ L) ∧ ∀ p, (s.callers p).block ≠ some b

/-- Blocks are put only while they are not in the pool and marked unused, and
written by other code only while they are not in the pool. -/
def Owned (s : Pooled ι β) : PoolAction ι β → Prop
  | .lput _ blk => s.Free blk ∧ s.pool.used blk = false
  | .store blk _ _ _ => s.Free blk
  | .ralloc _ _ | .step _ => True

/-- The heads and the processes, as `Lib.LockedList` sees them. -/
def slots (s : Pooled ι β) : Slots (Fin kNumCutOffPoints) ι β where
  heads := s.pool.heads
  next := s.pool.next
  held p := (s.callers p).held

/-- The block was put as often as it was returned; it was never put, or is released. -/
def Settled (s : Pooled ι β) (b : β) : Prop :=
  (s.ledger b).puts = (s.ledger b).allocs ∧
    ((s.ledger b).puts = 0 ∨ (s.ledger b).released = true)

/-- What a call knows of the blocks it watches. -/
def Knows (beyond : Nat) (s : Pooled ι β) : PoolCaller β → Prop
  | .lput blk => s.Settled blk
  | .linking blk pt _ => s.Settled blk ∧ s.pool.size blk = cutOffPoint beyond pt
  | .publishing blk pt head =>
    s.Settled blk ∧ s.pool.size blk = cutOffPoint beyond pt ∧ s.pool.next blk = head
  | .reading sz pt _ => sz ≤ cutOffPoint beyond pt
  | .swapping sz pt xlatd next => sz ≤ cutOffPoint beyond pt ∧ next = s.pool.next xlatd
  | .marking sz xlatd swap =>
    (s.ledger xlatd).puts = (s.ledger xlatd).allocs + 1 ∧ sz ≤ s.pool.size xlatd ∧
    swap = .null
  | .idle | .ralloc _ | .restoring _ => True

/-- What holds of a block by its place. -/
def Keeps (beyond : Nat) (s : Pooled ι β) (b : β) : Place ι → Prop
  | .outside =>
    (s.ledger b).puts = (s.ledger b).allocs ∧
      ((s.ledger b).puts = 0 ∨ s.pool.used b = true ∨ (s.ledger b).released = true)
  | .listed pt =>
    (s.ledger b).puts = (s.ledger b).allocs + 1 ∧ s.pool.used b = false ∧
      s.pool.size b = cutOffPoint beyond pt
  | .inCall _ => s.pool.used b = false

/-- The lists are `lists`, and every block is where `place` says. -/
structure PoolInv (beyond : Nat) (s : Pooled ι β) (lists : Fin kNumCutOffPoints → List β)
    (place : β → Place ι) : Prop where
  locked : Locked s.slots lists
  listed : ∀ pt b, b ∈ lists pt ↔ place b = .listed pt
  called : ∀ p b, (s.callers p).block = some b ↔ place b = .inCall p
  knows : ∀ p, Knows beyond s (s.callers p)
  keeps : ∀ b, Keeps beyond s b (place b)
  served : ∀ x ∈ s.served, x.1 ≤ x.2
  running : s.failed = false

variable {beyond : Nat} {s s' : Pooled ι β} {p : ι} {c : PoolCaller β}
  {lists lists' : Fin kNumCutOffPoints → List β} {place place' : β → Place ι}

/-! ## The frame -/

/-- A block is as it was. -/
structure Agree (s s' : Pooled ι β) (b : β) : Prop where
  next : s'.pool.next b = s.pool.next b
  used : s'.pool.used b = s.pool.used b
  size : s'.pool.size b = s.pool.size b
  ledger : s'.ledger b = s.ledger b

theorem settled_congr {b : β} (h : Agree s s' b) : s'.Settled b ↔ s.Settled b := by
  unfold Settled
  rw [h.ledger]

theorem knows_congr (h : ∀ b, c.Watches b → Agree s s' b) :
    Knows beyond s' c ↔ Knows beyond s c := by
  have hblock : ∀ b, c.block = some b → Agree s s' b := fun b hb => h b (Or.inl hb)
  cases c with
  | lput blk => exact settled_congr (hblock blk rfl)
  | linking blk pt head =>
    have hb := hblock blk rfl
    exact and_congr (settled_congr hb) (by rw [hb.size])
  | publishing blk pt head =>
    have hb := hblock blk rfl
    exact and_congr (settled_congr hb) (by rw [hb.size, hb.next])
  | swapping sz pt xlatd next =>
    have hb := h xlatd (Or.inr ⟨pt, rfl⟩)
    exact and_congr Iff.rfl (by rw [hb.next])
  | marking sz xlatd swap =>
    have hb := hblock xlatd rfl
    exact and_congr (by rw [hb.ledger]) (and_congr (by rw [hb.size]) Iff.rfl)
  | _ => exact Iff.rfl

theorem keeps_congr {b : β} {pl : Place ι} (h : Agree s s' b) :
    Keeps beyond s' b pl ↔ Keeps beyond s b pl := by
  cases pl <;> (unfold Keeps; simp only [h.used, h.size, h.ledger])

/-- **A step of the processes `A` that touches the blocks `T`.** No other process
watches a block of `T`, so the invariant is to be shown for `A` and `T` only. -/
theorem PoolInv.act (h : PoolInv beyond s lists place) (A : ι → Prop) (T : β → Prop)
    (hcallers : ∀ q, ¬A q → s'.callers q = s.callers q)
    (hagree : ∀ a, ¬T a → Agree s s' a ∧ place' a = place a)
    (hfree : ∀ a, T a → ∀ q, ¬A q → ¬(s.callers q).Watches a ∧ place' a ≠ .inCall q)
    (hlocked : Locked s'.slots lists') (hlisted : ∀ pt a, a ∈ lists' pt ↔
      place' a = .listed pt)
    (hcalled : ∀ q, A q → ∀ a, (s'.callers q).block = some a ↔ place' a = .inCall q)
    (hknows : ∀ q, A q → Knows beyond s' (s'.callers q))
    (hkeeps : ∀ a, T a → Keeps beyond s' a (place' a))
    (hserved : ∀ x ∈ s'.served, x.1 ≤ x.2) (hrunning : s'.failed = false) :
    PoolInv beyond s' lists' place' where
  locked := hlocked
  listed := hlisted
  called := by
    intro q a
    by_cases hq : A q
    · exact hcalled q hq a
    · rw [hcallers q hq]
      by_cases ha : T a
      · obtain ⟨hwatch, hne⟩ := hfree a ha q hq
        exact iff_of_false (fun hb => hwatch (Or.inl hb)) hne
      · rw [(hagree a ha).2]
        exact h.called q a
  knows := by
    intro q
    by_cases hq : A q
    · exact hknows q hq
    · rw [hcallers q hq]
      -- what another process knows is of blocks that are not touched
      refine (knows_congr fun b hb => ?_).mpr (h.knows q)
      exact (hagree b fun ha => (hfree b ha q hq).1 hb).1
  keeps := by
    intro a
    by_cases ha : T a
    · exact hkeeps a ha
    · obtain ⟨hag, hpl⟩ := hagree a ha
      rw [hpl]
      exact (keeps_congr hag).mpr (h.keeps a)
  served := hserved
  running := hrunning

/-! ## Reading the invariant -/

/-- The list of a class is what the invariant says. -/
theorem PoolInv.content (h : PoolInv beyond s lists place) (pt : Fin kNumCutOffPoints) :
    s.Content pt (lists pt) := by
  by_cases hnull : s.pool.heads pt = .null
  · obtain ⟨p, l, hp⟩ := h.locked.taken pt hnull
    exact Or.inr ⟨hnull, p, l, hp, (h.locked.held p pt l hp).2⟩
  · exact Or.inl ⟨hnull, h.locked.linked pt hnull⟩

theorem PoolInv.content_eq (h : PoolInv beyond s lists place) {pt : Fin kNumCutOffPoints}
    {L : List β} (hc : s.Content pt L) : L = lists pt := by
  rcases hc with ⟨hhead, hlinked⟩ | ⟨_, q, l, hq, hlinked⟩
  · exact hlinked.unique (h.locked.linked pt hhead)
  · exact hlinked.unique (h.locked.held q pt l hq).2

theorem PoolInv.nodup (h : PoolInv beyond s lists place) (pt : Fin kNumCutOffPoints) :
    (lists pt).Nodup := by
  rcases h.content pt with ⟨_, hlinked⟩ | ⟨_, _, _, _, hlinked⟩
  · exact hlinked.nodup
  · exact hlinked.nodup

theorem PoolInv.outside (h : PoolInv beyond s lists place) {b : β} (hfree : s.Free b) :
    place b = .outside := by
  cases hb : place b with
  | outside => rfl
  | listed pt => exact (hfree.1 pt _ (h.content pt) ((h.listed pt b).mpr hb)).elim
  | inCall p => exact (hfree.2 p ((h.called p b).mpr hb)).elim

/-- Whoever watches a block has it in its hands, or holds the list it is first of. -/
theorem PoolInv.watches (h : PoolInv beyond s lists place) {q : ι} {b : β}
    (hq : (s.callers q).Watches b) :
    place b = .inCall q ∨ ∃ pt, place b = .listed pt ∧ (s.callers q).held =
      some (pt, .node b) := by
  rcases hq with hblock | ⟨pt, hheld⟩
  · exact Or.inl ((h.called q b).mp hblock)
  · obtain ⟨rest, heq, _⟩ := linked_node.mp (h.locked.held q pt _ hheld).2
    exact Or.inr ⟨pt, (h.listed pt b).mp (heq ▸ List.mem_cons_self), hheld⟩

theorem PoolInv.unwatched (h : PoolInv beyond s lists place) {q : ι} {b : β}
    (hb : place b = .outside) : ¬(s.callers q).Watches b := by
  intro hq
  rcases h.watches hq with hplace | ⟨_, hplace, _⟩
  · exact nomatch hb.symm.trans hplace
  · exact nomatch hb.symm.trans hplace

/-- Block `b` is `p`'s to move. -/
def Mine (s : Pooled ι β) (place : β → Place ι) (p : ι) (b : β) : Prop :=
  place b = .outside ∨ place b = .inCall p ∨
    ∃ pt l, place b = .listed pt ∧ (s.callers p).held = some (pt, l)

theorem PoolInv.mine (h : PoolInv beyond s lists place) {p q : ι} {b : β}
    (hb : s.Mine place p b) (hq : q ≠ p) : ¬(s.callers q).Watches b := by
  intro hwatch
  rcases hb with hb | hb | ⟨pt, l, hb, hp⟩
  · exact h.unwatched hb hwatch
  · rcases h.watches hwatch with hplace | ⟨_, hplace, _⟩
    · exact hq (Place.inCall.inj (hplace.symm.trans hb))
    · exact nomatch hb.symm.trans hplace
  · rcases h.watches hwatch with hplace | ⟨pt', hplace, hheld⟩
    · exact nomatch hb.symm.trans hplace
    · obtain rfl := Place.listed.inj (hb.symm.trans hplace)
      exact hq (h.locked.one q p pt _ _ hheld hp)

/-! ## Steps -/

section Steps

variable [DecidableEq ι] [DecidableEq β]

variable {m : Pool β} {ledger : β → Ledger} {served : List (Nat × Nat)}
  {b : β} {v : Place ι}

omit [DecidableEq β] in
/-- A process that goes on, as the library sees it. -/
theorem slots_update (s : Pooled ι β) (p : ι) (c : PoolCaller β) (m : Pool β)
    (failed : Bool) (ledger : β → Ledger) (served : List (Nat × Nat)) :
    (⟨m, Function.update s.callers p c, failed, ledger, served⟩ : Pooled ι β).slots
      = ⟨m.heads, m.next, Function.update s.slots.held p c.held⟩ := by
  unfold slots
  dsimp only
  congr 1
  funext q
  by_cases hq : q = p
  · subst hq
    rw [Function.update_self, Function.update_self]
  · rw [Function.update_of_ne hq, Function.update_of_ne hq]

omit [DecidableEq β] in
/-- A process goes on, and no block moves. -/
theorem inv_goes (h : PoolInv beyond s lists place)
    (hnext : m.next = s.pool.next) (hused : m.used = s.pool.used)
    (hsize : m.size = s.pool.size)
    (hlocked : Locked ⟨m.heads, m.next, Function.update s.slots.held p c.held⟩ lists)
    (hblock : c.block = (s.callers p).block) (hknows : Knows beyond s c) :
    PoolInv beyond ⟨m, Function.update s.callers p c, s.failed, s.ledger, s.served⟩
      lists place := by
  have hagree : ∀ a, Agree s ⟨m, Function.update s.callers p c, s.failed, s.ledger,
      s.served⟩ a :=
    fun a => ⟨congrFun hnext a, congrFun hused a, congrFun hsize a, rfl⟩
  refine h.act (· = p) (fun _ => False) (fun q hq => Function.update_of_ne hq ..)
    (fun a _ => ⟨hagree a, rfl⟩) (fun _ hf => hf.elim) ?_ h.listed ?_ ?_
    (fun _ hf => hf.elim)
    h.served h.running
  · rw [slots_update]
    exact hlocked
  · rintro q rfl a
    show (Function.update s.callers q c q).block = _ ↔ _
    rw [Function.update_self, hblock]
    exact h.called q a
  · rintro q rfl
    show Knows beyond _ (Function.update s.callers q c q)
    rw [Function.update_self]
    exact (knows_congr fun a _ => hagree a).mpr hknows

/-- A process goes on, and block `b` moves to `v`. -/
theorem inv_moves (h : PoolInv beyond s lists place) (hmine : s.Mine place p b)
    (hagree : ∀ a, a ≠ b →
      Agree s ⟨m, Function.update s.callers p c, s.failed, ledger, served⟩ a)
    (hlocked : Locked ⟨m.heads, m.next, Function.update s.slots.held p c.held⟩ lists')
    (hlisted : ∀ pt a, a ∈ lists' pt ↔ Function.update place b v a = .listed pt)
    (hold : ∀ a, (s.callers p).block = some a → a = b)
    (hnew : ∀ a, c.block = some a ↔ a = b ∧ v = .inCall p)
    (hv : ∀ q, q ≠ p → v ≠ .inCall q)
    (hknows : Knows beyond ⟨m, Function.update s.callers p c, s.failed, ledger, served⟩ c)
    (hkeeps : Keeps beyond ⟨m, Function.update s.callers p c, s.failed,
      ledger, served⟩ b v)
    (hserved : ∀ x ∈ served, x.1 ≤ x.2) :
    PoolInv beyond ⟨m, Function.update s.callers p c, s.failed, ledger, served⟩ lists'
      (Function.update place b v) := by
  refine h.act (· = p) (· = b) (fun q hq => Function.update_of_ne hq ..)
    (fun a ha => ⟨hagree a ha, Function.update_of_ne ha ..⟩) ?_ ?_ hlisted ?_ ?_ ?_
    hserved h.running
  · rintro a rfl q hq
    refine ⟨h.mine hmine hq, ?_⟩
    rw [Function.update_self]
    exact hv q hq
  · rw [slots_update]
    exact hlocked
  · rintro q rfl a
    show (Function.update s.callers q c q).block = _ ↔ _
    rw [Function.update_self, hnew]
    by_cases ha : a = b
    · subst ha
      rw [Function.update_self]
      exact and_iff_right rfl
    · rw [Function.update_of_ne ha]
      exact iff_of_false (fun hab => ha hab.1) fun hq =>
        ha (hold a ((h.called q a).mpr hq))
  · rintro q rfl
    show Knows beyond _ (Function.update s.callers q c q)
    rw [Function.update_self]
    exact hknows
  · rintro a rfl
    rw [Function.update_self]
    exact hkeeps

omit [DecidableEq β] in
/-- A process goes on with what it has taken. -/
theorem locked_same (h : PoolInv beyond s lists place)
    (hheld : c.held = (s.callers p).held) :
    Locked ⟨s.pool.heads, s.pool.next, Function.update s.slots.held p c.held⟩ lists := by
  rw [hheld, show Function.update s.slots.held p (s.callers p).held = s.slots.held from
    Function.update_eq_self p s.slots.held]
  exact h.locked

omit [DecidableEq β] in
/-- The first exchange finds the list. -/
theorem locked_take (h : PoolInv beyond s lists place) {pt : Fin kNumCutOffPoints}
    (hp : (s.callers p).held = none) (hhead : s.pool.heads pt ≠ .null)
    (hc : c.held = some (pt, s.pool.heads pt)) :
    Locked ⟨(s.pool.exchange pt .null).2.heads, s.pool.next,
      Function.update s.slots.held p c.held⟩
      lists := by
  have htaken := take_locked h.locked hp pt
  rw [take_open p hhead] at htaken
  rw [hc]
  exact htaken

omit [DecidableEq β] in
/-- The second exchange gives a list back. -/
theorem locked_put (h : PoolInv beyond s lists place) {pt : Fin kNumCutOffPoints}
    {l₀ l : Link β}
    {bs : List β} (hp : (s.callers p).held = some (pt, l₀)) (hl : Linked s.pool.next l bs)
    (hdisjoint : ∀ a ∈ bs, a ∈ lists pt ∨ ∀ pt', place a ≠ .listed pt')
    (hc : c.held = none) :
    Locked ⟨(s.pool.exchange pt l).2.heads, s.pool.next,
      Function.update s.slots.held p c.held⟩
      (Function.update lists pt bs) := by
  rw [hc]
  refine put_locked h.locked hp hl fun a ha pt' hne hmem => ?_
  rcases hdisjoint a ha with hin | hout
  · exact hne (h.locked.disjoint pt' pt a hmem hin)
  · exact hout pt' ((h.listed pt' a).mp hmem)

omit [DecidableEq ι] in
/-- A block that comes from no list and goes to none. -/
theorem listed_elsewhere (h : PoolInv beyond s lists place)
    (hb : ∀ pt, place b ≠ .listed pt) (hv : ∀ pt, v ≠ .listed pt)
    (pt : Fin kNumCutOffPoints) (a : β) :
    a ∈ lists pt ↔ Function.update place b v a = .listed pt := by
  rw [h.listed]
  by_cases ha : a = b
  · subst ha
    rw [Function.update_self]
    exact iff_of_false (hb pt) (hv pt)
  · rw [Function.update_of_ne ha]

omit [DecidableEq ι] in
theorem listed_pushed (h : PoolInv beyond s lists place) {pt : Fin kNumCutOffPoints}
    (hb : ∀ pt, place b ≠ .listed pt) (pt' : Fin kNumCutOffPoints) (a : β) :
    a ∈ Function.update lists pt (b :: lists pt) pt' ↔
      Function.update place b (.listed pt) a = .listed pt' := by
  by_cases ha : a = b
  · subst ha
    rw [Function.update_self]
    by_cases hpt : pt' = pt
    · subst hpt
      rw [Function.update_self]
      exact iff_of_true List.mem_cons_self rfl
    · rw [Function.update_of_ne hpt]
      exact iff_of_false (fun hmem => hb pt' ((h.listed pt' a).mp hmem))
        fun heq => hpt (Place.listed.inj heq).symm
  · rw [Function.update_of_ne ha, ← h.listed]
    by_cases hpt : pt' = pt
    · subst hpt
      rw [Function.update_self, List.mem_cons]
      exact or_iff_right ha
    · rw [Function.update_of_ne hpt]

omit [DecidableEq ι] in
theorem listed_popped (h : PoolInv beyond s lists place) {pt : Fin kNumCutOffPoints}
    {rest : List β} (hL : lists pt = b :: rest) (hv : ∀ pt, v ≠ .listed pt)
    (pt' : Fin kNumCutOffPoints) (a : β) :
    a ∈ Function.update lists pt rest pt' ↔ Function.update place b v a =
      .listed pt' := by
  have hb : place b = .listed pt := (h.listed pt b).mp (hL ▸ List.mem_cons_self)
  by_cases ha : a = b
  · subst ha
    rw [Function.update_self]
    refine iff_of_false (fun hmem => ?_) (hv pt')
    by_cases hpt : pt' = pt
    · subst hpt
      rw [Function.update_self] at hmem
      exact (List.nodup_cons.mp (hL ▸ h.nodup pt')).1 hmem
    · rw [Function.update_of_ne hpt] at hmem
      exact hpt (Place.listed.inj (((h.listed pt' a).mp hmem).symm.trans hb))
  · rw [Function.update_of_ne ha, ← h.listed]
    by_cases hpt : pt' = pt
    · subst hpt
      rw [Function.update_self, hL, List.mem_cons]
      exact (or_iff_right ha).symm
    · rw [Function.update_of_ne hpt]

/-- What the next step of a call does. -/
inductive Proceeds (beyond : Nat) (s : Pooled ι β) (p : ι) : Pooled ι β → Prop
  | refuse {blk : β} : s.callers p = .lput blk → Proceeds beyond s p (s.goto p .idle)
  | nothing {sz : Nat} : s.callers p = .ralloc sz → Proceeds beyond s p (s.goto p .idle)
  | takePut {blk : β} {pt : Fin kNumCutOffPoints} : s.callers p = .lput blk →
      s.pool.size blk = cutOffPoint beyond pt → s.pool.heads pt ≠ .null →
      Proceeds beyond s p ({ s with pool := (s.pool.exchange pt .null).2 }.goto p
        (.linking blk pt (s.pool.heads pt)))
  | link {blk : β} {pt : Fin kNumCutOffPoints} {head : Link β} :
      s.callers p = .linking blk pt head →
      Proceeds beyond s p ({ s with pool := s.pool.link blk head }.goto p
        (.publishing blk pt head))
  | publish {blk : β} {pt : Fin kNumCutOffPoints} {head : Link β} :
      s.callers p = .publishing blk pt head →
      Proceeds beyond s p
        (({ s with pool := (s.pool.exchange pt (.node blk)).2 }.wasPut blk).goto p
        .idle)
  | takeTail {sz : Nat} {pt : Fin kNumCutOffPoints} : s.callers p = .ralloc sz →
      s.pool.heads pt = .tail →
      Proceeds beyond s p ({ s with pool := (s.pool.exchange pt .null).2 }.goto p
        (.restoring pt))
  | takeNode {sz : Nat} {pt : Fin kNumCutOffPoints} {xlatd : β} :
    s.callers p = .ralloc sz →
      sz ≤ cutOffPoint beyond pt → s.pool.heads pt = .node xlatd →
      Proceeds beyond s p ({ s with pool := (s.pool.exchange pt .null).2 }.goto p
        (.reading sz pt xlatd))
  | restore {pt : Fin kNumCutOffPoints} : s.callers p = .restoring pt →
      Proceeds beyond s p ({ s with pool := (s.pool.exchange pt .tail).2 }.goto p .idle)
  | read {sz : Nat} {pt : Fin kNumCutOffPoints} {xlatd : β} :
    s.callers p = .reading sz pt xlatd →
      Proceeds beyond s p (s.goto p (.swapping sz pt xlatd (s.pool.next xlatd)))
  | swap {sz : Nat} {pt : Fin kNumCutOffPoints} {xlatd : β} {next : Link β} :
      s.callers p = .swapping sz pt xlatd next →
      Proceeds beyond s p ({ s with pool := (s.pool.exchange pt next).2 }.goto p
        (.marking sz xlatd (s.pool.heads pt)))
  | mark {sz : Nat} {xlatd : β} {swap : Link β} : s.callers p = .marking sz xlatd swap →
      Proceeds beyond s p
        (({ s with pool := (s.pool.mark xlatd true).2 }.wasServed sz xlatd).goto p
        .idle)
  | failHead {s' : Pooled ι β} {pt : Fin kNumCutOffPoints} {l : Link β} :
      (s.callers p).held = some (pt, l) → s.pool.heads pt ≠ .null → Proceeds beyond s p s'
  | failMark {s' : Pooled ι β} {sz : Nat} {xlatd : β} {swap : Link β} :
      s.callers p = .marking sz xlatd swap → ¬(s.pool.used xlatd = false ∧ swap = .null) →
      Proceeds beyond s p s'

omit [DecidableEq ι] [DecidableEq β] in
theorem exchange_taken {pt : Fin kNumCutOffPoints} (hnull : s.pool.heads pt = .null) :
    { s with pool := (s.pool.exchange pt .null).2 } = s := by
  unfold Pool.exchange
  rw [← hnull, Function.update_eq_self]

theorem proceed_cases (h : s.proceed beyond p = some s') : Proceeds beyond s p s' := by
  unfold proceed at h
  cases hc : s.callers p with
  | idle =>
    rw [hc] at h
    cases h
  | lput blk =>
    simp only [hc] at h
    cases hpt : sizeClass beyond (s.pool.size blk) with
    | none =>
      rw [hpt] at h
      obtain rfl := Option.some.inj h
      exact .refuse hc
    | some pt =>
      simp only [hpt] at h
      by_cases hsize : s.pool.size blk = cutOffPoint beyond pt
      · rw [if_neg (not_not_intro hsize)] at h
        obtain rfl := Option.some.inj h
        show Proceeds beyond s p (if s.pool.heads pt = .null then _ else _)
        by_cases hnull : s.pool.heads pt = .null
        · -- the list is taken: `lput` gives up
          rw [if_pos hnull, exchange_taken hnull]
          exact .refuse hc
        · rw [if_neg hnull]
          exact .takePut hc hsize hnull
      · rw [if_pos hsize] at h
        obtain rfl := Option.some.inj h
        exact .refuse hc
  | linking blk pt head =>
    rw [hc] at h
    obtain rfl := Option.some.inj h
    exact .link hc
  | publishing blk pt head =>
    rw [hc] at h
    obtain rfl := Option.some.inj h
    show Proceeds beyond s p (if s.pool.heads pt = .null then _ else _)
    by_cases hnull : s.pool.heads pt = .null
    · rw [if_pos hnull]
      exact .publish hc
    · exact .failHead (by rw [hc]; rfl) hnull
  | ralloc sz =>
    simp only [hc] at h
    cases hpt : sizeClass beyond sz with
    | none =>
      rw [hpt] at h
      obtain rfl := Option.some.inj h
      exact .nothing hc
    | some pt =>
      simp only [hpt] at h
      cases hhead : s.pool.heads pt with
      | null =>
        have hfst : (s.pool.exchange pt .null).1 = .null := hhead
        rw [hfst, exchange_taken hhead] at h
        obtain rfl := Option.some.inj h
        exact .nothing hc
      | tail =>
        have hfst : (s.pool.exchange pt .null).1 = .tail := hhead
        rw [hfst] at h
        obtain rfl := Option.some.inj h
        exact .takeTail hc hhead
      | node xlatd =>
        have hfst : (s.pool.exchange pt .null).1 = .node xlatd := hhead
        rw [hfst] at h
        obtain rfl := Option.some.inj h
        exact .takeNode hc (sizeClass_fits hpt) hhead
  | restoring pt =>
    rw [hc] at h
    obtain rfl := Option.some.inj h
    show Proceeds beyond s p (if s.pool.heads pt = .null then _ else _)
    by_cases hnull : s.pool.heads pt = .null
    · rw [if_pos hnull]
      exact .restore hc
    · exact .failHead (by rw [hc]; rfl) hnull
  | reading sz pt xlatd =>
    rw [hc] at h
    obtain rfl := Option.some.inj h
    exact .read hc
  | swapping sz pt xlatd next =>
    rw [hc] at h
    obtain rfl := Option.some.inj h
    exact .swap hc
  | marking sz xlatd swap =>
    rw [hc] at h
    obtain rfl := Option.some.inj h
    show Proceeds beyond s p (if s.pool.used xlatd = false ∧ swap = .null then _ else _)
    by_cases hok : s.pool.used xlatd = false ∧ swap = .null
    · rw [if_pos hok]
      exact .mark hc
    · exact .failMark hc hok

omit [DecidableEq ι] [DecidableEq β] in
theorem PoolInv.inCall_of_block (h : PoolInv beyond s lists place) {b : β}
    (hb : (s.callers p).block = some b) : place b = .inCall p := (h.called p b).mp hb

omit [DecidableEq ι] [DecidableEq β] in
theorem PoolInv.unused_of_block (h : PoolInv beyond s lists place) {b : β}
    (hb : (s.callers p).block = some b) : s.pool.used b = false := by
  have hkeeps := h.keeps b
  rw [h.inCall_of_block hb] at hkeeps
  exact hkeeps

/-- `lput` gives the block back to its caller. -/
theorem refuse_inv (h : PoolInv beyond s lists place) {blk : β}
    (hc : s.callers p = .lput blk) :
    ∃ place', PoolInv beyond (s.goto p .idle) lists place' := by
  have hb := h.inCall_of_block (p := p) (b := blk) (by rw [hc]; rfl)
  have hknows := h.knows p
  rw [hc] at hknows
  obtain ⟨hputs, hout⟩ := hknows
  refine ⟨_, inv_moves (s := s) h (v := .outside) (Or.inr (Or.inl hb))
    (fun _ _ => ⟨rfl, rfl, rfl, rfl⟩) (locked_same (s := s) h (by rw [hc]; rfl))
    (listed_elsewhere h (by rw [hb]; exact nofun) nofun) ?_ ?_ nofun trivial
    ⟨hputs, hout.imp_right Or.inr⟩ h.served⟩
  · rw [hc]
    exact fun a ha => (Option.some.inj ha).symm
  · exact fun a => iff_of_false nofun fun hv => nomatch hv.2

/-- `lput` writes the link of its block. -/
theorem link_inv (h : PoolInv beyond s lists place) {blk : β} {pt : Fin kNumCutOffPoints}
    {head : Link β} (hc : s.callers p = .linking blk pt head) :
    ∃ place', PoolInv beyond ({ s with pool := s.pool.link blk head }.goto p
      (.publishing blk pt head)) lists place' := by
  have hblock : (s.callers p).block = some blk := by rw [hc]; rfl
  have hb := h.inCall_of_block hblock
  have hknows := h.knows p
  rw [hc] at hknows
  have hmem : ∀ pt, blk ∉ lists pt := fun pt hmem =>
    nomatch hb.symm.trans ((h.listed pt blk).mp hmem)
  refine ⟨_, inv_moves (s := s) h (v := .inCall p) (Or.inr (Or.inl hb))
    (fun a ha => ⟨Function.update_of_ne ha .., rfl, rfl, rfl⟩) ?_
    (listed_elsewhere h (by rw [hb]; exact nofun) nofun) ?_ ?_ ?_ ?_ ?_ h.served⟩
  · -- the class stays locked: only the link of a block that is in no list is written
    have hwritten := write_locked h.locked hmem head
    have hheld : (PoolCaller.publishing blk pt head).held =
        (s.callers p).held := by rw [hc]; rfl
    rw [hheld, show Function.update s.slots.held p (s.callers p).held = s.slots.held from
      Function.update_eq_self p s.slots.held]
    exact hwritten
  · rw [hc]
    exact fun a ha => (Option.some.inj ha).symm
  · exact fun a => ⟨fun ha => ⟨(Option.some.inj ha).symm, rfl⟩, fun ha =>
      congrArg _ ha.1.symm⟩
  · exact fun q hq heq => hq (Place.inCall.inj heq).symm
  · exact ⟨hknows.1, hknows.2, Function.update_self ..⟩
  · exact h.unused_of_block hblock

/-- `lput` puts its block at the head of the list. -/
theorem publish_inv (h : PoolInv beyond s lists place) {blk : β}
    {pt : Fin kNumCutOffPoints}
    {head : Link β} (hc : s.callers p = .publishing blk pt head) :
    ∃ lists' place', PoolInv beyond
      (({ s with pool := (s.pool.exchange pt (.node blk)).2 }.wasPut blk).goto p .idle)
      lists' place' := by
  have hblock : (s.callers p).block = some blk := by rw [hc]; rfl
  have hb := h.inCall_of_block hblock
  have hknows := h.knows p
  rw [hc] at hknows
  obtain ⟨⟨hputs, _⟩, hsize, hnext⟩ := hknows
  have hheld : (s.callers p).held = some (pt, head) := by rw [hc]; rfl
  have hlinked : Linked s.pool.next (.node blk) (blk :: lists pt) :=
    ⟨rfl, hnext.symm ▸ (h.locked.held p pt _ hheld).2⟩
  refine ⟨_, _, inv_moves (s := s) h (v := .listed pt) (Or.inr (Or.inl hb)) ?_
    (locked_put h hheld hlinked ?_ rfl)
    (listed_pushed h (by rw [hb]; exact nofun)) ?_ ?_ nofun
    trivial ?_ h.served⟩
  · exact fun a ha => ⟨rfl, rfl, rfl, Function.update_of_ne ha ..⟩
  · intro a ha
    rcases List.mem_cons.mp ha with rfl | ha
    · exact Or.inr (by rw [hb]; exact nofun)
    · exact Or.inl ha
  · rw [hc]
    exact fun a ha => (Option.some.inj ha).symm
  · exact fun a => iff_of_false nofun fun hv => nomatch hv.2
  · refine ⟨?_, h.unused_of_block hblock, hsize⟩
    show (Function.update s.ledger blk _ blk).puts =
      (Function.update s.ledger blk _ blk).allocs + 1
    rw [Function.update_self]
    exact congrArg (· + 1) hputs

omit [DecidableEq β] in
/-- `ralloc` puts the end of an empty list back. -/
theorem restore_inv (h : PoolInv beyond s lists place) {pt : Fin kNumCutOffPoints}
    (hc : s.callers p = .restoring pt) :
    PoolInv beyond ({ s with pool := (s.pool.exchange pt .tail).2 }.goto p .idle)
      lists place := by
  have hheld : (s.callers p).held = some (pt, .tail) := by rw [hc]; rfl
  have hL : lists pt = [] := linked_tail.mp (h.locked.held p pt _ hheld).2
  have hput := locked_put h (c := .idle) hheld
    (show Linked s.pool.next .tail [] from rfl) nofun rfl
  rw [← hL, Function.update_eq_self] at hput
  exact inv_goes (s := s) h rfl rfl rfl hput (by rw [hc]; rfl) trivial

/-- `ralloc` puts the rest of the list back, and has its front. -/
theorem swap_inv (h : PoolInv beyond s lists place) {sz : Nat} {pt : Fin kNumCutOffPoints}
    {xlatd : β} {next : Link β} (hc : s.callers p = .swapping sz pt xlatd next) :
    ∃ lists' place', PoolInv beyond ({ s with pool := (s.pool.exchange pt next).2 }.goto p
      (.marking sz xlatd (s.pool.heads pt))) lists' place' := by
  have hknows := h.knows p
  rw [hc] at hknows
  obtain ⟨hsz, rfl⟩ := hknows
  have hheld : (s.callers p).held = some (pt, .node xlatd) := by rw [hc]; rfl
  obtain ⟨rest, hL, hrest⟩ := linked_node.mp (h.locked.held p pt _ hheld).2
  have hb : place xlatd = .listed pt := (h.listed pt xlatd).mp (hL ▸ List.mem_cons_self)
  have hkeeps := h.keeps xlatd
  rw [hb] at hkeeps
  obtain ⟨hputs, hused, hsize⟩ := hkeeps
  refine ⟨_, _, inv_moves (s := s) h (v := .inCall p) (Or.inr (Or.inr ⟨pt, _, hb, hheld⟩))
    (fun _ _ => ⟨rfl, rfl, rfl, rfl⟩)
    (locked_put h hheld hrest (fun a ha => Or.inl ?_) rfl)
    (listed_popped h hL nofun) ?_ ?_ ?_ ?_ hused h.served⟩
  · rw [hL]
    exact List.mem_cons_of_mem _ ha
  · rw [hc]
    exact nofun
  · exact fun a => ⟨fun ha => ⟨(Option.some.inj ha).symm, rfl⟩, fun ha =>
      congrArg _ ha.1.symm⟩
  · exact fun q hq heq => hq (Place.inCall.inj heq).symm
  · exact ⟨hputs, hsize ▸ hsz, h.locked.head_null hheld⟩

/-- `ralloc` marks its block and returns it. -/
theorem mark_inv (h : PoolInv beyond s lists place) {sz : Nat} {xlatd : β} {swap : Link β}
    (hc : s.callers p = .marking sz xlatd swap) :
    ∃ place', PoolInv beyond
      (({ s with pool := (s.pool.mark xlatd true).2 }.wasServed sz xlatd).goto p .idle)
      lists place' := by
  have hb := h.inCall_of_block (p := p) (b := xlatd) (by rw [hc]; rfl)
  have hknows := h.knows p
  rw [hc] at hknows
  obtain ⟨hputs, hsz, _⟩ := hknows
  refine ⟨_, inv_moves (s := s) h (v := .outside) (Or.inr (Or.inl hb)) ?_
    (locked_same (s := s) h (by rw [hc]; rfl))
    (listed_elsewhere h (by rw [hb]; exact nofun) nofun) ?_ ?_ nofun trivial ?_ ?_⟩
  · exact fun a ha => ⟨rfl, Function.update_of_ne ha .., rfl, Function.update_of_ne ha ..⟩
  · rw [hc]
    exact fun a ha => (Option.some.inj ha).symm
  · exact fun a => iff_of_false nofun fun hv => nomatch hv.2
  · refine ⟨?_, Or.inr (Or.inl (Function.update_self ..))⟩
    show (Function.update s.ledger xlatd _ xlatd).puts
      = (Function.update s.ledger xlatd _ xlatd).allocs
    rw [Function.update_self]
    exact hputs
  · intro x hx
    rcases List.mem_append.mp hx with hx | hx
    · exact h.served x hx
    · rw [List.mem_singleton.mp hx]
      exact hsz

/-- **The next step of a call keeps the invariant.** -/
theorem proceed_inv (h : PoolInv beyond s lists place)
    (hs : s.proceed beyond p = some s') :
    ∃ lists' place', PoolInv beyond s' lists' place' := by
  have hknows := h.knows p
  cases proceed_cases hs with
  | refuse hc => exact ⟨lists, refuse_inv h hc⟩
  | nothing hc =>
    exact ⟨lists, place, inv_goes (s := s) h rfl rfl rfl (locked_same (s := s) h
      (by rw [hc]; rfl)) (by rw [hc]; rfl) trivial⟩
  | takePut hc hsize hhead =>
    rw [hc] at hknows
    exact ⟨lists, place, inv_goes (s := s) h rfl rfl rfl
      (locked_take h (by rw [hc]; rfl) hhead rfl) (by rw [hc]; rfl) ⟨hknows, hsize⟩⟩
  | @takeTail _ pt hc hhead =>
    have htail : s.pool.heads pt ≠ .null := hhead ▸ Link.tail_ne_null
    exact ⟨lists, place, inv_goes (s := s) h rfl rfl rfl
      (locked_take h (by rw [hc]; rfl) htail (by rw [hhead]; rfl))
      (by rw [hc]; rfl) trivial⟩
  | @takeNode _ pt _ hc hsz hhead =>
    have hnode : s.pool.heads pt ≠ .null := hhead ▸ Link.node_ne_null _
    exact ⟨lists, place, inv_goes (s := s) h rfl rfl rfl
      (locked_take h (by rw [hc]; rfl) hnode (by rw [hhead]; rfl)) (by rw [hc]; rfl) hsz⟩
  | read hc =>
    rw [hc] at hknows
    exact ⟨lists, place, inv_goes (s := s) h rfl rfl rfl (locked_same (s := s) h
      (by rw [hc]; rfl)) (by rw [hc]; rfl) ⟨hknows, rfl⟩⟩
  | restore hc => exact ⟨lists, place, restore_inv h hc⟩
  | link hc => exact ⟨lists, link_inv h hc⟩
  | publish hc => exact publish_inv h hc
  | swap hc => exact swap_inv h hc
  | mark hc => exact ⟨lists, mark_inv h hc⟩
  | failHead hp hhead => exact (hhead (h.locked.head_null hp)).elim
  | @failMark _ sz xlatd swap hc hfail =>
    -- the block is unused and the head was null: the assertions hold
    rw [hc] at hknows
    exact (hfail ⟨h.unused_of_block (p := p) (by rw [hc]; rfl), hknows.2.2⟩).elim

theorem step_inv (h : PoolInv beyond s lists place) {a : PoolAction ι β}
    (hown : s.Owned a) (hs : s.step beyond a = some s') :
    ∃ lists' place', PoolInv beyond s' lists' place' := by
  unfold step at hs
  rw [if_neg (h.running ▸ Bool.false_ne_true)] at hs
  cases a with
  | lput p blk =>
    cases hc : s.callers p with
    | idle =>
      simp only [hc] at hs
      obtain rfl := Option.some.inj hs
      -- the block is the caller's, and not in use
      obtain ⟨hfree, hused⟩ := hown
      have hb := h.outside hfree
      have hkeeps := h.keeps blk
      rw [hb] at hkeeps
      refine ⟨lists, _, inv_moves (s := s) h (v := .inCall p) (Or.inl hb)
        (fun _ _ => ⟨rfl, rfl, rfl, rfl⟩) (locked_same h (by rw [hc]; rfl))
        (listed_elsewhere h (by rw [hb]; exact nofun) nofun) ?_ ?_ ?_
        ⟨hkeeps.1, ?_⟩ hused h.served⟩
      · rw [hc]
        exact nofun
      · exact fun a => ⟨fun ha => ⟨(Option.some.inj ha).symm, rfl⟩, fun ha =>
          congrArg _ ha.1.symm⟩
      · exact fun q hq heq => hq (Place.inCall.inj heq).symm
      · rcases hkeeps.2 with hnever | hmarked | hreleased
        · exact Or.inl hnever
        · exact nomatch hused.symm.trans hmarked
        · exact Or.inr hreleased
    | _ =>
      simp only [hc] at hs
      cases hs
  | ralloc p sz =>
    cases hc : s.callers p with
    | idle =>
      simp only [hc] at hs
      obtain rfl := Option.some.inj hs
      exact ⟨lists, place, inv_goes (s := s) h rfl rfl rfl (locked_same h
        (by rw [hc]; rfl)) (by rw [hc]; rfl) trivial⟩
    | _ =>
      simp only [hc] at hs
      cases hs
  | step p => exact proceed_inv h hs
  | store blk next used size =>
    obtain rfl := Option.some.inj hs
    have hb := h.outside hown
    have hkeeps := h.keeps blk
    rw [hb] at hkeeps
    have hmem : ∀ pt, blk ∉ lists pt := fun pt hmem =>
      nomatch hb.symm.trans ((h.listed pt blk).mp hmem)
    refine ⟨lists, place, h.act (fun _ => False) (· = blk) (fun _ _ => rfl) ?_ ?_
      (write_locked h.locked hmem next) h.listed (fun _ hf => hf.elim)
      (fun _ hf => hf.elim) ?_
      h.served h.running⟩
    · exact fun a ha => ⟨⟨Function.update_of_ne ha .., Function.update_of_ne ha ..,
        Function.update_of_ne ha .., Function.update_of_ne ha ..⟩, rfl⟩
    · rintro a rfl q _
      refine ⟨h.unwatched hb, ?_⟩
      rw [hb]
      exact nofun
    · rintro a rfl
      rw [hb]
      show (Function.update s.ledger a _ a).puts =
        (Function.update s.ledger a _ a).allocs ∧
        ((Function.update s.ledger a _ a).puts = 0 ∨
          Function.update s.pool.used a used a = true ∨
          (Function.update s.ledger a _ a).released = true)
      rw [Function.update_self, Function.update_self]
      refine ⟨hkeeps.1, Or.inr ?_⟩
      cases used with
      | true => exact Or.inl rfl
      | false => exact Or.inr rfl

/-! ## What holds of every run -/

omit [DecidableEq ι] [DecidableEq β] in
theorem init_inv (next : β → Link β) (used : β → Bool) (size : β → Nat) :
    PoolInv beyond (init next used size : Pooled ι β) (fun _ => []) fun _ =>
      .outside where
  locked := by
    refine ⟨fun p k l hp => ?_, fun p q k l l' hp => ?_, fun k hk => ?_, fun _ _ => rfl,
      fun _ _ _ hb => ?_⟩
    · cases hp
    · cases hp
    · cases hk
    · cases hb
  listed := fun _ _ => iff_of_false List.not_mem_nil nofun
  called := fun _ _ => iff_of_false nofun nofun
  knows := fun _ => trivial
  keeps := fun _ => ⟨rfl, Or.inl rfl⟩
  served := fun _ hx => by cases hx
  running := rfl

theorem reachable_inv (h : (system beyond ι β).Reachable Owned s) :
    ∃ lists place, PoolInv beyond s lists place := by
  refine h.invariant (I := fun s => ∃ lists place, PoolInv beyond s lists place) ?_ ?_
  · rintro s ⟨next, used, size, rfl⟩
    exact ⟨_, _, init_inv next used size⟩
  · rintro s a s' ⟨lists, place, hinv⟩ hown hs
    exact step_inv hinv hown hs

end Steps

/-- What it means, in the state, that a block that was put is in a place: linked
once in the list of its class; taken out by a call of `ralloc` that has given the
list back and has not marked the block yet; or returned, once for each time it was
put, and marked used unless other code has marked it unused since. -/
def At (beyond : Nat) (s : Pooled ι β) (b : β) : Place ι → Prop
  | .listed pt =>
    s.pool.size b = cutOffPoint beyond pt ∧ ∃ L, s.Content pt L ∧ b ∈ L ∧ L.Nodup
  | .inCall p => ∃ sz swap, s.callers p = .marking sz b swap
  | .outside =>
    (s.ledger b).puts = (s.ledger b).allocs ∧
      (s.pool.used b = true ∨ (s.ledger b).released = true)

/-- What is promised of a state: a block that was put is in one place; every head is
`null` or starts a list that ends and has no block twice; one process at most is
between its exchanges of a head; `ralloc` returned blocks as large as asked for; and
no assertion has failed. -/
structure PoolSound (beyond : Nat) (s : Pooled ι β) : Prop where
  places : ∀ b, 0 < (s.ledger b).puts → ∃! pl, s.At beyond b pl
  lists : ∀ pt, s.pool.heads pt ≠ .null →
    ∃ L, Linked s.pool.next (s.pool.heads pt) L ∧ L.Nodup
  alone : ∀ pt p q, s.Inside pt p → s.Inside pt q → p = q
  capacity : ∀ x ∈ s.served, x.1 ≤ x.2
  asserted : s.failed = false

theorem PoolInv.at_listed (h : PoolInv beyond s lists place) {b : β}
    {pt : Fin kNumCutOffPoints}
    (hat : s.At beyond b (.listed pt)) : place b = .listed pt := by
  obtain ⟨_, L, hL, hmem, _⟩ := hat
  rw [h.content_eq hL] at hmem
  exact (h.listed pt b).mp hmem

theorem PoolInv.at_inCall (h : PoolInv beyond s lists place) {b : β} {p : ι}
    (hat : s.At beyond b (.inCall p)) :
    place b = .inCall p ∧ (s.ledger b).puts = (s.ledger b).allocs + 1 := by
  obtain ⟨sz, swap, hp⟩ := hat
  have hknows := h.knows p
  rw [hp] at hknows
  exact ⟨(h.called p b).mp (by rw [hp]; rfl), hknows.1⟩

/-- A block that was put is in one place. In the hands of `lput` it has been
returned; in those of `ralloc` it has not. -/
theorem PoolInv.one_place (h : PoolInv beyond s lists place) {b : β}
    (hput : 0 < (s.ledger b).puts) : ∃! pl, s.At beyond b pl := by
  have hkeeps := h.keeps b
  cases hb : place b with
  | outside =>
    rw [hb] at hkeeps
    refine ⟨.outside, ⟨hkeeps.1, hkeeps.2.resolve_left (by omega)⟩, fun pl hpl => ?_⟩
    cases pl with
    | outside => rfl
    | listed pt => exact nomatch hb.symm.trans (h.at_listed hpl)
    | inCall p => exact nomatch hb.symm.trans (h.at_inCall hpl).1
  | listed pt =>
    rw [hb] at hkeeps
    obtain ⟨hputs, _, hsize⟩ := hkeeps
    refine ⟨.listed pt, ⟨hsize, _, h.content pt, (h.listed pt b).mpr hb, h.nodup pt⟩,
      fun pl hpl => ?_⟩
    cases pl with
    | outside => exact absurd hpl.1 (by omega)
    | listed pt' => exact (h.at_listed hpl).symm.trans hb
    | inCall p => exact nomatch hb.symm.trans (h.at_inCall hpl).1
  | inCall p =>
    have hblock := (h.called p b).mpr hb
    have hknows := h.knows p
    -- before it is published the block counts as outside
    have hsettled : s.Settled b → ∃! pl, s.At beyond b pl := by
      rintro ⟨hputs, hout⟩
      refine ⟨.outside, ⟨hputs, Or.inr (hout.resolve_left (by omega))⟩, fun pl hpl => ?_⟩
      cases pl with
      | outside => rfl
      | listed pt => exact nomatch hb.symm.trans (h.at_listed hpl)
      | inCall q => exact absurd hputs (by rw [(h.at_inCall hpl).2]; omega)
    cases hc : s.callers p with
    | lput | linking | publishing =>
      rw [hc] at hblock hknows
      obtain rfl := Option.some.inj hblock
      first | exact hsettled hknows | exact hsettled hknows.1
    | marking sz xlatd swap =>
      rw [hc] at hblock hknows
      obtain rfl := Option.some.inj hblock
      refine ⟨.inCall p, ⟨sz, swap, hc⟩, fun pl hpl => ?_⟩
      cases pl with
      | outside => exact absurd hpl.1 (by rw [hknows.1]; omega)
      | listed pt => exact nomatch hb.symm.trans (h.at_listed hpl)
      | inCall q => exact (h.at_inCall hpl).1.symm.trans hb
    | _ =>
      rw [hc] at hblock
      cases hblock

theorem PoolInv.sound (h : PoolInv beyond s lists place) : PoolSound beyond s where
  places := fun _ => h.one_place
  lists := fun pt hpt => ⟨_, h.locked.linked pt hpt, h.nodup pt⟩
  alone := fun pt p q ⟨_, hp⟩ ⟨_, hq⟩ => h.locked.one p q pt _ _ hp hq
  capacity := h.served
  asserted := h.running

section Claims

variable [DecidableEq ι] [DecidableEq β]

omit [DecidableEq ι] [DecidableEq β] in
theorem content_of_tail (h : ∀ pt, s.pool.heads pt = .tail) {pt : Fin kNumCutOffPoints}
    {L : List β} (hc : s.Content pt L) : L = [] := by
  rcases hc with ⟨_, hlinked⟩ | ⟨hnull, _⟩
  · rw [h pt] at hlinked
    exact linked_tail.mp hlinked
  · rw [h pt] at hnull
    cases hnull

omit [DecidableEq ι] [DecidableEq β] in
theorem free_of_tail {b : β} (h : ∀ pt, s.pool.heads pt = .tail)
    (hb : ∀ p, (s.callers p).block ≠ some b) : s.Free b := by
  refine ⟨fun pt L hc => ?_, hb⟩
  rw [content_of_tail h hc]
  exact List.not_mem_nil

/-- A new pool, and unused blocks of 64 bytes. -/
def start : Pooled Bool Nat := init (fun _ => .null) (fun _ => false) fun _ => 64

end Claims

end Pooled

end CharmExperiments.Ipc
