import CharmExperiments.Lfq.Queue
import Mathlib.Algebra.Order.BigOperators.Group.Finset

/-!
# What holds of the queue at every step

The outstanding tickets, those handed out and not yet dequeued, are at most `N`
(`Inv.bound`), so each has a node of its own. `Inv` says of each of these nodes
whether its value is stored, by where the producer that holds the ticket is
(`Stage.Fits`), or, when none holds it any more, by where the consumer is. The
other nodes are empty. `count` is the outstanding values and the enqueues that
are yet to take their ticket or to give up (`Inv.count`).

One lemma for each kind of step keeps it: `Inv.writing` for a producer at its
node, `Inv.reading` for the consumer at its own.
-/

namespace CharmExperiments.Lfq

open CharmExperiments.Lib

variable {w : Nat}

/-- The lock is held. -/
def Stage.locked : Stage → Bool
  | .acquire => false
  | _ => true

/-- What an enqueue of `value` knows of its node. -/
def Stage.Fits (node : Node w) (value : Bytes w) : Stage → Prop
  | .acquire => node.hasValue = false
  | .load => node.hasValue = false
  | .store setValue => setValue = false ∧ node.hasValue = false
  | .copy k setValue => setValue = false ∧ node.hasValue = true ∧
      ∀ j : Fin w, j.val < k → node.value j = value j
  | .release setValue => setValue = false ∧ node.hasValue = true ∧ node.value = value

/-- Enqueues that `count` counts and that have no ticket. -/
def inCount : Option (Enqueue w) → Nat
  | some .undoCount => 1
  | some (.fetchHead _) => 1
  | _ => 0

/-- Enqueues that are admitted and have no ticket. -/
def waiting : Option (Enqueue w) → Nat
  | some (.fetchHead _) => 1
  | _ => 0

/-- Enqueues without a ticket. -/
def ticketless : Option (Enqueue w) → Nat
  | some (.fetchCount _) => 1
  | some .undoCount => 1
  | some (.fetchHead _) => 1
  | _ => 0

/-- A producer with no ticket: it has no enqueue, or is not at its node yet. -/
def offNode : Option (Enqueue w) → Bool
  | some (.writing _ _) => false
  | some .aborted => false
  | _ => true

/-- The consumer holds the lock of the node at `tail`. -/
def reading : Option (Dequeue w) → Bool
  | some (.load _) => true
  | some (.copy _ _) => true
  | some (.clear _) => true
  | some (.release _ _) => true
  | _ => false

/-- The value of the next ticket is taken from its node. -/
def cleared : Option (Dequeue w) → Bool
  | some (.release ret _) => ret
  | some (.advance _) => true
  | some (.fetchCount _) => true
  | _ => false

/-- `tail` is past the next ticket. -/
def ahead : Option (Dequeue w) → Nat
  | some (.fetchCount _) => 1
  | _ => 0

namespace Queue

/-- Summed over the producers. -/
def total (q : Queue w) (P : Nat) (f : Option (Enqueue w) → Nat) : Nat :=
  ∑ p ∈ Finset.range P, f (q.producers p)

/-- No enqueue holds the ticket. -/
def Unheld (q : Queue w) (r : Nat) : Prop :=
  ∀ p t stage, q.producers p = some (.writing t stage) → t.rank ≠ r

/-- The next value to be dequeued is stored, and it is `value`. -/
def Next (q : Queue w) (value : Bytes w) : Prop :=
  q.admitted[q.dequeued.length]? = some value ∧ q.Unheld q.dequeued.length

/-- What the consumer knows of the next value. -/
def Knows (q : Queue w) : Option (Dequeue w) → Prop
  | some (.copy k result) => ∃ value, q.Next value ∧ ∀ j : Fin w, j.val < k →
    result j = value j
  | some (.clear result) => q.Next result
  | some (.release ret result) => ret = true → q.Next result
  | some (.advance result) => q.Next result
  | some (.fetchCount result) => q.Next result
  | _ => True

end Queue

/-- The invariant. -/
structure Inv (N P : Nat) (q : Queue w) : Prop where
  few : q.calls < 2 ^ 64
  idle : ∀ p, P ≤ p → q.producers p = none
  early : q.admitted.length + q.total P ticketless ≤ q.calls
  count : q.count.toNat + q.dequeued.length = q.admitted.length + q.total P inCount
  bound : q.admitted.length + q.total P waiting ≤ q.dequeued.length + N
  head : q.head.toNat = q.admitted.length
  taken : q.dequeued <+: q.admitted
  tail : q.tail = (q.dequeued.length + ahead q.consumer) % N
  ticket : ∀ p t stage, q.producers p = some (.writing t stage) →
    q.dequeued.length ≤ t.rank ∧ q.admitted[t.rank]? = some t.value ∧ t.slot = t.rank % N
  node : ∀ p t stage, q.producers p = some (.writing t stage) →
    stage.Fits (q.data t.slot) t.value ∧
      (stage.locked = true → (q.data t.slot).lock = true)
  unique : ∀ p p' t t' stage stage', q.producers p = some (.writing t stage) →
    q.producers p' = some (.writing t' stage') → t.rank = t'.rank → p = p'
  stored : ∀ r value, q.dequeued.length ≤ r → q.admitted[r]? = some value → q.Unheld r →
    (q.data (r % N)).value = value ∧
    ((q.data (r % N)).hasValue = true ↔
      ¬ (r = q.dequeued.length ∧ cleared q.consumer = true))
  empty : ∀ i, i < N → (∀ r, q.dequeued.length ≤ r → r < q.admitted.length → r % N ≠ i) →
    (q.data i).hasValue = false
  mutex : ∀ p t stage, q.producers p = some (.writing t stage) → stage.locked = true →
    reading q.consumer = true → t.slot ≠ q.tail
  lock : reading q.consumer = true → (q.data q.tail).lock = true
  knows : q.Knows q.consumer
  runs : (∀ p, q.producers p ≠ some .aborted) ∧ q.consumer ≠ some .aborted
  accepted : ∀ r ∈ q.accepted, r < q.admitted.length ∧ q.Unheld r

/-! ## Tickets and nodes -/

/-- Outstanding tickets have different nodes. -/
theorem window_inj {N d r r' : Nat} (hr : d ≤ r) (hr' : d ≤ r') (hlt : r < d + N)
    (hlt' : r' < d + N) (h : r % N = r' % N) : r = r' := by
  have hle : r - r' = 0 := by
    have hmod := Nat.sub_mod_eq_zero_of_mod_eq h
    rwa [Nat.mod_eq_of_lt (by omega)] at hmod
  have hge : r' - r = 0 := by
    have hmod := Nat.sub_mod_eq_zero_of_mod_eq h.symm
    rwa [Nat.mod_eq_of_lt (by omega)] at hmod
  omega

theorem next_mod {N d : Nat} (hN : 0 < N) :
    (if N ≤ d % N + 1 then 0 else d % N + 1) = (d + 1) % N := by
  have hlt := Nat.mod_lt d hN
  have hmod := Nat.mod_add_mod d N 1
  split
  next h =>
    rw [show d % N + 1 = N by omega, Nat.mod_self] at hmod
    exact hmod
  next h =>
    rw [Nat.mod_eq_of_lt (show d % N + 1 < N by omega)] at hmod
    exact hmod

section Producers

variable {q : Queue w} {N P p : Nat} {e : Option (Enqueue w)}
  {f : Option (Enqueue w) → Nat}

/-- A producer that moves changes a sum by its own part. -/
theorem total_update (q q' : Queue w) (hp : p < P)
    (h : q'.producers = Function.update q.producers p e) :
    q'.total P f + f (q.producers p) = q.total P f + f e := by
  have hmem := Finset.mem_range.mpr hp
  rw [Queue.total, Queue.total,
    ← Finset.add_sum_erase _ (fun i => f (q'.producers i)) hmem,
    ← Finset.add_sum_erase _ (fun i => f (q.producers i)) hmem]
  have hrest : ∑ i ∈ (Finset.range P).erase p, f (q'.producers i)
      = ∑ i ∈ (Finset.range P).erase p, f (q.producers i) :=
    Finset.sum_congr rfl fun i hi => by
      rw [h, Function.update_of_ne (Finset.ne_of_mem_erase hi)]
  rw [hrest, h, Function.update_self]
  omega

/-- The sums of the enqueues in progress, one within the other. -/
theorem total_le {f g : Option (Enqueue w) → Nat} (hle : ∀ e, f e ≤ g e) :
    q.total P f ≤ q.total P g :=
  Finset.sum_le_sum fun i _ => hle (q.producers i)

theorem waiting_le : ∀ e : Option (Enqueue w), waiting e ≤ inCount e
  | none => Nat.le_refl _
  | some c => by cases c <;> simp [inCount, waiting]

theorem inCount_le : ∀ e : Option (Enqueue w), inCount e ≤ ticketless e
  | none => Nat.le_refl _
  | some c => by cases c <;> simp [inCount, ticketless]

theorem Inv.lt_of_some (h : Inv N P q) {c : Enqueue w} (he : q.producers p = some c) :
    p < P := by
  by_contra hle
  rw [h.idle p (by omega)] at he
  cases he

/-- An outstanding ticket is below the bound. -/
theorem Inv.rank_lt (h : Inv N P q) {t : Ticket w} {stage : Stage}
    (ht : q.producers p = some (.writing t stage)) : t.rank < q.admitted.length :=
  (List.getElem?_eq_some_iff.mp (h.ticket p t stage ht).2.1).1

/-- Two enqueues are at different nodes. -/
theorem Inv.slot_ne (h : Inv N P q) {p' : Nat} {t t' : Ticket w} {stage stage' : Stage}
    (ht : q.producers p = some (.writing t stage))
    (ht' : q.producers p' = some (.writing t' stage')) (hne : p ≠ p') :
    t.slot ≠ t'.slot := by
  intro hslot
  obtain ⟨hle, _, hs⟩ := h.ticket p t stage ht
  obtain ⟨hle', _, hs'⟩ := h.ticket p' t' stage' ht'
  have hb := h.bound
  have hlt := h.rank_lt ht
  have hlt' := h.rank_lt ht'
  exact hne (h.unique p p' t t' stage stage' ht ht'
    (@window_inj N _ _ _ hle hle' (by omega) (by omega) (by rw [← hs, ← hs', hslot])))

/-- The node of a ticket that is held is of no other outstanding ticket. -/
theorem Inv.rank_eq (h : Inv N P q) {t : Ticket w} {stage : Stage}
    (ht : q.producers p = some (.writing t stage)) {r : Nat} (hr : q.dequeued.length ≤ r)
    (hlt : r < q.admitted.length) (hslot : r % N = t.slot) : r = t.rank := by
  obtain ⟨hle, _, hs⟩ := h.ticket p t stage ht
  have hb := h.bound
  have hlt' := h.rank_lt ht
  exact @window_inj N _ _ _ hr hle (by omega) (by omega) (by rw [hslot, hs])

/-- What a producer does that leaves `ticketless`, `inCount` and `waiting` alone. -/
theorem total_same (q q' : Queue w) (hp : p < P)
    (h : q'.producers = Function.update q.producers p e) (hf : f e = f (q.producers p)) :
    q'.total P f = q.total P f := by
  have htotal := total_update (f := f) q q' hp h
  omega

/-! ## A producer at its node -/

variable {t : Ticket w} {stage stage' : Stage} {c : Enqueue w}

theorem goto_self : (q.goto p c).producers p = some c := Function.update_self ..

theorem goto_ne {p' : Nat} (h : p' ≠ p) : (q.goto p c).producers p' = q.producers p' :=
  Function.update_of_ne h ..

/-- An enqueue that stays at its node holds the tickets it held. -/
theorem unheld_writing (h : q.producers p = some (.writing t stage)) {q' : Queue w}
    (hq' : q'.producers = Function.update q.producers p (some (.writing t stage')))
    {r : Nat} :
    q'.Unheld r ↔ q.Unheld r := by
  constructor
  · intro hun p' t' s' ht'
    by_cases hp : p' = p
    · subst hp
      obtain ⟨rfl, _⟩ := Enqueue.writing.inj (Option.some.inj (h.symm.trans ht'))
      exact hun p' t stage' (by rw [hq', Function.update_self])
    · exact hun p' t' s' (by rw [hq', Function.update_of_ne hp]; exact ht')
  · intro hun p' t' s' ht'
    rw [hq'] at ht'
    by_cases hp : p' = p
    · subst hp
      rw [Function.update_self] at ht'
      obtain ⟨rfl, _⟩ := Enqueue.writing.inj (Option.some.inj ht')
      exact hun p' t stage h
    · rw [Function.update_of_ne hp] at ht'
      exact hun p' t' s' ht'

/-- What the consumer knows is about the next value only. -/
theorem knows_next (q q' : Queue w) (hnext : ∀ value, q.Next value → q'.Next value)
    {c : Option (Dequeue w)} (hk : q.Knows c) : q'.Knows c := by
  rcases c with _ | c
  · trivial
  · cases c with
    | copy k result =>
      obtain ⟨value, hv, hres⟩ := hk
      exact ⟨value, hnext value hv, hres⟩
    | clear result => exact hnext result hk
    | release ret result => exact fun hr => hnext result (hk hr)
    | advance result => exact hnext result hk
    | fetchCount result => exact hnext result hk
    | _ => trivial

/-- A producer that works on its node keeps the invariant. It takes the lock only
when it is free, and leaves it alone before. -/
theorem Inv.writing (h : Inv N P q) (ht : q.producers p = some (.writing t stage))
    (stage' : Stage) (node : Node w) (hfits : stage'.Fits node t.value)
    (hlock : stage'.locked = true → node.lock = true)
    (hfree : stage.locked = false → stage'.locked = true → (q.data t.slot).lock = false)
    (hbefore : stage.locked = false → (q.data t.slot).lock = true → node.lock = true) :
    Inv N P ((q.setNode t.slot node).goto p (.writing t stage')) := by
  have hp := h.lt_of_some ht
  have hq' : ((q.setNode t.slot node).goto p (.writing t stage')).producers
      = Function.update q.producers p (some (.writing t stage')) := rfl
  -- the consumer is not at a node that is locked for the producer
  have hapart : reading q.consumer = true → q.tail = t.slot → stage'.locked = false ∧
      node.lock = true := by
    intro hread htail
    have hlocked : stage.locked = false := by
      by_contra hs
      exact h.mutex p t stage ht (by simpa using hs) hread htail.symm
    have hheld := h.lock hread
    rw [htail] at hheld
    refine ⟨?_, hbefore hlocked hheld⟩
    by_contra hs
    rw [hfree hlocked (by simpa using hs)] at hheld
    cases hheld
  refine ⟨h.few, ?_, ?_, ?_, ?_, h.head, h.taken, h.tail, ?_, ?_, ?_, ?_, ?_,
    ?_, ?_, ?_, ?_, fun r hr =>
      ⟨(h.accepted r hr).1, (unheld_writing ht hq').mpr (h.accepted r hr).2⟩⟩
  · intro p' hp'
    rw [goto_ne (by omega)]
    exact h.idle p' hp'
  · rw [total_same q _ hp hq' (by rw [ht]; rfl)]
    exact h.early
  · rw [total_same q _ hp hq' (by rw [ht]; rfl)]
    exact h.count
  · rw [total_same q _ hp hq' (by rw [ht]; rfl)]
    exact h.bound
  · intro p' t' s' ht'
    by_cases hpp : p' = p
    · subst hpp
      rw [goto_self] at ht'
      obtain ⟨rfl, _⟩ := Enqueue.writing.inj (Option.some.inj ht')
      exact h.ticket p' t stage ht
    · rw [goto_ne hpp] at ht'
      exact h.ticket p' t' s' ht'
  · intro p' t' s' ht'
    by_cases hpp : p' = p
    · subst hpp
      rw [goto_self] at ht'
      obtain ⟨rfl, rfl⟩ := Enqueue.writing.inj (Option.some.inj ht')
      show Stage.Fits (Function.update q.data _ node _) _ _ ∧
        (_ → (Function.update q.data _ node _).lock = _)
      rw [Function.update_self]
      exact ⟨hfits, hlock⟩
    · rw [goto_ne hpp] at ht'
      have hslot := h.slot_ne ht' ht hpp
      show Stage.Fits (Function.update q.data _ node _) _ _ ∧
        (_ → (Function.update q.data _ node _).lock = _)
      rw [Function.update_of_ne hslot]
      exact h.node p' t' s' ht'
  · intro p₁ p₂ t₁ t₂ s₁ s₂ h₁ h₂ hrank
    have hold : ∀ p' t' s',
      ((q.setNode t.slot node).goto p (.writing t stage')).producers p'
        = some (.writing t' s') → ∃ s, q.producers p' = some (.writing t' s) := by
      intro p' t' s' ht'
      by_cases hpp : p' = p
      · subst hpp
        rw [goto_self] at ht'
        obtain ⟨rfl, _⟩ := Enqueue.writing.inj (Option.some.inj ht')
        exact ⟨stage, ht⟩
      · rw [goto_ne hpp] at ht'
        exact ⟨s', ht'⟩
    obtain ⟨s₁', h₁'⟩ := hold p₁ t₁ s₁ h₁
    obtain ⟨s₂', h₂'⟩ := hold p₂ t₂ s₂ h₂
    exact h.unique p₁ p₂ t₁ t₂ s₁' s₂' h₁' h₂' hrank
  · intro r value hr hvalue hun
    rw [unheld_writing ht hq'] at hun
    have hlt := (List.getElem?_eq_some_iff.mp hvalue).1
    have hslot : r % N ≠ t.slot :=
      fun hs => hun p t stage ht (h.rank_eq ht hr hlt hs).symm
    show (Function.update q.data _ node _).value = _ ∧
      ((Function.update q.data _ node _).hasValue = _ ↔ _)
    rw [Function.update_of_ne hslot]
    exact h.stored r value hr hvalue hun
  · intro i hi hnone
    have hslot : i ≠ t.slot := by
      rintro rfl
      obtain ⟨hle, _, hs⟩ := h.ticket p t stage ht
      exact hnone t.rank hle (h.rank_lt ht) hs.symm
    show (Function.update q.data _ node _).hasValue = _
    rw [Function.update_of_ne hslot]
    exact h.empty i hi hnone
  · intro p' t' s' ht' hs' hread
    by_cases hpp : p' = p
    · subst hpp
      rw [goto_self] at ht'
      obtain ⟨rfl, rfl⟩ := Enqueue.writing.inj (Option.some.inj ht')
      intro hslot
      rw [(hapart hread hslot.symm).1] at hs'
      cases hs'
    · rw [goto_ne hpp] at ht'
      exact h.mutex p' t' s' ht' hs' hread
  · intro hread
    show (Function.update q.data _ node _).lock = true
    by_cases htail : q.tail = t.slot
    · show (Function.update q.data t.slot node q.tail).lock = true
      rw [htail, Function.update_self]
      exact (hapart hread htail).2
    · show (Function.update q.data t.slot node q.tail).lock = true
      rw [Function.update_of_ne htail]
      exact h.lock hread
  · refine knows_next q _ (fun value hv => ?_) h.knows
    exact ⟨hv.1, (unheld_writing ht hq').mpr hv.2⟩
  · refine ⟨fun p' hab => ?_, h.runs.2⟩
    by_cases hpp : p' = p
    · subst hpp
      rw [goto_self] at hab
      cases hab
    · rw [goto_ne hpp] at hab
      exact h.runs.1 p' hab

theorem setNode_self (q : Queue w) (i : Nat) : q.setNode i (q.data i) = q := by
  unfold Queue.setNode
  rw [Function.update_eq_self]

/-! ## A producer without a node -/

theorem offNode_ne_writing (h : offNode e = true) (t : Ticket w) (stage : Stage) :
    e ≠ some (.writing t stage) := by
  rintro rfl
  cases h

theorem offNode_ne_aborted (h : offNode e = true) : e ≠ some .aborted := by
  rintro rfl
  cases h

/-- A step to and from where a producer has no ticket: only the counts matter, and
of these only the part of the producer that moves. -/
theorem Inv.counting (h : Inv N P q) {q' : Queue w} (hp : p < P)
    (hold : offNode (q.producers p) = true) (hnew : offNode e = true)
    (hq' : q'.producers = Function.update q.producers p e)
    (hsame : q'.data = q.data ∧ q'.consumer = q.consumer ∧ q'.admitted = q.admitted ∧
      q'.dequeued = q.dequeued ∧ q'.accepted = q.accepted ∧ q'.head = q.head ∧
        q'.tail = q.tail)
    (hfew : q'.calls < 2 ^ 64)
    (hearly : q.calls + ticketless e ≤ q'.calls + ticketless (q.producers p))
    (hcount : q'.count.toNat + inCount (q.producers p) = q.count.toNat + inCount e)
    (hbound : waiting e = waiting (q.producers p) ∨
      q.admitted.length + q.total P waiting + waiting e ≤ q.dequeued.length + N) :
    Inv N P q' := by
  obtain ⟨hdata, hconsumer, hadmitted, hdequeued, haccepted, hhead, htail⟩ := hsame
  have htotal := fun f => total_update (f := f) q q' hp hq'
  have hwriting : ∀ i t s, q'.producers i = some (.writing t s) ↔
      q.producers i = some (.writing t s) := by
    intro i t s
    rw [hq']
    by_cases hi : i = p
    · subst hi
      rw [Function.update_self]
      exact ⟨fun he => absurd he (offNode_ne_writing hnew t s),
        fun he => absurd he (offNode_ne_writing hold t s)⟩
    · rw [Function.update_of_ne hi]
  have hunheld : ∀ r, q'.Unheld r ↔ q.Unheld r := fun r =>
    forall_congr' fun i => forall_congr' fun t => forall_congr' fun s => by rw [hwriting]
  have hnext : ∀ value, q'.Next value ↔ q.Next value := fun value => by
    unfold Queue.Next
    rw [hadmitted, hdequeued, hunheld]
  refine ⟨hfew, ?_, ?_, ?_, ?_, ?_, ?_, ?_, ?_, ?_, ?_, ?_, ?_, ?_, ?_, ?_, ?_, ?_⟩
  · intro i hi
    rw [hq', Function.update_of_ne (by omega)]
    exact h.idle i hi
  · rw [hadmitted]
    have hsum := htotal ticketless
    have hle := h.early
    omega
  · rw [hadmitted, hdequeued]
    have hsum := htotal inCount
    have heq := h.count
    omega
  · rw [hadmitted, hdequeued]
    have hsum := htotal waiting
    have hle := h.bound
    omega
  · rw [hhead, hadmitted]
    exact h.head
  · rw [hadmitted, hdequeued]
    exact h.taken
  · rw [htail, hdequeued, hconsumer]
    exact h.tail
  · intro i t s hi
    rw [hadmitted, hdequeued]
    exact h.ticket i t s ((hwriting i t s).mp hi)
  · intro i t s hi
    rw [hdata]
    exact h.node i t s ((hwriting i t s).mp hi)
  · intro i i' t t' s s' hi hi'
    exact h.unique i i' t t' s s' ((hwriting i t s).mp hi) ((hwriting i' t' s').mp hi')
  · intro r value hr hvalue hun
    rw [hdequeued] at hr
    rw [hadmitted] at hvalue
    rw [hdata, hdequeued, hconsumer]
    exact h.stored r value hr hvalue ((hunheld r).mp hun)
  · intro i hi hnone
    rw [hdequeued, hadmitted] at hnone
    rw [hdata]
    exact h.empty i hi hnone
  · intro i t s hi hs hread
    rw [hconsumer] at hread
    rw [htail]
    exact h.mutex i t s ((hwriting i t s).mp hi) hs hread
  · intro hread
    rw [hconsumer] at hread
    rw [hdata, htail]
    exact h.lock hread
  · rw [hconsumer]
    exact knows_next q q' (fun value => (hnext value).mpr) h.knows
  · refine ⟨fun i hab => ?_, by rw [hconsumer]; exact h.runs.2⟩
    rw [hq'] at hab
    by_cases hi : i = p
    · subst hi
      rw [Function.update_self] at hab
      exact offNode_ne_aborted hnew hab
    · rw [Function.update_of_ne hi] at hab
      exact h.runs.1 i hab
  · intro r hr
    rw [haccepted] at hr
    rw [hadmitted, hunheld]
    exact h.accepted r hr

/-- `enqueue` is called. -/
theorem call_inv (h : Inv N P q) (hp : p < P) (hnone : q.producers p = none)
    (hfew : q.calls + 1 < 2 ^ 64) (value : Bytes w) :
    Inv N P ({ q with calls := q.calls + 1 }.goto p (.fetchCount value)) := by
  refine h.counting hp (by rw [hnone]; rfl) rfl rfl
    ⟨rfl, rfl, rfl, rfl, rfl, rfl, rfl⟩ hfew ?_ ?_ (Or.inl ?_)
  · rw [hnone]
    exact Nat.le_refl _
  · rw [hnone]
    rfl
  · rw [hnone]
    rfl

theorem fetchCount_inv (h : Inv N P q) {value : Bytes w}
    (hpc : q.producers p = some (.fetchCount value)) :
    Inv N P (q.enqueue N p (.fetchCount value)) := by
  have hp := h.lt_of_some hpc
  have hearly := h.early
  have hcount := h.count
  have hfew := h.few
  -- this enqueue is called and not counted yet
  have hlt : q.total P inCount < q.total P ticketless :=
    Finset.sum_lt_sum (fun i _ => inCount_le (q.producers i))
      ⟨p, Finset.mem_range.mpr hp, by rw [hpc]; exact Nat.zero_lt_one⟩
  have hnext : (q.count + 1).toNat = q.count.toNat + 1 := by
    rw [BitVec.toNat_add_of_lt (by show q.count.toNat + 1 < 2 ^ 64; omega)]
    rfl
  have hwait := total_le (q := q) (P := P) waiting_le
  unfold Queue.enqueue
  dsimp only
  split
  next hfull =>
    refine h.counting hp (by rw [hpc]; rfl) rfl rfl
      ⟨rfl, rfl, rfl, rfl, rfl, rfl, rfl⟩ hfew ?_ ?_ (Or.inl ?_)
    · rw [hpc]
      exact Nat.le_refl _
    · rw [hpc]
      exact hnext
    · rw [hpc]
      rfl
  next hroom =>
    refine h.counting hp (by rw [hpc]; rfl) rfl rfl
      ⟨rfl, rfl, rfl, rfl, rfl, rfl, rfl⟩ hfew ?_ ?_ (Or.inr ?_)
    · rw [hpc]
      exact Nat.le_refl _
    · rw [hpc]
      exact hnext
    · -- what is outstanding is counted: there is room
      show _ + 1 ≤ _
      omega

theorem undoCount_inv (h : Inv N P q) (hpc : q.producers p = some .undoCount) :
    Inv N P ({ q with count := q.count - 1 }.ret p false) := by
  have hp := h.lt_of_some hpc
  have hcount := h.count
  have hlen := h.taken.length_le
  -- this enqueue is counted
  have hone : 1 ≤ q.total P inCount := by
    have hself := Finset.single_le_sum (f := fun i => inCount (q.producers i))
      (fun _ _ => Nat.zero_le _) (Finset.mem_range.mpr hp)
    rw [hpc] at hself
    exact hself
  have hpred : (q.count - 1).toNat + 1 = q.count.toNat := by
    rw [BitVec.toNat_sub_of_le (by rw [BitVec.le_def]; show 1 ≤ q.count.toNat; omega)]
    show q.count.toNat - 1 + 1 = _
    omega
  refine h.counting hp (by rw [hpc]; rfl) rfl rfl
    ⟨rfl, rfl, rfl, rfl, rfl, rfl, rfl⟩ h.few ?_ ?_ (Or.inl ?_)
  · rw [hpc]
    exact Nat.le_succ _
  · rw [hpc]
    exact hpred
  · rw [hpc]
    rfl

/-- An enqueue takes its ticket: its node is empty, since the ticket is less than
`N` after the first that is outstanding. -/
theorem fetchHead_inv (hN : 0 < N) (h : Inv N P q) {value : Bytes w}
    (hpc : q.producers p = some (.fetchHead value)) :
    Inv N P (q.enqueue N p (.fetchHead value)) := by
  have hp := h.lt_of_some hpc
  have h₁ := h.early
  have h₂ := h.count
  have h₃ := h.bound
  have h₄ := h.few
  have h₅ := h.head
  have hlen := h.taken.length_le
  have htotal :=
    fun f => total_update (f := f) q (q.enqueue N p (.fetchHead value)) hp rfl
  have hearly := htotal ticketless
  have hcount := htotal inCount
  have hwaiting := htotal waiting
  rw [hpc] at hearly hcount hwaiting
  simp only [ticketless, inCount, waiting] at hearly hcount hwaiting
  have hnext : (q.head + 1).toNat = q.head.toNat + 1 := by
    rw [BitVec.toNat_add_of_lt (by show q.head.toNat + 1 < 2 ^ 64; omega)]
    rfl
  have hadmitted : (q.enqueue N p (.fetchHead value)).admitted =
      q.admitted ++ [value] := rfl
  have hself : (q.enqueue N p (.fetchHead value)).producers p
      = some (.writing ⟨q.admitted.length, q.head.toNat % N, value⟩ .acquire) :=
    Function.update_self ..
  have hother : ∀ i, i ≠ p → (q.enqueue N p (.fetchHead value)).producers i =
      q.producers i :=
    fun i hi => Function.update_of_ne hi ..
  -- every other ticket was held before
  have hold : ∀ i t s, (q.enqueue N p (.fetchHead value)).producers i =
    some (.writing t s) →
      (i = p ∧ t = ⟨q.admitted.length, q.head.toNat % N, value⟩ ∧ s = .acquire) ∨
      (i ≠ p ∧ q.producers i = some (.writing t s)) := by
    intro i t s hi
    by_cases hip : i = p
    · subst hip
      rw [hself] at hi
      obtain ⟨rfl, rfl⟩ := Enqueue.writing.inj (Option.some.inj hi)
      exact Or.inl ⟨rfl, rfl, rfl⟩
    · rw [hother i hip] at hi
      exact Or.inr ⟨hip, hi⟩
  have hunheld : ∀ r, (q.enqueue N p (.fetchHead value)).Unheld r ↔
      q.Unheld r ∧ r ≠ q.admitted.length := by
    intro r
    constructor
    · intro hun
      refine ⟨fun i t s hi => ?_, fun hr => hun p _ _ hself hr.symm⟩
      refine hun i t s ?_
      rw [hother i (by rintro rfl; rw [hpc] at hi; cases hi)]
      exact hi
    · rintro ⟨hun, hr⟩ i t s hi
      rcases hold i t s hi with ⟨rfl, rfl, rfl⟩ | ⟨_, hi⟩
      · exact hr.symm
      · exact hun i t s hi
  refine ⟨h₄, ?_, ?_, ?_, ?_, ?_, ?_, h.tail, ?_, ?_, ?_, ?_, ?_, ?_, h.lock, ?_, ?_, ?_⟩
  · intro i hi
    rw [hother i (by omega)]
    exact h.idle i hi
  · rw [hadmitted, List.length_append, List.length_singleton]
    show _ ≤ q.calls
    omega
  · rw [hadmitted, List.length_append, List.length_singleton]
    show q.count.toNat + q.dequeued.length = _
    omega
  · rw [hadmitted, List.length_append, List.length_singleton]
    show _ ≤ q.dequeued.length + N
    omega
  · rw [hadmitted, List.length_append, List.length_singleton]
    show (q.head + 1).toNat = _
    omega
  · exact h.taken.trans (List.prefix_append _ _)
  · intro i t s hi
    rw [hadmitted]
    rcases hold i t s hi with ⟨rfl, rfl, rfl⟩ | ⟨_, hi⟩
    · refine ⟨hlen, ?_, ?_⟩
      · show (q.admitted ++ [value])[q.admitted.length]? = some value
        rw [List.getElem?_append_right (Nat.le_refl _), Nat.sub_self]
        rfl
      · show q.head.toNat % N = q.admitted.length % N
        rw [h₅]
    · obtain ⟨hle, hvalue, hslot⟩ := h.ticket i t s hi
      refine ⟨hle, ?_, hslot⟩
      rw [List.getElem?_append_left (h.rank_lt hi)]
      exact hvalue
  · intro i t s hi
    rcases hold i t s hi with ⟨rfl, rfl, rfl⟩ | ⟨_, hi⟩
    · refine ⟨?_, fun hlocked => by cases hlocked⟩
      show (q.data (q.head.toNat % N)).hasValue = false
      rw [h₅]
      refine h.empty _ (Nat.mod_lt _ hN) fun r hr hlt hmod => ?_
      have := @window_inj N q.dequeued.length r q.admitted.length hr hlen (by omega)
        (by omega) hmod
      omega
    · exact h.node i t s hi
  · intro i i' t t' s s' hi hi' hrank
    rcases hold i t s hi with ⟨rfl, rfl, rfl⟩ | ⟨_, hold₁⟩ <;>
      rcases hold i' t' s' hi' with ⟨rfl, rfl, rfl⟩ | ⟨_, hold₂⟩
    · rfl
    · have hlt := h.rank_lt hold₂
      rw [← hrank] at hlt
      exact absurd hlt (Nat.lt_irrefl _)
    · have hlt := h.rank_lt hold₁
      rw [hrank] at hlt
      exact absurd hlt (Nat.lt_irrefl _)
    · exact h.unique i i' t t' s s' hold₁ hold₂ hrank
  · intro r v hr hv hun
    obtain ⟨hun, hne⟩ := (hunheld r).mp hun
    have hlt := (List.getElem?_eq_some_iff.mp hv).1
    rw [hadmitted, List.length_append, List.length_singleton] at hlt
    rw [hadmitted, List.getElem?_append_left (by omega)] at hv
    exact h.stored r v hr hv hun
  · intro i hi hnone
    refine h.empty i hi fun r hr hlt => hnone r hr ?_
    rw [hadmitted, List.length_append, List.length_singleton]
    omega
  · intro i t s hi hs hread
    rcases hold i t s hi with ⟨rfl, rfl, rfl⟩ | ⟨_, hi⟩
    · cases hs
    · exact h.mutex i t s hi hs hread
  · refine knows_next q _ (fun v hv => ?_) h.knows
    have hlt := (List.getElem?_eq_some_iff.mp hv.1).1
    refine ⟨?_, (hunheld _).mpr ⟨hv.2, ?_⟩⟩
    · show (q.admitted ++ [value])[q.dequeued.length]? = some v
      rw [List.getElem?_append_left hlt]
      exact hv.1
    · show q.dequeued.length ≠ _
      omega
  · refine ⟨fun i hab => ?_, h.runs.2⟩
    by_cases hip : i = p
    · subst hip
      rw [hself] at hab
      cases hab
    · rw [hother i hip] at hab
      exact h.runs.1 i hab
  · intro r hr
    obtain ⟨hlt, hun⟩ := h.accepted r hr
    rw [hadmitted, List.length_append]
    exact ⟨by omega, (hunheld r).mpr ⟨hun, by omega⟩⟩

/-- When the next value is taken from its node no enqueue holds its ticket. -/
theorem Inv.cleared_next (h : Inv N P q) (hc : cleared q.consumer = true) :
    ∃ value, q.Next value := by
  have hk := h.knows
  revert hk hc
  rcases q.consumer with _ | c
  · intro hc
    cases hc
  · cases c with
    | release ret result =>
      intro hc hk
      exact ⟨result, hk hc⟩
    | advance result => exact fun _ hk => ⟨result, hk⟩
    | fetchCount result => exact fun _ hk => ⟨result, hk⟩
    | _ =>
      intro hc
      cases hc

/-- The enqueue with the ticket returns true, having released its node. -/
def Queue.returned (q : Queue w) (p : Nat) (t : Ticket w) : Queue w :=
  { q.setNode t.slot { q.data t.slot with lock := false } with
    accepted := q.accepted ++ [t.rank] }.ret p true

/-- An enqueue returns: its value is stored. -/
theorem release_inv (h : Inv N P q) {setValue : Bool}
    (ht : q.producers p = some (.writing t (.release setValue))) :
    Inv N P (q.write p t (.release setValue)) := by
  have hp := h.lt_of_some ht
  obtain ⟨⟨rfl, hhas, hvalue⟩, hlock⟩ := h.node p t _ ht
  have hlocked := hlock rfl
  have hwrite : q.write p t (.release false) = q.returned p t := by
    simp only [Queue.write, Bool.false_eq_true, if_false, hlocked, if_true]
    rfl
  rw [hwrite]
  have htotal := fun f => total_same (f := f) q (q.returned p t) hp rfl
  have hother : ∀ i, i ≠ p → (q.returned p t).producers i = q.producers i :=
    fun i hi => Function.update_of_ne hi ..
  have hself : (q.returned p t).producers p = none := Function.update_self ..
  have hold : ∀ i t' s, (q.returned p t).producers i = some (.writing t' s) →
      i ≠ p ∧ q.producers i = some (.writing t' s) := by
    intro i t' s hi
    by_cases hip : i = p
    · subst hip
      rw [hself] at hi
      cases hi
    · rw [hother i hip] at hi
      exact ⟨hip, hi⟩
  have hunheld : ∀ r, q.Unheld r → (q.returned p t).Unheld r :=
    fun r hun i t' s hi => hun i t' s (hold i t' s hi).2
  have hdata : (q.returned p t).data
      = Function.update q.data t.slot { q.data t.slot with lock := false } := rfl
  obtain ⟨hle, hadmitted, hslot⟩ := h.ticket p t _ ht
  refine ⟨h.few, ?_, ?_, ?_, ?_, h.head, h.taken, h.tail, ?_, ?_, ?_, ?_, ?_, ?_,
    ?_, ?_, ?_, ?_⟩
  · intro i hi
    rw [hother i (by omega)]
    exact h.idle i hi
  · rw [htotal ticketless (by rw [ht]; rfl)]
    exact h.early
  · rw [htotal inCount (by rw [ht]; rfl)]
    exact h.count
  · rw [htotal waiting (by rw [ht]; rfl)]
    exact h.bound
  · intro i t' s hi
    exact h.ticket i t' s (hold i t' s hi).2
  · intro i t' s hi
    obtain ⟨hip, hi⟩ := hold i t' s hi
    rw [hdata, Function.update_of_ne (h.slot_ne hi ht hip)]
    exact h.node i t' s hi
  · intro i i' t₁ t₂ s s' hi hi'
    exact h.unique i i' t₁ t₂ s s' (hold i t₁ s hi).2 (hold i' t₂ s' hi').2
  · intro r v hr hv hun
    have hlt := (List.getElem?_eq_some_iff.mp hv).1
    rw [hdata]
    by_cases hrank : r = t.rank
    · subst hrank
      rw [← hslot, Function.update_self]
      refine ⟨hvalue.trans (Option.some.inj (hadmitted.symm.trans hv)), ?_⟩
      refine ⟨fun _ hc => ?_, fun _ => hhas⟩
      obtain ⟨_, _, hnext⟩ := h.cleared_next hc.2
      exact hnext p t _ ht hc.1
    · have hne : r % N ≠ t.slot := fun hs => hrank (h.rank_eq ht hr hlt hs)
      rw [Function.update_of_ne hne]
      refine h.stored r v hr hv fun i t' s hi => ?_
      by_cases hip : i = p
      · subst hip
        obtain ⟨rfl, _⟩ := Enqueue.writing.inj (Option.some.inj (ht.symm.trans hi))
        exact fun hr => hrank hr.symm
      · exact hun i t' s (by rw [hother i hip]; exact hi)
  · intro i hi hnone
    rw [hdata, Function.update_of_ne]
    · exact h.empty i hi hnone
    · rintro rfl
      exact hnone t.rank hle (h.rank_lt ht) hslot.symm
  · intro i t' s hi hs hread
    exact h.mutex i t' s (hold i t' s hi).2 hs hread
  · intro hread
    have hne := (h.mutex p t _ ht rfl hread).symm
    show (Function.update q.data t.slot _ q.tail).lock = true
    rw [Function.update_of_ne hne]
    exact h.lock hread
  · exact knows_next q (q.returned p t) (fun v hv => ⟨hv.1, hunheld _ hv.2⟩) h.knows
  · refine ⟨fun i hab => ?_, h.runs.2⟩
    by_cases hip : i = p
    · subst hip
      rw [hself] at hab
      cases hab
    · rw [hother i hip] at hab
      exact h.runs.1 i hab
  · intro r hr
    rcases List.mem_append.mp hr with hold' | hnew
    · obtain ⟨hlt, hun⟩ := h.accepted r hold'
      exact ⟨hlt, hunheld r hun⟩
    · rw [List.mem_singleton.mp hnew]
      refine ⟨h.rank_lt ht, fun i t' s hi hrank => ?_⟩
      obtain ⟨hip, hi⟩ := hold i t' s hi
      exact hip (h.unique i p t' t s _ hi ht hrank)

theorem write_inv (h : Inv N P q) (ht : q.producers p = some (.writing t stage)) :
    Inv N P (q.write p t stage) := by
  obtain ⟨hfits, hlock⟩ := h.node p t stage ht
  cases stage with
  | acquire =>
    unfold Queue.write
    dsimp only
    split
    next hheld =>
      have hstay :=
        h.writing ht .acquire { q.data t.slot with lock := true } hfits (fun _ => rfl)
        (fun _ hc => by cases hc) (fun _ _ => rfl)
      have hsame : (q.setNode t.slot { q.data t.slot with lock := true }).goto p
          (.writing t .acquire) = q.setNode t.slot
          { q.data t.slot with lock := true } := by
        unfold Queue.goto
        congr 1
        rw [← ht]
        exact Function.update_eq_self ..
      rw [hsame] at hstay
      exact hstay
    next hfree =>
      exact h.writing ht .load _ hfits (fun _ => rfl)
        (fun _ _ => Bool.eq_false_iff.mpr hfree) (fun _ _ => rfl)
  | load =>
    have hnext := h.writing ht (.store (q.data t.slot).hasValue) (q.data t.slot)
      ⟨hfits, hfits⟩ (fun _ => hlock rfl) (fun hc => by cases hc) (fun hc => by cases hc)
    rw [setNode_self] at hnext
    exact hnext
  | store setValue =>
    exact h.writing ht (.copy 0 setValue) _ ⟨hfits.1, rfl, fun j hj => by cases hj⟩
      (fun _ => hlock rfl) (fun hc => by cases hc) (fun hc => by cases hc)
  | copy k setValue =>
    obtain ⟨hset, hhas, hbytes⟩ := hfits
    unfold Queue.write
    dsimp only
    split
    next hk =>
      refine h.writing ht (.copy (k + 1) setValue) _ ⟨hset, hhas, fun j hj => ?_⟩
        (fun _ => hlock rfl) (fun hc => by cases hc) (fun hc => by cases hc)
      show Function.update _ _ _ j = _
      by_cases hjk : j = ⟨k, hk⟩
      · subst hjk
        exact Function.update_self ..
      · rw [Function.update_of_ne hjk]
        have hne : j.val ≠ k := fun hc => hjk (Fin.ext hc)
        exact hbytes j (by omega)
    next hk =>
      have hnext := h.writing ht (.release setValue) (q.data t.slot)
        ⟨hset, hhas, funext fun j => hbytes j (by omega)⟩ (fun _ => hlock rfl)
        (fun hc => by cases hc) (fun hc => by cases hc)
      rw [setNode_self] at hnext
      exact hnext
  | release setValue => exact release_inv h ht

/-- Every step of an enqueue keeps the invariant. -/
theorem enqueue_inv (hN : 0 < N) (h : Inv N P q) (hc : q.producers p = some c) :
    Inv N P (q.enqueue N p c) := by
  cases c with
  | fetchCount value => exact fetchCount_inv h hc
  | undoCount => exact undoCount_inv h hc
  | fetchHead value => exact fetchHead_inv hN h hc
  | writing t stage => exact write_inv h hc
  | aborted => exact absurd hc (h.runs.1 p)

end Producers

/-! ## The consumer -/

section Consumer

variable {q : Queue w} {N P : Nat}

/-- The node of the next value is at `tail`, and no enqueue is there. -/
theorem Inv.next_slot (h : Inv N P q) (hahead : ahead q.consumer = 0) {value : Bytes w}
    (hnext : q.Next value) {p : Nat} {t : Ticket w} {stage : Stage}
    (ht : q.producers p = some (.writing t stage)) : t.slot ≠ q.tail := by
  intro hslot
  have htail := h.tail
  have hlt := (List.getElem?_eq_some_iff.mp hnext.1).1
  rw [hahead, Nat.add_zero] at htail
  exact hnext.2 p t stage ht
    (h.rank_eq ht (Nat.le_refl _) hlt (by rw [hslot, htail])).symm

/-- The consumer works on the node at `tail`: it takes the lock when it is free,
and empties the node when its value is taken. -/
theorem Inv.reading (h : Inv N P q) (consumer : Option (Dequeue w)) (node : Node w)
    (hahead : ahead q.consumer = 0) (hahead' : ahead consumer = 0)
    (hvalue : node.value = (q.data q.tail).value)
    (hhas : (node.hasValue = (q.data q.tail).hasValue ∧
      cleared consumer = cleared q.consumer) ∨
      (node.hasValue = false ∧ cleared consumer = true ∧ ∃ value, q.Next value))
    (hlock : Lfq.reading consumer = true → node.lock = true)
    (hheld : (q.data q.tail).lock = true → node.lock = true ∨
      Lfq.reading q.consumer = true)
    (hfree : Lfq.reading consumer = true →
      Lfq.reading q.consumer = true ∨ (q.data q.tail).lock = false)
    (hknows : q.Knows consumer) (hruns : consumer ≠ some .aborted) :
    Inv N P ((q.setNode q.tail node).turn consumer) := by
  have htail := h.tail
  rw [hahead, Nat.add_zero] at htail
  have hb := h.bound
  -- a producer at this node sees it unchanged
  have hsame : ∀ p t stage, q.producers p = some (.writing t stage) → t.slot = q.tail →
      node.hasValue = (q.data q.tail).hasValue := by
    intro p t stage ht hslot
    rcases hhas with ⟨hhas, _⟩ | ⟨_, _, _, hnext⟩
    · exact hhas
    · exact absurd hslot (h.next_slot hahead hnext ht)
  refine ⟨h.few, h.idle, h.early, h.count, h.bound, h.head, h.taken, ?_,
    h.ticket, ?_, h.unique, ?_, ?_, ?_, ?_, hknows, ⟨h.runs.1, hruns⟩, h.accepted⟩
  · show q.tail = (q.dequeued.length + ahead consumer) % N
    rw [hahead', Nat.add_zero]
    exact htail
  · intro p t stage ht
    show Stage.Fits (Function.update q.data q.tail node t.slot) _ _ ∧
      (_ → (Function.update q.data q.tail node t.slot).lock = true)
    obtain ⟨hfits, hlocked⟩ := h.node p t stage ht
    by_cases hslot : t.slot = q.tail
    · rw [hslot, Function.update_self]
      rw [hslot] at hfits hlocked
      have hhas' := hsame p t stage ht hslot
      refine ⟨?_, fun hs => ?_⟩
      · cases stage with
        | acquire => exact hhas'.trans hfits
        | load => exact hhas'.trans hfits
        | store setValue => exact ⟨hfits.1, hhas'.trans hfits.2⟩
        | copy k setValue =>
          refine ⟨hfits.1, hhas'.trans hfits.2.1, ?_⟩
          rw [hvalue]
          exact hfits.2.2
        | release setValue =>
          exact ⟨hfits.1, hhas'.trans hfits.2.1, hvalue.trans hfits.2.2⟩
      · rcases hheld (hlocked hs) with hnode | hread
        · exact hnode
        · exact absurd hslot (h.mutex p t stage ht hs hread)
    · rw [Function.update_of_ne hslot]
      exact ⟨hfits, hlocked⟩
  · intro r v (hr : q.dequeued.length ≤ r) (hv : q.admitted[r]? = some v)
      (hun : q.Unheld r)
    obtain ⟨hval, hiff⟩ := h.stored r v hr hv hun
    have hlt := (List.getElem?_eq_some_iff.mp hv).1
    show (Function.update q.data q.tail node (r % N)).value = v ∧
      ((Function.update q.data q.tail node (r % N)).hasValue = true ↔
        ¬ (r = q.dequeued.length ∧ cleared consumer = true))
    by_cases hmod : r % N = q.tail
    · have hfirst : r = q.dequeued.length := by
        rw [htail] at hmod
        exact @window_inj N _ _ _ hr (Nat.le_refl _) (by omega) (by omega) hmod
      rw [hmod] at hval hiff ⊢
      rw [Function.update_self]
      refine ⟨hvalue.trans hval, ?_⟩
      rcases hhas with ⟨hhas, hcleared⟩ | ⟨hhas, hcleared, _⟩
      · rw [hhas, hcleared]
        exact hiff
      · rw [hhas]
        exact ⟨fun hc => Bool.noConfusion hc, fun hc => absurd ⟨hfirst, hcleared⟩ hc⟩
    · have hfirst : r ≠ q.dequeued.length := fun hc => hmod (by rw [hc, htail])
      rw [Function.update_of_ne hmod]
      exact ⟨hval, hiff.trans ⟨fun _ hc => hfirst hc.1, fun _ hc => hfirst hc.1⟩⟩
  · intro i hi hnone
    show (Function.update q.data q.tail node i).hasValue = false
    have hempty := h.empty i hi hnone
    by_cases hit : i = q.tail
    · subst hit
      rw [Function.update_self]
      rcases hhas with ⟨hhas, _⟩ | ⟨hhas, _⟩
      · exact hhas.trans hempty
      · exact hhas
    · rw [Function.update_of_ne hit]
      exact hempty
  · intro p t stage (ht : q.producers p = some (.writing t stage)) hs hread
      (hslot : t.slot = q.tail)
    rcases hfree hread with hread | hfree
    · exact h.mutex p t stage ht hs hread hslot
    · have hheld := (h.node p t stage ht).2 hs
      rw [hslot, hfree] at hheld
      cases hheld
  · intro hread
    show (Function.update q.data q.tail node q.tail).lock = true
    rw [Function.update_self]
    exact hlock hread

/-- A value in the node at `tail` that no enqueue has locked is the next one. -/
theorem Inv.next_of_hasValue (hN : 0 < N) (h : Inv N P q)
    (hread : Lfq.reading q.consumer = true) (hahead : ahead q.consumer = 0)
    (hhas : (q.data q.tail).hasValue = true) :
    q.Next (q.data q.tail).value := by
  have htail := h.tail
  rw [hahead, Nat.add_zero] at htail
  have hb := h.bound
  have hlt : q.dequeued.length < q.admitted.length := by
    by_contra hge
    have hempty := h.empty q.tail (by rw [htail]; exact Nat.mod_lt _ hN)
      fun r hr hlt => absurd (Nat.lt_of_le_of_lt hr hlt) hge
    rw [hempty] at hhas
    cases hhas
  have hun : q.Unheld q.dequeued.length := by
    intro p t stage ht hrank
    obtain ⟨_, _, hslot⟩ := h.ticket p t stage ht
    rw [hrank, ← htail] at hslot
    obtain ⟨hfits, _⟩ := h.node p t stage ht
    have hlocked : stage.locked = false := by
      by_contra hs
      exact h.mutex p t stage ht (by simpa using hs) hread hslot
    rw [hslot] at hfits
    cases stage with
    | acquire =>
      rw [show (q.data q.tail).hasValue = false from hfits] at hhas
      cases hhas
    | _ => cases hlocked
  obtain ⟨v, hv⟩ : ∃ v, q.admitted[q.dequeued.length]? = some v :=
    ⟨_, List.getElem?_eq_getElem hlt⟩
  have hstored := (h.stored _ v (Nat.le_refl _) hv hun).1
  rw [← htail] at hstored
  rw [hstored]
  exact ⟨hv, hun⟩

/-- The consumer goes on without touching its node. -/
theorem Inv.turn (h : Inv N P q) (consumer : Option (Dequeue w))
    (hahead : ahead q.consumer = 0) (hahead' : ahead consumer = 0)
    (hcleared : cleared consumer = cleared q.consumer)
    (hread : Lfq.reading consumer = true → Lfq.reading q.consumer = true)
    (hknows : q.Knows consumer) (hruns : consumer ≠ some .aborted) :
    Inv N P (q.turn consumer) := by
  have hnext :=
    h.reading consumer (q.data q.tail) hahead hahead' rfl (Or.inl ⟨rfl, hcleared⟩)
    (fun hr => h.lock (hread hr)) (fun hl => Or.inl hl)
    (fun hr => Or.inl (hread hr)) hknows hruns
  rw [setNode_self] at hnext
  exact hnext

/-- `tail` moves on: its value was taken. -/
theorem advance_inv (hN : 0 < N) (h : Inv N P q) {result : Bytes w}
    (hc : q.consumer = some (.advance result)) :
    Inv N P (q.dequeue N (.advance result)) := by
  have htail := h.tail
  have hknows := h.knows
  rw [hc] at hknows htail
  refine ⟨h.few, h.idle, h.early, h.count, h.bound, h.head, h.taken, ?_, h.ticket,
    h.node, h.unique, ?_, h.empty, fun _ _ _ _ _ hread => (by cases hread), fun hread =>
      (by cases hread), hknows,
    ⟨h.runs.1, fun hab => by cases hab⟩, h.accepted⟩
  · show (if N ≤ q.tail + 1 then 0 else q.tail + 1) = (q.dequeued.length + 1) % N
    rw [htail]
    exact next_mod hN
  · intro r v hr hv hun
    have hstored := h.stored r v hr hv hun
    rw [hc] at hstored
    exact hstored

/-- A dequeue is done: the value it returns is the next one, and its ticket is no
longer outstanding. -/
theorem dequeued_inv (h : Inv N P q) {result : Bytes w}
    (hc : q.consumer = some (.fetchCount result)) :
    Inv N P (q.dequeue N (.fetchCount result)) ∧ q.count ≠ 0 := by
  have htail := h.tail
  have hknows := h.knows
  rw [hc] at hknows htail
  obtain ⟨hvalue, hun⟩ : q.Next result := hknows
  have hlt := (List.getElem?_eq_some_iff.mp hvalue).1
  have h₂ := h.count
  have h₃ := h.bound
  have hne : q.count ≠ 0 := by
    intro hzero
    rw [hzero] at h₂
    have : (0 : BitVec 64).toNat = 0 := rfl
    omega
  have hpred : (q.count - 1).toNat = q.count.toNat - 1 := by
    rw [BitVec.toNat_sub_of_le (by rw [BitVec.le_def]; show 1 ≤ q.count.toNat; omega)]
    rfl
  refine ⟨?_, hne⟩
  unfold Queue.dequeue
  dsimp only
  rw [if_neg hne]
  have hlen : (q.dequeued ++ [result]).length = q.dequeued.length + 1 := by
    rw [List.length_append, List.length_singleton]
  refine ⟨h.few, h.idle, h.early, ?_, ?_, h.head, ?_, ?_, ?_, h.node, h.unique, ?_, ?_,
    fun _ _ _ _ _ hread => (by cases hread), fun hread => (by cases hread), trivial,
    ⟨h.runs.1, fun hab => by cases hab⟩, h.accepted⟩
  · show (q.count - 1).toNat + (q.dequeued ++ [result]).length = q.admitted.length +
      q.total P inCount
    omega
  · show q.admitted.length + q.total P waiting ≤ (q.dequeued ++ [result]).length + N
    omega
  · show q.dequeued ++ [result] <+: q.admitted
    obtain ⟨rest, hrest⟩ := h.taken
    rw [← hrest, List.getElem?_append_right (Nat.le_refl _), Nat.sub_self] at hvalue
    rcases rest with _ | ⟨v, rest⟩
    · cases hvalue
    · obtain rfl := Option.some.inj hvalue
      exact ⟨rest, by rw [← hrest, List.append_assoc]; rfl⟩
  · show q.tail = ((q.dequeued ++ [result]).length + 0) % N
    rw [hlen]
    exact htail
  · intro p t stage ht
    show (q.dequeued ++ [result]).length ≤ t.rank ∧ _
    obtain ⟨hle, hrest⟩ := h.ticket p t stage ht
    have hfirst := hun p t stage ht
    exact ⟨by omega, hrest⟩
  · intro r v (hr : (q.dequeued ++ [result]).length ≤ r)
      (hv : q.admitted[r]? = some v) hunr
    obtain ⟨hval, hiff⟩ := h.stored r v (by omega) hv hunr
    refine ⟨hval, hiff.trans ⟨fun _ hcl => (by cases hcl.2), fun _ hcl => ?_⟩⟩
    have : r = q.dequeued.length := hcl.1
    omega
  · intro i hi (hnone : ∀ r, (q.dequeued ++ [result]).length ≤ r → r < q.admitted.length →
      r % N ≠ i)
    show (q.data i).hasValue = false
    by_cases hfirst : q.dequeued.length % N = i
    · have hiff := (h.stored _ result (Nat.le_refl _) hvalue hun).2
      rw [hfirst, hc] at hiff
      exact Bool.eq_false_iff.mpr fun hhas => hiff.mp hhas ⟨rfl, rfl⟩
    · refine h.empty i hi fun r hr hlt hmod => ?_
      have hrne : r ≠ q.dequeued.length := fun hrd => hfirst (hrd ▸ hmod)
      exact hnone r (by omega) hlt hmod

/-- Every step of a dequeue keeps the invariant. -/
theorem dequeue_inv (hN : 0 < N) (h : Inv N P q) {c : Dequeue w}
    (hc : q.consumer = some c) :
    Inv N P (q.dequeue N c) := by
  have hknows := h.knows
  rw [hc] at hknows
  cases c with
  | acquire result =>
    unfold Queue.dequeue
    dsimp only
    split
    next hheld =>
      have hstay :=
        h.reading q.consumer { q.data q.tail with lock := true } (by rw [hc]; rfl)
        (by rw [hc]; rfl) rfl (Or.inl ⟨rfl, rfl⟩) (fun _ => rfl) (fun _ => Or.inl rfl)
        (fun hr => Or.inl hr) h.knows h.runs.2
      exact hstay
    next hfree =>
      exact h.reading (some (.load result)) _ (by rw [hc]; rfl) rfl rfl
        (Or.inl ⟨rfl, by rw [hc]; rfl⟩) (fun _ => rfl) (fun _ => Or.inl rfl)
        (fun _ => Or.inr (Bool.eq_false_iff.mpr hfree)) trivial (fun hab => by cases hab)
  | load result =>
    unfold Queue.dequeue
    dsimp only
    split
    next hhas =>
      have hnext := h.next_of_hasValue hN (by rw [hc]; rfl) (by rw [hc]; rfl) hhas
      exact h.turn (some (.copy 0 result)) (by rw [hc]; rfl) rfl (by rw [hc]; rfl)
        (fun _ => by rw [hc]; rfl) ⟨_, hnext, fun j hj => by cases hj⟩
        (fun hab => by cases hab)
    next =>
      exact h.turn (some (.release false result)) (by rw [hc]; rfl) rfl (by rw [hc]; rfl)
        (fun _ => by rw [hc]; rfl) (fun hr => by cases hr) (fun hab => by cases hab)
  | copy k result =>
    obtain ⟨value, hnext, hbytes⟩ := hknows
    have htail := h.tail
    rw [hc] at htail
    have hstored := (h.stored _ value (Nat.le_refl _) hnext.1 hnext.2).1
    rw [show q.dequeued.length % N = q.tail from htail.symm] at hstored
    unfold Queue.dequeue
    dsimp only
    split
    next hk =>
      refine h.turn (some (.copy (k + 1) _)) (by rw [hc]; rfl) rfl (by rw [hc]; rfl)
        (fun _ => by rw [hc]; rfl) ⟨value, hnext, fun j hj => ?_⟩
        (fun hab => by cases hab)
      by_cases hjk : j = ⟨k, hk⟩
      · subst hjk
        rw [Function.update_self, hstored]
      · rw [Function.update_of_ne hjk]
        have hne : j.val ≠ k := fun he => hjk (Fin.ext he)
        exact hbytes j (by omega)
    next hk =>
      have hresult : result = value := funext fun j => hbytes j (by omega)
      subst hresult
      exact h.turn (some (.clear result)) (by rw [hc]; rfl) rfl (by rw [hc]; rfl)
        (fun _ => by rw [hc]; rfl) hnext (fun hab => by cases hab)
  | clear result =>
    exact h.reading (some (.release true result)) _ (by rw [hc]; rfl) rfl rfl
      (Or.inr ⟨rfl, rfl, result, hknows⟩) (fun _ => h.lock (by rw [hc]; rfl))
      (fun _ => Or.inr (by rw [hc]; rfl)) (fun _ => Or.inl (by rw [hc]; rfl))
      (fun _ => hknows) (fun hab => by cases hab)
  | release ret result =>
    have hlocked := h.lock (by rw [hc]; rfl)
    unfold Queue.dequeue
    dsimp only
    rw [if_pos hlocked]
    split
    next hret =>
      exact h.reading (some (.advance result)) _ (by rw [hc]; rfl) rfl rfl
        (Or.inl ⟨rfl, by rw [hc]; exact hret.symm⟩) (fun hr => by cases hr)
        (fun _ => Or.inr (by rw [hc]; rfl)) (fun hr => by cases hr) (hknows hret)
        (fun hab => by cases hab)
    next hret =>
      exact h.reading none _ (by rw [hc]; rfl) rfl rfl
        (Or.inl ⟨rfl, by rw [hc]; exact (Bool.eq_false_iff.mpr hret).symm⟩)
        (fun hr => by cases hr) (fun _ => Or.inr (by rw [hc]; rfl))
        (fun hr => by cases hr) trivial (fun hab => by cases hab)
  | advance result => exact advance_inv hN h hc
  | fetchCount result => exact (dequeued_inv h hc).1
  | aborted => exact absurd hc h.runs.2

end Consumer

/-! ## Every run -/

section Runs

variable {N P : Nat} {q : Queue w}

theorem init_inv (junk : Nat → Bytes w) : Inv N P (.new junk) := by
  have htotal : ∀ f : Option (Enqueue w) → Nat, f none = 0 →
      (Queue.new junk).total P f = 0 :=
    fun f hf => Finset.sum_eq_zero fun _ _ => hf
  refine ⟨Nat.two_pow_pos 64, fun _ _ => rfl, ?_, ?_, ?_, rfl, List.prefix_refl _, ?_,
    fun _ _ _ ht => (by cases ht), fun _ _ _ ht => (by cases ht),
    fun _ _ _ _ _ _ ht => (by cases ht), fun _ _ _ hv => (by cases hv), fun _ _ _ => rfl,
    fun _ _ _ ht => (by cases ht), fun hread => (by cases hread), trivial,
    ⟨fun _ hab => (by cases hab), fun hab => (by cases hab)⟩, fun _ hr => by cases hr⟩
  · rw [htotal ticketless rfl]
    exact Nat.le_refl _
  · rw [htotal inCount rfl]
    rfl
  · rw [htotal waiting rfl]
    exact Nat.zero_le _
  · exact (Nat.zero_mod N).symm

/-- Every step keeps the invariant. -/
theorem step_inv (hN : 0 < N) (h : Inv N P q) {a : Queue.Action w} (ha : FewCalls q a)
    {q' : Queue w} (hs : q.step N P a = some q') : Inv N P q' := by
  cases a with
  | call p value =>
    unfold Queue.step at hs
    dsimp only at hs
    split at hs
    next hp =>
      obtain rfl := Option.some.inj hs
      exact call_inv h hp.1 (Option.isNone_iff_eq_none.mp hp.2) ha value
    next => cases hs
  | produce p =>
    unfold Queue.step at hs
    dsimp only at hs
    split at hs
    next =>
      obtain ⟨c, hc, rfl⟩ := Option.map_eq_some_iff.mp hs
      exact enqueue_inv hN h hc
    next => cases hs
  | receive result =>
    unfold Queue.step at hs
    dsimp only at hs
    split at hs
    next hnone =>
      obtain rfl := Option.some.inj hs
      have hc := Option.isNone_iff_eq_none.mp hnone
      exact h.turn (some (.acquire result)) (by rw [hc]; rfl) rfl (by rw [hc]; rfl)
        (fun hr => by cases hr) trivial (fun hab => by cases hab)
    next => cases hs
  | consume =>
    obtain ⟨c, hc, rfl⟩ := Option.map_eq_some_iff.mp hs
    exact dequeue_inv hN h hc

theorem reachable_inv (hN : 0 < N) (h : (system w N P).Reachable FewCalls q) :
    Inv N P q := by
  refine h.invariant ?_ ?_
  · rintro _ ⟨junk, rfl⟩
    exact init_inv junk
  · intro q a q' hi ha hs
    exact step_inv hN hi ha hs

end Runs

end CharmExperiments.Lfq
