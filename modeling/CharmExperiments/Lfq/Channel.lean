import CharmExperiments.Lfq.QueueInv

/-!
# A queue between two processes

How the programs of the repository use `ipc_lfq`: each queue has one process that
enqueues, in a loop until `enqueue` returns true, and one that dequeues. `Queue.send`
and `Queue.receive` are a step of either with what the call returned, if it did.

`Carries` is what the two can rely on: what was received is the first part of what was
sent. Neither call waits for the other process unless that holds the lock of the node
it needs (`sends_return`, `receives_return`), an enqueue returns true when fewer than
`N` values are outstanding (`send_admits`), and a dequeue when one is
(`receive_offers`).

Mirroring notes:
- The bound on the number of calls that `Inv` asks for is one on the values here: a
  refused enqueue gives back what it took, so it can be called any number of times
  (`recount`).
-/

namespace CharmExperiments.Lfq

variable {w : Nat}

/-- What an enqueue returns, where its next step is its last. -/
def Enqueue.outcome : Enqueue w → Option Bool
  | .undoCount => some false
  | .writing _ (.release _) => some true
  | _ => none

/-- What a dequeue returns, and what is in `result` then, where its next step may be
its last. -/
def Dequeue.outcome : Dequeue w → Option (Bool × Bytes w)
  | .release false result => some (false, result)
  | .fetchCount result => some (true, result)
  | _ => none

namespace Queue

/-- A step of `enqueue(value)` of the only producer. -/
def send (N : Nat) (q : Queue w) (value : Bytes w) : Queue w × Option Bool :=
  match q.producers 0 with
  | none => ({ q with calls := q.calls + 1 }.goto 0 (.fetchCount value), none)
  | some c =>
    let q' := q.enqueue N 0 c
    (q', if (q'.producers 0).isNone then c.outcome else none)

/-- A step of `dequeue(&result)`. -/
def receive (N : Nat) (q : Queue w) (result : Bytes w) :
    Queue w × Option (Bool × Bytes w) :=
  match q.consumer with
  | none => (q.turn (some (.acquire result)), none)
  | some c =>
    let q' := q.dequeue N c
    (q', if q'.consumer.isNone then c.outcome else none)

/-- The queue with the smallest number of calls that `Inv` allows. -/
def recount (q : Queue w) : Queue w :=
  { q with calls := q.admitted.length + ticketless (q.producers 0) }

end Queue

/-- The value of an enqueue that has its ticket. -/
def inHand : Option (Enqueue w) → List (Bytes w)
  | some (.writing t _) => [t.value]
  | _ => []

/-- The enqueue in progress, if there is one, is of this value. -/
def Asks (value : Bytes w) : Option (Enqueue w) → Prop
  | some (.fetchCount v) => v = value
  | some (.fetchHead v) => v = value
  | some (.writing t _) => t.value = value
  | _ => True

/-- Whose lock it is. -/
def Holds (q : Queue w) (i : Nat) : Prop :=
  (∃ t stage, q.producers 0 = some (.writing t stage) ∧ stage.locked = true ∧
    t.slot = i) ∨
    reading q.consumer = true ∧ q.tail = i

/-- What the queue is between two processes: the one has sent `sent`, the other has
received `received`. -/
structure Carries (N : Nat) (q : Queue w) (sent received : List (Bytes w)) : Prop where
  inv : Inv N 1 q.recount
  admitted : q.admitted = sent ++ inHand (q.producers 0)
  rank : ∀ t stage, q.producers 0 = some (.writing t stage) → t.rank = sent.length
  full : q.producers 0 = some .undoCount → N ≤ sent.length
  dequeued : q.dequeued = received
  held : ∀ i, (q.data i).lock = true → Holds q i

/-! ## The number of calls -/

section Recount

variable {N : Nat} {q : Queue w}

theorem total_one (q : Queue w) (f : Option (Enqueue w) → Nat) :
    q.total 1 f = f (q.producers 0) :=
  Finset.sum_range_one _

/-- The calls only bound the other counters. -/
theorem Inv.recall {n n' : Nat} (h : Inv N 1 { q with calls := n })
    (hle : q.admitted.length + ticketless (q.producers 0) ≤ n') (hlt : n' < 2 ^ 64) :
    Inv N 1 { q with calls := n' } := by
  refine ⟨hlt, h.idle, ?_, h.count, h.bound, h.head, h.taken, h.tail, h.ticket,
    h.node, h.unique, h.stored, h.empty, h.mutex, h.lock, ?_, h.runs, h.accepted⟩
  · rw [total_one]
    exact hle
  · exact knows_next _ _ (fun _ hv => hv) h.knows

theorem Inv.recount {n : Nat} (h : Inv N 1 { q with calls := n }) :
    Inv N 1 q.recount := by
  have hearly := h.early
  have hfew := h.few
  rw [total_one] at hearly
  exact h.recall (Nat.le_refl _) (Nat.lt_of_le_of_lt hearly hfew)

/-- No step of an enqueue looks at the number of calls. -/
theorem enqueue_calls (q : Queue w) (n : Nat) (c : Enqueue w) :
    ({ q with calls := n } : Queue w).enqueue N 0 c =
    { q.enqueue N 0 c with calls := n } := by
  cases c with
  | fetchCount value =>
    unfold Queue.enqueue
    dsimp only
    split <;> rfl
  | writing t stage =>
    cases stage with
    | acquire =>
      unfold Queue.enqueue Queue.write
      dsimp only
      split <;> rfl
    | copy k setValue =>
      unfold Queue.enqueue Queue.write
      dsimp only
      split <;> rfl
    | release setValue =>
      unfold Queue.enqueue Queue.write
      dsimp only
      split
      · rfl
      · split <;> rfl
    | _ => rfl
  | _ => rfl

theorem dequeue_calls (q : Queue w) (n : Nat) (c : Dequeue w) :
    ({ q with calls := n } : Queue w).dequeue N c =
    { q.dequeue N c with calls := n } := by
  cases c with
  | acquire result =>
    unfold Queue.dequeue
    dsimp only
    split <;> rfl
  | load result =>
    unfold Queue.dequeue
    dsimp only
    split <;> rfl
  | copy k result =>
    unfold Queue.dequeue
    dsimp only
    split <;> rfl
  | release ret result =>
    unfold Queue.dequeue
    dsimp only
    split
    · split <;> rfl
    · rfl
  | fetchCount result =>
    unfold Queue.dequeue
    dsimp only
    split <;> rfl
  | _ => rfl

theorem enqueue_recount (hN : 0 < N) (h : Inv N 1 q.recount) {c : Enqueue w}
    (hc : q.producers 0 = some c) : Inv N 1 (q.enqueue N 0 c).recount := by
  have hstep := enqueue_inv (q := q.recount) (p := 0) hN h hc
  rw [show q.recount.enqueue N 0 c = _ from enqueue_calls q _ c] at hstep
  exact hstep.recount

theorem dequeue_recount (hN : 0 < N) (h : Inv N 1 q.recount) {c : Dequeue w}
    (hc : q.consumer = some c) : Inv N 1 (q.dequeue N c).recount := by
  have hstep := dequeue_inv (q := q.recount) hN h hc
  rw [show q.recount.dequeue N c = _ from dequeue_calls q _ c] at hstep
  exact hstep.recount

end Recount

/-! ## The sender -/

section Send

variable {N : Nat} {q : Queue w} {sent received : List (Bytes w)} {value : Bytes w}

/-- What a step of the sender leads to. -/
def AfterSend (N : Nat) (value : Bytes w) (sent received : List (Bytes w)) :
    Queue w × Option Bool → Prop
  | (q', none) => Carries N q' sent received ∧ Asks value (q'.producers 0)
  | (q', some b) =>
    Carries N q' (if b then sent ++ [value] else sent) received ∧ q'.producers 0 = none ∧
      (b = false → N ≤ sent.length)

/-- Neither before nor after the step the sender holds a lock. -/
theorem held_off (hheld : ∀ i, (q.data i).lock = true → Holds q i) {q' : Queue w}
    (hdata : q'.data = q.data) (hconsumer : q'.consumer = q.consumer)
    (htail : q'.tail = q.tail)
    (hoff : ∀ t stage, q.producers 0 ≠ some (.writing t stage)) :
    ∀ i, (q'.data i).lock = true → Holds q' i := by
  intro i hi
  rw [hdata] at hi
  rcases hheld i hi with ⟨t, stage, ht, _⟩ | ⟨hread, hi⟩
  · exact absurd ht (hoff t stage)
  · exact Or.inr ⟨by rw [hconsumer]; exact hread, by rw [htail]; exact hi⟩

/-- At its node the sender changes no other lock. -/
theorem held_slot (hheld : ∀ i, (q.data i).lock = true → Holds q i) {t : Ticket w}
    {stage : Stage}
    (ht : q.producers 0 = some (.writing t stage)) (node : Node w) (q' : Queue w)
    (hdata : q'.data = (q.setNode t.slot node).data)
    (hconsumer : q'.consumer = q.consumer) (htail : q'.tail = q.tail)
    (hslot : node.lock = true → Holds q' t.slot) :
    ∀ i, (q'.data i).lock = true → Holds q' i := by
  intro i hi
  rw [hdata] at hi
  by_cases his : i = t.slot
  · rw [his, show (q.setNode t.slot node).data t.slot =
      node from Function.update_self ..] at hi
    rw [his]
    exact hslot hi
  · rw [show (q.setNode t.slot node).data i =
      q.data i from Function.update_of_ne his ..] at hi
    rcases hheld i hi with ⟨t', stage', ht', _, hslot'⟩ | ⟨hread, htail'⟩
    · obtain ⟨rfl, _⟩ := Enqueue.writing.inj (Option.some.inj (ht.symm.trans ht'))
      exact absurd hslot'.symm his
    · exact Or.inr ⟨by rw [hconsumer]; exact hread, by rw [htail]; exact htail'⟩

theorem ret_self {p : Nat} {b : Bool} : (q.ret p b).producers p = none :=
  Function.update_self ..

theorem goto_same {p : Nat} {c : Enqueue w} (h : q.producers p = some c) :
    q.goto p c = q := by
  show { q with producers := Function.update q.producers p (some c) } = q
  rw [← h, Function.update_eq_self]

/-- The call goes on. -/
theorem Carries.goes (hN : 0 < N) (h : Carries N q sent received) {c : Enqueue w}
    (e : Enqueue w) (hc : q.producers 0 = some c) (q₁ : Queue w)
    (heq : q.enqueue N 0 c = q₁.goto 0 e)
    (hheld : ∀ i, ((q₁.goto 0 e).data i).lock = true → Holds (q₁.goto 0 e) i)
    (hdequeued : q₁.dequeued = q.dequeued) (hadm : q₁.admitted = sent ++ inHand (some e))
    (hrank : ∀ t stage, e = .writing t stage → t.rank = sent.length)
    (hfull : e = .undoCount → N ≤ sent.length)
    (hask : Asks value (some e)) : AfterSend N value sent received (q.send N value) := by
  have hinv := enqueue_recount hN h.inv hc
  unfold Queue.send
  rw [hc]
  dsimp only
  rw [heq] at hinv ⊢
  rw [goto_self]
  refine ⟨⟨hinv, ?_, ?_, ?_, hdequeued.trans h.dequeued, hheld⟩, ?_⟩
  · rw [goto_self]
    exact hadm
  · intro t stage ht
    rw [goto_self] at ht
    exact hrank t stage (Option.some.inj ht)
  · intro hundo
    rw [goto_self] at hundo
    exact hfull (Option.some.inj hundo)
  · rw [goto_self]
    exact hask

/-- The call returns. -/
theorem Carries.returns (hN : 0 < N) (h : Carries N q sent received)
    {c : Enqueue w} (b : Bool)
    (hc : q.producers 0 = some c) (q₁ : Queue w) (heq : q.enqueue N 0 c = q₁.ret 0 b)
    (hb : c.outcome = some b) (hheld : ∀ i, ((q₁.ret 0 b).data i).lock = true →
      Holds (q₁.ret 0 b) i)
    (hdequeued : q₁.dequeued = q.dequeued)
    (hadm : q₁.admitted = if b then sent ++ [value] else sent)
    (hfull : b = false → N ≤ sent.length) :
    AfterSend N value sent received (q.send N value) := by
  have hinv := enqueue_recount hN h.inv hc
  unfold Queue.send
  rw [hc]
  dsimp only
  rw [heq] at hinv ⊢
  rw [ret_self, hb]
  refine ⟨⟨hinv, ?_, ?_, fun hundo => ?_, hdequeued.trans h.dequeued, hheld⟩,
    ret_self, hfull⟩
  · rw [ret_self]
    show q₁.admitted = _ ++ []
    rw [List.append_nil]
    exact hadm
  · intro t stage ht
    rw [ret_self] at ht
    cases ht
  · rw [ret_self] at hundo
    cases hundo

/-- The sender goes on at its node. -/
theorem Carries.write (hN : 0 < N) (h : Carries N q sent received) {t : Ticket w}
    {stage : Stage}
    (ht : q.producers 0 = some (.writing t stage)) (hv : t.value = value) :
    AfterSend N value sent received (q.send N value) := by
  have hfits := h.inv.node 0 t stage ht
  have hadm := h.admitted
  rw [ht] at hadm
  have hgoto : ∀ (node : Node w) (stage' : Stage), stage'.locked = true →
      q.enqueue N 0 (.writing t stage) =
        (q.setNode t.slot node).goto 0 (.writing t stage') →
      AfterSend N value sent received (q.send N value) := by
    intro node stage' hlocked heq
    have hheld :=
      held_slot h.held ht node ((q.setNode t.slot node).goto 0 (.writing t stage'))
      rfl rfl rfl fun _ => Or.inl ⟨t, stage', goto_self, hlocked, rfl⟩
    exact h.goes hN _ ht _ heq hheld rfl hadm (fun t' stage'' heq' => by
      obtain ⟨rfl, _⟩ := Enqueue.writing.inj heq'
      exact h.rank t stage ht) (fun hundo => by cases hundo) hv
  cases stage with
  | acquire =>
    by_cases hlock : (q.data t.slot).lock = true
    · -- the lock is another's: the exchange leaves it as it is
      have hsame : q.setNode t.slot { q.data t.slot with lock := true } = q := by
        rw [← hlock]
        exact setNode_self q t.slot
      have heq : q.enqueue N 0 (.writing t .acquire) =
          q.goto 0 (.writing t .acquire) := by
        rw [show q.enqueue N 0 (.writing t .acquire) = _ from if_pos hlock,
          hsame, goto_same ht]
      exact h.goes hN _ ht _ heq (by rw [goto_same ht]; exact h.held) rfl hadm
        (fun t' stage heq' => h.rank t' stage (heq' ▸ ht))
        (fun hundo => by cases hundo) hv
    · exact hgoto { q.data t.slot with lock := true } .load rfl (if_neg hlock)
  | load =>
    exact hgoto (q.data t.slot) (.store (q.data t.slot).hasValue) rfl
      (by rw [setNode_self]; rfl)
  | store setValue =>
    exact hgoto { q.data t.slot with hasValue := true } (.copy 0 setValue) rfl rfl
  | copy k setValue =>
    by_cases hk : k < w
    · exact hgoto { q.data t.slot with
        value := Function.update (q.data t.slot).value ⟨k, hk⟩ (t.value ⟨k, hk⟩) }
        (.copy (k + 1) setValue) rfl (dif_pos hk)
    · exact hgoto (q.data t.slot) (.release setValue) rfl
        (by rw [setNode_self]; exact dif_neg hk)
  | release setValue =>
    obtain ⟨⟨rfl, _, _⟩, hlocked⟩ := hfits
    refine h.returns hN true ht { q.setNode t.slot { q.data t.slot with lock := false }
      with accepted := q.accepted ++ [t.rank] } (if_pos (hlocked rfl)) rfl ?_ rfl ?_
      fun hb => by cases hb
    · exact held_slot h.held ht { q.data t.slot with lock := false } _ rfl rfl rfl
        fun hl => by cases hl
    · rw [← hv]
      exact hadm

/-- **A step of the sender.** When the call returns, its value was sent if and only if it
returns true, which it does where fewer than `N` values were sent so far. -/
theorem send_spec (hN : 0 < N) (h : Carries N q sent received)
    (hv : Asks value (q.producers 0)) (hroom : sent.length + 1 < 2 ^ 64) :
    AfterSend N value sent received (q.send N value) := by
  have hadm := h.admitted
  cases hc : q.producers 0 with
  | none =>
    rw [hc] at hadm
    have hnone : ∀ t stage, q.producers 0 ≠ some (.writing t stage) := by
      intro t stage ht
      rw [hc] at ht
      cases ht
    have hcall := call_inv (q := q.recount) (p := 0) h.inv Nat.one_pos hc (by
      show q.admitted.length + ticketless (q.producers 0) + 1 < 2 ^ 64
      rw [hadm, hc, List.length_append]
      exact hroom) value
    unfold Queue.send
    rw [hc]
    refine ⟨⟨hcall.recount, ?_, ?_, ?_, h.dequeued,
      held_off h.held rfl rfl rfl hnone⟩, ?_⟩
    · rw [goto_self]
      exact hadm
    · intro t stage ht
      rw [goto_self] at ht
      cases ht
    · intro hundo
      rw [goto_self] at hundo
      cases hundo
    · rw [goto_self]
      rfl
  | some c =>
    rw [hc] at hadm hv
    -- before it is at its node the sender has no lock
    have hoff : (∀ t stage, c ≠ .writing t stage) → ∀ q' : Queue w, q'.data = q.data →
        q'.consumer = q.consumer → q'.tail = q.tail → ∀ i, (q'.data i).lock = true → Holds q' i :=
      fun hoff _ hdata hconsumer htail => held_off h.held hdata hconsumer htail
        fun t stage ht => hoff t stage (Option.some.inj (hc.symm.trans ht))
    cases c with
    | fetchCount v =>
      have hheld := hoff (fun t stage ht => by cases ht)
      by_cases hsize : N ≤ q.count.toNat
      · refine h.goes hN .undoCount hc { q with count := q.count + 1 }
          (if_pos hsize) (hheld _ rfl rfl rfl) rfl hadm (fun t stage ht => by cases ht)
          (fun _ => ?_) trivial
        -- what is counted was sent
        have hcount := h.inv.count
        rw [total_one, show q.recount.producers 0 = _ from hc] at hcount
        have hlen : q.admitted.length = sent.length := by
          rw [hadm]
          exact congrArg List.length (List.append_nil sent)
        have hcount : q.count.toNat + q.dequeued.length = q.admitted.length := hcount
        omega
      · exact h.goes hN (.fetchHead v) hc { q with count := q.count + 1 }
          (if_neg hsize) (hheld _ rfl rfl rfl) rfl hadm (fun t stage ht => by cases ht)
          (fun hundo => by cases hundo) hv
    | undoCount =>
      have hheld := hoff (fun t stage ht => by cases ht)
      exact h.returns hN false hc { q with count := q.count - 1 } rfl rfl
        (hheld _ rfl rfl rfl) rfl (hadm.trans (List.append_nil sent)) fun _ => h.full hc
    | fetchHead v =>
      have hheld := hoff (fun t stage ht => by cases ht)
      refine h.goes hN _ hc { q with head := q.head + 1, admitted := q.admitted ++ [v] } rfl
        (hheld _ rfl rfl rfl) rfl ?_ ?_ (fun hundo => by cases hundo) hv
      · show q.admitted ++ [v] = sent ++ [v]
        rw [hadm]
        exact congrArg (· ++ [v]) (List.append_nil sent)
      · intro t stage heq
        obtain ⟨rfl, _⟩ := Enqueue.writing.inj heq
        rw [hadm]
        exact congrArg List.length (List.append_nil sent)
    | writing t stage => exact h.write hN hc hv
    | aborted => exact absurd hc (h.inv.runs.1 0)

/-- The sender leaves the receiver alone. -/
theorem send_consumer (value : Bytes w) : (q.send N value).1.consumer = q.consumer := by
  unfold Queue.send
  cases q.producers 0 with
  | none => rfl
  | some c =>
    show (q.enqueue N 0 c).consumer = q.consumer
    cases c with
    | fetchCount v =>
      unfold Queue.enqueue
      dsimp only
      split <;> rfl
    | writing t stage =>
      cases stage with
      | acquire =>
        unfold Queue.enqueue Queue.write
        dsimp only
        split <;> rfl
      | copy k setValue =>
        unfold Queue.enqueue Queue.write
        dsimp only
        split <;> rfl
      | release setValue =>
        unfold Queue.enqueue Queue.write
        dsimp only
        split
        · rfl
        · split <;> rfl
      | _ => rfl
    | _ => rfl

end Send

/-! ## The receiver -/

section Receive

variable {N : Nat} {q : Queue w} {sent received : List (Bytes w)} {result : Bytes w}

/-- What a step of the receiver leads to. -/
def AfterReceive (N : Nat) (sent received : List (Bytes w)) :
    Queue w × Option (Bool × Bytes w) → Prop
  | (q', none) => Carries N q' sent received
  | (q', some (b, value)) =>
    Carries N q' sent (if b then received ++ [value] else received) ∧ q'.consumer = none

/-- At its node the receiver changes no other lock. -/
theorem held_tail (hheld : ∀ i, (q.data i).lock = true → Holds q i) (node : Node w)
    (q' : Queue w) (hdata : q'.data = (q.setNode q.tail node).data)
    (hproducers : q'.producers = q.producers)
    (htail : node.lock = true → Holds q' q.tail) : ∀ i, (q'.data i).lock = true →
    Holds q' i := by
  intro i hi
  rw [hdata] at hi
  by_cases hit : i = q.tail
  · rw [hit, show (q.setNode q.tail node).data q.tail =
      node from Function.update_self ..] at hi
    rw [hit]
    exact htail hi
  · rw [show (q.setNode q.tail node).data i =
      q.data i from Function.update_of_ne hit ..] at hi
    rcases hheld i hi with hsender | ⟨_, htail'⟩
    · rw [← hproducers] at hsender
      exact Or.inl hsender
    · exact absurd htail'.symm hit

/-- Before it is at its node, and when it is done with it, the receiver has no lock. -/
theorem held_away (hheld : ∀ i, (q.data i).lock = true → Holds q i) {q' : Queue w}
    (hdata : q'.data = q.data) (hproducers : q'.producers = q.producers)
    (haway : reading q.consumer = false) : ∀ i, (q'.data i).lock = true → Holds q' i := by
  intro i hi
  rw [hdata] at hi
  rcases hheld i hi with hsender | ⟨hread, _⟩
  · rw [← hproducers] at hsender
    exact Or.inl hsender
  · rw [haway] at hread
    cases hread

/-- The call goes on. -/
theorem Carries.turns (hN : 0 < N) (h : Carries N q sent received) {c : Dequeue w}
    (e : Dequeue w) (hc : q.consumer = some c) (q₁ : Queue w)
    (heq : q.dequeue N c = q₁.turn (some e))
    (hheld : ∀ i, ((q₁.turn (some e)).data i).lock = true → Holds (q₁.turn (some e)) i)
    (hproducers : q₁.producers = q.producers) (hadm : q₁.admitted = q.admitted)
    (hdequeued : q₁.dequeued = q.dequeued) :
    AfterReceive N sent received (q.receive N result) := by
  have hinv := dequeue_recount hN h.inv hc
  unfold Queue.receive
  rw [hc]
  dsimp only
  rw [heq] at hinv ⊢
  refine ⟨hinv, ?_, fun t stage ht => h.rank t stage ?_, fun hundo => h.full ?_,
    hdequeued.trans h.dequeued, hheld⟩
  · show q₁.admitted = sent ++ inHand (q₁.producers 0)
    rw [hadm, hproducers]
    exact h.admitted
  · rw [← hproducers]
    exact ht
  · rw [← hproducers]
    exact hundo

/-- The call returns. -/
theorem Carries.gives (hN : 0 < N) (h : Carries N q sent received)
    {c : Dequeue w} (b : Bool)
    (value : Bytes w) (hc : q.consumer = some c) (q₁ : Queue w)
    (heq : q.dequeue N c = q₁.turn none) (hb : c.outcome = some (b, value))
    (hheld : ∀ i, ((q₁.turn none).data i).lock = true → Holds (q₁.turn none) i)
    (hproducers : q₁.producers = q.producers) (hadm : q₁.admitted = q.admitted)
    (hdequeued : q₁.dequeued = if b then received ++ [value] else received) :
    AfterReceive N sent received (q.receive N result) := by
  have hinv := dequeue_recount hN h.inv hc
  unfold Queue.receive
  rw [hc]
  dsimp only
  rw [heq] at hinv ⊢
  rw [show (if (q₁.turn none).consumer.isNone then c.outcome else none) =
    c.outcome from rfl, hb]
  refine ⟨⟨hinv, ?_, fun t stage ht => h.rank t stage ?_, fun hundo => h.full ?_,
    hdequeued, hheld⟩, rfl⟩
  · show q₁.admitted = sent ++ inHand (q₁.producers 0)
    rw [hadm, hproducers]
    exact h.admitted
  · rw [← hproducers]
    exact ht
  · rw [← hproducers]
    exact hundo

/-- **A step of the receiver.** A call that returns true has received the value in
`result`. -/
theorem receive_spec (hN : 0 < N) (h : Carries N q sent received) (result : Bytes w) :
    AfterReceive N sent received (q.receive N result) := by
  have hdeq := h.dequeued
  cases hc : q.consumer with
  | none =>
    have hturn :=
      h.inv.turn (some (.acquire result))
        (by rw [show q.recount.consumer = _ from hc]; rfl)
      rfl (by rw [show q.recount.consumer = _ from hc]; rfl)
        (fun hr => by cases hr) trivial
      (fun hab => by cases hab)
    unfold Queue.receive
    rw [hc]
    exact ⟨Inv.recount (n := q.recount.calls) hturn, h.admitted, h.rank, h.full, hdeq,
      held_away h.held rfl rfl (by rw [hc]; rfl)⟩
  | some c =>
    have hknows := h.inv.knows
    rw [show q.recount.consumer = some c from hc] at hknows
    -- the receiver goes on at its node, whose lock it has
    have hgoto : ∀ (node : Node w) (e : Dequeue w), reading (some e) = true →
        q.dequeue N c = (q.setNode q.tail node).turn (some e) →
        AfterReceive N sent received (q.receive N result) := by
      intro node e hread heq
      exact h.turns hN e hc _ heq
        (held_tail h.held node _ rfl rfl fun _ => Or.inr ⟨hread, rfl⟩) rfl rfl rfl
    cases c with
    | acquire r =>
      by_cases hlock : (q.data q.tail).lock = true
      · -- the lock is another's: the exchange leaves it as it is
        have hsame : q.setNode q.tail { q.data q.tail with lock := true } = q := by
          rw [← hlock]
          exact setNode_self q q.tail
        have hturn : q.turn (some (.acquire r)) = q := by
          show { q with consumer := some (.acquire r) } = q
          rw [← hc]
        have heq : q.dequeue N (.acquire r) = q.turn (some (.acquire r)) := by
          rw [show q.dequeue N (.acquire r) = _ from if_pos hlock, hsame, hturn]
        exact h.turns hN _ hc _ heq (by rw [hturn]; exact h.held) rfl rfl rfl
      · exact hgoto { q.data q.tail with lock := true } (.load r) rfl (if_neg hlock)
    | load r =>
      by_cases hhas : (q.data q.tail).hasValue = true
      · exact hgoto (q.data q.tail) (.copy 0 r) rfl
          (by rw [setNode_self]; exact if_pos hhas)
      · exact hgoto (q.data q.tail) (.release false r) rfl
          (by rw [setNode_self]; exact if_neg hhas)
    | copy k r =>
      by_cases hk : k < w
      · exact hgoto (q.data q.tail) (.copy (k + 1) _) rfl
          (by rw [setNode_self]; exact dif_pos hk)
      · exact hgoto (q.data q.tail) (.clear r) rfl
          (by rw [setNode_self]; exact dif_neg hk)
    | clear r =>
      exact hgoto { q.data q.tail with hasValue := false } (.release true r) rfl rfl
    | release ret r =>
      have hlocked : (q.data q.tail).lock = true :=
        h.inv.lock (by rw [show q.recount.consumer = _ from hc]; rfl)
      have hheld : ∀ e, ∀ i,
          (((q.setNode q.tail { q.data q.tail with lock := false }).turn e).data
          i).lock = true →
            Holds ((q.setNode q.tail { q.data q.tail with lock := false }).turn e) i :=
        fun e => held_tail h.held { q.data q.tail with lock := false } _ rfl rfl
          fun hl => by cases hl
      cases ret with
      | true =>
        exact h.turns hN (.advance r) hc
          (q.setNode q.tail { q.data q.tail with lock := false })
          (if_pos hlocked) (hheld _) rfl rfl rfl
      | false =>
        exact h.gives hN false r hc
          (q.setNode q.tail { q.data q.tail with lock := false })
          (if_pos hlocked) rfl (hheld _) rfl rfl hdeq
    | advance r =>
      exact h.turns hN (.fetchCount r) hc { q with tail := if N ≤ q.tail + 1 then 0
        else q.tail + 1 }
        rfl (held_away h.held rfl rfl (by rw [hc]; rfl)) rfl rfl rfl
    | fetchCount r =>
      have hcount : q.count ≠ 0 := (dequeued_inv (q := q.recount) h.inv hc).2
      refine h.gives hN true r hc
        { q with count := q.count - 1, dequeued := q.dequeued ++ [r] }
        ?_ rfl (held_away h.held rfl rfl (by rw [hc]; rfl)) rfl rfl ?_
      · exact if_neg hcount
      · rw [← hdeq]
        rfl
    | aborted => exact absurd hc h.inv.runs.2

/-- The receiver leaves the sender alone. -/
theorem receive_producers (result : Bytes w) : (q.receive N result).1.producers =
    q.producers := by
  unfold Queue.receive
  cases q.consumer with
  | none => rfl
  | some c =>
    show (q.dequeue N c).producers = q.producers
    cases c with
    | acquire r =>
      unfold Queue.dequeue
      dsimp only
      split <;> rfl
    | load r =>
      unfold Queue.dequeue
      dsimp only
      split <;> rfl
    | copy k r =>
      unfold Queue.dequeue
      dsimp only
      split <;> rfl
    | release ret r =>
      unfold Queue.dequeue
      dsimp only
      split
      · split <;> rfl
      · rfl
    | fetchCount r =>
      unfold Queue.dequeue
      dsimp only
      split <;> rfl
    | _ => rfl

end Receive

/-! ## What the two rely on -/

section Carries

variable {N : Nat} {q : Queue w} {sent received : List (Bytes w)}

theorem new_carries (junk : Nat → Bytes w) : Carries N (.new junk) [] [] := by
  have hinv : Inv N 1 (Queue.new junk) := init_inv junk
  exact ⟨Inv.recount (n := 0) hinv, rfl, fun t stage ht => (by cases ht),
    fun hundo => (by cases hundo), rfl, fun i hi => by cases hi⟩

/-- **What was received is the first part of what was sent.** -/
theorem Carries.isPrefix (h : Carries N q sent received) : received <+: sent := by
  have htaken : received <+: sent ++ inHand (q.producers 0) := by
    rw [← h.admitted, ← h.dequeued]
    exact h.inv.taken
  refine List.prefix_of_prefix_length_le htaken (List.prefix_append _ _) ?_
  by_cases hticket : ∃ t stage, q.producers 0 = some (.writing t stage)
  · -- the value in hand has the last ticket, and it is outstanding
    obtain ⟨t, stage, ht⟩ := hticket
    have hrank := (h.inv.ticket 0 t stage ht).1
    have hlt : t.rank < q.admitted.length := h.inv.rank_lt ht
    rw [h.admitted, ht, List.length_append] at hlt
    rw [show q.recount.dequeued = received from h.dequeued] at hrank
    have hone : (inHand (some (Enqueue.writing t stage))).length = 1 := rfl
    omega
  · have hnil : inHand (q.producers 0) = [] := by
      unfold inHand
      split
      next t stage ht => exact absurd ⟨t, stage, ht⟩ hticket
      next => rfl
    rw [hnil, List.append_nil] at htaken
    exact htaken.length_le

/-- With no call of the sender in progress, `count` is what is in the queue, or taken
from it by a dequeue that has not returned. -/
theorem Carries.count (h : Carries N q sent received) (hnone : q.producers 0 = none) :
    q.count.toNat + received.length = sent.length := by
  have hcount := h.inv.count
  have hadm := h.admitted
  rw [total_one, show q.recount.producers 0 = none from hnone] at hcount
  rw [hnone] at hadm
  rw [← h.dequeued, ← List.append_nil sent, ← show sent ++ inHand none =
    sent ++ [] from rfl, ← hadm]
  exact hcount

/-- With no call of the receiver in progress, the next value is in the node at `tail`. -/
theorem Carries.stored (h : Carries N q sent received) (hnone : q.consumer = none)
    (hlt : received.length < sent.length) : (q.data q.tail).hasValue = true := by
  have htail := h.inv.tail
  rw [show q.recount.consumer = none from hnone, show q.recount.dequeued =
    received from h.dequeued]
    at htail
  have hadm : q.admitted[received.length]? = some sent[received.length] := by
    rw [h.admitted, List.getElem?_append_left hlt]
    exact List.getElem?_eq_getElem hlt
  have hun : q.recount.Unheld received.length := by
    intro p t stage ht hrank
    have hp := h.inv.lt_of_some ht
    obtain rfl : p = 0 := by omega
    -- the ticket in hand is after all that was sent
    have hlast := h.rank t stage ht
    omega
  have hstored :=
    (h.inv.stored received.length _ (Nat.le_of_eq (congrArg List.length h.dequeued))
    hadm hun).2
  rw [show received.length % N = q.tail from htail.symm] at hstored
  refine hstored.mpr fun hc => ?_
  rw [show q.recount.consumer = none from hnone] at hc
  cases hc.2

end Carries

/-! ## Calls return -/

/-- Steps of the sender alone, the last of which is that with which its call returns. -/
inductive Sends (N : Nat) (value : Bytes w) : Queue w → Bool → Queue w → Prop
  | last {q q' : Queue w} {b : Bool} : q.send N value = (q', some b) →
    Sends N value q b q'
  | step {q q₁ q' : Queue w} {b : Bool} : q.send N value = (q₁, none) →
      Sends N value q₁ b q' → Sends N value q b q'

/-- Steps of the receiver alone, up to the return of its call. -/
inductive Receives (N : Nat) : Queue w → Bytes w → Bool × Bytes w → Queue w → Prop
  | last {q q' : Queue w} {result : Bytes w} {r : Bool × Bytes w} :
      q.receive N result = (q', some r) → Receives N q result r q'
  | step {q q₁ q' : Queue w} {result : Bytes w} {r : Bool × Bytes w} :
      q.receive N result = (q₁, none) → Receives N q₁ result r q' →
        Receives N q result r q'

/-- How many steps an enqueue has left, at most. -/
def Stage.left (w : Nat) : Stage → Nat
  | .acquire => w + 6
  | .load => w + 5
  | .store _ => w + 4
  | .copy k _ => w - k + 3
  | .release _ => 2

def sendLeft : Option (Enqueue w) → Nat
  | none => w + 9
  | some (.fetchCount _) => w + 8
  | some .undoCount => 1
  | some (.fetchHead _) => w + 7
  | some (.writing _ stage) => stage.left w
  | some .aborted => 0

/-- How many steps a dequeue has left, at most. -/
def receiveLeft : Option (Dequeue w) → Nat
  | none => w + 9
  | some (.acquire _) => w + 8
  | some (.load _) => w + 7
  | some (.copy k _) => w - k + 6
  | some (.clear _) => 5
  | some (.release _ _) => 4
  | some (.advance _) => 3
  | some (.fetchCount _) => 2
  | some .aborted => 0

/-- The enqueue is admitted, or will be if nothing else happens. -/
def Admits (N : Nat) (q : Queue w) : Prop :=
  match q.producers 0 with
  | none => q.count.toNat < N
  | some (.fetchCount _) => q.count.toNat < N
  | some .undoCount => False
  | _ => True

/-- The dequeue has found a value, or will if nothing else happens. -/
def Offers (q : Queue w) : Prop :=
  match q.consumer with
  | none => (q.data q.tail).hasValue = true
  | some (.acquire _) => (q.data q.tail).hasValue = true
  | some (.load _) => (q.data q.tail).hasValue = true
  | some (.release ret _) => ret = true
  | _ => True

/-- The sender has the lock of its node. -/
def writing : Option (Enqueue w) → Bool
  | some (.writing _ stage) => stage.locked
  | _ => false

/-- The receiver has the lock of its node, or has released it. -/
def engaged : Option (Dequeue w) → Bool
  | none => false
  | some (.acquire _) => false
  | _ => true

section Returns

variable {N : Nat} {q : Queue w} {sent received : List (Bytes w)} {value result : Bytes w}

/-- What is known of a step of the sender that gets the lock it asks for. -/
def SendGoes (N : Nat) (q : Queue w) : Queue w × Option Bool → Prop
  | (q', none) => sendLeft (q'.producers 0) < sendLeft (q.producers 0) ∧
    (Admits N q → Admits N q') ∧
    (writing (q.producers 0) = true → writing (q'.producers 0) = true)
  | (_, some b) => Admits N q → b = true

theorem send_goes (h : Carries N q sent received)
    (hfree : reading q.consumer = false ∨ writing (q.producers 0) = true)
    (value : Bytes w) :
    SendGoes N q (q.send N value) := by
  unfold Queue.send
  cases hc : q.producers 0 with
  | none =>
    refine ⟨?_, fun had => ?_, fun hw => ?_⟩
    · rw [goto_self, hc]
      exact Nat.lt_succ_self _
    · unfold Admits at had ⊢
      rw [hc] at had
      rw [goto_self]
      exact had
    · rw [hc] at hw
      cases hw
  | some c =>
    have hgoto : ∀ (q₁ : Queue w) (e : Enqueue w), q.enqueue N 0 c = q₁.goto 0 e →
        sendLeft (some e) < sendLeft (some c) → (Admits N q → Admits N (q₁.goto 0 e)) →
        (writing (some c) = true → writing (some e) = true) →
        SendGoes N q (q.enqueue N 0 c,
          if ((q.enqueue N 0 c).producers 0).isNone then c.outcome else none) := by
      intro q₁ e heq hleft hadm hw
      rw [heq, goto_self]
      refine ⟨?_, hadm, ?_⟩
      · rw [goto_self, hc]
        exact hleft
      · rw [goto_self, hc]
        exact hw
    have hret : ∀ (q₁ : Queue w) (b : Bool), q.enqueue N 0 c = q₁.ret 0 b →
      c.outcome = some b →
        (Admits N q → b = true) →
        SendGoes N q (q.enqueue N 0 c,
          if ((q.enqueue N 0 c).producers 0).isNone then c.outcome else none) := by
      intro q₁ b heq hout hb
      rw [heq, ret_self, hout]
      exact hb
    have hwriting : ∀ (q₁ : Queue w) t stage,
        Admits N (q₁.goto 0 (.writing t stage)) := by
      intro q₁ t stage
      unfold Admits
      rw [goto_self]
      trivial
    cases c with
    | fetchCount v =>
      by_cases hsize : N ≤ q.count.toNat
      · refine hgoto { q with count := q.count + 1 } .undoCount (if_pos hsize) ?_
          (fun had => ?_)
          fun hw => by cases hw
        · show 1 < w + 8
          omega
        · unfold Admits at had
          rw [hc] at had
          exact absurd (show q.count.toNat < N from had) (Nat.not_lt.mpr hsize)
      · refine hgoto { q with count := q.count + 1 } (.fetchHead v) (if_neg hsize)
          (Nat.lt_succ_self _) (fun _ => ?_) fun hw => by cases hw
        unfold Admits
        rw [goto_self]
        trivial
    | undoCount =>
      refine hret { q with count := q.count - 1 } false rfl rfl fun had => ?_
      unfold Admits at had
      rw [hc] at had
      exact had.elim
    | fetchHead v =>
      exact hgoto { q with head := q.head + 1, admitted := q.admitted ++ [v] }
        (.writing ⟨q.admitted.length, q.head.toNat % N, v⟩ .acquire) rfl
        (Nat.lt_succ_self _) (fun _ => hwriting _ _ _) fun hw => by cases hw
    | writing t stage =>
      cases stage with
      | acquire =>
        -- the lock is free: it is neither the receiver's nor the sender's
        have hlock : ¬(q.data t.slot).lock = true := by
          intro hlock
          rcases h.held t.slot hlock with ⟨t', stage', ht', hlocked, _⟩ | ⟨hread, _⟩
          · obtain ⟨_, rfl⟩ := Enqueue.writing.inj (Option.some.inj (hc.symm.trans ht'))
            cases hlocked
          · rcases hfree with hfree | hfree
            · rw [hfree] at hread
              cases hread
            · rw [hc] at hfree
              cases hfree
        exact hgoto _ (.writing t .load) (if_neg hlock) (Nat.lt_succ_self _)
          (fun _ => hwriting _ _ _) fun _ => rfl
      | load =>
        exact hgoto q (.writing t (.store (q.data t.slot).hasValue)) rfl
          (Nat.lt_succ_self _) (fun _ => hwriting _ _ _) fun _ => rfl
      | store setValue =>
        refine hgoto _ (.writing t (.copy 0 setValue)) rfl ?_
          (fun _ => hwriting _ _ _) fun _ => rfl
        show w - 0 + 3 < w + 4
        omega
      | copy k setValue =>
        by_cases hk : k < w
        · refine hgoto _ (.writing t (.copy (k + 1) setValue)) (dif_pos hk) ?_
            (fun _ => hwriting _ _ _) fun _ => rfl
          show w - (k + 1) + 3 < w - k + 3
          omega
        · refine hgoto q (.writing t (.release setValue)) (dif_neg hk) ?_
            (fun _ => hwriting _ _ _) fun _ => rfl
          show 2 < w - k + 3
          omega
      | release setValue =>
        obtain ⟨⟨rfl, _, _⟩, hlocked⟩ := h.inv.node 0 t _ hc
        exact hret { q.setNode t.slot { q.data t.slot with lock := false } with
          accepted := q.accepted ++ [t.rank] } true (if_pos (hlocked rfl))
            rfl fun _ => rfl
    | aborted => exact absurd hc (h.inv.runs.1 0)

/-- **An enqueue returns** though the receiver takes no step, when that holds no lock or
the enqueue has its own; and it returns true when the queue is not full. -/
theorem sends_return (hN : 0 < N) (h : Carries N q sent received)
    (hask : Asks value (q.producers 0)) (hroom : sent.length + 1 < 2 ^ 64)
    (hfree : reading q.consumer = false ∨ writing (q.producers 0) = true) :
    ∃ b q', Sends N value q b q' ∧ (Admits N q → b = true) := by
  generalize hn : sendLeft (q.producers 0) = n
  induction n using Nat.strong_induction_on generalizing q with
  | _ n ih =>
    have hspec := send_spec hN h hask hroom
    have hgoes := send_goes h hfree value
    have hconsumer := send_consumer (N := N) (q := q) value
    rcases hs : q.send N value with ⟨q₁, _ | b⟩
    · rw [hs] at hspec hgoes hconsumer
      obtain ⟨b, q', hsends, hb⟩ := ih _ (hn ▸ hgoes.1) hspec.1 hspec.2
        (hfree.imp (fun hr => by rw [hconsumer]; exact hr) hgoes.2.2) rfl
      exact ⟨b, q', .step hs hsends, fun had => hb (hgoes.2.1 had)⟩
    · rw [hs] at hgoes
      exact ⟨b, q₁, .last hs, hgoes⟩

/-- What is known of a step of the receiver that gets the lock it asks for. -/
def ReceiveGoes (q : Queue w) : Queue w × Option (Bool × Bytes w) → Prop
  | (q', none) => receiveLeft q'.consumer < receiveLeft q.consumer ∧
    (Offers q → Offers q') ∧ (engaged q.consumer = true → engaged q'.consumer = true)
  | (_, some (b, _)) => Offers q → b = true

theorem receive_goes (h : Carries N q sent received)
    (hfree : writing (q.producers 0) = false ∨ engaged q.consumer = true)
    (result : Bytes w) :
    ReceiveGoes q (q.receive N result) := by
  unfold Queue.receive
  cases hc : q.consumer with
  | none =>
    refine ⟨?_, fun hoff => ?_, fun he => ?_⟩
    · rw [hc]
      exact Nat.lt_succ_self _
    · unfold Offers at hoff
      rw [hc] at hoff
      exact hoff
    · rw [hc] at he
      cases he
  | some c =>
    have hturn : ∀ (q₁ : Queue w) (e : Dequeue w), q.dequeue N c = q₁.turn (some e) →
        receiveLeft (some e) < receiveLeft (some c) →
          (Offers q → Offers (q₁.turn (some e))) →
        (engaged (some c) = true → engaged (some e) = true) →
        ReceiveGoes q (q.dequeue N c,
          if (q.dequeue N c).consumer.isNone then c.outcome else none) := by
      intro q₁ e heq hleft hoff he
      rw [heq]
      refine ⟨?_, hoff, ?_⟩
      · rw [hc]
        exact hleft
      · rw [hc]
        exact he
    have hgive : ∀ (q₁ : Queue w) (b : Bool) (r : Bytes w), q.dequeue N c = q₁.turn none →
        c.outcome = some (b, r) → (Offers q → b = true) →
        ReceiveGoes q (q.dequeue N c,
          if (q.dequeue N c).consumer.isNone then c.outcome else none) := by
      intro q₁ b r heq hout hb
      rw [heq, show (q₁.turn none).consumer = none from rfl, hout]
      exact hb
    cases c with
    | acquire r =>
      -- the lock is free: it is neither the sender's nor the receiver's
      have hlock : ¬(q.data q.tail).lock = true := by
        intro hlock
        rcases h.held q.tail hlock with ⟨t, stage, ht, hlocked, _⟩ | ⟨hread, _⟩
        · rcases hfree with hfree | hfree
          · rw [ht] at hfree
            exact Bool.false_ne_true (hfree.symm.trans hlocked)
          · rw [hc] at hfree
            cases hfree
        · rw [hc] at hread
          cases hread
      refine hturn (q.setNode q.tail { q.data q.tail with lock := true }) (.load r)
        (if_neg hlock) (Nat.lt_succ_self _) (fun hoff => ?_) fun _ => rfl
      unfold Offers at hoff
      rw [hc] at hoff
      show (Function.update q.data q.tail _ q.tail).hasValue = true
      rw [Function.update_self]
      exact hoff
    | load r =>
      by_cases hhas : (q.data q.tail).hasValue = true
      · refine hturn q (.copy 0 r) (if_pos hhas) ?_ (fun _ => trivial) fun _ => rfl
        show w - 0 + 6 < w + 7
        omega
      · refine hturn q (.release false r) (if_neg hhas) ?_ (fun hoff => ?_) fun _ => rfl
        · show 4 < w + 7
          omega
        · unfold Offers at hoff
          rw [hc] at hoff
          exact absurd hoff hhas
    | copy k r =>
      by_cases hk : k < w
      · refine hturn q (.copy (k + 1) _) (dif_pos hk) ?_ (fun _ => trivial) fun _ => rfl
        show w - (k + 1) + 6 < w - k + 6
        omega
      · refine hturn q (.clear r) (dif_neg hk) ?_ (fun _ => trivial) fun _ => rfl
        show 5 < w - k + 6
        omega
    | clear r =>
      exact hturn _ (.release true r) rfl (Nat.lt_succ_self _) (fun _ => rfl) fun _ => rfl
    | release ret r =>
      have hlocked : (q.data q.tail).lock = true :=
        h.inv.lock (by rw [show q.recount.consumer = _ from hc]; rfl)
      cases ret with
      | true =>
        exact hturn _ (.advance r) (if_pos hlocked) (Nat.lt_succ_self _)
          (fun _ => trivial)
          fun _ => rfl
      | false =>
        refine hgive _ false r (if_pos hlocked) rfl fun hoff => ?_
        unfold Offers at hoff
        rw [hc] at hoff
        exact hoff
    | advance r =>
      exact hturn _ (.fetchCount r) rfl (Nat.lt_succ_self _)
        (fun _ => trivial) fun _ => rfl
    | fetchCount r =>
      have hcount : q.count ≠ 0 := (dequeued_inv (q := q.recount) h.inv hc).2
      exact hgive { q with count := q.count - 1, dequeued := q.dequeued ++ [r] } true r
        (if_neg hcount) rfl fun _ => rfl
    | aborted => exact absurd hc h.inv.runs.2

/-- **A dequeue returns** though the sender takes no step, when that holds no lock or the
dequeue has had its own; and it returns true when there is a value at `tail`. -/
theorem receives_return (hN : 0 < N) (h : Carries N q sent received)
    (hfree : writing (q.producers 0) = false ∨ engaged q.consumer = true)
    (result : Bytes w) :
    ∃ b r q', Receives N q result (b, r) q' ∧ (Offers q → b = true) := by
  generalize hn : receiveLeft q.consumer = n
  induction n using Nat.strong_induction_on generalizing q with
  | _ n ih =>
    have hspec := receive_spec hN h result
    have hgoes := receive_goes h hfree result
    have hproducers := receive_producers (N := N) (q := q) result
    rcases hs : q.receive N result with ⟨q₁, _ | ⟨b, r⟩⟩
    · rw [hs] at hspec hgoes hproducers
      obtain ⟨b, r, q', hreceives, hb⟩ := ih _ (hn ▸ hgoes.1) hspec
        (hfree.imp (fun hr => by rw [hproducers]; exact hr) hgoes.2.2) rfl
      exact ⟨b, r, q', .step hs hreceives, fun hoff => hb (hgoes.2.1 hoff)⟩
    · rw [hs] at hgoes
      exact ⟨b, r, q₁, .last hs, hgoes⟩

/-- An enqueue is admitted when fewer than `N` values are outstanding, -/
theorem send_admits (h : Carries N q sent received) (hnone : q.producers 0 = none)
    (hroom : sent.length < received.length + N) : Admits N q := by
  have hcount := h.count hnone
  unfold Admits
  rw [hnone]
  show q.count.toNat < N
  omega

/-- and a dequeue finds a value when one is. -/
theorem receive_offers (h : Carries N q sent received) (hnone : q.consumer = none)
    (hlt : received.length < sent.length) : Offers q := by
  unfold Offers
  rw [hnone]
  exact h.stored hnone hlt

/-- When its call has returned the sender has none in progress; the receiver is where it
was. -/
theorem Sends.ends (hN : 0 < N) {b : Bool} {q' : Queue w} (hs : Sends N value q b q') :
    Carries N q sent received → Asks value (q.producers 0) → sent.length + 1 < 2 ^ 64 →
      q'.producers 0 = none ∧ q'.consumer = q.consumer := by
  induction hs with
  | @last q q' b hsend =>
    intro h hask hroom
    have hspec := send_spec hN h hask hroom
    have hconsumer := send_consumer (N := N) (q := q) value
    rw [hsend] at hspec hconsumer
    exact ⟨hspec.2.1, hconsumer⟩
  | @step q q₁ q' b hsend _ ih =>
    intro h hask hroom
    have hspec := send_spec hN h hask hroom
    have hconsumer := send_consumer (N := N) (q := q) value
    rw [hsend] at hspec hconsumer
    obtain ⟨hnone, hsame⟩ := ih hspec.1 hspec.2 hroom
    exact ⟨hnone, hsame.trans hconsumer⟩

/-- When its call has returned the receiver has none in progress; the sender is where it
was. -/
theorem Receives.ends (hN : 0 < N) {r : Bool × Bytes w} {q' : Queue w}
    (hr : Receives N q result r q') : Carries N q sent received →
      q'.consumer = none ∧ q'.producers = q.producers := by
  induction hr with
  | @last q q' result r hreceive =>
    intro h
    have hspec := receive_spec hN h result
    have hproducers := receive_producers (N := N) (q := q) result
    rw [hreceive] at hspec hproducers
    exact ⟨hspec.2, hproducers⟩
  | @step q q₁ q' result r hreceive _ ih =>
    intro h
    have hspec := receive_spec hN h result
    have hproducers := receive_producers (N := N) (q := q) result
    rw [hreceive] at hspec hproducers
    obtain ⟨hnone, hsame⟩ := ih hspec
    exact ⟨hnone, hsame.trans hproducers⟩

end Returns

end CharmExperiments.Lfq
