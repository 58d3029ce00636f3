import CharmExperiments.Lfq.QueueInv

/-!
# First in, first out

What the invariant says to the callers of the queue: `dequeue` returns the
admitted values in the order of their tickets, at most `N` of them are
outstanding, no assertion fails, and an enqueue that is refused touches neither
`head` nor a node (`queue_fifo`).
-/

namespace CharmExperiments.Lfq

open CharmExperiments.Lib

variable {w : Nat}

/-- What the queue is for, in one of its states. -/
structure Fifo (N P : Nat) (q : Queue w) : Prop where
  /-- `dequeue` has returned the first of the admitted values, in their order. -/
  order : q.dequeued <+: q.admitted
  /-- A node is empty when a producer stores into it. -/
  empty : ∀ p t setValue, q.producers p = some (.writing t (.store setValue)) →
    (q.data t.slot).hasValue = false
  /-- At most `N` admitted values are not yet dequeued, with those that are yet to
  take their ticket. -/
  outstanding : q.admitted.length + q.total P waiting ≤ q.dequeued.length + N
  /-- No assertion has failed. -/
  asserts : (∀ p, q.producers p ≠ some .aborted) ∧ q.consumer ≠ some .aborted
  /-- A step of an enqueue that returns false leaves `head` and the nodes alone. -/
  refused : ∀ p q', q.step N P (.produce p) = some q' →
    q'.producers p = some .undoCount ∨ q'.returns = q.returns ++ [(p, false)] →
    q'.head = q.head ∧ q'.data = q.data

section Refused

variable {N p : Nat} {q : Queue w}

@[simp] theorem setNode_returns (i : Nat) (node : Node w) :
    (q.setNode i node).returns = q.returns :=
  rfl

@[simp] theorem goto_returns (c : Enqueue w) : (q.goto p c).returns = q.returns := rfl

theorem append_ne_self {l : List (Nat × Bool)} {r : Nat × Bool} : l ≠ l ++ [r] := by
  intro h
  have hlen := congrArg List.length h
  rw [List.length_append, List.length_singleton] at hlen
  omega

/-- At its node an enqueue is admitted: it does not return false. -/
theorem write_not_refused {t : Ticket w} {stage : Stage}
    (ht : q.producers p = some (.writing t stage)) :
    (q.write p t stage).producers p ≠ some .undoCount ∧
    (q.write p t stage).returns ≠ q.returns ++ [(p, false)] := by
  have hgoto : ∀ (q' : Queue w) s, q'.returns = q.returns →
      (q'.goto p (.writing t s)).producers p ≠ some .undoCount ∧
      (q'.goto p (.writing t s)).returns ≠ q.returns ++ [(p, false)] := by
    intro q' s hret
    rw [goto_self, goto_returns, hret]
    exact ⟨fun hc => (by cases hc), append_ne_self⟩
  cases stage with
  | acquire =>
    unfold Queue.write
    dsimp only
    split
    next =>
      refine ⟨fun hc => ?_, append_ne_self⟩
      rw [show (q.setNode _ _).producers p = q.producers p from rfl, ht] at hc
      cases hc
    next => exact hgoto _ _ rfl
  | load => exact hgoto _ _ rfl
  | store setValue => exact hgoto _ _ rfl
  | copy k setValue =>
    unfold Queue.write
    dsimp only
    split
    next => exact hgoto _ _ rfl
    next => exact hgoto _ _ rfl
  | release setValue =>
    have habort : ∀ q' : Queue w, q'.returns = q.returns →
        (q'.goto p .aborted).producers p ≠ some .undoCount ∧
        (q'.goto p .aborted).returns ≠ q.returns ++ [(p, false)] := by
      intro q' hret
      rw [goto_self, goto_returns, hret]
      exact ⟨fun hc => (by cases hc), append_ne_self⟩
    unfold Queue.write
    dsimp only
    split
    next => exact habort _ rfl
    next =>
      split
      next =>
        refine ⟨fun hc => ?_, fun hc => ?_⟩
        · rw [show (Queue.ret _ p true).producers p =
            none from Function.update_self ..] at hc
          cases hc
        · have hlast := @List.append_cancel_left _ q.returns _ _ hc
          cases hlast
      next => exact habort _ rfl

/-- An enqueue that returns false has only moved `count`. -/
theorem enqueue_refused {c : Enqueue w} (hc : q.producers p = some c)
    (h : (q.enqueue N p c).producers p = some .undoCount ∨
      (q.enqueue N p c).returns = q.returns ++ [(p, false)]) :
    (q.enqueue N p c).head = q.head ∧ (q.enqueue N p c).data = q.data := by
  cases c with
  | fetchCount value =>
    unfold Queue.enqueue
    dsimp only
    split <;> exact ⟨rfl, rfl⟩
  | undoCount => exact ⟨rfl, rfl⟩
  | fetchHead value =>
    exfalso
    rcases h with h | h
    · rw [show (q.enqueue N p (.fetchHead value)).producers p =
        some (.writing _ .acquire) from
        Function.update_self ..] at h
      cases h
    · exact append_ne_self h
  | writing t stage =>
    exfalso
    obtain ⟨hpc, hret⟩ := write_not_refused hc
    rcases h with h | h
    · exact hpc h
    · exact hret h
  | aborted => exact ⟨rfl, rfl⟩

end Refused

/-- **The queue is first in, first out.** For every size and number of producers,
after every interleaving of the steps of any enqueues and dequeues. -/
theorem queue_fifo {N P : Nat} (hN : 0 < N) {q : Queue w}
    (h : (system w N P).Reachable FewCalls q) : Fifo N P q := by
  have hinv := reachable_inv hN h
  refine ⟨hinv.taken, ?_, hinv.bound, hinv.runs, ?_⟩
  · intro p t setValue ht
    exact (hinv.node p t _ ht).1.2
  · intro p q' hs hrefused
    unfold Queue.step at hs
    dsimp only at hs
    split at hs
    next =>
      obtain ⟨c, hc, rfl⟩ := Option.map_eq_some_iff.mp hs
      exact enqueue_refused hc hrefused
    next => cases hs

/-- Whether the condition holds before the step. -/
def fewCalls {w : Nat} (q : Queue w) : Queue.Action w → Bool
  | .call _ _ => decide (q.calls + 1 < 2 ^ 64)
  | _ => true

theorem fewCalls_few {w : Nat} (q : Queue w) (a : Queue.Action w)
    (h : fewCalls q a = true) :
    FewCalls q a := by
  cases a with
  | call p value => exact @of_decide_eq_true (q.calls + 1 < 2 ^ 64) _ h
  | _ => trivial

/-- Producer 1 is counted first, and producer 0 takes its ticket first. Producer 1 has
stored its value when the consumer finds the node of producer 0 still empty. -/
def crossing : List (Queue.Action 1) :=
  [.call 0 fun _ => 7, .call 1 fun _ => 9, .produce 1, .produce 0, .produce 0] ++
    List.replicate 7 (.produce 1) ++ .receive (fun _ => 0) :: List.replicate 3 .consume ++
    List.replicate 6 (.produce 0) ++ .receive (fun _ => 0) :: List.replicate 8 .consume ++
    .receive (fun _ => 0) :: List.replicate 8 .consume

theorem queue_fifo_crossing : ∃ q : Queue 1, (system 1 2 2).Reachable FewCalls q ∧
    q.returns = [(1, true), (0, true)] ∧ q.dequeued.map (· 0) = [7, 9] ∧ Fifo 2 2 q := by
  have hrun : ((system 1 2 2).follow fewCalls (.new fun _ _ => 0) crossing).map
      (fun q => (q.returns, q.dequeued.map (· 0))) =
      some ([(1, true), (0, true)], [7, 9]) := by
    decide +kernel
  obtain ⟨q, hq, hlists⟩ := Option.map_eq_some_iff.mp hrun
  obtain ⟨hreturns, hdequeued⟩ := Prod.mk.inj hlists
  have hreach : (system 1 2 2).Reachable FewCalls q :=
    Transition.follow_reachable fewCalls_few crossing (.init ⟨_, rfl⟩) hq
  exact ⟨q, hreach, hreturns, hdequeued, queue_fifo (by decide) hreach⟩

end CharmExperiments.Lfq
