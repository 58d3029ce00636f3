import Mathlib.Algebra.Ring.Nat
import Mathlib.Logic.Function.Basic
import CharmExperiments.Lib.Transition

/-!
# Ping-pong

`warp/pingpong.cpp`: two tasks send one message to and fro, `nIters` times to warm up
and `nIters` times to measure. Each task posts its first receive when it is
constructed, and `receive` sends the message on and posts the next, except the last
time: then it sends all the same, and posts none.

So task 1 is sent a message it never receives (`one_unmatched`), whatever `nIters` is:
it is first sent one by `main`, then one for each receive of task 0, and the two tasks
receive as often.

Mirroring notes:
- Task `i` is on rank `i % nRanks`; there may be one rank or more.
- A receive is posted, matched to a message, and then completed, which runs `receive`
  (`complete`).
- `MPI_Wtime` and the output are left out. `finished` is the `done` of the last
  `receive`; no function reads it.
-/

namespace CharmExperiments.Warp

open CharmExperiments.Lib

/-- There is a task 0. -/
local instance neZeroTwo : NeZero 2 := ⟨Nat.succ_ne_zero 1⟩

/-- `pingpong`. -/
structure Pingpong where
  it : Nat
  warmup : Bool
  finished : Bool

/-- The tasks; how many messages were sent to each, and how many receives of each were
matched to one, posted and completed; and which ranks are in their loop. -/
structure Tasks where
  tasks : Fin 2 → Pingpong
  constructed : Fin 2 → Bool
  started : Bool
  sent : Fin 2 → Nat
  matched : Fin 2 → Nat
  posted : Fin 2 → Nat
  completed : Fin 2 → Nat
  running : Nat → Bool

/-- What can happen: `main` constructs a task or sends the first message, a receive is
matched to a message, or it is completed. -/
inductive TasksAction
  | construct (i : Fin 2)
  | start
  | matchUp (i : Fin 2)
  | complete (i : Fin 2)

namespace Pingpong

/-- `finish`. -/
def finish (self : Pingpong) : Bool × Pingpong :=
  let self := { self with it := 0 }
  if self.warmup = false then (true, self) else (false, { self with warmup := false })

/-- What `receive` does to the task, and whether that was the last. -/
def advance (nIters : Int) (self : Pingpong) : Bool × Pingpong :=
  let self := { self with it := self.it + 1 }
  let (done, self) := if (self.it : Int) ≥ nIters then self.finish else (false, self)
  (done, { self with finished := done })

end Pingpong

namespace Tasks

/-- Add one at `i`. -/
def incr (f : Fin 2 → Nat) (i : Fin 2) : Fin 2 → Nat := Function.update f i (f i + 1)

/-- `pingpong::receive`. -/
def receive (nRanks : Nat) (nIters : Int) (s : Tasks) (i : Fin 2) : Tasks :=
  let (done, self) := (s.tasks i).advance nIters
  { s with
    tasks := Function.update s.tasks i self
    sent := incr s.sent (i + 1)
    posted := if done then s.posted else incr s.posted i
    running :=
      if done ∧ i.val = i.val % nRanks then
        Function.update s.running (i.val % nRanks) false
      else s.running }

/-- One step; `none` when it cannot be taken. -/
def step (nRanks : Nat) (nIters : Int) (s : Tasks) : TasksAction → Option Tasks
  | .construct i =>
    if s.constructed i = false then
      some { s with
        tasks := Function.update s.tasks i ⟨0, true, false⟩
        constructed := Function.update s.constructed i true
        posted := incr s.posted i }
    else none
  | .start =>
    -- rank 0 constructs its tasks before it sends
    if s.started = false ∧ s.constructed 0 = true ∧ (nRanks = 1 → s.constructed 1 = true) then
      some { s with started := true, sent := incr s.sent 1 }
    else none
  | .matchUp i =>
    if s.matched i < s.sent i ∧ s.matched i < s.posted i then
      some { s with matched := incr s.matched i }
    else none
  | .complete i =>
    if s.completed i < s.matched i then
      some ({ s with completed := incr s.completed i }.receive nRanks nIters i)
    else none

def init : Tasks where
  tasks _ := ⟨0, true, false⟩
  constructed _ := false
  started := false
  sent _ := 0
  matched _ := 0
  posted _ := 0
  completed _ := 0
  running _ := true

/-- The tasks as a transition system. -/
def system (nRanks : Nat) (nIters : Int) : Transition Tasks TasksAction where
  init s := s = init
  step := step nRanks nIters

/-- A receive is completed only while the rank of the task is in its loop. -/
def InLoop (nRanks : Nat) (s : Tasks) : TasksAction → Prop
  | .complete i => s.running (i.val % nRanks) = true
  | .construct _ | .start | .matchUp _ => True

/-- Both tasks have finished. -/
def Finished (s : Tasks) : Prop := ∀ i, (s.tasks i).finished = true

/-- As many messages were sent to each task as it posted and completed receives. -/
def Balanced (s : Tasks) : Prop := ∀ i, s.sent i = s.posted i ∧ s.sent i = s.completed i

/-! ## How often a task receives -/

/-- How many receives make up a phase: `nIters`, but one at least. -/
def phase (nIters : Int) : Nat := max nIters.toNat 1

/-- A task that has completed `c` receives. -/
def after (nIters : Int) (c : Nat) : Pingpong :=
  if c < phase nIters then ⟨c, true, false⟩
  else if c < 2 * phase nIters then ⟨c - phase nIters, false, false⟩
  else ⟨0, false, true⟩

theorem phase_pos (nIters : Int) : 0 < phase nIters := by
  unfold phase
  omega

/-- A round of `receive`: the last is the second time a phase is complete. -/
theorem advance_after {nIters : Int} {c : Nat} (hc : c < 2 * phase nIters) :
    (after nIters c).advance nIters
      = (decide (c + 1 = 2 * phase nIters), after nIters (c + 1)) := by
  have hpos := phase_pos nIters
  have hphase : ∀ it : Nat, ((it + 1 : Nat) : Int) ≥ nIters ↔ phase nIters ≤ it + 1 := by
    intro it
    unfold phase
    omega
  unfold Pingpong.advance
  -- the warm-up phase is counted from 0, and so is the phase after it
  by_cases hwarm : c < phase nIters
  · rw [show after nIters c = ⟨c, true, false⟩ from if_pos hwarm]
    dsimp only
    by_cases hlast : c + 1 < phase nIters
    · rw [if_neg (mt (hphase c).mp (Nat.not_le_of_lt hlast)),
        show after nIters (c + 1) = ⟨c + 1, true, false⟩ from if_pos hlast,
        decide_eq_false (by omega)]
    · have heq : c + 1 = phase nIters := by omega
      rw [if_pos ((hphase c).mpr (by omega)),
        show after nIters (c + 1) = ⟨c + 1 - phase nIters, false, false⟩ by
          unfold after
          rw [if_neg hlast, if_pos (by omega)],
        decide_eq_false (by omega), heq, Nat.sub_self]
      rfl
  · rw [show after nIters c = ⟨c - phase nIters, false, false⟩ by
      unfold after
      rw [if_neg hwarm, if_pos hc]]
    dsimp only
    by_cases hlast : c + 1 < 2 * phase nIters
    · rw [if_neg (mt (hphase _).mp (by omega)),
        show after nIters (c + 1) = ⟨c + 1 - phase nIters, false, false⟩ by
          unfold after
          rw [if_neg (by omega), if_pos hlast],
        decide_eq_false (by omega), Nat.sub_add_comm (Nat.not_lt.mp hwarm)]
    · rw [if_pos ((hphase _).mpr (by omega)),
        show after nIters (c + 1) = ⟨0, false, true⟩ by
          unfold after
          rw [if_neg (by omega), if_neg hlast],
        decide_eq_true (by omega)]
      rfl

theorem after_finished {nIters : Int} {c : Nat} :
    (after nIters c).finished = true ↔ 2 * phase nIters ≤ c := by
  have hpos := phase_pos nIters
  unfold after
  by_cases hwarm : c < phase nIters
  · rw [if_pos hwarm]
    exact iff_of_false Bool.false_ne_true (by omega)
  · rw [if_neg hwarm]
    by_cases hlast : c < 2 * phase nIters
    · rw [if_pos hlast]
      exact iff_of_false Bool.false_ne_true (by omega)
    · rw [if_neg hlast]
      exact iff_of_true rfl (by omega)

/-! ## The account -/

theorem incr_apply (f : Fin 2 → Nat) (i j : Fin 2) :
    incr f i j = f j + if j = i then 1 else 0 := by
  unfold incr
  by_cases h : j = i
  · subst h
    rw [Function.update_self, if_pos rfl]
  · rw [Function.update_of_ne h, if_neg h, Nat.add_zero]

/-- A task is as its receives have left it; it has one receive posted more than it
completed, until the last; and it was sent a message for each receive of the other,
and task 1 the first one as well. -/
structure TasksInv (nIters : Int) (s : Tasks) : Prop where
  task : ∀ i, s.tasks i = after nIters (s.completed i)
  posted : ∀ i, s.constructed i = true →
    s.posted i = min (s.completed i + 1) (2 * phase nIters)
  waiting : ∀ i, s.constructed i = false → s.posted i = 0
  sent : ∀ i, s.sent i = s.completed (i + 1) + if i = 1 ∧ s.started = true then 1 else 0
  early : s.started = false → ∀ i, s.completed i = 0
  matchedSent : ∀ i, s.matched i ≤ s.sent i
  matchedPosted : ∀ i, s.matched i ≤ s.posted i
  completed : ∀ i, s.completed i ≤ s.matched i
  running : ∀ r, s.running r = false → ∃ i : Fin 2, i.val = r ∧
    s.completed i = 2 * phase nIters

variable {nRanks : Nat} {nIters : Int} {s s' : Tasks}

theorem init_inv : TasksInv nIters init where
  task := fun _ => (if_pos (phase_pos nIters)).symm
  posted := fun _ h => by cases h
  waiting := fun _ _ => rfl
  sent := fun i => by
    rw [if_neg (show ¬(i = 1 ∧ init.started = true) from fun h => Bool.false_ne_true h.2)]
    rfl
  early := fun _ _ => rfl
  matchedSent := fun _ => Nat.le_refl 0
  matchedPosted := fun _ => Nat.le_refl 0
  completed := fun _ => Nat.le_refl 0
  running := fun _ h => by cases h

/-- A receive that can be completed is not beyond the last. -/
theorem TasksInv.bound (h : TasksInv nIters s) {i : Fin 2}
    (hi : s.completed i < s.matched i) :
    s.constructed i = true ∧ s.completed i < 2 * phase nIters := by
  have hposted := h.matchedPosted i
  cases hc : s.constructed i with
  | false =>
    have hwaiting := h.waiting i hc
    omega
  | true =>
    have hbound := h.posted i hc
    exact ⟨rfl, by omega⟩

/-- The tasks are each other's peers. -/
theorem peer_iff : ∀ i j : Fin 2, j = i + 1 ↔ j + 1 = i := by decide

theorem complete_inv (h : TasksInv nIters s) {i : Fin 2}
    (hi : s.completed i < s.matched i) :
    TasksInv nIters
      ({ s with completed := incr s.completed i }.receive nRanks nIters i) := by
  obtain ⟨hconstructed, hlast⟩ := h.bound hi
  have hcompleted : ∀ j, incr s.completed i j = s.completed j + if j = i then 1 else 0 :=
    incr_apply s.completed i
  let last : Bool := decide (s.completed i + 1 = 2 * phase nIters)
  have hposted : ∀ j, (if last then s.posted else incr s.posted i) j
      = s.posted j + if j = i ∧ s.completed i + 1 ≠ 2 * phase nIters then 1 else 0 := by
    intro j
    by_cases hdone : s.completed i + 1 = 2 * phase nIters
    · rw [if_pos (decide_eq_true hdone), if_neg fun hj => hj.2 hdone, Nat.add_zero]
    · rw [if_neg (by rw [decide_eq_true_eq]; exact hdone), incr_apply]
      exact congrArg _ (if_congr (and_iff_left hdone).symm rfl rfl)
  unfold receive
  dsimp only
  rw [h.task i, advance_after hlast]
  refine ⟨fun j => ?_, fun j hj => ?_, fun j hj => ?_, fun j => ?_, fun hs =>
    ?_, fun j => ?_, fun j => ?_, fun j => ?_, fun r hr => ?_⟩
  · show Function.update s.tasks i _ j = after nIters (incr s.completed i j)
    rw [hcompleted]
    by_cases hji : j = i
    · subst hji
      rw [Function.update_self, if_pos rfl]
    · rw [Function.update_of_ne hji, if_neg hji]
      exact h.task j
  · have hbefore := h.posted j hj
    show (if last then s.posted else incr s.posted i) j
      = min (incr s.completed i j + 1) (2 * phase nIters)
    rw [hcompleted, hposted]
    by_cases hji : j = i
    · subst hji
      rw [if_pos rfl]
      split <;> omega
    · rw [if_neg hji, if_neg fun hj => hji hj.1]
      exact hbefore
  · show (if last then s.posted else incr s.posted i) j = 0
    have hji : j ≠ i := by
      rintro rfl
      exact nomatch hconstructed.symm.trans hj
    rw [hposted, if_neg fun hj => hji hj.1]
    exact h.waiting j hj
  · show incr s.sent (i + 1) j = incr s.completed i (j + 1) +
      if j = 1 ∧ s.started = true then 1 else 0
    rw [hcompleted, incr_apply, h.sent j]
    have hpeer := if_congr (peer_iff i j) (rfl : 1 = 1) (rfl : 0 = 0)
    omega
  · -- before the first message is sent no receive is matched
    have hstopped : s.started = false := hs
    have hnot : ¬(i = 1 ∧ s.started = true) :=
      fun hstarted => Bool.false_ne_true (hstopped.symm.trans hstarted.2)
    have hsent := h.sent i
    have hearly := h.early hstopped (i + 1)
    rw [hearly, if_neg hnot] at hsent
    have hmatched := h.matchedSent i
    omega
  · have hmatched := h.matchedSent j
    show s.matched j ≤ incr s.sent (i + 1) j
    rw [incr_apply]
    omega
  · have hmatched := h.matchedPosted j
    show s.matched j ≤ (if last then s.posted else incr s.posted i) j
    rw [hposted]
    omega
  · have hmatched := h.completed j
    show incr s.completed i j ≤ s.matched j
    rw [hcompleted]
    by_cases hji : j = i
    · subst hji
      rw [if_pos rfl]
      omega
    · rw [if_neg hji]
      exact hmatched
  · have hkept : s.running r = false →
        ∃ j : Fin 2, j.val = r ∧ incr s.completed i j = 2 * phase nIters := by
      intro hs
      obtain ⟨j, hj, hfinished⟩ := h.running r hs
      -- a rank whose loop has ended finished its task before this receive
      have hji : j ≠ i := by
        rintro rfl
        omega
      exact ⟨j, hj, by rw [hcompleted, if_neg hji, Nat.add_zero, hfinished]⟩
    have hr' : (if last = true ∧ i.val = i.val % nRanks then
        Function.update s.running (i.val % nRanks) false else s.running) r = false := hr
    split at hr'
    next hdone =>
      by_cases hri : r = i.val % nRanks
      · refine ⟨i, hdone.2.trans hri.symm, ?_⟩
        show incr s.completed i i = 2 * phase nIters
        rw [hcompleted, if_pos rfl]
        exact of_decide_eq_true hdone.1
      · rw [Function.update_of_ne hri] at hr'
        exact hkept hr'
    next => exact hkept hr'

/-- A task is constructed: it posts its first receive. -/
theorem construct_inv (h : TasksInv nIters s) {i : Fin 2}
    (hs : s.step nRanks nIters (.construct i) = some s') : TasksInv nIters s' := by
  simp only [step] at hs
  split at hs
  next hnew =>
    obtain rfl := Option.some.inj hs
    have hposted := h.waiting i hnew
    have hmatched := h.matchedPosted i
    have hcompleted := h.completed i
    have hpos := phase_pos nIters
    refine ⟨fun j => ?_, fun j hj => ?_, fun j hj => ?_, h.sent, h.early, h.matchedSent,
      fun j => ?_, h.completed, h.running⟩
    · show Function.update s.tasks i _ j = _
      by_cases hji : j = i
      · subst hji
        rw [Function.update_self, show s.completed j = 0 by omega]
        exact (if_pos hpos).symm
      · rw [Function.update_of_ne hji]
        exact h.task j
    · have hj' : Function.update s.constructed i true j = true := hj
      show incr s.posted i j = _
      rw [incr_apply]
      by_cases hji : j = i
      · subst hji
        rw [if_pos rfl]
        show s.posted j + 1 = min (s.completed j + 1) _
        omega
      · rw [Function.update_of_ne hji] at hj'
        rw [if_neg hji]
        exact h.posted j hj'
    · have hj' : Function.update s.constructed i true j = false := hj
      show incr s.posted i j = 0
      by_cases hji : j = i
      · subst hji
        rw [Function.update_self] at hj'
        cases hj'
      · rw [Function.update_of_ne hji] at hj'
        rw [incr_apply, if_neg hji]
        exact h.waiting j hj'
    · have hposted' := h.matchedPosted j
      show s.matched j ≤ incr s.posted i j
      rw [incr_apply]
      omega
  next => cases hs

/-- The first message is sent. -/
theorem start_inv (h : TasksInv nIters s) (hs : s.step nRanks nIters .start = some s') :
    TasksInv nIters s' := by
  simp only [step] at hs
  split at hs
  next hready =>
    obtain rfl := Option.some.inj hs
    refine ⟨h.task, h.posted, h.waiting, fun i => ?_, fun hs =>
      (by cases hs), fun i => ?_, h.matchedPosted, h.completed, h.running⟩
    · have hsent := h.sent i
      rw [if_neg fun hstarted =>
        Bool.false_ne_true (hready.1.symm.trans hstarted.2)] at hsent
      show incr s.sent 1 i = s.completed (i + 1) + if i = 1 ∧ true = true then 1 else 0
      rw [incr_apply, hsent]
      exact congrArg _ (if_congr (and_iff_left rfl).symm rfl rfl)
    · have hmatched := h.matchedSent i
      show s.matched i ≤ incr s.sent 1 i
      rw [incr_apply]
      omega
  next => cases hs

/-- A message meets a posted receive. -/
theorem matchUp_inv (h : TasksInv nIters s) {i : Fin 2}
    (hs : s.step nRanks nIters (.matchUp i) = some s') : TasksInv nIters s' := by
  simp only [step] at hs
  split at hs
  next hready =>
    obtain rfl := Option.some.inj hs
    have hle : ∀ f : Fin 2 → Nat, s.matched i < f i → (∀ j, s.matched j ≤ f j) →
        ∀ j, incr s.matched i j ≤ f j := by
      intro f hi hf j
      rw [incr_apply]
      by_cases hji : j = i
      · subst hji
        rw [if_pos rfl]
        exact hi
      · rw [if_neg hji]
        exact hf j
    refine ⟨h.task, h.posted, h.waiting, h.sent, h.early, hle _ hready.1 h.matchedSent,
      hle _ hready.2 h.matchedPosted, fun j => ?_, h.running⟩
    have hcompleted := h.completed j
    show s.completed j ≤ incr s.matched i j
    rw [incr_apply]
    omega
  next => cases hs

/-- **A step keeps the account.** -/
theorem step_inv (h : TasksInv nIters s) {a : TasksAction}
    (hs : s.step nRanks nIters a = some s') : TasksInv nIters s' := by
  cases a with
  | construct i => exact construct_inv h hs
  | start => exact start_inv h hs
  | matchUp i => exact matchUp_inv h hs
  | complete i =>
    simp only [step] at hs
    split at hs
    next hi =>
      obtain rfl := Option.some.inj hs
      exact complete_inv h hi
    next => cases hs

theorem reachable_inv {C : Tasks → TasksAction → Prop}
    (h : (system nRanks nIters).Reachable C s) : TasksInv nIters s := by
  refine h.invariant (I := TasksInv nIters) ?_ fun s a s' hi _ hs => step_inv hi hs
  rintro s rfl
  exact init_inv

/-! ## When both have finished -/

/-- Both tasks receive as often, and task 1 was sent one message more. -/
theorem TasksInv.finished (h : TasksInv nIters s) (hf : s.Finished) :
    (∀ i, s.completed i = 2 * phase nIters ∧ s.posted i = 2 * phase nIters) ∧
      s.sent 0 = 2 * phase nIters ∧ s.sent 1 = 2 * phase nIters + 1 := by
  have hpos := phase_pos nIters
  have hcompleted : ∀ i, 2 * phase nIters ≤ s.completed i := by
    intro i
    have hi := hf i
    rw [h.task i, after_finished] at hi
    exact hi
  have hall : ∀ i, s.completed i = 2 * phase nIters ∧ s.posted i = 2 * phase nIters := by
    intro i
    have hlow := hcompleted i
    have hmatched := h.completed i
    have hposted := h.matchedPosted i
    cases hc : s.constructed i with
    | false =>
      have hwaiting := h.waiting i hc
      omega
    | true =>
      have hbound := h.posted i hc
      omega
  have hstarted : s.started = true := by
    by_contra hnot
    have hearly := h.early (Bool.eq_false_iff.mpr hnot) 0
    have hlow := hcompleted 0
    omega
  have hsent0 := h.sent 0
  have hsent1 := h.sent 1
  rw [if_neg fun h : (0 : Fin 2) = 1 ∧ s.started = true =>
    absurd h.1 (by decide)] at hsent0
  rw [if_pos ⟨rfl, hstarted⟩] at hsent1
  exact ⟨hall, hsent0.trans (hall 1).1, hsent1.trans (congrArg (· + 1) (hall 0).1)⟩

/-! ## They do finish -/

/-- How far the run is. -/
def progress (s : Tasks) : Nat :=
  (s.constructed 0).toNat + (s.constructed 1).toNat + s.started.toNat +
    s.matched 0 + s.matched 1 + s.completed 0 + s.completed 1

theorem TasksInv.progress_le (h : TasksInv nIters s) :
    s.progress ≤ 3 + 8 * phase nIters := by
  have hbound : ∀ i, s.posted i ≤ 2 * phase nIters := by
    intro i
    cases hc : s.constructed i with
    | false =>
      have hwaiting := h.waiting i hc
      omega
    | true =>
      have hposted := h.posted i hc
      omega
  have h0 := hbound 0
  have h1 := hbound 1
  have hm0 := h.matchedPosted 0
  have hm1 := h.matchedPosted 1
  have hc0 := h.completed 0
  have hc1 := h.completed 1
  have hb0 := Bool.toNat_le (s.constructed 0)
  have hb1 := Bool.toNat_le (s.constructed 1)
  have hb := Bool.toNat_le s.started
  unfold progress
  omega

theorem incr_sum (f : Fin 2 → Nat) : ∀ i, incr f i 0 + incr f i 1 = f 0 + f 1 + 1 := by
  intro i
  have hfin : i = 0 ∨ i = 1 := by revert i; decide
  rw [incr_apply, incr_apply]
  rcases hfin with rfl | rfl
  · rw [if_pos rfl, if_neg (by decide)]
    omega
  · rw [if_neg (by decide), if_pos rfl]
    omega

theorem progress_receive (s : Tasks) (i : Fin 2) :
    (s.receive nRanks nIters i).progress = s.progress := rfl

/-- Of a task that was sent a message it has not received, and has a receive posted, the
receive is matched or completed. -/
theorem serve (h : TasksInv nIters s) (i : Fin 2) (hsent : s.completed i < s.sent i)
    (hposted : s.completed i < s.posted i)
    (hrunning : s.running (i.val % nRanks) = true) :
    ∃ a s', s.InLoop nRanks a ∧ s.step nRanks nIters a = some s' ∧
      s'.progress = s.progress + 1 := by
  rcases Nat.lt_or_eq_of_le (h.completed i) with hlt | heq
  · refine ⟨.complete i, _, hrunning, if_pos hlt, ?_⟩
    have hsum := incr_sum s.completed i
    rw [progress_receive]
    unfold progress
    dsimp only
    omega
  · rw [heq] at hsent hposted
    refine ⟨.matchUp i, _, trivial, if_pos ⟨hsent, hposted⟩, ?_⟩
    have hsum := incr_sum s.matched i
    unfold progress
    dsimp only
    omega

/-- Until both tasks have finished, something can happen. -/
theorem advance (nRanks : Nat) (h : TasksInv nIters s) (hf : ¬s.Finished) :
    ∃ a s', s.InLoop nRanks a ∧ s.step nRanks nIters a = some s' ∧
      s'.progress = s.progress + 1 := by
  have hfin : ∀ i : Fin 2, i = 0 ∨ i = 1 := by decide
  by_cases hconstructed : ∀ i, s.constructed i = true
  · by_cases hstarted : s.started = true
    · have hsent0 := h.sent 0
      have hsent1 := h.sent 1
      rw [if_neg fun h : (0 : Fin 2) = 1 ∧ s.started = true =>
        absurd h.1 (by decide)] at hsent0
      rw [if_pos ⟨rfl, hstarted⟩] at hsent1
      have h0 := h.posted 0 (hconstructed 0)
      have h1 := h.posted 1 (hconstructed 1)
      have hm0 := h.matchedSent 0
      have hc0 := h.completed 0
      have hm1 := h.matchedSent 1
      have hc1 := h.completed 1
      have hp1 := h.matchedPosted 1
      change s.sent 0 = s.completed 1 + 0 at hsent0
      change s.sent 1 = s.completed 0 + 1 at hsent1
      have hlast : s.completed 0 < 2 * phase nIters := by
        by_contra hnot
        refine hf fun i => ?_
        rw [h.task i, after_finished]
        rcases hfin i with rfl | rfl
        · omega
        · omega
      -- the message is with task 1 when both have received as often, else with task 0
      by_cases hturn : s.completed 1 = s.completed 0
      · refine serve h 1 (by omega) (by omega) ?_
        by_contra hnot
        obtain ⟨j, _, hj⟩ := h.running _ (Bool.eq_false_iff.mpr hnot)
        rcases hfin j with rfl | rfl
        · omega
        · omega
      · refine serve h 0 (by omega) (by omega) ?_
        by_contra hnot
        obtain ⟨j, hval, hj⟩ := h.running _ (Bool.eq_false_iff.mpr hnot)
        rcases hfin j with rfl | rfl
        · omega
        · exact absurd hval
            (by rw [show ((0 : Fin 2).val % nRanks) = 0 from Nat.zero_mod _]; decide)
    · have hstopped : s.started = false := Bool.eq_false_iff.mpr hstarted
      refine ⟨.start, _, trivial,
        if_pos ⟨hstopped, hconstructed 0, fun _ => hconstructed 1⟩, ?_⟩
      unfold progress
      dsimp only
      rw [hstopped, Bool.toNat_true, Bool.toNat_false]
      omega
  · obtain ⟨i, hi⟩ := not_forall.mp hconstructed
    have hnew : s.constructed i = false := Bool.eq_false_iff.mpr hi
    refine ⟨.construct i, _, trivial, if_pos hnew, ?_⟩
    unfold progress
    dsimp only
    rcases hfin i with rfl | rfl
    · rw [Function.update_self, Function.update_of_ne (by decide), hnew, Bool.toNat_true,
        Bool.toNat_false]
      omega
    · rw [Function.update_self, Function.update_of_ne (by decide), hnew, Bool.toNat_true,
        Bool.toNat_false]
      omega

/-- From every state reached the tasks can go on until both have finished. -/
theorem finish_reachable :
    ∀ (n : Nat) {s : Tasks}, (system nRanks nIters).Reachable (InLoop nRanks) s →
      3 + 8 * phase nIters ≤ s.progress + n →
      ∃ s', (system nRanks nIters).Reachable (InLoop nRanks) s' ∧ s'.Finished := by
  intro n
  induction n with
  | zero =>
    intro s h hn
    by_cases hf : s.Finished
    · exact ⟨s, h, hf⟩
    · obtain ⟨a, s', hin, hs, hprogress⟩ := advance nRanks (reachable_inv h) hf
      have hle := (step_inv (reachable_inv h) hs).progress_le
      omega
  | succ n ih =>
    intro s h hn
    by_cases hf : s.Finished
    · exact ⟨s, h, hf⟩
    · obtain ⟨a, s', hin, hs, hprogress⟩ := advance nRanks (reachable_inv h) hf
      exact ih (.step h hin hs) (by omega)

/-- **Task 1 is left with a message it never receives.** However often the tasks go to
and fro, on one rank or on more: they can finish, and whenever both have, task 1 was
sent one message more than it posted and completed receives. -/
theorem one_unmatched (nRanks : Nat) (nIters : Int) :
    (∃ s, (system nRanks nIters).Reachable (InLoop nRanks) s ∧ s.Finished) ∧
      ∀ s, (system nRanks nIters).Reachable (fun _ _ => True) s → s.Finished →
        s.sent 1 = s.completed 1 + 1 ∧ s.posted 1 = s.completed 1 ∧ ¬s.Balanced := by
  refine ⟨finish_reachable (3 + 8 * phase nIters) (.init rfl) (by omega),
    fun s h hf => ?_⟩
  obtain ⟨hall, _, hsent⟩ := (reachable_inv h).finished hf
  have hone := hall 1
  refine ⟨by omega, by omega, fun hbalanced => ?_⟩
  have hone' := (hbalanced 1).2
  omega

/-- One iteration on one rank: task 1 is sent three messages and receives two. -/
theorem left_over :
    ∃ s, (system 1 1).run init
      [.construct 0, .construct 1, .start, .matchUp 1, .complete 1,
        .matchUp 0, .complete 0, .matchUp 1, .complete 1, .matchUp 0,
          .complete 0] = some s ∧
      (s.tasks 0).finished = true ∧ (s.tasks 1).finished = true ∧
      s.sent 1 = 3 ∧ s.posted 1 = 2 ∧ s.completed 1 = 2 :=
  ⟨_, rfl, rfl, rfl, rfl, rfl, rfl⟩

end Tasks

end CharmExperiments.Warp
