import CharmExperiments.Hypercomm.Convergence

/-!
# All workers leave together

What agreement of the tests gives: the workers that have left did so after the
same number of rounds, nobody is beyond it, the contributions of one rank resume
one continuation, and the grid has all indices. When nothing is in flight and no
reduction can be formed, all have left (`quiet_left`): a worker that waits for a
ghost has a neighbour whose error was not delivered, and one that waits for an
error has a worker behind it that waits for a ghost.

The constructor does not set `it`, so nothing makes the tests agree
(`left_behind`).
-/

namespace CharmExperiments.Hypercomm

open CharmExperiments.Lib

variable {n : Nat} {E : Type}

namespace Relaxing

/-- After `k` rounds the test has one outcome on all workers, and is true only
within `maxIters`. -/
def Sound (X : Relaxing n E) (k : Nat) : Prop :=
  X.Alike k ∧ ∀ i, X.Test i k → (k : Int) < X.maxIters

variable [DecidableEq E]

/-- Worker `i` has left the loop after `r` rounds: it contributed `r` errors. -/
def LeftAfter (s : WorkgroupArray n (Relaxation E) (Bytes E)) (i : Fin n) (r : Nat) :
    Prop :=
  HasLeft s i ∧ (s.contributed i).countP (fun c => c.cb.refnum = maxErrorId) = r

/-- The workers leave together: those that have left did so after the same number
of rounds, which nobody exceeds and `maxIters` bounds; contributions of one rank
resume one continuation; the root gets the grid of all workers; and when nothing
more can happen, all have left. -/
structure LeaveTogether (X : Relaxing n E)
    (s : WorkgroupArray n (Relaxation E) (Bytes E)) :
    Prop where
  same : ∀ i j r r', LeftAfter s i r → LeftAfter s j r' → r = r'
  ahead : ∀ i j r task, LeftAfter s i r → (s.elements j).tasks X.tid = some task →
    task.self.rounds ≤ r
  bound : ∀ i r, LeftAfter s i r → r ≤ X.maxIters.toNat
  begun : ∀ i task, (s.elements i).tasks X.tid = some task →
    task.self.rounds ≤ X.maxIters.toNat
  continuations : ∀ (k : Nat) i j c d, (s.contributed i)[k]? = some c →
    (s.contributed j)[k]? = some d → c.cb.refnum = d.cb.refnum
  grid : ∀ i, ∀ c ∈ X.calls s i, c.continuation = gridId →
    i.val = 0 ∧ (Relaxation.gridSet c.payload.data).length = n
  leave : s.flight = [] → ¬ s.contributed.Ready s.reductions.length →
    ∃ r, ∀ i, LeftAfter s i r

variable {X : Relaxing n E} {P : Nat → Prop}
variable {u : Solo n (Relaxation E) (Bytes E)} {φ : Fin n → Phase} {i : Fin n}
variable {s : WorkgroupArray n (Relaxation E) (Bytes E)}

section Phases

omit [DecidableEq E]

theorem contributions_errors (i : Fin n) (φ : Phase) :
    (X.contributions i φ).countP (fun c => c.cb.refnum = maxErrorId) = φ.complete := by
  unfold Relaxing.contributions
  rw [List.countP_append, List.countP_replicate,
    if_pos (show decide (X.errorContribution.cb.refnum = maxErrorId) = true from rfl)]
  split <;> rfl

/-- A worker that has left contributed to the grid, after its rounds. -/
theorem leftAfter_iff [DecidableEq E] (hruns : RunsSolo X.behaviours X.message s u)
    (hl : X.Local u φ) {r : Nat} :
    LeftAfter s i r ↔ (φ i).hasLeft = true ∧ (φ i).rounds = r := by
  have hcount : (s.contributed i).countP (fun c => c.cb.refnum = maxErrorId)
      = (φ i).complete := by
    rw [hruns.contributed, hl.contributed, contributions_errors]
  constructor
  · rintro ⟨hleft, hr⟩
    have hphase := hasLeft_phase hruns hl hleft
    exact ⟨hphase, by rw [← Phase.left_complete hphase, ← hcount, hr]⟩
  · rintro ⟨hleft, hr⟩
    refine ⟨⟨X.gridContribution i, ?_, rfl⟩, ?_⟩
    · rw [hruns.contributed, hl.contributed]
      unfold Relaxing.contributions
      rw [hleft]
      exact List.mem_append_right _ List.mem_cons_self
    · rw [hcount, Phase.left_complete hleft, hr]

/-- A task that is there has begun as many rounds as its worker. -/
theorem task_rounds (hruns : RunsSolo X.behaviours X.message s u) (hl : X.Local u φ)
    {task : Task (Relaxation E)} (h : (s.elements i).tasks X.tid = some task) :
    task.self.rounds = (φ i).rounds := by
  have htask := (hruns.holds i).task.symm.trans h
  obtain ⟨t, ht, hif⟩ := Option.bind_eq_some_iff.mp htask
  split at hif
  next =>
    obtain rfl := Option.some.inj hif
    exact (hl.worker i t ht).rounds
  next => cases hif

/-- No round is begun after `maxIters`. -/
theorem rounds_bound (hloop : X.Loop X.Sound u φ) (i : Fin n) :
    (φ i).rounds ≤ X.maxIters.toNat := by
  cases hr : (φ i).rounds with
  | zero => exact Nat.zero_le _
  | succ r =>
    obtain ⟨hcont, htest⟩ := hloop.loop i r (hr ▸ Nat.lt_succ_self r)
    have hlt := (hloop.tests r hcont).2 i htest
    omega

/-- The contributions of one rank are for one continuation. -/
theorem contributions_agree (hl : X.Local u φ) (hloop : X.Loop P u φ)
    (hP : ∀ k, P k → X.Alike k) {k : Nat} {i j : Fin n} {c d : Contribution (Bytes E)}
    (hc : (u.contributed i)[k]? = some c) (hd : (u.contributed j)[k]? = some d) :
    c.cb.refnum = d.cb.refnum := by
  rw [hl.contributed] at hc hd
  have hmixed : ∀ {i j : Fin n}, k < (φ i).complete → (φ j).hasLeft = true →
      (φ j).rounds = k → False := by
    intro i j hi hj hk
    have hmax := left_max hloop hP hj i
    have hle := (φ i).complete_le
    omega
  rcases contribution_cases hc with ⟨hi, rfl⟩ | ⟨hi, hik, rfl⟩
  · rcases contribution_cases hd with ⟨_, rfl⟩ | ⟨hj, hjk, rfl⟩
    · rfl
    · exact (hmixed hi hj hjk).elim
  · rcases contribution_cases hd with ⟨hj, rfl⟩ | ⟨_, _, rfl⟩
    · exact (hmixed hj hi hik).elim
    · rfl

end Phases

/-! ## When nothing more can happen -/

/-- The workers when nothing is in flight: all are constructed, and what they
wait for is not there. -/
structure Quiet (u : Solo n (Relaxation E) (Bytes E)) (φ : Fin n → Phase) : Prop where
  born : ∀ i, φ i ≠ .unborn
  ghosts : ∀ i r got, φ i = .ghosts r got → u.pending i ghostId = []
  error : ∀ i r, φ i = .error r → 0 < r ∧ u.reductions.length < r

theorem quiet_of_flight (hruns : RunsSolo X.behaviours X.message s u)
    (h : X.RoundsInv P u φ) (hflight : s.flight = []) : Quiet u φ := by
  have hborn : ∀ i, ∃ task, u.tasks i = some task := by
    intro i
    have hcreates := hruns.creates i
    rw [hflight] at hcreates
    cases htask : u.tasks i with
    | none =>
      rw [htask] at hcreates
      cases hcreates
    | some task => exact ⟨task, rfl⟩
  have hpending : ∀ i id, u.pending i id = u.queues i id := by
    intro i id
    rw [Solo.pending, ← hruns.flight, hflight]
    rfl
  refine ⟨fun i hφ => ?_, fun i r got hφ => ?_, fun i r hφ => ?_⟩
  · obtain ⟨task, htask⟩ := hborn i
    have hw := h.phases.worker i task htask
    rw [hφ] at hw
    exact hw.waits.elim
  · obtain ⟨task, htask⟩ := hborn i
    have hw := h.phases.worker i task htask
    rw [hφ] at hw
    have hblocked := (hruns.holds i).blocked task htask hw.waits.1
    rw [hw.waits.2.1] at hblocked
    rw [hpending, hblocked]
  · obtain ⟨task, htask⟩ := hborn i
    have hw := h.phases.worker i task htask
    rw [hφ] at hw
    have hblocked := (hruns.holds i).blocked task htask hw.waits.1
    have hpos := hw.waits.2.2.1
    have herrors := h.mail.errors i
    rw [hpending, ← hw.waits.2.1, hblocked, hφ] at herrors
    refine ⟨hpos, ?_⟩
    by_contra hlt
    -- an error that is there to be read would be pending
    have hget : r - 1 < u.reductions.length := by omega
    rw [awaited, List.getElem?_eq_getElem hget] at herrors
    cases herrors

/-- A worker that waits for ghosts is ahead of a neighbour. -/
theorem behind_neighbour (h : X.RoundsInv P u φ) (hq : Quiet u φ) {r got : Nat}
    (hφ : φ i = .ghosts r got) : ∃ j : Fin n, (φ j).rounds < r := by
  by_contra hall
  have hrounds : ∀ j, j < n → r ≤ roundsAt φ j := by
    intro j hj
    rw [roundsAt, dif_pos hj]
    exact Nat.le_of_not_lt fun hlt => hall ⟨⟨j, hj⟩, hlt⟩
  obtain ⟨hpos, hlt⟩ := h.phases.waits hφ
  have hsum := (h.got i).recvd r got hφ
  have hone : ∀ j, Nbr i j → j < n → gotten u i j r = 1 := by
    intro j hnbr hj
    have hcount := h.mail.ghosts i j r
    rw [hq.ghosts i r got hφ, if_pos ⟨hnbr, hpos, hrounds j hj⟩] at hcount
    exact (Nat.zero_add _).symm.trans hcount
  have hleft : 0 < i.val → gotten u i (i.val - 1) r = 1 := fun hi =>
    hone _ (Or.inl (by omega)) (by have := i.isLt; omega)
  have hright : i.val + 1 < n → gotten u i (i.val + 1) r = 1 := hone _ (Or.inr rfl)
  unfold neighbours at hlt
  split at hsum <;> split at hlt <;> split at hlt <;> omega

/-- Nobody waits for ghosts: the neighbour behind would have its error. -/
theorem quiet_ghosts (h : X.RoundsInv P u φ) (hP : ∀ k, P k → X.Alike k) (hq : Quiet u φ)
    {r got : Nat} (hφ : φ i = .ghosts r got) : False := by
  obtain ⟨j, hj⟩ := behind_neighbour h hq hφ
  have hgoes := h.loop.rounds_le i
  rw [hφ] at hgoes
  have hin : (φ j).hasLeft = false := by
    cases hl : (φ j).hasLeft with
    | false => rfl
    | true =>
      have hmax := left_max h.loop hP hl i
      rw [hφ] at hmax
      exact absurd hj (Nat.not_lt_of_le hmax)
  have hready := ready_complete h.phases h.loop hin
  have hle := (φ j).complete_le
  have hrounds : r ≤ u.reductions.length + 1 := hgoes
  cases hφj : φ j with
  | unborn => exact hq.born j hφj
  | ghosts R g =>
    have hpos := (h.phases.waits hφj).1
    rw [hφj] at hready hj
    have h₁ : u.reductions.length ≤ R - 1 := hready
    have h₂ : R < r := hj
    omega
  | error R =>
    have herror := hq.error j R hφj
    rw [hφj] at hj
    have h₁ : R < r := hj
    omega
  | left R | done R =>
    rw [hφj] at hin
    cases hin

/-- Nobody waits for an error, unless its reduction can be formed. -/
theorem quiet_error (h : X.RoundsInv P u φ) (hP : ∀ k, P k → X.Alike k) (hq : Quiet u φ)
    (hready : ¬ u.contributed.Ready u.reductions.length) {r : Nat} (hφ : φ i = .error r) :
    False := by
  obtain ⟨j, hj⟩ := not_forall.mp hready
  rw [h.phases.contributed, contributions_length] at hj
  have hlt := (hq.error i r hφ).2
  have hlen := h.loop.ready j
  rw [h.phases.contributed, contributions_length] at hlen
  cases hl : (φ j).hasLeft with
  | true =>
    have hmax := left_max h.loop hP hl i
    rw [hφ, ← Phase.left_complete hl] at hmax
    rw [hl, if_pos rfl] at hj
    have h₁ : r ≤ (φ j).complete := hmax
    omega
  | false =>
    rw [hl] at hj hlen
    have hcomplete : (φ j).complete = u.reductions.length :=
      Nat.le_antisymm (Nat.le_of_not_lt hj) hlen
    cases hφj : φ j with
    | unborn => exact hq.born j hφj
    | ghosts R g => exact quiet_ghosts h hP hq hφj
    | error R =>
      rw [hφj] at hcomplete
      exact absurd (hq.error j R hφj).2 (Nat.not_lt_of_le (Nat.le_of_eq hcomplete))
    | left R | done R =>
      rw [hφj] at hl
      cases hl

/-- **When nothing more can happen, all workers have left**, after the same
number of rounds. -/
theorem quiet_left (hruns : RunsSolo X.behaviours X.message s u) (h : X.RoundsInv P u φ)
    (hP : ∀ k, P k → X.Alike k) (hflight : s.flight = [])
    (hready : ¬ s.contributed.Ready s.reductions.length) : ∃ r, ∀ i, LeftAfter s i r := by
  have hq := quiet_of_flight hruns h hflight
  rw [hruns.contributed, hruns.reductions] at hready
  have hall : ∀ i, (φ i).hasLeft = true := by
    intro i
    cases hφ : φ i with
    | unborn => exact (hq.born i hφ).elim
    | ghosts r got => exact (quiet_ghosts h hP hq hφ).elim
    | error r => exact (quiet_error h hP hq hready hφ).elim
    | left r | done r => rfl
  refine ⟨(φ X.host).rounds, fun i => (leftAfter_iff hruns h.phases).mpr ⟨hall i, ?_⟩⟩
  exact Nat.le_antisymm (left_max h.loop hP (hall X.host) i)
    (left_max h.loop hP (hall i) X.host)

/-! ## What holds of every run -/

/-- **Where the tests agree, the workers leave together.** In every run in which,
at the start and after every error above the tolerance, the loop test has the
same outcome on all workers and is true only within `maxIters`. -/
theorem leave_together (X : Relaxing n E) (hzero : X.Sound 0)
    {s : WorkgroupArray n (Relaxation E) (Bytes E)}
    (h : X.system.Reachable (OneLaunch (X.Allows X.Sound)) s) : X.LeaveTogether s := by
  have hP : ∀ k, X.Sound k → X.Alike k := fun _ => And.left
  obtain ⟨u, φ, hruns, hinv⟩ := reachable_roundsInv hP hzero h
  have hleft : ∀ {i r}, LeftAfter s i r → (φ i).hasLeft = true ∧ (φ i).rounds = r :=
    fun h => (leftAfter_iff hruns hinv.phases).mp h
  refine ⟨fun i j r r' hi hj => ?_, fun i j r task hi ht => ?_, fun i r hi => ?_,
    fun i task ht => ?_, fun k i j c d hc hd => ?_, fun i c hc hid => ?_,
    quiet_left hruns hinv hP⟩
  · obtain ⟨hli, rfl⟩ := hleft hi
    obtain ⟨hlj, rfl⟩ := hleft hj
    exact Nat.le_antisymm (left_max hinv.loop hP hlj i) (left_max hinv.loop hP hli j)
  · obtain ⟨hli, rfl⟩ := hleft hi
    rw [task_rounds hruns hinv.phases ht]
    exact left_max hinv.loop hP hli j
  · obtain ⟨_, rfl⟩ := hleft hi
    exact rounds_bound hinv.loop i
  · rw [task_rounds hruns hinv.phases ht]
    exact rounds_bound hinv.loop i
  · rw [hruns.contributed] at hc hd
    exact contributions_agree hinv.phases hinv.loop hP hc hd
  · have hcalls : X.calls s i = u.calls i := (hruns.holds i).calls.symm
    rw [hcalls] at hc
    obtain ⟨hzero, values, hdata, hperm⟩ := hinv.log.grid i c hc hid
    refine ⟨hzero, ?_⟩
    rw [hdata]
    exact gridSet_length hperm

/-- Two workers that start alike leave after one round. -/
theorem leave_together_pair :
    ∃ s, (pair fun _ => 0).system.run (launched (pair fun _ => 0))
    pairRun = some s ∧ (∀ i, LeftAfter s i 1) ∧ (pair fun _ => 0).LeaveTogether s := by
  obtain ⟨s, hs, hrefnums⟩ := pairRun_contributed
  have hsound : ∀ k, (pair fun _ => 0).Sound (k + 1) := by
    intro k
    have htest : ∀ i, ¬ (pair fun _ => 0).Test i (k + 1) := by
      intro i h
      have h' : (0 : Int) + (k + 1 : Nat) < 1 := h
      omega
    exact ⟨fun i j => ⟨fun h => (htest i h).elim, fun h => (htest j h).elim⟩,
      fun i h => (htest i h).elim⟩
  refine ⟨s, hs, fun i => ⟨?_, ?_⟩,
    leave_together _ ⟨fun _ _ => Iff.rfl, fun _ _ => Int.one_pos⟩
    (Transition.run_reachable _ (noLaunch_only (fun k _ _ _ _ => hsound k) rfl)
      (.init ⟨_, rfl⟩) hs)⟩
  · exact List.mem_map.mp (hrefnums i ▸ List.mem_cons_of_mem _ List.mem_cons_self)
  · have hcount := List.countP_map (p := fun id => decide (id = maxErrorId))
      (f := fun c : Contribution (Bytes Int) => c.cb.refnum) (l := s.contributed i)
    rw [hrefnums] at hcount
    exact hcount.symm.trans rfl

/-- **Workers that start apart do not leave together.** The memory of worker 1
held 1, so it leaves before the first round; worker 0 begins it and waits for a
ghost that is never sent. -/
theorem left_behind : ∃ s, (pair fun i => i.val).system.Reachable
    (OneLaunch fun _ _ => True) s ∧
    LeftAfter s 1 0 ∧ s.contributed 0 = [] ∧ s.flight = [] ∧
    (∃ task, (s.elements 0).tasks (pair fun i => i.val).tid = some task ∧
      task.self.rounds = 1) ∧
    ¬ (pair fun i => i.val).LeaveTogether s := by
  have hrun : ((pair fun i => i.val).system.run (launched (pair fun i => i.val))
      [.deliver 0 (.create (pair fun i => i.val).message) 3,
        .deliver 1 (.create (pair fun i => i.val).message) 3,
        .deliver 1 (.resumeMessage
          ⟨(pair fun i => i.val).tid, 0, ghostId, .ghost 0 1⟩) 3]).map
      (fun s => ((s.contributed 0).length, s.flight.length,
        (s.contributed 1).map fun c => c.cb.refnum,
        ((s.elements 0).tasks (pair fun i => i.val).tid).map fun task =>
        task.self.rounds))
      = some (0, 0, [gridId], some 1) := by
    decide +kernel
  obtain ⟨s, hs, hshape⟩ := Option.map_eq_some_iff.mp hrun
  obtain ⟨hnone, hshape⟩ := Prod.mk.inj hshape
  obtain ⟨hflight, hshape⟩ := Prod.mk.inj hshape
  obtain ⟨hgrid, htask⟩ := Prod.mk.inj hshape
  obtain ⟨task, htask, hrounds⟩ := Option.map_eq_some_iff.mp htask
  have hleft : LeftAfter s 1 0 := by
    refine ⟨List.mem_map.mp (hgrid ▸ List.mem_cons_self), ?_⟩
    have hcount := List.countP_map (p := fun id => decide (id = maxErrorId))
      (f := fun c : Contribution (Bytes Int) => c.cb.refnum) (l := s.contributed 1)
    rw [hgrid] at hcount
    exact hcount.symm.trans rfl
  refine ⟨s, Transition.run_reachable _ (noLaunch_only (fun _ _ => trivial) rfl)
    (.init ⟨_, rfl⟩) hs, hleft, List.eq_nil_of_length_eq_zero hnone,
    List.eq_nil_of_length_eq_zero hflight, ⟨task, htask, hrounds⟩, fun h => ?_⟩
  have hahead := h.ahead 1 0 0 task hleft htask
  rw [hrounds] at hahead
  exact Nat.not_succ_le_zero 0 hahead

end Relaxing

end CharmExperiments.Hypercomm
