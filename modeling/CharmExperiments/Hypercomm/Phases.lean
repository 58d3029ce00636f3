import CharmExperiments.Hypercomm.Relaxation
import CharmExperiments.Hypercomm.Pending

/-!
# The phases of a relaxation worker

Between two calls a worker waits for ghosts, waits for the error of its round,
or has left the loop (`Phase`). `Worker` says what the task's members are then,
and `Change` which phase follows which, with the payload that was read.
`spec` lemmas say what each function of the task does to the phase; what it asks
of Charm++ depends on the two phases only (`Relaxing.effects`).
-/

namespace CharmExperiments.Hypercomm

open CharmExperiments.Lib

variable {n : Nat} {E : Type}

/-- Where a worker is: not constructed; in a round, with so many ghosts received;
waiting for the error of a round; out of the loop after so many rounds; and, on
the root, with the grid received. -/
inductive Phase
  | unborn
  | ghosts (round got : Nat)
  | error (round : Nat)
  | left (round : Nat)
  | done (round : Nat)
deriving DecidableEq

/-- The rounds begun. -/
def Phase.rounds : Phase → Nat
  | unborn => 0
  | ghosts r _ | error r | left r | done r => r

/-- The rounds in which the worker contributed its error. -/
def Phase.complete : Phase → Nat
  | unborn => 0
  | ghosts r _ => r - 1
  | error r | left r | done r => r

/-- The worker has called `on_converge`. -/
def Phase.hasLeft : Phase → Bool
  | left _ | done _ => true
  | _ => false

theorem Phase.complete_le (φ : Phase) : φ.complete ≤ φ.rounds := by
  cases φ with
  | ghosts r got => exact Nat.sub_le r 1
  | _ => exact Nat.le_refl _

/-- How many neighbours the worker `i` of `n` has. -/
def neighbours (n i : Nat) : Nat :=
  (if 0 < i then 1 else 0) + (if i + 1 < n then 1 else 0)

/-- `j` is next to `i`. -/
def Nbr (i j : Nat) : Prop := j + 1 = i ∨ j = i + 1

instance (i j : Nat) : Decidable (Nbr i j) :=
  inferInstanceAs (Decidable (j + 1 = i ∨ j = i + 1))

theorem neighbours_ne_zero {i j : Nat} (hnbr : Nbr i j) (hj : j < n) :
    neighbours n i ≠ 0 := by
  unfold neighbours
  unfold Nbr at hnbr
  split <;> split <;> omega

namespace Relaxing

variable (X : Relaxing n E)

/-- The loop test of worker `i` after `k` rounds. -/
def Test (i : Fin n) (k : Nat) : Prop := (X.raw i).it + k < X.maxIters

/-- The members that do not change. -/
structure Fixed (i : Fin n) (r : Relaxation E) : Prop where
  hasLeft : r.hasLeft = decide (0 < i.val)
  hasRight : r.hasRight = decide (i.val + 1 < n)
  nNeighbors : r.nNeighbors = neighbours n i
  nWorkers : r.nWorkers = n
  maxIters : r.maxIters = X.maxIters
  tolerance : r.tolerance = X.tolerance

/-- What a constructed task waits for in a phase. -/
def At (i : Fin n) (task : Task (Relaxation E)) : Phase → Prop
  | .unborn => False
  | .ghosts r got => task.active = true ∧ task.continuation = ghostId ∧ 0 < r ∧
      task.self.it = (X.raw i).it + r ∧ task.self.nRecvd = got ∧ got < neighbours n i
  | .error r => task.active = true ∧ task.continuation = maxErrorId ∧ 0 < r ∧
      task.self.it = (X.raw i).it + r
  | .left _ => if i.val = 0 then task.active = true ∧ task.continuation = gridId
      else task.active = false
  | .done _ => task.active = false

/-- The task of a worker in a phase. -/
structure Worker (i : Fin n) (φ : Phase) (task : Task (Relaxation E)) : Prop where
  fixed : X.Fixed i task.self
  rounds : task.self.rounds = φ.rounds
  waits : X.At i task φ

/-- The phase in which a round begins. -/
def going (i : Fin n) (r : Nat) : Phase :=
  if neighbours n i = 0 then .error r else .ghosts r 0

@[simp] theorem going_rounds (i : Fin n) (r : Nat) : (going i r).rounds = r := by
  unfold going
  split <;> rfl

@[simp] theorem going_hasLeft (i : Fin n) (r : Nat) : (going i r).hasLeft = false := by
  unfold going
  split <;> rfl

theorem going_complete (i : Fin n) (r : Nat) :
    (going i (r + 1)).complete = if neighbours n i = 0 then r + 1 else r := by
  unfold going
  split <;> rfl

/-- Which phase follows which, with what the worker read. -/
inductive Change (i : Fin n) : Phase → Phase → Option (Payload (Bytes E)) → Prop
  | start : X.Test i 0 → Change i .unborn (going i 1) none
  | skip : ¬ X.Test i 0 → Change i .unborn (.left 0) none
  | receive {r got : Nat} {p : Payload (Bytes E)} : p.id = ghostId → 0 < r →
      got + 1 < neighbours n i → Change i (.ghosts r got) (.ghosts r (got + 1)) (some p)
  | compute {r got : Nat} {p : Payload (Bytes E)} : p.id = ghostId → 0 < r →
      got + 1 = neighbours n i → Change i (.ghosts r got) (.error r) (some p)
  | again {r : Nat} {e : E} : 0 < r → X.doubles.le e X.tolerance = false → X.Test i r →
      Change i (.error r) (going i (r + 1)) (some ⟨maxErrorId, .error e⟩)
  | leave {r : Nat} {e : E} : 0 < r → X.doubles.le e X.tolerance = true ∨ ¬ X.Test i r →
      Change i (.error r) (.left r) (some ⟨maxErrorId, .error e⟩)
  | finish {r : Nat} {p : Payload (Bytes E)} : p.id = gridId → i.val = 0 →
      Change i (.left r) (.done r) (some p)

/-- The ghosts of a round. -/
def ghostEffects (i : Fin n) (r : Nat) : List (Effect (Bytes E)) :=
  (if 0 < i.val then [.send (i.val - 1) ghostId (.ghost i.val r)] else []) ++
    (if i.val + 1 < n then [.send (i.val + 1) ghostId (.ghost i.val r)] else [])

/-- The all-reduce of `check_and_compute`. -/
def errorEffect : Effect (Bytes E) :=
  .allReduce maxErrorId (.error (X.doubles.twice X.tolerance)) .maxDouble

/-- The reduction of `on_converge`. -/
def gridEffect (i : Fin n) : Effect (Bytes E) :=
  .reduceTo gridId (.index i.val) .set 0

/-- What a worker asks for when it goes from one phase to the next. -/
def effects (i : Fin n) (φ ψ : Phase) : List (Effect (Bytes E)) :=
  (if φ.rounds < ψ.rounds then ghostEffects i ψ.rounds else []) ++
    ((if φ.complete < ψ.complete then [X.errorEffect] else []) ++
      (if !φ.hasLeft && ψ.hasLeft then [gridEffect i] else []))

/-! ## What the functions do -/

section Specs

variable {X} {i : Fin n} {task : Task (Relaxation E)} {r : Nat}

/-- A change of other members keeps these. -/
theorem Fixed.of_eq {r r' : Relaxation E} (h : X.Fixed i r) (h₁ : r'.hasLeft = r.hasLeft)
    (h₂ : r'.hasRight = r.hasRight) (h₃ : r'.nNeighbors = r.nNeighbors)
    (h₄ : r'.nWorkers = r.nWorkers) (h₅ : r'.maxIters = r.maxIters)
    (h₆ : r'.tolerance = r.tolerance) : X.Fixed i r' :=
  ⟨h₁.trans h.hasLeft, h₂.trans h.hasRight, h₃.trans h.nNeighbors, h₄.trans h.nWorkers,
    h₅.trans h.maxIters, h₆.trans h.tolerance⟩

theorem sendGhosts_spec {self : Relaxation E} (h : X.Fixed i self) :
    self.sendGhosts i = ghostEffects i self.rounds := by
  unfold Relaxation.sendGhosts ghostEffects
  rw [h.hasLeft, h.hasRight]
  simp only [decide_eq_true_eq]

theorem checkAndCompute_spec (h : X.Fixed i task.self) :
    Relaxation.checkAndCompute X.doubles task =
      (task.suspend maxErrorId, [X.errorEffect]) := by
  unfold Relaxation.checkAndCompute errorEffect
  rw [h.tolerance]

theorem onConverge_spec (h : X.Fixed i task.self) (hact : task.active = true) :
    X.Worker i (.left task.self.rounds) (Relaxation.onConverge i task).1 ∧
    (Relaxation.onConverge i task).2 = [gridEffect i] := by
  refine ⟨?_, rfl⟩
  unfold Relaxation.onConverge
  by_cases hi : i.val = 0
  · rw [if_pos hi]
    exact ⟨h, rfl, by simp only [At, hi, if_true]; exact ⟨hact, rfl⟩⟩
  · rw [if_neg hi]
    exact ⟨h, rfl, by simp only [At, hi, if_false]; rfl⟩

/-- The loop is entered again, or left. -/
theorem convergeLoop_spec (h : X.Fixed i task.self) (hact : task.active = true)
    (hit : task.self.it = (X.raw i).it + task.self.rounds) :
    (task.self.converged = false ∧ X.Test i task.self.rounds ∧
      X.Worker i (going i (task.self.rounds + 1))
        (Relaxation.convergeLoop X.doubles i task).1 ∧
      (Relaxation.convergeLoop X.doubles i task).2 =
      ghostEffects i (task.self.rounds + 1) ++
        (if neighbours n i = 0 then [X.errorEffect] else [])) ∨
    ((task.self.converged = true ∨ ¬ X.Test i task.self.rounds) ∧
      X.Worker i (.left task.self.rounds) (Relaxation.convergeLoop X.doubles i task).1 ∧
      (Relaxation.convergeLoop X.doubles i task).2 = [gridEffect i]) := by
  unfold Relaxation.convergeLoop
  by_cases hc : task.self.converged = true
  · rw [if_pos hc]
    exact Or.inr ⟨Or.inl hc, onConverge_spec h hact⟩
  · rw [if_neg hc]
    dsimp only
    have htest : task.self.it < task.self.maxIters ↔ X.Test i task.self.rounds := by
      rw [Test, h.maxIters, hit]
    by_cases hagain : task.self.it < task.self.maxIters
    · rw [if_pos hagain]
      refine Or.inl ⟨Bool.eq_false_iff.mpr hc, htest.mp hagain, ?_⟩
      let next : Task (Relaxation E) := { task with self := { task.self with
        it := task.self.it + 1, nRecvd := 0, rounds := task.self.rounds + 1 } }
      have hnext : X.Fixed i next.self := h.of_eq rfl rfl rfl rfl rfl rfl
      have hsent : next.self.sendGhosts i = ghostEffects i (task.self.rounds + 1) :=
        sendGhosts_spec hnext
      have hit' : next.self.it = (X.raw i).it + ((task.self.rounds + 1 : Nat) : Int) := by
        show task.self.it + 1 = _
        omega
      -- a worker with no neighbours computes at once
      by_cases hn : neighbours n i = 0
      · have hn' : task.self.nNeighbors = 0 := by rw [h.nNeighbors, hn]; rfl
        rw [if_pos hn', if_pos hn, checkAndCompute_spec hnext]
        refine ⟨⟨hnext, by rw [going_rounds]; rfl, ?_⟩, by rw [← hsent]⟩
        rw [going, if_pos hn]
        exact ⟨hact, rfl, Nat.succ_pos _, hit'⟩
      · have hn' : task.self.nNeighbors ≠ 0 := by rw [h.nNeighbors]; omega
        rw [if_neg hn', if_neg hn]
        refine ⟨⟨hnext, by rw [going_rounds]; rfl, ?_⟩, by rw [← hsent, List.append_nil]⟩
        rw [going, if_neg hn]
        exact ⟨hact, rfl, Nat.succ_pos _, hit', rfl, by omega⟩
    · rw [if_neg hagain]
      -- `it++` is done although the test fails
      refine Or.inr ⟨Or.inr fun ht => hagain (htest.mpr ht), ?_⟩
      let last : Task (Relaxation E) :=
        { task with self := { task.self with it := task.self.it + 1 } }
      have hlast : X.Fixed i last.self := h.of_eq rfl rfl rfl rfl rfl rfl
      exact onConverge_spec hlast hact

theorem effects_going (φ : Phase) (hr : φ.rounds = r) (hc : φ.complete = r) :
    X.effects i φ (going i (r + 1))
      = ghostEffects i (r + 1) ++ (if neighbours n i = 0 then [X.errorEffect]
        else []) := by
  unfold effects
  rw [going_rounds, going_complete, going_hasLeft, hr, hc, if_pos (Nat.lt_succ_self r)]
  by_cases hn : neighbours n i = 0
  · simp [hn]
  · simp [hn]

theorem effects_leave (φ : Phase) (hr : φ.rounds = r) (hc : φ.complete = r)
    (hl : φ.hasLeft = false) : X.effects i φ (.left r) = [gridEffect i] := by
  unfold effects
  rw [hr, hc, hl, show (Phase.left r).rounds = r from rfl,
    show (Phase.left r).complete = r from rfl, if_neg (Nat.lt_irrefl r),
      if_neg (Nat.lt_irrefl r)]
  rfl

/-- The constructor: a first round, or none. -/
theorem creator_spec (X : Relaxing n E) (i : Fin n) : ∃ ψ, X.Change i .unborn ψ none ∧
    X.Worker i ψ ((X.behaviours i).creator 0 ⟨0, X.args⟩).1 ∧
    ((X.behaviours i).creator 0 ⟨0, X.args⟩).2 = X.effects i .unborn ψ := by
  have hright : ((i.val : Int) + 1 < n) = (i.val + 1 < n) := by
    rw [eq_iff_iff]
    omega
  have hfixed :
      X.Fixed i (Relaxation.constructed X.doubles i (X.raw i) 0 X.args).self := by
    refine ⟨rfl, ?_, ?_, rfl, rfl, rfl⟩
    · simp only [Relaxation.constructed, args, Relaxation.unpack, hright]
    · simp only [Relaxation.constructed, args, Relaxation.unpack, hright, neighbours,
        decide_eq_true_eq]
      split <;> split <;> rfl
  rcases convergeLoop_spec hfixed rfl (by exact (Int.add_zero _).symm) with
    ⟨_, htest, hworker, heff⟩ | ⟨hstop, hworker, heff⟩
  · exact ⟨going i 1, .start htest, hworker,
      heff.trans (effects_going .unborn rfl rfl).symm⟩
  · refine ⟨.left 0, .skip ?_, hworker,
      heff.trans (effects_leave .unborn rfl rfl rfl).symm⟩
    rcases hstop with hc | htest
    · cases hc
    · exact htest

/-- `receive_ghost`: one more, or the last. -/
theorem receiveGhost_spec {got : Nat} (h : X.Worker i (.ghosts r got) task)
    {p : Payload (Bytes E)} (hp : p.id = ghostId) :
    ∃ ψ, X.Change i (.ghosts r got) ψ (some p) ∧
    X.Worker i ψ (Relaxation.receiveGhost X.doubles task).1 ∧
    (Relaxation.receiveGhost X.doubles task).2 = X.effects i (.ghosts r got) ψ := by
  obtain ⟨hact, _, hpos, hit, hgot, hlt⟩ := h.waits
  let next : Task (Relaxation E) :=
    { task with self := { task.self with nRecvd := task.self.nRecvd + 1 } }
  have hnext : X.Fixed i next.self := h.fixed.of_eq rfl rfl rfl rfl rfl rfl
  have hrecvd : next.self.nRecvd = (got + 1 : Nat) := by
    show task.self.nRecvd + 1 = _
    omega
  have hn : next.self.nNeighbors = neighbours n i := hnext.nNeighbors
  unfold Relaxation.receiveGhost
  by_cases hall : got + 1 < neighbours n i
  · have hmore : ¬ next.self.nRecvd ≥ next.self.nNeighbors := by omega
    refine ⟨.ghosts r (got + 1), .receive hp hpos hall, ?_⟩
    rw [if_neg hmore]
    refine ⟨⟨hnext, h.rounds, hact, rfl, hpos, hit, hrecvd, hall⟩, ?_⟩
    simp [effects, Phase.rounds, Phase.complete, Phase.hasLeft]
  · have hlast : next.self.nRecvd ≥ next.self.nNeighbors := by omega
    refine ⟨.error r, .compute hp hpos (by omega), ?_⟩
    rw [if_pos hlast, checkAndCompute_spec hnext]
    refine ⟨⟨hnext, h.rounds, hact, rfl, hpos, hit⟩, ?_⟩
    have hcomplete : r - 1 < r := by omega
    simp [effects, Phase.rounds, Phase.complete, Phase.hasLeft, hcomplete]

/-- `receive_max_error`: the next round, or out of the loop. -/
theorem receiveMaxError_spec (h : X.Worker i (.error r) task) (e : E) :
    ∃ ψ, X.Change i (.error r) ψ (some ⟨maxErrorId, .error e⟩) ∧
    X.Worker i ψ (Relaxation.receiveMaxError X.doubles i task (.error e)).1 ∧
    (Relaxation.receiveMaxError X.doubles i task (.error e)).2 =
    X.effects i (.error r) ψ := by
  obtain ⟨hact, _, hpos, hit⟩ := h.waits
  let next : Task (Relaxation E) := { task with self := { task.self with
    converged := X.doubles.le e task.self.tolerance } }
  have hnext : X.Fixed i next.self := h.fixed.of_eq rfl rfl rfl rfl rfl rfl
  have hrounds : next.self.rounds = r := h.rounds
  have hconverged : next.self.converged = X.doubles.le e X.tolerance := by
    show X.doubles.le e task.self.tolerance = _
    rw [h.fixed.tolerance]
  have hloop := convergeLoop_spec hnext hact (by rw [hrounds]; exact hit)
  rw [hrounds, hconverged] at hloop
  rcases hloop with ⟨hgo, htest, hworker, heff⟩ | ⟨hstop, hworker, heff⟩
  · exact ⟨going i (r + 1), .again hpos hgo htest, hworker,
      heff.trans (effects_going (.error r) rfl rfl).symm⟩
  · exact ⟨.left r, .leave hpos hstop, hworker,
      heff.trans (effects_leave (.error r) rfl rfl rfl).symm⟩

/-- The indices of all workers make a set of `n` elements. -/
theorem gridSet_length {values : List Nat} (h : values.Perm (List.range n)) :
    (Relaxation.gridSet (E := E) (.set values)).length = n := by
  show values.dedup.length = n
  rw [List.Nodup.dedup (h.nodup_iff.mpr List.nodup_range), h.length_eq, List.length_range]

/-- `receive_grid` of all indices ends the task. -/
theorem receiveGrid_spec (h : X.Worker i (.left r) task) (hi : i.val = 0)
    {p : Payload (Bytes E)} (hp : p.id = gridId) {values : List Nat}
    (hdata : p.data = .set values) (hperm : values.Perm (List.range n)) :
    X.Change i (.left r) (.done r) (some p) ∧
    X.Worker i (.done r) (Relaxation.receiveGrid task p.data).1 ∧
    (Relaxation.receiveGrid task p.data).2 = X.effects i (.left r) (.done r) := by
  have hvalid : task.self.nWorkers = (Relaxation.gridSet p.data).length := by
    rw [hdata, gridSet_length hperm, h.fixed.nWorkers]
  unfold Relaxation.receiveGrid
  rw [if_pos hvalid]
  refine ⟨.finish hp hi, ⟨h.fixed, h.rounds, rfl⟩, ?_⟩
  simp [effects, Phase.rounds, Phase.complete, Phase.hasLeft]

end Specs

end Relaxing

end CharmExperiments.Hypercomm
