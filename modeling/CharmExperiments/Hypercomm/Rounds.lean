import CharmExperiments.Hypercomm.Phases

/-!
# Rounds of the relaxation do not mix

The all-reduce of a round is a barrier: a worker begins round `k + 1` only when
the `k`-th result exists, so when every worker has contributed `k` times. Hence a
worker that still waits for ghosts of round `r` has no neighbour beyond round
`r` (`barrier`), and a ghost carries no number but can only be of that round.

The invariant has four parts over a phase per worker. `Local` ties phases to the
state. `Loop` is the agreement on who goes on: all workers test alike (`P`), so
contributions of one rank are all errors or all for the grid. `Mail` accounts
for the payloads on their way, `Got` for the ghosts received, and `Log` is what
is claimed of the calls. What one step of a worker does is `Move`; each part has
a lemma for a move, an arrival and a reduction.
-/

namespace CharmExperiments.Hypercomm

open CharmExperiments.Lib

variable {n : Nat} {E : Type}

/-- The call received the ghost `j` sent in round `r`. -/
def isGhost [DecidableEq E] (j r : Nat) (c : Call (Relaxation E) (Bytes E)) : Bool :=
  c.continuation = ghostId ∧ c.payload.data = .ghost j r

/-- The call ran `check_and_compute`: it contributed to the error. -/
def Computes {σ δ : Type} (c : Call σ δ) : Prop :=
  ∃ data type cb, Effect.reduce data type cb ∈ c.effects ∧ cb.refnum = maxErrorId

/-- The rounds begun by the worker with index `j`. -/
def roundsAt (φ : Fin n → Phase) (j : Nat) : Nat :=
  if h : j < n then (φ ⟨j, h⟩).rounds else 0

namespace Relaxing

variable (X : Relaxing n E)

/-- The id of the task. -/
abbrev tid : TaskId := X.message.tid

/-- What a worker contributes in a round. -/
def errorContribution : Contribution (Bytes E) :=
  ⟨X.tid, X.tid, .maxDouble, .error (X.doubles.twice X.tolerance), ⟨none, maxErrorId⟩⟩

/-- What a worker contributes to the grid. -/
def gridContribution (i : Fin n) : Contribution (Bytes E) :=
  ⟨X.tid, X.tid, .set, .index i, ⟨some 0, gridId⟩⟩

/-- The contributions of a worker in a phase. -/
def contributions (i : Fin n) (φ : Phase) : List (Contribution (Bytes E)) :=
  List.replicate φ.complete X.errorContribution ++
    (if φ.hasLeft then [X.gridContribution i] else [])

/-- The contributions of a worker between two phases. -/
def newContributions (i : Fin n) (φ ψ : Phase) : List (Contribution (Bytes E)) :=
  (if φ.complete < ψ.complete then [X.errorContribution] else []) ++
    (if !φ.hasLeft && ψ.hasLeft then [X.gridContribution i] else [])

/-- What a worker sends to the worker `q` between two phases. -/
def sentTo (i q : Fin n) (φ ψ : Phase) (id : ContinuationId) : List (Payload (Bytes E)) :=
  if φ.rounds < ψ.rounds ∧ id = ghostId ∧ Nbr q i then [⟨ghostId, .ghost i ψ.rounds⟩]
  else []

/-- What a worker reads from a queue. -/
def readBy (i q : Fin n) (p : Option (Payload (Bytes E))) (id : ContinuationId) :
    List (Payload (Bytes E)) :=
  if q = i then (p.filter fun p => p.id = id).toList else []

/-- The call a payload was read in. -/
def CallOf (φ ψ : Phase) (p : Option (Payload (Bytes E)))
    (cs : List (Call (Relaxation E) (Bytes E))) : Prop :=
  match p with
  | none => cs = []
  | some p => ∃ c, cs = [c] ∧ c.continuation = p.id ∧ c.payload = p ∧
      c.before.self.rounds = φ.rounds ∧ c.after.self.rounds = ψ.rounds ∧
      (Computes c → φ.complete < ψ.complete)

/-- Worker `i` goes from phase `φ` to phase `ψ`, reading `p`. -/
structure Move (u u' : Solo n (Relaxation E) (Bytes E)) (i : Fin n) (φ ψ : Phase)
    (p : Option (Payload (Bytes E))) : Prop where
  change : X.Change i φ ψ p
  task : ∃ task, u'.tasks = Function.update u.tasks i (some task) ∧ X.Worker i ψ task
  contributed : u'.contributed = u.contributed.extend i (X.newContributions i φ ψ)
  reductions : u'.reductions = u.reductions
  calls : ∃ cs, u'.calls = Function.update u.calls i (u.calls i ++ cs) ∧ CallOf φ ψ p cs
  pending : ∀ q id, (u.pending q id ++ sentTo i q φ ψ id).Perm
    (readBy i q p id ++ u'.pending q id)
  queued : ∀ q id, ∀ x ∈ u'.queues q id, x ∈ u.queues q id
  creates : ∀ q msg, (q, Entry.create msg) ∈ u'.flight → (q, Entry.create msg) ∈ u.flight
  inside : ∀ x ∈ u'.flight, x ∈ u.flight ∨ x.1 < n

/-! ## The state of the workers -/

/-- Phases and state agree. -/
structure Local (u : Solo n (Relaxation E) (Bytes E)) (φ : Fin n → Phase) : Prop where
  unborn : ∀ i, u.tasks i = none → φ i = .unborn
  worker : ∀ i task, u.tasks i = some task → X.Worker i (φ i) task
  contributed : ∀ i, u.contributed i = X.contributions i (φ i)
  keyed : ∀ i id, ∀ p ∈ u.queues i id, p.id = id
  creates : ∀ i msg, (i, Entry.create msg) ∈ u.flight → msg = X.message
  inside : ∀ x ∈ u.flight, x.1 < n

/-- After `k` results the error is still above the tolerance. -/
def Continues (rs : List (ReductionMsg (Bytes E))) : Nat → Prop
  | 0 => True
  | k + 1 => ∃ msg e, rs[k]? = some msg ∧ msg.results.2 = .error e ∧
      X.doubles.le e X.tolerance = false

/-- Worker `i` goes round again after `k` results. -/
def Goes (rs : List (ReductionMsg (Bytes E))) (i : Fin n) (k : Nat) : Prop :=
  X.Continues rs k ∧ X.Test i k

/-- The result of an all-reduce of errors. -/
def errorResult (e : E) : ReductionMsg (Bytes E) := ⟨maxErrorId, X.tid, .error e⟩

/-- The result of the reduction to the grid. -/
def gridResult (values : List Nat) : ReductionMsg (Bytes E) :=
  ⟨gridId, X.tid, .set values⟩

/-- Who goes on, and what the reductions combine. -/
structure Loop (P : Nat → Prop) (u : Solo n (Relaxation E) (Bytes E))
    (φ : Fin n → Phase) :
    Prop where
  tests : ∀ k, X.Continues u.reductions k → P k
  loop : ∀ i k, k < (φ i).rounds → X.Goes u.reductions i k
  stop : ∀ i, (φ i).hasLeft = true → (φ i).rounds ≤ u.reductions.length ∧
    ¬ X.Goes u.reductions i (φ i).rounds
  ready : ∀ i, u.reductions.length ≤ (u.contributed i).length
  results : ∀ (k : Nat) msg, u.reductions[k]? = some msg →
    (∃ e, msg = X.errorResult e ∧ ∀ i, k < (φ i).complete) ∨
    (∃ values, msg = X.gridResult values ∧ values.Perm (List.range n) ∧
      ∀ i, (φ i).hasLeft = true ∧ (φ i).rounds = k)

/-- The error result a worker waits for, if it exists. -/
def awaited (rs : List (ReductionMsg (Bytes E))) : Phase → List (Payload (Bytes E))
  | .error r => (rs[r - 1]?.map fun msg => ⟨msg.refnum, msg.results.2⟩).toList
  | _ => []

variable [DecidableEq E]

/-- How often worker `i` received the ghost `j` sent in round `r`. -/
def gotten (u : Solo n (Relaxation E) (Bytes E)) (i : Fin n) (j r : Nat) : Nat :=
  (u.calls i).countP (isGhost j r)

/-- The payloads on their way. -/
structure Mail (u : Solo n (Relaxation E) (Bytes E)) (φ : Fin n → Phase) : Prop where
  errors : ∀ i, u.pending i maxErrorId = awaited u.reductions (φ i)
  grids : ∀ i, ∀ p ∈ u.pending i gridId, ∃ values, p = ⟨gridId, .set values⟩ ∧
    values.Perm (List.range n)
  onlyGhosts : ∀ i, ∀ p ∈ u.pending i ghostId, ∃ j r, p = ⟨ghostId, .ghost j r⟩
  ghosts : ∀ i j r, (u.pending i ghostId).count ⟨ghostId, .ghost j r⟩ + gotten u i j r
    = if Nbr i j ∧ 0 < r ∧ r ≤ roundsAt φ j then 1 else 0

/-- The ghosts worker `i` received, `g j r` times that of `j` in round `r`: all of
the rounds complete, none of the rounds to come, and in the round under way as
many as were counted. -/
structure GotAt (i : Fin n) (g : Nat → Nat → Nat) (φ : Phase) : Prop where
  old : ∀ j r, Nbr i j → j < n → 0 < r → r ≤ φ.complete → g j r = 1
  new : ∀ j r, φ.rounds < r → g j r = 0
  recvd : ∀ r got, φ = .ghosts r got →
    got = (if 0 < i.val then g (i.val - 1) r else 0) + g (i.val + 1) r

/-- The ghosts received by all. -/
def Got (u : Solo n (Relaxation E) (Bytes E)) (φ : Fin n → Phase) : Prop :=
  ∀ i, GotAt i (gotten u i) (φ i)

/-- What is claimed of the calls. -/
structure Log (u : Solo n (Relaxation E) (Bytes E)) : Prop where
  ghost : ∀ i, ∀ c ∈ u.calls i, c.continuation = ghostId →
    ∃ j, Nbr i j ∧ j < n ∧ c.payload.data = .ghost j c.before.self.rounds
  check : ∀ i pre c post, u.calls i = pre ++ c :: post → Computes c →
    ∀ j, Nbr i j → j < n → (pre ++ [c]).countP (isGhost j c.after.self.rounds) = 1
  grid : ∀ i, ∀ c ∈ u.calls i, c.continuation = gridId →
    i.val = 0 ∧ ∃ values, c.payload.data = .set values ∧ values.Perm (List.range n)

/-! ## One step of a worker -/

section Moves

omit [DecidableEq E]

variable {X}

theorem effects_contributions (i : Fin n) (φ ψ : Phase) :
    ((X.effects i φ ψ).map fun effect =>
      (⟨X.tid, X.tid, effect⟩ : Issued (Bytes E))).filterMap
      Issued.contribution = X.newContributions i φ ψ := by
  have hghosts : ∀ r, ((ghostEffects i r).map fun effect =>
      (⟨X.tid, X.tid, effect⟩ : Issued (Bytes E))).filterMap Issued.contribution =
        [] := by
    intro r
    unfold ghostEffects
    split <;> split <;> rfl
  unfold effects newContributions
  rw [List.map_append, List.map_append, List.filterMap_append, List.filterMap_append]
  have hfirst :
    ((if φ.rounds < ψ.rounds then ghostEffects i ψ.rounds else []).map fun effect =>
      (⟨X.tid, X.tid, effect⟩ : Issued (Bytes E))).filterMap Issued.contribution =
        [] := by
    split
    · exact hghosts _
    · rfl
  rw [hfirst, List.nil_append]
  congr 1
  · split <;> rfl
  · split <;> rfl

/-- One ghost, as it arrives. -/
theorem ghost_mail (i q : Fin n) (r j : Nat) (id : ContinuationId) (c : Prop)
    [Decidable c] :
    mail q id (((if c then [(.send j ghostId (.ghost i.val r) : Effect (Bytes E))]
      else []).map
      fun effect => (⟨X.tid, X.tid, effect⟩ : Issued (Bytes E))).flatMap
        (Issued.messages n))
      = if c ∧ j = q.val ∧ ghostId = id then [⟨ghostId, .ghost i r⟩] else [] := by
  by_cases hc : c
  · have hsingle := mail_single q.val id
      (x := (j, .resumeMessage ⟨X.tid, 0, ghostId, (.ghost i r : Bytes E)⟩)) rfl
    rw [if_pos hc]
    simp only [hc, true_and]
    exact hsingle
  · rw [if_neg hc, if_neg fun h => hc h.1]
    rfl

/-- The ghosts of a round, as they arrive. -/
theorem ghostEffects_mail (i q : Fin n) (r : Nat) (id : ContinuationId) :
    mail q id (((ghostEffects i r).map fun effect =>
      (⟨X.tid, X.tid, effect⟩ : Issued (Bytes E))).flatMap (Issued.messages n))
      = if id = ghostId ∧ Nbr q i then [⟨ghostId, (.ghost i r : Bytes E)⟩] else [] := by
  have hq := q.isLt
  unfold ghostEffects
  rw [List.map_append, List.flatMap_append, mail_append, ghost_mail, ghost_mail]
  unfold Nbr
  by_cases hid : id = ghostId
  · subst hid
    -- at most one of the two is for `q`
    by_cases hleft : q.val + 1 = i.val
    · rw [if_pos ⟨by omega, by omega, rfl⟩, if_neg (by omega),
        if_pos ⟨rfl, Or.inr hleft.symm⟩]
      rfl
    · rw [if_neg (by omega), List.nil_append]
      by_cases hright : i.val + 1 = q.val
      · rw [if_pos ⟨by omega, hright, rfl⟩, if_pos ⟨rfl, Or.inl hright⟩]
      · rw [if_neg (by omega), if_neg (by omega)]
  · rw [if_neg fun h => hid h.2.2.symm, if_neg fun h => hid h.2.2.symm,
      if_neg fun h => hid h.1]
    rfl

theorem effects_inside (i : Fin n) (φ ψ : Phase) :
    ∀ x ∈ ((X.effects i φ ψ).map fun effect =>
    (⟨X.tid, X.tid, effect⟩ : Issued (Bytes E))).flatMap
      (Issued.messages n), x.1 < n := by
  intro x hx
  obtain ⟨_, hmem, hx⟩ := List.mem_flatMap.mp hx
  obtain ⟨effect, heffect, rfl⟩ := List.mem_map.mp hmem
  have hi := i.isLt
  unfold effects ghostEffects at heffect
  simp only [List.mem_append] at heffect
  rcases heffect with hghost | herror | hgrid
  · -- only ghosts are messages: one for each neighbour there is
    split at hghost
    next =>
      rcases List.mem_append.mp hghost with hghost | hghost
      · split at hghost
        next =>
          obtain rfl := List.mem_singleton.mp hghost
          rw [List.mem_singleton.mp hx]
          exact Nat.lt_of_le_of_lt (Nat.sub_le _ _) hi
        next => cases hghost
      · split at hghost
        next hlt =>
          obtain rfl := List.mem_singleton.mp hghost
          rw [List.mem_singleton.mp hx]
          exact hlt
        next => cases hghost
    next => cases hghost
  · split at herror
    next =>
      obtain rfl := List.mem_singleton.mp herror
      cases hx
    next => cases herror
  · split at hgrid
    next =>
      obtain rfl := List.mem_singleton.mp hgrid
      cases hx
    next => cases hgrid

/-- A contribution is no message. -/
theorem reduce_mail (q : Fin n) (id : ContinuationId) (c : Prop) [Decidable c]
    {effect : Effect (Bytes E)}
    (h : Issued.messages n (⟨X.tid, X.tid, effect⟩ : Issued (Bytes E)) = []) :
    mail q id (((if c then [effect] else []).map fun effect =>
      (⟨X.tid, X.tid, effect⟩ : Issued (Bytes E))).flatMap (Issued.messages n)) = [] := by
  split
  · rw [List.map_singleton, List.flatMap_singleton, h, mail_nil]
  · exact mail_nil ..

theorem effects_mail (i q : Fin n) (φ ψ : Phase) (id : ContinuationId) :
    mail q id (((X.effects i φ ψ).map fun effect =>
      (⟨X.tid, X.tid, effect⟩ : Issued (Bytes E))).flatMap (Issued.messages n))
      = sentTo i q φ ψ id := by
  unfold effects sentTo
  rw [List.map_append, List.map_append, List.flatMap_append,
    List.flatMap_append, mail_append, mail_append]
  rw [reduce_mail q id _ rfl, reduce_mail q id _ rfl, List.append_nil, List.append_nil]
  by_cases hr : φ.rounds < ψ.rounds
  · rw [if_pos hr, ghostEffects_mail]
    simp only [hr, true_and]
  · rw [if_neg hr, if_neg fun h => hr h.1]
    rfl

/-! ## What a change does to the counts -/

variable {i : Fin n} {φ ψ : Phase} {p : Option (Payload (Bytes E))}

theorem Change.complete_le (h : X.Change i φ ψ p) : φ.complete ≤ ψ.complete := by
  cases h with
  | start => exact Nat.zero_le _
  | skip => exact Nat.le_refl _
  | receive => exact Nat.le_refl _
  | compute => exact Nat.sub_le _ _
  | again => rw [going_complete]; split <;> simp [Phase.complete]
  | leave => exact Nat.le_refl _
  | finish => exact Nat.le_refl _

/-- At most one round is begun. -/
theorem Change.rounds (h : X.Change i φ ψ p) :
    ψ.rounds = φ.rounds ∨ ψ.rounds = φ.rounds + 1 ∧ ψ = going i (φ.rounds + 1) ∧
      φ.complete = φ.rounds := by
  cases h with
  | start => exact Or.inr ⟨going_rounds .., rfl, rfl⟩
  | skip => exact Or.inl rfl
  | receive => exact Or.inl rfl
  | compute => exact Or.inl rfl
  | again => exact Or.inr ⟨going_rounds .., rfl, rfl⟩
  | leave => exact Or.inl rfl
  | finish => exact Or.inl rfl

theorem Change.hasLeft (h : X.Change i φ ψ p) (hl : φ.hasLeft = true) :
    ψ.hasLeft = true ∧ ψ.rounds = φ.rounds ∧ ψ.complete = φ.complete := by
  cases h with
  | finish => exact ⟨rfl, rfl, rfl⟩
  | _ => cases hl

theorem going_computed {i : Fin n} {r : Nat} (hc : r < (going i (r + 1)).complete) :
    going i (r + 1) = .error (r + 1) := by
  unfold going
  rw [going_complete] at hc
  split at hc
  next hn => rw [if_pos hn]
  next => omega

/-- A worker that contributes to the error waits for it. -/
theorem Change.computed (h : X.Change i φ ψ p) (hc : φ.complete < ψ.complete) :
    ψ = .error (φ.complete + 1) := by
  cases h with
  | start => exact going_computed hc
  | skip => exact absurd hc (Nat.lt_irrefl _)
  | receive => exact absurd hc (Nat.lt_irrefl _)
  | compute _ hr => rw [Phase.complete, Nat.sub_add_cancel hr]
  | again => exact going_computed hc
  | leave => exact absurd hc (Nat.lt_irrefl _)
  | finish => exact absurd hc (Nat.lt_irrefl _)

/-- What is contributed is added to what was. -/
theorem Change.contributions (h : X.Change i φ ψ p) :
    X.contributions i φ ++ X.newContributions i φ ψ = X.contributions i ψ := by
  unfold Relaxing.contributions newContributions
  by_cases hc : φ.complete < ψ.complete
  · obtain rfl := h.computed hc
    have hl : φ.hasLeft = false := by
      cases hl : φ.hasLeft with
      | false => rfl
      | true => exact absurd (h.hasLeft hl).1 (by simp [Phase.hasLeft])
    rw [if_pos hc, hl]
    simp [Phase.complete, Phase.hasLeft, List.replicate_succ']
  · have heq : ψ.complete = φ.complete :=
      Nat.le_antisymm (Nat.le_of_not_lt hc) h.complete_le
    rw [if_neg hc, heq]
    cases hl : φ.hasLeft with
    | true => simp [(h.hasLeft hl).1]
    | false => simp

/-- Contributing to the error shows in the phase. -/
theorem reduce_effects {data : Bytes E} {type : ReducerType} {cb : Callback}
    (hmem : .reduce data type cb ∈ X.effects i φ ψ) (hcb : cb.refnum = maxErrorId) :
    φ.complete < ψ.complete := by
  unfold effects at hmem
  rcases List.mem_append.mp hmem with hmem | hmem
  · split at hmem
    next =>
      unfold ghostEffects at hmem
      rcases List.mem_append.mp hmem with hmem | hmem
      · split at hmem
        next => cases List.mem_singleton.mp hmem
        next => cases hmem
      · split at hmem
        next => cases List.mem_singleton.mp hmem
        next => cases hmem
    next => cases hmem
  · rcases List.mem_append.mp hmem with hmem | hmem
    · split at hmem
      next hlt => exact hlt
      next => cases hmem
    · split at hmem
      next =>
        cases List.mem_singleton.mp hmem
        cases hcb
      next => cases hmem

theorem computes_effects {c : Call (Relaxation E) (Bytes E)}
    (heff : c.effects = X.effects i φ ψ) (hc : Computes c) : φ.complete < ψ.complete := by
  obtain ⟨data, type, cb, hmem, hcb⟩ := hc
  exact reduce_effects (heff ▸ hmem) hcb

end Moves

section Steps

variable {X} {u : Solo n (Relaxation E) (Bytes E)} {φ : Fin n → Phase} {i : Fin n}

omit [DecidableEq E] in
/-- What user code sends constructs nothing. -/
theorem create_notMem_messages (q : Nat) (msg : TaskMessage (Bytes E))
    (xs : List (Issued (Bytes E))) :
    (q, Entry.create msg) ∉ xs.flatMap (Issued.messages n) := by
  intro hmem
  obtain ⟨x, _, hm⟩ := List.mem_flatMap.mp hmem
  unfold Issued.messages at hm
  split at hm
  next => cases List.mem_singleton.mp hm
  next =>
    obtain ⟨_, _, heq⟩ := List.mem_map.mp hm
    cases heq
  next => cases hm

/-- The constructor begins the first round, or leaves. -/
theorem create_move (hl : X.Local u φ) {msg : TaskMessage (Bytes E)}
    (hmem : (i.val, .create msg) ∈ u.flight) (hnone : u.tasks i = none) :
    ∃ ψ, X.Move u (Solo.construct X.behaviours X.tid
      { u with flight := u.flight.erase (i.val, .create msg) } i msg.kind
      ⟨msg.refnum, msg.data⟩) i (φ i) ψ none := by
  obtain ⟨ψ, hchange, hworker, heff⟩ := creator_spec X i
  have hpending := fun q id => pending_construct X.behaviours X.tid hmem q id
  rw [hl.unborn i hnone]
  obtain rfl := hl.creates i msg hmem
  refine ⟨ψ, hchange, ⟨_, rfl, hworker⟩, ?_, rfl, ⟨[], ?_, rfl⟩, fun q id =>
    ?_, ?_, ?_, ?_⟩
  · show Contributions.extend _ i _ = _
    rw [← effects_contributions, ← heff]
    rfl
  · rw [List.append_nil, Function.update_eq_self]
    rfl
  · have hp := hpending q id
    rw [show X.message.kind = 0 from rfl, show X.message.refnum = 0 from rfl,
      show X.message.data = X.args from rfl, heff, effects_mail] at hp
    unfold readBy
    -- a creator reads no payload
    rw [show (none : Option (Payload (Bytes E))).filter (fun p => p.id = id) =
      none from rfl, Option.toList_none, ite_self, List.nil_append]
    exact hp
  · exact fun q id x hx => hx
  · intro q msg' hx
    rcases List.mem_append.mp hx with hx | hx
    · exact List.mem_of_mem_erase hx
    · exact (create_notMem_messages q msg' _ hx).elim
  · intro x hx
    rcases List.mem_append.mp hx with hx | hx
    · exact Or.inl (List.mem_of_mem_erase hx)
    · have hx' : x ∈ (((X.behaviours i).creator 0 ⟨0, X.args⟩).2.map fun effect =>
          (⟨X.tid, X.tid, effect⟩ : Issued (Bytes E))).flatMap (Issued.messages n) := hx
      rw [heff] at hx'
      exact Or.inr (effects_inside i _ _ x hx')

omit [DecidableEq E] in
/-- A read, once it is known what the continuation does. -/
theorem read_move_of {task : Task (Relaxation E)} {payload : Payload (Bytes E)}
    {rest : List (Payload (Bytes E))}
    (hq : u.queues i task.continuation = payload :: rest)
    (hl : X.Local u φ) (htask : u.tasks i = some task) {ψ : Phase}
    (h : X.Change i (φ i) ψ (some payload) ∧
      X.Worker i ψ ((X.behaviours i).continuation task.continuation task payload).1 ∧
      ((X.behaviours i).continuation task.continuation task payload).2 =
      X.effects i (φ i) ψ) :
    X.Move u (u.read X.behaviours X.tid i task payload rest) i (φ i) ψ
      (some payload) := by
  obtain ⟨hchange, hworker, heff⟩ := h
  have hkey : payload.id = task.continuation :=
    hl.keyed i _ payload (hq ▸ List.mem_cons_self)
  have hissued : (Solo.callOf (X.behaviours i) X.tid task payload).issued
      = (X.effects i (φ i) ψ).map fun effect => ⟨X.tid, X.tid, effect⟩ := by
    rw [← heff]
    rfl
  refine ⟨hchange, ⟨_, rfl, hworker⟩, ?_, rfl,
    ⟨_, rfl, _, rfl, hkey.symm, rfl, (hl.worker i task htask).rounds, hworker.rounds,
      computes_effects heff⟩, fun q id => ?_, fun q id x hx => ?_, fun q msg hx => ?_,
    fun x hx => ?_⟩
  · show Contributions.extend _ i _ = _
    rw [hissued, effects_contributions]
  · have hp := pending_read X.behaviours X.tid hq q id
    rw [hissued, effects_mail] at hp
    refine hp.trans (List.Perm.of_eq (congrArg (· ++ _) ?_))
    unfold readBy
    rw [Option.filter_some, hkey]
    by_cases hqi : q = i
    · by_cases hid : task.continuation = id
      · simp [hqi, hid]
      · simp [hqi, hid, Ne.symm hid]
    · simp [hqi]
  · have hx' : x ∈ Function.update u.queues i
        (Function.update (u.queues i) task.continuation rest) q id := hx
    by_cases hqi : q = i
    · subst hqi
      rw [Function.update_self] at hx'
      by_cases hid : id = task.continuation
      · subst hid
        rw [Function.update_self] at hx'
        rw [hq]
        exact List.mem_cons_of_mem _ hx'
      · rw [Function.update_of_ne hid] at hx'
        exact hx'
    · rw [Function.update_of_ne hqi] at hx'
      exact hx'
  · rcases List.mem_append.mp hx with hx | hx
    · exact hx
    · exact (create_notMem_messages q msg _ hx).elim
  · rcases List.mem_append.mp hx with hx | hx
    · exact Or.inl hx
    · rw [hissued] at hx
      exact Or.inr (effects_inside i _ _ x hx)

omit [DecidableEq E] in
/-- The head of a queue is on its way. -/
theorem head_pending {payload : Payload (Bytes E)} {rest : List (Payload (Bytes E))}
    {id : ContinuationId} (hq : u.queues i id = payload :: rest) :
    payload ∈ u.pending i id :=
  List.mem_append_right _ (hq ▸ List.mem_cons_self)

/-- What a worker that waits for an error reads is the result of its round. -/
theorem awaited_read (hmail : Mail u φ) {r : Nat} (hφ : φ i = .error r)
    {payload : Payload (Bytes E)} (hmem : payload ∈ u.pending i maxErrorId) :
    ∃ msg, u.reductions[r - 1]? = some msg ∧ payload = ⟨msg.refnum, msg.results.2⟩ := by
  rw [hmail.errors, hφ] at hmem
  obtain ⟨msg, hmsg, hp⟩ := Option.map_eq_some_iff.mp (Option.mem_toList.mp hmem)
  exact ⟨msg, hmsg, hp.symm⟩

/-- **A read takes the worker to its next phase.** -/
theorem read_move {P : Nat → Prop} {task : Task (Relaxation E)}
    {payload : Payload (Bytes E)}
    {rest : List (Payload (Bytes E))} (hl : X.Local u φ) (hloop : X.Loop P u φ)
    (hmail : Mail u φ) (htask : u.tasks i = some task) (hact : task.active = true)
    (hq : u.queues i task.continuation = payload :: rest) :
    ∃ ψ, X.Move u (u.read X.behaviours X.tid i task payload rest) i (φ i) ψ
      (some payload) := by
  have hw := hl.worker i task htask
  have hkey : payload.id = task.continuation :=
    hl.keyed i _ payload (hq ▸ List.mem_cons_self)
  have hmem := head_pending hq
  cases hφ : φ i with
  | unborn =>
    rw [hφ] at hw
    exact hw.waits.elim
  | ghosts r got =>
    rw [hφ] at hw
    have hid : task.continuation = ghostId := hw.waits.2.1
    obtain ⟨ψ, hnext⟩ := receiveGhost_spec hw (hkey.trans hid)
    refine ⟨ψ, hφ ▸ read_move_of hq hl htask ?_⟩
    rw [hφ, hid]
    exact hnext
  | error r =>
    rw [hφ] at hw
    have hid : task.continuation = maxErrorId := hw.waits.2.1
    rw [hid] at hmem
    obtain ⟨msg, hmsg, rfl⟩ := awaited_read hmail hφ hmem
    rcases hloop.results _ msg hmsg with ⟨e, rfl, _⟩ | ⟨values, _, _, hall⟩
    · obtain ⟨ψ, hnext⟩ := receiveMaxError_spec hw e
      refine ⟨ψ, hφ ▸ read_move_of hq hl htask ?_⟩
      rw [hφ, hid]
      exact hnext
    · -- the grid is formed when nobody is in the loop
      have := (hall i).1
      rw [hφ] at this
      cases this
  | left r =>
    rw [hφ] at hw
    have hwaits := hw.waits
    unfold At at hwaits
    by_cases hi : i.val = 0
    · rw [if_pos hi] at hwaits
      have hid : task.continuation = gridId := hwaits.2
      rw [hid] at hmem
      obtain ⟨values, rfl, hperm⟩ := hmail.grids i payload hmem
      refine ⟨.done r, hφ ▸ read_move_of hq hl htask ?_⟩
      rw [hφ, hid]
      exact receiveGrid_spec hw hi rfl rfl hperm
    · rw [if_neg hi, hact] at hwaits
      cases hwaits
  | done r =>
    rw [hφ] at hw
    -- a worker that is done reads no more
    have hwaits : task.active = false := hw.waits
    rw [hact] at hwaits
    cases hwaits

end Steps

end Relaxing

end CharmExperiments.Hypercomm
