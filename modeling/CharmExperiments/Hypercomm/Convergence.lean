import CharmExperiments.Hypercomm.Barrier

/-!
# The relaxation converges together

The invariant over whole runs. An arrival changes nothing that counts. A
reduction combines contributions of one kind only (`agree`): where some worker
contributed its error and another the grid, one would have gone on and the other
left after the same results, against the agreement of the tests.
-/

namespace CharmExperiments.Hypercomm

open CharmExperiments.Lib

variable {n : Nat} {E : Type}

namespace Relaxing

/-- The tests of all workers have the same outcome after `k` rounds. -/
def Alike (X : Relaxing n E) (k : Nat) : Prop := ∀ i j, X.Test i k ↔ X.Test j k

/-- After an error above the tolerance `P` holds of the rounds so far. -/
def Allows (X : Relaxing n E) (P : Nat → Prop) (k : Nat) (data : Bytes E) : Prop :=
  ∀ e, data = .error e → X.doubles.le e X.tolerance = false → P (k + 1)

variable [DecidableEq E]

/-- The invariant of a run. -/
structure RoundsInv (X : Relaxing n E) (P : Nat → Prop)
    (u : Solo n (Relaxation E) (Bytes E)) (φ : Fin n → Phase) : Prop where
  phases : X.Local u φ
  loop : X.Loop P u φ
  mail : Mail u φ
  got : Got u φ
  log : Log u

variable {X : Relaxing n E} {P : Nat → Prop}
variable {u u' : Solo n (Relaxation E) (Bytes E)} {φ : Fin n → Phase}
variable {i : Fin n} {ψ : Phase} {p : Option (Payload (Bytes E))}

theorem roundsInv_move (h : X.RoundsInv P u φ) (hm : X.Move u u' i (φ i) ψ p) :
    X.RoundsInv P u' (Function.update φ i ψ) :=
  ⟨local_move h.phases hm, loop_move h.loop h.mail hm,
    mail_move h.phases h.loop h.mail hm, got_move h.phases h.loop h.mail h.got hm,
      log_move h.phases h.loop h.mail h.got h.log hm⟩

/-! ## Arrivals -/

theorem roundsInv_arrive (h : X.RoundsInv P u φ) {e : Entry (Bytes E)}
    {payload : Payload (Bytes E)} (hmem : (i.val, e) ∈ u.flight)
    (hp : e.payload? = some payload) : X.RoundsInv P (u.arrive i e payload) φ where
  phases := by
    refine ⟨h.phases.unborn, h.phases.worker, h.phases.contributed, fun q id x hx => ?_,
      fun q msg hx => h.phases.creates q msg (List.mem_of_mem_erase hx),
      fun x hx => h.phases.inside x (List.mem_of_mem_erase hx)⟩
    have hx' : x ∈ Function.update u.queues i
        (Function.update (u.queues i) payload.id
          (u.queues i payload.id ++ [payload])) q id := hx
    by_cases hqi : q = i
    · subst hqi
      rw [Function.update_self] at hx'
      by_cases hid : id = payload.id
      · subst hid
        rw [Function.update_self] at hx'
        rcases List.mem_append.mp hx' with hx' | hx'
        · exact h.phases.keyed q _ x hx'
        · rw [List.mem_singleton.mp hx']
      · rw [Function.update_of_ne hid] at hx'
        exact h.phases.keyed q id x hx'
    · rw [Function.update_of_ne hqi] at hx'
      exact h.phases.keyed q id x hx'
  loop := ⟨h.loop.tests, h.loop.loop, h.loop.stop, h.loop.ready, h.loop.results⟩
  mail := by
    have hsame := pending_arrive hmem hp
    refine ⟨fun q => ?_, fun q x hx => h.mail.grids q x ((hsame q gridId).mem_iff.mp hx),
      fun q x hx => h.mail.onlyGhosts q x ((hsame q ghostId).mem_iff.mp hx), fun q j r =>
        ?_⟩
    · have herror := hsame q maxErrorId
      rw [h.mail.errors] at herror
      exact eq_of_perm_short herror (awaited_length ..)
    · rw [(hsame q ghostId).count_eq]
      exact h.mail.ghosts q j r
  got := h.got
  log := ⟨h.log.ghost, h.log.check, h.log.grid⟩

/-! ## The start -/

omit [DecidableEq E] in
theorem start_pending (msg : TaskMessage (Bytes E)) (q : Fin n) (id : ContinuationId) :
    (Solo.start msg : Solo n (Relaxation E) (Bytes E)).pending q id = [] := by
  show mail q id ((List.range n).map fun i => (i, .create msg)) ++ [] = []
  rw [List.append_nil]
  refine List.filterMap_eq_nil_iff.mpr fun x hx => ?_
  obtain ⟨_, _, rfl⟩ := List.mem_map.mp hx
  exact mailFor_none rfl

theorem roundsInv_start (hzero : P 0) :
    X.RoundsInv P (Solo.start X.message) (fun _ => .unborn) where
  phases := by
    refine ⟨fun _ _ => rfl, fun _ _ h => (by cases h), fun _ => rfl,
      fun _ _ _ h => (by cases h), fun q msg hx => ?_, fun x hx => ?_⟩
    · obtain ⟨_, _, heq⟩ := List.mem_map.mp hx
      cases heq
      rfl
    · obtain ⟨_, hq, rfl⟩ := List.mem_map.mp hx
      exact List.mem_range.mp hq
  loop := by
    refine ⟨fun k hk => ?_, fun _ _ hk => absurd hk (Nat.not_lt_zero _),
      fun _ hl => (by cases hl), fun _ => Nat.le_refl _, fun _ _ h => (by cases h)⟩
    have hk' : k ≤ 0 := hk.le
    obtain rfl := Nat.le_zero.mp hk'
    exact hzero
  mail := by
    refine ⟨fun q => start_pending .., fun q x hx => ?_, fun q x hx => ?_,
      fun q j r => ?_⟩
    · rw [start_pending] at hx
      cases hx
    · rw [start_pending] at hx
      cases hx
    · rw [start_pending]
      have hrounds : roundsAt (fun _ : Fin n => Phase.unborn) j = 0 := by
        unfold roundsAt
        split <;> rfl
      rw [hrounds, if_neg (fun h => by omega)]
      rfl
  got := fun i => ⟨fun j r _ _ hpos hle => absurd hle (Nat.not_le_of_lt hpos),
    fun _ _ _ => rfl, fun _ _ h => (by cases h)⟩
  log := by
    refine ⟨fun _ _ h => (by cases h), fun q pre c post h => ?_,
      fun _ _ h => (by cases h)⟩
    exact absurd h.symm (List.append_ne_nil_of_right_ne_nil _ (List.cons_ne_nil _ _))

/-! ## Reductions -/

section Reduce

omit [DecidableEq E]

theorem Phase.left_complete {φ : Phase} (h : φ.hasLeft = true) :
    φ.complete = φ.rounds := by
  cases φ with
  | left | done => rfl
  | unborn | ghosts | error => cases h

/-- A contribution is the error of a round, or the last. -/
theorem contribution_cases {φ : Phase} {k : Nat} {c : Contribution (Bytes E)}
    (h : (X.contributions i φ)[k]? = some c) :
    (k < φ.complete ∧ c = X.errorContribution) ∨
      (φ.hasLeft = true ∧ φ.rounds = k ∧ c = X.gridContribution i) := by
  unfold Relaxing.contributions at h
  rcases Nat.lt_or_ge k φ.complete with hlt | hge
  · rw [List.getElem?_append_left (by rwa [List.length_replicate]),
      List.getElem?_replicate_of_lt hlt] at h
    exact Or.inl ⟨hlt, (Option.some.inj h).symm⟩
  · rw [List.getElem?_append_right (by rwa [List.length_replicate]),
      List.length_replicate] at h
    cases hl : φ.hasLeft with
    | false =>
      rw [hl] at h
      cases h
    | true =>
      rw [hl, if_pos rfl, List.getElem?_singleton] at h
      split at h
      next hk =>
        have hcomplete := Phase.left_complete hl
        exact Or.inr ⟨rfl, by omega, (Option.some.inj h).symm⟩
      next => cases h

/-- Nobody is still contributing errors where another has left. -/
theorem not_mixed (hloop : X.Loop P u φ) (hP : ∀ k, P k → X.Alike k) {j : Fin n}
    (hi : u.reductions.length < (φ i).complete) (hj : (φ j).hasLeft = true)
    (hrounds : (φ j).rounds = u.reductions.length) : False := by
  obtain ⟨hcont, htest⟩ := hloop.loop i _ (Nat.lt_of_lt_of_le hi (φ i).complete_le)
  refine (hloop.stop j hj).2 ?_
  rw [hrounds]
  exact ⟨hcont, (hP _ (hloop.tests _ hcont) i j).mp htest⟩

/-- **The contributions of one rank are all errors or all for the grid.** -/
theorem agree (hl : X.Local u φ) (hloop : X.Loop P u φ) (hP : ∀ k, P k → X.Alike k)
    {cs : Fin n → Contribution (Bytes E)}
    (hcs : ∀ i, (u.contributed i)[u.reductions.length]? = some (cs i)) :
    (∀ i, u.reductions.length < (φ i).complete ∧ cs i = X.errorContribution) ∨
    (∀ i, (φ i).hasLeft = true ∧ (φ i).rounds = u.reductions.length ∧
      cs i = X.gridContribution i) := by
  have hcases := fun i => contribution_cases (hl.contributed i ▸ hcs i)
  by_cases hall : ∀ i, u.reductions.length < (φ i).complete
  · refine Or.inl fun i => ⟨hall i, ?_⟩
    rcases hcases i with hi | ⟨hleft, hrounds, _⟩
    · exact hi.2
    · exact (not_mixed hloop hP (hall i) hleft hrounds).elim
  · obtain ⟨j, hj⟩ := not_forall.mp hall
    obtain ⟨hleft, hrounds, _⟩ := (hcases j).resolve_left fun h => hj h.1
    refine Or.inr fun i => (hcases i).resolve_left fun hi => ?_
    exact not_mixed hloop hP hi.1 hleft hrounds

/-- A worker that contributed its error to the next reduction waits for it. -/
theorem waits_error (hloop : X.Loop P u φ) (hi : u.reductions.length < (φ i).complete) :
    φ i = .error (u.reductions.length + 1) := by
  have hrounds := hloop.rounds_le i
  have hstop := hloop.stop i
  generalize φ i = φi at hi hrounds hstop
  cases φi with
  | unborn => exact absurd hi (Nat.not_lt_zero _)
  | ghosts r got =>
    have hlt : u.reductions.length < r - 1 := hi
    have hle : r ≤ u.reductions.length + 1 := hrounds
    omega
  | error r => exact congrArg _ (Nat.le_antisymm hrounds hi)
  | left r | done r => exact absurd (hstop rfl).1 (Nat.not_le_of_lt hi)

theorem continues_append {rs : List (ReductionMsg (Bytes E))} {k : Nat}
    (hk : k ≤ rs.length) (msg : ReductionMsg (Bytes E)) : X.Continues (rs ++ [msg]) k ↔
    X.Continues rs k := by
  cases k with
  | zero => exact Iff.rfl
  | succ k =>
    show (∃ x e, (rs ++ [msg])[k]? = some x ∧ _) ↔ ∃ x e, rs[k]? = some x ∧ _
    rw [List.getElem?_append_left hk]

/-- A result that is allowed keeps the agreement. -/
theorem loop_reduce (hloop : X.Loop P u φ) {msg : ReductionMsg (Bytes E)}
    {flight : List (Nat × Entry (Bytes E))}
    (hready : ∀ i, u.reductions.length < (u.contributed i).length)
    (htest : X.Continues (u.reductions ++ [msg]) (u.reductions.length + 1) →
      P (u.reductions.length + 1))
    (hmsg : (∃ e, msg = X.errorResult e ∧ ∀ i, u.reductions.length < (φ i).complete) ∨
      (∃ values, msg = X.gridResult values ∧ values.Perm (List.range n) ∧
        ∀ i, (φ i).hasLeft = true ∧ (φ i).rounds = u.reductions.length)) :
    X.Loop P { u with reductions := u.reductions ++ [msg], flight := flight } φ where
  tests := by
    intro k hk
    have hle : k ≤ (u.reductions ++ [msg]).length := hk.le
    rw [List.length_append, List.length_singleton] at hle
    -- only the last result is new
    rcases Nat.lt_or_eq_of_le hle with hlt | rfl
    · exact hloop.tests k ((continues_append (Nat.le_of_lt_succ hlt) msg).mp hk)
    · exact htest hk
  loop := by
    intro i k hk
    obtain ⟨hcont, ht⟩ := hloop.loop i k hk
    exact ⟨(continues_append hcont.le msg).mpr hcont, ht⟩
  stop := by
    intro i hi
    obtain ⟨hle, hno⟩ := hloop.stop i hi
    refine ⟨?_, fun hg => hno ⟨(continues_append hle msg).mp hg.1, hg.2⟩⟩
    show _ ≤ (u.reductions ++ [msg]).length
    rw [List.length_append]
    exact Nat.le_add_right_of_le hle
  ready := by
    intro i
    show (u.reductions ++ [msg]).length ≤ _
    rw [List.length_append]
    exact hready i
  results := by
    intro k msg' hk
    have hk' : (u.reductions ++ [msg])[k]? = some msg' := hk
    rcases Nat.lt_or_ge k u.reductions.length with hlt | hge
    · rw [List.getElem?_append_left hlt] at hk'
      exact hloop.results k msg' hk'
    · rw [List.getElem?_append_right hge, List.getElem?_singleton] at hk'
      split at hk'
      next hzero =>
        obtain rfl : k = u.reductions.length := by omega
        exact Option.some.inj hk' ▸ hmsg
      next => cases hk'

/-! ## What a reduction gives -/

/-- The result of errors is an error. -/
theorem combines_errors {cs : Fin n → Contribution (Bytes E)} {data : Bytes E}
    (hcs : ∀ i, cs i = X.errorContribution)
    (h : relaxationCombines (WorkgroupArray.reduced cs) data = true) :
    ∃ e, data = .error e := by
  unfold relaxationCombines at h
  rw [if_pos] at h
  · cases data with
    | error e => exact ⟨e, rfl⟩
    | args | ghost | index | set => cases h
  · refine List.all_eq_true.mpr fun c hc => ?_
    obtain ⟨i, _, rfl⟩ := List.mem_map.mp hc
    rw [hcs i]
    exact decide_eq_true rfl

/-- The result of the indices is the set of them. -/
theorem combines_grid {cs : Fin n → Contribution (Bytes E)} {data : Bytes E}
    (root : Fin n) (hcs : ∀ i, cs i = X.gridContribution i)
    (h : relaxationCombines (WorkgroupArray.reduced cs) data = true) :
    ∃ values, data = .set values ∧ values.Perm (List.range n) := by
  have hreduced : WorkgroupArray.reduced cs
      = (List.finRange n).map fun i => (ReducerType.set, Bytes.index i.val) := by
    refine List.map_congr_left fun i _ => ?_
    rw [hcs i]
    rfl
  unfold relaxationCombines at h
  rw [hreduced, if_neg, if_pos] at h
  · cases data with
    | set values =>
      refine ⟨values, rfl, ?_⟩
      have hperm := List.isPerm_iff.mp h
      rw [List.filterMap_map] at hperm
      refine hperm.trans (List.Perm.of_eq ?_)
      rw [← List.map_coe_finRange_eq_range, ← List.filterMap_eq_map]
      rfl
    | args | ghost | error | index => cases h
  · refine List.all_eq_true.mpr fun c hc => ?_
    obtain ⟨i, _, rfl⟩ := List.mem_map.mp hc
    exact decide_eq_true rfl
  · intro hall
    have hroot := List.all_eq_true.mp hall _
      (List.mem_map.mpr ⟨root, List.mem_finRange root, rfl⟩)
    cases of_decide_eq_true hroot

/-- The id of a result is that of the task. -/
theorem result_tid {cs : Fin n → Contribution (Bytes E)} (root : Fin n)
    (htid : ∀ i, (cs i).tid = X.tid) :
    reducedId ((List.finRange n).map fun i => (cs i).tid) = X.tid := by
  refine reducedId_eq (List.ne_nil_of_mem (List.mem_map_of_mem (List.mem_finRange root)))
    fun x hx => ?_
  obtain ⟨i, _, rfl⟩ := List.mem_map.mp hx
  exact htid i

theorem awaited_left {rs : List (ReductionMsg (Bytes E))} {φ : Phase}
    (h : φ.hasLeft = true) :
    awaited rs φ = [] := by
  cases φ with
  | error => cases h
  | unborn | ghosts | left | done => rfl

/-- What is put in flight is on its way. -/
theorem pending_append (u : Solo n (Relaxation E) (Bytes E))
    (rs : List (ReductionMsg (Bytes E))) (flight : List (Nat × Entry (Bytes E)))
    (q : Fin n) (id : ContinuationId) :
    (Solo.pending { u with reductions := rs, flight := u.flight ++ flight } q id).Perm
      (u.pending q id ++ mail q id flight) := by
  show (mail q id (u.flight ++ flight) ++ u.queues q id).Perm
    (mail q id u.flight ++ u.queues q id ++ mail q id flight)
  rw [mail_append, List.append_assoc, List.append_assoc]
  exact List.Perm.append_left _ List.perm_append_comm

end Reduce

/-- What a result adds to the mail, by continuation. -/
theorem mail_reduce (hmail : Mail u φ) {rs : List (ReductionMsg (Bytes E))}
    {flight : List (Nat × Entry (Bytes E))}
    (herrors : ∀ q : Fin n, awaited u.reductions (φ q) ++ mail q maxErrorId flight
      = awaited rs (φ q))
    (hgrids : ∀ q : Fin n, ∀ p ∈ mail q gridId flight, ∃ values, p =
      ⟨gridId, .set values⟩ ∧
      values.Perm (List.range n))
    (hghosts : ∀ q : Fin n, mail q ghostId flight = []) :
    Mail { u with reductions := rs, flight := u.flight ++ flight } φ where
  errors := by
    intro q
    have hperm := pending_append u rs flight q maxErrorId
    rw [hmail.errors, herrors] at hperm
    exact eq_of_perm_short hperm (awaited_length ..)
  grids := by
    intro q x hx
    rcases List.mem_append.mp
      ((pending_append u rs flight q gridId).mem_iff.mp hx) with hx | hx
    · exact hmail.grids q x hx
    · exact hgrids q x hx
  onlyGhosts := by
    intro q x hx
    have hx' := (pending_append u rs flight q ghostId).mem_iff.mp hx
    rw [hghosts, List.append_nil] at hx'
    exact hmail.onlyGhosts q x hx'
  ghosts := by
    intro q j r
    rw [(pending_append u rs flight q ghostId).count_eq, hghosts, List.append_nil]
    exact hmail.ghosts q j r

/-- A result in flight leaves the elements as they are. -/
theorem roundsInv_result (h : X.RoundsInv P u φ) {msg : ReductionMsg (Bytes E)}
    {targets : List Nat} (htargets : ∀ q ∈ targets, q < n)
    (hloop : X.Loop P { u with
      reductions := u.reductions ++ [msg]
      flight := u.flight ++ targets.map fun i => (i, .resumeReduction msg) } φ)
    (hmail : Mail { u with
      reductions := u.reductions ++ [msg]
      flight := u.flight ++ targets.map fun i => (i, .resumeReduction msg) } φ) :
    X.RoundsInv P { u with
      reductions := u.reductions ++ [msg]
      flight := u.flight ++ targets.map fun i => (i, .resumeReduction msg) } φ := by
  refine ⟨⟨h.phases.unborn, h.phases.worker, h.phases.contributed, h.phases.keyed,
    fun q m hx => ?_, fun x hx => ?_⟩, hloop, hmail, h.got,
      ⟨h.log.ghost, h.log.check, h.log.grid⟩⟩
  · rcases List.mem_append.mp hx with hx | hx
    · exact h.phases.creates q m hx
    · obtain ⟨_, _, heq⟩ := List.mem_map.mp hx
      cases heq
  · rcases List.mem_append.mp hx with hx | hx
    · exact h.phases.inside x hx
    · obtain ⟨q, hq, rfl⟩ := List.mem_map.mp hx
      exact htargets q hq

/-- Everybody waits for the error, and the error is sent to everybody. -/
theorem roundsInv_error (h : X.RoundsInv P u φ)
    (hready : ∀ i, u.reductions.length < (u.contributed i).length)
    (hall : ∀ i, u.reductions.length < (φ i).complete) {e : E}
    (hallowed : X.Allows P u.reductions.length (.error e)) :
    X.RoundsInv P { u with
      reductions := u.reductions ++ [X.errorResult e]
      flight := u.flight ++ (List.range n).map fun i =>
        (i, .resumeReduction (X.errorResult e)) } φ := by
  have hmail : ∀ (q : Fin n) id, mail q id ((List.range n).map fun i =>
      (i, .resumeReduction (X.errorResult e))) = if maxErrorId = id then
        [⟨maxErrorId, .error e⟩] else [] := fun q id =>
    mail_all q id (e := .resumeReduction (X.errorResult e)) rfl
  refine roundsInv_result h (fun q hq => List.mem_range.mp hq)
    (loop_reduce h.loop hready (fun hcont => ?_) (Or.inl ⟨e, rfl, hall⟩))
    (mail_reduce h.mail (fun q => ?_) (fun q p hp => ?_) fun q => hmail q ghostId)
  · obtain ⟨msg, e', hget, he', hgo⟩ := hcont
    rw [List.getElem?_concat_length] at hget
    obtain rfl := Option.some.inj hget
    obtain rfl : e = e' := Bytes.error.inj he'
    exact hallowed e rfl hgo
  · rw [hmail, waits_error h.loop (hall q), awaited_none (Nat.le_refl _)]
    show _ = ((u.reductions ++ [X.errorResult e])[u.reductions.length]?.map
      fun msg => _).toList
    rw [List.getElem?_concat_length]
    rfl
  · rw [hmail] at hp
    cases hp

/-- Everybody has left, and the grid is sent to element 0. -/
theorem roundsInv_grid (h : X.RoundsInv P u φ) (hpos : 0 < n)
    (hready : ∀ i, u.reductions.length < (u.contributed i).length)
    (hall : ∀ i, (φ i).hasLeft = true ∧ (φ i).rounds = u.reductions.length)
    {values : List Nat}
    (hperm : values.Perm (List.range n)) :
    X.RoundsInv P { u with
      reductions := u.reductions ++ [X.gridResult values]
      flight := u.flight ++ [0].map fun i =>
        (i, .resumeReduction (X.gridResult values)) } φ := by
  have hmail : ∀ (q : Fin n) id, mail q id ([0].map fun i =>
      (i, .resumeReduction (X.gridResult values))) = if 0 = q.val ∧ gridId = id then
        [⟨gridId, .set values⟩] else [] := fun q id =>
    mail_single q.val id (x := (0, .resumeReduction (X.gridResult values))) rfl
  refine roundsInv_result h (fun q hq => List.mem_singleton.mp hq ▸ hpos)
    (loop_reduce h.loop hready (fun hcont => ?_) (Or.inr ⟨values, rfl, hperm, hall⟩))
    (mail_reduce h.mail (fun q => ?_) (fun q p hp => ?_) (fun q => ?_))
  · -- no further round: the result is no error
    obtain ⟨msg, e', hget, he', _⟩ := hcont
    rw [List.getElem?_concat_length] at hget
    obtain rfl := Option.some.inj hget
    cases he'
  · rw [hmail, if_neg (fun h => by cases h.2), awaited_left (hall q).1,
      awaited_left (hall q).1]
    rfl
  · rw [hmail] at hp
    split at hp
    next => exact ⟨values, List.mem_singleton.mp hp, hperm⟩
    next => cases hp
  · rw [hmail, if_neg fun h => by cases h.2]

theorem roundsInv_reduce (h : X.RoundsInv P u φ) (hP : ∀ k, P k → X.Alike k)
    {root : Fin n}
    {data : Bytes E} {cs : Fin n → Contribution (Bytes E)}
    (hcs : ∀ i, (u.contributed i)[u.reductions.length]? = some (cs i))
    (hcombines : relaxationCombines (WorkgroupArray.reduced cs) data = true)
    (hallowed : X.Allows P u.reductions.length data) :
    X.RoundsInv P { u with
      reductions := u.reductions ++ [WorkgroupArray.result cs root data]
      flight := u.flight ++ ((cs root).cb.targets n).map fun i =>
        (i, .resumeReduction (WorkgroupArray.result cs root data)) } φ := by
  have hready : ∀ i, u.reductions.length < (u.contributed i).length :=
    fun i => (List.getElem?_eq_some_iff.mp (hcs i)).1
  rcases agree h.phases h.loop hP hcs with hall | hall
  · -- everybody waits for the error
    obtain ⟨e, rfl⟩ := combines_errors (fun i => (hall i).2) hcombines
    have hmsg : WorkgroupArray.result cs root (.error e) = X.errorResult e := by
      unfold WorkgroupArray.result
      rw [result_tid root (fun i => by rw [(hall i).2]; rfl), (hall root).2]
      rfl
    have htargets : (cs root).cb.targets n = List.range n := by
      rw [(hall root).2]
      rfl
    rw [hmsg, htargets]
    exact roundsInv_error h hready (fun i => (hall i).1) hallowed
  · -- everybody has left
    obtain ⟨values, rfl, hperm⟩ := combines_grid root (fun i => (hall i).2.2) hcombines
    have hmsg : WorkgroupArray.result cs root (.set values) = X.gridResult values := by
      unfold WorkgroupArray.result
      rw [result_tid root (fun i => by rw [(hall i).2.2]; rfl), (hall root).2.2]
      rfl
    have htargets : (cs root).cb.targets n = [0] := by
      rw [(hall root).2.2]
      rfl
    rw [hmsg, htargets]
    exact roundsInv_grid h (Nat.lt_of_le_of_lt (Nat.zero_le _) root.isLt) hready
      (fun i => ⟨(hall i).1, (hall i).2.1⟩) hperm

/-! ## Every run -/

/-- **The invariant holds along every run** whose tests agree. -/
theorem steps_roundsInv (hP : ∀ k, P k → X.Alike k) (hzero : P 0)
    (h : Solo.Steps X.behaviours relaxationCombines (X.Allows P) X.tid
      (Solo.start X.message) u) :
    ∃ φ, X.RoundsInv P u φ := by
  induction h with
  | refl => exact ⟨_, roundsInv_start hzero⟩
  | tail _ hstep ih =>
    obtain ⟨φ, hinv⟩ := ih
    cases hstep with
    | create hmem hnone =>
      obtain ⟨ψ, hm⟩ := create_move hinv.phases hmem hnone
      exact ⟨_, roundsInv_move hinv hm⟩
    | arrive hmem hp => exact ⟨φ, roundsInv_arrive hinv hmem hp⟩
    | read htask hact hq =>
      obtain ⟨ψ, hm⟩ := read_move hinv.phases hinv.loop hinv.mail htask hact hq
      exact ⟨_, roundsInv_move hinv hm⟩
    | reduce hcs hcombines hallowed =>
      exact ⟨φ, roundsInv_reduce hinv hP hcs hcombines hallowed⟩

/-- The same for the array: the invariant holds of what it keeps of the task. -/
theorem reachable_roundsInv (hP : ∀ k, P k → X.Alike k) (hzero : P 0)
    {s : WorkgroupArray n (Relaxation E) (Bytes E)}
    (h : X.system.Reachable (OneLaunch (X.Allows P)) s) :
    ∃ u φ, RunsSolo X.behaviours X.message s u ∧ X.RoundsInv P u φ := by
  obtain ⟨u, hsteps, hruns⟩ := reachable_solo h
  obtain ⟨φ, hinv⟩ := steps_roundsInv hP hzero hsteps
  exact ⟨u, φ, hruns, hinv⟩

/-! ## Rounds stay apart -/

/-- Worker `i` has called `on_converge`. -/
def HasLeft (s : WorkgroupArray n (Relaxation E) (Bytes E)) (i : Fin n) : Prop :=
  ∃ c ∈ s.contributed i, c.cb.refnum = gridId

/-- Each ghost is received in the round its sender sent it in, by a neighbour;
`check_and_compute` runs with one ghost of the round from every neighbour (in the
constructor: on a worker that has none); and when all have left the loop, no
ghost is in flight or buffered. -/
structure RoundsApart (X : Relaxing n E) (s : WorkgroupArray n (Relaxation E) (Bytes E)) :
    Prop where
  ghost : ∀ i, ∀ c ∈ X.calls s i, c.continuation = ghostId →
    ∃ j, Nbr i j ∧ j < n ∧ c.payload.data = .ghost j c.before.self.rounds
  first : ∀ i data type cb, .reduce data type cb ∈
      ((X.behaviours i).creator X.message.kind ⟨X.message.refnum, X.message.data⟩).2 →
    cb.refnum = maxErrorId → ∀ j, Nbr i j → ¬ j < n
  check : ∀ i pre c post, X.calls s i = pre ++ c :: post → Computes c →
    ∀ j, Nbr i j → j < n → (pre ++ [c]).countP (isGhost j c.after.self.rounds) = 1
  quiet : (∀ i, HasLeft s i) →
    (∀ x ∈ s.flight, ∀ p, x.2.payload? = some p → p.id ≠ ghostId) ∧
    ∀ i, (s.elements i).queue X.tid ghostId = []

omit [DecidableEq E] in
/-- Nobody is ahead of a worker that has left. -/
theorem left_max (hloop : X.Loop P u φ) (hP : ∀ k, P k → X.Alike k)
    (hi : (φ i).hasLeft = true) (j : Fin n) : (φ j).rounds ≤ (φ i).rounds := by
  by_contra hlt
  obtain ⟨hcont, htest⟩ := hloop.loop j _ (Nat.lt_of_not_le hlt)
  exact (hloop.stop i hi).2 ⟨hcont, (hP _ (hloop.tests _ hcont) j i).mp htest⟩

omit [DecidableEq E] in
/-- A worker has left when it contributed to the grid. -/
theorem hasLeft_phase {s : WorkgroupArray n (Relaxation E) (Bytes E)}
    (hruns : RunsSolo X.behaviours X.message s u) (hl : X.Local u φ) (h : HasLeft s i) :
    (φ i).hasLeft = true := by
  obtain ⟨c, hc, hid⟩ := h
  rw [hruns.contributed, hl.contributed] at hc
  obtain ⟨k, hk⟩ := List.mem_iff_getElem?.mp hc
  rcases contribution_cases hk with ⟨_, rfl⟩ | ⟨hleft, _⟩
  · cases hid
  · exact hleft

omit [DecidableEq E] in
/-- The constructor computes where there are no neighbours. -/
theorem first_computes {data : Bytes E} {type : ReducerType} {cb : Callback}
    (hmem : .reduce data type cb ∈
      ((X.behaviours i).creator X.message.kind ⟨X.message.refnum, X.message.data⟩).2)
    (hcb : cb.refnum = maxErrorId) {j : Nat} (hnbr : Nbr i j) : ¬ j < n := by
  intro hj
  obtain ⟨ψ, hchange, _, heff⟩ := creator_spec X i
  have hmem' : .reduce data type cb ∈ ((X.behaviours i).creator 0 ⟨0, X.args⟩).2 := hmem
  rw [heff] at hmem'
  have hcomplete := reduce_effects hmem' hcb
  cases hchange with
  | start =>
    rw [going_complete, if_neg (neighbours_ne_zero hnbr hj)] at hcomplete
    exact Nat.lt_irrefl _ hcomplete
  | skip => exact Nat.lt_irrefl _ hcomplete

/-- When all have left, every ghost sent was received. -/
theorem quiet_pending (h : X.RoundsInv P u φ) (hP : ∀ k, P k → X.Alike k)
    (hall : ∀ i, (φ i).hasLeft = true) (i : Fin n) : u.pending i ghostId = [] := by
  refine List.eq_nil_iff_forall_not_mem.mpr fun x hx => ?_
  obtain ⟨j, r, rfl⟩ := h.mail.onlyGhosts i x hx
  have hcount := h.mail.ghosts i j r
  have hpos := List.count_pos_iff.mpr hx
  split at hcount
  next hsent =>
    obtain ⟨hnbr, hr, hle⟩ := hsent
    by_cases hj : j < n
    · have hrounds : roundsAt φ j = (φ ⟨j, hj⟩).rounds := dif_pos hj
      have hmax := left_max h.loop hP (hall i) ⟨j, hj⟩
      have hold := (h.got i).old j r hnbr hj hr
        (by rw [Phase.left_complete (hall i)]; omega)
      omega
    · have hrounds : roundsAt φ j = 0 := dif_neg hj
      omega
  next => omega

/-- **Rounds do not mix.** With one iteration count on all workers, in every run
of one launch, whatever the errors: ghosts are received in the round they were
sent in, a worker computes with one ghost of the round from each neighbour, and
none is left when all have left. -/
theorem rounds_apart (X : Relaxing n E) (hit : ∀ i j, (X.raw i).it = (X.raw j).it)
    {s : WorkgroupArray n (Relaxation E) (Bytes E)}
    (h : X.system.Reachable (OneLaunch fun _ _ => True) s) : X.RoundsApart s := by
  have halike : ∀ k, X.Alike k := by
    intro k i j
    rw [Test, Test, hit i j]
  obtain ⟨u, φ, hruns, hinv⟩ :=
    reachable_roundsInv (P := X.Alike) (fun _ => id) (halike 0)
    (h.mono fun s x hx => by
      cases x with
      | launch => exact hx
      | deliver => trivial
      | reduce => exact fun _ _ _ => halike _)
  have hcalls : ∀ i, X.calls s i = u.calls i := fun i => (hruns.holds i).calls.symm
  refine ⟨fun i c hc => ?_, fun i data type cb hmem hcb j hnbr =>
    first_computes hmem hcb hnbr, fun i pre c post hc => ?_, fun hleft => ?_⟩
  · rw [hcalls] at hc
    exact hinv.log.ghost i c hc
  · rw [hcalls] at hc
    exact hinv.log.check i pre c post hc
  · have hquiet := quiet_pending hinv (fun _ => id)
      fun i => hasLeft_phase hruns hinv.phases (hleft i)
    refine ⟨fun x hx p hp hid => ?_, fun i => ?_⟩
    · rw [hruns.flight] at hx
      have hmem : p ∈ mail x.1 ghostId u.flight := by
        refine List.mem_filterMap.mpr ⟨x, hx, ?_⟩
        rw [mailFor_payload hp, if_pos ⟨rfl, hid⟩]
      have hnone := hquiet ⟨x.1, hinv.phases.inside x hx⟩
      rw [(List.append_eq_nil_iff.mp hnone).1] at hmem
      cases hmem
    · show (s.elements i).queue X.message.tid ghostId = []
      rw [← (hruns.holds i).queue]
      exact (List.append_eq_nil_iff.mp (hquiet i)).2

/-! ## Two workers -/

/-- Two workers, one iteration at most; what their `it` held. -/
def pair (it : Fin 2 → Int) : Relaxing 2 Int where
  doubles := ⟨fun a b => decide (a ≤ b), fun a => 2 * a, -1⟩
  maxIters := 1
  tolerance := 1
  host := 0
  raw i := ⟨it i, 0⟩

/-- The array right after the launch. -/
def launched (X : Relaxing 2 Int) : WorkgroupArray 2 (Relaxation Int) (Bytes Int) :=
  (WorkgroupArray.init (fun _ => 0) fun _ => ⟨0, 0⟩).launch X.host 0 X.args

/-- Two workers that start alike: a round, an error above the tolerance, and
the grid. -/
def pairRun : List (WorkgroupArray.Action 2 (Bytes Int)) :=
  let X := pair fun _ => 0
  [.deliver 0 (.create X.message) 3, .deliver 1 (.create X.message) 3,
    .deliver 0 (.resumeMessage ⟨X.tid, 0, ghostId, .ghost 1 1⟩) 3,
    .deliver 1 (.resumeMessage ⟨X.tid, 0, ghostId, .ghost 0 1⟩) 3, .reduce 0 (.error 2),
    .deliver 0 (.resumeReduction (X.errorResult 2)) 3,
    .deliver 1 (.resumeReduction (X.errorResult 2)) 3, .reduce 0 (.set [0, 1]),
    .deliver 0 (.resumeReduction (X.gridResult [0, 1])) 3]

/-- An action that launches nothing. -/
def noLaunch : WorkgroupArray.Action 2 (Bytes Int) → Bool
  | .launch .. => false
  | _ => true

theorem noLaunch_only {P : Nat → Bytes Int → Prop} (hP : ∀ k data, P k data)
    {as : List (WorkgroupArray.Action 2 (Bytes Int))} (has : as.all noLaunch = true) :
    ∀ a ∈ as, ∀ s : WorkgroupArray 2 (Relaxation Int) (Bytes Int), OneLaunch P s a := by
  intro a ha s
  have hno := List.all_eq_true.mp has a ha
  cases a with
  | launch => cases hno
  | deliver => trivial
  | reduce => exact hP _ _

/-- In that run both contribute an error, then to the grid. -/
theorem pairRun_contributed :
    ∃ s, (pair fun _ => 0).system.run (launched (pair fun _ => 0))
    pairRun = some s ∧
    ∀ i, (s.contributed i).map (fun c => c.cb.refnum) = [maxErrorId, gridId] := by
  have hrun : ((pair fun _ => 0).system.run (launched (pair fun _ => 0)) pairRun).map
      (fun s => ((s.contributed 0).map fun c => c.cb.refnum,
        (s.contributed 1).map fun c => c.cb.refnum))
      = some ([maxErrorId, gridId], [maxErrorId, gridId]) := by
    decide +kernel
  obtain ⟨s, hs, hrefnums⟩ := Option.map_eq_some_iff.mp hrun
  exact ⟨s, hs, Fin.forall_fin_two.mpr (Prod.mk.inj hrefnums)⟩

/-- Both have left, with all ghosts received. -/
theorem rounds_apart_pair : ∃ s, (pair fun _ => 0).system.run (launched (pair fun _ => 0))
    pairRun = some s ∧ (∀ i, HasLeft s i) ∧ (pair fun _ => 0).RoundsApart s := by
  obtain ⟨s, hs, hrefnums⟩ := pairRun_contributed
  exact ⟨s, hs,
    fun i => List.mem_map.mp (hrefnums i ▸ List.mem_cons_of_mem _ List.mem_cons_self),
    rounds_apart _ (fun _ _ => rfl) (Transition.run_reachable _
      (noLaunch_only (fun _ _ => trivial) rfl) (.init ⟨_, rfl⟩) hs)⟩

end Relaxing

end CharmExperiments.Hypercomm
