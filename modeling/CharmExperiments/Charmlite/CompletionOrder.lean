import CharmExperiments.Charmlite.CompletionInv

/-!
# Completion detection: whose contributions a count sums up

`CmiReduce` has no tags, and a result carries the root's target. In runs in
which all PEs contribute in one order of targets, a count applied to a target
is the sum of one contribution per PE for that target, and a reduction for a
target is complete as soon as every PE has started it (`counts_match`). Two PEs
that start two targets in opposite orders sum one PE's count of the first with
the other's count of the second (`counts_mixed`).
-/

namespace CharmExperiments.Charmlite.Completion

open CharmExperiments.Lib

variable {n : Nat} {detector : CollectiveIndex}

/-- PE `p` was given a detection message for the target. -/
def Pe.started (pe : Pe) (t : CollectiveIndex) : Prop :=
  ∃ m, .delivered m ∈ pe.events ∧ m.target = t

/-- The count sums up the `k`-th contribution of every PE, made for its target. -/
def Group.SumsTarget (s : Group n) (k : Nat) (count : Count) : Prop :=
  ∃ x : Fin (n + 1) → Count,
    (∀ q, (s.contributions q)[k]? = some (x q) ∧ (x q).target = count.target) ∧
    count.gcount = ∑ q, (x q).gcount

/-- Every count applied is for its target, and a target that all PEs started has
a complete reduction, whose count every PE applies when it is delivered there. -/
structure CountsMatch (s : Group n) : Prop where
  summed : ∀ p k count, .applied k count ∈ (s.pes p).events → s.SumsTarget k count
  received : ∀ t, (∀ p, (s.pes p).started t) →
    ∃ k, s.contributions.Ready k ∧ ∀ p, k ∈ s.reduced → k ∉ s.copies p →
      ∃ count, .applied k count ∈ (s.pes p).events ∧ count.target = t

/-- A result of a rank all of whose contributions are for one target. -/
theorem IsResult.sumsTarget {s : Group n} (h : GroupInv s) {k : Nat} {count : Count}
    (hres : s.IsResult k count) : s.SumsTarget k count :=
  ⟨s.contributions.rank k, fun q =>
    ⟨Contributions.getElem?_rank hres.1 q, rank_target h hres q⟩,
    by rw [hres.2, result_gcount]⟩

/-! ## What was started was contributed for -/

/-- An element has contributed for every target it started. -/
def StartedInv (s : Group n) : Prop :=
  ∀ p t, (s.pes p).started t → ∃ c ∈ (s.pes p).contributions, c.target = t

theorem init_startedInv : StartedInv (.init : Group n) := by
  rintro p t ⟨m, hm, _⟩
  cases hm

/-- Elements that take a step keep what they contributed; a target started in
the step is contributed for, or was before. -/
theorem StartedInv.setPe {s : Group n} (h : StartedInv s) {p : Fin (n + 1)} {pe : Pe}
    (hc : (s.pes p).contributions <+: pe.contributions)
    (hnew : ∀ m, .delivered m ∈ pe.events → .delivered m ∈ (s.pes p).events ∨
      ∃ c ∈ pe.contributions, c.target = m.target) : StartedInv (s.setPe p pe) := by
  intro q t ht
  by_cases hq : q = p
  · subst hq
    rw [setPe_pes_self] at ht ⊢
    obtain ⟨m, hm, hmt⟩ := ht
    rcases hnew m hm with hold | ⟨c, hcm, hct⟩
    · obtain ⟨c, hcm, hct⟩ := h q t ⟨m, hold, hmt⟩
      exact ⟨c, hc.subset hcm, hct⟩
    · exact ⟨c, hcm, hct.trans hmt⟩
  · rw [setPe_pes_ne s hq] at ht ⊢
    exact h q t ht

theorem StartedInv.receiveCount {s : Group n} (h : StartedInv s) (hg : GroupInv s)
    (p : Fin (n + 1)) (k : Nat) (count : Count) :
    StartedInv (s.receiveCount detector p k count) := by
  rcases receiveCount_cases s p k count with ⟨pe, hpe, heq⟩ | ⟨_, heq⟩
  · rw [heq]
    obtain ⟨msg, _, _, hcontrib, hevents⟩ := receiveCount_spec (hg.pes p) hpe
    apply h.setPe
    · rw [hcontrib]
      exact List.prefix_append _ _
    · intro m hm
      rw [hevents] at hm
      refine Or.inl ?_
      split at hm <;> simpa using hm
  · rw [heq]
    exact h

/-- A flag that is set was set by a reduction the PE contributed to. -/
theorem contributed_of_complete {s : Group n} (hg : GroupInv s) {p : Fin (n + 1)}
    {t : CollectiveIndex} (h : ((s.pes p).status t).complete = true) :
    ∃ c ∈ (s.pes p).contributions, c.target = t := by
  obtain ⟨k, count, hdec, _⟩ := (hg.pes p).flagged t h
  obtain ⟨happ, ht⟩ := applied_of_decided hdec
  have hres := hg.applied p k count happ
  exact ⟨_, List.mem_of_getElem? (Contributions.getElem?_rank hres.1 p),
    (rank_target hg hres p).trans ht⟩

theorem step_startedInv {s s' : Group n} {a : Action n} (h : StartedInv s)
    (hg : GroupInv s) (hs : s.step detector a = some s') : StartedInv s' := by
  obtain ⟨_, ⟨p, msg, rfl, hfresh, rfl⟩ | ⟨p, t, m, hpm⟩ | ⟨k, rfl, hready, _, rfl⟩ |
    ⟨j, p, k, count, rfl, hj, rfl⟩⟩ := step_cases hs
  · have hcontrib :=
      startDetection_contributions ((s.pes p).record (.delivered msg)) detector msg
    rw [record_status, record_contributions] at hcontrib
    apply h.setPe
    · rw [hcontrib]
      exact List.prefix_append _ _
    · intro m hm
      rw [startDetection_events, record_events] at hm
      have hm' : .delivered m ∈ (s.pes p).events ∨ m = msg := by
        split at hm <;> simpa using hm
      rcases hm' with hold | rfl
      · exact Or.inl hold
      · refine Or.inr ?_
        rw [hcontrib]
        by_cases hcomplete : ((s.pes p).status m.target).complete = true
        · obtain ⟨c, hc, hct⟩ := contributed_of_complete hg hcomplete
          exact ⟨c, List.mem_append_left _ hc, hct⟩
        · rw [if_neg hcomplete]
          exact ⟨_, List.mem_append_right _ (List.mem_singleton_self _), rfl⟩
  · have hprod : ∀ x : Int, StartedInv (s.setPe p ((s.pes p).produce t x)) := by
      intro x
      rw [produce_eq]
      exact h.setPe (List.prefix_refl _) fun m hm => Or.inl (by simpa using hm)
    rcases hpm with ⟨_, rfl⟩ | ⟨_, rfl⟩
    · exact hprod _
    · exact hprod _
  · exact StartedInv.receiveCount (s := s.broadcastResult k) h
      (hg.broadcastResult hready) _ _ _
  · exact StartedInv.receiveCount (s := s.takeCopy j) h (hg.takeCopy j) _ _ _

/-! ## The result -/

/-- The PE with the fewest contributions has one for every target it started,
and all others have one of that rank. -/
theorem exists_ready {s : Group n} (h : StartedInv s) {t : CollectiveIndex}
    (ht : ∀ p, (s.pes p).started t) :
    ∃ k, s.contributions.Ready k ∧ ∃ q c, (s.contributions q)[k]? = some c ∧
      c.target = t := by
  obtain ⟨q, _, hq⟩ := Finset.exists_min_image Finset.univ
    (fun p => (s.contributions p).length) Finset.univ_nonempty
  obtain ⟨c, hc, hct⟩ := h q t (ht q)
  obtain ⟨k, hk⟩ := List.getElem?_of_mem hc
  have hlt : k < (s.contributions q).length := (List.getElem?_eq_some_iff.mp hk).1
  exact ⟨k, fun p => Nat.lt_of_lt_of_le hlt (hq p (Finset.mem_univ p)), q, c, hk, hct⟩

theorem countsMatch_of_inv {s : Group n} (hg : GroupInv s) (hd : DeliveryInv s)
    (h : StartedInv s) : CountsMatch s where
  summed := fun p k count hk => IsResult.sumsTarget hg (hg.applied p k count hk)
  received := by
    intro t ht
    obtain ⟨k, hready, q, c, hc, hct⟩ := exists_ready h ht
    refine ⟨k, hready, fun p hk hcopy => ?_⟩
    have hranks : k ∈ (s.pes p).appliedRanks := by
      rcases List.mem_append.mp ((hd.delivered p).symm.subset hk) with hin | hin
      · exact hin
      · exact absurd hin hcopy
    obtain ⟨e, he, hek⟩ := List.mem_filterMap.mp hranks
    cases e with
    | applied j count =>
      obtain rfl := Option.some.inj hek
      refine ⟨count, he, ?_⟩
      rw [← hct, ← rank_target hg (hg.applied p j count he) q]
      exact hg.agree j q q _ _ (Contributions.getElem?_rank hready q) hc
    | _ => cases hek

/-- **Counts are for their target.** In a run in which all PEs contribute in one
order of targets, each count applied to a target is the sum of one contribution
per PE made for it. Once all PEs have started a target a reduction for it is
complete, and a PE that its result was delivered to has applied the count. -/
theorem counts_match {s : Group n} (hreach : (system detector).Reachable SameOrder s) :
    CountsMatch s := by
  have hinv : StartedInv s ∧ GroupInv s ∧ DeliveryInv s := by
    refine hreach.invariant (I := fun s => StartedInv s ∧ GroupInv s ∧ DeliveryInv s)
      (fun _ hs => hs ▸ ⟨init_startedInv, init_groupInv, init_deliveryInv⟩) ?_
    intro s a s' ⟨h, hg, hd⟩ horder hs
    exact ⟨step_startedInv h hg hs, step_groupInv hg horder hs, step_deliveryInv hd hg hs⟩
  exact countsMatch_of_inv hinv.2.1 hinv.2.2 hinv.1

/-- A count with a contribution for another target in it. -/
theorem not_countsMatch {s : Group n} {p q : Fin (n + 1)} {k : Nat} {c x : Count}
    (happ : .applied k c ∈ (s.pes p).events) (hx : (s.contributions q)[k]? = some x)
    (hne : x.target ≠ c.target) : ¬ CountsMatch s := by
  intro h
  obtain ⟨y, hy, _⟩ := h.summed p k c happ
  obtain ⟨hsome, htarget⟩ := hy q
  obtain rfl := Option.some.inj (hx.symm.trans hsome)
  exact hne htarget

/-- Two PEs start two targets in opposite orders: the first count is applied to
the first PE's target, with the second PE's contribution for the other in it. -/
theorem counts_mixed :
    ∃ s : Group 1, (system cdtDetector).run .init
        [.start 0 (cdtMessage 1), .start 0 (otherMessage 2), .start 1 (otherMessage 2),
          .start 1 (cdtMessage 1), .reduce 0] = some s ∧
      .applied 0 ⟨cdtDetector, cdtTarget, 0⟩ ∈ (s.pes 0).events ∧
      (s.contributions 1)[0]? = some ⟨cdtDetector, otherTarget, 0⟩ ∧ ¬ CountsMatch s := by
  refine ⟨_, rfl, by decide, rfl, ?_⟩
  exact not_countsMatch (p := 0) (k := 0) (q := 1) (x := ⟨cdtDetector, otherTarget, 0⟩)
    (c := ⟨cdtDetector, cdtTarget, 0⟩) (by decide) rfl (by decide)

/-- The two PEs start them in the same order. -/
theorem counts_match_two :
    ∃ s : Group 1, (system cdtDetector).run .init
        [.start 0 (cdtMessage 1), .start 0 (otherMessage 2), .start 1 (cdtMessage 1),
          .start 1 (otherMessage 2), .reduce 0, .receive 0] = some s ∧
      .applied 0 ⟨cdtDetector, cdtTarget, 0⟩ ∈ (s.pes 1).events ∧ CountsMatch s := by
  refine ⟨_, rfl, by decide, @counts_match 1 cdtDetector _ ?_⟩
  refine .step (a := .receive 0)
    (.step (a := .reduce 0) (.step (a := .start 1 (otherMessage 2))
    (.step (a := .start 1 (cdtMessage 1)) (.step (a := .start 0 (otherMessage 2))
      (.step (a := .start 0 (cdtMessage 1)) (.init rfl) ?_ rfl) ?_ rfl) ?_ rfl) ?_ rfl)
    ?_ rfl) ?_ rfl
  all_goals decide

end CharmExperiments.Charmlite.Completion
