import CharmExperiments.Charmlite.CompletionInv
import Mathlib.Algebra.Order.BigOperators.Group.Finset
import Mathlib.Algebra.Order.BigOperators.Group.List

/-!
# Completion detection: when a callback finds nothing outstanding

The count a round sums up is made of local counts read at different moments, and
it is a 64-bit sum. `callback_settled` says when a callback can be relied on: in
runs in which all PEs contribute in one order of targets, fewer than `2 ^ 63`
events of a target are produced, and no event of it happens on a PE between its
contribution to the reduction that set the flag and the callback (`Orderly`).
Every local count is then still the contribution (`PeInv.counted`), so the local
counts sum to zero as words; they are the words of the events produced and not
consumed (`PeInv.balanced`), of which there are too few to wrap around.

`callback_with_outstanding` is a run with an event after the contribution,
`callback_wraps` one whose counts sum to `2 ^ 64`.
-/

namespace CharmExperiments.Charmlite.Completion

open CharmExperiments.Lib

variable {n : Nat} {detector : CollectiveIndex}

/-! ## Sums of words -/

/-- A sum of words is the word of the sum, whatever the partial sums do. -/
theorem sum_ofInt {ι : Type} (w : Nat) (l : Finset ι) (x : ι → Int) :
    ∑ i ∈ l, BitVec.ofInt w (x i) = BitVec.ofInt w (∑ i ∈ l, x i) :=
  (map_sum (Int.castRingHom (BitVec w)) x l).symm

/-- A count below the word's modulus whose word is zero is zero. -/
theorem eq_zero_of_ofInt {w : Nat} {x : Int} (h : BitVec.ofInt w x = 0) (hnonneg : 0 ≤ x)
    (hlt : x < 2 ^ w) : x = 0 := by
  have hnat : (BitVec.ofInt w x).toNat = 0 := by
    rw [h]
    rfl
  rw [BitVec.toNat_ofInt] at hnat
  push_cast at hnat
  rw [Int.emod_eq_of_lt hnonneg hlt] at hnat
  omega

/-! ## The events of a target -/

/-- The events of a target a PE was asked to produce. -/
def Pe.produced (pe : Pe) (t : CollectiveIndex) : Int :=
  (pe.events.map fun e => max (amountOf t e) 0).sum

/-- The events of a target a PE was asked to consume. -/
def Pe.consumed (pe : Pe) (t : CollectiveIndex) : Int :=
  (pe.events.map fun e => max (-amountOf t e) 0).sum

/-- The events of a target produced so far. -/
def Group.produced (s : Group n) (t : CollectiveIndex) : Int := ∑ p, (s.pes p).produced t

theorem net_eq_sub (pe : Pe) (t : CollectiveIndex) :
    pe.net t = pe.produced t - pe.consumed t := by
  unfold Pe.net Pe.produced Pe.consumed
  induction pe.events with
  | nil => rfl
  | cons e events ih =>
    simp only [List.map_cons, List.sum_cons, ih]
    omega

theorem produced_nonneg (pe : Pe) (t : CollectiveIndex) : 0 ≤ pe.produced t :=
  List.sum_nonneg (by simp only [List.mem_map]; rintro _ ⟨e, _, rfl⟩; exact le_max_right _ _)

theorem consumed_nonneg (pe : Pe) (t : CollectiveIndex) : 0 ≤ pe.consumed t :=
  List.sum_nonneg (by simp only [List.mem_map]; rintro _ ⟨e, _, rfl⟩; exact le_max_right _ _)

/-- A sum over the PEs after one of them took a step. -/
theorem sum_setPe (f : Pe → Int) (s : Group n) (p : Fin (n + 1)) (pe : Pe) :
    ∑ q, f ((s.setPe p pe).pes q) = ∑ q, f (s.pes q) + (f pe - f (s.pes p)) := by
  have hrest : ∑ q ∈ Finset.univ.erase p, f ((s.setPe p pe).pes q)
      = ∑ q ∈ Finset.univ.erase p, f (s.pes q) :=
    Finset.sum_congr rfl fun q hq => by rw [setPe_pes_ne s (Finset.ne_of_mem_erase hq)]
  rw [← Finset.add_sum_erase _ _ (Finset.mem_univ p), hrest, setPe_pes_self,
    ← Finset.add_sum_erase _ (fun q => f (s.pes q)) (Finset.mem_univ p)]
  omega

/-- Every consumed event was produced, and the produced ones fit a count. -/
structure EventsInv (s : Group n) : Prop where
  backed : ∀ t, 0 ≤ s.unconsumed t
  fits : ∀ t, s.produced t < 2 ^ 63

theorem init_eventsInv : EventsInv (.init : Group n) where
  backed := by intro t; simp [Group.unconsumed, Group.init, Pe.init, Pe.net]
  fits := by intro t; simp [Group.produced, Group.init, Pe.init, Pe.produced]

/-- The step leaves fewer than `2 ^ 63` events of a target produced. -/
def Bounded (s : Group n) : Action n → Prop
  | .produce _ t m => s.produced t + m < 2 ^ 63
  | _ => True

/-- An element takes a step: what it adds is backed and fits. -/
theorem EventsInv.setPe {s : Group n} {p : Fin (n + 1)} {pe : Pe}
    (hnet : ∀ t, 0 ≤ s.unconsumed t + (pe.net t - (s.pes p).net t))
    (hproduced : ∀ t, s.produced t + (pe.produced t - (s.pes p).produced t) < 2 ^ 63) :
    EventsInv (s.setPe p pe) where
  backed := fun t => (hnet t).trans_eq (sum_setPe (·.net t) s p pe).symm
  fits := fun t => (sum_setPe (·.produced t) s p pe).trans_lt (hproduced t)

/-- Events that produce and consume nothing. -/
def Event.idle : Event → Bool
  | .produced .. => false
  | _ => true

/-- An event list that has grown by idle events amounts to the same. -/
theorem sum_map_append_idle {events rest : List Event} (f : Event → Int)
    (hf : ∀ e ∈ rest, f e = 0) : ((events ++ rest).map f).sum = (events.map f).sum := by
  rw [List.map_append, List.sum_append, List.sum_eq_zero (l := rest.map f), Int.add_zero]
  intro x hx
  obtain ⟨e, he, rfl⟩ := List.mem_map.mp hx
  exact hf e he

theorem amountOf_idle {e : Event} (h : e.idle = true) (t : CollectiveIndex) :
    amountOf t e = 0 := by
  cases e <;> simp [Event.idle, amountOf] at h ⊢

theorem EventsInv.idle {s : Group n} (h : EventsInv s) {p : Fin (n + 1)} {pe : Pe}
    {rest : List Event} (he : pe.events = (s.pes p).events ++ rest)
    (hrest : ∀ e ∈ rest, e.idle = true) : EventsInv (s.setPe p pe) := by
  have hnet : ∀ t, pe.net t = (s.pes p).net t := by
    intro t
    rw [Pe.net, he]
    exact sum_map_append_idle _ fun e hmem => amountOf_idle (hrest e hmem) t
  have hproduced : ∀ t, pe.produced t = (s.pes p).produced t := by
    intro t
    rw [Pe.produced, he]
    exact sum_map_append_idle _ fun e hmem => by rw [amountOf_idle (hrest e hmem) t]; rfl
  apply EventsInv.setPe
  · intro t
    rw [hnet t, Int.sub_self, Int.add_zero]
    exact h.backed t
  · intro t
    rw [hproduced t, Int.sub_self, Int.add_zero]
    exact h.fits t

/-- `produce` adds its events to those of the target. -/
theorem EventsInv.produce {s : Group n} (h : EventsInv s) (p : Fin (n + 1))
    (t : CollectiveIndex) (m : Int) (hbacked : 0 ≤ s.unconsumed t + m)
    (hfits : s.produced t + max m 0 < 2 ^ 63) :
    EventsInv (s.setPe p ((s.pes p).produce t m)) := by
  apply EventsInv.setPe
  · intro u
    have hnet : ((s.pes p).produce t m).net u = (s.pes p).net u + if t = u then m
        else 0 := by
      rw [produce_eq, net_record]
      rfl
    have hu := h.backed u
    by_cases htu : t = u
    · rw [if_pos htu] at hnet
      rw [htu] at hbacked
      omega
    · rw [if_neg htu] at hnet
      omega
  · intro u
    have hproduced : ((s.pes p).produce t m).produced u
        = (s.pes p).produced u + max (if t = u then m else 0) 0 := by
      rw [produce_eq]
      simp [Pe.produced, amountOf]
    have hu := h.fits u
    by_cases htu : t = u
    · rw [if_pos htu] at hproduced
      rw [htu] at hfits
      omega
    · rw [if_neg htu] at hproduced
      omega

theorem EventsInv.receiveCount {s : Group n} (h : EventsInv s) (hg : GroupInv s)
    (p : Fin (n + 1)) (k : Nat) (count : Count) :
    EventsInv (s.receiveCount detector p k count) := by
  rcases receiveCount_cases s p k count with ⟨pe, hpe, heq⟩ | ⟨_, heq⟩
  · obtain ⟨msg, _, _, _, hevents⟩ := receiveCount_spec (hg.pes p) hpe
    rw [heq]
    refine h.idle hevents fun e he => ?_
    simp only [List.mem_cons] at he
    rcases he with rfl | rfl | he
    · rfl
    · rfl
    · split at he
      next => rw [List.mem_singleton.mp he]; rfl
      next => cases he
  · rw [heq]
    exact ⟨h.backed, h.fits⟩

theorem step_eventsInv {s s' : Group n} {a : Action n} (h : EventsInv s) (hg : GroupInv s)
    (hbounded : Bounded s a) (hs : s.step detector a = some s') : EventsInv s' := by
  obtain ⟨_, ⟨p, msg, rfl, _, rfl⟩ | ⟨p, t, m, hpm⟩ | ⟨k, rfl, hready, _, rfl⟩ |
    ⟨j, p, k, count, rfl, hj, rfl⟩⟩ := step_cases hs
  · have hevents :
        (((s.pes p).record (.delivered msg)).startDetection detector msg).events =
        (s.pes p).events ++ (.delivered msg :: .used msg ::
          if ((s.pes p).status msg.target).complete then [.callback msg] else []) := by
      rw [startDetection_events, record_events, record_status, List.append_assoc]
      rfl
    refine h.idle hevents fun e he => ?_
    simp only [List.mem_cons] at he
    rcases he with rfl | rfl | he
    · rfl
    · rfl
    · split at he
      next => rw [List.mem_singleton.mp he]; rfl
      next => cases he
  · rcases hpm with ⟨rfl, rfl⟩ | ⟨rfl, rfl⟩
    · have hnonneg := h.backed t
      have hlt : s.produced t + m < 2 ^ 63 := hbounded
      exact h.produce p t m (by omega) (by omega)
    · -- what is consumed was produced before
      have hnot : ¬ s.unconsumed t < m := by
        intro hlt
        rw [Group.step] at hs
        simp [hlt] at hs
      have hlt := h.fits t
      exact h.produce p t (-m) (by omega) (by omega)
  · exact EventsInv.receiveCount (s := s.broadcastResult k) ⟨h.backed, h.fits⟩
      (hg.broadcastResult hready) _ _ _
  · exact EventsInv.receiveCount (s := s.takeCopy j) ⟨h.backed, h.fits⟩
      (hg.takeCopy j) _ _ _

/-- A local count is exactly what its PE produced and did not consume. -/
theorem toInt_lcount {s : Group n} (h : EventsInv s) (hg : GroupInv s) (p : Fin (n + 1))
    (t : CollectiveIndex) : ((s.pes p).status t).lcount.toInt = (s.pes p).net t := by
  have hproduced : (s.pes p).produced t ≤ s.produced t :=
    Finset.single_le_sum (fun q _ => produced_nonneg (s.pes q) t) (Finset.mem_univ p)
  have hconsumed : (s.pes p).consumed t ≤ ∑ q, (s.pes q).consumed t :=
    Finset.single_le_sum (fun q _ => consumed_nonneg (s.pes q) t) (Finset.mem_univ p)
  have hsum : s.unconsumed t = s.produced t - ∑ q, (s.pes q).consumed t := by
    rw [Group.unconsumed, Group.produced, ← Finset.sum_sub_distrib]
    exact Finset.sum_congr rfl fun q _ => net_eq_sub _ _
  have hbacked := h.backed t
  have hfits := h.fits t
  have hnet := net_eq_sub (s.pes p) t
  have hp := produced_nonneg (s.pes p) t
  have hc := consumed_nonneg (s.pes p) t
  rw [(hg.pes p).balanced t]
  refine BitVec.toInt_ofInt_eq_self (by omega) ?_ ?_
  · show -2 ^ 63 ≤ _
    omega
  · show _ < 2 ^ 63
    omega

/-! ## Callbacks -/

/-- The step sends the callback of `msg` on PE `p`. -/
def SendsCallback (s s' : Group n) (p : Fin (n + 1)) (msg : DetectionMessage) : Prop :=
  (s'.pes p).callbacks = (s.pes p).callbacks ++ [msg]

/-- The reduction with the zero count that a step answers with a callback, and its
target: the one just applied, or the one that has set the flag. -/
def Group.answers (s : Group n) : Action n → Option (Nat × CollectiveIndex)
  | .start p msg =>
    if ((s.pes p).status msg.target).complete then
      ((s.pes p).decided msg.target).map fun r => (r.1, msg.target)
    else none
  | .produce .. => none
  | .consume .. => none
  | .reduce k => if (s.result k).gcount = 0 then some (k, (s.result k).target) else none
  | .receive j =>
    match s.inFlight[j]? with
    | some (_, k, count) => if count.gcount = 0 then some (k, count.target) else none
    | none => none

/-- No PE has produced or consumed an event of the target since its contribution
to the reduction that the step answers with a callback. -/
def Undisturbed (s : Group n) (a : Action n) : Prop :=
  ∀ r ∈ s.answers a, ∀ q, ∀ e ∈ (s.pes q).events, amountSince r.1 r.2 e = 0

/-- The steps after which a callback can be relied on. -/
structure Orderly (s : Group n) (a : Action n) : Prop where
  order : SameOrder s a
  bounded : Bounded s a
  undisturbed : Undisturbed s a

theorem amountSince_idle {e : Event} (h : e.idle = true) (k : Nat) (t : CollectiveIndex) :
    amountSince k t e = 0 := by
  cases e <;> simp [Event.idle, amountSince] at h ⊢

/-- What a step that calls back has applied: a zero count that the step answers,
about the message's target, and nothing but idle events were added. -/
structure Answers (s s' : Group n) (a : Action n) (t : CollectiveIndex) (k : Nat)
    (count : Count) : Prop where
  answers : s.answers a = some (k, t)
  result : s'.IsResult k count
  target : count.target = t
  zero : count.gcount = 0
  idle : ∀ q, ∀ e ∈ (s'.pes q).events, e ∈ (s.pes q).events ∨ e.idle = true

/-- Only an element whose callbacks change has taken the step. -/
theorem SendsCallback.pe_eq {r s' : Group n} {p q : Fin (n + 1)} {pe : Pe}
    {msg : DetectionMessage} (h : (s'.pes p).callbacks = (r.pes p).callbacks ++ [msg])
    (hs : s' = r.setPe q pe) : p = q := by
  by_contra hne
  rw [hs, setPe_pes_ne r hne] at h
  simp at h

/-- Applying a count calls the stored message back if the count is zero. -/
theorem receiveCount_answers {r s' : Group n} (h : GroupInv r)
    {p q : Fin (n + 1)} {k : Nat}
    {count : Count} {msg : DetectionMessage} (hres : r.IsResult k count)
    (hs : s' = r.receiveCount detector q k count)
    (hcb : (s'.pes p).callbacks = (r.pes p).callbacks ++ [msg]) :
    p = q ∧ count.gcount = 0 ∧ count.target = msg.target ∧ s'.IsResult k count ∧
      ∀ q, ∀ e ∈ (s'.pes q).events, e ∈ (r.pes q).events ∨ e.idle = true := by
  rcases receiveCount_cases r q k count with ⟨pe, hpe, hrun⟩ | ⟨_, hrun⟩
  · rw [hrun] at hs
    have hpq := SendsCallback.pe_eq hcb hs
    subst hpq
    obtain ⟨m, _, htarget, hcontrib, hevents⟩ := receiveCount_spec (h.pes p) hpe
    have hgrows : r.contributions.Grows s'.contributions := by
      rw [hs]
      exact setPe_grows (by rw [hcontrib]; exact List.prefix_append _ _)
    have hidle : ∀ q, ∀ e ∈ (s'.pes q).events, e ∈ (r.pes q).events ∨ e.idle = true := by
      intro q e he
      rw [hs] at he
      by_cases hqp : q = p
      · subst hqp
        rw [setPe_pes_self, hevents] at he
        rcases List.mem_append.mp he with he | he
        · exact Or.inl he
        · refine Or.inr ?_
          simp only [List.mem_cons] at he
          rcases he with rfl | rfl | he
          · rfl
          · rfl
          · split at he
            next => rw [List.mem_singleton.mp he]; rfl
            next => cases he
      · rw [setPe_pes_ne r hqp] at he
        exact Or.inl he
    rw [hs, setPe_pes_self, Pe.callbacks, hevents, Pe.callbacks,
      List.filterMap_append] at hcb
    have hlast := List.append_cancel_left hcb
    by_cases hzero : count.gcount = 0
    · rw [if_pos hzero] at hlast
      obtain rfl : m = msg := by simpa using hlast
      exact ⟨rfl, hzero, htarget.symm, IsResult.grows hgrows hres, hidle⟩
    · rw [if_neg hzero] at hlast
      simp at hlast
  · rw [hs, hrun] at hcb
    simp at hcb

/-- A step that sends a callback answers a reduction with a zero count. -/
theorem exists_answers {s s' : Group n} {a : Action n} (h : GroupInv s)
    (hs : s.step detector a = some s') {p : Fin (n + 1)} {msg : DetectionMessage}
    (hcb : SendsCallback s s' p msg) : ∃ k count, Answers s s' a msg.target k count := by
  obtain ⟨_, ⟨q, m, rfl, _, heq⟩ | ⟨q, t, x, hqx⟩ | ⟨k, rfl, hready, _, heq⟩ |
    ⟨j, q, k, count, rfl, hj, heq⟩⟩ := step_cases hs
  · -- the flag was set: the reduction that set it
    obtain rfl := SendsCallback.pe_eq hcb heq
    have hevents := startDetection_events ((s.pes p).record (.delivered m)) detector m
    rw [SendsCallback, heq, setPe_pes_self, startDetection_callbacks,
      record_status] at hcb
    by_cases hcomplete : ((s.pes p).status m.target).complete = true
    · rw [if_pos hcomplete] at hcb
      obtain rfl : m = msg := by simpa [Pe.callbacks] using hcb
      obtain ⟨k, count, hdec, hzero⟩ := (h.pes p).flagged _ hcomplete
      obtain ⟨happ, htarget⟩ := applied_of_decided hdec
      refine ⟨k, count, ?_, ?_, htarget, hzero, fun q e he => ?_⟩
      · rw [Group.answers, if_pos hcomplete, hdec]
        rfl
      · refine IsResult.grows ?_ (h.applied p k count happ)
        rw [heq]
        exact setPe_grows (by
          rw [startDetection_contributions]
          exact List.prefix_append _ _)
      · rw [heq] at he
        by_cases hqp : q = p
        · subst hqp
          rw [setPe_pes_self, hevents, record_events, record_status,
            if_pos hcomplete] at he
          simp only [List.mem_append, List.mem_cons, List.not_mem_nil, or_false] at he
          rcases he with (he | rfl) | rfl | rfl
          · exact Or.inl he
          all_goals exact Or.inr rfl
        · rw [setPe_pes_ne s hqp] at he
          exact Or.inl he
    · rw [if_neg hcomplete] at hcb
      simp [Pe.callbacks] at hcb
  · exfalso
    have hprod : ∀ y : Int, s' = s.setPe q ((s.pes q).produce t y) → False := by
      intro y hy
      obtain rfl := SendsCallback.pe_eq hcb hy
      rw [SendsCallback, hy, setPe_pes_self, produce_eq] at hcb
      simp [Pe.callbacks] at hcb
    rcases hqx with ⟨_, heq⟩ | ⟨_, heq⟩
    · exact hprod _ heq
    · exact hprod _ heq
  · obtain ⟨_, hzero, htarget, hres, hidle⟩ :=
      receiveCount_answers (h.broadcastResult hready)
        (show (s.broadcastResult k).IsResult k (s.result k) from ⟨hready, rfl⟩) heq hcb
    refine ⟨k, s.result k, ?_, hres, htarget, hzero, hidle⟩
    rw [Group.answers, if_pos hzero, htarget]
  · obtain ⟨_, hzero, htarget, hres, hidle⟩ :=
      receiveCount_answers (h.takeCopy j) (h.flight _ (List.mem_of_getElem? hj)) heq hcb
    refine ⟨k, count, ?_, hres, htarget, hzero, hidle⟩
    rw [Group.answers, hj, ← htarget]
    exact if_pos hzero

/-- With a zero count and nothing since, the local counts sum to zero as words. -/
theorem sum_lcount_eq_zero {s : Group n} (h : GroupInv s) {k : Nat} {count : Count}
    (hres : s.IsResult k count) (hzero : count.gcount = 0)
    (hsince : ∀ q, (s.pes q).since k count.target = 0) :
    ∑ q, ((s.pes q).status count.target).lcount = 0 := by
  have hcount : ∀ q, ((s.pes q).status count.target).lcount
      = (s.contributions.rank k q).gcount := by
    intro q
    have hq := (h.pes q).counted k _ (Contributions.getElem?_rank hres.1 q)
    rw [rank_target h hres q, hsince q] at hq
    exact hq.trans (add_zero _)
  calc ∑ q, ((s.pes q).status count.target).lcount
      = ∑ q, (s.contributions.rank k q).gcount := Finset.sum_congr rfl fun q _ => hcount q
    _ = count.gcount := by rw [← result_gcount, ← hres.2]
    _ = 0 := hzero

/-- Runs of orderly steps keep both invariants. -/
theorem reachable_eventsInv {s : Group n} (h : (system detector).Reachable Orderly s) :
    GroupInv s ∧ EventsInv s :=
  h.invariant (I := fun s => GroupInv s ∧ EventsInv s)
    (fun _ hs => hs ▸ ⟨init_groupInv, init_eventsInv⟩)
    (fun _ _ _ hi hc hs => ⟨step_groupInv hi.1 hc.order hs,
      step_eventsInv hi.2 hi.1 hc.bounded hs⟩)

/-- **What a callback means.** In a run in which all PEs contribute in one order
of targets, fewer than `2 ^ 63` events of a target are produced and no PE has an
event of a target after its contribution to a reduction that a callback for it
answers, whenever a callback is sent the local counts of its target sum to zero
and every event produced is consumed. -/
theorem callback_settled {s s' : Group n} {a : Action n}
    (hreach : (system detector).Reachable Orderly s) (horderly : Orderly s a)
    (hs : s.step detector a = some s') {p : Fin (n + 1)} {msg : DetectionMessage}
    (hcb : SendsCallback s s' p msg) :
    s'.outstanding msg.target = 0 ∧ s'.unconsumed msg.target = 0 := by
  obtain ⟨h, he⟩ := reachable_eventsInv hreach
  have h' := step_groupInv h horderly.order hs
  have he' := step_eventsInv he h horderly.bounded hs
  obtain ⟨k, count, hans⟩ := exists_answers h hs hcb
  have hsince : ∀ q, (s'.pes q).since k count.target = 0 := by
    intro q
    refine List.sum_eq_zero fun x hx => ?_
    obtain ⟨e, hmem, rfl⟩ := List.mem_map.mp hx
    rcases hans.idle q e hmem with hold | hidle
    · rw [hans.target]
      exact horderly.undisturbed (k, msg.target) hans.answers q e hold
    · exact amountSince_idle hidle _ _
  have hwords := sum_lcount_eq_zero h' hans.result hans.zero hsince
  rw [hans.target] at hwords
  have hnet : s'.unconsumed msg.target = 0 := by
    -- the words of the events, of which there are fewer than `2 ^ 63`
    simp only [(h'.pes _).balanced, sum_ofInt] at hwords
    have hbacked := he'.backed msg.target
    have hfits := he'.fits msg.target
    have hle : s'.unconsumed msg.target ≤ s'.produced msg.target :=
      Finset.sum_le_sum fun q _ => by
        have := net_eq_sub (s'.pes q) msg.target
        have := consumed_nonneg (s'.pes q) msg.target
        omega
    exact eq_zero_of_ofInt hwords hbacked (by omega)
  refine ⟨?_, hnet⟩
  rw [← hnet]
  exact Finset.sum_congr rfl fun q _ => toInt_lcount he' h' q _

/-- An event produced between a PE's contribution and the result it gets back is
not in the count: the callback is sent with the event outstanding. -/
theorem callback_with_outstanding :
    ∃ s s' : Group 0,
      (system cdtDetector).run .init
      [.start 0 (cdtMessage 1), .produce 0 cdtTarget 1] = some s ∧
      s.step cdtDetector (.reduce 0) = some s' ∧
      SendsCallback s s' 0 (cdtMessage 1) ∧ s'.outstanding cdtTarget = 1 :=
  ⟨_, _, rfl, rfl, rfl, rfl⟩

/-- Four counts of `2 ^ 62` sum to the word zero: the callback is sent with
`2 ^ 64` events outstanding. -/
theorem callback_wraps :
    ∃ s s' : Group 3,
      (system cdtDetector).run .init
        ((List.finRange 4).map (.produce · cdtTarget (2 ^ 62)) ++
          (List.finRange 4).map (.start · (cdtMessage 1))) = some s ∧
      s.step cdtDetector (.reduce 0) = some s' ∧
      SendsCallback s s' 0 (cdtMessage 1) ∧ s'.outstanding cdtTarget = 2 ^ 64 :=
  ⟨_, _, rfl, rfl, rfl, by decide +kernel⟩

instance (s : Group n) (a : Action n) : Decidable (Bounded s a) :=
  match a with
  | .produce _ t m => inferInstanceAs (Decidable (s.produced t + m < 2 ^ 63))
  | .start .. | .consume .. | .reduce _ | .receive _ => inferInstanceAs (Decidable True)

instance (s : Group n) (a : Action n) : Decidable (Undisturbed s a) :=
  inferInstanceAs (Decidable (∀ r ∈ s.answers a, _))

instance (s : Group n) (a : Action n) : Decidable (Orderly s a) :=
  decidable_of_iff (SameOrder s a ∧ Bounded s a ∧ Undisturbed s a)
    ⟨fun h => ⟨h.1, h.2.1, h.2.2⟩, fun h => ⟨h.order, h.bounded, h.undisturbed⟩⟩

/-- Two PEs and two targets. The event PE 0 produced is consumed on PE 1 after its
first contribution, so the first round finds it; the second one is called back. -/
def settledRun (p q : Fin 2) : List (Action 1) :=
  [.produce p cdtTarget 1, .start p (cdtMessage 1), .start q (cdtMessage 1),
    .start p (otherMessage 2), .consume q cdtTarget 1,
      .start q (otherMessage 2), .reduce 0,
    .receive p, .reduce 1]

/-- The callback of the second round finds the event consumed. -/
theorem callback_settled_two :
    ∃ s s' : Group 1,
      (system cdtDetector).follow (fun s a => decide (Orderly s a)) .init
      (settledRun 0 1) = some s ∧
      s.step cdtDetector (.reduce 2) = some s' ∧ SendsCallback s s' 0 (cdtMessage 1) ∧
      (s.pes 0).callbacks = [otherMessage 2] ∧
      s'.outstanding cdtTarget = 0 ∧ s'.unconsumed cdtTarget = 0 := by
  have hrun : ((system cdtDetector).follow (fun s a => decide (Orderly s a)) .init
      (settledRun 0 1)).map (fun s =>
      (decide (Orderly s (.reduce 2)), (s.pes 0).callbacks,
        (s.step cdtDetector (.reduce 2)).map fun s' => (s'.pes 0).callbacks))
      = some (true, [otherMessage 2], some [otherMessage 2, cdtMessage 1]) := by
    decide +kernel
  obtain ⟨s, hs, hsum⟩ := Option.map_eq_some_iff.mp hrun
  obtain ⟨horderly, hsum⟩ := Prod.mk.inj hsum
  obtain ⟨hbefore, hstep⟩ := Prod.mk.inj hsum
  obtain ⟨s', hs', hafter⟩ := Option.map_eq_some_iff.mp hstep
  have hcb : SendsCallback s s' 0 (cdtMessage 1) := by
    rw [SendsCallback, hafter, hbefore]
    rfl
  have hreach : (system cdtDetector).Reachable Orderly s :=
    Transition.follow_reachable (fun _ _ hc => of_decide_eq_true hc) (settledRun 0 1)
      (.init rfl) hs
  have hsettled := callback_settled hreach (of_decide_eq_true horderly) hs' hcb
  exact ⟨s, s', hs, hs', hcb, hbefore, hsettled⟩

end CharmExperiments.Charmlite.Completion
