import CharmExperiments.Charmlite.Completion

/-!
# Completion detection: what a step does, and what is kept

`step_cases` says once what a step of the group can do; the three operations of
an element have closed forms (`startDetection_eq`, `produce_eq`,
`receiveCount_eq`). From these come two invariants. `PeInv` is about one
element: a stored message is about its own target, the flag is set by the last
count applied, and a local count is a contribution plus the events since.
`GroupInv` is about the reductions, in runs in which all PEs contribute in the
same order of targets (`SameOrder`): the contributions of a rank are about one
target, and a count applied or in flight is the sum of one rank.
-/

namespace CharmExperiments.Charmlite.Completion

open CharmExperiments.Lib

/-! ## The operations of an element -/

/-- The message an element holds for a target, the count and the flag, read off
one event list: the last count applied to a target. -/
def appliedTo (target : CollectiveIndex) : Event → Option (Nat × Count)
  | .applied k count => if count.target = target then some (k, count) else none
  | _ => none

/-- The last count `receive_count_` applied to a target: it set the flag. -/
def Pe.decided (pe : Pe) (target : CollectiveIndex) : Option (Nat × Count) :=
  (pe.events.filterMap (appliedTo target)).getLast?

/-- What an event adds to a target's count after the `k`-th contribution. -/
def amountSince (k : Nat) (target : CollectiveIndex) : Event → Int
  | .produced t n rank => if t = target ∧ k < rank then n else 0
  | _ => 0

/-- The events produced minus those consumed for a target since the element's
`k`-th contribution. -/
def Pe.since (pe : Pe) (k : Nat) (target : CollectiveIndex) : Int :=
  (pe.events.map (amountSince k target)).sum

/-- The messages whose callbacks a PE has sent, in order. -/
def Pe.callbacks (pe : Pe) : List DetectionMessage :=
  pe.events.filterMap fun
    | .callback msg => some msg
    | _ => none

section Element

variable {pe : Pe} {idx t : CollectiveIndex} {msg : DetectionMessage}
  {st : Status} {e : Event}

@[simp] theorem record_statii : (pe.record e).statii = pe.statii := rfl
@[simp] theorem record_status : (pe.record e).status t = pe.status t := rfl
@[simp] theorem record_contributions : (pe.record e).contributions =
    pe.contributions := rfl
@[simp] theorem record_events : (pe.record e).events = pe.events ++ [e] := rfl
@[simp] theorem setStatus_events : (pe.setStatus idx st).events = pe.events := rfl
@[simp] theorem setStatus_contributions :
    (pe.setStatus idx st).contributions = pe.contributions := rfl

@[simp] theorem allReduce_status {c : Count} :
    (pe.allReduce c).status t = pe.status t := rfl

@[simp] theorem setStatus_status_self : (pe.setStatus idx st).status idx = st := by
  simp [Pe.setStatus, Pe.status]

theorem setStatus_status_ne (h : t ≠ idx) : (pe.setStatus idx st).status t =
    pe.status t := by
  simp [Pe.setStatus, Pe.status, Function.update_of_ne h]

theorem setStatus_setStatus (st' : Status) :
    (pe.setStatus idx st).setStatus idx st' = pe.setStatus idx st' := by
  simp [Pe.setStatus]

/-- With a message, `get_status` stores it. -/
theorem getStatus_some :
    pe.getStatus idx (some msg) =
      pe.setStatus idx { pe.status idx with msg := some msg } := by
  unfold Pe.getStatus Pe.status
  cases pe.statii idx <;> rfl

/-- Without one, it only makes the entry. -/
theorem getStatus_none : pe.getStatus idx none = pe.setStatus idx (pe.status idx) := by
  unfold Pe.getStatus Pe.status
  cases h : pe.statii idx with
  | none => rfl
  | some st =>
    show pe = { pe with statii := Function.update pe.statii idx (some st) }
    rw [← h, Function.update_eq_self]

/-- `start_detection` stores the message, then calls back or contributes. -/
theorem startDetection_eq (detector : CollectiveIndex) :
    pe.startDetection detector msg =
      let st := pe.status msg.target
      let pe' := (pe.record (.used msg)).setStatus msg.target { st with msg := some msg }
      if st.complete then pe'.record (.callback msg)
      else pe'.allReduce ⟨detector, msg.target, st.lcount⟩ := by
  simp only [Pe.startDetection, getStatus_some, record_status, setStatus_status_self]

theorem startDetection_status_self (detector : CollectiveIndex) :
    (pe.startDetection detector msg).status msg.target
      = { pe.status msg.target with msg := some msg } := by
  rw [startDetection_eq]
  dsimp only
  split
  next => rw [record_status, setStatus_status_self]
  next => rw [allReduce_status, setStatus_status_self]

theorem startDetection_status_ne (detector : CollectiveIndex) (h : t ≠ msg.target) :
    (pe.startDetection detector msg).status t = pe.status t := by
  rw [startDetection_eq]
  dsimp only
  split
  next => rw [record_status, setStatus_status_ne h, record_status]
  next => rw [allReduce_status, setStatus_status_ne h, record_status]

theorem produce_eq (n : Int) :
    pe.produce idx n = (pe.setStatus idx { pe.status idx with
      lcount := (pe.status idx).lcount + BitVec.ofInt 64 n }).record
        (.produced idx n pe.contributions.length) := by
  simp only [Pe.produce, getStatus_none, setStatus_status_self, setStatus_setStatus,
    setStatus_contributions]

/-- `receive_count_` sets the flag and starts again with the stored message. -/
theorem receiveCount_eq (detector : CollectiveIndex) (k : Nat) (count : Count) :
    pe.receiveCount detector k count =
      (pe.status count.target).msg.map fun msg =>
        ((pe.record (.applied k count)).setStatus count.target
          { pe.status count.target with complete := count.gcount == 0 }).startDetection
            detector msg := by
  simp only [Pe.receiveCount, getStatus_none, record_status, setStatus_status_self,
    setStatus_setStatus]

end Element

/-! ## The steps of the group -/

variable {n : Nat} {detector : CollectiveIndex}

/-- `receive_count_` on a PE either finds a message there or ends the process. -/
theorem receiveCount_cases (s : Group n) (p : Fin (n + 1)) (k : Nat) (count : Count) :
    (∃ pe, (s.pes p).receiveCount detector k count = some pe ∧
      s.receiveCount detector p k count = s.setPe p pe) ∨
    ((s.pes p).status count.target).msg = none ∧
      s.receiveCount detector p k count = { s with crashed := true } := by
  unfold Group.receiveCount
  cases h : (s.pes p).receiveCount detector k count with
  | some pe => exact Or.inl ⟨pe, rfl, rfl⟩
  | none =>
    rw [receiveCount_eq, Option.map_eq_none_iff] at h
    exact Or.inr ⟨h, rfl⟩

/-- The root takes a reduction: its copies are sent. -/
def Group.broadcastResult (s : Group n) (k : Nat) : Group n :=
  { s with
    reduced := s.reduced ++ [k]
    inFlight := s.inFlight ++ (List.finRange n).map fun p : Fin n =>
      (p.succ, k, s.result k) }

/-- A copy is taken from the network. -/
def Group.takeCopy (s : Group n) (j : Nat) : Group n :=
  { s with inFlight := s.inFlight.eraseIdx j }

/-- What a step can do. -/
theorem step_cases {s s' : Group n} {a : Action n} (h : s.step detector a = some s') :
    s.crashed = false ∧
    ((∃ p msg, a = .start p msg ∧ .delivered msg ∉ (s.pes p).events ∧
        s' = s.setPe p (((s.pes p).record (.delivered msg)).startDetection
          detector msg)) ∨
      (∃ p target m, (a = .produce p target m ∧
        s' = s.setPe p ((s.pes p).produce target m) ∨
        a = .consume p target m ∧ s' = s.setPe p ((s.pes p).produce target (-m)))) ∨
      (∃ k, a = .reduce k ∧ s.contributions.Ready k ∧ k ∉ s.reduced ∧
        s' = (s.broadcastResult k).receiveCount detector 0 k (s.result k)) ∨
      (∃ j p k count, a = .receive j ∧ s.inFlight[j]? = some (p, k, count) ∧
        s' = (s.takeCopy j).receiveCount detector p k count)) := by
  unfold Group.step at h
  by_cases hc : s.crashed = true
  · rw [if_pos hc] at h
    cases h
  · rw [if_neg hc] at h
    refine ⟨Bool.eq_false_iff.mpr hc, ?_⟩
    cases a with
    | start p msg =>
      dsimp only at h
      split at h
      next => cases h
      next hfresh => exact Or.inl ⟨p, msg, rfl, hfresh, (Option.some.inj h).symm⟩
    | produce p target m =>
      exact Or.inr (Or.inl ⟨p, target, m, Or.inl ⟨rfl, (Option.some.inj h).symm⟩⟩)
    | consume p target m =>
      dsimp only at h
      split at h
      next => cases h
      next => exact Or.inr (Or.inl ⟨p, target, m, Or.inr ⟨rfl, (Option.some.inj h).symm⟩⟩)
    | reduce k =>
      dsimp only at h
      split at h
      next hk =>
        exact Or.inr (Or.inr (Or.inl ⟨k, rfl, hk.1, hk.2, (Option.some.inj h).symm⟩))
      next => cases h
    | receive j =>
      dsimp only at h
      split at h
      next => cases h
      next p k count hj =>
        exact Or.inr (Or.inr (Or.inr ⟨j, p, k, count, rfl, hj, (Option.some.inj h).symm⟩))

/-! ## `PeInv`: one element -/

theorem since_record (pe : Pe) (e : Event) (k : Nat) (t : CollectiveIndex) :
    (pe.record e).since k t = pe.since k t + amountSince k t e := by
  simp [Pe.since]

theorem net_record (pe : Pe) (e : Event) (t : CollectiveIndex) :
    (pe.record e).net t = pe.net t + amountOf t e := by
  simp [Pe.net]

theorem decided_record_none {pe : Pe} {e : Event} {t : CollectiveIndex}
    (h : appliedTo t e = none) : (pe.record e).decided t = pe.decided t := by
  simp [Pe.decided, List.filterMap_append, h]

theorem decided_record_some {pe : Pe} {e : Event} {t : CollectiveIndex} {r : Nat × Count}
    (h : appliedTo t e = some r) : (pe.record e).decided t = some r := by
  simp [Pe.decided, List.filterMap_append, h]

/-- A decided count was applied. -/
theorem applied_of_decided {pe : Pe} {t : CollectiveIndex} {k : Nat} {count : Count}
    (h : pe.decided t = some (k, count)) :
    .applied k count ∈ pe.events ∧ count.target = t := by
  obtain ⟨e, he, happ⟩ := List.mem_filterMap.mp (List.mem_of_getLast? h)
  cases e with
  | applied j c =>
    rw [appliedTo] at happ
    split at happ
    next ht =>
      obtain ⟨rfl, rfl⟩ := Prod.mk.inj (Option.some.inj happ)
      exact ⟨he, ht⟩
    next => cases happ
  | _ => cases happ

/-- The invariant of an element: stored messages are about their target, every
contribution's target has one, the flag was set by a zero count, and the local
count is what was contributed plus what happened since, and all that happened. -/
structure PeInv (pe : Pe) : Prop where
  keyed : ∀ t m, (pe.status t).msg = some m → m.target = t
  started : ∀ c ∈ pe.contributions, ∃ m, (pe.status c.target).msg = some m
  flagged : ∀ t, (pe.status t).complete = true →
    ∃ k count, pe.decided t = some (k, count) ∧ count.gcount = 0
  ranked : ∀ t m r, .produced t m r ∈ pe.events → r ≤ pe.contributions.length
  counted : ∀ k c, pe.contributions[k]? = some c →
    (pe.status c.target).lcount = c.gcount + BitVec.ofInt 64 (pe.since k c.target)
  balanced : ∀ t, (pe.status t).lcount = BitVec.ofInt 64 (pe.net t)

theorem init_peInv : PeInv .init where
  keyed := by intro t m h; simp [Pe.init, Pe.status, Status.fresh] at h
  started := by intro c h; simp [Pe.init] at h
  flagged := by intro t h; simp [Pe.init, Pe.status, Status.fresh] at h
  ranked := by intro t m r h; simp [Pe.init] at h
  counted := by intro k c h; simp [Pe.init] at h
  balanced := by intro t; simp [Pe.init, Pe.status, Status.fresh, Pe.net]

/-- Events that neither change a count nor apply one. -/
def Event.silent : Event → Bool
  | .produced .. => false
  | .applied .. => false
  | _ => true

theorem PeInv.record_silent {pe : Pe} (h : PeInv pe) {e : Event} (he : e.silent = true) :
    PeInv (pe.record e) where
  keyed := h.keyed
  started := h.started
  flagged := by
    intro t hflag
    obtain ⟨k, count, hdec, hzero⟩ := h.flagged t hflag
    refine ⟨k, count, ?_, hzero⟩
    rw [decided_record_none (by cases e <;> simp [Event.silent, appliedTo] at he ⊢)]
    exact hdec
  ranked := by
    intro t m r hr
    rcases List.mem_append.mp hr with hr | hr
    · exact h.ranked t m r hr
    · obtain rfl := List.mem_singleton.mp hr
      simp [Event.silent] at he
  counted := by
    intro k c hc
    have hamount : amountSince k c.target e = 0 := by
      cases e <;> simp [Event.silent, amountSince] at he ⊢
    rw [record_status, since_record, hamount, h.counted k c hc, Int.add_zero]
  balanced := by
    intro t
    have hamount : amountOf t e = 0 := by
      cases e <;> simp [Event.silent, amountOf] at he ⊢
    rw [record_status, net_record, hamount, h.balanced t, Int.add_zero]

/-- Storing a message of the target. -/
theorem PeInv.store {pe : Pe} (h : PeInv pe) (msg : DetectionMessage) :
    PeInv (pe.setStatus msg.target { pe.status msg.target with msg := some msg }) where
  keyed := by
    intro t m hm
    by_cases ht : t = msg.target
    · subst ht
      rw [setStatus_status_self] at hm
      exact congrArg DetectionMessage.target (Option.some.inj hm).symm
    · rw [setStatus_status_ne ht] at hm
      exact h.keyed t m hm
  started := by
    intro c hc
    by_cases ht : c.target = msg.target
    · exact ⟨msg, by rw [ht, setStatus_status_self]⟩
    · rw [setStatus_status_ne ht]
      exact h.started c hc
  flagged := by
    intro t hflag
    by_cases ht : t = msg.target
    · subst ht
      rw [setStatus_status_self] at hflag
      exact h.flagged msg.target hflag
    · rw [setStatus_status_ne ht] at hflag
      exact h.flagged t hflag
  ranked := h.ranked
  counted := by
    intro k c hc
    rw [show (pe.setStatus msg.target _).since k c.target = pe.since k c.target from rfl,
      ← h.counted k c hc]
    by_cases ht : c.target = msg.target
    · rw [ht, setStatus_status_self]
    · rw [setStatus_status_ne ht]
  balanced := by
    intro t
    rw [show (pe.setStatus msg.target _).net t = pe.net t from rfl, ← h.balanced t]
    by_cases ht : t = msg.target
    · rw [ht, setStatus_status_self]
    · rw [setStatus_status_ne ht]

/-- Contributing the local count of a target with a stored message: nothing has
happened since. -/
theorem PeInv.contribute {pe : Pe} (h : PeInv pe) {t : CollectiveIndex}
    {m : DetectionMessage}
    (hm : (pe.status t).msg = some m) (detector : CollectiveIndex) :
    PeInv (pe.allReduce ⟨detector, t, (pe.status t).lcount⟩) where
  keyed := h.keyed
  started := by
    intro c hc
    rcases List.mem_append.mp hc with hc | hc
    · exact h.started c hc
    · obtain rfl := List.mem_singleton.mp hc
      exact ⟨m, hm⟩
  flagged := h.flagged
  ranked := by
    intro u a r hr
    have hle := h.ranked u a r hr
    rw [show (pe.allReduce _).contributions = pe.contributions ++ [_] from rfl,
      List.length_append]
    omega
  counted := by
    intro k c hc
    rw [show (pe.allReduce _).contributions = pe.contributions ++ [_] from rfl] at hc
    rcases Nat.lt_trichotomy k pe.contributions.length with hlt | heq | hgt
    · rw [List.getElem?_append_left hlt] at hc
      exact h.counted k c hc
    · subst heq
      rw [List.getElem?_concat_length] at hc
      obtain rfl := Option.some.inj hc
      -- nothing was produced since the contribution just made
      have hzero : pe.since pe.contributions.length t = 0 := by
        apply List.sum_eq_zero
        intro x hx
        obtain ⟨e, he, rfl⟩ := List.mem_map.mp hx
        cases e with
        | produced u a r =>
          have hle := h.ranked u a r he
          rw [amountSince, if_neg (by omega)]
        | _ => rfl
      show (pe.status t).lcount
        = (pe.status t).lcount + BitVec.ofInt 64 (pe.since pe.contributions.length t)
      rw [hzero, show BitVec.ofInt 64 0 = 0 from rfl, add_zero]
    · rw [List.getElem?_eq_none (by simp; omega)] at hc
      cases hc
  balanced := h.balanced

/-- Applying a count: the flag is what the last count says. -/
theorem PeInv.apply {pe : Pe} (h : PeInv pe) (k : Nat) (count : Count) :
    PeInv ((pe.record (.applied k count)).setStatus count.target
      { pe.status count.target with complete := count.gcount == 0 }) where
  keyed := by
    intro t m hm
    by_cases ht : t = count.target
    · subst ht
      rw [setStatus_status_self] at hm
      exact h.keyed count.target m hm
    · rw [setStatus_status_ne ht] at hm
      exact h.keyed t m hm
  started := by
    intro c hc
    obtain ⟨m, hm⟩ := h.started c hc
    refine ⟨m, ?_⟩
    by_cases ht : c.target = count.target
    · rw [ht] at hm ⊢
      rw [setStatus_status_self]
      exact hm
    · rw [setStatus_status_ne ht]
      exact hm
  flagged := by
    intro t hflag
    by_cases ht : t = count.target
    · subst ht
      rw [setStatus_status_self] at hflag
      refine ⟨k, count, ?_, by simpa using hflag⟩
      -- the count applied last decides
      exact decided_record_some (by simp [appliedTo])
    · rw [setStatus_status_ne ht] at hflag
      obtain ⟨j, c, hdec, hzero⟩ := h.flagged t hflag
      refine ⟨j, c, ?_, hzero⟩
      rw [show Pe.decided (Pe.setStatus _ _ _) t =
        (pe.record (.applied k count)).decided t from rfl,
        decided_record_none (by simp [appliedTo, Ne.symm ht])]
      exact hdec
  ranked := by
    intro t m r hr
    rcases List.mem_append.mp hr with hr | hr
    · exact h.ranked t m r hr
    · cases List.mem_singleton.mp hr
  counted := by
    intro j c hc
    rw [show Pe.since (Pe.setStatus _ _ _) j c.target
        = (pe.record (.applied k count)).since j c.target from rfl,
      since_record, show amountSince j c.target (.applied k count) =
        0 from rfl, Int.add_zero,
      ← h.counted j c hc]
    by_cases ht : c.target = count.target
    · rw [ht, setStatus_status_self]
    · rw [setStatus_status_ne ht]
      rfl
  balanced := by
    intro t
    rw [show Pe.net (Pe.setStatus _ _ _) t =
      (pe.record (.applied k count)).net t from rfl,
      net_record, show amountOf t (.applied k count) = 0 from rfl, Int.add_zero,
        ← h.balanced t]
    by_cases ht : t = count.target
    · rw [ht, setStatus_status_self]
    · rw [setStatus_status_ne ht]
      rfl

theorem PeInv.produce {pe : Pe} (h : PeInv pe) (idx : CollectiveIndex) (m : Int) :
    PeInv (pe.produce idx m) := by
  rw [produce_eq]
  constructor
  · intro t x hx
    rw [record_status] at hx
    by_cases ht : t = idx
    · subst ht
      rw [setStatus_status_self] at hx
      exact h.keyed t x hx
    · rw [setStatus_status_ne ht] at hx
      exact h.keyed t x hx
  · intro c hc
    obtain ⟨x, hx⟩ := h.started c hc
    refine ⟨x, ?_⟩
    rw [record_status]
    by_cases ht : c.target = idx
    · rw [ht] at hx ⊢
      rw [setStatus_status_self]
      exact hx
    · rw [setStatus_status_ne ht]
      exact hx
  · intro t hflag
    rw [decided_record_none rfl]
    rw [record_status] at hflag
    by_cases ht : t = idx
    · subst ht
      rw [setStatus_status_self] at hflag
      exact h.flagged t hflag
    · rw [setStatus_status_ne ht] at hflag
      exact h.flagged t hflag
  · intro t x r hr
    rcases List.mem_append.mp hr with hr | hr
    · exact h.ranked t x r hr
    · obtain ⟨_, _, rfl⟩ := Event.produced.inj (List.mem_singleton.mp hr)
      exact Nat.le_refl _
  · intro k c hc
    have hlt : k < pe.contributions.length := (List.getElem?_eq_some_iff.mp hc).1
    rw [record_status, since_record, show Pe.since (Pe.setStatus _ _ _) k c.target
      = pe.since k c.target from rfl]
    have hcount := h.counted k c hc
    by_cases ht : c.target = idx
    · -- produced after contribution `k`
      rw [ht, setStatus_status_self, amountSince, if_pos ⟨rfl, hlt⟩]
      rw [ht] at hcount
      show (pe.status idx).lcount + BitVec.ofInt 64 m = _
      rw [hcount, BitVec.ofInt_add, BitVec.add_assoc]
    · rw [setStatus_status_ne ht, amountSince,
        if_neg (fun hh => ht hh.1.symm), Int.add_zero]
      exact hcount
  · intro t
    have hnet : (pe.setStatus idx { pe.status idx with
        lcount := (pe.status idx).lcount + BitVec.ofInt 64 m }).net t = pe.net t := rfl
    rw [record_status, net_record, hnet, amountOf, BitVec.ofInt_add, ← h.balanced t]
    by_cases ht : t = idx
    · rw [ht, setStatus_status_self, if_pos rfl]
    · rw [setStatus_status_ne ht, if_neg (Ne.symm ht),
        show BitVec.ofInt 64 0 = 0 from rfl, add_zero]

theorem PeInv.startDetection {pe : Pe} (h : PeInv pe) (detector : CollectiveIndex)
    (msg : DetectionMessage) : PeInv (pe.startDetection detector msg) := by
  have hstored := (h.record_silent (e := .used msg) rfl).store msg
  rw [startDetection_eq]
  dsimp only
  split
  next => exact hstored.record_silent rfl
  next =>
    have hcontrib := hstored.contribute (t := msg.target) (m := msg) (by simp) detector
    simpa using hcontrib

theorem PeInv.receiveCount {pe pe' : Pe} (h : PeInv pe) {k : Nat} {count : Count}
    (hr : pe.receiveCount detector k count = some pe') : PeInv pe' := by
  rw [receiveCount_eq, Option.map_eq_some_iff] at hr
  obtain ⟨msg, _, rfl⟩ := hr
  exact (h.apply k count).startDetection detector msg

/-! ## `GroupInv`: the reductions -/

theorem startDetection_contributions (pe : Pe) (detector : CollectiveIndex)
    (msg : DetectionMessage) :
    (pe.startDetection detector msg).contributions = pe.contributions ++
      if (pe.status msg.target).complete then []
      else [⟨detector, msg.target, (pe.status msg.target).lcount⟩] := by
  rw [startDetection_eq]
  dsimp only
  split <;> simp [Pe.allReduce]

theorem startDetection_events (pe : Pe) (detector : CollectiveIndex)
    (msg : DetectionMessage) : (pe.startDetection detector msg).events =
    pe.events ++ .used msg ::
      if (pe.status msg.target).complete then [.callback msg] else [] := by
  rw [startDetection_eq]
  dsimp only
  split <;> simp [Pe.allReduce]

theorem startDetection_callbacks (pe : Pe) (detector : CollectiveIndex)
    (msg : DetectionMessage) :
    (pe.startDetection detector msg).callbacks
      = pe.callbacks ++ if (pe.status msg.target).complete then [msg] else [] := by
  rw [Pe.callbacks, startDetection_events]
  split <;> simp [Pe.callbacks]

/-- Applying a count calls the stored message back or contributes for it again. -/
theorem receiveCount_spec {pe pe' : Pe} (h : PeInv pe) {k : Nat} {count : Count}
    (hr : pe.receiveCount detector k count = some pe') :
    ∃ msg, (pe.status count.target).msg = some msg ∧ msg.target = count.target ∧
      pe'.contributions = pe.contributions ++ (if count.gcount = 0 then []
        else [⟨detector, count.target, (pe.status count.target).lcount⟩]) ∧
      pe'.events = pe.events ++ .applied k count :: .used msg ::
        (if count.gcount = 0 then [.callback msg] else []) := by
  rw [receiveCount_eq, Option.map_eq_some_iff] at hr
  obtain ⟨msg, hmsg, rfl⟩ := hr
  have htarget := h.keyed _ _ hmsg
  refine ⟨msg, hmsg, htarget, ?_, ?_⟩
  · rw [startDetection_contributions, htarget]
    simp
  · rw [startDetection_events, htarget]
    simp

/-- A count is the sum of the `k`-th contributions of all PEs. -/
def Group.IsResult (s : Group n) (k : Nat) (count : Count) : Prop :=
  s.contributions.Ready k ∧ count = s.result k

/-- The root's message with the others added. -/
theorem foldl_add (sum : Count) (f : Fin n → Count) (l : List (Fin n)) :
    l.foldl (fun sum p => sum.add (f p)) sum
      = { sum with gcount := sum.gcount + (l.map fun p => (f p).gcount).sum } := by
  induction l generalizing sum with
  | nil => simp
  | cons p l ih =>
    rw [List.foldl_cons, ih, List.map_cons, List.sum_cons, ← add_assoc]
    rfl

/-- The result is about the root's target, whatever the others contributed. -/
theorem result_target (s : Group n) (k : Nat) :
    (s.result k).target = (s.contributions.rank k 0).target := by
  rw [Group.result, foldl_add _ fun p : Fin n => s.contributions.rank k p.succ]

theorem result_gcount (s : Group n) (k : Nat) :
    (s.result k).gcount = ∑ p, (s.contributions.rank k p).gcount := by
  rw [Group.result, foldl_add _ fun p : Fin n => s.contributions.rank k p.succ,
    Fin.sum_univ_succ, ← List.sum_ofFn, List.ofFn_eq_map]

theorem result_grows {s s' : Group n}
    (h : s.contributions.Grows s'.contributions) {k : Nat}
    (hk : s.contributions.Ready k) : s'.result k = s.result k := by
  unfold Group.result
  simp only [h.rank_eq hk]

theorem IsResult.grows {s s' : Group n}
    (h : s.contributions.Grows s'.contributions) {k : Nat}
    {count : Count} (hr : s.IsResult k count) : s'.IsResult k count :=
  ⟨h.ready hr.1, hr.2.trans (result_grows h hr.1).symm⟩

/-- The invariant of the group in runs that contribute in one order. -/
structure GroupInv (s : Group n) : Prop where
  pes : ∀ p, PeInv (s.pes p)
  agree : s.contributions.Agree Count.target
  flight : ∀ r ∈ s.inFlight, s.IsResult r.2.1 r.2.2
  applied : ∀ p k count, .applied k count ∈ (s.pes p).events → s.IsResult k count

theorem init_groupInv : GroupInv (.init : Group n) where
  pes := fun _ => init_peInv
  agree := by intro k p q x y hx; simp [Group.init, Group.contributions, Pe.init] at hx
  flight := by intro r hr; simp [Group.init] at hr
  applied := by intro p k count h; simp [Group.init, Pe.init] at h

@[simp] theorem setPe_pes_self (s : Group n) (p : Fin (n + 1)) (pe : Pe) :
    (s.setPe p pe).pes p = pe := Function.update_self ..

theorem setPe_pes_ne (s : Group n) {p q : Fin (n + 1)} (h : q ≠ p) (pe : Pe) :
    (s.setPe p pe).pes q = s.pes q := Function.update_of_ne h ..

/-- An element that made no contribution. -/
theorem setPe_contributions_same {s : Group n} {p : Fin (n + 1)} {pe : Pe}
    (h : pe.contributions = (s.pes p).contributions) :
    (s.setPe p pe).contributions = s.contributions := by
  funext q
  by_cases hq : q = p
  · subst hq
    rw [Group.contributions, setPe_pes_self, h]
    rfl
  · rw [Group.contributions, setPe_pes_ne s hq]
    rfl

theorem setPe_contributions_add {s : Group n} {p : Fin (n + 1)} {pe : Pe} {c : Count}
    (h : pe.contributions = (s.pes p).contributions ++ [c]) :
    (s.setPe p pe).contributions = s.contributions.add p c := by
  funext q
  by_cases hq : q = p
  · subst hq
    rw [Group.contributions, setPe_pes_self, h, Contributions.add, Function.update_self]
    rfl
  · rw [Group.contributions, setPe_pes_ne s hq, Contributions.add,
      Function.update_of_ne hq]
    rfl

/-- An element takes a step that contributes nothing or something that matches,
and applies at most a result. -/
theorem GroupInv.setPe {s : Group n} (h : GroupInv s) {p : Fin (n + 1)} {pe : Pe}
    (hpe : PeInv pe)
    (hc : pe.contributions = (s.pes p).contributions ∨
      ∃ c, pe.contributions = (s.pes p).contributions ++ [c] ∧
        s.contributions.Matches Count.target p c.target)
    (he : ∀ k count, .applied k count ∈ pe.events →
      .applied k count ∈ (s.pes p).events ∨ s.IsResult k count) : GroupInv
        (s.setPe p pe) := by
  have hgrows : s.contributions.Grows (s.setPe p pe).contributions := by
    rcases hc with hc | ⟨c, hc, _⟩
    · rw [setPe_contributions_same hc]
      exact .refl _
    · rw [setPe_contributions_add hc]
      exact Contributions.grows_add _ _ _
  refine ⟨fun q => ?_, ?_, fun r hr => IsResult.grows hgrows (h.flight r hr), ?_⟩
  · by_cases hq : q = p
    · subst hq
      rw [setPe_pes_self]
      exact hpe
    · rw [setPe_pes_ne s hq]
      exact h.pes q
  · rcases hc with hc | ⟨c, hc, hm⟩
    · rw [setPe_contributions_same hc]
      exact h.agree
    · rw [setPe_contributions_add hc]
      exact Contributions.agree_add h.agree hm
  · intro q k count hq
    apply IsResult.grows hgrows
    by_cases hqp : q = p
    · subst hqp
      rw [setPe_pes_self] at hq
      -- applied before, or a result applied in this step
      rcases he k count hq with hold | hres
      · exact h.applied q k count hold
      · exact hres
    · rw [setPe_pes_ne s hqp] at hq
      exact h.applied q k count hq

/-- The copies of a result that is ready are results. -/
theorem GroupInv.broadcastResult {s : Group n} (h : GroupInv s) {k : Nat}
    (hready : s.contributions.Ready k) : GroupInv (s.broadcastResult k) := by
  refine ⟨h.pes, h.agree, fun r hr => ?_, h.applied⟩
  rcases List.mem_append.mp hr with hr | hr
  · exact h.flight r hr
  · obtain ⟨q, _, rfl⟩ := List.mem_map.mp hr
    exact ⟨hready, rfl⟩

theorem GroupInv.takeCopy {s : Group n} (h : GroupInv s) (j : Nat) :
    GroupInv (s.takeCopy j) :=
  ⟨h.pes, h.agree, fun r hr => h.flight r (List.mem_of_mem_eraseIdx hr), h.applied⟩

/-- Applying a result on a PE, in order, keeps the invariant. -/
theorem GroupInv.receiveCount {s : Group n} (h : GroupInv s) {p : Fin (n + 1)} {k : Nat}
    {count : Count} (hres : s.IsResult k count)
    (horder : count.gcount ≠ 0 → s.contributions.Matches Count.target p count.target) :
    GroupInv (s.receiveCount detector p k count) := by
  rcases receiveCount_cases s p k count with ⟨pe, hpe, heq⟩ | ⟨_, heq⟩
  · rw [heq]
    obtain ⟨msg, _, _, hcontrib, hevents⟩ := receiveCount_spec (h.pes p) hpe
    apply h.setPe ((h.pes p).receiveCount hpe)
    · by_cases hzero : count.gcount = 0
      · rw [if_pos hzero, List.append_nil] at hcontrib
        exact Or.inl hcontrib
      · rw [if_neg hzero] at hcontrib
        exact Or.inr ⟨_, hcontrib, horder hzero⟩
    · intro j c hj
      rw [hevents] at hj
      rcases List.mem_append.mp hj with hj | hj
      · exact Or.inl hj
      · have hj' : (Event.applied j c) = .applied k count := by
          rcases List.mem_cons.mp hj with hj | hj
          · exact hj
          · exfalso
            split at hj <;> simp at hj
        obtain ⟨rfl, rfl⟩ := Event.applied.inj hj'
        exact Or.inr hres
  · rw [heq]
    exact ⟨h.pes, h.agree, h.flight, h.applied⟩

/-- The contributions of a rank are all for the target of their result. -/
theorem rank_target {s : Group n} (h : GroupInv s) {k : Nat} {count : Count}
    (hres : s.IsResult k count) (q : Fin (n + 1)) :
    (s.contributions.rank k q).target = count.target := by
  rw [hres.2, result_target]
  exact h.agree k q 0 _ _ (Contributions.getElem?_rank hres.1 q)
    (Contributions.getElem?_rank hres.1 0)

/-- Every step in order keeps the invariant. -/
theorem step_groupInv {s s' : Group n} {a : Action n} (h : GroupInv s)
    (horder : SameOrder s a) (hs : s.step detector a = some s') : GroupInv s' := by
  obtain ⟨_, ⟨p, msg, rfl, _, rfl⟩ | ⟨p, t, m, hpm⟩ | ⟨k, rfl, hready, _, rfl⟩ |
    ⟨j, p, k, count, rfl, hj, rfl⟩⟩ := step_cases hs
  · -- a detection message starts a round or is called back
    have hdel := (h.pes p).record_silent (e := .delivered msg) rfl
    apply h.setPe (hdel.startDetection detector msg)
    · have hcontrib :=
        startDetection_contributions ((s.pes p).record (.delivered msg)) detector msg
      rw [record_status, record_contributions] at hcontrib
      by_cases hcomplete : ((s.pes p).status msg.target).complete = true
      · rw [if_pos hcomplete, List.append_nil] at hcontrib
        exact Or.inl hcontrib
      · rw [if_neg hcomplete] at hcontrib
        refine Or.inr ⟨_, hcontrib, horder p msg.target ?_⟩
        rw [Group.contributes, if_neg hcomplete]
    · intro k count hk
      rw [startDetection_events, record_status, record_events] at hk
      refine Or.inl ?_
      split at hk <;> simpa using hk
  · have hprod : ∀ x : Int, GroupInv (s.setPe p ((s.pes p).produce t x)) := by
      intro x
      apply h.setPe ((h.pes p).produce t x)
      · rw [produce_eq]
        exact Or.inl rfl
      · intro k count hk
        rw [produce_eq] at hk
        exact Or.inl (by simpa using hk)
    rcases hpm with ⟨_, rfl⟩ | ⟨_, rfl⟩
    · exact hprod m
    · exact hprod (-m)
  · apply (h.broadcastResult hready).receiveCount ⟨hready, rfl⟩
    intro hne
    exact horder 0 _ (if_neg hne)
  · apply (h.takeCopy j).receiveCount (h.flight _ (List.mem_of_getElem? hj))
    intro hne
    exact horder p _ (by rw [Group.contributes, hj]; exact if_neg hne)

/-- Runs that contribute in one order keep the invariant. -/
theorem reachable_groupInv {C : Group n → Action n → Prop}
    (hC : ∀ s a, C s a → SameOrder s a)
    {s : Group n} (h : (system detector).Reachable C s) : GroupInv s :=
  h.invariant (fun _ hs => hs ▸ init_groupInv)
    (fun s a _ hi hc hs => step_groupInv hi (hC s a hc) hs)

/-! ## `DeliveryInv`: every result reaches every PE once -/

/-- The reductions whose results an element has applied, in order. -/
def Pe.appliedRanks (pe : Pe) : List Nat :=
  pe.events.filterMap fun
    | .applied k _ => some k
    | _ => none

/-- The reductions whose results are on their way to a PE. -/
def Group.copies (s : Group n) (p : Fin (n + 1)) : List Nat :=
  (s.inFlight.filter (·.1 = p)).map (·.2.1)

/-- Nothing has crashed, and each reduction taken by the root is, for each PE,
either on its way or applied. -/
structure DeliveryInv (s : Group n) : Prop where
  alive : s.crashed = false
  nodup : s.reduced.Nodup
  ready : ∀ k ∈ s.reduced, s.contributions.Ready k
  delivered : ∀ p, ((s.pes p).appliedRanks ++ s.copies p).Perm s.reduced

theorem init_deliveryInv : DeliveryInv (.init : Group n) :=
  ⟨rfl, .nil, by intro k hk; simp [Group.init] at hk, fun _ => .refl _⟩

/-- A PE that contributed to a reduction has a message to start again with. -/
theorem receiveCount_some {s : Group n} (h : GroupInv s) {p : Fin (n + 1)} {k : Nat}
    {count : Count} (hres : s.IsResult k count) :
    ∃ pe, (s.pes p).receiveCount detector k count = some pe := by
  have hrank := Contributions.getElem?_rank hres.1 p
  have htarget : (s.contributions.rank k p).target = count.target := by
    rw [hres.2, result_target]
    exact h.agree k p 0 _ _ hrank (Contributions.getElem?_rank hres.1 0)
  obtain ⟨m, hm⟩ := (h.pes p).started _ (List.mem_of_getElem? hrank)
  rw [htarget] at hm
  rw [receiveCount_eq, hm]
  exact ⟨_, rfl⟩

theorem receiveCount_appliedRanks {pe pe' : Pe} (h : PeInv pe) {k : Nat} {count : Count}
    (hr : pe.receiveCount detector k count = some pe') :
    pe'.appliedRanks = pe.appliedRanks ++ [k] := by
  obtain ⟨msg, _, _, _, hevents⟩ := receiveCount_spec h hr
  rw [Pe.appliedRanks, hevents, Pe.appliedRanks]
  by_cases hzero : count.gcount = 0 <;> simp [hzero]

theorem startDetection_appliedRanks (pe : Pe) (msg : DetectionMessage) :
    (pe.startDetection detector msg).appliedRanks = pe.appliedRanks := by
  rw [Pe.appliedRanks, startDetection_events, Pe.appliedRanks]
  split <;> simp

theorem produce_appliedRanks (pe : Pe) (t : CollectiveIndex) (m : Int) :
    (pe.produce t m).appliedRanks = pe.appliedRanks := by
  simp [Pe.appliedRanks, produce_eq]

/-- Elements only add to their contributions. -/
theorem setPe_grows {s : Group n} {p : Fin (n + 1)} {pe : Pe}
    (h : (s.pes p).contributions <+: pe.contributions) :
    s.contributions.Grows (s.setPe p pe).contributions := by
  intro q
  by_cases hq : q = p
  · subst hq
    rw [Group.contributions, Group.contributions, setPe_pes_self]
    exact h
  · rw [Group.contributions, Group.contributions, setPe_pes_ne s hq]

/-- An element takes a step that applies no result. -/
theorem DeliveryInv.setPe {s : Group n} (h : DeliveryInv s) {p : Fin (n + 1)} {pe : Pe}
    (hc : (s.pes p).contributions <+: pe.contributions)
    (hr : pe.appliedRanks = (s.pes p).appliedRanks) : DeliveryInv (s.setPe p pe) where
  alive := h.alive
  nodup := h.nodup
  ready := fun k hk => (setPe_grows hc).ready (h.ready k hk)
  delivered := by
    intro q
    by_cases hq : q = p
    · subst hq
      rw [setPe_pes_self, hr]
      exact h.delivered q
    · rw [setPe_pes_ne s hq]
      exact h.delivered q

theorem copies_broadcastResult (s : Group n) (k : Nat) (p : Fin (n + 1)) :
    (s.broadcastResult k).copies p = s.copies p ++ if p = 0 then [] else [k] := by
  rw [Group.copies, Group.broadcastResult, List.filter_append,
    List.map_append, Group.copies]
  congr 1
  rw [List.filter_map, List.map_map]
  cases p using Fin.cases with
  | zero =>
    rw [if_pos rfl, List.filter_eq_nil_iff.mpr, List.map_nil]
    intro q _
    simp
  | succ p =>
    rw [if_neg (Fin.succ_ne_zero p)]
    have hone : (List.finRange n).filter
      ((fun r : Fin (n + 1) × Nat × Count => decide (r.1 = p.succ)) ∘
        fun q : Fin n => (q.succ, k, s.result k)) = [p] := by
      rw [show ((fun r : Fin (n + 1) × Nat × Count => decide (r.1 = p.succ)) ∘
          fun q : Fin n => (q.succ, k, s.result k)) = fun q => q == p by
        funext q
        simp [Fin.succ_inj, beq_eq_decide]]
      rw [List.filter_beq, List.count_eq_one_of_mem (List.nodup_finRange n)
        (List.mem_finRange p)]
      rfl
    rw [hone]
    rfl

theorem copies_takeCopy {s : Group n} {j : Nat} {p : Fin (n + 1)} {k : Nat}
    {count : Count}
    (hj : s.inFlight[j]? = some (p, k, count)) (q : Fin (n + 1)) :
    (s.copies q).Perm ((if q = p then [k] else []) ++ (s.takeCopy j).copies q) := by
  obtain ⟨hlt, hget⟩ := List.getElem?_eq_some_iff.mp hj
  have hperm := List.getElem_cons_eraseIdx_perm hlt
  rw [hget] at hperm
  have hperm' := (hperm.filter (·.1 = q)).map (·.2.1)
  rw [List.filter_cons] at hperm'
  by_cases hqp : q = p
  · subst hqp
    rw [if_pos rfl]
    simpa [Group.copies, Group.takeCopy] using hperm'.symm
  · rw [if_neg hqp]
    simpa [Group.copies, Group.takeCopy, Ne.symm hqp] using hperm'.symm

/-- A PE applies the one result it still misses. -/
theorem DeliveryInv.apply {s : Group n} (hg : GroupInv s) {p : Fin (n + 1)} {k : Nat}
    {count : Count} (hres : s.IsResult k count) (halive : s.crashed = false)
    (hnodup : s.reduced.Nodup) (hready : ∀ k ∈ s.reduced, s.contributions.Ready k)
    (hdel : ∀ q, ((s.pes q).appliedRanks ++
      ((if q = p then [k] else []) ++ s.copies q)).Perm s.reduced) :
    DeliveryInv (s.receiveCount detector p k count) := by
  obtain ⟨pe, hpe⟩ := @receiveCount_some n detector s hg p k count hres
  obtain ⟨msg, _, _, hcontrib, _⟩ := receiveCount_spec (hg.pes p) hpe
  have hgrows : s.contributions.Grows (s.setPe p pe).contributions :=
    setPe_grows (by rw [hcontrib]; exact List.prefix_append _ _)
  rw [Group.receiveCount, hpe]
  refine ⟨halive, hnodup, fun j hj => hgrows.ready (hready j hj), fun q => ?_⟩
  have hq := hdel q
  show (((s.setPe p pe).pes q).appliedRanks ++ s.copies q).Perm s.reduced
  by_cases hqp : q = p
  · subst hqp
    rw [if_pos rfl] at hq
    rw [setPe_pes_self, receiveCount_appliedRanks (hg.pes q) hpe, List.append_assoc]
    exact hq
  · rw [if_neg hqp] at hq
    rw [setPe_pes_ne s hqp]
    exact hq

/-- Every step in order keeps the invariant: in order, no step crashes. -/
theorem step_deliveryInv {s s' : Group n} {a : Action n} (h : DeliveryInv s)
    (hg : GroupInv s) (hs : s.step detector a = some s') : DeliveryInv s' := by
  obtain ⟨_, ⟨p, msg, rfl, _, rfl⟩ | ⟨p, t, m, hpm⟩ | ⟨k, rfl, hready, hnew, rfl⟩ |
    ⟨j, p, k, count, rfl, hj, rfl⟩⟩ := step_cases hs
  · apply h.setPe
    · rw [startDetection_contributions]
      exact List.prefix_append _ _
    · rw [startDetection_appliedRanks]
      simp [Pe.appliedRanks]
  · have hprod : ∀ x : Int, DeliveryInv (s.setPe p ((s.pes p).produce t x)) := fun x =>
      h.setPe (by rw [produce_eq]; exact List.prefix_refl _) (produce_appliedRanks _ _ _)
    rcases hpm with ⟨_, rfl⟩ | ⟨_, rfl⟩
    · exact hprod m
    · exact hprod (-m)
  · apply DeliveryInv.apply (hg.broadcastResult hready) ⟨hready, rfl⟩ h.alive
    · exact List.nodup_append.mpr ⟨h.nodup, List.nodup_singleton k, fun x hx y hy hxy =>
        hnew (List.mem_singleton.mp hy ▸ hxy ▸ hx)⟩
    · intro j hj
      rcases List.mem_append.mp hj with hj | hj
      · exact h.ready j hj
      · rw [List.mem_singleton.mp hj]
        exact hready
    · -- the root applies it at once, the others have a copy on its way
      intro q
      rw [copies_broadcastResult]
      have hq := (h.delivered q).append_right [k]
      by_cases hq0 : q = 0
      · subst hq0
        rw [if_pos rfl, if_pos rfl, List.append_nil]
        refine List.Perm.trans ?_ hq
        rw [List.append_assoc]
        exact List.perm_append_comm.append_left _
      · rw [if_neg hq0, if_neg hq0, List.nil_append]
        rw [List.append_assoc] at hq
        exact hq
  · apply DeliveryInv.apply (hg.takeCopy j)
      (hg.flight _ (List.mem_of_getElem? hj)) h.alive
      h.nodup h.ready
    intro q
    exact ((copies_takeCopy hj q).symm.append_left _).trans (h.delivered q)

/-! ## The demo's groups -/

/-- The detector group of the demo. -/
def cdtDetector : CollectiveIndex := ⟨0, 1⟩

/-- The group whose events it watches. -/
def cdtTarget : CollectiveIndex := ⟨0, 2⟩

/-- A detection message for it, calling `cmk::exit` on all PEs. -/
def cdtMessage (id : Nat) : DetectionMessage := ⟨id, cdtTarget, ⟨1, all⟩⟩

/-- A second group of the demo kind. -/
def otherTarget : CollectiveIndex := ⟨0, 3⟩

def otherMessage (id : Nat) : DetectionMessage := ⟨id, otherTarget, ⟨1, all⟩⟩

instance (s : Group n) (a : Action n) : Decidable (SameOrder s a) :=
  decidable_of_iff
    (∀ r ∈ s.contributes a, ∀ q, ∀ y ∈ (s.contributions q)[(s.contributions r.1).length]?,
      y.target = r.2)
    ⟨fun h p t hpt q y hy => h (p, t) hpt q y hy, fun h r hr => h r.1 r.2 hr⟩

/-- One PE contributes in one order. -/
theorem sameOrder_single (s : Group 0) (a : Action 0) : SameOrder s a := by
  intro p t _ q y hy
  obtain rfl : q = p := Subsingleton.elim (α := Fin 1) q p
  rw [List.getElem?_eq_none (Nat.le_refl _)] at hy
  cases hy

/-- Any run on one PE contributes in one order. -/
theorem reachable_single {s : Group 0} (as : List (Action 0))
    (h : (system detector).run .init as = some s) :
    (system detector).Reachable SameOrder s :=
  Transition.run_reachable as (fun a _ s => sameOrder_single s a) (.init rfl) h

end CharmExperiments.Charmlite.Completion
