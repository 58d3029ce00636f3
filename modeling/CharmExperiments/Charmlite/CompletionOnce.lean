import CharmExperiments.Charmlite.CompletionInv

/-!
# Completion detection: one callback for every message

A status stores one message. As long as detection for a target is only started
where no round for it is running (`NoRoundRunning`), the stored message is the
one its PE's only unanswered contribution was made for: `OnceInv` says so of an
element, and that every other message delivered has been called back.
`callback_once` is the result over runs; `callback_twice` is what happens when
a second message is stored over the first.
-/

namespace CharmExperiments.Charmlite.Completion

open CharmExperiments.Lib

variable {n : Nat} {detector : CollectiveIndex}

/-- The message a running round for a target will be called back with. -/
def Pe.waiting (pe : Pe) (t : CollectiveIndex) : Option DetectionMessage :=
  if (pe.status t).complete then none else (pe.status t).msg

/-- Detection is started on a PE only when it has no round for the target
running: none was started there yet, or the last one found completion. -/
def NoRoundRunning (s : Group n) (a : Action n) : Prop :=
  ∀ p msg, a = .start p msg → (s.pes p).waiting msg.target = none

/-- Every reduction contributed to has been applied on every PE. -/
def Group.quiet (s : Group n) : Prop :=
  ∀ p k, k < (s.pes p).contributions.length → k ∈ (s.pes p).appliedRanks

/-- Messages are not used once called back, are called back at most once and,
at rest, have been called back where their target is complete. -/
structure CallbackOnce (s : Group n) : Prop where
  notUsed : ∀ p, (s.pes p).events.Pairwise fun e e' => ∀ m, e = .callback m → e' ≠ .used m
  once : ∀ p, (s.pes p).callbacks.Nodup
  all : s.quiet → ∀ p t, ((s.pes p).status t).complete = true →
    ∀ m, .delivered m ∈ (s.pes p).events → m.target = t → m ∈ (s.pes p).callbacks

/-! ## `OnceInv`: one element -/

/-- After a message's callback it is neither used nor called back. -/
def Event.Before (e e' : Event) : Prop := ∀ m, e = .callback m → e' ≠ .used m ∧
    e' ≠ .callback m

/-- The invariant of an element: an unanswered contribution is the only one for
its target and has a message waiting, and the messages delivered but not called
back are the ones waiting. -/
structure OnceInv (pe : Pe) : Prop where
  unanswered : ∀ k c, pe.contributions[k]? = some c → k ∉ pe.appliedRanks →
    pe.waiting c.target ≠ none
  single : ∀ j k c d, pe.contributions[j]? = some c → pe.contributions[k]? = some d →
    c.target = d.target → j ∉ pe.appliedRanks → k ∉ pe.appliedRanks → j = k
  waits : ∀ t m, pe.waiting t = some m → .delivered m ∈ pe.events ∧
    .callback m ∉ pe.events
  called : ∀ m, .delivered m ∈ pe.events → pe.waiting m.target ≠ some m →
    .callback m ∈ pe.events
  delivered : ∀ m, .callback m ∈ pe.events → .delivered m ∈ pe.events
  ordered : pe.events.Pairwise Event.Before

theorem init_onceInv : OnceInv .init where
  unanswered := by intro k c h; simp [Pe.init] at h
  single := by intro j k c d h; simp [Pe.init] at h
  waits := by intro t m h; simp [Pe.init, Pe.waiting, Pe.status, Status.fresh] at h
  called := by intro m h; simp [Pe.init] at h
  delivered := by intro m h; simp [Pe.init] at h
  ordered := .nil

/-- `start_detection` leaves its message waiting unless the flag is set. -/
theorem startDetection_waiting_self (pe : Pe) (msg : DetectionMessage) :
    (pe.startDetection detector msg).waiting msg.target
      = if (pe.status msg.target).complete then none else some msg := by
  rw [Pe.waiting, startDetection_status_self]

theorem startDetection_waiting_ne (pe : Pe) {msg : DetectionMessage} {t : CollectiveIndex}
    (ht : t ≠ msg.target) : (pe.startDetection detector msg).waiting t =
    pe.waiting t := by
  rw [Pe.waiting, startDetection_status_ne detector ht, Pe.waiting]

/-- A message waiting for a target is about it. -/
theorem PeInv.waiting_target {pe : Pe} (h : PeInv pe) {t : CollectiveIndex}
    {m : DetectionMessage} (hm : pe.waiting t = some m) : m.target = t := by
  rw [Pe.waiting] at hm
  split at hm
  next => cases hm
  next => exact h.keyed t m hm

theorem mem_callbacks {pe : Pe} {m : DetectionMessage} :
    m ∈ pe.callbacks ↔ .callback m ∈ pe.events := by
  unfold Pe.callbacks
  rw [List.mem_filterMap]
  constructor
  · rintro ⟨e, he, heq⟩
    cases e with
    | callback m' =>
      obtain rfl := Option.some.inj heq
      exact he
    | _ => cases heq
  · exact fun h => ⟨_, h, rfl⟩

/-- Before `start_detection` runs: the element's event list has grown by `pre`,
which delivers `m` or applies a count, and no contribution for the target of
`m` is unanswered any more. -/
structure Handling (pe pe₁ : Pe) (m : DetectionMessage) (pre : Event) : Prop where
  first : pre = .delivered m ∨ (∃ k c, pre = .applied k c) ∧ .delivered m ∈ pe.events
  free : ∀ m', pe.waiting m.target = some m' → m' = m
  fresh : .callback m ∉ pe.events
  events : pe₁.events = pe.events ++ [pre]
  contributions : pe₁.contributions = pe.contributions
  waiting : ∀ t, t ≠ m.target → pe₁.waiting t = pe.waiting t
  answered : ∀ k c, pe.contributions[k]? = some c → c.target = m.target →
    k ∈ pe₁.appliedRanks

section Handle

variable {pe pe₁ : Pe} {m : DetectionMessage} {pre : Event}

theorem Handling.events_eq (h : Handling pe pe₁ m pre) :
    (pe₁.startDetection detector m).events = pe.events ++ pre :: .used m ::
      if (pe₁.status m.target).complete then [.callback m] else [] := by
  rw [startDetection_events, h.events, List.append_assoc]
  rfl

theorem Handling.mem_ranks (h : Handling pe pe₁ m pre) {k : Nat}
    (hk : k ∈ pe.appliedRanks) :
    k ∈ (pe₁.startDetection detector m).appliedRanks := by
  rw [startDetection_appliedRanks, Pe.appliedRanks, h.events, List.filterMap_append]
  exact List.mem_append_left _ hk

theorem Handling.waiting_ne (h : Handling pe pe₁ m pre) {t : CollectiveIndex}
    (ht : t ≠ m.target) : (pe₁.startDetection detector m).waiting t = pe.waiting t :=
  (startDetection_waiting_ne pe₁ ht).trans (h.waiting t ht)

/-- A contribution unanswered afterwards is an old one for another target or
the new one for `m`. -/
theorem Handling.unanswered (h : Handling pe pe₁ m pre) {k : Nat} {c : Count}
    (hc : (pe₁.startDetection detector m).contributions[k]? = some c)
    (hk : k ∉ (pe₁.startDetection detector m).appliedRanks) :
    (pe.contributions[k]? = some c ∧ k ∉ pe.appliedRanks ∧ c.target ≠ m.target) ∨
      (k = pe.contributions.length ∧ c.target = m.target ∧
        (pe₁.status m.target).complete = false) := by
  rw [startDetection_contributions, h.contributions] at hc
  by_cases hlt : k < pe.contributions.length
  · rw [List.getElem?_append_left hlt] at hc
    refine Or.inl ⟨hc, fun hin => hk (h.mem_ranks hin), fun ht => ?_⟩
    rw [startDetection_appliedRanks] at hk
    exact hk (h.answered k c hc ht)
  · rw [List.getElem?_append_right (by omega)] at hc
    by_cases hcomplete : (pe₁.status m.target).complete = true
    · rw [if_pos hcomplete, List.getElem?_nil] at hc
      cases hc
    · rw [if_neg hcomplete, List.getElem?_singleton] at hc
      split at hc
      next hzero =>
        obtain rfl := Option.some.inj hc
        exact Or.inr ⟨by omega, rfl, Bool.eq_false_iff.mpr hcomplete⟩
      next => cases hc

/-- An element that starts or restarts detection keeps the invariant. -/
theorem OnceInv.handle (h : OnceInv pe) (hp : PeInv pe) (hh : Handling pe pe₁ m pre) :
    OnceInv (pe₁.startDetection detector m) := by
  have hev := @Handling.events_eq detector pe pe₁ m pre hh
  have hself := @startDetection_waiting_self detector pe₁ m
  have hpre : ∀ x, pre ≠ .used x ∧ pre ≠ .callback x := by
    intro x
    rcases hh.first with rfl | ⟨⟨k, c, rfl⟩, _⟩
    · exact ⟨by simp, by simp⟩
    · exact ⟨by simp, by simp⟩
  have hdel : .delivered m ∈ (pe₁.startDetection detector m).events := by
    rw [hev]
    rcases hh.first with rfl | ⟨_, hold⟩
    · simp
    · exact List.mem_append_left _ hold
  have hcallback : ∀ x, .callback x ∈ (pe₁.startDetection detector m).events →
      .callback x ∈ pe.events ∨ (x = m ∧ (pe₁.status m.target).complete = true) := by
    intro x hx
    rw [hev] at hx
    rcases List.mem_append.mp hx with hx | hx
    · exact Or.inl hx
    · rcases List.mem_cons.mp hx with hx | hx
      · exact absurd hx.symm (hpre x).2
      · split at hx
        next hcomplete => exact Or.inr ⟨by simpa using hx, hcomplete⟩
        next => simp at hx
  refine ⟨?_, ?_, ?_, ?_, ?_, ?_⟩
  · intro k c hc hk
    rcases hh.unanswered hc hk with ⟨hold, hnot, ht⟩ | ⟨_, ht, hcomplete⟩
    · rw [hh.waiting_ne ht]
      exact h.unanswered k c hold hnot
    · -- answered by this message: the PE is not waiting
      rw [ht, hself, hcomplete]
      simp
  · intro j k c d hc hd hcd hj hk
    rcases hh.unanswered hc hj with ⟨hc', hj', htc⟩ | ⟨hj', htc, _⟩
    · rcases hh.unanswered hd hk with ⟨hd', hk', _⟩ | ⟨_, htd, _⟩
      · exact h.single j k c d hc' hd' hcd hj' hk'
      · -- two contributions of one target: at most one is left by this message
        exact absurd (hcd.trans htd) htc
    · rcases hh.unanswered hd hk with ⟨_, _, htd⟩ | ⟨hk', _, _⟩
      · exact absurd (hcd.symm.trans htc) htd
      · omega
  · intro t x hx
    by_cases ht : t = m.target
    · rw [ht, hself] at hx
      split at hx
      next => cases hx
      next hcomplete =>
        obtain rfl := Option.some.inj hx
        refine ⟨hdel, fun hcb => ?_⟩
        rcases hcallback m hcb with hold | ⟨_, htrue⟩
        · exact hh.fresh hold
        · exact hcomplete htrue
    · rw [hh.waiting_ne ht] at hx
      obtain ⟨hxdel, hxcb⟩ := h.waits t x hx
      refine ⟨by rw [hev]; exact List.mem_append_left _ hxdel, fun hcb => ?_⟩
      rcases hcallback x hcb with hold | ⟨rfl, _⟩
      · exact hxcb hold
      · exact ht (hp.waiting_target hx).symm
  · intro x hx hnot
    by_cases hxm : x = m
    · subst hxm
      rw [hself] at hnot
      rw [hev]
      split at hnot
      next hcomplete => simp [hcomplete]
      next => exact absurd rfl hnot
    · have hxold : .delivered x ∈ pe.events := by
        rw [hev] at hx
        rcases List.mem_append.mp hx with hx | hx
        · exact hx
        · rcases List.mem_cons.mp hx with hx | hx
          · rcases hh.first with rfl | ⟨⟨k, c, rfl⟩, _⟩
            · exact absurd (Event.delivered.inj hx) hxm
            · cases hx
          · split at hx <;> simp at hx
      rw [hev]
      apply List.mem_append_left
      apply h.called x hxold
      by_cases ht : x.target = m.target
      · rw [ht]
        -- the PE waited for nothing else with this target
        exact fun hw => hxm (hh.free x hw)
      · rw [← hh.waiting_ne ht]
        exact hnot
  · intro x hx
    rcases hcallback x hx with hold | ⟨rfl, _⟩
    · rw [hev]
      exact List.mem_append_left _ (h.delivered x hold)
    · exact hdel
  · rw [hev, List.pairwise_append]
    refine ⟨h.ordered, ?_, ?_⟩
    · -- neither `pre` nor the use is a callback
      have hused : ∀ e', Event.Before (.used m) e' := fun e' x hx => by cases hx
      have hfirst : ∀ e', Event.Before pre e' := fun e' x hx => absurd hx (hpre x).2
      split <;> simp [hused, hfirst]
    · intro e he e' he' x hex
      subst hex
      have hxm : x ≠ m := fun hxm => hh.fresh (hxm ▸ he)
      rcases List.mem_cons.mp he' with rfl | he'
      · exact hpre x
      · split at he' <;> simp at he'
        · rcases he' with rfl | rfl
          · simp [Ne.symm hxm]
          · simp [Ne.symm hxm]
        · subst he'
          simp [Ne.symm hxm]

end Handle

/-! ## The group -/

theorem OnceInv.produce {pe : Pe} (h : OnceInv pe) (t : CollectiveIndex) (x : Int) :
    OnceInv (pe.produce t x) := by
  -- producing leaves the message waited for as it is
  have hwaiting : ∀ u, (pe.produce t x).waiting u = pe.waiting u := by
    intro u
    rw [produce_eq, Pe.waiting, record_status, Pe.waiting]
    by_cases hu : u = t
    · rw [hu, setStatus_status_self]
    · rw [setStatus_status_ne hu]
  have hevents : (pe.produce t x).events =
      pe.events ++ [.produced t x pe.contributions.length] := by
    rw [produce_eq]
    rfl
  have hcontrib : (pe.produce t x).contributions = pe.contributions := by
    rw [produce_eq]
    rfl
  have hcallback : ∀ m, .callback m ∈ (pe.produce t x).events ↔
      .callback m ∈ pe.events := by
    intro m
    rw [hevents]
    simp
  have hdelivered : ∀ m, .delivered m ∈ (pe.produce t x).events ↔
      .delivered m ∈ pe.events := by
    intro m
    rw [hevents]
    simp
  constructor
  · rw [hcontrib, produce_appliedRanks]
    intro k c hc hk
    rw [hwaiting]
    exact h.unanswered k c hc hk
  · rw [hcontrib, produce_appliedRanks]
    exact h.single
  · intro u m hm
    rw [hwaiting] at hm
    rw [hdelivered, hcallback]
    exact h.waits u m hm
  · intro m hm hnot
    rw [hdelivered] at hm
    rw [hwaiting] at hnot
    rw [hcallback]
    exact h.called m hm hnot
  · intro m hm
    rw [hcallback] at hm
    rw [hdelivered]
    exact h.delivered m hm
  · rw [hevents, List.pairwise_append]
    refine ⟨h.ordered, List.pairwise_singleton _ _, ?_⟩
    intro e he e' he' m hem
    obtain rfl := List.mem_singleton.mp he'
    simp

/-- Starting with a new message where no round is running. -/
theorem OnceInv.start {pe : Pe} (h : OnceInv pe) (hp : PeInv pe) {msg : DetectionMessage}
    (hfresh : .delivered msg ∉ pe.events) (hfree : pe.waiting msg.target = none) :
    OnceInv ((pe.record (.delivered msg)).startDetection detector msg) := by
  refine h.handle hp (show Handling _ _ _ (.delivered msg) from ?_)
  refine ⟨Or.inl rfl, ?_, fun hcb => hfresh (h.delivered msg hcb), rfl, rfl,
    fun _ _ => rfl, ?_⟩
  · intro m' hm'
    rw [hfree] at hm'
    cases hm'
  · intro k c hc ht
    by_contra hk
    have hk' : k ∉ pe.appliedRanks := by
      simpa [Pe.appliedRanks] using hk
    exact h.unanswered k c hc hk' (ht ▸ hfree)

/-- Applying the count of an unanswered contribution. -/
theorem OnceInv.receiveCount {pe pe' : Pe} (h : OnceInv pe) (hp : PeInv pe) {k : Nat}
    {count c : Count} (hc : pe.contributions[k]? = some c) (ht : c.target = count.target)
    (hk : k ∉ pe.appliedRanks) (hr : pe.receiveCount detector k count = some pe') :
    OnceInv pe' := by
  rw [receiveCount_eq, Option.map_eq_some_iff] at hr
  obtain ⟨msg, hmsg, rfl⟩ := hr
  have htarget := hp.keyed _ _ hmsg
  have hwaits : pe.waiting msg.target = some msg := by
    have hne := h.unanswered k c hc hk
    rw [ht, Pe.waiting] at hne
    rw [htarget, Pe.waiting]
    split at hne
    next => exact absurd rfl hne
    next hcomplete => rw [if_neg hcomplete, hmsg]
  obtain ⟨hdel, hcb⟩ := h.waits _ _ hwaits
  refine h.handle hp (show Handling _ _ _ (.applied k count) from ?_)
  refine ⟨Or.inr ⟨⟨k, count, rfl⟩, hdel⟩, ?_, hcb, rfl, rfl, ?_, ?_⟩
  · intro m' hm'
    rw [hwaits] at hm'
    exact (Option.some.inj hm').symm
  · intro t hne
    rw [htarget] at hne
    rw [Pe.waiting, setStatus_status_ne hne, record_status, Pe.waiting]
  · intro j d hd hdt
    have hranks : ((pe.record (.applied k count)).setStatus count.target
        { pe.status count.target with complete := count.gcount == 0 }).appliedRanks
        = pe.appliedRanks ++ [k] := by
      simp [Pe.appliedRanks]
    rw [hranks]
    by_cases hj : j ∈ pe.appliedRanks
    · exact List.mem_append_left _ hj
    · have hjk := h.single j k d c hd hc (by rw [hdt, ht, htarget]) hj hk
      rw [hjk]
      simp

/-- All elements keep the invariant. -/
def GroupOnceInv (s : Group n) : Prop := ∀ p, OnceInv (s.pes p)

theorem GroupOnceInv.setPe {s : Group n} (h : GroupOnceInv s) {p : Fin (n + 1)} {pe : Pe}
    (hpe : OnceInv pe) : GroupOnceInv (s.setPe p pe) := by
  intro q
  by_cases hq : q = p
  · subst hq
    rw [setPe_pes_self]
    exact hpe
  · rw [setPe_pes_ne s hq]
    exact h q

theorem GroupOnceInv.receiveCount {s : Group n} (h : GroupOnceInv s) (hg : GroupInv s)
    {p : Fin (n + 1)} {k : Nat} {count : Count} (hres : s.IsResult k count)
    (hk : k ∉ (s.pes p).appliedRanks) :
    GroupOnceInv (s.receiveCount detector p k count) := by
  rcases receiveCount_cases s p k count with ⟨pe, hpe, heq⟩ | ⟨_, heq⟩
  · rw [heq]
    exact h.setPe ((h p).receiveCount (hg.pes p) (Contributions.getElem?_rank hres.1 p)
      (rank_target hg hres p) hk hpe)
  · rw [heq]
    exact h

/-- A step that starts no second round on a PE keeps the invariant. -/
theorem step_onceInv {s s' : Group n} {a : Action n} (h : GroupOnceInv s)
    (hg : GroupInv s) (hd : DeliveryInv s) (hfree : NoRoundRunning s a)
    (hs : s.step detector a = some s') :
    GroupOnceInv s' := by
  obtain ⟨_, ⟨p, msg, rfl, hfresh, rfl⟩ | ⟨p, t, m, hpm⟩ | ⟨k, rfl, hready, hnew, rfl⟩ |
    ⟨j, p, k, count, rfl, hj, rfl⟩⟩ := step_cases hs
  · exact h.setPe ((h p).start (hg.pes p) hfresh (hfree p msg rfl))
  · rcases hpm with ⟨_, rfl⟩ | ⟨_, rfl⟩
    · exact h.setPe ((h p).produce t _)
    · exact h.setPe ((h p).produce t _)
  · have hnot : k ∉ (s.pes 0).appliedRanks := fun hin =>
      hnew ((hd.delivered 0).subset (List.mem_append_left _ hin))
    exact GroupOnceInv.receiveCount (s := s.broadcastResult k) h
      (hg.broadcastResult hready) ⟨hready, rfl⟩ hnot
  · -- a copy on its way has not been applied
    have hcopy : k ∈ s.copies p :=
      (copies_takeCopy hj p).symm.subset (by simp)
    have hnot : k ∉ (s.pes p).appliedRanks := fun hin =>
      List.disjoint_of_nodup_append ((hd.delivered p).nodup_iff.mpr hd.nodup) hin hcopy
    exact GroupOnceInv.receiveCount (s := s.takeCopy j) h (hg.takeCopy j)
      (hg.flight _ (List.mem_of_getElem? hj)) hnot

/-- The three parts of the property, read off the elements. -/
theorem GroupOnceInv.callbackOnce {s : Group n} (h : GroupOnceInv s) :
    CallbackOnce s where
  notUsed := fun p => (h p).ordered.imp fun hbefore m hm => (hbefore m hm).1
  once := by
    intro p
    rw [List.Nodup, Pe.callbacks, List.pairwise_filterMap]
    refine (h p).ordered.imp ?_
    intro e e' hbefore m hm m' hm'
    cases e with
    | callback x =>
      obtain rfl := Option.some.inj hm
      cases e' with
      | callback y =>
        obtain rfl := Option.some.inj hm'
        intro hxy
        exact (hbefore x rfl).2 (congrArg _ hxy.symm)
      | _ => cases hm'
    | _ => cases hm
  all := by
    intro _ p t hcomplete m hm ht
    rw [mem_callbacks]
    apply (h p).called m hm
    rw [ht, Pe.waiting, if_pos hcomplete]
    simp

/-- **One callback for every message.** In a run in which all PEs contribute in
one order of targets and detection for a target is started on a PE only when no
round for it is running there, no message is used after its callback, no
callback is sent twice, and at rest every message delivered for a complete
target has been called back. -/
theorem callback_once {s : Group n}
    (hreach : (system detector).Reachable
      (fun s a => SameOrder s a ∧ NoRoundRunning s a) s) :
    CallbackOnce s := by
  have hinv : GroupOnceInv s ∧ GroupInv s ∧ DeliveryInv s := by
    refine hreach.invariant (I := fun s => GroupOnceInv s ∧ GroupInv s ∧ DeliveryInv s)
      (fun _ hs => hs ▸ ⟨fun _ => init_onceInv, init_groupInv, init_deliveryInv⟩) ?_
    intro s a s' ⟨ho, hg, hd⟩ hc hs
    exact ⟨step_onceInv ho hg hd hc.2 hs, step_groupInv hg hc.1 hs,
      step_deliveryInv hd hg hs⟩
  exact hinv.1.callbackOnce

/-- A message stored over another one whose round is running is used for both
rounds: its callback is sent twice, and the other's never. -/
theorem callback_twice :
    ∃ s : Group 0, (system cdtDetector).run .init
        [.start 0 (cdtMessage 1), .start 0 (cdtMessage 2), .reduce 0, .reduce 1] =
        some s ∧
      s.quiet ∧ ((s.pes 0).status cdtTarget).complete = true ∧
      .delivered (cdtMessage 1) ∈ (s.pes 0).events ∧
      (s.pes 0).callbacks = [cdtMessage 2, cdtMessage 2] ∧ ¬ CallbackOnce s := by
  refine ⟨_, rfl, ?_, rfl, by decide, rfl, ?_⟩
  · intro p
    obtain rfl : p = 0 := Subsingleton.elim (α := Fin 1) p 0
    show ∀ k, k < 2 → k ∈ [0, 1]
    decide
  · intro h
    exact absurd (h.once 0) (show ¬ [cdtMessage 2, cdtMessage 2].Nodup by decide)

instance (s : Group n) (a : Action n) : Decidable (NoRoundRunning s a) :=
  match a with
  | .start p msg =>
    decidable_of_iff ((s.pes p).waiting msg.target = none)
      ⟨fun h q m heq => by obtain ⟨rfl, rfl⟩ := Action.start.inj heq; exact h,
        fun h => h p msg rfl⟩
  | .produce .. | .consume .. | .reduce _ | .receive _ => isTrue fun _ _ h => nomatch h

/-- Two PEs start two targets; the first one is watched over an event produced on
one PE and consumed on the other, and started again once it is complete. -/
def onceRun (p q : Fin 2) : List (Action 1) :=
  [.produce p cdtTarget 1, .start p (cdtMessage 1), .start q (cdtMessage 2),
    .start p (otherMessage 3), .start q (otherMessage 4), .reduce 0,
      .consume q cdtTarget 1,
    .receive p, .reduce 1, .receive p, .reduce 2, .receive p, .start p (cdtMessage 5)]

/-- Each message is called back once. -/
theorem callback_once_two :
    ∃ s : Group 1, (system cdtDetector).follow
        (fun s a => decide (SameOrder s a ∧ NoRoundRunning s a)) .init
        (onceRun 0 1) = some s ∧
      (s.pes 0).callbacks = [otherMessage 3, cdtMessage 1, cdtMessage 5] ∧
      (s.pes 1).callbacks = [otherMessage 4, cdtMessage 2] ∧ CallbackOnce s := by
  have hrun : ((system cdtDetector).follow
      (fun s a => decide (SameOrder s a ∧ NoRoundRunning s a)) .init (onceRun 0 1)).map
      (fun s => ((s.pes 0).callbacks, (s.pes 1).callbacks))
      = some ([otherMessage 3, cdtMessage 1, cdtMessage 5],
        [otherMessage 4, cdtMessage 2]) := by
    decide +kernel
  obtain ⟨s, hs, hsum⟩ := Option.map_eq_some_iff.mp hrun
  obtain ⟨hroot, hother⟩ := Prod.mk.inj hsum
  have hreach : (system cdtDetector).Reachable (fun s a => SameOrder s a ∧
      NoRoundRunning s a) s :=
    Transition.follow_reachable (fun _ _ hc => of_decide_eq_true hc) (onceRun 0 1)
      (.init rfl) hs
  exact ⟨s, hs, hroot, hother, callback_once hreach⟩

end CharmExperiments.Charmlite.Completion
