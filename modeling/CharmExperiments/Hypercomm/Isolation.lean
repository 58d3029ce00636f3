import CharmExperiments.Hypercomm.Array
import CharmExperiments.Hypercomm.Mailbox

/-!
# The tasks of an element do not meet

An entry is for one task id. `Turn` says what it leaves: nothing of another
task is touched, and what is added to the log ran for that task, with `active_`
set to it. What it does depends on the part of the element that belongs to the
task (`SameFor`): two elements that agree there run the entry alike
(`deliver_alike`), and ask the same of Charm++ (`issued_alike`).
-/

namespace CharmExperiments.Hypercomm

variable {n : Nat} {σ δ : Type}

theorem SameFor.refl (g : Workgroup σ δ) (t : TaskId) : SameFor g g t :=
  ⟨rfl, rfl, rfl⟩

theorem SameFor.symm {g h : Workgroup σ δ} {t : TaskId} (hs : SameFor g h t) :
    SameFor h g t :=
  ⟨hs.tasks.symm, hs.queue.symm, hs.ranOf.symm⟩

/-! ## What one entry leaves -/

/-- Between two states of an element only the task `it` ran. -/
structure Turn (g g' : Workgroup σ δ) (it : TaskId) : Prop where
  same : ∀ t, t ≠ it → SameFor g g' t
  ran : ∃ new, g'.ran = g.ran ++ new ∧ ∀ r ∈ new, r.tid = it ∧ r.active = it
  last : g'.lastTask = g.lastTask

theorem Turn.refl (g : Workgroup σ δ) (it : TaskId) : Turn g g it :=
  ⟨fun t _ => SameFor.refl g t,
    ⟨[], (List.append_nil _).symm, fun _ hr => by cases hr⟩, rfl⟩

theorem Turn.trans {g g' g'' : Workgroup σ δ} {it : TaskId} (h : Turn g g' it)
    (h' : Turn g' g'' it) : Turn g g'' it := by
  refine ⟨fun t ht => (h.same t ht).trans (h'.same t ht), ?_, h'.last.trans h.last⟩
  obtain ⟨new, hnew, hown⟩ := h.ran
  obtain ⟨new', hnew', hown'⟩ := h'.ran
  refine ⟨new ++ new', by rw [hnew', hnew, List.append_assoc], fun r hr => ?_⟩
  rcases List.mem_append.mp hr with hr | hr
  · exact hown r hr
  · exact hown' r hr

/-- A change of the queues of `it` alone. -/
theorem Turn.of_queues {g g' : Workgroup σ δ} {it : TaskId} (htasks : g'.tasks = g.tasks)
    (hqueue : ∀ t, t ≠ it → g'.queue t = g.queue t) (hran : g'.ran = g.ran)
    (hlast : g'.lastTask = g.lastTask) : Turn g g' it := by
  refine ⟨fun t ht => ⟨congrFun htasks t, hqueue t ht, ?_⟩,
    ⟨[], ?_, fun _ hr => by cases hr⟩, hlast⟩
  · rw [Workgroup.ranOf, Workgroup.ranOf, hran]
  · rw [hran, List.append_nil]

theorem touch_turn (g : Workgroup σ δ) (it : TaskId) : Turn g (g.touch it) it := by
  refine Turn.of_queues (touch_tasks g it) (fun t _ => ?_) (touch_ran g it) ?_
  · rw [touch_queue]
  · unfold Workgroup.touch
    split <;> rfl

theorem setQueue_turn (g : Workgroup σ δ) (it : TaskId) (id : ContinuationId)
    (q : List (Payload δ)) : Turn g (g.setQueue it id q) it :=
  Turn.of_queues rfl (fun _ ht => setQueue_queue_ne g ht id q) rfl rfl

theorem invoke_turn (P : Program σ δ) (g : Workgroup σ δ) (it : TaskId) (task : Task σ)
    (payload : Payload δ) : Turn g (g.invoke P it task payload) it := by
  refine ⟨fun t ht => invoke_same P g ht task payload, ⟨_, rfl, fun r hr => ?_⟩, rfl⟩
  obtain rfl := List.mem_singleton.mp hr
  exact ⟨rfl, rfl⟩

/-- An accepted payload was invoked on the task that waits for it. -/
theorem resumeObserved_inv {P : Program σ δ} {tid : TaskId} {payload : Payload δ}
    {g g' : Workgroup σ δ} {keep : Bool}
    (h : g.resumeObserved P tid payload = some (g', keep)) :
    ∃ task, g.tasks tid = some task ∧ task.continuation = payload.id ∧
      g' = g.invoke P tid task payload ∧
      keep = (P.continuation task.continuation task payload).active := by
  unfold Workgroup.resumeObserved at h
  split at h
  next => cases h
  next task ht =>
    split at h
    next => cases h
    next hid =>
      obtain ⟨rfl, rfl⟩ := Prod.mk.inj (Option.some.inj h)
      exact ⟨task, ht, not_not.mp hid, rfl, rfl⟩

theorem tryContinue_turn {P : Program σ δ} {it : TaskId} :
    ∀ (fuel : Nat) {g g' : Workgroup σ δ}, g.active = it → g.tryContinue P fuel it =
      some g' → Turn g g' it := by
  intro fuel
  induction fuel with
  | zero =>
    intro g g' _ h
    cases h
  | succ fuel ih =>
    intro g g' hactive h
    unfold Workgroup.tryContinue at h
    split at h
    next => cases h
    next task ht =>
      simp only [hactive] at h
      have htouch := touch_turn g it
      split at h
      next =>
        obtain rfl := Option.some.inj h
        -- no payload for the continuation: the lookup has made its entry all the same
        exact htouch
      next payload rest hq =>
        split at h
        next =>
          obtain rfl := Option.some.inj h
          exact htouch
        next g₁ keep hres =>
          obtain ⟨task', _, _, rfl, _⟩ := resumeObserved_inv hres
          have hpop := fun q => (htouch.trans (invoke_turn P _ it task' payload)).trans
            (setQueue_turn _ it task.continuation q)
          split at h
          next => exact (hpop _).trans (ih rfl h)
          next =>
            obtain rfl := Option.some.inj h
            exact hpop _

theorem resumeOrBuffer_turn {P : Program σ δ} {fuel : Nat} {tid : TaskId}
    {payload : Payload δ}
    {g g' : Workgroup σ δ} (h : g.resumeOrBuffer P fuel tid payload = some g') :
    Turn g g' tid := by
  unfold Workgroup.resumeOrBuffer Workgroup.resume at h
  split at h
  next => cases h
  next g₁ hres =>
    obtain rfl := Option.some.inj h
    split at hres
    next => cases hres
    next g₂ keep hobs =>
      obtain ⟨task, _, _, rfl, _⟩ := resumeObserved_inv hobs
      have hinv := invoke_turn P g tid task payload
      split at hres
      next =>
        obtain ⟨g₃, htry, heq⟩ := Option.map_eq_some_iff.mp hres
        obtain ⟨rfl, _⟩ := Prod.mk.inj heq
        exact hinv.trans (tryContinue_turn fuel rfl htry)
      next =>
        obtain ⟨rfl, _⟩ := Prod.mk.inj (Option.some.inj hres)
        exact hinv
  next g₁ hres =>
    obtain rfl := Option.some.inj h
    split at hres
    next =>
      obtain ⟨rfl, _⟩ := Prod.mk.inj (Option.some.inj hres)
      exact setQueue_turn g tid _ _
    next =>
      split at hres
      next =>
        obtain ⟨g₃, _, heq⟩ := Option.map_eq_some_iff.mp hres
        -- a resume that ran the continuation is not refused
        cases (Prod.mk.inj heq).2
      next => cases hres

theorem create_turn {P : Program σ δ} {fuel : Nat} {msg : TaskMessage δ}
    {g g' : Workgroup σ δ} (h : g.create P fuel msg = some g') : Turn g g' msg.tid := by
  have hactive : Turn g { g with active := msg.tid } msg.tid :=
    Turn.of_queues rfl (fun _ _ => rfl) rfl rfl
  unfold Workgroup.create at h
  dsimp only at h
  split at h
  next =>
    split at h
    next => cases h
    next =>
      let task := P.creator msg.kind ⟨msg.refnum, msg.data⟩
      have hstart : Turn g { g with
          active := msg.tid
          tasks := Function.update g.tasks msg.tid (some task) } msg.tid :=
        ⟨fun t ht => ⟨Function.update_of_ne ht _ _, rfl, rfl⟩,
          ⟨[], (List.append_nil _).symm, fun _ hr => by cases hr⟩, rfl⟩
      exact hstart.trans (tryContinue_turn fuel rfl h)
  next =>
    obtain rfl := Option.some.inj h
    exact hactive

/-- **An entry touches one task only.** -/
theorem deliver_turn {P : Program σ δ} {fuel : Nat} {e : Entry δ} {g g' : Workgroup σ δ}
    (h : g.deliver P fuel e = some g') : Turn g g' e.tid := by
  cases e with
  | create msg => exact create_turn h
  | resumeMessage msg => exact resumeOrBuffer_turn h
  | resumeReduction msg => exact resumeOrBuffer_turn h

/-! ## What one entry depends on -/

theorem SameFor.touch {g h : Workgroup σ δ} {it : TaskId} (hs : SameFor g h it)
    (t : TaskId) :
    SameFor (g.touch t) (h.touch t) it := by
  refine ⟨?_, ?_, ?_⟩
  · rw [touch_tasks, touch_tasks, hs.tasks]
  · rw [touch_queue, touch_queue, hs.queue]
  · rw [touch_ranOf, touch_ranOf, hs.ranOf]

theorem SameFor.setQueue {g h : Workgroup σ δ} {it : TaskId} (hs : SameFor g h it)
    (id : ContinuationId) (q : List (Payload δ)) :
    SameFor (g.setQueue it id q) (h.setQueue it id q) it := by
  refine ⟨hs.tasks, ?_, hs.ranOf⟩
  rw [setQueue_queue, setQueue_queue, hs.queue]

theorem SameFor.invoke {g h : Workgroup σ δ} {it : TaskId} (hs : SameFor g h it)
    (P : Program σ δ) (task : Task σ) (payload : Payload δ) :
    SameFor (g.invoke P it task payload) (h.invoke P it task payload) it := by
  refine ⟨?_, hs.queue, ?_⟩
  · rw [invoke_tasks, invoke_tasks]
  · rw [invoke_ranOf, invoke_ranOf, hs.ranOf]

/-- Two elements that agree on a task accept the same payloads for it. -/
theorem resumeObserved_alike (P : Program σ δ) {tid : TaskId} (payload : Payload δ)
    {g h : Workgroup σ δ} (hs : SameFor g h tid) :
    (g.resumeObserved P tid payload = none ∧ h.resumeObserved P tid payload = none) ∨
    ∃ task, g.resumeObserved P tid payload = some (g.invoke P tid task payload,
        (P.continuation task.continuation task payload).active) ∧
      h.resumeObserved P tid payload = some (h.invoke P tid task payload,
        (P.continuation task.continuation task payload).active) := by
  by_cases haccept : ∃ task, g.tasks tid = some task ∧ task.continuation = payload.id
  · obtain ⟨task, ht, hid⟩ := haccept
    exact Or.inr ⟨task, resumeObserved_some P ht hid,
      resumeObserved_some P (hs.tasks.trans ht) hid⟩
  · have hrefuse : ∀ task, g.tasks tid = some task → task.continuation ≠ payload.id :=
      fun task ht hid => haccept ⟨task, ht, hid⟩
    refine Or.inl ⟨resumeObserved_none P hrefuse, resumeObserved_none P fun task ht => ?_⟩
    exact hrefuse task (hs.tasks.symm.trans ht)

theorem tryContinue_alike {P : Program σ δ} {it : TaskId} :
    ∀ (fuel : Nat) {g h g' : Workgroup σ δ}, g.active = it → h.active = it →
      SameFor g h it →
      g.tryContinue P fuel it = some g' →
      ∃ h', h.tryContinue P fuel it = some h' ∧ SameFor g' h' it := by
  intro fuel
  induction fuel with
  | zero =>
    intro g h g' _ _ _ htry
    cases htry
  | succ fuel ih =>
    intro g h g' hg hh hs htry
    unfold Workgroup.tryContinue at htry ⊢
    rw [hs.tasks]
    split at htry
    next => cases htry
    next task ht =>
      simp only [hg, hh] at htry ⊢
      have htouch := hs.touch it
      rw [htouch.queue]
      split at htry
      next =>
        obtain rfl := Option.some.inj htry
        exact ⟨_, rfl, htouch⟩
      next payload rest hq =>
        rcases resumeObserved_alike P payload htouch with
          ⟨hgn, hhn⟩ | ⟨task', hgs, hhs⟩
        · -- the two elements refuse alike
          rw [hgn] at htry
          rw [hhn]
          obtain rfl := Option.some.inj htry
          exact ⟨_, rfl, htouch⟩
        · rw [hgs] at htry
          rw [hhs]
          dsimp only at htry ⊢
          have hinv := htouch.invoke P task' payload
          have hpop : SameFor
              (((g.touch it).invoke P it task' payload).setQueue it task.continuation
                (((g.touch it).invoke P it task' payload).queue it
                  task.continuation).tail)
              (((h.touch it).invoke P it task' payload).setQueue it task.continuation
                (((h.touch it).invoke P it task' payload).queue it
                  task.continuation).tail) it := by
            rw [hinv.queue]
            exact hinv.setQueue _ _
          split at htry
          next hkeep =>
            rw [if_pos hkeep]
            exact ih rfl rfl hpop htry
          next hkeep =>
            rw [if_neg hkeep]
            obtain rfl := Option.some.inj htry
            exact ⟨_, rfl, hpop⟩

theorem resumeOrBuffer_alike {P : Program σ δ} {fuel : Nat} {tid : TaskId}
    {payload : Payload δ}
    {g h g' : Workgroup σ δ} (hs : SameFor g h tid)
    (hr : g.resumeOrBuffer P fuel tid payload = some g') :
    ∃ h', h.resumeOrBuffer P fuel tid payload = some h' ∧ SameFor g' h' tid := by
  unfold Workgroup.resumeOrBuffer Workgroup.resume at hr ⊢
  rcases resumeObserved_alike P payload hs with ⟨hgn, hhn⟩ | ⟨task, hgs, hhs⟩
  · rw [hgn] at hr
    rw [hhn]
    obtain rfl := Option.some.inj hr
    refine ⟨_, rfl, ?_⟩
    rw [Workgroup.buffer, Workgroup.buffer, hs.queue]
    exact hs.setQueue _ _
  · rw [hgs] at hr
    rw [hhs]
    have hinv := hs.invoke P task payload
    by_cases hkeep : (P.continuation task.continuation task payload).active = true
    · simp only [hkeep, if_true] at hr ⊢
      cases htry : (g.invoke P tid task payload).tryContinue P fuel tid with
      | none =>
        rw [htry] at hr
        cases hr
      | some g₁ =>
        rw [htry] at hr
        obtain rfl := Option.some.inj hr
        obtain ⟨h₁, hh₁, hs₁⟩ : ∃ h₁,
          (h.invoke P tid task payload).tryContinue P fuel tid = some h₁ ∧
            SameFor g₁ h₁ tid := tryContinue_alike fuel rfl rfl hinv htry
        exact ⟨h₁, by rw [hh₁]; rfl, hs₁⟩
    · simp only [hkeep] at hr ⊢
      obtain rfl := Option.some.inj hr
      exact ⟨_, rfl, hinv⟩

theorem create_alike {P : Program σ δ} {fuel : Nat} {msg : TaskMessage δ}
    {g h g' : Workgroup σ δ} (hs : SameFor g h msg.tid)
    (hr : g.create P fuel msg = some g') :
    ∃ h', h.create P fuel msg = some h' ∧ SameFor g' h' msg.tid := by
  unfold Workgroup.create at hr ⊢
  dsimp only at hr ⊢
  rw [hs.tasks]
  split at hr
  next hact =>
    rw [if_pos hact]
    split at hr
    next => cases hr
    next =>
      let task := P.creator msg.kind ⟨msg.refnum, msg.data⟩
      have hstart : SameFor
          { g with active := msg.tid, tasks := Function.update g.tasks msg.tid (some task) }
          { h with active := msg.tid, tasks := Function.update h.tasks msg.tid (some task) }
          msg.tid := by
        refine ⟨?_, hs.queue, hs.ranOf⟩
        show Function.update h.tasks msg.tid _ msg.tid =
          Function.update g.tasks msg.tid _ msg.tid
        rw [Function.update_self, Function.update_self]
      exact tryContinue_alike fuel rfl rfl hstart hr
  next hact =>
    rw [if_neg hact]
    obtain rfl := Option.some.inj hr
    exact ⟨_, rfl, ⟨hs.tasks, hs.queue, hs.ranOf⟩⟩

/-- **An entry depends on one task only**: elements that agree on it run the
entry alike. -/
theorem deliver_alike {P : Program σ δ} {fuel : Nat} {e : Entry δ}
    {g h g' : Workgroup σ δ}
    (hs : SameFor g h e.tid) (hd : g.deliver P fuel e = some g') :
    ∃ h', h.deliver P fuel e = some h' ∧ SameFor g' h' e.tid := by
  cases e with
  | create msg => exact create_alike hs hd
  | resumeMessage msg => exact resumeOrBuffer_alike hs hd
  | resumeReduction msg => exact resumeOrBuffer_alike hs hd

/-! ## What one entry asks for -/

/-- What a turn added to the log is given by what the task has run. -/
theorem Turn.ranOf {g g' : Workgroup σ δ} {it : TaskId} (h : Turn g g' it) :
    g'.ranOf it = g.ranOf it ++
      (g'.ran.drop g.ran.length).map fun r => (r.continuation, r.payload) := by
  obtain ⟨new, hnew, hown⟩ := h.ran
  have hall : new.filter (·.tid = it) = new :=
    List.filter_eq_self.mpr fun r hr => decide_eq_true (hown r hr).1
  rw [Workgroup.ranOf, hnew, List.drop_left, List.filter_append, hall, List.map_append,
    Workgroup.ranOf]

/-- Equal additions for one task are equal logs. -/
theorem Turn.ran_eq {g g' h h' : Workgroup σ δ} {it : TaskId} (hg : Turn g g' it)
    (hh : Turn h h' it) (hs : SameFor g h it) (hs' : SameFor g' h' it) :
    h'.ran.drop h.ran.length = g'.ran.drop g.ran.length := by
  have heq := hs'.ranOf
  rw [hg.ranOf, hh.ranOf, hs.ranOf, List.append_cancel_left_eq] at heq
  obtain ⟨new, hnew, hown⟩ := hg.ran
  obtain ⟨new', hnew', hown'⟩ := hh.ran
  rw [hnew, hnew', List.drop_left, List.drop_left] at heq ⊢
  clear hnew hnew'
  induction new generalizing new' with
  | nil => exact List.map_eq_nil_iff.mp heq
  | cons r new ih =>
    cases new' with
    | nil => cases heq
    | cons r' new' =>
      obtain ⟨hhead, htail⟩ := List.cons.inj heq
      rw [ih (fun x hx => hown x (List.mem_cons_of_mem _ hx)) new' htail
        fun x hx => hown' x (List.mem_cons_of_mem _ hx)]
      have h₁ := hown r List.mem_cons_self
      have h₂ := hown' r' List.mem_cons_self
      obtain ⟨hcont, hpayload⟩ := Prod.mk.inj hhead
      congr 1
      cases r
      cases r'
      simp only [Ran.mk.injEq]
      exact ⟨h₂.1.trans h₁.1.symm, hcont, hpayload, h₂.2.trans h₁.2.symm⟩

/-- Elements that agree on the task before and after have asked for the same. -/
theorem issued_alike (B : Behaviour σ δ) {e : Entry δ} {g g' h h' : Workgroup σ δ}
    (hg : Turn g g' e.tid) (hh : Turn h h' e.tid) (hs : SameFor g h e.tid)
    (hs' : SameFor g' h' e.tid) : B.issued h e h' = B.issued g e g' := by
  have hstart : B.start h e = B.start g e := by
    cases e with
    | create msg => rfl
    | resumeMessage msg => exact congrArg (·, []) hs.tasks
    | resumeReduction msg => exact congrArg (·, []) hs.tasks
  rw [Behaviour.issued, Behaviour.issued, hstart, hg.ran_eq hh hs hs']

theorem calls_own (B : Behaviour σ δ) {it : TaskId} :
    ∀ (ran : List (Ran δ)) (task : Task σ), (∀ r ∈ ran, r.tid = it ∧ r.active = it) →
    ∀ c ∈ B.calls task ran, c.tid = it ∧ c.active = it := by
  intro ran
  induction ran with
  | nil =>
    intro task _ c hc
    cases hc
  | cons r ran ih =>
    intro task hown c hc
    rcases List.mem_cons.mp hc with rfl | hc
    · exact hown r List.mem_cons_self
    · exact ih _ (fun x hx => hown x (List.mem_cons_of_mem r hx)) c hc

/-- **What an entry asks for carries its task's id**, as the code that asked is
that task's. -/
theorem issued_own (B : Behaviour σ δ) {e : Entry δ} {g g' : Workgroup σ δ}
    (h : Turn g g' e.tid) {x : Issued δ} (hx : x ∈ B.issued g e g') :
    x.owner = e.tid ∧ x.active = e.tid := by
  obtain ⟨new, hnew, hown⟩ := h.ran
  unfold Behaviour.issued at hx
  rw [hnew, List.drop_left] at hx
  rcases List.mem_append.mp hx with hx | hx
  · cases e with
    | create msg =>
      obtain ⟨effect, _, rfl⟩ := List.mem_map.mp hx
      exact ⟨rfl, rfl⟩
    | resumeMessage msg => cases hx
    | resumeReduction msg => cases hx
  · split at hx
    next => cases hx
    next task _ =>
      obtain ⟨c, hc, hx⟩ := List.mem_flatMap.mp hx
      obtain ⟨effect, _, rfl⟩ := List.mem_map.mp hx
      exact calls_own B new task hown c hc

end CharmExperiments.Hypercomm
