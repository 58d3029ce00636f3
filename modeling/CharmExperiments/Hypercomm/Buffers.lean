import CharmExperiments.Hypercomm.Mailbox

/-!
# What stays in `buffers_`

`buffers_` maps a task id to the payloads that wait for its task. `try_continue_`
looks a task up with `buffers_[tid]`, which makes an entry for every task that is
kept after its constructor, and `buffer_` makes one for a payload that comes early.
Nothing erases an entry: `resume` erases the task that ended, and `try_continue_`
pops payloads.

So an entry is left over exactly when a continuation ends its task and no other
payload for the task is buffered (`Invocation.Leaves` says it does not). The element
is tidy after an entry method, given that it was before, if and only if no
continuation that the entry method calls does that (`deliver_tidy_iff`), and over a
whole run if and only if none does (`allTidy_iff`).

Mirroring notes:
- `drainCalls` and `calls` list the continuations that `tryContinue` and the entry
  methods invoke, each with the element as it is then. They follow the functions
  branch by branch; no function reads them.
- An entry method that does not return (fuel, or a failed assertion) ends the run:
  there is no element after it.
-/

namespace CharmExperiments.Hypercomm

variable {σ δ : Type}

/-- A continuation about to be invoked. `queued` tells whether its payload is the
front of its queue, to be popped afterwards, or has just arrived. -/
structure Invocation (σ δ : Type) where
  element : Workgroup σ δ
  tid : TaskId
  task : Task σ
  payload : Payload δ
  queued : Bool

/-- Some payload for the task is buffered. -/
def Workgroup.Owed (g : Workgroup σ δ) (tid : TaskId) : Prop := ∃ id, g.queue tid id ≠ []

/-- Some payload for the task is buffered, other than the one that is passed. -/
def Invocation.Others (c : Invocation σ δ) : Prop :=
  ∃ id, (if c.queued ∧ id = c.task.continuation then (c.element.queue c.tid id).tail
    else c.element.queue c.tid id) ≠ []

/-- The continuation keeps its task, or there is another payload for the task. -/
def Invocation.Leaves (P : Program σ δ) (c : Invocation σ δ) : Prop :=
  (P.continuation c.task.continuation c.task c.payload).active = true ∨ c.Others

/-- The continuations that `try_continue_` invokes. -/
def Workgroup.drainCalls (P : Program σ δ) :
    Nat → TaskId → Workgroup σ δ → List (Invocation σ δ)
  | 0, _, _ => []
  | fuel + 1, it, g =>
    match g.tasks it with
    | none => []
    | some task =>
      let tid := g.active
      let g := g.touch tid
      let id := task.continuation
      match g.queue tid id with
      | [] => []
      | payload :: _ =>
        match g.resumeObserved P tid payload with
        | none => []
        | some (g', active) =>
          let g' := g'.setQueue tid id (g'.queue tid id).tail
          ⟨g, tid, task, payload, true⟩ :: if active then drainCalls P fuel it g' else []

/-- The continuations that `resume` with an arriving payload invokes. -/
def Workgroup.resumeCalls (P : Program σ δ) (fuel : Nat) (tid : TaskId)
    (payload : Payload δ) (g : Workgroup σ δ) : List (Invocation σ δ) :=
  match g.tasks tid with
  | none => []
  | some task =>
    match g.resumeObserved P tid payload with
    | none => []
    | some (g', keep) =>
      ⟨g, tid, task, payload, false⟩ :: if keep then g'.drainCalls P fuel tid else []

/-- The continuations that an entry method invokes. -/
def Workgroup.calls (P : Program σ δ) (fuel : Nat) (g : Workgroup σ δ) :
    Entry δ → List (Invocation σ δ)
  | .create msg =>
    let tid := msg.tid
    let g := { g with active := tid }
    let task := P.creator msg.kind ⟨msg.refnum, msg.data⟩
    if task.active then
      ({ g with tasks := Function.update g.tasks tid (some task) }).drainCalls P fuel tid
    else []
  | .resumeMessage msg => g.resumeCalls P fuel msg.tid ⟨msg.refnum, msg.data⟩
  | .resumeReduction msg => g.resumeCalls P fuel msg.results.1 ⟨msg.refnum, msg.results.2⟩

/-- An entry of `buffers_` belongs to a live task or holds a payload; so with neither
left there is no entry. -/
structure Workgroup.Tidy (g : Workgroup σ δ) : Prop where
  entries : ∀ tid, g.buffers tid ≠ none → g.tasks tid ≠ none ∨ g.Owed tid
  empty : (∀ tid, g.tasks tid = none ∧ ∀ id, g.queue tid id = []) →
    ∀ tid, g.buffers tid = none

/-- The element is tidy before and after each entry method of the run. -/
def Workgroup.AllTidy (P : Program σ δ) (fuel : Nat) (g : Workgroup σ δ) :
    List (Entry δ) → Prop
  | [] => g.Tidy
  | e :: es => g.Tidy ∧ ∀ g', g.deliver P fuel e = some g' → AllTidy P fuel g' es

/-- No continuation invoked in the run ends its task without leaving a payload. -/
def Workgroup.AllLeave (P : Program σ δ) (fuel : Nat) (g : Workgroup σ δ) :
    List (Entry δ) → Prop
  | [] => True
  | e :: es => ∀ g', g.deliver P fuel e = some g' →
      (∀ c ∈ g.calls P fuel e, c.Leaves P) ∧ AllLeave P fuel g' es

/-! ## Entries -/

namespace Workgroup

/-- Every live task has its entry. -/
def Entered (g : Workgroup σ δ) : Prop := ∀ tid, g.tasks tid ≠ none → g.buffers tid ≠ none

theorem queue_congr {g g' : Workgroup σ δ} {tid : TaskId}
    (h : g'.buffers tid = g.buffers tid) :
    g'.queue tid = g.queue tid := by
  funext id
  rw [queue, queue, h]

theorem touch_buffers_ne (g : Workgroup σ δ) {tid t : TaskId} (h : t ≠ tid) :
    (g.touch tid).buffers t = g.buffers t := by
  unfold touch
  split
  next => rfl
  next => exact Function.update_of_ne h _ _

theorem touch_buffers_self (g : Workgroup σ δ) (tid : TaskId) :
    (g.touch tid).buffers tid ≠ none := by
  unfold touch
  split
  next map hmap => rw [hmap]; exact Option.some_ne_none map
  next =>
    show Function.update g.buffers tid _ tid ≠ none
    rw [Function.update_self]
    exact Option.some_ne_none _

theorem setQueue_buffers_self (g : Workgroup σ δ) (tid : TaskId) (id : ContinuationId)
    (q : List (Payload δ)) : (g.setQueue tid id q).buffers tid ≠ none := by
  show Function.update g.buffers tid _ tid ≠ none
  rw [Function.update_self]
  exact Option.some_ne_none _

theorem setQueue_buffers_ne (g : Workgroup σ δ) {tid t : TaskId} (h : t ≠ tid)
    (id : ContinuationId) (q : List (Payload δ)) :
    (g.setQueue tid id q).buffers t = g.buffers t := Function.update_of_ne h _ _

/-- What happened was all about one task: other tasks and their entries stay. -/
structure About (tid : TaskId) (g g' : Workgroup σ δ) : Prop where
  tasks : ∀ t, t ≠ tid → g'.tasks t = g.tasks t
  buffers : ∀ t, t ≠ tid → g'.buffers t = g.buffers t

theorem About.trans {tid : TaskId} {g g' g'' : Workgroup σ δ} (h : About tid g g')
    (h' : About tid g' g'') : About tid g g'' where
  tasks t ht := (h'.tasks t ht).trans (h.tasks t ht)
  buffers t ht := (h'.buffers t ht).trans (h.buffers t ht)

theorem invoke_about (P : Program σ δ) (tid : TaskId) (task : Task σ)
    (payload : Payload δ) (g : Workgroup σ δ) :
    About tid g (g.invoke P tid task payload) where
  tasks _ ht := Function.update_of_ne ht _ _
  buffers _ _ := rfl

theorem setQueue_about (g : Workgroup σ δ) (tid : TaskId) (id : ContinuationId)
    (q : List (Payload δ)) : About tid g (g.setQueue tid id q) where
  tasks _ _ := rfl
  buffers _ ht := setQueue_buffers_ne g ht id q

theorem touch_about (g : Workgroup σ δ) (tid : TaskId) : About tid g (g.touch tid) where
  tasks _ _ := by rw [touch_tasks]
  buffers _ ht := touch_buffers_ne g ht

/-- What an entry method did: all of it about task `tid`, whose entry is there now,
and is no leftover exactly if the continuations invoked leave something. -/
structure Outcome (P : Program σ δ) (tid : TaskId) (g g' : Workgroup σ δ)
    (cs : List (Invocation σ δ)) : Prop where
  about : About tid g g'
  entry : g'.buffers tid ≠ none
  leaves : (g'.tasks tid ≠ none ∨ g'.Owed tid) ↔ ∀ c ∈ cs, c.Leaves P

/-- Without an invocation: the task is live, or a payload is buffered. -/
theorem Outcome.idle (P : Program σ δ) {tid : TaskId} {g g' : Workgroup σ δ}
    (about : About tid g g') (entry : g'.buffers tid ≠ none)
    (h : g'.tasks tid ≠ none ∨ g'.Owed tid) : Outcome P tid g g' [] :=
  ⟨about, entry, ⟨fun _ _ hc => absurd hc List.not_mem_nil, fun _ => h⟩⟩

/-- A continuation that keeps its task adds nothing to what is asked of the others. -/
theorem Outcome.cons {P : Program σ δ} {tid : TaskId} {g g' g'' : Workgroup σ δ}
    {c : Invocation σ δ} {cs : List (Invocation σ δ)} (about : About tid g g')
    (hkeep : (P.continuation c.task.continuation c.task c.payload).active = true)
    (h : Outcome P tid g' g'' cs) : Outcome P tid g g'' (c :: cs) where
  about := about.trans h.about
  entry := h.entry
  leaves := by
    rw [h.leaves, List.forall_mem_cons]
    exact (and_iff_right (.inl hkeep)).symm

/-- A continuation that ends its task is the last one. -/
theorem Outcome.ended {P : Program σ δ} {tid : TaskId} {g g' : Workgroup σ δ}
    {c : Invocation σ δ} (about : About tid g g') (entry : g'.buffers tid ≠ none)
    (hkeep : ¬ (P.continuation c.task.continuation c.task c.payload).active = true)
    (htask : g'.tasks tid = none) (howed : g'.Owed tid ↔ c.Others) :
    Outcome P tid g g' [c] where
  about := about
  entry := entry
  leaves := by
    rw [List.forall_mem_singleton, Invocation.Leaves, howed]
    exact or_congr_left ⟨fun h => absurd htask h, fun h => absurd h hkeep⟩

/-- The task after its continuation, if it was kept. -/
theorem invoke_ended (P : Program σ δ) {tid : TaskId} {task : Task σ}
    {payload : Payload δ}
    (g : Workgroup σ δ)
    (h : ¬ (P.continuation task.continuation task payload).active = true) :
    (g.invoke P tid task payload).tasks tid = none := by
  rw [invoke_tasks, if_neg h]

/-- Popping the front leaves the others. -/
theorem popped_owed (P : Program σ δ) {tid : TaskId} {task : Task σ} {payload : Payload δ}
    (g : Workgroup σ δ) :
    ((g.invoke P tid task payload).setQueue tid task.continuation
        (g.queue tid task.continuation).tail).Owed tid ↔
      (Invocation.mk g tid task payload true).Others := by
  have hqueue : ∀ id, ((g.invoke P tid task payload).setQueue tid task.continuation
      (g.queue tid task.continuation).tail).queue tid id =
      if id = task.continuation then (g.queue tid id).tail else g.queue tid id := by
    intro id
    rw [setQueue_queue, invoke_queue]
    by_cases hid : id = task.continuation
    · rw [if_pos hid, hid, Function.update_self]
    · rw [if_neg hid, Function.update_of_ne hid]
  refine exists_congr fun id => not_congr ?_
  rw [hqueue]
  show _ ↔ (if true ∧ id = task.continuation then _ else _) = _
  simp only [true_and]

/-- `try_continue_` on a live task. The induction is on the fuel, one round each. -/
theorem tryContinue_outcome (P : Program σ δ) {it : TaskId} :
    ∀ (fuel : Nat) {g g' : Workgroup σ δ} {task : Task σ}, g.tasks it = some task →
      g.active = it → g.tryContinue P fuel it = some g' →
      Outcome P it g g' (g.drainCalls P fuel it) := by
  intro fuel
  induction fuel with
  | zero => intro g g' task _ _ h; cases h
  | succ fuel ih =>
    intro g g' task ht hact h
    have hlive : (g.touch it).tasks it = some task := by rw [touch_tasks]; exact ht
    have hidle : Outcome P it g (g.touch it) [] :=
      .idle P (touch_about g it) (touch_buffers_self g it)
        (.inl (by rw [hlive]; exact Option.some_ne_none task))
    simp only [tryContinue, ht, hact] at h
    simp only [drainCalls, ht, hact]
    cases hq : (g.touch it).queue it task.continuation with
    | nil =>
      simp only [hq] at h ⊢
      exact Option.some.inj h ▸ hidle
    | cons payload rest =>
      simp only [hq] at h ⊢
      by_cases hid : task.continuation = payload.id
      · simp only [resumeObserved_some P hlive hid, invoke_queue] at h ⊢
        have habout : About it g (((g.touch it).invoke P it task payload).setQueue it
            task.continuation ((g.touch it).queue it task.continuation).tail) :=
          ((touch_about g it).trans (invoke_about P it task payload _)).trans
            (setQueue_about _ it _ _)
        by_cases hkeep : (P.continuation task.continuation task payload).active = true
        · simp only [hkeep, if_true] at h ⊢
          -- the task goes on: the rest is the drain after this round
          have htask := (invoke_tasks P (g.touch it) it task payload).trans (if_pos hkeep)
          exact .cons habout hkeep (ih htask rfl h)
        · simp only [hkeep] at h ⊢
          obtain rfl := Option.some.inj h
          exact .ended habout (setQueue_buffers_self _ it _ _) hkeep
            (invoke_ended P (g.touch it) hkeep) (popped_owed P (g.touch it))
      · -- what is buffered for the continuation may have another reference number
        have hnone : (g.touch it).resumeObserved P it payload = none := by
          rw [resumeObserved, hlive]
          exact if_pos hid
        simp only [hnone] at h ⊢
        exact Option.some.inj h ▸ hidle

/-- An arriving payload, taken by the live task that waits for it or buffered. -/
theorem resumeOrBuffer_outcome (P : Program σ δ) {fuel : Nat} {tid : TaskId}
    {payload : Payload δ} {g g' : Workgroup σ δ} (hentered : g.Entered)
    (h : g.resumeOrBuffer P fuel tid payload = some g') :
    Outcome P tid g g' (g.resumeCalls P fuel tid payload) := by
  -- buffered: the payload is there
  have hbuffer : Outcome P tid g (g.buffer tid payload) [] := by
    refine .idle P (setQueue_about g tid _ _) (setQueue_buffers_self g tid _ _)
      (.inr ⟨payload.id, ?_⟩)
    rw [buffer_queue, Function.update_self]
    exact List.append_ne_nil_of_right_ne_nil _ (List.cons_ne_nil _ _)
  by_cases haccept : ∃ task, g.tasks tid = some task ∧ task.continuation = payload.id
  · obtain ⟨task, ht, hid⟩ := haccept
    -- the task is live, so its entry was made when it was created
    have hentry : g.buffers tid ≠ none :=
      hentered tid (by rw [ht]; exact Option.some_ne_none task)
    have habout := invoke_about P tid task payload g
    simp only [resumeOrBuffer, resume, resumeObserved_some P ht hid] at h
    simp only [resumeCalls, ht, resumeObserved_some P ht hid]
    by_cases hkeep : (P.continuation task.continuation task payload).active = true
    · have htask := (invoke_tasks P g tid task payload).trans (if_pos hkeep)
      simp only [hkeep, if_true] at h ⊢
      cases hdrain : (g.invoke P tid task payload).tryContinue P fuel tid with
      | none => simp only [hdrain, Option.map_none] at h; cases h
      | some g₁ =>
        simp only [hdrain, Option.map_some] at h
        obtain rfl := Option.some.inj h
        exact .cons habout hkeep (tryContinue_outcome P fuel htask rfl hdrain)
    · simp only [hkeep] at h ⊢
      obtain rfl := Option.some.inj h
      refine .ended habout hentry hkeep (invoke_ended P g hkeep) ?_
      exact exists_congr fun id => not_congr (by simp)
  · have hnone := resumeObserved_none P fun task ht hid => haccept ⟨task, ht, hid⟩
    have hcalls : g.resumeCalls P fuel tid payload = [] := by
      rw [resumeCalls, hnone]
      split <;> rfl
    simp only [resumeOrBuffer, resume, hnone] at h
    rw [hcalls]
    exact Option.some.inj h ▸ hbuffer

/-- A created task is kept and drained, unless it ended in its constructor. -/
theorem create_outcome (P : Program σ δ) {fuel : Nat} {msg : TaskMessage δ}
    {g g' : Workgroup σ δ} (h : g.create P fuel msg = some g') :
    (g'.tasks = g.tasks ∧ g'.buffers = g.buffers ∧ g.calls P fuel (.create msg) = []) ∨
      Outcome P msg.tid g g' (g.calls P fuel (.create msg)) := by
  unfold create at h
  unfold calls
  by_cases hact : (P.creator msg.kind ⟨msg.refnum, msg.data⟩).active = true
  · simp only [hact, if_true] at h ⊢
    cases ht : g.tasks msg.tid with
    | some task => simp only [ht] at h; cases h
    | none =>
      simp only [ht] at h
      -- the element once the task is in `tasks_`, before it is drained
      let g₀ : Workgroup σ δ := { g with
        active := msg.tid
        tasks := Function.update g.tasks msg.tid
          (some (P.creator msg.kind ⟨msg.refnum, msg.data⟩)) }
      have htask : g₀.tasks msg.tid = some (P.creator msg.kind ⟨msg.refnum, msg.data⟩) :=
        Function.update_self ..
      have hdrain := tryContinue_outcome P fuel htask rfl h
      have habout : About msg.tid g g₀ :=
        ⟨fun _ hne => Function.update_of_ne hne _ _, fun _ _ => rfl⟩
      exact .inr ⟨habout.trans hdrain.about, hdrain.entry, hdrain.leaves⟩
  · simp only [hact] at h ⊢
    obtain rfl := Option.some.inj h
    exact .inl ⟨rfl, rfl, rfl⟩

/-- Every entry method either leaves tasks and entries as they are, or has an outcome. -/
theorem deliver_outcome (P : Program σ δ) {fuel : Nat}
    {g g' : Workgroup σ δ} {e : Entry δ}
    (hentered : g.Entered) (h : g.deliver P fuel e = some g') :
    (g'.tasks = g.tasks ∧ g'.buffers = g.buffers ∧ g.calls P fuel e = []) ∨
      ∃ tid, Outcome P tid g g' (g.calls P fuel e) := by
  cases e with
  | create msg => exact (create_outcome P h).imp_right fun ho => ⟨msg.tid, ho⟩
  | resumeMessage msg => exact .inr ⟨msg.tid, resumeOrBuffer_outcome P hentered h⟩
  | resumeReduction msg => exact .inr ⟨msg.results.1, resumeOrBuffer_outcome P hentered h⟩

/-! ## Runs -/

/-- With every entry accounted for, an element with nothing left has no entries. -/
theorem tidy_iff {g : Workgroup σ δ} :
    g.Tidy ↔ ∀ tid, g.buffers tid ≠ none → g.tasks tid ≠ none ∨ g.Owed tid := by
  refine ⟨fun h => h.entries, fun h => ⟨h, fun hdone tid => ?_⟩⟩
  by_contra hentry
  rcases h tid hentry with hlive | ⟨id, hqueue⟩
  · exact hlive (hdone tid).1
  · exact hqueue ((hdone tid).2 id)

theorem init_tidy (active : TaskId) : (init active : Workgroup σ δ).Tidy :=
  tidy_iff.mpr fun _ h => absurd rfl h

theorem init_entered (active : TaskId) : (init active : Workgroup σ δ).Entered :=
  fun _ h => absurd rfl h

variable {P : Program σ δ} {fuel : Nat} {g g' : Workgroup σ δ} {e : Entry δ}

/-- Live tasks keep their entries: entries are never erased. -/
theorem deliver_entered (hentered : g.Entered) (h : g.deliver P fuel e = some g') :
    g'.Entered := by
  intro t ht
  rcases deliver_outcome P hentered h with ⟨htasks, hbuffers, -⟩ | ⟨tid, ho⟩
  · rw [hbuffers]
    exact hentered t (htasks ▸ ht)
  · by_cases hne : t = tid
    · exact hne ▸ ho.entry
    · rw [ho.about.buffers t hne]
      exact hentered t (by rw [← ho.about.tasks t hne]; exact ht)

/-- **One entry method leaves a tidy element tidy exactly if no continuation it
invokes ends its task without leaving a payload.** -/
theorem deliver_tidy_iff (hentered : g.Entered) (htidy : g.Tidy)
    (h : g.deliver P fuel e = some g') :
    g'.Tidy ↔ ∀ c ∈ g.calls P fuel e, c.Leaves P := by
  rw [tidy_iff] at htidy ⊢
  rcases deliver_outcome P hentered h with ⟨htasks, hbuffers, hcalls⟩ | ⟨tid, ho⟩
  · rw [hcalls]
    refine ⟨fun _ _ hc => absurd hc List.not_mem_nil, fun _ t ht => ?_⟩
    rw [htasks, Owed, queue_congr (congrFun hbuffers t)]
    exact htidy t (by rw [← hbuffers]; exact ht)
  · rw [← ho.leaves]
    refine ⟨fun hall => hall tid ho.entry, fun hself t ht => ?_⟩
    by_cases hne : t = tid
    · exact hne ▸ hself
    · rw [ho.about.tasks t hne, Owed, queue_congr (ho.about.buffers t hne)]
      exact htidy t (by rw [← ho.about.buffers t hne]; exact ht)

theorem allTidy_head {es : List (Entry δ)} (h : g.AllTidy P fuel es) : g.Tidy := by
  cases es with
  | nil => exact h
  | cons e es => exact h.1

/-- From any tidy element. The induction is on the entry methods still to come. -/
theorem allTidy_iff_allLeave {es : List (Entry δ)} (hentered : g.Entered)
    (htidy : g.Tidy) :
    g.AllTidy P fuel es ↔ g.AllLeave P fuel es := by
  induction es generalizing g with
  | nil => exact iff_of_true htidy trivial
  | cons e es ih =>
    constructor
    · rintro ⟨-, hall⟩ g' hdel
      have htidy' := allTidy_head (hall g' hdel)
      exact ⟨(deliver_tidy_iff hentered htidy hdel).mp htidy',
        (ih (deliver_entered hentered hdel) htidy').mp (hall g' hdel)⟩
    · intro hall
      refine ⟨htidy, fun g' hdel => ?_⟩
      obtain ⟨hleave, hrest⟩ := hall g' hdel
      exact (ih (deliver_entered hentered hdel)
        ((deliver_tidy_iff hentered htidy hdel).mpr hleave)).mpr hrest

/-- **The element is tidy throughout a run exactly if no continuation invoked in it
ends its task while no other payload for the task is buffered.** -/
theorem allTidy_iff (P : Program σ δ) (fuel : Nat) (active : TaskId)
    (es : List (Entry δ)) : (init active : Workgroup σ δ).AllTidy P fuel es ↔
      (init active : Workgroup σ δ).AllLeave P fuel es :=
  allTidy_iff_allLeave (init_entered active) (init_tidy active)

end Workgroup

/-! ## One task -/

/-- A task that waits once, for continuation 1, and ends there. -/
def waitOnce : Program Unit Nat where
  creator _ _ := ⟨true, 0, 1, ()⟩
  continuation _ task _ := { task with active := false }

/-- It is created and resumed. -/
def createResume : List (Entry Nat) :=
  [.create ⟨⟨0, 0⟩, 0, 0, 10⟩, .resumeMessage ⟨⟨0, 0⟩, 0, 1, 11⟩]

/-- **All is done, and the entry is still there.** -/
theorem entry_left : ∃ g : Workgroup Unit Nat,
    (Workgroup.init ⟨0, 0⟩).run waitOnce 2 createResume = some g ∧
      (∀ tid, g.tasks tid = none ∧ ∀ id, g.queue tid id = []) ∧
      g.buffers ⟨0, 0⟩ ≠ none ∧ ¬ g.Tidy := by
  have hdone : ∀ g : Workgroup Unit Nat,
      (Workgroup.init ⟨0, 0⟩).run waitOnce 2 createResume = some g →
      ∀ tid, g.tasks tid = none ∧ ∀ id, g.queue tid id = [] := by
    intro g hg tid
    obtain rfl := Option.some.inj hg
    by_cases htid : tid = ⟨0, 0⟩
    · subst htid
      exact ⟨rfl, fun _ => rfl⟩
    · refine ⟨?_, fun id => ?_⟩
      · exact (Function.update_of_ne htid _ _).trans (Function.update_of_ne htid _ _)
      · rw [Workgroup.queue,
          show Workgroup.buffers _ tid = none from Function.update_of_ne htid _ _]
  have hentry : ∀ g : Workgroup Unit Nat,
      (Workgroup.init ⟨0, 0⟩).run waitOnce 2 createResume = some g →
      g.buffers ⟨0, 0⟩ ≠ none := by
    intro g hg
    obtain rfl := Option.some.inj hg
    exact Option.some_ne_none _
  refine ⟨_, rfl, hdone _ rfl, hentry _ rfl, fun htidy => ?_⟩
  exact hentry _ rfl (htidy.empty (hdone _ rfl) ⟨0, 0⟩)

end CharmExperiments.Hypercomm
