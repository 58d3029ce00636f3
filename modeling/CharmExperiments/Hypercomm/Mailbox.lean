import Mathlib.Data.List.Induction
import CharmExperiments.Lib.BlockingReader
import CharmExperiments.Hypercomm.Workgroup

/-!
# The workgroup mailbox refines a blocking reader

Seen from one task id, a workgroup element is a process that blocks on one
channel: the task waits for its continuation's payloads, the queues are those
of `buffers_`, and `try_continue_` drains it. `Tracks` says so for a whole
entry sequence: everything that arrived for the id, run from the constructor's
task, leads to the task and the queues the element holds now, and there the
reader is blocked. Each entry keeps it, because draining commutes with arrival
(`Reader.push_runs`).

Two results follow. `run_spec`: entries terminate, nothing deliverable is left
buffered, and every payload was passed on once, in order, or is in one queue.
`run_confluent`: the outcome depends on the order within a channel only.
-/

namespace CharmExperiments.Hypercomm

open CharmExperiments.Lib
open CharmExperiments.Lib.Reader (Config Runs Blocked readFrom)

variable {σ δ : Type}

/-! ## What was delivered, what was passed on -/

/-- The payloads a sequence of entries brings for a task, with the continuation
each is for. -/
def arrived (es : List (Entry δ)) (tid : TaskId) : List (ContinuationId × Payload δ) :=
  es.filterMap fun
    | .create _ => none
    | .resumeMessage msg =>
      if msg.tid = tid then some (msg.refnum, ⟨msg.refnum, msg.data⟩) else none
    | .resumeReduction msg =>
      if msg.results.1 = tid then some (msg.refnum, ⟨msg.refnum, msg.results.2⟩) else none

/-- The payloads delivered for a (task, continuation) pair, in arrival order. -/
def delivered (es : List (Entry δ)) (tid : TaskId) (id : ContinuationId) :
    List (Payload δ) :=
  readFrom (arrived es tid) id

/-- The kinds and payloads of the `create` messages of a task. -/
def created (es : List (Entry δ)) (tid : TaskId) : List (TaskKind × Payload δ) :=
  es.filterMap fun
    | .create msg => if msg.tid = tid then some (msg.kind, ⟨msg.refnum, msg.data⟩)
      else none
    | _ => none

/-- The task ids of the `create` messages. -/
def createIds (es : List (Entry δ)) : List TaskId :=
  es.filterMap fun
    | .create msg => some msg.tid
    | _ => none

/-- The continuations a task has executed and their payloads, in order. -/
def Workgroup.ranOf (g : Workgroup σ δ) (tid : TaskId) :
    List (ContinuationId × Payload δ) :=
  (g.ran.filter (·.tid = tid)).map fun r => (r.continuation, r.payload)

/-- The payloads passed to one continuation of a task, in order. -/
def Workgroup.passed (g : Workgroup σ δ) (tid : TaskId) (id : ContinuationId) :
    List (Payload δ) :=
  readFrom (g.ranOf tid) id

/-- A task as a blocking reader: it waits for its continuation while it is
active. -/
def taskReader (P : Program σ δ) : Reader (Task σ) ContinuationId (Payload δ) where
  waits task := if task.active then some task.continuation else none
  read task payload := P.continuation task.continuation task payload

/-- What the element holds for a task id, as a configuration of the reader. -/
def Workgroup.config (g : Workgroup σ δ) (tid : TaskId) (task : Task σ) :
    Config (Task σ) ContinuationId (Payload δ) :=
  ⟨task, g.queue tid, g.ranOf tid⟩

/-- The constructor's task with everything that arrived still unread. -/
def initialConfig (P : Program σ δ) (es : List (Entry δ)) (tid : TaskId) (kind : TaskKind)
    (payload : Payload δ) : Config (Task σ) ContinuationId (Payload δ) :=
  ⟨P.creator kind payload, delivered es tid, []⟩

/-! ## The maps -/

@[simp] theorem touch_tasks (g : Workgroup σ δ) (tid : TaskId) :
    (g.touch tid).tasks = g.tasks := by
  unfold Workgroup.touch
  split <;> rfl

@[simp] theorem touch_ran (g : Workgroup σ δ) (tid : TaskId) :
    (g.touch tid).ran = g.ran := by
  unfold Workgroup.touch
  split <;> rfl

@[simp] theorem touch_active (g : Workgroup σ δ) (tid : TaskId) :
    (g.touch tid).active = g.active := by
  unfold Workgroup.touch
  split <;> rfl

/-- An entry created by a lookup reads as empty, as an absent one does. -/
@[simp] theorem touch_queue (g : Workgroup σ δ) (tid : TaskId) :
    (g.touch tid).queue = g.queue := by
  funext t id
  unfold Workgroup.touch
  split
  next => rfl
  next hnone =>
    unfold Workgroup.queue
    by_cases h : t = tid
    · subst h
      simp [hnone]
    · simp [Function.update_of_ne h]

@[simp] theorem touch_ranOf (g : Workgroup σ δ) (tid t : TaskId) :
    (g.touch tid).ranOf t = g.ranOf t := by
  simp [Workgroup.ranOf]

@[simp] theorem setQueue_tasks (g : Workgroup σ δ) (tid : TaskId) (id : ContinuationId)
    (q : List (Payload δ)) : (g.setQueue tid id q).tasks = g.tasks := rfl

@[simp] theorem setQueue_ran (g : Workgroup σ δ) (tid : TaskId) (id : ContinuationId)
    (q : List (Payload δ)) : (g.setQueue tid id q).ran = g.ran := rfl

@[simp] theorem setQueue_active (g : Workgroup σ δ) (tid : TaskId) (id : ContinuationId)
    (q : List (Payload δ)) : (g.setQueue tid id q).active = g.active := rfl

@[simp] theorem setQueue_ranOf (g : Workgroup σ δ) (tid t : TaskId) (id : ContinuationId)
    (q : List (Payload δ)) : (g.setQueue tid id q).ranOf t = g.ranOf t := rfl

@[simp] theorem touch_config (g : Workgroup σ δ) (tid t : TaskId) (task : Task σ) :
    (g.touch tid).config t task = g.config t task := by
  simp [Workgroup.config]

theorem setQueue_queue (g : Workgroup σ δ) (tid : TaskId) (id : ContinuationId)
    (q : List (Payload δ)) :
    (g.setQueue tid id q).queue tid = Function.update (g.queue tid) id q := by
  funext k
  unfold Workgroup.setQueue Workgroup.queue
  by_cases h : k = id
  · subst h
    simp
  · cases hb : g.buffers tid <;> simp [Function.update_of_ne h]

theorem setQueue_queue_ne (g : Workgroup σ δ) {tid t : TaskId} (h : t ≠ tid)
    (id : ContinuationId) (q : List (Payload δ)) :
    (g.setQueue tid id q).queue t = g.queue t := by
  funext k
  simp [Workgroup.setQueue, Workgroup.queue, Function.update_of_ne h]

/-! ## One continuation -/

/-- `resume` accepts a payload its task waits for. -/
theorem resumeObserved_some (P : Program σ δ) {tid : TaskId} {payload : Payload δ}
    {g : Workgroup σ δ} {task : Task σ} (ht : g.tasks tid = some task)
    (hid : task.continuation = payload.id) :
    g.resumeObserved P tid payload
      = some (g.invoke P tid task payload,
        (P.continuation task.continuation task payload).active) := by
  simp [Workgroup.resumeObserved, ht, hid]

/-- `resume` refuses a payload without a task that waits for it. -/
theorem resumeObserved_none (P : Program σ δ) {tid : TaskId} {payload : Payload δ}
    {g : Workgroup σ δ} (h : ∀ task, g.tasks tid = some task →
      task.continuation ≠ payload.id) :
    g.resumeObserved P tid payload = none := by
  unfold Workgroup.resumeObserved
  cases ht : g.tasks tid with
  | none => rfl
  | some task => simp [h task ht]

/-- Everything buffered is filed under its own reference number. -/
def Keyed (g : Workgroup σ δ) : Prop :=
  ∀ tid id, ∀ p ∈ g.queue tid id, p.id = id

/-- Every continuation ran with `active_` set to its own task. -/
def ActiveOwn (g : Workgroup σ δ) : Prop :=
  ∀ r ∈ g.ran, r.active = r.tid

theorem touch_keyed {g : Workgroup σ δ} (hk : Keyed g) (tid : TaskId) :
    Keyed (g.touch tid) := by
  intro t id p hp
  rw [touch_queue] at hp
  exact hk t id p hp

theorem touch_activeOwn {g : Workgroup σ δ} (ha : ActiveOwn g) (tid : TaskId) :
    ActiveOwn (g.touch tid) := by
  intro r hr
  rw [touch_ran] at hr
  exact ha r hr

/-- Another task's entries leave what is held for `t` alone. -/
structure SameFor (g g' : Workgroup σ δ) (t : TaskId) : Prop where
  tasks : g'.tasks t = g.tasks t
  queue : g'.queue t = g.queue t
  ranOf : g'.ranOf t = g.ranOf t

theorem SameFor.trans {g g' g'' : Workgroup σ δ} {t : TaskId} (h : SameFor g g' t)
    (h' : SameFor g' g'' t) : SameFor g g'' t :=
  ⟨h'.tasks.trans h.tasks, h'.queue.trans h.queue, h'.ranOf.trans h.ranOf⟩

/-- The element after `it` was drained from `task` in `g`. -/
structure Drained (P : Program σ δ) (g : Workgroup σ δ) (it : TaskId) (task : Task σ)
    (g' : Workgroup σ δ) : Prop where
  runs : ∃ task', Runs (taskReader P) (g.config it task) (g'.config it task') ∧
    Blocked (taskReader P) (g'.config it task') ∧
    g'.tasks it = if task'.active then some task' else none
  same : ∀ t, t ≠ it → SameFor g g' t
  keyed : Keyed g'
  activeOwn : ActiveOwn g'

@[simp] theorem invoke_queue (P : Program σ δ) (g : Workgroup σ δ) (tid : TaskId)
    (task : Task σ) (payload : Payload δ) :
    (g.invoke P tid task payload).queue = g.queue := rfl

@[simp] theorem invoke_active (P : Program σ δ) (g : Workgroup σ δ) (tid : TaskId)
    (task : Task σ) (payload : Payload δ) :
    (g.invoke P tid task payload).active = tid := rfl

theorem invoke_tasks (P : Program σ δ) (g : Workgroup σ δ) (tid : TaskId)
    (task : Task σ) (payload : Payload δ) :
    (g.invoke P tid task payload).tasks tid
      = if (P.continuation task.continuation task payload).active
        then some (P.continuation task.continuation task payload) else none := by
  simp [Workgroup.invoke]

theorem invoke_ranOf (P : Program σ δ) (g : Workgroup σ δ) (tid : TaskId)
    (task : Task σ) (payload : Payload δ) :
    (g.invoke P tid task payload).ranOf tid =
    g.ranOf tid ++ [(task.continuation, payload)] := by
  simp [Workgroup.invoke, Workgroup.ranOf]

theorem invoke_same (P : Program σ δ) (g : Workgroup σ δ) {tid t : TaskId} (h : t ≠ tid)
    (task : Task σ) (payload : Payload δ) :
    SameFor g (g.invoke P tid task payload) t where
  tasks := by simp [Workgroup.invoke, Function.update_of_ne h]
  queue := rfl
  ranOf := by simp [Workgroup.invoke, Workgroup.ranOf, h.symm]

theorem invoke_activeOwn (P : Program σ δ) {g : Workgroup σ δ} (ha : ActiveOwn g)
    (tid : TaskId) (task : Task σ) (payload : Payload δ) :
    ActiveOwn (g.invoke P tid task payload) := by
  intro r hr
  rcases List.mem_append.mp hr with hr | hr
  · exact ha r hr
  · obtain rfl := List.mem_singleton.mp hr
    rfl

/-- The state after one round of `try_continue_`: the head of the queue was
handed over and popped. -/
def Workgroup.afterPop (P : Program σ δ) (g : Workgroup σ δ) (it : TaskId) (task : Task σ)
    (payload : Payload δ) (rest : List (Payload δ)) : Workgroup σ δ :=
  (g.invoke P it task payload).setQueue it task.continuation rest

theorem afterPop_queue (P : Program σ δ) (g : Workgroup σ δ) (it : TaskId) (task : Task σ)
    (payload : Payload δ) (rest : List (Payload δ)) :
    (g.afterPop P it task payload rest).queue it
      = Function.update (g.queue it) task.continuation rest :=
  setQueue_queue _ _ _ _

theorem afterPop_ranOf (P : Program σ δ) (g : Workgroup σ δ) (it : TaskId) (task : Task σ)
    (payload : Payload δ) (rest : List (Payload δ)) :
    (g.afterPop P it task payload rest).ranOf it
      = g.ranOf it ++ [(task.continuation, payload)] :=
  invoke_ranOf P g it task payload

theorem afterPop_same (P : Program σ δ) (g : Workgroup σ δ) {it t : TaskId} (h : t ≠ it)
    (task : Task σ) (payload : Payload δ) (rest : List (Payload δ)) :
    SameFor g (g.afterPop P it task payload rest) t where
  tasks := (invoke_same P g h task payload).tasks
  queue := setQueue_queue_ne _ h _ _
  ranOf := (invoke_same P g h task payload).ranOf

/-- Popping what the task waits for is one step of the reader. -/
theorem afterPop_step (P : Program σ δ) {g : Workgroup σ δ} {it : TaskId} {task : Task σ}
    {payload : Payload δ} {rest : List (Payload δ)} (hact : task.active = true)
    (hq : g.queue it task.continuation = payload :: rest) :
    Reader.Step (taskReader P) (g.config it task)
      ((g.afterPop P it task payload rest).config it
        (P.continuation task.continuation task payload)) := by
  have hw : (taskReader P).waits (g.config it task).state = some task.continuation := by
    simp [taskReader, Workgroup.config, hact]
  have hstep := Reader.Step.read (R := taskReader P) (c := g.config it task) hw hq
  unfold Workgroup.config at hstep ⊢
  rw [afterPop_queue, afterPop_ranOf]
  exact hstep

theorem afterPop_keyed (P : Program σ δ) {g : Workgroup σ δ} (hk : Keyed g) {it : TaskId}
    {task : Task σ} {payload : Payload δ} {rest : List (Payload δ)}
    (hq : g.queue it task.continuation = payload :: rest) :
    Keyed (g.afterPop P it task payload rest) := by
  intro t id p hp
  by_cases ht : t = it
  · subst ht
    rw [afterPop_queue] at hp
    by_cases hid : id = task.continuation
    · subst hid
      rw [Function.update_self] at hp
      exact hk t _ p (by rw [hq]; exact List.mem_cons_of_mem _ hp)
    · rw [Function.update_of_ne hid] at hp
      exact hk t id p hp
  · rw [(afterPop_same P g ht task payload rest).queue] at hp
    exact hk t id p hp

/-! ## The drain -/

/-- One round of `try_continue_` with something to deliver. -/
theorem tryContinue_cons (P : Program σ δ) {fuel : Nat} {g : Workgroup σ δ} {it : TaskId}
    {task : Task σ} {payload : Payload δ} {rest : List (Payload δ)}
    (ht : g.tasks it = some task) (hact : g.active = it) (hk : Keyed g)
    (hq : g.queue it task.continuation = payload :: rest) :
    g.tryContinue P (fuel + 1) it
      = if (P.continuation task.continuation task payload).active
        then ((g.touch it).afterPop P it task payload rest).tryContinue P fuel it
        else some ((g.touch it).afterPop P it task payload rest) := by
  have hid : task.continuation = payload.id :=
    (hk it _ payload (by rw [hq]; exact List.mem_cons_self ..)).symm
  have ht' : (g.touch it).tasks it = some task := by rw [touch_tasks]; exact ht
  have hq' : (g.touch it).queue it task.continuation = payload :: rest := by
    rw [touch_queue]; exact hq
  simp only [Workgroup.tryContinue, ht, hact, hq',
    resumeObserved_some P ht' hid, invoke_queue, List.tail_cons]
  rfl

/-- The loop with nothing to deliver. -/
theorem tryContinue_nil (P : Program σ δ) {fuel : Nat} {g : Workgroup σ δ} {it : TaskId}
    {task : Task σ} (ht : g.tasks it = some task) (hact : g.active = it)
    (hq : g.queue it task.continuation = []) :
    g.tryContinue P (fuel + 1) it = some (g.touch it) := by
  have hq' : (g.touch it).queue it task.continuation = [] := by
    rw [touch_queue]; exact hq
  simp only [Workgroup.tryContinue, ht, hact, hq']

/-- Nothing to deliver is a drain of no steps. -/
theorem drained_nil (P : Program σ δ) {g : Workgroup σ δ} {it : TaskId} {task : Task σ}
    (ht : g.tasks it = some task) (hact : task.active = true)
    (hq : g.queue it task.continuation = []) (hk : Keyed g) (ha : ActiveOwn g) :
    Drained P g it task g where
  runs := by
    refine ⟨task, .refl, ?_, by rw [ht, if_pos hact]⟩
    intro k hw
    simp only [taskReader, Workgroup.config, hact, if_true, Option.some.injEq] at hw
    subst hw
    exact hq
  same := fun t _ => ⟨rfl, rfl, rfl⟩
  keyed := hk
  activeOwn := ha

theorem Drained.touched {P : Program σ δ} {g g' : Workgroup σ δ} {it t : TaskId}
    {task : Task σ} (h : Drained P g it task g') : Drained P g it task (g'.touch t) where
  runs := by
    obtain ⟨task', hruns, hblocked, htasks⟩ := h.runs
    exact ⟨task', by rwa [touch_config], by rwa [touch_config], by rwa [touch_tasks]⟩
  same := fun u hu => ⟨by simp [(h.same u hu).tasks], by simp [(h.same u hu).queue],
    by simp [(h.same u hu).ranOf]⟩
  keyed := touch_keyed h.keyed t
  activeOwn := touch_activeOwn h.activeOwn t

/-- The map entry `try_continue_` creates is not seen by a drain. -/
theorem Drained.of_touch {P : Program σ δ} {g g' : Workgroup σ δ} {it t : TaskId}
    {task : Task σ} (h : Drained P (g.touch t) it task g') : Drained P g it task g' where
  runs := by
    have hruns := h.runs
    rw [touch_config] at hruns
    exact hruns
  same := fun u hu => ⟨by simp [(h.same u hu).tasks], by simp [(h.same u hu).queue],
    by simp [(h.same u hu).ranOf]⟩
  keyed := h.keyed
  activeOwn := h.activeOwn

/-- A round and the drain after it are one drain. -/
theorem Drained.cons (P : Program σ δ) {g : Workgroup σ δ} {it : TaskId} {task : Task σ}
    {payload : Payload δ} {rest : List (Payload δ)} {g' : Workgroup σ δ}
    (hact : task.active = true) (hq : g.queue it task.continuation = payload :: rest)
    (h : Drained P (g.afterPop P it task payload rest) it
      (P.continuation task.continuation task payload) g') :
    Drained P g it task g' where
  runs := by
    obtain ⟨task', hruns, hblocked, htasks⟩ := h.runs
    exact ⟨task', hruns.head (afterPop_step P hact hq), hblocked, htasks⟩
  same := fun t ht => (afterPop_same P g ht task payload rest).trans (h.same t ht)
  keyed := h.keyed
  activeOwn := h.activeOwn

/-- A task that ended in its continuation is drained. -/
theorem drained_ended (P : Program σ δ) {g : Workgroup σ δ} {it : TaskId} {task : Task σ}
    (ht : g.tasks it = none) (hact : task.active = false) (hk : Keyed g)
    (ha : ActiveOwn g) :
    Drained P g it task g where
  runs := by
    refine ⟨task, .refl, ?_, by simp [ht, hact]⟩
    intro k hw
    simp [taskReader, Workgroup.config, hact] at hw
  same := fun t _ => ⟨rfl, rfl, rfl⟩
  keyed := hk
  activeOwn := ha

/-- `try_continue_` returns, and what it did is a drain. The induction is on the
fuel, which bounds the payloads the task can still be given. -/
theorem tryContinue_spec (P : Program σ δ) {it : TaskId} :
    ∀ (fuel : Nat) {g : Workgroup σ δ} {task : Task σ},
      g.tasks it = some task → task.active = true → g.active = it →
      Keyed g → ActiveOwn g →
      (∀ d, Runs (taskReader P) (g.config it task) d →
        d.trace.length < (g.ranOf it).length + fuel) →
      ∃ g', g.tryContinue P fuel it = some g' ∧ Drained P g it task g' := by
  intro fuel
  induction fuel with
  | zero =>
    intro g task _ _ _ _ _ hbound
    exact absurd (hbound _ .refl) (by simp [Workgroup.config])
  | succ fuel ih =>
    intro g task ht hact hactive hk ha hbound
    cases hq : g.queue it task.continuation with
    | nil => exact ⟨_, tryContinue_nil P ht hactive hq,
      (drained_nil P ht hact hq hk ha).touched⟩
    | cons payload rest =>
      have hq' : (g.touch it).queue it task.continuation = payload :: rest := by
        rw [touch_queue]; exact hq
      have hstep := afterPop_step P hact hq'
      have hk' := afterPop_keyed P (touch_keyed hk it) hq'
      have ha' : ActiveOwn ((g.touch it).afterPop P it task payload rest) :=
        invoke_activeOwn P (touch_activeOwn ha it) it task payload
      have htasks : ((g.touch it).afterPop P it task payload rest).tasks it
          = if (P.continuation task.continuation task payload).active
            then some (P.continuation task.continuation task payload) else none :=
        invoke_tasks P (g.touch it) it task payload
      rw [tryContinue_cons P ht hactive hk hq]
      by_cases hkeep : (P.continuation task.continuation task payload).active = true
      · rw [if_pos hkeep] at htasks ⊢
        -- the popped payload pays for the fuel
        obtain ⟨g', hg', hdrained⟩ := ih htasks hkeep rfl hk' ha' (by
          intro d hd
          have hle := hbound d (by
            rw [← touch_config g it it task]
            exact hd.head hstep)
          rw [afterPop_ranOf, List.length_append, touch_ranOf]
          simp only [List.length_cons, List.length_nil]
          omega)
        exact ⟨g', hg', (Drained.cons P hact hq' hdrained).of_touch⟩
      · rw [if_neg hkeep] at htasks ⊢
        exact ⟨_, rfl, (Drained.cons P hact hq' (drained_ended P htasks
          (Bool.eq_false_iff.mpr hkeep) hk' ha')).of_touch⟩

/-! ## Tracking a task id through the entries -/

/-- What the element holds for `tid` after the entries `es`: everything arrived
is still queued before the task is created; afterwards it drains, from the
constructor's task, to what is held now. -/
def Tracks (P : Program σ δ) (es : List (Entry δ)) (g : Workgroup σ δ) (tid : TaskId) :
    Prop :=
  match created es tid with
  | [] => g.tasks tid = none ∧ g.queue tid = delivered es tid ∧ g.ranOf tid = []
  | (kind, payload) :: _ => ∃ task,
      Runs (taskReader P) (initialConfig P es tid kind payload) (g.config tid task) ∧
      Blocked (taskReader P) (g.config tid task) ∧
      g.tasks tid = if task.active then some task else none

/-- The invariant of the element between entries. -/
structure Inv (P : Program σ δ) (es : List (Entry δ)) (g : Workgroup σ δ) : Prop where
  tracks : ∀ tid, Tracks P es g tid
  keyed : Keyed g
  activeOwn : ActiveOwn g

theorem init_inv (P : Program σ δ) (active : TaskId) :
    Inv P [] (Workgroup.init active : Workgroup σ δ) where
  tracks := fun tid => ⟨rfl, rfl, rfl⟩
  keyed := by
    intro tid id p hp
    exact absurd hp (by simp [Workgroup.queue, Workgroup.init])
  activeOwn := by
    intro r hr
    exact absurd hr (by simp [Workgroup.init])

/-- Entries for other tasks keep what is tracked. -/
theorem Tracks.same {P : Program σ δ} {es : List (Entry δ)} {g g' : Workgroup σ δ}
    {tid : TaskId} (h : Tracks P es g tid) (hs : SameFor g g' tid) {e : Entry δ}
    (hc : created [e] tid = []) (hd : arrived [e] tid = []) :
    Tracks P (es ++ [e]) g' tid := by
  have hc' : created (es ++ [e]) tid = created es tid := by
    rw [created, List.filterMap_append]
    exact (congrArg (created es tid ++ ·) hc).trans (List.append_nil _)
  have hd' : delivered (es ++ [e]) tid = delivered es tid := by
    funext id
    rw [delivered, arrived, List.filterMap_append]
    exact congrArg (readFrom · id)
      ((congrArg (arrived es tid ++ ·) hd).trans (List.append_nil _))
  unfold Tracks initialConfig Workgroup.config at *
  rw [hc', hd', hs.tasks, hs.queue, hs.ranOf]
  exact h

theorem created_append (es : List (Entry δ)) (e : Entry δ) (tid : TaskId) :
    created (es ++ [e]) tid = created es tid ++ created [e] tid :=
  List.filterMap_append ..

theorem arrived_append (es : List (Entry δ)) (e : Entry δ) (tid : TaskId) :
    arrived (es ++ [e]) tid = arrived es tid ++ arrived [e] tid :=
  List.filterMap_append ..

theorem arrived_length_le (es : List (Entry δ)) (tid : TaskId) :
    (arrived es tid).length ≤ es.length :=
  List.length_filterMap_le ..

/-- A task cannot be given more payloads than arrived for it. -/
theorem runs_trace_length_le {P : Program σ δ} {es : List (Entry δ)} {tid : TaskId}
    {kind : TaskKind} {payload : Payload δ}
    {d : Config (Task σ) ContinuationId (Payload δ)}
    (h : Runs (taskReader P) (initialConfig P es tid kind payload) d) :
    d.trace.length ≤ (arrived es tid).length :=
  Reader.trace_length_le fun k => ⟨d.queues k, Reader.runs_account h k⟩

/-- The arrival of a payload, seen by the reader. -/
theorem initialConfig_push (P : Program σ δ) {es : List (Entry δ)} {e : Entry δ}
    {tid : TaskId}
    {payload : Payload δ} (he : arrived [e] tid = [(payload.id, payload)])
    (kind : TaskKind) (first : Payload δ) :
    initialConfig P (es ++ [e]) tid kind first
      = (initialConfig P es tid kind first).push payload.id payload := by
  have hd : delivered (es ++ [e]) tid
      = Function.update (delivered es tid) payload.id
        (delivered es tid payload.id ++ [payload]) := by
    funext id
    rw [delivered, arrived_append, he, Reader.readFrom_append, Reader.readFrom_single]
    by_cases h : payload.id = id
    · subst h
      simp [delivered]
    · simp [delivered, h, Function.update_of_ne (fun e => h e.symm)]
  simp [initialConfig, Config.push, hd]

theorem buffer_queue (g : Workgroup σ δ) (tid : TaskId) (payload : Payload δ) :
    (g.buffer tid payload).queue tid
      = Function.update (g.queue tid) payload.id (g.queue tid payload.id ++ [payload]) :=
  setQueue_queue _ _ _ _

/-- `buffer_` is an arrival, whatever the task's state. -/
theorem buffer_config (g : Workgroup σ δ) (tid : TaskId) (payload : Payload δ)
    (task : Task σ) : (g.buffer tid payload).config tid task =
    (g.config tid task).push payload.id payload := by
  simp [Workgroup.config, Config.push, buffer_queue]
  rfl

theorem buffer_same (g : Workgroup σ δ) {tid t : TaskId} (h : t ≠ tid)
    (payload : Payload δ) :
    SameFor g (g.buffer tid payload) t :=
  ⟨rfl, setQueue_queue_ne _ h _ _, rfl⟩

theorem buffer_keyed {g : Workgroup σ δ} (hk : Keyed g) (tid : TaskId)
    (payload : Payload δ) :
    Keyed (g.buffer tid payload) := by
  intro t id p hp
  by_cases ht : t = tid
  · subst ht
    rw [buffer_queue] at hp
    by_cases hid : id = payload.id
    · subst hid
      rw [Function.update_self] at hp
      rcases List.mem_append.mp hp with hp | hp
      · exact hk t _ p hp
      · rw [List.mem_singleton.mp hp]
    · rw [Function.update_of_ne hid] at hp
      exact hk t id p hp
  · rw [(buffer_same g ht payload).queue] at hp
    exact hk t id p hp

/-- Handing a payload to the task that waits for it is an arrival and a read:
nothing else is queued for that continuation. -/
theorem invoke_step (P : Program σ δ) {g : Workgroup σ δ} {tid : TaskId} {task : Task σ}
    {payload : Payload δ} (hact : task.active = true)
    (hid : task.continuation = payload.id)
    (hb : Blocked (taskReader P) (g.config tid task)) :
    Reader.Step (taskReader P) ((g.config tid task).push payload.id payload)
      ((g.invoke P tid task payload).config tid
        (P.continuation task.continuation task payload)) := by
  have hw : (taskReader P).waits ((g.config tid task).push payload.id payload).state
      = some payload.id := by
    simp [taskReader, Workgroup.config, Config.push, hact, hid]
  have hempty : g.queue tid payload.id = [] := hb payload.id hw
  have hq : ((g.config tid task).push payload.id payload).queues payload.id =
      [payload] := by
    simp [Config.push, Workgroup.config, hempty]
  have hstep := Reader.Step.read (R := taskReader P) hw hq
  have hqueue : Function.update (Function.update (g.queue tid) task.continuation
      (g.queue tid task.continuation ++ [payload])) task.continuation [] =
        g.queue tid := by
    rw [Function.update_idem, hid, ← hempty, Function.update_eq_self]
  simp only [Config.push, Workgroup.config, hqueue, ← hid] at hstep ⊢
  rw [invoke_ranOf]
  exact hstep

/-- The entry's effect on the ids it is not for. -/
structure OnlyFor (e : Entry δ) (tid : TaskId) : Prop where
  created : ∀ t, t ≠ tid → created [e] t = []
  arrived : ∀ t, t ≠ tid → arrived [e] t = []

/-- A payload that is not accepted is tracked as buffered: no task waits for it. -/
theorem buffer_tracks {P : Program σ δ} {es : List (Entry δ)} {g : Workgroup σ δ}
    {tid : TaskId} {payload : Payload δ} {e : Entry δ} (hc : created [e] tid = [])
    (he : arrived [e] tid = [(payload.id, payload)])
    (hrefuse : ∀ task, g.tasks tid = some task → task.continuation ≠ payload.id)
    (h : Tracks P es g tid) : Tracks P (es ++ [e]) (g.buffer tid payload) tid := by
  unfold Tracks at *
  rw [created_append, hc, List.append_nil]
  split at h
  next _ =>
    obtain ⟨ht, hq, hr⟩ := h
    refine ⟨ht, ?_, hr⟩
    have hpush : (initialConfig P (es ++ [e]) tid 0 payload).queues
        = ((initialConfig P es tid 0 payload).push payload.id payload).queues :=
      congrArg Config.queues (initialConfig_push P he 0 payload)
    rw [buffer_queue, hq]
    exact hpush.symm
  next kind first _ _ =>
    obtain ⟨task, hruns, hblocked, ht⟩ := h
    refine ⟨task, ?_, ?_, ht⟩
    · rw [initialConfig_push P he, buffer_config]
      exact Reader.push_runs hruns _ _
    · rw [buffer_config]
      intro k hw
      have hne : k ≠ payload.id := by
        intro hk
        cases hact : task.active with
        | false => simp [taskReader, Workgroup.config, Config.push, hact] at hw
        | true =>
          rw [hact, if_pos rfl] at ht
          -- a task that waits for this payload would not have refused it
          apply hrefuse task ht
          simp only [taskReader, Workgroup.config, Config.push, hact, if_true,
            Option.some.injEq] at hw
          rw [hw, hk]
      rw [show ((g.config tid task).push payload.id payload).queues k
          = (g.config tid task).queues k from Function.update_of_ne hne _ _]
      exact hblocked k hw

/-- What a drain of the named task leaves is tracked. -/
theorem Drained.tracks {P : Program σ δ} {es : List (Entry δ)} {g g' : Workgroup σ δ}
    {tid : TaskId} {task : Task σ} {kind : TaskKind} {first : Payload δ}
    {rest : List (TaskKind × Payload δ)} (h : Drained P g tid task g')
    (hc : created es tid = (kind, first) :: rest)
    (hruns : Runs (taskReader P) (initialConfig P es tid kind first)
      (g.config tid task)) :
    Tracks P es g' tid := by
  unfold Tracks
  rw [hc]
  obtain ⟨task', hdrain, hblocked, ht⟩ := h.runs
  exact ⟨task', hruns.trans hdrain, hblocked, ht⟩

/-- A task that accepts a payload is the tracked one, and it is active. -/
theorem Tracks.accepting {P : Program σ δ} {es : List (Entry δ)} {g : Workgroup σ δ}
    {tid : TaskId} {task : Task σ} (h : Tracks P es g tid)
    (ht : g.tasks tid = some task) :
    ∃ kind first rest, created es tid = (kind, first) :: rest ∧ task.active = true ∧
      Runs (taskReader P) (initialConfig P es tid kind first) (g.config tid task) ∧
      Blocked (taskReader P) (g.config tid task) := by
  unfold Tracks at h
  split at h
  next => exact absurd (ht.symm.trans h.1) (by simp)
  next kind first rest hcreated =>
    obtain ⟨task', hruns, hblocked, ht'⟩ := h
    cases hact : task'.active with
    | false =>
      rw [hact] at ht'
      exact absurd (ht.symm.trans ht') (by simp)
    | true =>
      rw [hact, if_pos rfl] at ht'
      obtain rfl : task = task' := Option.some.inj (ht.symm.trans ht')
      exact ⟨kind, first, rest, hcreated, hact, hruns, hblocked⟩

/-- A task waits for the payload: it takes it and goes on draining. -/
theorem resume_accepts {P : Program σ δ} {es : List (Entry δ)} {g : Workgroup σ δ}
    {fuel : Nat} {tid : TaskId} {task : Task σ} {payload : Payload δ} {e : Entry δ}
    (hfuel : es.length < fuel) (h : Inv P es g) (honly : OnlyFor e tid)
    (hc : created [e] tid = []) (he : arrived [e] tid = [(payload.id, payload)])
    (ht : g.tasks tid = some task) (hid : task.continuation = payload.id) :
    ∃ g', g.resume P fuel tid payload = some (g', true) ∧ Inv P (es ++ [e]) g' := by
  obtain ⟨kind, first, rest, hcreated, hact, hruns, hblocked⟩ :=
    (h.tracks tid).accepting ht
  have hruns' : Runs (taskReader P) (initialConfig P (es ++ [e]) tid kind first)
      ((g.invoke P tid task payload).config tid
        (P.continuation task.continuation task payload)) := by
    rw [initialConfig_push P he]
    exact (Reader.push_runs hruns _ _).tail (invoke_step P hact hid hblocked)
  have hcreated' : created (es ++ [e]) tid = (kind, first) :: rest := by
    rw [created_append, hc, List.append_nil, hcreated]
  have hkeyed : Keyed (g.invoke P tid task payload) := h.keyed
  have hown := invoke_activeOwn P h.activeOwn tid task payload
  have htasks := invoke_tasks P g tid task payload
  have hdrain : ∃ g', g.resume P fuel tid payload = some (g', true) ∧
      Drained P (g.invoke P tid task payload) tid
        (P.continuation task.continuation task payload) g' := by
    rw [Workgroup.resume, resumeObserved_some P ht hid]
    by_cases hkeep : (P.continuation task.continuation task payload).active = true
    · rw [if_pos hkeep] at htasks
      obtain ⟨g', hg', hd⟩ := tryContinue_spec P fuel htasks hkeep rfl hkeyed hown (by
        intro d hd
        -- each round of the loop reads a payload that arrived, so the fuel is enough
        have hle := runs_trace_length_le (hruns'.trans hd)
        have hes := arrived_length_le es tid
        rw [arrived_append, he, List.length_append, List.length_singleton] at hle
        rw [invoke_ranOf, List.length_append, List.length_singleton]
        omega)
      exact ⟨g', by simp [hkeep, hg'], hd⟩
    · rw [if_neg hkeep] at htasks
      exact ⟨_, by simp [hkeep],
        drained_ended P htasks (Bool.eq_false_iff.mpr hkeep) hkeyed hown⟩
  obtain ⟨g', hg', hd⟩ := hdrain
  refine ⟨g', hg', ⟨fun t => ?_, hd.keyed, hd.activeOwn⟩⟩
  by_cases htid : t = tid
  · subst htid
    exact hd.tracks hcreated' hruns'
  · exact (h.tracks t).same ((invoke_same P g htid task payload).trans (hd.same t htid))
      (honly.created t htid) (honly.arrived t htid)

/-- Accepting or buffering one payload keeps the invariant, and returns. -/
theorem resumeOrBuffer_inv {P : Program σ δ} {es : List (Entry δ)} {g : Workgroup σ δ}
    {fuel : Nat} {tid : TaskId} {payload : Payload δ} {e : Entry δ}
    (hfuel : es.length < fuel) (h : Inv P es g) (honly : OnlyFor e tid)
    (hc : created [e] tid = []) (he : arrived [e] tid = [(payload.id, payload)]) :
    ∃ g', g.resumeOrBuffer P fuel tid payload = some g' ∧ Inv P (es ++ [e]) g' := by
  by_cases haccept : ∃ task, g.tasks tid = some task ∧ task.continuation = payload.id
  · obtain ⟨task, ht, hid⟩ := haccept
    obtain ⟨g', hg', hinv⟩ := resume_accepts hfuel h honly hc he ht hid
    exact ⟨g', by rw [Workgroup.resumeOrBuffer, hg'], hinv⟩
  · have hrefuse : ∀ task, g.tasks tid = some task → task.continuation ≠ payload.id :=
      fun task ht hid => haccept ⟨task, ht, hid⟩
    refine ⟨g.buffer tid payload, ?_, ⟨fun t => ?_, buffer_keyed h.keyed tid payload, ?_⟩⟩
    · rw [Workgroup.resumeOrBuffer, Workgroup.resume, resumeObserved_none P hrefuse]
    · by_cases htid : t = tid
      · subst htid
        exact buffer_tracks hc he hrefuse (h.tracks t)
      · exact (h.tracks t).same (buffer_same g htid payload)
          (honly.created t htid) (honly.arrived t htid)
    · exact h.activeOwn

/-- `create` of a task id that has not been created before keeps the invariant,
and returns. -/
theorem create_inv {P : Program σ δ} {es : List (Entry δ)} {g : Workgroup σ δ}
    {fuel : Nat} {msg : TaskMessage δ} (hfuel : es.length < fuel) (h : Inv P es g)
    (hfresh : created es msg.tid = []) :
    ∃ g', g.create P fuel msg = some g' ∧ Inv P (es ++ [.create msg]) g' := by
  have htracks := h.tracks msg.tid
  unfold Tracks at htracks
  rw [hfresh] at htracks
  obtain ⟨ht, hq, hr⟩ := htracks
  let task := P.creator msg.kind ⟨msg.refnum, msg.data⟩
  have hcreated : created (es ++ [.create msg]) msg.tid
      = [(msg.kind, ⟨msg.refnum, msg.data⟩)] := by
    rw [created_append, hfresh]
    simp [created]
  have harrived : arrived (es ++ [.create msg]) msg.tid = arrived es msg.tid := by
    rw [arrived_append]
    exact List.append_nil _
  have hinit : initialConfig P (es ++ [.create msg]) msg.tid msg.kind
    ⟨msg.refnum, msg.data⟩
      = g.config msg.tid task := by
    have hd : delivered (es ++ [.create msg]) msg.tid = delivered es msg.tid := by
      funext id
      rw [delivered, harrived, delivered]
    simp only [initialConfig, Workgroup.config, hd, hq, hr]
    rfl
  -- the element once the task is in `tasks_`, before it is drained
  let g₀ : Workgroup σ δ :=
    { g with
      active := msg.tid
      tasks := Function.update g.tasks msg.tid (if task.active then some task else none) }
  have hsame : ∀ t, t ≠ msg.tid → SameFor g g₀ t :=
    fun t htid => ⟨Function.update_of_ne htid _ _, rfl, rfl⟩
  have hdrain : ∃ g', g.create P fuel msg = some g' ∧ Drained P g₀ msg.tid task g' := by
    unfold Workgroup.create
    have htask : g₀.tasks msg.tid = if task.active then some task else none :=
      Function.update_self ..
    by_cases hact : task.active = true
    · have htask' := htask
      rw [if_pos hact] at htask'
      obtain ⟨g', hg', hd⟩ :=
        tryContinue_spec P fuel htask' hact rfl h.keyed h.activeOwn (by
        intro d hd
        have hle := runs_trace_length_le (P := P) (d := d) (by rw [hinit]; exact hd)
        have hes := arrived_length_le es msg.tid
        rw [harrived] at hle
        rw [show g₀.ranOf msg.tid = [] from hr, List.length_nil]
        omega)
      refine ⟨g', ?_, hd⟩
      simp only [ht]
      rw [if_pos hact, ← hg']
      simp only [g₀, if_pos hact]
      rfl
    · rw [if_neg hact] at htask
      refine ⟨g₀, ?_, drained_ended P htask (Bool.eq_false_iff.mpr hact)
        h.keyed h.activeOwn⟩
      rw [if_neg hact]
      simp only [g₀, if_neg hact, ← ht, Function.update_eq_self]
  obtain ⟨g', hg', hd⟩ := hdrain
  refine ⟨g', hg', ⟨fun t => ?_, hd.keyed, hd.activeOwn⟩⟩
  by_cases htid : t = msg.tid
  · subst htid
    exact hd.tracks hcreated (by rw [hinit]; exact .refl)
  · exact (h.tracks t).same ((hsame t htid).trans (hd.same t htid))
      (by simp [created, Ne.symm htid]) rfl

/-- The ids created by a prefix. -/
theorem created_eq_nil {es : List (Entry δ)} {tid : TaskId} (h : tid ∉ createIds es) :
    created es tid = [] := by
  rw [created, List.filterMap_eq_nil_iff]
  intro e he
  cases e with
  | create msg =>
    have hne : msg.tid ≠ tid := by
      intro heq
      exact h (List.mem_filterMap.mpr ⟨_, he, congrArg some heq⟩)
    simp [hne]
  | resumeMessage msg => rfl
  | resumeReduction msg => rfl

/-- Every entry returns and keeps the invariant. -/
theorem deliver_inv {P : Program σ δ} {es : List (Entry δ)} {g : Workgroup σ δ}
    {fuel : Nat} {e : Entry δ} (hfuel : es.length < fuel)
    (hcreate : (createIds (es ++ [e])).Nodup) (h : Inv P es g) :
    ∃ g', g.deliver P fuel e = some g' ∧ Inv P (es ++ [e]) g' := by
  cases e with
  | create msg =>
    apply create_inv hfuel h
    apply created_eq_nil
    rw [createIds, List.filterMap_append] at hcreate
    exact fun hmem => (List.nodup_append.mp hcreate).2.2 _ hmem _ (by simp) rfl
  | resumeMessage msg =>
    exact resumeOrBuffer_inv hfuel h
      ⟨fun t _ => rfl, fun t ht => by simp [arrived, ht.symm]⟩ rfl
      (by simp [arrived, Payload.id])
  | resumeReduction msg =>
    exact resumeOrBuffer_inv hfuel h
      ⟨fun t _ => rfl, fun t ht => by simp [arrived, ht.symm]⟩ rfl
      (by simp [arrived, Payload.id])

/-- The invariant holds after any sequence of entries, which all return. -/
theorem run_inv (P : Program σ δ) (active : TaskId) {fuel : Nat} :
    ∀ (es : List (Entry δ)), es.length < fuel → (createIds es).Nodup →
      ∃ g, (Workgroup.init active).run P fuel es = some g ∧ Inv P es g := by
  intro es
  induction es using List.reverseRecOn with
  | nil => exact fun _ _ => ⟨_, rfl, init_inv P active⟩
  | append_singleton es e ih =>
    intro hfuel hcreate
    rw [List.length_append, List.length_singleton] at hfuel
    have hcreate' : (createIds es).Nodup := by
      rw [createIds, List.filterMap_append] at hcreate
      exact (List.nodup_append.mp hcreate).1
    have hfuel' : es.length < fuel := by omega
    obtain ⟨g, hg, hinv⟩ := ih hfuel' hcreate'
    obtain ⟨g', hg', hinv'⟩ := deliver_inv hfuel' hcreate hinv
    refine ⟨g', ?_, hinv'⟩
    rw [Workgroup.run] at hg ⊢
    rw [List.foldlM_append, hg]
    simpa using hg'

/-! ## What holds between entries -/

/-- **The mailbox loses nothing and keeps the order.** Any sequence of entries,
with at most one `create` per task id, returns. Then no live task has a payload
buffered for the continuation it waits on; what was passed to a continuation
followed by what is still queued for it is what was delivered for it, in
arrival order; and every continuation ran with `active_` set to its own task. -/
theorem run_spec (P : Program σ δ) (active : TaskId) (es : List (Entry δ))
    (hcreate : (createIds es).Nodup) {fuel : Nat} (hfuel : es.length < fuel) :
    ∃ g, (Workgroup.init active).run P fuel es = some g ∧
      (∀ tid task, g.tasks tid = some task → g.queue tid task.continuation = []) ∧
      (∀ tid id, g.passed tid id ++ g.queue tid id = delivered es tid id) ∧
      (∀ r ∈ g.ran, r.active = r.tid) := by
  obtain ⟨g, hg, hinv⟩ := run_inv P active es hfuel hcreate
  refine ⟨g, hg, ?_, ?_, hinv.activeOwn⟩
  · intro tid task ht
    obtain ⟨_, _, _, _, hact, _, hblocked⟩ := (hinv.tracks tid).accepting ht
    exact hblocked task.continuation (by simp [taskReader, Workgroup.config, hact])
  · intro tid id
    have htracks := hinv.tracks tid
    unfold Tracks at htracks
    split at htracks
    next =>
      obtain ⟨_, hq, hr⟩ := htracks
      rw [Workgroup.passed, hr, hq, Reader.readFrom_nil, List.nil_append]
    next =>
      obtain ⟨task, hruns, _, _⟩ := htracks
      exact Reader.runs_account hruns id

/-- A task kind for the concrete runs below: it adds up the payloads of
continuation 0 until it sees a zero, then takes one payload of continuation 1
and ends. -/
def summingTask : Program Nat Nat where
  creator kind payload := ⟨true, kind, 0, payload.data⟩
  continuation
    | 0, task, payload =>
      if payload.data = 0 then { task with continuation := 1 }
      else { task with self := task.self + payload.data }
    | _, task, payload => { task with active := false, self := task.self + payload.data }

/-- A payload that arrives before its task and one for a later continuation. -/
theorem run_spec_early_payloads :
    ∃ g, (Workgroup.init ⟨0, 0⟩).run summingTask 5
        [.resumeMessage ⟨⟨0, 0⟩, 0, 1, 7⟩, .resumeMessage ⟨⟨0, 0⟩, 0, 0, 5⟩,
          .create ⟨⟨0, 0⟩, 0, 0, 1⟩, .resumeReduction ⟨0, ⟨0, 0⟩, 0⟩] = some g ∧
      (∀ tid task, g.tasks tid = some task → g.queue tid task.continuation = []) ∧
      (∀ tid id, g.passed tid id ++ g.queue tid id
        = delivered [.resumeMessage ⟨⟨0, 0⟩, 0, 1, 7⟩, .resumeMessage ⟨⟨0, 0⟩, 0, 0, 5⟩,
            .create ⟨⟨0, 0⟩, 0, 0, 1⟩, .resumeReduction ⟨0, ⟨0, 0⟩, 0⟩] tid id) ∧
      (∀ r ∈ g.ran, r.active = r.tid) :=
  run_spec summingTask ⟨0, 0⟩ _ (by decide) (by decide)

/-- Two creates of one id are the same create. -/
theorem created_perm {es es' : List (Entry δ)} (hperm : es.Perm es')
    (hcreate : (createIds es).Nodup) (tid : TaskId) :
    created es tid = created es' tid := by
  have hperm' : (created es tid).Perm (created es' tid) := hperm.filterMap _
  have hle : (created es tid).length ≤ 1 := by
    have hsub : ((created es tid).map fun _ => tid).Sublist (createIds es) := by
      clear hperm hperm' hcreate
      induction es with
      | nil => exact .slnil
      | cons e es ih =>
        cases e with
        | create msg =>
          by_cases h : msg.tid = tid
          · simpa [created, createIds, h] using ih.cons_cons tid
          · simpa [created, createIds, h] using ih.cons msg.tid
        | resumeMessage msg => simpa [created, createIds] using ih
        | resumeReduction msg => simpa [created, createIds] using ih
    have hnodup := hcreate.sublist hsub
    rw [List.map_const', List.nodup_replicate] at hnodup
    exact hnodup
  match hc : created es tid with
  | [] => rw [hc] at hperm'; exact hperm'.nil_eq
  | [c] => rw [hc] at hperm'; exact (List.perm_singleton.mp hperm'.symm).symm
  | _ :: _ :: _ => rw [hc] at hle; simp at hle

/-- **The mailbox is confluent.** Two sequences of the same entries, with one
`create` per task id, that agree on the order within each (task, continuation)
pair leave the same live tasks in the same states, having executed the same
continuations on the same payloads, and the same payloads undelivered. -/
theorem run_confluent (P : Program σ δ) (active active' : TaskId)
    {es es' : List (Entry δ)}
    (hperm : es.Perm es') (hcreate : (createIds es).Nodup)
    (horder : ∀ tid id, delivered es tid id = delivered es' tid id)
    {fuel : Nat} (hfuel : es.length < fuel) :
    ∃ g g', (Workgroup.init active).run P fuel es = some g ∧
      (Workgroup.init active').run P fuel es' = some g' ∧
      g.tasks = g'.tasks ∧ (∀ tid, g.ranOf tid = g'.ranOf tid) ∧
      ∀ tid id, g.queue tid id = g'.queue tid id := by
  have hcreate' : (createIds es').Nodup := (hperm.filterMap _).nodup_iff.mp hcreate
  obtain ⟨g, hg, hinv⟩ := run_inv P active es hfuel hcreate
  obtain ⟨g', hg', hinv'⟩ := run_inv P active' es' (hperm.length_eq ▸ hfuel) hcreate'
  have hagree : ∀ tid, g.tasks tid = g'.tasks tid ∧ g.ranOf tid = g'.ranOf tid ∧
      g.queue tid = g'.queue tid := by
    intro tid
    have htracks := hinv.tracks tid
    have htracks' := hinv'.tracks tid
    have hdel : delivered es tid = delivered es' tid := funext (horder tid)
    unfold Tracks initialConfig at htracks htracks'
    rw [← created_perm hperm hcreate tid, ← hdel] at htracks'
    split at htracks
    next hc =>
      rw [hc] at htracks'
      exact ⟨htracks.1.trans htracks'.1.symm, htracks.2.2.trans htracks'.2.2.symm,
        htracks.2.1.trans htracks'.2.1.symm⟩
    next kind first rest hc =>
      rw [hc] at htracks'
      obtain ⟨task, hruns, hblocked, ht⟩ := htracks
      obtain ⟨task', hruns', hblocked', ht'⟩ := htracks'
      -- both drained the same start until they blocked
      have heq := Reader.blocked_unique hruns hblocked hruns' hblocked'
      simp only [Workgroup.config, Config.mk.injEq] at heq
      obtain ⟨rfl, hq, hr⟩ := heq
      exact ⟨ht.trans ht'.symm, hr, hq⟩
  exact ⟨g, g', hg, hg', funext fun tid => (hagree tid).1, fun tid => (hagree tid).2.1,
    fun tid id => congrFun (hagree tid).2.2 id⟩

/-- The payload for continuation 1 before the task exists, and last. -/
theorem run_confluent_early_payload :
    ∃ g g', (Workgroup.init ⟨0, 0⟩).run summingTask 5
        [.resumeMessage ⟨⟨0, 0⟩, 0, 1, 7⟩, .create ⟨⟨0, 0⟩, 0, 0, 1⟩,
          .resumeMessage ⟨⟨0, 0⟩, 0, 0, 0⟩] = some g ∧
      (Workgroup.init ⟨0, 0⟩).run summingTask 5
        [.create ⟨⟨0, 0⟩, 0, 0, 1⟩, .resumeMessage ⟨⟨0, 0⟩, 0, 0, 0⟩,
          .resumeMessage ⟨⟨0, 0⟩, 0, 1, 7⟩] = some g' ∧
      g.tasks = g'.tasks ∧ (∀ tid, g.ranOf tid = g'.ranOf tid) ∧
      ∀ tid id, g.queue tid id = g'.queue tid id :=
  run_confluent summingTask ⟨0, 0⟩ ⟨0, 0⟩ (by decide) (by decide)
    (by
      intro tid id
      simp only [delivered, arrived, List.filterMap]
      by_cases ht : (⟨0, 0⟩ : TaskId) = tid
      · simp only [if_pos ht]
        rcases id with _ | _ | id <;> simp [readFrom]
      · simp only [if_neg ht])
    (by decide)

end CharmExperiments.Hypercomm
