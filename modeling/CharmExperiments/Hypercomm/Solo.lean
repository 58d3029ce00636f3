import CharmExperiments.Hypercomm.Reductions

/-!
# One task on an array, a read at a time

A single task launched on an array is `n` blocking readers that exchange
messages and contribute to reductions. `Solo` keeps of the array what concerns
the task: its state on every element, also after it ended; its queues; the
calls made so far; and what is in flight. Its steps are finer than the array's:
a message arrives in its queue, and a task reads the head of the queue it waits
for. An entry of the array is one arrival or construction and the reads that
drain the mailbox (`step_solo`), so every state of the array is one of `Solo`
in which nothing more can be read (`reachable_solo`).
-/

namespace CharmExperiments.Hypercomm

open CharmExperiments.Lib
open CharmExperiments.Lib.Contributions (extend_nil extend_extend getElem?_extend_cases)
open CharmExperiments.Lib.Reader (Config Runs Blocked)

variable {n : Nat} {σ δ : Type}

/-! ## The task alone -/

/-- The task on every element once it is constructed, what is queued for it and
what it has been called with; its contributions, its results, its messages. -/
structure Solo (n : Nat) (σ δ : Type) where
  tasks : Fin n → Option (Task σ)
  queues : Fin n → ContinuationId → List (Payload δ)
  calls : Fin n → List (Call σ δ)
  contributed : Contributions (Fin n) (Contribution δ)
  reductions : List (ReductionMsg δ)
  flight : List (Nat × Entry δ)

/-- The payload of a resume entry. -/
def Entry.payload? : Entry δ → Option (Payload δ)
  | .create _ => none
  | .resumeMessage msg => some ⟨msg.refnum, msg.data⟩
  | .resumeReduction msg => some ⟨msg.refnum, msg.results.2⟩

namespace Solo

/-- What the user code on element `i` asked for is queued. -/
def ask (u : Solo n σ δ) (i : Fin n) (issued : List (Issued δ)) : Solo n σ δ :=
  { u with
    contributed := u.contributed.extend i (issued.filterMap Issued.contribution)
    flight := u.flight ++ issued.flatMap (Issued.messages n) }

/-- The constructor runs on element `i`. -/
def construct (B : Fin n → Behaviour σ δ) (tid : TaskId) (u : Solo n σ δ) (i : Fin n)
    (kind : TaskKind) (payload : Payload δ) : Solo n σ δ :=
  let task := (B i).creator kind payload
  ({ u with tasks := Function.update u.tasks i (some task.1) }).ask i
    (task.2.map fun effect => ⟨tid, tid, effect⟩)

/-- A continuation and its payload, as a call. -/
def callOf (B : Behaviour σ δ) (tid : TaskId) (task : Task σ) (payload : Payload δ) :
    Call σ δ :=
  let next := B.continuation task.continuation task payload
  ⟨tid, tid, task, task.continuation, payload, next.1, next.2⟩

/-- The task on element `i` reads `payload`, which leaves `rest`. -/
def read (B : Fin n → Behaviour σ δ) (tid : TaskId) (u : Solo n σ δ) (i : Fin n)
    (task : Task σ) (payload : Payload δ) (rest : List (Payload δ)) : Solo n σ δ :=
  let call := callOf (B i) tid task payload
  ({ u with
    tasks := Function.update u.tasks i (some call.after)
    queues := Function.update u.queues i
      (Function.update (u.queues i) task.continuation rest)
    calls := Function.update u.calls i (u.calls i ++ [call]) }).ask i call.issued

variable [DecidableEq δ]

/-- A message for element `i` is in its queue. -/
def arrive (u : Solo n σ δ) (i : Fin n) (e : Entry δ) (payload : Payload δ) :
    Solo n σ δ :=
  { u with
    flight := u.flight.erase (i.val, e)
    queues := Function.update u.queues i
      (Function.update (u.queues i) payload.id (u.queues i payload.id ++ [payload])) }

/-- The steps of the task alone; `allowed` limits the results of the reductions. -/
inductive Step (B : Fin n → Behaviour σ δ) (combines : List (ReducerType × δ) → δ → Bool)
    (allowed : Nat → δ → Prop) (tid : TaskId) : Solo n σ δ → Solo n σ δ → Prop
  | create {u : Solo n σ δ} {i : Fin n} {msg : TaskMessage δ}
      (hmem : (i.val, .create msg) ∈ u.flight) (hnone : u.tasks i = none) :
      Step B combines allowed tid u
        (construct B tid { u with flight := u.flight.erase (i.val, .create msg) } i msg.kind
          ⟨msg.refnum, msg.data⟩)
  | arrive {u : Solo n σ δ} {i : Fin n} {e : Entry δ} {payload : Payload δ}
      (hmem : (i.val, e) ∈ u.flight) (hpayload : e.payload? = some payload) :
      Step B combines allowed tid u (u.arrive i e payload)
  | read {u : Solo n σ δ} {i : Fin n} {task : Task σ} {payload : Payload δ}
      {rest : List (Payload δ)} (htask : u.tasks i = some task)
      (hact : task.active = true) (hq : u.queues i task.continuation = payload :: rest) :
      Step B combines allowed tid u (u.read B tid i task payload rest)
  | reduce {u : Solo n σ δ} {root : Fin n} {data : δ} {cs : Fin n → Contribution δ}
      (hcs : ∀ i, (u.contributed i)[u.reductions.length]? = some (cs i))
      (hcombines : combines (WorkgroupArray.reduced cs) data = true)
      (hallowed : allowed u.reductions.length data) :
      Step B combines allowed tid u
        { u with
          reductions := u.reductions ++ [WorkgroupArray.result cs root data]
          flight := u.flight ++ ((cs root).cb.targets n).map fun i =>
            (i, .resumeReduction (WorkgroupArray.result cs root data)) }

/-- Any number of steps. -/
abbrev Steps (B : Fin n → Behaviour σ δ) (combines : List (ReducerType × δ) → δ → Bool)
    (allowed : Nat → δ → Prop) (tid : TaskId) : Solo n σ δ → Solo n σ δ → Prop :=
  Relation.ReflTransGen (Step B combines allowed tid)

/-- The task was launched: every element has its `create` message coming. -/
def start (msg : TaskMessage δ) : Solo n σ δ where
  tasks _ := none
  queues _ _ := []
  calls _ := []
  contributed _ := []
  reductions := []
  flight := (List.range n).map fun i => (i, .create msg)

end Solo

/-! ## Draining an element -/

section Drain

variable {P : Program σ δ}

/-- What `try_continue_` did when it returned is a drain. -/
theorem tryContinue_drained {it : TaskId} :
    ∀ (fuel : Nat) {g g' : Workgroup σ δ} {task : Task σ},
      g.tasks it = some task → task.active = true → g.active = it → Keyed g →
        ActiveOwn g →
      g.tryContinue P fuel it = some g' → Drained P g it task g' := by
  intro fuel
  induction fuel with
  | zero =>
    intro g g' task _ _ _ _ _ h
    cases h
  | succ fuel ih =>
    intro g g' task ht hact hactive hk ha h
    cases hq : g.queue it task.continuation with
    | nil =>
      rw [tryContinue_nil P ht hactive hq] at h
      obtain rfl := Option.some.inj h
      -- nothing is buffered for the continuation
      exact (drained_nil P ht hact hq hk ha).touched
    | cons payload rest =>
      have hq' : (g.touch it).queue it task.continuation = payload :: rest := by
        rw [touch_queue]; exact hq
      have hk' := afterPop_keyed P (touch_keyed hk it) hq'
      have ha' : ActiveOwn ((g.touch it).afterPop P it task payload rest) :=
        invoke_activeOwn P (touch_activeOwn ha it) it task payload
      have htasks : ((g.touch it).afterPop P it task payload rest).tasks it
          = if (P.continuation task.continuation task payload).active
            then some (P.continuation task.continuation task payload) else none :=
        invoke_tasks P (g.touch it) it task payload
      rw [tryContinue_cons P ht hactive hk hq] at h
      by_cases hkeep : (P.continuation task.continuation task payload).active = true
      · rw [if_pos hkeep] at htasks h
        exact (Drained.cons P hact hq' (ih htasks hkeep rfl hk' ha' h)).of_touch
      · rw [if_neg hkeep] at htasks h
        obtain rfl := Option.some.inj h
        exact (Drained.cons P hact hq' (drained_ended P htasks
          (Bool.eq_false_iff.mpr hkeep) hk' ha')).of_touch

/-- A payload is buffered, or its task takes it and drains. -/
theorem resumeOrBuffer_cases {fuel : Nat} {tid : TaskId} {payload : Payload δ}
    {g g' : Workgroup σ δ} (hk : Keyed g) (ha : ActiveOwn g)
    (h : g.resumeOrBuffer P fuel tid payload = some g') :
    ((∀ task, g.tasks tid = some task → task.continuation ≠ payload.id) ∧
      g' = g.buffer tid payload) ∨
    ∃ task, g.tasks tid = some task ∧ task.continuation = payload.id ∧
      Drained P (g.invoke P tid task payload) tid
        (P.continuation task.continuation task payload) g' := by
  by_cases haccept : ∃ task, g.tasks tid = some task ∧ task.continuation = payload.id
  · obtain ⟨task, ht, hid⟩ := haccept
    refine Or.inr ⟨task, ht, hid, ?_⟩
    -- accepted: the continuation is invoked, and then the buffer is drained
    have hown := invoke_activeOwn P ha tid task payload
    have htasks := invoke_tasks P g tid task payload
    rw [Workgroup.resumeOrBuffer, Workgroup.resume, resumeObserved_some P ht hid] at h
    by_cases hkeep : (P.continuation task.continuation task payload).active = true
    · rw [if_pos hkeep] at htasks
      simp only [hkeep, if_true] at h
      cases htry : (g.invoke P tid task payload).tryContinue P fuel tid with
      | none =>
        rw [htry] at h
        cases h
      | some g₁ =>
        rw [htry] at h
        obtain rfl := Option.some.inj h
        exact tryContinue_drained fuel htasks hkeep rfl hk hown htry
    · rw [if_neg hkeep] at htasks
      simp only [hkeep] at h
      obtain rfl := Option.some.inj h
      exact drained_ended P htasks (Bool.eq_false_iff.mpr hkeep) hk hown
  · have hrefuse : ∀ task, g.tasks tid = some task → task.continuation ≠ payload.id :=
      fun task ht hid => haccept ⟨task, ht, hid⟩
    rw [Workgroup.resumeOrBuffer, Workgroup.resume, resumeObserved_none P hrefuse] at h
    exact Or.inl ⟨hrefuse, (Option.some.inj h).symm⟩

/-- The element once its task is constructed, before it is drained. -/
def Workgroup.constructed (P : Program σ δ) (g : Workgroup σ δ) (msg : TaskMessage δ) :
    Workgroup σ δ :=
  let task := P.creator msg.kind ⟨msg.refnum, msg.data⟩
  { g with
    active := msg.tid
    tasks := Function.update g.tasks msg.tid (if task.active then some task else none) }

/-- `create` constructs the task and drains. -/
theorem create_drained {fuel : Nat} {msg : TaskMessage δ} {g g' : Workgroup σ δ}
    (ht : g.tasks msg.tid = none) (hk : Keyed g) (ha : ActiveOwn g)
    (h : g.create P fuel msg = some g') :
    Drained P (g.constructed P msg) msg.tid
      (P.creator msg.kind ⟨msg.refnum, msg.data⟩) g' := by
  unfold Workgroup.create at h
  have htask : (g.constructed P msg).tasks msg.tid
      = if (P.creator msg.kind ⟨msg.refnum, msg.data⟩).active
        then some (P.creator msg.kind ⟨msg.refnum, msg.data⟩) else none :=
    Function.update_self ..
  by_cases hact : (P.creator msg.kind ⟨msg.refnum, msg.data⟩).active = true
  · rw [if_pos hact] at htask
    have heq : g.constructed P msg = { g with
        active := msg.tid
        tasks := Function.update g.tasks msg.tid
          (some (P.creator msg.kind ⟨msg.refnum, msg.data⟩)) } := by
      rw [Workgroup.constructed, if_pos hact]
    simp only [hact, if_true, ht] at h
    rw [← heq] at h
    exact tryContinue_drained fuel htask hact rfl hk ha h
  · rw [if_neg hact] at htask
    have heq : g.constructed P msg = { g with active := msg.tid } := by
      rw [Workgroup.constructed, if_neg hact, ← ht, Function.update_eq_self]
    simp only [hact] at h
    obtain rfl := Option.some.inj h
    rw [heq] at htask ⊢
    exact drained_ended P htask (Bool.eq_false_iff.mpr hact) hk ha

end Drain

/-! ## What the log says -/

/-- The task after the continuations of the log. -/
def Behaviour.final (B : Behaviour σ δ) : Task σ → List (Ran δ) → Task σ
  | task, [] => task
  | task, r :: rs => B.final (B.continuation r.continuation task r.payload).1 rs

theorem final_append (B : Behaviour σ δ) (rs rs' : List (Ran δ)) (task : Task σ) :
    B.final task (rs ++ rs') = B.final (B.final task rs) rs' := by
  induction rs generalizing task with
  | nil => rfl
  | cons r rs ih => exact ih _

theorem calls_append (B : Behaviour σ δ) (rs rs' : List (Ran δ)) (task : Task σ) :
    B.calls task (rs ++ rs') = B.calls task rs ++ B.calls (B.final task rs) rs' := by
  induction rs generalizing task with
  | nil => rfl
  | cons r rs ih => exact congrArg (_ :: ·) (ih _)

/-- A log entry of the task `tid`. -/
def Ran.of (tid : TaskId) (x : ContinuationId × Payload δ) : Ran δ := ⟨tid, x.1, x.2, tid⟩

/-- The log of an element that only runs `tid`. -/
theorem ran_eq_map {g : Workgroup σ δ} {tid : TaskId}
    (hown : ∀ r ∈ g.ran, r.tid = tid ∧ r.active = tid) :
    g.ran = (g.ranOf tid).map (Ran.of tid) := by
  rw [Workgroup.ranOf, List.filter_eq_self.mpr fun r hr => decide_eq_true (hown r hr).1,
    List.map_map]
  refine (List.map_id g.ran).symm.trans (List.map_congr_left fun r hr => ?_)
  obtain ⟨htid, hactive⟩ := hown r hr
  cases r
  exact Ran.mk.injEq .. ▸ ⟨htid, rfl, rfl, hactive⟩

/-! ## Reads of one element -/

section Reads

variable {B : Fin n → Behaviour σ δ} {tid : TaskId}

/-- `u'` is `u` after the task on element `i` has made the calls `cs`. -/
structure ReadsTo (u : Solo n σ δ) (i : Fin n) (task : Task σ)
    (queues : ContinuationId → List (Payload δ)) (cs : List (Call σ δ))
    (u' : Solo n σ δ) :
    Prop where
  tasks : u'.tasks = Function.update u.tasks i (some task)
  queues : u'.queues = Function.update u.queues i queues
  calls : u'.calls = Function.update u.calls i (u.calls i ++ cs)
  contributed : u'.contributed
    = u.contributed.extend i ((cs.flatMap Call.issued).filterMap Issued.contribution)
  reductions : u'.reductions = u.reductions
  flight : u'.flight = u.flight ++ (cs.flatMap Call.issued).flatMap (Issued.messages n)

theorem ReadsTo.refl {u : Solo n σ δ} {i : Fin n} {task : Task σ}
    (h : u.tasks i = some task) : ReadsTo u i task (u.queues i) [] u where
  tasks := by rw [← h, Function.update_eq_self]
  queues := (Function.update_eq_self ..).symm
  calls := by rw [List.append_nil, Function.update_eq_self]
  contributed := (extend_nil _ _).symm
  reductions := rfl
  flight := (List.append_nil _).symm

/-- One read. -/
theorem read_readsTo (u : Solo n σ δ) (i : Fin n) (task : Task σ) (payload : Payload δ)
    (rest : List (Payload δ)) :
    ReadsTo u i (Solo.callOf (B i) tid task payload).after
      (Function.update (u.queues i) task.continuation rest)
      [Solo.callOf (B i) tid task payload] (u.read B tid i task payload rest) where
  tasks := rfl
  queues := rfl
  calls := rfl
  contributed := by
    rw [List.flatMap_singleton]
    rfl
  reductions := rfl
  flight := by
    rw [List.flatMap_singleton]
    rfl

theorem ReadsTo.trans {u u' u'' : Solo n σ δ} {i : Fin n} {task task' : Task σ}
    {queues queues' : ContinuationId → List (Payload δ)} {cs cs' : List (Call σ δ)}
    (h : ReadsTo u i task queues cs u') (h' : ReadsTo u' i task' queues' cs' u'') :
    ReadsTo u i task' queues' (cs ++ cs') u'' where
  tasks := by rw [h'.tasks, h.tasks, Function.update_idem]
  queues := by rw [h'.queues, h.queues, Function.update_idem]
  calls := by
    rw [h'.calls, h.calls, Function.update_idem, Function.update_self, List.append_assoc]
  contributed := by
    rw [h'.contributed, h.contributed, extend_extend, List.flatMap_append,
      List.filterMap_append]
  reductions := h'.reductions.trans h.reductions
  flight := by
    rw [h'.flight, h.flight, List.append_assoc, List.flatMap_append, List.flatMap_append]

variable [DecidableEq δ]

/-- What the reader of an element reads, the task alone can read. -/
theorem runs_steps (combines : List (ReducerType × δ) → δ → Bool)
    (allowed : Nat → δ → Prop) (tid : TaskId) {i : Fin n}
    {c d : Config (Task σ) ContinuationId (Payload δ)}
    (h : Runs (taskReader (B i).program) c d) : ∀ {u : Solo n σ δ},
    u.tasks i = some c.state → u.queues i = c.queues →
    ∃ new u', Solo.Steps B combines allowed tid u u' ∧ d.trace = c.trace ++ new ∧
      (B i).final c.state (new.map (Ran.of tid)) = d.state ∧
      ReadsTo u i d.state d.queues ((B i).calls c.state (new.map (Ran.of tid))) u' := by
  induction h using Relation.ReflTransGen.head_induction_on with
  | refl =>
    intro u ht hq
    refine ⟨[], u, .refl, (List.append_nil _).symm, rfl, ?_⟩
    rw [← hq]
    exact .refl ht
  | @head c m hstep hrest ih =>
    intro u ht hq
    cases hstep with
    | @read k x rest hw hqueue =>
      -- the reader reads only for a task that is active
      have hact : c.state.active = true ∧ c.state.continuation = k := by
        by_cases hact : c.state.active = true
        · simp only [taskReader, hact, if_true, Option.some.injEq] at hw
          exact ⟨hact, hw⟩
        · simp [taskReader, hact] at hw
      obtain ⟨hact, rfl⟩ := hact
      have hread := @read_readsTo n σ δ B tid u i c.state x rest
      obtain ⟨new, u', hsteps, htrace, hfinal, hreads⟩ := ih
        (show (u.read B tid i c.state x rest).tasks i = _ by
          rw [hread.tasks, Function.update_self]; rfl)
        (show (u.read B tid i c.state x rest).queues i = _ by
          rw [hread.queues, Function.update_self, hq])
      refine ⟨(c.state.continuation, x) :: new, u', ?_, ?_, hfinal, hread.trans hreads⟩
      · exact hsteps.head (.read ht hact (by rw [hq]; exact hqueue))
      · rw [htrace, List.append_assoc]
        rfl

end Reads

/-! ## An array that runs one task -/

/-- The task a `create` message constructs. -/
def Behaviour.constructed (B : Behaviour σ δ) (msg : TaskMessage δ) : Task σ :=
  (B.creator msg.kind ⟨msg.refnum, msg.data⟩).1

/-- What an element that only runs `msg`'s task holds: the task (`none` before it
is constructed), its queues and its calls. -/
structure Holds (B : Behaviour σ δ) (msg : TaskMessage δ) (g : Workgroup σ δ)
    (t : Option (Task σ)) (queues : ContinuationId → List (Payload δ))
    (calls : List (Call σ δ)) : Prop where
  task : g.tasks msg.tid = t.bind fun task => if task.active then some task else none
  queue : queues = g.queue msg.tid
  blocked : ∀ task, t = some task → task.active = true → queues task.continuation = []
  final : ∀ task, t = some task → task = B.final (B.constructed msg) g.ran
  unborn : t = none → g.ran = []
  calls : calls = B.calls (B.constructed msg) g.ran
  own : ∀ r ∈ g.ran, r.tid = msg.tid ∧ r.active = msg.tid
  keyed : Keyed g

/-- The `create` messages for an element. -/
def createsFor (i : Fin n) (flight : List (Nat × Entry δ)) : List (Nat × Entry δ) :=
  flight.filter fun x => x.1 = i.val ∧ x.2.payload? = none

/-- The array runs `msg`'s task only, and `u` is what it holds of it. -/
structure RunsSolo (B : Fin n → Behaviour σ δ) (msg : TaskMessage δ)
    (s : WorkgroupArray n σ δ) (u : Solo n σ δ) : Prop where
  holds : ∀ i, Holds (B i) msg (s.elements i) (u.tasks i) (u.queues i) (u.calls i)
  contributed : s.contributed = u.contributed
  reductions : s.reductions = u.reductions
  flight : s.flight = u.flight
  own : ∀ x ∈ s.flight, x.2.tid = msg.tid
  contributions : ∀ i, ∀ c ∈ s.contributed i, c.tid = msg.tid
  creates : ∀ i, createsFor i s.flight
    = if (u.tasks i).isNone then [(i.val, .create msg)] else []

theorem Turn.own {g g' : Workgroup σ δ} {tid : TaskId} (h : Turn g g' tid)
    (hown : ∀ r ∈ g.ran, r.tid = tid ∧ r.active = tid) :
    ∀ r ∈ g'.ran, r.tid = tid ∧ r.active = tid := by
  obtain ⟨new, hnew, hnewown⟩ := h.ran
  intro r hr
  rw [hnew] at hr
  rcases List.mem_append.mp hr with hr | hr
  · exact hown r hr
  · exact hnewown r hr

/-- What a turn added to the log, from what the task has run. -/
theorem Turn.ran_of_trace {g g' : Workgroup σ δ} {tid : TaskId} (h : Turn g g' tid)
    (hown : ∀ r ∈ g.ran, r.tid = tid ∧ r.active = tid)
    {new : List (ContinuationId × Payload δ)}
    (htrace : g'.ranOf tid = g.ranOf tid ++ new) :
    g'.ran = g.ran ++ new.map (Ran.of tid) := by
  rw [ran_eq_map (h.own hown), htrace, List.map_append, ← ran_eq_map hown]

theorem Holds.activeOwn {B : Behaviour σ δ} {msg : TaskMessage δ} {g : Workgroup σ δ}
    {t : Option (Task σ)} {queues : ContinuationId → List (Payload δ)}
    {calls : List (Call σ δ)}
    (h : Holds B msg g t queues calls) : ActiveOwn g :=
  fun r hr => (h.own r hr).2.trans (h.own r hr).1.symm

/-- What an element holds after a drain. -/
theorem Drained.holds {B : Behaviour σ δ} {msg : TaskMessage δ} {g g₁ g' : Workgroup σ δ}
    {task task' : Task σ} {new : List (ContinuationId × Payload δ)}
    (hd : Drained B.program g₁ msg.tid task g') (hturn : Turn g g' msg.tid)
    (hown : ∀ r ∈ g.ran, r.tid = msg.tid ∧ r.active = msg.tid)
    (hblocked : Blocked (taskReader B.program) (g'.config msg.tid task'))
    (htasks : g'.tasks msg.tid = if task'.active then some task' else none)
    (hran : g'.ran = g.ran ++ new.map (Ran.of msg.tid))
    (hfinal : B.final (B.final (B.constructed msg) g.ran)
      (new.map (Ran.of msg.tid)) = task') :
    Holds B msg g' (some task') (g'.queue msg.tid)
      (B.calls (B.constructed msg) g.ran ++
        B.calls (B.final (B.constructed msg) g.ran) (new.map (Ran.of msg.tid))) where
  task := htasks
  queue := rfl
  blocked := by
    intro t ht hact
    obtain rfl := Option.some.inj ht
    exact hblocked task'.continuation (by simp [taskReader, Workgroup.config, hact])
  final := by
    intro t ht
    obtain rfl := Option.some.inj ht
    rw [hran, final_append, hfinal]
  unborn := fun h => by cases h
  calls := by rw [hran, calls_append]
  own := hturn.own hown
  keyed := hd.keyed

/-- Only resume messages are sent by user code. -/
theorem createsFor_messages (q : Fin n) (xs : List (Issued δ)) :
    createsFor q (xs.flatMap (Issued.messages n)) = [] := by
  refine List.filter_eq_nil_iff.mpr fun m hm h => ?_
  obtain ⟨_, hnone⟩ := of_decide_eq_true h
  obtain ⟨x, _, hm⟩ := List.mem_flatMap.mp hm
  unfold Issued.messages at hm
  split at hm
  next =>
    obtain rfl := List.mem_singleton.mp hm
    cases hnone
  next =>
    obtain ⟨_, _, rfl⟩ := List.mem_map.mp hm
    cases hnone
  next => cases hm

section Entries

variable {B : Fin n → Behaviour σ δ} {combines : List (ReducerType × δ) → δ → Bool}
variable {allowed : Nat → δ → Prop} {msg : TaskMessage δ}
variable {s : WorkgroupArray n σ δ} {u u' : Solo n σ δ} {i : Fin n} {e : Entry δ}
variable {g' : Workgroup σ δ}

/-- An entry that constructed the task, or did not. -/
inductive Born (msg : TaskMessage δ) (e : Entry δ) : Option (Task σ) → Option (Task σ) →
    Prop
  | created {task : Task σ} : e = .create msg → Born msg e none (some task)
  | resumed {t t' : Option (Task σ)} : e.payload? ≠ none → t'.isNone = t.isNone →
    Born msg e t t'

/-- The entries that resume a task do the same. -/
theorem deliver_resume {P : Program σ δ} {payload : Payload δ}
    (h : e.payload? = some payload) (fuel : Nat) (g : Workgroup σ δ) :
    g.deliver P fuel e = g.resumeOrBuffer P fuel e.tid payload := by
  cases e with
  | create m => cases h
  | resumeMessage m =>
    obtain rfl := Option.some.inj h
    rfl
  | resumeReduction m =>
    obtain rfl := Option.some.inj h
    rfl

/-- What an entry that does not construct a task starts from. -/
theorem issued_resume (B : Behaviour σ δ) {payload : Payload δ}
    (h : e.payload? = some payload) (g g' : Workgroup σ δ) :
    B.issued g e g' = match g.tasks e.tid with
      | none => []
      | some task => (B.calls task (g'.ran.drop g.ran.length)).flatMap Call.issued := by
  cases e with
  | create m => cases h
  | resumeMessage m => rfl
  | resumeReduction m => rfl

/-- A `create` message in flight is the task's, which is not constructed there. -/
theorem RunsSolo.create_mem (h : RunsSolo B msg s u) {m : TaskMessage δ}
    (hmem : (i.val, .create m) ∈ s.flight) : m = msg ∧ u.tasks i = none := by
  have hcreates : (i.val, .create m) ∈ createsFor i s.flight :=
    List.mem_filter.mpr ⟨hmem, decide_eq_true ⟨rfl, rfl⟩⟩
  rw [h.creates i] at hcreates
  split at hcreates
  next hnone =>
    obtain ⟨_, heq⟩ := Prod.mk.inj (List.mem_singleton.mp hcreates)
    exact ⟨Entry.create.inj heq, Option.isNone_iff_eq_none.mp hnone⟩
  next => cases hcreates

variable [DecidableEq δ]

/-- The entry has run on both sides. -/
theorem after_runsSolo (h : RunsSolo B msg s u) (he : e.tid = msg.tid)
    (hmem : (i.val, e) ∈ s.flight) (hturn : Turn (s.elements i) g' e.tid)
    {t : Option (Task σ)} {queues : ContinuationId → List (Payload δ)}
    {calls : List (Call σ δ)}
    (hholds : Holds (B i) msg g' t queues calls) (hborn : Born msg e (u.tasks i) t)
    (htasks : u'.tasks = Function.update u.tasks i t)
    (hqueues : u'.queues = Function.update u.queues i queues)
    (hcalls : u'.calls = Function.update u.calls i calls)
    (hcontributed : u'.contributed = u.contributed.extend i
      (((B i).issued (s.elements i) e g').filterMap Issued.contribution))
    (hreductions : u'.reductions = u.reductions)
    (hflight : u'.flight = u.flight.erase (i.val, e) ++
      ((B i).issued (s.elements i) e g').flatMap (Issued.messages n)) :
    RunsSolo B msg (s.after B i e g') u' where
  holds := by
    intro q
    show Holds (B q) msg (Function.update s.elements i g' q) _ _ _
    by_cases hq : q = i
    · subst hq
      rw [htasks, hqueues, hcalls, Function.update_self, Function.update_self,
        Function.update_self, Function.update_self]
      exact hholds
    · rw [htasks, hqueues, hcalls, Function.update_of_ne hq, Function.update_of_ne hq,
        Function.update_of_ne hq, Function.update_of_ne hq]
      exact h.holds q
  contributed := by
    rw [hcontributed, ← h.contributed]
    rfl
  reductions := h.reductions.trans hreductions.symm
  flight := by
    rw [hflight, ← h.flight]
    rfl
  own := by
    intro x hx
    rcases List.mem_append.mp hx with hx | hx
    · exact h.own x (List.mem_of_mem_erase hx)
    · obtain ⟨y, hy, hx⟩ := List.mem_flatMap.mp hx
      have hactive := (issued_own (B i) hturn hy).2
      unfold Issued.messages at hx
      split at hx
      next =>
        obtain rfl := List.mem_singleton.mp hx
        exact hactive.trans he
      next =>
        obtain ⟨_, _, rfl⟩ := List.mem_map.mp hx
        exact hactive.trans he
      next => cases hx
  contributions := by
    intro q c hc
    obtain ⟨k, hk⟩ := List.mem_iff_getElem?.mp hc
    rcases getElem?_extend_cases hk with hk | ⟨_, j, _, hj⟩
    · exact h.contributions q c (List.mem_of_getElem? hk)
    · exact (contribution_own hturn (List.mem_of_getElem? hj)).2.trans he
  creates := by
    intro q
    show createsFor q (s.flight.erase (i.val, e) ++ _) = _
    have herase : createsFor q (s.flight.erase (i.val, e))
        = (createsFor q s.flight).erase (i.val, e) := List.erase_filter.symm
    have happend : ∀ xs ys : List (Nat × Entry δ),
        createsFor q (xs ++ ys) = createsFor q xs ++ createsFor q ys :=
      fun _ _ => List.filter_append ..
    rw [happend, createsFor_messages, List.append_nil, herase, h.creates q, htasks]
    by_cases hq : q = i
    · subst hq
      rw [Function.update_self]
      generalize u.tasks q = t₀ at hborn
      cases hborn with
      -- the create message is the one that is erased
      | created hcreate => simp [hcreate]
      | resumed hpayload hnone =>
        rw [hnone, List.erase_of_not_mem]
        intro hmem
        split at hmem
        next =>
          obtain ⟨_, rfl⟩ := Prod.mk.inj (List.mem_singleton.mp hmem)
          exact hpayload rfl
        next => cases hmem
    · rw [Function.update_of_ne hq, List.erase_of_not_mem]
      intro hmem
      split at hmem
      next =>
        have hval := (Prod.mk.inj (List.mem_singleton.mp hmem)).1
        exact hq (Fin.ext hval.symm)
      next => cases hmem

/-- `create` is the constructor and the reads of what came earlier. -/
theorem create_solo (h : RunsSolo B msg s u) {m : TaskMessage δ} {fuel : Nat}
    (hmem : (i.val, .create m) ∈ s.flight)
    (hg : (s.elements i).deliver (B i).program fuel (.create m) = some g') :
    ∃ u', Solo.Steps B combines allowed msg.tid u u' ∧
      RunsSolo B msg (s.after B i (.create m) g') u' := by
  obtain ⟨rfl, hnone⟩ := h.create_mem hmem
  have hholds := h.holds i
  have htask : (s.elements i).tasks m.tid = none := by
    rw [hholds.task, hnone]
    rfl
  have hempty := hholds.unborn hnone
  have hturn := deliver_turn hg
  have hd := create_drained htask hholds.keyed hholds.activeOwn hg
  obtain ⟨task', hruns, hblocked, htasks'⟩ := hd.runs
  obtain ⟨new, u', hsteps, htrace, hfinal, hreads⟩ :=
    runs_steps combines allowed m.tid hruns
    (u := Solo.construct B m.tid
      { u with flight := u.flight.erase (i.val, .create m) } i m.kind
      ⟨m.refnum, m.data⟩) (Function.update_self ..) hholds.queue
  -- the calls the whole array made are those of the steps of the task alone
  have hran := hturn.ran_of_trace hholds.own htrace
  have hissued : (B i).issued (s.elements i) (.create m) g'
      = ((B i).creator m.kind ⟨m.refnum, m.data⟩).2.map
        (fun effect => ⟨m.tid, m.tid, effect⟩) ++
        ((B i).calls ((B i).constructed m) (new.map (Ran.of m.tid))).flatMap
        Call.issued := by
    rw [Behaviour.issued, hran, List.drop_left]
    rfl
  have hcalls : u.calls i = [] := by
    rw [hholds.calls, hempty]
    rfl
  have hdone :=
    hd.holds hturn hholds.own hblocked htasks' hran (by rw [hempty]; exact hfinal)
  rw [hempty] at hdone
  refine ⟨u', Relation.ReflTransGen.head (.create (h.flight ▸ hmem) hnone) hsteps,
    after_runsSolo h rfl hmem hturn hdone (hnone ▸ .created rfl) ?_ hreads.queues ?_ ?_
      hreads.reductions ?_⟩
  · rw [hreads.tasks]
    exact Function.update_idem ..
  · rw [hreads.calls]
    show Function.update u.calls i (u.calls i ++ _) = _
    rw [hcalls]
    rfl
  · rw [hreads.contributed, hissued]
    show (u.contributed.extend i _).extend i _ = _
    rw [extend_extend, ← List.filterMap_append]
    rfl
  · rw [hreads.flight, hissued]
    show (u.flight.erase _ ++ _) ++ _ = _
    rw [List.append_assoc, ← List.flatMap_append]
    rfl

/-- A payload nobody waits for only arrives. -/
theorem buffer_solo (h : RunsSolo B msg s u) (hmem : (i.val, e) ∈ s.flight)
    {payload : Payload δ}
    (hpayload : e.payload? = some payload)
    (hrefuse : ∀ task, (s.elements i).tasks e.tid = some task →
      task.continuation ≠ payload.id)
    (hturn : Turn (s.elements i) ((s.elements i).buffer e.tid payload) e.tid) :
    RunsSolo B msg (s.after B i e ((s.elements i).buffer e.tid payload))
      (u.arrive i e payload) := by
  have he : e.tid = msg.tid := h.own _ hmem
  have hholds := h.holds i
  have hissued :
      (B i).issued (s.elements i) e ((s.elements i).buffer e.tid payload) = [] := by
    rw [issued_resume (B i) hpayload,
      show ((s.elements i).buffer e.tid payload).ran = (s.elements i).ran from rfl,
      List.drop_length]
    split <;> rfl
  have hqueue :
    Function.update (u.queues i) payload.id (u.queues i payload.id ++ [payload])
      = ((s.elements i).buffer e.tid payload).queue msg.tid := by
    rw [← he, buffer_queue, hholds.queue, he]
  have hafter : Holds (B i) msg ((s.elements i).buffer e.tid payload) (u.tasks i)
      (Function.update (u.queues i) payload.id (u.queues i payload.id ++ [payload]))
      (u.calls i) := by
    refine ⟨hholds.task, hqueue, fun task ht hact => ?_, hholds.final, hholds.unborn,
      hholds.calls, hholds.own, buffer_keyed hholds.keyed _ _⟩
    have htask := hholds.task
    rw [ht, Option.bind_some, if_pos hact, ← he] at htask
    rw [Function.update_of_ne (hrefuse task htask)]
    exact hholds.blocked task ht hact
  refine after_runsSolo h he hmem hturn hafter (.resumed (by rw [hpayload]; simp) rfl)
    (Function.update_eq_self ..).symm rfl (Function.update_eq_self ..).symm ?_ rfl ?_
  · rw [hissued]
    exact (extend_nil _ _).symm
  · rw [hissued]
    exact (List.append_nil _).symm

/-- A payload its task waits for arrives and is read, and so is what it lets be
read. -/
theorem accept_solo (h : RunsSolo B msg s u) (hmem : (i.val, e) ∈ s.flight)
    {payload : Payload δ}
    (hpayload : e.payload? = some payload) {task : Task σ}
    (htask : (s.elements i).tasks e.tid = some task)
    (hid : task.continuation = payload.id)
    (hd : Drained (B i).program
      ((s.elements i).invoke (B i).program e.tid task payload) e.tid
      ((B i).program.continuation task.continuation task payload) g')
    (hturn : Turn (s.elements i) g' e.tid) :
    ∃ u', Solo.Steps B combines allowed msg.tid u u' ∧
      RunsSolo B msg (s.after B i e g') u' := by
  have he : e.tid = msg.tid := h.own _ hmem
  rw [he] at hd htask
  have hturn' : Turn (s.elements i) g' msg.tid := he ▸ hturn
  have hholds := h.holds i
  obtain ⟨ht, hact⟩ : u.tasks i = some task ∧ task.active = true := by
    have htask' := hholds.task.symm.trans htask
    obtain ⟨t, ht, hif⟩ := Option.bind_eq_some_iff.mp htask'
    split at hif
    next hact =>
      obtain rfl := Option.some.inj hif
      exact ⟨ht, hact⟩
    next => cases hif
  have hempty : u.queues i payload.id = [] := hid ▸ hholds.blocked task ht hact
  obtain ⟨task', hruns, hblocked, htasks'⟩ := hd.runs
  -- the payload arrives, and is read
  have hread := @read_readsTo n σ δ B msg.tid (u.arrive i e payload) i task payload []
  have hqueues : Function.update ((u.arrive i e payload).queues i) task.continuation []
      = u.queues i := by
    show Function.update (Function.update u.queues i _ i) _ _ = _
    rw [Function.update_self, hid, Function.update_idem, ← hempty,
      Function.update_eq_self]
  rw [hqueues] at hread
  obtain ⟨new, u', hsteps, htrace, hfinal, hreads⟩ :=
    runs_steps combines allowed msg.tid hruns
    (u := (u.arrive i e payload).read B msg.tid i task payload [])
    (by rw [hread.tasks, Function.update_self]; rfl)
    (by rw [hread.queues, Function.update_self]; exact hholds.queue)
  have hboth := hread.trans hreads
  have htrace' : g'.ranOf msg.tid
      = (s.elements i).ranOf msg.tid ++ (task.continuation, payload) :: new := by
    rw [show g'.ranOf msg.tid = _ from htrace]
    show ((s.elements i).invoke (B i).program msg.tid task payload).ranOf msg.tid ++ new =
      _
    rw [invoke_ranOf, List.append_assoc]
    rfl
  have hran := hturn'.ran_of_trace hholds.own htrace'
  have hstart : (B i).final ((B i).constructed msg) (s.elements i).ran = task :=
    (hholds.final task ht).symm
  have hissued : (B i).issued (s.elements i) e g'
      = ((B i).calls task (((task.continuation, payload) :: new).map
        (Ran.of msg.tid))).flatMap
        Call.issued := by
    rw [issued_resume (B i) hpayload, he, htask, hran, List.drop_left]
  have hdone :=
    hd.holds hturn' hholds.own hblocked htasks' hran (by rw [hstart]; exact hfinal)
  rw [hstart, ← hholds.calls] at hdone
  refine ⟨u', ?_, after_runsSolo h he hmem hturn hdone (.resumed (by rw [hpayload]; simp)
    (by rw [ht]; rfl)) ?_ ?_ hboth.calls ?_ hboth.reductions ?_⟩
  · refine Relation.ReflTransGen.head (.arrive (h.flight ▸ hmem) hpayload)
      (Relation.ReflTransGen.head (.read ht hact ?_) hsteps)
    show Function.update u.queues i _ i _ = _
    rw [Function.update_self, hid, Function.update_self, hempty]
    rfl
  · exact hboth.tasks
  · rw [hboth.queues]
    exact Function.update_idem ..
  · rw [hboth.contributed, hissued]
    rfl
  · rw [hboth.flight, hissued]
    rfl

/-- **An entry is an arrival or a construction, and the reads that follow.** -/
theorem deliver_solo (h : RunsSolo B msg s u) {fuel : Nat}
    (hmem : (i.val, e) ∈ s.flight)
    (hg : (s.elements i).deliver (B i).program fuel e = some g') :
    ∃ u', Solo.Steps B combines allowed msg.tid u u' ∧
      RunsSolo B msg (s.after B i e g') u' := by
  cases hpayload : e.payload? with
  | none =>
    cases e with
    | create m => exact create_solo h hmem hg
    | resumeMessage m => cases hpayload
    | resumeReduction m => cases hpayload
  | some payload =>
    have hturn := deliver_turn hg
    rw [deliver_resume hpayload] at hg
    rcases resumeOrBuffer_cases (h.holds i).keyed (h.holds i).activeOwn hg with
      ⟨hrefuse, rfl⟩ | ⟨task, htask, hid, hd⟩
    · exact ⟨_, .single (.arrive (h.flight ▸ hmem) hpayload),
        buffer_solo h hmem hpayload hrefuse hturn⟩
    · exact accept_solo h hmem hpayload htask hid hd hturn

/-- A reduction is formed on both sides. -/
theorem reduce_solo (h : RunsSolo B msg s u) {root : Fin n} {data : δ}
    {s' : WorkgroupArray n σ δ} (hallowed : allowed s.reductions.length data)
    (hs : s.reduce combines root data = some s') :
    ∃ u', Solo.Steps B combines allowed msg.tid u u' ∧ RunsSolo B msg s' u' := by
  unfold WorkgroupArray.reduce at hs
  split at hs
  next hk =>
    dsimp only at hs
    split at hs
    next hcombines =>
      obtain rfl := Option.some.inj hs
      have hget : ∀ i, (s.contributed i)[s.reductions.length]?
          = some (s.rank s.reductions.length hk i) :=
        fun i => List.getElem?_eq_getElem (hk i)
      have hcs : ∀ i, (u.contributed i)[u.reductions.length]?
          = some (s.rank s.reductions.length hk i) := by
        rw [← h.reductions, ← h.contributed]
        exact hget
      have htid : (WorkgroupArray.result (s.rank s.reductions.length hk) root
        data).results.1
          = msg.tid := by
        refine reducedId_eq (List.ne_nil_of_mem
          (List.mem_map_of_mem (List.mem_finRange root)))
          fun x hx => ?_
        obtain ⟨i, _, rfl⟩ := List.mem_map.mp hx
        exact h.contributions i _ (List.mem_of_getElem? (hget i))
      refine ⟨_, .single (@Solo.Step.reduce n σ δ _ B combines allowed msg.tid u root data _ hcs
          hcombines (h.reductions ▸ hallowed)),
        h.holds, h.contributed, ?_, ?_, fun x hx => ?_, h.contributions, fun i => ?_⟩
      · rw [← h.reductions]
      · rw [← h.flight]
      · rcases List.mem_append.mp hx with hx | hx
        · exact h.own x hx
        · obtain ⟨_, _, rfl⟩ := List.mem_map.mp hx
          exact htid
      · have hnone :
          createsFor i (((s.rank s.reductions.length hk root).cb.targets n).map fun q =>
            (q, Entry.resumeReduction
              (WorkgroupArray.result (s.rank s.reductions.length hk) root data))) =
                [] := by
          refine List.filter_eq_nil_iff.mpr fun x hx hx' => ?_
          obtain ⟨_, _, rfl⟩ := List.mem_map.mp hx
          cases (of_decide_eq_true hx').2
        show createsFor i (s.flight ++ _) = _
        rw [createsFor, List.filter_append, ← createsFor, ← createsFor, hnone,
          List.append_nil]
        exact h.creates i
    next => cases hs
  next => cases hs

end Entries

/-! ## The runs of one launch -/

/-- Nothing more is launched, and the results of the reductions are allowed. -/
def OneLaunch (allowed : Nat → δ → Prop) (s : WorkgroupArray n σ δ) :
    WorkgroupArray.Action n δ → Prop
  | .launch .. => False
  | .deliver .. => True
  | .reduce _ data => allowed s.reductions.length data

section Runs

variable [DecidableEq δ]

/-- The array as a transition system whose runs start with one launch. -/
def WorkgroupArray.launchedSystem (B : Fin n → Behaviour σ δ)
    (combines : List (ReducerType × δ) → δ → Bool) (host : Fin n)
    (kind : TaskKind) (data : δ) :
    Transition (WorkgroupArray n σ δ) (WorkgroupArray.Action n δ) where
  init s := ∃ active, s = (WorkgroupArray.init (fun _ => 0) active).launch host kind data
  step s := s.step B combines

/-- The `create` message of that launch. -/
def launchMessage (host : Fin n) (kind : TaskKind) (data : δ) : TaskMessage δ :=
  ⟨⟨thisIndex host, 0⟩, kind, 0, data⟩

variable {B : Fin n → Behaviour σ δ} {combines : List (ReducerType × δ) → δ → Bool}
variable {allowed : Nat → δ → Prop} {host : Fin n} {kind : TaskKind} {data : δ}

omit [DecidableEq δ] in
/-- Right after the launch the task is nowhere constructed. -/
theorem launch_solo (active : Fin n → TaskId) :
    RunsSolo B (launchMessage host kind data)
      ((WorkgroupArray.init (fun _ => 0) active).launch host kind data)
      (Solo.start (launchMessage host kind data)) where
  holds := by
    intro i
    have hempty : ∀ g : Workgroup σ δ, g.tasks = (fun _ => none) →
      g.buffers = (fun _ => none) →
        g.ran = [] → Holds (B i) (launchMessage host kind data) g none
          (fun _ => []) [] := by
      intro g htasks hbuffers hran
      have hqueue : ∀ t, g.queue t = fun _ => [] := by
        intro t
        funext id
        rw [Workgroup.queue, hbuffers]
      refine ⟨by rw [htasks]; rfl, (hqueue _).symm, fun _ h => (by cases h),
        fun _ h => (by cases h), fun _ => hran, by rw [hran]; rfl, fun r hr =>
          (by rw [hran] at hr; cases hr), ?_⟩
      intro t id p hp
      rw [hqueue] at hp
      cases hp
    have hlaunch : ∀ (w : Workgroup σ δ), w.tasks = (fun _ => none) →
        w.buffers = (fun _ => none) → w.ran = [] →
          Holds (B i) (launchMessage host kind data)
          (Function.update (WorkgroupArray.init (fun _ => 0) active).elements
            host w i) none
          (fun _ => []) [] := by
      intro w h₁ h₂ h₃
      by_cases hi : i = host
      · subst hi
        rw [Function.update_self]
        exact hempty w h₁ h₂ h₃
      · rw [Function.update_of_ne hi]
        exact hempty _ rfl rfl rfl
    exact hlaunch _ rfl rfl rfl
  contributed := rfl
  reductions := rfl
  flight := rfl
  own := by
    intro x hx
    obtain ⟨_, _, rfl⟩ := List.mem_map.mp hx
    rfl
  contributions := fun _ _ h => by cases h
  creates := by
    intro i
    show createsFor i ((List.range n).map fun q => (q, Entry.create _)) =
      [(i.val, .create _)]
    have hone : (List.range n).filter (fun q => q = i.val) = [i.val] := by
      rw [List.filter_eq, List.count_eq_one_of_mem List.nodup_range
        (List.mem_range.mpr i.isLt)]
      rfl
    rw [createsFor, List.filter_map]
    refine Eq.trans (congrArg _ (List.filter_congr fun q _ => ?_))
      (congrArg (List.map _) hone)
    exact decide_eq_decide.mpr ⟨fun h => h.1, fun h => ⟨h, rfl⟩⟩

/-- **A state after one launch is one of the task alone**, with nothing left to
read. -/
theorem reachable_solo {s : WorkgroupArray n σ δ}
    (h : (WorkgroupArray.launchedSystem B combines host kind data).Reachable
      (OneLaunch allowed) s) :
    ∃ u, Solo.Steps B combines allowed (launchMessage host kind data).tid
        (Solo.start (launchMessage host kind data)) u ∧
      RunsSolo B (launchMessage host kind data) s u := by
  induction h with
  | init h =>
    obtain ⟨active, rfl⟩ := h
    exact ⟨_, .refl, launch_solo active⟩
  | @step s s' x _ hc hs ih =>
    obtain ⟨u, hu, hruns⟩ := ih
    cases x with
    | launch => exact hc.elim
    | deliver i e fuel =>
      obtain ⟨hmem, g, hg, rfl⟩ := deliver_some hs
      obtain ⟨u', hsteps, hruns'⟩ := deliver_solo hruns hmem hg
      exact ⟨u', hu.trans hsteps, hruns'⟩
    | reduce root d =>
      obtain ⟨u', hsteps, hruns'⟩ := reduce_solo hruns hc hs
      exact ⟨u', hu.trans hsteps, hruns'⟩

end Runs

end CharmExperiments.Hypercomm
