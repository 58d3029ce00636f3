import Mathlib.Logic.Function.Basic

/-!
# The workgroup mailbox of path2.0

`archive/path2.0/include/hypercomm/workgroup.hpp`: an array element that hosts
tasks. A task is created by a `create` message, runs its constructor, and from
then on is resumed by payloads addressed to (its id, the continuation it
suspended on). A payload that arrives before its task waits for it is kept in
`buffers_` and delivered by `try_continue_`.

What user code does is a parameter (`Program`): the constructor a task kind
registers and the continuations. Both are functions of the task and the
payload; their sends and reductions are queued by Charm++ and do not re-enter
the element, so they are part of the task's own state here.

Mirroring notes:
- `resume(task_id, task_payload&, bool*)` is split by its last argument.
  `resumeObserved` is the body up to the report (what `try_continue_` calls);
  `resume` is the call without an observer, which moves on to `tryContinue`.
- The maps are functions to `Option`, since `buffers_[tid]` creates an entry
  that `find` then sees. A queue that is absent and one that is empty read the
  same through `queue`.
- `tryContinue` recurses on fuel; `none` is a run that has not returned yet, or
  one stopped by an assertion.
- `ran` records the continuations invoked, with the value of `active_` at the
  time. No function reads it.
-/

namespace CharmExperiments.Hypercomm

/-- `task_id`: the element that launched the task and its counter there. -/
structure TaskId where
  host : BitVec 32
  task : BitVec 32
deriving DecidableEq, Repr

/-- `continuation_id_t`, the reference number of the messages for it. -/
abbrev ContinuationId := Nat

/-- `task_kind_t`, an index into the task records. -/
abbrev TaskKind := Nat

/-- `task_payload`: the reference number of its source message and its bytes. -/
structure Payload (δ : Type) where
  refnum : ContinuationId
  data : δ
deriving DecidableEq, Repr

/-- `task_payload::id`. -/
def Payload.id {δ : Type} (p : Payload δ) : ContinuationId := p.refnum

/-- `task_base_` with the members of the task type in `self`. -/
structure Task (σ : Type) where
  active : Bool
  kind : TaskKind
  continuation : ContinuationId
  self : σ
deriving DecidableEq, Repr

/-- `task_message`. -/
structure TaskMessage (δ : Type) where
  tid : TaskId
  kind : TaskKind
  refnum : ContinuationId
  data : δ
deriving DecidableEq, Repr

/-- `CkReductionMsg` as `task::reduce` builds it: a tuple of exactly two
reduced elements, the first of the size of a `task_id`. -/
structure ReductionMsg (δ : Type) where
  refnum : ContinuationId
  results : TaskId × δ
deriving DecidableEq, Repr

/-- The registered user code: `get_task_creator_` and `get_continuation_`. -/
structure Program (σ δ : Type) where
  creator : TaskKind → Payload δ → Task σ
  continuation : ContinuationId → Task σ → Payload δ → Task σ

/-- One invocation of a continuation. -/
structure Ran (δ : Type) where
  tid : TaskId
  continuation : ContinuationId
  payload : Payload δ
  active : TaskId
deriving DecidableEq, Repr

/-- `workgroup`. -/
structure Workgroup (σ δ : Type) where
  active : TaskId
  lastTask : BitVec 32
  tasks : TaskId → Option (Task σ)
  buffers : TaskId → Option (ContinuationId → Option (List (Payload δ)))
  ran : List (Ran δ)

variable {σ δ : Type}

/-- `workgroup::workgroup`; `active_` is left uninitialised there. -/
def Workgroup.init (active : TaskId) : Workgroup σ δ :=
  { active, lastTask := 0, tasks := fun _ => none, buffers := fun _ => none, ran := [] }

/-- `workgroup::generate_id`. -/
def Workgroup.generateId (thisIndex : BitVec 32) (g : Workgroup σ δ) :
    TaskId × Workgroup σ δ :=
  (⟨thisIndex, g.lastTask⟩, { g with lastTask := g.lastTask + 1 })

/-- `buffers_[tid]`: the entry is created when it is not there. -/
def Workgroup.touch (g : Workgroup σ δ) (tid : TaskId) : Workgroup σ δ :=
  match g.buffers tid with
  | some _ => g
  | none => { g with buffers := Function.update g.buffers tid (some fun _ => none) }

/-- What is buffered for a continuation of a task. -/
def Workgroup.queue (g : Workgroup σ δ) (tid : TaskId) (id : ContinuationId) :
    List (Payload δ) :=
  match g.buffers tid with
  | some map => (map id).getD []
  | none => []

/-- Overwrite one queue, as `emplace_back` and `pop_front` do. -/
def Workgroup.setQueue (g : Workgroup σ δ) (tid : TaskId) (id : ContinuationId)
    (q : List (Payload δ)) : Workgroup σ δ :=
  { g with
    buffers := Function.update g.buffers tid
      (some (Function.update ((g.buffers tid).getD fun _ => none) id (some q))) }

/-- `workgroup::buffer_`. -/
def Workgroup.buffer (g : Workgroup σ δ) (tid : TaskId) (payload : Payload δ) :
    Workgroup σ δ :=
  g.setQueue tid payload.id (g.queue tid payload.id ++ [payload])

/-- `workgroup::resume` once the payload is accepted: set the active task, invoke
its continuation, discard the task if it ended. -/
def Workgroup.invoke (P : Program σ δ) (tid : TaskId) (task : Task σ)
    (payload : Payload δ) (g : Workgroup σ δ) : Workgroup σ δ :=
  let g := { g with active := tid }
  let task' := P.continuation task.continuation task payload
  { g with
    tasks := Function.update g.tasks tid (if task'.active then some task' else none)
    ran := g.ran ++
      [{ tid, continuation := task.continuation, payload, active := g.active }] }

/-- `workgroup::resume(task_id, task_payload&, bool*)` up to the report: `none`
is the early `return false`, `some (g, keep)` the state after the continuation
and whether the task is still active. -/
def Workgroup.resumeObserved (P : Program σ δ) (tid : TaskId) (payload : Payload δ)
    (g : Workgroup σ δ) : Option (Workgroup σ δ × Bool) :=
  match g.tasks tid with
  | none => none
  | some task =>
    -- reject out of order messages
    if task.continuation ≠ payload.id then none
    else some (g.invoke P tid task payload,
      (P.continuation task.continuation task payload).active)

/-- `workgroup::try_continue_`; the iterator is the key it points at. -/
def Workgroup.tryContinue (P : Program σ δ) :
    Nat → TaskId → Workgroup σ δ → Option (Workgroup σ δ)
  | 0, _, _ => none
  | fuel + 1, it, g =>
    match g.tasks it with
    | none => none
    | some task =>
      let tid := g.active
      let g := g.touch tid
      let id := task.continuation
      match g.queue tid id with
      | [] => some g
      | payload :: _ =>
        match g.resumeObserved P tid payload with
        | none => some g
        | some (g', active) =>
          -- pop it when we succeed
          let g' := g'.setQueue tid id (g'.queue tid id).tail
          if active then tryContinue P fuel it g' else some g'

/-- `workgroup::resume(task_id, task_payload&)` without an observer; the flag
is its return value. -/
def Workgroup.resume (P : Program σ δ) (fuel : Nat) (tid : TaskId) (payload : Payload δ)
    (g : Workgroup σ δ) : Option (Workgroup σ δ × Bool) :=
  match g.resumeObserved P tid payload with
  | none => some (g, false)
  | some (g', keep) =>
    if keep then (g'.tryContinue P fuel tid).map (·, true) else some (g', true)

/-- The tail both `resume` entries share: buffer what was not accepted. -/
def Workgroup.resumeOrBuffer (P : Program σ δ) (fuel : Nat) (tid : TaskId)
    (payload : Payload δ) (g : Workgroup σ δ) : Option (Workgroup σ δ) :=
  match g.resume P fuel tid payload with
  | none => none
  | some (g', true) => some g'
  | some (g', false) => some (g'.buffer tid payload)

/-- `workgroup::resume(task_message*)`. -/
def Workgroup.resumeMessage (P : Program σ δ) (fuel : Nat) (msg : TaskMessage δ)
    (g : Workgroup σ δ) : Option (Workgroup σ δ) :=
  g.resumeOrBuffer P fuel msg.tid ⟨msg.refnum, msg.data⟩

/-- `workgroup::resume(CkReductionMsg*)`. -/
def Workgroup.resumeReduction (P : Program σ δ) (fuel : Nat) (msg : ReductionMsg δ)
    (g : Workgroup σ δ) : Option (Workgroup σ δ) :=
  g.resumeOrBuffer P fuel msg.results.1 ⟨msg.refnum, msg.results.2⟩

/-- `workgroup::create`; a task that ended in its constructor is not kept. -/
def Workgroup.create (P : Program σ δ) (fuel : Nat) (msg : TaskMessage δ)
    (g : Workgroup σ δ) : Option (Workgroup σ δ) :=
  let tid := msg.tid
  let g := { g with active := tid }
  let task := P.creator msg.kind ⟨msg.refnum, msg.data⟩
  if task.active then
    match g.tasks tid with
    | some _ => none  -- "task insertion unsucessful!"
    | none =>
      ({ g with tasks := Function.update g.tasks tid (some task) }).tryContinue P fuel tid
  else some g

/-- The entry methods of `workgroup.ci`. -/
inductive Entry (δ : Type)
  | create (msg : TaskMessage δ)
  | resumeMessage (msg : TaskMessage δ)
  | resumeReduction (msg : ReductionMsg δ)
deriving DecidableEq

/-- One entry method runs. -/
def Workgroup.deliver (P : Program σ δ) (fuel : Nat) (g : Workgroup σ δ) :
    Entry δ → Option (Workgroup σ δ)
  | .create msg => g.create P fuel msg
  | .resumeMessage msg => g.resumeMessage P fuel msg
  | .resumeReduction msg => g.resumeReduction P fuel msg

/-- The element handles a sequence of entries. -/
def Workgroup.run (P : Program σ δ) (fuel : Nat) (g : Workgroup σ δ)
    (es : List (Entry δ)) :
    Option (Workgroup σ δ) :=
  es.foldlM (fun g e => g.deliver P fuel e) g

end CharmExperiments.Hypercomm
