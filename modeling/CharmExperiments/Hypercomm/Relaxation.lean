import CharmExperiments.Hypercomm.Solo

/-!
# The relaxation task

`archive/path2.0/examples/relaxation/pgm.cpp`: one task on an array of `n`
workers in a line. A worker sends a ghost to each neighbour, waits for theirs,
contributes its error to an all-reduce, and goes round again until the error is
small enough or the iterations are used up; then it contributes to the grid,
which element 0 receives.

Mirroring notes:
- The functions return the task with the effects they asked for, in order.
  `suspend` and `terminate` set the members of `task_base_`.
- `double` is a type with the operations used; `int` is unbounded, since its
  overflow is undefined.
- The constructor leaves `it` as it is, and `task_base_` leaves `continuation_`;
  both are given per worker (`Raw`).
- The ghosts carry no data yet ("TODO"). Here they carry who sent them in which
  round; `rounds` counts the rounds begun. Neither is read.
- Bytes that are not what a function unpacks do not occur; it reads a default.
- `receive_grid` calls `CkExit`, which stops the program; here it goes on. A
  failed `CkAssert` leaves the task as it was.
- An error result is any value: what `max_double` computes does not matter. With
  reducers that differ nothing is known of the result.
-/

namespace CharmExperiments.Hypercomm

open CharmExperiments.Lib

/-- The operations on `double` the task uses. -/
structure Doubles (E : Type) where
  le : E → E → Bool
  twice : E → E
  minusOne : E

/-- What the messages of the task carry. -/
inductive Bytes (E : Type)
  | args (nWorkers maxIters : Int) (tolerance : E)
  | ghost (sender round : Nat)
  | error (value : E)
  | index (value : Nat)
  | set (values : List Nat)
deriving DecidableEq

/-- `relaxation_task`; `rounds` counts the rounds begun. -/
structure Relaxation (E : Type) where
  converged : Bool
  hasLeft : Bool
  hasRight : Bool
  tolerance : E
  nRecvd : Int
  nNeighbors : Int
  nWorkers : Int
  it : Int
  maxIters : Int
  rounds : Nat

/-- What the memory of a worker held where the constructors set nothing. -/
structure Raw where
  it : Int
  continuation : ContinuationId

/-- `id_for<&relaxation_task::receive_ghost>()`. -/
abbrev ghostId : ContinuationId := 0

/-- `id_for<&relaxation_task::receive_max_error>()`. -/
abbrev maxErrorId : ContinuationId := 1

/-- `id_for<&relaxation_task::receive_grid>()`. -/
abbrev gridId : ContinuationId := 2

variable {E : Type}

/-- `task::suspend`. -/
def Task.suspend {σ : Type} (task : Task σ) (fn : ContinuationId) : Task σ :=
  { task with continuation := fn }

/-- `task::terminate`. -/
def Task.terminate {σ : Type} (task : Task σ) : Task σ :=
  { task with active := false }

namespace Relaxation

/-- `relaxation_task::send_ghosts`. -/
def sendGhosts (idx : Nat) (r : Relaxation E) : List (Effect (Bytes E)) :=
  (if r.hasLeft then [.send (idx - 1) ghostId (.ghost idx r.rounds)] else []) ++
    (if r.hasRight then [.send (idx + 1) ghostId (.ghost idx r.rounds)] else [])

/-- `relaxation_task::check_and_compute`. -/
def checkAndCompute (D : Doubles E) (task : Task (Relaxation E)) :
    Task (Relaxation E) × List (Effect (Bytes E)) :=
  let maxError := D.twice task.self.tolerance
  (task.suspend maxErrorId, [.allReduce maxErrorId (.error maxError) .maxDouble])

/-- `relaxation_task::on_converge`. -/
def onConverge (idx : Nat) (task : Task (Relaxation E)) :
    Task (Relaxation E) × List (Effect (Bytes E)) :=
  -- send our contribution to the root
  (if idx = 0 then task.suspend gridId else task.terminate,
    [.reduceTo gridId (.index idx) .set 0])

/-- `relaxation_task::converge_loop`. -/
def convergeLoop (D : Doubles E) (idx : Nat) (task : Task (Relaxation E)) :
    Task (Relaxation E) × List (Effect (Bytes E)) :=
  if task.self.converged then onConverge idx task
  else
    -- the test reads `it` before it is incremented
    let again := task.self.it < task.self.maxIters
    let self := { task.self with it := task.self.it + 1 }
    if again then
      let self := { self with nRecvd := 0, rounds := self.rounds + 1 }
      let task := { task with self }
      if self.nNeighbors = 0 then
        let next := checkAndCompute D task
        (next.1, self.sendGhosts idx ++ next.2)
      else (task.suspend ghostId, self.sendGhosts idx)
    else onConverge idx { task with self }

/-- `relaxation_task::receive_ghost`. -/
def receiveGhost (D : Doubles E) (task : Task (Relaxation E)) :
    Task (Relaxation E) × List (Effect (Bytes E)) :=
  let task := { task with self := { task.self with nRecvd := task.self.nRecvd + 1 } }
  if task.self.nRecvd ≥ task.self.nNeighbors then checkAndCompute D task
  else (task.suspend ghostId, [])

/-- `relaxation_task::receive_max_error`. -/
def receiveMaxError (D : Doubles E) (idx : Nat) (task : Task (Relaxation E))
    (data : Bytes E) :
    Task (Relaxation E) × List (Effect (Bytes E)) :=
  let converged := match data with
    | .error maxError => D.le maxError task.self.tolerance
    | _ => false
  convergeLoop D idx { task with self := { task.self with converged } }

/-- The set `receive_grid` moves the reduction set's entries into. -/
def gridSet (data : Bytes E) : List Nat :=
  match data with
  | .set values => values.dedup
  | _ => []

/-- `relaxation_task::receive_grid`. -/
def receiveGrid (task : Task (Relaxation E)) (data : Bytes E) :
    Task (Relaxation E) × List (Effect (Bytes E)) :=
  -- validate that we received all elements
  if task.self.nWorkers = (gridSet data).length then (task.terminate, []) else (task, [])

/-- What `relaxation_task::relaxation_task` unpacks. -/
def unpack (D : Doubles E) (data : Bytes E) : Int × Int × E :=
  match data with
  | .args nWorkers maxIters tolerance => (nWorkers, maxIters, tolerance)
  | _ => (0, 0, D.minusOne)

/-- `relaxation_task::relaxation_task` before it enters the loop. -/
def constructed (D : Doubles E) (idx : Nat) (raw : Raw) (kind : TaskKind)
    (data : Bytes E) :
    Task (Relaxation E) :=
  let args := unpack D data
  let hasLeft := decide (idx > 0)
  let hasRight := decide ((idx : Int) + 1 < args.1)
  { active := true
    kind
    continuation := raw.continuation
    self :=
      { converged := false
        hasLeft
        hasRight
        tolerance := args.2.2
        nRecvd := 0
        nNeighbors := (if hasLeft then 1 else 0) + (if hasRight then 1 else 0)
        nWorkers := args.1
        it := raw.it
        maxIters := args.2.1
        rounds := 0 } }

end Relaxation

/-- The task as registered: its constructor and its continuations on the element
`idx`. -/
def relaxationTask (D : Doubles E) (idx : Nat) (raw : Raw) :
    Behaviour (Relaxation E) (Bytes E) where
  creator kind payload :=
    Relaxation.convergeLoop D idx (Relaxation.constructed D idx raw kind payload.data)
  continuation id task payload :=
    if id = ghostId then Relaxation.receiveGhost D task
    else if id = maxErrorId then Relaxation.receiveMaxError D idx task payload.data
    else Relaxation.receiveGrid task payload.data

/-- What the reductions give: any error where all contribute errors, the set of
the indices where all contribute to the set. -/
def relaxationCombines (cs : List (ReducerType × Bytes E)) (data : Bytes E) : Bool :=
  if cs.all fun c => c.1 = .maxDouble then
    match data with
    | .error _ => true
    | _ => false
  else if cs.all fun c => c.1 = .set then
    match data with
    | .set values => values.isPerm (cs.filterMap fun c =>
        match c.2 with
        | .index value => some value
        | _ => none)
    | _ => false
  else true

/-- `pgm::pgm` on `n` elements: the arguments of the launch, the element that gave
the id, and what the memory of the workers held. -/
structure Relaxing (n : Nat) (E : Type) where
  doubles : Doubles E
  maxIters : Int
  tolerance : E
  host : Fin n
  raw : Fin n → Raw

namespace Relaxing

variable {n : Nat}

/-- The task on each worker. -/
def behaviours (X : Relaxing n E) (i : Fin n) : Behaviour (Relaxation E) (Bytes E) :=
  relaxationTask X.doubles i (X.raw i)

/-- The arguments of the launch. -/
def args (X : Relaxing n E) : Bytes E := .args n X.maxIters X.tolerance

/-- The `create` message, and the id in it. -/
def message (X : Relaxing n E) : TaskMessage (Bytes E) := launchMessage X.host 0 X.args

/-- The array of `pgm`, launched once. -/
def system [DecidableEq E] (X : Relaxing n E) :
    Transition (WorkgroupArray n (Relaxation E) (Bytes E))
      (WorkgroupArray.Action n (Bytes E)) :=
  WorkgroupArray.launchedSystem X.behaviours relaxationCombines X.host 0 X.args

/-- The calls worker `i` has made since it was constructed. -/
def calls (X : Relaxing n E) (s : WorkgroupArray n (Relaxation E) (Bytes E)) (i : Fin n) :
    List (Call (Relaxation E) (Bytes E)) :=
  (X.behaviours i).calls ((X.behaviours i).constructed X.message) (s.elements i).ran

end Relaxing

end CharmExperiments.Hypercomm
