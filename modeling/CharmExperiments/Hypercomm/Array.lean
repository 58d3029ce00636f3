import Mathlib.Data.List.FinRange
import CharmExperiments.Lib.Contributions
import CharmExperiments.Lib.Transition
import CharmExperiments.Hypercomm.Workgroup

/-!
# A workgroup array

`archive/path2.0/include/hypercomm/workgroup.hpp` over a whole array: `launch`,
what a task sends with `send`, `broadcast` and `reduce`, and the messages
between the elements.

An element runs one entry at a time (`Workgroup.deliver`). What the entry
queues with Charm++ is read off the user code it ran: `Behaviour.calls` runs
the continuations of the element's `ran` log again, on the task they were
invoked on, and keeps what each asked for. A message carries `host->active_` as
it was then.

Mirroring notes:
- Messages arrive in any order. A message for an index outside the array stays
  in flight.
- Reductions have no tags: the `k`-th contributions of all elements form the
  `k`-th reduction, and the reductions are formed in that order. The ids are
  combined with `CkReduction::bitvec_and_int`. What the reducers of the data
  give is a parameter (`combines`), and the callback is that of any one
  contribution.
- `launch` takes the first element of its PE for the id, which can be any.
- `kind` is not set in a resume message, and the reference number of a `create`
  message is Charm++'s initial 0. Neither is read.
- `owner` (the task whose code contributed) and `handled` are not read either.
-/

namespace CharmExperiments.Hypercomm

open CharmExperiments.Lib

/-- `CkReduction::reducerType`. -/
inductive ReducerType
  | maxDouble
  | set
  | other (id : Nat)
deriving DecidableEq, Repr

/-- The `CkCallback` of a reduction: `workgroup::resume(CkReductionMsg*)` on
the whole array or on one element, and the reference number set on it. -/
structure Callback where
  target : Option Nat
  refnum : ContinuationId
deriving DecidableEq, Repr

/-- What user code asks of Charm++: `task::send`, `task::broadcast` and the
`task::reduce` that takes a callback. -/
inductive Effect (δ : Type)
  | send (index : Nat) (fn : ContinuationId) (data : δ)
  | broadcast (fn : ContinuationId) (data : δ)
  | reduce (data : δ) (type : ReducerType) (cb : Callback)

/-- `task::all_reduce`. -/
def Effect.allReduce {δ : Type} (fn : ContinuationId) (data : δ) (type : ReducerType) :
    Effect δ :=
  .reduce data type ⟨none, fn⟩

/-- `task::reduce` to the element `index`. -/
def Effect.reduceTo {δ : Type} (fn : ContinuationId) (data : δ) (type : ReducerType)
    (index : Nat) : Effect δ :=
  .reduce data type ⟨some index, fn⟩

/-- The registered user code with what it asks of Charm++. -/
structure Behaviour (σ δ : Type) where
  creator : TaskKind → Payload δ → Task σ × List (Effect δ)
  continuation : ContinuationId → Task σ → Payload δ → Task σ × List (Effect δ)

/-- What one element sees of the user code. -/
def Behaviour.program {σ δ : Type} (B : Behaviour σ δ) : Program σ δ where
  creator kind payload := (B.creator kind payload).1
  continuation id task payload := (B.continuation id task payload).1

/-- One continuation that ran: for whom, with which `active_`, and what it did. -/
structure Call (σ δ : Type) where
  tid : TaskId
  active : TaskId
  before : Task σ
  continuation : ContinuationId
  payload : Payload δ
  after : Task σ
  effects : List (Effect δ)

/-- An effect with the task whose code asked for it and the `active_` it read. -/
structure Issued (δ : Type) where
  owner : TaskId
  active : TaskId
  effect : Effect δ

/-- What `task::reduce` contributes: the id, the data and the callback. -/
structure Contribution (δ : Type) where
  owner : TaskId
  tid : TaskId
  type : ReducerType
  data : δ
  cb : Callback

/-- The array: its elements, what each has contributed, the results of the
reductions formed so far, the messages in flight with the index they are for,
and the entries each element has run. -/
structure WorkgroupArray (n : Nat) (σ δ : Type) where
  elements : Fin n → Workgroup σ δ
  contributed : Contributions (Fin n) (Contribution δ)
  reductions : List (ReductionMsg δ)
  flight : List (Nat × Entry δ)
  handled : Fin n → List (Entry δ)

variable {n : Nat} {σ δ : Type}

/-- The task an entry is for. -/
def Entry.tid : Entry δ → TaskId
  | .create msg => msg.tid
  | .resumeMessage msg => msg.tid
  | .resumeReduction msg => msg.results.1

/-- The continuations that ran, one after the other, from a task. -/
def Behaviour.calls (B : Behaviour σ δ) : Task σ → List (Ran δ) → List (Call σ δ)
  | _, [] => []
  | task, r :: rs =>
    let next := B.continuation r.continuation task r.payload
    ⟨r.tid, r.active, task, r.continuation, r.payload, next.1, next.2⟩ ::
    B.calls next.1 rs

/-- The effects of one call. -/
def Call.issued (c : Call σ δ) : List (Issued δ) :=
  c.effects.map fun effect => ⟨c.tid, c.active, effect⟩

/-- The task an entry runs continuations of, and what its constructor asked for. -/
def Behaviour.start (B : Behaviour σ δ) (g : Workgroup σ δ) :
    Entry δ → Option (Task σ) × List (Issued δ)
  | .create msg =>
    let task := B.creator msg.kind ⟨msg.refnum, msg.data⟩
    (some task.1, task.2.map fun effect => ⟨msg.tid, msg.tid, effect⟩)
  | .resumeMessage msg => (g.tasks msg.tid, [])
  | .resumeReduction msg => (g.tasks msg.results.1, [])

/-- What the user code of one entry asked for: the constructor, then the
continuations that were added to the log. -/
def Behaviour.issued (B : Behaviour σ δ) (g : Workgroup σ δ) (e : Entry δ)
    (g' : Workgroup σ δ) : List (Issued δ) :=
  (B.start g e).2 ++
    match (B.start g e).1 with
    | none => []
    | some task => (B.calls task (g'.ran.drop g.ran.length)).flatMap Call.issued

/-- The messages an effect sends on an array of `n` elements. -/
def Issued.messages (n : Nat) (x : Issued δ) : List (Nat × Entry δ) :=
  match x.effect with
  | .send index fn data => [(index, .resumeMessage ⟨x.active, 0, fn, data⟩)]
  | .broadcast fn data =>
    (List.range n).map fun i => (i, .resumeMessage ⟨x.active, 0, fn, data⟩)
  | .reduce .. => []

/-- `task::reduce`: the contribution of an effect. -/
def Issued.contribution (x : Issued δ) : Option (Contribution δ) :=
  match x.effect with
  | .reduce data type cb => some ⟨x.owner, x.active, type, data, cb⟩
  | _ => none

/-- `CkReduction::bitvec_and_int` on two ids. -/
def TaskId.and (a b : TaskId) : TaskId := ⟨a.host &&& b.host, a.task &&& b.task⟩

/-- The reduced id. -/
def reducedId (ids : List TaskId) : TaskId :=
  ids.foldr TaskId.and ⟨BitVec.allOnes 32, BitVec.allOnes 32⟩

/-- The elements a callback resumes. -/
def Callback.targets (n : Nat) (cb : Callback) : List Nat :=
  match cb.target with
  | none => List.range n
  | some index => [index]

/-- The index of an element, an `int`. -/
def thisIndex (i : Fin n) : BitVec 32 := BitVec.ofNat 32 i

namespace WorkgroupArray

/-- An array whose elements hold no task; `last` is what `last_task_` counts
from, 0 where the element was just constructed. -/
def init (last : Fin n → BitVec 32) (active : Fin n → TaskId) : WorkgroupArray n σ δ where
  elements i := { Workgroup.init (active i) with lastTask := last i }
  contributed _ := []
  reductions := []
  flight := []
  handled _ := []

/-- `launch`: the id is generated on `host`, and `create` is broadcast. -/
def launch (a : WorkgroupArray n σ δ) (host : Fin n) (kind : TaskKind) (data : δ) :
    WorkgroupArray n σ δ :=
  let tid := ((a.elements host).generateId (thisIndex host)).1
  { a with
    elements := Function.update a.elements host
      ((a.elements host).generateId (thisIndex host)).2
    flight := a.flight ++ (List.range n).map fun i => (i, .create ⟨tid, kind, 0, data⟩) }

/-- The `k`-th contributions of all elements. -/
def rank (a : WorkgroupArray n σ δ) (k : Nat) (h : a.contributed.Ready k) (i : Fin n) :
    Contribution δ :=
  (a.contributed i).get ⟨k, h i⟩

/-- What the reducers are given: the data with the reducer named for it. -/
def reduced (cs : Fin n → Contribution δ) : List (ReducerType × δ) :=
  (List.finRange n).map fun i => ((cs i).type, (cs i).data)

/-- The result of a reduction, with the callback of element `root`'s contribution. -/
def result (cs : Fin n → Contribution δ) (root : Fin n) (data : δ) : ReductionMsg δ :=
  ⟨(cs root).cb.refnum, (reducedId ((List.finRange n).map fun i => (cs i).tid), data)⟩

/-- The next reduction is formed and its callback is sent. -/
def reduce (combines : List (ReducerType × δ) → δ → Bool) (a : WorkgroupArray n σ δ)
    (root : Fin n) (data : δ) : Option (WorkgroupArray n σ δ) :=
  if h : a.contributed.Ready a.reductions.length then
    let cs := a.rank a.reductions.length h
    if combines (reduced cs) data then
      let msg := result cs root data
      some { a with
        reductions := a.reductions ++ [msg]
        flight := a.flight ++ ((cs root).cb.targets n).map fun i =>
          (i, .resumeReduction msg) }
    else none
  else none

variable [DecidableEq δ]

/-- Element `i` has run `e` and is now `g`: what the entry asked for is queued. -/
def after (B : Fin n → Behaviour σ δ) (a : WorkgroupArray n σ δ) (i : Fin n) (e : Entry δ)
    (g : Workgroup σ δ) : WorkgroupArray n σ δ :=
  let issued := (B i).issued (a.elements i) e g
  { a with
    elements := Function.update a.elements i g
    contributed := a.contributed.extend i (issued.filterMap Issued.contribution)
    flight := a.flight.erase (i.val, e) ++ issued.flatMap (Issued.messages n)
    handled := Function.update a.handled i (a.handled i ++ [e]) }

/-- A message reaches its element. -/
def deliver (B : Fin n → Behaviour σ δ) (a : WorkgroupArray n σ δ)
    (i : Fin n) (e : Entry δ) (fuel : Nat) : Option (WorkgroupArray n σ δ) :=
  if (i.val, e) ∈ a.flight then
    ((a.elements i).deliver (B i).program fuel e).map (a.after B i e)
  else none

/-- The steps of the array. -/
inductive Action (n : Nat) (δ : Type)
  | launch (host : Fin n) (kind : TaskKind) (data : δ)
  | deliver (i : Fin n) (e : Entry δ) (fuel : Nat)
  | reduce (root : Fin n) (data : δ)

/-- One step; `none` when it cannot be taken, or stops at an assertion. -/
def step (B : Fin n → Behaviour σ δ) (combines : List (ReducerType × δ) → δ → Bool)
    (a : WorkgroupArray n σ δ) : Action n δ → Option (WorkgroupArray n σ δ)
  | .launch host kind data => some (a.launch host kind data)
  | .deliver i e fuel => a.deliver B i e fuel
  | .reduce root data => a.reduce combines root data

/-- The array as a transition system. -/
def system (B : Fin n → Behaviour σ δ) (combines : List (ReducerType × δ) → δ → Bool)
    (last : Fin n → BitVec 32) : Transition (WorkgroupArray n σ δ) (Action n δ) where
  init a := ∃ active, a = init last active
  step a := a.step B combines

end WorkgroupArray

end CharmExperiments.Hypercomm
