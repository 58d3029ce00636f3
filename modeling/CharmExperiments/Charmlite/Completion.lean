import CharmExperiments.Lib.Contributions
import CharmExperiments.Lib.Transition
import CharmExperiments.Charmlite.Message
import Mathlib.Data.BitVec

/-!
# Completion detection

`archive/charmlite/examples/cdt/pgm.cc`, the group `completion`, with the
all-reduce of `include/reduction.hh` it contributes to.

Each PE keeps a status per target: the stored detection message, the local
count of events produced minus consumed, and a flag. `start_detection`
contributes the local count to an all-reduce, or sends the callback when the
flag is set; `receive_count_` sets the flag by whether the summed count is zero
and calls `start_detection` again with the stored message.

Mirroring notes:
- There are `n + 1` PEs, PE 0 the root of the reductions.
- `CmiReduce` has no tags: the `k`-th contribution of every PE forms the `k`-th
  reduction. The combiner `add` keeps its left operand's fields, and the root's
  own message is the leftmost, so the result carries PE 0's target.
- The result is handled on PE 0 by `all_reduce_impl_`, which broadcasts a copy
  to the other PEs first; these are `inFlight` and arrive in any order.
- `start_detection(nullptr)` reads through a null pointer; the process is gone
  (`crashed`). A message whose callback was sent belongs to the receiver; a
  later use finds its fields as they were.
- Counts are 64-bit words, as `std::int64_t`; an overflow, which C++ leaves
  undefined, wraps around.
- `events` records what happened on a PE and is read by no function; only the
  environment's promise that what is consumed was produced before reads it.
-/

namespace CharmExperiments.Charmlite.Completion

open CharmExperiments.Lib

/-- A `callback`: the id of the function and the PE it runs on. -/
structure Callback where
  id : Nat
  pe : Int
deriving DecidableEq, Repr

/-- `detection_message`; `id` tells messages apart. -/
structure DetectionMessage where
  id : Nat
  target : CollectiveIndex
  callback : Callback
deriving DecidableEq, Repr

/-- `completion::status`. -/
structure Status where
  msg : Option DetectionMessage
  lcount : BitVec 64
  complete : Bool
deriving DecidableEq, Repr

/-- The constructor of `status`. -/
def Status.fresh (msg : Option DetectionMessage) : Status := ⟨msg, 0, false⟩

/-- `completion::count`. -/
structure Count where
  detector : CollectiveIndex
  target : CollectiveIndex
  gcount : BitVec 64
deriving DecidableEq, Repr, Inhabited

/-- `count::operator+=`: the left operand keeps its detector and target. -/
def Count.add (lhs rhs : Count) : Count := { lhs with gcount := lhs.gcount + rhs.gcount }

/-- What happened on a PE. -/
inductive Event
  /-- The broadcast handed the message to `start_detection`. -/
  | delivered (msg : DetectionMessage)
  /-- `start_detection` read the message. -/
  | used (msg : DetectionMessage)
  /-- `start_detection` sent the message's callback. -/
  | callback (msg : DetectionMessage)
  /-- `produce` (or, negative, `consume`) with `rank` contributions made so far. -/
  | produced (target : CollectiveIndex) (n : Int) (rank : Nat)
  /-- `receive_count_` applied the result of reduction `k`. -/
  | applied (k : Nat) (count : Count)
deriving DecidableEq, Repr

/-- The `completion` element of a PE, with its contributions to `CmiReduce`. -/
structure Pe where
  statii : CollectiveIndex → Option Status
  contributions : List Count
  events : List Event

def Pe.init : Pe := ⟨fun _ => none, [], []⟩

def Pe.record (pe : Pe) (e : Event) : Pe := { pe with events := pe.events ++ [e] }

def Pe.setStatus (pe : Pe) (idx : CollectiveIndex) (st : Status) : Pe :=
  { pe with statii := Function.update pe.statii idx (some st) }

/-- The status `get_status` returns a reference to, once it has run. -/
def Pe.status (pe : Pe) (idx : CollectiveIndex) : Status :=
  (pe.statii idx).getD (.fresh none)

/-- `completion::get_status`: a message given overwrites the stored one. -/
def Pe.getStatus (pe : Pe) (idx : CollectiveIndex) (msg : Option DetectionMessage) : Pe :=
  match pe.statii idx with
  | none => pe.setStatus idx (.fresh msg)
  | some st =>
    match msg with
    | some msg => pe.setStatus idx { st with msg := some msg }
    | none => pe

/-- What an event adds to the events of a target. -/
def amountOf (target : CollectiveIndex) : Event → Int
  | .produced t n _ => if t = target then n else 0
  | _ => 0

/-- The events of a target produced minus those consumed on a PE. -/
def Pe.net (pe : Pe) (target : CollectiveIndex) : Int :=
  (pe.events.map (amountOf target)).sum

/-- `cmk::all_reduce` with `add` and `receive_count_`: the contribution. -/
def Pe.allReduce (pe : Pe) (count : Count) : Pe :=
  { pe with contributions := pe.contributions ++ [count] }

/-- `completion::start_detection`. -/
def Pe.startDetection (detector : CollectiveIndex) (msg : DetectionMessage) (pe : Pe) :
    Pe :=
  let pe := pe.record (.used msg)
  let idx := msg.target
  let pe := pe.getStatus idx (some msg)
  let status := pe.status idx
  if status.complete then pe.record (.callback msg)
  else pe.allReduce ⟨detector, idx, status.lcount⟩

/-- `completion::produce`. -/
def Pe.produce (idx : CollectiveIndex) (n : Int) (pe : Pe) : Pe :=
  let pe := pe.getStatus idx none
  let status := pe.status idx
  (pe.setStatus idx { status with lcount := status.lcount + BitVec.ofInt 64 n }).record
    (.produced idx n pe.contributions.length)

/-- `completion::consume`. -/
def Pe.consume (idx : CollectiveIndex) (n : Int) (pe : Pe) : Pe := pe.produce idx (-n)

/-- `completion::receive_count_`; `none` is `start_detection(nullptr)`. -/
def Pe.receiveCount (detector : CollectiveIndex) (k : Nat) (count : Count) (pe : Pe) :
    Option Pe :=
  let pe := pe.record (.applied k count)
  let pe := pe.getStatus count.target none
  let status := { pe.status count.target with complete := count.gcount == 0 }
  let pe := pe.setStatus count.target status
  status.msg.map fun msg => pe.startDetection detector msg

/-- The completion group on `n + 1` PEs: its elements, the reductions `CmiReduce`
has delivered to the root, and the copies of results on their way. -/
structure Group (n : Nat) where
  pes : Fin (n + 1) → Pe
  reduced : List Nat
  inFlight : List (Fin (n + 1) × Nat × Count)
  crashed : Bool

variable {n : Nat}

def Group.init : Group n := ⟨fun _ => .init, [], [], false⟩

def Group.setPe (s : Group n) (p : Fin (n + 1)) (pe : Pe) : Group n :=
  { s with pes := Function.update s.pes p pe }

/-- What the PEs have contributed. -/
def Group.contributions (s : Group n) : Contributions (Fin (n + 1)) Count :=
  fun p => (s.pes p).contributions

/-- The sum over all PEs of `lcount` for a target. -/
def Group.outstanding (s : Group n) (target : CollectiveIndex) : Int :=
  ∑ p, ((s.pes p).status target).lcount.toInt

/-- The events of a target produced on all PEs and not consumed. -/
def Group.unconsumed (s : Group n) (target : CollectiveIndex) : Int :=
  ∑ p, (s.pes p).net target

/-- The message `CmiReduce` gives the root for reduction `k`: the root's own
contribution, with the others' added. -/
def Group.result (s : Group n) (k : Nat) : Count :=
  (List.finRange n).foldl (fun sum p => sum.add (s.contributions.rank k p.succ))
    (s.contributions.rank k 0)

/-- The steps: a detection message reaches an element, an element produces or
consumes events, a reduction is delivered to the root, a copy of a result is
handled. -/
inductive Action (n : Nat)
  | start (p : Fin (n + 1)) (msg : DetectionMessage)
  | produce (p : Fin (n + 1)) (target : CollectiveIndex) (k : Nat)
  | consume (p : Fin (n + 1)) (target : CollectiveIndex) (k : Nat)
  | reduce (k : Nat)
  | receive (j : Nat)
deriving DecidableEq

/-- `receive_count_` on one PE. -/
def Group.receiveCount (detector : CollectiveIndex) (s : Group n)
    (p : Fin (n + 1)) (k : Nat) (count : Count) : Group n :=
  match (s.pes p).receiveCount detector k count with
  | some pe => s.setPe p pe
  | none => { s with crashed := true }

/-- One step; `none` when it cannot be taken. A message is delivered to an
element once, and what is consumed was produced before. -/
def Group.step (detector : CollectiveIndex) (s : Group n) (a : Action n) :
    Option (Group n) :=
  if s.crashed then none
  else match a with
  | .start p msg =>
    if .delivered msg ∈ (s.pes p).events then none
    else some (s.setPe p (((s.pes p).record (.delivered msg)).startDetection
      detector msg))
  | .produce p target k => some (s.setPe p ((s.pes p).produce target k))
  | .consume p target k =>
    if s.unconsumed target < k then none
    else some (s.setPe p ((s.pes p).consume target k))
  | .reduce k =>
    if s.contributions.Ready k ∧ k ∉ s.reduced then
      -- all_reduce_impl_: broadcast, then deliver locally
      let count := s.result k
      let s := { s with
        reduced := s.reduced ++ [k]
        inFlight := s.inFlight ++ (List.finRange n).map fun p : Fin n =>
          (p.succ, k, count) }
      some (s.receiveCount detector 0 k count)
    else none
  | .receive j =>
    match s.inFlight[j]? with
    | none => none
    | some (p, k, count) =>
      let s := { s with inFlight := s.inFlight.eraseIdx j }
      some (s.receiveCount detector p k count)

/-- The completion group as a transition system. -/
def system (detector : CollectiveIndex) : Transition (Group n) (Action n) where
  init s := s = .init
  step := Group.step detector

/-- The PE and target of the contribution a step makes, if it makes one. -/
def Group.contributes (s : Group n) : Action n → Option (Fin (n + 1) × CollectiveIndex)
  | .start p msg =>
    if ((s.pes p).status msg.target).complete then none else some (p, msg.target)
  | .produce .. => none
  | .consume .. => none
  | .reduce k => if (s.result k).gcount = 0 then none else some (0, (s.result k).target)
  | .receive j =>
    match s.inFlight[j]? with
    | some (p, _, count) => if count.gcount = 0 then none else some (p, count.target)
    | none => none

/-- The step contributes, if it does, for the target the other PEs' contributions
of that rank are for: all PEs start and restart detection in one order. -/
def SameOrder (s : Group n) (a : Action n) : Prop :=
  ∀ p t, s.contributes a = some (p, t) → s.contributions.Matches Count.target p t

end CharmExperiments.Charmlite.Completion
