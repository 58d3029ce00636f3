import CharmExperiments.Lib.Deque
import Mathlib.Logic.Function.Basic

/-!
# A component of the dataflow prototype

`archive/tests/comex/component.hh` and `outbox.hh`: a component gathers one value
for each input port into a set, runs its action on a complete set and sends what
the action returns along the wires of its outputs. Values for a component that
is not active wait in `incoming`, and outputs without a wire in `buffer`.

Mirroring notes:
- A relayed value is accepted by its peer before `relay` returns, and the peer
  may relay in turn. So a member function that relays is cut there: `Frame` is
  what is left of it, `resume` goes on with it, and the call it asks for is the
  third part of the result. `Network` puts the frames of all components on one
  stack.
- `action` is the component's own code. It may change its state and what is left
  of the set it is given by reference.
- A failed `CkAssertMsg` and a `CkAbort` end the run, as do the use of a null
  value and of an invalid iterator.
- `in_set` and `out_set` are functions of the port. `QdCreate`, `QdProcess` and
  the listeners, which only print, are left out.
- The static tables that `make_acceptors_` builds are taken to hold an acceptor
  for each port, though the storage they are built in is one byte long.
- `accepted`, `acted`, `ran`, `activations`, `produced` and `relayed` record
  what happened; no function reads them.
-/

namespace CharmExperiments.Comex

open CharmExperiments.Lib

/-- `in_set`: the value at each input port, if it is there. -/
abbrev InSet (V : Type) := Nat → Option V

/-- A set with nothing but a value at `port`. -/
def single {V : Type} (port : Nat) (val : V) : InSet V :=
  Function.update (fun _ => none) port (some val)

/-- `out_set`: the value for each output port, which may be null. -/
abbrev OutSet (V : Type) := Nat → Option V

/-- A component type. -/
structure Class (σ V : Type) where
  nInputs : Nat
  nOutputs : Nat
  /-- `static_assert(n_inputs_ >= 1, "expected at least one input!")`. -/
  inputs : 1 ≤ nInputs
  inTypes : Nat → String
  persistent : Bool
  start : σ
  /-- The new state, what is left of the set, and the outputs. -/
  action : σ → InSet V → σ × InSet V × OutSet V

/-- `connector_`. -/
inductive Connector
  | kInvalid
  | kWire (com port : Nat)
deriving DecidableEq, Repr

def Connector.ready : Connector → Bool
  | .kInvalid => false
  | .kWire _ _ => true

/-- How a run ends. -/
inductive Failure
  /-- `CkAbort`, or a failed `CkAssertMsg`. -/
  | abort (text : String)
  /-- A null value is dereferenced. -/
  | nullValue
  /-- `erase` at an iterator that is not valid. -/
  | invalidIterator
deriving DecidableEq, Repr

/-- What is left of a member function that is at a relay, or may come to one. -/
inductive Frame (V : Type)
  /-- `stage_action` has run the action; `outs` are the outputs that `unspool` has
  yet to deliver. With an iterator it is the one that erases the set. -/
  | staging (search : Option Deque.Iterator) (outs : List (Nat × Option V))
  /-- The loop of `activate`. -/
  | activating
  /-- The loop of `try_flush`, with the front of the buffer relayed or not. -/
  | flushing (port : Nat) (relayed : Bool)

/-- A call of `accept` that a relay makes. -/
structure Relay (V : Type) where
  com : Nat
  port : Nat
  val : Option V

/-- A component. -/
structure Component (σ V : Type) where
  active : Bool
  activated : Bool
  incoming : Deque (InSet V)
  buffer : Nat → List (Option V)
  connectors : Nat → Connector
  state : σ
  accepted : List (Nat × V)
  acted : List (InSet V)
  /-- The actions run since the last `activate`. -/
  ran : Nat
  /-- How many values had been accepted at each `activate`. -/
  activations : List Nat
  produced : List (Nat × Option V)
  relayed : List (Nat × Option V)

variable {σ V : Type} (K : Class σ V)

/-- `is_ready_<I>`. -/
def isReadyUpTo (set : InSet V) : Nat → Bool
  | 0 => (set 0).isSome
  | i + 1 => (set (i + 1)).isSome && isReadyUpTo set i

/-- `is_ready`. -/
def isReady (set : InSet V) : Bool := isReadyUpTo set (K.nInputs - 1)

/-- `unspool_<I>`: the outputs in the order of their delivery. -/
def unspoolFrom (res : OutSet V) : Nat → List (Nat × Option V)
  | 0 => [(0, res 0)]
  | i + 1 => (i + 1, res (i + 1)) :: unspoolFrom res i

/-- `outbox_::unspool`. -/
def unspool (res : OutSet V) : List (Nat × Option V) :=
  match K.nOutputs with
  | 0 => []
  | m + 1 => unspoolFrom res m

namespace Component

/-- `component::component`. -/
def new : Component σ V where
  active := false
  activated := false
  incoming := .empty
  buffer := fun _ => []
  connectors := fun _ => .kInvalid
  state := K.start
  accepted := []
  acted := []
  ran := 0
  activations := []
  produced := []
  relayed := []

/-- `outbox_::empty_<I>`. -/
def emptyUpTo (c : Component σ V) : Nat → Bool
  | 0 => (c.buffer 0).isEmpty
  | i + 1 => (c.buffer (i + 1)).isEmpty && c.emptyUpTo i

/-- `outbox_::empty`. -/
def empty (c : Component σ V) : Bool :=
  match K.nOutputs with
  | 0 => false
  | m + 1 => c.emptyUpTo m

/-- `collectible`. -/
def collectible (c : Component σ V) : Bool := c.activated && !c.active && c.empty K

/-- `find_ready_`. -/
def findReady (c : Component σ V) : Option (Nat × InSet V) :=
  c.incoming.findFront (isReady K)

/-- `find_gap_`. -/
def findGap (c : Component σ V) (port : Nat) : Option (Nat × InSet V) :=
  c.incoming.findBack fun set => (set port).isNone

/-- The outputs of the action on `set`, in the order of their delivery. -/
def outs (c : Component σ V) (set : InSet V) : List (Nat × Option V) :=
  unspool K (K.action c.state set).2.2

/-- The action runs on `set`; with an iterator, what it leaves of the set is left in
the deque. -/
def act (c : Component σ V) (search : Option Deque.Iterator) (set : InSet V) :
    Component σ V :=
  { c with
    state := (K.action c.state set).1
    incoming := match search with
      | some it => c.incoming.write it.id (K.action c.state set).2.1
      | none => c.incoming
    acted := c.acted ++ [set]
    ran := c.ran + 1
    produced := c.produced ++ c.outs K set }

/-- `stage_action` up to the delivery of the outputs; nothing happens to a component
that is not active. -/
def stageAction (c : Component σ V) (search : Option Deque.Iterator) (set : InSet V) :
    Component σ V × List (Frame V) :=
  if c.active then (c.act K search set, [.staging search (c.outs K set)]) else (c, [])

/-- `buffer_ready_set_`. -/
def bufferReadySet (c : Component σ V) (set : InSet V) : Component σ V :=
  { c with incoming := c.incoming.emplaceFront set }

/-- `direct_stage`, which only a component with one input calls. -/
def directStage (c : Component σ V) (val : V) : Component σ V × List (Frame V) :=
  if c.active then c.stageAction K none (single 0 val)
  else (c.bufferReadySet (single 0 val), [])

/-- `*search` becomes `set`. -/
def write (c : Component σ V) (id : Nat) (set : InSet V) : Component σ V :=
  { c with incoming := c.incoming.write id set }

def note (c : Component σ V) (port : Nat) (val : V) : Component σ V :=
  { c with accepted := c.accepted ++ [(port, val)] }

/-- `accept`, for a value of the port's type. -/
def accept (c : Component σ V) (port : Nat) (val : V) : Component σ V × List (Frame V) :=
  let c := c.note port val
  if K.nInputs = 1 then c.directStage K val
  else
    match c.findGap port with
    | none => ({ c with incoming := c.incoming.emplaceFront (single port val) }, [])
    | some (id, partialSet) =>
      let set := Function.update partialSet port (some val)
      let c := c.write id set
      if isReady K set then c.stageAction K (some (c.incoming.iter id)) set else (c, [])

/-- `accepts`. -/
def accepts (port : Nat) (ty : String) : Bool := port < K.nInputs && ty == K.inTypes port

/-- `component_base_::accept` on component `com`. -/
def baseAccept (typeOf : V → Option String) (com : Nat) (c : Component σ V) (port : Nat)
    (val : Option V) : Except Failure (Component σ V × List (Frame V)) :=
  match val with
  | none => .error .nullValue
  | some val =>
    match typeOf val with
    | none => .error (.abort s!"com{com}> invalid value for port {port}, (nil)")
    | some ty =>
      if accepts K port ty then .ok (c.accept K port val)
      else .error (.abort s!"com{com}> invalid value for port {port}, {ty}")

def online (c : Component σ V) : Component σ V :=
  { c with
    activated := true
    active := true
    ran := 0
    activations := c.activations ++ [c.accepted.length] }

/-- `activate`, up to its loop. -/
def activate (c : Component σ V) : Except Failure (Component σ V × List (Frame V)) :=
  if c.active then .error (.abort "component already online")
  else .ok (c.online, [.activating])

/-- `outbox_::connect_to`. -/
def connect (c : Component σ V) (port peer peerPort : Nat) : Component σ V :=
  { c with connectors := Function.update c.connectors port (.kWire peer peerPort) }

/-- `output_to`, up to the loop of `try_flush`. -/
def outputTo (c : Component σ V) (port peer peerPort : Nat) :
    Except Failure (Component σ V × List (Frame V)) :=
  let prev := (c.connectors port).ready
  let c := c.connect port peer peerPort
  if c.active && prev then
    .error (.abort "component must be offline to change outbound connections")
  else .ok (c, if c.active then [.flushing port false] else [])

/-- Goes on with a member function, to its next relay or its end. -/
def resume (c : Component σ V) :
    Frame V → Except Failure (Component σ V × List (Frame V) × Option (Relay V))
  | .staging search ((port, val) :: outs) =>
    -- outbox_::deliver_
    match c.connectors port with
    | .kWire com peerPort =>
      .ok ({ c with relayed := c.relayed ++ [(port, val)] }, [.staging search outs],
        some ⟨com, peerPort, val⟩)
    | .kInvalid =>
      .ok ({ c with buffer := Function.update c.buffer port (c.buffer port ++ [val]) },
        [.staging search outs], none)
  | .staging search [] =>
    let c := { c with active := K.persistent }
    match search with
    | none => .ok (c, [], none)
    | some it =>
      match c.incoming.erase it with
      | none => .error .invalidIterator
      | some incoming => .ok ({ c with incoming := incoming }, [], none)
  | .activating =>
    if c.active then
      match c.findReady K with
      | none => .ok (c, [], none)
      | some (id, set) =>
        let (c, fs) := c.stageAction K (some (c.incoming.iter id)) set
        .ok (c, fs ++ [.activating], none)
    else .ok (c, [], none)
  | .flushing port false =>
    match c.buffer port with
    | [] => .ok (c, [], none)
    | val :: rest =>
      match c.connectors port with
      | .kInvalid => .error (.abort "delivery to invalid connector!")
      | .kWire com peerPort =>
        .ok ({ c with
            -- the front is moved from until it is popped
            buffer := Function.update c.buffer port (none :: rest)
            relayed := c.relayed ++ [(port, val)] },
          [.flushing port true], some ⟨com, peerPort, val⟩)
  | .flushing port true =>
    .ok ({ c with buffer := Function.update c.buffer port (c.buffer port).tail },
      [.flushing port false], none)

end Component

/-! ## Small facts -/

theorem isReadyUpTo_iff {set : InSet V} {m : Nat} :
    isReadyUpTo set m = true ↔ ∀ i ≤ m, (set i).isSome = true := by
  induction m with
  | zero =>
    constructor
    · intro h i hi
      obtain rfl : i = 0 := by omega
      exact h
    · intro h
      exact h 0 (Nat.le_refl 0)
  | succ m ih =>
    show ((set (m + 1)).isSome && isReadyUpTo set m) = true ↔ _
    rw [Bool.and_eq_true, ih]
    constructor
    · rintro ⟨hlast, hrest⟩ i hi
      by_cases heq : i = m + 1
      · rw [heq]
        exact hlast
      · exact hrest i (by omega)
    · intro h
      exact ⟨h _ (Nat.le_refl _), fun i hi => h i (by omega)⟩

/-- A set is ready when it has a value for every input. -/
theorem isReady_iff {set : InSet V} :
    isReady K set = true ↔ ∀ i < K.nInputs, (set i).isSome = true := by
  have hpos := K.inputs
  rw [isReady, isReadyUpTo_iff]
  constructor
  · intro h i hi
    exact h i (by omega)
  · intro h i hi
    exact h i (by omega)

theorem emptyUpTo_iff {c : Component σ V} {m : Nat} :
    c.emptyUpTo m = true ↔ ∀ i ≤ m, c.buffer i = [] := by
  induction m with
  | zero =>
    rw [Component.emptyUpTo, List.isEmpty_iff]
    constructor
    · intro h i hi
      obtain rfl : i = 0 := by omega
      exact h
    · intro h
      exact h 0 (Nat.le_refl 0)
  | succ m ih =>
    rw [Component.emptyUpTo, Bool.and_eq_true, ih, List.isEmpty_iff]
    constructor
    · rintro ⟨hlast, hrest⟩ i hi
      by_cases heq : i = m + 1
      · rw [heq]
        exact hlast
      · exact hrest i (by omega)
    · intro h
      exact ⟨h _ (Nat.le_refl _), fun i hi => h i (by omega)⟩

/-! ## The values for one port -/

/-- The values for one port, in their order. -/
def on {α : Type} (port : Nat) (l : List (Nat × α)) : List α :=
  (l.filter (·.1 = port)).map Prod.snd

section On

variable {α : Type} {port : Nat}

theorem on_append (l₁ l₂ : List (Nat × α)) :
    on port (l₁ ++ l₂) = on port l₁ ++ on port l₂ := by
  rw [on, List.filter_append, List.map_append]
  rfl

theorem on_cons_self (val : α) (outs : List (Nat × α)) :
    on port ((port, val) :: outs) = val :: on port outs := by
  rw [on, List.filter_cons_of_pos (by simp)]
  rfl

theorem on_cons_other {q : Nat} (hne : q ≠ port) (val : α) (outs : List (Nat × α)) :
    on port ((q, val) :: outs) = on port outs := by
  rw [on, List.filter_cons_of_neg (by simpa using hne)]
  rfl

theorem on_append_self (val : α) (l : List (Nat × α)) :
    on port (l ++ [(port, val)]) = on port l ++ [val] := by
  rw [on_append, on_cons_self]
  rfl

theorem on_append_other {q : Nat} (hne : q ≠ port) (val : α) (l : List (Nat × α)) :
    on port (l ++ [(q, val)]) = on port l := by
  rw [on_append, on_cons_other hne]
  exact List.append_nil _

end On

end CharmExperiments.Comex
