import Mathlib.Logic.Function.Basic
import CharmExperiments.Lib.Bytes
import CharmExperiments.Charmlite.Message

/-!
# charmlite: reductions

`archive/charmlite/include/reduction.hh`, with the callbacks of `callback.hh` and
`core.cc`. A reduction sends one message up a tree; on the way the messages of a
node are merged by a combiner, whose id travels in the message itself:
`message::combiner` puts it into the union of `destination`, where the `entry` of an
endpoint would be. A message to a callback has its `callback_fn` in the same union.
So the union is modelled by its bytes (`Destination.impl`); that the id and the
callback leave each other alone is `callbackFn_setCombiner` and `combiner_set`.

The result of a tree is the local message of its root, with the sum of all
contributions below it and nothing else changed (`cmiReduce_sum`).

Mirroring notes:
- `CmiReduce` belongs to Converse. `Tree.cmiReduce` is what is assumed of it: it calls
  the merge function once at each inner node, with the local message and the results
  of the children in the order in which they arrive.
- The functions of the two tables are those that the program takes the ids of. `U` are
  the callbacks it uses `all_reduce` with.
- A union that is constructed anew keeps the bytes that the new member does not have.
- A null function or a null `combiner()` that is used, and a message that is used after
  `message::free`, have no result.
-/

namespace CharmExperiments.Charmlite

open CharmExperiments.Lib

/-! ## Messages to a callback -/

/-- `destination_kind`. -/
inductive DestinationKind
  | kInvalid
  | kCallback
  | kEndpoint
deriving DecidableEq, Repr

/-- `destination`, with the bytes of its union. -/
structure Destination where
  impl : Bytes
  kind : DestinationKind

namespace Destination

/-- `s_callback_fn_::id`, of eight bytes. -/
def callbackId : Field := ⟨0, 8⟩

/-- `s_callback_fn_::pe`, of four bytes. -/
def callbackPe : Field := ⟨8, 4⟩

/-- `s_endpoint_::entry`, behind `collective` and `chare`, which have eight bytes each:
what `offset_` points to. -/
def entry : Field := ⟨8 + 8, 8⟩

/-- `destination(callback_id_t id, int pe)`, constructed in the place of `dst`. -/
def toCallback (dst : Destination) (id : BitVec 64) (pe : BitVec 32) : Destination where
  impl := callbackPe.write (callbackId.write dst.impl id.toNat) pe.toNat
  kind := .kCallback

/-- `callback_fn`: the id and the PE, if the destination is a callback. -/
def callbackFn (dst : Destination) : Option (BitVec 64 × BitVec 32) :=
  if dst.kind = .kCallback then
    some (BitVec.ofNat 64 (callbackId.read dst.impl),
      BitVec.ofNat 32 (callbackPe.read dst.impl))
  else none

end Destination

/-- `data_message<T>`. -/
structure DataMessage (T : Type) where
  hasCombiner : Bool
  dst : Destination
  totalSize : Nat
  value : T

namespace DataMessage

variable {T : Type}

/-- `*message::combiner()`, if that is not null. -/
def combiner (msg : DataMessage T) : Option (BitVec 64) :=
  if msg.hasCombiner then some (BitVec.ofNat 64 (Destination.entry.read msg.dst.impl))
  else none

/-- `*(message::combiner()) = id`. -/
def setCombiner (msg : DataMessage T) (id : BitVec 64) : Option (DataMessage T) :=
  if msg.hasCombiner then
    some { msg with dst := { msg.dst with impl := Destination.entry.write msg.dst.impl id.toNat } }
  else none

end DataMessage

/-! ## The tables of functions -/

/-- What a combiner returns. -/
inductive Combined (T : Type)
  | lhs
  | rhs
  | fresh (msg : DataMessage T)

/-- `combiner_t`: what becomes of the two messages, and which message is returned. -/
abbrev Combiner (T : Type) :=
  DataMessage T → DataMessage T → DataMessage T × DataMessage T × Combined T

/-- `callback_t`: a callback of the program's own, or `all_reduce_impl_` for one. -/
inductive Callback (U : Type)
  | user (u : U)
  | allReduceImpl (u : U)
deriving DecidableEq

/-- `nop`. -/
def nop {T : Type} : Combiner T := fun lhs rhs => (lhs, rhs, .lhs)

/-- `add`. -/
def add {T : Type} [Add T] : Combiner T := fun lhs rhs =>
  ({ lhs with value := lhs.value + rhs.value }, rhs, .lhs)

/-- `combiner_for` and `callback_for`, of an id; null for id 0. -/
def functionFor {F : Type} (table : List F) (id : BitVec 64) : Option F :=
  if id = 0 then none else table[id.toNat - 1]?

/-- `register_function_`: the id, and the table from then on. -/
def registerFunction {F : Type} (table : List F) (t : F) : BitVec 64 × List F :=
  (BitVec.ofNat 64 (table.length + 1), table ++ [t])

/-- A program: the tables, the `id_` of each `combiner_helper_` and `callback_helper_`
that it uses, and that these were registered. -/
structure Program (T U : Type) [Add T] where
  combinerTable : List (Combiner T)
  callbackTable : List (Callback U)
  addId : BitVec 64
  callbackId : Callback U → BitVec 64
  add_registered : functionFor combinerTable addId = some add
  callback_registered : ∀ fn, functionFor callbackTable (callbackId fn) = some fn

/-- What is registered is found under its id, -/
theorem functionFor_register {F : Type} {table : List F} (t : F)
    (h : table.length + 1 < 2 ^ 64) :
    functionFor (registerFunction table t).2 (registerFunction table t).1 = some t := by
  have hid : (BitVec.ofNat 64 (table.length + 1)).toNat = table.length + 1 := by
    rw [BitVec.toNat_ofNat, Nat.mod_eq_of_lt h]
  have hne : BitVec.ofNat 64 (table.length + 1) ≠ 0 := by
    intro heq
    rw [heq] at hid
    cases hid
  show (if BitVec.ofNat 64 (table.length + 1) = 0 then none
    else (table ++ [t])[(BitVec.ofNat 64 (table.length + 1)).toNat - 1]?) = some t
  rw [if_neg hne, hid]
  exact List.getElem?_concat_length

/-- and stays there. -/
theorem functionFor_later {F : Type} {table : List F} {id : BitVec 64} {t : F} (t' : F)
    (h : functionFor table id = some t) :
    functionFor (registerFunction table t').2 id = some t := by
  unfold functionFor at h ⊢
  split
  next hzero =>
    rw [if_pos hzero] at h
    cases h
  next hne =>
    rw [if_neg hne] at h
    exact List.getElem?_append_left (List.getElem?_eq_some_iff.mp h).1 ▸ h

/-! ## Reductions -/

section Reductions

variable {T U : Type} [Add T] (P : Program T U)

/-- `combiner_for(message*)`. -/
def combinerFor (msg : DataMessage T) : Option (Combiner T) :=
  msg.combiner.bind (functionFor P.combinerTable)

/-- The loop of `converse_combiner_`, with what becomes of the remote messages. -/
def combineAll (comb : Combiner T) :
    DataMessage T → List (DataMessage T) → Option (DataMessage T × List (DataMessage T))
  | sum, [] => some (sum, [])
  | lhs, rhs :: remote =>
    match comb lhs rhs with
    | (lhs, rhs, .lhs) => (combineAll comb lhs remote).map fun r => (r.1, rhs :: r.2)
    | (lhs, rhs, .rhs) => (combineAll comb rhs remote).map fun r => (r.1, lhs :: r.2)
    -- the sum is freed, and stays the sum
    | (_, _, .fresh _) => none

/-- `converse_combiner_`: the sum, the remote messages, and the size. -/
def converseCombiner (msg : DataMessage T) (remote : List (DataMessage T)) :
    Option (DataMessage T × List (DataMessage T) × Nat) := do
  let comb := combinerFor P msg
  let (sum, remote) ← if remote = [] then some (msg, [])
    else comb.bind (combineAll · msg remote)
  return (sum, remote, sum.totalSize)

/-- `reduce`, up to `CmiReduce`. -/
def reduce (combinerId callbackId : BitVec 64) (msg : DataMessage T) :
    Option (DataMessage T) :=
  let msg := { msg with dst := msg.dst.toCallback callbackId 0 }
  let msg := { msg with hasCombiner := true }
  msg.setCombiner combinerId

/-- `all_reduce<add<T>, Callback>`, up to `CmiReduce`. -/
def allReduce (u : U) (msg : DataMessage T) : Option (DataMessage T) :=
  reduce P.addId (P.callbackId (.allReduceImpl u)) msg

/-- A tree of PEs, the children of each in the order in which their results arrive. -/
inductive Tree
  | node (pe : Nat) (children : List Tree)

mutual

/-- The PEs of a tree. -/
def Tree.pes : Tree → List Nat
  | .node pe children => pe :: Tree.pesAll children

def Tree.pesAll : List Tree → List Nat
  | [] => []
  | t :: ts => t.pes ++ Tree.pesAll ts

end

mutual

/-- The result of `CmiReduce` at the root, when PE `pe` passes it `local pe`. -/
def Tree.cmiReduce (contributed : Nat → Option (DataMessage T)) :
    Tree → Option (DataMessage T)
  | .node pe [] => contributed pe
  | .node pe (child :: children) => do
    let msg ← contributed pe
    let remote ← Tree.cmiReduceAll contributed (child :: children)
    let (sum, _, _) ← converseCombiner P msg remote
    return sum

def Tree.cmiReduceAll (contributed : Nat → Option (DataMessage T)) :
    List Tree → Option (List (DataMessage T))
  | [] => some []
  | t :: ts => do
    let msg ← t.cmiReduce contributed
    let rest ← Tree.cmiReduceAll contributed ts
    return msg :: rest

end

end Reductions

/-! ## The union keeps both -/

section Union

variable {T : Type}

/-- The callback that a destination was constructed with is read from it. -/
theorem callbackFn_toCallback (dst : Destination) (id : BitVec 64) (pe : BitVec 32) :
    (dst.toCallback id pe).callbackFn = some (id, pe) := by
  have hid : Destination.callbackId.read (dst.toCallback id pe).impl = id.toNat := by
    have hapart : Destination.callbackId.Disjoint Destination.callbackPe :=
      Or.inl (Nat.le_refl 8)
    exact (read_write_disjoint hapart).trans (read_write_same id.isLt)
  have hpe : Destination.callbackPe.read (dst.toCallback id pe).impl = pe.toNat :=
    read_write_same pe.isLt
  unfold Destination.callbackFn
  rw [if_pos (show (dst.toCallback id pe).kind = .kCallback from rfl), hid, hpe,
    BitVec.ofNat_toNat, BitVec.ofNat_toNat, BitVec.setWidth_eq, BitVec.setWidth_eq]

/-- **The id of the combiner leaves the callback as it was,** -/
theorem callbackFn_setCombiner {msg msg' : DataMessage T} {id : BitVec 64}
    (h : msg.setCombiner id = some msg') : msg'.dst.callbackFn = msg.dst.callbackFn := by
  unfold DataMessage.setCombiner at h
  split at h
  next =>
    obtain rfl := Option.some.inj h
    -- the callback has the first twelve bytes, the id begins at the sixteenth
    have hid : Destination.callbackId.Disjoint Destination.entry := Or.inl (by decide)
    have hpe : Destination.callbackPe.Disjoint Destination.entry := Or.inl (by decide)
    unfold Destination.callbackFn
    rw [read_write_disjoint hid, read_write_disjoint hpe]
  next => cases h

/-- and is read where it was put. -/
theorem combiner_set {msg msg' : DataMessage T} {id : BitVec 64}
    (h : msg.setCombiner id = some msg') : msg'.combiner = some id := by
  unfold DataMessage.setCombiner at h
  split at h
  next hhas =>
    obtain rfl := Option.some.inj h
    have hid : Destination.entry.read (Destination.entry.write msg.dst.impl id.toNat) =
        id.toNat :=
      read_write_same id.isLt
    show (if msg.hasCombiner then _ else _) = _
    rw [if_pos hhas, hid, BitVec.ofNat_toNat, BitVec.setWidth_eq]
  next => cases h

end Union

/-! ## The merge of a tree -/

section Merge

variable {T U : Type} [AddCommSemigroup T] {P : Program T U} {u : U}

/-- A message as `all_reduce` passes it to `CmiReduce`. -/
structure Contribution (P : Program T U) (u : U) (msg : DataMessage T) : Prop where
  combiner : msg.combiner = some P.addId
  callback : msg.dst.callbackFn = some (P.callbackId (.allReduceImpl u), 0)

/-- `all_reduce` sets both, whatever was in the message, and keeps its value. -/
theorem allReduce_eq (P : Program T U) (u : U) (msg : DataMessage T) :
    ∃ msg', allReduce P u msg = some msg' ∧ Contribution P u msg' ∧ msg'.value = msg.value := by
  have hset : ({ msg with
        dst := msg.dst.toCallback (P.callbackId (.allReduceImpl u)) 0
        hasCombiner := true } : DataMessage T).setCombiner P.addId = some _ := if_pos rfl
  refine ⟨_, hset, ⟨combiner_set hset, ?_⟩, rfl⟩
  rw [callbackFn_setCombiner hset]
  exact callbackFn_toCallback ..

/-- `add` returns the local message every time, with all values in its own. -/
theorem combineAll_add (remote : List (DataMessage T)) : ∀ msg : DataMessage T, ∃ value,
    combineAll add msg remote = some ({ msg with value := value }, remote) ∧
    (value : WithZero T) = msg.value +
    (remote.map fun m => (m.value : WithZero T)).sum := by
  induction remote with
  | nil => exact fun msg => ⟨msg.value, rfl, (add_zero _).symm⟩
  | cons rhs remote ih =>
    intro msg
    obtain ⟨value, heq, hvalue⟩ := ih { msg with value := msg.value + rhs.value }
    refine ⟨value, ?_, ?_⟩
    · show (combineAll add { msg with value := msg.value + rhs.value } remote).map _ = _
      rw [heq]
      rfl
    · rw [hvalue, List.map_cons, List.sum_cons, WithZero.coe_add, add_assoc]

/-- The merge at a node keeps the local message but for its value. -/
theorem converseCombiner_add {msg : DataMessage T} (h : Contribution P u msg)
    (remote : List (DataMessage T)) : ∃ value,
    converseCombiner P msg remote =
      some ({ msg with value := value }, remote, msg.totalSize) ∧
    (value : WithZero T) = msg.value +
    (remote.map fun m => (m.value : WithZero T)).sum := by
  have hcomb : combinerFor P msg = some add := by
    rw [combinerFor, h.combiner]
    exact P.add_registered
  obtain ⟨value, heq, hvalue⟩ := combineAll_add remote msg
  refine ⟨value, ?_, hvalue⟩
  by_cases hnil : remote = []
  · subst hnil
    obtain ⟨hmsg, _⟩ := Prod.mk.inj (Option.some.inj heq)
    rw [← hmsg]
    rfl
  · simp only [converseCombiner, hcomb, if_neg hnil, Option.bind_some, heq]
    rfl

mutual

/-- **The result of a tree** is the local message of its root, with the sum of what its
PEs contributed. -/
theorem cmiReduce_sum {contributed : Nat → Option (DataMessage T)}
    {msgs : Nat → DataMessage T}
    (hc : ∀ pe, contributed pe = some (msgs pe)) (hm : ∀ pe, Contribution P u (msgs pe)) :
    ∀ t : Tree, ∃ msg, t.cmiReduce P contributed = some msg ∧ Contribution P u msg ∧
      (msg.value : WithZero T) = (t.pes.map fun pe => ((msgs pe).value : WithZero T)).sum
  | .node pe [] => by
    refine ⟨msgs pe, hc pe, hm pe, ?_⟩
    show _ = ((msgs pe).value : WithZero T) + 0
    rw [add_zero]
  | .node pe (child :: children) => by
    obtain ⟨remote, hremote, hsum⟩ := cmiReduceAll_sum hc hm (child :: children)
    obtain ⟨value, heq, hvalue⟩ := converseCombiner_add (hm pe) remote
    refine ⟨{ msgs pe with value := value }, ?_, ⟨(hm pe).combiner, (hm pe).callback⟩, ?_⟩
    · rw [Tree.cmiReduce, hc pe, hremote]
      simp only [Option.bind_eq_bind, Option.bind_some, heq]
      rfl
    · rw [hvalue, hsum, Tree.pes, List.map_cons, List.sum_cons]

theorem cmiReduceAll_sum {contributed : Nat → Option (DataMessage T)}
    {msgs : Nat → DataMessage T}
    (hc : ∀ pe, contributed pe = some (msgs pe)) (hm : ∀ pe, Contribution P u (msgs pe)) :
    ∀ ts : List Tree, ∃ remote, Tree.cmiReduceAll P contributed ts = some remote ∧
      (remote.map fun m => (m.value : WithZero T)).sum =
        ((Tree.pesAll ts).map fun pe => ((msgs pe).value : WithZero T)).sum
  | [] => ⟨[], rfl, rfl⟩
  | t :: ts => by
    obtain ⟨msg, hmsg, _, hvalue⟩ := cmiReduce_sum hc hm t
    obtain ⟨remote, hremote, hsum⟩ := cmiReduceAll_sum hc hm ts
    refine ⟨msg :: remote, ?_, ?_⟩
    · rw [Tree.cmiReduceAll, hmsg, hremote]
      rfl
    · rw [List.map_cons, List.sum_cons, hvalue, hsum, Tree.pesAll, List.map_append,
        List.sum_append]

end

end Merge

end CharmExperiments.Charmlite
