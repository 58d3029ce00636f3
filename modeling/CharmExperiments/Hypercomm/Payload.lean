import CharmExperiments.Lib.Align
import CharmExperiments.Lib.Bytes
import CharmExperiments.Hypercomm.Workgroup

/-!
# Task payloads as bytes in memory

`archive/path2.0/include/hypercomm/workgroup.hpp`. A `task_message` is one
allocation: an envelope, the struct, and from the next aligned offset on the packed
arguments. It holds a pointer to them, which `task_message::pack` makes relative to
the message and `unpack` absolute again. A `task_payload` owns a message and has a
pointer and a length of its own. It is built from a task message, whose pointer it
takes over, or from a reduction result, whose pointer goes to the storage that
`CkReductionMsg::toTuple` unpacked the tuple element into. `pup` carries that
pointer as an offset from the message, whichever of the two it is.

Mirroring notes:
- Addresses are 64-bit words and pointer arithmetic wraps. A message's bytes are
  counted from where the message pointer points; the envelope lies before them.
- `Charm` is what Charm++ is built with. `CkAllocMsg` leaves the bytes as they are
  (`junk`) and `getTotalsize` counts the envelope and the room after it.
- `pup_size` casts to `int`, and `toMemBuf` aborts where that is not the number of
  bytes it wrote: the `none` of `Charm.packArgs`.
- `CkReductionMsg` has a pack and unpack of its own, for pointers of its own. Its
  bytes are here those that do not depend on where it lies, so both leave them.
- What is read at an address is the message's where that covers it, and otherwise
  whatever the process has there (`Heap`).
-/

namespace CharmExperiments.Hypercomm

open CharmExperiments.Lib

/-- A byte of memory. -/
abbrev Byte := BitVec 8

/-- A pointer, or a `std::uintptr_t`. -/
abbrev Address := BitVec 64

/-- What a process has in memory outside the message at hand. -/
abbrev Heap := Address → Byte

/-- `sizeof(envelope)` and `ALIGN_BYTES`, an `unsigned int`. -/
structure Charm where
  envelope : Nat
  alignBytes : Nat
  envelope_pos : 0 < envelope
  alignBytes_pos : 0 < alignBytes
  alignBytes_lt : alignBytes < 2 ^ 32

/-- `ALIGN_DEFAULT`. -/
def Charm.alignDefault (C : Charm) (n : Nat) : Nat := roundUp C.alignBytes n

/-- `sizeof(task_message)`: `tid` at 0, `kind` at 8, `data` at 16. -/
def sizeofTaskMessage : Nat := 24

/-- Where `task_message::data` lies. -/
def dataField : Field := ⟨16, 8⟩

/-- Which pack and unpack a message has. -/
inductive MessageType
  | task
  | reduction
deriving DecidableEq

/-- `CkMessage`, with its envelope's reference number. -/
structure CkMessage where
  type : MessageType
  address : Address
  room : Nat
  refnum : ContinuationId
  bytes : Bytes

/-- `UsrToEnv(msg)->getTotalsize()`. -/
def Charm.totalsize (C : Charm) (m : CkMessage) : Nat := C.envelope + m.room

namespace CkMessage

/-- `task_message::data`. -/
def data (m : CkMessage) : Address := BitVec.ofNat 64 (dataField.read m.bytes)

/-- An assignment to `task_message::data`. -/
def setData (m : CkMessage) (p : Address) : CkMessage :=
  { m with bytes := dataField.write m.bytes p.toNat }

/-- `task_message::pack` for a task message. -/
def pack (m : CkMessage) : CkMessage :=
  match m.type with
  | .task => m.setData (m.data - m.address)
  | .reduction => m

/-- `task_message::unpack` for a task message. -/
def unpack (m : CkMessage) : CkMessage :=
  match m.type with
  | .task => m.setData (m.address + m.data)
  | .reduction => m

/-- The bytes of the message at another address. -/
def copyTo (m : CkMessage) (a : Address) : CkMessage := { m with address := a }

/-- What the message has at an address, if it covers that. -/
def at? (m : CkMessage) (p : Address) : Option Byte :=
  if (p - m.address).toNat < m.room then some (m.bytes (p - m.address).toNat) else none

/-- `PUP::toMemBuf` with the buffer `data`. -/
def store (m : CkMessage) (bs : List Byte) : CkMessage :=
  let start := (m.data - m.address).toNat
  { m with bytes := fun i =>
      if start ≤ i then (bs[i - start]?).getD (m.bytes i) else m.bytes i }

end CkMessage

/-- `task_message::alloc`. -/
def Charm.alloc (C : Charm) (address : Address) (junk : Bytes) (size : Nat) : CkMessage :=
  let start := C.alignDefault sizeofTaskMessage
  ({ type := .task, address, room := start + size, refnum := 0, bytes := junk } :
    CkMessage).setData (address + BitVec.ofNat 64 start)

/-- `pack(args...)`, where `args` is what `PUP` makes of the arguments. -/
def Charm.packArgs (C : Charm) (address : Address) (junk : Bytes) (args : List Byte) :
    Option CkMessage :=
  if args.length < 2 ^ 31 then some ((C.alloc address junk args.length).store args)
  else none

/-- `CkReduction::tupleElement`. -/
structure TupleElement where
  dataSize : Nat
  data : Address

/-- `task_payload`. -/
structure TaskPayload where
  src : CkMessage
  len : Nat
  data : Address

/-- What `task_payload::pup` writes. -/
structure Puped where
  msg : CkMessage
  len : Nat
  offset : Address

namespace TaskPayload

/-- `task_payload(task_message *)`. -/
def ofTaskMessage (C : Charm) (msg : CkMessage) : TaskPayload :=
  { src := msg, len := C.totalsize msg - sizeofTaskMessage, data := msg.data }

/-- `task_payload(CkReductionMsg *, CkReduction::tupleElement *)`. -/
def ofReductionMsg (msg : CkMessage) (elt : TupleElement) : TaskPayload :=
  { src := msg, len := elt.dataSize, data := elt.data }

/-- `task_payload::id`. -/
def id (p : TaskPayload) : ContinuationId := p.src.refnum

/-- `task_payload::pup` while packing. -/
def pupPacking (p : TaskPayload) : Puped :=
  { msg := p.src.pack, len := p.len, offset := p.data - p.src.address }

/-- `task_payload::pup` while unpacking; the message is rebuilt at `a`. -/
def pupUnpacking (s : Puped) (a : Address) : TaskPayload :=
  { src := (s.msg.copyTo a).unpack, len := s.len, data := a + s.offset }

/-- The payload after its element migrated. -/
def migrate (p : TaskPayload) (a : Address) : TaskPayload := pupUnpacking p.pupPacking a

/-- The byte at `data + i`. -/
def get (heap : Heap) (p : TaskPayload) (i : Nat) : Byte :=
  (p.src.at? (p.data + BitVec.ofNat 64 i)).getD (heap (p.data + BitVec.ofNat 64 i))

/-- What a continuation gets to see of a payload of `n` bytes. -/
def seen (heap : Heap) (n : Nat) (p : TaskPayload) : Payload (List Byte) :=
  ⟨p.id, (List.range n).map (p.get heap)⟩

end TaskPayload

/-- How far what lies `x` after `a` is from `a`. -/
theorem add_sub_base (a x : Address) : a + x - a = x := by
  rw [BitVec.add_comm, BitVec.add_sub_cancel]

/-! ## The layout of a task message -/

theorem sizeof_le_start (C : Charm) : 24 ≤ C.alignDefault sizeofTaskMessage :=
  le_roundUp C.alignBytes_pos

theorem start_lt (C : Charm) : C.alignDefault sizeofTaskMessage < 24 + 2 ^ 32 :=
  Nat.lt_trans (roundUp_lt C.alignBytes_pos) (Nat.add_lt_add_left C.alignBytes_lt _)

namespace CkMessage

@[simp] theorem data_setData (m : CkMessage) (p : Address) : (m.setData p).data = p := by
  have h : dataField.read (dataField.write m.bytes p.toNat) = p.toNat :=
    read_write_same p.isLt
  show BitVec.ofNat 64 (dataField.read (dataField.write m.bytes p.toNat)) = p
  rw [h, BitVec.ofNat_toNat, BitVec.setWidth_eq]

/-- An assignment to `data` reaches the bytes of `data` only. -/
theorem setData_bytes {m : CkMessage} {p : Address} {i : Nat} (h : i < 16 ∨ 24 ≤ i) :
    (m.setData p).bytes i = m.bytes i := by
  refine if_neg fun hin => ?_
  have hlow : 16 ≤ i := hin.1
  have hhigh : i < 16 + 8 := hin.2
  omega

/-- A task message whose pointer goes to the aligned offset, with room for `size`
bytes from there. -/
structure Laid (C : Charm) (size : Nat) (m : CkMessage) : Prop where
  type : m.type = .task
  room : m.room = C.alignDefault sizeofTaskMessage + size
  data : m.data = m.address + BitVec.ofNat 64 (C.alignDefault sizeofTaskMessage)

variable {C : Charm} {size : Nat} {m : CkMessage}

/-- How far into the message `data + i` is. -/
theorem Laid.offset (h : m.Laid C size) {i : Nat} (hi : i < 2 ^ 31) :
    (m.data + BitVec.ofNat 64 i - m.address).toNat =
    C.alignDefault sizeofTaskMessage + i := by
  have hstart := start_lt C
  have hword : m.data + BitVec.ofNat 64 i - m.address =
      BitVec.ofNat 64 (C.alignDefault sizeofTaskMessage + i) := by
    rw [h.data, BitVec.ofNat_add, BitVec.add_assoc, add_sub_base]
  rw [hword, BitVec.toNat_ofNat, Nat.mod_eq_of_lt]
  omega

/-- The pointer goes to the aligned offset. -/
theorem Laid.start (h : m.Laid C size) :
    (m.data - m.address).toNat = C.alignDefault sizeofTaskMessage := by
  have hstart := h.offset (i := 0) (Nat.two_pow_pos 31)
  rwa [BitVec.add_zero, Nat.add_zero] at hstart

/-- Packed, copied to `a`, and unpacked there. -/
def sendTo (m : CkMessage) (a : Address) : CkMessage := (m.pack.copyTo a).unpack

/-! ## What a move keeps -/

/-- Two messages are equal, wherever they lie: all bytes but those of the pointer
are, and the pointer is relative to the message. -/
structure Same (m m' : CkMessage) : Prop where
  type : m'.type = m.type
  room : m'.room = m.room
  refnum : m'.refnum = m.refnum
  bytes : ∀ i, m.type = .reduction ∨ i < 16 ∨ 24 ≤ i → m'.bytes i = m.bytes i
  data : m.type = .task → m'.data - m'.address = m.data - m.address

theorem Same.refl (m : CkMessage) : m.Same m :=
  ⟨rfl, rfl, rfl, fun _ _ => rfl, fun _ => rfl⟩

theorem Same.trans {m' m'' : CkMessage} (h : m.Same m') (h' : m'.Same m'') :
    m.Same m'' where
  type := h'.type.trans h.type
  room := h'.room.trans h.room
  refnum := h'.refnum.trans h.refnum
  bytes i hi := (h'.bytes i (by rwa [h.type])).trans (h.bytes i hi)
  data ht := (h'.data (h.type.trans ht)).trans (h.data ht)

/-- A task message is sent with its pointer relative in between. -/
theorem sendTo_task (ht : m.type = .task) (a : Address) : m.sendTo a =
    ((m.setData (m.data - m.address)).copyTo a).setData (a + (m.data - m.address)) := by
  have hpack : m.pack = m.setData (m.data - m.address) := by rw [pack, ht]
  have ht' : ((m.setData (m.data - m.address)).copyTo a).type = .task := ht
  have hdata : ((m.setData (m.data - m.address)).copyTo a).data = m.data - m.address :=
    data_setData m _
  rw [sendTo, hpack, unpack, ht', hdata]
  rfl

theorem sendTo_reduction (ht : m.type = .reduction) (a : Address) :
    m.sendTo a = m.copyTo a := by
  have hpack : m.pack = m := by rw [pack, ht]
  have ht' : (m.copyTo a).type = .reduction := ht
  rw [sendTo, hpack, unpack, ht']

theorem sendTo_address (m : CkMessage) (a : Address) : (m.sendTo a).address = a := by
  cases ht : m.type with
  | task => rw [sendTo_task ht]; rfl
  | reduction => rw [sendTo_reduction ht]; rfl

/-- **Pack, copy, unpack makes an equal message.** -/
theorem same_sendTo (m : CkMessage) (a : Address) : m.Same (m.sendTo a) := by
  cases ht : m.type with
  | task =>
    rw [sendTo_task ht]
    refine ⟨rfl, rfl, rfl, fun i hi => ?_, fun _ => ?_⟩
    · have hout : i < 16 ∨ 24 ≤ i :=
        hi.resolve_left (by rw [ht]; exact MessageType.noConfusion)
      exact (setData_bytes hout).trans (setData_bytes hout)
    · rw [data_setData]
      exact add_sub_base a _
  | reduction =>
    rw [sendTo_reduction ht]
    exact ⟨rfl, rfl, rfl, fun _ _ => rfl,
      fun h => absurd (ht.symm.trans h) MessageType.noConfusion⟩

/-- An equal message is laid out as the message is. -/
theorem Same.laid {m' : CkMessage} (h : m.Same m') (hl : m.Laid C size) :
    m'.Laid C size where
  type := h.type.trans hl.type
  room := h.room.trans hl.room
  data := by
    have hrel : m'.data - m'.address = m.data - m.address := h.data hl.type
    calc m'.data = m'.address + (m'.data - m'.address) := by
          rw [BitVec.add_comm, BitVec.sub_add_cancel]
      _ = m'.address + (m.data - m.address) := by rw [hrel]
      _ = _ := by rw [hl.data, add_sub_base]

end CkMessage

/-! ## The message `pack(args...)` builds -/

section Built

variable {C : Charm} {address : Address} {junk : Bytes} {args : List Byte} {m : CkMessage}

theorem alloc_laid (C : Charm) (address : Address) (junk : Bytes) (size : Nat) :
    (C.alloc address junk size).Laid C size := ⟨rfl, rfl, CkMessage.data_setData _ _⟩

/-- Storing from the aligned offset on leaves the struct. -/
theorem store_bytes_low (h : m.Laid C args.length) {i : Nat}
    (hi : i < C.alignDefault sizeofTaskMessage) : (m.store args).bytes i = m.bytes i := by
  exact if_neg (by rw [h.start]; omega)

theorem store_bytes_args (h : m.Laid C args.length) {i : Nat} (hi : i < args.length) :
    (m.store args).bytes (C.alignDefault sizeofTaskMessage + i) = args[i] := by
  show (if (m.data - m.address).toNat ≤ _ then _ else _) = _
  rw [h.start, if_pos (Nat.le_add_right _ _), Nat.add_sub_cancel_left,
    List.getElem?_eq_getElem hi, Option.getD_some]

theorem store_laid (h : m.Laid C args.length) : (m.store args).Laid C args.length where
  type := h.type
  room := h.room
  data := by
    have hsize := sizeof_le_start C
    have hread : dataField.read (m.store args).bytes = dataField.read m.bytes :=
      leNat_congr fun i hi => store_bytes_low h (show 16 + i < _ by
        have : i < 8 := hi
        omega)
    show BitVec.ofNat 64 (dataField.read (m.store args).bytes) = _
    rw [hread]
    exact h.data

theorem packArgs_some (h : C.packArgs address junk args = some m) :
    args.length < 2 ^ 31 ∧ m = (C.alloc address junk args.length).store args := by
  rw [Charm.packArgs] at h
  split at h
  next hlt => exact ⟨hlt, (Option.some.inj h).symm⟩
  next => cases h

/-- **What `pack(args...)` builds is laid out for its arguments.** -/
theorem packArgs_laid (h : C.packArgs address junk args = some m) :
    m.Laid C args.length := by
  obtain ⟨-, rfl⟩ := packArgs_some h
  exact store_laid (alloc_laid C address junk args.length)

/-- **The pointer of the payload goes to the packed arguments**, wherever the message
was sent. -/
theorem payload_points (h : C.packArgs address junk args = some m) (a : Address) {i : Nat}
    (hi : i < args.length) :
    (m.sendTo a).at? ((TaskPayload.ofTaskMessage C (m.sendTo a)).data +
      BitVec.ofNat 64 i) =
      some args[i] := by
  obtain ⟨hlt, hm⟩ := packArgs_some h
  have hsame := m.same_sendTo a
  have hlaid : (m.sendTo a).Laid C args.length := hsame.laid (packArgs_laid h)
  have hoff : ((m.sendTo a).data + BitVec.ofNat 64 i - (m.sendTo a).address).toNat =
      C.alignDefault sizeofTaskMessage + i := hlaid.offset (Nat.lt_trans hi hlt)
  have hroom : C.alignDefault sizeofTaskMessage + i < (m.sendTo a).room := by
    rw [hlaid.room]
    omega
  have hsize := sizeof_le_start C
  show (m.sendTo a).at? ((m.sendTo a).data + BitVec.ofNat 64 i) = _
  rw [CkMessage.at?, hoff, if_pos hroom, hsame.bytes _ (.inr (.inr (by omega))), hm]
  exact congrArg some (store_bytes_args (alloc_laid C address junk args.length) hi)

/-- **The length of the payload**: `total_size` was counted from the struct on and
with the envelope, so taking the struct off leaves the envelope and the padding. -/
theorem payload_len (h : C.packArgs address junk args = some m) (a : Address) :
    (TaskPayload.ofTaskMessage C (m.sendTo a)).len =
      C.envelope + (C.alignDefault sizeofTaskMessage - sizeofTaskMessage) +
        args.length := by
  have hroom : (m.sendTo a).room = C.alignDefault sizeofTaskMessage + args.length :=
    ((m.same_sendTo a).laid (packArgs_laid h)).room
  have hsize : sizeofTaskMessage ≤ C.alignDefault sizeofTaskMessage := sizeof_le_start C
  show C.envelope + (m.sendTo a).room - sizeofTaskMessage = _
  omega

end Built

/-- The payload is that of these arguments: its pointer goes to their bytes, its
length is their number, and all it counts is in the message. -/
structure TaskPayload.Exact (args : List Byte) (p : TaskPayload) : Prop where
  points : ∀ i (h : i < args.length),
    p.src.at? (p.data + BitVec.ofNat 64 i) = some args[i]
  len : p.len = args.length
  inside : (p.data - p.src.address).toNat + p.len ≤ p.src.room

/-- The arguments packed at `address` and sent to `a` arrive as their payload. -/
def Charm.Arrives (C : Charm) (address : Address) (junk : Bytes) (args : List Byte)
    (a : Address) : Prop :=
  ∃ m, C.packArgs address junk args = some m ∧
    (TaskPayload.ofTaskMessage C (m.sendTo a)).Exact args

/-- **The payload of a task message counts too many bytes**, whatever its arguments:
the envelope is among them, and there is no such number of bytes after `data`. -/
theorem never_exact (C : Charm) (address : Address) (junk : Bytes) (args : List Byte)
    (a : Address) : ¬ C.Arrives address junk args a := by
  rintro ⟨m, hpack, hexact⟩
  have hlen := payload_len hpack a
  have hpos := C.envelope_pos
  rw [hexact.len] at hlen
  omega

theorem sixteen_lt : 16 < 2 ^ 32 := by decide

/-- 80 bytes of envelope and an alignment to 16 bytes. -/
def charm16 : Charm where
  envelope := 80
  alignBytes := 16
  envelope_pos := Nat.succ_pos 79
  alignBytes_pos := Nat.succ_pos 15
  alignBytes_lt := sixteen_lt

/-- Two bytes of arguments make a payload of 90 bytes. -/
theorem two_bytes_count_ninety :
    ¬ charm16.Arrives 0x1000 (fun _ => 0) [7, 9] 0x2000 ∧
      (charm16.packArgs 0x1000 (fun _ => 0) [7, 9]).map (fun m =>
        (TaskPayload.ofTaskMessage charm16 (m.sendTo 0x2000)).len) = some 90 := by
  have hlen : (charm16.packArgs 0x1000 (fun _ => 0) [7, 9]).map (fun m =>
      (TaskPayload.ofTaskMessage charm16 (m.sendTo 0x2000)).len) = some 90 := by decide
  refine ⟨?_, hlen⟩
  rintro ⟨m, hpack, hexact⟩
  rw [hpack, Option.map_some, hexact.len] at hlen
  exact absurd hlen (by decide)

/-! ## Migration -/

/-- The payload migrates from element to element: where its message is rebuilt each
time, and what else that process has in memory. -/
def TaskPayload.migrations (p : TaskPayload × Heap) (moves : List (Address × Heap)) :
    TaskPayload × Heap :=
  moves.foldl (fun p move => (p.1.migrate move.1, move.2)) p

/-- What a migration keeps of any payload. -/
structure TaskPayload.Moved (p q : TaskPayload) : Prop where
  src : p.src.Same q.src
  len : q.len = p.len
  offset : q.data - q.src.address = p.data - p.src.address

theorem moved_migrate (p : TaskPayload) (a : Address) : p.Moved (p.migrate a) where
  src := p.src.same_sendTo a
  len := rfl
  offset := by
    have haddr : (p.migrate a).src.address = a := p.src.sendTo_address a
    show a + (p.data - p.src.address) - (p.migrate a).src.address = _
    rw [haddr, add_sub_base]

theorem moved_migrations (p : TaskPayload) (heap : Heap) (moves : List (Address × Heap)) :
    p.Moved (TaskPayload.migrations (p, heap) moves).1 := by
  induction moves generalizing p heap with
  | nil => exact ⟨.refl _, rfl, rfl⟩
  | cons move moves ih =>
    -- the distance is relative to the message as it is now, which is what `pup` writes
    have hone := moved_migrate p move.1
    have hrest := ih (p.migrate move.1) move.2
    exact ⟨hone.src.trans hrest.src, hrest.len.trans hone.len,
      hrest.offset.trans hone.offset⟩

namespace TaskPayload

variable {p q : TaskPayload}

/-- Every byte is as far from the message as it was. -/
theorem Moved.offset_add (h : p.Moved q) (i : Nat) :
    q.data + BitVec.ofNat 64 i - q.src.address =
      p.data + BitVec.ofNat 64 i - p.src.address := by
  have hcomm : ∀ x y z : Address, x + y - z = x - z + y := fun x y z => by
    rw [BitVec.sub_eq_add_neg, BitVec.sub_eq_add_neg, BitVec.add_assoc, BitVec.add_comm y,
      BitVec.add_assoc]
  rw [hcomm, hcomm, h.offset]

/-- A byte in the message behind the struct arrives with it. -/
theorem Moved.get_inside (h : p.Moved q) {i : Nat} (heap heap' : Heap)
    (hlow : 24 ≤ (p.data + BitVec.ofNat 64 i - p.src.address).toNat)
    (hroom : (p.data + BitVec.ofNat 64 i - p.src.address).toNat < p.src.room) :
    q.get heap' i = p.get heap i := by
  have hbyte := h.src.bytes _ (.inr (.inr hlow))
  have hroom' : (p.data + BitVec.ofNat 64 i - p.src.address).toNat < q.src.room := by
    rw [h.src.room]
    exact hroom
  rw [get, get, CkMessage.at?, CkMessage.at?, h.offset_add, if_pos hroom,
    if_pos hroom', hbyte]
  rfl

/-- A byte outside the message is looked for at the same distance from its new place,
where it was never put. -/
theorem Moved.get_outside (h : p.Moved q) {i : Nat} (heap : Heap)
    (hout : p.src.at? (p.data + BitVec.ofNat 64 i) = none) :
    q.get heap i = heap (q.data + BitVec.ofNat 64 i) := by
  have hroom : ¬ (p.data + BitVec.ofNat 64 i - p.src.address).toNat < p.src.room := by
    intro hlt
    rw [CkMessage.at?, if_pos hlt] at hout
    cases hout
  have hnone : q.src.at? (q.data + BitVec.ofNat 64 i) = none := by
    rw [CkMessage.at?, h.offset_add, h.src.room]
    exact if_neg hroom
  rw [get, hnone, Option.getD_none]

end TaskPayload

/-! ## The two constructors -/

/-- A task message, as `pack(args...)` lays it out and every move leaves it. -/
structure TaskSource (C : Charm) where
  msg : CkMessage
  size : Nat
  size_lt : size < 2 ^ 31
  laid : msg.Laid C size

/-- A reduction message and the tuple element that was unpacked outside of it. -/
structure ReductionSource where
  msg : CkMessage
  elt : TupleElement
  type : msg.type = .reduction
  apart : ∀ i < elt.dataSize, msg.at? (elt.data + BitVec.ofNat 64 i) = none

theorem far_apart : ∀ i < 4, (CkMessage.mk .reduction 0x1000 64 3 fun _ => 0).at?
    (0x9000 + BitVec.ofNat 64 i) = none := by decide

/-- What a payload is built from. -/
inductive Source (C : Charm)
  | taskMessage (s : TaskSource C)
  | reductionMsg (s : ReductionSource)

namespace Source

variable {C : Charm}

/-- The constructor of `task_payload` for it. -/
def payload : Source C → TaskPayload
  | taskMessage s => .ofTaskMessage C s.msg
  | reductionMsg s => .ofReductionMsg s.msg s.elt

/-- The number of its bytes. -/
def size : Source C → Nat
  | taskMessage s => s.size
  | reductionMsg s => s.elt.dataSize

/-- After any migrations the message is equal, and so are the id and the bytes the
pointer gives. -/
def Survives (s : Source C) (heap : Heap) : Prop :=
  ∀ moves, ∃ q heap', TaskPayload.migrations (s.payload, heap) moves = (q, heap') ∧
    s.payload.src.Same q.src ∧ q.len = s.payload.len ∧
    q.seen heap' s.size = s.payload.seen heap s.size

/-- The bytes of the payload are in its message, or there are none. -/
def Inside : Source C → Prop
  | taskMessage _ => True
  | reductionMsg s => s.elt.dataSize = 0

/-- A message that was sent on is a source as well. -/
def ofPacked {address : Address} {junk : Bytes} {args : List Byte} {m : CkMessage}
    (h : C.packArgs address junk args = some m) (a : Address) : Source C :=
  .taskMessage ⟨m.sendTo a, args.length, (packArgs_some h).1,
    (m.same_sendTo a).laid (packArgs_laid h)⟩

theorem get_eq (s : Source C) (hin : s.Inside) {q : TaskPayload} (h : s.payload.Moved q)
    (heap heap' : Heap) {i : Nat} (hi : i < s.size) :
    q.get heap' i = s.payload.get heap i := by
  cases s with
  | taskMessage s =>
    have hoff := s.laid.offset (Nat.lt_trans hi s.size_lt)
    have hstart := sizeof_le_start C
    have hroom := s.laid.room
    have hsize : i < s.size := hi
    refine h.get_inside heap heap' ?_ ?_
    · show 24 ≤ (s.msg.data + BitVec.ofNat 64 i - s.msg.address).toNat
      rw [hoff]
      omega
    · show (s.msg.data + BitVec.ofNat 64 i - s.msg.address).toNat < s.msg.room
      rw [hoff, hroom]
      omega
  | reductionMsg s =>
    have hnone : s.elt.dataSize = 0 := hin
    have hsize : i < s.elt.dataSize := hi
    omega

theorem seen_eq (s : Source C) (hin : s.Inside) {q : TaskPayload} (h : s.payload.Moved q)
    (heap heap' : Heap) : q.seen heap' s.size = s.payload.seen heap s.size := by
  have hid : q.id = s.payload.id := h.src.refnum
  have hbytes : (List.range s.size).map (q.get heap') =
      (List.range s.size).map (s.payload.get heap) :=
    List.map_inj_left.mpr fun i hi => s.get_eq hin h heap heap' (List.mem_range.mp hi)
  exact congrArg₂ Payload.mk hid hbytes

/-- A result outside its message is lost in one migration: at the new place, at the
same distance from the message, there may be any other byte. -/
theorem lost (s : ReductionSource) (hpos : 0 < s.elt.dataSize) (heap : Heap) :
    ¬ (reductionMsg s : Source C).Survives heap := by
  intro hs
  let p := TaskPayload.ofReductionMsg s.msg s.elt
  -- the new process has another byte wherever the pointer goes
  let heap' : Heap := fun _ => p.get heap 0 + 1
  obtain ⟨q, _, hmoves, -, -, hseen⟩ := hs [(0, heap')]
  obtain ⟨rfl, rfl⟩ := Prod.mk.inj hmoves
  have hnew : (p.migrate 0).get heap' 0 = p.get heap 0 + 1 :=
    (moved_migrate p 0).get_outside heap' (s.apart 0 hpos)
  have hold : (p.migrate 0).get heap' 0 = p.get heap 0 :=
    List.map_inj_left.mp (Payload.mk.inj hseen).2 0 (List.mem_range.mpr hpos)
  have hne : p.get heap 0 + 1 ≠ p.get heap 0 := by
    generalize p.get heap 0 = b
    bv_omega
  exact hne (hnew.symm.trans hold)

/-- **Exactly the payloads with their bytes in the message survive migrations**: all
of task messages, and of reductions those without bytes. -/
theorem survives_iff (s : Source C) (heap : Heap) : s.Survives heap ↔ s.Inside := by
  constructor
  · intro hs
    cases s with
    | taskMessage s => trivial
    | reductionMsg s => exact Nat.eq_zero_of_not_pos fun hpos => lost s hpos heap hs
  · intro hin moves
    have hmoved := moved_migrations s.payload heap moves
    exact ⟨_, _, rfl, hmoved.src, hmoved.len, s.seen_eq hin hmoved heap _⟩

/-- A reduction message of 64 bytes and its four bytes of result. -/
def farResult : ReductionSource where
  msg := { type := .reduction, address := 0x1000, room := 64, refnum := 3, bytes := fun _ => 0 }
  elt := { dataSize := 4, data := 0x9000 }
  type := rfl
  apart := far_apart

/-- **A buffered reduction result does not survive one migration.** -/
theorem farResult_lost : ¬ (reductionMsg farResult : Source charm16).Survives fun _ => 5 :=
  lost farResult (Nat.succ_pos 3) _

/-- What `pack(args...)` packed is what a continuation sees, however often the payload
migrates before. -/
theorem packed_seen {address : Address} {junk : Bytes} {args : List Byte} {m : CkMessage}
    (h : C.packArgs address junk args = some m) (a : Address) (heap : Heap)
    (moves : List (Address × Heap)) :
    ∃ q heap', TaskPayload.migrations (.ofTaskMessage C (m.sendTo a),
      heap) moves = (q, heap') ∧
      q.seen heap' args.length = ⟨m.refnum, args⟩ := by
  have hmoved := moved_migrations (ofPacked h a).payload heap moves
  refine ⟨_, _, rfl, ((ofPacked h a).seen_eq trivial hmoved heap _).trans ?_⟩
  have hid : (TaskPayload.ofTaskMessage C (m.sendTo a)).id = m.refnum :=
    (m.same_sendTo a).refnum
  have hbytes :
    (List.range args.length).map ((TaskPayload.ofTaskMessage C (m.sendTo a)).get heap)
      = args := by
    refine List.ext_getElem (by simp) fun i _ hi => ?_
    rw [List.getElem_map, List.getElem_range, TaskPayload.get]
    show ((m.sendTo a).at? _).getD _ = _
    rw [payload_points h a hi, Option.getD_some]
  exact congrArg₂ Payload.mk hid hbytes

end Source

end CharmExperiments.Hypercomm
