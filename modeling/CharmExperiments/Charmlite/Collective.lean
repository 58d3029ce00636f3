import CharmExperiments.Charmlite.Message
import CharmExperiments.Lib.TreeBroadcast

/-!
# Collectives on one PE

`archive/charmlite/include/collective.hh`, `locmgr.hh`, `proxy.hh` and the
endpoint half of `src/core.cc`: what one PE does with a message, from `deliver`
and `send` down to the entry function and back, as functions on the state of
that PE. They call each other without a bound the source states, so they take
fuel; `Stop.fuel` is the only stop that more fuel can turn into a result.

Mirroring notes:
- `cid` names the collective a member function runs on, `idx` the chare: the
  keys of `collective_table_` and `chares_` stand for the pointers, and for
  `id_`, `parent_` and `index_`, which are set to them once.
- An entry function is what it calls (`Machine.body`), as a function of the PE,
  of everything that happened there and of its message. It owns the message;
  what it sends on is a message of its own.
- `sent` holds what was given to Converse (`CmiSyncSend`, `CmiPushPE`, the
  broadcasts) with the PE it is for.
- `emplace` of a second chare for an index keeps the first; the second, freed
  by `emplace`, still runs its constructor.
- A constructor owns its message too, but `try_deliver` keeps a reference into
  it, `idx`, and reads the index for `flush_buffers` through it afterwards. What
  is read there is what the constructor made of the message
  (`Machine.indexAfter`): the index as it was where the message is kept or its
  bytes are still there, another one where it was sent on.
- Where a flush tries the front of a deque that an outer flush is trying already,
  the front is read as it was.
- `log` records what happened and is read by entry functions only.
-/

namespace CharmExperiments.Charmlite

/-- The mappers a collective is registered with. -/
inductive Mapper
  | default
  | group
  | user (peFor : ChareIndex → Nat)

/-- What a program calls: the methods of the proxies, and `cmk::send`. -/
inductive Call
  /-- `element_proxy::insert`. -/
  | insert (collective : CollectiveIndex) (chare : ChareIndex) (constructor : Nat)
  /-- `element_proxy::send`. -/
  | send (collective : CollectiveIndex) (chare : ChareIndex) (entry : Nat)
  /-- `cmk::send`, for a message to an entry that is no constructor. -/
  | cmkSend (collective : CollectiveIndex) (chare : ChareIndex) (entry : Nat)
  /-- `collective_proxy::construct`. -/
  | constructCollective (kind : Nat)
  /-- `group_proxy::construct`. -/
  | constructGroup (kind constructor : Nat)
deriving DecidableEq, Repr

/-- `collective_proxy_base_::broadcast`. -/
def Call.broadcast (collective : CollectiveIndex) (entry : Nat) : Call :=
  .cmkSend collective chareBcastRoot entry

/-- What happened on a PE. -/
inductive Event
  /-- A call made the message. -/
  | issued (msg : Message)
  /-- `deliver` got the message, or `send` put it into `collective_buffer_`. -/
  | handled (msg : Message)
  /-- `try_deliver` got the message. -/
  | tried (msg : Message)
  /-- `deliver_now` took the message as a broadcast for the root, numbering it. -/
  | rooted (cid : CollectiveIndex) (msg : Message)
  /-- The entry function was called with the message. -/
  | invoked (cid : CollectiveIndex) (idx : ChareIndex) (msg : Message)
  /-- It returned. -/
  | returned (cid : CollectiveIndex) (idx : ChareIndex) (msg : Message)
  /-- `flush_buffers` returned to the constructor branch of `try_deliver`. -/
  | flushed (cid : CollectiveIndex) (idx : ChareIndex)
  /-- A `construct` returned the id. -/
  | constructed (id : CollectiveIndex) (group : Bool)
deriving DecidableEq, Repr

/-- The program and the machine it runs on: `CmiNumPes`, an `int`,
`CmiSpanTreeChildren`, `collective_kinds_` by kind, and the entry functions. -/
structure Machine where
  numPes : Nat
  numPes_lt : numPes < 2 ^ 31
  tree : Lib.SpanTree numPes
  kinds : Nat → Mapper
  body : Nat → List Event → Message → List Call
  /-- What `ep.chare` reads once the constructor that was given the message has
  returned. -/
  indexAfter : Nat → List Event → Message → ChareIndex

/-- `ep.chare = root; ep.bcast = obj->last_bcast_ + 1`, cut to the width of `bcast_id_t`. -/
def Message.numbered (msg : Message) (root : ChareIndex) (lastBcast : BcastId) :
    Message :=
  { msg with chare := root, bcast := lastBcast + 1 }

/-- `chare_base_`. -/
structure Chare where
  lastBcast : BcastId
deriving DecidableEq, Repr

/-- A chare under construction: `last_bcast_` has its initialiser. -/
def Chare.new : Chare := ⟨0⟩

/-- `collective<T, Mapper>`; a missing deque and an empty one are the same. -/
structure Collective where
  mapper : Mapper
  buffers : ChareIndex → List Message
  chares : ChareIndex → Option Chare

def Collective.new (mapper : Mapper) : Collective := ⟨mapper, fun _ => [], fun _ => none⟩

/-- `chares_.emplace`. -/
def Collective.emplace (idx : ChareIndex) (col : Collective) : Collective :=
  match col.chares idx with
  | some _ => col
  | none => { col with chares := Function.update col.chares idx (some .new) }

/-- `buffer_`. -/
def Collective.buffer (msg : Message) (col : Collective) : Collective :=
  { col with buffers := Function.update col.buffers msg.chare (col.buffers msg.chare ++ [msg]) }

/-- `buffer.pop_front()`. -/
def Collective.popFront (idx : ChareIndex) (col : Collective) : Collective :=
  { col with buffers := Function.update col.buffers idx (col.buffers idx).tail }

/-- `base->last_bcast_++`. -/
def Collective.advance (idx : ChareIndex) (col : Collective) : Collective :=
  { col with
    chares := Function.update col.chares idx
      ((col.chares idx).map fun ch => { ch with lastBcast := ch.lastBcast + 1 }) }

/-- The globals of `core.cc` on one PE. -/
structure Pe where
  collectiveTable : CollectiveIndex → Option Collective
  collectiveBuffer : CollectiveIndex → List Message
  localCollectiveCount : BitVec 32
  allocated : Nat
  sent : List (Nat × Message)
  log : List Event

def Pe.init : Pe := ⟨fun _ => none, fun _ => [], 0, 0, [], []⟩

def Pe.record (pe : Pe) (e : Event) : Pe := { pe with log := pe.log ++ [e] }

/-- `send_helper_`, `CmiSyncSendAndFree`. -/
def Pe.push (pe : Pe) (dst : Nat) (msg : Message) : Pe :=
  { pe with sent := pe.sent ++ [(dst, msg)] }

/-- A member function changes its collective. -/
def Pe.modify (pe : Pe) (cid : CollectiveIndex) (f : Collective → Collective) : Pe :=
  { pe with
    collectiveTable :=
      Function.update pe.collectiveTable cid ((pe.collectiveTable cid).map f) }

/-- `collective_buffer_[col].emplace_back(msg)`. -/
def Pe.bufferCollective (pe : Pe) (msg : Message) : Pe :=
  { pe with
    collectiveBuffer := Function.update pe.collectiveBuffer msg.collective
      (pe.collectiveBuffer msg.collective ++ [msg]) }

/-- Why a function does not return. -/
inductive Stop
  | fuel
  /-- A member function was called without its object. -/
  | missing
  /-- `CmiAbort("not implemented.")`. -/
  | abort
  /-- `CmiAssertMsg(ins.second, "insertion did not occur!")`. -/
  | insertion
deriving DecidableEq, Repr

namespace Machine

variable (X : Machine) (me : Nat)

/-- `pe_for`. -/
def peFor (mapper : Mapper) (idx : ChareIndex) : Nat :=
  match mapper with
  | .default => idx.toNat % X.numPes
  | .group => idx.toNat % X.numPes
  | .user peFor => peFor idx

/-- `locmgr::root`. -/
def root (mapper : Mapper) : Except Stop ChareIndex :=
  match mapper with
  | .group => .ok (encode 0)
  | _ => .error .abort

/-- `locmgr::upstream`: the number of children of the PE of `idx`, and then the
children of this PE. -/
def upstream (mapper : Mapper) (idx : ChareIndex) : Except Stop (List ChareIndex) :=
  match mapper with
  | .group =>
    if 0 < (X.tree.children (X.peFor .group idx)).length then
      .ok ((X.tree.children me).map fun pe : Nat => encode pe)
    else .ok []
  | _ => .error .abort

/-- A message of this PE for an endpoint. -/
def newMessage (pe : Pe) (cid : CollectiveIndex) (idx : ChareIndex) (entry : Entry) :
    Message :=
  ⟨⟨me, pe.allocated⟩, false, cid, idx, entry, 0⟩

/-- A proxy allocates a message and fills in its destination. -/
def issue (pe : Pe) (msg : Message) : Pe :=
  { pe with allocated := pe.allocated + 1, log := pe.log ++ [.issued msg] }

/-- `CmiSyncBroadcastAllAndFree` of the message that makes a collective. -/
def sendKind (pe : Pe) (cid : CollectiveIndex) (idx : ChareIndex) (kind : Nat) : Pe :=
  { pe with
    allocated := pe.allocated + 1
    sent := pe.sent ++ (List.range X.numPes).map fun i =>
      (i, ⟨⟨me, pe.allocated⟩, true, cid, idx, ⟨kind, false⟩, 0⟩) }

/-- `broadcast_helper_`: a copy of the constructor message for every PE. -/
def broadcastHelper (pe : Pe) (cid : CollectiveIndex) (constructor : Nat) : Pe :=
  { pe with
    allocated := pe.allocated + 1
    sent := pe.sent ++ ((List.range' 1 (X.numPes - 1)) ++ [0]).map fun i =>
      (i, ⟨⟨me, pe.allocated⟩, false, cid, encode i, ⟨constructor, true⟩, 0⟩) }

/-- `collective_proxy::construct`: the id has the count before. -/
def constructCollective (kind : Nat) (pe : Pe) : Pe :=
  let id : CollectiveIndex := ⟨BitVec.ofNat 32 me, pe.localCollectiveCount⟩
  let pe := { pe with localCollectiveCount := pe.localCollectiveCount + 1 }
  (X.sendKind me pe id (encode all) kind).record (.constructed id false)

/-- `group_proxy::construct`: the id has the count after. -/
def constructGroup (kind constructor : Nat) (pe : Pe) : Pe :=
  let pe := { pe with localCollectiveCount := pe.localCollectiveCount + 1 }
  let id : CollectiveIndex := ⟨BitVec.ofNat 32 me, pe.localCollectiveCount⟩
  (X.broadcastHelper me (X.sendKind me pe id chareBcastRoot kind) id constructor).record
    (.constructed id true)

/-- `deliver_later`. -/
def deliverLater (col : Collective) (pe : Pe) (msg : Message) : Pe :=
  pe.push (X.peFor col.mapper msg.chare) msg

mutual

/-- `collective::flush_buffers`. -/
def flushBuffers : Nat → CollectiveIndex → ChareIndex → Pe → Except Stop Pe
  | 0, _, _, _ => .error .fuel
  | fuel + 1, cid, idx, pe =>
    match pe.collectiveTable cid with
    | none => .error .missing
    | some col =>
      match col.buffers idx with
      | [] => .ok pe
      | msg :: _ => do
        let (done, pe) ← tryDeliver fuel cid msg pe
        if done then flushBuffers fuel cid idx (pe.modify cid (·.popFront idx))
        else .ok pe

/-- `collective::try_deliver`. -/
def tryDeliver : Nat → CollectiveIndex → Message → Pe → Except Stop (Bool × Pe)
  | 0, _, _, _ => .error .fuel
  | fuel + 1, cid, msg, pe =>
    match pe.collectiveTable cid with
    | none => .error .missing
    | some col =>
      let pe := pe.record (.tried msg)
      let idx := msg.chare
      let home := X.peFor col.mapper idx
      if msg.entry.isConstructor && home == me then do
        let pe := pe.modify cid (·.emplace idx)
        let after := X.indexAfter me (pe.record (.invoked cid idx msg)).log msg
        let pe ← invoke fuel cid idx msg pe
        let pe ← flushBuffers fuel cid after pe
        .ok (true, pe.record (.flushed cid idx))
      else
        match col.chares idx with
        | none =>
          if home == me then .ok (false, pe)
          else .ok (true, pe.push home msg)
        | some _ => do
          let pe ← handle fuel cid idx msg pe
          .ok (true, pe)

/-- `collective::handle_`. -/
def handle : Nat → CollectiveIndex → ChareIndex → Message → Pe → Except Stop Pe
  | 0, _, _, _, _ => .error .fuel
  | fuel + 1, cid, idx, msg, pe =>
    match pe.collectiveTable cid with
    | none => .error .missing
    | some col =>
      match col.chares idx with
      | none => .error .missing
      | some ch =>
        if msg.isBroadcast then
          -- compared as int: the successor of 65535 is no bcast_id_t
          if msg.bcast.toNat = ch.lastBcast.toNat + 1 then do
            let pe := pe.modify cid (·.advance idx)
            let children ← X.upstream me col.mapper idx
            let pe := children.foldl
              (fun pe child => X.deliverLater col pe { msg with chare := child }) pe
            let pe ← invoke fuel cid idx msg pe
            flushBuffers fuel cid idx pe
          else .ok (pe.modify cid (·.buffer msg))
        else invoke fuel cid idx msg pe

/-- `(rec->fn_)(obj, msg)`. -/
def invoke : Nat → CollectiveIndex → ChareIndex → Message → Pe → Except Stop Pe
  | 0, _, _, _, _ => .error .fuel
  | fuel + 1, cid, idx, msg, pe => do
    let pe := pe.record (.invoked cid idx msg)
    let pe ← (X.body me pe.log msg).foldlM (fun pe c => perform fuel c pe) pe
    .ok (pe.record (.returned cid idx msg))

/-- A call of a proxy. -/
def perform : Nat → Call → Pe → Except Stop Pe
  | 0, _, _ => .error .fuel
  | fuel + 1, call, pe =>
    match call with
    | .insert cid idx constructor =>
      let msg := newMessage me pe cid idx ⟨constructor, true⟩
      deliverEndpoint fuel true msg (issue pe msg)
    | .send cid idx entry =>
      let msg := newMessage me pe cid idx ⟨entry, false⟩
      deliverEndpoint fuel true msg (issue pe msg)
    | .cmkSend cid idx entry =>
      let msg := newMessage me pe cid idx ⟨entry, false⟩
      deliverEndpoint fuel false msg (issue pe msg)
    | .constructCollective kind => .ok (X.constructCollective me kind pe)
    | .constructGroup kind constructor => .ok (X.constructGroup me kind constructor pe)

/-- `deliver_to_endpoint_`, for a message that makes no collective. -/
def deliverEndpoint : Nat → Bool → Message → Pe → Except Stop Pe
  | 0, _, _, _ => .error .fuel
  | fuel + 1, immediate, msg, pe =>
    match pe.collectiveTable msg.collective with
    | none => .ok ((pe.record (.handled msg)).bufferCollective msg)
    | some col =>
      -- collective::deliver
      if immediate then deliverNow fuel msg.collective msg (pe.record (.handled msg))
      else .ok (X.deliverLater col pe msg)

/-- `collective::deliver_now`. -/
def deliverNow : Nat → CollectiveIndex → Message → Pe → Except Stop Pe
  | 0, _, _, _ => .error .fuel
  | fuel + 1, cid, msg, pe =>
    match pe.collectiveTable cid with
    | none => .error .missing
    | some col =>
      if msg.chare = chareBcastRoot then do
        let root ← root col.mapper
        match col.chares root with
        | none => .ok (pe.push (X.peFor col.mapper root) msg)
        | some obj =>
          let msg := msg.numbered root obj.lastBcast
          handle fuel cid root msg (pe.record (.rooted cid msg))
      else do
        let (done, pe) ← tryDeliver fuel cid msg pe
        if done then .ok pe else .ok (pe.modify cid (·.buffer msg))

end

/-- The loop of `deliver_to_endpoint_` over the messages that came before their
collective. -/
def flushCollectiveBuffer : Nat → CollectiveIndex → Pe → Except Stop Pe
  | 0, _, _ => .error .fuel
  | fuel + 1, cid, pe =>
    match pe.collectiveBuffer cid with
    | [] => .ok pe
    | msg :: rest => do
      let pe := { pe with collectiveBuffer := Function.update pe.collectiveBuffer cid rest }
      let pe ← X.deliverNow me fuel cid msg pe
      flushCollectiveBuffer fuel cid pe

/-- `deliver`: the Converse handler. -/
def deliver (fuel : Nat) (msg : Message) (pe : Pe) : Except Stop Pe :=
  if msg.collectiveKind then
    match pe.collectiveTable msg.collective with
    | some _ => .error .insertion
    | none =>
      let col := Collective.new (X.kinds msg.entry.id)
      let pe := { pe with
        collectiveTable := Function.update pe.collectiveTable msg.collective (some col) }
      X.flushCollectiveBuffer me fuel msg.collective pe
  else X.deliverEndpoint me fuel true msg pe

end Machine

end CharmExperiments.Charmlite
