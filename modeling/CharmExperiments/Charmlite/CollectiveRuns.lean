import CharmExperiments.Charmlite.Collective

/-!
# What a PE does with a message, without fuel

`Runs` has one rule for each way through each function of `Collective`, with the
state before, the answer of `try_deliver` (true for the others) and the state
after. It is what enough fuel computes (`run_sound`, `run_complete`); what is
kept by the functions is proved by induction on its derivations.
-/

namespace CharmExperiments.Charmlite

/-! ## Results -/

theorem bind_eq_ok {ε α β : Type} {x : Except ε α} {f : α → Except ε β} {b : β} :
    (x >>= f) = .ok b ↔ ∃ a, x = .ok a ∧ f a = .ok b := by
  cases x <;> simp [bind, Except.bind]

/-- A function on the way: which one, and what it was given. -/
inductive Task
  | flush (cid : CollectiveIndex) (idx : ChareIndex)
  | attempt (cid : CollectiveIndex) (msg : Message)
  | handle (cid : CollectiveIndex) (idx : ChareIndex) (msg : Message)
  | calls (cs : List Call)
  | call (c : Call)
  | endpoint (immediate : Bool) (msg : Message)
  | now (cid : CollectiveIndex) (msg : Message)
  | drain (cid : CollectiveIndex)

/-! ## The PE -/

section Pe

variable {pe : Pe} {e : Event} {dst : Nat} {msg : Message} {cid : CollectiveIndex}
  {f : Collective → Collective}

@[simp] theorem record_collectiveTable :
    (pe.record e).collectiveTable = pe.collectiveTable := rfl
@[simp] theorem record_collectiveBuffer :
    (pe.record e).collectiveBuffer = pe.collectiveBuffer := rfl
@[simp] theorem record_localCollectiveCount :
    (pe.record e).localCollectiveCount = pe.localCollectiveCount := rfl
@[simp] theorem record_allocated : (pe.record e).allocated = pe.allocated := rfl
@[simp] theorem record_sent : (pe.record e).sent = pe.sent := rfl
@[simp] theorem record_log : (pe.record e).log = pe.log ++ [e] := rfl

@[simp] theorem push_collectiveTable :
    (pe.push dst msg).collectiveTable = pe.collectiveTable := rfl
@[simp] theorem push_collectiveBuffer :
    (pe.push dst msg).collectiveBuffer = pe.collectiveBuffer := rfl
@[simp] theorem push_localCollectiveCount :
    (pe.push dst msg).localCollectiveCount = pe.localCollectiveCount := rfl
@[simp] theorem push_allocated : (pe.push dst msg).allocated = pe.allocated := rfl
@[simp] theorem push_sent : (pe.push dst msg).sent = pe.sent ++ [(dst, msg)] := rfl
@[simp] theorem push_log : (pe.push dst msg).log = pe.log := rfl

@[simp] theorem modify_collectiveBuffer :
    (pe.modify cid f).collectiveBuffer = pe.collectiveBuffer := rfl
@[simp] theorem modify_localCollectiveCount :
    (pe.modify cid f).localCollectiveCount = pe.localCollectiveCount := rfl
@[simp] theorem modify_allocated : (pe.modify cid f).allocated = pe.allocated := rfl
@[simp] theorem modify_sent : (pe.modify cid f).sent = pe.sent := rfl
@[simp] theorem modify_log : (pe.modify cid f).log = pe.log := rfl

@[simp] theorem modify_self :
    (pe.modify cid f).collectiveTable cid = (pe.collectiveTable cid).map f :=
  Function.update_self ..

theorem modify_ne {i : CollectiveIndex} (h : i ≠ cid) :
    (pe.modify cid f).collectiveTable i = pe.collectiveTable i :=
      Function.update_of_ne h ..

/-- A member function neither makes nor removes a collective. -/
theorem modify_isSome (i : CollectiveIndex) :
    ((pe.modify cid f).collectiveTable i).isSome = (pe.collectiveTable i).isSome := by
  by_cases h : i = cid
  · subst h
    rw [modify_self, Option.isSome_map]
  · rw [modify_ne h]

@[simp] theorem bufferCollective_collectiveTable :
    (pe.bufferCollective msg).collectiveTable = pe.collectiveTable := rfl
@[simp] theorem bufferCollective_localCollectiveCount :
    (pe.bufferCollective msg).localCollectiveCount = pe.localCollectiveCount := rfl
@[simp] theorem bufferCollective_allocated :
    (pe.bufferCollective msg).allocated = pe.allocated := rfl
@[simp] theorem bufferCollective_sent : (pe.bufferCollective msg).sent = pe.sent := rfl
@[simp] theorem bufferCollective_log : (pe.bufferCollective msg).log = pe.log := rfl

@[simp] theorem bufferCollective_self :
    (pe.bufferCollective msg).collectiveBuffer msg.collective
      = pe.collectiveBuffer msg.collective ++ [msg] := Function.update_self ..

theorem bufferCollective_ne {i : CollectiveIndex} (h : i ≠ msg.collective) :
    (pe.bufferCollective msg).collectiveBuffer i = pe.collectiveBuffer i :=
  Function.update_of_ne h ..

theorem mem_bufferCollective {i : CollectiveIndex} {m : Message}
    (h : m ∈ (pe.bufferCollective msg).collectiveBuffer i) :
    m ∈ pe.collectiveBuffer i ∨ m = msg := by
  by_cases hi : i = msg.collective
  · subst hi
    rw [bufferCollective_self] at h
    simpa using h
  · rw [bufferCollective_ne hi] at h
    exact Or.inl h

end Pe

/-- Events that only tell how far a function has come. -/
inductive Event.Passing : Event → Prop
  | handled (msg : Message) : Passing (.handled msg)
  | tried (msg : Message) : Passing (.tried msg)
  | returned (cid : CollectiveIndex) (idx : ChareIndex) (msg : Message) :
      Passing (.returned cid idx msg)
  | flushed (cid : CollectiveIndex) (idx : ChareIndex) : Passing (.flushed cid idx)

/-! ## The collective -/

section Collective

variable {col : Collective} {i idx : ChareIndex} {msg m : Message}

@[simp] theorem popFront_buffers_self :
    (col.popFront idx).buffers idx = (col.buffers idx).tail := Function.update_self ..

theorem popFront_buffers_ne (h : i ≠ idx) : (col.popFront idx).buffers i =
    col.buffers i :=
  Function.update_of_ne h ..

@[simp] theorem buffer_buffers_self :
    (col.buffer msg).buffers msg.chare = col.buffers msg.chare ++ [msg] :=
      Function.update_self ..

theorem buffer_buffers_ne (h : i ≠ msg.chare) :
    (col.buffer msg).buffers i = col.buffers i :=
  Function.update_of_ne h ..

@[simp] theorem emplace_buffers : (col.emplace idx).buffers = col.buffers := by
  unfold Collective.emplace
  split <;> rfl

theorem mem_popFront (h : m ∈ (col.popFront i).buffers idx) : m ∈ col.buffers idx := by
  by_cases hi : idx = i
  · subst hi
    rw [popFront_buffers_self] at h
    exact List.mem_of_mem_tail h
  · rw [popFront_buffers_ne hi] at h
    exact h

theorem mem_buffer (h : m ∈ (col.buffer msg).buffers idx) : m ∈ col.buffers idx ∨
    m = msg := by
  by_cases hi : idx = msg.chare
  · subst hi
    rw [buffer_buffers_self] at h
    simpa using h
  · rw [buffer_buffers_ne hi] at h
    exact Or.inl h

end Collective

namespace Machine

variable (X : Machine) (me : Nat)

/-- The function a task stands for. -/
def runTask (fuel : Nat) : Task → Pe → Except Stop (Bool × Pe)
  | .flush cid idx, pe => do .ok (true, ← X.flushBuffers me fuel cid idx pe)
  | .attempt cid msg, pe => X.tryDeliver me fuel cid msg pe
  | .handle cid idx msg, pe => do .ok (true, ← X.handle me fuel cid idx msg pe)
  | .calls cs, pe => do .ok (true, ← cs.foldlM (fun pe c => X.perform me fuel c pe) pe)
  | .call c, pe => do .ok (true, ← X.perform me fuel c pe)
  | .endpoint immediate msg, pe => do .ok (true, ← X.deliverEndpoint me fuel immediate msg pe)
  | .now cid msg, pe => do .ok (true, ← X.deliverNow me fuel cid msg pe)
  | .drain cid, pe => do .ok (true, ← X.flushCollectiveBuffer me fuel cid pe)

/-- The copies of a broadcast for the children. -/
def sendCopies (col : Collective) (msg : Message) (children : List ChareIndex) (pe : Pe) :
    Pe :=
  { pe with
    sent := pe.sent ++ children.map fun child =>
      (X.peFor col.mapper child, { msg with chare := child }) }

theorem foldl_deliverLater (col : Collective) (msg : Message) (children : List ChareIndex)
    (pe : Pe) :
    children.foldl (fun pe child => X.deliverLater col pe { msg with chare := child }) pe
      = X.sendCopies col msg children pe := by
  induction children generalizing pe with
  | nil => simp [sendCopies]
  | cons child children ih =>
    rw [List.foldl_cons, ih]
    simp [sendCopies, deliverLater, Pe.push]

/-- What the entry function will call. -/
def bodyOf (cid : CollectiveIndex) (idx : ChareIndex) (msg : Message) (pe : Pe) :
    List Call :=
  X.body me (pe.record (.invoked cid idx msg)).log msg

/-- The index that `try_deliver` finds in the message after the constructor. -/
def indexAfterOf (cid : CollectiveIndex) (idx : ChareIndex) (msg : Message) (pe : Pe) :
    ChareIndex :=
  X.indexAfter me (pe.record (.invoked cid idx msg)).log msg

/-- The root takes the next broadcast: it is numbered, `last_bcast_` advances and
the copies are sent. -/
def rootSends (col : Collective) (root : ChareIndex) (obj : Chare) (msg : Message)
    (children : List ChareIndex) (cid : CollectiveIndex) (pe : Pe) : Pe :=
  X.sendCopies col (msg.numbered root obj.lastBcast) children
    ((pe.record (.rooted cid (msg.numbered root obj.lastBcast))).modify cid
      (·.advance root))

/-- The ways through the functions. -/
inductive Runs : Task → Pe → Bool → Pe → Prop
  | flushEmpty {pe : Pe} {cid : CollectiveIndex} {idx : ChareIndex} {col : Collective} :
      pe.collectiveTable cid = some col → col.buffers idx = [] →
      Runs (.flush cid idx) pe true pe
  | flushFront {pe pe₁ pe₂ : Pe} {cid : CollectiveIndex} {idx : ChareIndex}
    {col : Collective}
      {msg : Message} {rest : List Message} :
      pe.collectiveTable cid = some col → col.buffers idx = msg :: rest →
      Runs (.attempt cid msg) pe true pe₁ →
      Runs (.flush cid idx) (pe₁.modify cid (·.popFront idx)) true pe₂ →
      Runs (.flush cid idx) pe true pe₂
  | flushStop {pe pe₁ : Pe} {cid : CollectiveIndex} {idx : ChareIndex} {col : Collective}
      {msg : Message} {rest : List Message} :
      pe.collectiveTable cid = some col → col.buffers idx = msg :: rest →
      Runs (.attempt cid msg) pe false pe₁ → Runs (.flush cid idx) pe true pe₁
  | construct {pe pe₁ pe₂ : Pe} {cid : CollectiveIndex} {msg : Message}
    {col : Collective} :
      pe.collectiveTable cid = some col → msg.entry.isConstructor = true →
      X.peFor col.mapper msg.chare = me →
      Runs (.calls (X.bodyOf me cid msg.chare msg
          ((pe.record (.tried msg)).modify cid (·.emplace msg.chare))))
        (((pe.record (.tried msg)).modify cid (·.emplace msg.chare)).record
          (.invoked cid msg.chare msg)) true pe₁ →
      Runs (.flush cid (X.indexAfterOf me cid msg.chare msg
          ((pe.record (.tried msg)).modify cid (·.emplace msg.chare))))
        (pe₁.record (.returned cid msg.chare msg)) true pe₂ →
      Runs (.attempt cid msg) pe true (pe₂.record (.flushed cid msg.chare))
  | absent {pe : Pe} {cid : CollectiveIndex} {msg : Message} {col : Collective} :
      pe.collectiveTable cid = some col → msg.entry.isConstructor = false →
      col.chares msg.chare = none → X.peFor col.mapper msg.chare = me →
      Runs (.attempt cid msg) pe false (pe.record (.tried msg))
  | forward {pe : Pe} {cid : CollectiveIndex} {msg : Message} {col : Collective} :
      pe.collectiveTable cid = some col → X.peFor col.mapper msg.chare ≠ me →
      col.chares msg.chare = none →
      Runs (.attempt cid msg) pe true
        ((pe.record (.tried msg)).push (X.peFor col.mapper msg.chare) msg)
  | present {pe pe₁ : Pe} {cid : CollectiveIndex} {msg : Message} {col : Collective}
      {ch : Chare} :
      pe.collectiveTable cid = some col →
      ¬ (msg.entry.isConstructor = true ∧ X.peFor col.mapper msg.chare = me) →
      col.chares msg.chare = some ch →
      Runs (.handle cid msg.chare msg) (pe.record (.tried msg)) true pe₁ →
      Runs (.attempt cid msg) pe true pe₁
  | inOrder {pe pe₁ pe₂ : Pe} {cid : CollectiveIndex} {idx : ChareIndex} {msg : Message}
      {col : Collective} {ch : Chare} {children : List ChareIndex} :
      pe.collectiveTable cid = some col → col.chares idx = some ch →
      msg.isBroadcast = true → msg.bcast.toNat = ch.lastBcast.toNat + 1 →
      X.upstream me col.mapper idx = .ok children →
      Runs (.calls (X.bodyOf me cid idx msg
          (X.sendCopies col msg children (pe.modify cid (·.advance idx)))))
        ((X.sendCopies col msg children (pe.modify cid (·.advance idx))).record
          (.invoked cid idx msg)) true pe₁ →
      Runs (.flush cid idx) (pe₁.record (.returned cid idx msg)) true pe₂ →
      Runs (.handle cid idx msg) pe true pe₂
  | outOfOrder {pe : Pe} {cid : CollectiveIndex} {idx : ChareIndex} {msg : Message}
      {col : Collective} {ch : Chare} :
      pe.collectiveTable cid = some col → col.chares idx = some ch →
      msg.isBroadcast = true → msg.bcast.toNat ≠ ch.lastBcast.toNat + 1 →
      Runs (.handle cid idx msg) pe true (pe.modify cid (·.buffer msg))
  | plain {pe pe₁ : Pe} {cid : CollectiveIndex} {idx : ChareIndex} {msg : Message}
      {col : Collective} {ch : Chare} :
      pe.collectiveTable cid = some col → col.chares idx = some ch →
        msg.isBroadcast = false →
      Runs (.calls (X.bodyOf me cid idx msg pe))
        (pe.record (.invoked cid idx msg)) true pe₁ →
      Runs (.handle cid idx msg) pe true (pe₁.record (.returned cid idx msg))
  | callsNil {pe : Pe} : Runs (.calls []) pe true pe
  | callsCons {pe pe₁ pe₂ : Pe} {c : Call} {cs : List Call} :
      Runs (.call c) pe true pe₁ → Runs (.calls cs) pe₁ true pe₂ →
      Runs (.calls (c :: cs)) pe true pe₂
  | callInsert {pe pe₁ : Pe} {cid : CollectiveIndex} {idx : ChareIndex}
    {constructor : Nat} :
      Runs (.endpoint true (newMessage me pe cid idx ⟨constructor, true⟩))
        (issue pe (newMessage me pe cid idx ⟨constructor, true⟩)) true pe₁ →
      Runs (.call (.insert cid idx constructor)) pe true pe₁
  | callSend {pe pe₁ : Pe} {cid : CollectiveIndex} {idx : ChareIndex} {entry : Nat} :
      Runs (.endpoint true (newMessage me pe cid idx ⟨entry, false⟩))
        (issue pe (newMessage me pe cid idx ⟨entry, false⟩)) true pe₁ →
      Runs (.call (.send cid idx entry)) pe true pe₁
  | callCmkSend {pe pe₁ : Pe} {cid : CollectiveIndex} {idx : ChareIndex} {entry : Nat} :
      Runs (.endpoint false (newMessage me pe cid idx ⟨entry, false⟩))
        (issue pe (newMessage me pe cid idx ⟨entry, false⟩)) true pe₁ →
      Runs (.call (.cmkSend cid idx entry)) pe true pe₁
  | callCollective {pe : Pe} {kind : Nat} :
      Runs (.call (.constructCollective kind)) pe true (X.constructCollective me kind pe)
  | callGroup {pe : Pe} {kind constructor : Nat} :
      Runs (.call (.constructGroup kind constructor)) pe true
        (X.constructGroup me kind constructor pe)
  | endpointAbsent {pe : Pe} {immediate : Bool} {msg : Message} :
      pe.collectiveTable msg.collective = none →
      Runs (.endpoint immediate msg) pe true
        ((pe.record (.handled msg)).bufferCollective msg)
  | endpointNow {pe pe₁ : Pe} {msg : Message} {col : Collective} :
      pe.collectiveTable msg.collective = some col →
      Runs (.now msg.collective msg) (pe.record (.handled msg)) true pe₁ →
      Runs (.endpoint true msg) pe true pe₁
  | endpointLater {pe : Pe} {msg : Message} {col : Collective} :
      pe.collectiveTable msg.collective = some col →
      Runs (.endpoint false msg) pe true (X.deliverLater col pe msg)
  | nowRootAbsent {pe : Pe} {cid : CollectiveIndex} {msg : Message} {col : Collective}
      {root : ChareIndex} :
      pe.collectiveTable cid = some col → msg.chare = chareBcastRoot →
      Machine.root col.mapper = .ok root → col.chares root = none →
      Runs (.now cid msg) pe true (pe.push (X.peFor col.mapper root) msg)
  | nowRootNext {pe pe₁ pe₂ : Pe} {cid : CollectiveIndex} {msg : Message}
    {col : Collective}
      {root : ChareIndex} {obj : Chare} {children : List ChareIndex} :
      pe.collectiveTable cid = some col → msg.chare = chareBcastRoot →
      Machine.root col.mapper = .ok root → col.chares root = some obj →
      obj.lastBcast.toNat + 1 < 2 ^ 16 → X.upstream me col.mapper root = .ok children →
      Runs (.calls (X.bodyOf me cid root (msg.numbered root obj.lastBcast)
          (X.rootSends col root obj msg children cid pe)))
        ((X.rootSends col root obj msg children cid pe).record
          (.invoked cid root (msg.numbered root obj.lastBcast))) true pe₁ →
      Runs (.flush cid root)
        (pe₁.record (.returned cid root (msg.numbered root obj.lastBcast))) true pe₂ →
      Runs (.now cid msg) pe true pe₂
  | nowRootWrapped {pe pe₁ : Pe} {cid : CollectiveIndex} {msg : Message}
    {col : Collective}
      {root : ChareIndex} {obj : Chare} :
      pe.collectiveTable cid = some col → msg.chare = chareBcastRoot →
      Machine.root col.mapper = .ok root → col.chares root = some obj →
      obj.lastBcast.toNat + 1 = 2 ^ 16 →
      Runs (.calls (X.bodyOf me cid root (msg.numbered root obj.lastBcast)
          (pe.record (.rooted cid (msg.numbered root obj.lastBcast)))))
        ((pe.record (.rooted cid (msg.numbered root obj.lastBcast))).record
          (.invoked cid root (msg.numbered root obj.lastBcast))) true pe₁ →
      Runs (.now cid msg) pe true
        (pe₁.record (.returned cid root (msg.numbered root obj.lastBcast)))
  | nowDone {pe pe₁ : Pe} {cid : CollectiveIndex} {msg : Message} {col : Collective} :
      pe.collectiveTable cid = some col → msg.chare ≠ chareBcastRoot →
      Runs (.attempt cid msg) pe true pe₁ → Runs (.now cid msg) pe true pe₁
  | nowBuffer {pe pe₁ : Pe} {cid : CollectiveIndex} {msg : Message} {col : Collective} :
      pe.collectiveTable cid = some col → msg.chare ≠ chareBcastRoot →
      Runs (.attempt cid msg) pe false pe₁ →
      Runs (.now cid msg) pe true (pe₁.modify cid (·.buffer msg))
  | drainNil {pe : Pe} {cid : CollectiveIndex} :
      pe.collectiveBuffer cid = [] → Runs (.drain cid) pe true pe
  | drainCons {pe pe₁ pe₂ : Pe} {cid : CollectiveIndex} {msg : Message} {rest : List Message} :
      pe.collectiveBuffer cid = msg :: rest →
      Runs (.now cid msg)
        { pe with collectiveBuffer := Function.update pe.collectiveBuffer cid rest } true pe₁ →
      Runs (.drain cid) pe₁ true pe₂ → Runs (.drain cid) pe true pe₂

variable {X me}

/-! ## What fuel computes is a run -/

/-- The functions other than `try_deliver` answer with a state. -/
theorem answer_eq_ok {x : Except Stop Pe} {done : Bool} {pe : Pe} :
    (do .ok (true, ← x)) = Except.ok (ε := Stop) (done, pe) ↔ done = true ∧
    x = .ok pe := by
  rw [bind_eq_ok]
  constructor
  · rintro ⟨a, rfl, h⟩
    obtain ⟨rfl, rfl⟩ := Prod.mk.inj (Except.ok.inj h)
    exact ⟨rfl, rfl⟩
  · rintro ⟨rfl, rfl⟩
    exact ⟨pe, rfl, rfl⟩

/-- An entry function that returned has made its calls. -/
theorem invoke_eq_ok {fuel : Nat} {cid : CollectiveIndex} {idx : ChareIndex}
    {msg : Message}
    {pe pe' : Pe} :
    X.invoke me (fuel + 1) cid idx msg pe = .ok pe' ↔
      ∃ pe₁, X.runTask me fuel (.calls (X.bodyOf me cid idx msg pe))
          (pe.record (.invoked cid idx msg)) = .ok (true, pe₁) ∧
        pe' = pe₁.record (.returned cid idx msg) := by
  rw [invoke, bind_eq_ok]
  constructor
  · rintro ⟨pe₁, hcalls, h⟩
    exact ⟨pe₁, answer_eq_ok.mpr ⟨rfl, hcalls⟩, (Except.ok.inj h).symm⟩
  · rintro ⟨pe₁, hcalls, rfl⟩
    exact ⟨pe₁, (answer_eq_ok.mp hcalls).2, rfl⟩

/-- The root of a group, and so no broadcast index. -/
theorem root_eq {mapper : Mapper} {root : ChareIndex}
    (h : Machine.root mapper = .ok root) :
    mapper = .group ∧ root = encode 0 := by
  cases mapper with
  | group => exact ⟨rfl, (Except.ok.inj h).symm⟩
  | _ => cases h

theorem numbered_isBroadcast (msg : Message) (last : BcastId) :
    (msg.numbered (encode 0) last).isBroadcast = (last + 1 != 0) := by
  have hroot : (encode 0 == chareBcastRoot) = false := by decide
  simp [Message.isBroadcast, Message.numbered, hroot]

theorem toNat_next {last : BcastId} (h : last.toNat + 1 < 2 ^ 16) :
    (last + 1).toNat = last.toNat + 1 := by
  rw [BitVec.toNat_add, show (1 : BcastId).toNat = 1 from rfl, Nat.mod_eq_of_lt h]

/-- What the root numbers is next in order for the root, -/
theorem numbered_next {msg : Message} {last : BcastId} (h : last.toNat + 1 < 2 ^ 16) :
    (msg.numbered (encode 0) last).isBroadcast = true ∧
      (msg.numbered (encode 0) last).bcast.toNat = last.toNat + 1 := by
  refine ⟨?_, toNat_next h⟩
  rw [numbered_isBroadcast, bne_iff_ne]
  intro hzero
  have hnext := toNat_next h
  rw [hzero] at hnext
  cases hnext

/-- or, after 65535, no broadcast. -/
theorem numbered_wrapped {msg : Message} {last : BcastId} (h : last.toNat + 1 = 2 ^ 16) :
    (msg.numbered (encode 0) last).isBroadcast = false := by
  rw [numbered_isBroadcast, bne_eq_false_iff_eq]
  apply BitVec.eq_of_toNat_eq
  rw [BitVec.toNat_add, show (1 : BcastId).toNat = 1 from rfl, h, Nat.mod_self]
  rfl

/-- The root's `handle_`, for a broadcast it numbered. -/
theorem runs_nowRoot {pe pe' : Pe} {cid : CollectiveIndex} {msg : Message}
    {col : Collective}
    {root : ChareIndex} {obj : Chare} (hcol : pe.collectiveTable cid = some col)
    (hbcast : msg.chare = chareBcastRoot) (hroot : Machine.root col.mapper = .ok root)
    (hsome : col.chares root = some obj)
    (h : X.Runs me (.handle cid root (msg.numbered root obj.lastBcast))
      (pe.record (.rooted cid (msg.numbered root obj.lastBcast))) true pe') :
    X.Runs me (.now cid msg) pe true pe' := by
  obtain ⟨hgroup, rfl⟩ := root_eq hroot
  -- what the root has just numbered is in order for it, or has wrapped to no broadcast
  cases h with
  | inOrder hcol' hch hb horder hup hcalls hflush =>
    obtain rfl := Option.some.inj (hcol.symm.trans hcol')
    obtain rfl := Option.some.inj (hsome.symm.trans hch)
    by_cases hlt : obj.lastBcast.toNat + 1 < 2 ^ 16
    · exact .nowRootNext hcol hbcast hroot hsome hlt hup hcalls hflush
    · have hlast := obj.lastBcast.isLt
      rw [numbered_wrapped (by omega)] at hb
      cases hb
  | outOfOrder hcol' hch hb horder =>
    obtain rfl := Option.some.inj (hcol.symm.trans hcol')
    obtain rfl := Option.some.inj (hsome.symm.trans hch)
    by_cases hlt : obj.lastBcast.toNat + 1 < 2 ^ 16
    · exact absurd (numbered_next hlt).2 horder
    · have hlast := obj.lastBcast.isLt
      rw [numbered_wrapped (by omega)] at hb
      cases hb
  | plain hcol' hch hb hcalls =>
    obtain rfl := Option.some.inj (hcol.symm.trans hcol')
    obtain rfl := Option.some.inj (hsome.symm.trans hch)
    by_cases hlt : obj.lastBcast.toNat + 1 < 2 ^ 16
    · rw [(numbered_next hlt).1] at hb
      cases hb
    · have hlast := obj.lastBcast.isLt
      exact .nowRootWrapped hcol hbcast hroot hsome (by omega) hcalls

/-- What less fuel computes is a run. -/
def SoundBelow (X : Machine) (me fuel : Nat) : Prop :=
  ∀ m < fuel, ∀ task pe done pe', X.runTask me m task pe = .ok (done, pe') →
    X.Runs me task pe done pe'

section Sound

variable {fuel : Nat} {cid : CollectiveIndex} {idx : ChareIndex}
  {msg : Message} {pe pe' : Pe}
  {done : Bool}

theorem SoundBelow.last (ih : X.SoundBelow me (fuel + 1)) {task : Task}
    (h : X.runTask me fuel task pe = .ok (done, pe')) : X.Runs me task pe done pe' :=
  ih fuel (Nat.lt_succ_self _) _ _ _ _ h

theorem run_invoke (ih : X.SoundBelow me (fuel + 1))
    (h : X.invoke me fuel cid idx msg pe = .ok pe') :
    ∃ pe₁, X.Runs me (.calls (X.bodyOf me cid idx msg pe)) (pe.record (.invoked cid idx msg))
      true pe₁ ∧ pe' = pe₁.record (.returned cid idx msg) := by
  cases fuel with
  | zero => simp [invoke] at h
  | succ fuel =>
    obtain ⟨pe₁, hcalls, rfl⟩ := invoke_eq_ok.mp h
    exact ⟨pe₁, ih fuel (by omega) _ _ _ _ hcalls, rfl⟩

theorem run_perform (ih : X.SoundBelow me fuel) {c : Call}
    (h : X.perform me fuel c pe = .ok pe') : X.Runs me (.call c) pe true pe' := by
  cases fuel with
  | zero => simp [perform] at h
  | succ fuel =>
    cases c with
    | insert cid idx constructor =>
      exact .callInsert (ih.last (answer_eq_ok.mpr ⟨rfl, h⟩))
    | send cid idx entry =>
      exact .callSend (ih.last (answer_eq_ok.mpr ⟨rfl, h⟩))
    | cmkSend cid idx entry =>
      exact .callCmkSend (ih.last (answer_eq_ok.mpr ⟨rfl, h⟩))
    | constructCollective kind =>
      obtain rfl := Except.ok.inj h
      exact .callCollective
    | constructGroup kind constructor =>
      obtain rfl := Except.ok.inj h
      exact .callGroup

theorem run_calls (ih : X.SoundBelow me fuel) {cs : List Call}
    (h : cs.foldlM (fun pe c => X.perform me fuel c pe) pe = .ok pe') :
    X.Runs me (.calls cs) pe true pe' := by
  induction cs generalizing pe with
  | nil =>
    obtain rfl : pe = pe' := Except.ok.inj h
    exact .callsNil
  | cons c cs ihcs =>
    rw [List.foldlM_cons, bind_eq_ok] at h
    obtain ⟨pe₁, hc, hcs⟩ := h
    exact .callsCons (run_perform ih hc) (ihcs hcs)

theorem run_flush (ih : X.SoundBelow me fuel)
    (h : X.flushBuffers me fuel cid idx pe = .ok pe') :
    X.Runs me (.flush cid idx) pe true pe' := by
  cases fuel with
  | zero => simp [flushBuffers] at h
  | succ fuel =>
    rw [flushBuffers] at h
    split at h
    next => cases h
    next col hcol =>
      split at h
      next hempty =>
        obtain rfl := Except.ok.inj h
        exact .flushEmpty hcol hempty
      next msg rest hfront =>
        rw [bind_eq_ok] at h
        obtain ⟨⟨b, pe₁⟩, hattempt, h⟩ := h
        dsimp only at h
        split at h
        next hb =>
          subst hb
          exact .flushFront hcol hfront (ih.last hattempt)
            (ih.last (answer_eq_ok.mpr ⟨rfl, h⟩))
        next hb =>
          obtain rfl := Except.ok.inj h
          obtain rfl := Bool.eq_false_iff.mpr hb
          exact .flushStop hcol hfront (ih.last hattempt)

theorem run_attempt (ih : X.SoundBelow me fuel)
    (h : X.tryDeliver me fuel cid msg pe = .ok (done, pe')) :
    X.Runs me (.attempt cid msg) pe done pe' := by
  cases fuel with
  | zero => simp [tryDeliver] at h
  | succ fuel =>
    rw [tryDeliver] at h
    split at h
    next => cases h
    next col hcol =>
      dsimp only at h
      split at h
      next hctor =>
        rw [Bool.and_eq_true, beq_iff_eq] at hctor
        rw [bind_eq_ok] at h
        obtain ⟨pe₁, hinvoke, h⟩ := h
        rw [bind_eq_ok] at h
        obtain ⟨pe₂, hflush, h⟩ := h
        obtain ⟨rfl, rfl⟩ := Prod.mk.inj (Except.ok.inj h)
        obtain ⟨pe₃, hcalls, rfl⟩ := run_invoke ih hinvoke
        exact .construct hcol hctor.1 hctor.2 hcalls
          (ih.last (answer_eq_ok.mpr ⟨rfl, hflush⟩))
      next hctor =>
        rw [Bool.and_eq_true, beq_iff_eq] at hctor
        split at h
        next hnone =>
          split at h
          next hhome =>
            obtain ⟨rfl, rfl⟩ := Prod.mk.inj (Except.ok.inj h)
            rw [beq_iff_eq] at hhome
            exact .absent hcol (Bool.eq_false_iff.mpr fun hc =>
              hctor ⟨hc, hhome⟩) hnone hhome
          next hhome =>
            obtain ⟨rfl, rfl⟩ := Prod.mk.inj (Except.ok.inj h)
            rw [beq_iff_eq] at hhome
            exact .forward hcol hhome hnone
        next ch hsome =>
          rw [bind_eq_ok] at h
          obtain ⟨pe₁, hhandle, h⟩ := h
          obtain ⟨rfl, rfl⟩ := Prod.mk.inj (Except.ok.inj h)
          exact .present hcol hctor hsome (ih.last (answer_eq_ok.mpr ⟨rfl, hhandle⟩))

theorem run_handle (ih : X.SoundBelow me fuel)
    (h : X.handle me fuel cid idx msg pe = .ok pe') :
    X.Runs me (.handle cid idx msg) pe true pe' := by
  cases fuel with
  | zero => simp [handle] at h
  | succ fuel =>
    rw [handle] at h
    split at h
    next => cases h
    next col hcol =>
      split at h
      next => cases h
      next ch hch =>
        split at h
        next hbcast =>
          split at h
          next horder =>
            rw [bind_eq_ok] at h
            obtain ⟨children, hup, h⟩ := h
            rw [foldl_deliverLater, bind_eq_ok] at h
            obtain ⟨pe₁, hinvoke, h⟩ := h
            obtain ⟨pe₂, hcalls, rfl⟩ := run_invoke ih hinvoke
            exact .inOrder hcol hch hbcast horder hup hcalls
              (ih.last (answer_eq_ok.mpr ⟨rfl, h⟩))
          next horder =>
            obtain rfl := Except.ok.inj h
            exact .outOfOrder hcol hch hbcast horder
        next hplain =>
          obtain ⟨pe₁, hcalls, rfl⟩ := run_invoke ih h
          exact .plain hcol hch (Bool.eq_false_iff.mpr hplain) hcalls

theorem run_endpoint (ih : X.SoundBelow me fuel) {immediate : Bool}
    (h : X.deliverEndpoint me fuel immediate msg pe = .ok pe') :
    X.Runs me (.endpoint immediate msg) pe true pe' := by
  cases fuel with
  | zero => simp [deliverEndpoint] at h
  | succ fuel =>
    rw [deliverEndpoint] at h
    split at h
    next hcol =>
      obtain rfl := Except.ok.inj h
      exact .endpointAbsent hcol
    next col hcol =>
      split at h
      next himm =>
        subst himm
        exact .endpointNow hcol (ih.last (answer_eq_ok.mpr ⟨rfl, h⟩))
      next himm =>
        obtain rfl := Except.ok.inj h
        obtain rfl := Bool.eq_false_iff.mpr himm
        exact .endpointLater hcol

theorem run_now (ih : X.SoundBelow me fuel)
    (h : X.deliverNow me fuel cid msg pe = .ok pe') :
    X.Runs me (.now cid msg) pe true pe' := by
  cases fuel with
  | zero => simp [deliverNow] at h
  | succ fuel =>
    rw [deliverNow] at h
    split at h
    next => cases h
    next col hcol =>
      split at h
      next hbcast =>
        rw [bind_eq_ok] at h
        obtain ⟨root, hroot, h⟩ := h
        split at h
        next hnone =>
          obtain rfl := Except.ok.inj h
          exact .nowRootAbsent hcol hbcast hroot hnone
        next obj hsome =>
          dsimp only at h
          exact runs_nowRoot hcol hbcast hroot hsome (ih.last (answer_eq_ok.mpr ⟨rfl, h⟩))
      next hbcast =>
        rw [bind_eq_ok] at h
        obtain ⟨⟨b, pe₁⟩, hattempt, h⟩ := h
        dsimp only at h
        split at h
        next hb =>
          subst hb
          obtain rfl := Except.ok.inj h
          exact .nowDone hcol hbcast (ih.last hattempt)
        next hb =>
          obtain rfl := Except.ok.inj h
          obtain rfl := Bool.eq_false_iff.mpr hb
          exact .nowBuffer hcol hbcast (ih.last hattempt)

theorem run_drain (ih : X.SoundBelow me fuel)
    (h : X.flushCollectiveBuffer me fuel cid pe = .ok pe') :
    X.Runs me (.drain cid) pe true pe' := by
  cases fuel with
  | zero => simp [flushCollectiveBuffer] at h
  | succ fuel =>
    rw [flushCollectiveBuffer] at h
    split at h
    next hempty =>
      obtain rfl := Except.ok.inj h
      exact .drainNil hempty
    next msg rest hfront =>
      rw [bind_eq_ok] at h
      obtain ⟨pe₁, hnow, h⟩ := h
      exact .drainCons hfront (ih.last (answer_eq_ok.mpr ⟨rfl, hnow⟩))
        (ih.last (answer_eq_ok.mpr ⟨rfl, h⟩))

end Sound

theorem run_sound (fuel : Nat) : ∀ {task : Task} {pe pe' : Pe} {done : Bool},
    X.runTask me fuel task pe = .ok (done, pe') → X.Runs me task pe done pe' := by
  induction fuel using Nat.strong_induction_on with
  | _ fuel below =>
    have ih : X.SoundBelow me fuel := fun m hm _ _ _ _ => below m hm
    intro task pe pe' done h
    cases task with
    | attempt cid msg => exact run_attempt ih h
    | flush cid idx =>
      rw [runTask, answer_eq_ok] at h
      obtain ⟨rfl, h⟩ := h
      exact run_flush ih h
    | handle cid idx msg =>
      rw [runTask, answer_eq_ok] at h
      obtain ⟨rfl, h⟩ := h
      exact run_handle ih h
    | calls cs =>
      rw [runTask, answer_eq_ok] at h
      obtain ⟨rfl, h⟩ := h
      exact run_calls ih h
    | call c =>
      rw [runTask, answer_eq_ok] at h
      obtain ⟨rfl, h⟩ := h
      exact run_perform ih h
    | endpoint immediate msg =>
      rw [runTask, answer_eq_ok] at h
      obtain ⟨rfl, h⟩ := h
      exact run_endpoint ih h
    | now cid msg =>
      rw [runTask, answer_eq_ok] at h
      obtain ⟨rfl, h⟩ := h
      exact run_now ih h
    | drain cid =>
      rw [runTask, answer_eq_ok] at h
      obtain ⟨rfl, h⟩ := h
      exact run_drain ih h

/-! ## A run is what enough fuel computes -/

/-- The task gives this with any fuel from some bound on. -/
def Returns (X : Machine) (me : Nat) (task : Task) (pe : Pe) (done : Bool) (pe' : Pe) :
    Prop :=
  ∃ N, ∀ fuel, N ≤ fuel → X.runTask me fuel task pe = .ok (done, pe')

section Complete

variable {task : Task} {pe pe' : Pe} {done : Bool} {P Q : Nat → Prop}

/-- Both parts have their fuel from some bound on. -/
theorem enough_both (hP : ∃ N, ∀ fuel, N ≤ fuel → P fuel) (hQ : ∃ N, ∀ fuel, N ≤ fuel →
    Q fuel) :
    ∃ N, ∀ fuel, N ≤ fuel → P fuel ∧ Q fuel := by
  obtain ⟨N₁, h₁⟩ := hP
  obtain ⟨N₂, h₂⟩ := hQ
  exact ⟨max N₁ N₂, fun fuel hfuel => ⟨h₁ fuel (by omega), h₂ fuel (by omega)⟩⟩

theorem enough_succ (hP : ∃ N, ∀ fuel, N ≤ fuel → P fuel) :
    ∃ N, ∀ fuel, N ≤ fuel → ∃ m, fuel = m + 1 ∧ P m := by
  obtain ⟨N, hN⟩ := hP
  exact ⟨N + 1, fun fuel hfuel => ⟨fuel - 1, by omega, hN (fuel - 1) (by omega)⟩⟩

/-- A function takes one more unit of fuel than its part. -/
theorem returns_of_part (hP : ∃ N, ∀ fuel, N ≤ fuel → P fuel)
    (h : ∀ fuel, P fuel → X.runTask me (fuel + 1) task pe = .ok (done, pe')) :
    X.Returns me task pe done pe' := by
  obtain ⟨N, hN⟩ := enough_succ hP
  refine ⟨N, fun fuel hfuel => ?_⟩
  obtain ⟨m, rfl, hm⟩ := hN fuel hfuel
  exact h m hm

theorem returns_of_succ (h : ∀ fuel, X.runTask me (fuel + 1) task pe = .ok (done, pe')) :
    X.Returns me task pe done pe' :=
  returns_of_part ⟨0, fun _ _ => trivial⟩ fun fuel _ => h fuel

theorem returns_invoke {cid : CollectiveIndex} {idx : ChareIndex}
    {msg : Message} {pe₁ : Pe}
    (h : X.Returns me (.calls (X.bodyOf me cid idx msg pe))
      (pe.record (.invoked cid idx msg))
      true pe₁) :
    ∃ N, ∀ fuel, N ≤ fuel →
      X.invoke me fuel cid idx msg pe = .ok (pe₁.record (.returned cid idx msg)) := by
  obtain ⟨N, hN⟩ := enough_succ h
  refine ⟨N, fun fuel hfuel => ?_⟩
  obtain ⟨m, rfl, hcalls⟩ := hN fuel hfuel
  exact invoke_eq_ok.mpr ⟨pe₁, hcalls, rfl⟩

end Complete

theorem run_complete {task : Task} {pe pe' : Pe} {done : Bool}
    (h : X.Runs me task pe done pe') : X.Returns me task pe done pe' := by
  induction h with
  | flushEmpty hcol hempty =>
    refine returns_of_succ fun fuel => ?_
    rw [runTask, answer_eq_ok, flushBuffers, hcol]
    simp only [hempty, and_self]
  | flushFront hcol hfront _ _ ih₁ ih₂ =>
    refine returns_of_part (enough_both ih₁ ih₂) fun fuel ⟨h₁, h₂⟩ => ?_
    rw [runTask, answer_eq_ok] at h₂
    rw [runTask] at h₁
    rw [runTask, answer_eq_ok, flushBuffers, hcol]
    simp only [hfront, h₁, bind_eq_ok]
    exact ⟨trivial, _, rfl, h₂.2⟩
  | flushStop hcol hfront _ ih =>
    refine returns_of_part ih fun fuel h => ?_
    rw [runTask] at h
    rw [runTask, answer_eq_ok, flushBuffers, hcol]
    simp only [hfront, h, bind_eq_ok]
    exact ⟨trivial, _, rfl, rfl⟩
  | construct hcol hctor hhome _ _ ih₁ ih₂ =>
    refine returns_of_part (enough_both (returns_invoke ih₁) ih₂) fun fuel ⟨h₁, h₂⟩ => ?_
    rw [runTask, answer_eq_ok] at h₂
    rw [runTask, tryDeliver, hcol]
    simp only [hctor, hhome, beq_self_eq_true, Bool.and_self, if_true, bind_eq_ok]
    exact ⟨_, h₁, _, h₂.2, rfl⟩
  | absent hcol hctor hnone hhome =>
    refine returns_of_succ fun fuel => ?_
    rw [runTask, tryDeliver, hcol]
    simp [hctor, hnone, hhome]
  | forward hcol hhome hnone =>
    refine returns_of_succ fun fuel => ?_
    rw [runTask, tryDeliver, hcol]
    simp [hnone, hhome]
  | present hcol hctor hsome _ ih =>
    refine returns_of_part ih fun fuel h => ?_
    rw [runTask, answer_eq_ok] at h
    rw [runTask, tryDeliver, hcol]
    have hctor' : (Entry.isConstructor _ && X.peFor _ _ == me) = false :=
      Bool.eq_false_iff.mpr fun hc => hctor (by simpa using hc)
    simp only [hctor', Bool.false_eq_true, if_false, hsome, bind_eq_ok]
    exact ⟨_, h.2, rfl⟩
  | inOrder hcol hch hbcast horder hup _ _ ih₁ ih₂ =>
    refine returns_of_part (enough_both (returns_invoke ih₁) ih₂) fun fuel ⟨h₁, h₂⟩ => ?_
    rw [runTask, answer_eq_ok] at h₂
    rw [runTask, answer_eq_ok, handle, hcol]
    simp only [hch, hbcast, horder, hup, if_true, foldl_deliverLater, bind_eq_ok]
    exact ⟨trivial, _, rfl, _, h₁, h₂.2⟩
  | outOfOrder hcol hch hbcast horder =>
    refine returns_of_succ fun fuel => ?_
    rw [runTask, answer_eq_ok, handle, hcol]
    simp only [hch, hbcast, horder, if_true, if_false, and_self]
  | plain hcol hch hplain _ ih =>
    refine returns_of_part (returns_invoke ih) fun fuel h => ?_
    rw [runTask, answer_eq_ok, handle, hcol]
    simp only [hch, hplain, Bool.false_eq_true, if_false]
    exact ⟨trivial, h⟩
  | callsNil => exact ⟨0, fun _ _ => rfl⟩
  | callsCons _ _ ih₁ ih₂ =>
    -- the loop over the calls takes no fuel of its own
    obtain ⟨N, h⟩ := enough_both ih₁ ih₂
    refine ⟨N, fun fuel hfuel => ?_⟩
    obtain ⟨h₁, h₂⟩ := h fuel hfuel
    rw [runTask, answer_eq_ok] at h₁
    rw [runTask, answer_eq_ok] at h₂
    rw [runTask, answer_eq_ok, List.foldlM_cons, bind_eq_ok]
    exact ⟨rfl, _, h₁.2, h₂.2⟩
  | callInsert _ ih | callSend _ ih | callCmkSend _ ih =>
    refine returns_of_part ih fun fuel h => ?_
    rw [runTask, answer_eq_ok] at h
    rw [runTask, answer_eq_ok, perform]
    exact h
  | callCollective => exact returns_of_succ fun fuel => rfl
  | callGroup => exact returns_of_succ fun fuel => rfl
  | endpointAbsent hcol =>
    refine returns_of_succ fun fuel => ?_
    rw [runTask, answer_eq_ok, deliverEndpoint, hcol]
    exact ⟨rfl, rfl⟩
  | endpointNow hcol _ ih =>
    refine returns_of_part ih fun fuel h => ?_
    rw [runTask, answer_eq_ok] at h
    rw [runTask, answer_eq_ok, deliverEndpoint, hcol]
    exact h
  | endpointLater hcol =>
    refine returns_of_succ fun fuel => ?_
    rw [runTask, answer_eq_ok, deliverEndpoint, hcol]
    exact ⟨rfl, rfl⟩
  | nowRootAbsent hcol hbcast hroot hnone =>
    refine returns_of_succ fun fuel => ?_
    rw [runTask, answer_eq_ok, deliverNow, hcol]
    simp only [hbcast, if_true, hroot, bind_eq_ok]
    exact ⟨trivial, _, rfl, by rw [hnone]⟩
  | nowRootNext hcol hbcast hroot hsome hlt hup _ _ ih₁ ih₂ =>
    obtain ⟨_, rfl⟩ := root_eq hroot
    -- one unit of fuel for deliver_now and one for the handle_ it calls
    refine returns_of_part (enough_succ (enough_both (returns_invoke ih₁) ih₂)) ?_
    rintro _ ⟨fuel, rfl, h₁, h₂⟩
    rw [runTask, answer_eq_ok] at h₂
    rw [runTask, answer_eq_ok, deliverNow, hcol]
    simp only [hbcast, if_true, hroot, bind_eq_ok]
    refine ⟨trivial, _, rfl, ?_⟩
    rw [hsome]
    dsimp only
    rw [handle, record_collectiveTable, hcol]
    simp only [hsome, numbered_next hlt, if_true, hup, foldl_deliverLater, bind_eq_ok]
    exact ⟨_, rfl, _, h₁, h₂.2⟩
  | nowRootWrapped hcol hbcast hroot hsome hlt _ ih =>
    obtain ⟨_, rfl⟩ := root_eq hroot
    refine returns_of_part (enough_succ (returns_invoke ih)) ?_
    rintro _ ⟨fuel, rfl, h⟩
    rw [runTask, answer_eq_ok, deliverNow, hcol]
    simp only [hbcast, if_true, hroot, bind_eq_ok]
    refine ⟨trivial, _, rfl, ?_⟩
    rw [hsome]
    dsimp only
    rw [handle, record_collectiveTable, hcol]
    simp only [hsome, numbered_wrapped hlt, Bool.false_eq_true, if_false]
    exact h
  | nowDone hcol hbcast _ ih | nowBuffer hcol hbcast _ ih =>
    refine returns_of_part ih fun fuel h => ?_
    rw [runTask] at h
    rw [runTask, answer_eq_ok, deliverNow, hcol]
    simp only [hbcast, if_false, h, bind_eq_ok]
    exact ⟨trivial, _, rfl, rfl⟩
  | drainNil hempty =>
    refine returns_of_succ fun fuel => ?_
    rw [runTask, answer_eq_ok, flushCollectiveBuffer, hempty]
    exact ⟨rfl, rfl⟩
  | drainCons hfront _ _ ih₁ ih₂ =>
    refine returns_of_part (enough_both ih₁ ih₂) fun fuel ⟨h₁, h₂⟩ => ?_
    rw [runTask, answer_eq_ok] at h₁
    rw [runTask, answer_eq_ok] at h₂
    rw [runTask, answer_eq_ok, flushCollectiveBuffer, hfront]
    simp only [bind_eq_ok]
    exact ⟨trivial, _, h₁.2, h₂.2⟩

/-- There is one way through the functions. -/
theorem Runs.unique {task : Task} {pe pe₁ pe₂ : Pe} {b₁ b₂ : Bool}
    (h₁ : X.Runs me task pe b₁ pe₁) (h₂ : X.Runs me task pe b₂ pe₂) : b₁ = b₂ ∧
    pe₁ = pe₂ := by
  obtain ⟨N₁, h₁⟩ := run_complete h₁
  obtain ⟨N₂, h₂⟩ := run_complete h₂
  have heq := (h₁ (max N₁ N₂) (by omega)).symm.trans (h₂ (max N₁ N₂) (by omega))
  exact Prod.mk.inj (Except.ok.inj heq)

/-! ## What every function keeps -/

/-- An invariant `I` of a PE with a property `Q` of the messages it has to do with,
for programs that make the calls `A` only: each thing done on the way keeps it. -/
structure Kept (X : Machine) (me : Nat) (A : Call → Prop) (Q : Message → Prop)
    (I : Pe → Prop) :
    Prop where
  bodies : ∀ log msg, ∀ c ∈ X.body me log msg, A c
  stored : ∀ pe, I pe → ∀ cid col, pe.collectiveTable cid = some col →
    ∀ idx, ∀ m ∈ col.buffers idx, Q m
  waiting : ∀ pe, I pe → ∀ cid, ∀ m ∈ pe.collectiveBuffer cid, Q m
  record : ∀ pe e, e.Passing → I pe → I (pe.record e)
  push : ∀ pe dst m, Q m → I pe → I (pe.push dst m)
  buffer : ∀ pe cid m, Q m → I pe → I (pe.modify cid (·.buffer m))
  popFront : ∀ pe cid idx, I pe → I (pe.modify cid (·.popFront idx))
  bufferCollective : ∀ pe m, Q m → I pe → I (pe.bufferCollective m)
  take : ∀ pe cid m rest, pe.collectiveBuffer cid = m :: rest → I pe →
    I { pe with collectiveBuffer := Function.update pe.collectiveBuffer cid rest }
  construct : ∀ pe cid msg col, pe.collectiveTable cid = some col →
    msg.entry.isConstructor = true → X.peFor col.mapper msg.chare = me → Q msg → I pe →
    I ((pe.modify cid (·.emplace msg.chare)).record (.invoked cid msg.chare msg))
  plain : ∀ pe cid msg col ch, pe.collectiveTable cid = some col →
    ¬ (msg.entry.isConstructor = true ∧ X.peFor col.mapper msg.chare = me) →
    col.chares msg.chare = some ch → msg.isBroadcast = false → Q msg → I pe →
    I (pe.record (.invoked cid msg.chare msg))
  accept : ∀ pe cid msg col ch children, pe.collectiveTable cid = some col →
    ¬ (msg.entry.isConstructor = true ∧ X.peFor col.mapper msg.chare = me) →
    col.chares msg.chare = some ch → msg.isBroadcast = true →
    msg.bcast.toNat = ch.lastBcast.toNat + 1 →
    X.upstream me col.mapper msg.chare = .ok children → Q msg → I pe →
    I ((X.sendCopies col msg children (pe.modify cid (·.advance msg.chare))).record
      (.invoked cid msg.chare msg))
  rootNext : ∀ pe cid msg col root obj children, pe.collectiveTable cid = some col →
    msg.chare = chareBcastRoot → Machine.root col.mapper = .ok root →
      col.chares root = some obj →
    obj.lastBcast.toNat + 1 < 2 ^ 16 → X.upstream me col.mapper root = .ok children →
    Q msg → I pe →
    I ((X.rootSends col root obj msg children cid pe).record
      (.invoked cid root (msg.numbered root obj.lastBcast)))
  rootWrapped : ∀ pe cid msg col root obj, pe.collectiveTable cid = some col →
    msg.chare = chareBcastRoot → Machine.root col.mapper = .ok root →
      col.chares root = some obj →
    obj.lastBcast.toNat + 1 = 2 ^ 16 → Q msg → I pe →
    I ((pe.record (.rooted cid (msg.numbered root obj.lastBcast))).record
      (.invoked cid root (msg.numbered root obj.lastBcast)))
  insert : ∀ pe cid idx constructor, A (.insert cid idx constructor) → I pe →
    Q (newMessage me pe cid idx ⟨constructor, true⟩) ∧
      I (issue pe (newMessage me pe cid idx ⟨constructor, true⟩))
  send : ∀ pe cid idx entry, A (.send cid idx entry) ∨ A (.cmkSend cid idx entry) → I pe →
    Q (newMessage me pe cid idx ⟨entry, false⟩) ∧
      I (issue pe (newMessage me pe cid idx ⟨entry, false⟩))
  collective : ∀ pe kind, A (.constructCollective kind) → I pe →
    I (X.constructCollective me kind pe)
  group : ∀ pe kind constructor, A (.constructGroup kind constructor) → I pe →
    I (X.constructGroup me kind constructor pe)

/-- What a task was given: messages with `Q`, calls with `A`. The element that
`handle_` runs on is the message's, which is no constructor at its home. -/
def Given (X : Machine) (me : Nat) (A : Call → Prop) (Q : Message → Prop) (pe : Pe) :
    Task → Prop
  | .flush _ _ => True
  | .attempt _ msg => Q msg
  | .handle cid idx msg => Q msg ∧ idx = msg.chare ∧
    ∀ col, pe.collectiveTable cid = some col →
      ¬ (msg.entry.isConstructor = true ∧ X.peFor col.mapper msg.chare = me)
  | .calls cs => ∀ c ∈ cs, A c
  | .call c => A c
  | .endpoint _ msg => Q msg
  | .now _ msg => Q msg
  | .drain _ => True

section Kept

variable {A : Call → Prop} {Q : Message → Prop} {I : Pe → Prop}

/-- What is kept by all that is done on the way is kept by every function. -/
theorem Runs.kept (hK : Kept X me A Q I) {task : Task} {pe pe' : Pe} {done : Bool}
    (h : X.Runs me task pe done pe') (hg : X.Given me A Q pe task) (hI : I pe) :
    I pe' := by
  induction h with
  | flushEmpty => exact hI
  | @flushFront pe pe₁ pe₂ cid idx col msg rest hcol hfront _ _ ih₁ ih₂ =>
    have hQ := hK.stored pe hI cid col hcol idx msg
      (by rw [hfront]; exact List.mem_cons_self)
    exact ih₂ trivial (hK.popFront _ _ _ (ih₁ hQ hI))
  | @flushStop pe pe₁ cid idx col msg rest hcol hfront _ ih =>
    exact ih (hK.stored pe hI cid col hcol idx msg
      (by rw [hfront]; exact List.mem_cons_self)) hI
  | @construct pe pe₁ pe₂ cid msg col hcol hctor hhome _ _ ih₁ ih₂ =>
    have htried := hK.record pe _ (.tried msg) hI
    have hbody := ih₁ (hK.bodies _ _)
      (hK.construct (pe.record (.tried msg)) cid msg col hcol hctor hhome hg htried)
    exact hK.record _ _ (.flushed _ _)
      (ih₂ trivial (hK.record _ _ (.returned _ _ _) hbody))
  | absent => exact hK.record _ _ (.tried _) hI
  | forward => exact hK.push _ _ _ hg (hK.record _ _ (.tried _) hI)
  | present hcol hctor _ _ ih =>
    refine ih ⟨hg, rfl, fun col' hcol' => ?_⟩ (hK.record _ _ (.tried _) hI)
    obtain rfl := Option.some.inj (hcol.symm.trans hcol')
    exact hctor
  | inOrder hcol hch hb horder hup _ _ ih₁ ih₂ =>
    obtain ⟨hQ, rfl, hctor⟩ := hg
    have hbody := ih₁ (hK.bodies _ _)
      (hK.accept _ _ _ _ _ _ hcol (hctor _ hcol) hch hb horder hup hQ hI)
    exact ih₂ trivial (hK.record _ _ (.returned _ _ _) hbody)
  | outOfOrder => exact hK.buffer _ _ _ hg.1 hI
  | plain hcol hch hb _ ih =>
    obtain ⟨hQ, rfl, hctor⟩ := hg
    exact hK.record _ _ (.returned _ _ _)
      (ih (hK.bodies _ _) (hK.plain _ _ _ _ _ hcol (hctor _ hcol) hch hb hQ hI))
  | callsNil => exact hI
  | callsCons _ _ ih₁ ih₂ =>
    exact ih₂ (fun c hc => hg c (List.mem_cons_of_mem _ hc))
      (ih₁ (hg _ List.mem_cons_self) hI)
  | callInsert _ ih =>
    obtain ⟨hQ, hissue⟩ := hK.insert _ _ _ _ hg hI
    exact ih hQ hissue
  | callSend _ ih =>
    obtain ⟨hQ, hissue⟩ := hK.send _ _ _ _ (Or.inl hg) hI
    exact ih hQ hissue
  | callCmkSend _ ih =>
    obtain ⟨hQ, hissue⟩ := hK.send _ _ _ _ (Or.inr hg) hI
    exact ih hQ hissue
  | callCollective => exact hK.collective _ _ hg hI
  | callGroup => exact hK.group _ _ _ hg hI
  | endpointAbsent => exact hK.bufferCollective _ _ hg (hK.record _ _ (.handled _) hI)
  | endpointNow _ _ ih => exact ih hg (hK.record _ _ (.handled _) hI)
  | endpointLater => exact hK.push _ _ _ hg hI
  | nowRootAbsent => exact hK.push _ _ _ hg hI
  | nowRootNext hcol hbcast hroot hsome hlt hup _ _ ih₁ ih₂ =>
    have hbody := ih₁ (hK.bodies _ _)
      (hK.rootNext _ _ _ _ _ _ _ hcol hbcast hroot hsome hlt hup hg hI)
    exact ih₂ trivial (hK.record _ _ (.returned _ _ _) hbody)
  | nowRootWrapped hcol hbcast hroot hsome hlt _ ih =>
    exact hK.record _ _ (.returned _ _ _)
      (ih (hK.bodies _ _) (hK.rootWrapped _ _ _ _ _ _ hcol hbcast hroot hsome hlt hg hI))
  | nowDone _ _ _ ih => exact ih hg hI
  | nowBuffer _ _ _ ih => exact hK.buffer _ _ _ hg (ih hg hI)
  | drainNil => exact hI
  | @drainCons pe pe₁ pe₂ cid msg rest hfront _ _ ih₁ ih₂ =>
    have hQ := hK.waiting pe hI cid msg (by rw [hfront]; exact List.mem_cons_self)
    exact ih₂ trivial (ih₁ hQ (hK.take _ _ _ _ hfront hI))

end Kept

end Machine

end CharmExperiments.Charmlite
