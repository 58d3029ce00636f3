import Mathlib.Logic.Relation
import CharmExperiments.Charmlite.CollectiveRuns

/-!
# The objects of a collective

`archive/charmlite/include/collective.hh`, `chare.hh` and `ep.hh` once more, for one
collective on one PE, with the objects told apart: `allocate`, the properties that are
set before a constructor runs, the `unique_ptr` that is given to `chares_`, the
constructor, and what becomes of an object that `chares_` does not take.

What the functions do is cut at the entry functions they call (`Step`): each of them
gets from one state to the next by such steps (`stepsWith`), whatever the entry
functions deliver on the way. Where the objects are forgotten, the operations are those
of `Collective`; that is proved in `ObjectsInv`.

Mirroring notes:
- A pointer is a number, and no two objects have the same one. A deleted object keeps
  its contents, and can still be written to.
- The state of an element is the messages its entry functions got, from its
  constructor on.
- `chares_.emplace(idx, ch)` for an index that is there destroys the pair it made, and
  with it the `unique_ptr` of the new object.
- The placement `new` of a constructor gives `last_bcast_` its initialiser; `parent_`
  and `index_` have none and stay.
- What an entry function does to its collective are deliveries: `body`, of the object,
  of everything that happened, and of the message.
- `after`, of the same, is the index that `try_deliver` reads of a message once the
  constructor that owned it has returned.
- No function reads the log.
-/

namespace CharmExperiments.Charmlite

/-- `T*`. -/
abbrev ObjectPtr := Nat

/-- What lies where `allocate` gave memory. -/
structure Object where
  parent : CollectiveIndex
  index : ChareIndex
  lastBcast : BcastId
  constructed : Nat
  deleted : Bool
  received : List Message

/-- What happened. -/
inductive ObjectEvent
  /-- `try_deliver` got the message. -/
  | tried (msg : Message)
  /-- `deliver_now` gave the message to the root as a broadcast. -/
  | rooted (obj : ObjectPtr) (msg : Message)
  /-- A constructor was called on the object. -/
  | constructed (obj : ObjectPtr) (msg : Message)
  /-- Another entry function was. -/
  | invoked (obj : ObjectPtr) (msg : Message)
  /-- The message was put into `buffers_`. -/
  | buffered (msg : Message)
deriving DecidableEq, Repr

/-- `collective<T, Mapper>` and the memory of its objects. -/
structure Elements where
  id : CollectiveIndex
  mapper : Mapper
  buffers : ChareIndex → List Message
  chares : ChareIndex → Option ObjectPtr
  objects : ObjectPtr → Object
  allocated : Nat
  sent : List (Nat × Message)
  log : List ObjectEvent

namespace Elements

def new (id : CollectiveIndex) (mapper : Mapper) : Elements :=
  ⟨id, mapper, fun _ => [], fun _ => none, fun _ => ⟨id, 0, 0, 0, false, []⟩, 0, [], []⟩

def record (t : Elements) (e : ObjectEvent) : Elements := { t with log := t.log ++ [e] }

def push (t : Elements) (dst : Nat) (msg : Message) : Elements :=
  { t with sent := t.sent ++ [(dst, msg)] }

def modify (t : Elements) (obj : ObjectPtr) (f : Object → Object) : Elements :=
  { t with objects := Function.update t.objects obj (f (t.objects obj)) }

/-- `record_for<T>().allocate()`. -/
def allocate (t : Elements) : ObjectPtr × Elements :=
  (t.allocated, { t with allocated := t.allocated + 1 })

/-- `property_setter_`. -/
def setProperties (t : Elements) (ch : ObjectPtr) (idx : ChareIndex) : Elements :=
  t.modify ch fun o => { o with parent := t.id, index := idx }

/-- `chares_.emplace(idx, ch)`. -/
def emplace (t : Elements) (idx : ChareIndex) (ch : ObjectPtr) : Elements :=
  match t.chares idx with
  | some _ => t.modify ch fun o => { o with deleted := true }
  | none => { t with chares := Function.update t.chares idx (some ch) }

/-- `(rec->fn_)(obj, msg)`, up to what the entry function delivers. -/
def call (t : Elements) (obj : ObjectPtr) (msg : Message) : Elements :=
  if msg.entry.isConstructor then
    (t.modify obj fun o =>
      { o with lastBcast := 0, constructed := o.constructed + 1, received := [msg] }).record
      (.constructed obj msg)
  else
    (t.modify obj fun o => { o with received := o.received ++ [msg] }).record
    (.invoked obj msg)

/-- `base->last_bcast_++`. -/
def advance (t : Elements) (obj : ObjectPtr) : Elements :=
  t.modify obj fun o => { o with lastBcast := o.lastBcast + 1 }

/-- `buffer_`. -/
def buffer (t : Elements) (msg : Message) : Elements :=
  { t with
    buffers := Function.update t.buffers msg.chare (t.buffers msg.chare ++ [msg])
    log := t.log ++ [.buffered msg] }

/-- `buffer.pop_front()`. -/
def popFront (t : Elements) (idx : ChareIndex) : Elements :=
  { t with buffers := Function.update t.buffers idx (t.buffers idx).tail }

variable (X : Machine) (me : Nat)
  (body : ObjectPtr → List ObjectEvent → Message → List (Bool × Message))
  (after : ObjectPtr → List ObjectEvent → Message → ChareIndex)

/-- `deliver_later`. -/
def deliverLater (t : Elements) (msg : Message) : Elements :=
  t.push (X.peFor t.mapper msg.chare) msg

/-- The copies of a broadcast for the children. -/
def sendCopies (t : Elements) (msg : Message) (children : List ChareIndex) : Elements :=
  children.foldl (fun t child => deliverLater X t { msg with chare := child }) t

mutual

/-- `collective::flush_buffers`. -/
def flushBuffers : Nat → ChareIndex → Elements → Except Stop Elements
  | 0, _, _ => .error .fuel
  | fuel + 1, idx, t =>
    match t.buffers idx with
    | [] => .ok t
    | msg :: _ => do
      let (done, t) ← tryDeliver fuel msg t
      if done then flushBuffers fuel idx (t.popFront idx) else .ok t

/-- `collective::try_deliver`. -/
def tryDeliver : Nat → Message → Elements → Except Stop (Bool × Elements)
  | 0, _, _ => .error .fuel
  | fuel + 1, msg, t => do
    let t := t.record (.tried msg)
    let pe := X.peFor t.mapper msg.chare
    if msg.entry.isConstructor && pe == me then do
      let (ch, t) := t.allocate
      let t := t.setProperties ch msg.chare
      let t := t.emplace msg.chare ch
      let t := t.call ch msg
      let idx := after ch t.log msg
      let t ← runBody fuel ch msg t
      let t ← flushBuffers fuel idx t
      .ok (true, t)
    else
      match t.chares msg.chare with
      | none => if pe == me then .ok (false, t) else .ok (true, t.push pe msg)
      | some obj => do
        let t ← handle fuel obj msg t
        .ok (true, t)

/-- `collective::handle_`. -/
def handle : Nat → ObjectPtr → Message → Elements → Except Stop Elements
  | 0, _, _, _ => .error .fuel
  | fuel + 1, obj, msg, t =>
    if msg.isBroadcast then
      -- compared as int: the successor of 65535 is no bcast_id_t
      if msg.bcast.toNat = (t.objects obj).lastBcast.toNat + 1 then do
        let t := t.advance obj
        let idx := (t.objects obj).index
        let children ← X.upstream me t.mapper idx
        let t := sendCopies X t msg children
        let t ← runBody fuel obj msg (t.call obj msg)
        flushBuffers fuel idx t
      else .ok (t.buffer msg)
    else runBody fuel obj msg (t.call obj msg)

/-- What an entry function delivers after it was called. -/
def runBody : Nat → ObjectPtr → Message → Elements → Except Stop Elements
  | 0, _, _, _ => .error .fuel
  | fuel + 1, obj, msg, t =>
    (body obj t.log msg).foldlM (fun t d => deliver fuel d.1 d.2 t) t

/-- `collective::deliver`. -/
def deliver : Nat → Bool → Message → Elements → Except Stop Elements
  | 0, _, _, _ => .error .fuel
  | fuel + 1, immediate, msg, t =>
    if immediate then deliverNow fuel msg t else .ok (deliverLater X t msg)

/-- `collective::deliver_now`. -/
def deliverNow : Nat → Message → Elements → Except Stop Elements
  | 0, _, _ => .error .fuel
  | fuel + 1, msg, t =>
    if msg.chare = chareBcastRoot then do
      let root ← Machine.root t.mapper
      match t.chares root with
      | none => .ok (t.push (X.peFor t.mapper root) msg)
      | some obj =>
        let msg := msg.numbered root (t.objects obj).lastBcast
        handle fuel obj msg (t.record (.rooted obj msg))
    else do
      let (done, t) ← tryDeliver fuel msg t
      if done then .ok t else .ok (t.buffer msg)

end

/-- The constructor branch of `try_deliver`, up to what the constructor delivers. -/
def construct (t : Elements) (msg : Message) : Elements :=
  (((t.allocate.2.setProperties t.allocated msg.chare).emplace msg.chare t.allocated).call
    t.allocated msg)

/-! ## The steps between entry functions -/

/-- `handle_` up to what the entry function delivers. -/
inductive Handles (X : Machine) (obj : ObjectPtr) (msg : Message) : Elements → Elements →
    Prop
  | plain {t : Elements} : msg.isBroadcast = false → Handles X obj msg t (t.call obj msg)
  | accept {t : Elements} {children : List ChareIndex} : msg.isBroadcast = true →
      msg.bcast.toNat = (t.objects obj).lastBcast.toNat + 1 →
      Handles X obj msg t ((sendCopies X (t.advance obj) msg children).call obj msg)
  | reject {t : Elements} : msg.isBroadcast = true → Handles X obj msg t (t.buffer msg)

/-- What the functions do from one entry function to the next. -/
inductive Step (X : Machine) (me : Nat) : Elements → Elements → Prop
  | construct {t : Elements} {msg : Message} : msg.entry.isConstructor = true →
      X.peFor t.mapper msg.chare = me →
        Step X me t ((t.record (.tried msg)).construct msg)
  | absent {t : Elements} {msg : Message} :
      ¬ (msg.entry.isConstructor = true ∧ X.peFor t.mapper msg.chare = me) →
      t.chares msg.chare = none → Step X me t (t.record (.tried msg))
  | present {t t' : Elements} {msg : Message} {obj : ObjectPtr} :
      ¬ (msg.entry.isConstructor = true ∧ X.peFor t.mapper msg.chare = me) →
      t.chares msg.chare = some obj → Handles X obj msg (t.record (.tried msg)) t' →
      Step X me t t'
  | root {t t' : Elements} {msg : Message} {root : ChareIndex} {obj : ObjectPtr} :
      t.chares root = some obj → Handles X obj msg (t.record (.rooted obj msg)) t' →
      Step X me t t'
  | push {t : Elements} {dst : Nat} {msg : Message} : Step X me t (t.push dst msg)
  | buffer {t : Elements} {msg : Message} : Step X me t (t.buffer msg)
  | popFront {t : Elements} {idx : ChareIndex} : Step X me t (t.popFront idx)

/-- Any number of them. -/
def Steps (X : Machine) (me : Nat) : Elements → Elements → Prop :=
  Relation.ReflTransGen (Step X me)

variable {X me body after} {t t' : Elements} {msg : Message}
  {obj : ObjectPtr} {fuel : Nat}

/-- What the functions do with this fuel are steps. -/
structure StepsWith (X : Machine) (me : Nat)
    (body : ObjectPtr → List ObjectEvent → Message → List (Bool × Message))
    (after : ObjectPtr → List ObjectEvent → Message → ChareIndex) (fuel : Nat) :
    Prop where
  flush : ∀ idx t t', flushBuffers X me body after fuel idx t = .ok t' → Steps X me t t'
  attempt : ∀ msg t r, tryDeliver X me body after fuel msg t = .ok r → Steps X me t r.2
  handle : ∀ obj msg t t', handle X me body after fuel obj msg t = .ok t' →
    ∃ t₁, Handles X obj msg t t₁ ∧ Steps X me t₁ t'
  runBody : ∀ obj msg t t', runBody X me body after fuel obj msg t = .ok t' →
    Steps X me t t'
  deliver : ∀ immediate msg t t', deliver X me body after fuel immediate msg t = .ok t' →
    Steps X me t t'
  now : ∀ msg t t', deliverNow X me body after fuel msg t = .ok t' → Steps X me t t'

/-- A list of deliveries. -/
theorem StepsWith.deliveries (h : StepsWith X me body after fuel)
    (ds : List (Bool × Message)) :
    ∀ t t', ds.foldlM (fun t d => Elements.deliver X me body after fuel d.1 d.2 t) t =
      .ok t' →
      Steps X me t t' := by
  induction ds with
  | nil =>
    intro t t' heq
    obtain rfl := Except.ok.inj heq
    exact .refl
  | cons d ds ih =>
    intro t t' heq
    rw [List.foldlM_cons, bind_eq_ok] at heq
    obtain ⟨t₁, hd, hds⟩ := heq
    exact (h.deliver _ _ _ _ hd).trans (ih _ _ hds)

theorem flushBuffers_steps (ih : StepsWith X me body after fuel) (idx : ChareIndex)
    (h : flushBuffers X me body after (fuel + 1) idx t = .ok t') : Steps X me t t' := by
  rw [flushBuffers] at h
  split at h
  next =>
    obtain rfl := Except.ok.inj h
    exact .refl
  next msg _ _ =>
    obtain ⟨⟨done, t₁⟩, htry, h⟩ := bind_eq_ok.mp h
    have htried : Steps X me t t₁ := ih.attempt _ _ _ htry
    cases done with
    | true => exact (htried.tail .popFront).trans (ih.flush _ _ _ h)
    | false =>
      obtain rfl := Except.ok.inj h
      exact htried

theorem tryDeliver_steps (ih : StepsWith X me body after fuel) {done : Bool}
    (h : tryDeliver X me body after (fuel + 1) msg t = .ok (done, t')) :
    Steps X me t t' := by
  rw [tryDeliver] at h
  dsimp only at h
  by_cases hnew : msg.entry.isConstructor = true ∧ X.peFor t.mapper msg.chare = me
  · rw [if_pos (by simpa [record] using hnew)] at h
    obtain ⟨t₁, hbody, h⟩ := bind_eq_ok.mp h
    obtain ⟨t₂, hflush, h⟩ := bind_eq_ok.mp h
    obtain ⟨_, rfl⟩ := Prod.mk.inj (Except.ok.inj h)
    have hconstruct : Steps X me t _ := .single (.construct hnew.1 hnew.2)
    exact (hconstruct.trans (ih.runBody _ _ _ _ hbody)).trans (ih.flush _ _ _ hflush)
  · rw [if_neg (by simpa [record] using hnew)] at h
    split at h
    next hnone =>
      split at h
      · obtain ⟨_, rfl⟩ := Prod.mk.inj (Except.ok.inj h)
        exact .single (.absent hnew hnone)
      · obtain ⟨_, rfl⟩ := Prod.mk.inj (Except.ok.inj h)
        exact .tail (.single (.absent hnew hnone)) .push
    next obj hsome =>
      obtain ⟨t₁, hhandle, h⟩ := bind_eq_ok.mp h
      obtain ⟨_, rfl⟩ := Prod.mk.inj (Except.ok.inj h)
      obtain ⟨t₂, hhandles, hsteps⟩ := ih.handle _ _ _ _ hhandle
      exact .head (.present hnew hsome hhandles) hsteps

theorem handle_steps (ih : StepsWith X me body after fuel)
    (h : handle X me body after (fuel + 1) obj msg t = .ok t') :
    ∃ t₁, Handles X obj msg t t₁ ∧ Steps X me t₁ t' := by
  rw [handle] at h
  split at h
  next hb =>
    split at h
    next horder =>
      obtain ⟨children, _, h⟩ := bind_eq_ok.mp h
      obtain ⟨t₁, hbody, hflush⟩ := bind_eq_ok.mp h
      exact ⟨_, .accept hb horder,
        (ih.runBody _ _ _ _ hbody).trans (ih.flush _ _ _ hflush)⟩
    next =>
      obtain rfl := Except.ok.inj h
      exact ⟨_, .reject hb, .refl⟩
  next hb => exact ⟨_, .plain (Bool.eq_false_iff.mpr hb), ih.runBody _ _ _ _ h⟩

theorem deliverNow_steps (ih : StepsWith X me body after fuel)
    (h : deliverNow X me body after (fuel + 1) msg t = .ok t') : Steps X me t t' := by
  rw [deliverNow] at h
  split at h
  next =>
    obtain ⟨root, _, h⟩ := bind_eq_ok.mp h
    split at h
    next =>
      obtain rfl := Except.ok.inj h
      exact .single .push
    next obj hsome =>
      obtain ⟨t₁, hhandles, hsteps⟩ := ih.handle _ _ _ _ h
      exact .head (.root hsome hhandles) hsteps
  next =>
    obtain ⟨⟨done, t₁⟩, htry, h⟩ := bind_eq_ok.mp h
    have htried : Steps X me t t₁ := ih.attempt _ _ _ htry
    cases done with
    | true =>
      obtain rfl := Except.ok.inj h
      exact htried
    | false =>
      obtain rfl := Except.ok.inj h
      exact htried.tail .buffer

/-- **What the functions do are steps,** with any fuel. -/
theorem stepsWith (X : Machine) (me : Nat)
    (body : ObjectPtr → List ObjectEvent → Message → List (Bool × Message))
    (after : ObjectPtr → List ObjectEvent → Message → ChareIndex) (fuel : Nat) :
    StepsWith X me body after fuel := by
  induction fuel with
  | zero =>
    constructor <;> intros <;> rename_i h <;> cases h
  | succ fuel ih =>
    refine ⟨fun idx _ _ h => flushBuffers_steps ih idx h, fun _ _ _ h =>
      tryDeliver_steps ih h, fun _ _ _ _ h => handle_steps ih h, fun _ _ _ _ h =>
        ih.deliveries _ _ _ h,
      fun immediate _ _ _ h => ?_, fun _ _ _ h => deliverNow_steps ih h⟩
    cases immediate with
    | true => exact ih.now _ _ _ h
    | false =>
      obtain rfl := Except.ok.inj h
      exact .single .push

/-- The states between deliveries, from the new collective on. -/
inductive Reached (X : Machine) (me : Nat)
    (body : ObjectPtr → List ObjectEvent → Message → List (Bool × Message))
    (after : ObjectPtr → List ObjectEvent → Message → ChareIndex) : Elements → Prop
  | new (id : CollectiveIndex) (mapper : Mapper) :
    Reached X me body after (.new id mapper)
  | deliver {t t' : Elements} (fuel : Nat) (immediate : Bool) (msg : Message) :
      Reached X me body after t →
        Elements.deliver X me body after fuel immediate msg t = .ok t' →
      Reached X me body after t'

end Elements

end CharmExperiments.Charmlite
