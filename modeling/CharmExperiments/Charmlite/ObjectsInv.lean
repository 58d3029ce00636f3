import CharmExperiments.Charmlite.Objects

/-!
# The object of an element

What is true of the objects of a collective as long as `try_deliver` gets one
constructor message for an index at most (`InsertedOnce`): the object that a
constructor ran on is the one that `chares_` has from then on, its history begins with
that constructor and goes on with entry functions that are none, its state and its
`last_bcast_` are what this history made them, and a message for its index is given to
it or, out of order, kept for it (`objects_sound`).

Then the objects can be forgotten: every step does to the collective without them what
`Collective` has a function for, or nothing (`Step.collective`).

A second constructor message for an index runs the constructor on an object that
`chares_` did not take (`construct_present`), which the result of `emplace` would tell.
-/

namespace CharmExperiments.Charmlite

/-- The object that an entry function was called on. -/
def ObjectEvent.object : ObjectEvent → Option ObjectPtr
  | .constructed obj _ => some obj
  | .invoked obj _ => some obj
  | _ => none

/-- The index for which `try_deliver` makes an object. -/
def ObjectEvent.inserts (X : Machine) (me : Nat) (mapper : Mapper) :
    ObjectEvent → Option ChareIndex
  | .tried msg =>
    if msg.entry.isConstructor = true ∧ X.peFor mapper msg.chare = me then some msg.chare
    else none
  | _ => none

namespace Elements

/-- What was called on the object, in order. -/
def history (t : Elements) (obj : ObjectPtr) : List ObjectEvent :=
  t.log.filter fun e => e.object = some obj

/-- No two constructor messages for one index, and none for the root as a broadcast. -/
structure InsertedOnce (X : Machine) (me : Nat) (t : Elements) : Prop where
  distinct : (t.log.filterMap (ObjectEvent.inserts X me t.mapper)).Nodup
  root : ∀ obj msg, .rooted obj msg ∈ t.log → msg.entry.isConstructor = false

/-- The object of an element: it was constructed once, and its state is what its entry
functions got since then. -/
structure Held (t : Elements) (idx : ChareIndex) (obj : ObjectPtr) : Prop where
  alive : (t.objects obj).deleted = false
  index : (t.objects obj).index = idx
  parent : (t.objects obj).parent = t.id
  once : (t.objects obj).constructed = 1
  state : ∃ msg calls, msg.chare = idx ∧
    t.history obj = .constructed obj msg :: calls.map (.invoked obj) ∧
    (t.objects obj).received = msg :: calls ∧
    (t.objects obj).lastBcast.toNat = calls.countP (·.isBroadcast)

/-- What follows in the log when the message gets to the object: it is given to the
object, or kept because it is a broadcast whose turn has not come. -/
def Answered (obj : ObjectPtr) (msg : Message) (after : List ObjectEvent) : Prop :=
  (∃ rest, after = .invoked obj msg :: rest) ∨
    msg.isBroadcast = true ∧ ∃ rest, after = .buffered msg :: rest

/-- So it is with each message that is for the index of an object. -/
def AllAnswered (log : List ObjectEvent) : Prop :=
  ∀ before msg after, log = before ++ .tried msg ::
    after → msg.entry.isConstructor = false →
    ∀ obj m, .constructed obj m ∈ before → m.chare = msg.chare → Answered obj msg after

/-- What is asked of the objects. -/
structure Sound (t : Elements) : Prop where
  constructed : ∀ obj msg, .constructed obj msg ∈ t.log → t.chares msg.chare = some obj
  held : ∀ idx obj, t.chares idx = some obj → t.Held idx obj
  answered : AllAnswered t.log

/-- What holds of the objects at any time. -/
structure Inv (X : Machine) (me : Nat) (t : Elements) : Prop where
  constructed : ∀ obj msg, .constructed obj msg ∈ t.log → t.chares msg.chare = some obj
  held : ∀ idx obj, t.chares idx = some obj → t.Held idx obj
  old : ∀ idx obj, t.chares idx = some obj → obj < t.allocated
  home : ∀ idx obj, t.chares idx = some obj → X.peFor t.mapper idx = me
  inserted : ∀ idx obj, t.chares idx = some obj →
    idx ∈ t.log.filterMap (ObjectEvent.inserts X me t.mapper)
  fresh : ∀ obj, t.allocated ≤ obj →
    (t.objects obj).deleted = false ∧ (t.objects obj).constructed = 0 ∧ t.history obj = []

section Steps

variable {X : Machine} {me : Nat} {t t' : Elements} {msg : Message} {obj : ObjectPtr}
  {idx : ChareIndex} {more : List ObjectEvent}

/-! ## What a step leaves alone -/

/-- The copies are sent. -/
theorem sendCopies_eq (X : Machine) (msg : Message) (children : List ChareIndex) :
    ∀ t : Elements, ∃ sent, sendCopies X t msg children = { t with sent := sent } := by
  induction children with
  | nil => exact fun t => ⟨t.sent, rfl⟩
  | cons child children ih => exact fun t => ih (deliverLater X t { msg with chare := child })

/-- The collective stays the same one, and its log grows. -/
structure Grows (t t' : Elements) (more : List ObjectEvent) : Prop where
  id : t'.id = t.id
  mapper : t'.mapper = t.mapper
  log : t'.log = t.log ++ more

/-- The event of a call. -/
def callEvent (obj : ObjectPtr) (msg : Message) : ObjectEvent :=
  if msg.entry.isConstructor then .constructed obj msg else .invoked obj msg

theorem call_grows (t : Elements) (obj : ObjectPtr) (msg : Message) :
    Grows t (t.call obj msg) [callEvent obj msg] := by
  unfold call callEvent
  split <;> exact ⟨rfl, rfl, rfl⟩

theorem emplace_grows (t : Elements) (idx : ChareIndex) (obj : ObjectPtr) :
    Grows t (t.emplace idx obj) [] := by
  unfold emplace
  split <;> exact ⟨rfl, rfl, (List.append_nil _).symm⟩

theorem Grows.trans {t₁ t₂ t₃ : Elements} {es es' : List ObjectEvent} (h : Grows t₁ t₂ es)
    (h' : Grows t₂ t₃ es') : Grows t₁ t₃ (es ++ es') :=
  ⟨h'.id.trans h.id, h'.mapper.trans h.mapper, by rw [h'.log, h.log, List.append_assoc]⟩

theorem construct_grows (t : Elements) (msg : Message) :
    Grows t (t.construct msg) [callEvent t.allocated msg] :=
  have hproperties : Grows t (t.allocate.2.setProperties t.allocated msg.chare) [] :=
    ⟨rfl, rfl, (List.append_nil _).symm⟩
  (hproperties.trans (emplace_grows ..)).trans (call_grows ..)

theorem Handles.grows (h : Handles X obj msg t t') :
    ∃ e, (e = callEvent obj msg ∨ e = .buffered msg ∧ msg.isBroadcast = true) ∧
      Grows t t' [e] := by
  cases h with
  | plain => exact ⟨_, Or.inl rfl, call_grows ..⟩
  | @accept children =>
    obtain ⟨sent, hsent⟩ := sendCopies_eq X msg children (t.advance obj)
    have hadvance : Grows t (sendCopies X (t.advance obj) msg children) [] := by
      rw [hsent]
      exact ⟨rfl, rfl, (List.append_nil _).symm⟩
    exact ⟨_, Or.inl rfl, hadvance.trans (call_grows ..)⟩
  | reject hb => exact ⟨_, Or.inr ⟨rfl, hb⟩, rfl, rfl, rfl⟩

theorem Step.grows (h : Step X me t t') : ∃ more, Grows t t' more := by
  cases h with
  | @construct msg =>
    have hrecord : Grows t (t.record (.tried msg)) [.tried msg] := ⟨rfl, rfl, rfl⟩
    exact ⟨_, hrecord.trans (construct_grows ..)⟩
  | absent => exact ⟨_, rfl, rfl, rfl⟩
  | @present _ msg obj _ _ hhandles =>
    have hrecord : Grows t (t.record (.tried msg)) [.tried msg] := ⟨rfl, rfl, rfl⟩
    obtain ⟨e, _, hgrows⟩ := hhandles.grows
    exact ⟨_, hrecord.trans hgrows⟩
  | @root _ msg _ obj _ hhandles =>
    have hrecord : Grows t (t.record (.rooted obj msg)) [.rooted obj msg] :=
      ⟨rfl, rfl, rfl⟩
    obtain ⟨e, _, hgrows⟩ := hhandles.grows
    exact ⟨_, hrecord.trans hgrows⟩
  | push => exact ⟨[], rfl, rfl, (List.append_nil _).symm⟩
  | buffer => exact ⟨_, rfl, rfl, rfl⟩
  | popFront => exact ⟨[], rfl, rfl, (List.append_nil _).symm⟩

/-- The condition was met before. -/
theorem InsertedOnce.before (h : InsertedOnce X me t') (hgrows : Grows t t' more) :
    InsertedOnce X me t where
  distinct := by
    have hnodup := h.distinct
    rw [hgrows.mapper, hgrows.log, List.filterMap_append] at hnodup
    exact (List.nodup_append.mp hnodup).1
  root := fun obj msg hmem => h.root obj msg (hgrows.log ▸ List.mem_append_left _ hmem)

/-! ## The messages for an index -/

/-- A step adds one message at most, as its first event. -/
theorem AllAnswered.append {log rest : List ObjectEvent} {e : ObjectEvent}
    (h : AllAnswered log) (hrest : ∀ m, .tried m ∉ rest)
    (hfirst : ∀ msg, e = .tried msg → msg.entry.isConstructor = false → ∀ obj m,
      .constructed obj m ∈ log → m.chare = msg.chare → Answered obj msg rest) :
    AllAnswered (log ++ e :: rest) := by
  intro before msg after heq hctor obj m hm hchare
  rcases List.append_eq_append_iff.mp
    heq with ⟨later, hbefore, hblock⟩ | ⟨tail, hlog, hblock⟩
  · cases later with
    | nil =>
      obtain ⟨he, rfl⟩ := List.cons.inj hblock
      rw [hbefore, List.append_nil] at hm
      exact hfirst msg he hctor obj m hm hchare
    | cons e' later =>
      obtain ⟨_, hrest'⟩ := List.cons.inj hblock
      exact absurd (hrest' ▸ List.mem_append_right _ (List.mem_cons_self ..)) (hrest msg)
  · cases tail with
    | nil =>
      obtain ⟨he, rfl⟩ := List.cons.inj hblock
      rw [hlog, List.append_nil] at hfirst
      exact hfirst msg he.symm hctor obj m hm hchare
    | cons e' tail =>
      obtain ⟨rfl, rfl⟩ := List.cons.inj hblock
      rcases h before msg tail hlog hctor obj m hm hchare with ⟨r, rfl⟩ | ⟨hb, r, rfl⟩
      · exact Or.inl ⟨_, rfl⟩
      · exact Or.inr ⟨hb, _, rfl⟩

/-! ## The objects through the steps -/

theorem Grows.history (h : Grows t t' more) (obj : ObjectPtr) :
    t'.history obj = t.history obj ++ more.filter fun e => e.object = some obj := by
  rw [Elements.history, h.log, List.filter_append, Elements.history]

/-- No object is touched. -/
theorem Inv.same (h : Inv X me t) (hgrows : Grows t t' more)
    (hchares : t'.chares = t.chares) (hobjects : t'.objects = t.objects)
    (hallocated : t'.allocated = t.allocated) (hmore : ∀ e ∈ more, e.object = none) :
    Inv X me t' := by
  have hhistory : ∀ obj, t'.history obj = t.history obj := by
    intro obj
    rw [hgrows.history obj, List.filter_eq_nil_iff.mpr, List.append_nil]
    intro e he
    rw [hmore e he]
    simp
  refine ⟨fun obj msg hmem => ?_, fun idx obj hsome => ?_, fun idx obj hsome => ?_,
    fun idx obj hsome => ?_, fun idx obj hsome => ?_, fun obj hle => ?_⟩
  · rw [hgrows.log] at hmem
    rw [hchares]
    rcases List.mem_append.mp hmem with hmem | hmem
    · exact h.constructed obj msg hmem
    · cases hmore _ hmem
  · rw [hchares] at hsome
    obtain ⟨halive, hindex, hparent, honce, hstate⟩ := h.held idx obj hsome
    rw [← hobjects] at halive hindex hparent honce hstate
    exact ⟨halive, hindex, hparent.trans hgrows.id.symm, honce, hhistory obj ▸ hstate⟩
  · exact hallocated ▸ h.old idx obj (hchares ▸ hsome)
  · exact hgrows.mapper ▸ h.home idx obj (hchares ▸ hsome)
  · rw [hgrows.mapper, hgrows.log, List.filterMap_append]
    exact List.mem_append_left _ (h.inserted idx obj (hchares ▸ hsome))
  · rw [hobjects, hhistory]
    exact h.fresh obj (hallocated ▸ hle)

/-- An entry function that is no constructor is called on the object of an index. -/
theorem Inv.invoke (h : Inv X me t) (last : BcastId) (hsome : t.chares idx = some obj)
    (hgrows : Grows t t' [.invoked obj msg]) (hchares : t'.chares = t.chares)
    (hallocated : t'.allocated = t.allocated)
    (hlast : last.toNat = (t.objects obj).lastBcast.toNat + [msg].countP (·.isBroadcast))
    (hobjects : t'.objects = Function.update t.objects obj
      { t.objects obj with lastBcast := last, received := (t.objects obj).received ++ [msg] }) :
    Inv X me t' := by
  -- only the object that is called changes
  have hother : ∀ o, o ≠ obj → t'.objects o = t.objects o ∧
      t'.history o = t.history o := by
    intro o hne
    refine ⟨by rw [hobjects, Function.update_of_ne hne], ?_⟩
    rw [hgrows.history o, List.filter_eq_nil_iff.mpr, List.append_nil]
    intro e he
    rw [List.mem_singleton.mp he]
    simp [ObjectEvent.object, Ne.symm hne]
  refine ⟨fun o m hmem => ?_, fun i o hi => ?_, fun i o hi => ?_, fun i o hi => ?_,
    fun i o hi => ?_, fun o hle => ?_⟩
  · rw [hgrows.log] at hmem
    rw [hchares]
    rcases List.mem_append.mp hmem with hmem | hmem
    · exact h.constructed o m hmem
    · cases List.mem_singleton.mp hmem
  · rw [hchares] at hi
    obtain ⟨halive, hindex, hparent, honce, m, calls, hm, hhistory, hreceived, hbcasts⟩ :=
      h.held i o hi
    by_cases hne : o = obj
    · subst hne
      have hself : t'.objects o = { t.objects o with
          lastBcast := last, received := (t.objects o).received ++ [msg] } := by
        rw [hobjects, Function.update_self]
      have hadded : t'.history o = t.history o ++ [.invoked o msg] := by
        rw [hgrows.history o]
        simp [ObjectEvent.object]
      refine ⟨by rw [hself]; exact halive, by rw [hself]; exact hindex,
        by rw [hself, hgrows.id]; exact hparent, by rw [hself]; exact honce,
        m, calls ++ [msg], hm, ?_, ?_, ?_⟩
      · rw [hadded, hhistory, List.map_append]
        rfl
      · rw [hself]
        show (t.objects o).received ++ [msg] = _
        rw [hreceived]
        rfl
      · rw [hself, List.countP_append, ← hbcasts]
        exact hlast
    · obtain ⟨hobj, hhist⟩ := hother o hne
      rw [← hobj] at halive hindex hparent honce hreceived hbcasts
      exact ⟨halive, hindex, hparent.trans hgrows.id.symm, honce, m, calls, hm,
        hhist.trans hhistory, hreceived, hbcasts⟩
  · exact hallocated ▸ h.old i o (hchares ▸ hi)
  · exact hgrows.mapper ▸ h.home i o (hchares ▸ hi)
  · rw [hgrows.mapper, hgrows.log, List.filterMap_append]
    exact List.mem_append_left _ (h.inserted i o (hchares ▸ hi))
  · have hne : o ≠ obj := fun heq =>
      Nat.not_lt.mpr hle (heq ▸ hallocated ▸ h.old idx obj hsome)
    obtain ⟨hobj, hhist⟩ := hother o hne
    rw [hobj, hhist]
    exact h.fresh o (hallocated ▸ hle)

/-- What `handle_` does with the object of an index. -/
theorem Inv.handles (h : Inv X me t) (hsome : t.chares idx = some obj)
    (hctor : msg.entry.isConstructor = false) (hhandles : Handles X obj msg t t') :
    Inv X me t' := by
  have hcall : ∀ s : Elements, s.call obj msg =
      (s.modify obj fun o => { o with received := o.received ++ [msg] }).record
        (.invoked obj msg) := fun s => by rw [call, hctor, if_neg Bool.false_ne_true]
  cases hhandles with
  | plain hb =>
    rw [hcall]
    refine h.invoke (t.objects obj).lastBcast hsome ⟨rfl, rfl, rfl⟩ rfl rfl ?_ rfl
    rw [List.countP_singleton, hb]
    rfl
  | @accept children hb horder =>
    obtain ⟨sent, hsent⟩ := sendCopies_eq X msg children (t.advance obj)
    have hlt : (t.objects obj).lastBcast.toNat + 1 < 2 ^ 16 := horder ▸ msg.bcast.isLt
    rw [hcall, hsent]
    refine h.invoke ((t.objects obj).lastBcast + 1) hsome ⟨rfl, rfl, rfl⟩ rfl rfl ?_ ?_
    · rw [List.countP_singleton, hb, if_pos rfl]
      exact Machine.toNat_next hlt
    · show Function.update (Function.update t.objects obj _) obj _ = _
      rw [Function.update_idem]
      simp only [Elements.advance, modify, Function.update_self]
  | reject =>
    have hgrows : Grows t (t.buffer msg) [.buffered msg] := ⟨rfl, rfl, rfl⟩
    exact h.same hgrows rfl rfl rfl fun e he => by rw [List.mem_singleton.mp he]; rfl

/-! ## A new object -/

/-- An object was made for the message, and `chares_` has it. -/
structure Added (t : Elements) (msg : Message) (t' : Elements) : Prop where
  grows : Grows t t' [.constructed t.allocated msg]
  taken : t'.chares msg.chare = some t.allocated
  chares : ∀ idx, idx ≠ msg.chare → t'.chares idx = t.chares idx
  made : t'.objects t.allocated = {
    parent := t.id
    index := msg.chare
    lastBcast := 0
    constructed := (t.objects t.allocated).constructed + 1
    deleted := (t.objects t.allocated).deleted
    received := [msg] }
  objects : ∀ obj, obj ≠ t.allocated → t'.objects obj = t.objects obj
  allocated : t'.allocated = t.allocated + 1

/-- **The first constructor for an index** runs on the object that `chares_` takes. -/
theorem construct_absent (hctor : msg.entry.isConstructor = true)
    (hnone : t.chares msg.chare = none) : Added t msg (t.construct msg) := by
  have hemplace :
    (t.allocate.2.setProperties t.allocated msg.chare).emplace msg.chare t.allocated
      = { t.allocate.2.setProperties t.allocated msg.chare with
          chares := Function.update t.chares msg.chare (some t.allocated) } := by
    unfold emplace
    rw [show (t.allocate.2.setProperties t.allocated msg.chare).chares msg.chare =
      none from hnone]
    rfl
  rw [construct, hemplace, call, hctor, if_pos rfl]
  refine ⟨⟨rfl, rfl, rfl⟩, Function.update_self .., fun _ hne =>
    Function.update_of_ne hne .., ?_, fun _ hne => ?_, rfl⟩
  · simp only [allocate, setProperties, modify, record, Function.update_self]
  · simp only [allocate, setProperties, modify, record, Function.update_of_ne hne]

/-- **The second constructor for an index** runs on an object that was deleted, and that
`chares_` does not have. -/
theorem construct_present {old : ObjectPtr} (hctor : msg.entry.isConstructor = true)
    (hsome : t.chares msg.chare = some old) :
    (t.construct msg).chares = t.chares ∧
    ((t.construct msg).objects t.allocated).deleted = true ∧
      (t.construct msg).log = t.log ++ [.constructed t.allocated msg] ∧
      ∀ obj, obj ≠ t.allocated → (t.construct msg).objects obj = t.objects obj := by
  have hemplace :
    (t.allocate.2.setProperties t.allocated msg.chare).emplace msg.chare t.allocated
      = (t.allocate.2.setProperties t.allocated msg.chare).modify t.allocated
          fun o => { o with deleted := true } := by
    unfold emplace
    rw [show (t.allocate.2.setProperties t.allocated msg.chare).chares msg.chare = some old
      from hsome]
  rw [construct, hemplace, call, hctor, if_pos rfl]
  refine ⟨rfl, ?_, rfl, fun obj hne => ?_⟩
  · simp only [record, modify, Function.update_self]
  · simp only [allocate, setProperties, record, modify, Function.update_of_ne hne]

/-- The new object has a history of its own, -/
theorem Added.held (h : Added t msg t')
    (hfresh : (t.objects t.allocated).deleted = false ∧
    (t.objects t.allocated).constructed = 0 ∧ t.history t.allocated = []) :
    t'.Held msg.chare t.allocated where
  alive := by rw [h.made]; exact hfresh.1
  index := by rw [h.made]
  parent := by rw [h.made, h.grows.id]
  once := by rw [h.made, hfresh.2.1]
  state := by
    refine ⟨msg, [], rfl, ?_, by rw [h.made], by rw [h.made]; rfl⟩
    rw [h.grows.history, hfresh.2.2]
    simp [ObjectEvent.object]

/-- which is no other object's. -/
theorem Added.history (h : Added t msg t') (hne : obj ≠ t.allocated) :
    t'.history obj = t.history obj := by
  rw [h.grows.history, List.filter_eq_nil_iff.mpr, List.append_nil]
  intro e he
  rw [List.mem_singleton.mp he]
  simp [ObjectEvent.object, Ne.symm hne]

/-- The object of a new index. -/
theorem Inv.added (h : Inv X me t) (hadded : Added t msg t')
    (hnone : t.chares msg.chare = none) (hhome : X.peFor t.mapper msg.chare = me)
    (htried : msg.chare ∈ t.log.filterMap (ObjectEvent.inserts X me t.mapper)) :
    Inv X me t' := by
  -- the element at the index is the new object, and every other one was there
  have hcases : ∀ i o, t'.chares i = some o →
      i = msg.chare ∧ o = t.allocated ∨ t.chares i = some o ∧ o ≠ t.allocated := by
    intro i o hi
    by_cases hidx : i = msg.chare
    · subst hidx
      exact Or.inl ⟨rfl, Option.some.inj (hi.symm.trans hadded.taken)⟩
    · have hi' := (hadded.chares i hidx).symm.trans hi
      exact Or.inr ⟨hi', Nat.ne_of_lt (h.old i o hi')⟩
  refine ⟨fun o m hmem => ?_, fun i o hi => ?_, fun i o hi => ?_, fun i o hi => ?_,
    fun i o hi => ?_, fun o hle => ?_⟩
  · rw [hadded.grows.log] at hmem
    rcases List.mem_append.mp hmem with hmem | hmem
    · have hsome := h.constructed o m hmem
      rw [hadded.chares]
      · exact hsome
      · intro heq
        rw [heq, hnone] at hsome
        cases hsome
    · cases List.mem_singleton.mp hmem
      exact hadded.taken
  · rcases hcases i o hi with ⟨rfl, rfl⟩ | ⟨hi', hne⟩
    · exact hadded.held (h.fresh _ (Nat.le_refl _))
    · obtain ⟨halive, hindex, hparent, honce, hstate⟩ := h.held i o hi'
      rw [← hadded.objects o hne] at halive hindex hparent honce hstate
      rw [← hadded.history hne] at hstate
      exact ⟨halive, hindex, hparent.trans hadded.grows.id.symm, honce, hstate⟩
  · rw [hadded.allocated]
    rcases hcases i o hi with ⟨_, rfl⟩ | ⟨hi', _⟩
    · exact Nat.lt_succ_self _
    · exact Nat.lt_succ_of_lt (h.old i o hi')
  · rw [hadded.grows.mapper]
    rcases hcases i o hi with ⟨rfl, _⟩ | ⟨hi', _⟩
    · exact hhome
    · exact h.home i o hi'
  · rw [hadded.grows.mapper, hadded.grows.log, List.filterMap_append]
    refine List.mem_append_left _ ?_
    rcases hcases i o hi with ⟨rfl, _⟩ | ⟨hi', _⟩
    · exact htried
    · exact h.inserted i o hi'
  · rw [hadded.allocated] at hle
    have hne : o ≠ t.allocated := by omega
    rw [hadded.objects o hne, hadded.history hne]
    exact h.fresh o (by omega)

/-! ## Every step -/

/-- One event that is about no object. -/
theorem Inv.record (h : Inv X me t) {e : ObjectEvent} (he : e.object = none) :
    Inv X me (t.record e) := by
  have hgrows : Grows t (t.record e) [e] := ⟨rfl, rfl, rfl⟩
  exact h.same hgrows rfl rfl rfl fun e' he' => by rw [List.mem_singleton.mp he', he]

theorem tried_inserts (hctor : msg.entry.isConstructor = true)
    (hhome : X.peFor t.mapper msg.chare = me) :
    (t.record (.tried msg)).log.filterMap (ObjectEvent.inserts X me t.mapper) =
      t.log.filterMap (ObjectEvent.inserts X me t.mapper) ++ [msg.chare] := by
  have htried : (ObjectEvent.tried msg).inserts X me t.mapper = some msg.chare :=
    if_pos ⟨hctor, hhome⟩
  rw [record, List.filterMap_append, List.filterMap_cons_some htried]
  rfl

/-- An index that is new to `try_deliver` has no object. -/
theorem Inv.absent (h : Inv X me t) (hctor : msg.entry.isConstructor = true)
    (hhome : X.peFor t.mapper msg.chare = me)
    (honce : InsertedOnce X me (t.record (.tried msg))) :
    t.chares msg.chare = none := by
  cases hsome : t.chares msg.chare with
  | none => rfl
  | some obj =>
    have hnodup := honce.distinct
    rw [show (t.record (.tried msg)).mapper = t.mapper from rfl,
      tried_inserts hctor hhome]
      at hnodup
    have hdisjoint := List.disjoint_of_nodup_append hnodup
    exact absurd (List.mem_singleton_self _) (hdisjoint (h.inserted _ obj hsome))

/-- What `handle_` notes is what is asked. -/
theorem Handles.allAnswered {first : ObjectEvent} (hall : AllAnswered t.log)
    (hctor : msg.entry.isConstructor = false) (h : Handles X obj msg (t.record first) t')
    (hfirst : ∀ m, first = .tried m → m = msg ∧
      ∀ o m', .constructed o m' ∈ t.log → m'.chare = msg.chare → o = obj) :
    AllAnswered t'.log := by
  obtain ⟨e, he, hgrows⟩ := h.grows
  rw [callEvent, hctor, if_neg Bool.false_ne_true] at he
  have hlog : t'.log = t.log ++ first :: [e] := by
    rw [hgrows.log, record, List.append_assoc]
    rfl
  rw [hlog]
  refine hall.append (fun m hm => ?_) fun m hm _ o m' hmem hchare => ?_
  · rcases he with rfl | ⟨rfl, _⟩ <;> cases List.mem_singleton.mp hm
  · obtain ⟨rfl, hobj⟩ := hfirst m hm
    obtain rfl := hobj o m' hmem hchare
    rcases he with rfl | ⟨rfl, hb⟩
    · exact Or.inl ⟨[], rfl⟩
    · exact Or.inr ⟨hb, [], rfl⟩

/-- The way of a broadcast goes past `try_deliver`. -/
theorem rooted_plain (h : Handles X obj msg (t.record (.rooted obj msg)) t')
    (honce : InsertedOnce X me t') : msg.entry.isConstructor = false := by
  obtain ⟨e, _, hgrows⟩ := h.grows
  refine honce.root obj msg ?_
  rw [hgrows.log]
  exact List.mem_append_left _ (List.mem_append_right _ (List.mem_singleton_self _))

/-- **One step keeps it,** as long as no index gets a second object. -/
theorem Step.inv (h : Step X me t t') (hinv : Inv X me t) (hall : AllAnswered t.log)
    (honce : InsertedOnce X me t') : Inv X me t' ∧ AllAnswered t'.log := by
  cases h with
  | @construct msg hctor hhome =>
    -- the first constructor message for its index finds no object there
    have htried : InsertedOnce X me (t.record (.tried msg)) :=
      honce.before (construct_grows (t.record (.tried msg)) msg)
    have hnone := hinv.absent hctor hhome htried
    have hadded : Added _ msg _ :=
      construct_absent (t := t.record (.tried msg)) hctor hnone
    refine ⟨(hinv.record rfl).added hadded hnone hhome ?_, ?_⟩
    · rw [show (t.record (.tried msg)).mapper = t.mapper from rfl,
        tried_inserts hctor hhome]
      exact List.mem_append_right _ (List.mem_singleton_self _)
    · rw [hadded.grows.log, record, List.append_assoc]
      refine hall.append (fun m hm => ?_) fun m hm hnot => ?_
      · cases List.mem_singleton.mp hm
      · cases hm
        rw [hctor] at hnot
        cases hnot
  | @absent msg hnot hnone =>
    refine ⟨hinv.record rfl, hall.append (fun m hm => by cases hm) ?_⟩
    intro m hm _ o m' hmem hchare
    cases hm
    -- an object for this index would be in chares_
    have hsome := hinv.constructed o m' hmem
    rw [hchare, hnone] at hsome
    cases hsome
  | @present _ msg obj hnot hsome hhandles =>
    -- the object is at home, so a constructor message would have been taken above
    have hctor : msg.entry.isConstructor = false :=
      Bool.eq_false_iff.mpr fun hctor => hnot ⟨hctor, hinv.home _ obj hsome⟩
    refine ⟨(hinv.record rfl).handles hsome hctor hhandles,
      hhandles.allAnswered hall hctor ?_⟩
    intro m hm
    cases hm
    refine ⟨rfl, fun o m' hmem hchare => ?_⟩
    have hsome' := hinv.constructed o m' hmem
    rw [hchare, hsome] at hsome'
    exact (Option.some.inj hsome').symm
  | @root _ msg root obj hsome hhandles =>
    have hctor := rooted_plain hhandles honce
    exact ⟨(hinv.record rfl).handles hsome hctor hhandles,
      hhandles.allAnswered hall hctor fun m hm => by cases hm⟩
  | @push dst msg =>
    have hgrows : Grows t (t.push dst msg) [] := ⟨rfl, rfl, (List.append_nil _).symm⟩
    exact ⟨hinv.same hgrows rfl rfl rfl fun _ he => (by cases he), hall⟩
  | @buffer msg =>
    have hgrows : Grows t (t.buffer msg) [.buffered msg] := ⟨rfl, rfl, rfl⟩
    refine ⟨hinv.same hgrows rfl rfl rfl
      fun e he => by rw [List.mem_singleton.mp he]; rfl, ?_⟩
    exact hall.append (fun m hm => by cases hm) fun m hm => by cases hm
  | @popFront idx =>
    have hgrows : Grows t (t.popFront idx) [] := ⟨rfl, rfl, (List.append_nil _).symm⟩
    exact ⟨hinv.same hgrows rfl rfl rfl fun _ he => (by cases he), hall⟩

/-- Any number of steps do. -/
theorem Steps.inv (h : Steps X me t t') (hinv : Inv X me t) (hall : AllAnswered t.log)
    (honce : InsertedOnce X me t') : Inv X me t' ∧ AllAnswered t'.log := by
  induction h with
  | refl => exact ⟨hinv, hall⟩
  | tail _ hstep ih =>
    obtain ⟨more, hgrows⟩ := hstep.grows
    obtain ⟨hinv', hall'⟩ := ih (honce.before hgrows)
    exact hstep.inv hinv' hall' honce

theorem new_inv (X : Machine) (me : Nat) (id : CollectiveIndex) (mapper : Mapper) :
    Inv X me (.new id mapper) where
  constructed := fun _ _ h => by cases h
  held := fun _ _ h => by cases h
  old := fun _ _ h => by cases h
  home := fun _ _ h => by cases h
  inserted := fun _ _ h => by cases h
  fresh := fun _ _ => ⟨rfl, rfl, rfl⟩

theorem new_answered : AllAnswered [] := by
  intro before msg after heq
  cases before <;> cases heq

/-- A delivery is steps. -/
theorem Reached.steps {body : ObjectPtr → List ObjectEvent → Message →
    List (Bool × Message)}
    {after : ObjectPtr → List ObjectEvent → Message → ChareIndex}
    (h : Reached X me body after t) : ∃ id mapper, Steps X me (.new id mapper) t := by
  induction h with
  | new id mapper => exact ⟨id, mapper, .refl⟩
  | deliver fuel immediate msg _ hdeliver ih =>
    obtain ⟨id, mapper, hsteps⟩ := ih
    exact ⟨id, mapper,
      hsteps.trans ((stepsWith X me body after fuel).deliver _ _ _ _ hdeliver)⟩

/-- The object that a constructor ran on is the one that `chares_` has, constructed once
and with the state that its entry functions gave it, and messages for its index get to
it, if `try_deliver` never gets a second constructor message for an index. -/
theorem objects_sound {body : ObjectPtr → List ObjectEvent → Message →
    List (Bool × Message)}
    {after : ObjectPtr → List ObjectEvent → Message → ChareIndex}
    (h : Reached X me body after t) (honce : InsertedOnce X me t) : t.Sound := by
  obtain ⟨id, mapper, hsteps⟩ := h.steps
  obtain ⟨hinv, hall⟩ := hsteps.inv (new_inv X me id mapper) new_answered honce
  exact ⟨hinv.constructed, hinv.held, hall⟩

end Steps

/-! ## The collective without its objects -/

/-- What `Collective` has of an object, -/
def number (t : Elements) (obj : ObjectPtr) : Chare := ⟨(t.objects obj).lastBcast⟩

/-- and of the elements. -/
def collective (t : Elements) : Collective where
  mapper := t.mapper
  buffers := t.buffers
  chares := fun idx => (t.chares idx).map t.number

section Forget

variable {X : Machine} {me : Nat} {t t' : Elements} {msg : Message} {obj : ObjectPtr}
  {idx : ChareIndex}

theorem collective_buffer (t : Elements) (msg : Message) :
    (t.buffer msg).collective = t.collective.buffer msg := rfl

theorem collective_popFront (t : Elements) (idx : ChareIndex) :
    (t.popFront idx).collective = t.collective.popFront idx := rfl

theorem collective_eq {col : Collective} (hmapper : t'.mapper = col.mapper)
    (hbuffers : t'.buffers = col.buffers)
    (hchares : ∀ idx, (t'.chares idx).map t'.number = col.chares idx) :
    t'.collective = col := by
  show Collective.mk t'.mapper t'.buffers (fun idx => (t'.chares idx).map t'.number) = col
  rw [hmapper, hbuffers, funext hchares]

/-- The same elements with the same numbers. -/
theorem map_number (hchares : t'.chares idx = t.chares idx)
    (hnumber : ∀ obj, t.chares idx = some obj → t'.number obj = t.number obj) :
    (t'.chares idx).map t'.number = t.collective.chares idx := by
  rw [hchares]
  show _ = (t.chares idx).map t.number
  cases hsome : t.chares idx with
  | none => rfl
  | some obj => exact congrArg some (hnumber obj hsome)

theorem number_congr (h : t'.objects obj = t.objects obj) :
    t'.number obj = t.number obj :=
  congrArg (fun o => Chare.mk o.lastBcast) h

theorem number_modify_ne {f : Object → Object} {o : ObjectPtr} (h : o ≠ obj) :
    (t.modify obj f).number o = t.number o := by
  show Chare.mk (Function.update t.objects obj _ o).lastBcast = _
  rw [Function.update_of_ne h]
  rfl

theorem number_modify {f : Object → Object} :
    (t.modify obj f).number obj = ⟨(f (t.objects obj)).lastBcast⟩ := by
  show Chare.mk (Function.update t.objects obj _ obj).lastBcast = _
  rw [Function.update_self]

/-- A call leaves the numbers alone, -/
theorem collective_call (hctor : msg.entry.isConstructor = false) :
    (t.call obj msg).collective = t.collective := by
  rw [call, hctor, if_neg Bool.false_ne_true]
  show (t.modify obj fun o => { o with received := o.received ++ [msg] }).collective = _
  refine collective_eq rfl rfl fun idx => map_number rfl fun o _ => ?_
  by_cases ho : o = obj
  · rw [ho]
    exact number_modify
  · exact number_modify_ne ho

/-- a broadcast advances the one of its element, -/
theorem collective_advance (h : Inv X me t) (hsome : t.chares idx = some obj) :
    (t.advance obj).collective = t.collective.advance idx := by
  refine collective_eq rfl rfl fun i => ?_
  show _ = Function.update t.collective.chares idx _ i
  by_cases hi : i = idx
  · subst hi
    rw [Function.update_self]
    show (t.chares i).map _ = ((t.chares i).map t.number).map _
    rw [hsome]
    exact congrArg some number_modify
  · rw [Function.update_of_ne hi]
    refine map_number rfl fun o ho => number_modify_ne fun heq => ?_
    -- an object has one index
    exact hi ((h.held i o ho).index.symm.trans (heq ▸ (h.held idx obj hsome).index))

theorem construct_buffers (t : Elements) (msg : Message) :
    (t.construct msg).buffers = t.buffers := by
  unfold Elements.construct call emplace
  split <;> split <;> rfl

/-- and a constructor message does what `emplace` does, whether the index is there or not. -/
theorem collective_construct (h : Inv X me t) (hctor : msg.entry.isConstructor = true) :
    (t.construct msg).collective = t.collective.emplace msg.chare := by
  cases hold : t.chares msg.chare with
  | none =>
    have hadded := construct_absent hctor hold
    have hnone : t.collective.chares msg.chare = none :=
      congrArg (Option.map t.number) hold
    rw [Collective.emplace, hnone]
    refine collective_eq hadded.grows.mapper (construct_buffers t msg) fun i => ?_
    show _ = Function.update t.collective.chares msg.chare (some .new) i
    by_cases hi : i = msg.chare
    · rw [hi, Function.update_self, hadded.taken]
      exact congrArg (fun o => some (Chare.mk o.lastBcast)) hadded.made
    · rw [Function.update_of_ne hi]
      refine map_number (hadded.chares i hi) fun o ho => ?_
      exact number_congr (hadded.objects o (Nat.ne_of_lt (h.old i o ho)))
  | some old =>
    obtain ⟨hchares, _, _, hobjects⟩ := construct_present hctor hold
    have hsome : t.collective.chares msg.chare = some (t.number old) :=
      congrArg (Option.map t.number) hold
    rw [Collective.emplace, hsome]
    refine collective_eq (construct_grows t msg).mapper
      (construct_buffers t msg) fun i => ?_
    refine map_number (congrFun hchares i) fun o ho => ?_
    exact number_congr (hobjects o (Nat.ne_of_lt (h.old i o ho)))

/-- What is done with a collective on PE `me` between entry functions. -/
inductive CollectiveStep (X : Machine) (me : Nat) (col : Collective) : Collective → Prop
  | emplace {idx : ChareIndex} : X.peFor col.mapper idx = me →
      CollectiveStep X me col (col.emplace idx)
  /-- The broadcast that comes next got to its element. -/
  | advance {idx : ChareIndex} {ch : Chare} {msg : Message} : col.chares idx = some ch →
      msg.bcast.toNat = ch.lastBcast.toNat + 1 → CollectiveStep X me col (col.advance idx)
  | buffer (msg : Message) : CollectiveStep X me col (col.buffer msg)
  | popFront (idx : ChareIndex) : CollectiveStep X me col (col.popFront idx)

theorem Handles.collective (h : Handles X obj msg t t') (hinv : Inv X me t)
    (hsome : t.chares idx = some obj) (hctor : msg.entry.isConstructor = false) :
    Relation.ReflGen (CollectiveStep X me) t.collective t'.collective := by
  cases h with
  | plain _ => exact collective_call hctor ▸ .refl
  | @accept children _ hnext =>
    obtain ⟨sent, hsent⟩ := sendCopies_eq X msg children (t.advance obj)
    rw [collective_call hctor, hsent]
    show Relation.ReflGen _ _ (t.advance obj).collective
    rw [collective_advance hinv hsome]
    exact .single (.advance (congrArg (Option.map t.number) hsome) hnext)
  | reject _ => exact .single (.buffer msg)

/-- **A step with objects is a step without them,** or none. -/
theorem Step.collective (h : Step X me t t') (hinv : Inv X me t)
    (honce : InsertedOnce X me t') :
    Relation.ReflGen (CollectiveStep X me) t.collective t'.collective := by
  cases h with
  | @construct msg hctor hhome =>
    rw [collective_construct (hinv.record rfl) hctor]
    exact .single (.emplace hhome)
  | absent _ _ => exact .refl
  | @present _ msg obj hnot hsome hhandles =>
    have hctor : msg.entry.isConstructor = false :=
      Bool.eq_false_iff.mpr fun hctor => hnot ⟨hctor, hinv.home _ obj hsome⟩
    exact hhandles.collective (hinv.record rfl) hsome hctor
  | root hsome hhandles =>
    exact hhandles.collective (hinv.record rfl) hsome (rooted_plain hhandles honce)
  | push => exact .refl
  | @buffer msg =>
    rw [collective_buffer]
    exact .single (.buffer msg)
  | @popFront idx =>
    rw [collective_popFront]
    exact .single (.popFront idx)

theorem Steps.collective (h : Steps X me t t') (hinv : Inv X me t)
    (hall : AllAnswered t.log) (honce : InsertedOnce X me t') :
    Relation.ReflTransGen (CollectiveStep X me) t.collective t'.collective := by
  induction h with
  | refl => exact .refl
  | tail hsteps hstep ih =>
    obtain ⟨more, hgrows⟩ := hstep.grows
    have honce' := honce.before hgrows
    obtain ⟨hinv', _⟩ := Steps.inv hsteps hinv hall honce'
    exact (ih honce').trans (hstep.collective hinv' honce).to_reflTransGen

/-- What `Collective` is after the same steps. -/
theorem Reached.collective {body : ObjectPtr → List ObjectEvent → Message →
    List (Bool × Message)}
    {after : ObjectPtr → List ObjectEvent → Message → ChareIndex}
    (h : Reached X me body after t) (honce : InsertedOnce X me t) :
    ∃ mapper, Relation.ReflTransGen (CollectiveStep X me) (.new mapper) t.collective := by
  obtain ⟨id, mapper, hsteps⟩ := h.steps
  exact ⟨mapper, hsteps.collective (new_inv X me id mapper) new_answered honce⟩

end Forget

/-! ## Two constructors for an index -/

/-- One PE. -/
def oneMachine : Machine where
  numPes := 1
  numPes_lt := Nat.one_lt_two_pow' 30
  tree := .star 1
  kinds := fun _ => .default
  body := fun _ _ _ => []
  indexAfter := fun _ _ msg => msg.chare

/-- A constructor message for element 5, and one for entry 7 of it. -/
def insertFive (seq : Nat) : Message := ⟨⟨0, seq⟩, false, ⟨0, 0⟩, 5, ⟨1, true⟩, 0⟩
def sendFive (seq : Nat) : Message := ⟨⟨0, seq⟩, false, ⟨0, 0⟩, 5, ⟨7, false⟩, 0⟩

/-- The message came first, and gets to the object. -/
theorem objects_sound_five :
    ∃ t, Reached oneMachine 0 (fun _ _ _ => []) (fun _ _ msg => msg.chare) t ∧
    t.chares 5 = some 0 ∧ t.Sound := by
  have hrun : ∃ t, Reached oneMachine 0 (fun _ _ _ => []) (fun _ _ msg => msg.chare) t ∧
    t.mapper = .default ∧
      t.chares 5 = some 0 ∧
      t.log = [.tried (sendFive 1), .buffered (sendFive 1), .tried (insertFive 2),
        .constructed 0 (insertFive 2), .tried (sendFive 1), .invoked 0 (sendFive 1)] :=
    ⟨_, .deliver 9 true (insertFive 2)
      (.deliver 9 true (sendFive 1) (.new ⟨0, 0⟩ .default)
      rfl) rfl, rfl, rfl, rfl⟩
  obtain ⟨t, hreached, hmapper, hsome, hlog⟩ := hrun
  refine ⟨t, hreached, hsome, objects_sound hreached ⟨?_, fun obj msg hmem => ?_⟩⟩
  · rw [hmapper, hlog]
    exact List.nodup_singleton (5 : ChareIndex)
  · rw [hlog] at hmem
    simp at hmem

/-- Two constructor messages for one index, and one for the element: the second object is
deleted and then constructed, and the message gets to the first. -/
theorem constructed_twice :
    ∃ t, Reached oneMachine 0 (fun _ _ _ => []) (fun _ _ msg => msg.chare) t ∧
    t.chares 5 = some 0 ∧ (t.objects 1).deleted = true ∧ (t.objects 1).constructed = 1 ∧
    t.log = [.tried (insertFive 1), .constructed 0 (insertFive 1), .tried (insertFive 2),
      .constructed 1 (insertFive 2), .tried (sendFive 3), .invoked 0 (sendFive 3)] ∧
    ¬ t.Sound := by
  have hrun : ∃ t, Reached oneMachine 0 (fun _ _ _ => []) (fun _ _ msg => msg.chare) t ∧
    t.chares 5 = some 0 ∧
      (t.objects 1).deleted = true ∧ (t.objects 1).constructed = 1 ∧
      t.log = [.tried (insertFive 1), .constructed 0 (insertFive 1),
        .tried (insertFive 2), .constructed 1 (insertFive 2), .tried (sendFive 3),
          .invoked 0 (sendFive 3)] :=
    ⟨_, .deliver 9 true (sendFive 3) (.deliver 9 true (insertFive 2)
      (.deliver 9 true (insertFive 1) (.new ⟨0, 0⟩ .default) rfl) rfl) rfl, rfl,
        rfl, rfl, rfl⟩
  obtain ⟨t, hreached, hsome, hdeleted, honce, hlog⟩ := hrun
  refine ⟨t, hreached, hsome, hdeleted, honce, hlog, fun hsound => ?_⟩
  have hheld : t.chares (insertFive 2).chare = some 1 :=
    hsound.constructed 1 (insertFive 2) (hlog ▸ by decide)
  rw [show (insertFive 2).chare = 5 from rfl, hsome] at hheld
  cases hheld

end Elements

end CharmExperiments.Charmlite
