import CharmExperiments.Charmlite.BcastNumber
import CharmExperiments.Charmlite.Entries

/-!
# The index of an element

`index_view<int>` of `archive/charmlite/include/chare.hh`, `operator[]` of `proxy.hh`:
an `int` becomes a `chare_index_t` by sign extension, its low four bytes are read as an
`int` again, and that is extended once more. The `chare_index_t` in the middle is a
temporary: `operator[]` keeps a reference into it, and reads it after the temporary is
gone. So the index of the element is the one asked for only if the storage still holds
it, and then the one that becomes `chare_bcast_root_` is -1 (`elementIndex_root`).

A message for another index is never taken as a broadcast: wherever `deliver_now` gets
it, `try_deliver` gets it next, and sends it to the home PE, keeps it there, or gives it
to the element that has the index (`pointToPoint_iff`).

Mirroring notes:
- What is read of a temporary that is gone is undefined. `gone` is what its storage has
  instead of its value: the identity where the storage is left alone, as in a build
  without optimisation; anything else in one that reuses or drops the store.
- `decode` reads the first four of eight bytes where the first byte is the lowest.
- `index()` of an element is `decode` of `index_`, its key in `chares_`.
-/

namespace CharmExperiments.Charmlite

open CharmExperiments.Lib

/-- `index_view<int>::decode`. -/
def decode (idx : ChareIndex) : BitVec 32 := idx.setWidth 32

/-- What `view` gives in `col[i]`: `decode` returned a reference into the temporary that
`i` was converted to. -/
def viewOf (gone : ChareIndex → ChareIndex) (i : BitVec 32) : BitVec 32 :=
  decode (gone (encode i.toInt))

/-- The `idx_` of `col[i]`: what `view` gives is converted once more. -/
def elementIndex (gone : ChareIndex → ChareIndex) (i : BitVec 32) : ChareIndex :=
  encode (viewOf gone i).toInt

/-! ## There and back -/

/-- What is encoded is decoded. -/
theorem decode_encode (i : BitVec 32) : decode (encode i.toInt) = i := by
  apply BitVec.eq_of_toInt_eq
  rw [decode, encode, BitVec.toInt_setWidth, BitVec.toNat_ofInt]
  have hlow : -2147483648 ≤ i.toInt := BitVec.le_toInt i
  have hhigh : i.toInt < 2147483648 := i.toInt_lt
  have hlong : ((2 ^ 64 : Nat) : Int) = 18446744073709551616 := rfl
  have hint : ((2 ^ 32 : Nat) : Int) = 4294967296 := rfl
  rw [Int.bmod_def, hlong, hint]
  omega

theorem encode_injective {i j : BitVec 32} (h : encode i.toInt = encode j.toInt) :
    i = j := by
  rw [← decode_encode i, h, decode_encode]

variable {gone : ChareIndex → ChareIndex}

/-- The element with this `chare_index_t` has what was read as its `index()`. -/
theorem decode_elementIndex (i : BitVec 32) : decode (elementIndex gone i) =
    viewOf gone i :=
  decode_encode _

/-- Only -1, when it is read, is the index of the broadcast root. -/
theorem elementIndex_root (i : BitVec 32) :
    elementIndex gone i = chareBcastRoot ↔ viewOf gone i = -1 := by
  have hroot : encode (-1 : BitVec 32).toInt = chareBcastRoot := by decide
  constructor
  · intro h
    exact encode_injective (h.trans hroot.symm)
  · intro h
    rw [elementIndex, h]
    exact hroot

/-! ## The way of a message -/

/-- A message that `send` or `insert` of `col[i]` made. -/
structure Message.For (gone : ChareIndex → ChareIndex) (cid : CollectiveIndex)
    (i : BitVec 32) (m : Message) : Prop where
  kind : m.collectiveKind = false
  collective : m.collective = cid
  chare : m.chare = elementIndex gone i
  bcast : m.bcast = 0

/-- What `try_deliver` does with a message: it sends the message to the home PE, or on
the home PE keeps it or calls the entry function of its element with it. -/
inductive Machine.Routed (X : Machine) (p : Nat) (cid : CollectiveIndex)
    (m : Message) (pe : Pe) :
    Bool → Pe → Prop
  | sent {col : Collective} : pe.collectiveTable cid = some col →
    col.chares m.chare = none →
      X.peFor col.mapper m.chare ≠ p →
      Routed X p cid m pe true ((pe.record (.tried m)).push
        (X.peFor col.mapper m.chare) m)
  | kept {col : Collective} : pe.collectiveTable cid = some col →
    col.chares m.chare = none →
      X.peFor col.mapper m.chare = p → Routed X p cid m pe false (pe.record (.tried m))
  | handled {col : Collective} {pe' : Pe} : pe.collectiveTable cid = some col →
      X.peFor col.mapper m.chare = p →
      pe.log ++ [.tried m] ++ [.invoked cid m.chare m] <+: pe'.log →
        Routed X p cid m pe true pe'

/-- All calls. -/
abbrev AnyCall : Call → Prop := fun _ => True

/-- What is asked of the index `i`: at every moment of every run. -/
structure Machine.PointToPoint (X : Machine) (gone : ChareIndex → ChareIndex)
    (i : BitVec 32) :
    Prop where
  determined : ∀ j : BitVec 32, encode j.toInt = elementIndex gone i → j = i
  index : decode (elementIndex gone i) = i
  unicast : elementIndex gone i ≠ chareBcastRoot
  made : ∀ me pe cid entry, let m := newMessage me pe cid (elementIndex gone i) entry
    m.For gone cid i ∧ m.isBroadcast = false
  now : ∀ p, p < X.numPes → ∀ cid m pe pe', X.Gets AnyCall p (.now cid m) pe →
    m.For gone cid i →
    X.Runs p (.now cid m) pe true pe' →
      ∃ done pe₁, X.Runs p (.attempt cid m) pe done pe₁ ∧
      pe' = if done then pe₁ else pe₁.modify cid (·.buffer m)
  tried : ∀ p, p < X.numPes → ∀ cid m pe done pe', X.Gets AnyCall p (.attempt cid m) pe →
    m.For gone cid i → X.Runs p (.attempt cid m) pe done pe' →
      X.Routed p cid m pe done pe'
  handled : ∀ s, X.system.Reachable (fun _ a => a.Within AnyCall) s → ∀ p, p < X.numPes →
    ∀ cid idx m, .invoked cid idx m ∈ (s.pes p).log → m.chare = elementIndex gone i →
      decode idx = i ∧ ∃ col, (s.pes p).collectiveTable cid = some col ∧
        X.peFor col.mapper idx = p

/-! ## Elements are called with messages for their index, at home -/

/-- So it is on PE `me`. -/
structure Homed (X : Machine) (me : Nat) (pe : Pe) : Prop where
  home : ∀ cid, pe.Home X cid me
  invoked : ∀ cid idx m, .invoked cid idx m ∈ pe.log → idx = m.chare ∧
    ∃ col, pe.collectiveTable cid = some col ∧ X.peFor col.mapper idx = me

section Homed

variable {X : Machine} {me : Nat} {pe pe' : Pe} {cid : CollectiveIndex} {idx : ChareIndex}
  {m msg : Message} {i : BitVec 32}

/-- A PE that has its collectives, and called no more entry functions. -/
theorem Homed.same (h : Homed X me pe) (hhome : ∀ cid, pe'.Home X cid me)
    (htable : ∀ cid col, pe.collectiveTable cid = some col →
      ∃ col', pe'.collectiveTable cid = some col' ∧ col'.mapper = col.mapper)
    (hlog : ∀ cid idx m, .invoked cid idx m ∈ pe'.log → .invoked cid idx m ∈ pe.log) :
    Homed X me pe' where
  home := hhome
  invoked := by
    intro cid idx m hmem
    obtain ⟨hidx, col, hcol, hpe⟩ := h.invoked cid idx m (hlog cid idx m hmem)
    obtain ⟨col', hcol', hmapper⟩ := htable cid col hcol
    exact ⟨hidx, col', hcol', hmapper ▸ hpe⟩

/-- Only the messages and the log change. -/
theorem Homed.tables (h : Homed X me pe)
    (htable : pe'.collectiveTable = pe.collectiveTable)
    (hlog : ∀ cid idx m, .invoked cid idx m ∈ pe'.log → .invoked cid idx m ∈ pe.log) :
    Homed X me pe' := by
  refine h.same (fun cid => ?_) (fun cid col hcol => ⟨col, htable ▸ hcol, rfl⟩) hlog
  unfold Pe.Home
  rw [htable]
  exact h.home cid

/-- An event that calls no entry function. -/
theorem Homed.record (h : Homed X me pe) {e : Event} (he : ∀ c j m, e ≠ .invoked c j m) :
    Homed X me (pe.record e) := by
  refine h.tables rfl fun c j m hmem => ?_
  rcases List.mem_append.mp hmem with hold | hnew
  · exact hold
  · exact absurd (List.mem_singleton.mp hnew).symm (he c j m)

/-- An entry function is called with a message for the element, at home. -/
theorem Homed.invoke (h : Homed X me pe) {col : Collective}
    (hcol : pe.collectiveTable cid = some col) (hhome : X.peFor col.mapper m.chare = me) :
    Homed X me (pe.record (.invoked cid m.chare m)) where
  home := h.home
  invoked := by
    intro c j m' hmem
    rcases List.mem_append.mp hmem with hold | hnew
    · exact h.invoked c j m' hold
    · cases List.mem_singleton.mp hnew
      exact ⟨rfl, col, hcol, hhome⟩

/-- A member function changes a collective, but neither its mapper nor, except at home,
its elements. -/
theorem Homed.modify (h : Homed X me pe) {f : Collective → Collective}
    (hmapper : ∀ c, (f c).mapper = c.mapper)
    (hhome : ∀ c, (pe.modify cid f).Home X c me) :
    Homed X me (pe.modify cid f) := by
  refine h.same hhome (fun c col hcol => ?_) fun _ _ _ hmem => hmem
  by_cases hc : c = cid
  · subst hc
    exact ⟨f col, by rw [modify_self, hcol]; rfl, hmapper col⟩
  · exact ⟨col, by rw [modify_ne hc, hcol], rfl⟩

theorem Homed.modify_chares (h : Homed X me pe) {f : Collective → Collective}
    (hf : ∀ c, (f c).mapper = c.mapper ∧
      ∀ idx, ((f c).chares idx).isSome → (c.chares idx).isSome) :
    Homed X me (pe.modify cid f) :=
  h.modify (fun c => (hf c).1) fun c => (h.home c).modify hf

theorem emplace_mapper (col : Collective) : (col.emplace idx).mapper = col.mapper := by
  unfold Collective.emplace
  split <;> rfl

/-- The element of a message is called with it. -/
theorem Homed.called (h : Homed X me pe) {col : Collective} {ch : Chare}
    (hcol : pe.collectiveTable cid = some col) (hch : col.chares m.chare = some ch) :
    Homed X me (pe.record (.invoked cid m.chare m)) :=
  h.invoke hcol (h.home cid col hcol m.chare (by rw [hch]; rfl))

/-- `last_bcast_` advances and copies are sent before. -/
theorem Homed.accept (h : Homed X me pe) {col : Collective} {ch : Chare}
    {children : List ChareIndex} (hcol : pe.collectiveTable cid = some col)
    (hch : col.chares m.chare = some ch) (msg : Message) :
    Homed X me ((X.sendCopies col msg children (pe.modify cid (·.advance m.chare))).record
      (.invoked cid m.chare m)) := by
  have hadvance : Homed X me (pe.modify cid (·.advance m.chare)) :=
    h.modify (fun _ => rfl) fun c => (h.home c).advance m.chare
  have hcol' : (pe.modify cid (·.advance m.chare)).collectiveTable cid =
      some (col.advance m.chare) := by rw [modify_self, hcol]; rfl
  have hcopies :
      Homed X me (X.sendCopies col msg children (pe.modify cid (·.advance m.chare))) :=
    hadvance.tables rfl fun _ _ _ hmem => hmem
  exact hcopies.invoke hcol' (h.home cid col hcol m.chare (by rw [hch]; rfl))

theorem placed_kept (X : Machine) (me : Nat) :
    Machine.Kept X me AnyCall (fun _ => True) (Homed X me) where
  bodies := fun _ _ _ _ => trivial
  stored := fun _ _ _ _ _ _ _ _ => trivial
  waiting := fun _ _ _ _ _ => trivial
  record := fun _ _ he h => h.record fun _ _ _ heq => by rw [heq] at he; cases he
  push := fun _ _ _ _ h => h.tables rfl fun _ _ _ hmem => hmem
  buffer := fun _ _ _ _ h => h.modify_chares fun _ => ⟨rfl, fun _ => id⟩
  popFront := fun _ _ _ h => h.modify_chares fun _ => ⟨rfl, fun _ => id⟩
  bufferCollective := fun _ _ _ h => h.tables rfl fun _ _ _ hmem => hmem
  take := fun _ _ _ _ _ h => h.tables rfl fun _ _ _ hmem => hmem
  construct := by
    intro pe cid msg col hcol _ hhome _ h
    have hemplace : Homed X me (pe.modify cid (·.emplace msg.chare)) :=
      h.modify (fun c => emplace_mapper c) fun c => (h.home c).emplace hcol hhome
    have hcol' : (pe.modify cid (·.emplace msg.chare)).collectiveTable cid =
        some (col.emplace msg.chare) := by rw [modify_self, hcol]; rfl
    -- the element is made where its constructor message is delivered: at home
    exact hemplace.invoke hcol' ((emplace_mapper col).symm ▸ hhome)
  plain := fun _ _ _ _ _ hcol _ hch _ _ h => h.called hcol hch
  accept := fun _ _ msg _ _ _ hcol _ hch _ _ _ _ h => h.accept hcol hch msg
  rootNext := by
    intro pe cid msg col root obj children hcol _ _ hsome _ _ _ h
    have hrooted :
        Homed X me (pe.record (.rooted cid (msg.numbered root obj.lastBcast))) :=
      h.record fun _ _ _ heq => by cases heq
    exact hrooted.accept (m := msg.numbered root obj.lastBcast) hcol hsome _
  rootWrapped := by
    intro pe cid msg col root obj hcol _ _ hsome _ _ h
    have hrooted :
        Homed X me (pe.record (.rooted cid (msg.numbered root obj.lastBcast))) :=
      h.record fun _ _ _ heq => by cases heq
    exact hrooted.called (m := msg.numbered root obj.lastBcast) hcol hsome
  insert := fun _ _ _ _ _ h =>
    ⟨trivial, (h.record fun _ _ _ heq => by cases heq).tables rfl
    fun _ _ _ hmem => hmem⟩
  send := fun _ _ _ _ _ h => ⟨trivial, (h.record fun _ _ _ heq => by cases heq).tables rfl
    fun _ _ _ hmem => hmem⟩
  collective := fun _ _ _ h => (h.record fun _ _ _ heq => by cases heq).tables rfl
    fun _ _ _ hmem => hmem
  group := fun _ _ _ _ h => (h.record fun _ _ _ heq => by cases heq).tables rfl
    fun _ _ _ hmem => hmem

theorem placed_systemKept (X : Machine) :
    SystemKept X AnyCall (fun _ => True) fun p => Homed X p where
  kept := fun p _ => placed_kept X p
  init := fun _ _ => ⟨fun _ _ h => (by cases h), fun _ _ _ h => by cases h⟩
  sent := fun _ _ _ _ _ => trivial
  settle := fun _ _ h => h.tables rfl fun _ _ _ hmem => hmem
  create := by
    intro p pe msg _ hnone _ h
    refine h.same (fun cid => (h.home cid).create msg)
      (fun cid col hcol => ⟨col, ?_, rfl⟩)
      fun _ _ _ hmem => hmem
    have hne : cid ≠ msg.collective := fun heq => by
      rw [heq, hnone] at hcol
      cases hcol
    exact (Function.update_of_ne hne ..).trans hcol

/-! ## No broadcast -/

theorem Message.For.chare_ne (h : m.For gone cid i) (hi : viewOf gone i ≠ -1) :
    m.chare ≠ chareBcastRoot :=
  fun heq => hi ((elementIndex_root i).mp (h.chare.symm.trans heq))

theorem Message.For.isBroadcast (h : m.For gone cid i) (hi : viewOf gone i ≠ -1) :
    m.isBroadcast = false := by
  simp [Message.isBroadcast, h.bcast, h.chare_ne hi]

/-- `deliver_now` hands the message to `try_deliver`. -/
theorem Message.For.now {p : Nat} (h : m.For gone cid i) (hi : viewOf gone i ≠ -1)
    (hrun : X.Runs p (.now cid m) pe true pe') :
    ∃ done pe₁, X.Runs p (.attempt cid m) pe done pe₁ ∧
      pe' = if done then pe₁ else pe₁.modify cid (·.buffer m) := by
  cases hrun with
  | nowRootAbsent _ hroot => exact absurd hroot (h.chare_ne hi)
  | nowRootNext _ hroot => exact absurd hroot (h.chare_ne hi)
  | nowRootWrapped _ hroot => exact absurd hroot (h.chare_ne hi)
  | nowDone _ _ hattempt => exact ⟨true, _, hattempt, rfl⟩
  | nowBuffer _ _ hattempt => exact ⟨false, _, hattempt, rfl⟩

/-- `try_deliver` does one of three things with it. -/
theorem Message.For.routed {p : Nat} {done : Bool} (h : m.For gone cid i)
    (hi : viewOf gone i ≠ -1)
    (hhome : pe.Home X cid p) (hrun : X.Runs p (.attempt cid m) pe done pe') :
    X.Routed p cid m pe done pe' := by
  cases hrun with
  | construct hcol hctor hpe hbody hflush =>
    have hreturned :=
      hbody.whole.starts.trans (List.prefix_append _ [.returned cid m.chare m])
    have hflushed :=
      hflush.whole.starts.trans (List.prefix_append _ [.flushed cid m.chare])
    exact .handled hcol hpe (hreturned.trans hflushed)
  | absent hcol _ hnone hpe => exact .kept hcol hnone hpe
  | forward hcol hpe hnone => exact .sent hcol hnone hpe
  | @present _ _ _ _ col ch hcol hnot hsome hhandle =>
    have hpe := hhome col hcol m.chare (by rw [hsome]; rfl)
    cases hhandle with
    | inOrder _ _ hb =>
      exact absurd hb (by rw [h.isBroadcast hi]; exact Bool.false_ne_true)
    | outOfOrder _ _ hb =>
      exact absurd hb (by rw [h.isBroadcast hi]; exact Bool.false_ne_true)
    | plain _ _ _ hbody =>
      exact .handled hcol hpe (hbody.whole.starts.trans (List.prefix_append _ _))

/-- An index is point-to-point if and only if it is what the storage of the temporary
still gives, and is not -1. -/
theorem pointToPoint_iff (X : Machine) (gone : ChareIndex → ChareIndex) (i : BitVec 32) :
    X.PointToPoint gone i ↔ viewOf gone i = i ∧ i ≠ -1 := by
  constructor
  · intro h
    have hview : viewOf gone i = i := (decode_elementIndex i).symm.trans h.index
    exact ⟨hview, fun hi => h.unicast ((elementIndex_root i).mpr (hview.trans hi))⟩
  · rintro ⟨hview, hi⟩
    replace hi : viewOf gone i ≠ -1 := hview.symm ▸ hi
    refine ⟨fun j hj => (encode_injective hj).trans hview,
      (decode_elementIndex i).trans hview, fun hroot =>
      hi ((elementIndex_root i).mp hroot), fun me pe cid entry => ?_,
      fun p _ cid m pe pe' _ hfor hrun => hfor.now hi hrun, ?_, ?_⟩
    · have hfor :
          (Machine.newMessage me pe cid (elementIndex gone i) entry).For gone cid i :=
        ⟨rfl, rfl, rfl, rfl⟩
      exact ⟨hfor, hfor.isBroadcast hi⟩
    · intro p hp cid m pe done pe' hgets hfor hrun
      exact hfor.routed hi ((gets_kept (placed_systemKept X) hp hgets).2.home cid) hrun
    · intro s hs p hp cid idx m hmem hchare
      have hplaced := (reachable_kept (placed_systemKept X) hs).pes p hp
      obtain ⟨hidx, hcol⟩ := hplaced.invoked cid idx m hmem
      rw [hidx, hchare]
      rw [hidx, hchare] at hcol
      exact ⟨(decode_elementIndex i).trans hview, hcol⟩

end Homed

/-! ## The index -1, and storage that is reused -/

/-- What `col[-1].send` makes on PE 0, after the two messages of `construct`. -/
def minusOne : Message := ⟨⟨0, 2⟩, false, pairGroup, elementIndex id (-1), ⟨7, false⟩, 0⟩

/-- A group on two PEs is made, and the send is delivered. -/
def minusOneRun : List System.Action :=
  [.call 0 1 (.constructGroup 1 1), .deliver 0 3, .deliver 0 3,
    .deliver 0 9, .deliver 0 9,
      .call 0 9 (.send pairGroup (elementIndex id (-1)) 7), .deliver 0 9]

/-- The storage is left alone, and both elements execute the message, as a broadcast. -/
theorem minus_one_broadcast : ∃ s,
    pairMachine.system.Reachable (fun _ a => a.Within AnyCall) s ∧
      .issued minusOne ∈ (s.pes 0).log ∧ minusOne.For id pairGroup (-1) ∧
      (s.pes 0).executed pairGroup (encode 0) = [minusOne.id] ∧
      (s.pes 1).executed pairGroup (encode 1) = [minusOne.id] ∧
      ¬ pairMachine.PointToPoint id (-1) := by
  have hrun : (pairMachine.system.run .init minusOneRun).map (fun s =>
      (decide (.issued minusOne ∈ (s.pes 0).log), (s.pes 0).executed pairGroup (encode 0),
        (s.pes 1).executed pairGroup (encode 1))) =
      some (true, [minusOne.id], [minusOne.id]) := by
    decide +kernel
  obtain ⟨s, hrun, hfacts⟩ := Option.map_eq_some_iff.mp hrun
  obtain ⟨hissued, hfacts⟩ := Prod.mk.inj hfacts
  obtain ⟨hzero, hone⟩ := Prod.mk.inj hfacts
  have hreach : pairMachine.system.Reachable (fun _ a => a.Within AnyCall) s := by
    refine Transition.run_reachable minusOneRun (fun a _ t => ?_) (.init rfl) hrun
    cases a <;> trivial
  refine ⟨s, hreach, of_decide_eq_true hissued, ⟨rfl, rfl, rfl, rfl⟩, hzero,
    hone, fun h => ?_⟩
  exact h.unicast ((elementIndex_root (-1)).mpr rfl)

/-- Storage that reads 0 makes every other index the one of element 0. -/
theorem cleared_zero (X : Machine) {i : BitVec 32} (hi : i ≠ 0) :
    elementIndex (fun _ => 0) i = encode 0 ∧ ¬ X.PointToPoint (fun _ => 0) i :=
  ⟨rfl, fun h => hi (h.index.symm.trans rfl)⟩

end CharmExperiments.Charmlite
