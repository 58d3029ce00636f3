import CharmExperiments.Charmlite.Held

/-!
# The numbers of broadcasts

The root numbers a broadcast with the successor of its 16-bit `last_bcast_`;
`handle_` compares the number, as an `int`, with the successor of `last_bcast_`,
and the number 0 says that a message is no broadcast. `last_bcast_` counts the
broadcasts an element has executed in order (`NumberInv`), up to 65535. The next
one after that gets the number 0: it runs on the root alone, and so does every
later one, since `last_bcast_` no longer advances (`root_numbers_iff`).
-/

namespace CharmExperiments.Charmlite

open CharmExperiments.Lib

/-- The broadcast that an event executes on an element. -/
def Event.executes (cid : CollectiveIndex) (idx : ChareIndex) : Event → Option MessageId
  | .invoked c i m => if c = cid ∧ i = idx ∧ m.bcast ≠ 0 then some m.id else none
  | _ => none

/-- The broadcasts an element on this PE has executed under a number, in order. -/
def Pe.executed (pe : Pe) (cid : CollectiveIndex) (idx : ChareIndex) : List MessageId :=
  pe.log.filterMap (Event.executes cid idx)

/-- The broadcast that an event gives to the root element. -/
def Event.roots (cid : CollectiveIndex) : Event → Option MessageId
  | .rooted c m => if c = cid then some m.id else none
  | _ => none

/-- The broadcasts the root element on this PE has processed, in order. -/
def Pe.rooted (pe : Pe) (cid : CollectiveIndex) : List MessageId :=
  pe.log.filterMap (Event.roots cid)

def Pe.chareAt (pe : Pe) (cid : CollectiveIndex) (idx : ChareIndex) : Option Chare :=
  (pe.collectiveTable cid).bind (·.chares idx)

/-- `last_bcast_`, 0 before the element is constructed. -/
def Pe.lastBcast (pe : Pe) (cid : CollectiveIndex) (idx : ChareIndex) : Nat :=
  ((pe.chareAt cid idx).map (·.lastBcast.toNat)).getD 0

/-- The index of a broadcast root is for messages to entries that are no constructors. -/
def Call.Proper : Call → Prop
  | .insert _ idx _ => idx ≠ chareBcastRoot
  | _ => True

def Machine.Within (X : Machine) (A : Call → Prop) : Prop :=
  ∀ me log msg, ∀ c ∈ X.body me log msg, A c

/-- A broadcast is for no constructor, and once numbered for a PE below the root. -/
structure BcastOk (X : Machine) (msg : Message) : Prop where
  entry : msg.isBroadcast = true → msg.entry.isConstructor = false
  below : msg.bcast ≠ 0 → ∃ p c, c ∈ X.tree.children p ∧ msg.chare = encode c

/-! ## Indices -/

theorem encode_toNat {i : Nat} (h : i < 2 ^ 31) : (encode i).toNat = i := by
  have hcast : encode (i : Int) = BitVec.ofNat 64 i := BitVec.ofInt_natCast ..
  rw [hcast, BitVec.toNat_ofNat]
  omega

theorem encode_inj {i j : Nat} (hi : i < 2 ^ 31) (hj : j < 2 ^ 31)
    (h : encode i = encode j) : i = j := by
  rw [← encode_toNat hi, h, encode_toNat hj]

theorem encode_ne_root {i : Nat} (h : i < 2 ^ 31) : encode i ≠ chareBcastRoot := by
  intro heq
  have hnat := encode_toNat h
  rw [heq, show chareBcastRoot.toNat = 2 ^ 64 - 1 from rfl] at hnat
  omega

section Group

variable {X : Machine} {p c : Nat}

/-- A group has its element `c` on PE `c`. -/
theorem peFor_encode (h : c < X.numPes) : X.peFor .group (encode c) = c := by
  have hlt := X.numPes_lt
  rw [Machine.peFor, encode_toNat (by omega), Nat.mod_eq_of_lt h]

theorem child_ne_root (h : c ∈ X.tree.children p) : encode c ≠ encode 0 := by
  have hlt := X.numPes_lt
  have hc := X.tree.lt p c h
  intro heq
  have hzero : c = 0 := encode_inj (by omega) (by decide) heq
  exact X.tree.root p (hzero ▸ h)

/-- The copies of a broadcast go to the children of the PE. -/
theorem upstream_group (hp : p < X.numPes) :
    X.upstream p .group (encode p) =
      .ok ((X.tree.children p).map fun c : Nat => encode c) := by
  rw [Machine.upstream, peFor_encode hp]
  split
  · rfl
  · next hnone =>
    rw [Nat.pos_iff_ne_zero, not_not, List.length_eq_zero_iff] at hnone
    rw [hnone, List.map_nil]

end Group

/-! ## `last_bcast_` and what was executed -/

section Counts

variable {X : Machine} {pe : Pe} {e : Event} {cid i : CollectiveIndex}
  {idx j : ChareIndex}
  {msg : Message} {col : Collective} {ch : Chare}

theorem executed_record :
    (pe.record e).executed cid idx = pe.executed cid idx ++
    (e.executes cid idx).toList := by
  rw [Pe.executed, record_log, List.filterMap_append, Pe.executed]
  cases h : e.executes cid idx <;> simp [h]

theorem executed_same (h : e.executes cid idx = none) :
    (pe.record e).executed cid idx = pe.executed cid idx := by
  rw [executed_record, h]
  exact List.append_nil _

theorem rooted_record :
    (pe.record e).rooted cid = pe.rooted cid ++ (e.roots cid).toList := by
  rw [Pe.rooted, record_log, List.filterMap_append, Pe.rooted]
  cases h : e.roots cid <;> simp [h]

theorem rooted_same (h : e.roots cid = none) :
    (pe.record e).rooted cid = pe.rooted cid := by
  rw [rooted_record, h]
  exact List.append_nil _

theorem executes_passing (h : e.Passing) : e.executes cid idx = none := by
  cases h <;> rfl

theorem roots_passing (h : e.Passing) : e.roots cid = none := by
  cases h <;> rfl

theorem lastBcast_of_chare (hcol : pe.collectiveTable cid = some col)
    (hch : col.chares idx = some ch) : pe.lastBcast cid idx = ch.lastBcast.toNat := by
  simp [Pe.lastBcast, Pe.chareAt, hcol, hch]

/-- A member function that leaves `chares_` alone leaves `last_bcast_` alone. -/
theorem lastBcast_modify {f : Collective → Collective}
    (hf : ∀ c, (f c).chares = c.chares) : (pe.modify i f).lastBcast cid idx =
    pe.lastBcast cid idx := by
  unfold Pe.lastBcast Pe.chareAt
  by_cases hi : cid = i
  · subst hi
    rw [modify_self]
    cases pe.collectiveTable cid with
    | none => rfl
    | some c => simp [hf c]
  · rw [modify_ne hi]

/-- A chare under construction has executed nothing, as none has before. -/
theorem lastBcast_emplace :
    (pe.modify i (·.emplace j)).lastBcast cid idx = pe.lastBcast cid idx := by
  unfold Pe.lastBcast Pe.chareAt
  by_cases hi : cid = i
  · subst hi
    rw [modify_self]
    cases pe.collectiveTable cid with
    | none => rfl
    | some c =>
      simp only [Option.map_some, Option.bind_some, Collective.emplace]
      split
      · rfl
      · next hnone =>
        by_cases hj : idx = j
        · subst hj
          simp [hnone, Chare.new]
        · simp [Function.update_of_ne hj]
  · rw [modify_ne hi]

theorem lastBcast_advance_self (hcol : pe.collectiveTable cid = some col)
    (hch : col.chares idx = some ch) (hlt : ch.lastBcast.toNat + 1 < 2 ^ 16) :
    (pe.modify cid (·.advance idx)).lastBcast cid idx = pe.lastBcast cid idx + 1 := by
  rw [lastBcast_of_chare hcol hch, ← Machine.toNat_next hlt]
  simp [Pe.lastBcast, Pe.chareAt, hcol, Collective.advance, hch]

theorem lastBcast_advance_ne (h : ¬ (cid = i ∧ idx = j)) :
    (pe.modify i (·.advance j)).lastBcast cid idx = pe.lastBcast cid idx := by
  unfold Pe.lastBcast Pe.chareAt
  by_cases hi : cid = i
  · subst hi
    rw [modify_self]
    have hj : idx ≠ j := fun hj => h ⟨rfl, hj⟩
    cases pe.collectiveTable cid with
    | none => rfl
    | some c => simp [Collective.advance, Function.update_of_ne hj]
  · rw [modify_ne hi]

end Counts

/-! ## Elements are on their home PE -/

/-- The elements a PE has of the collective are at home there. -/
def Pe.Home (X : Machine) (cid : CollectiveIndex) (me : Nat) (pe : Pe) : Prop :=
  ∀ col, pe.collectiveTable cid = some col →
    ∀ idx, (col.chares idx).isSome → X.peFor col.mapper idx = me

section Home

variable {X : Machine} {me : Nat} {pe : Pe} {cid i : CollectiveIndex}

theorem Pe.Home.modify (h : pe.Home X cid me) {f : Collective → Collective}
    (hf : ∀ c, (f c).mapper = c.mapper ∧
      ∀ idx, ((f c).chares idx).isSome → (c.chares idx).isSome) :
    (pe.modify i f).Home X cid me := by
  intro col hcol idx hsome
  by_cases hi : cid = i
  · subst hi
    rw [modify_self, Option.map_eq_some_iff] at hcol
    obtain ⟨c, hc, rfl⟩ := hcol
    rw [(hf c).1]
    exact h c hc idx ((hf c).2 idx hsome)
  · rw [modify_ne hi] at hcol
    exact h col hcol idx hsome

theorem Pe.Home.emplace (h : pe.Home X cid me) {col : Collective} {j : ChareIndex}
    (hcol : pe.collectiveTable i = some col) (hhome : X.peFor col.mapper j = me) :
    (pe.modify i (·.emplace j)).Home X cid me := by
  intro col' hcol' idx hsome
  by_cases hi : cid = i
  · subst hi
    rw [modify_self, hcol, Option.map_some, Option.some.injEq] at hcol'
    subst hcol'
    simp only [Collective.emplace] at hsome ⊢
    split at hsome
    next => exact h col hcol idx hsome
    next hnone =>
      by_cases hj : idx = j
      · rw [hj]
        exact hhome
      · simp only [Function.update_of_ne hj] at hsome
        exact h col hcol idx hsome
  · rw [modify_ne hi] at hcol'
    exact h col' hcol' idx hsome

theorem Pe.Home.advance (h : pe.Home X cid me) (j : ChareIndex) :
    (pe.modify i (·.advance j)).Home X cid me := by
  refine h.modify fun c => ⟨rfl, fun idx hsome => ?_⟩
  by_cases hj : idx = j
  · subst hj
    simpa [Collective.advance] using hsome
  · simpa [Collective.advance, Function.update_of_ne hj] using hsome

theorem Pe.Home.create (h : pe.Home X cid me) (msg : Message) :
    (X.create msg pe).Home X cid me := by
  intro col hcol idx hsome
  by_cases hi : cid = msg.collective
  · subst hi
    simp only [Machine.create, Function.update_self] at hcol
    obtain rfl := Option.some.inj hcol
    cases hsome
  · simp only [Machine.create, Function.update_of_ne hi] at hcol
    exact h col hcol idx hsome

end Home

/-! ## The invariant -/

/-- `last_bcast_` counts what was executed; at the root it stops at 65535. -/
structure NumberInv (X : Machine) (g : CollectiveIndex) (me : Nat) (pe : Pe) : Prop where
  all : pe.All (BcastOk X)
  home : pe.Home X g me
  last : ∀ idx, (pe.executed g idx).length = pe.lastBcast g idx
  root : pe.executed g (encode 0) = (pe.rooted g).take (2 ^ 16 - 1)

section NumberInv

variable {X : Machine} {me : Nat} {pe pe' : Pe} {g : CollectiveIndex}

/-- A step that executes nothing. -/
theorem NumberInv.same (h : NumberInv X g me pe) (hall : pe'.All (BcastOk X))
    (hhome : pe'.Home X g me) (hlast : ∀ idx, pe'.lastBcast g idx = pe.lastBcast g idx)
    (hexecuted : ∀ idx, pe'.executed g idx = pe.executed g idx)
    (hrooted : pe'.rooted g = pe.rooted g) : NumberInv X g me pe' where
  all := hall
  home := hhome
  last := fun idx => by rw [hexecuted, hlast, h.last]
  root := by rw [hexecuted, hrooted, h.root]

theorem NumberInv.record (h : NumberInv X g me pe) {e : Event}
    (he : ∀ idx, e.executes g idx = none) (hr : e.roots g = none) :
    NumberInv X g me (pe.record e) :=
  h.same (h.all.record e) h.home (fun _ => rfl) (fun idx => executed_same (he idx))
    (rooted_same hr)

/-- A message that was never numbered executes no broadcast. -/
theorem executes_plain {cid : CollectiveIndex} {idx j : ChareIndex} {msg : Message}
    (h : msg.bcast = 0) : (Event.invoked cid j msg).executes g idx = none := by
  simp [Event.executes, h]

theorem bcast_of_plain {msg : Message} (h : msg.isBroadcast = false) : msg.bcast = 0 := by
  simp only [Message.isBroadcast, Bool.or_eq_false_iff, bne_eq_false_iff_eq] at h
  exact h.1

/-- A constructor was never numbered. -/
theorem BcastOk.constructor {msg : Message} (h : BcastOk X msg)
    (hctor : msg.entry.isConstructor = true) : msg.bcast = 0 := by
  refine bcast_of_plain (Bool.eq_false_iff.mpr fun hb => ?_)
  rw [h.entry hb] at hctor
  cases hctor

/-- An element takes a broadcast: all other elements are as before. -/
theorem NumberInv.takes (h : NumberInv X g me pe) {cid : CollectiveIndex}
    {idx : ChareIndex}
    {msg : Message} (hall : pe'.All (BcastOk X)) (hhome : pe'.Home X g me)
    (hlast : ∀ i, pe'.lastBcast g i = pe.lastBcast g i + if g = cid ∧ i = idx then 1
      else 0)
    (hexecuted : ∀ i, pe'.executed g i
      = pe.executed g i ++ if g = cid ∧ i = idx then [msg.id] else [])
    (hroot : pe'.executed g (encode 0) = (pe'.rooted g).take (2 ^ 16 - 1)) :
    NumberInv X g me pe' where
  all := hall
  home := hhome
  last := by
    intro i
    rw [hexecuted, hlast, List.length_append, h.last]
    split <;> rfl
  root := hroot

/-- What `invoked` adds for a message with a number. -/
theorem executed_invoked {cid : CollectiveIndex} {idx i : ChareIndex} {msg : Message}
    (hne : msg.bcast ≠ 0) :
    (pe.record (.invoked cid idx msg)).executed g i
      = pe.executed g i ++ if g = cid ∧ i = idx then [msg.id] else [] := by
  rw [executed_record, Event.executes]
  by_cases hi : g = cid ∧ i = idx
  · rw [if_pos hi, if_pos ⟨hi.1.symm, hi.2.symm, hne⟩]
    rfl
  · rw [if_neg hi, if_neg fun hc => hi ⟨hc.1.symm, hc.2.1.symm⟩]
    rfl

theorem lastBcast_advance {cid : CollectiveIndex} {idx i : ChareIndex} {col : Collective}
    {ch : Chare} (hcol : pe.collectiveTable cid = some col)
    (hch : col.chares idx = some ch) (hlt : ch.lastBcast.toNat + 1 < 2 ^ 16) :
    (pe.modify cid (·.advance idx)).lastBcast g i
      = pe.lastBcast g i + if g = cid ∧ i = idx then 1 else 0 := by
  split
  next hi =>
    obtain ⟨rfl, rfl⟩ := hi
    exact lastBcast_advance_self hcol hch hlt
  next hi => exact lastBcast_advance_ne hi

theorem bcastOk_closed (hX : X.Within Call.Proper) :
    X.Closed Call.Proper (BcastOk X) where
  bodies := hX
  insert := fun _ _ idx _ hidx =>
    ⟨fun hb => absurd hb (by simpa [Message.isBroadcast, Call.Proper] using hidx),
    fun h => absurd rfl h⟩
  send := fun _ _ _ _ _ => ⟨fun _ => rfl, fun h => absurd rfl h⟩
  kind := fun _ _ _ _ => ⟨fun _ => rfl, fun h => absurd rfl h⟩
  constructor := by
    intro id cid i constructor hi
    have hlt := X.numPes_lt
    have hne := @encode_ne_root i (by omega)
    exact ⟨fun hb => absurd hb (by simpa [Message.isBroadcast] using hne),
      fun h => absurd rfl h⟩
  copy := fun p c _ hc hb hm => ⟨fun _ => hm.entry hb, fun _ => ⟨p, c, hc, rfl⟩⟩
  number := fun p c msg _ hc hbcast hm =>
    ⟨fun _ => hm.entry (by simp [Message.isBroadcast, hbcast]), fun _ => ⟨p, c, hc, rfl⟩⟩

theorem bcastOk_kept (hX : X.Within Call.Proper) (hpes : 0 < X.numPes) (me : Nat) :
    Machine.Kept X me Call.Proper (BcastOk X) (Pe.All (BcastOk X)) :=
      all_kept (bcastOk_closed hX) hpes

theorem numberInv_kept (hX : X.Within Call.Proper) (hpes : 0 < X.numPes) :
    Machine.Kept X me Call.Proper (BcastOk X) (NumberInv X g me) where
  bodies := hX me
  stored := fun _ h => h.all.stored
  waiting := fun _ h => h.all.waiting
  record := fun _ _ he h => h.record (fun _ => executes_passing he) (roots_passing he)
  push := fun _ dst _ hm h =>
    h.same (h.all.push dst hm) h.home (fun _ => rfl) (fun _ => rfl) rfl
  buffer := fun pe cid m hm h =>
    h.same ((bcastOk_kept hX hpes me).buffer pe cid m hm h.all)
    (h.home.modify fun _ => ⟨rfl, fun _ => id⟩) (fun _ => lastBcast_modify fun _ => rfl)
    (fun _ => rfl) rfl
  popFront := fun pe cid idx h =>
    h.same ((bcastOk_kept hX hpes me).popFront pe cid idx h.all)
    (h.home.modify fun _ => ⟨rfl, fun _ => id⟩) (fun _ => lastBcast_modify fun _ => rfl)
    (fun _ => rfl) rfl
  bufferCollective := fun _ _ hm h =>
    h.same (h.all.bufferCollective hm) h.home (fun _ => rfl) (fun _ => rfl) rfl
  take := fun _ _ _ _ hfront h =>
    h.same (h.all.take hfront) h.home (fun _ => rfl) (fun _ => rfl) rfl
  construct := by
    intro pe cid msg col hcol hctor hhome hm h
    have hemplace : NumberInv X g me (pe.modify cid (·.emplace msg.chare)) :=
      h.same (h.all.modify cid fun _ _ _ hx => Or.inl (by rwa [emplace_buffers] at hx))
        (h.home.emplace hcol hhome) (fun _ => lastBcast_emplace) (fun _ => rfl) rfl
    exact hemplace.record (fun _ => executes_plain (hm.constructor hctor)) rfl
  plain := fun _ _ _ _ _ _ _ _ hb _ h =>
    h.record (fun _ => executes_plain (bcast_of_plain hb)) rfl
  accept := by
    intro pe cid msg col ch children hcol hctor hch hb horder hup hm h
    have hne : msg.bcast ≠ 0 := by
      intro hzero
      rw [hzero] at horder
      cases horder
    have hlt : ch.lastBcast.toNat + 1 < 2 ^ 16 := horder ▸ msg.bcast.isLt
    refine h.takes ((bcastOk_kept hX hpes me).accept _ _ _ _ _ _ hcol hctor hch hb horder
      hup hm h.all) (h.home.advance _) (fun _ => lastBcast_advance hcol hch hlt)
      (fun _ => executed_invoked hne) ?_
    -- a copy is not for the root
    obtain ⟨q, c, hc, hchare⟩ := hm.below hne
    rw [executed_invoked hne, if_neg fun hi =>
      child_ne_root hc (hchare.symm.trans hi.2.symm),
      List.append_nil, rooted_same rfl]
    exact h.root
  rootNext := by
    intro pe cid msg col root obj children hcol hbcast hroot hsome hlt hup hm h
    obtain ⟨hgroup, rfl⟩ := Machine.root_eq hroot
    have hne : (msg.numbered (encode 0) obj.lastBcast).bcast ≠ 0 := by
      intro hzero
      have hnext := (@Machine.numbered_next msg _ hlt).2
      rw [hzero] at hnext
      cases hnext
    refine h.takes ((bcastOk_kept hX hpes me).rootNext _ _ _ _ _ _ _ hcol hbcast hroot
      hsome hlt hup hm h.all) (Pe.Home.advance h.home _)
      (fun _ => @lastBcast_advance (pe.record _) _ _ _ _ _ _ hcol hsome hlt)
      (fun _ => (executed_invoked hne).trans (congrArg (· ++ _) (executed_same rfl))) ?_
    rw [executed_invoked hne, rooted_same rfl]
    show ((pe.record _).executed g (encode 0)) ++ _ = ((pe.record _).rooted g).take _
    rw [executed_same rfl, rooted_record, h.root]
    by_cases hg : g = cid
    · subst hg
      have hcount := (h.last _).trans (lastBcast_of_chare hcol hsome)
      rw [h.root, List.length_take] at hcount
      rw [if_pos ⟨rfl, rfl⟩, Event.roots, if_pos rfl, List.take_of_length_le (by omega),
        List.take_of_length_le (by simp; omega)]
      rfl
    · rw [if_neg fun hi => hg hi.1, Event.roots, if_neg (Ne.symm hg)]
      simp
  rootWrapped := by
    intro pe cid msg col root obj hcol hbcast hroot hsome hwrap hm h
    obtain ⟨hgroup, rfl⟩ := Machine.root_eq hroot
    have hzero := bcast_of_plain (@Machine.numbered_wrapped msg _ hwrap)
    have hlog : ∀ i,
      ((pe.record (.rooted cid (msg.numbered (encode 0) obj.lastBcast))).record
        (.invoked cid (encode 0) (msg.numbered (encode 0) obj.lastBcast))).executed g i
        = pe.executed g i :=
      fun i => (executed_same (executes_plain hzero)).trans (executed_same rfl)
    refine ⟨(h.all.record _).record _, h.home,
      fun i => (congrArg _ (hlog i)).trans (h.last i), ?_⟩
    rw [hlog, rooted_same rfl, rooted_record, h.root]
    by_cases hg : g = cid
    · subst hg
      -- all 65535 numbers are used
      have hcount := (h.last _).trans (lastBcast_of_chare hcol hsome)
      rw [h.root, List.length_take] at hcount
      rw [List.take_append_of_le_length (by omega)]
    · rw [Event.roots, if_neg (Ne.symm hg)]
      simp
  insert := fun _ _ _ _ hA h => ⟨(bcastOk_closed hX).insert _ _ _ _ hA,
    (h.record (fun _ => rfl) rfl).same ⟨h.all.stored, h.all.waiting, h.all.sent⟩ h.home
      (fun _ => rfl) (fun _ => rfl) rfl⟩
  send := fun _ _ _ _ hA h => ⟨(bcastOk_closed hX).send _ _ _ _ hA,
    (h.record (fun _ => rfl) rfl).same ⟨h.all.stored, h.all.waiting, h.all.sent⟩ h.home
      (fun _ => rfl) (fun _ => rfl) rfl⟩
  collective := fun pe kind hA h => (h.record (fun _ => rfl) rfl).same
    ((bcastOk_kept hX hpes me).collective pe kind hA h.all) h.home (fun _ => rfl)
    (fun _ => rfl) rfl
  group := fun pe kind constructor hA h => (h.record (fun _ => rfl) rfl).same
    ((bcastOk_kept hX hpes me).group pe kind constructor hA h.all) h.home (fun _ => rfl)
    (fun _ => rfl) rfl

theorem numberInv_systemKept (hX : X.Within Call.Proper) (g : CollectiveIndex) :
    SystemKept X Call.Proper (BcastOk X) fun p => NumberInv X g p where
  kept := fun p hp => numberInv_kept hX (by omega)
  init := fun _ _ => ⟨Pe.init_all, (fun _ h => by cases h), fun _ => rfl, rfl⟩
  sent := fun _ _ h => h.all.sent
  settle := fun _ _ h =>
    h.same h.all.settle h.home (fun _ => rfl) (fun _ => rfl) rfl
  create := by
    intro p pe msg _ hnone _ h
    refine h.same (h.all.create msg) (h.home.create msg) ?_ (fun _ => rfl) rfl
    intro idx
    unfold Pe.lastBcast Pe.chareAt
    by_cases hg : g = msg.collective
    · subst hg
      simp [Machine.create, hnone, Collective.new]
    · simp [Machine.create, Function.update_of_ne hg]

end NumberInv

/-! ## The n-th broadcast -/

/-- The copies of a broadcast that PE `p` sends: one to each child. -/
def Machine.copies (X : Machine) (p : Nat) (msg : Message) : List (Nat × Message) :=
  (X.tree.children p).map fun c => (c, { msg with chare := encode c })

/-- `handle_` runs the message on the element as the broadcast that is next: it
sends the copies and advances `last_bcast_`, and goes on with the entry function. -/
def Machine.Takes (X : Machine) (p : Nat) (g : CollectiveIndex) (msg : Message)
    (pe : Pe) : Prop :=
  msg.isBroadcast = true ∧ ∃ pe₁ : Pe,
    (∀ fuel, X.handle p (fuel + 1) g (encode p) msg pe
      = (X.invoke p fuel g (encode p) msg pe₁ >>= X.flushBuffers p fuel g (encode p))) ∧
    pe₁.sent = pe.sent ++ X.copies p msg ∧
    pe₁.lastBcast g (encode p) = pe.lastBcast g (encode p) + 1

/-- What processing a broadcast is to do at the root `obj`: `deliver_now` numbers
it, the root takes it, and so does each child, whenever the copy gets to it when
it has executed as many broadcasts as the root had before. -/
structure Machine.NumbersNext (X : Machine) (A : Call → Prop) (g : CollectiveIndex)
    (msg : Message) (obj : Chare) (pe : Pe) : Prop where
  now : ∀ fuel, X.deliverNow 0 (fuel + 1) g msg pe
    = X.handle 0 fuel g (encode 0) (msg.numbered (encode 0) obj.lastBcast)
      (pe.record (.rooted g (msg.numbered (encode 0) obj.lastBcast)))
  root : X.Takes 0 g (msg.numbered (encode 0) obj.lastBcast)
    (pe.record (.rooted g (msg.numbered (encode 0) obj.lastBcast)))
  child : ∀ c ∈ X.tree.children 0, ∀ task pe', X.Gets A c task pe' → ∀ col' ch',
    pe'.collectiveTable g = some col' → col'.mapper = .group →
    col'.chares (encode c) = some ch' → (pe'.executed g (encode c)).length =
      (pe.rooted g).length →
    X.Takes c g { msg.numbered (encode 0) obj.lastBcast with chare := encode c } pe'

section Takes

variable {X : Machine} {p : Nat} {g : CollectiveIndex} {msg : Message} {pe : Pe}
  {col : Collective} {ch : Chare}

theorem takes_next (hp : p < X.numPes) (hcol : pe.collectiveTable g = some col)
    (hgroup : col.mapper = .group) (hch : col.chares (encode p) = some ch)
    (hb : msg.isBroadcast = true) (horder : msg.bcast.toNat = ch.lastBcast.toNat + 1) :
    X.Takes p g msg pe := by
  have hlt : ch.lastBcast.toNat + 1 < 2 ^ 16 := horder ▸ msg.bcast.isLt
  refine ⟨hb, X.sendCopies col msg ((X.tree.children p).map fun c : Nat => encode c)
    (pe.modify g (·.advance (encode p))), ?_, ?_, ?_⟩
  · intro fuel
    rw [Machine.handle, hcol]
    simp only [hch, hb, if_true, horder, hgroup, upstream_group hp,
      Machine.foldl_deliverLater]
    rfl
  · show pe.sent ++ _ = _
    rw [Machine.copies, List.map_map, hgroup]
    congr 1
    refine List.map_congr_left fun c hc => ?_
    exact congrArg (·, _) (peFor_encode (X.tree.lt p c hc))
  · exact lastBcast_advance_self hcol hch hlt

/-- The root of a group is on PE 0. -/
theorem root_home (hp : p < X.numPes) (h : pe.Home X g p)
    (hcol : pe.collectiveTable g = some col) (hgroup : col.mapper = .group)
    (hch : col.chares (encode 0) = some ch) : p = 0 := by
  have hhome := h col hcol (encode 0) (by rw [hch]; rfl)
  have hzero := @peFor_encode X 0 (by omega)
  rw [hgroup] at hhome
  exact hhome.symm.trans hzero

/-- The number after 65535 is that of no broadcast. -/
theorem not_takes_wrapped {last : BcastId} (h : last.toNat + 1 = 2 ^ 16) :
    ¬ X.Takes 0 g (msg.numbered (encode 0) last) pe := by
  rintro ⟨hb, _⟩
  rw [Machine.numbered_wrapped h] at hb
  cases hb

end Takes

variable {X : Machine} {g : CollectiveIndex} {msg : Message}

/-- **The n-th broadcast.** Wherever `deliver_now` gets a broadcast for a group on
the PE with the root element, for that element the n-th: it is numbered, taken by
the root with one copy for each child, and taken by each child that has executed
the n - 1 before, exactly if n is less than 65536. -/
theorem root_numbers_iff (hX : X.Within Call.Proper) {p : Nat}
    (hp : p < X.numPes) {pe : Pe} (hgets : X.Gets Call.Proper p (.now g msg) pe)
    (hbcast : msg.chare = chareBcastRoot)
    {col : Collective} {obj : Chare} (hcol : pe.collectiveTable g = some col)
    (hgroup : col.mapper = .group) (hroot : col.chares (encode 0) = some obj) {n : Nat}
    (hn : (pe.rooted g).length + 1 = n) :
    p = 0 ∧ (X.NumbersNext Call.Proper g msg obj pe ↔ n < 65536) := by
  have hinv := (gets_kept (numberInv_systemKept hX g) hp hgets).2
  obtain rfl := root_home hp hinv.home hcol hgroup hroot
  have hlast : obj.lastBcast.toNat = min (2 ^ 16 - 1) (pe.rooted g).length := by
    rw [← List.length_take, ← hinv.root, hinv.last, lastBcast_of_chare hcol hroot]
  refine ⟨rfl, ?_, ?_⟩
  · intro hnext
    -- from 65535 broadcasts on the number wraps
    by_contra hge
    exact not_takes_wrapped (by omega) hnext.root
  · intro hlt
    obtain ⟨hb, horder⟩ := @Machine.numbered_next msg obj.lastBcast (by omega)
    refine ⟨?_, ?_, ?_⟩
    · intro fuel
      rw [Machine.deliverNow, hcol]
      simp only [hbcast, if_true, hgroup, Machine.root, bind, Except.bind, hroot]
    · exact takes_next hp hcol hgroup hroot hb horder
    · intro c hc task pe' hgets' col' ch' hcol' hgroup' hch' hcount
      have hlt' := X.tree.lt 0 c hc
      have hinv' := (gets_kept (numberInv_systemKept hX g) hlt' hgets').2
      have hlast' : ch'.lastBcast.toNat = (pe.rooted g).length := by
        rw [← hcount, hinv'.last, lastBcast_of_chare hcol' hch']
      refine takes_next hlt' hcol' hgroup' hch' ?_ ?_
      · have hne : (msg.numbered (encode 0) obj.lastBcast).bcast ≠ 0 := by
          intro hzero
          rw [hzero] at horder
          cases horder
        rw [Message.isBroadcast, Bool.or_eq_true]
        exact Or.inl (bne_iff_ne.mpr hne)
      · show (msg.numbered (encode 0) obj.lastBcast).bcast.toNat = _
        omega

/-! ## The 65536-th -/

/-- A group on two PEs, whose entry functions do nothing. -/
def pairMachine : Machine where
  numPes := 2
  numPes_lt := by decide
  tree := .star 2
  kinds := fun _ => .group
  body := fun _ _ _ => []
  indexAfter := fun _ _ msg => msg.chare

/-- The first group made on PE 0. -/
def pairGroup : CollectiveIndex := ⟨0, 1⟩

/-- The group is there with its root, which has processed `k` broadcasts. -/
structure PairReady (k : Nat) (s : System) : Prop where
  reach : pairMachine.system.Reachable (fun _ a => a.Within Call.Proper) s
  rooted : ((s.pes 0).rooted pairGroup).length = k
  root : ∃ col obj, (s.pes 0).collectiveTable pairGroup = some col ∧ col.mapper = .group ∧
    col.chares (encode 0) = some obj ∧ col.buffers (encode 0) = []
  other : ∃ col, (s.pes 1).collectiveTable pairGroup = some col ∧ col.mapper = .group ∧
    col.chares (encode 0) = none

/-- A broadcast is on its way to the root. -/
structure PairIssued (k : Nat) (s : System) (p : Nat) (msg : Message) : Prop where
  ready : PairReady k s
  net : (p, msg) ∈ s.net
  kind : msg.collectiveKind = false
  group : msg.collective = pairGroup
  bcast : msg.chare = chareBcastRoot

theorem pair_within : pairMachine.Within Call.Proper := fun _ _ _ _ hc => by cases hc

theorem pair_init : ∃ s, PairReady 0 s := by
  have hrun : ∃ s, pairMachine.system.run .init
      [.call 0 1 (.constructGroup 1 1), .deliver 0 3, .deliver 0 3,
        .deliver 1 9] = some s ∧
      ((s.pes 0).rooted pairGroup).length = 0 ∧
      (∃ col obj, (s.pes 0).collectiveTable pairGroup = some col ∧ col.mapper = .group ∧
        col.chares (encode 0) = some obj ∧ col.buffers (encode 0) = []) ∧
      ∃ col, (s.pes 1).collectiveTable pairGroup = some col ∧ col.mapper = .group ∧
        col.chares (encode 0) = none :=
    ⟨_, rfl, rfl, ⟨_, _, rfl, rfl, rfl, rfl⟩, ⟨_, rfl, rfl, rfl⟩⟩
  obtain ⟨s, hrun, hrooted, hroot, hother⟩ := hrun
  refine ⟨s, Transition.run_reachable _ ?_ (.init rfl) hrun, hrooted, hroot, hother⟩
  intro a ha t
  rcases a with ⟨p, fuel, c⟩ | _
  · simp only [List.mem_cons, System.Action.call.injEq, reduceCtorEq, List.not_mem_nil,
      or_false] at ha
    rw [ha.2.2]
    trivial
  · trivial

/-- A broadcast is called on PE 0; it goes to PE 1, -/
theorem PairReady.issue {k : Nat} {s : System} (h : PairReady k s) :
    ∃ s' msg, PairIssued k s' 1 msg := by
  obtain ⟨col, obj, hcol, hgroup, hobj, hbuf⟩ := h.root
  let msg := Machine.newMessage 0 (s.pes 0) pairGroup chareBcastRoot ⟨5, false⟩
  let pe := pairMachine.deliverLater col (Machine.issue (s.pes 0) msg) msg
  have hcall : pairMachine.Runs 0 (.call (.broadcast pairGroup 5)) (s.pes 0) true pe :=
    .callCmkSend (.endpointLater hcol)
  obtain ⟨fuel, hstep⟩ := System.step_call (by decide) hcall
  refine ⟨s.settle 0 pe, msg,
    ⟨.step h.reach (a := .call 0 fuel (.broadcast pairGroup 5)) trivial hstep, ?_,
    ⟨col, obj, hcol, hgroup, hobj, hbuf⟩,
    h.other⟩, ?_, rfl, rfl, rfl⟩
  · show (((s.pes 0).record (.issued msg)).rooted pairGroup).length = k
    rw [rooted_same rfl]
    exact h.rooted
  · have hto : pairMachine.peFor col.mapper chareBcastRoot = 1 := by rw [hgroup]; decide
    refine List.mem_append_right _ (List.mem_append_right _ ?_)
    rw [← hto]
    exact List.mem_singleton_self _

/-- which has no root and sends it to PE 0. -/
theorem PairIssued.reroute {k : Nat} {s : System} {msg : Message}
    (h : PairIssued k s 1 msg) :
    ∃ s', PairIssued k s' 0 msg := by
  obtain ⟨col, hcol, hgroup, hnone⟩ := h.ready.other
  have hbcast := h.bcast
  rw [← h.group] at hcol
  let pe := ((s.pes 1).record (.handled msg)).push
    (pairMachine.peFor col.mapper (encode 0)) msg
  have hrun : pairMachine.Delivers 1 msg (s.pes 1) pe := by
    rw [Machine.Delivers, h.kind]
    exact .endpointNow hcol (.nowRootAbsent hcol hbcast (by rw [hgroup]; rfl) hnone)
  obtain ⟨j, hj⟩ := List.getElem?_of_mem h.net
  obtain ⟨fuel, hstep⟩ := System.step_deliver hj (by decide) hrun
  refine ⟨(s.take j).settle 1 pe,
    ⟨.step h.ready.reach (a := .deliver j fuel) trivial hstep,
      h.ready.rooted, h.ready.root,
    ⟨col, h.group ▸ hcol, hgroup, hnone⟩⟩, ?_, h.kind, h.group, hbcast⟩
  have hto : pairMachine.peFor col.mapper (encode 0) = 0 := by rw [hgroup]; decide
  refine List.mem_append_right _ (List.mem_append_right _ ?_)
  rw [hto]
  exact List.mem_singleton_self _

/-- The root processes it while there are numbers. -/
theorem PairIssued.process {k : Nat} {s : System} {msg : Message}
    (h : PairIssued k s 0 msg) (hk : k + 1 < 2 ^ 16) : ∃ s', PairReady (k + 1) s' := by
  obtain ⟨col, obj, hcol, hgroup, hobj, hbuf⟩ := h.ready.root
  have hbcast := h.bcast
  have hinv := (reachable_kept (numberInv_systemKept pair_within pairGroup)
    h.ready.reach).pes 0
    (by decide)
  have hlast : obj.lastBcast.toNat = k := by
    rw [← lastBcast_of_chare hcol hobj, ← hinv.last, hinv.root, List.length_take,
      h.ready.rooted]
    omega
  rw [← h.group] at hcol
  let pe₁ := pairMachine.rootSends col (encode 0) obj msg
    ((pairMachine.tree.children 0).map fun c : Nat => encode c) msg.collective
    ((s.pes 0).record (.handled msg))
  let m := msg.numbered (encode 0) obj.lastBcast
  let pe := (pe₁.record (.invoked msg.collective (encode 0) m)).record
    (.returned msg.collective (encode 0) m)
  have htable : pe.collectiveTable msg.collective = some (col.advance (encode 0)) := by
    show ((((s.pes 0).record _).record _).modify _ _).collectiveTable _ = _
    rw [modify_self, record_collectiveTable, record_collectiveTable, hcol,
      Option.map_some]
  have hrun : pairMachine.Delivers 0 msg (s.pes 0) pe := by
    rw [Machine.Delivers, h.kind]
    refine .endpointNow hcol (.nowRootNext hcol hbcast (by rw [hgroup]; rfl)
      hobj (by omega)
      (by rw [hgroup]; exact upstream_group (p := 0) (by decide)) .callsNil ?_)
    exact .flushEmpty htable hbuf
  obtain ⟨j, hj⟩ := List.getElem?_of_mem h.net
  obtain ⟨fuel, hstep⟩ := System.step_deliver hj (by decide) hrun
  refine ⟨(s.take j).settle 0 pe,
    .step h.ready.reach (a := .deliver j fuel) trivial hstep, ?_, ?_, h.ready.other⟩
  · show ((((((s.pes 0).record _).record _).record _).record _).rooted pairGroup).length =
      k + 1
    rw [rooted_same rfl, rooted_same rfl, rooted_record, rooted_same rfl, Event.roots,
      if_pos h.group, List.length_append, h.ready.rooted]
    rfl
  · refine ⟨col.advance (encode 0), ⟨obj.lastBcast + 1⟩, h.group ▸ htable,
      hgroup, ?_, hbuf⟩
    simp [Collective.advance, hobj]

/-- The root can get to any number of broadcasts up to the last number, -/
theorem pair_ready : ∀ k, k < 2 ^ 16 → ∃ s, PairReady k s := by
  intro k
  induction k with
  | zero => exact fun _ => pair_init
  | succ k ih =>
    intro hk
    obtain ⟨s, hs⟩ := ih (by omega)
    obtain ⟨s₁, msg, h₁⟩ := hs.issue
    obtain ⟨s₂, h₂⟩ := h₁.reroute
    exact h₂.process hk

/-- and to the next one. -/
theorem pair_gets (k : Nat) (hk : k < 2 ^ 16) : ∃ msg pe col obj,
    pairMachine.Gets Call.Proper 0 (.now pairGroup msg) pe ∧ msg.chare = chareBcastRoot ∧
      pe.collectiveTable pairGroup = some col ∧ col.mapper = .group ∧
      col.chares (encode 0) = some obj ∧ (pe.rooted pairGroup).length = k := by
  obtain ⟨s, hs⟩ := pair_ready k hk
  obtain ⟨s₁, msg, h₁⟩ := hs.issue
  obtain ⟨s₂, h₂⟩ := h₁.reroute
  obtain ⟨col, obj, hcol, hgroup, hobj, _⟩ := h₂.ready.root
  have hcol' := hcol
  rw [← h₂.group] at hcol'
  refine ⟨msg, (s₂.pes 0).record (.handled msg), col, obj, ⟨s₂, h₂.ready.reach, _,
    .deliver h₂.net h₂.kind, ?_⟩, h₂.bcast, hcol, hgroup, hobj, ?_⟩
  · rw [← h₂.group]
    exact .single (.endpointNow hcol')
  · rw [rooted_same rfl]
    exact h₂.ready.rooted

/-- The 65536-th broadcast of a group is none: the root's number for it is 0. -/
theorem root_numbers_wrap : ∃ msg pe col obj,
    pairMachine.Gets Call.Proper 0 (.now pairGroup msg) pe ∧ msg.chare = chareBcastRoot ∧
      pe.collectiveTable pairGroup = some col ∧ col.mapper = .group ∧
      col.chares (encode 0) = some obj ∧ (pe.rooted pairGroup).length + 1 = 65536 ∧
      ¬ pairMachine.NumbersNext Call.Proper pairGroup msg obj pe := by
  obtain ⟨msg, pe, col, obj, hgets, hbcast, hcol, hgroup, hobj, hk⟩ :=
    pair_gets 65535 (by decide)
  refine ⟨msg, pe, col, obj, hgets, hbcast, hcol, hgroup, hobj, by rw [hk], ?_⟩
  have hinv := (gets_kept (numberInv_systemKept pair_within pairGroup)
    (by decide) hgets).2
  have hlast : obj.lastBcast.toNat = 65535 := by
    rw [← lastBcast_of_chare hcol hobj, ← hinv.last, hinv.root, List.length_take, hk]
    rfl
  exact fun hnext => not_takes_wrapped (by rw [hlast]; rfl) hnext.root

/-- The first one is numbered and taken as it is to be. -/
theorem root_numbers_first : ∃ msg pe obj,
    pairMachine.Gets Call.Proper 0 (.now pairGroup msg) pe ∧
      (pairMachine.NumbersNext Call.Proper pairGroup msg obj pe ↔ 1 < 65536) := by
  obtain ⟨msg, pe, col, obj, hgets, hbcast, hcol, hgroup, hobj, hk⟩ :=
    pair_gets 0 (by decide)
  exact ⟨msg, pe, obj, hgets,
    (root_numbers_iff pair_within (by decide) hgets hbcast hcol hgroup hobj
      (by rw [hk])).2⟩

end CharmExperiments.Charmlite
