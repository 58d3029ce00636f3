import CharmExperiments.Charmlite.Entries
import CharmExperiments.Charmlite.Flush

/-!
# Where the messages to the elements of a collective are

One PE and the inserts and sends of one collective that is no group. `Hosted`
says where that PE has such messages and elements: it has only the elements it
is home to, and only messages to those in `buffers_`. `Shift` follows the
messages as a function moves them: a message is on its way (`sent`), handled by
the home PE of its element, in the `collective_buffer_` of another PE, or in
the hands of the function (`Runs.hosted`).

Mirroring notes:
- A send counts as handled from then on; where its home PE then has it is the
  matter of `SendOrder`. An insert is followed to its invocation.
- The log tells which messages were issued, so a PE that issues one in an entry
  function accounts for it.
-/

namespace CharmExperiments.Charmlite

open CharmExperiments.Lib

/-- An insert or a send of the collective. -/
def Message.To (cid : CollectiveIndex) (m : Message) : Prop :=
  m.collective = cid ∧ m.collectiveKind = false

theorem Message.To.not_to {c cid : CollectiveIndex} {m : Message} (h : m.To c)
    (hc : c ≠ cid) :
    ¬ m.To cid := fun h' => hc (h.1.symm.trans h'.1)

/-- Not a broadcast, if it is for the collective. -/
def Message.Plain (cid : CollectiveIndex) (m : Message) : Prop :=
  m.To cid → m.isBroadcast = false

/-- A send, on the home PE of its element. -/
def Message.lands (X : Machine) (mapper : Mapper) (me : Nat) (m : Message) : Bool :=
  !m.entry.isConstructor && X.peFor mapper m.chare == me

/-- What the log of a PE tells of a collective that is no group and gets no broadcast. -/
structure ElementsOnly (cid : CollectiveIndex) (log : List Event) : Prop where
  index : ∀ m, .issued m ∈ log → m.collective = cid → m.chare ≠ chareBcastRoot
  group : .constructed cid true ∉ log

/-- Where the PE has messages and elements of the collective. -/
structure Hosted (X : Machine) (cid : CollectiveIndex) (mapper : Mapper)
    (me : Nat) (pe : Pe) :
    Prop where
  plain : pe.All (Message.Plain cid)
  queue : ∀ c col, pe.collectiveTable c = some col → ∀ idx, ∀ m ∈ col.buffers idx,
    m.chare = idx ∧ m.To c ∧
      (c = cid → m.entry.isConstructor = false ∧ X.peFor mapper idx = me)
  waiting : ∀ c, ∀ m ∈ pe.collectiveBuffer c, m.To c
  mapped : ∀ col, pe.collectiveTable cid = some col → col.mapper = mapper
  home : ∀ idx, (pe.chareAt cid idx).isSome → X.peFor mapper idx = me
  invoked : ∀ c idx m, .invoked c idx m ∈ pe.log → m.To c ∧
    (c = cid → idx = m.chare ∧ X.peFor mapper idx = me)

/-- The messages that the PE accounts for: those it sent, the sends it handled at
home, and of the others those it invoked and those that wait for the collective. -/
def Pe.stock (X : Machine) (cid : CollectiveIndex) (mapper : Mapper) (me : Nat) (pe : Pe)
    (m : Message) : Nat :=
  (pe.sent.map (·.2)).count m +
    if m.lands X mapper me then pe.log.count (.handled m)
    else pe.log.count (.invoked cid m.chare m) + (pe.collectiveBuffer cid).count m

/-- Messages move between the hands and the places of a PE; what was issued is new. -/
structure Shift (X : Machine) (cid : CollectiveIndex) (mapper : Mapper) (me : Nat)
    (hand hand' : List Message) (pe pe' : Pe) : Prop where
  table : (pe'.collectiveTable cid).isSome = (pe.collectiveTable cid).isSome
  waiting : (pe.collectiveTable cid).isSome →
    pe'.collectiveBuffer cid <:+ pe.collectiveBuffer cid
  balance : ∀ m, m.To cid →
    pe'.stock X cid mapper me m + pe.log.count (.issued m) + hand'.count m
      = pe.stock X cid mapper me m + pe'.log.count (.issued m) + hand.count m

/-- A message that a function got after `deliver` is in hand until it is handled at home. -/
def Message.inHand (X : Machine) (mapper : Mapper) (me : Nat) (m : Message) :
    List Message :=
  if m.lands X mapper me then [] else [m]

/-- The message in the hands of a function. -/
def Task.carries (X : Machine) (mapper : Mapper) (me : Nat) : Task → List Message
  | .endpoint _ m => [m]
  | .attempt _ m => m.inHand X mapper me
  | .handle _ _ m => m.inHand X mapper me
  | .now _ m => m.inHand X mapper me
  | _ => []

/-- A function gets a message of the collective it works for. -/
def Task.Proper (cid : CollectiveIndex) : Task → Prop
  | .endpoint _ m => m.collectiveKind = false ∧ m.Plain cid
  | .attempt c m => m.To c ∧ m.Plain cid
  | .handle c idx m => m.To c ∧ m.Plain cid ∧ idx = m.chare ∧
    (c = cid → m.entry.isConstructor = false)
  | .now c m => m.To c ∧ m.Plain cid
  | _ => True

/-- Neither issues, handles nor invokes a message of the collective. -/
def Event.Neutral (cid : CollectiveIndex) (e : Event) : Prop :=
  ∀ m : Message, m.To cid →
    e ≠ .issued m ∧ e ≠ .handled m ∧ e ≠ .invoked cid m.chare m

section Hosted

variable {X : Machine} {cid c : CollectiveIndex} {mapper : Mapper}
  {me : Nat} {pe pe' : Pe}
  {msg m : Message} {e : Event} {idx : ChareIndex} {col : Collective}

theorem ElementsOnly.starts {log log' : List Event} (h : ElementsOnly cid log')
    (hle : log <+: log') : ElementsOnly cid log where
  index := fun m hm => h.index m (hle.subset hm)
  group := fun hm => h.group (hle.subset hm)

theorem starts_record : pe.log <+: (pe.record e).log := List.prefix_append _ _

theorem plain_of_ne (h : msg.collective ≠ cid) : msg.Plain cid :=
  fun hto => absurd hto.1 h

/-- A broadcast is for another collective. -/
theorem Message.Plain.ne (h : msg.Plain cid) (hto : msg.To c)
    (hb : msg.isBroadcast = true) :
    c ≠ cid := by
  rintro rfl
  rw [h hto] at hb
  cases hb

theorem isBroadcast_of_root (h : msg.chare = chareBcastRoot) :
    msg.isBroadcast = true := by
  simp [Message.isBroadcast, h]

/-! ## `Hosted` through what a function does -/

/-- The log grows by an event that invokes nothing, and messages are sent. -/
theorem Hosted.step (h : Hosted X cid mapper me pe)
    (htable : pe'.collectiveTable = pe.collectiveTable)
    (hall : pe'.All (Message.Plain cid))
    (hwait : ∀ c, ∀ m ∈ pe'.collectiveBuffer c, m.To c)
    (hlog : ∀ c idx m, .invoked c idx m ∈ pe'.log → .invoked c idx m ∈ pe.log) :
    Hosted X cid mapper me pe' where
  plain := hall
  queue := by
    rw [htable]
    exact h.queue
  waiting := hwait
  mapped := by
    rw [htable]
    exact h.mapped
  home := by
    unfold Pe.chareAt
    rw [htable]
    exact h.home
  invoked := fun c idx m hm => h.invoked c idx m (hlog c idx m hm)

theorem Hosted.record (h : Hosted X cid mapper me pe) (he : e.enters = none) :
    Hosted X cid mapper me (pe.record e) := by
  refine h.step rfl (h.plain.record e) h.waiting fun c idx m hm => ?_
  rcases List.mem_append.mp hm with hold | hnew
  · exact hold
  · rw [← List.mem_singleton.mp hnew] at he
    cases he

/-- An entry function is entered. -/
theorem Hosted.invoke (h : Hosted X cid mapper me pe) (hto : msg.To c)
    (hhome : c = cid → idx = msg.chare ∧ X.peFor mapper idx = me) :
    Hosted X cid mapper me (pe.record (.invoked c idx msg)) where
  plain := h.plain.record _
  queue := h.queue
  waiting := h.waiting
  mapped := h.mapped
  home := h.home
  invoked := by
    intro c' i m hm
    rcases List.mem_append.mp hm with hold | hnew
    · exact h.invoked c' i m hold
    · obtain ⟨rfl, rfl, rfl⟩ := Event.invoked.inj (List.mem_singleton.mp hnew)
      exact ⟨hto, hhome⟩

theorem Hosted.push (h : Hosted X cid mapper me pe) (dst : Nat) (hm : msg.Plain cid) :
    Hosted X cid mapper me (pe.push dst msg) :=
  h.step rfl (h.plain.push dst hm) h.waiting fun _ _ _ hlog => hlog

theorem Hosted.issue (h : Hosted X cid mapper me pe) :
    Hosted X cid mapper me (Machine.issue pe msg) := by
  have hissued := h.record (e := .issued msg) rfl
  exact hissued.step rfl ⟨hissued.plain.stored, hissued.plain.waiting, hissued.plain.sent⟩
    hissued.waiting fun _ _ _ hlog => hlog

theorem Hosted.bufferCollective (h : Hosted X cid mapper me pe) (hm : msg.Plain cid)
    (hkind : msg.collectiveKind = false) :
    Hosted X cid mapper me (pe.bufferCollective msg) := by
  refine h.step rfl (h.plain.bufferCollective hm) (fun c m hmem => ?_)
    fun _ _ _ hlog => hlog
  by_cases hc : c = msg.collective
  · rcases mem_bufferCollective hmem with hold | rfl
    · exact h.waiting c m hold
    · exact ⟨hc.symm, hkind⟩
  · rw [bufferCollective_ne hc] at hmem
    exact h.waiting c m hmem

theorem Hosted.take (h : Hosted X cid mapper me pe) {rest : List Message}
    (hfront : pe.collectiveBuffer c = msg :: rest) : Hosted X cid mapper me
      { pe with collectiveBuffer := Function.update pe.collectiveBuffer c rest } := by
  refine h.step rfl (h.plain.take hfront) (fun i m hmem => ?_) fun _ _ _ hlog => hlog
  by_cases hi : i = c
  · subst hi
    simp only [Function.update_self] at hmem
    exact h.waiting i m (by rw [hfront]; exact List.mem_cons_of_mem _ hmem)
  · simp only [Function.update_of_ne hi] at hmem
    exact h.waiting i m hmem

/-- A member function: it may put a message into `buffers_` or make an element. -/
theorem Hosted.modify (h : Hosted X cid mapper me pe) {f : Collective → Collective}
    (hqueue : ∀ col idx, ∀ m ∈ (f col).buffers idx, m ∈ col.buffers idx ∨
      (m.chare = idx ∧ m.To c ∧ m.Plain cid ∧
        (c = cid → m.entry.isConstructor = false ∧ X.peFor mapper idx = me)))
    (hmapper : ∀ col, (f col).mapper = col.mapper)
    (hhome : c = cid → ∀ col idx, ((f col).chares idx).isSome →
      (col.chares idx).isSome ∨ X.peFor mapper idx = me) :
    Hosted X cid mapper me (pe.modify c f) where
  plain := h.plain.modify c fun col idx m hm =>
    (hqueue col idx m hm).imp_right fun hnew => hnew.2.2.1
  queue := by
    intro i col hcol idx m hm
    by_cases hi : i = c
    · subst hi
      rw [modify_self, Option.map_eq_some_iff] at hcol
      obtain ⟨col', hcol', rfl⟩ := hcol
      rcases hqueue col' idx m hm with hold | ⟨hidx, hto, _, hsend⟩
      · exact h.queue i col' hcol' idx m hold
      · exact ⟨hidx, hto, hsend⟩
    · rw [modify_ne hi] at hcol
      exact h.queue i col hcol idx m hm
  waiting := h.waiting
  mapped := by
    intro col hcol
    by_cases hc : cid = c
    · subst hc
      rw [modify_self, Option.map_eq_some_iff] at hcol
      obtain ⟨col', hcol', rfl⟩ := hcol
      rw [hmapper, h.mapped col' hcol']
    · rw [modify_ne hc] at hcol
      exact h.mapped col hcol
  home := by
    intro idx hsome
    by_cases hc : cid = c
    · subst hc
      -- an element made here is made at home
      unfold Pe.chareAt at hsome
      cases hcol : pe.collectiveTable cid with
      | none => simp [hcol] at hsome
      | some col =>
        rw [modify_self, hcol, Option.map_some, Option.bind_some] at hsome
        rcases hhome rfl col idx hsome with hold | hnew
        · exact h.home idx (by rw [chareAt_of_table hcol]; exact hold)
        · exact hnew
    · refine h.home idx ?_
      unfold Pe.chareAt at hsome ⊢
      rwa [modify_ne hc] at hsome
  invoked := h.invoked

theorem Hosted.popFront (h : Hosted X cid mapper me pe) (c : CollectiveIndex)
    (idx : ChareIndex) :
    Hosted X cid mapper me (pe.modify c (·.popFront idx)) :=
  h.modify (fun _ _ _ hm => Or.inl (mem_popFront hm)) (fun _ => rfl) fun _ _ _ => Or.inl

theorem Hosted.buffer (h : Hosted X cid mapper me pe) (hto : msg.To c)
    (hplain : msg.Plain cid) (hsend : c = cid → msg.entry.isConstructor = false ∧
      X.peFor mapper msg.chare = me) :
    Hosted X cid mapper me (pe.modify c (·.buffer msg)) := by
  refine h.modify (fun col idx m hm => ?_) (fun _ => rfl) fun _ _ _ => Or.inl
  by_cases hidx : idx = msg.chare
  · rcases mem_buffer hm with hold | rfl
    · exact Or.inl hold
    · exact Or.inr ⟨hidx.symm, hto, hplain, hidx ▸ hsend⟩
  · rw [buffer_buffers_ne hidx] at hm
    exact Or.inl hm

theorem Hosted.emplace (h : Hosted X cid mapper me pe)
    (hhome : c = cid → X.peFor mapper idx = me) :
    Hosted X cid mapper me (pe.modify c (·.emplace idx)) := by
  refine h.modify (fun col i m hm => Or.inl (by rwa [emplace_buffers] at hm)) ?_ ?_
  · intro col
    unfold Collective.emplace
    split <;> rfl
  · intro hc col i hsome
    by_cases hi : i = idx
    · exact Or.inr (hi ▸ hhome hc)
    · refine Or.inl ?_
      unfold Collective.emplace at hsome
      split at hsome
      · exact hsome
      · simpa [Function.update_of_ne hi] using hsome

/-- Another collective takes a broadcast. -/
theorem Hosted.advance (h : Hosted X cid mapper me pe) (hc : c ≠ cid) (idx : ChareIndex) :
    Hosted X cid mapper me (pe.modify c (·.advance idx)) :=
  h.modify (fun _ _ _ => Or.inl) (fun _ => rfl) fun heq => absurd heq hc

theorem Hosted.sendCopies (h : Hosted X cid mapper me pe) (hc : msg.collective ≠ cid)
    (col : Collective) (children : List ChareIndex) :
    Hosted X cid mapper me (X.sendCopies col msg children pe) :=
  h.step rfl (h.plain.sendCopies col fun _ _ => plain_of_ne hc) h.waiting
    fun _ _ _ hlog => hlog

/-- The PE sends what no proxy issued: it has nothing to do with the collective. -/
theorem Hosted.sends (h : Hosted X cid mapper me pe) {l : List (Nat × Message)}
    (htable : pe'.collectiveTable = pe.collectiveTable)
    (hwait : pe'.collectiveBuffer = pe.collectiveBuffer) (hsent : pe'.sent = pe.sent ++ l)
    (hl : ∀ r ∈ l, ¬ r.2.To cid) (hlog : pe'.log = pe.log ++ [e]) (he : e.enters = none) :
    Hosted X cid mapper me pe' := by
  refine h.step htable ⟨?_, ?_, ?_⟩ ?_ ?_
  · rw [htable]
    exact h.plain.stored
  · rw [hwait]
    exact h.plain.waiting
  · intro r hr hto
    rw [hsent] at hr
    rcases List.mem_append.mp hr with hold | hnew
    · exact h.plain.sent r hold hto
    · exact absurd hto (hl r hnew)
  · rw [hwait]
    exact h.waiting
  · intro c idx m hm
    rw [hlog] at hm
    rcases List.mem_append.mp hm with hold | hnew
    · exact hold
    · rw [← List.mem_singleton.mp hnew] at he
      cases he

theorem Hosted.create (h : Hosted X cid mapper me pe)
    (hmade : msg.collective = cid → X.kinds msg.entry.id = mapper) :
    Hosted X cid mapper me (X.create msg pe) where
  plain := h.plain.create msg
  queue := by
    intro c col hcol idx m hm
    by_cases hc : c = msg.collective
    · subst hc
      simp only [Machine.create, Function.update_self] at hcol
      obtain rfl := Option.some.inj hcol
      cases hm
    · simp only [Machine.create, Function.update_of_ne hc] at hcol
      exact h.queue c col hcol idx m hm
  waiting := h.waiting
  mapped := by
    intro col hcol
    by_cases hc : cid = msg.collective
    · subst hc
      simp only [Machine.create, Function.update_self] at hcol
      obtain rfl := Option.some.inj hcol
      exact hmade rfl
    · simp only [Machine.create, Function.update_of_ne hc] at hcol
      exact h.mapped col hcol
  home := by
    intro idx hsome
    by_cases hc : cid = msg.collective
    · subst hc
      simp [Pe.chareAt, Machine.create, Collective.new] at hsome
    · refine h.home idx ?_
      simpa only [Pe.chareAt, Machine.create, Function.update_of_ne hc] using hsome
  invoked := h.invoked

/-! ## The moves -/

theorem Shift.refl {hand : List Message} : Shift X cid mapper me hand hand pe pe :=
  ⟨rfl, fun _ => List.suffix_refl _, fun _ _ => rfl⟩

theorem Shift.trans {hand hand₁ hand' : List Message} {pe₁ : Pe}
    (h₁ : Shift X cid mapper me hand hand₁ pe pe₁)
    (h₂ : Shift X cid mapper me hand₁ hand' pe₁ pe') :
    Shift X cid mapper me hand hand' pe pe' where
  table := h₂.table.trans h₁.table
  waiting := fun hsome => (h₂.waiting (h₁.table.symm ▸ hsome)).trans (h₁.waiting hsome)
  balance := fun m hm => by
    have hfirst := h₁.balance m hm
    have hsecond := h₂.balance m hm
    omega

/-- What counts in hand are the messages of the collective. -/
theorem Shift.swap {hand hand' hand₁ hand₁' : List Message}
    (h : Shift X cid mapper me hand hand' pe pe')
    (heq : ∀ m, m.To cid → hand₁.count m = hand.count m)
    (heq' : ∀ m, m.To cid → hand₁'.count m = hand'.count m) :
    Shift X cid mapper me hand₁ hand₁' pe pe' :=
  ⟨h.table, h.waiting, fun m hm => by rw [heq m hm, heq' m hm]; exact h.balance m hm⟩

theorem count_inHand : (msg.inHand X mapper me).count m
    = if msg.lands X mapper me = true then 0 else [msg].count m := by
  unfold Message.inHand
  split <;> rfl

theorem count_inHand_of_not (h : ¬ msg.To cid) (hm : m.To cid) :
    (msg.inHand X mapper me).count m = 0 := by
  refine List.count_eq_zero_of_not_mem fun hmem => h ?_
  unfold Message.inHand at hmem
  split at hmem
  · cases hmem
  · exact List.mem_singleton.mp hmem ▸ hm

/-- A message of another collective does not count. -/
theorem Shift.drop (h : ¬ msg.To cid) :
    Shift X cid mapper me (msg.inHand X mapper me) [] pe pe :=
  Shift.swap (@Shift.refl X cid mapper me pe []) (fun _ hm => count_inHand_of_not h hm)
    fun _ _ => rfl

theorem Shift.pick (h : ¬ msg.To cid) :
    Shift X cid mapper me [] (msg.inHand X mapper me) pe pe :=
  Shift.swap (@Shift.refl X cid mapper me pe []) (fun _ _ => rfl) fun _ hm =>
    count_inHand_of_not h hm

theorem inHand_of_lands (h : msg.lands X mapper me = true) :
    msg.inHand X mapper me = [] :=
  if_pos h

theorem inHand_of_not_lands (h : msg.lands X mapper me = false) :
    msg.inHand X mapper me = [msg] := if_neg (by rw [h]; exact Bool.false_ne_true)

theorem lands_iff : msg.lands X mapper me = true ↔
    msg.entry.isConstructor = false ∧ X.peFor mapper msg.chare = me := by
  simp [Message.lands]

/-- Nothing of the collective moves: events that are neutral, and messages that
are not of it. -/
theorem Shift.neutral {hand : List Message} (l : List Event)
    (sends : List (Nat × Message))
    (htable : (pe'.collectiveTable cid).isSome = (pe.collectiveTable cid).isSome)
    (hwait : pe'.collectiveBuffer cid = pe.collectiveBuffer cid)
    (hlog : pe'.log = pe.log ++ l) (hl : ∀ e ∈ l, e.Neutral cid)
    (hsent : pe'.sent = pe.sent ++ sends) (hsends : ∀ r ∈ sends, ¬ r.2.To cid) :
    Shift X cid mapper me hand hand pe pe' where
  table := htable
  waiting := fun _ => hwait ▸ List.suffix_refl _
  balance := by
    intro m hm
    have hnone : ∀ e', (∀ e ∈ l, e ≠ e') → pe'.log.count e' = pe.log.count e' :=
      fun e' he => by
      rw [hlog, List.count_append, List.count_eq_zero_of_not_mem fun hmem =>
        he e' hmem rfl, Nat.add_zero]
    have hnew : (sends.map (·.2)).count m = 0 := by
      refine List.count_eq_zero_of_not_mem fun hmem => ?_
      obtain ⟨r, hr, rfl⟩ := List.mem_map.mp hmem
      exact hsends r hr hm
    unfold Pe.stock
    rw [hnone _ fun e he => (hl e he m hm).1, hnone _ fun e he => (hl e he m hm).2.1,
      hnone _ fun e he => (hl e he m hm).2.2, hwait, hsent, List.map_append,
        List.count_append, hnew,
      Nat.add_zero]

/-- An event of the log. -/
theorem Shift.record {hand : List Message} (he : e.Neutral cid) :
    Shift X cid mapper me hand hand pe (pe.record e) :=
  .neutral [e] [] rfl rfl rfl (fun e' he' => List.mem_singleton.mp he' ▸ he)
    (List.append_nil _).symm fun _ hr => by cases hr

/-- A member function. -/
theorem Shift.modify {hand : List Message} {f : Collective → Collective} :
    Shift X cid mapper me hand hand pe (pe.modify c f) :=
  .neutral [] [] (modify_isSome cid) rfl (List.append_nil _).symm
    (fun _ he => by cases he) (List.append_nil _).symm fun _ hr => by cases hr

theorem neutral_passing (he : e.Passing) (hne : ∀ m, e ≠ .handled m) : e.Neutral cid := by
  intro m _
  refine ⟨?_, hne m, ?_⟩ <;> rintro rfl <;> cases he

theorem neutral_returned : (Event.returned c idx msg).Neutral cid :=
  neutral_passing (.returned _ _ _) fun _ => Event.noConfusion

theorem neutral_tried (msg : Message) : (Event.tried msg).Neutral cid :=
  neutral_passing (.tried _) fun _ => Event.noConfusion

theorem neutral_rooted : (Event.rooted c msg).Neutral cid := fun _ _ => by
  refine ⟨?_, ?_, ?_⟩ <;> exact Event.noConfusion

theorem neutral_constructed {group : Bool} : (Event.constructed c group).Neutral cid :=
  fun _ _ => by
  refine ⟨?_, ?_, ?_⟩ <;> exact Event.noConfusion

theorem neutral_invoked (hc : c ≠ cid) : (Event.invoked c idx msg).Neutral cid :=
  fun _ _ =>
  ⟨Event.noConfusion, Event.noConfusion, fun heq => hc (Event.invoked.inj heq).1⟩

/-- A call makes a message, and has it in hand. -/
theorem Shift.issue : Shift X cid mapper me [] [msg] pe (Machine.issue pe msg) where
  table := rfl
  waiting := fun _ => List.suffix_refl _
  balance := by
    intro m _
    show (pe.sent.map (·.2)).count m + (if _ then (pe.log ++ [_]).count _ else
      (pe.log ++ [_]).count _ + _) + _ + _ = _
    unfold Pe.stock
    simp only [Machine.issue, List.count_append, List.count_singleton,
      beq_iff_eq, reduceCtorEq, if_false, Nat.add_zero, Event.issued.injEq,
        List.count_nil]
    omega

/-- A message is handled: a send at home is out of hand. -/
theorem Shift.handle :
    Shift X cid mapper me [msg] (msg.inHand X mapper me) pe
      (pe.record (.handled msg)) where
  table := rfl
  waiting := fun _ => List.suffix_refl _
  balance := by
    intro m _
    unfold Pe.stock
    simp only [record_log, record_sent, record_collectiveBuffer, List.count_append,
      List.count_singleton, beq_iff_eq, reduceCtorEq, if_false, Nat.add_zero,
        Event.handled.injEq,
      count_inHand]
    by_cases heq : msg = m
    · subst heq
      cases msg.lands X mapper me with
      | false => simp
      | true =>
        simp only [if_true]
        omega
    · simp [heq]

/-- A message is sent on. -/
theorem Shift.push (dst : Nat) : Shift X cid mapper me [msg] [] pe (pe.push dst msg) where
  table := rfl
  waiting := fun _ => List.suffix_refl _
  balance := by
    intro m _
    unfold Pe.stock
    simp only [push_log, push_sent, push_collectiveBuffer, List.map_append,
      List.count_append, List.map_cons, List.map_nil, List.count_nil]
    omega

/-- A message waits for its collective. -/
theorem Shift.bufferCollective (hnone : pe.collectiveTable msg.collective = none) :
    Shift X cid mapper me (msg.inHand X mapper me) [] pe (pe.bufferCollective msg) where
  table := rfl
  waiting := by
    intro hsome
    by_cases hc : cid = msg.collective
    · rw [hc, hnone] at hsome
      cases hsome
    · rw [bufferCollective_ne hc]
  balance := by
    intro m hm
    unfold Pe.stock
    simp only [bufferCollective_log, bufferCollective_sent]
    by_cases hc : cid = msg.collective
    · rw [hc, bufferCollective_self, List.count_append, List.count_nil]
      rw [count_inHand]
      by_cases heq : msg = m
      · subst heq
        cases msg.lands X mapper me with
        | true => simp
        | false =>
          simp only [Bool.false_eq_true, if_false]
          omega
      · simp [heq]
    · rw [bufferCollective_ne hc,
        count_inHand_of_not (fun hto => hc hto.1.symm) hm, List.count_nil]

/-- A message that waited for its collective is taken in hand. -/
theorem Shift.take {rest : List Message} (hto : msg.To c)
    (hfront : pe.collectiveBuffer c = msg :: rest) :
    Shift X cid mapper me [] (msg.inHand X mapper me) pe
      { pe with collectiveBuffer := Function.update pe.collectiveBuffer c rest } where
  table := rfl
  waiting := by
    intro _
    by_cases hc : cid = c
    · subst hc
      simp only [Function.update_self, hfront]
      exact List.suffix_cons msg rest
    · simp only [Function.update_of_ne hc]
      exact List.suffix_refl _
  balance := by
    intro m hm
    unfold Pe.stock
    by_cases hc : cid = c
    · subst hc
      simp only [Function.update_self, hfront, List.count_nil, count_inHand]
      by_cases heq : msg = m
      · subst heq
        cases msg.lands X mapper me with
        | true => simp
        | false =>
          simp only [Bool.false_eq_true, if_false, List.count_cons_self, List.count_nil]
          omega
      · simp [heq]
    · simp only [Function.update_of_ne hc]
      rw [count_inHand_of_not (fun hmsg => hc (hmsg.1.symm.trans hto.1)) hm,
        List.count_nil]

/-- The constructor is entered, with the message. -/
theorem Shift.construct (hctor : msg.entry.isConstructor = true) (hto : msg.To c) :
    Shift X cid mapper me (msg.inHand X mapper me) [] pe
      (pe.record (.invoked c msg.chare msg)) where
  table := rfl
  waiting := fun _ => List.suffix_refl _
  balance := by
    intro m hm
    by_cases hc : c = cid
    · subst hc
      have hlands : msg.lands X mapper me = false := by simp [Message.lands, hctor]
      rw [inHand_of_not_lands hlands]
      unfold Pe.stock
      simp only [record_log, record_sent, record_collectiveBuffer, List.count_append,
        List.count_singleton, beq_iff_eq, reduceCtorEq, if_false, Nat.add_zero,
          List.count_nil]
      by_cases heq : msg = m
      · subst heq
        simp [hlands]
        omega
      · simp [heq]
    · exact ((Shift.drop (hto.not_to hc)).trans
        (Shift.record (neutral_invoked hc))).balance m hm

/-- Another entry function is entered: its send was handled here. -/
theorem Shift.invoke (hto : msg.To c) (hlands : c = cid → msg.lands X mapper me = true) :
    Shift X cid mapper me (msg.inHand X mapper me) [] pe
      (pe.record (.invoked c idx msg)) := by
  by_cases hc : c = cid
  · subst hc
    rw [inHand_of_lands (hlands rfl)]
    refine ⟨rfl, fun _ => List.suffix_refl _, fun m hm => ?_⟩
    unfold Pe.stock
    simp only [record_log, record_sent, record_collectiveBuffer, List.count_append,
      List.count_singleton, beq_iff_eq, reduceCtorEq, if_false, Nat.add_zero]
    by_cases heq : msg = m
    · subst heq
      simp [hlands rfl]
    · simp [heq]
  · exact (Shift.drop (hto.not_to hc)).trans
      (Shift.record (neutral_invoked hc))

/-- The front of a deque. -/
theorem Hosted.front (h : Hosted X cid mapper me pe) {rest : List Message}
    (hcol : pe.collectiveTable c = some col) (hfront : col.buffers idx = msg :: rest) :
    msg.chare = idx ∧ msg.To c ∧ msg.Plain cid ∧
      (c = cid → msg.lands X mapper me = true) := by
  have hmem : msg ∈ col.buffers idx := by rw [hfront]; exact List.mem_cons_self
  obtain ⟨hidx, hto, hsend⟩ := h.queue c col hcol idx msg hmem
  exact ⟨hidx, hto, h.plain.stored c col hcol idx msg hmem,
    fun hc => lands_iff.mpr ⟨(hsend hc).1, hidx ▸ (hsend hc).2⟩⟩

theorem count_inHand_zero (hto : msg.To c)
    (hlands : c = cid → msg.lands X mapper me = true)
    (hm : m.To cid) : (msg.inHand X mapper me).count m = 0 := by
  by_cases hc : c = cid
  · rw [inHand_of_lands (hlands hc), List.count_nil]
  · exact count_inHand_of_not (fun hmsg => hc (hto.1.symm.trans hmsg.1)) hm

/-- The element a PE has is at home there. -/
theorem Hosted.present (h : Hosted X cid mapper me pe) {ch : Chare}
    (hcol : pe.collectiveTable cid = some col) (hch : col.chares idx = some ch) :
    X.peFor mapper idx = me := h.home idx (by rw [chareAt_of_table hcol, hch]; rfl)

/-- What `try_deliver` gives to an element that is there is no constructor. -/
theorem Hosted.send (h : Hosted X cid mapper me pe) {ch : Chare}
    (hcol : pe.collectiveTable c = some col)
    (hctor : ¬ (msg.entry.isConstructor = true ∧ X.peFor col.mapper msg.chare = me))
    (hch : col.chares msg.chare = some ch) (hc : c = cid) :
    msg.entry.isConstructor = false := by
  subst hc
  refine Bool.eq_false_iff.mpr fun hc => hctor ⟨hc, ?_⟩
  rw [h.mapped col hcol]
  exact h.present hcol hch

/-- Another collective takes a broadcast: nothing of this one moves. -/
theorem Hosted.takes (h : Hosted X cid mapper me pe) (hc : c ≠ cid) (hto : msg.To c)
    (col : Collective) (idx : ChareIndex) (children : List ChareIndex) :
    Hosted X cid mapper me
      ((X.sendCopies col msg children (pe.modify c (·.advance idx))).record
        (.invoked c idx msg)) ∧
      Shift X cid mapper me (msg.inHand X mapper me) [] pe
        ((X.sendCopies col msg children (pe.modify c (·.advance idx))).record
          (.invoked c idx msg)) := by
  have hne : msg.collective ≠ cid := fun heq => hc (hto.1.symm.trans heq)
  refine ⟨((h.advance hc idx).sendCopies hne col children).invoke hto fun heq =>
    absurd heq hc, ?_⟩
  refine (Shift.drop fun hmsg => hne hmsg.1).trans (.neutral [.invoked c idx msg]
    (children.map fun child => (X.peFor col.mapper child, { msg with chare := child }))
    (modify_isSome cid) rfl rfl ?_ rfl ?_)
  · intro e he
    rw [List.mem_singleton.mp he]
    exact neutral_invoked hc
  · intro r hr hmsg
    obtain ⟨child, _, rfl⟩ := List.mem_map.mp hr
    exact hne hmsg.1

/-- What `collective_proxy::construct` sends makes collectives. -/
theorem Hosted.collective (h : Hosted X cid mapper me pe) (kind : Nat) :
    Hosted X cid mapper me (X.constructCollective me kind pe) ∧
      Shift X cid mapper me [] [] pe (X.constructCollective me kind pe) := by
  have hkind : ∀ r ∈ (List.range X.numPes).map fun i => (i, (⟨⟨me, pe.allocated⟩, true,
      ⟨BitVec.ofNat 32 me, pe.localCollectiveCount⟩, encode all, ⟨kind, false⟩,
      0⟩ : Message)), ¬ r.2.To cid := by
    intro r hr hto
    obtain ⟨i, _, rfl⟩ := List.mem_map.mp hr
    cases hto.2
  refine ⟨h.sends rfl rfl rfl hkind rfl rfl, .neutral [_] _ rfl rfl rfl ?_ rfl hkind⟩
  intro e he
  rw [List.mem_singleton.mp he]
  exact neutral_constructed

/-- What `group_proxy::construct` sends makes groups, and elements of another collective. -/
theorem Hosted.group (h : Hosted X cid mapper me pe) (kind constructor : Nat)
    (hne : .constructed cid true ∉ (X.constructGroup me kind constructor pe).log) :
    Hosted X cid mapper me (X.constructGroup me kind constructor pe) ∧
      Shift X cid mapper me [] [] pe (X.constructGroup me kind constructor pe) := by
  let id : CollectiveIndex := ⟨BitVec.ofNat 32 me, pe.localCollectiveCount + 1⟩
  have hid : id ≠ cid := by
    rintro rfl
    exact hne (List.mem_append_right _ (List.mem_singleton_self _))
  have hsent : (X.constructGroup me kind constructor pe).sent = pe.sent ++
      (((List.range X.numPes).map fun i =>
        (i, (⟨⟨me, pe.allocated⟩, true, id, chareBcastRoot,
        ⟨kind, false⟩, 0⟩ : Message))) ++
      ((List.range' 1 (X.numPes - 1)) ++ [0]).map fun i =>
      (i, (⟨⟨me, pe.allocated + 1⟩, false,
        id, encode i, ⟨constructor, true⟩, 0⟩ : Message))) := List.append_assoc _ _ _
  have hother :
    ∀ r ∈ ((List.range X.numPes).map fun i => (i, (⟨⟨me, pe.allocated⟩, true, id,
        chareBcastRoot, ⟨kind, false⟩, 0⟩ : Message))) ++
      ((List.range' 1 (X.numPes - 1)) ++ [0]).map
      (fun i : Nat => (i, (⟨⟨me, pe.allocated + 1⟩, false,
        id, encode i, ⟨constructor, true⟩, 0⟩ : Message))), ¬ r.2.To cid := by
    intro r hr hto
    rcases List.mem_append.mp hr with hr | hr
    · obtain ⟨i, _, rfl⟩ := List.mem_map.mp hr
      cases hto.2
    · obtain ⟨i, _, rfl⟩ := List.mem_map.mp hr
      exact hid hto.1
  refine ⟨h.sends rfl rfl hsent hother rfl rfl,
    .neutral [_] _ rfl rfl rfl ?_ hsent hother⟩
  intro e he
  rw [List.mem_singleton.mp he]
  exact neutral_constructed

end Hosted

namespace Machine

variable {X : Machine} {cid : CollectiveIndex} {mapper : Mapper} {me : Nat} {task : Task}
  {pe pe' : Pe} {done : Bool}

/-- When `try_deliver` fails, it has done nothing. -/
theorem Runs.failed {c : CollectiveIndex} {msg : Message}
    (h : X.Runs me (.attempt c msg) pe false pe') :
    pe' = pe.record (.tried msg) ∧ ∃ col, pe.collectiveTable c = some col ∧
      msg.entry.isConstructor = false ∧ col.chares msg.chare = none ∧
      X.peFor col.mapper msg.chare = me := by
  cases h with
  | absent hcol hsend hnone hhome => exact ⟨rfl, _, hcol, hsend, hnone, hhome⟩

/-- A new message for an element, of a collective that gets no broadcast. -/
theorem plain_issued {c : CollectiveIndex} {idx : ChareIndex} {entry : Entry}
    {log : List Event}
    (h : ElementsOnly cid log) (hmem : .issued (newMessage me pe c idx entry) ∈ log) :
    (newMessage me pe c idx entry).Plain cid := by
  intro hto
  have hne := h.index _ hmem hto.1
  simpa [Message.isBroadcast, newMessage] using hne

/-- A function keeps the messages of the collective where they belong, and accounts for
each. -/
def KeepsHosted (X : Machine) (cid : CollectiveIndex) (mapper : Mapper) (me : Nat)
    (task : Task) (pe pe' : Pe) : Prop :=
  ElementsOnly cid pe'.log → task.Proper cid → Hosted X cid mapper me pe →
    Hosted X cid mapper me pe' ∧
      Shift X cid mapper me (task.carries X mapper me) [] pe pe'

section Cases

variable {pe₁ pe₂ : Pe} {c : CollectiveIndex} {i root : ChareIndex} {msg : Message}
  {rest : List Message} {col : Collective} {obj : Chare} {children : List ChareIndex}

/-! ### `flush_buffers` -/

/-- What is at the front of a deque is for its element, which is here. -/
theorem hosted_flushFront (hcol : pe.collectiveTable c = some col)
    (hfront : col.buffers i = msg :: rest)
    (hrun₂ : X.Runs me (.flush c i) (pe₁.modify c (·.popFront i)) true pe₂)
    (ih₁ : X.KeepsHosted cid mapper me (.attempt c msg) pe pe₁)
    (ih₂ : X.KeepsHosted cid mapper me (.flush c i) (pe₁.modify c (·.popFront i)) pe₂) :
    X.KeepsHosted cid mapper me (.flush c i) pe pe₂ := by
  intro hlog _ hh
  obtain ⟨_, hto, hplain, hlands⟩ := hh.front hcol hfront
  obtain ⟨hh₁, hs₁⟩ := ih₁ (hlog.starts hrun₂.whole.starts) ⟨hto, hplain⟩ hh
  obtain ⟨hh₂, hs₂⟩ := ih₂ hlog trivial (hh₁.popFront _ _)
  refine ⟨hh₂, .trans (hs₁.swap (fun m hm => ?_) fun _ _ => rfl) (Shift.modify.trans hs₂)⟩
  exact (count_inHand_zero hto hlands hm).symm

theorem hosted_flushStop (hcol : pe.collectiveTable c = some col)
    (hfront : col.buffers i = msg :: rest)
    (ih : X.KeepsHosted cid mapper me (.attempt c msg) pe pe₁) :
    X.KeepsHosted cid mapper me (.flush c i) pe pe₁ := by
  intro hlog _ hh
  obtain ⟨_, hto, hplain, hlands⟩ := hh.front hcol hfront
  obtain ⟨hh₁, hs₁⟩ := ih hlog ⟨hto, hplain⟩ hh
  exact ⟨hh₁, hs₁.swap (fun m hm => (count_inHand_zero hto hlands hm).symm)
    fun _ _ => rfl⟩

/-! ### `try_deliver` -/

theorem hosted_construct (hcol : pe.collectiveTable c = some col)
    (hctor : msg.entry.isConstructor = true) (hhome : X.peFor col.mapper msg.chare = me)
    (hrun₂ : X.Runs me (.flush c (X.indexAfterOf me c msg.chare msg
        ((pe.record (.tried msg)).modify c (·.emplace msg.chare))))
      (pe₁.record (.returned c msg.chare msg)) true pe₂)
    (ih₁ : X.KeepsHosted cid mapper me (.calls (X.bodyOf me c msg.chare msg
        ((pe.record (.tried msg)).modify c (·.emplace msg.chare))))
      (((pe.record (.tried msg)).modify c (·.emplace msg.chare)).record
        (.invoked c msg.chare msg)) pe₁)
    (ih₂ : X.KeepsHosted cid mapper me (.flush c (X.indexAfterOf me c msg.chare msg
        ((pe.record (.tried msg)).modify c (·.emplace msg.chare))))
      (pe₁.record (.returned c msg.chare msg)) pe₂) :
    X.KeepsHosted cid mapper me (.attempt c msg) pe
      (pe₂.record (.flushed c msg.chare)) := by
  intro hlog hproper hh
  obtain ⟨hto, hplain⟩ := hproper
  have hhome' : c = cid → X.peFor mapper msg.chare = me := by
    rintro rfl
    rw [← hh.mapped col hcol, hhome]
  have hentered := Hosted.invoke ((hh.record (e := .tried msg) rfl).emplace hhome') hto
    fun hc => ⟨rfl, hhome' hc⟩
  have hlog₂ := hlog.starts starts_record
  obtain ⟨hh₁, hs₁⟩ :=
    ih₁ (hlog₂.starts (starts_record.trans hrun₂.whole.starts)) trivial hentered
  obtain ⟨hh₂, hs₂⟩ := ih₂ hlog₂ trivial (hh₁.record rfl)
  refine ⟨hh₂.record rfl, ?_⟩
  have hflushed : (Event.flushed c msg.chare).Neutral cid :=
    neutral_passing (.flushed _ _) fun _ => Event.noConfusion
  exact .trans (.record (neutral_tried msg))
    (.trans .modify (.trans (.construct hctor hto)
    (hs₁.trans (.trans (.record neutral_returned) (hs₂.trans (.record hflushed))))))

/-- At home, and not built yet: it stays in hand, for `deliver_now` to buffer. -/
theorem hosted_absent (hcol : pe.collectiveTable c = some col)
    (hsend : msg.entry.isConstructor = false)
    (hhome : X.peFor col.mapper msg.chare = me) :
    X.KeepsHosted cid mapper me (.attempt c msg) pe (pe.record (.tried msg)) := by
  intro _ hproper hh
  obtain ⟨hto, _⟩ := hproper
  refine ⟨hh.record rfl, Shift.trans ?_ (.record (neutral_tried msg))⟩
  refine Shift.refl.swap (fun m hm => ?_) fun _ _ => rfl
  refine count_inHand_zero hto (fun hc => lands_iff.mpr ⟨hsend, ?_⟩) hm
  subst hc
  rw [← hh.mapped col hcol, hhome]

/-- It leaves the PE, where it counted for nothing. -/
theorem hosted_forward (hcol : pe.collectiveTable c = some col)
    (haway : X.peFor col.mapper msg.chare ≠ me) :
    X.KeepsHosted cid mapper me (.attempt c msg) pe
      ((pe.record (.tried msg)).push (X.peFor col.mapper msg.chare) msg) := by
  intro _ hproper hh
  obtain ⟨hto, hplain⟩ := hproper
  refine ⟨(hh.record rfl).push _ hplain, Shift.trans (.record (neutral_tried msg)) ?_⟩
  refine (Shift.push _).swap (fun m hm => ?_) fun _ _ => rfl
  show (msg.inHand X mapper me).count m = _
  by_cases hc : c = cid
  · subst hc
    rw [hh.mapped col hcol] at haway
    rw [inHand_of_not_lands (by simp [Message.lands, haway])]
  · have hne := hto.not_to hc
    rw [count_inHand_of_not hne hm]
    refine (List.count_eq_zero_of_not_mem fun hmem => hne ?_).symm
    exact List.mem_singleton.mp hmem ▸ hm

theorem hosted_present (hcol : pe.collectiveTable c = some col)
    (hctor : ¬ (msg.entry.isConstructor = true ∧ X.peFor col.mapper msg.chare = me))
    (hch : col.chares msg.chare = some obj)
    (ih : X.KeepsHosted cid mapper me (.handle c msg.chare msg)
      (pe.record (.tried msg)) pe₁) :
    X.KeepsHosted cid mapper me (.attempt c msg) pe pe₁ := by
  intro hlog hproper hh
  obtain ⟨hto, hplain⟩ := hproper
  obtain ⟨hh₁, hs₁⟩ := ih hlog ⟨hto, hplain, rfl, hh.send hcol hctor hch⟩ (hh.record rfl)
  exact ⟨hh₁, .trans (.record (neutral_tried msg)) hs₁⟩

/-! ### `handle_` -/

/-- A broadcast of another collective, and so are its copies. -/
theorem hosted_inOrder (hb : msg.isBroadcast = true)
    (hrun₂ : X.Runs me (.flush c i) (pe₁.record (.returned c i msg)) true pe₂)
    (ih₁ : X.KeepsHosted cid mapper me (.calls (X.bodyOf me c i msg
        (X.sendCopies col msg children (pe.modify c (·.advance i)))))
      ((X.sendCopies col msg children (pe.modify c (·.advance i))).record
        (.invoked c i msg)) pe₁)
    (ih₂ : X.KeepsHosted cid mapper me (.flush c i)
      (pe₁.record (.returned c i msg)) pe₂) :
    X.KeepsHosted cid mapper me (.handle c i msg) pe pe₂ := by
  intro hlog hproper hh
  obtain ⟨hto, hplain, _⟩ := hproper
  obtain ⟨hentered, hmoved⟩ := hh.takes (hplain.ne hto hb) hto col i children
  obtain ⟨hh₁, hs₁⟩ :=
    ih₁ (hlog.starts (starts_record.trans hrun₂.whole.starts)) trivial hentered
  obtain ⟨hh₂, hs₂⟩ := ih₂ hlog trivial (hh₁.record rfl)
  exact ⟨hh₂, hmoved.trans (hs₁.trans (.trans (.record neutral_returned) hs₂))⟩

theorem hosted_outOfOrder (hb : msg.isBroadcast = true) :
    X.KeepsHosted cid mapper me (.handle c i msg) pe (pe.modify c (·.buffer msg)) := by
  intro _ hproper hh
  obtain ⟨hto, hplain, _⟩ := hproper
  have hc := hplain.ne hto hb
  exact ⟨hh.buffer hto hplain fun heq => absurd heq hc,
    (Shift.drop (hto.not_to hc)).trans .modify⟩

theorem hosted_plain (hcol : pe.collectiveTable c = some col)
    (hch : col.chares i = some obj)
    (ih : X.KeepsHosted cid mapper me (.calls (X.bodyOf me c i msg pe))
      (pe.record (.invoked c i msg)) pe₁) :
    X.KeepsHosted cid mapper me (.handle c i msg) pe
      (pe₁.record (.returned c i msg)) := by
  intro hlog hproper hh
  obtain ⟨hto, hplain, rfl, hsend⟩ := hproper
  have hhome : c = cid → X.peFor mapper msg.chare = me := by
    rintro rfl
    exact hh.present hcol hch
  obtain ⟨hh₁, hs₁⟩ := ih (hlog.starts starts_record) trivial
    (hh.invoke hto fun hc => ⟨rfl, hhome hc⟩)
  exact ⟨hh₁.record rfl, .trans (.invoke hto fun hc => lands_iff.mpr ⟨hsend hc, hhome hc⟩)
    (hs₁.trans (.record neutral_returned))⟩

/-! ### The calls of a program -/

theorem hosted_callsCons {call : Call} {cs : List Call}
    (hrun₂ : X.Runs me (.calls cs) pe₁ true pe₂)
    (ih₁ : X.KeepsHosted cid mapper me (.call call) pe pe₁)
    (ih₂ : X.KeepsHosted cid mapper me (.calls cs) pe₁ pe₂) :
    X.KeepsHosted cid mapper me (.calls (call :: cs)) pe pe₂ := by
  intro hlog _ hh
  obtain ⟨hh₁, hs₁⟩ := ih₁ (hlog.starts hrun₂.whole.starts) trivial hh
  obtain ⟨hh₂, hs₂⟩ := ih₂ hlog trivial hh₁
  exact ⟨hh₂, hs₁.trans hs₂⟩

/-- `insert`, `send` and `cmk::send` hand on what they made. -/
theorem hosted_issued {immediate : Bool} {entry : Entry}
    (hrun : X.Runs me (.endpoint immediate (newMessage me pe c i entry))
      (issue pe (newMessage me pe c i entry)) true pe₁)
    (ih : X.KeepsHosted cid mapper me (.endpoint immediate (newMessage me pe c i entry))
      (issue pe (newMessage me pe c i entry)) pe₁) (hlog : ElementsOnly cid pe₁.log)
    (hh : Hosted X cid mapper me pe) :
    Hosted X cid mapper me pe₁ ∧ Shift X cid mapper me [] [] pe pe₁ := by
  have hmem := hrun.whole.starts.subset
    (List.mem_append_right _ (List.mem_singleton_self _))
  obtain ⟨hh₁, hs₁⟩ := ih hlog ⟨rfl, plain_issued hlog hmem⟩ hh.issue
  exact ⟨hh₁, .trans .issue hs₁⟩

/-! ### `deliver_to_endpoint_` and `deliver_now` -/

theorem hosted_endpointAbsent (hnone : pe.collectiveTable msg.collective = none)
    {immediate : Bool} :
    X.KeepsHosted cid mapper me (.endpoint immediate msg) pe
      ((pe.record (.handled msg)).bufferCollective msg) := by
  intro _ hproper hh
  obtain ⟨hkind, hplain⟩ := hproper
  exact ⟨(hh.record rfl).bufferCollective hplain hkind,
    Shift.handle.trans (.bufferCollective hnone)⟩

theorem hosted_endpointNow
    (ih : X.KeepsHosted cid mapper me (.now msg.collective msg)
      (pe.record (.handled msg)) pe₁) :
    X.KeepsHosted cid mapper me (.endpoint true msg) pe pe₁ := by
  intro hlog hproper hh
  obtain ⟨hkind, hplain⟩ := hproper
  obtain ⟨hh₁, hs₁⟩ := ih hlog ⟨⟨rfl, hkind⟩, hplain⟩ (hh.record rfl)
  exact ⟨hh₁, Shift.handle.trans hs₁⟩

/-- The root is elsewhere: the broadcast is sent on to it. -/
theorem hosted_nowRootAbsent {dst : Nat} (hbcast : msg.chare = chareBcastRoot) :
    X.KeepsHosted cid mapper me (.now c msg) pe (pe.push dst msg) := by
  intro _ hproper hh
  obtain ⟨hto, hplain⟩ := hproper
  have hc := hplain.ne hto (isBroadcast_of_root hbcast)
  have hne := hto.not_to hc
  refine ⟨hh.push _ hplain, (Shift.drop hne).trans (.neutral [] _ rfl rfl
    (List.append_nil _).symm (fun _ he => by cases he) rfl fun r hr => ?_)⟩
  rw [List.mem_singleton.mp hr]
  exact hne

theorem hosted_nowRootNext (hbcast : msg.chare = chareBcastRoot)
    (hrun₂ : X.Runs me (.flush c root)
      (pe₁.record (.returned c root (msg.numbered root obj.lastBcast))) true pe₂)
    (ih₁ : X.KeepsHosted cid mapper me (.calls (X.bodyOf me c root
        (msg.numbered root obj.lastBcast) (X.rootSends col root obj msg children c pe)))
      ((X.rootSends col root obj msg children c pe).record
        (.invoked c root (msg.numbered root obj.lastBcast))) pe₁)
    (ih₂ : X.KeepsHosted cid mapper me (.flush c root)
      (pe₁.record (.returned c root (msg.numbered root obj.lastBcast))) pe₂) :
    X.KeepsHosted cid mapper me (.now c msg) pe pe₂ := by
  intro hlog hproper hh
  obtain ⟨hto, hplain⟩ := hproper
  have hc := hplain.ne hto (isBroadcast_of_root hbcast)
  have hne := hto.not_to hc
  have hrooted := hh.record (e := .rooted c (msg.numbered root obj.lastBcast)) rfl
  have hto' : (msg.numbered root obj.lastBcast).To c := hto
  obtain ⟨hentered, hmoved⟩ := hrooted.takes hc hto' col root children
  obtain ⟨hh₁, hs₁⟩ :=
    ih₁ (hlog.starts (starts_record.trans hrun₂.whole.starts)) trivial hentered
  obtain ⟨hh₂, hs₂⟩ := ih₂ hlog trivial (hh₁.record rfl)
  have hnone : ¬ (msg.numbered root obj.lastBcast).To cid := hne
  exact ⟨hh₂, (Shift.drop hne).trans (.trans (.record neutral_rooted)
    ((Shift.pick hnone).trans (hmoved.trans (hs₁.trans
    (.trans (.record neutral_returned) hs₂)))))⟩

theorem hosted_nowRootWrapped (hbcast : msg.chare = chareBcastRoot)
    (ih : X.KeepsHosted cid mapper me (.calls (X.bodyOf me c root
        (msg.numbered root obj.lastBcast)
        (pe.record (.rooted c (msg.numbered root obj.lastBcast)))))
      ((pe.record (.rooted c (msg.numbered root obj.lastBcast))).record
        (.invoked c root (msg.numbered root obj.lastBcast))) pe₁) :
    X.KeepsHosted cid mapper me (.now c msg) pe
      (pe₁.record (.returned c root (msg.numbered root obj.lastBcast))) := by
  intro hlog hproper hh
  obtain ⟨hto, hplain⟩ := hproper
  have hc := hplain.ne hto (isBroadcast_of_root hbcast)
  have hrooted := hh.record (e := .rooted c (msg.numbered root obj.lastBcast)) rfl
  obtain ⟨hh₁, hs₁⟩ := ih (hlog.starts starts_record) trivial
    (hrooted.invoke (show (msg.numbered root obj.lastBcast).To c from hto) fun heq =>
      absurd heq hc)
  exact ⟨hh₁.record rfl, (Shift.drop (hto.not_to hc)).trans
    (.trans (.record neutral_rooted)
      (.trans (.record (neutral_invoked hc)) (hs₁.trans (.record neutral_returned))))⟩

/-- It was given back at home, so it may wait in the deque. -/
theorem hosted_nowBuffer (hrun : X.Runs me (.attempt c msg) pe false pe₁)
    (ih : X.KeepsHosted cid mapper me (.attempt c msg) pe pe₁) :
    X.KeepsHosted cid mapper me (.now c msg) pe (pe₁.modify c (·.buffer msg)) := by
  intro hlog hproper hh
  obtain ⟨hh₁, hs₁⟩ := ih hlog hproper hh
  obtain ⟨rfl, col', hcol', hsend, _, hhome⟩ := hrun.failed
  refine ⟨hh₁.buffer hproper.1 hproper.2 fun hc => ⟨hsend, ?_⟩, hs₁.trans .modify⟩
  subst hc
  rw [← hh.mapped col' hcol', hhome]

/-! ### `flush` of a `collective_buffer_` -/

/-- It was counted as waiting, and is in hand now. -/
theorem hosted_drainCons (hfront : pe.collectiveBuffer c = msg :: rest)
    (hrun₂ : X.Runs me (.drain c) pe₁ true pe₂)
    (ih₁ : X.KeepsHosted cid mapper me (.now c msg)
      { pe with collectiveBuffer := Function.update pe.collectiveBuffer c rest } pe₁)
    (ih₂ : X.KeepsHosted cid mapper me (.drain c) pe₁ pe₂) :
    X.KeepsHosted cid mapper me (.drain c) pe pe₂ := by
  intro hlog _ hh
  have hmem : msg ∈ pe.collectiveBuffer c := by rw [hfront]; exact List.mem_cons_self
  have hto := hh.waiting c msg hmem
  obtain ⟨hh₁, hs₁⟩ := ih₁ (hlog.starts hrun₂.whole.starts)
    ⟨hto, hh.plain.waiting c msg hmem⟩ (hh.take hfront)
  obtain ⟨hh₂, hs₂⟩ := ih₂ hlog trivial hh₁
  exact ⟨hh₂, (Shift.take hto hfront).trans (hs₁.trans hs₂)⟩

end Cases

/-- **What a function does with the messages of the collective**: it keeps them
where they belong, and accounts for each. -/
theorem Runs.hosted (h : X.Runs me task pe done pe') :
    X.KeepsHosted cid mapper me task pe pe' := by
  induction h with
  | flushEmpty => exact fun _ _ hh => ⟨hh, .refl⟩
  | flushFront hcol hfront _ hrun₂ ih₁ ih₂ =>
    exact hosted_flushFront hcol hfront hrun₂ ih₁ ih₂
  | flushStop hcol hfront _ ih => exact hosted_flushStop hcol hfront ih
  | construct hcol hctor hhome _ hrun₂ ih₁ ih₂ =>
    exact hosted_construct hcol hctor hhome hrun₂ ih₁ ih₂
  | absent hcol hsend _ hhome => exact hosted_absent hcol hsend hhome
  | forward hcol haway _ => exact hosted_forward hcol haway
  | present hcol hctor hch _ ih => exact hosted_present hcol hctor hch ih
  | inOrder _ _ hb _ _ _ hrun₂ ih₁ ih₂ => exact hosted_inOrder hb hrun₂ ih₁ ih₂
  | outOfOrder _ _ hb _ => exact hosted_outOfOrder hb
  | plain hcol hch _ _ ih => exact hosted_plain hcol hch ih
  | callsNil => exact fun _ _ hh => ⟨hh, .refl⟩
  | callsCons _ hrun₂ ih₁ ih₂ => exact hosted_callsCons hrun₂ ih₁ ih₂
  | callInsert hrun ih | callSend hrun ih | callCmkSend hrun ih =>
    exact fun hlog _ hh => hosted_issued hrun ih hlog hh
  | callCollective => exact fun _ _ hh => hh.collective _
  | callGroup => exact fun hlog _ hh => hh.group _ _ hlog.group
  | endpointAbsent hnone => exact hosted_endpointAbsent hnone
  | endpointNow _ _ ih => exact hosted_endpointNow ih
  | endpointLater _ => exact fun _ hproper hh => ⟨hh.push _ hproper.2, .push _⟩
  | nowRootAbsent _ hbcast _ _ => exact hosted_nowRootAbsent hbcast
  | nowRootNext _ hbcast _ _ _ _ _ hrun₂ ih₁ ih₂ =>
    exact hosted_nowRootNext hbcast hrun₂ ih₁ ih₂
  | nowRootWrapped _ hbcast _ _ _ _ ih => exact hosted_nowRootWrapped hbcast ih
  | nowDone _ _ _ ih => exact ih
  | nowBuffer _ _ hrun ih => exact hosted_nowBuffer hrun ih
  | drainNil => exact fun _ _ hh => ⟨hh, .refl⟩
  | drainCons hfront _ hrun₂ ih₁ ih₂ => exact hosted_drainCons hfront hrun₂ ih₁ ih₂

/-- After `flush` of a `collective_buffer_` nothing waits in it. -/
theorem Runs.drained {c : CollectiveIndex} (h : X.Runs me (.drain c) pe done pe') :
    pe'.collectiveBuffer c = [] := by
  generalize htask : Task.drain c = task at h
  induction h with
  | drainNil hnil =>
    obtain rfl := Task.drain.inj htask
    exact hnil
  | drainCons _ _ _ _ ih => exact ih htask
  | _ => cases htask

end Machine

end CharmExperiments.Charmlite
