import CharmExperiments.Charmlite.BcastNumber

/-!
# Flushing a queue that holds a broadcast

`flush_buffers` pops a message only after `try_deliver` took it. A broadcast
that `handle_` takes out of order is put at the end of the same queue, and one
that it takes in order flushes the same queue again, while it is still its
front. So a flush that starts with a broadcast in the queue never ends
(`flush_jammed`): every function leaves the queue as it was, with messages
added at its end (`Runs.adds`).

Copies come from the network: what an entry function calls puts none into a
queue (`Runs.noCopies`).
-/

namespace CharmExperiments.Charmlite

open CharmExperiments.Lib

/-- The deque of `buffers_` for an index. -/
def Pe.queue (pe : Pe) (cid : CollectiveIndex) (idx : ChareIndex) : List Message :=
  ((pe.collectiveTable cid).map (·.buffers idx)).getD []

/-- A broadcast that `handle_` gets from `try_deliver`. -/
def Message.isCopy (msg : Message) : Bool := msg.isBroadcast && !msg.entry.isConstructor

section Queue

variable {pe : Pe} {cid i : CollectiveIndex} {idx j : ChareIndex} {msg : Message}
  {col : Collective} {f : Collective → Collective}

theorem queue_of_table (hcol : pe.collectiveTable cid = some col) :
    pe.queue cid idx = col.buffers idx := by
  simp [Pe.queue, hcol]

theorem chareAt_of_table (hcol : pe.collectiveTable cid = some col) :
    pe.chareAt cid idx = col.chares idx := by
  simp [Pe.chareAt, hcol]

theorem table_modify (hcol : pe.collectiveTable cid = some col)
    (f : Collective → Collective) : (pe.modify cid f).collectiveTable cid =
    some (f col) := by
  rw [modify_self, hcol, Option.map_some]

theorem emplace_self_isSome (col : Collective) (idx : ChareIndex) :
    ((col.emplace idx).chares idx).isSome := by
  unfold Collective.emplace
  split
  next hsome => rw [hsome]; rfl
  next => simp

theorem queue_modify (hf : ∀ c, (f c).buffers idx = c.buffers idx) :
    (pe.modify i f).queue cid idx = pe.queue cid idx := by
  unfold Pe.queue
  by_cases hi : cid = i
  · subst hi
    rw [modify_self, Option.map_map]
    congr 2
    exact funext fun c => hf c
  · rw [modify_ne hi]

theorem queue_popFront (hcol : pe.collectiveTable cid = some col) :
    (pe.modify cid (·.popFront idx)).queue cid idx = (col.buffers idx).tail := by
  simp [Pe.queue, hcol]

theorem queue_buffer (hcol : pe.collectiveTable cid = some col) (hidx : msg.chare = idx) :
    (pe.modify cid (·.buffer msg)).queue cid idx = pe.queue cid idx ++ [msg] := by
  subst hidx
  simp [Pe.queue, hcol]

/-- Another collective, or another index. -/
theorem queue_popFront_ne (h : ¬ (i = cid ∧ j = idx)) :
    (pe.modify i (·.popFront j)).queue cid idx = pe.queue cid idx := by
  by_cases hi : cid = i
  · subst hi
    exact queue_modify fun c => popFront_buffers_ne fun hj => h ⟨rfl, hj.symm⟩
  · rw [Pe.queue, modify_ne hi, Pe.queue]

theorem queue_buffer_ne (h : ¬ (i = cid ∧ msg.chare = idx)) :
    (pe.modify i (·.buffer msg)).queue cid idx = pe.queue cid idx := by
  by_cases hi : cid = i
  · subst hi
    exact queue_modify fun c => buffer_buffers_ne fun hj => h ⟨rfl, hj.symm⟩
  · rw [Pe.queue, modify_ne hi, Pe.queue]

theorem chareAt_modify (hf : ∀ c, (c.chares idx).isSome → ((f c).chares idx).isSome)
    (h : (pe.chareAt cid idx).isSome) : ((pe.modify i f).chareAt cid idx).isSome := by
  unfold Pe.chareAt at h ⊢
  by_cases hi : cid = i
  · subst hi
    rw [modify_self]
    cases htable : pe.collectiveTable cid with
    | none =>
      rw [htable] at h
      cases h
    | some c =>
      rw [htable] at h
      exact hf c h
  · rw [modify_ne hi]
    exact h

theorem emplace_isSome (c : Collective) (h : (c.chares idx).isSome) :
    ((c.emplace j).chares idx).isSome := by
  unfold Collective.emplace
  split
  · exact h
  · by_cases hj : idx = j
    · subst hj
      simp
    · simpa [Function.update_of_ne hj] using h

theorem advance_isSome (c : Collective) (h : (c.chares idx).isSome) :
    ((c.advance j).chares idx).isSome := by
  unfold Collective.advance
  by_cases hj : idx = j
  · subst hj
    simpa using h
  · simpa [Function.update_of_ne hj] using h

end Queue

/-- The element stays, and its queue only has messages added at the end. -/
structure Adds (cid : CollectiveIndex) (idx : ChareIndex) (pe pe' : Pe) : Prop where
  present : (pe.chareAt cid idx).isSome → (pe'.chareAt cid idx).isSome
  queue : ∃ l, pe'.queue cid idx = pe.queue cid idx ++ l ∧ ∀ m ∈ l, m.chare = idx

/-- The element is there, and its queue holds a broadcast. -/
structure Jammed (cid : CollectiveIndex) (idx : ChareIndex) (pe : Pe) : Prop where
  present : (pe.chareAt cid idx).isSome
  here : ∀ m ∈ pe.queue cid idx, m.chare = idx
  copy : ∃ m ∈ pe.queue cid idx, m.isCopy = true

/-- A broadcast for the element is on its way to `handle_`. -/
def Task.Tries (cid : CollectiveIndex) (idx : ChareIndex) : Task → Prop
  | .attempt c msg => c = cid ∧ msg.chare = idx ∧ msg.isCopy = true
  | .handle c i msg => c = cid ∧ i = idx ∧ msg.chare = idx ∧ msg.isCopy = true
  | _ => False

section Adds

variable {cid i : CollectiveIndex} {idx j : ChareIndex} {pe pe₁ pe₂ : Pe} {msg : Message}

theorem Adds.same (h : pe₁.collectiveTable = pe.collectiveTable) :
    Adds cid idx pe pe₁ where
  present := by
    unfold Pe.chareAt
    rw [h]
    exact id
  queue := ⟨[], by rw [Pe.queue, h, Pe.queue, List.append_nil], fun _ hm => by cases hm⟩

theorem Adds.after (h : Adds cid idx pe₁ pe₂)
    (hs : pe₁.collectiveTable = pe.collectiveTable) :
    Adds cid idx pe pe₂ where
  present := by
    have hpresent := h.present
    unfold Pe.chareAt at hpresent ⊢
    rwa [hs] at hpresent
  queue := by
    obtain ⟨l, hl, hhere⟩ := h.queue
    exact ⟨l, by rw [hl, Pe.queue, hs, Pe.queue], hhere⟩

theorem Adds.trans (h₁ : Adds cid idx pe pe₁) (h₂ : Adds cid idx pe₁ pe₂) :
    Adds cid idx pe pe₂ where
  present := fun h => h₂.present (h₁.present h)
  queue := by
    obtain ⟨l₁, hl₁, hhere₁⟩ := h₁.queue
    obtain ⟨l₂, hl₂, hhere₂⟩ := h₂.queue
    refine ⟨l₁ ++ l₂, by rw [hl₂, hl₁, List.append_assoc], ?_⟩
    intro m hm
    rcases List.mem_append.mp hm with hm | hm
    · exact hhere₁ m hm
    · exact hhere₂ m hm

theorem Adds.emplace : Adds cid idx pe (pe.modify i (·.emplace j)) where
  present := chareAt_modify fun c => emplace_isSome c
  queue := ⟨[], by rw [queue_modify (fun c => by rw [emplace_buffers]), List.append_nil],
    fun _ hm => by cases hm⟩

theorem Adds.advance : Adds cid idx pe (pe.modify i (·.advance j)) where
  present := chareAt_modify fun c => advance_isSome c
  queue := by
    have hqueue : (pe.modify i (·.advance j)).queue cid idx = pe.queue cid idx :=
      queue_modify fun _ => rfl
    exact ⟨[], by rw [hqueue, List.append_nil], fun _ hm => by cases hm⟩

theorem Adds.popFront (h : ¬ (i = cid ∧ j = idx)) :
    Adds cid idx pe (pe.modify i (·.popFront j)) where
  present := chareAt_modify fun _ => id
  queue := ⟨[], by rw [queue_popFront_ne h, List.append_nil], fun _ hm => by cases hm⟩

theorem Adds.buffer : Adds cid idx pe (pe.modify i (·.buffer msg)) where
  present := chareAt_modify fun _ => id
  queue := by
    by_cases hi : i = cid ∧ msg.chare = idx
    · obtain ⟨rfl, hidx⟩ := hi
      cases hcol : pe.collectiveTable i with
      | none => exact ⟨[], by simp [Pe.queue, hcol], fun _ hm => by cases hm⟩
      | some col =>
        refine ⟨[msg], queue_buffer hcol hidx, fun m hm => ?_⟩
        rw [List.mem_singleton.mp hm]
        exact hidx
    · exact ⟨[], by rw [queue_buffer_ne hi, List.append_nil], fun _ hm => by cases hm⟩

theorem Jammed.adds (h : Jammed cid idx pe) (ha : Adds cid idx pe pe₁) :
    Jammed cid idx pe₁ := by
  obtain ⟨l, hl, hhere⟩ := ha.queue
  obtain ⟨m, hm, hcopy⟩ := h.copy
  refine ⟨ha.present h.present, ?_, m, by rw [hl]; exact List.mem_append_left _ hm, hcopy⟩
  intro m' hm'
  rw [hl] at hm'
  rcases List.mem_append.mp hm' with hm' | hm'
  · exact h.here m' hm'
  · exact hhere m' hm'

/-- The front was put at the end again if it is a broadcast: popping it leaves one. -/
theorem Jammed.popped {rest : List Message} (h : Jammed cid idx pe)
    (hqueue : pe.queue cid idx = msg :: rest) (ha : Adds cid idx pe pe₁)
    (hmore : msg.isCopy = true →
      (pe.queue cid idx).countP Message.isCopy <
      (pe₁.queue cid idx).countP Message.isCopy) :
    Jammed cid idx (pe₁.modify cid (·.popFront idx)) := by
  have h₁ := h.adds ha
  obtain ⟨l, hl, -⟩ := ha.queue
  rw [hqueue, List.cons_append] at hl
  have hpop : (pe₁.modify cid (·.popFront idx)).queue cid idx = rest ++ l := by
    cases hcol₁ : pe₁.collectiveTable cid with
    | none =>
      rw [Pe.queue, hcol₁] at hl
      cases hl
    | some col₁ =>
      rw [queue_popFront hcol₁, ← queue_of_table hcol₁, hl, List.tail_cons]
  refine ⟨chareAt_modify (fun _ => id) h₁.present, fun m hm => ?_, ?_⟩
  · rw [hpop] at hm
    exact h₁.here m (by rw [hl]; exact List.mem_cons_of_mem _ hm)
  · rw [hpop]
    by_cases hcopy : msg.isCopy = true
    · have hlt := hmore hcopy
      rw [hl, hqueue, List.countP_cons_of_pos hcopy, List.countP_cons_of_pos hcopy,
        List.countP_append] at hlt
      obtain ⟨m, hm, hmc⟩ :=
        List.countP_pos_iff.mp (show 0 < l.countP Message.isCopy by omega)
      exact ⟨m, List.mem_append_right _ hm, hmc⟩
    · obtain ⟨m, hm, hmc⟩ := h.copy
      rw [hqueue, List.mem_cons] at hm
      rcases hm with rfl | hm
      · exact absurd hmc hcopy
      · exact ⟨m, List.mem_append_left _ hm, hmc⟩

end Adds

namespace Machine

variable {X : Machine} {me : Nat} {cid : CollectiveIndex} {idx : ChareIndex}

/-- Only an element that is not there makes `try_deliver` fail. -/
theorem Runs.absent_of_false {pe pe' : Pe} {c : CollectiveIndex} {msg : Message}
    (h : X.Runs me (.attempt c msg) pe false pe') : pe.chareAt c msg.chare = none := by
  cases h with
  | absent hcol _ hnone _ =>
    rw [chareAt_of_table hcol]
    exact hnone

/-- What any function does to the queue of an element, if it returns: it was not
a flush of the queue, it added to it, and a broadcast that it got for the element
is one of those it added. -/
theorem Runs.adds {task : Task} {pe pe' : Pe} {done : Bool}
    (h : X.Runs me task pe done pe') (hj : Jammed cid idx pe) :
    task ≠ .flush cid idx ∧ Adds cid idx pe pe' ∧ (task.Tries cid idx →
      (pe.queue cid idx).countP Message.isCopy <
      (pe'.queue cid idx).countP Message.isCopy) := by
  induction h with
  | @flushEmpty pe c i col hcol hempty =>
    refine ⟨?_, .same rfl, False.elim⟩
    intro heq
    obtain ⟨rfl, rfl⟩ := Task.flush.inj heq
    obtain ⟨m, hm, _⟩ := hj.copy
    rw [queue_of_table hcol, hempty] at hm
    cases hm
  | @flushFront pe pe₁ pe₂ c i col msg rest hcol hfront hrun _ ih₁ ih₂ =>
    obtain ⟨_, hadds, htries⟩ := ih₁ hj
    have hj₁ := hj.adds hadds
    by_cases hi : c = cid ∧ i = idx
    · -- the front stays the front, so popping it leaves a broadcast in the queue
      obtain ⟨rfl, rfl⟩ := hi
      have hqueue : pe.queue c i = msg :: rest := by rw [queue_of_table hcol, hfront]
      have hhere := hj.here msg (by rw [hqueue]; exact List.mem_cons_self)
      exact absurd rfl
        (ih₂ (hj.popped hqueue hadds fun hcopy => htries ⟨rfl, hhere, hcopy⟩)).1
    · refine ⟨fun heq => hi (Task.flush.inj heq), ?_, False.elim⟩
      have hpop : Adds cid idx pe₁ (pe₁.modify c (·.popFront i)) := .popFront hi
      exact hadds.trans (hpop.trans (ih₂ (hj₁.adds hpop)).2.1)
  | @flushStop pe pe₁ c i col msg rest hcol hfront hrun ih =>
    obtain ⟨_, hadds, _⟩ := ih hj
    refine ⟨?_, hadds, False.elim⟩
    intro heq
    obtain ⟨rfl, rfl⟩ := Task.flush.inj heq
    -- the element is there, so its front is not given back
    have habsent := hrun.absent_of_false
    rw [hj.here msg
      (by rw [queue_of_table hcol, hfront]; exact List.mem_cons_self)] at habsent
    have hpresent := hj.present
    rw [habsent] at hpresent
    cases hpresent
  | @construct pe pe₁ pe₂ c msg col hcol hctor _ _ _ ih₁ ih₂ =>
    have hstart :
      Adds cid idx pe (((pe.record (.tried msg)).modify c (·.emplace msg.chare)).record
        (.invoked c msg.chare msg)) :=
      .trans (.after (@Adds.emplace _ _ _ _ (pe.record (.tried msg))) rfl) (.same rfl)
    have hbody := hstart.trans (ih₁ (hj.adds hstart)).2.1
    have hret : Adds cid idx pe (pe₁.record (.returned c msg.chare msg)) :=
      hbody.trans (.same rfl)
    refine ⟨Task.noConfusion, (hret.trans (ih₂ (hj.adds hret)).2.1).trans (.same rfl), ?_⟩
    rintro ⟨_, _, hcopy⟩
    rw [Message.isCopy, hctor, Bool.not_true, Bool.and_false] at hcopy
    cases hcopy
  | absent hcol _ hnone _ | forward hcol _ hnone =>
    refine ⟨Task.noConfusion, .same rfl, ?_⟩
    rintro ⟨rfl, rfl, _⟩
    have hpresent := hj.present
    rw [chareAt_of_table hcol, hnone] at hpresent
    cases hpresent
  | @present pe pe₁ c msg col ch hcol _ _ _ ih =>
    have hstart : Adds cid idx pe (pe.record (.tried msg)) := .same rfl
    obtain ⟨_, hadds, htries⟩ := ih (hj.adds hstart)
    exact ⟨Task.noConfusion, hstart.trans hadds,
      fun ⟨hc, hidx, hcopy⟩ => htries ⟨hc, hidx, hidx, hcopy⟩⟩
  | @inOrder pe pe₁ pe₂ c i msg col ch children _ _ _ _ _ _ _ ih₁ ih₂ =>
    have hstart : Adds cid idx pe ((X.sendCopies col msg children
        (pe.modify c (·.advance i))).record (.invoked c i msg)) :=
      .trans .advance (.same rfl)
    have hbody := hstart.trans (ih₁ (hj.adds hstart)).2.1
    have hret : Adds cid idx pe (pe₁.record (.returned c i msg)) :=
      hbody.trans (.same rfl)
    obtain ⟨hne, hadds, _⟩ := ih₂ (hj.adds hret)
    refine ⟨Task.noConfusion, hret.trans hadds, ?_⟩
    rintro ⟨rfl, rfl, _⟩
    -- it flushes the queue, which does not return
    exact absurd rfl hne
  | @outOfOrder pe c i msg col ch hcol _ hb _ =>
    refine ⟨Task.noConfusion, .buffer, ?_⟩
    rintro ⟨rfl, rfl, hidx, hcopy⟩
    rw [queue_buffer hcol hidx, List.countP_append, List.countP_singleton, if_pos hcopy]
    omega
  | @plain pe pe₁ c i msg col ch _ _ hb _ ih =>
    have hstart : Adds cid idx pe (pe.record (.invoked c i msg)) := .same rfl
    refine ⟨Task.noConfusion,
      (hstart.trans (ih (hj.adds hstart)).2.1).trans (.same rfl), ?_⟩
    rintro ⟨_, _, _, hcopy⟩
    rw [Message.isCopy, hb, Bool.false_and] at hcopy
    cases hcopy
  | callsNil => exact ⟨Task.noConfusion, .same rfl, False.elim⟩
  | callsCons _ _ ih₁ ih₂ =>
    have hfirst := (ih₁ hj).2.1
    exact ⟨Task.noConfusion, hfirst.trans (ih₂ (hj.adds hfirst)).2.1, False.elim⟩
  | callInsert _ ih | callSend _ ih | callCmkSend _ ih | endpointNow _ _ ih =>
    exact ⟨Task.noConfusion, .after (ih (hj.adds (.same rfl))).2.1 rfl, False.elim⟩
  | callCollective | callGroup | endpointAbsent | endpointLater | nowRootAbsent =>
    exact ⟨Task.noConfusion, .same rfl, False.elim⟩
  | @nowRootNext pe pe₁ pe₂ c msg col root obj children _ _ _ _ _ _ _ _ ih₁ ih₂ =>
    have hstart : Adds cid idx pe ((X.rootSends col root obj msg children c pe).record
        (.invoked c root (msg.numbered root obj.lastBcast))) :=
      .trans (.after (@Adds.advance _ _ _ _
        (pe.record (.rooted c (msg.numbered root obj.lastBcast)))) rfl)
        (.same rfl)
    have hbody := hstart.trans (ih₁ (hj.adds hstart)).2.1
    have hret : Adds cid idx pe
        (pe₁.record (.returned c root (msg.numbered root obj.lastBcast))) :=
          hbody.trans (.same rfl)
    exact ⟨Task.noConfusion, hret.trans (ih₂ (hj.adds hret)).2.1, False.elim⟩
  | nowRootWrapped _ _ _ _ _ _ ih =>
    exact ⟨Task.noConfusion, .after ((ih (hj.adds (.same rfl))).2.1.trans
      (.same rfl)) rfl, False.elim⟩
  | nowDone _ _ _ ih => exact ⟨Task.noConfusion, (ih hj).2.1, False.elim⟩
  | nowBuffer _ _ _ ih => exact ⟨Task.noConfusion, (ih hj).2.1.trans .buffer, False.elim⟩
  | drainNil => exact ⟨Task.noConfusion, .same rfl, False.elim⟩
  | @drainCons pe pe₁ pe₂ c msg rest _ _ _ ih₁ ih₂ =>
    have hstart : Adds cid idx pe
        { pe with collectiveBuffer := Function.update pe.collectiveBuffer c rest } :=
          .same rfl
    have hfirst := hstart.trans (ih₁ (hj.adds hstart)).2.1
    exact ⟨Task.noConfusion, hfirst.trans (ih₂ (hj.adds hfirst)).2.1, False.elim⟩

/-- **A jammed queue is never flushed.** -/
theorem flush_jammed {pe pe' : Pe} {done : Bool} (hj : Jammed cid idx pe) :
    ¬ X.Runs me (.flush cid idx) pe done pe' :=
  fun h => (h.adds hj).1 rfl

end Machine

/-! ## Where copies come from -/

/-- Messages wait under their index. -/
def Pe.Here (pe : Pe) : Prop :=
  ∀ cid col, pe.collectiveTable cid = some col →
    ∀ idx, ∀ m ∈ col.buffers idx, m.chare = idx

/-- The queue holds no broadcast. -/
def Pe.NoCopies (pe : Pe) (cid : CollectiveIndex) (idx : ChareIndex) : Prop :=
  ∀ m ∈ pe.queue cid idx, m.isCopy = false

/-- What a function is given is no copy. -/
def Task.Calm : Task → Prop
  | .attempt _ msg => msg.isCopy = false
  | .handle _ _ msg => msg.isCopy = false
  | .endpoint _ msg => msg.bcast = 0
  | .now _ msg => msg.bcast = 0
  | .drain _ => False
  | _ => True

section NoCopies

variable {X : Machine} {me : Nat} {cid i : CollectiveIndex}
  {idx j : ChareIndex} {pe pe' : Pe}
  {msg : Message} {f : Collective → Collective}

theorem Pe.Here.modify (h : pe.Here)
    (hf : ∀ col idx m, m ∈ (f col).buffers idx → m ∈ col.buffers idx ∨ m.chare = idx) :
    (pe.modify cid f).Here := by
  intro i col hcol idx m hm
  by_cases hi : i = cid
  · subst hi
    rw [modify_self, Option.map_eq_some_iff] at hcol
    obtain ⟨col', hcol', rfl⟩ := hcol
    rcases hf col' idx m hm with hold | hnew
    · exact h i col' hcol' idx m hold
    · exact hnew
  · rw [modify_ne hi] at hcol
    exact h i col hcol idx m hm

theorem Pe.Here.popFront (h : pe.Here) : (pe.modify cid (·.popFront idx)).Here :=
  h.modify fun _ _ _ hm => Or.inl (mem_popFront hm)

theorem Pe.Here.emplace (h : pe.Here) : (pe.modify cid (·.emplace idx)).Here :=
  h.modify fun _ _ _ hm => Or.inl (by rwa [emplace_buffers] at hm)

theorem Pe.Here.advance (h : pe.Here) : (pe.modify cid (·.advance idx)).Here :=
  h.modify fun _ _ _ hm => Or.inl hm

theorem here_kept : Machine.Kept X me (fun _ => True) (fun _ => True) Pe.Here where
  bodies := fun _ _ _ _ => trivial
  stored := fun _ _ _ _ _ _ _ _ => trivial
  waiting := fun _ _ _ _ _ => trivial
  record := fun _ _ _ h => h
  push := fun _ _ _ _ h => h
  buffer := fun _ _ m _ h => h.modify fun col idx m' hm' => by
    by_cases hidx : idx = m.chare
    · rcases mem_buffer hm' with hold | rfl
      · exact Or.inl hold
      · exact Or.inr hidx.symm
    · rw [buffer_buffers_ne hidx] at hm'
      exact Or.inl hm'
  popFront := fun _ _ _ h => h.popFront
  bufferCollective := fun _ _ _ h => h
  take := fun _ _ _ _ _ h => h
  construct := fun _ _ _ _ _ _ _ _ h => h.emplace
  plain := fun _ _ _ _ _ _ _ _ _ _ h => h
  accept := fun _ _ _ _ _ _ _ _ _ _ _ _ _ h => h.advance
  rootNext := fun _ _ _ _ _ _ _ _ _ _ _ _ _ _ h => h.advance
  rootWrapped := fun _ _ _ _ _ _ _ _ _ _ _ _ h => h
  insert := fun _ _ _ _ _ h => ⟨trivial, h⟩
  send := fun _ _ _ _ _ h => ⟨trivial, h⟩
  collective := fun _ _ _ h => h
  group := fun _ _ _ _ h => h

/-- The other functions leave it in place. -/
theorem Machine.Runs.here {task : Task} {done : Bool} (h : X.Runs me task pe done pe')
    (hg : ∀ c i m, task ≠ .handle c i m) (hhere : pe.Here) : pe'.Here := by
  refine h.kept here_kept ?_ hhere
  cases task with
  | handle c i m => exact absurd rfl (hg c i m)
  | calls => exact fun _ _ => trivial
  | _ => trivial

theorem Pe.NoCopies.same (h : pe.NoCopies cid idx)
    (hqueue : pe'.queue cid idx = pe.queue cid idx) : pe'.NoCopies cid idx := by
  rw [Pe.NoCopies, hqueue]
  exact h

theorem Pe.NoCopies.buffer (h : pe.NoCopies cid idx) (hcopy : msg.isCopy = false) :
    (pe.modify i (·.buffer msg)).NoCopies cid idx := by
  obtain ⟨l, hl, hmsg⟩ : ∃ l, (pe.modify i (·.buffer msg)).queue cid idx
      = pe.queue cid idx ++ l ∧ ∀ m ∈ l, m = msg := by
    by_cases hi : i = cid ∧ msg.chare = idx
    · obtain ⟨rfl, hidx⟩ := hi
      cases hcol : pe.collectiveTable i with
      | none => exact ⟨[], by simp [Pe.queue, hcol], fun _ hm => by cases hm⟩
      | some col => exact ⟨[msg], queue_buffer hcol hidx, fun m hm =>
        List.mem_singleton.mp hm⟩
    · exact ⟨[], by rw [queue_buffer_ne hi, List.append_nil], fun _ hm => by cases hm⟩
  intro m hm
  rw [hl] at hm
  rcases List.mem_append.mp hm with hold | hnew
  · exact h m hold
  · rw [hmsg m hnew]
    exact hcopy

theorem Pe.NoCopies.popFront (h : pe.NoCopies cid idx) :
    (pe.modify i (·.popFront j)).NoCopies cid idx := by
  by_cases hi : i = cid ∧ j = idx
  · obtain ⟨rfl, rfl⟩ := hi
    cases hcol : pe.collectiveTable i with
    | none => exact h.same (by simp [Pe.queue, hcol])
    | some col =>
      intro m hm
      rw [queue_popFront hcol] at hm
      exact h m (by rw [queue_of_table hcol]; exact List.mem_of_mem_tail hm)
  · exact h.same (queue_popFront_ne hi)

theorem ctor_of_isCopy (h : msg.isCopy = true) : msg.entry.isConstructor = false := by
  rw [Message.isCopy, Bool.and_eq_true, Bool.not_eq_true'] at h
  exact h.2

theorem isCopy_of_unnumbered (hb : msg.bcast = 0) (hne : msg.chare ≠ chareBcastRoot) :
    msg.isCopy = false := by
  simp [Message.isCopy, Message.isBroadcast, hb, hne]

namespace Machine

/-- What is for an element that is not there is sent on, if it is taken at all. -/
theorem Runs.forwarded {pe pe₁ : Pe} {col : Collective}
    (h : X.Runs me (.attempt i msg) pe true pe₁) (hcol : pe.collectiveTable i = some col)
    (hnone : col.chares msg.chare = none) (hctor : msg.entry.isConstructor = false) :
    pe₁ = (pe.record (.tried msg)).push (X.peFor col.mapper msg.chare) msg := by
  cases h with
  | construct _ hctor' _ _ _ =>
    rw [hctor] at hctor'
    cases hctor'
  | forward hcol' _ _ =>
    obtain rfl := Option.some.inj (hcol.symm.trans hcol')
    rfl
  | present hcol' _ hch _ =>
    obtain rfl := Option.some.inj (hcol.symm.trans hcol')
    rw [hnone] at hch
    cases hch

/-- A flush for an element that is there returns only with no copy in the queue. -/
theorem Runs.flush_noCopies {pe pe' : Pe} {done : Bool} {col : Collective}
    (h : X.Runs me (.flush i j) pe done pe') (hhere : pe.Here)
    (hcol : pe.collectiveTable i = some col) (hsome : (col.chares j).isSome) :
    pe.NoCopies i j := by
  intro m hm
  refine Bool.eq_false_iff.mpr fun hcopy => flush_jammed ⟨?_, ?_, m, hm, hcopy⟩ h
  · rw [chareAt_of_table hcol]
    exact hsome
  · rw [queue_of_table hcol]
    exact hhere i col hcol j

/-- **Given no copy, a function puts none into a queue.** -/
theorem Runs.noCopies {task : Task} {done : Bool} (h : X.Runs me task pe done pe')
    (hcalm : task.Calm) (hhere : pe.Here) (hnone : pe.NoCopies cid idx) :
    pe'.NoCopies cid idx := by
  induction h with
  | flushEmpty => exact hnone
  | @flushFront pe pe₁ pe₂ c i col msg rest hcol hfront hrun₁ hrun₂ ih₁ ih₂ =>
    have hhere₁ : pe₁.Here := hrun₁.here (fun _ _ _ => Task.noConfusion) hhere
    refine ih₂ trivial hhere₁.popFront (Pe.NoCopies.popFront ?_)
    have hmem : msg ∈ col.buffers i := by rw [hfront]; exact List.mem_cons_self
    by_cases hcopy : msg.isCopy = true
    · -- a copy is taken from the queue of an absent element only, and sent on
      have habsent : col.chares i = none := by
        rw [← Option.not_isSome_iff_eq_none]
        intro hsome
        have hplain :=
          (Runs.flushFront hcol hfront hrun₁ hrun₂).flush_noCopies hhere hcol hsome msg
          (by rw [queue_of_table hcol]; exact hmem)
        rw [hcopy] at hplain
        cases hplain
      rw [← hhere c col hcol i msg hmem] at habsent
      obtain rfl := hrun₁.forwarded hcol habsent (ctor_of_isCopy hcopy)
      exact hnone
    · exact ih₁ (Bool.eq_false_iff.mpr hcopy) hhere hnone
  | flushStop _ _ hrun _ =>
    cases hrun with
    | absent => exact hnone
  | @construct pe pe₁ pe₂ c msg col _ _ _ hrun₁ _ ih₁ ih₂ =>
    have hqueue : ((pe.record (.tried msg)).modify c (·.emplace msg.chare)).queue cid idx
        = pe.queue cid idx := queue_modify fun _ => by rw [emplace_buffers]
    have hbody := ih₁ trivial hhere.emplace (hnone.same hqueue)
    exact ih₂ trivial (hrun₁.here (fun _ _ _ => Task.noConfusion) hhere.emplace) hbody
  | absent | forward => exact hnone
  | present _ _ _ _ ih => exact ih hcalm hhere hnone
  | @inOrder pe pe₁ pe₂ c i msg col ch children _ _ _ _ _ hrun₁ _ ih₁ ih₂ =>
    have hqueue : (pe.modify c (·.advance i)).queue cid idx = pe.queue cid idx :=
      queue_modify fun _ => rfl
    have hbody := ih₁ trivial hhere.advance (hnone.same hqueue)
    exact ih₂ trivial (hrun₁.here (fun _ _ _ => Task.noConfusion) hhere.advance) hbody
  | outOfOrder => exact hnone.buffer hcalm
  | plain _ _ _ _ ih => exact ih trivial hhere hnone
  | callsNil => exact hnone
  | callsCons hrun₁ _ ih₁ ih₂ =>
    exact ih₂ trivial (hrun₁.here (fun _ _ _ => Task.noConfusion) hhere)
      (ih₁ trivial hhere hnone)
  | callInsert _ ih | callSend _ ih | callCmkSend _ ih => exact ih rfl hhere hnone
  | callCollective | callGroup | endpointAbsent | endpointLater | nowRootAbsent =>
    exact hnone
  | endpointNow _ _ ih => exact ih hcalm hhere hnone
  | @nowRootNext pe pe₁ pe₂ c msg col root obj children _ _ _ _ _ _ hrun₁ _ ih₁ ih₂ =>
    have hqueue : (pe.modify c (·.advance root)).queue cid idx = pe.queue cid idx :=
      queue_modify fun _ => rfl
    have hbody := ih₁ trivial hhere.advance (hnone.same hqueue)
    exact ih₂ trivial (hrun₁.here (fun _ _ _ => Task.noConfusion) hhere.advance) hbody
  | nowRootWrapped _ _ _ _ _ _ ih => exact ih trivial hhere hnone
  | nowDone _ hne _ ih => exact ih (isCopy_of_unnumbered hcalm hne) hhere hnone
  | nowBuffer _ hne _ ih =>
    have hcopy := isCopy_of_unnumbered hcalm hne
    exact (ih hcopy hhere hnone).buffer hcopy
  | drainNil | drainCons => exact hcalm.elim

end Machine

end NoCopies

end CharmExperiments.Charmlite
