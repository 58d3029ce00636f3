import CharmExperiments.Charmlite.Flush
import CharmExperiments.Charmlite.Queued

/-!
# When `deliver_now` returns

One PE with one group, to which messages are delivered in any order, each of
them once. Entry functions only queue what they send (`Call.Queued`). What
`deliver_now` flushes is at most one queue, after a constructor that of the index
which is then read from the message (`Machine.indexAfter`). It returns, and tries
no message again that an entry function was invoked with, exactly if the element
of that queue is not there or the queue holds no broadcast (`deliver_returns_iff`).

With a broadcast in the queue of an element it never returns (`Flush`). Without,
the flush tries each message of the queue once (`flush_returns`), since a message
is held in one place only until an entry function owns it (`QueueInv`); and it
stops at the first message for an element that is not there.
-/

namespace CharmExperiments.Charmlite

open CharmExperiments.Lib

/-- No message is tried after an entry function was invoked with it. -/
def NoRetry (log : List Event) : Prop :=
  log.Pairwise fun e e' => ∀ id, e.invokes = some id → e'.tries ≠ some id

/-- A message that the group does not hold and that was not used up. -/
structure Collective.Fresh (col : Collective) (log : List Event) (msg : Message) :
    Prop where
  apart : ∀ idx, ∀ m ∈ col.buffers idx, m.id ≠ msg.id
  idle : ∀ e ∈ log, e.invokes ≠ some msg.id

/-- Messages are delivered to the group `g` on PE `me`. -/
def Machine.groupOn (X : Machine) (me : Nat) (g : CollectiveIndex) :
    Transition Pe (Nat × Message) where
  init pe := pe.collectiveTable g = some (.new .group) ∧ pe.log = []
  step pe a := (X.deliverNow me a.1 g a.2 pe).toOption

/-- The network delivers no message twice. -/
def Pe.Fresh (g : CollectiveIndex) (pe : Pe) (msg : Message) : Prop :=
  ∃ col, pe.collectiveTable g = some col ∧ col.Fresh pe.log msg

/-- The queue that `deliver_now` will flush: that of an element that it hands a
broadcast in order, or of the index that is read after a constructor. -/
def Machine.flushes (X : Machine) (me : Nat) (g : CollectiveIndex) (pe : Pe)
    (col : Collective) (msg : Message) : Option ChareIndex :=
  if msg.chare = chareBcastRoot then
    match col.chares (encode 0) with
    | none => none
    | some obj => if obj.lastBcast.toNat + 1 < 2 ^ 16 then some (encode 0) else none
  else if msg.entry.isConstructor && X.peFor col.mapper msg.chare == me then
    some (X.indexAfterOf me g msg.chare msg (pe.record (.tried msg)))
  else
    match col.chares msg.chare with
    | none => none
    | some ch =>
      if msg.isBroadcast && msg.bcast.toNat == ch.lastBcast.toNat + 1 then some msg.chare
      else none

/-- It will flush a queue that holds a broadcast, of an element that is there or
that it makes. -/
def Machine.Jams (X : Machine) (me : Nat) (g : CollectiveIndex) (pe : Pe)
    (msg : Message) : Prop :=
  ∃ col idx, pe.collectiveTable g = some col ∧ X.flushes me g pe col msg = some idx ∧
    ((col.chares idx).isSome ∨ idx = msg.chare) ∧ ∃ m ∈ col.buffers idx,
    m.isBroadcast = true

/-- `deliver_now` returns, having tried no message that was used up. -/
def Machine.DeliversWell (X : Machine) (me : Nat) (g : CollectiveIndex) (pe : Pe)
    (msg : Message) : Prop :=
  ∃ pe', (∃ N, ∀ fuel, N ≤ fuel → X.deliverNow me fuel g msg pe = .ok pe') ∧
    NoRetry pe'.log

/-! ## What a group holds -/

/-- The collective `col` of a PE with the log `log`: a message it holds is held
once, at its index and its home, and was not used up; it is no constructor. -/
structure QueueInv (X : Machine) (me : Nat) (col : Collective) (log : List Event) :
    Prop where
  mapper : col.mapper = .group
  home : ∀ idx, (col.chares idx).isSome → X.peFor .group idx = me
  here : ∀ idx, ∀ m ∈ col.buffers idx, m.chare = idx ∧ X.peFor .group idx = me ∧
    m.entry.isConstructor = false
  nodup : ∀ idx, ((col.buffers idx).map (·.id)).Nodup
  apart : ∀ idx idx', ∀ m ∈ col.buffers idx, ∀ m' ∈ col.buffers idx', m.id = m'.id →
    idx = idx'
  idle : ∀ idx, ∀ m ∈ col.buffers idx, ∀ e ∈ log, e.invokes ≠ some m.id
  noRetry : NoRetry log

/-- The group of the PE. -/
def GroupInv (X : Machine) (me : Nat) (g : CollectiveIndex) (pe : Pe) : Prop :=
  ∃ col, pe.collectiveTable g = some col ∧ QueueInv X me col pe.log

section QueueInv

variable {X : Machine} {me : Nat} {col : Collective} {log : List Event} {msg : Message}

theorem new_inv : QueueInv X me (.new .group) [] where
  mapper := rfl
  home := fun _ h => by cases h
  here := fun _ _ h => by cases h
  nodup := fun _ => List.nodup_nil
  apart := fun _ _ _ h => by cases h
  idle := fun _ _ h => by cases h
  noRetry := List.Pairwise.nil

/-- Nothing is tried or invoked. -/
theorem QueueInv.quiet (h : QueueInv X me col log) {l : List Event}
    (hl : ∀ e ∈ l, e.invokes = none ∧ e.tries = none) : QueueInv X me col (log ++ l) where
  mapper := h.mapper
  home := h.home
  here := h.here
  nodup := h.nodup
  apart := h.apart
  idle := by
    intro idx m hm e he
    rcases List.mem_append.mp he with he | he
    · exact h.idle idx m hm e he
    · rw [(hl e he).1]
      simp
  noRetry := by
    refine List.pairwise_append.mpr ⟨h.noRetry, ?_, fun e _ e' he' id _ => ?_⟩
    · refine List.pairwise_of_forall_mem_list fun e _ e' he' id _ => ?_
      rw [(hl e' he').2]
      simp
    · rw [(hl e' he').2]
      simp

theorem QueueInv.tried (h : QueueInv X me col log)
    (hidle : ∀ e ∈ log, e.invokes ≠ some msg.id) :
    QueueInv X me col (log ++ [.tried msg]) where
  mapper := h.mapper
  home := h.home
  here := h.here
  nodup := h.nodup
  apart := h.apart
  idle := by
    intro idx m hm e he
    rcases List.mem_append.mp he with he | he
    · exact h.idle idx m hm e he
    · rw [List.mem_singleton.mp he]
      exact Option.some_ne_none _ ∘ Eq.symm
  noRetry := by
    refine List.pairwise_append.mpr ⟨h.noRetry, List.pairwise_singleton _ _, ?_⟩
    intro e he e' he' id hid htries
    rw [List.mem_singleton.mp he'] at htries
    exact hidle e he (hid.trans htries.symm)

theorem QueueInv.invoked (h : QueueInv X me col log) (cid : CollectiveIndex)
    (idx : ChareIndex) (hapart : ∀ i, ∀ m ∈ col.buffers i, m.id ≠ msg.id) :
    QueueInv X me col (log ++ [.invoked cid idx msg]) where
  mapper := h.mapper
  home := h.home
  here := h.here
  nodup := h.nodup
  apart := h.apart
  idle := by
    intro i m hm e he
    rcases List.mem_append.mp he with he | he
    · exact h.idle i m hm e he
    · rw [List.mem_singleton.mp he]
      exact fun heq => hapart i m hm (Option.some.inj heq).symm
  noRetry := by
    refine List.pairwise_append.mpr ⟨h.noRetry, List.pairwise_singleton _ _, ?_⟩
    intro e _ e' he' id _
    rw [List.mem_singleton.mp he']
    exact Option.some_ne_none _ ∘ Eq.symm

theorem QueueInv.emplace (h : QueueInv X me col log) {idx : ChareIndex}
    (hhome : X.peFor .group idx = me) : QueueInv X me (col.emplace idx) log := by
  have hbuf : (col.emplace idx).buffers = col.buffers := emplace_buffers
  refine ⟨?_, ?_, by rw [hbuf]; exact h.here, by rw [hbuf]; exact h.nodup,
    by rw [hbuf]; exact h.apart, by rw [hbuf]; exact h.idle, h.noRetry⟩
  · unfold Collective.emplace
    split <;> exact h.mapper
  · intro i hi
    by_cases hidx : i = idx
    · rw [hidx]
      exact hhome
    · refine h.home i ?_
      unfold Collective.emplace at hi
      split at hi
      · exact hi
      · simpa [Function.update_of_ne hidx] using hi

theorem QueueInv.advance (h : QueueInv X me col log) (idx : ChareIndex) :
    QueueInv X me (col.advance idx) log := by
  refine ⟨h.mapper, fun i hi => h.home i ?_, h.here, h.nodup, h.apart, h.idle, h.noRetry⟩
  unfold Collective.advance at hi
  by_cases hidx : i = idx
  · subst hidx
    simpa using hi
  · simpa [Function.update_of_ne hidx] using hi

/-- The front is popped: it is held no longer. -/
theorem QueueInv.popFront (h : QueueInv X me col log) {idx : ChareIndex}
    {rest : List Message}
    (hfront : col.buffers idx = msg :: rest) :
    QueueInv X me (col.popFront idx) log ∧
      ∀ i, ∀ m ∈ (col.popFront idx).buffers i, m.id ≠ msg.id := by
  have hmem : msg ∈ col.buffers idx := by rw [hfront]; exact List.mem_cons_self
  refine ⟨⟨h.mapper, h.home, fun i m hm => h.here i m (mem_popFront hm), ?_,
    fun i i' m hm m' hm' => h.apart i i' m (mem_popFront hm) m' (mem_popFront hm'),
    fun i m hm => h.idle i m (mem_popFront hm), h.noRetry⟩, ?_⟩
  · intro i
    by_cases hi : i = idx
    · subst hi
      rw [popFront_buffers_self, List.map_tail]
      exact (h.nodup i).tail
    · rw [popFront_buffers_ne hi]
      exact h.nodup i
  · intro i m hm hid
    obtain rfl : i = idx := h.apart i idx m (mem_popFront hm) msg hmem hid
    rw [popFront_buffers_self, hfront, List.tail_cons] at hm
    have hnodup := h.nodup i
    rw [hfront, List.map_cons, List.nodup_cons] at hnodup
    exact hnodup.1 (hid ▸ List.mem_map_of_mem hm)

theorem QueueInv.buffer (h : QueueInv X me col log) (hfresh : col.Fresh log msg)
    (hhome : X.peFor .group msg.chare = me) (hplain : msg.entry.isConstructor = false) :
    QueueInv X me (col.buffer msg) log := by
  -- the buffered message is the only new one
  have hmem : ∀ {i : ChareIndex} {m : Message}, m ∈ (col.buffer msg).buffers i →
      m ∈ col.buffers i ∨ (m = msg ∧ i = msg.chare) := by
    intro i m hm
    by_cases hi : i = msg.chare
    · rcases mem_buffer hm with hold | hnew
      · exact Or.inl hold
      · exact Or.inr ⟨hnew, hi⟩
    · rw [buffer_buffers_ne hi] at hm
      exact Or.inl hm
  refine ⟨h.mapper, h.home, ?_, ?_, ?_, ?_, h.noRetry⟩
  · intro i m hm
    rcases hmem hm with hold | ⟨rfl, rfl⟩
    · exact h.here i m hold
    · exact ⟨rfl, hhome, hplain⟩
  · intro i
    by_cases hi : i = msg.chare
    · subst hi
      rw [buffer_buffers_self, List.map_append, List.nodup_append]
      refine ⟨h.nodup _, List.nodup_singleton _, ?_⟩
      intro id hid id' hid'
      obtain ⟨m, hm, rfl⟩ := List.mem_map.mp hid
      rw [List.map_singleton, List.mem_singleton] at hid'
      rw [hid']
      exact hfresh.apart _ m hm
    · rw [buffer_buffers_ne hi]
      exact h.nodup i
  · intro i i' m hm m' hm' hid
    rcases hmem hm with hold | ⟨rfl, rfl⟩
    · rcases hmem hm' with hold' | ⟨rfl, rfl⟩
      · exact h.apart i i' m hold m' hold' hid
      · exact absurd hid (hfresh.apart i m hold)
    · rcases hmem hm' with hold' | ⟨rfl, rfl⟩
      · exact absurd hid.symm (hfresh.apart i' m' hold')
      · rfl
  · intro i m hm e he
    rcases hmem hm with hold | ⟨rfl, rfl⟩
    · exact h.idle i m hold e he
    · exact hfresh.idle e he

end QueueInv

/-! ## With a broadcast in the queue -/

section Returns

variable {X : Machine} {me : Nat} {g : CollectiveIndex} {pe pe' : Pe} {col : Collective}
  {msg : Message} {idx : ChareIndex}

/-- The queue of an element that was there or has just been made. -/
theorem QueueInv.jammed {log : List Event} {col' : Collective} (h : QueueInv X me col log)
    (hcol' : pe.collectiveTable g = some col') (hbuf : col'.buffers idx = col.buffers idx)
    (hpresent : (col'.chares idx).isSome)
    (hcopy : ∃ m ∈ col.buffers idx, m.isBroadcast = true) : Jammed g idx pe := by
  obtain ⟨m, hm, hb⟩ := hcopy
  refine ⟨by rw [chareAt_of_table hcol']; exact hpresent, ?_, m, ?_, ?_⟩
  · intro m' hm'
    rw [queue_of_table hcol', hbuf] at hm'
    exact (h.here idx m' hm').1
  · rw [queue_of_table hcol', hbuf]
    exact hm
  · rw [Message.isCopy, hb, (h.here idx m hm).2.2]
    rfl

theorem flushes_rootAbsent (hbcast : msg.chare = chareBcastRoot)
    (hnone : col.chares (encode 0) = none) : X.flushes me g pe col msg = none := by
  simp [Machine.flushes, hbcast, hnone]

theorem flushes_root {obj : Chare} (hbcast : msg.chare = chareBcastRoot)
    (hsome : col.chares (encode 0) = some obj) : X.flushes me g pe col msg
      = if obj.lastBcast.toNat + 1 < 2 ^ 16 then some (encode 0) else none := by
  simp [Machine.flushes, hbcast, hsome]

theorem flushes_construct (hne : msg.chare ≠ chareBcastRoot)
    (hctor : msg.entry.isConstructor = true) (hhome : X.peFor col.mapper msg.chare = me) :
    X.flushes me g pe col msg
      = some (X.indexAfterOf me g msg.chare msg (pe.record (.tried msg))) := by
  simp [Machine.flushes, hne, hctor, hhome]

theorem flushes_absent (hne : msg.chare ≠ chareBcastRoot)
    (hctor : ¬ (msg.entry.isConstructor = true ∧ X.peFor col.mapper msg.chare = me))
    (hnone : col.chares msg.chare = none) : X.flushes me g pe col msg = none := by
  simp [Machine.flushes, hne, hctor, hnone]

theorem flushes_present {ch : Chare} (hne : msg.chare ≠ chareBcastRoot)
    (hctor : ¬ (msg.entry.isConstructor = true ∧ X.peFor col.mapper msg.chare = me))
    (hsome : col.chares msg.chare = some ch) : X.flushes me g pe col msg
      = if msg.isBroadcast = true ∧ msg.bcast.toNat = ch.lastBcast.toNat + 1 then
        some msg.chare
        else none := by
  simp [Machine.flushes, hne, hctor, hsome]

theorem attempt_not_jams (hX : X.Within Call.Queued) (h : QueueInv X me col pe.log)
    (hcol : pe.collectiveTable g = some col)
    (hne : msg.chare ≠ chareBcastRoot) {done : Bool}
    (hrun : X.Runs me (.attempt g msg) pe done pe') : ¬ X.Jams me g pe msg := by
  rintro ⟨col', i, hcol', hflush, hthere, hcopy⟩
  obtain rfl := Option.some.inj (hcol.symm.trans hcol')
  cases hrun with
  | construct hcol' hctor hhome hcalls hrest =>
    obtain rfl := Option.some.inj (hcol.symm.trans hcol')
    -- the queue that is flushed after the constructor has the broadcast in it
    rw [flushes_construct hne hctor hhome] at hflush
    obtain rfl := Option.some.inj hflush
    refine Machine.flush_jammed (h.jammed (?_ : _ = some (col.emplace msg.chare))
      (by rw [emplace_buffers]) ?_ hcopy) hrest
    · rw [table_returned hX hcalls]
      exact table_modify hcol _
    · rcases hthere with hsome | hself
      · exact emplace_isSome col hsome
      · rw [hself]
        exact emplace_self_isSome col _
  | absent hcol' hctor hnone _ =>
    obtain rfl := Option.some.inj (hcol.symm.trans hcol')
    rw [flushes_absent hne (by simp [hctor]) hnone] at hflush
    cases hflush
  | forward hcol' hhome hnone =>
    obtain rfl := Option.some.inj (hcol.symm.trans hcol')
    rw [flushes_absent hne (fun hc => hhome hc.2) hnone] at hflush
    cases hflush
  | present hcol' hctor hsome hhandle =>
    obtain rfl := Option.some.inj (hcol.symm.trans hcol')
    rw [flushes_present hne hctor hsome] at hflush
    cases hhandle with
    | inOrder hcol' hch hb horder _ hcalls hrest =>
      obtain rfl := Option.some.inj (hcol.symm.trans hcol')
      obtain rfl := Option.some.inj (hsome.symm.trans hch)
      -- a broadcast in order flushes too
      rw [if_pos ⟨hb, horder⟩] at hflush
      obtain rfl := Option.some.inj hflush
      refine Machine.flush_jammed (h.jammed ?_
        (show (col.advance msg.chare).buffers _ = _ from rfl)
        (advance_isSome col (by rw [hsome]; rfl)) hcopy) hrest
      rw [table_returned hX hcalls]
      exact @table_modify (pe.record _) _ _ hcol _
    | outOfOrder hcol' hch _ horder =>
      obtain rfl := Option.some.inj (hcol.symm.trans hcol')
      obtain rfl := Option.some.inj (hsome.symm.trans hch)
      rw [if_neg fun hc => horder hc.2] at hflush
      cases hflush
    | plain _ _ hb _ =>
      rw [if_neg fun hc => by rw [hb] at hc; cases hc.1] at hflush
      cases hflush

/-- What returns flushed no queue with a broadcast. -/
theorem now_not_jams (hX : X.Within Call.Queued) (h : QueueInv X me col pe.log)
    (hcol : pe.collectiveTable g = some col) (hrun : X.Runs me (.now g msg) pe true pe') :
    ¬ X.Jams me g pe msg := by
  cases hrun with
  | nowRootAbsent hcol' hbcast hroot hnone =>
    obtain rfl := Option.some.inj (hcol.symm.trans hcol')
    obtain ⟨_, rfl⟩ := Machine.root_eq hroot
    rintro ⟨col', i, hcol', hflush, _⟩
    obtain rfl := Option.some.inj (hcol.symm.trans hcol')
    rw [flushes_rootAbsent hbcast hnone] at hflush
    cases hflush
  | nowRootNext hcol' hbcast hroot hsome hlt _ hcalls hrest =>
    obtain rfl := Option.some.inj (hcol.symm.trans hcol')
    obtain ⟨_, rfl⟩ := Machine.root_eq hroot
    rintro ⟨col', i, hcol', hflush, _, hcopy⟩
    obtain rfl := Option.some.inj (hcol.symm.trans hcol')
    rw [flushes_root hbcast hsome, if_pos hlt] at hflush
    obtain rfl := Option.some.inj hflush
    refine Machine.flush_jammed (h.jammed ?_
      (show (col.advance (encode 0)).buffers _ = _ from rfl)
      (advance_isSome col (by rw [hsome]; rfl)) hcopy) hrest
    rw [table_returned hX hcalls]
    exact @table_modify (pe.record _) _ _ hcol _
  | nowRootWrapped hcol' hbcast hroot hsome hlt _ =>
    obtain rfl := Option.some.inj (hcol.symm.trans hcol')
    obtain ⟨_, rfl⟩ := Machine.root_eq hroot
    rintro ⟨col', i, hcol', hflush, _⟩
    obtain rfl := Option.some.inj (hcol.symm.trans hcol')
    rw [flushes_root hbcast hsome, if_neg (by omega)] at hflush
    cases hflush
  | nowDone _ hne hattempt => exact attempt_not_jams hX h hcol hne hattempt
  | nowBuffer _ hne hattempt => exact attempt_not_jams hX h hcol hne hattempt

/-! ## Without -/

/-- The entry function returns, with the collectives as they were; `col₂` is what
the group will be when the message is popped. -/
theorem entry_inv (hX : X.Within Call.Queued) {col₂ : Collective}
    (h : QueueInv X me col₂ (pe.record (.invoked g idx msg)).log) :
    ∃ pe₁, X.Runs me (.calls (X.bodyOf me g idx msg pe))
      (pe.record (.invoked g idx msg)) true pe₁ ∧
      (pe₁.record (.returned g idx msg)).collectiveTable = pe.collectiveTable ∧
      QueueInv X me col₂ (pe₁.record (.returned g idx msg)).log := by
  obtain ⟨pe₁, hrun, hquiet⟩ := @entry_returns X me hX g idx msg pe
  obtain ⟨l, hl, hnone⟩ := hquiet.log
  refine ⟨pe₁, hrun, table_returned hX hrun, ?_⟩
  rw [record_log, hl, List.append_assoc]
  refine h.quiet fun e he => ?_
  rcases List.mem_append.mp he with he | he
  · exact hnone e he
  · rw [List.mem_singleton.mp he]
    exact ⟨rfl, rfl⟩

/-- The queue of an element that is not there is left at once. -/
theorem flush_stops (hcol : pe.collectiveTable g = some col)
    (h : QueueInv X me col pe.log) (hnone : col.chares idx = none) :
    ∃ pe', X.Runs me (.flush g idx) pe true pe' ∧ GroupInv X me g pe' := by
  cases hbuf : col.buffers idx with
  | nil => exact ⟨pe, .flushEmpty hcol hbuf, col, hcol, h⟩
  | cons msg rest =>
    have hmem : msg ∈ col.buffers idx := by rw [hbuf]; exact List.mem_cons_self
    obtain ⟨hidx, hhome, hctor⟩ := h.here idx msg hmem
    have hattempt : X.Runs me (.attempt g msg) pe false (pe.record (.tried msg)) :=
      .absent hcol hctor (by rw [hidx]; exact hnone) (by rw [h.mapper, hidx]; exact hhome)
    exact ⟨_, .flushStop hcol hbuf hattempt, col, hcol, h.tried (h.idle idx msg hmem)⟩

/-- A queue without broadcasts is flushed: each message is tried, used up and popped. -/
theorem flush_present (hX : X.Within Call.Queued) (hcol : pe.collectiveTable g = some col)
    (h : QueueInv X me col pe.log) (hpresent : (col.chares idx).isSome)
    (hplain : ∀ m ∈ col.buffers idx, m.isBroadcast = false) :
    ∃ pe', X.Runs me (.flush g idx) pe true pe' ∧ GroupInv X me g pe' := by
  induction hbuf : col.buffers idx generalizing pe col with
  | nil => exact ⟨pe, .flushEmpty hcol hbuf, col, hcol, h⟩
  | cons msg rest ih =>
    have hmem : msg ∈ col.buffers idx := by rw [hbuf]; exact List.mem_cons_self
    obtain ⟨hidx, -, hctor⟩ := h.here idx msg hmem
    obtain ⟨ch, hch⟩ := Option.isSome_iff_exists.mp hpresent
    obtain ⟨hpop, hgone⟩ := h.popFront hbuf
    have htried := hpop.tried (h.idle idx msg hmem)
    obtain ⟨pe₁, hcalls, htable, hlog⟩ :=
      @entry_inv X me g (pe.record (.tried msg)) msg msg.chare hX _
      (htried.invoked g _ hgone)
    have hattempt : X.Runs me (.attempt g msg) pe true
        (pe₁.record (.returned g msg.chare msg)) := by
      refine .present hcol (by simp [hctor]) (by rw [hidx]; exact hch) ?_
      exact .plain hcol (by rw [hidx]; exact hch) (hplain msg hmem) hcalls
    have hnext : ((pe₁.record (.returned g msg.chare msg)).modify g
        (·.popFront idx)).collectiveTable g = some (col.popFront idx) :=
      table_modify (by rw [htable]; exact hcol) _
    have hbuf' : (col.popFront idx).buffers idx = rest := by
      rw [popFront_buffers_self, hbuf, List.tail_cons]
    obtain ⟨pe', hflush, hinv⟩ := ih hnext hlog hpresent
      (fun m hm => hplain m (mem_popFront hm)) hbuf'
    exact ⟨pe', .flushFront hcol hbuf hattempt hflush, hinv⟩

/-- A queue is flushed that holds no broadcast for an element that is there. -/
theorem flush_returns (hX : X.Within Call.Queued) (hcol : pe.collectiveTable g = some col)
    (h : QueueInv X me col pe.log)
    (hplain : (col.chares idx).isSome → ∀ m ∈ col.buffers idx, m.isBroadcast = false) :
    ∃ pe', X.Runs me (.flush g idx) pe true pe' ∧ GroupInv X me g pe' := by
  by_cases hpresent : (col.chares idx).isSome
  · exact flush_present hX hcol h hpresent (hplain hpresent)
  · exact flush_stops hcol h (Option.not_isSome_iff_eq_none.mp hpresent)

theorem fresh_tried {log : List Event} (h : col.Fresh log msg) :
    col.Fresh (log ++ [.tried msg]) msg := by
  refine ⟨h.apart, fun e he => ?_⟩
  rcases List.mem_append.mp he with he | he
  · exact h.idle e he
  · rw [List.mem_singleton.mp he]
    exact Option.some_ne_none _ ∘ Eq.symm

theorem upstream_ok (idx : ChareIndex) : ∃ children, X.upstream me .group idx =
    .ok children := by
  by_cases hsome : 0 < (X.tree.children (X.peFor .group idx)).length
  · exact ⟨_, if_pos hsome⟩
  · exact ⟨_, if_neg hsome⟩

/-- The entry function is called, and then the queue of `after` flushed: `pe` is
where an element has been made, or `last_bcast_` has advanced and the copies were
sent. -/
theorem takes_returns {after : ChareIndex} (hX : X.Within Call.Queued)
    (hcol : pe.collectiveTable g = some col) (h : QueueInv X me col pe.log)
    (hapart : ∀ i, ∀ m ∈ col.buffers i, m.id ≠ msg.id)
    (hplain : (col.chares after).isSome → ∀ m ∈ col.buffers after,
      m.isBroadcast = false) :
    ∃ pe₁ pe', X.Runs me (.calls (X.bodyOf me g idx msg pe))
      (pe.record (.invoked g idx msg))
        true pe₁ ∧
      X.Runs me (.flush g after) (pe₁.record (.returned g idx msg)) true pe' ∧
      GroupInv X me g pe' := by
  obtain ⟨pe₁, hcalls, htable, hlog⟩ := entry_inv hX (h.invoked g idx hapart)
  obtain ⟨pe', hflush, hinv⟩ :=
    flush_returns hX ((congrFun htable g).trans hcol) hlog hplain
  exact ⟨pe₁, pe', hcalls, hflush, hinv⟩

/-- An element that is there after `emplace` was there before or has just been made. -/
theorem isSome_of_emplace {i : ChareIndex} (h : ((col.emplace idx).chares i).isSome) :
    (col.chares i).isSome ∨ i = idx := by
  unfold Collective.emplace at h
  split at h
  · exact Or.inl h
  · by_cases hi : i = idx
    · exact Or.inr hi
    · simp only [Function.update_of_ne hi] at h
      exact Or.inl h

/-- A fresh message that is handed to `try_deliver`. -/
theorem attempt_returns (hX : X.Within Call.Queued) (h : QueueInv X me col pe.log)
    (hcol : pe.collectiveTable g = some col) (hne : msg.chare ≠ chareBcastRoot)
    (hfresh : col.Fresh pe.log msg) (hjam : ¬ X.Jams me g pe msg) :
    ∃ pe', X.Runs me (.now g msg) pe true pe' ∧ GroupInv X me g pe' := by
  have hplain : ∀ {i : ChareIndex}, X.flushes me g pe col msg = some i →
      (col.chares i).isSome ∨ i = msg.chare → ∀ m ∈ col.buffers i,
      m.isBroadcast = false :=
    fun hflush hthere m hm =>
      Bool.eq_false_iff.mpr fun hb => hjam ⟨col, _, hcol, hflush, hthere, m, hm, hb⟩
  have htried := h.tried hfresh.idle
  by_cases hctor : msg.entry.isConstructor = true ∧ X.peFor col.mapper msg.chare = me
  · -- the element is made, and the queue flushed whose index is read then
    have hhome : X.peFor .group msg.chare = me := h.mapper ▸ hctor.2
    have hmade := htried.emplace hhome
    have hapart : ∀ i, ∀ m ∈ (col.emplace msg.chare).buffers i, m.id ≠ msg.id := by
      rw [emplace_buffers]
      exact hfresh.apart
    have hnone : ((col.emplace msg.chare).chares
          (X.indexAfterOf me g msg.chare msg (pe.record (.tried msg)))).isSome →
        ∀ m ∈ (col.emplace msg.chare).buffers
          (X.indexAfterOf me g msg.chare msg (pe.record (.tried msg))),
        m.isBroadcast = false := by
      rw [emplace_buffers]
      exact fun hthere =>
        hplain (flushes_construct hne hctor.1 hctor.2) (isSome_of_emplace hthere)
    obtain ⟨pe₁, pe₂, hcalls, hflush, col₂, hcol₂, hinv₂⟩ := takes_returns hX
      (@table_modify (pe.record (.tried msg)) g col hcol (·.emplace msg.chare)) hmade
      hapart hnone
    exact ⟨_, .nowDone hcol hne (.construct hcol hctor.1 hctor.2 hcalls hflush), col₂,
      hcol₂, hinv₂.quiet (by simp [Event.invokes, Event.tries])⟩
  · cases hch : col.chares msg.chare with
    | none =>
      by_cases hhome : X.peFor col.mapper msg.chare = me
      · -- the element is not there yet
        have hplainEntry : msg.entry.isConstructor = false :=
          Bool.eq_false_iff.mpr fun hc => hctor ⟨hc, hhome⟩
        refine ⟨_, .nowBuffer hcol hne (.absent hcol hplainEntry hch hhome),
          col.buffer msg, @table_modify (pe.record (.tried msg)) g col hcol _, ?_⟩
        exact htried.buffer (fresh_tried hfresh) (h.mapper ▸ hhome) hplainEntry
      · exact ⟨_, .nowDone hcol hne (.forward hcol hhome hch), col, hcol, htried⟩
    | some ch =>
      have hpresent : (col.chares msg.chare).isSome := by rw [hch]; rfl
      have hhome : X.peFor .group msg.chare = me := h.home _ hpresent
      by_cases hb : msg.isBroadcast = true
      · by_cases horder : msg.bcast.toNat = ch.lastBcast.toNat + 1
        · -- a broadcast in order, and the queue flushed
          obtain ⟨children, hup⟩ := @upstream_ok X me msg.chare
          obtain ⟨pe₁, pe₂, hcalls, hflush, hinv⟩ := @takes_returns X me g
            (X.sendCopies col msg children
              ((pe.record (.tried msg)).modify g (·.advance msg.chare))) _ msg
                msg.chare _ hX
            (@table_modify (pe.record (.tried msg)) g col hcol (·.advance msg.chare))
            (htried.advance msg.chare) hfresh.apart fun _ =>
              hplain (by rw [flushes_present hne hctor hch, if_pos ⟨hb, horder⟩])
                (Or.inr rfl)
          exact ⟨pe₂, .nowDone hcol hne (.present hcol hctor hch
            (.inOrder hcol hch hb horder (h.mapper ▸ hup) hcalls hflush)), hinv⟩
        · -- a broadcast out of order
          refine ⟨_, .nowDone hcol hne
            (.present hcol hctor hch (.outOfOrder hcol hch hb horder)),
            col.buffer msg, @table_modify (pe.record (.tried msg)) g col hcol _, ?_⟩
          refine htried.buffer (fresh_tried hfresh) hhome ?_
          exact Bool.eq_false_iff.mpr fun hc => hctor ⟨hc, h.mapper ▸ hhome⟩
      · obtain ⟨pe₁, hcalls, htable, hlog⟩ :=
          @entry_inv X me g (pe.record (.tried msg)) msg msg.chare hX _
            (htried.invoked g msg.chare hfresh.apart)
        exact ⟨_, .nowDone hcol hne (.present hcol hctor hch
          (.plain hcol hch (Bool.eq_false_iff.mpr hb) hcalls)), col,
          (congrFun htable g).trans hcol, hlog⟩

/-- A fresh message that jams nothing is delivered. -/
theorem now_returns (hX : X.Within Call.Queued) (h : QueueInv X me col pe.log)
    (hcol : pe.collectiveTable g = some col) (hfresh : col.Fresh pe.log msg)
    (hjam : ¬ X.Jams me g pe msg) :
    ∃ pe', X.Runs me (.now g msg) pe true pe' ∧ GroupInv X me g pe' := by
  by_cases hne : msg.chare ≠ chareBcastRoot
  · exact attempt_returns hX h hcol hne hfresh hjam
  · have hbcast := not_not.mp hne
    have hroot : Machine.root col.mapper = .ok (encode 0) := by rw [h.mapper]; rfl
    cases hobj : col.chares (encode 0) with
    | none => exact ⟨_, .nowRootAbsent hcol hbcast hroot hobj, col, hcol, h⟩
    | some obj =>
      have hnumbered := h.quiet (l := [.rooted g (msg.numbered (encode 0) obj.lastBcast)])
        (by simp [Event.invokes, Event.tries])
      by_cases hlt : obj.lastBcast.toNat + 1 < 2 ^ 16
      · -- the root takes it, and its queue is flushed
        obtain ⟨children, hup⟩ := @upstream_ok X me (encode 0)
        have hplain : ∀ m ∈ col.buffers (encode 0), m.isBroadcast = false := fun m hm =>
          Bool.eq_false_iff.mpr fun hb => hjam ⟨col, _, hcol,
            by rw [flushes_root hbcast hobj, if_pos hlt],
              Or.inl (by rw [hobj]; rfl), m, hm, hb⟩
        obtain ⟨pe₁, pe₂, hcalls, hflush, hinv⟩ := @takes_returns X me g
          (X.rootSends col (encode 0) obj msg children g pe) _
          (msg.numbered (encode 0) obj.lastBcast) (encode 0) _ hX
          (@table_modify (pe.record _) g col hcol (·.advance (encode 0)))
          (hnumbered.advance (encode 0)) hfresh.apart fun _ => hplain
        exact ⟨pe₂, .nowRootNext hcol hbcast hroot hobj hlt
          (h.mapper ▸ hup) hcalls hflush, hinv⟩
      · have hlast := obj.lastBcast.isLt
        obtain ⟨pe₁, hcalls, htable, hlog⟩ := @entry_inv X me g (pe.record _)
          (msg.numbered (encode 0) obj.lastBcast) (encode 0) hX _
          (hnumbered.invoked g (encode 0) hfresh.apart)
        exact ⟨_, .nowRootWrapped hcol hbcast hroot hobj (by omega) hcalls, col,
          (congrFun htable g).trans hcol, hlog⟩

end Returns

/-! ## The result -/

variable {X : Machine} {me : Nat} {g : CollectiveIndex} {pe pe' : Pe} {msg : Message}

theorem now_sound {fuel : Nat} (h : X.deliverNow me fuel g msg pe = .ok pe') :
    X.Runs me (.now g msg) pe true pe' :=
  Machine.run_sound fuel (Machine.answer_eq_ok.mpr ⟨rfl, h⟩)

theorem now_complete (h : X.Runs me (.now g msg) pe true pe') :
    ∃ N, ∀ fuel, N ≤ fuel → X.deliverNow me fuel g msg pe = .ok pe' := by
  obtain ⟨N, hN⟩ := Machine.run_complete h
  exact ⟨N, fun fuel hfuel => (Machine.answer_eq_ok.mp (hN fuel hfuel)).2⟩

/-- A delivery that returns keeps the invariant. -/
theorem GroupInv.deliver (hX : X.Within Call.Queued) (h : GroupInv X me g pe)
    (hfresh : pe.Fresh g msg) (hrun : X.Runs me (.now g msg) pe true pe') :
    GroupInv X me g pe' := by
  obtain ⟨col, hcol, hinv⟩ := h
  obtain ⟨col', hcol', hfresh⟩ := hfresh
  obtain rfl := Option.some.inj (hcol.symm.trans hcol')
  obtain ⟨pe₁, hrun₁, hinv₁⟩ :=
    now_returns hX hinv hcol hfresh (now_not_jams hX hinv hcol hrun)
  obtain ⟨_, rfl⟩ := hrun.unique hrun₁
  exact hinv₁

theorem reachable_groupInv (hX : X.Within Call.Queued)
    (h : (X.groupOn me g).Reachable (fun pe a => pe.Fresh g a.2) pe) :
    GroupInv X me g pe := by
  refine h.invariant ?_ ?_
  · rintro pe ⟨htable, hlog⟩
    exact ⟨_, htable, hlog ▸ new_inv⟩
  · intro pe a pe' hinv hfresh hstep
    refine hinv.deliver hX hfresh (@now_sound X me g _ _ _ a.1 ?_)
    simp only [Machine.groupOn] at hstep
    cases hres : X.deliverNow me a.1 g a.2 pe with
    | ok pe₁ =>
      rw [hres] at hstep
      rw [Option.some.inj hstep]
    | error _ =>
      rw [hres] at hstep
      cases hstep

/-- **When `deliver_now` returns.** In every state of a group reached by
deliveries, and for every message delivered next: `deliver_now` returns and no
message is tried after an entry function was invoked with it, exactly if the
delivery flushes no queue that holds a broadcast. -/
theorem deliver_returns_iff (hX : X.Within Call.Queued)
    (hreach : (X.groupOn me g).Reachable (fun pe a => pe.Fresh g a.2) pe)
    (hfresh : pe.Fresh g msg) : X.DeliversWell me g pe msg ↔ ¬ X.Jams me g pe msg := by
  obtain ⟨col, hcol, hinv⟩ := reachable_groupInv hX hreach
  constructor
  · rintro ⟨pe', ⟨N, hN⟩, _⟩
    exact now_not_jams hX hinv hcol (now_sound (hN N (Nat.le_refl N)))
  · intro hjam
    obtain ⟨col', hcol', hfresh⟩ := hfresh
    obtain rfl := Option.some.inj (hcol.symm.trans hcol')
    obtain ⟨pe', hrun, _, _, hinv'⟩ := now_returns hX hinv hcol hfresh hjam
    exact ⟨pe', now_complete hrun, hinv'.noRetry⟩

/-! ## A copy before the constructor -/

/-- PE 1, with the group of `pairMachine` and not its element. -/
def pairStart : Pe :=
  pairMachine.create ⟨⟨0, 0⟩, true, pairGroup, chareBcastRoot, ⟨1, false⟩, 0⟩ .init

def pairConstructor : Message := ⟨⟨0, 1⟩, false, pairGroup, encode 1, ⟨1, true⟩, 0⟩

def pairCopy : Message := ⟨⟨0, 2⟩, false, pairGroup, encode 1, ⟨5, false⟩, 1⟩

theorem pair_queued : pairMachine.Within Call.Queued := fun _ _ _ _ hc => by cases hc

theorem pairStart_reachable : (pairMachine.groupOn 1 pairGroup).Reachable
    (fun pe a => pe.Fresh pairGroup a.2) pairStart := .init ⟨rfl, rfl⟩

theorem pairStart_fresh (msg : Message) : pairStart.Fresh pairGroup msg :=
  ⟨_, rfl, (fun _ _ h => by cases h), (fun _ h => by cases h)⟩

/-- PE 1 after a message for its element. -/
def pairWaiting (msg : Message) : Pe :=
  (pairStart.record (.tried msg)).modify pairGroup (·.buffer msg)

section Waiting

variable {msg : Message}

/-- The message comes first, and waits for the element. -/
theorem pairWaiting_reachable (hne : msg.chare ≠ chareBcastRoot)
    (hplain : msg.entry.isConstructor = false)
    (hhome : pairMachine.peFor .group msg.chare = 1) :
    (pairMachine.groupOn 1 pairGroup).Reachable (fun pe a => pe.Fresh pairGroup a.2)
      (pairWaiting msg) := by
  refine pairStart_reachable.step (a := (2, msg)) (pairStart_fresh msg) ?_
  have hcol : pairStart.collectiveTable pairGroup = some (.new .group) := rfl
  have habsent : pairMachine.tryDeliver 1 1 pairGroup msg pairStart
      = .ok (false, pairStart.record (.tried msg)) := by
    rw [Machine.tryDeliver, hcol]
    simp [hplain, hhome, Collective.new]
  simp only [Machine.groupOn, Machine.deliverNow, hcol, if_neg hne, habsent]
  rfl

theorem pairWaiting_table (msg : Message) : (pairWaiting msg).collectiveTable pairGroup
    = some ((Collective.new .group).buffer msg) := rfl

theorem pairWaiting_fresh (hid : msg.id ≠ pairConstructor.id) :
    (pairWaiting msg).Fresh pairGroup pairConstructor := by
  refine ⟨_, pairWaiting_table msg, ?_, ?_⟩
  · intro idx m hm
    rcases mem_buffer hm with hold | rfl
    · cases hold
    · exact hid
  · intro e he
    rw [List.mem_singleton.mp he]
    exact Option.some_ne_none _ ∘ Eq.symm

end Waiting

/-- The first broadcast gets to PE 1 before the constructor. The constructor is
not done: its flush tries the copy again and again. -/
theorem deliver_jammed : ∃ pe, (pairMachine.groupOn 1 pairGroup).Reachable
      (fun pe a => pe.Fresh pairGroup a.2) pe ∧ pe.Fresh pairGroup pairConstructor ∧
    ∀ fuel pe', pairMachine.deliverNow 1 fuel pairGroup pairConstructor pe ≠ .ok pe' := by
  have hreach :=
    pairWaiting_reachable (show pairCopy.chare ≠ chareBcastRoot by decide) rfl rfl
  refine ⟨_, hreach, pairWaiting_fresh (by decide), fun fuel pe' hok => ?_⟩
  obtain ⟨col, hcol, hinv⟩ := reachable_groupInv pair_queued hreach
  refine now_not_jams pair_queued hinv hcol (now_sound hok)
    ⟨_, encode 1, pairWaiting_table pairCopy, rfl, Or.inr rfl, pairCopy, ?_, rfl⟩
  rw [show encode 1 = pairCopy.chare from rfl, buffer_buffers_self]
  exact List.mem_singleton_self _

/-- A send for the element of PE 1. -/
def pairSend : Message := ⟨⟨0, 3⟩, false, pairGroup, encode 1, ⟨6, false⟩, 0⟩

/-- With the send in the queue, the constructor is done. -/
theorem deliver_returns_waiting :
    (∃ col, (pairWaiting pairSend).collectiveTable pairGroup = some col ∧
      col.buffers (encode 1) = [pairSend]) ∧
    pairMachine.DeliversWell 1 pairGroup (pairWaiting pairSend) pairConstructor := by
  have hqueue : ((Collective.new .group).buffer pairSend).buffers (encode 1) =
      [pairSend] := by
    rw [show encode 1 = pairSend.chare from rfl, buffer_buffers_self]
    rfl
  refine ⟨⟨_, pairWaiting_table pairSend, hqueue⟩, (deliver_returns_iff pair_queued
    (pairWaiting_reachable (by decide) rfl rfl) (pairWaiting_fresh (by decide))).mpr ?_⟩
  rintro ⟨col, idx, hcol, hflush, -, m, hm, hb⟩
  obtain rfl := Option.some.inj ((pairWaiting_table pairSend).symm.trans hcol)
  obtain rfl : encode 1 = idx := Option.some.inj hflush
  rw [hqueue, List.mem_singleton] at hm
  rw [hm] at hb
  cases hb

end CharmExperiments.Charmlite
