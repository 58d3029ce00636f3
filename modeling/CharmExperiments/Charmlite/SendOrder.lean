import CharmExperiments.Lib.InTurn
import CharmExperiments.Charmlite.Accounts

/-!
# The order of the sends to an element

One element on its home PE. The sends that were handled there are those it has
executed, those in its deque and those that wait for the collective, and these
three make a line in which every send that was handled while no entry function
was running is in its turn (`Turn`). A send that an entry function makes goes
ahead of what is in the deque while the deque is flushed.

Mirroring notes:
- `Stage` tells how far the constructor branch of `try_deliver` is with the
  element when a function is called from within: while a message of the deque is
  executed it is the front of the deque still.
-/

namespace CharmExperiments.Charmlite

open CharmExperiments.Lib

instance (cid : CollectiveIndex) (m : Message) : Decidable (m.To cid) :=
  inferInstanceAs (Decidable (_ ∧ _))

/-- A send to the element. -/
def Message.SendTo (cid : CollectiveIndex) (idx : ChareIndex) (m : Message) : Prop :=
  m.To cid ∧ m.chare = idx ∧ m.entry.isConstructor = false

instance (cid : CollectiveIndex) (idx : ChareIndex) (m : Message) :
    Decidable (m.SendTo cid idx) := inferInstanceAs (Decidable (_ ∧ _))

/-- The send to the element that an event handles. -/
def Event.handles (cid : CollectiveIndex) (idx : ChareIndex) : Event → Option Message
  | .handled m => if m.SendTo cid idx then some m else none
  | _ => none

/-- The send to the element that an event executes. -/
def Event.runs (cid : CollectiveIndex) (idx : ChareIndex) : Event → Option Message
  | .invoked c i m => if c = cid ∧ i = idx ∧ m.SendTo cid idx then some m else none
  | _ => none

/-- The sends to an element that the PE has handled, in order. -/
def Pe.handledFor (pe : Pe) (cid : CollectiveIndex) (idx : ChareIndex) : List Message :=
  pe.log.filterMap (Event.handles cid idx)

/-- The sends that the element has executed, in order. -/
def Pe.invokedFor (pe : Pe) (cid : CollectiveIndex) (idx : ChareIndex) : List Message :=
  pe.log.filterMap (Event.runs cid idx)

/-- The sends to an element that wait for its collective. -/
def Pe.waitingFor (pe : Pe) (cid : CollectiveIndex) (idx : ChareIndex) : List Message :=
  (pe.collectiveBuffer cid).filter fun m => m.SendTo cid idx

/-- The message was handled while no entry function was running. -/
def AtRest (log : List Event) (m : Message) : Prop :=
  ∃ before after, log = before ++ .handled m :: after ∧ Idle before

/-- The constructor of the element was entered. -/
def Entered (cid : CollectiveIndex) (idx : ChareIndex) (log : List Event) : Prop :=
  ∃ m : Message, m.entry.isConstructor = true ∧ .invoked cid idx m ∈ log

/-- It has returned. -/
def Left (cid : CollectiveIndex) (idx : ChareIndex) (log : List Event) : Prop :=
  ∃ m : Message, m.entry.isConstructor = true ∧ .returned cid idx m ∈ log

/-- How far the constructor branch of `try_deliver` is with the element. -/
inductive Stage
  /-- It is not in it. -/
  | outside
  /-- The constructor was entered, and the deque is not flushed yet. -/
  | entered
  /-- The front of the deque is being executed. -/
  | flushing
deriving DecidableEq

/-- What is in the deque and was not executed. -/
def Pe.backlog (pe : Pe) (cid : CollectiveIndex) (idx : ChareIndex) : Stage → List Message
  | .flushing => (pe.queue cid idx).tail
  | _ => pe.queue cid idx

/-- What the stage says of the element and its deque. -/
def Stage.Fits (pe : Pe) (cid : CollectiveIndex) (idx : ChareIndex) : Stage → Prop
  | .outside => (pe.chareAt cid idx).isSome → pe.queue cid idx = []
  | .entered => (pe.chareAt cid idx).isSome
  | .flushing => (pe.chareAt cid idx).isSome ∧ pe.queue cid idx ≠ []

/-- The line of the sends; the one in the hands of a function is to be executed
next if the element is there, and to be put into the deque if it is not. -/
def Pe.Line (pe : Pe) (cid : CollectiveIndex) (idx : ChareIndex) (stage : Stage) :
    Option Message → Prop
  | none => InTurn (AtRest pe.log) (pe.handledFor cid idx)
      (pe.invokedFor cid idx ++ (pe.backlog cid idx stage ++ pe.waitingFor cid idx))
  | some m => m.SendTo cid idx ∧
      (pe.chareAt cid idx = none → InTurn (AtRest pe.log) (pe.handledFor cid idx)
        (pe.invokedFor cid idx ++
          (pe.backlog cid idx stage ++ m :: pe.waitingFor cid idx))) ∧
      ((pe.chareAt cid idx).isSome → InTurn (AtRest pe.log) (pe.handledFor cid idx)
        (pe.invokedFor cid idx ++
          m :: (pe.backlog cid idx stage ++ pe.waitingFor cid idx))) ∧
      ((pe.chareAt cid idx).isSome → AtRest pe.log m → Left cid idx pe.log)

/-- The sends to an element on its home PE. -/
structure Turn (cid : CollectiveIndex) (idx : ChareIndex) (stage : Stage)
    (hand : Option Message) (pe : Pe) : Prop where
  line : pe.Line cid idx stage hand
  stage : stage.Fits pe cid idx
  built : (pe.chareAt cid idx).isSome → Entered cid idx pe.log
  after : ∀ before m rest, pe.log = before ++ .invoked cid idx m ::
    rest → m.SendTo cid idx →
    Entered cid idx before ∧ (AtRest pe.log m → Left cid idx before)

/-- Neither handles nor executes a send to the element. -/
def Event.Apart (cid : CollectiveIndex) (idx : ChareIndex) (e : Event) : Prop :=
  e.handles cid idx = none ∧ e.runs cid idx = none

section Turn

variable {cid c : CollectiveIndex} {idx i : ChareIndex} {stage : Stage}
  {hand : Option Message}
  {pe pe' : Pe} {msg m : Message} {e : Event} {log l : List Event} {rest : List Message}

/-! ## Events -/

theorem Entered.mono {log' : List Event} (h : Entered cid idx log) (hle : log ⊆ log') :
    Entered cid idx log' := by
  obtain ⟨m, hctor, hmem⟩ := h
  exact ⟨m, hctor, hle hmem⟩

theorem Left.mono {log' : List Event} (h : Left cid idx log) (hle : log ⊆ log') :
    Left cid idx log' := by
  obtain ⟨m, hctor, hmem⟩ := h
  exact ⟨m, hctor, hle hmem⟩

/-- A constructor that was entered has returned when no entry function is running. -/
theorem Entered.left (h : Entered cid idx log) (hidle : Idle log) : Left cid idx log := by
  obtain ⟨m, hctor, hmem⟩ := h
  exact ⟨m, hctor, hidle.returned hmem⟩

theorem handles_eq_some : e.handles cid idx = some m ↔ e = .handled m ∧
    m.SendTo cid idx := by
  cases e with
  | handled m' =>
    simp only [Event.handles, Option.ite_none_right_eq_some, Option.some.injEq,
      Event.handled.injEq]
    constructor
    · rintro ⟨hsend, rfl⟩
      exact ⟨rfl, hsend⟩
    · rintro ⟨rfl, hsend⟩
      exact ⟨hsend, rfl⟩
  | _ => simp [Event.handles]

theorem runs_eq_some :
    e.runs cid idx = some m ↔ e = .invoked cid idx m ∧ m.SendTo cid idx := by
  cases e with
  | invoked c' i' m' =>
    simp only [Event.runs, Option.ite_none_right_eq_some, Option.some.injEq,
      Event.invoked.injEq]
    constructor
    · rintro ⟨⟨rfl, rfl, hsend⟩, rfl⟩
      exact ⟨⟨rfl, rfl, rfl⟩, hsend⟩
    · rintro ⟨⟨rfl, rfl, rfl⟩, hsend⟩
      exact ⟨⟨rfl, rfl, hsend⟩, rfl⟩
  | _ => simp [Event.runs]

/-- An event apart from the element is none of those that matter. -/
theorem Event.Apart.ne (h : e.Apart cid idx) (hsend : m.SendTo cid idx) :
    e ≠ .handled m ∧ e ≠ .invoked cid idx m := by
  refine ⟨fun heq => ?_, fun heq => ?_⟩
  · have hnone := h.1
    rw [handles_eq_some.mpr ⟨heq, hsend⟩] at hnone
    cases hnone
  · have hnone := h.2
    rw [runs_eq_some.mpr ⟨heq, hsend⟩] at hnone
    cases hnone

/-- What is not in the later part of a list is in the earlier part. -/
theorem split_append {α : Type} {x : α} {l₁ l₂ a b : List α} (h : l₁ ++ l₂ = a ++ x :: b)
    (hx : x ∉ l₂) : ∃ b', l₁ = a ++ x :: b' := by
  rcases List.append_eq_append_iff.mp h with ⟨l, rfl, hl⟩ | ⟨l, rfl, hl⟩
  · exact absurd (hl ▸ List.mem_append_right _ List.mem_cons_self) hx
  · cases l with
    | nil =>
      rw [List.nil_append] at hl
      exact absurd (hl ▸ List.mem_cons_self) hx
    | cons y l =>
      obtain ⟨rfl, _⟩ := List.cons.inj hl
      exact ⟨l, rfl⟩

/-- What is handled later does not make a message one that was handled at rest. -/
theorem AtRest.of_append (h : AtRest (log ++ l) m) (hm : .handled m ∉ l) :
    AtRest log m := by
  obtain ⟨before, after, heq, hidle⟩ := h
  obtain ⟨after', hlog⟩ := split_append heq hm
  exact ⟨before, after', hlog, hidle⟩

theorem AtRest.append (h : AtRest log m) (l : List Event) : AtRest (log ++ l) m := by
  obtain ⟨before, after, rfl, hidle⟩ := h
  exact ⟨before, after ++ l, by simp, hidle⟩

theorem mem_handledFor : m ∈ pe.handledFor cid idx ↔ .handled m ∈ pe.log ∧
    m.SendTo cid idx := by
  simp only [Pe.handledFor, List.mem_filterMap, handles_eq_some]
  constructor
  · rintro ⟨e, he, rfl, hsend⟩
    exact ⟨he, hsend⟩
  · rintro ⟨he, hsend⟩
    exact ⟨_, he, rfl, hsend⟩

theorem apart_filterMap (hl : ∀ e ∈ l, e.Apart cid idx) :
    l.filterMap (Event.handles cid idx) = [] ∧ l.filterMap (Event.runs cid idx) = [] :=
  ⟨List.filterMap_eq_nil_iff.mpr fun e he => (hl e he).1,
    List.filterMap_eq_nil_iff.mpr fun e he => (hl e he).2⟩

/-! ## What does not touch the element -/

/-- The function does something else. -/
theorem Turn.quiet (h : Turn cid idx stage hand pe) (hlog : pe'.log = pe.log ++ l)
    (hl : ∀ e ∈ l, e.Apart cid idx) (hqueue : pe'.queue cid idx = pe.queue cid idx)
    (hchare : (pe'.chareAt cid idx).isSome = (pe.chareAt cid idx).isSome)
    (hwait : pe'.waitingFor cid idx = pe.waitingFor cid idx) :
    Turn cid idx stage hand pe' := by
  obtain ⟨hnothandled, hnotrun⟩ := apart_filterMap hl
  have hhandled : pe'.handledFor cid idx = pe.handledFor cid idx := by
    rw [Pe.handledFor, hlog, List.filterMap_append, hnothandled, List.append_nil,
      Pe.handledFor]
  have hinvoked : pe'.invokedFor cid idx = pe.invokedFor cid idx := by
    rw [Pe.invokedFor, hlog, List.filterMap_append, hnotrun, List.append_nil,
      Pe.invokedFor]
  have hbacklog : pe'.backlog cid idx stage = pe.backlog cid idx stage := by
    cases stage <;> simp only [Pe.backlog, hqueue]
  have hsub : pe.log ⊆ pe'.log := by
    rw [hlog]
    exact List.subset_append_left _ _
  have hrest : ∀ m, m.SendTo cid idx → AtRest pe'.log m → AtRest pe.log m := by
    intro m hsend hat
    rw [hlog] at hat
    exact hat.of_append fun hmem => ((hl _ hmem).ne hsend).1 rfl
  have hline : ∀ {line : List Message},
    InTurn (AtRest pe.log) (pe.handledFor cid idx) line →
      InTurn (AtRest pe'.log) (pe.handledFor cid idx) line :=
    fun h => h.imp fun m hm => hrest m (mem_handledFor.mp hm).2
  have hnone : pe'.chareAt cid idx = none → pe.chareAt cid idx = none := by
    rw [← Option.not_isSome_iff_eq_none, ← Option.not_isSome_iff_eq_none, hchare]
    exact id
  refine ⟨?_, ?_, ?_, ?_⟩
  · cases hand with
    | none =>
      unfold Pe.Line
      rw [hhandled, hinvoked, hbacklog, hwait]
      exact hline h.line
    | some m =>
      obtain ⟨hsend, habsent, hpresent, hleft⟩ := h.line
      refine ⟨hsend, fun hc => ?_, fun hc => ?_, fun hc hat => ?_⟩
      · rw [hhandled, hinvoked, hbacklog, hwait]
        exact hline (habsent (hnone hc))
      · rw [hhandled, hinvoked, hbacklog, hwait]
        exact hline (hpresent (hchare ▸ hc))
      · exact (hleft (hchare ▸ hc) (hrest m hsend hat)).mono hsub
  · have hstage := h.stage
    cases stage <;> simpa only [Stage.Fits, hqueue, hchare] using hstage
  · intro hc
    exact (h.built (hchare ▸ hc)).mono hsub
  · intro before m rest hsplit hsend
    rw [hlog] at hsplit
    obtain ⟨rest', hold⟩ := split_append hsplit fun hmem => ((hl _ hmem).ne hsend).2 rfl
    obtain ⟨hentered, hleft⟩ := h.after before m rest' hold hsend
    exact ⟨hentered, fun hat => hleft (hrest m hsend hat)⟩

/-- Nothing is recorded, and nothing of the element's is touched. -/
theorem Turn.silent (h : Turn cid idx stage hand pe) (hlog : pe'.log = pe.log)
    (hqueue : pe'.queue cid idx = pe.queue cid idx)
    (hchare : (pe'.chareAt cid idx).isSome = (pe.chareAt cid idx).isSome)
    (hwait : pe'.waitingFor cid idx = pe.waitingFor cid idx) :
    Turn cid idx stage hand pe' :=
  h.quiet (hlog.trans (List.append_nil _).symm) (fun _ he => absurd he List.not_mem_nil)
    hqueue hchare hwait

/-- An event that is none of the element's. -/
theorem Turn.event (h : Turn cid idx stage hand pe) (he : e.Apart cid idx)
    (hlog : pe'.log = pe.log ++ [e]) (hqueue : pe'.queue cid idx = pe.queue cid idx)
    (hchare : (pe'.chareAt cid idx).isSome = (pe.chareAt cid idx).isSome)
    (hwait : pe'.waitingFor cid idx = pe.waitingFor cid idx) :
    Turn cid idx stage hand pe' :=
  h.quiet hlog (fun _ he' => List.mem_singleton.mp he' ▸ he) hqueue hchare hwait

/-- An event. -/
theorem Turn.record (h : Turn cid idx stage hand pe) (he : e.Apart cid idx) :
    Turn cid idx stage hand (pe.record e) :=
  h.event he rfl rfl rfl rfl

/-- A member function that leaves the element and its deque alone. -/
theorem Turn.modify (h : Turn cid idx stage hand pe) {f : Collective → Collective}
    (hqueue : (pe.modify c f).queue cid idx = pe.queue cid idx)
    (hchare : ((pe.modify c f).chareAt cid idx).isSome = (pe.chareAt cid idx).isSome) :
    Turn cid idx stage hand (pe.modify c f) :=
  h.silent rfl hqueue hchare rfl

/-! ## What does -/

theorem handledFor_handled (hsend : m.SendTo cid idx) :
    (pe.record (.handled m)).handledFor cid idx = pe.handledFor cid idx ++ [m] := by
  rw [Pe.handledFor, record_log, List.filterMap_append, List.filterMap_cons_some
    (handles_eq_some.mpr ⟨rfl, hsend⟩)]
  rfl

theorem invokedFor_invoked (hsend : m.SendTo cid idx) :
    (pe.record (.invoked cid idx m)).invokedFor cid idx =
    pe.invokedFor cid idx ++ [m] := by
  rw [Pe.invokedFor, record_log, List.filterMap_append, List.filterMap_cons_some
    (runs_eq_some.mpr ⟨rfl, hsend⟩)]
  rfl

theorem invokedFor_handled :
    (pe.record (.handled m)).invokedFor cid idx = pe.invokedFor cid idx := by
  rw [Pe.invokedFor, record_log, List.filterMap_append]
  exact List.append_nil _

theorem handledFor_invoked :
    (pe.record (.invoked c i m)).handledFor cid idx = pe.handledFor cid idx := by
  rw [Pe.handledFor, record_log, List.filterMap_append]
  exact List.append_nil _

/-- A message that is handled now was not handled before. -/
theorem not_handled (honce : (log ++ [Event.handled m]).count (.handled m) ≤ 1) :
    .handled m ∉ log := by
  intro hmem
  have hpos := List.count_pos_iff.mpr hmem
  rw [List.count_append, List.count_singleton_self] at honce
  omega

/-- Those handled before are at rest as before. -/
theorem atRest_handled (hnew : .handled m ∉ pe.log) {y : Message}
    (hy : y ∈ pe.handledFor cid idx) (h : AtRest (pe.log ++ [.handled m]) y) :
    AtRest pe.log y := by
  refine h.of_append fun hmem => hnew ?_
  rw [← List.mem_singleton.mp hmem]
  exact (mem_handledFor.mp hy).1

/-- The event is not the execution of a send. -/
theorem Turn.after_append (h : Turn cid idx stage hand pe)
    (hlog : pe'.log = pe.log ++ [e]) (hrun : e.runs cid idx = none)
    (hrest : ∀ m, m.SendTo cid idx → .handled m ∈ pe.log → AtRest pe'.log m →
      AtRest pe.log m)
    (hhandled : ∀ m, .invoked cid idx m ∈ pe.log → m.SendTo cid idx →
      .handled m ∈ pe.log) :
    ∀ before m rest, pe'.log = before ++ .invoked cid idx m :: rest → m.SendTo cid idx →
      Entered cid idx before ∧ (AtRest pe'.log m → Left cid idx before) := by
  intro before m rest hsplit hsend
  rw [hlog] at hsplit
  obtain ⟨rest', hold⟩ := split_append hsplit fun hmem => by
    rw [List.mem_singleton] at hmem
    rw [runs_eq_some.mpr ⟨hmem.symm, hsend⟩] at hrun
    cases hrun
  obtain ⟨hentered, hleft⟩ := h.after before m rest' hold hsend
  refine ⟨hentered, fun hat => hleft (hrest m hsend (hhandled m ?_ hsend) hat)⟩
  rw [hold]
  exact List.mem_append_right _ List.mem_cons_self

/-- The executed sends were handled. -/
theorem Turn.handled (h : Turn cid idx stage hand pe) (hmem : .invoked cid idx m ∈ pe.log)
    (hsend : m.SendTo cid idx) : .handled m ∈ pe.log := by
  have hin : m ∈ pe.invokedFor cid idx :=
    List.mem_filterMap.mpr ⟨_, hmem, runs_eq_some.mpr ⟨rfl, hsend⟩⟩
  have hline : ∃ line, InTurn (AtRest pe.log) (pe.handledFor cid idx)
      (pe.invokedFor cid idx ++ line) := by
    cases hand with
    | none => exact ⟨_, h.line⟩
    | some m' =>
      obtain ⟨_, habsent, hpresent, _⟩ := h.line
      cases hc : pe.chareAt cid idx with
      | none => exact ⟨_, habsent hc⟩
      | some ch => exact ⟨_, hpresent (by rw [hc]; rfl)⟩
  obtain ⟨line, hline⟩ := hline
  exact (mem_handledFor.mp (hline.perm.subset (List.mem_append_left _ hin))).1

/-- A send to the element is handled; `line` says what that does to the line. -/
theorem Turn.handle (h : Turn cid idx stage none pe) {hand : Option Message}
    (hnew : .handled m ∉ pe.log)
    (hlog : pe'.log = pe.log ++ [.handled m])
    (htable : pe'.collectiveTable = pe.collectiveTable)
    (hline : pe'.Line cid idx stage hand) : Turn cid idx stage hand pe' where
  line := hline
  stage := by
    have hstage := h.stage
    cases stage <;> simpa only [Stage.Fits, Pe.chareAt, Pe.queue, htable] using hstage
  built := by
    intro hc
    refine (h.built ?_).mono ?_
    · simpa only [Pe.chareAt, htable] using hc
    · rw [hlog]
      exact List.subset_append_left _ _
  after := by
    refine h.after_append hlog rfl (fun y hy hmem hat => ?_) fun _ hmem hy =>
      h.handled hmem hy
    rw [hlog] at hat
    exact atRest_handled hnew (mem_handledFor.mpr ⟨hmem, hy⟩) hat

theorem not_atRest (hnew : .handled m ∉ log) (hbusy : ¬ Idle log) :
    ¬ AtRest (log ++ [.handled m]) m := by
  rintro ⟨before, after, heq, hidle⟩
  rcases split_snoc heq with ⟨rfl, _⟩ | ⟨rest, rfl⟩
  · exact hbusy hidle
  · exact hnew (List.mem_append_right _ List.mem_cons_self)

/-- An entry function makes a send: it may go ahead. -/
theorem Turn.arrive_inside (h : Turn cid idx stage none pe) (hsend : m.SendTo cid idx)
    (hnew : .handled m ∉ pe.log) (hbusy : ¬ Idle pe.log) :
    Turn cid idx stage (some m) (pe.record (.handled m)) := by
  have hm := not_atRest hnew hbusy
  have hline : InTurn (AtRest (pe.log ++ [.handled m])) (pe.handledFor cid idx)
      (pe.invokedFor cid idx ++ (pe.backlog cid idx stage ++ pe.waitingFor cid idx)) :=
    h.line.imp fun y hy => atRest_handled hnew hy
  refine h.handle hnew rfl rfl
    ⟨hsend, fun _ => ?_, fun _ => ?_, fun _ hat => absurd hat hm⟩
  · rw [handledFor_handled hsend, invokedFor_handled]
    rw [← List.append_assoc] at hline ⊢
    exact hline.ahead hm
  · rw [handledFor_handled hsend, invokedFor_handled]
    exact hline.ahead hm

/-- A send is handled while no entry function is running: nothing is in front of
it if the element is there, and it goes to the end of the deque if it is not. -/
theorem Turn.arrive_rest (h : Turn cid idx .outside none pe) (hsend : m.SendTo cid idx)
    (hnew : .handled m ∉ pe.log) (hidle : Idle pe.log)
    (hwait : pe.waitingFor cid idx = []) :
    Turn cid idx .outside (some m) (pe.record (.handled m)) := by
  have hline : InTurn (AtRest (pe.log ++ [.handled m])) (pe.handledFor cid idx ++ [m])
      (pe.invokedFor cid idx ++ pe.queue cid idx ++ [m]) := by
    have hold := h.line
    unfold Pe.Line at hold
    rw [hwait, List.append_nil] at hold
    exact (hold.imp fun y hy => atRest_handled hnew hy).back m
  have hwait' : (pe.record (.handled m)).waitingFor cid idx = [] := hwait
  refine h.handle hnew rfl rfl ⟨hsend, fun _ => ?_, fun hc => ?_, fun hc _ => ?_⟩
  · rw [handledFor_handled hsend, invokedFor_handled, hwait', ← List.append_assoc]
    exact hline
  · have hqueue : pe.queue cid idx = [] := h.stage hc
    rw [hqueue, List.append_nil] at hline
    rw [handledFor_handled hsend, invokedFor_handled, hwait']
    show InTurn _ _ (_ ++ m :: (pe.queue cid idx ++ []))
    rw [hqueue]
    exact hline
  · exact ((h.built hc).left hidle).mono (List.subset_append_left _ _)

/-- A send that is handled waits for the collective. -/
theorem Turn.park (h : Turn cid idx stage none pe) (hsend : m.SendTo cid idx)
    (hnew : .handled m ∉ pe.log) :
    Turn cid idx stage none ((pe.record (.handled m)).bufferCollective m) := by
  have hwait : ((pe.record (.handled m)).bufferCollective m).waitingFor cid idx
      = pe.waitingFor cid idx ++ [m] := by
    have hcid := hsend.1.1
    rw [Pe.waitingFor, ← hcid, bufferCollective_self, List.filter_append, hcid,
      Pe.waitingFor, List.filter_singleton, decide_eq_true hsend]
    rfl
  refine h.handle hnew rfl rfl ?_
  show InTurn _ ((pe.record (.handled m)).handledFor cid idx)
    ((pe.record (.handled m)).invokedFor cid idx ++ (pe.backlog cid idx stage ++ _))
  rw [hwait, handledFor_handled hsend, invokedFor_handled, ← List.append_assoc,
    ← List.append_assoc]
  have hline : InTurn (AtRest pe.log) _ (_ ++ (_ ++ _)) := h.line
  rw [← List.append_assoc] at hline
  exact (hline.imp fun y hy => atRest_handled hnew hy).back m

/-- The element executes the send in hand. -/
theorem Turn.execute (h : Turn cid idx stage (some m) pe)
    (hc : (pe.chareAt cid idx).isSome) :
    Turn cid idx stage none (pe.record (.invoked cid idx m)) := by
  obtain ⟨hsend, _, hpresent, hleft⟩ := h.line
  have hrest : ∀ y, AtRest (pe.log ++ [.invoked cid idx m]) y → AtRest pe.log y :=
    fun y hat =>
    hat.of_append fun hmem => by cases List.mem_singleton.mp hmem
  refine ⟨?_, h.stage, fun _ => (h.built hc).mono (List.subset_append_left _ _), ?_⟩
  · show InTurn _ ((pe.record _).handledFor cid idx)
      ((pe.record _).invokedFor cid idx ++
        (pe.backlog cid idx stage ++ pe.waitingFor cid idx))
    rw [handledFor_invoked, invokedFor_invoked hsend, List.append_assoc]
    exact (hpresent hc).imp fun y _ => hrest y
  · intro before y rest hsplit hy
    rcases split_snoc hsplit with ⟨rfl, heq⟩ | ⟨rest', hold⟩
    · obtain rfl := (Event.invoked.inj heq).2.2
      exact ⟨h.built hc, fun hat => hleft hc (hrest m hat)⟩
    · obtain ⟨hentered, hback⟩ := h.after before y rest' hold hy
      exact ⟨hentered, fun hat => hback (hrest y hat)⟩

/-- The constructor of the element is entered. -/
theorem Turn.construct (h : Turn cid idx .outside none pe) {col : Collective}
    (hcol : pe.collectiveTable cid = some col) (hctor : m.entry.isConstructor = true) :
    Turn cid idx .entered none
      ((pe.modify cid (·.emplace idx)).record (.invoked cid idx m)) := by
  have hrun : (Event.invoked cid idx m).runs cid idx = none := by
    rw [Option.eq_none_iff_forall_ne_some]
    intro y hy
    obtain ⟨heq, hsend⟩ := runs_eq_some.mp hy
    obtain rfl := (Event.invoked.inj heq).2.2
    rw [hsend.2.2] at hctor
    cases hctor
  have hqueue : (pe.modify cid (·.emplace idx)).queue cid idx = pe.queue cid idx :=
    queue_modify fun c => by rw [emplace_buffers]
  have hrest : ∀ y, AtRest (pe.log ++ [.invoked cid idx m]) y → AtRest pe.log y :=
    fun y hat =>
    hat.of_append fun hmem => by cases List.mem_singleton.mp hmem
  refine ⟨?_, ?_, fun _ => ⟨m, hctor,
    List.mem_append_right _ (List.mem_singleton_self _)⟩,
    h.after_append rfl hrun (fun y _ _ => hrest y) fun _ hmem hsend =>
      h.handled hmem hsend⟩
  · show InTurn _ ((pe.record _).handledFor cid idx)
      ((pe.log ++ [_]).filterMap (Event.runs cid idx)
      ++ ((pe.modify cid (·.emplace idx)).queue cid idx ++ pe.waitingFor cid idx))
    rw [handledFor_invoked, List.filterMap_append, List.filterMap_cons_none hrun,
      List.filterMap_nil, List.append_nil, hqueue]
    exact h.line.imp fun y _ => hrest y
  · show ((pe.modify cid (·.emplace idx)).chareAt cid idx).isSome
    rw [chareAt_of_table (table_modify hcol _)]
    exact emplace_self_isSome col idx

/-- The front of the deque is tried, after the constructor returned. -/
theorem Turn.begin (h : Turn cid idx .entered none pe)
    (hfront : pe.queue cid idx = m :: rest) (hsend : m.SendTo cid idx)
    (hleft : Left cid idx pe.log) :
    Turn cid idx .flushing (some m) pe where
  line := by
    have hc : (pe.chareAt cid idx).isSome := h.stage
    refine ⟨hsend, fun hnone => ?_, fun _ => ?_, fun _ _ => hleft⟩
    · rw [hnone] at hc
      cases hc
    · have hline : InTurn _ _ (_ ++ (pe.queue cid idx ++ _)) := h.line
      show InTurn _ _ (_ ++ m :: ((pe.queue cid idx).tail ++ _))
      rw [hfront] at hline ⊢
      exact hline
  stage := ⟨h.stage, by rw [hfront]; exact List.cons_ne_nil _ _⟩
  built := h.built
  after := h.after

/-- It was executed, and is popped. -/
theorem Turn.pop (h : Turn cid idx .flushing none pe) :
    Turn cid idx .entered none (pe.modify cid (·.popFront idx)) := by
  obtain ⟨hc, _⟩ := h.stage
  have hqueue : (pe.modify cid (·.popFront idx)).queue cid idx =
      (pe.queue cid idx).tail := by
    cases hcol : pe.collectiveTable cid with
    | none =>
      rw [Pe.chareAt, hcol] at hc
      cases hc
    | some col => rw [queue_popFront hcol, queue_of_table hcol]
  refine ⟨?_, chareAt_modify (fun _ => id) hc, fun _ => h.built hc, h.after⟩
  show InTurn _ _ (_ ++ ((pe.modify cid (·.popFront idx)).queue cid idx ++ _))
  rw [hqueue]
  exact h.line

/-- The deque is empty. -/
theorem Turn.finish (h : Turn cid idx .entered none pe) (hqueue : pe.queue cid idx = []) :
    Turn cid idx .outside none pe := ⟨h.line, fun _ => hqueue, h.built, h.after⟩

/-- An element that is not there is not in the constructor branch. -/
theorem Turn.outside (h : Turn cid idx stage hand pe)
    (hnone : pe.chareAt cid idx = none) :
    stage = .outside := by
  have hstage := h.stage
  cases stage with
  | outside => rfl
  | entered =>
    rw [Stage.Fits, hnone] at hstage
    cases hstage
  | flushing =>
    rw [Stage.Fits, hnone] at hstage
    cases hstage.1

/-- The send in hand is put into the deque. -/
theorem Turn.buffer (h : Turn cid idx stage (some m) pe) {col : Collective}
    (hcol : pe.collectiveTable cid = some col) (hnone : pe.chareAt cid idx = none) :
    Turn cid idx stage none (pe.modify cid (·.buffer m)) := by
  obtain rfl := h.outside hnone
  obtain ⟨hsend, habsent, _⟩ := h.line
  have hchare : (pe.modify cid (·.buffer m)).chareAt cid idx = none := by
    rw [chareAt_of_table (table_modify hcol _)]
    rwa [chareAt_of_table hcol] at hnone
  refine ⟨?_, fun hc => ?_, fun hc => ?_, h.after⟩
  · show InTurn _ _ (_ ++ ((pe.modify cid (·.buffer m)).queue cid idx ++ _))
    rw [queue_buffer hcol hsend.2.1, List.append_assoc]
    exact habsent hnone
  · rw [hchare] at hc
    cases hc
  · rw [hchare] at hc
    cases hc

/-- A send that waited for the collective is taken in hand. -/
theorem Turn.take (h : Turn cid idx .outside none pe) (hsend : m.SendTo cid idx)
    (hfront : pe.collectiveBuffer cid = m :: rest) (hidle : Idle pe.log) :
    Turn cid idx .outside (some m)
      { pe with collectiveBuffer := Function.update pe.collectiveBuffer cid rest } := by
  have hwait : pe.waitingFor cid idx = m :: Pe.waitingFor
      { pe with collectiveBuffer := Function.update pe.collectiveBuffer cid rest
        } cid idx := by
    simp only [Pe.waitingFor, Function.update_self, hfront]
    exact List.filter_cons_of_pos (decide_eq_true hsend)
  have hline : InTurn _ _ (_ ++ (pe.queue cid idx ++ pe.waitingFor cid idx)) := h.line
  rw [hwait] at hline
  refine ⟨⟨hsend, fun _ => hline, fun hc => ?_, fun hc _ =>
    (h.built hc).left hidle⟩, h.stage, h.built, h.after⟩
  have hqueue : pe.queue cid idx = [] := h.stage hc
  show InTurn _ _ (_ ++ m :: (pe.queue cid idx ++ _))
  rw [hqueue] at hline ⊢
  exact hline

/-! ## Other messages -/

theorem apart_handled (h : ¬ m.SendTo cid idx) : (Event.handled m).Apart cid idx :=
  ⟨if_neg h, rfl⟩

theorem apart_invoked (h : ¬ (c = cid ∧ i = idx ∧ m.SendTo cid idx)) :
    (Event.invoked c i m).Apart cid idx := ⟨rfl, if_neg h⟩

theorem waitingFor_bufferCollective (h : ¬ m.SendTo cid idx) :
    (pe.bufferCollective m).waitingFor cid idx = pe.waitingFor cid idx := by
  unfold Pe.waitingFor
  by_cases hc : cid = m.collective
  · rw [hc, bufferCollective_self, List.filter_append, ← hc, List.filter_singleton,
      decide_eq_false h]
    exact List.append_nil _
  · rw [bufferCollective_ne hc]

theorem waitingFor_take (h : ¬ m.SendTo cid idx) (hfront : pe.collectiveBuffer c = m :: rest) :
    Pe.waitingFor { pe with collectiveBuffer := Function.update pe.collectiveBuffer c rest } cid idx
      = pe.waitingFor cid idx := by
  unfold Pe.waitingFor
  by_cases hc : cid = c
  · subst hc
    simp only [Function.update_self, hfront]
    exact (List.filter_cons_of_neg (by simpa using h)).symm
  · simp only [Function.update_of_ne hc]

/-- A member function that leaves the element alone leaves it where it is. -/
theorem chareAt_same {f : Collective → Collective}
    (hf : ∀ col, (f col).chares idx = col.chares idx) :
    (pe.modify c f).chareAt cid idx = pe.chareAt cid idx := by
  unfold Pe.chareAt
  by_cases hc : cid = c
  · subst hc
    rw [modify_self]
    cases pe.collectiveTable cid with
    | none => rfl
    | some col => exact hf col
  · rw [modify_ne hc]

theorem chareAt_emplace_ne (h : ¬ (c = cid ∧ i = idx)) :
    (pe.modify c (·.emplace i)).chareAt cid idx = pe.chareAt cid idx := by
  by_cases hc : cid = c
  · refine chareAt_same fun col => ?_
    unfold Collective.emplace
    split
    · rfl
    · exact Function.update_of_ne (fun hi => h ⟨hc.symm, hi.symm⟩) ..
  · rw [Pe.chareAt, modify_ne hc, Pe.chareAt]

theorem chareAt_ne (h : c ≠ cid) {f : Collective → Collective} :
    (pe.modify c f).chareAt cid idx = pe.chareAt cid idx := by
  rw [Pe.chareAt, modify_ne h.symm, Pe.chareAt]

theorem queue_ne (h : c ≠ cid) {f : Collective → Collective} :
    (pe.modify c f).queue cid idx = pe.queue cid idx := by
  rw [Pe.queue, modify_ne h.symm, Pe.queue]

/-- Another collective takes a broadcast. -/
theorem Turn.takes {X : Machine} (h : Turn cid idx stage none pe) (hc : c ≠ cid)
    (col : Collective) (children : List ChareIndex) (i : ChareIndex) (msg : Message) :
    Turn cid idx stage none
      ((X.sendCopies col msg children (pe.modify c (·.advance i))).record
        (.invoked c i msg)) := by
  refine h.quiet (l := [.invoked c i msg]) rfl ?_ (queue_ne hc)
    (congrArg _ (chareAt_ne hc)) rfl
  intro e he
  rw [List.mem_singleton.mp he]
  exact apart_invoked fun hhere => hc hhere.1

end Turn

/-! ## Every function keeps the line -/

/-- The send in the hands of a function. -/
def Task.send (cid : CollectiveIndex) (idx : ChareIndex) : Task → Option Message
  | .attempt _ m => if m.SendTo cid idx then some m else none
  | .handle _ _ m => if m.SendTo cid idx then some m else none
  | .now _ m => if m.SendTo cid idx then some m else none
  | _ => none

/-- What a function gives back: the send when `try_deliver` fails. -/
def Task.givesBack (cid : CollectiveIndex) (idx : ChareIndex) (task : Task) :
    Bool → Option Message
  | true => none
  | false => task.send cid idx

/-- Calls are made by entry functions; what waited for the collective is delivered
while none is running. -/
def Task.At (log : List Event) : Task → Prop
  | .calls _ => Inside log
  | .call _ => Inside log
  | .endpoint _ _ => Inside log
  | .drain _ => Idle log
  | _ => Sane log

/-- The deque is flushed after the constructor returned. -/
def Task.Ready (cid : CollectiveIndex) (idx : ChareIndex) (stage : Stage)
    (log : List Event) :
    Task → Prop
  | .flush c i => c = cid ∧ i = idx → stage = .entered ∧ Left cid idx log
  | .drain _ => stage = .outside
  | _ => True

/-- The stage after the function. -/
def Task.ends (cid : CollectiveIndex) (idx : ChareIndex) (stage : Stage) : Task → Stage
  | .flush c i => if c = cid ∧ i = idx then .outside else stage
  | _ => stage

/-- What the log of a PE tells in a run of one collective. -/
structure RunLog (X : Machine) (cid : CollectiveIndex) (mapper : Mapper) (me : Nat)
    (log : List Event) : Prop extends ElementsOnly cid log, OnceOnly X cid mapper me log

theorem RunLog.starts {X : Machine} {cid : CollectiveIndex} {mapper : Mapper} {me : Nat}
    {log log' : List Event} (h : RunLog X cid mapper me log') (hle : log <+: log') :
    RunLog X cid mapper me log :=
  ⟨h.toElementsOnly.starts hle, h.toOnceOnly.starts hle⟩

theorem Message.To.eq {c cid : CollectiveIndex} {m : Message} (h : m.To c)
    (h' : m.To cid) :
    c = cid := h.1.symm.trans h'.1

theorem Message.SendTo.lands {X : Machine} {cid : CollectiveIndex} {idx : ChareIndex}
    {mapper : Mapper} {me : Nat} {m : Message} (h : m.SendTo cid idx)
    (hhome : X.peFor mapper idx = me) : m.lands X mapper me = true :=
  lands_iff.mpr ⟨h.2.2, h.2.1 ▸ hhome⟩

/-- A call makes a message. -/
theorem Turn.issue {cid : CollectiveIndex} {idx : ChareIndex} {stage : Stage} {pe : Pe}
    {msg : Message} (h : Turn cid idx stage none pe) :
    Turn cid idx stage none (Machine.issue pe msg) :=
  h.quiet (l := [.issued msg]) rfl
    (fun _ he => List.mem_singleton.mp he ▸ ⟨rfl, rfl⟩) rfl rfl rfl

/-- A message that is handled waits for its collective. -/
theorem Turn.absent {X : Machine} {cid : CollectiveIndex} {idx : ChareIndex}
    {mapper : Mapper}
    {me : Nat} {stage : Stage} {pe : Pe} {msg : Message} (h : Turn cid idx stage none pe)
    (hhome : X.peFor mapper idx = me)
    (honce : OnceOnly X cid mapper me
      ((pe.record (.handled msg)).bufferCollective msg).log) :
    Turn cid idx stage none ((pe.record (.handled msg)).bufferCollective msg) := by
  by_cases hsend : msg.SendTo cid idx
  · exact h.park hsend (not_handled (honce.handled msg hsend.1 (hsend.lands hhome)))
  · refine (h.record (apart_handled hsend)).quiet (l := []) (List.append_nil _).symm
      (fun _ he => by cases he) rfl rfl ?_
    exact waitingFor_bufferCollective hsend

/-- A constructor of the collective leaves the index in its message: it keeps the
message, or frees it and the bytes stay, but does not send it on. -/
def Machine.KeepsIndex (X : Machine) (cid : CollectiveIndex) : Prop :=
  ∀ me log msg, msg.collective = cid → X.indexAfter me log msg = msg.chare

namespace Machine

variable {X : Machine} {cid : CollectiveIndex} {idx : ChareIndex}
  {mapper : Mapper} {me : Nat}
  {task : Task} {pe pe' : Pe} {done : Bool} {stage : Stage}

/-- What is flushed after a constructor is the queue of its element, or one of
another collective. -/
theorem KeepsIndex.flushes (h : X.KeepsIndex cid) (me : Nat) (idx : ChareIndex) (pe : Pe)
    {c : CollectiveIndex} {msg : Message} (hto : msg.To c) :
    c = cid ∧ X.indexAfterOf me c msg.chare msg pe = idx ↔ c = cid ∧ msg.chare = idx := by
  refine and_congr_right fun hc => ?_
  rw [indexAfterOf, h _ _ msg (hto.1.trans hc)]

/-- The element is not there when its constructor is called. -/
theorem Turn.unbuilt {hand : Option Message} {msg : Message} {log : List Event}
    (ht : Turn cid idx stage hand pe) (hh : Hosted X cid mapper me pe)
    (honce : OnceOnly X cid mapper me log)
    (hle : pe.log ++ [Event.tried msg, .invoked cid idx msg] <+: log)
    (hctor : msg.entry.isConstructor = true) (hidx : msg.chare = idx) :
    pe.chareAt cid idx = none := by
  rw [← Option.not_isSome_iff_eq_none]
  intro hsome
  obtain ⟨m, hm, hmem⟩ := ht.built hsome
  have hnodup := (honce.starts hle).built
  have hchare : m.chare = idx := ((hh.invoked cid idx m hmem).2 rfl).1.symm
  have hone : (Event.invoked cid idx msg).builds cid = some msg := if_pos ⟨rfl, hctor⟩
  have hbuilds : (pe.log ++ [Event.tried msg, .invoked cid idx msg]).filterMap
    (Event.builds cid)
      = pe.log.filterMap (Event.builds cid) ++ [msg] := by
    rw [List.filterMap_append, List.filterMap_cons_none rfl,
      List.filterMap_cons_some hone]
    rfl
  rw [hbuilds, List.map_append, List.map_singleton] at hnodup
  refine (List.nodup_append.mp hnodup).2.2 m.chare (List.mem_map_of_mem ?_) msg.chare
    (List.mem_singleton_self _) (hchare.trans hidx.symm)
  exact List.mem_filterMap.mpr ⟨_, hmem, if_pos ⟨rfl, hm⟩⟩

/-- A function keeps the sends to the element in their turn. -/
def KeepsTurn (X : Machine) (cid : CollectiveIndex) (idx : ChareIndex) (mapper : Mapper)
    (me : Nat) (task : Task) (pe : Pe) (done : Bool) (pe' : Pe) : Prop :=
  ∀ stage, RunLog X cid mapper me pe'.log → task.Proper cid → Hosted X cid mapper me pe →
    task.At pe.log → task.Ready cid idx stage pe.log →
    Turn cid idx stage (task.send cid idx) pe →
    Turn cid idx (task.ends cid idx stage) (task.givesBack cid idx done) pe'

section Cases

variable {pe₁ pe₂ : Pe} {c : CollectiveIndex} {i root : ChareIndex} {msg : Message}
  {rest : List Message} {col : Collective} {obj : Chare} {children : List ChareIndex}

/-! ### `flush_buffers` -/

theorem turn_flushEmpty (hcol : pe.collectiveTable c = some col)
    (hempty : col.buffers i = []) :
    X.KeepsTurn cid idx mapper me (.flush c i) pe true pe := by
  intro stage _ _ _ _ hready ht
  -- the deque is empty: this is where the flush of the element ends
  by_cases hhere : c = cid ∧ i = idx
  · obtain ⟨rfl, _⟩ := hready hhere
    rw [Task.ends, if_pos hhere]
    obtain ⟨rfl, rfl⟩ := hhere
    exact ht.finish (by rw [queue_of_table hcol, hempty])
  · rw [Task.ends, if_neg hhere]
    exact ht

theorem turn_flushFront (hcol : pe.collectiveTable c = some col)
    (hfront : col.buffers i = msg :: rest)
    (hrun₁ : X.Runs me (.attempt c msg) pe true pe₁)
    (hrun₂ : X.Runs me (.flush c i) (pe₁.modify c (·.popFront i)) true pe₂)
    (ih₁ : X.KeepsTurn cid idx mapper me (.attempt c msg) pe true pe₁)
    (ih₂ : X.KeepsTurn cid idx mapper me (.flush c i)
      (pe₁.modify c (·.popFront i)) true pe₂) :
    X.KeepsTurn cid idx mapper me (.flush c i) pe true pe₂ := by
  intro stage hlog _ hh hat hready ht
  obtain ⟨hidx, hto, hplain, hlands⟩ := hh.front hcol hfront
  have hlog₁ : RunLog X cid mapper me pe₁.log := hlog.starts hrun₂.whole.starts
  have hh₁ := (hrun₁.hosted hlog₁.toElementsOnly ⟨hto, hplain⟩ hh).1.popFront c i
  have hat₁ : Sane pe₁.log := hrun₁.whole.sane hat
  by_cases hhere : c = cid ∧ i = idx
  · -- the front is executed while it is in the deque, and popped then
    obtain ⟨rfl, hleft⟩ := hready hhere
    obtain ⟨rfl, rfl⟩ := hhere
    have hsend : msg.SendTo c i := ⟨hto, hidx, (lands_iff.mp (hlands rfl)).1⟩
    have hbegun := ht.begin (by rw [queue_of_table hcol, hfront]) hsend hleft
    have hdone := ih₁ _ hlog₁ ⟨hto, hplain⟩ hh hat trivial
      (by rw [Task.send, if_pos hsend]; exact hbegun)
    exact ih₂ _ hlog trivial hh₁ hat₁
      (fun _ => ⟨rfl, hleft.mono hrun₁.whole.starts.subset⟩) (Turn.pop hdone)
  · have hsend : ¬ msg.SendTo cid idx := fun hsend =>
      hhere ⟨hto.eq hsend.1, hidx.symm.trans hsend.2.1⟩
    have hdone := ih₁ _ hlog₁ ⟨hto, hplain⟩ hh hat trivial
      (by rw [Task.send, if_neg hsend]; exact ht)
    refine ih₂ _ hlog trivial hh₁ hat₁ (fun h => absurd h hhere)
      (Turn.modify hdone (queue_popFront_ne hhere)
        (congrArg _ (chareAt_same fun _ => rfl)))

theorem turn_flushStop (hcol : pe.collectiveTable c = some col)
    (hfront : col.buffers i = msg :: rest)
    (hrun : X.Runs me (.attempt c msg) pe false pe₁)
    (ih : X.KeepsTurn cid idx mapper me (.attempt c msg) pe false pe₁) :
    X.KeepsTurn cid idx mapper me (.flush c i) pe true pe₁ := by
  intro stage hlog _ hh hat hready ht
  obtain ⟨hidx, hto, hplain, hlands⟩ := hh.front hcol hfront
  by_cases hhere : c = cid ∧ i = idx
  · -- the element is there, so `try_deliver` takes the message
    obtain ⟨rfl, _⟩ := hready hhere
    obtain ⟨rfl, rfl⟩ := hhere
    have hpresent : (pe.chareAt c i).isSome := ht.stage
    rw [← hidx, hrun.absent_of_false] at hpresent
    cases hpresent
  · have hsend : ¬ msg.SendTo cid idx := fun hsend =>
      hhere ⟨hto.eq hsend.1, hidx.symm.trans hsend.2.1⟩
    have hdone := ih _ hlog ⟨hto, hplain⟩ hh hat trivial
      (by rw [Task.send, if_neg hsend]; exact ht)
    rw [Task.givesBack, Task.send, if_neg hsend] at hdone
    rw [Task.ends, if_neg hhere]
    exact hdone

/-! ### `try_deliver` -/

/-- A constructor message is no send; what it does to the element is build and flush it. -/
theorem turn_construct (hkeeps : X.KeepsIndex cid)
    (hcol : pe.collectiveTable c = some col) (hctor : msg.entry.isConstructor = true)
    (hat_home : X.peFor col.mapper msg.chare = me)
    (hrun₁ : X.Runs me (.calls (X.bodyOf me c msg.chare msg
        ((pe.record (.tried msg)).modify c (·.emplace msg.chare))))
      (((pe.record (.tried msg)).modify c (·.emplace msg.chare)).record
        (.invoked c msg.chare msg)) true pe₁)
    (hrun₂ : X.Runs me (.flush c (X.indexAfterOf me c msg.chare msg
        ((pe.record (.tried msg)).modify c (·.emplace msg.chare))))
      (pe₁.record (.returned c msg.chare msg)) true pe₂)
    (ih₁ : X.KeepsTurn cid idx mapper me (.calls (X.bodyOf me c msg.chare msg
        ((pe.record (.tried msg)).modify c (·.emplace msg.chare))))
      (((pe.record (.tried msg)).modify c (·.emplace msg.chare)).record
        (.invoked c msg.chare msg)) true pe₁)
    (ih₂ : X.KeepsTurn cid idx mapper me (.flush c (X.indexAfterOf me c msg.chare msg
        ((pe.record (.tried msg)).modify c (·.emplace msg.chare))))
      (pe₁.record (.returned c msg.chare msg)) true pe₂) :
    X.KeepsTurn cid idx mapper me (.attempt c msg) pe true
      (pe₂.record (.flushed c msg.chare)) := by
  intro stage hlog hproper hh hat _ ht
  have hsend : ¬ msg.SendTo cid idx := by
    intro hsend
    rw [hsend.2.2] at hctor
    cases hctor
  rw [Task.send, if_neg hsend] at ht
  have hhome' : c = cid → X.peFor mapper msg.chare = me := by
    rintro rfl
    rw [← hh.mapped col hcol, hat_home]
  have hlog₂ := hlog.starts starts_record
  have hlog₁ : RunLog X cid mapper me pe₁.log :=
    hlog₂.starts (starts_record.trans hrun₂.whole.starts)
  have hentered :=
    Hosted.invoke ((hh.record (e := .tried msg) rfl).emplace hhome') hproper.1
    fun hc => ⟨rfl, hhome' hc⟩
  have hsane : Sane (pe.log ++ [.tried msg]) := Whole.sane (.one rfl rfl) hat
  have hreturned : Sane (pe₁.log ++ [.returned c msg.chare msg]) :=
    (Whole.entry hrun₁.whole).sane hsane
  have hh₁ := (hrun₁.hosted hlog₁.toElementsOnly trivial hentered).1
  have hflushes := hkeeps.flushes me idx
    ((pe.record (.tried msg)).modify c (·.emplace msg.chare)) hproper.1
  by_cases hhere : c = cid ∧ msg.chare = idx
  · have hends := hflushes.mpr hhere
    obtain ⟨rfl, rfl⟩ := hhere
    have hnone :=
      Turn.unbuilt ht hh hlog₁.toOnceOnly (by simpa using hrun₁.whole.starts) hctor rfl
    obtain rfl := ht.outside hnone
    have hbuilt := Turn.construct (ht.record (e := .tried msg) ⟨rfl, rfl⟩) hcol hctor
    have hdone := ih₁ _ hlog₁ trivial hentered hsane.inside trivial hbuilt
    have hflushed := ih₂ _ hlog₂ trivial (hh₁.record rfl) hreturned
      (fun _ => ⟨rfl, msg, hctor, List.mem_append_right _ (List.mem_singleton_self _)⟩)
      (Turn.record hdone ⟨rfl, rfl⟩)
    rw [Task.ends, if_pos hends] at hflushed
    exact Turn.record hflushed ⟨rfl, rfl⟩
  · have hother := mt hflushes.mp hhere
    have hmade := Turn.modify (ht.record (e := .tried msg) ⟨rfl, rfl⟩)
      (queue_modify fun col => by rw [emplace_buffers])
      (congrArg _ (chareAt_emplace_ne hhere))
    have hdone := ih₁ _ hlog₁ trivial hentered hsane.inside trivial
      (Turn.record hmade (apart_invoked fun hall => hsend hall.2.2))
    have hflushed :=
      ih₂ _ hlog₂ trivial (hh₁.record rfl) hreturned (fun h => absurd h hother)
      (Turn.record hdone ⟨rfl, rfl⟩)
    rw [Task.ends, if_neg hother] at hflushed
    exact Turn.record hflushed ⟨rfl, rfl⟩

/-- Not on its home PE, a message is not for this element. -/
theorem turn_forward (hhome : X.peFor mapper idx = me)
    (hcol : pe.collectiveTable c = some col) (haway : X.peFor col.mapper msg.chare ≠ me) :
    X.KeepsTurn cid idx mapper me (.attempt c msg) pe true
      ((pe.record (.tried msg)).push (X.peFor col.mapper msg.chare) msg) := by
  intro stage _ hproper hh _ _ ht
  have hsend : ¬ msg.SendTo cid idx := by
    intro hsend
    obtain rfl := hproper.1.eq hsend.1
    rw [hh.mapped col hcol, hsend.2.1] at haway
    exact haway hhome
  rw [Task.send, if_neg hsend] at ht
  exact ht.event (e := .tried msg) ⟨rfl, rfl⟩ rfl rfl rfl rfl

/-! ### `handle_` -/

/-- Broadcasts are of other collectives. -/
theorem turn_inOrder (hb : msg.isBroadcast = true)
    (hrun₁ : X.Runs me (.calls (X.bodyOf me c i msg
        (X.sendCopies col msg children (pe.modify c (·.advance i)))))
      ((X.sendCopies col msg children (pe.modify c (·.advance i))).record
        (.invoked c i msg)) true pe₁)
    (hrun₂ : X.Runs me (.flush c i) (pe₁.record (.returned c i msg)) true pe₂)
    (ih₁ : X.KeepsTurn cid idx mapper me (.calls (X.bodyOf me c i msg
        (X.sendCopies col msg children (pe.modify c (·.advance i)))))
      ((X.sendCopies col msg children (pe.modify c (·.advance i))).record
        (.invoked c i msg)) true pe₁)
    (ih₂ : X.KeepsTurn cid idx mapper me (.flush c i)
      (pe₁.record (.returned c i msg)) true pe₂) :
    X.KeepsTurn cid idx mapper me (.handle c i msg) pe true pe₂ := by
  intro stage hlog hproper hh hat _ ht
  obtain ⟨hto, hplain, _⟩ := hproper
  have hc := hplain.ne hto hb
  have hsend : ¬ msg.SendTo cid idx := fun hsend => hc (hto.eq hsend.1)
  rw [Task.send, if_neg hsend] at ht
  have hlog₁ : RunLog X cid mapper me pe₁.log :=
    hlog.starts (starts_record.trans hrun₂.whole.starts)
  have hentered := (hh.takes hc hto col i children).1
  have hdone := ih₁ _ hlog₁ trivial hentered (Sane.inside hat) trivial
    (Turn.takes ht hc col children i msg)
  have hflushed := ih₂ _ hlog trivial
    ((hrun₁.hosted hlog₁.toElementsOnly trivial hentered).1.record rfl)
    ((Whole.entry hrun₁.whole).sane hat) (fun h => absurd h.1 hc)
    (Turn.record hdone ⟨rfl, rfl⟩)
  rw [Task.ends, if_neg fun h => hc h.1] at hflushed
  exact hflushed

theorem turn_outOfOrder (hb : msg.isBroadcast = true) :
    X.KeepsTurn cid idx mapper me (.handle c i msg) pe true
      (pe.modify c (·.buffer msg)) := by
  intro stage _ hproper _ _ _ ht
  obtain ⟨hto, hplain, _⟩ := hproper
  have hc := hplain.ne hto hb
  rw [Task.send, if_neg fun hsend => hc (hto.eq hsend.1)] at ht
  exact ht.modify (queue_ne hc) (congrArg _ (chareAt_ne hc))

/-- The element executes the message in hand, or another one does. -/
theorem turn_plain (hcol : pe.collectiveTable c = some col)
    (hch : col.chares i = some obj)
    (ih : X.KeepsTurn cid idx mapper me (.calls (X.bodyOf me c i msg pe))
      (pe.record (.invoked c i msg)) true pe₁) :
    X.KeepsTurn cid idx mapper me (.handle c i msg) pe true
      (pe₁.record (.returned c i msg)) := by
  intro stage hlog hproper hh hat _ ht
  obtain ⟨hto, hplain, rfl, hctor⟩ := hproper
  have hentered := hh.invoke hto fun hc => ⟨rfl, by
    subst hc
    exact hh.present hcol hch⟩
  have hrun : Turn cid idx stage none (pe.record (.invoked c msg.chare msg)) := by
    by_cases hsend : msg.SendTo cid idx
    · obtain rfl := hto.eq hsend.1
      obtain rfl := hsend.2.1
      rw [Task.send, if_pos hsend] at ht
      exact ht.execute (by rw [chareAt_of_table hcol, hch]; rfl)
    · rw [Task.send, if_neg hsend] at ht
      exact ht.record (apart_invoked fun hall => hsend hall.2.2)
  have hdone :=
    ih _ (hlog.starts starts_record) trivial hentered (Sane.inside hat) trivial hrun
  exact Turn.record hdone ⟨rfl, rfl⟩

/-! ### The calls of a program -/

theorem turn_callsCons {call : Call} {cs : List Call}
    (hrun₁ : X.Runs me (.call call) pe true pe₁)
    (hrun₂ : X.Runs me (.calls cs) pe₁ true pe₂)
    (ih₁ : X.KeepsTurn cid idx mapper me (.call call) pe true pe₁)
    (ih₂ : X.KeepsTurn cid idx mapper me (.calls cs) pe₁ true pe₂) :
    X.KeepsTurn cid idx mapper me (.calls (call :: cs)) pe true pe₂ := by
  intro stage hlog _ hh hat _ ht
  have hlog₁ := hlog.starts hrun₂.whole.starts
  have hdone := ih₁ _ hlog₁ trivial hh hat trivial ht
  exact ih₂ _ hlog trivial (hrun₁.hosted hlog₁.toElementsOnly trivial hh).1
    (hrun₁.whole.inside hat) trivial hdone

/-- `insert`, `send` and `cmk::send` hand on what they made. -/
theorem turn_issued {call : Call} {immediate : Bool} {entry : Entry}
    (hrun : X.Runs me (.endpoint immediate (newMessage me pe c i entry))
      (issue pe (newMessage me pe c i entry)) true pe₁)
    (ih : X.KeepsTurn cid idx mapper me (.endpoint immediate (newMessage me pe c i entry))
      (issue pe (newMessage me pe c i entry)) true pe₁) :
    X.KeepsTurn cid idx mapper me (.call call) pe true pe₁ := by
  intro stage hlog _ hh hat _ ht
  have hmem := hrun.whole.starts.subset
    (List.mem_append_right _ (List.mem_singleton_self _))
  exact ih _ hlog ⟨rfl, plain_issued hlog.toElementsOnly hmem⟩ hh.issue
    (Whole.inside (.one rfl rfl) hat) trivial ht.issue

/-! ### `deliver_to_endpoint_` -/

/-- Inside an entry function: the message arrives while others may wait for their turn. -/
theorem turn_endpointNow (hhome : X.peFor mapper idx = me)
    (hrun : X.Runs me (.now msg.collective msg) (pe.record (.handled msg)) true pe₁)
    (ih : X.KeepsTurn cid idx mapper me (.now msg.collective msg)
      (pe.record (.handled msg))
      true pe₁) :
    X.KeepsTurn cid idx mapper me (.endpoint true msg) pe true pe₁ := by
  intro stage hlog hproper hh hat _ ht
  obtain ⟨hkind, hplain⟩ := hproper
  refine ih _ hlog ⟨⟨rfl, hkind⟩, hplain⟩ (hh.record rfl)
    (Whole.sane (.one rfl rfl) (Inside.sane hat)) trivial ?_
  by_cases hsend : msg.SendTo cid idx
  · rw [Task.send, if_pos hsend]
    have honce := (hlog.starts hrun.whole.starts).handled msg hsend.1 (hsend.lands hhome)
    exact ht.arrive_inside hsend (not_handled honce) (Inside.not_idle hat)
  · rw [Task.send, if_neg hsend]
    exact ht.record (apart_handled hsend)

/-! ### `deliver_now` -/

theorem turn_nowRootAbsent {dst : Nat} (hbcast : msg.chare = chareBcastRoot) :
    X.KeepsTurn cid idx mapper me (.now c msg) pe true (pe.push dst msg) := by
  intro stage _ hproper _ _ _ ht
  rw [Task.send, if_neg fun hsend => hproper.2.ne hproper.1 (isBroadcast_of_root hbcast)
    (hproper.1.eq hsend.1)] at ht
  exact ht.silent rfl rfl rfl rfl

theorem turn_nowRootNext (hbcast : msg.chare = chareBcastRoot)
    (hrun₁ : X.Runs me (.calls (X.bodyOf me c root (msg.numbered root obj.lastBcast)
        (X.rootSends col root obj msg children c pe)))
      ((X.rootSends col root obj msg children c pe).record
        (.invoked c root (msg.numbered root obj.lastBcast))) true pe₁)
    (hrun₂ : X.Runs me (.flush c root)
      (pe₁.record (.returned c root (msg.numbered root obj.lastBcast))) true pe₂)
    (ih₁ : X.KeepsTurn cid idx mapper me (.calls (X.bodyOf me c root
        (msg.numbered root obj.lastBcast) (X.rootSends col root obj msg children c pe)))
      ((X.rootSends col root obj msg children c pe).record
        (.invoked c root (msg.numbered root obj.lastBcast))) true pe₁)
    (ih₂ : X.KeepsTurn cid idx mapper me (.flush c root)
      (pe₁.record (.returned c root (msg.numbered root obj.lastBcast))) true pe₂) :
    X.KeepsTurn cid idx mapper me (.now c msg) pe true pe₂ := by
  intro stage hlog hproper hh hat _ ht
  obtain ⟨hto, hplain⟩ := hproper
  have hc := hplain.ne hto (isBroadcast_of_root hbcast)
  rw [Task.send, if_neg fun hsend => hc (hto.eq hsend.1)] at ht
  have hto' : (msg.numbered root obj.lastBcast).To c := hto
  have hlog₁ : RunLog X cid mapper me pe₁.log :=
    hlog.starts (starts_record.trans hrun₂.whole.starts)
  have hrooted := hh.record (e := .rooted c (msg.numbered root obj.lastBcast)) rfl
  have hentered := (Hosted.takes hrooted hc hto' col root children).1
  have hsane : Sane (pe.log ++ [.rooted c (msg.numbered root obj.lastBcast)]) :=
    Whole.sane (.one rfl rfl) hat
  have hdone := ih₁ _ hlog₁ trivial hentered hsane.inside trivial
    (Turn.takes (ht.record (e := .rooted c (msg.numbered root obj.lastBcast))
      ⟨rfl, rfl⟩) hc col
      children root (msg.numbered root obj.lastBcast))
  have hflushed := ih₂ _ hlog trivial
    ((hrun₁.hosted hlog₁.toElementsOnly trivial hentered).1.record rfl)
    ((Whole.entry hrun₁.whole).sane hsane) (fun h => absurd h.1 hc)
    (Turn.record hdone ⟨rfl, rfl⟩)
  rw [Task.ends, if_neg fun h => hc h.1] at hflushed
  exact hflushed

theorem turn_nowRootWrapped (hbcast : msg.chare = chareBcastRoot)
    (ih : X.KeepsTurn cid idx mapper me (.calls (X.bodyOf me c root
        (msg.numbered root obj.lastBcast)
        (pe.record (.rooted c (msg.numbered root obj.lastBcast)))))
      ((pe.record (.rooted c (msg.numbered root obj.lastBcast))).record
        (.invoked c root (msg.numbered root obj.lastBcast))) true pe₁) :
    X.KeepsTurn cid idx mapper me (.now c msg) pe true
      (pe₁.record (.returned c root (msg.numbered root obj.lastBcast))) := by
  intro stage hlog hproper hh hat _ ht
  obtain ⟨hto, hplain⟩ := hproper
  have hc := hplain.ne hto (isBroadcast_of_root hbcast)
  rw [Task.send, if_neg fun hsend => hc (hto.eq hsend.1)] at ht
  have hto' : (msg.numbered root obj.lastBcast).To c := hto
  have hrooted := hh.record (e := .rooted c (msg.numbered root obj.lastBcast)) rfl
  have hentered := @Hosted.invoke X cid c mapper me _ _ root hrooted hto' fun heq =>
    absurd heq hc
  have hsane : Sane (pe.log ++ [.rooted c (msg.numbered root obj.lastBcast)]) :=
    Whole.sane (.one rfl rfl) hat
  have hinvoked :=
    (ht.record (e := .rooted c (msg.numbered root obj.lastBcast)) ⟨rfl, rfl⟩).record
    (e := .invoked c root (msg.numbered root obj.lastBcast))
    (apart_invoked fun hall => hc hall.1)
  have hdone :=
    ih _ (hlog.starts starts_record) trivial hentered hsane.inside trivial hinvoked
  exact Turn.record hdone ⟨rfl, rfl⟩

/-- `try_deliver` gave the message back: it goes to the end of the deque. -/
theorem turn_nowBuffer (hrun : X.Runs me (.attempt c msg) pe false pe₁)
    (ih : X.KeepsTurn cid idx mapper me (.attempt c msg) pe false pe₁) :
    X.KeepsTurn cid idx mapper me (.now c msg) pe true (pe₁.modify c (·.buffer msg)) := by
  intro stage hlog hproper hh hat _ ht
  have hdone := ih _ hlog hproper hh hat trivial ht
  obtain ⟨rfl, col', hcol', hctor, hnone, _⟩ := hrun.failed
  by_cases hsend : msg.SendTo cid idx
  · obtain rfl := hproper.1.eq hsend.1
    obtain rfl := hsend.2.1
    rw [Task.givesBack, Task.send, if_pos hsend] at hdone
    exact Turn.buffer hdone hcol' (by rw [← hnone]; exact chareAt_of_table hcol')
  · rw [Task.givesBack, Task.send, if_neg hsend] at hdone
    refine Turn.modify hdone (queue_buffer_ne fun h => hsend ?_)
      (congrArg _ (chareAt_same fun _ => rfl))
    exact ⟨h.1 ▸ hproper.1, h.2, hctor⟩

/-- A drain is not inside an entry function of the element. -/
theorem turn_drainCons (hfront : pe.collectiveBuffer c = msg :: rest)
    (hrun₁ : X.Runs me (.now c msg)
      { pe with collectiveBuffer := Function.update pe.collectiveBuffer c rest } true pe₁)
    (hrun₂ : X.Runs me (.drain c) pe₁ true pe₂)
    (ih₁ : X.KeepsTurn cid idx mapper me (.now c msg)
      { pe with collectiveBuffer := Function.update pe.collectiveBuffer c rest } true pe₁)
    (ih₂ : X.KeepsTurn cid idx mapper me (.drain c) pe₁ true pe₂) :
    X.KeepsTurn cid idx mapper me (.drain c) pe true pe₂ := by
  intro stage hlog _ hh hat hready ht
  have hmem : msg ∈ pe.collectiveBuffer c := by rw [hfront]; exact List.mem_cons_self
  have hto := hh.waiting c msg hmem
  have hplain := hh.plain.waiting c msg hmem
  obtain rfl : stage = .outside := hready
  have hlog₁ := hlog.starts hrun₂.whole.starts
  have hstart : Turn cid idx .outside ((Task.now c msg).send cid idx)
      { pe with collectiveBuffer := Function.update pe.collectiveBuffer c rest } := by
    by_cases hsend : msg.SendTo cid idx
    · obtain rfl := hto.eq hsend.1
      rw [Task.send, if_pos hsend]
      exact ht.take hsend hfront hat
    · rw [Task.send, if_neg hsend]
      exact ht.silent rfl rfl rfl (waitingFor_take hsend hfront)
  have hdone := ih₁ _ hlog₁ ⟨hto, hplain⟩ (hh.take hfront) (Idle.sane hat) trivial hstart
  exact ih₂ _ hlog trivial (hrun₁.hosted hlog₁.toElementsOnly ⟨hto, hplain⟩ (hh.take hfront)).1
    (hrun₁.whole.idle hat) rfl hdone

end Cases

/-- **The sends to an element stay in their turn.** -/
theorem Runs.turn (hkeeps : X.KeepsIndex cid) (h : X.Runs me task pe done pe')
    (hhome : X.peFor mapper idx = me) : X.KeepsTurn cid idx mapper me task pe done pe' := by
  induction h with
  | flushEmpty hcol hempty => exact turn_flushEmpty hcol hempty
  | flushFront hcol hfront hrun₁ hrun₂ ih₁ ih₂ =>
    exact turn_flushFront hcol hfront hrun₁ hrun₂ ih₁ ih₂
  | flushStop hcol hfront hrun ih => exact turn_flushStop hcol hfront hrun ih
  | construct hcol hctor hhere hrun₁ hrun₂ ih₁ ih₂ =>
    exact turn_construct hkeeps hcol hctor hhere hrun₁ hrun₂ ih₁ ih₂
  | absent => exact fun _ _ _ _ _ _ ht => ht.record ⟨rfl, rfl⟩
  | forward hcol haway _ => exact turn_forward hhome hcol haway
  | present hcol hctor hch _ ih =>
    intro _ hlog hproper hh hat _ ht
    exact ih _ hlog ⟨hproper.1, hproper.2, rfl, hh.send hcol hctor hch⟩ (hh.record rfl)
      (Whole.sane (.one rfl rfl) hat) trivial (ht.record ⟨rfl, rfl⟩)
  | inOrder _ _ hb _ _ hrun₁ hrun₂ ih₁ ih₂ => exact turn_inOrder hb hrun₁ hrun₂ ih₁ ih₂
  | outOfOrder _ _ hb _ => exact turn_outOfOrder hb
  | plain hcol hch _ _ ih => exact turn_plain hcol hch ih
  | callsNil => exact fun _ _ _ _ _ _ ht => ht
  | callsCons hrun₁ hrun₂ ih₁ ih₂ => exact turn_callsCons hrun₁ hrun₂ ih₁ ih₂
  | callInsert hrun ih | callSend hrun ih | callCmkSend hrun ih =>
    exact turn_issued hrun ih
  | callCollective | callGroup =>
    exact fun _ _ _ _ _ _ ht => ht.event ⟨rfl, rfl⟩ rfl rfl rfl rfl
  | endpointAbsent _ => exact fun _ hlog _ _ _ _ ht => ht.absent hhome hlog.toOnceOnly
  | endpointNow _ hrun ih => exact turn_endpointNow hhome hrun ih
  | endpointLater => exact fun _ _ _ _ _ _ ht => ht.silent rfl rfl rfl rfl
  | nowRootAbsent _ hbcast _ _ => exact turn_nowRootAbsent hbcast
  | nowRootNext _ hbcast _ _ _ _ hrun₁ hrun₂ ih₁ ih₂ =>
    exact turn_nowRootNext hbcast hrun₁ hrun₂ ih₁ ih₂
  | nowRootWrapped _ hbcast _ _ _ _ ih => exact turn_nowRootWrapped hbcast ih
  | nowDone _ _ _ ih =>
    exact fun _ hlog hproper hh hat _ ht => ih _ hlog hproper hh hat trivial ht
  | nowBuffer _ _ hrun ih => exact turn_nowBuffer hrun ih
  | drainNil => exact fun _ _ _ _ _ _ ht => ht
  | drainCons hfront hrun₁ hrun₂ ih₁ ih₂ => exact turn_drainCons hfront hrun₁ hrun₂ ih₁ ih₂

end Machine

end CharmExperiments.Charmlite
