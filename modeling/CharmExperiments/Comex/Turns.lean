import CharmExperiments.Comex.Network

/-!
# The turns of a component

`Move` has one constructor for each way a turn can go, with all that the code
has checked on that way; `step_move` reads it off `Local.step`, once for all the
invariants of a component. Its frames are nested as in `Nested`: only
`stage_action` is ever entered inside another member function.
-/

namespace CharmExperiments.Comex

open CharmExperiments.Lib

variable {σ V : Type}

/-- How a turn of a component goes. -/
inductive Move (K : Class σ V) : Local σ V → Turn V → Local σ V → Prop
  /-- One input: the value goes to the action, -/
  | direct {c fs port val} : port < K.nInputs → K.nInputs = 1 → c.active = true →
      Move K ⟨c, fs⟩ (.accept port (some val))
        ⟨(c.note port val).act K none (single 0 val),
          .staging none (c.outs K (single 0 val)) :: fs⟩
  /-- or waits. -/
  | buffered {c fs port val} : port < K.nInputs → K.nInputs = 1 → c.active = false →
      Move K ⟨c, fs⟩ (.accept port (some val))
        ⟨(c.note port val).bufferReadySet (single 0 val), fs⟩
  /-- More inputs: the value starts a set, -/
  | fresh {c fs port val} : port < K.nInputs → K.nInputs ≠ 1 → c.findGap port = none →
      Move K ⟨c, fs⟩ (.accept port (some val))
        ⟨(c.note port val).bufferReadySet (single port val), fs⟩
  /-- fills a gap, -/
  | fill {c fs port val id set} : port < K.nInputs → K.nInputs ≠ 1 →
      c.findGap port = some (id, set) →
      (isReady K (Function.update set port (some val)) = true → c.active = false) →
      Move K ⟨c, fs⟩ (.accept port (some val))
        ⟨(c.note port val).write id (Function.update set port (some val)), fs⟩
  /-- or completes a set. -/
  | complete {c fs port val id set} : port < K.nInputs → K.nInputs ≠ 1 →
      c.findGap port = some (id, set) →
      isReady K (Function.update set port (some val)) = true → c.active = true →
      Move K ⟨c, fs⟩ (.accept port (some val))
        ⟨((c.note port val).write id (Function.update set port (some val))).act K
            (some (c.incoming.iter id)) (Function.update set port (some val)),
          .staging (some (c.incoming.iter id))
            (c.outs K (Function.update set port (some val))) :: fs⟩
  | activate {c} : c.active = false →
      Move K ⟨c, []⟩ .activate ⟨c.online, [.activating]⟩
  | connect {c port peer peerPort} : c.active = false →
      Move K ⟨c, []⟩ (.outputTo port peer peerPort) ⟨c.connect port peer peerPort, []⟩
  | connectFlush {c port peer peerPort} : c.active = true →
    c.connectors port = .kInvalid →
      Move K ⟨c, []⟩ (.outputTo port peer peerPort)
        ⟨c.connect port peer peerPort, [.flushing port false]⟩
  | relay {c fs search port val outs com peerPort} :
    c.connectors port = .kWire com peerPort →
      Move K ⟨c, .staging search ((port, val) :: outs) :: fs⟩ .resume
        ⟨{ c with relayed := c.relayed ++ [(port, val)] }, .staging search outs :: fs⟩
  | hold {c fs search port val outs} : c.connectors port = .kInvalid →
      Move K ⟨c, .staging search ((port, val) :: outs) :: fs⟩ .resume
        ⟨{ c with buffer := Function.update c.buffer port (c.buffer port ++ [val]) },
          .staging search outs :: fs⟩
  | staged {c fs} :
      Move K ⟨c, .staging none [] :: fs⟩ .resume ⟨{ c with active := K.persistent }, fs⟩
  | erased {c fs it} : c.incoming.Valid it →
      Move K ⟨c, .staging (some it) [] :: fs⟩ .resume
        ⟨{ c with active := K.persistent, incoming := c.incoming.without it.id }, fs⟩
  /-- The loop of `activate` finds a complete set, -/
  | loop {c fs id set} : c.active = true → c.findReady K = some (id, set) →
      Move K ⟨c, .activating :: fs⟩ .resume
        ⟨c.act K (some (c.incoming.iter id)) set,
          .staging (some (c.incoming.iter id)) (c.outs K set) :: .activating :: fs⟩
  /-- or ends. -/
  | exit {c fs} : (c.active = true → c.findReady K = none) →
      Move K ⟨c, .activating :: fs⟩ .resume ⟨c, fs⟩
  | flushed {c fs port} : c.buffer port = [] →
      Move K ⟨c, .flushing port false :: fs⟩ .resume ⟨c, fs⟩
  | flush {c fs port val rest com peerPort} : c.buffer port = val :: rest →
      c.connectors port = .kWire com peerPort →
      Move K ⟨c, .flushing port false :: fs⟩ .resume
        ⟨{ c with
            buffer := Function.update c.buffer port (none :: rest)
            relayed := c.relayed ++ [(port, val)] }, .flushing port true :: fs⟩
  | pop {c fs port} :
      Move K ⟨c, .flushing port true :: fs⟩ .resume
        ⟨{ c with buffer := Function.update c.buffer port (c.buffer port).tail },
          .flushing port false :: fs⟩

section StepMove

variable {K : Class σ V} {typeOf : V → Option String} {com : Nat}

theorem accepts_lt {port : Nat} {ty : String} (h : Component.accepts K port ty = true) :
    port < K.nInputs := by
  rw [Component.accepts, Bool.and_eq_true, decide_eq_true_eq] at h
  exact h.1

theorem stageAction_active {c : Component σ V} (h : c.active = true)
    (search : Option Deque.Iterator) (set : InSet V) :
    c.stageAction K search set = (c.act K search set, [.staging search (c.outs K set)]) :=
      if_pos h

theorem stageAction_inactive {c : Component σ V} (h : c.active = false)
    (search : Option Deque.Iterator) (set : InSet V) :
    c.stageAction K search set = (c, []) :=
  if_neg (by rw [h]; exact Bool.false_ne_true)

/-- What an accepted value does. -/
theorem accept_move {c : Component σ V} {fs : List (Frame V)} {port : Nat} {val : V}
    (hlt : port < K.nInputs) :
    Move K ⟨c, fs⟩ (.accept port (some val))
      ⟨(c.accept K port val).1, (c.accept K port val).2 ++ fs⟩ := by
  unfold Component.accept
  dsimp only
  split
  next hone =>
    unfold Component.directStage
    split
    next hactive =>
      rw [stageAction_active hactive]
      exact .direct hlt hone hactive
    next hactive => exact .buffered hlt hone (Bool.eq_false_iff.mpr hactive)
  next hone =>
    split
    next hgap => exact .fresh hlt hone hgap
    next id set hgap =>
      split
      next hready =>
        have hsame : ((c.note port val).write id
          (Function.update set port (some val))).active =
            c.active := rfl
        cases hactive : c.active with
        | true =>
          rw [stageAction_active (hsame.trans hactive)]
          exact .complete hlt hone hgap hready hactive
        | false =>
          rw [stageAction_inactive (hsame.trans hactive)]
          exact .fill hlt hone hgap fun _ => hactive
      next hready => exact .fill hlt hone hgap fun h => absurd h hready

/-- What goes on in a member function. -/
theorem resume_move {c c' : Component σ V} {f : Frame V} {fs fs' : List (Frame V)}
    {r : Option (Relay V)} (h : c.resume K f = .ok (c', fs', r)) :
    Move K ⟨c, f :: fs⟩ .resume ⟨c', fs' ++ fs⟩ := by
  cases f with
  | staging search outs =>
    cases outs with
    | nil =>
      cases search with
      | none =>
        cases h
        exact .staged
      | some it =>
        unfold Component.resume at h
        dsimp only at h
        split at h
        next => cases h
        next incoming herase =>
          cases h
          -- what could be erased was valid
          obtain ⟨hv, rfl⟩ := Deque.erase_valid herase
          exact .erased hv
    | cons out outs =>
      obtain ⟨port, val⟩ := out
      unfold Component.resume at h
      dsimp only at h
      split at h
      next hcon =>
        cases h
        exact .relay hcon
      next hcon =>
        cases h
        exact .hold hcon
  | activating =>
    unfold Component.resume at h
    dsimp only at h
    split at h
    next hactive =>
      split at h
      next hnone =>
        cases h
        exact .exit fun _ => hnone
      next id set hready =>
        rw [stageAction_active hactive] at h
        cases h
        exact .loop hactive hready
    next hactive =>
      cases h
      exact .exit fun h => absurd h hactive
  | flushing port relayed =>
    cases relayed with
    | true =>
      cases h
      exact .pop
    | false =>
      unfold Component.resume at h
      dsimp only at h
      split at h
      next hbuf =>
        cases h
        exact .flushed hbuf
      next val rest hbuf =>
        split at h
        next => cases h
        next hcon =>
          cases h
          exact .flush hbuf hcon

/-- Every turn goes one of these ways. -/
theorem step_move {l l' : Local σ V} {t : Turn V} (h : l.step K typeOf com t = some l') :
    Move K l t l' := by
  obtain ⟨c, fs⟩ := l
  cases t with
  | accept port val =>
    obtain ⟨r, hr, rfl⟩ := Option.map_eq_some_iff.mp h
    cases val with
    | none => cases hr
    | some val =>
      unfold Component.baseAccept at hr
      dsimp only at hr
      split at hr
      next => cases hr
      next ty _ =>
        split at hr
        next haccepts =>
          cases hr
          exact accept_move (accepts_lt haccepts)
        next => cases hr
  | activate =>
    unfold Local.step at h
    dsimp only at h
    split at h
    next hfs =>
      obtain rfl := List.isEmpty_iff.mp hfs
      obtain ⟨r, hr, rfl⟩ := Option.map_eq_some_iff.mp h
      unfold Component.activate at hr
      split at hr
      next => cases hr
      next hactive =>
        cases hr
        exact .activate (Bool.eq_false_iff.mpr hactive)
    next => cases h
  | outputTo port peer peerPort =>
    unfold Local.step at h
    dsimp only at h
    split at h
    next hfs =>
      obtain rfl := List.isEmpty_iff.mp hfs
      obtain ⟨r, hr, rfl⟩ := Option.map_eq_some_iff.mp h
      unfold Component.outputTo at hr
      dsimp only at hr
      split at hr
      next => cases hr
      next hprev =>
        cases hr
        cases hactive : c.active with
        | true =>
          rw [if_pos (show (c.connect port peer peerPort).active = true from hactive)]
          -- a wire that was there already is refused
          refine .connectFlush hactive ?_
          cases hcon : c.connectors port with
          | kInvalid => rfl
          | kWire d p =>
            refine absurd ?_ hprev
            show (c.active && (c.connectors port).ready) = true
            rw [hactive, hcon]
            rfl
        | false =>
          rw [if_neg (show ¬ (c.connect port peer peerPort).active = true from
            fun h => by rw [show (c.connect port peer peerPort).active =
              c.active from rfl, hactive] at h; cases h)]
          exact .connect hactive
    next => cases h
  | resume =>
    unfold Local.step at h
    cases fs with
    | nil => cases h
    | cons f fs =>
      obtain ⟨⟨c', fs', r⟩, hr, rfl⟩ := Option.map_eq_some_iff.mp h
      cases hres : c.resume K f with
      | error e =>
        rw [hres] at hr
        cases hr
      | ok r' =>
        rw [hres] at hr
        cases hr
        exact resume_move hres

end StepMove

/-! ## How the frames are nested -/

/-- `activate` and `try_flush` are entered from outside, with no member function of
the component in progress. -/
inductive Nested : List (Frame V) → Prop
  | nil : Nested []
  | activating : Nested [.activating]
  | flushing {port relayed} : Nested [.flushing port relayed]
  | staging {search outs fs} : Nested fs → Nested (.staging search outs :: fs)

/-- The iterators that the `stage_action`s in progress hold. -/
def held (fs : List (Frame V)) : List Deque.Iterator :=
  fs.filterMap fun
    | .staging search _ => search
    | _ => none

def Frame.isStaging : Frame V → Bool
  | .staging _ _ => true
  | _ => false

/-- A `stage_action` is in progress. -/
def Staging (fs : List (Frame V)) : Prop := ∃ f ∈ fs, f.isStaging = true

instance (fs : List (Frame V)) : Decidable (Staging fs) :=
  inferInstanceAs (Decidable (∃ f ∈ fs, _))

section Shape

variable {K : Class σ V} {l l' : Local σ V} {t : Turn V}

/-- The innermost frame is the only one if it is not of `stage_action`. -/
theorem Nested.activating_last {fs : List (Frame V)} (h : Nested (.activating :: fs)) :
    fs = [] := by
  cases h
  rfl

theorem Nested.flushing_last {fs : List (Frame V)} {port : Nat} {relayed : Bool}
    (h : Nested (.flushing port relayed :: fs)) : fs = [] := by
  cases h
  rfl

theorem nested_move (hn : Nested l.frames) (h : Move K l t l') : Nested l'.frames := by
  cases h with
  | direct | complete => exact .staging hn
  | buffered | fresh | fill => exact hn
  | activate => exact .activating
  | connect => exact .nil
  | connectFlush => exact .flushing
  | relay | hold =>
    cases hn with
    | staging hn => exact .staging hn
  | staged | erased =>
    cases hn with
    | staging hn => exact hn
  | loop =>
    obtain rfl := hn.activating_last
    exact .staging .activating
  | exit =>
    obtain rfl := hn.activating_last
    exact .nil
  | flushed =>
    obtain rfl := hn.flushing_last
    exact .nil
  | flush =>
    obtain rfl := hn.flushing_last
    exact .flushing
  | pop =>
    obtain rfl := hn.flushing_last
    exact .flushing

section Frames

variable {fs : List (Frame V)}

theorem staging_cons {search : Option Deque.Iterator} {outs : List (Nat × Option V)} :
    Staging (.staging search outs :: fs) := ⟨_, List.mem_cons_self, rfl⟩

/-- With nothing staged no iterator is held. -/
theorem held_eq_nil (h : ¬ Staging fs) : held fs = [] := by
  rw [held, List.filterMap_eq_nil_iff]
  intro f hf
  cases f with
  | staging search outs => exact absurd ⟨_, hf, rfl⟩ h
  | activating => rfl
  | flushing port relayed => rfl

theorem staging_tail {f : Frame V} (hf : f.isStaging = false) : Staging (f :: fs) ↔
    Staging fs := by
  constructor
  · rintro ⟨g, hmem, hg⟩
    rcases List.mem_cons.mp hmem with rfl | hmem
    · rw [hf] at hg
      cases hg
    · exact ⟨g, hmem, hg⟩
  · rintro ⟨g, hmem, hg⟩
    exact ⟨g, List.mem_cons_of_mem f hmem, hg⟩

theorem held_some {it : Deque.Iterator} {outs : List (Nat × Option V)} :
    held (.staging (some it) outs :: fs) = it :: held fs := rfl

end Frames

/-- **What every turn keeps holds of the component** in every run of it. -/
theorem local_invariant {typeOf : V → Option String} {com : Nat}
    {C : Local σ V → Turn V → Prop} {I : Local σ V → Prop} (hinit : I ⟨.new K, []⟩)
    (hmove : ∀ l t l', Nested l.frames → I l → C l t → Move K l t l' → I l')
    (h : (localSystem K typeOf com).Reachable C l) : Nested l.frames ∧ I l := by
  refine Transition.Reachable.invariant (I := fun l => Nested l.frames ∧ I l) ?_ ?_ h
  · intro l hl
    obtain rfl := hl
    exact ⟨.nil, hinit⟩
  · intro l t l' ⟨hn, hi⟩ hc hs
    exact ⟨nested_move hn (step_move hs), hmove l t l' hn hi hc (step_move hs)⟩

end Shape

end CharmExperiments.Comex
