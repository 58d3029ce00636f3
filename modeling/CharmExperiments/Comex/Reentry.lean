import CharmExperiments.Comex.Turns

/-!
# Calls that come back

A wiring with a cycle relays an output back to the component whose action
produced it, while it is still active and an iterator to the set it staged is
held. `Harmless` is what such a call may do: it does not run the action of a
component that is not persistent, it puts no set into the deque, and it stages a
set that is not staged already; and a set is erased from the middle only when no
other is staged.

Then a component that is not persistent runs its action at most once for each
`activate`, and `stage_action` erases the set it staged (`staged_once`). A cycle
through two components shows the first to fail (`acts_twice`).
-/

namespace CharmExperiments.Comex

open CharmExperiments.Lib

variable {σ V : Type}

/-- A value at `port` does no harm to a component inside its own `stage_action`. -/
def Admits (K : Class σ V) (l : Local σ V) (port : Nat) (val : V) : Prop :=
  if K.nInputs = 1 then K.persistent = true
  else
    match l.com.findGap port with
    | none => False
    | some (id, set) =>
      isReady K (Function.update set port (some val)) = true →
        K.persistent = true ∧ id ∉ (held l.frames).map (·.id)

/-- The calls that come back to a component do no harm. -/
def Harmless (K : Class σ V) (l : Local σ V) : Turn V → Prop
  | .accept port (some val) => Staging l.frames → Admits K l port val
  | .resume =>
    match l.frames with
    | .staging (some it) [] :: fs => held fs = [] ∨ l.com.incoming.AtEnd it.id
    | _ => True
  | _ => True

instance (K : Class σ V) (l : Local σ V) (port : Nat) (val : V) :
    Decidable (Admits K l port val) :=
  if h : K.nInputs = 1 then
    decidable_of_iff (K.persistent = true) (by rw [Admits, if_pos h])
  else
    match hgap : l.com.findGap port with
    | none => .isFalse (by rw [Admits, if_neg h, hgap]; exact id)
    | some (id, set) =>
      decidable_of_iff (isReady K (Function.update set port (some val)) = true →
        K.persistent = true ∧ id ∉ (held l.frames).map (·.id))
        (by rw [Admits, if_neg h, hgap])

instance (K : Class σ V) (l : Local σ V) (t : Turn V) : Decidable (Harmless K l t) :=
  match t with
  | .accept port (some val) =>
    inferInstanceAs (Decidable (Staging l.frames → Admits K l port val))
  | .accept _ none => .isTrue trivial
  | .activate => .isTrue trivial
  | .outputTo _ _ _ => .isTrue trivial
  | .resume =>
    match hfs : l.frames with
    | .staging (some it) [] :: fs =>
      decidable_of_iff (held fs = [] ∨ l.com.incoming.AtEnd it.id)
        (by simp only [Harmless, hfs])
    | .staging (some _) (_ :: _) :: _ => .isTrue (by simp only [Harmless, hfs])
    | .staging none _ :: _ => .isTrue (by simp only [Harmless, hfs])
    | .activating :: _ => .isTrue (by simp only [Harmless, hfs])
    | .flushing _ _ :: _ => .isTrue (by simp only [Harmless, hfs])
    | [] => .isTrue (by simp only [Harmless, hfs])

/-- What is asked of a component at any point of a run. -/
structure StagedOnce (K : Class σ V) (l : Local σ V) : Prop where
  /-- The action has run at most once since the last `activate`. -/
  once : K.persistent = false → l.com.ran ≤ 1
  /-- When the set that was staged is erased, it is still there and goes alone. -/
  erases : ∀ it fs, l.frames = .staging (some it) [] :: fs →
    ∃ incoming, l.com.incoming.erase it = some incoming ∧
      it.id ∈ l.com.incoming.items.map Prod.fst ∧
      incoming.items = l.com.incoming.items.filter (·.1 ≠ it.id)

/-- The iterators held are valid and to different sets, a persistent component that
stages is active, and the action of one that is not persistent has not run while it
is active and idle. -/
structure Holds (K : Class σ V) (l : Local σ V) : Prop where
  valid : ∀ it ∈ held l.frames, l.com.incoming.Valid it
  distinct : ((held l.frames).map (·.id)).Nodup
  online : K.persistent = true → Staging l.frames → l.com.active = true
  once : K.persistent = false → l.com.ran ≤ 1
  idle : K.persistent = false → l.com.active = true → ¬ Staging l.frames → l.com.ran = 0

section Moves

variable {K : Class σ V} {l l' : Local σ V} {t : Turn V} {fs : List (Frame V)}

/-- A move that touches neither the deque nor the flags. -/
theorem holds_same (hi : Holds K l)
    (hvalid : ∀ it, l.com.incoming.Valid it → l'.com.incoming.Valid it)
    (hheld : held l'.frames = held l.frames) (hstaging : Staging l'.frames ↔
      Staging l.frames)
    (hran : l'.com.ran = l.com.ran) (hactive : l'.com.active = l.com.active) :
    Holds K l' where
  valid it hit := hvalid it (hi.valid it (hheld ▸ hit))
  distinct := hheld ▸ hi.distinct
  online hp hs := hactive ▸ hi.online hp (hstaging.mp hs)
  once hp := hran ▸ hi.once hp
  idle hp ha hs := hran ▸ hi.idle hp (hactive ▸ ha) fun h => hs (hstaging.mpr h)

/-- The action runs: at first, or again if the component is persistent. -/
theorem holds_act {c c' : Component σ V} {search : Option Deque.Iterator}
    {outs : List (Nat × Option V)} (hi : Holds K ⟨c, fs⟩)
    (hvalid : ∀ it ∈ held (.staging search outs :: fs), c'.incoming.Valid it)
    (hdistinct : ((held (.staging search outs :: fs)).map (·.id)).Nodup)
    (hactive : c.active = true) (hsame : c'.active = c.active) (hran : c'.ran = c.ran + 1)
    (hpers : Staging fs → K.persistent = true) :
    Holds K ⟨c', .staging search outs :: fs⟩ where
  valid := hvalid
  distinct := hdistinct
  online _ _ := hsame.trans hactive
  once hp := by
    have hidle : ¬ Staging fs := fun hs => by
      rw [hpers hs] at hp
      cases hp
    have hzero := hi.idle hp hactive hidle
    show c'.ran ≤ 1
    rw [hran, show c.ran = 0 from hzero]
  idle _ _ hs := absurd staging_cons hs

/-- After the outputs are delivered the component is active if it is persistent. -/
theorem holds_pop {c c' : Component σ V} {search : Option Deque.Iterator}
    (hi : Holds K ⟨c, .staging search [] :: fs⟩)
    (hvalid : ∀ it ∈ held fs, c'.incoming.Valid it) (hactive : c'.active = K.persistent)
    (hran : c'.ran = c.ran) : Holds K ⟨c', fs⟩ where
  valid := hvalid
  distinct := by
    have hd := hi.distinct
    cases search with
    | none => exact hd
    | some it => exact (List.nodup_cons.mp hd).2
  online hp _ := hactive.trans hp
  once hp := hran ▸ hi.once hp
  idle hp ha _ := by
    rw [show c'.active = K.persistent from hactive, hp] at ha
    cases ha

/-- A component with nothing staged, whose deque may have changed. -/
theorem holds_idle {c c' : Component σ V} (hi : Holds K ⟨c, fs⟩) (hs : ¬ Staging fs)
    (hran : c'.ran = c.ran) (hactive : c'.active = c.active) : Holds K ⟨c', fs⟩ where
  valid it hit := by
    rw [show held fs = [] from held_eq_nil hs] at hit
    cases hit
  distinct := hi.distinct
  online _ h := absurd h hs
  once hp := hran ▸ hi.once hp
  idle hp ha h := hran ▸ hi.idle hp (hactive ▸ ha) h

/-- The set of a valid iterator that is not held is staged. -/
theorem holds_stage {c c' : Component σ V} {id : Nat} {outs : List (Nat × Option V)}
    (hi : Holds K ⟨c, fs⟩) (hids : id ∈ c.incoming.items.map Prod.fst)
    (hnew : id ∉ (held fs).map (·.id))
    (hvalid : ∀ it, c.incoming.Valid it → c'.incoming.Valid it)
    (hactive : c.active = true) (hsame : c'.active = c.active) (hran : c'.ran = c.ran + 1)
    (hpers : Staging fs → K.persistent = true) :
    Holds K ⟨c', .staging (some (c.incoming.iter id)) outs :: fs⟩ := by
  refine holds_act hi ?_ ?_ hactive hsame hran hpers
  · intro it hit
    rw [held_some] at hit
    rcases List.mem_cons.mp hit with rfl | hit
    · exact hvalid _ (Deque.iter_valid hids)
    · exact hvalid _ (hi.valid it hit)
  · rw [held_some, List.map_cons, List.nodup_cons]
    exact ⟨hnew, hi.distinct⟩

theorem findGap_mem {c : Component σ V} {port id : Nat} {set : InSet V}
    (h : c.findGap port = some (id, set)) : id ∈ c.incoming.items.map Prod.fst := by
  obtain ⟨_, left, right, heq, _⟩ := Deque.findBack_some h
  rw [heq]
  simp

theorem findReady_mem {c : Component σ V} {id : Nat} {set : InSet V}
    (h : c.findReady K = some (id, set)) : id ∈ c.incoming.items.map Prod.fst := by
  obtain ⟨_, left, right, heq, _⟩ := Deque.findFront_some h
  rw [heq]
  simp

/-- Every turn keeps the iterators valid, if the calls that come back do no harm. -/
theorem holds_move (hn : Nested l.frames) (hi : Holds K l) (hc : Harmless K l t)
    (h : Move K l t l') : Holds K l' := by
  cases h with
  | @direct c fs port val _ hone hactive =>
    have hpers : Staging fs → K.persistent = true := fun hs => by
      have hadmits : Admits K ⟨c, fs⟩ port val := hc hs
      rw [Admits, if_pos hone] at hadmits
      exact hadmits
    exact holds_act hi hi.valid hi.distinct hactive rfl rfl hpers
  | @buffered c fs port val _ hone hactive =>
    refine holds_idle hi (fun hs => ?_) rfl rfl
    have hadmits : Admits K ⟨c, fs⟩ port val := hc hs
    rw [Admits, if_pos hone] at hadmits
    -- an action in progress means online, and then the value is not buffered
    have honline : c.active = true := hi.online hadmits hs
    rw [hactive] at honline
    cases honline
  | @fresh c fs port val _ hone hgap =>
    refine holds_idle hi (fun hs => ?_) rfl rfl
    have hadmits : Admits K ⟨c, fs⟩ port val := hc hs
    rw [Admits, if_neg hone] at hadmits
    dsimp only at hadmits
    rw [hgap] at hadmits
    exact hadmits
  | fill _ _ _ _ =>
    exact holds_same hi (fun it hv => Deque.valid_write.mpr hv) rfl Iff.rfl rfl rfl
  | @complete c fs port val id set _ hone hgap hready hactive =>
    have hadmits : Staging fs → K.persistent = true ∧ id ∉ (held fs).map (·.id) :=
      fun hs => by
      have hadmits : Admits K ⟨c, fs⟩ port val := hc hs
      rw [Admits, if_neg hone] at hadmits
      dsimp only at hadmits
      rw [hgap] at hadmits
      exact hadmits hready
    refine holds_stage hi (findGap_mem hgap) ?_
      (fun it hv => Deque.valid_write.mpr (Deque.valid_write.mpr hv)) hactive rfl rfl
      fun hs => (hadmits hs).1
    by_cases hs : Staging fs
    · exact (hadmits hs).2
    · rw [held_eq_nil hs]
      exact List.not_mem_nil
  | activate _ =>
    refine ⟨fun it hit => ?_, List.nodup_nil, fun _ _ => rfl, fun _ => Nat.zero_le 1,
      fun _ _ _ => rfl⟩
    cases hit
  | connect _ => exact holds_same hi (fun it hv => hv) rfl Iff.rfl rfl rfl
  | connectFlush _ _ =>
    exact holds_same hi (fun it hv => hv) rfl
      (staging_tail rfl) rfl rfl
  | relay _ | hold _ =>
    refine holds_same hi (fun it hv => hv) ?_
      ⟨fun _ => staging_cons, fun _ => staging_cons⟩ rfl rfl
    rfl
  | staged => exact holds_pop hi hi.valid rfl rfl
  | @erased c fs it hv =>
    refine holds_pop hi (fun it' hit' => ?_) rfl rfl
    have hvalid : c.incoming.Valid it' := hi.valid it' (List.mem_cons_of_mem it hit')
    have hcond : held fs = [] ∨ c.incoming.AtEnd it.id := hc
    rcases hcond with hnil | hend
    · rw [hnil] at hit'
      cases hit'
    · -- an iterator held further down stays valid: it is not the one erased
      refine Deque.valid_without hvalid (fun heq => ?_) hend
      refine (List.nodup_cons.mp hi.distinct).1 ?_
      exact List.mem_map.mpr ⟨it', hit', heq⟩
  | @loop c fs id set hactive hready =>
    obtain rfl := hn.activating_last
    have hs : ¬ Staging [(.activating : Frame V)] := fun ⟨_, hmem, hf⟩ => by
      rw [List.mem_singleton.mp hmem] at hf
      cases hf
    refine holds_stage hi (findReady_mem hready) List.not_mem_nil
      (fun it hv => Deque.valid_write.mpr hv) hactive rfl rfl fun h => absurd h hs
  | exit _ =>
    exact holds_same hi (fun it hv => hv) rfl (staging_tail rfl).symm rfl rfl
  | flushed _ =>
    exact holds_same hi (fun it hv => hv) rfl (staging_tail rfl).symm rfl rfl
  | flush _ _ | pop =>
    exact holds_same hi (fun it hv => hv) rfl
      ((staging_tail rfl).trans (staging_tail rfl).symm)
      rfl rfl

end Moves

/-- Every call that comes back to its component does no harm. -/
def HarmlessSteps (K : Nat → Class σ V) (n : Network σ V) (a : Act V) : Prop :=
  match n.turn a with
  | none => True
  | some (com, t) => Harmless (K com) (n.view com) t

instance (K : Nat → Class σ V) (n : Network σ V) (a : Act V) :
    Decidable (HarmlessSteps K n a) :=
  match h : n.turn a with
  | none => .isTrue (by simp only [HarmlessSteps, h])
  | some (com, t) =>
    decidable_of_iff (Harmless (K com) (n.view com) t) (by simp only [HarmlessSteps, h])

/-- **A component that is not persistent runs its action at most once for each
`activate`, and `stage_action` erases the set it staged**, in every network and
after every run in which the calls that come back do no harm. -/
theorem staged_once {K : Nat → Class σ V} {typeOf : V → Option String} {n : Network σ V}
    (h : (system K typeOf).Reachable (HarmlessSteps K) n) (com : Nat) :
    StagedOnce (K com) (n.view com) := by
  have hlocal : (localSystem (K com) typeOf com).Reachable (Harmless (K com))
      (n.view com) := by
    refine Network.Reachable.view (fun n a t _ hc hturn => ?_) h
    rw [HarmlessSteps, hturn] at hc
    exact hc
  have hinit : Holds (K com) ⟨.new (K com), []⟩ :=
    ⟨fun _ hit => (by cases hit), List.nodup_nil, fun _ ⟨_, hf, _⟩ => (by cases hf),
      fun _ => Nat.zero_le 1, fun _ _ _ => rfl⟩
  have hholds :=
    (local_invariant hinit (fun _ _ _ hn hi hc hm => holds_move hn hi hc hm) hlocal).2
  refine ⟨hholds.once, fun it fs hfs => ?_⟩
  have hvalid : (n.view com).com.incoming.Valid it := by
    refine hholds.valid it ?_
    rw [hfs]
    exact List.mem_cons_self
  exact ⟨_, Deque.erase_eq hvalid, hvalid.2, rfl⟩

/-! ## Two components that call each other -/

/-- The two are wired in a cycle and active, and component 0 is given a value. -/
def aroundCycle : List (Act Nat) :=
  [.outputTo 0 0 1 0, .outputTo 1 0 0 0, .activate 1, .proceed,
    .accept 1 1 (some 5), .proceed, .activate 0, .proceed, .accept 0 0 (some 7), .proceed]

/-- The set that was staged is to be erased at an iterator that is not valid. -/
def staleErase (l : Local Unit Nat) : Bool :=
  match l.frames with
  | .staging (some it) [] :: _ => (l.com.incoming.erase it).isNone
  | _ => false

theorem staleErase_false {K : Class Unit Nat} {l : Local Unit Nat} (h : StagedOnce K l) :
    staleErase l = false := by
  unfold staleErase
  split
  next it fs hfs =>
    obtain ⟨incoming, herase, _⟩ := h.erases it fs hfs
    rw [herase]
    rfl
  next => rfl

/-- The output of component 0 comes back before `stage_action` has made it inactive,
so its action runs again; the set that this starts at component 1 invalidates the
iterator that `stage_action` holds there. -/
theorem acts_twice : ∃ n n' : Network Unit Nat,
    (system pair intType).run (.init pair) (aroundCycle ++ List.replicate 4 .proceed) =
    some n ∧
    (pair 0).persistent = false ∧ (n.components 0).ran = 2 ∧
    ¬ StagedOnce (pair 0) (n.view 0) ∧
    (system pair intType).run (.init pair) (aroundCycle ++ List.replicate 7 .proceed) =
    some n' ∧
    ¬ StagedOnce (pair 1) (n'.view 1) := by
  have hran : ((system pair intType).run (.init pair)
      (aroundCycle ++ List.replicate 4 .proceed)).map
        (fun n => (n.components 0).ran) = some 2 := by
    decide +kernel
  have hstale : ((system pair intType).run (.init pair)
      (aroundCycle ++ List.replicate 7 .proceed)).map (fun n => staleErase (n.view 1)) =
      some true := by
    decide +kernel
  obtain ⟨n, hrun, htwo⟩ := Option.map_eq_some_iff.mp hran
  obtain ⟨n', hrun', herase⟩ := Option.map_eq_some_iff.mp hstale
  refine ⟨n, n', hrun, rfl, htwo, fun h => ?_, hrun', fun h => ?_⟩
  · have honce : (n.components 0).ran ≤ 1 := h.once rfl
    omega
  · rw [staleErase_false h] at herase
    cases herase

/-- Component 0 with three inputs, its output wired to its own second input. -/
def selfLoop : Nat → Class Unit Nat := fun _ => forwarder 3 (by decide) true

/-- Two sets are started, the first is completed, and its output comes back. -/
def comesBack : List (Act Nat) :=
  [.outputTo 0 0 0 1, .activate 0, .proceed, .accept 0 0 (some 1), .proceed,
    .accept 0 0 (some 2), .proceed, .accept 0 1 (some 3), .proceed,
      .accept 0 2 (some 4)] ++
    List.replicate 4 .proceed

/-- The output comes back to the second set, which stays incomplete. -/
theorem staged_once_self : ∃ n : Network Unit Nat,
    (system selfLoop intType).follow (fun n a => decide (HarmlessSteps selfLoop n a))
      (.init selfLoop) comesBack = some n ∧
    (n.components 0).ran = 1 ∧ StagedOnce (selfLoop 0) (n.view 0) := by
  have hrun : ((system selfLoop intType).follow
    (fun n a => decide (HarmlessSteps selfLoop n a))
      (.init selfLoop) comesBack).map (fun n => (n.components 0).ran) = some 1 := by
    decide +kernel
  obtain ⟨n, hrun, hran⟩ := Option.map_eq_some_iff.mp hrun
  exact ⟨n, hrun, hran, staged_once (Transition.follow_reachable
    (fun _ _ hc => of_decide_eq_true hc) _ (.init rfl) hrun) 0⟩

end CharmExperiments.Comex
