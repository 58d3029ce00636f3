import CharmExperiments.Comex.Component
import CharmExperiments.Lib.Transition

/-!
# Components in one locality

The components of `archive/tests/comex` call each other through `locality_`: a
relay is a call of the peer's `accept`, which returns when everything it set off
has returned. `stack` has the calls in progress, innermost first. A step is a
call from outside when there is none, or goes on with the innermost.

Only the component of the innermost call changes in a step. So what a network
does to one component is a run of `local`, the component with its own frames
(`Reachable.view`), and the results about one component are proved there.
-/

namespace CharmExperiments.Comex

open CharmExperiments.Lib

/-- A call in progress. -/
inductive Pending (V : Type)
  /-- `locality_::accept`, about to be entered. -/
  | call (com port : Nat) (val : Option V)
  | frame (com : Nat) (f : Frame V)

/-- The component that is called. -/
def Pending.com {V : Type} : Pending V → Nat
  | .call com _ _ => com
  | .frame com _ => com

/-- `exchanger::components_`, and the calls in progress. -/
structure Network (σ V : Type) where
  components : Nat → Component σ V
  stack : List (Pending V)

/-- What happens to one component in a step. -/
inductive Turn (V : Type)
  | accept (port : Nat) (val : Option V)
  | activate
  | outputTo (port peer peerPort : Nat)
  | resume

/-- A call from outside, or the next step of those in progress. -/
inductive Act (V : Type)
  | accept (com port : Nat) (val : Option V)
  | activate (com : Nat)
  | outputTo (com port peer peerPort : Nat)
  | proceed

variable {σ V : Type}

/-- A component with what is left of its member functions, innermost first. -/
structure Local (σ V : Type) where
  com : Component σ V
  frames : List (Frame V)

namespace Network

variable (K : Nat → Class σ V) (typeOf : V → Option String)

/-- All components are new, and no call is in progress. -/
def init : Network σ V := ⟨fun com => .new (K com), []⟩

/-- The call that a relay makes. -/
def relayed : Option (Relay V) → List (Pending V)
  | none => []
  | some r => [.call r.com r.port r.val]

/-- Component `com` has changed to `c`; its frames `fs` and the call it makes are
on the stack over `rest`. -/
def put (n : Network σ V) (com : Nat) (c : Component σ V) (fs : List (Frame V))
    (r : Option (Relay V)) (rest : List (Pending V)) : Network σ V :=
  ⟨Function.update n.components com c, relayed r ++ fs.map (.frame com) ++ rest⟩

/-- Enters a call, or goes on with the innermost. -/
def proceed (n : Network σ V) : Pending V → List (Pending V) →
    Except Failure (Network σ V)
  | .call com port val, rest => do
    let (c, fs) ← (n.components com).baseAccept (K com) typeOf com port val
    return n.put com c fs none rest
  | .frame com f, rest => do
    let (c, fs, r) ← (n.components com).resume (K com) f
    return n.put com c fs r rest

/-- A call from outside. -/
def enter (n : Network σ V) : Act V → Except Failure (Network σ V)
  | .accept com port val => return { n with stack := [.call com port val] }
  | .activate com => do
    let (c, fs) ← (n.components com).activate
    return n.put com c fs none []
  | .outputTo com port peer peerPort => do
    let (c, fs) ← (n.components com).outputTo port peer peerPort
    return n.put com c fs none []
  | .proceed => return n

/-- One step. -/
def step (n : Network σ V) (a : Act V) : Option (Network σ V) :=
  match n.stack with
  | [] => (n.enter a).toOption
  | top :: rest =>
    match a with
    | .proceed => (n.proceed K typeOf top rest).toOption
    | _ => none

/-- The frames of `com` on a stack. -/
def framesOf (com : Nat) (stack : List (Pending V)) : List (Frame V) :=
  stack.filterMap fun
    | .call _ _ _ => none
    | .frame d f => if d = com then some f else none

/-- Component `com` with its own frames. -/
def view (n : Network σ V) (com : Nat) : Local σ V :=
  ⟨n.components com, framesOf com n.stack⟩

/-- The component that a step is about, and what it does there. -/
def turn (n : Network σ V) : Act V → Option (Nat × Turn V)
  | .accept _ _ _ => none
  | .activate com => some (com, .activate)
  | .outputTo com port peer peerPort => some (com, .outputTo port peer peerPort)
  | .proceed =>
    match n.stack with
    | [] => none
    | .call com port val :: _ => some (com, .accept port val)
    | .frame com _ :: _ => some (com, .resume)

end Network

/-- The components of one locality as a transition system. -/
def system (K : Nat → Class σ V) (typeOf : V → Option String) :
    Transition (Network σ V) (Act V) where
  init n := n = .init K
  step := Network.step K typeOf

/-! ## One component of a network -/

namespace Local

variable (K : Class σ V) (typeOf : V → Option String)

/-- A turn of the component of number `com`. Calls from outside come when the
component has no frames. -/
def step (com : Nat) (l : Local σ V) : Turn V → Option (Local σ V)
  | .accept port val =>
    (l.com.baseAccept K typeOf com port val).toOption.map fun r => ⟨r.1, r.2 ++ l.frames⟩
  | .activate =>
    if l.frames.isEmpty then l.com.activate.toOption.map fun r => ⟨r.1, r.2⟩ else none
  | .outputTo port peer peerPort =>
    if l.frames.isEmpty then
      (l.com.outputTo port peer peerPort).toOption.map fun r => ⟨r.1, r.2⟩
    else none
  | .resume =>
    match l.frames with
    | [] => none
    | f :: rest => (l.com.resume K f).toOption.map fun r => ⟨r.1, r.2.1 ++ rest⟩

end Local

/-- One component as a transition system. -/
def localSystem (K : Class σ V) (typeOf : V → Option String) (com : Nat) :
    Transition (Local σ V) (Turn V) where
  init l := l = ⟨.new K, []⟩
  step := Local.step K typeOf com

namespace Network

section FramesOf

variable {com d : Nat} {top rest : List (Pending V)} {fs : List (Frame V)}

theorem framesOf_append : framesOf com (top ++ rest) = framesOf com top ++
    framesOf com rest :=
  List.filterMap_append

theorem framesOf_self : framesOf com (fs.map (.frame com)) = fs := by
  rw [framesOf, List.filterMap_map]
  refine (List.filterMap_congr fun f _ => ?_).trans List.filterMap_some
  exact if_pos rfl

theorem framesOf_other (hne : d ≠ com) : framesOf com (fs.map (.frame d)) = [] := by
  rw [framesOf, List.filterMap_map, List.filterMap_eq_nil_iff]
  intro f _
  exact if_neg hne

theorem framesOf_relayed (r : Option (Relay V)) : framesOf com (relayed r) = [] := by
  cases r <;> rfl

theorem framesOf_cons_self (f : Frame V) :
    framesOf com (.frame com f :: rest) = f :: framesOf com rest :=
  List.filterMap_cons_some (if_pos rfl)

theorem framesOf_cons_other (hne : d ≠ com) (f : Frame V) :
    framesOf com (.frame d f :: rest) = framesOf com rest :=
  List.filterMap_cons_none (if_neg hne)

end FramesOf

section Turns

variable {K : Nat → Class σ V} {typeOf : V → Option String}
  {n n' : Network σ V} {a : Act V}
  {com : Nat}

/-- After a step about `d` the frames of another component are as they were. -/
theorem view_put_other {c : Component σ V} {d : Nat} {r : Option (Relay V)}
    {fs : List (Frame V)}
    {rest : List (Pending V)} (hne : d ≠ com)
    (hrest : framesOf com rest = framesOf com n.stack) :
    (n.put d c fs r rest).view com = n.view com := by
  show (⟨_, _⟩ : Local σ V) = ⟨_, _⟩
  congr 1
  · exact Function.update_of_ne hne.symm _ _
  · show framesOf com (relayed r ++ fs.map (.frame d) ++ rest) = _
    rw [framesOf_append, framesOf_append, framesOf_relayed, framesOf_other hne, hrest]
    rfl

theorem view_put_self {c : Component σ V} {r : Option (Relay V)} {fs : List (Frame V)}
    {rest : List (Pending V)} :
    (n.put com c fs r rest).view com = ⟨c, fs ++ framesOf com rest⟩ := by
  show (⟨_, _⟩ : Local σ V) = ⟨_, _⟩
  congr 1
  · exact Function.update_self _ _ _
  · show framesOf com (relayed r ++ fs.map (.frame com) ++ rest) = _
    rw [framesOf_append, framesOf_append, framesOf_relayed, framesOf_self]
    rfl

/-- A result comes from a result of the first part. -/
theorem bind_toOption {ε α β : Type} {x : Except ε α} {f : α → Except ε β} {y : β}
    (h : (x >>= f).toOption = some y) : ∃ a, x = .ok a ∧ (f a).toOption = some y := by
  cases x with
  | error e => cases h
  | ok a => exact ⟨a, rfl, h⟩

/-- A step either leaves a component alone or is a turn of it. -/
theorem step_view (h : n.step K typeOf a = some n') (com : Nat) :
    (∃ t, n.turn a = some (com, t) ∧
      (n.view com).step (K com) typeOf com t = some (n'.view com)) ∨
    n'.view com = n.view com := by
  unfold Network.step at h
  split at h
  next hstack =>
    have hnil : ∀ d, framesOf d n.stack = [] := fun d => by rw [hstack]; rfl
    cases a with
    | accept d port val =>
      obtain rfl := Option.some.inj h
      refine Or.inr ?_
      show (⟨_, _⟩ : Local σ V) = ⟨_, _⟩
      rw [hnil]
      rfl
    | activate d =>
      obtain ⟨⟨c, fs⟩, hc, h⟩ := bind_toOption h
      obtain rfl := Option.some.inj h
      by_cases hd : d = com
      · subst hd
        refine Or.inl ⟨.activate, rfl, ?_⟩
        rw [view_put_self]
        simp only [Local.step, view, hnil, hc, List.isEmpty_nil, if_true]
        simp [Except.toOption, framesOf]
      · exact Or.inr (view_put_other hd (by rw [hnil]; rfl))
    | outputTo d port peer peerPort =>
      obtain ⟨⟨c, fs⟩, hc, h⟩ := bind_toOption h
      obtain rfl := Option.some.inj h
      by_cases hd : d = com
      · subst hd
        refine Or.inl ⟨.outputTo port peer peerPort, rfl, ?_⟩
        rw [view_put_self]
        simp only [Local.step, view, hnil, hc, List.isEmpty_nil, if_true]
        simp [Except.toOption, framesOf]
      · exact Or.inr (view_put_other hd (by rw [hnil]; rfl))
    | proceed =>
      obtain rfl := Option.some.inj h
      exact Or.inr rfl
  next top rest hstack =>
    split at h
    next =>
      cases top with
      | call d port val =>
        obtain ⟨⟨c, fs⟩, hc, h⟩ := bind_toOption h
        obtain rfl := Option.some.inj h
        -- the call itself is a frame of no component
        have hrest : framesOf com rest = framesOf com n.stack := by
          rw [hstack]
          rfl
        by_cases hd : d = com
        · subst hd
          refine Or.inl ⟨.accept port val, by simp only [turn, hstack], ?_⟩
          rw [view_put_self, Local.step, show (n.view d).com =
            n.components d from rfl, hc, hrest]
          rfl
        · exact Or.inr (view_put_other hd hrest)
      | frame d f =>
        obtain ⟨⟨c, fs, r⟩, hc, h⟩ := bind_toOption h
        obtain rfl := Option.some.inj h
        by_cases hd : d = com
        · subst hd
          refine Or.inl ⟨.resume, by simp only [turn, hstack], ?_⟩
          rw [view_put_self]
          simp only [Local.step, view, hstack, framesOf_cons_self, hc]
          rfl
        · exact Or.inr (view_put_other hd (by rw [hstack, framesOf_cons_other hd]))
    next => cases h

/-- **What a network does to one component** is a run of that component. `LC` is
what is known of its turns. -/
theorem Reachable.view {C : Network σ V → Act V → Prop} {LC : Local σ V → Turn V → Prop}
    (hC : ∀ n a t, (system K typeOf).Reachable C n → C n a → n.turn a = some (com, t) →
      LC (n.view com) t)
    (h : (system K typeOf).Reachable C n) :
    (localSystem (K com) typeOf com).Reachable LC (n.view com) := by
  induction h with
  | init h =>
    obtain rfl := h
    exact .init rfl
  | step hr hc hs ih =>
    rcases step_view hs com with ⟨t, hturn, hlocal⟩ | hsame
    · exact .step ih (hC _ _ _ hr hc hturn) hlocal
    · rw [hsame]
      exact ih

end Turns

end Network

/-! ## Small networks -/

/-- Components that send the value at their first input on. -/
def forwarder (nInputs : Nat) (inputs : 1 ≤ nInputs) (persistent : Bool) :
    Class Unit Nat where
  nInputs := nInputs
  nOutputs := 1
  inputs := inputs
  inTypes _ := "int"
  persistent := persistent
  start := ()
  action _ set := ((), set, fun _ => set 0)

/-- Component 0 sends what it receives to a component that only receives; both are
persistent or not. -/
def chain (persistent : Bool) : Nat → Class Unit Nat
  | 0 => forwarder 1 (by decide) persistent
  | _ => { forwarder 1 (by decide) persistent with nOutputs := 0 }

/-- Component 0 is not persistent; the second input of component 1 is fed from
outside. -/
def pair : Nat → Class Unit Nat
  | 0 => forwarder 1 (by decide) false
  | _ => forwarder 2 (by decide) true

def intType : Nat → Option String := fun _ => some "int"

end CharmExperiments.Comex
