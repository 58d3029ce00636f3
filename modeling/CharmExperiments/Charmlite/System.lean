import CharmExperiments.Lib.Transition
import CharmExperiments.Charmlite.CollectiveRuns

/-!
# All PEs and the network between them

The PEs with the messages given to Converse and not yet delivered. A step runs
one handler to its end, or one call of a proxy from program code outside entry
functions; what it sent is then under way. Messages arrive in any order, none
is lost or duplicated. A handler that does not return has no state after it.

Mirroring notes:
- A PE is a process of its own: `collective_table_` and `collective_buffer_` are
  plain statics.
-/

namespace CharmExperiments.Charmlite

open CharmExperiments.Lib

/-- The PEs, and the messages under way with the PE they are for. -/
structure System where
  pes : Nat → Pe
  net : List (Nat × Message)

namespace System

def init : System := ⟨fun _ => .init, []⟩

/-- PE `p` is done: what it sent is under way. -/
def settle (s : System) (p : Nat) (pe : Pe) : System :=
  ⟨Function.update s.pes p { pe with sent := [] }, s.net ++ pe.sent⟩

/-- The message at `j` is taken from the network. -/
def take (s : System) (j : Nat) : System := { s with net := s.net.eraseIdx j }

/-- A proxy is called on PE `p`, or the message at `j` is delivered. -/
inductive Action
  | call (p fuel : Nat) (c : Call)
  | deliver (j fuel : Nat)
deriving DecidableEq, Repr

variable (X : Machine)

/-- One step; `none` when it cannot be taken or does not return. -/
def step (s : System) : Action → Option System
  | .call p fuel c =>
    if p < X.numPes then
      match X.perform p fuel c (s.pes p) with
      | .ok pe => some (s.settle p pe)
      | .error _ => none
    else none
  | .deliver j fuel =>
    match s.net[j]? with
    | none => none
    | some (p, msg) =>
      if p < X.numPes then
        match X.deliver p fuel msg (s.pes p) with
        | .ok pe => some ((s.take j).settle p pe)
        | .error _ => none
      else none

end System

/-- The PEs of a machine as a transition system. -/
def Machine.system (X : Machine) : Transition System System.Action where
  init s := s = .init
  step := System.step X

namespace Machine

variable {X : Machine} {me : Nat}

/-- The collective a message asks for is made. -/
def create (X : Machine) (msg : Message) (pe : Pe) : Pe :=
  { pe with
    collectiveTable := Function.update pe.collectiveTable msg.collective
      (some (Collective.new (X.kinds msg.entry.id))) }

/-- The Converse handler ran to its end. -/
def Delivers (X : Machine) (me : Nat) (msg : Message) (pe pe' : Pe) : Prop :=
  if msg.collectiveKind then
    pe.collectiveTable msg.collective = none ∧
      X.Runs me (.drain msg.collective) (X.create msg pe) true pe'
  else X.Runs me (.endpoint true msg) pe true pe'

theorem deliver_sound {fuel : Nat} {msg : Message} {pe pe' : Pe}
    (h : X.deliver me fuel msg pe = .ok pe') : X.Delivers me msg pe pe' := by
  unfold deliver at h
  unfold Delivers
  by_cases hkind : msg.collectiveKind = true
  · rw [if_pos hkind] at h ⊢
    split at h
    next => cases h
    next hnone =>
      exact ⟨hnone, run_sound fuel (answer_eq_ok.mpr ⟨rfl, h⟩)⟩
  · rw [if_neg hkind] at h ⊢
    exact run_sound fuel (answer_eq_ok.mpr ⟨rfl, h⟩)

theorem deliver_complete {msg : Message} {pe pe' : Pe} (h : X.Delivers me msg pe pe') :
    ∃ fuel, X.deliver me fuel msg pe = .ok pe' := by
  unfold Delivers at h
  unfold deliver
  by_cases hkind : msg.collectiveKind = true
  · rw [if_pos hkind] at h
    obtain ⟨hnone, hrun⟩ := h
    obtain ⟨N, hN⟩ := run_complete hrun
    refine ⟨N, ?_⟩
    rw [if_pos hkind, hnone]
    exact (answer_eq_ok.mp (hN N (Nat.le_refl N))).2
  · rw [if_neg hkind] at h
    obtain ⟨N, hN⟩ := run_complete h
    refine ⟨N, ?_⟩
    rw [if_neg hkind]
    exact (answer_eq_ok.mp (hN N (Nat.le_refl N))).2

end Machine

variable {X : Machine}

/-- A call that returns can be made, -/
theorem System.step_call {s : System} {p : Nat} {c : Call} {pe : Pe} (hp : p < X.numPes)
    (h : X.Runs p (.call c) (s.pes p) true pe) :
    ∃ fuel, s.step X (.call p fuel c) = some (s.settle p pe) := by
  obtain ⟨N, hN⟩ := Machine.run_complete h
  have hret := (Machine.answer_eq_ok.mp (hN N (Nat.le_refl N))).2
  refine ⟨N, ?_⟩
  simp only [System.step, if_pos hp, hret]

/-- and so can a delivery. -/
theorem System.step_deliver {s : System} {j p : Nat} {msg : Message} {pe : Pe}
    (hj : s.net[j]? = some (p, msg)) (hp : p < X.numPes)
    (h : X.Delivers p msg (s.pes p) pe) :
    ∃ fuel, s.step X (.deliver j fuel) = some ((s.take j).settle p pe) := by
  obtain ⟨N, hN⟩ := Machine.deliver_complete h
  refine ⟨N, ?_⟩
  simp only [System.step, hj, if_pos hp, hN]

/-- What a step can do. -/
theorem System.step_cases {s s' : System} {a : System.Action} (h : s.step X a = some s') :
    (∃ p fuel c pe, a = .call p fuel c ∧ p < X.numPes ∧
      X.Runs p (.call c) (s.pes p) true pe ∧ s' = s.settle p pe) ∨
    (∃ j fuel p msg pe, a = .deliver j fuel ∧ s.net[j]? = some (p, msg) ∧ p < X.numPes ∧
      X.Delivers p msg (s.pes p) pe ∧ s' = (s.take j).settle p pe) := by
  cases a with
  | call p fuel c =>
    unfold System.step at h
    dsimp only at h
    split at h
    next hp =>
      split at h
      next pe hpe =>
        exact Or.inl ⟨p, fuel, c, pe, rfl, hp,
          Machine.run_sound fuel (Machine.answer_eq_ok.mpr ⟨rfl, hpe⟩),
            (Option.some.inj h).symm⟩
      next => cases h
    next => cases h
  | deliver j fuel =>
    unfold System.step at h
    dsimp only at h
    split at h
    next => cases h
    next p msg hj =>
      split at h
      next hp =>
        split at h
        next pe hpe =>
          exact Or.inr ⟨j, fuel, p, msg, pe, rfl, hj, hp, Machine.deliver_sound hpe,
            (Option.some.inj h).symm⟩
        next => cases h
      next => cases h

end CharmExperiments.Charmlite
