import Mathlib.Logic.Relation

/-!
# Runs of a transition system

A system is a set of initial states and a partial step function on actions.
`Reachable C` is reachability by steps that meet a condition `C` on the state
before the step and the action, so that one system serves both the claims about
all its runs (`C` is always true) and those about the runs a condition cuts out.

`Reachable.invariant` is the induction every safety result goes through.
-/

namespace CharmExperiments.Lib

/-- A deterministic transition system with labelled steps. -/
structure Transition (σ α : Type) where
  init : σ → Prop
  step : σ → α → Option σ

namespace Transition

variable {σ α : Type}

/-- The states reached by steps that all meet `C`. -/
inductive Reachable (T : Transition σ α) (C : σ → α → Prop) : σ → Prop
  | init {s : σ} : T.init s → Reachable T C s
  | step {s s' : σ} {a : α} : Reachable T C s → C s a → T.step s a = some s' →
    Reachable T C s'

/-- What holds initially and is kept by every step that meets the condition
holds in every state reached. -/
theorem Reachable.invariant {T : Transition σ α} {C : σ → α → Prop} {I : σ → Prop}
    (hinit : ∀ s, T.init s → I s)
    (hstep : ∀ s a s', I s → C s a → T.step s a = some s' → I s') {s : σ}
    (h : T.Reachable C s) : I s := by
  induction h with
  | init h => exact hinit _ h
  | step _ hc hs ih => exact hstep _ _ _ ih hc hs

/-- A weaker condition reaches at least as much. -/
theorem Reachable.mono {T : Transition σ α} {C C' : σ → α → Prop}
    (hC : ∀ s a, C s a → C' s a) {s : σ} (h : T.Reachable C s) : T.Reachable C' s := by
  induction h with
  | init h => exact .init h
  | step _ hc hs ih => exact .step ih (hC _ _ hc) hs

/-- A list of actions, performed in order. -/
def run (T : Transition σ α) (s : σ) (as : List α) : Option σ :=
  as.foldlM T.step s

/-- A run by actions that always meet the condition reaches its last state. -/
theorem run_reachable {T : Transition σ α} {C : σ → α → Prop} :
    ∀ (as : List α) {s s' : σ}, (∀ a ∈ as, ∀ t, C t a) → T.Reachable C s →
      T.run s as = some s' → T.Reachable C s' := by
  intro as
  induction as with
  | nil =>
    intro s s' _ h hrun
    simp only [run, List.foldlM_nil, Option.pure_def, Option.some.injEq] at hrun
    exact hrun ▸ h
  | cons a as ih =>
    intro s s' hC h hrun
    simp only [run, List.foldlM_cons, Option.bind_eq_bind,
      Option.bind_eq_some_iff] at hrun
    obtain ⟨t, hstep, hrest⟩ := hrun
    exact ih (fun b hb => hC b (List.mem_cons_of_mem a hb))
      (.step h (hC a List.mem_cons_self s) hstep) hrest

/-- A list of actions, performed in order while they meet `p`. -/
def follow (T : Transition σ α) (p : σ → α → Bool) (s : σ) (as : List α) : Option σ :=
  as.foldlM (fun s a => if p s a then T.step s a else none) s

/-- What is reached by `follow` is reached by steps that meet the condition. -/
theorem follow_reachable {T : Transition σ α} {C : σ → α → Prop} {p : σ → α → Bool}
    (hp : ∀ s a, p s a = true → C s a) : ∀ (as : List α) {s s' : σ}, T.Reachable C s →
      T.follow p s as = some s' → T.Reachable C s' := by
  intro as
  induction as with
  | nil =>
    intro s s' h hrun
    obtain rfl := Option.some.inj hrun
    exact h
  | cons a as ih =>
    intro s s' h hrun
    simp only [follow, List.foldlM_cons, Option.bind_eq_bind,
      Option.bind_eq_some_iff] at hrun
    obtain ⟨t, hstep, hrest⟩ := hrun
    split at hstep
    next hpa => exact ih (.step h (hp s a hpa) hstep) hrest
    next => cases hstep

end Transition

end CharmExperiments.Lib
