import CharmExperiments.Lib.Transition

/-!
# What a system can still do

`Leads` relates a state to those that some actions lead to. A goal can be reached from
every state that an invariant admits when each of them that is not at the goal leads to
another one that is nearer to it (`leads_to_goal`). This is freedom from deadlock and
from livelock in one: whatever happened so far, the goal has not become impossible.
-/

namespace CharmExperiments.Lib

namespace Transition

variable {σ α : Type} {T : Transition σ α}

/-- Some actions lead from `s` to `s'`. -/
def Leads (T : Transition σ α) (s s' : σ) : Prop := ∃ as, T.run s as = some s'

theorem Leads.refl (s : σ) : T.Leads s s := ⟨[], rfl⟩

theorem Leads.head {s t s' : σ} {a : α} (hstep : T.step s a = some t) (h : T.Leads t s') :
    T.Leads s s' := by
  obtain ⟨as, has⟩ := h
  refine ⟨a :: as, ?_⟩
  rw [run, List.foldlM_cons, hstep]
  exact has

theorem Leads.single {s s' : σ} {a : α} (hstep : T.step s a = some s') : T.Leads s s' :=
  .head hstep (.refl s')

theorem Leads.trans {s t s' : σ} (h : T.Leads s t) (h' : T.Leads t s') :
    T.Leads s s' := by
  obtain ⟨as, has⟩ := h
  induction as generalizing s with
  | nil =>
    obtain rfl := Option.some.inj has
    exact h'
  | cons a as ih =>
    rw [run, List.foldlM_cons] at has
    obtain ⟨u, hstep, hrest⟩ := Option.bind_eq_some_iff.mp has
    exact .head hstep (ih hrest)

theorem Leads.reachable {s s' : σ} (h : T.Leads s s')
    (hs : T.Reachable (fun _ _ => True) s) :
    T.Reachable (fun _ _ => True) s' := by
  obtain ⟨as, has⟩ := h
  exact run_reachable as (fun _ _ _ => trivial) hs has

/-- **A goal that every state can get nearer to can be reached.** `I n` admits the states
that are at most `n` away. -/
theorem leads_to_goal {I : Nat → σ → Prop} {goal : σ → Prop}
    (h : ∀ n s, I n s → goal s ∨ ∃ m s', m < n ∧ T.Leads s s' ∧ I m s') :
    ∀ n s, I n s → ∃ s', T.Leads s s' ∧ goal s' := by
  intro n
  induction n using Nat.strongRecOn with
  | ind n ih =>
    intro s hs
    rcases h n s hs with hgoal | ⟨m, t, hlt, hst, ht⟩
    · exact ⟨s, .refl s, hgoal⟩
    · obtain ⟨s', hts', hgoal⟩ := ih m hlt t ht
      exact ⟨s', hst.trans hts', hgoal⟩

end Transition

end CharmExperiments.Lib
