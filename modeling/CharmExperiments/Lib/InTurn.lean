import Mathlib.Data.List.Perm.Basic

/-!
# A line in which some go ahead

Arrivals form a line, which is served from its front. Those with `C` go to the
end of it when they arrive; the others may go in anywhere. So one with `C` stays
behind all that arrived before it (`InTurn`), and is served after them
(`InTurn.served`).

`arrived` and `line` are in order, and `line` holds those that were served too.
-/

namespace CharmExperiments.Lib

variable {α : Type} {C C' : α → Prop}
  {arrived line front rear before after : List α} {m x y : α}

/-- Everybody who arrived is in the line, and those with `C` in their turn. -/
structure InTurn (C : α → Prop) (arrived line : List α) : Prop where
  perm : line.Perm arrived
  behind : ∀ before y after, arrived = before ++ y :: after → C y →
    ∃ ahead rest, line = ahead ++ y :: rest ∧ before ⊆ ahead

/-- Where an element of a list with one more at the end is. -/
theorem split_snoc (h : arrived ++ [m] = before ++ y :: after) :
    (arrived = before ∧ m = y) ∨ ∃ rest, arrived = before ++ y :: rest := by
  rcases List.eq_nil_or_concat after with rfl | ⟨rest, z, rfl⟩
  · obtain ⟨hbefore, hlast⟩ := List.append_inj' h rfl
    exact Or.inl ⟨hbefore, (List.cons.inj hlast).1⟩
  · rw [List.concat_eq_append, ← List.cons_append, ← List.append_assoc] at h
    exact Or.inr ⟨rest, List.append_inj_left' h rfl⟩

theorem InTurn.nil : InTurn C ([] : List α) [] where
  perm := .refl _
  behind := by
    intro before y after h
    cases before <;> cases h

/-- Fewer of those who arrived need be in their turn. -/
theorem InTurn.imp (h : InTurn C arrived line) (hC : ∀ y ∈ arrived, C' y → C y) :
    InTurn C' arrived line where
  perm := h.perm
  behind := fun before y after heq hy =>
    h.behind before y after heq
      (hC y (heq ▸ List.mem_append_right _ List.mem_cons_self) hy)

/-- The next one goes to the end. -/
theorem InTurn.back (h : InTurn C arrived line) (m : α) :
    InTurn C (arrived ++ [m]) (line ++ [m]) where
  perm := h.perm.append_right [m]
  behind := by
    intro before y after heq hy
    rcases split_snoc heq with ⟨rfl, rfl⟩ | ⟨rest, hrest⟩
    · exact ⟨line, [], rfl, h.perm.symm.subset⟩
    · obtain ⟨ahead, behind, rfl, hsub⟩ := h.behind before y rest hrest hy
      exact ⟨ahead, behind ++ [m], by rw [List.append_assoc, List.cons_append], hsub⟩

/-- The next one goes in anywhere. -/
theorem InTurn.ahead (h : InTurn C arrived (front ++ rear)) (hm : ¬ C m) :
    InTurn C (arrived ++ [m]) (front ++ m :: rear) where
  perm := List.perm_middle.trans
    ((h.perm.cons m).trans (List.perm_append_singleton m arrived).symm)
  behind := by
    intro before y after heq hy
    rcases split_snoc heq with ⟨_, rfl⟩ | ⟨rest, hrest⟩
    · exact absurd hy hm
    · obtain ⟨ahead, behind, hline, hsub⟩ := h.behind before y rest hrest hy
      -- the place of `y` is in front of the new one or behind it
      rcases List.append_eq_append_iff.mp hline with ⟨l, rfl, hrear⟩ | ⟨l, rfl, hrear⟩
      · refine ⟨front ++ m :: l,
          behind, by rw [hrear, List.append_assoc, List.cons_append], ?_⟩
        intro z hz
        rcases List.mem_append.mp (hsub hz) with hfront | hl
        · exact List.mem_append_left _ hfront
        · exact List.mem_append_right _ (List.mem_cons_of_mem m hl)
      · cases l with
        | nil =>
          rw [List.nil_append] at hrear
          refine ⟨ahead ++ [m], behind, by rw [← hrear]; simp, ?_⟩
          exact fun z hz => List.mem_append_left _ (hsub hz)
        | cons z l =>
          obtain ⟨rfl, rfl⟩ := List.cons.inj hrear
          exact ⟨ahead, l ++ m :: rear, by simp, hsub⟩

/-- Whoever arrived before `y` is in front of it. -/
theorem InTurn.served (h : InTurn C (before ++ y :: after) (front ++ y :: rear))
    (hnodup : (front ++ y :: rear).Nodup) (hy : C y) (hx : x ∈ before) : x ∈ front := by
  obtain ⟨ahead, behind, hline, hsub⟩ := h.behind before y after rfl hy
  have hfront : front = ahead := by
    rcases List.append_eq_append_iff.mp hline with ⟨l, rfl, hrear⟩ | ⟨l, rfl, hrear⟩
    · cases l with
      | nil => rw [List.append_nil]
      | cons z l =>
        obtain ⟨rfl, rfl⟩ := List.cons.inj hrear
        have htwice := (List.nodup_append.mp hnodup).2.1
        exact absurd (by simp) (List.nodup_cons.mp htwice).1
    · cases l with
      | nil => rw [List.append_nil]
      | cons z l =>
        obtain ⟨rfl, rfl⟩ := List.cons.inj hrear
        exact absurd rfl ((List.nodup_append.mp hnodup).2.2 y
          (by simp) y List.mem_cons_self)
  exact hfront ▸ hsub hx

end CharmExperiments.Lib
