import Mathlib.Algebra.BigOperators.Fin

/-!
# Reductions matched by position

A stream of reductions without tags: every party `ι` contributes values one
after the other, and the `k`-th contributions of all parties form the `k`-th
reduction. What a value is about (its `tag`) travels with it, so a reduction is
about one thing only if all contributions of that rank are: `Agree`. Adding a
contribution keeps `Agree` exactly when it `Matches` the ones of its rank that
are already there (`agree_add`).
-/

namespace CharmExperiments.Lib

/-- What each party has contributed, oldest first. -/
abbrev Contributions (ι β : Type) := ι → List β

namespace Contributions

variable {ι β τ : Type}

/-- Every party has made its `k`-th contribution. -/
def Ready (c : Contributions ι β) (k : Nat) : Prop := ∀ p, k < (c p).length

instance [Fintype ι] (c : Contributions ι β) (k : Nat) : Decidable (c.Ready k) :=
  inferInstanceAs (Decidable (∀ p, k < (c p).length))

/-- The `k`-th contribution of each party, once the reduction is ready. -/
def rank [Inhabited β] (c : Contributions ι β) (k : Nat) (p : ι) : β :=
  (c p).getD k default

theorem getElem?_rank [Inhabited β] {c : Contributions ι β} {k : Nat}
    (h : c.Ready k) (p : ι) : (c p)[k]? = some (c.rank k p) := by
  rw [rank, List.getD_eq_getElem?_getD, List.getElem?_eq_getElem (h p)]
  rfl

/-- Contributions of one rank carry one tag. -/
def Agree (tag : β → τ) (c : Contributions ι β) : Prop :=
  ∀ (k : Nat) p q x y, (c p)[k]? = some x → (c q)[k]? = some y → tag x = tag y

/-- A next contribution of `p` with tag `t` agrees with those of its rank. -/
def Matches (tag : β → τ) (c : Contributions ι β) (p : ι) (t : τ) : Prop :=
  ∀ q y, (c q)[(c p).length]? = some y → tag y = t

/-- `p` contributes `x`. -/
def add [DecidableEq ι] (c : Contributions ι β) (p : ι) (x : β) : Contributions ι β :=
  Function.update c p (c p ++ [x])

/-- `p` contributes the values `xs` in order. -/
def extend [DecidableEq ι] (c : Contributions ι β) (p : ι) (xs : List β) :
    Contributions ι β :=
  Function.update c p (c p ++ xs)

/-- Later contributions come after the earlier ones. -/
def Grows (c c' : Contributions ι β) : Prop := ∀ p, c p <+: c' p

theorem Grows.refl (c : Contributions ι β) : c.Grows c := fun _ => List.prefix_refl _

theorem Grows.ready {c c' : Contributions ι β} (h : c.Grows c') {k : Nat}
    (hk : c.Ready k) :
    c'.Ready k :=
  fun p => Nat.lt_of_lt_of_le (hk p) (h p).length_le

/-- A complete reduction does not change any more. -/
theorem Grows.rank_eq [Inhabited β] {c c' : Contributions ι β} (h : c.Grows c') {k : Nat}
    (hk : c.Ready k) (p : ι) : c'.rank k p = c.rank k p := by
  obtain ⟨rest, hrest⟩ := h p
  rw [rank, rank, ← hrest, List.getD_eq_getElem?_getD, List.getD_eq_getElem?_getD,
    List.getElem?_append_left (hk p)]

variable [DecidableEq ι]

/-- A contribution is the new one or was there before. -/
theorem getElem?_add_cases {c : Contributions ι β} {p q : ι} {x y : β} {k : Nat}
    (h : (c.add p x q)[k]? = some y) :
    (c q)[k]? = some y ∨ (q = p ∧ k = (c p).length ∧ y = x) := by
  unfold add at h
  by_cases hqp : q = p
  · subst hqp
    rw [Function.update_self] at h
    rcases Nat.lt_trichotomy k (c q).length with hlt | heq | hgt
    · rw [List.getElem?_append_left hlt] at h
      exact Or.inl h
    · subst heq
      rw [List.getElem?_concat_length] at h
      exact Or.inr ⟨rfl, rfl, (Option.some.inj h).symm⟩
    · rw [List.getElem?_eq_none (by simp; omega)] at h
      cases h
  · rw [Function.update_of_ne hqp] at h
    exact Or.inl h

theorem grows_add (c : Contributions ι β) (p : ι) (x : β) : c.Grows (c.add p x) := by
  intro q
  unfold add
  by_cases hqp : q = p
  · subst hqp
    rw [Function.update_self]
    exact List.prefix_append _ _
  · rw [Function.update_of_ne hqp]

theorem agree_add {tag : β → τ} {c : Contributions ι β} {p : ι} {x : β}
    (h : c.Agree tag) (hm : c.Matches tag p (tag x)) : (c.add p x).Agree tag := by
  intro k q r y z hy hz
  rcases getElem?_add_cases hy with hy' | ⟨hq, hk, hyx⟩
  · rcases getElem?_add_cases hz with hz' | ⟨_, hk, hzx⟩
    · exact h k q r y z hy' hz'
    · rw [hk] at hy'
      rw [hzx]
      exact hm q y hy'
  · rcases getElem?_add_cases hz with hz' | ⟨_, _, hzx⟩
    · rw [hk] at hz'
      rw [hyx]
      exact (hm r z hz').symm
    · rw [hyx, hzx]

/-! ## Several contributions at once -/

/-- A contribution is one of the new ones or was there before. -/
theorem getElem?_extend_cases {c : Contributions ι β} {p q : ι} {xs : List β}
    {y : β} {k : Nat}
    (h : (c.extend p xs q)[k]? = some y) :
    (c q)[k]? = some y ∨ (q = p ∧ ∃ j, k = (c p).length + j ∧ xs[j]? = some y) := by
  unfold extend at h
  by_cases hqp : q = p
  · subst hqp
    rw [Function.update_self] at h
    by_cases hlt : k < (c q).length
    · rw [List.getElem?_append_left hlt] at h
      exact Or.inl h
    · rw [List.getElem?_append_right (Nat.le_of_not_lt hlt)] at h
      exact Or.inr ⟨rfl, k - (c q).length, by omega, h⟩
  · rw [Function.update_of_ne hqp] at h
    exact Or.inl h

/-- Contributions made in two goes. -/
theorem extend_extend (c : Contributions ι β) (p : ι) (xs ys : List β) :
    (c.extend p xs).extend p ys = c.extend p (xs ++ ys) := by
  unfold extend
  rw [Function.update_idem, Function.update_self, List.append_assoc]

theorem extend_nil (c : Contributions ι β) (p : ι) : c.extend p [] = c := by
  unfold extend
  rw [List.append_nil, Function.update_eq_self]

theorem grows_extend (c : Contributions ι β) (p : ι) (xs : List β) :
    c.Grows (c.extend p xs) := by
  intro q
  unfold extend
  by_cases hqp : q = p
  · subst hqp
    rw [Function.update_self]
    exact List.prefix_append _ _
  · rw [Function.update_of_ne hqp]

theorem agree_extend {tag : β → τ} {c : Contributions ι β} {p : ι} {xs : List β}
    (h : c.Agree tag)
    (hm : ∀ (q : ι) (k : Nat) x y, xs[k]? = some x → (c q)[(c p).length + k]? = some y →
      tag y = tag x) : (c.extend p xs).Agree tag := by
  intro k q r y z hy hz
  rcases getElem?_extend_cases hy with hy' | ⟨_, j, hk, hyx⟩
  · rcases getElem?_extend_cases hz with hz' | ⟨_, j, hk, hzx⟩
    · exact h k q r y z hy' hz'
    · rw [hk] at hy'
      exact hm q j z y hzx hy'
  · rcases getElem?_extend_cases hz with hz' | ⟨_, j', hk', hzx⟩
    · rw [hk] at hz'
      exact (hm r j y z hyx hz').symm
    · obtain rfl : j = j' := by omega
      rw [Option.some.inj (hyx.symm.trans hzx)]

end Contributions

end CharmExperiments.Lib
