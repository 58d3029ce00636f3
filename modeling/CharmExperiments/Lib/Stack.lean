import Mathlib.Data.List.Infix
import Mathlib.Data.List.Nodup

/-!
# In which order a stack gives back

A history is a list of pushes and pops; `Stacked moves L` says that it can be a
stack's, which is `L` at the end, top first, and that nothing is pushed that is
in it. A stack gives its elements back in the order they came exactly when it
never had a second one to choose from: `popped_prefix_iff`.
-/

namespace CharmExperiments.Lib

variable {β : Type}

/-- What is done to a stack. -/
inductive Move (β : Type)
  | push (b : β)
  | pop (b : β)

def Move.pushed? : Move β → Option β
  | .push b => some b
  | .pop _ => none

def Move.popped? : Move β → Option β
  | .push _ => none
  | .pop b => some b

/-- What was pushed, in order. -/
def pushed (moves : List (Move β)) : List β := moves.filterMap Move.pushed?

/-- What was popped, in order. -/
def popped (moves : List (Move β)) : List β := moves.filterMap Move.popped?

/-- The stack is `L` after `moves`. -/
inductive Stacked : List (Move β) → List β → Prop
  | nil : Stacked [] []
  | push {moves : List (Move β)} {L : List β} {b : β} :
      Stacked moves L → b ∉ L → Stacked (moves ++ [.push b]) (b :: L)
  | pop {moves : List (Move β)} {L : List β} {b : β} :
      Stacked moves (b :: L) → Stacked (moves ++ [.pop b]) L

/-- No pop had more than one element to choose from. -/
def OneDeep (moves : List (Move β)) : Prop :=
  ∀ pre b post, moves = pre ++ .pop b ::
    post → (pushed pre).length ≤ (popped pre).length + 1

section Snoc

variable (moves : List (Move β)) (b : β)

@[simp] theorem pushed_push : pushed (moves ++ [.push b]) = pushed moves ++ [b] := by
  simp [pushed, Move.pushed?]

@[simp] theorem pushed_pop : pushed (moves ++ [.pop b]) = pushed moves := by
  simp [pushed, Move.pushed?]

@[simp] theorem popped_push : popped (moves ++ [.push b]) = popped moves := by
  simp [popped, Move.popped?]

@[simp] theorem popped_pop : popped (moves ++ [.pop b]) = popped moves ++ [b] := by
  simp [popped, Move.popped?]

theorem oneDeep_push : OneDeep (moves ++ [.push b]) ↔ OneDeep moves := by
  constructor
  · rintro h pre c post rfl
    exact h pre c (post ++ [.push b]) (by rw [List.append_assoc, List.cons_append])
  · intro h pre c post heq
    rcases List.eq_nil_or_concat post with rfl | ⟨post, m, rfl⟩
    · cases (List.append_inj' heq rfl).2
    · rw [List.concat_eq_append, ← List.cons_append, ← List.append_assoc] at heq
      exact h pre c post (List.append_inj' heq rfl).1

theorem oneDeep_pop :
    OneDeep (moves ++ [.pop b]) ↔
      OneDeep moves ∧ (pushed moves).length ≤ (popped moves).length + 1 := by
  constructor
  · intro h
    refine ⟨?_, h moves b [] rfl⟩
    rintro pre c post rfl
    exact h pre c (post ++ [.pop b]) (by rw [List.append_assoc, List.cons_append])
  · rintro ⟨h, hlast⟩ pre c post heq
    rcases List.eq_nil_or_concat post with rfl | ⟨post, m, rfl⟩
    · obtain ⟨rfl, _⟩ := List.append_inj' heq rfl
      exact hlast
    · rw [List.concat_eq_append, ← List.cons_append, ← List.append_assoc] at heq
      exact h pre c post (List.append_inj' heq rfl).1

end Snoc

variable {moves : List (Move β)} {L : List β}

theorem Stacked.nodup (h : Stacked moves L) : L.Nodup := by
  induction h with
  | nil => exact List.nodup_nil
  | push _ hb ih => exact List.nodup_cons.mpr ⟨hb, ih⟩
  | pop _ ih => exact (List.nodup_cons.mp ih).2

theorem Stacked.length (h : Stacked moves L) :
    (pushed moves).length = (popped moves).length + L.length := by
  induction h with
  | nil => rfl
  | push _ _ ih => rw [pushed_push, popped_push, List.length_append,
    List.length_cons, ih]; rfl
  | pop _ ih =>
    rw [pushed_pop, popped_pop, List.length_append, ih, List.length_cons,
      List.length_cons, List.length_nil]
    omega

/-- One deep, the stack holds what was pushed and not popped, the latest on top. -/
theorem Stacked.pushed_eq (h : Stacked moves L) (hdeep : OneDeep moves) :
    pushed moves = popped moves ++ L.reverse := by
  induction h with
  | nil => rfl
  | push _ _ ih =>
    rw [pushed_push, popped_push, ih ((oneDeep_push ..).mp hdeep), List.reverse_cons,
      List.append_assoc]
  | @pop moves L b h ih =>
    obtain ⟨hdeep, hlast⟩ := (oneDeep_pop ..).mp hdeep
    have hlength := h.length
    rw [List.length_cons] at hlength
    obtain rfl : L = [] := List.length_eq_zero_iff.mp (by omega)
    rw [pushed_pop, popped_pop, ih hdeep, List.reverse_nil, List.append_nil]
    rfl

/-- **A stack is first-in first-out exactly while it is one deep.** -/
theorem popped_prefix_iff (h : Stacked moves L) : popped moves <+: pushed moves ↔
    OneDeep moves := by
  refine ⟨fun hprefix => ?_, fun hdeep => ?_⟩
  · induction h with
    | nil => exact fun pre b post heq => by simp at heq
    | push h _ ih =>
      rw [pushed_push, popped_push] at hprefix
      refine (oneDeep_push ..).mpr (ih ?_)
      exact List.prefix_of_prefix_length_le hprefix (List.prefix_append ..)
        (by rw [h.length]; omega)
    | @pop moves L b h ih =>
      rw [pushed_pop, popped_pop] at hprefix
      have hdeep := ih ((List.prefix_append ..).trans hprefix)
      refine (oneDeep_pop ..).mpr ⟨hdeep, ?_⟩
      rw [h.length, List.length_cons]
      -- the top is the last that was pushed, and is to be the first of what is left
      rw [h.pushed_eq hdeep, List.reverse_cons, List.prefix_append_right_inj] at hprefix
      cases hL : L.reverse with
      | nil => rw [List.reverse_eq_nil_iff.mp hL, List.length_nil]
      | cons c rest =>
        rw [hL] at hprefix
        obtain rfl : b = c := (List.cons_prefix_cons.mp hprefix).1
        have hmem : b ∈ L := List.mem_reverse.mp (hL ▸ List.mem_cons_self)
        exact ((List.nodup_cons.mp h.nodup).1 hmem).elim
  · rw [h.pushed_eq hdeep]
    exact List.prefix_append ..

end CharmExperiments.Lib
