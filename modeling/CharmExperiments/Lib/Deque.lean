import Mathlib.Data.List.Basic
import Mathlib.Data.List.Nodup
import Mathlib.Tactic.Ring

/-!
# A deque and its iterators

The operations of `std::deque` that a program needs to hold an iterator across
calls that change the deque. Every element has the number it was inserted under;
an iterator is that number and the deque's epoch. Insertion, and erasure from
the middle, invalidate every iterator and so start a new epoch; erasure at an
end invalidates only the iterators to the erased element.

`erase` has no result at an iterator that is no longer valid. `erase_eq` says
what it does at a valid one, and `valid_erase` which other iterators survive it.
-/

namespace CharmExperiments.Lib

/-- A deque, front first. -/
structure Deque (α : Type) where
  items : List (Nat × α)
  next : Nat
  epoch : Nat
  fresh : ∀ x ∈ items, x.1 < next
  nodup : (items.map Prod.fst).Nodup

namespace Deque

/-- A position in a deque. -/
structure Iterator where
  id : Nat
  epoch : Nat
deriving DecidableEq, Repr

variable {α : Type}

def empty : Deque α := ⟨[], 0, 0, by simp, by simp⟩

/-- The elements, front first. -/
def values (d : Deque α) : List α := d.items.map Prod.snd

/-- An iterator to the element of number `id`. -/
def iter (d : Deque α) (id : Nat) : Iterator := ⟨id, d.epoch⟩

/-- `emplace_front`. -/
def emplaceFront (d : Deque α) (a : α) : Deque α where
  items := (d.next, a) :: d.items
  next := d.next + 1
  epoch := d.epoch + 1
  fresh x hx := by
    rcases List.mem_cons.mp hx with rfl | hx
    · exact Nat.lt_succ_self _
    · exact Nat.lt_succ_of_lt (d.fresh x hx)
  nodup := by
    rw [List.map_cons, List.nodup_cons]
    refine ⟨fun hmem => ?_, d.nodup⟩
    obtain ⟨x, hx, heq⟩ := List.mem_map.mp hmem
    have hlt := d.fresh x hx
    have heq : x.1 = d.next := heq
    omega

/-- The writing of an element through its iterator. -/
def write (d : Deque α) (id : Nat) (a : α) : Deque α where
  items := d.items.map fun x => if x.1 = id then (x.1, a) else x
  next := d.next
  epoch := d.epoch
  fresh x hx := by
    obtain ⟨y, hy, rfl⟩ := List.mem_map.mp hx
    have hlt := d.fresh y hy
    split <;> exact hlt
  nodup := by
    rw [List.map_map, show Prod.fst ∘ (fun x : Nat × α => if x.1 = id then (x.1, a)
      else x) =
      Prod.fst from funext fun x => by dsimp only [Function.comp]; split <;> rfl]
    exact d.nodup

/-- The first element from the front with a property. -/
def findFront (p : α → Bool) (d : Deque α) : Option (Nat × α) :=
  d.items.find? fun x => p x.2

/-- The first element from the back with a property. -/
def findBack (p : α → Bool) (d : Deque α) : Option (Nat × α) :=
  d.items.reverse.find? fun x => p x.2

/-- The iterator still refers to an element. -/
def Valid (d : Deque α) (it : Iterator) : Prop :=
  it.epoch = d.epoch ∧ it.id ∈ d.items.map Prod.fst

/-- The element of number `id` is the first or the last. -/
def AtEnd (d : Deque α) (id : Nat) : Prop :=
  (d.items.map Prod.fst).head? = some id ∨ (d.items.map Prod.fst).getLast? = some id

instance (d : Deque α) (it : Iterator) : Decidable (d.Valid it) :=
  inferInstanceAs (Decidable (_ ∧ _))

instance (d : Deque α) (id : Nat) : Decidable (d.AtEnd id) :=
  inferInstanceAs (Decidable (_ ∨ _))

/-- The deque without the element of number `id`. -/
def without (d : Deque α) (id : Nat) : Deque α where
  items := d.items.filter (·.1 ≠ id)
  next := d.next
  epoch := if d.AtEnd id then d.epoch else d.epoch + 1
  fresh x hx := d.fresh x (List.mem_of_mem_filter hx)
  nodup := (List.filter_sublist.map Prod.fst).nodup d.nodup

/-- `erase`, undefined at an iterator that is not valid. -/
def erase (d : Deque α) (it : Iterator) : Option (Deque α) :=
  if d.Valid it then some (d.without it.id) else none

/-! ## What the operations do -/

variable {d d' : Deque α} {id : Nat} {it : Iterator} {a : α} {p : α → Bool}

@[simp] theorem emplaceFront_items (d : Deque α) (a : α) :
    (d.emplaceFront a).items = (d.next, a) :: d.items := rfl

@[simp] theorem write_epoch (d : Deque α) (id : Nat) (a : α) :
    (d.write id a).epoch = d.epoch := rfl

@[simp] theorem write_items (d : Deque α) (id : Nat) (a : α) :
    (d.write id a).items = d.items.map fun x => if x.1 = id then (x.1, a) else x := rfl

@[simp] theorem iter_id (d : Deque α) (id : Nat) : (d.iter id).id = id := rfl

/-- Writing moves no element. -/
@[simp] theorem write_ids (d : Deque α) (id : Nat) (a : α) :
    (d.write id a).items.map Prod.fst = d.items.map Prod.fst := by
  rw [write_items, List.map_map]
  refine List.map_congr_left fun x _ => ?_
  dsimp only [Function.comp]
  split <;> rfl

theorem iter_valid (h : id ∈ d.items.map Prod.fst) : d.Valid (d.iter id) := ⟨rfl, h⟩

/-- Writing invalidates no iterator. -/
@[simp] theorem valid_write : (d.write id a).Valid it ↔ d.Valid it := by
  unfold Valid
  rw [write_ids, write_epoch]

/-- At a valid iterator the element it refers to goes, and no other. -/
theorem erase_eq (h : d.Valid it) : d.erase it = some (d.without it.id) := if_pos h

theorem erase_valid (h : d.erase it = some d') : d.Valid it ∧ d' = d.without it.id := by
  unfold erase at h
  split at h
  next hv => exact ⟨hv, (Option.some.inj h).symm⟩
  next => cases h

theorem without_ids (d : Deque α) (id : Nat) :
    (d.without id).items.map Prod.fst = (d.items.map Prod.fst).filter (· ≠ id) := by
  rw [List.filter_map]
  rfl

/-- An erasure at an end leaves the iterators to the other elements valid. -/
theorem valid_without (hv : d.Valid it) (hne : it.id ≠ id) (hend : d.AtEnd id) :
    (d.without id).Valid it := by
  refine ⟨?_, ?_⟩
  · show it.epoch = if d.AtEnd id then d.epoch else d.epoch + 1
    rw [if_pos hend]
    exact hv.1
  · rw [without_ids]
    exact List.mem_filter.mpr ⟨hv.2, decide_eq_true hne⟩

/-- The search from the front stops at the first element that has the property. -/
theorem findFront_some {x : Nat × α} (h : d.findFront p = some x) :
    p x.2 = true ∧ ∃ l r, d.items = l ++ x :: r ∧ ∀ y ∈ l, p y.2 = false := by
  obtain ⟨hp, l, r, heq, hl⟩ := List.find?_eq_some_iff_append.mp h
  exact ⟨hp, l, r, heq, fun y hy => by simpa using hl y hy⟩

theorem findFront_none (h : d.findFront p = none) : ∀ x ∈ d.items, p x.2 = false := by
  intro x hx
  exact Bool.eq_false_iff.mpr (List.find?_eq_none.mp h x hx)

/-- The search from the back stops at the last element that has the property. -/
theorem findBack_some {x : Nat × α} (h : d.findBack p = some x) :
    p x.2 = true ∧ ∃ l r, d.items = l ++ x :: r ∧ ∀ y ∈ r, p y.2 = false := by
  obtain ⟨hp, l, r, heq, hl⟩ := List.find?_eq_some_iff_append.mp h
  refine ⟨hp, r.reverse, l.reverse, ?_,
    fun y hy => by simpa using hl y (List.mem_reverse.mp hy)⟩
  rw [← List.reverse_reverse d.items, heq]
  simp

theorem findBack_none (h : d.findBack p = none) : ∀ x ∈ d.items, p x.2 = false := by
  intro x hx
  exact Bool.eq_false_iff.mpr (List.find?_eq_none.mp h x (List.mem_reverse.mpr hx))

section Split

variable {l r : List (Nat × α)}

/-- The other elements have other numbers. -/
theorem ne_of_split (h : d.items = l ++ (id, a) :: r) : ∀ x ∈ l ++ r, x.1 ≠ id := by
  have hnodup := d.nodup
  rw [h, List.map_append, List.map_cons] at hnodup
  have hnot := (List.nodup_cons.mp (List.perm_middle.nodup_iff.mp hnodup)).1
  rw [← List.map_append] at hnot
  intro x hx heq
  exact hnot (List.mem_map.mpr ⟨x, hx, heq⟩)

theorem write_split (h : d.items = l ++ (id, a) :: r) (b : α) :
    (d.write id b).items = l ++ (id, b) :: r := by
  have hne := ne_of_split h
  have hsame : ∀ l' : List (Nat × α), (∀ x ∈ l', x ∈ l ++ r) →
      l'.map (fun x => if x.1 = id then (x.1, b) else x) = l' := by
    intro l' hl'
    refine (List.map_congr_left fun x hx => ?_).trans (List.map_id l')
    exact if_neg (hne x (hl' x hx))
  rw [write_items, h, List.map_append, List.map_cons,
    hsame l fun x hx => List.mem_append_left r hx, hsame r fun x hx =>
      List.mem_append_right l hx,
    if_pos rfl]

theorem without_split (h : d.items = l ++ (id, a) :: r) :
    (d.without id).items = l ++ r := by
  have hne := ne_of_split h
  show d.items.filter (·.1 ≠ id) = l ++ r
  rw [h, List.filter_append, List.filter_cons_of_neg (by simp),
    ← List.filter_append]
  exact List.filter_eq_self.mpr fun x hx => decide_eq_true (hne x hx)

end Split

end Deque

end CharmExperiments.Lib
