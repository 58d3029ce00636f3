import Mathlib.Data.List.Basic
import Mathlib.Order.Lattice

/-!
# Search trees whose keys may be out of order

A binary tree of elements with keys. `insert` goes down by comparing keys and takes
for granted that they are in order; nothing here makes sure of it, as a program may
write to a key in place. What it does in any case: it puts the element somewhere,
unless it meets its key (`insert_toList`). Where the keys are in order it keeps them
in order (`insert_sorted`).
-/

namespace CharmExperiments.Lib

/-- A binary tree. -/
inductive SearchTree (α : Type)
  | leaf
  | node (left : SearchTree α) (x : α) (right : SearchTree α)

namespace SearchTree

variable {α κ : Type}

/-- The elements from left to right. -/
def toList : SearchTree α → List α
  | leaf => []
  | node left x right => left.toList ++ x :: right.toList

/-- Put `x` where its key belongs; `none` when the key is met on the way. -/
def insert [LT κ] [DecidableRel (α := κ) (· < ·)] (key : α → κ) (x : α) :
    SearchTree α → Option (SearchTree α)
  | leaf => some (node leaf x leaf)
  | node left y right =>
    if key x < key y then (left.insert key x).map fun t => node t y right
    else if key y < key x then (right.insert key x).map fun t => node left y t
    else none

/-- The keys increase from left to right. -/
def Increasing [LT κ] (key : α → κ) (xs : List α) : Prop :=
  xs.Pairwise fun x y => key x < key y

variable [LinearOrder κ] {key : α → κ} {x : α}

/-- A new key is put between two parts of the tree; when the keys are in order, between
the smaller and the larger. -/
theorem insert_toList :
    ∀ {t : SearchTree α}, (∀ y ∈ t.toList, key y ≠ key x) →
      ∃ t' pre post, t.insert key x = some t' ∧ t.toList = pre ++ post ∧
        t'.toList = pre ++ x :: post ∧
        (Increasing key t.toList →
          (∀ y ∈ pre, key y < key x) ∧ ∀ y ∈ post, key x < key y) := by
  intro t
  induction t with
  | leaf =>
    intro _
    exact ⟨_, [], [], rfl, rfl, rfl,
      fun _ => ⟨fun _ h => (by cases h), fun _ h => (by cases h)⟩⟩
  | node left y right ihl ihr =>
    intro hnew
    have hy : key y ≠ key x :=
      hnew y (List.mem_append_right _ List.mem_cons_self)
    by_cases hlt : key x < key y
    · obtain ⟨t', pre, post, hins, hl, ht', hord⟩ :=
        ihl fun z hz => hnew z (List.mem_append_left _ hz)
      refine ⟨node t' y right, pre, post ++ y :: right.toList, ?_, ?_, ?_, fun hinc => ?_⟩
      · rw [insert, if_pos hlt, hins]
        rfl
      · rw [toList, hl, List.append_assoc]
      · rw [toList, ht', List.append_assoc, List.cons_append]
      · obtain ⟨hleft, hright, _⟩ := List.pairwise_append.mp hinc
        obtain ⟨hpre, hpost⟩ := hord hleft
        refine ⟨hpre, fun z hz => ?_⟩
        rcases List.mem_append.mp hz with hz | hz
        · exact hpost z hz
        · rcases List.mem_cons.mp hz with rfl | hz
          · exact hlt
          · exact hlt.trans ((List.pairwise_cons.mp hright).1 z hz)
    · -- the new key differs from this one, so it goes to the right
      have hgt : key y < key x := lt_of_le_of_ne (not_lt.mp hlt) hy
      obtain ⟨t', pre, post, hins, hr, ht', hord⟩ :=
        ihr fun z hz => hnew z (List.mem_append_right _ (List.mem_cons_of_mem _ hz))
      refine ⟨node left y t', left.toList ++ y :: pre, post, ?_, ?_, ?_, fun hinc => ?_⟩
      · rw [insert, if_neg hlt, if_pos hgt, hins]
        rfl
      · rw [toList, hr, List.append_assoc, List.cons_append]
      · rw [toList, ht', List.append_assoc, List.cons_append]
      · obtain ⟨_, hright, hcross⟩ := List.pairwise_append.mp hinc
        obtain ⟨hpre, hpost⟩ := hord (List.pairwise_cons.mp hright).2
        refine ⟨fun z hz => ?_, hpost⟩
        rcases List.mem_append.mp hz with hz | hz
        · exact (hcross z hz y List.mem_cons_self).trans hgt
        · rcases List.mem_cons.mp hz with rfl | hz
          · exact hgt
          · exact hpre z hz

/-- **Where the keys are in order they stay so.** -/
theorem insert_sorted {t : SearchTree α} (hnew : ∀ y ∈ t.toList, key y ≠ key x)
    (hinc : Increasing key t.toList) :
    ∃ t', t.insert key x = some t' ∧ Increasing key t'.toList ∧
      ∀ y, y ∈ t'.toList ↔ y = x ∨ y ∈ t.toList := by
  obtain ⟨t', pre, post, hins, ht, ht', hord⟩ := insert_toList hnew
  obtain ⟨hpre, hpost⟩ := hord hinc
  rw [ht] at hinc
  obtain ⟨hincpre, hincpost, hcross⟩ := List.pairwise_append.mp hinc
  refine ⟨t', hins, ?_, fun y => ?_⟩
  · rw [ht']
    refine List.pairwise_append.mpr
      ⟨hincpre, List.pairwise_cons.mpr ⟨hpost, hincpost⟩, ?_⟩
    intro a ha b hb
    rcases List.mem_cons.mp hb with rfl | hb
    · exact hpre a ha
    · exact hcross a ha b hb
  · rw [ht, ht', List.mem_append, List.mem_cons, List.mem_append]
    exact or_left_comm

/-- An element fits between two parts in order when it fits between its neighbours. -/
theorem increasing_insert {pre post : List α} :
    Increasing key (pre ++ x :: post) ↔
      Increasing key (pre ++ post) ∧ (∀ y ∈ pre.getLast?, key y < key x) ∧
        ∀ y ∈ post.head?, key x < key y := by
  constructor
  · intro h
    obtain ⟨hpre, hcons, hcross⟩ := List.pairwise_append.mp h
    obtain ⟨hx, hpost⟩ := List.pairwise_cons.mp hcons
    refine ⟨List.pairwise_append.mpr ⟨hpre, hpost, fun a ha b hb =>
      hcross a ha b (List.mem_cons_of_mem _ hb)⟩, fun y hy => ?_, fun y hy => ?_⟩
    · exact hcross y (List.mem_of_getLast? hy) x List.mem_cons_self
    · exact hx y (List.mem_of_head? hy)
  · rintro ⟨h, hlast, hhead⟩
    obtain ⟨hpre, hpost, hcross⟩ := List.pairwise_append.mp h
    -- the neighbours bound the rest, which is in order
    have hbelow : ∀ y ∈ pre, key y < key x := by
      intro y hy
      rcases List.eq_nil_or_concat pre with rfl | ⟨init, l, rfl⟩
      · cases hy
      · rw [List.concat_eq_append] at hpre hy hlast
        have hl : key l < key x := hlast l (by rw [List.getLast?_append]; rfl)
        rcases List.mem_append.mp hy with hy | hy
        · have hyl :=
            (List.pairwise_append.mp hpre).2.2 y hy l (List.mem_singleton_self l)
          exact hyl.trans hl
        · rwa [List.mem_singleton.mp hy]
    have habove : ∀ y ∈ post, key x < key y := by
      intro y hy
      cases post with
      | nil => cases hy
      | cons z rest =>
        have hz : key x < key z := hhead z rfl
        rcases List.mem_cons.mp hy with rfl | hy
        · exact hz
        · exact hz.trans ((List.pairwise_cons.mp hpost).1 y hy)
    refine List.pairwise_append.mpr ⟨hpre, List.pairwise_cons.mpr ⟨habove, hpost⟩, ?_⟩
    intro a ha b hb
    rcases List.mem_cons.mp hb with rfl | hb
    · exact hbelow a ha
    · exact hcross a ha b hb

end SearchTree

end CharmExperiments.Lib
