import Mathlib.Data.List.Forall2
import Mathlib.Data.Set.Finite.Basic

/-!
# One routine that packs and unpacks

A `Puper` is a routine that is run twice: while packing it writes a value to a
stream, while unpacking it reads one from a stream. Packing can stop at an
assertion and unpacking at a stream that holds no value.

What is read need not be what was written, as members may be left out or be
rebuilt. `P.Arrives a b` says that `a` is packed and `b` is unpacked from what was
written, whatever follows it in the stream. The lemmas say what arrives when
routines are put together; for a map, whose entries are written in some order, see
`ofEntries_entriesOf`.
-/

namespace CharmExperiments.Lib

variable {β α γ κ ν : Type}

/-- A routine that packs values of `α` to streams over `β` and unpacks them. -/
structure Puper (β α : Type) where
  pack : α → Option (List β)
  unpack : List β → Option (α × List β)

namespace Puper

/-- What was packed as `a` is unpacked as `b`. -/
def Arrives (P : Puper β α) (a b : α) : Prop :=
  ∃ bs, P.pack a = some bs ∧ ∀ rest, P.unpack (bs ++ rest) = some (b, rest)

/-- One routine after another. -/
def andThen (P : Puper β α) (Q : Puper β γ) : Puper β (α × γ) where
  pack x :=
    match P.pack x.1, Q.pack x.2 with
    | some bs, some cs => some (bs ++ cs)
    | _, _ => none
  unpack bs :=
    match P.unpack bs with
    | none => none
    | some (a, cs) => (Q.unpack cs).map fun x => ((a, x.1), x.2)

/-- A routine for another type that the value is made from. -/
def via (P : Puper β γ) (f : α → γ) (g : γ → α) : Puper β α where
  pack a := P.pack (f a)
  unpack bs := (P.unpack bs).map fun x => (g x.1, x.2)

/-- A routine with an assertion on what is packed. -/
def asserting (P : Puper β α) (p : α → Bool) : Puper β α where
  pack a := if p a then P.pack a else none
  unpack := P.unpack

/-- A tag, and the routine for it. -/
def tagged (P : Puper β κ) (tag : α → κ) (Q : κ → Puper β α) : Puper β α where
  pack a :=
    match P.pack (tag a), (Q (tag a)).pack a with
    | some bs, some cs => some (bs ++ cs)
    | _, _ => none
  unpack bs :=
    match P.unpack bs with
    | none => none
    | some (k, cs) => (Q k).unpack cs

/-- As many values as are asked for. -/
def unpackList (P : Puper β α) : Nat → List β → Option (List α × List β)
  | 0, bs => some ([], bs)
  | k + 1, bs =>
    match P.unpack bs with
    | none => none
    | some (a, cs) => (P.unpackList k cs).map fun x => (a :: x.1, x.2)

/-- The length of a list, and its values. -/
def list (size : Puper β Nat) (P : Puper β α) : Puper β (List α) where
  pack as :=
    match size.pack as.length, as.mapM P.pack with
    | some bs, some css => some (bs ++ css.flatten)
    | _, _ => none
  unpack bs :=
    match size.unpack bs with
    | none => none
    | some (k, cs) => P.unpackList k cs

variable {P : Puper β α} {Q : Puper β γ} {a b : α} {c d : γ}

theorem Arrives.andThen (h : P.Arrives a b) (h' : Q.Arrives c d) :
    (P.andThen Q).Arrives (a, c) (b, d) := by
  obtain ⟨bs, hpack, hunpack⟩ := h
  obtain ⟨cs, hpack', hunpack'⟩ := h'
  refine ⟨bs ++ cs, ?_, fun rest => ?_⟩
  · simp only [Puper.andThen, hpack, hpack']
  · simp only [Puper.andThen, List.append_assoc, hunpack, hunpack', Option.map_some]

theorem Arrives.via {f : α → γ} {g : γ → α} (h : Q.Arrives (f a) d) :
    (Q.via f g).Arrives a (g d) := by
  obtain ⟨bs, hpack, hunpack⟩ := h
  refine ⟨bs, hpack, fun rest => ?_⟩
  simp only [Puper.via, hunpack, Option.map_some]

theorem Arrives.asserting {p : α → Bool} (hp : p a = true) (h : P.Arrives a b) :
    (P.asserting p).Arrives a b := by
  obtain ⟨bs, hpack, hunpack⟩ := h
  exact ⟨bs, (if_pos hp).trans hpack, hunpack⟩

theorem Arrives.tagged {R : Puper β κ} {tag : α → κ} {Q : κ → Puper β α}
    (htag : R.Arrives (tag a) (tag a)) (h : (Q (tag a)).Arrives a b) :
    (R.tagged tag Q).Arrives a b := by
  obtain ⟨bs, hpack, hunpack⟩ := htag
  obtain ⟨cs, hpack', hunpack'⟩ := h
  refine ⟨bs ++ cs, ?_, fun rest => ?_⟩
  · simp only [Puper.tagged, hpack, hpack']
  · simp only [Puper.tagged, List.append_assoc, hunpack, hunpack']

/-- The values of a list, one after the other. -/
theorem arrives_all {as bs : List α} (h : List.Forall₂ P.Arrives as bs) :
    ∃ css, as.mapM P.pack = some css ∧
      ∀ rest, P.unpackList as.length (css.flatten ++ rest) = some (bs, rest) := by
  induction h with
  | nil => exact ⟨[], rfl, fun _ => rfl⟩
  | @cons a b as bs hone _ ih =>
    obtain ⟨cs, hpack, hunpack⟩ := hone
    obtain ⟨css, hall, hrest⟩ := ih
    refine ⟨cs :: css, ?_, fun rest => ?_⟩
    · rw [List.mapM_cons, hpack, hall]
      rfl
    · simp only [List.length_cons, unpackList, List.flatten_cons, List.append_assoc,
        hunpack, hrest, Option.map_some]

theorem Arrives.list {size : Puper β Nat} (hsize : ∀ k, size.Arrives k k) {as bs : List α}
    (h : List.Forall₂ P.Arrives as bs) : (Puper.list size P).Arrives as bs := by
  obtain ⟨bs', hpack, hunpack⟩ := hsize as.length
  obtain ⟨css, hall, hrest⟩ := arrives_all h
  refine ⟨bs' ++ css.flatten, ?_, fun rest => ?_⟩
  · simp only [Puper.list, hpack, hall]
  · simp only [Puper.list, List.append_assoc, hunpack, hrest]

end Puper

/-! ## The entries of a map -/

/-- The keys of a map, each once. -/
structure Enumerates (keys : List κ) (m : κ → Option ν) : Prop where
  nodup : keys.Nodup
  mem : ∀ k, k ∈ keys ↔ (m k).isSome = true

/-- The entries of a map in the order of its keys. -/
def entriesOf (m : κ → Option ν) (keys : List κ) : List (κ × ν) :=
  keys.filterMap fun k => (m k).map fun v => (k, v)

/-- The map with these entries; of two for one key the first is kept. -/
def ofEntries [DecidableEq κ] (xs : List (κ × ν)) (k : κ) : Option ν :=
  (xs.find? fun x => x.1 = k).map (·.2)

theorem mem_entriesOf {m : κ → Option ν} {keys : List κ} {x : κ × ν}
    (h : x ∈ entriesOf m keys) :
    m x.1 = some x.2 := by
  obtain ⟨k, _, hk⟩ := List.mem_filterMap.mp h
  obtain ⟨v, hv, rfl⟩ := Option.map_eq_some_iff.mp hk
  exact hv

/-- **A map is made again from its entries**, in whichever order they come. -/
theorem ofEntries_entriesOf [DecidableEq κ] {m : κ → Option ν} {keys : List κ}
    (h : Enumerates keys m) : ofEntries (entriesOf m keys) = m := by
  funext k
  cases hm : m k with
  | none =>
    have hnone : (entriesOf m keys).find? (fun x => x.1 = k) = none := by
      refine List.find?_eq_none.mpr fun x hx heq => ?_
      have hsome := mem_entriesOf hx
      rw [of_decide_eq_true heq, hm] at hsome
      cases hsome
    rw [ofEntries, hnone]
    rfl
  | some v =>
    have hmem : (k, v) ∈ entriesOf m keys := by
      refine List.mem_filterMap.mpr ⟨k, (h.mem k).mpr (by rw [hm]; rfl), ?_⟩
      rw [hm]
      rfl
    cases hfind : (entriesOf m keys).find? fun x => x.1 = k with
    | none => exact absurd rfl (of_decide_eq_false (Bool.eq_false_iff.mpr
        (List.find?_eq_none.mp hfind _ hmem)))
    | some x =>
      have hfound := List.find?_some hfind
      have hkey : x.1 = k := of_decide_eq_true hfound
      have hsome := mem_entriesOf (List.mem_of_find?_eq_some hfind)
      rw [hkey, hm] at hsome
      rw [ofEntries, hfind]
      exact hsome.symm

/-- A map with finitely many entries has an order of its keys. -/
theorem exists_enumerates {m : κ → Option ν} (h : {k | (m k).isSome = true}.Finite) :
    ∃ keys, Enumerates keys m :=
  ⟨h.toFinset.toList, Finset.nodup_toList _, fun k => by
    rw [Finset.mem_toList, Set.Finite.mem_toFinset, Set.mem_ofPred_eq]⟩

end CharmExperiments.Lib
