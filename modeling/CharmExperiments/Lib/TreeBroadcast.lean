import Mathlib.Data.Multiset.AddSub
import Mathlib.Logic.Function.Basic
import Mathlib.Logic.Relation

/-!
# Ordered broadcast down a tree

The root takes items one after the other. A node that takes an item sends a
copy, with the number of the item, to each of its children; a child takes the
copy whose number is next for it and leaves the others lying. Copies may arrive
in any order, none is lost or duplicated.

`Inv` says where the items are: the copies lying for a child are those its
parent has taken and it has not, each once. So every node has taken a prefix of
what the root has taken (`Inv.executed_le`), all of it when no copy is left
(`Inv.executed_eq`).
-/

namespace CharmExperiments.Lib

/-- A tree on the nodes `0 .. n - 1`, with root 0. -/
structure SpanTree (n : Nat) where
  children : Nat → List Nat
  nodup : ∀ p, (children p).Nodup
  lt : ∀ p, ∀ c ∈ children p, c < n
  root : ∀ p, 0 ∉ children p
  parent : ∀ p q c, c ∈ children p → c ∈ children q → p = q
  reach : ∀ p, p < n → Relation.ReflTransGen (fun a b => b ∈ children a) 0 p

/-- The tree with all nodes right below the root. -/
def SpanTree.star (n : Nat) : SpanTree n where
  children := fun p => if p = 0 then List.range' 1 (n - 1) else []
  nodup := by
    intro p
    split
    · exact List.nodup_range'
    · exact List.nodup_nil
  lt := by
    intro p c hc
    split at hc
    · have := List.mem_range'_1.mp hc
      omega
    · cases hc
  root := by
    intro p h0
    split at h0
    · have := List.mem_range'_1.mp h0
      omega
    · cases h0
  parent := by
    intro p q c hp hq
    split at hp <;> split at hq <;> first | omega | simp at hp hq
  reach := by
    intro p hp
    rcases Nat.eq_zero_or_pos p with rfl | hpos
    · exact .refl
    · refine .single ?_
      rw [if_pos rfl, List.mem_range'_1]
      omega

namespace TreeBroadcast

variable {n : Nat} {β : Type}

/-- What each node has taken, and the numbered copies lying for it. -/
@[ext] structure State (β : Type) where
  executed : Nat → List β
  copies : Nat → Multiset (Nat × β)

def State.init : State β := ⟨fun _ => [], fun _ => 0⟩

/-- Node `p` takes `x`, the next item for it. -/
def State.execute (T : SpanTree n) (s : State β) (p : Nat) (x : β) : State β where
  executed := Function.update s.executed p (s.executed p ++ [x])
  copies := fun c =>
    if c ∈ T.children p then ((s.executed p).length + 1, x) ::ₘ s.copies c else s.copies c

/-- A copy for node `c` is picked up. -/
def State.pick (s : State β) (c : Nat) (rest : Multiset (Nat × β)) : State β :=
  { s with copies := Function.update s.copies c rest }

/-- The root takes an item, or a node takes the copy that is next for it. -/
inductive Step (T : SpanTree n) : State β → State β → Prop
  | issue (s : State β) (x : β) : Step T s (s.execute T 0 x)
  | accept (s : State β) (c : Nat) (x : β) (rest : Multiset (Nat × β)) :
      s.copies c = ((s.executed c).length + 1, x) ::ₘ rest →
      Step T s ((s.pick c rest).execute T c x)

/-- The items of a list from position `k` on, with their numbers. -/
def pending (l : List β) (k : Nat) : List (Nat × β) :=
  (l.zipIdx.drop k).map fun r => (r.2 + 1, r.1)

theorem pending_append (l : List β) (x : β) {k : Nat} (hk : k ≤ l.length) :
    pending (l ++ [x]) k = pending l k ++ [(l.length + 1, x)] := by
  rw [pending, List.zipIdx_append, List.drop_append_of_le_length (by simpa using hk),
    List.map_append, pending]
  simp

/-- The first pending item is the next. -/
theorem pending_eq_cons {l : List β} {k : Nat} {x : β} (h : (k + 1, x) ∈ pending l k) :
    l[k]? = some x ∧ pending l k = (k + 1, x) :: pending l (k + 1) := by
  have hx : l[k]? = some x := by
    obtain ⟨⟨y, i⟩, hmem, heq⟩ := List.mem_map.mp h
    obtain ⟨hi, rfl⟩ := Prod.mk.inj heq
    have hi : i = k := by omega
    subst hi
    have hget := List.mem_of_mem_drop hmem
    rw [List.mem_zipIdx_iff_getElem?] at hget
    exact hget
  refine ⟨hx, ?_⟩
  have hlt : k < l.zipIdx.length := by
    rw [List.length_zipIdx]
    exact (List.getElem?_eq_some_iff.mp hx).1
  have hxk := (List.getElem?_eq_some_iff.mp hx).2
  rw [pending, List.drop_eq_getElem_cons hlt, List.map_cons,
    List.getElem_zipIdx, Nat.zero_add]
  rw [hxk]
  rfl

/-- No pending item: nothing is missing. -/
theorem length_le_of_pending {l : List β} {k : Nat} (h : pending l k = []) :
    l.length ≤ k := by
  rw [pending, List.map_eq_nil_iff, List.drop_eq_nil_iff, List.length_zipIdx] at h
  exact h

/-- No node is its own child: it could not be reached from the root. -/
theorem ne_of_child (T : SpanTree n) {p c : Nat} (h : c ∈ T.children p) : p ≠ c := by
  rintro rfl
  have hne : ∀ d, Relation.ReflTransGen (fun a b => b ∈ T.children a) 0 d → d ≠ p := by
    intro d hd
    induction hd with
    | refl => exact fun h0 => T.root p (h0 ▸ h)
    | @tail b d _ hbd ih => exact fun hd => ih (T.parent b p p (hd ▸ hbd) h)
  exact hne p (T.reach p (T.lt p p h)) rfl

section Execute

variable {T : SpanTree n} {s : State β} {p q c : Nat} {x : β}

theorem execute_executed_self : (s.execute T p x).executed p = s.executed p ++ [x] :=
  Function.update_self ..

theorem execute_executed_ne (h : q ≠ p) : (s.execute T p x).executed q = s.executed q :=
  Function.update_of_ne h ..

theorem execute_copies_child (h : c ∈ T.children p) :
    (s.execute T p x).copies c = ((s.executed p).length + 1, x) ::ₘ s.copies c := if_pos h

theorem execute_copies_ne (h : c ∉ T.children p) :
    (s.execute T p x).copies c = s.copies c :=
  if_neg h

/-- A child has a prefix of what its parent has, and the rest lies for it. -/
def State.Edge (s : State β) (p c : Nat) : Prop :=
  s.executed c <+: s.executed p ∧
    s.copies c = pending (s.executed p) (s.executed c).length

/-- Taking an item keeps the edges to the children: each gets a copy. -/
theorem execute_below (hc : c ∈ T.children p) (h : s.Edge p c) :
    (s.execute T p x).Edge p c := by
  have hne := (ne_of_child T hc).symm
  obtain ⟨hahead, hcopies⟩ := h
  rw [State.Edge, execute_executed_self, execute_executed_ne hne,
    execute_copies_child hc, hcopies, pending_append _ _ hahead.length_le]
  refine ⟨hahead.trans (List.prefix_append _ _), ?_⟩
  rw [Multiset.cons_coe, Multiset.coe_eq_coe]
  exact (List.perm_append_singleton _ _).symm

/-- An edge that neither starts nor ends at the node is not concerned. -/
theorem execute_away (hq : q ≠ p) (hc : c ≠ p) (hchild : c ∉ T.children p)
    (h : s.Edge q c) : (s.execute T p x).Edge q c := by
  rw [State.Edge, execute_executed_ne hq, execute_executed_ne hc,
    execute_copies_ne hchild]
  exact h

end Execute

/-- A child has taken a prefix of what its parent has, and the rest lies for it. -/
structure Inv (T : SpanTree n) (s : State β) : Prop where
  edge : ∀ p, ∀ c ∈ T.children p, s.Edge p c

theorem init_inv (T : SpanTree n) : Inv T (.init : State β) where
  edge := fun _ _ _ => ⟨List.prefix_refl _, rfl⟩

theorem step_inv {T : SpanTree n} {s s' : State β} (h : Inv T s) (hs : Step T s s') :
    Inv T s' := by
  cases hs with
  | issue x =>
    constructor
    intro q c hc
    by_cases hq : q = 0
    · subst hq
      -- an edge below the node that executes gets a copy
      exact execute_below hc (h.edge 0 c hc)
    · refine execute_away hq ?_ (fun h0 => hq (T.parent q 0 c hc h0)) (h.edge q c hc)
      rintro rfl
      exact T.root q hc
  | accept d x rest hnext =>
    constructor
    intro q c hc
    obtain ⟨hahead, hcopies⟩ := h.edge q c hc
    by_cases hcd : c = d
    · -- the edge the copy came down
      subst hcd
      have hmem : ((s.executed c).length + 1, x) ∈ pending (s.executed q)
          (s.executed c).length := by
        rw [← Multiset.mem_coe, ← hcopies, hnext]
        exact Multiset.mem_cons_self _ _
      obtain ⟨hx, hrest⟩ := pending_eq_cons hmem
      have hqc := ne_of_child T hc
      have hcc : c ∉ T.children c := fun hself => ne_of_child T hself rfl
      rw [State.Edge, execute_executed_self, execute_executed_ne hqc,
        execute_copies_ne hcc]
      refine ⟨?_, ?_⟩
      · obtain ⟨l, hl⟩ := hahead
        show s.executed c ++ [x] <+: s.executed q
        rw [← hl, List.getElem?_append_right (le_refl _), Nat.sub_self] at hx
        rw [← hl]
        obtain ⟨l', rfl⟩ : ∃ l', l = x :: l' := by
          cases l with
          | nil => cases hx
          | cons y l' => exact ⟨l', by rw [Option.some.inj hx]⟩
        exact ⟨l', by simp⟩
      · rw [hcopies, hrest, ← Multiset.cons_coe, Multiset.cons_inj_right] at hnext
        rw [List.length_append, List.length_singleton]
        show Function.update s.copies c rest c = _
        rw [Function.update_self, ← hnext]
        rfl
    · have hedge : (s.pick d rest).Edge q c := by
        rw [State.Edge]
        show s.executed c <+: s.executed q ∧ Function.update s.copies d rest c = _
        rw [Function.update_of_ne hcd]
        exact ⟨hahead, hcopies⟩
      by_cases hqd : q = d
      · subst hqd
        exact execute_below hc hedge
      · exact execute_away hqd hcd (fun hd => hqd (T.parent q d c hc hd)) hedge

theorem steps_inv {T : SpanTree n} {s s' : State β} (h : Inv T s)
    (hs : Relation.ReflTransGen (Step T) s s') : Inv T s' := by
  induction hs with
  | refl => exact h
  | tail _ hstep ih => exact step_inv ih hstep

/-- No node is ahead of the root, or at odds with it. -/
theorem Inv.executed_le {T : SpanTree n} {s : State β} (h : Inv T s) {p : Nat}
    (hp : p < n) :
    s.executed p <+: s.executed 0 := by
  have hreach := T.reach p hp
  clear hp
  induction hreach with
  | refl => exact List.prefix_refl _
  | @tail q c _ hc ih => exact (h.edge q c hc).1.trans ih

/-- When no copy is left no node is behind. -/
theorem Inv.executed_eq {T : SpanTree n} {s : State β} (h : Inv T s)
    (hnone : ∀ c, c < n → s.copies c = 0) {p : Nat} (hp : p < n) :
    s.executed p = s.executed 0 := by
  have hreach := T.reach p hp
  clear hp
  induction hreach with
  | refl => rfl
  | @tail q c _ hc ih =>
    obtain ⟨hahead, hcopies⟩ := h.edge q c hc
    rw [hnone c (T.lt q c hc)] at hcopies
    have hle := length_le_of_pending ((Multiset.coe_eq_zero _).mp hcopies.symm)
    exact (hahead.eq_of_length_le hle).trans ih

end TreeBroadcast

end CharmExperiments.Lib
