import Mathlib.Logic.Function.Basic
import Mathlib.Data.List.Nodup

/-!
# Lists behind a head that is also their lock

An intrusive list: every node has one link, the head of a list is a link, and a
sentinel ends it. `Linked` relates a link to the nodes found from it; it is
functional (`Linked.unique`), so a list that ends has no node twice
(`Linked.nodup`).

A head is taken by exchanging it for `null`, and given back by exchanging `null`
for a link. Whoever got something other than `null` holds the list of that head
until it gives it back: `Locked` is the invariant, `take_locked`, `put_locked`
and `write_locked` say that the three moves keep it, and `Locked.head_null` that
the second exchange always finds `null`.
-/

namespace CharmExperiments.Lib

/-- A link to a node, to nothing, or the end of a list. -/
inductive Link (β : Type)
  | null
  | tail
  | node (b : β)
deriving Repr

variable {κ ι β : Type}

theorem Link.tail_ne_null : (.tail : Link β) ≠ .null := by
  intro h
  cases h

theorem Link.node_ne_null (b : β) : (.node b : Link β) ≠ .null := by
  intro h
  cases h

theorem Link.node_ne_tail (b : β) : (.node b : Link β) ≠ .tail := by
  intro h
  cases h

instance (l : Link β) : Decidable (l = .null) :=
  match l with
  | .null => isTrue rfl
  | .tail => isFalse Link.tail_ne_null
  | .node b => isFalse (Link.node_ne_null b)

instance (l : Link β) : Decidable (l = .tail) :=
  match l with
  | .tail => isTrue rfl
  | .null => isFalse Link.tail_ne_null.symm
  | .node b => isFalse (Link.node_ne_tail b)

/-! ## Lists -/

/-- The nodes from a link on are `bs`, and the sentinel ends them. -/
def Linked (next : β → Link β) : Link β → List β → Prop
  | l, [] => l = .tail
  | l, b :: bs => l = .node b ∧ Linked next (next b) bs

theorem Linked.ne_null {next : β → Link β} {l : Link β} {bs : List β}
    (h : Linked next l bs) :
    l ≠ .null := by
  cases bs with
  | nil => exact fun hl => by rw [hl] at h; cases h
  | cons b bs => exact fun hl => by rw [hl] at h; cases h.1

theorem linked_tail {next : β → Link β} {bs : List β} : Linked next .tail bs ↔
    bs = [] := by
  cases bs with
  | nil => exact ⟨fun _ => rfl, fun _ => rfl⟩
  | cons b bs => exact ⟨fun h => (by cases h.1), fun h => (by cases h)⟩

theorem linked_node {next : β → Link β} {b : β} {bs : List β} :
    Linked next (.node b) bs ↔ ∃ rest, bs = b :: rest ∧ Linked next (next b) rest := by
  cases bs with
  | nil => exact ⟨fun h => (by cases h), fun ⟨_, h, _⟩ => (by cases h)⟩
  | cons c bs =>
    constructor
    · rintro ⟨hl, hrest⟩
      obtain rfl := Link.node.inj hl
      exact ⟨bs, rfl, hrest⟩
    · rintro ⟨rest, heq, hrest⟩
      obtain ⟨rfl, rfl⟩ := List.cons.inj heq
      exact ⟨rfl, hrest⟩

/-- One list at most hangs off a link. -/
theorem Linked.unique {next : β → Link β} :
    ∀ {bs cs : List β} {l : Link β}, Linked next l bs → Linked next l cs → bs = cs := by
  intro bs
  induction bs with
  | nil =>
    intro cs l hb hc
    rw [show l = .tail from hb, linked_tail] at hc
    exact hc.symm
  | cons b bs ih =>
    intro cs l hb hc
    obtain ⟨rfl, hrest⟩ := hb
    obtain ⟨rest, rfl, hrest'⟩ := linked_node.mp hc
    rw [ih hrest hrest']

/-- From a node of the list, what is left of it. -/
theorem Linked.suffix {next : β → Link β} {b : β} :
    ∀ {bs : List β} {l : Link β}, Linked next l bs → b ∈ bs →
      ∃ pre post, bs = pre ++ b :: post ∧ Linked next (next b) post := by
  intro bs
  induction bs with
  | nil => exact fun _ h => by cases h
  | cons c bs ih =>
    intro l h hmem
    rcases List.mem_cons.mp hmem with rfl | hmem
    · exact ⟨[], bs, rfl, h.2⟩
    · obtain ⟨pre, post, rfl, hpost⟩ := ih h.2 hmem
      exact ⟨c :: pre, post, rfl, hpost⟩

/-- A list that ends has no node twice. -/
theorem Linked.nodup {next : β → Link β} :
    ∀ {bs : List β} {l : Link β}, Linked next l bs → bs.Nodup := by
  intro bs
  induction bs with
  | nil => exact fun _ => List.nodup_nil
  | cons b bs ih =>
    intro l h
    refine List.nodup_cons.mpr ⟨fun hmem => ?_, ih h.2⟩
    -- what follows the second occurrence would be as long as what follows the first
    obtain ⟨pre, post, hbs, hpost⟩ := h.2.suffix hmem
    have heq := congrArg List.length (h.2.unique hpost)
    rw [hbs, List.length_append, List.length_cons] at heq
    omega

/-- Writing the link of a node elsewhere changes nothing. -/
theorem linked_update [DecidableEq β] {next : β → Link β} {b : β} {l' : Link β} :
    ∀ {bs : List β} {l : Link β}, b ∉ bs →
      (Linked (Function.update next b l') l bs ↔ Linked next l bs) := by
  intro bs
  induction bs with
  | nil => exact fun _ => Iff.rfl
  | cons c bs ih =>
    intro l hb
    have hbc : c ≠ b := fun h => hb (h ▸ List.mem_cons_self)
    show (l = .node c ∧ Linked _ (Function.update next b l' c) bs) ↔ (l = .node c ∧ _)
    rw [Function.update_of_ne hbc, ih fun h => hb (List.mem_cons_of_mem c h)]

/-! ## Heads that are taken and given back -/

/-- The heads, the links, and what each process has taken from which head. -/
structure Slots (κ ι β : Type) where
  heads : κ → Link β
  next : β → Link β
  held : ι → Option (κ × Link β)

/-- A head is `null` while one process holds its list; otherwise it is where the
list starts. No node is in two lists. -/
structure Locked (s : Slots κ ι β) (lists : κ → List β) : Prop where
  held : ∀ p k l, s.held p = some (k, l) → s.heads k = .null ∧ Linked s.next l (lists k)
  one : ∀ p q k l l', s.held p = some (k, l) → s.held q = some (k, l') → p = q
  taken : ∀ k, s.heads k = .null → ∃ p l, s.held p = some (k, l)
  linked : ∀ k, s.heads k ≠ .null → Linked s.next (s.heads k) (lists k)
  disjoint : ∀ k k' b, b ∈ lists k → b ∈ lists k' → k = k'

section Moves

variable {s : Slots κ ι β} {lists : κ → List β}

/-- **The exchange that gives a list back finds `null`.** -/
theorem Locked.head_null (h : Locked s lists) {p : ι} {k : κ} {l : Link β}
    (hp : s.held p = some (k, l)) : s.heads k = .null :=
  (h.held p k l hp).1

/-- The lists are determined by the state. -/
theorem Locked.unique {lists' : κ → List β} (h : Locked s lists) (h' : Locked s lists') :
    lists = lists' := by
  funext k
  by_cases hk : s.heads k = .null
  · obtain ⟨p, l, hp⟩ := h.taken k hk
    exact (h.held p k l hp).2.unique (h'.held p k l hp).2
  · exact (h.linked k hk).unique (h'.linked k hk)

variable [DecidableEq κ] [DecidableEq ι]

/-- `p` exchanges the head of `k` for `null`. -/
def Slots.take (s : Slots κ ι β) (p : ι) (k : κ) : Slots κ ι β :=
  { s with
    heads := Function.update s.heads k .null
    held := if s.heads k = .null then s.held
      else Function.update s.held p (some (k, s.heads k)) }

/-- `p` exchanges the head of `k` for `l`. -/
def Slots.put (s : Slots κ ι β) (p : ι) (k : κ) (l : Link β) : Slots κ ι β :=
  { s with
    heads := Function.update s.heads k l
    held := Function.update s.held p none }

/-- The link of `b` is written. -/
def Slots.write [DecidableEq β] (s : Slots κ ι β) (b : β) (l : Link β) : Slots κ ι β :=
  { s with next := Function.update s.next b l }

/-- A taken head is taken again: nothing changes. -/
theorem take_null (p : ι) {k : κ} (hk : s.heads k = .null) : s.take p k = s := by
  unfold Slots.take
  rw [if_pos hk, ← hk, Function.update_eq_self]

theorem take_open (p : ι) {k : κ} (hk : s.heads k ≠ .null) :
    s.take p k = ⟨Function.update s.heads k .null, s.next,
      Function.update s.held p (some (k, s.heads k))⟩ := by
  unfold Slots.take
  rw [if_neg hk]

theorem take_locked (h : Locked s lists) {p : ι} (hp : s.held p = none) (k : κ) :
    Locked (s.take p k) lists := by
  by_cases hk : s.heads k = .null
  · rw [take_null p hk]
    exact h
  · have hheld : (s.take p k).held = Function.update s.held p (some (k, s.heads k)) :=
      if_neg hk
    have hheads : (s.take p k).heads = Function.update s.heads k .null := rfl
    have hcases : ∀ q k' l, (s.take p k).held q = some (k', l) →
        (q = p ∧ k' = k ∧ l = s.heads k) ∨ (q ≠ p ∧ s.held q = some (k', l)) := by
      intro q k' l hq
      rw [hheld] at hq
      by_cases hqp : q = p
      · subst hqp
        rw [Function.update_self] at hq
        obtain ⟨rfl, rfl⟩ := Prod.mk.inj (Option.some.inj hq)
        exact Or.inl ⟨rfl, rfl, rfl⟩
      · rw [Function.update_of_ne hqp] at hq
        exact Or.inr ⟨hqp, hq⟩
    -- a list that is at its head is held by nobody
    have hfree : ∀ q k' l, s.held q = some (k', l) → k' ≠ k :=
      fun q k' l hq heq => hk (heq ▸ (h.held q k' l hq).1)
    refine ⟨fun q k' l hq => ?_, fun q r k' l l' hq hr => ?_, fun k' hk' => ?_,
      fun k' hk' => ?_, h.disjoint⟩
    · rw [hheads]
      rcases hcases q k' l hq with ⟨_, rfl, rfl⟩ | ⟨_, hq'⟩
      · exact ⟨Function.update_self .., h.linked _ hk⟩
      · rw [Function.update_of_ne (hfree q k' l hq')]
        exact h.held q k' l hq'
    · rcases hcases q k' l hq with ⟨rfl, rfl, _⟩ | ⟨_, hq'⟩
      · rcases hcases r _ l' hr with ⟨rfl, _⟩ | ⟨_, hr'⟩
        · rfl
        · exact (hfree r _ l' hr' rfl).elim
      · rcases hcases r k' l' hr with ⟨_, rfl, _⟩ | ⟨_, hr'⟩
        · exact (hfree q _ l hq' rfl).elim
        · exact h.one q r k' l l' hq' hr'
    · rw [hheld]
      by_cases heq : k' = k
      · subst heq
        exact ⟨p, _, Function.update_self ..⟩
      · rw [hheads, Function.update_of_ne heq] at hk'
        obtain ⟨q, l, hq⟩ := h.taken k' hk'
        have hqp : q ≠ p := fun heq => by rw [heq, hp] at hq; cases hq
        exact ⟨q, l, (Function.update_of_ne hqp ..).trans hq⟩
    · rw [hheads] at hk' ⊢
      by_cases heq : k' = k
      · subst heq
        rw [Function.update_self] at hk'
        exact (hk' rfl).elim
      · rw [Function.update_of_ne heq] at hk' ⊢
        exact h.linked k' hk'

/-- **A process that holds a list gives back a list of nodes that are in no other.** -/
theorem put_locked (h : Locked s lists) {p : ι} {k : κ} {l₀ l : Link β} {bs : List β}
    (hp : s.held p = some (k, l₀)) (hl : Linked s.next l bs)
    (hdisjoint : ∀ b ∈ bs, ∀ k', k' ≠ k → b ∉ lists k') :
    Locked (s.put p k l) (Function.update lists k bs) := by
  have hheads : (s.put p k l).heads = Function.update s.heads k l := rfl
  have hcases : ∀ q k' l', (s.put p k l).held q = some (k', l') →
      s.held q = some (k', l') ∧ k' ≠ k := by
    intro q k' l' hq
    have hq' : Function.update s.held p none q = some (k', l') := hq
    by_cases hqp : q = p
    · subst hqp
      rw [Function.update_self] at hq'
      cases hq'
    · rw [Function.update_of_ne hqp] at hq'
      -- one holder for each list
      exact ⟨hq', fun heq => hqp (h.one q p k l' l₀ (heq ▸ hq') hp)⟩
  refine ⟨fun q k' l' hq => ?_, fun q r k' l₁ l₂ hq hr => ?_, fun k' hk' => ?_,
    fun k' hk' => ?_, fun k₁ k₂ b h₁ h₂ => ?_⟩
  · obtain ⟨hq', hne⟩ := hcases q k' l' hq
    rw [hheads, Function.update_of_ne hne, Function.update_of_ne hne]
    exact h.held q k' l' hq'
  · exact h.one q r k' l₁ l₂ (hcases q k' l₁ hq).1 (hcases r k' l₂ hr).1
  · rw [hheads] at hk'
    by_cases heq : k' = k
    · subst heq
      rw [Function.update_self] at hk'
      exact (hl.ne_null hk').elim
    · rw [Function.update_of_ne heq] at hk'
      obtain ⟨q, l', hq⟩ := h.taken k' hk'
      have hqp : q ≠ p := by
        rintro rfl
        rw [hp] at hq
        exact heq (Prod.mk.inj (Option.some.inj hq)).1.symm
      exact ⟨q, l', (Function.update_of_ne hqp ..).trans hq⟩
  · rw [hheads] at hk' ⊢
    by_cases heq : k' = k
    · subst heq
      rw [Function.update_self, Function.update_self]
      exact hl
    · rw [Function.update_of_ne heq] at hk' ⊢
      rw [Function.update_of_ne heq]
      exact h.linked k' hk'
  · by_cases heq₁ : k₁ = k
    · subst heq₁
      by_cases heq₂ : k₂ = k₁
      · exact heq₂.symm
      · rw [Function.update_self] at h₁
        rw [Function.update_of_ne heq₂] at h₂
        exact (hdisjoint b h₁ k₂ heq₂ h₂).elim
    · rw [Function.update_of_ne heq₁] at h₁
      by_cases heq₂ : k₂ = k
      · subst heq₂
        rw [Function.update_self] at h₂
        exact (hdisjoint b h₂ k₁ heq₁ h₁).elim
      · rw [Function.update_of_ne heq₂] at h₂
        exact h.disjoint k₁ k₂ b h₁ h₂

omit [DecidableEq κ] [DecidableEq ι] in
/-- The link of a node in no list can be written. -/
theorem write_locked [DecidableEq β] (h : Locked s lists) {b : β} (hb : ∀ k, b ∉ lists k)
    (l : Link β) :
    Locked (s.write b l) lists := by
  refine ⟨fun p k l' hp => ?_, h.one, h.taken, fun k hk => ?_, h.disjoint⟩
  · obtain ⟨hnull, hlinked⟩ := h.held p k l' hp
    exact ⟨hnull, (linked_update (hb k)).mpr hlinked⟩
  · exact (linked_update (hb k)).mpr (h.linked k hk)

end Moves

end CharmExperiments.Lib
