import CharmExperiments.Lib.LockedList

/-!
# Calls on lists behind heads

Processes `ι` that push nodes on lists `κ` and pop them, the lists being those of
`Lib.LockedList`: a node has one link, whatever list it is in, and a head that is `null`
is taken. A call is cut at its accesses to what is shared. It takes the head of its list
and returns at once when somebody else has it; or it writes or reads one link and gives
the head back, which it must find taken.

`CallsInv` is what every step of every call keeps, and `proceed_effect` says what a step
does to the lists: a push that returns has put its node in front, a pop that returns with
a node has taken the first, and no step finds the head it gives back open. Only a call
that returns because the head is taken did nothing (`proceed_open`).
-/

namespace CharmExperiments.Lib

variable {κ ι β : Type}

/-- What is called. -/
inductive ListOp (β : Type)
  | push (b : β)
  | pop

/-- The node that is pushed. -/
def ListOp.pushes : ListOp β → Option β
  | .push b => some b
  | .pop => none

/-- Where a call is. -/
inductive ListCall (β : Type)
  /-- A push, before its first exchange. -/
  | push (b : β)
  /-- The first exchange gave `head`. -/
  | linking (b : β) (head : Link β)
  /-- The link of the node is written. -/
  | publishing (b : β) (head : Link β)
  /-- A pop, before its first exchange. -/
  | pop
  /-- The first exchange gave the end of a list. -/
  | restoring
  /-- The first exchange gave a node. -/
  | reading (b : β)
  /-- The link of the node is known. -/
  | unlinking (b : β) (next : Link β)

namespace ListCall

def op : ListCall β → ListOp β
  | .push b | .linking b _ | .publishing b _ => .push b
  | .pop | .restoring | .reading _ | .unlinking .. => .pop

/-- What the call has taken from the head. -/
def held : ListCall β → Option (Link β)
  | .push _ | .pop => none
  | .linking _ head | .publishing _ head => some head
  | .restoring => some .tail
  | .reading b | .unlinking b _ => some (.node b)

/-- What the call knows of the links it wrote or read. -/
def Knows (next : β → Link β) : ListCall β → Prop
  | .publishing b head => next b = head
  | .unlinking b l => next b = l
  | _ => True

/-- The steps the call has left, at most. -/
def left : ListCall β → Nat
  | .push _ | .pop => 3
  | .linking .. | .reading _ => 2
  | .publishing .. | .restoring | .unlinking .. => 1

end ListCall

/-- A call before its first step. -/
def ListOp.start : ListOp β → ListCall β
  | .push b => .push b
  | .pop => .pop

@[simp] theorem start_op (o : ListOp β) : o.start.op = o := by
  cases o <;> rfl

@[simp] theorem start_held (o : ListOp β) : o.start.held = none := by
  cases o <;> rfl

/-- What a call returns. The head was taken for one that is `refused`, or `busy`. -/
inductive ListReply (β : Type)
  | pushed
  | refused
  | popped (b : β)
  | empty
  | busy

/-- What comes of a step. -/
inductive ListTurn (β : Type)
  | goes
  | returns (r : ListReply β)
  /-- The head that is given back was not taken. -/
  | fails

/-- The heads, the links, and the calls in progress. -/
structure ListCalls (κ ι β : Type) where
  heads : κ → Link β
  next : β → Link β
  calls : ι → Option (κ × ListCall β)

namespace ListCalls

/-- All lists are empty, and nothing is called. -/
def init (next : β → Link β) : ListCalls κ ι β := ⟨fun _ => .tail, next, fun _ => none⟩

/-- What a process holds. -/
def heldBy : Option (κ × ListCall β) → Option (κ × Link β)
  | none => none
  | some (k, c) => c.held.map fun l => (k, l)

/-- The heads and the processes, as `Lib.LockedList` sees them. -/
def slots (s : ListCalls κ ι β) : Slots κ ι β :=
  ⟨s.heads, s.next, fun p => heldBy (s.calls p)⟩

section Steps

variable [DecidableEq ι]

def setCall (s : ListCalls κ ι β) (p : ι) (c : Option (κ × ListCall β)) :
    ListCalls κ ι β :=
  { s with calls := Function.update s.calls p c }

/-- `p` calls `o` on list `k`. -/
def start (s : ListCalls κ ι β) (p : ι) (k : κ) (o : ListOp β) : ListCalls κ ι β :=
  s.setCall p (some (k, o.start))

variable [DecidableEq κ] [DecidableEq β]

/-- The exchange of the head of `k`. -/
def exchange (s : ListCalls κ ι β) (k : κ) (l : Link β) : Link β × ListCalls κ ι β :=
  (s.heads k, { s with heads := Function.update s.heads k l })

/-- The link of `b` is written. -/
def write (s : ListCalls κ ι β) (b : β) (l : Link β) : ListCalls κ ι β :=
  { s with next := Function.update s.next b l }

/-- The head is given back, and the call returns. -/
def give (s : ListCalls κ ι β) (p : ι) (k : κ) (l : Link β) (r : ListReply β) :
    ListCalls κ ι β × ListTurn β :=
  let (swap, s) := s.exchange k l
  (s.setCall p none, if swap = .null then .returns r else .fails)

/-- The next step of the call `c` of `p` on list `k`. -/
def proceed (s : ListCalls κ ι β) (p : ι) (k : κ) : ListCall β →
    ListCalls κ ι β × ListTurn β
  | .push b =>
    let (head, s) := s.exchange k .null
    if head = .null then (s.setCall p none, .returns .refused)
    else (s.setCall p (some (k, .linking b head)), .goes)
  | .linking b head => ((s.write b head).setCall p (some (k, .publishing b head)), .goes)
  | .publishing b _ => s.give p k (.node b) .pushed
  | .pop =>
    let (head, s) := s.exchange k .null
    match head with
    | .null => (s.setCall p none, .returns .busy)
    | .tail => (s.setCall p (some (k, .restoring)), .goes)
    | .node b => (s.setCall p (some (k, .reading b)), .goes)
  | .restoring => s.give p k .tail .empty
  | .reading b => (s.setCall p (some (k, .unlinking b (s.next b))), .goes)
  | .unlinking b next => s.give p k next (.popped b)

end Steps

end ListCalls

/-! ## What a step does -/

/-- What a step of the call `c` on list `k` leaves of it: it goes on holding its head. -/
def ListTurn.Leaves (k : κ) (c : ListCall β) (x : Option (κ × ListCall β)) : ListTurn β →
    Prop
  | .goes => ∃ c', x = some (k, c') ∧ c'.op = c.op ∧ c'.held ≠ none ∧ c'.left < c.left
  | _ => x = none

/-- What a step of a call of `o` on list `k` does, when it finds `head`. -/
inductive ListEffect [DecidableEq κ] (head : Link β) (lists : κ → List β) (k : κ) :
    ListOp β → ListTurn β → (κ → List β) → Prop
  | goes (o : ListOp β) : ListEffect head lists k o .goes lists
  | pushed (b : β) :
    ListEffect head lists k (.push b) (.returns .pushed)
      (Function.update lists k (b :: lists k))
  | refused (b : β) : head = .null →
    ListEffect head lists k (.push b) (.returns .refused) lists
  | popped (b : β) (rest : List β) : lists k = b :: rest →
    ListEffect head lists k .pop (.returns (.popped b)) (Function.update lists k rest)
  | empty : lists k = [] → ListEffect head lists k .pop (.returns .empty) lists
  | busy : head = .null → ListEffect head lists k .pop (.returns .busy) lists

/-- What the calls keep: the heads are taken and given back, a node that is being pushed
is in no list and pushed by one process, and the calls know the links they wrote or read. -/
structure CallsInv (s : ListCalls κ ι β) (lists : κ → List β) : Prop where
  locked : Locked s.slots lists
  apart : ∀ p k c b, s.calls p = some (k, c) → c.op.pushes = some b → ∀ k', b ∉ lists k'
  one : ∀ p q k k' c c' b, s.calls p = some (k, c) → s.calls q = some (k', c') →
    c.op.pushes = some b → c'.op.pushes = some b → p = q
  knows : ∀ p k c, s.calls p = some (k, c) → c.Knows s.next

namespace ListCalls

variable {s : ListCalls κ ι β} {lists lists' : κ → List β} {p : ι} {k : κ}
  {c : ListCall β}

theorem slots_held {l : Link β} (hcall : s.calls p = some (k, c))
    (hheld : c.held = some l) :
    s.slots.held p = some (k, l) := by
  show heldBy (s.calls p) = _
  rw [hcall, heldBy, hheld, Option.map_some]

theorem slots_free (hcall : s.calls p = some (k, c)) (hheld : c.held = none) :
    s.slots.held p = none := by
  show heldBy (s.calls p) = _
  rw [hcall, heldBy, hheld, Option.map_none]

theorem slots_idle (hcall : s.calls p = none) : s.slots.held p = none := by
  show heldBy (s.calls p) = _
  rw [hcall, heldBy]

section Moves

variable [DecidableEq ι]

theorem setCall_self (p : ι) (x : Option (κ × ListCall β)) :
    (s.setCall p x).calls p = x :=
  Function.update_self ..

theorem setCall_other {q : ι} (h : q ≠ p) (x : Option (κ × ListCall β)) :
    (s.setCall p x).calls q = s.calls q := Function.update_of_ne h ..

theorem setCall_slots (p : ι) (x : Option (κ × ListCall β)) :
    (s.setCall p x).slots = ⟨s.heads, s.next, Function.update s.slots.held p
      (heldBy x)⟩ := by
  have hheld : (fun q => heldBy ((s.setCall p x).calls q)) =
      Function.update s.slots.held p (heldBy x) := by
    funext q
    by_cases hqp : q = p
    · subst hqp
      rw [setCall_self, Function.update_self]
    · rw [setCall_other hqp, Function.update_of_ne hqp]
      rfl
  exact congrArg (Slots.mk s.heads s.next) hheld

/-- A process that holds nothing more, and nothing less. -/
theorem setCall_slots_same {x : Option (κ × ListCall β)} (h : heldBy x = s.slots.held p) :
    (s.setCall p x).slots = s.slots := by
  rw [setCall_slots, h, Function.update_eq_self]
  rfl

end Moves

end ListCalls

namespace CallsInv

open ListCalls

variable {s : ListCalls κ ι β} {lists lists' : κ → List β} {p : ι} {k : κ}
  {c : ListCall β}

section Moves

variable [DecidableEq ι]

/-- A step of a call keeps what is known of the calls, if it changes no link that another
call relies on and puts no node into a list but the one it pushes. -/
theorem stepped {s' : ListCalls κ ι β}
    (h : CallsInv s lists) (hcall : s.calls p = some (k, c)) {x : Option (κ × ListCall β)}
    (hcalls : s'.calls = Function.update s.calls p x) (hlocked : Locked s'.slots lists')
    (hx : ∀ k' c', x = some (k', c') → c'.op = c.op ∧ c'.Knows s'.next)
    (hlists : ∀ k' b, b ∈ lists' k' → b ∈ lists k' ∨ x = none ∧ c.op.pushes = some b)
    (hnext : ∀ q k' c', q ≠ p → s.calls q = some (k', c') → c'.Knows s'.next) :
    CallsInv s' lists' := by
  have hcases : ∀ q k' c', s'.calls q = some (k', c') →
      q = p ∧ x = some (k', c') ∨ q ≠ p ∧ s.calls q = some (k', c') := by
    intro q k' c' hq
    rw [hcalls] at hq
    by_cases hqp : q = p
    · subst hqp
      rw [Function.update_self] at hq
      exact Or.inl ⟨rfl, hq⟩
    · rw [Function.update_of_ne hqp] at hq
      exact Or.inr ⟨hqp, hq⟩
  -- what a process pushes it pushed before
  have hpushed : ∀ q k' c' b, s'.calls q = some (k', c') → c'.op.pushes = some b →
      ∃ k₀ c₀, s.calls q = some (k₀, c₀) ∧ c₀.op.pushes = some b := by
    intro q k' c' b hq hb
    rcases hcases q k' c' hq with ⟨rfl, hx'⟩ | ⟨_, hq'⟩
    · exact ⟨k, c, hcall, (hx k' c' hx').1 ▸ hb⟩
    · exact ⟨k', c', hq', hb⟩
  refine ⟨hlocked, fun q k' c' b hq hb k₁ hmem => ?_,
    fun q r k₁ k₂ c₁ c₂ b hq hr hb₁ hb₂ => ?_, fun q k' c' hq => ?_⟩
  · obtain ⟨k₀, c₀, hq₀, hb₀⟩ := hpushed q k' c' b hq hb
    rcases hlists k₁ b hmem with hmem' | ⟨hnone, hpb⟩
    · exact h.apart q k₀ c₀ b hq₀ hb₀ k₁ hmem'
    · obtain rfl := h.one q p k₀ k c₀ c b hq₀ hcall hb₀ hpb
      rw [hcalls, Function.update_self, hnone] at hq
      cases hq
  · obtain ⟨k₀, c₀, hq₀, hb₀⟩ := hpushed q k₁ c₁ b hq hb₁
    obtain ⟨k₀', c₀', hr₀, hb₀'⟩ := hpushed r k₂ c₂ b hr hb₂
    exact h.one q r k₀ k₀' c₀ c₀' b hq₀ hr₀ hb₀ hb₀'
  · rcases hcases q k' c' hq with ⟨rfl, hx'⟩ | ⟨hne, hq'⟩
    · exact (hx k' c' hx').2
    · exact hnext q k' c' hne hq'

omit [DecidableEq ι] in
/-- No list has a node twice. -/
theorem nodup (h : CallsInv s lists) (k : κ) : (lists k).Nodup := by
  by_cases hk : s.heads k = .null
  · obtain ⟨p, l, hp⟩ := h.locked.taken k hk
    exact (h.locked.held p k l hp).2.nodup
  · exact (h.locked.linked k hk).nodup

/-- A step that neither moves a node nor writes a link. -/
theorem looked {s' : ListCalls κ ι β} (h : CallsInv s lists)
    (hcall : s.calls p = some (k, c))
    {x : Option (κ × ListCall β)} (hcalls : s'.calls = Function.update s.calls p x)
    (hlocked : Locked s'.slots lists) (hnext : s'.next = s.next)
    (hx : ∀ k' c', x = some (k', c') → c'.op = c.op ∧ c'.Knows s.next) :
    CallsInv s' lists :=
  h.stepped hcall hcalls hlocked (fun k' c' hx' => by rw [hnext]; exact hx k' c' hx')
    (fun _ _ hb => Or.inl hb) fun q k' c' _ hq => by rw [hnext]; exact h.knows q k' c' hq

omit [DecidableEq ι] in
/-- The list that a process holds. -/
theorem held (h : CallsInv s lists) (hcall : s.calls p = some (k, c)) {l : Link β}
    (hheld : c.held = some l) : s.heads k = .null ∧ Linked s.next l (lists k) :=
  h.locked.held p k l (slots_held hcall hheld)

variable [DecidableEq κ]

/-- A head is given back with a list of nodes that are in no other. -/
theorem given (h : CallsInv s lists) (hcall : s.calls p = some (k, c)) {l₀ l : Link β}
    (hheld : c.held = some l₀) {bs : List β} (r : ListReply β) (hl : Linked s.next l bs)
    (hbs : ∀ b ∈ bs, b ∈ lists k ∨ c.op.pushes = some b) :
    (s.give p k l r).2 = .returns r ∧
      CallsInv (s.give p k l r).1 (Function.update lists k bs) := by
  have hnull : s.heads k = .null := (h.held hcall hheld).1
  refine ⟨if_pos hnull, h.stepped hcall rfl ?_ (fun _ _ hx => by cases hx)
    (fun k' b hb => ?_)
    fun q k' c' _ hq => h.knows q k' c' hq⟩
  · have hput :=
      put_locked h.locked (slots_held hcall hheld) hl fun b hb k' hk' hmem => ?_
    · have hslots : (s.give p k l r).1.slots = s.slots.put p k l := setCall_slots p none
      rw [hslots]
      exact hput
    · rcases hbs b hb with hmem' | hpush
      · exact hk' (h.locked.disjoint k' k b hmem hmem')
      · exact h.apart p k c b hcall hpush k' hmem
  · by_cases hk' : k' = k
    · subst hk'
      rw [Function.update_self] at hb
      exact (hbs b hb).imp_right fun hpush => ⟨rfl, hpush⟩
    · rw [Function.update_of_ne hk'] at hb
      exact Or.inl hb

/-- An exchange of a head for `null` that finds a list. -/
theorem took (h : CallsInv s lists) (hcall : s.calls p = some (k, c))
    (hfree : c.held = none) (hopen : s.heads k ≠ .null) {c' : ListCall β}
    (hop : c'.op = c.op) (hheld : c'.held = some (s.heads k)) (hknows : c'.Knows s.next) :
    CallsInv ((s.exchange k .null).2.setCall p (some (k, c'))) lists := by
  refine h.looked hcall rfl ?_ rfl fun k₁ c₁ hx => ?_
  · have htake := take_locked h.locked (slots_free hcall hfree) k
    rw [take_open p (show s.slots.heads k ≠ .null from hopen)] at htake
    rw [setCall_slots, heldBy, hheld]
    exact htake
  · obtain ⟨rfl, rfl⟩ := Prod.mk.inj (Option.some.inj hx)
    exact ⟨hop, hknows⟩

/-- An exchange of a head for `null` that finds `null`. -/
theorem missed (h : CallsInv s lists) (hcall : s.calls p = some (k, c))
    (hfree : c.held = none) (hnull : s.heads k = .null) :
    CallsInv ((s.exchange k .null).2.setCall p none) lists := by
  have hsame : (s.exchange k .null).2 = s := by
    show ListCalls.mk (Function.update s.heads k .null) s.next s.calls = s
    rw [← hnull, Function.update_eq_self]
  rw [hsame]
  have hheld : heldBy none = s.slots.held p := (slots_free hcall hfree).symm
  refine h.looked hcall rfl ?_ rfl fun k₁ c₁ hx => by cases hx
  rw [setCall_slots_same hheld]
  exact h.locked

variable [DecidableEq β]

omit [DecidableEq κ] [DecidableEq ι] in
/-- The link of a node is written that is in no list, and that a call does not know. -/
theorem knows_write (h : CallsInv s lists) {b : β} (hb : ∀ k', b ∉ lists k') (l : Link β)
    (hcall : s.calls p = some (k, c)) (hpush : c.op.pushes ≠ some b) :
    c.Knows (s.write b l).next := by
  have hknows := h.knows p k c hcall
  cases c with
  | publishing b' head =>
    have hne : b' ≠ b := fun heq => hpush (congrArg some heq)
    exact (Function.update_of_ne hne ..).trans hknows
  | unlinking b' l' =>
    have hne : b' ≠ b := by
      rintro rfl
      obtain ⟨rest, hlist, _⟩ := linked_node.mp (h.held hcall rfl).2
      exact hb k (hlist ▸ List.mem_cons_self)
    exact (Function.update_of_ne hne ..).trans hknows
  | _ => trivial

omit [DecidableEq κ] [DecidableEq ι] in
/-- The link of a node is written that is in no list, and that nobody pushes. -/
theorem written (h : CallsInv s lists) {b : β} (hb : ∀ k', b ∉ lists k')
    (hpush : ∀ q k' c, s.calls q = some (k', c) → c.op.pushes ≠ some b) (l : Link β) :
    CallsInv (s.write b l) lists :=
  ⟨write_locked h.locked hb l, h.apart, h.one,
    fun q k' c hq => h.knows_write hb l hq (hpush q k' c hq)⟩

omit [DecidableEq κ] in
/-- The link of the node that is pushed is written. -/
theorem wrote (h : CallsInv s lists) {b : β} {head : Link β}
    (hcall : s.calls p = some (k, .linking b head)) :
    CallsInv ((s.write b head).setCall p (some (k, .publishing b head))) lists := by
  have hb : ∀ k', b ∉ lists k' := h.apart p k _ b hcall rfl
  have hheld : heldBy (some (k, .publishing b head)) = (s.write b head).slots.held p :=
    (slots_held hcall rfl).symm
  refine h.stepped hcall rfl ?_ (fun k' c' hx => ?_) (fun _ _ hb => Or.inl hb)
    fun q k' c' hqp hq => ?_
  · rw [setCall_slots_same hheld]
    exact write_locked h.locked hb head
  · obtain ⟨rfl, rfl⟩ := Prod.mk.inj (Option.some.inj hx)
    exact ⟨rfl, Function.update_self ..⟩
  · exact h.knows_write hb head hq fun hpush =>
      hqp (h.one q p k' k _ _ b hq hcall hpush rfl)

/-- **A step of a call keeps what the calls keep**, and this is what it does. -/
theorem proceed_effect (h : CallsInv s lists) (hcall : s.calls p = some (k, c)) :
    ∃ lists', CallsInv (s.proceed p k c).1 lists' ∧
      ListEffect (s.heads k) lists k c.op (s.proceed p k c).2 lists' := by
  cases c with
  | push b =>
    unfold ListCalls.proceed
    dsimp only
    by_cases hhead : (s.exchange k .null).1 = .null
    · rw [if_pos hhead]
      exact ⟨lists, h.missed hcall rfl hhead, .refused b hhead⟩
    · rw [if_neg hhead]
      exact ⟨lists, h.took hcall rfl hhead rfl rfl trivial, .goes _⟩
  | linking b head => exact ⟨lists, h.wrote hcall, .goes _⟩
  | publishing b head =>
    have hknows : s.next b = head := h.knows p k _ hcall
    have hl : Linked s.next (.node b) (b :: lists k) :=
      ⟨rfl, hknows ▸ (h.held hcall rfl).2⟩
    obtain ⟨hturn, hinv⟩ := h.given hcall rfl .pushed hl fun b' hb' =>
      (List.mem_cons.mp hb').elim (fun heq => Or.inr (heq ▸ rfl)) Or.inl
    refine ⟨_, hinv, ?_⟩
    show ListEffect _ _ _ _ (s.give p k (.node b) .pushed).2 _
    rw [hturn]
    exact .pushed b
  | pop =>
    unfold ListCalls.proceed
    dsimp only
    split
    next hhead => exact ⟨lists, h.missed hcall rfl hhead, .busy hhead⟩
    next hhead =>
      have hhead' : s.heads k = .tail := hhead
      have hopen : s.heads k ≠ .null := hhead' ▸ Link.tail_ne_null
      exact ⟨lists, h.took hcall rfl hopen rfl (congrArg some hhead.symm)
        trivial, .goes _⟩
    next b hhead =>
      have hhead' : s.heads k = .node b := hhead
      have hopen : s.heads k ≠ .null := hhead' ▸ Link.node_ne_null b
      exact ⟨lists, h.took hcall rfl hopen rfl (congrArg some hhead.symm)
        trivial, .goes _⟩
  | restoring =>
    have hl : Linked s.next .tail (lists k) := (h.held hcall rfl).2
    have hnil : lists k = [] := linked_tail.mp hl
    obtain ⟨hturn, hinv⟩ := h.given hcall rfl .empty hl fun _ => Or.inl
    rw [Function.update_eq_self] at hinv
    refine ⟨lists, hinv, ?_⟩
    show ListEffect _ _ _ _ (s.give p k .tail .empty).2 _
    rw [hturn]
    exact .empty hnil
  | reading b =>
    have hheld : heldBy (some (k, .unlinking b (s.next b))) = s.slots.held p :=
      (slots_held hcall rfl).symm
    refine ⟨lists, h.looked hcall rfl ?_ rfl fun k' c' hx => ?_, .goes _⟩
    · rw [ListCalls.proceed, setCall_slots_same hheld]
      exact h.locked
    · obtain ⟨rfl, rfl⟩ := Prod.mk.inj (Option.some.inj hx)
      exact ⟨rfl, rfl⟩
  | unlinking b next =>
    have hknows : s.next b = next := h.knows p k _ hcall
    obtain ⟨rest, hlist, hrest⟩ := linked_node.mp (h.held hcall rfl).2
    obtain ⟨hturn, hinv⟩ := h.given hcall rfl (.popped b) (hknows ▸ hrest) fun b' hb' =>
      Or.inl (hlist ▸ List.mem_cons_of_mem b hb')
    refine ⟨_, hinv, ?_⟩
    show ListEffect _ _ _ _ (s.give p k next (.popped b)).2 _
    rw [hturn]
    exact .popped b rest hlist

/-! ## Calls and returns -/

omit [DecidableEq ι] [DecidableEq κ] [DecidableEq β] in
/-- Nothing is in a list, and nothing is called. -/
theorem init (next : β → Link β) :
    CallsInv (ListCalls.init next : ListCalls κ ι β) fun _ => [] := by
  refine ⟨⟨?_, ?_, fun k hk => (Link.tail_ne_null hk).elim, fun k _ => rfl,
    ?_⟩, ?_, ?_, ?_⟩
  · intro p k l hp
    cases hp
  · intro p q k l l' hp
    cases hp
  · intro k k' b hb
    cases hb
  · intro p k c b hp
    cases hp
  · intro p q k k' c c' b hp
    cases hp
  · intro p k c hp
    cases hp

omit [DecidableEq κ] [DecidableEq β] in
/-- A process calls; what it pushes is in no list, and nobody else pushes it. -/
theorem started (h : CallsInv s lists) (hidle : s.calls p = none) (k : κ) (o : ListOp β)
    (hfree : ∀ b, o.pushes = some b → ∀ k', b ∉ lists k')
    (hmine : ∀ b, o.pushes = some b → ∀ q k' c, s.calls q = some (k', c) →
      c.op.pushes ≠ some b) :
    CallsInv (s.start p k o) lists := by
  have hcases : ∀ q k' c, (s.start p k o).calls q = some (k', c) →
      q = p ∧ c = o.start ∨ q ≠ p ∧ s.calls q = some (k', c) := by
    intro q k' c hq
    by_cases hqp : q = p
    · subst hqp
      obtain ⟨-, rfl⟩ := Prod.mk.inj (Option.some.inj ((setCall_self q _).symm.trans hq))
      exact Or.inl ⟨rfl, rfl⟩
    · exact Or.inr ⟨hqp, (setCall_other hqp _).symm.trans hq⟩
  refine ⟨?_, fun q k' c b hq hb => ?_, fun q r k₁ k₂ c₁ c₂ b hq hr hb₁ hb₂ => ?_,
    fun q k' c hq => ?_⟩
  · have hheld : heldBy (some (k, o.start)) = s.slots.held p := by
      rw [slots_idle hidle, heldBy, start_held, Option.map_none]
    rw [ListCalls.start, setCall_slots_same hheld]
    exact h.locked
  · rcases hcases q k' c hq with ⟨_, rfl⟩ | ⟨_, hq'⟩
    · exact hfree b (start_op o ▸ hb)
    · exact h.apart q k' c b hq' hb
  · rcases hcases q k₁ c₁ hq with ⟨rfl, rfl⟩ | ⟨_, hq'⟩ <;>
      rcases hcases r k₂ c₂ hr with ⟨rfl, rfl⟩ | ⟨_, hr'⟩
    · rfl
    · exact (hmine b (start_op o ▸ hb₁) r k₂ c₂ hr' hb₂).elim
    · exact (hmine b (start_op o ▸ hb₂) q k₁ c₁ hq' hb₁).elim
    · exact h.one q r k₁ k₂ c₁ c₂ b hq' hr' hb₁ hb₂
  · rcases hcases q k' c hq with ⟨_, rfl⟩ | ⟨_, hq'⟩
    · cases o <;> trivial
    · exact h.knows q k' c hq'

omit [DecidableEq ι] [DecidableEq κ] [DecidableEq β] in
/-- A head that nobody holds is open. -/
theorem open_head (h : CallsInv s lists) (hfree : ∀ q, s.slots.held q = none) (k : κ) :
    s.heads k ≠ .null := by
  intro hk
  obtain ⟨q, l, hq⟩ := h.locked.taken k hk
  rw [hfree q] at hq
  cases hq

/-- **A call does not find its head taken** when it has the head itself, or when nobody holds
one. -/
theorem proceed_open (h : CallsInv s lists) (hcall : s.calls p = some (k, c))
    (hown : c.held ≠ none ∨ ∀ q, s.slots.held q = none) :
    (s.proceed p k c).2 ≠ .returns .refused ∧ (s.proceed p k c).2 ≠ .returns .busy := by
  have hopen : c.held = none → s.heads k ≠ .null := fun hfree =>
    h.open_head (hown.resolve_left (not_not_intro hfree)) k
  obtain ⟨lists', -, heffect⟩ := h.proceed_effect hcall
  cases c with
  | push b =>
    constructor <;> intro hturn <;> rw [hturn] at heffect <;> cases heffect
    next hnull => exact hopen rfl hnull
  | pop =>
    constructor <;> intro hturn <;> rw [hturn] at heffect <;> cases heffect
    next hnull => exact hopen rfl hnull
  | linking | reading => constructor <;> intro hturn <;> cases hturn
  | publishing | restoring | unlinking =>
    -- the head is given back
    have hnull : s.heads k = .null := (h.held hcall rfl).1
    constructor <;> intro hturn <;>
      · rw [ListCalls.proceed, give] at hturn
        dsimp only [exchange] at hturn
        rw [if_pos hnull] at hturn
        cases hturn

end Moves

end CallsInv

namespace ListCalls

variable [DecidableEq ι] [DecidableEq κ] [DecidableEq β]

/-- A step changes the call of its process alone; a call goes on with less left, or is over. -/
theorem proceed_calls (s : ListCalls κ ι β) (p : ι) (k : κ) (c : ListCall β) :
    ∃ x, (s.proceed p k c).1.calls = Function.update s.calls p x ∧
      (s.proceed p k c).2.Leaves k c x := by
  have hgive : ∀ (l : Link β) (r : ListReply β), ∃ x,
      (s.give p k l r).1.calls = Function.update s.calls p x ∧
      (s.give p k l r).2.Leaves k c x := by
    intro l r
    refine ⟨none, rfl, ?_⟩
    unfold give exchange
    dsimp only
    split
    next => rfl
    next => rfl
  cases c with
  | push b =>
    unfold proceed exchange
    dsimp only
    split
    next => exact ⟨none, rfl, rfl⟩
    next => exact ⟨_, rfl, _, rfl, rfl, Option.some_ne_none _, Nat.lt_succ_self 2⟩
  | linking b head => exact ⟨_, rfl, _, rfl, rfl, Option.some_ne_none _,
    Nat.lt_succ_self 1⟩
  | pop =>
    unfold proceed exchange
    dsimp only
    split
    next => exact ⟨none, rfl, rfl⟩
    next => exact ⟨_, rfl, _, rfl, rfl, Option.some_ne_none _,
      Nat.lt_add_of_pos_right Nat.two_pos⟩
    next => exact ⟨_, rfl, _, rfl, rfl, Option.some_ne_none _, Nat.lt_succ_self 2⟩
  | reading b => exact ⟨_, rfl, _, rfl, rfl, Option.some_ne_none _, Nat.lt_succ_self 1⟩
  | publishing b head => exact hgive _ _
  | restoring => exact hgive _ _
  | unlinking b next => exact hgive _ _

end ListCalls

end CharmExperiments.Lib
