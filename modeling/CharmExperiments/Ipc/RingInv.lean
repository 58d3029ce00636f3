import CharmExperiments.Ipc.Ring

/-!
# What the ring keeps

A block is in one place at a time (`Spot`): being put, in the pool of its owner, with the
PE that took it out of there, in the queue of its owner, received, or handled. `Placed` says
so for the lists, the PEs and the record; every step moves one block at most
(`Placed.move`). With what the calls keep (`CallsInv`) and what a PE knows of its block
(`Pc.Knows`) this is the invariant `RingInv`.

`ring_sound` reads off it what the ring does: no assertion fails, and a run goes wrong only
when a PE fills a block of exactly the size it drew. A block is handled once, by its
owner, and by then nobody has it; and what a PE has received and what is in its queue are
the blocks sent to it, the last one among them.
-/

namespace CharmExperiments.Ipc

open CharmExperiments.Lib

variable {n beyond : Nat}

/-! ## Sizes -/

theorem drawnSize_mod (r : Nat) : drawnSize r % intSz = 0 := by
  unfold drawnSize maxSize intSz
  dsimp only
  split <;> omega

theorem kCutOffPoints_mod : ∀ c ∈ kCutOffPoints, c % intSz = 0 := by decide

theorem cutOffPoint_mod (pt : Fin kNumCutOffPoints) : cutOffPoint beyond pt % intSz = 0 :=
  kCutOffPoints_mod _ (cutOffPoint_mem pt.isLt)

/-! ## Blocks -/

/-- Where a block is. -/
inductive Spot
  | nowhere
  | making
  | pool
  | sender
  | queue
  | receiver
  | handled
deriving DecidableEq

namespace Pc

/-- The call of a list that is in progress. -/
def op (p : Fin n) : Pc n → Option (Head n × ListOp (Block n))
  | .putting _ _ pt blk => some (.pool p pt, .push blk)
  | .allocating _ _ pt => some (.pool (Ring.theirs p) pt, .pop)
  | .enqueuing _ xlatd => some (.queue (Ring.theirs p), .push xlatd)
  | .dequeuing => some (.queue p, .pop)
  | _ => none

/-- The block a PE has, the place this is, and whose block it is. -/
def block (p : Fin n) : Pc n → Option (Block n × Spot × Fin n)
  | .putting _ _ _ blk => some (blk, .making, p)
  | .marking _ _ xlatd | .filling _ _ xlatd | .enqueuing _ xlatd =>
    some (xlatd, .sender, Ring.theirs p)
  | .handling block => some (block, .receiver, p)
  | _ => none

/-- What was taken out of the queue and is not handled. -/
def checking : Pc n → List (Block n)
  | .handling block => [block]
  | _ => []

/-- How many blocks were sent. -/
def sent : Pc n → Nat
  | .waiting | .populating .. | .putting .. => 0
  | .drawing i | .allocating i _ _ | .marking i _ _ | .filling i _ _ => i
  | .enqueuing i _ => i - 1
  | .receiving | .dequeuing | .handling _ | .exited => numBlocks * 2

end Pc

namespace Blocks

/-- The block can be put into class `pt`, and taken from there. -/
structure Free (d : Blocks n) (beyond : Nat) (pt : Fin kNumCutOffPoints) (b : Block n) :
    Prop where
  used : d.used b = false
  room : d.room b = cutOffPoint beyond pt

/-- The block was filled, within its buffer. -/
structure Good (d : Blocks n) (b : Block n) : Prop where
  room : intSz + d.size b ≤ d.room b
  words : ∀ j < d.size b / intSz, d.words b (j + 1) = d.size b

/-- The block is marked as the last. -/
def isLast (d : Blocks n) (b : Block n) : Bool := d.words b 0 ≠ 0

/-- All other blocks are as they were. -/
structure Other (d d' : Blocks n) (b : Block n) : Prop where
  size : ∀ b', b' ≠ b → d'.size b' = d.size b'
  used : ∀ b', b' ≠ b → d'.used b' = d.used b'
  room : ∀ b', b' ≠ b → d'.room b' = d.room b'
  words : ∀ b', b' ≠ b → d'.words b' = d.words b'

end Blocks

/-- What a PE knows of where it is and of its block. -/
def Pc.Knows (beyond : Nat) (d : Blocks n) : Pc n → Prop
  | .populating i _ => i < numBlocks
  | .putting i _ pt blk => i < numBlocks ∧ d.Free beyond pt blk
  | .drawing i => i < numBlocks * 2
  | .allocating i sz pt => i < numBlocks * 2 ∧ sz % intSz = 0 ∧
    sizeClass beyond sz = some pt
  | .marking i sz xlatd => i < numBlocks * 2 ∧ sz % intSz = 0 ∧
    ∃ pt, sizeClass beyond sz = some pt ∧ d.Free beyond pt xlatd
  | .filling i sz xlatd => i < numBlocks * 2 ∧ sz % intSz = 0 ∧
    ∃ pt, sizeClass beyond sz = some pt ∧ d.room xlatd = cutOffPoint beyond pt
  | .enqueuing i xlatd => 0 < i ∧ i ≤ numBlocks * 2 ∧ d.Good xlatd ∧
    (d.isLast xlatd = true ↔ i = numBlocks * 2)
  | _ => True

namespace Blocks

variable {d d' : Blocks n} {b b' : Block n}

theorem Free.other {pt : Fin kNumCutOffPoints} (h : d.Free beyond pt b')
    (ho : d.Other d' b) (hne : b' ≠ b) : d'.Free beyond pt b' :=
  ⟨(ho.used b' hne).trans h.used, (ho.room b' hne).trans h.room⟩

theorem Good.other (h : d.Good b') (ho : d.Other d' b) (hne : b' ≠ b) : d'.Good b' := by
  refine ⟨?_, ?_⟩
  · rw [ho.size b' hne, ho.room b' hne]
    exact h.room
  · rw [ho.size b' hne, ho.words b' hne]
    exact h.words

theorem isLast_other (ho : d.Other d' b) (hne : b' ≠ b) : d'.isLast b' = d.isLast b' := by
  unfold isLast
  rw [ho.words b' hne]

theorem Knows.other {p : Fin n} {c : Pc n} (h : c.Knows beyond d) (ho : d.Other d' b)
    (hne : ∀ b' q o, c.block p = some (b', q, o) → b' ≠ b) : c.Knows beyond d' := by
  cases c with
  | putting i second pt blk => exact ⟨h.1, h.2.other ho (hne blk _ _ rfl)⟩
  | marking i sz xlatd =>
    obtain ⟨hi, hsz, pt, hpt, hfree⟩ := h
    exact ⟨hi, hsz, pt, hpt, hfree.other ho (hne xlatd _ _ rfl)⟩
  | filling i sz xlatd =>
    obtain ⟨hi, hsz, pt, hpt, hroom⟩ := h
    exact ⟨hi, hsz, pt, hpt, (ho.room xlatd (hne xlatd _ _ rfl)).trans hroom⟩
  | enqueuing i xlatd =>
    obtain ⟨hpos, hi, hgood, hlast⟩ := h
    have hx : xlatd ≠ b := hne xlatd _ _ rfl
    refine ⟨hpos, hi, hgood.other ho hx, ?_⟩
    rw [isLast_other ho hx]
    exact hlast
  | _ => exact h

end Blocks

namespace Ring

open ListCalls (setCall_self setCall_other)

/-! ## Places -/

theorem theirs_injective {p q : Fin n} (h : theirs p = theirs q) : p = q := by
  have hval : (p.val + 1) % n = (q.val + 1) % n := congrArg Fin.val h
  have hmod : ∀ r : Fin n, r.val + 1 < n ∧ (r.val + 1) % n = r.val + 1 ∨
      r.val + 1 = n ∧ (r.val + 1) % n = 0 := by
    intro r
    rcases Nat.lt_or_ge (r.val + 1) n with hlt | hge
    · exact Or.inl ⟨hlt, Nat.mod_eq_of_lt hlt⟩
    · have heq : r.val + 1 = n := Nat.le_antisymm r.isLt hge
      exact Or.inr ⟨heq, by rw [heq, Nat.mod_self]⟩
  refine Fin.ext ?_
  rcases hmod p with ⟨_, hp⟩ | ⟨_, hp⟩ <;> rcases hmod q with ⟨_, hq⟩ | ⟨_, hq⟩ <;> omega

/-- A block is somewhere, and there it has this owner. -/
inductive Has (s : Ring n) (lists : Head n → List (Block n)) : Block n → Spot → Fin n →
    Prop
  | pool (o : Fin n) (pt : Fin kNumCutOffPoints) (b : Block n) :
    b ∈ lists (.pool o pt) → Has s lists b .pool o
  | queue (o : Fin n) (b : Block n) : b ∈ lists (.queue o) → Has s lists b .queue o
  | pc (p : Fin n) (b : Block n) (q : Spot) (o : Fin n) :
    (s.pcs p).block p = some (b, q, o) → Has s lists b q o
  | handled (o : Fin n) (b : Block n) : b ∈ s.handled o → Has s lists b .handled o

/-- Every block is where `place` says, and no block is anywhere before it is allocated. -/
structure Placed (s : Ring n) (lists : Head n → List (Block n)) (place : Block n → Spot) :
    Prop where
  has : ∀ b q o, Has s lists b q o → place b = q ∧ b.owner = o
  made : ∀ b, place b ≠ .nowhere → b.serial < s.made b.owner

/-- What was sent to `o`: it waits in the queue, or was received. -/
def got (s : Ring n) (lists : Head n → List (Block n)) (o : Fin n) : List (Block n) :=
  lists (.queue o) ++ ((s.pcs o).checking ++ s.handled o)

/-- As much was sent as is there, and the last block is there when all were sent. -/
structure Counts (s : Ring n) (lists : Head n → List (Block n)) : Prop where
  sent : ∀ p, (s.got lists (theirs p)).length = (s.pcs p).sent
  lasts : ∀ p, (s.got lists (theirs p)).countP s.blocks.isLast =
    if (s.pcs p).sent = numBlocks * 2 then 1 else 0

/-- A PE has exited when it has handled the last block, and handles no block twice. -/
structure Exits (s : Ring n) : Prop where
  once : ∀ p, (s.handled p).Nodup
  exits : ∀ p, s.pcs p = .exited ↔ ∃ b ∈ s.handled p, s.blocks.isLast b = true

/-- What every step keeps. -/
structure RingInv (beyond : Nat) (s : Ring n) (lists : Head n → List (Block n))
    (place : Block n → Spot) : Prop where
  calls : CallsInv s.mem lists
  asks : ∀ p, (s.mem.calls p).map (fun x => (x.1, x.2.op)) = (s.pcs p).op p
  placed : Placed s lists place
  knows : ∀ p, (s.pcs p).Knows beyond s.blocks
  free : ∀ o pt b, b ∈ lists (.pool o pt) → s.blocks.Free beyond pt b
  good : ∀ b o, b ∈ s.got lists o → s.blocks.Good b
  counts : Counts s lists
  exits : Exits s

variable {s s' : Ring n} {lists lists' : Head n → List (Block n)} {place : Block n → Spot}
  {p : Fin n} {c : Pc n}

theorem block_owner {b : Block n} {q : Spot} {o : Fin n}
    (h : c.block p = some (b, q, o)) :
    q = .sender ∧ o = theirs p ∨ q ≠ .sender ∧ o = p := by
  cases c with
  | putting | handling =>
    cases h
    exact Or.inr ⟨fun h => (by cases h), rfl⟩
  | marking | filling | enqueuing =>
    cases h
    exact Or.inl ⟨rfl, rfl⟩
  | _ => cases h

theorem block_place {b : Block n} {q : Spot} {o : Fin n}
    (h : c.block p = some (b, q, o)) :
    q = .making ∨ q = .sender ∨ q = .receiver := by
  cases c with
  | putting => cases h; exact Or.inl rfl
  | marking | filling | enqueuing => cases h; exact Or.inr (Or.inl rfl)
  | handling => cases h; exact Or.inr (Or.inr rfl)
  | _ => cases h

/-- What was sent to a PE is in one of three places. -/
theorem got_has {b : Block n} {o : Fin n} (h : b ∈ s.got lists o) :
    ∃ q, Has s lists b q o ∧ (q = .queue ∨ q = .receiver ∨ q = .handled) := by
  rcases List.mem_append.mp h with hq | h
  · exact ⟨_, .queue o b hq, Or.inl rfl⟩
  rcases List.mem_append.mp h with hc | hh
  · refine ⟨.receiver, .pc o b _ o ?_, Or.inr (Or.inl rfl)⟩
    generalize s.pcs o = c at hc ⊢
    cases c with
    | handling block => rw [List.mem_singleton.mp hc]; rfl
    | _ => cases hc
  · exact ⟨_, .handled o b hh, Or.inr (Or.inr rfl)⟩

namespace Placed

/-- A block is in one place. -/
theorem ne (h : Placed s lists place) {b b' : Block n} {q q' : Spot} {o o' : Fin n}
    (hb' : Has s lists b' q' o') (hb : Has s lists b q o) (hq : q' ≠ q) : b' ≠ b := by
  rintro rfl
  exact hq ((h.has _ _ _ hb').1.symm.trans (h.has _ _ _ hb).1)

/-- Two PEs have two blocks. -/
theorem ne_pc (h : Placed s lists place) {b b' : Block n} {q q' : Spot} {o o' p' : Fin n}
    (hb' : (s.pcs p').block p' = some (b', q', o'))
    (hb : (s.pcs p).block p = some (b, q, o)) (hp : p' ≠ p) : b' ≠ b := by
  rintro rfl
  obtain ⟨hplace', howner'⟩ := h.has _ _ _ (.pc p' _ _ _ hb')
  obtain ⟨hplace, howner⟩ := h.has _ _ _ (.pc p _ _ _ hb)
  have hq : q' = q := hplace'.symm.trans hplace
  have ho : o' = o := howner'.symm.trans howner
  subst hq ho
  rcases block_owner hb' with ⟨hs, rfl⟩ | ⟨hs, rfl⟩ <;>
    rcases block_owner hb with ⟨hs', ho⟩ | ⟨hs', ho⟩
  · exact hp (theirs_injective ho)
  · exact hs' hs
  · exact hs hs'
  · exact hp ho

/-- What was sent is not with a sender, nor anywhere else. -/
theorem ne_got (h : Placed s lists place) {b b' : Block n} {q : Spot} {o o' : Fin n}
    (hb' : b' ∈ s.got lists o') (hb : Has s lists b q o)
    (hq : q = .making ∨ q = .pool ∨ q = .sender) : b' ≠ b := by
  obtain ⟨q', hhas, hq'⟩ := got_has hb'
  refine h.ne hhas hb ?_
  rcases hq with rfl | rfl | rfl <;> rcases hq' with rfl | rfl | rfl <;>
    intro heq <;> cases heq

/-- A block that is not allocated is nowhere. -/
theorem ne_new (h : Placed s lists place) {b : Block n} {q : Spot} {o : Fin n}
    (hb : Has s lists b q o) (hq : q ≠ .nowhere) : b ≠ ⟨p, s.made p⟩ := by
  rintro rfl
  exact Nat.lt_irrefl _ (h.made _ ((h.has _ _ _ hb).1 ▸ hq))

/-- A block that is somewhere was allocated. -/
theorem has_new (h : Placed s lists place) {b : Block n} {q : Spot} {o : Fin n}
    (hb : Has s lists b q o) : b ≠ ⟨p, s.made p⟩ := by
  refine h.ne_new hb ?_
  cases hb with
  | pc r b q o hblock =>
    rcases block_place hblock with rfl | rfl | rfl <;> intro heq <;> cases heq
  | _ => intro heq; cases heq

/-- No block moves. -/
theorem stay (h : Placed s lists place) (hhas : ∀ b q o, Has s' lists' b q o →
    Has s lists b q o)
    (hmade : s'.made = s.made) : Placed s' lists' place :=
  ⟨fun b q o hb => h.has b q o (hhas b q o hb), fun b hb => hmade ▸ h.made b hb⟩

/-- **A step moves one block at most.** -/
theorem move (h : Placed s lists place) (b : Block n) (new : Spot)
    (hhas : ∀ b' q o, Has s' lists' b' q o →
      b' ≠ b ∧ Has s lists b' q o ∨ b' = b ∧ q = new ∧ o = b.owner)
    (hmade : ∀ p, s.made p ≤ s'.made p) (hb : b.serial < s'.made b.owner) :
    Placed s' lists' (Function.update place b new) := by
  refine ⟨fun b' q o hb' => ?_, fun b' hb' => ?_⟩
  · rcases hhas b' q o hb' with ⟨hne, hold⟩ | ⟨rfl, rfl, rfl⟩
    · rw [Function.update_of_ne hne]
      exact h.has b' q o hold
    · exact ⟨Function.update_self .., rfl⟩
  · by_cases hne : b' = b
    · exact hne ▸ hb
    · rw [Function.update_of_ne hne] at hb'
      exact Nat.lt_of_lt_of_le (h.made b' hb') (hmade _)

end Placed

/-! ## Frames -/

/-- What holds of every PE, when one has gone on. -/
theorem forall_update {P : Fin n → Pc n → Prop} (hp : P p c)
    (h : ∀ q, q ≠ p → P q (s.pcs q)) :
    ∀ q, P q (Function.update s.pcs p c q) := by
  intro q
  by_cases hq : q = p
  · subst hq
    rw [Function.update_self]
    exact hp
  · rw [Function.update_of_ne hq]
    exact h q hq

theorem Counts.frame (h : Counts s lists) (hpcs : s'.pcs = Function.update s.pcs p c)
    (hsent : c.sent = (s.pcs p).sent) (hgot : ∀ o, (s'.got lists' o).Perm (s.got lists o))
    (hlast : ∀ b o, b ∈ s.got lists o → s'.blocks.isLast b = s.blocks.isLast b) :
    Counts s' lists' := by
  have hpc : ∀ q, (s'.pcs q).sent = (s.pcs q).sent := by
    rw [hpcs]
    exact forall_update (P := fun q c => c.sent = (s.pcs q).sent) hsent fun _ _ => rfl
  refine ⟨fun q => ?_, fun q => ?_⟩
  · rw [(hgot _).length_eq, hpc]
    exact h.sent q
  · rw [(hgot _).countP_eq, hpc, ← h.lasts q]
    exact List.countP_congr fun b hb => by rw [hlast b _ hb]

theorem Exits.frame (h : Exits s) (hpcs : s'.pcs = Function.update s.pcs p c)
    (hexit : s.pcs p ≠ .exited) (hexit' : c ≠ .exited) (hhandled : s'.handled = s.handled)
    (hlast : ∀ b o, b ∈ s.handled o → s'.blocks.isLast b = s.blocks.isLast b) :
    Exits s' := by
  refine ⟨fun q => hhandled ▸ h.once q, fun q => ?_⟩
  have hpc : s'.pcs q = .exited ↔ s.pcs q = .exited := by
    rw [hpcs]
    by_cases hq : q = p
    · subst hq
      rw [Function.update_self]
      exact ⟨fun h => (hexit' h).elim, fun h => (hexit h).elim⟩
    · rw [Function.update_of_ne hq]
  rw [hpc, h.exits q, hhandled]
  exact exists_congr fun b => and_congr_right fun hb => by rw [hlast b q hb]

/-- One block more is sent. -/
theorem Counts.enqueued (h : Counts s lists) {b : Block n}
    (hpcs : s'.pcs = Function.update s.pcs p c) (hblocks : s'.blocks = s.blocks)
    (hgot : ∀ o, s'.got lists' o = if o = theirs p then b :: s.got lists o
      else s.got lists o)
    (hsent : c.sent = (s.pcs p).sent + 1) (hle : c.sent ≤ numBlocks * 2)
    (hlast : s.blocks.isLast b = true ↔ c.sent = numBlocks * 2) : Counts s' lists' := by
  have hcases : ∀ q, q = p ∧ (s'.pcs q).sent = c.sent ∧
      s'.got lists' (theirs q) = b :: s.got lists (theirs q) ∨
      (s'.pcs q).sent = (s.pcs q).sent ∧ s'.got lists' (theirs q) =
      s.got lists (theirs q) := by
    intro q
    rw [hpcs, hgot]
    by_cases hq : q = p
    · subst hq
      rw [if_pos rfl, Function.update_self]
      exact Or.inl ⟨rfl, rfl, rfl⟩
    · rw [if_neg fun heq => hq (theirs_injective heq), Function.update_of_ne hq]
      exact Or.inr ⟨rfl, rfl⟩
  refine ⟨fun q => ?_, fun q => ?_⟩
  · rcases hcases q with ⟨rfl, hq, hgotq⟩ | ⟨hq, hgotq⟩
    · rw [hgotq, hq, List.length_cons, h.sent, hsent]
    · rw [hgotq, hq]
      exact h.sent q
  · rcases hcases q with ⟨rfl, hq, hgotq⟩ | ⟨hq, hgotq⟩
    · rw [hgotq, hq, hblocks, List.countP_cons, h.lasts, if_neg (by omega), Nat.zero_add]
      exact if_congr hlast rfl rfl
    · rw [hgotq, hq, hblocks]
      exact h.lasts q

/-- A PE has handled one block more, and exits if it was the last. -/
theorem Exits.done (h : Exits s) {b : Block n} (hpcs : s'.pcs = Function.update s.pcs p c)
    (hblocks : s'.blocks = s.blocks)
    (hhandled : s'.handled = Function.update s.handled p (b :: s.handled p))
    (hnew : b ∉ s.handled p) (hexit : s.pcs p ≠ .exited)
    (hc : c = .exited ↔ s.blocks.isLast b = true) : Exits s' := by
  refine ⟨fun q => ?_, fun q => ?_⟩
  · rw [hhandled]
    by_cases hq : q = p
    · subst hq
      rw [Function.update_self]
      exact List.nodup_cons.mpr ⟨hnew, h.once q⟩
    · rw [Function.update_of_ne hq]
      exact h.once q
  · rw [hpcs, hhandled, hblocks]
    by_cases hq : q = p
    · subst hq
      rw [Function.update_self, Function.update_self, List.exists_mem_cons_iff, hc]
      exact (or_iff_left fun hold => hexit ((h.exits q).mpr hold)).symm
    · rw [Function.update_of_ne hq, Function.update_of_ne hq]
      exact h.exits q

theorem got_frame (hpcs : s'.pcs = Function.update s.pcs p c)
    (hcheck : c.checking = (s.pcs p).checking) (hhandled : s'.handled = s.handled)
    (hqueue : ∀ o, lists' (.queue o) = lists (.queue o)) (o : Fin n) :
    s'.got lists' o = s.got lists o := by
  have hpc : (s'.pcs o).checking = (s.pcs o).checking := by
    rw [hpcs]
    exact forall_update (P := fun q c => c.checking = (s.pcs q).checking) hcheck
      (fun _ _ => rfl) o
  rw [got, got, hpc, hhandled, hqueue]

/-- **Where a block goes.** It was somewhere else before, and the PE that moved it has no
other. -/
theorem Placed.moved (h : Placed s lists place) {b : Block n}
    {old new : Spot} {o₀ : Fin n}
    (hold : Has s lists b old o₀) (hpcs : s'.pcs = Function.update s.pcs p c)
    (hmade : s'.made = s.made) (hnowhere : old ≠ .nowhere)
    (hpool : ∀ o pt b', b' ∈ lists' (.pool o pt) →
      b' ≠ b ∧ b' ∈ lists (.pool o pt) ∨ b' = b ∧ .pool = new ∧ o = b.owner)
    (hqueue : ∀ o b', b' ∈ lists' (.queue o) →
      b' ≠ b ∧ b' ∈ lists (.queue o) ∨ b' = b ∧ .queue = new ∧ o = b.owner)
    (hpc : ∀ b' q o, c.block p = some (b', q, o) → b' = b ∧ q = new ∧ o = b.owner)
    (hothers : ∀ q, q ≠ p → ∀ b' x, (s.pcs q).block q = some (b', x) → b' ≠ b)
    (hhandled : ∀ o b', b' ∈ s'.handled o →
      b' ≠ b ∧ b' ∈ s.handled o ∨ b' = b ∧ .handled = new ∧ o = b.owner) :
    Placed s' lists' (Function.update place b new) := by
  refine h.move b new (fun b' q o hb' => ?_) (fun q => Nat.le_of_eq (congrFun hmade q).symm) ?_
  · cases hb' with
    | pool o pt b' hmem =>
      exact (hpool o pt b' hmem).imp (And.imp_right fun h => .pool o pt b' h) id
    | queue o b' hmem => exact (hqueue o b' hmem).imp (And.imp_right fun h => .queue o b' h) id
    | handled o b' hmem =>
      exact (hhandled o b' hmem).imp (And.imp_right fun h => .handled o b' h) id
    | pc r b' q o hblock =>
      rw [hpcs] at hblock
      by_cases hr : r = p
      · subst hr
        rw [Function.update_self] at hblock
        exact Or.inr (hpc b' q o hblock)
      · rw [Function.update_of_ne hr] at hblock
        exact Or.inl ⟨hothers r hr b' _ hblock, .pc r b' q o hblock⟩
  · rw [hmade]
    exact h.made b ((h.has b old o₀ hold).1 ▸ hnowhere)

namespace RingInv

theorem asks_frame (h : RingInv beyond s lists place)
    (hpcs : s'.pcs = Function.update s.pcs p c)
    (hothers : ∀ q, q ≠ p → s'.mem.calls q = s.mem.calls q)
    (hask : (s'.mem.calls p).map (fun x => (x.1, x.2.op)) = c.op p) :
    ∀ q, (s'.mem.calls q).map (fun x => (x.1, x.2.op)) = (s'.pcs q).op q := by
  rw [hpcs]
  refine forall_update (P := fun q c =>
    (s'.mem.calls q).map (fun x => (x.1, x.2.op)) = c.op q)
    hask fun q hq => ?_
  rw [hothers q hq]
  exact h.asks q

theorem knows_frame (h : RingInv beyond s lists place)
    (hpcs : s'.pcs = Function.update s.pcs p c)
    {b : Block n} (hblocks : s.blocks.Other s'.blocks b)
    (hothers : ∀ q, q ≠ p → ∀ b' x, (s.pcs q).block q = some (b', x) → b' ≠ b)
    (hknows : c.Knows beyond s'.blocks) : ∀ q, (s'.pcs q).Knows beyond s'.blocks := by
  rw [hpcs]
  exact forall_update (P := fun _ c => c.Knows beyond s'.blocks) hknows fun q hq =>
    Blocks.Knows.other (h.knows q) hblocks fun b' x o hb' => hothers q hq b' _ hb'

theorem knows_same (h : RingInv beyond s lists place)
    (hpcs : s'.pcs = Function.update s.pcs p c) (hblocks : s'.blocks = s.blocks)
    (hknows : c.Knows beyond s.blocks) :
    ∀ q, (s'.pcs q).Knows beyond s'.blocks := by
  rw [hpcs, hblocks]
  exact forall_update (P := fun _ c => c.Knows beyond s.blocks) hknows fun q _ =>
    h.knows q

/-- A PE that has no call of a list in progress. -/
theorem idle (h : RingInv beyond s lists place) (hop : (s.pcs p).op p = none) :
    s.mem.calls p = none :=
  Option.map_eq_none_iff.mp ((h.asks p).trans hop)

/-- What a PE pushes is its block. -/
theorem pushes_block (h : RingInv beyond s lists place) {k : Head n}
    {x : ListCall (Block n)}
    {b : Block n} (hcall : s.mem.calls p = some (k, x)) (hb : x.op.pushes = some b) :
    ∃ y, (s.pcs p).block p = some (b, y) := by
  have hask := h.asks p
  rw [hcall, Option.map_some] at hask
  generalize s.pcs p = c at hask ⊢
  cases c with
  | putting i second pt blk =>
    obtain ⟨-, hop⟩ := Prod.mk.inj (Option.some.inj hask)
    rw [hop] at hb
    obtain rfl := Option.some.inj hb
    exact ⟨_, rfl⟩
  | enqueuing i xlatd =>
    obtain ⟨-, hop⟩ := Prod.mk.inj (Option.some.inj hask)
    rw [hop] at hb
    obtain rfl := Option.some.inj hb
    exact ⟨_, rfl⟩
  | allocating | dequeuing =>
    obtain ⟨-, hop⟩ := Prod.mk.inj (Option.some.inj hask)
    rw [hop] at hb
    cases hb
  | _ => cases hask

/-- A PE goes on, its block if it has one stays with it, and no list changes. -/
theorem went (h : RingInv beyond s lists place) {m : ListCalls (Head n) (Fin n) (Block n)}
    (hcalls : CallsInv m lists) (hothers : ∀ q, q ≠ p → m.calls q = s.mem.calls q)
    (hask : (m.calls p).map (fun x => (x.1, x.2.op)) = c.op p)
    (hblock : ∀ x, c.block p = some x → (s.pcs p).block p = some x)
    (hcheck : c.checking = (s.pcs p).checking) (hsent : c.sent = (s.pcs p).sent)
    (hexit : s.pcs p ≠ .exited) (hexit' : c ≠ .exited)
    (hknows : c.Knows beyond s.blocks) :
    RingInv beyond ({ s with mem := m }.goto p c) lists place := by
  have hgot : ∀ o, ({ s with mem := m }.goto p c).got lists o = s.got lists o :=
    got_frame rfl hcheck rfl fun _ => rfl
  refine ⟨hcalls, h.asks_frame rfl hothers hask, h.placed.stay (fun b q o hb => ?_) rfl,
    h.knows_same rfl rfl hknows, h.free, fun b o hb => h.good b o (hgot o ▸ hb),
    h.counts.frame rfl hsent (fun o => List.Perm.of_eq (hgot o)) fun _ _ _ => rfl,
    h.exits.frame rfl hexit hexit' rfl fun _ _ _ => rfl⟩
  cases hb with
  | pool o pt b hmem => exact .pool o pt b hmem
  | queue o b hmem => exact .queue o b hmem
  | handled o b hmem => exact .handled o b hmem
  | pc r b q o hb =>
    have hb' : (Function.update s.pcs p c r).block r = some (b, q, o) := hb
    by_cases hr : r = p
    · subst hr
      rw [Function.update_self] at hb'
      exact .pc r b q o (hblock _ hb')
    · rw [Function.update_of_ne hr] at hb'
      exact .pc r b q o hb'

/-- The block of a PE is no other's. -/
theorem others (h : RingInv beyond s lists place) {b : Block n} {q : Spot} {o : Fin n}
    (hb : (s.pcs p).block p = some (b, q, o)) :
    ∀ r, r ≠ p → ∀ b' x, (s.pcs r).block r = some (b', x) → b' ≠ b := by
  intro r hr b' x hb'
  obtain ⟨q', o'⟩ := x
  exact h.placed.ne_pc hb' hb hr

/-- A PE calls a list, to push a block that is nowhere else. -/
theorem pushing (h : RingInv beyond s lists place)
    {m : ListCalls (Head n) (Fin n) (Block n)}
    (hcalls : CallsInv m lists) (hothers : ∀ q, q ≠ p → m.calls q = s.mem.calls q)
    (hidle : m.calls p = none) (k : Head n) {b : Block n} (hb : ∀ k', b ∉ lists k')
    (hpcs : ∀ q, q ≠ p → ∀ b' x, (s.pcs q).block q = some (b', x) → b' ≠ b) :
    CallsInv (m.start p k (.push b)) lists := by
  refine hcalls.started hidle k _ (fun b' hb' => ?_) fun b' hb' q k' x hq hpush => ?_
  · obtain rfl := Option.some.inj hb'
    exact hb
  · obtain rfl := Option.some.inj hb'
    have hqp : q ≠ p := by
      rintro rfl
      rw [hidle] at hq
      cases hq
    rw [hothers q hqp] at hq
    obtain ⟨y, hy⟩ := h.pushes_block hq hpush
    exact hpcs q hqp b y hy rfl

/-- A block that a PE has is in no list. -/
theorem unlisted (h : RingInv beyond s lists place) {b : Block n} {q : Spot} {o : Fin n}
    (hb : (s.pcs p).block p = some (b, q, o)) (hq : q = .sender ∨ q = .making)
    (k : Head n) :
    b ∉ lists k := by
  intro hmem
  cases k with
  | pool o' pt =>
    refine h.placed.ne (.pool o' pt b hmem) (.pc p b q o hb) ?_ rfl
    rcases hq with rfl | rfl <;> intro heq <;> cases heq
  | queue o' =>
    refine h.placed.ne (.queue o' b hmem) (.pc p b q o hb) ?_ rfl
    rcases hq with rfl | rfl <;> intro heq <;> cases heq

/-- `lput` returns `true`. -/
theorem put (h : RingInv beyond s lists place) {m : ListCalls (Head n) (Fin n) (Block n)}
    {i : Nat} {second : Bool} {pt : Fin kNumCutOffPoints} {blk : Block n}
    (hpc : s.pcs p = .putting i second pt blk)
    (hcalls : CallsInv m (Function.update lists (.pool p pt) (blk :: lists (.pool p pt))))
    (hothers : ∀ q, q ≠ p → m.calls q = s.mem.calls q) (hidle : m.calls p = none) :
    RingInv beyond ({ s with mem := m }.goto p (populated i second))
      (Function.update lists (.pool p pt) (blk :: lists (.pool p pt)))
      (Function.update place blk .pool) := by
  have hblock : (s.pcs p).block p = some (blk, .making, p) := by rw [hpc]; rfl
  have hold : Has s lists blk .making p := .pc p blk _ p hblock
  have howner : blk.owner = p := (h.placed.has _ _ _ hold).2
  have hknows : (s.pcs p).Knows beyond s.blocks := h.knows p
  rw [hpc] at hknows
  obtain ⟨hi, hfree⟩ := hknows
  have hqueue :
    ∀ o, Function.update lists (.pool p pt) (blk :: lists (.pool p pt)) (.queue o) =
      lists (.queue o) := fun o => Function.update_of_ne (fun heq => by cases heq) ..
  have hpool : ∀ o pt' b', b' ∈ Function.update lists (.pool p pt)
    (blk :: lists (.pool p pt))
      (.pool o pt') → b' ∈ lists (.pool o pt') ∨ b' = blk ∧ o = p ∧ pt' = pt := by
    intro o pt' b' hmem
    by_cases hk : (Head.pool o pt' : Head n) = .pool p pt
    · obtain ⟨rfl, rfl⟩ := Head.pool.inj hk
      rw [Function.update_self] at hmem
      exact (List.mem_cons.mp hmem).elim (fun heq => Or.inr ⟨heq, rfl, rfl⟩) Or.inl
    · rw [Function.update_of_ne hk] at hmem
      exact Or.inl hmem
  have hnone : (populated i second : Pc n).block p = none ∧
      (populated i second : Pc n).op p = none ∧
      (populated i second : Pc n).checking = [] ∧ (populated i second : Pc n).sent = 0 ∧
      (populated i second : Pc n) ≠ .exited ∧
      (populated i second : Pc n).Knows beyond s.blocks := by
    unfold populated
    split
    · split
      next hlt => exact ⟨rfl, rfl, rfl, rfl, fun h => (by cases h), hlt⟩
      next =>
        have hpos : 0 < numBlocks := Nat.lt_of_le_of_lt (Nat.zero_le i) hi
        exact ⟨rfl, rfl, rfl, rfl, fun h => (by cases h), Nat.mul_pos hpos Nat.two_pos⟩
    · exact ⟨rfl, rfl, rfl, rfl, fun h => (by cases h), hi⟩
  obtain ⟨hnoblock, hnoop, hcheck, hsent, hexit, hknows⟩ := hnone
  have hgot : ∀ o, ({ s with mem := m }.goto p (populated i second)).got
      (Function.update lists (.pool p pt) (blk :: lists (.pool p pt))) o =
      s.got lists o :=
    got_frame rfl (by rw [hcheck, hpc]; rfl) rfl hqueue
  refine ⟨hcalls,
    h.asks_frame rfl hothers ((congrArg (Option.map _) hidle).trans hnoop.symm),
    h.placed.moved hold rfl rfl (fun h => by cases h) (fun o pt' b' hmem => ?_)
      (fun o b' hmem => ?_) (fun b' q o hb' => by rw [hnoblock] at hb'; cases hb')
      (h.others hblock) (fun o b' hmem => ?_),
    h.knows_same rfl rfl hknows, fun o pt' b' hmem => ?_,
    fun b' o hb' => h.good b' o (hgot o ▸ hb'),
    h.counts.frame rfl (by rw [hsent, hpc]; rfl) (fun o => List.Perm.of_eq (hgot o))
      fun _ _ _ => rfl,
    h.exits.frame rfl (by rw [hpc]; exact fun h => by cases h) hexit rfl fun _ _ _ => rfl⟩
  · rcases hpool o pt' b' hmem with hmem' | ⟨rfl, rfl, rfl⟩
    · exact Or.inl ⟨h.placed.ne (.pool o pt' b' hmem') hold fun h => (by cases h), hmem'⟩
    · exact Or.inr ⟨rfl, rfl, howner.symm⟩
  · rw [hqueue] at hmem
    exact Or.inl ⟨h.placed.ne (.queue o b' hmem) hold fun h => (by cases h), hmem⟩
  · exact Or.inl ⟨h.placed.ne (.handled o b' hmem) hold fun h => (by cases h), hmem⟩
  · rcases hpool o pt' b' hmem with hmem' | ⟨rfl, rfl, rfl⟩
    · exact h.free o pt' b' hmem'
    · exact hfree

/-- `ralloc` is about to return a block. -/
theorem took (h : RingInv beyond s lists place) {m : ListCalls (Head n) (Fin n) (Block n)}
    {i sz : Nat} {pt : Fin kNumCutOffPoints} {b : Block n} {rest : List (Block n)}
    (hpc : s.pcs p = .allocating i sz pt)
    (hlist : lists (.pool (theirs p) pt) = b :: rest)
    (hcalls : CallsInv m (Function.update lists (.pool (theirs p) pt) rest))
    (hothers : ∀ q, q ≠ p → m.calls q = s.mem.calls q) (hidle : m.calls p = none) :
    RingInv beyond ({ s with mem := m }.goto p (.marking i sz b))
      (Function.update lists (.pool (theirs p) pt) rest)
      (Function.update place b .sender) := by
  have hmem : b ∈ lists (.pool (theirs p) pt) := hlist ▸ List.mem_cons_self
  have hold : Has s lists b .pool (theirs p) := .pool _ pt b hmem
  have howner : b.owner = theirs p := (h.placed.has _ _ _ hold).2
  have hnodup : b ∉ rest :=
    (List.nodup_cons.mp (hlist ▸ h.calls.nodup (.pool (theirs p) pt))).1
  have hknows : (s.pcs p).Knows beyond s.blocks := h.knows p
  rw [hpc] at hknows
  obtain ⟨hi, hsz, hclass⟩ := hknows
  have hqueue : ∀ o,
      Function.update lists (.pool (theirs p) pt) rest (.queue o) = lists (.queue o) :=
    fun o => Function.update_of_ne (fun heq => by cases heq) ..
  have hpool : ∀ o pt' b', b' ∈ Function.update lists (.pool (theirs p) pt) rest
    (.pool o pt') →
      b' ≠ b ∧ b' ∈ lists (.pool o pt') := by
    intro o pt' b' hmem'
    by_cases hk : (Head.pool o pt' : Head n) = .pool (theirs p) pt
    · rw [hk, Function.update_self] at hmem'
      rw [hk, hlist]
      exact ⟨fun heq => hnodup (heq ▸ hmem'), List.mem_cons_of_mem b hmem'⟩
    · rw [Function.update_of_ne hk] at hmem'
      refine ⟨fun heq => hk ?_, hmem'⟩
      exact h.calls.locked.disjoint _ _ b (heq ▸ hmem') hmem
  have hgot : ∀ o, ({ s with mem := m }.goto p (.marking i sz b)).got
      (Function.update lists (.pool (theirs p) pt) rest) o = s.got lists o :=
    got_frame rfl (by rw [hpc]; rfl) rfl hqueue
  refine ⟨hcalls, h.asks_frame rfl hothers (congrArg (Option.map _) hidle),
    h.placed.moved hold rfl rfl (fun h => by cases h)
      (fun o pt' b' hmem' => Or.inl (hpool o pt' b' hmem')) (fun o b' hmem' => ?_)
      (fun b' q o hb' => ?_) (fun r hr b' x hb' => ?_) (fun o b' hmem' => ?_),
    h.knows_same rfl rfl ⟨hi, hsz, pt, hclass, h.free _ pt b hmem⟩,
    fun o pt' b' hmem' => h.free o pt' b' (hpool o pt' b' hmem').2,
    fun b' o hb' => h.good b' o (hgot o ▸ hb'),
    h.counts.frame rfl (by rw [hpc]; rfl) (fun o => List.Perm.of_eq (hgot o))
      fun _ _ _ => rfl,
    h.exits.frame rfl (by rw [hpc]; exact fun h => by cases h) (fun h => by cases h) rfl
      fun _ _ _ => rfl⟩
  · rw [hqueue] at hmem'
    exact Or.inl ⟨h.placed.ne (.queue o b' hmem') hold fun h => (by cases h), hmem'⟩
  · cases hb'
    exact ⟨rfl, rfl, howner.symm⟩
  · obtain ⟨q, o⟩ := x
    refine h.placed.ne (.pc r b' q o hb') hold ?_
    rcases block_place hb' with rfl | rfl | rfl <;> intro heq <;> cases heq
  · exact Or.inl ⟨h.placed.ne (.handled o b' hmem') hold fun h => (by cases h), hmem'⟩

/-- A PE writes its block, before it puts it into a queue. -/
theorem wrote (h : RingInv beyond s lists place)
    {m : ListCalls (Head n) (Fin n) (Block n)}
    {d : Blocks n} {b : Block n}
    (hblock : (s.pcs p).block p = some (b, .sender, theirs p))
    (hblock' : c.block p = some (b, .sender, theirs p)) (hd : s.blocks.Other d b)
    (hcalls : CallsInv m lists) (hothers : ∀ q, q ≠ p → m.calls q = s.mem.calls q)
    (hask : (m.calls p).map (fun x => (x.1, x.2.op)) = c.op p)
    (hsent : c.sent = (s.pcs p).sent) (hknows : c.Knows beyond d) :
    RingInv beyond ({ s with mem := m, blocks := d }.goto p c) lists place := by
  have hold : Has s lists b .sender (theirs p) := .pc p b _ _ hblock
  have hcheck : ∀ {c : Pc n}, c.block p = some (b, .sender, theirs p) →
      c.checking = [] ∧ c ≠ .exited := by
    intro c hc
    cases c with
    | handling block => cases hc
    | exited => cases hc
    | _ => exact ⟨rfl, fun h => by cases h⟩
  have hgot : ∀ o, ({ s with mem := m, blocks := d }.goto p c).got lists o =
      s.got lists o :=
    got_frame rfl ((hcheck hblock').1.trans (hcheck hblock).1.symm) rfl fun _ => rfl
  have hne : ∀ b' o, b' ∈ s.got lists o → b' ≠ b := fun b' o hb' =>
    h.placed.ne_got hb' hold (Or.inr (Or.inr rfl))
  refine ⟨hcalls, h.asks_frame rfl hothers hask, h.placed.stay (fun b' q o hb' => ?_) rfl,
    h.knows_frame rfl hd (h.others hblock) hknows, fun o pt b' hmem => ?_,
    fun b' o hb' => ?_,
    h.counts.frame rfl hsent (fun o => List.Perm.of_eq (hgot o)) fun b' o hb' =>
      Blocks.isLast_other hd (hne b' o hb'),
    h.exits.frame rfl (hcheck hblock).2 (hcheck hblock').2 rfl fun b' o hb' =>
      Blocks.isLast_other hd
        (hne b' o (List.mem_append_right _ (List.mem_append_right _ hb')))⟩
  · cases hb' with
    | pool o pt b' hmem => exact .pool o pt b' hmem
    | queue o b' hmem => exact .queue o b' hmem
    | handled o b' hmem => exact .handled o b' hmem
    | pc r b' q o hb' =>
      have hr' : (Function.update s.pcs p c r).block r = some (b', q, o) := hb'
      by_cases hr : r = p
      · subst hr
        rw [Function.update_self, hblock', ← hblock] at hr'
        exact .pc r b' q o hr'
      · rw [Function.update_of_ne hr] at hr'
        exact .pc r b' q o hr'
  · exact (h.free o pt b' hmem).other hd
      (h.placed.ne (.pool o pt b' hmem) hold fun h => by cases h)
  · have hb'' : b' ∈ s.got lists o := hgot o ▸ hb'
    exact (h.good b' o hb'').other hd (hne b' o hb'')

/-- A block is allocated, and is about to be put into the pool. -/
theorem allocated (h : RingInv beyond s lists place)
    {m : ListCalls (Head n) (Fin n) (Block n)}
    {d : Blocks n} {i : Nat} {second : Bool} {pt : Fin kNumCutOffPoints}
    (hpc : s.pcs p = .populating i second) (hd : s.blocks.Other d ⟨p, s.made p⟩)
    (hfree : d.Free beyond pt ⟨p, s.made p⟩)
    (hcalls : CallsInv m lists) (hothers : ∀ q, q ≠ p → m.calls q = s.mem.calls q)
    (hask : (m.calls p).map (fun x => (x.1, x.2.op)) =
      some (.pool p pt, .push ⟨p, s.made p⟩)) :
    RingInv beyond ({ s with
        mem := m, blocks := d, made := Function.update s.made p (s.made p + 1) }.goto p
      (.putting i second pt ⟨p, s.made p⟩)) lists
      (Function.update place ⟨p, s.made p⟩ .making) := by
  have hnew : ∀ b q o, Has s lists b q o → b ≠ ⟨p, s.made p⟩ :=
    fun _ _ _ => h.placed.has_new
  have hgotNew : ∀ b o, b ∈ s.got lists o → b ≠ ⟨p, s.made p⟩ := fun b o hb =>
    (got_has hb).elim fun q hq => hnew b q o hq.1
  have hknows : (s.pcs p).Knows beyond s.blocks := h.knows p
  rw [hpc] at hknows
  have hgot : ∀ o, ({ s with
      mem := m, blocks := d, made := Function.update s.made p (s.made p + 1) }.goto p
      (.putting i second pt ⟨p, s.made p⟩)).got lists o = s.got lists o :=
    got_frame rfl (by rw [hpc]; rfl) rfl fun _ => rfl
  refine ⟨hcalls, h.asks_frame rfl hothers hask,
    h.placed.move _ _ (fun b q o hb => ?_) (fun q => ?_) ?_,
    h.knows_frame rfl hd (fun q _ b x hb => hnew b x.1 x.2 (.pc q b _ _ hb))
      ⟨hknows, hfree⟩,
    fun o pt' b hmem => (h.free o pt' b hmem).other hd (hnew b _ o (.pool o pt' b hmem)),
    fun b o hb => ?_,
    h.counts.frame rfl (by rw [hpc]; rfl)
      (fun o => List.Perm.of_eq (hgot o)) fun b o hb =>
      Blocks.isLast_other hd (hgotNew b o hb),
    h.exits.frame rfl (by rw [hpc]; exact fun h => by cases h) (fun h => by cases h) rfl
      fun b o hb => Blocks.isLast_other hd (hnew b _ o (.handled o b hb))⟩
  · cases hb with
    | pool o pt' b hmem => exact Or.inl ⟨hnew b _ o (.pool o pt' b hmem),
      .pool o pt' b hmem⟩
    | queue o b hmem => exact Or.inl ⟨hnew b _ o (.queue o b hmem), .queue o b hmem⟩
    | handled o b hmem => exact Or.inl ⟨hnew b _ o (.handled o b hmem), .handled o b hmem⟩
    | pc r b q o hb =>
      have hr' : (Function.update s.pcs p
        (.putting i second pt ⟨p, s.made p⟩) r).block r =
        some (b, q, o) := hb
      by_cases hr : r = p
      · subst hr
        rw [Function.update_self] at hr'
        cases hr'
        exact Or.inr ⟨rfl, rfl, rfl⟩
      · rw [Function.update_of_ne hr] at hr'
        exact Or.inl ⟨hnew b q o (.pc r b q o hr'), .pc r b q o hr'⟩
  · show s.made q ≤ Function.update s.made p (s.made p + 1) q
    by_cases hq : q = p
    · subst hq
      rw [Function.update_self]
      exact Nat.le_succ _
    · exact Nat.le_of_eq (Function.update_of_ne hq _ _).symm
  · show s.made p < Function.update s.made p (s.made p + 1) p
    rw [Function.update_self]
    exact Nat.lt_succ_self _
  · have hb' : b ∈ s.got lists o := hgot o ▸ hb
    exact (h.good b o hb').other hd (hgotNew b o hb')

/-- `enqueue` returns `true`. -/
theorem enqueued (h : RingInv beyond s lists place)
    {m : ListCalls (Head n) (Fin n) (Block n)}
    {i : Nat} {b : Block n} (hpc : s.pcs p = .enqueuing i b)
    (hcalls : CallsInv m
      (Function.update lists (.queue (theirs p)) (b :: lists (.queue (theirs p)))))
    (hothers : ∀ q, q ≠ p → m.calls q = s.mem.calls q) (hidle : m.calls p = none) :
    RingInv beyond
      ({ s with mem := m }.goto p (if i < numBlocks * 2 then .drawing i else .receiving))
      (Function.update lists (.queue (theirs p)) (b :: lists (.queue (theirs p))))
      (Function.update place b .queue) := by
  have hblock : (s.pcs p).block p = some (b, .sender, theirs p) := by rw [hpc]; rfl
  have hold : Has s lists b .sender (theirs p) := .pc p b _ _ hblock
  have howner : b.owner = theirs p := (h.placed.has _ _ _ hold).2
  have hknows : (s.pcs p).Knows beyond s.blocks := h.knows p
  rw [hpc] at hknows
  obtain ⟨hpos, hi, hgood, hlast⟩ := hknows
  have hnext : ∃ c : Pc n, (if i < numBlocks * 2 then .drawing i else .receiving) = c ∧
      c.block p = none ∧ c.op p = none ∧ c.checking = [] ∧ c.sent = i ∧ c ≠ .exited ∧
      c.Knows beyond s.blocks := by
    by_cases hlt : i < numBlocks * 2
    · exact ⟨_, if_pos hlt, rfl, rfl, rfl, rfl, fun h => (by cases h), hlt⟩
    · exact ⟨_, if_neg hlt, rfl, rfl, rfl, Nat.le_antisymm (Nat.le_of_not_lt hlt) hi,
        fun h => (by cases h), trivial⟩
  obtain ⟨c, hc, hnoblock, hnoop, hcheck, hsent, hexit, hknows⟩ := hnext
  rw [hc]
  have hpool : ∀ o pt, Function.update lists (.queue (theirs p)) (b :: lists
    (.queue (theirs p)))
      (.pool o pt) = lists (.pool o pt) :=
    fun o pt => Function.update_of_ne (fun heq => by cases heq) ..
  have hgot : ∀ o, ({ s with mem := m }.goto p c).got
      (Function.update lists (.queue (theirs p)) (b :: lists (.queue (theirs p)))) o =
      if o = theirs p then b :: s.got lists o else s.got lists o := by
    intro o
    have hpc' : (Function.update s.pcs p c o).checking = (s.pcs o).checking :=
      forall_update (P := fun q c => c.checking = (s.pcs q).checking)
        (by rw [hcheck, hpc]; rfl) (fun _ _ => rfl) o
    show Function.update lists _ _ (.queue o) ++
      ((Function.update s.pcs p c o).checking ++ s.handled o) = _
    rw [hpc']
    by_cases ho : o = theirs p
    · subst ho
      rw [Function.update_self, if_pos rfl]
      rfl
    · rw [Function.update_of_ne fun heq => ho (Head.queue.inj heq), if_neg ho]
      rfl
  have hsentp : (s.pcs p).sent = i - 1 := by rw [hpc]; rfl
  refine ⟨hcalls,
    h.asks_frame rfl hothers ((congrArg (Option.map _) hidle).trans hnoop.symm),
    h.placed.moved hold rfl rfl (fun h => by cases h) (fun o pt b' hmem => ?_)
      (fun o b' hmem => ?_) (fun b' q o hb' => by rw [hnoblock] at hb'; cases hb')
      (h.others hblock) (fun o b' hmem => ?_),
    h.knows_same rfl rfl hknows, fun o pt b' hmem => h.free o pt b' (hpool o pt ▸ hmem),
    fun b' o hb' => ?_,
    h.counts.enqueued rfl rfl hgot (by omega) (hsent ▸ hi) (hsent ▸ hlast),
    h.exits.frame rfl (by rw [hpc]; exact fun h => by cases h) hexit rfl fun _ _ _ => rfl⟩
  · rw [hpool] at hmem
    exact Or.inl ⟨h.placed.ne (.pool o pt b' hmem) hold fun h => (by cases h), hmem⟩
  · by_cases ho : o = theirs p
    · subst ho
      rw [Function.update_self] at hmem
      rcases List.mem_cons.mp hmem with rfl | hmem'
      · exact Or.inr ⟨rfl, rfl, howner.symm⟩
      · exact Or.inl ⟨h.placed.ne (.queue _ b' hmem') hold fun h => (by cases h), hmem'⟩
    · rw [Function.update_of_ne fun heq => ho (Head.queue.inj heq)] at hmem
      exact Or.inl ⟨h.placed.ne (.queue o b' hmem) hold fun h => (by cases h), hmem⟩
  · exact Or.inl ⟨h.placed.ne (.handled o b' hmem) hold fun h => (by cases h), hmem⟩
  · rw [hgot] at hb'
    split at hb'
    · exact (List.mem_cons.mp hb').elim (fun heq => heq ▸ hgood) (h.good b' o)
    · exact h.good b' o hb'

/-- `dequeue` returns a block. -/
theorem dequeued (h : RingInv beyond s lists place)
    {m : ListCalls (Head n) (Fin n) (Block n)}
    {b : Block n} {rest : List (Block n)} (hpc : s.pcs p = .dequeuing)
    (hlist : lists (.queue p) = b :: rest)
    (hcalls : CallsInv m (Function.update lists (.queue p) rest))
    (hothers : ∀ q, q ≠ p → m.calls q = s.mem.calls q) (hidle : m.calls p = none) :
    RingInv beyond ({ s with mem := m }.goto p (.handling b))
      (Function.update lists (.queue p) rest) (Function.update place b .receiver) := by
  have hmem : b ∈ lists (.queue p) := hlist ▸ List.mem_cons_self
  have hold : Has s lists b .queue p := .queue p b hmem
  have howner : b.owner = p := (h.placed.has _ _ _ hold).2
  have hnodup : b ∉ rest := (List.nodup_cons.mp (hlist ▸ h.calls.nodup (.queue p))).1
  have hpool : ∀ o pt, Function.update lists (.queue p) rest (.pool o pt) =
      lists (.pool o pt) :=
    fun o pt => Function.update_of_ne (fun heq => by cases heq) ..
  have hgot : ∀ o, (({ s with mem := m }.goto p (.handling b)).got
      (Function.update lists (.queue p) rest) o).Perm (s.got lists o) := by
    intro o
    show (Function.update lists _ _ (.queue o) ++
      ((Function.update s.pcs p (.handling b) o).checking ++ s.handled o)).Perm _
    by_cases ho : o = p
    · subst ho
      rw [Function.update_self, Function.update_self, got, hpc, hlist]
      exact List.perm_middle
    · rw [Function.update_of_ne ho, Function.update_of_ne fun heq =>
        ho (Head.queue.inj heq)]
      exact List.Perm.refl _
  refine ⟨hcalls, h.asks_frame rfl hothers (congrArg (Option.map _) hidle),
    h.placed.moved hold rfl rfl (fun h => by cases h) (fun o pt b' hmem' => ?_)
      (fun o b' hmem' => ?_) (fun b' q o hb' => ?_) (fun r hr b' x hb' => ?_)
      (fun o b' hmem' => ?_),
    h.knows_same rfl rfl trivial, fun o pt b' hmem' =>
      h.free o pt b' (hpool o pt ▸ hmem'),
    fun b' o hb' => h.good b' o ((hgot o).subset hb'),
    h.counts.frame rfl (by rw [hpc]; rfl) hgot fun _ _ _ => rfl,
    h.exits.frame rfl (by rw [hpc]; exact fun h => by cases h) (fun h => by cases h) rfl
      fun _ _ _ => rfl⟩
  · rw [hpool] at hmem'
    exact Or.inl ⟨h.placed.ne (.pool o pt b' hmem') hold fun h => (by cases h), hmem'⟩
  · by_cases ho : o = p
    · subst ho
      rw [Function.update_self] at hmem'
      exact Or.inl ⟨fun heq => hnodup (heq ▸ hmem'), hlist ▸ List.mem_cons_of_mem b hmem'⟩
    · have hk : (Head.queue o : Head n) ≠ .queue p := fun heq => ho (Head.queue.inj heq)
      rw [Function.update_of_ne hk] at hmem'
      exact Or.inl ⟨fun heq => hk (h.calls.locked.disjoint _ _ b (heq ▸ hmem') hmem),
        hmem'⟩
  · cases hb'
    exact ⟨rfl, rfl, howner.symm⟩
  · obtain ⟨q, o⟩ := x
    refine h.placed.ne (.pc r b' q o hb') hold ?_
    rcases block_place hb' with rfl | rfl | rfl <;> intro heq <;> cases heq
  · exact Or.inl ⟨h.placed.ne (.handled o b' hmem') hold fun h => (by cases h), hmem'⟩

/-- `handle_block` returns. -/
theorem done (h : RingInv beyond s lists place) {b : Block n}
    (hpc : s.pcs p = .handling b) (hc : s.blocks.isLast b = false ∧ c = .receiving ∨
      s.blocks.isLast b = true ∧ c = .exited) :
    RingInv beyond
      ({ s with handled := Function.update s.handled p (b :: s.handled p) }.goto p c)
      lists
      (Function.update place b .handled) := by
  have hblock : (s.pcs p).block p = some (b, .receiver, p) := by rw [hpc]; rfl
  have hold : Has s lists b .receiver p := .pc p b _ _ hblock
  have howner : b.owner = p := (h.placed.has _ _ _ hold).2
  have hnew : b ∉ s.handled p := fun hb =>
    h.placed.ne (.handled p b hb) hold (fun h => by cases h) rfl
  have hexit : c = .exited ↔ s.blocks.isLast b = true := by
    rcases hc with ⟨hlast, rfl⟩ | ⟨hlast, rfl⟩ <;> rw [hlast]
    · exact ⟨fun h => (by cases h), fun h => (by cases h)⟩
    · exact ⟨fun _ => rfl, fun _ => rfl⟩
  have hop : c.op p = none ∧ c.block p = none ∧ c.checking = [] ∧ c.sent = numBlocks * 2 ∧
      c.Knows beyond s.blocks := by
    rcases hc with ⟨-, rfl⟩ | ⟨-, rfl⟩ <;> exact ⟨rfl, rfl, rfl, rfl, trivial⟩
  obtain ⟨hnoop, hnoblock, hcheck, hsent, hknows⟩ := hop
  have hgot : ∀ o,
      ({ s with handled := Function.update s.handled p (b :: s.handled p) }.goto p
        c).got lists o =
        s.got lists o := by
    intro o
    show lists (.queue o) ++ ((Function.update s.pcs p c o).checking ++
      Function.update s.handled p (b :: s.handled p) o) = _
    by_cases ho : o = p
    · subst ho
      rw [Function.update_self, Function.update_self, hcheck, got, hpc]
      rfl
    · rw [Function.update_of_ne ho, Function.update_of_ne ho]
      rfl
  have hidle : s.mem.calls p = none := h.idle (by rw [hpc]; rfl)
  refine ⟨h.calls, h.asks_frame rfl (fun _ _ => rfl)
    ((congrArg (Option.map _) hidle).trans hnoop.symm),
    h.placed.moved hold rfl rfl (fun h => by cases h) (fun o pt b' hmem => ?_)
      (fun o b' hmem => ?_) (fun b' q o hb' => by rw [hnoblock] at hb'; cases hb')
      (h.others hblock) (fun o b' hmem => ?_),
    h.knows_same rfl rfl hknows, h.free, fun b' o hb' => h.good b' o (hgot o ▸ hb'),
    h.counts.frame rfl (by rw [hsent, hpc]; rfl) (fun o => List.Perm.of_eq (hgot o))
      fun _ _ _ => rfl,
    h.exits.done rfl rfl rfl hnew (by rw [hpc]; exact fun h => by cases h) hexit⟩
  · exact Or.inl ⟨h.placed.ne (.pool o pt b' hmem) hold fun h => (by cases h), hmem⟩
  · exact Or.inl ⟨h.placed.ne (.queue o b' hmem) hold fun h => (by cases h), hmem⟩
  · have hmem' : b' ∈ Function.update s.handled p (b :: s.handled p) o := hmem
    by_cases ho : o = p
    · subst ho
      rw [Function.update_self] at hmem'
      rcases List.mem_cons.mp hmem' with rfl | hmem'
      · exact Or.inr ⟨rfl, rfl, howner.symm⟩
      · exact Or.inl ⟨fun heq => hnew (heq ▸ hmem'), hmem'⟩
    · rw [Function.update_of_ne ho] at hmem'
      exact Or.inl ⟨h.placed.ne (.handled o b' hmem') hold fun h => (by cases h), hmem'⟩

/-- The invariant does not depend on how the run ends. -/
theorem failed (h : RingInv beyond s lists place) (t : Trouble) :
    RingInv beyond (s.fail t) lists place := by
  refine ⟨h.calls, h.asks, h.placed.stay (fun b q o hb => ?_) rfl, h.knows,
    h.free, h.good, ⟨h.counts.sent, h.counts.lasts⟩, ⟨h.exits.once, h.exits.exits⟩⟩
  cases hb with
  | pool o pt b hmem => exact .pool o pt b hmem
  | queue o b hmem => exact .queue o b hmem
  | handled o b hmem => exact .handled o b hmem
  | pc r b q o hb => exact .pc r b q o hb

/-! ## Steps -/

/-- A call of a list has returned. -/
theorem returned (h : RingInv beyond s lists place) {k : Head n} {x : ListCall (Block n)}
    (hcall : s.mem.calls p = some (k, x)) {m : ListCalls (Head n) (Fin n) (Block n)}
    (hcalls : CallsInv m lists') (hm : m.calls = Function.update s.mem.calls p none)
    {reply : ListReply (Block n)} {head : Link (Block n)}
    (heffect : ListEffect head lists k x.op (.returns reply) lists') :
    (∃ place', RingInv beyond ({ s with mem := m }.returned p (s.pcs p) reply)
      lists' place') ∧
      ({ s with mem := m }.returned p (s.pcs p) reply).trouble = s.trouble := by
  have hothers : ∀ q, q ≠ p → m.calls q = s.mem.calls q := fun q hq => by
    rw [hm, Function.update_of_ne hq]
  have hidle : m.calls p = none := by rw [hm, Function.update_self]
  have hknows : (s.pcs p).Knows beyond s.blocks := h.knows p
  have hask := h.asks p
  rw [hcall, Option.map_some] at hask
  cases hpc : s.pcs p with
  | putting i second pt blk =>
    rw [hpc] at hask hknows
    obtain ⟨rfl, hop⟩ := Prod.mk.inj (Option.some.inj hask)
    rw [hop] at heffect
    cases heffect with
    | pushed => exact ⟨⟨_, h.put hpc hcalls hothers hidle⟩, rfl⟩
    | refused =>
      -- the block is lost: the loop allocates another
      exact ⟨⟨_, h.went hcalls hothers (congrArg (Option.map _) hidle)
        (fun _ hx => by cases hx) (by rw [hpc]; rfl) (by rw [hpc]; rfl)
        (by rw [hpc]; exact fun h => by cases h) (fun h => by cases h) hknows.1⟩, rfl⟩
  | allocating i sz pt =>
    rw [hpc] at hask hknows
    obtain ⟨rfl, hop⟩ := Prod.mk.inj (Option.some.inj hask)
    rw [hop] at heffect
    have hagain : CallsInv m lists →
        RingInv beyond ({ s with mem := m }.goto p (.drawing i)) lists place :=
          fun hcalls =>
      h.went hcalls hothers (congrArg (Option.map _) hidle) (fun _ hx => by cases hx)
        (by rw [hpc]; rfl) (by rw [hpc]; rfl) (by rw [hpc]; exact fun h => by cases h)
        (fun h => by cases h) hknows.1
    cases heffect with
    | popped b rest hlist => exact ⟨⟨_, h.took hpc hlist hcalls hothers hidle⟩, rfl⟩
    | empty => exact ⟨⟨_, hagain hcalls⟩, rfl⟩
    | busy => exact ⟨⟨_, hagain hcalls⟩, rfl⟩
  | enqueuing i xlatd =>
    rw [hpc] at hask hknows
    obtain ⟨rfl, hop⟩ := Prod.mk.inj (Option.some.inj hask)
    rw [hop] at heffect
    have hblock : (s.pcs p).block p = some (xlatd, .sender, theirs p) := by rw [hpc]; rfl
    cases heffect with
    | pushed => exact ⟨⟨_, h.enqueued hpc hcalls hothers hidle⟩, rfl⟩
    | refused =>
      -- it is called again
      have hagain := h.pushing hcalls hothers hidle (.queue (theirs p))
        (h.unlisted hblock (Or.inl rfl)) (h.others hblock)
      refine ⟨⟨_, h.went hagain (fun q hq => ?_) ?_ (fun _ hx => by rw [hpc]; exact hx)
        (by rw [hpc]) (by rw [hpc]) (by rw [hpc]; exact fun h => by cases h)
        (fun h => by cases h) hknows⟩, rfl⟩
      · exact (setCall_other hq _).trans (hothers q hq)
      · rw [ListCalls.start, setCall_self]
        rfl
  | dequeuing =>
    rw [hpc] at hask
    obtain ⟨rfl, hop⟩ := Prod.mk.inj (Option.some.inj hask)
    rw [hop] at heffect
    have hagain : CallsInv m lists →
        RingInv beyond ({ s with mem := m }.goto p .receiving) lists place :=
          fun hcalls =>
      h.went hcalls hothers (congrArg (Option.map _) hidle) (fun _ hx => by cases hx)
        (by rw [hpc]; rfl) (by rw [hpc]; rfl) (by rw [hpc]; exact fun h => by cases h)
        (fun h => by cases h) trivial
    cases heffect with
    | popped b rest hlist => exact ⟨⟨_, h.dequeued hpc hlist hcalls hothers hidle⟩, rfl⟩
    | empty => exact ⟨⟨_, hagain hcalls⟩, rfl⟩
    | busy => exact ⟨⟨_, hagain hcalls⟩, rfl⟩
  | _ =>
    rw [hpc] at hask
    cases hask

end RingInv

/-- A run goes wrong only when a PE fills a block of exactly the size it drew. -/
def TroubleOk (s : Ring n) : Prop :=
  s.trouble = none ∨ s.trouble = some .overrun ∧
    ∃ p i b, s.pcs p = .filling i (s.blocks.room b) b

/-- What a step is: a call of a list goes on, or it returns, or the PE does what is between
two calls. -/
inductive Turn (beyond : Nat) (s : Ring n) (lists : Head n → List (Block n))
    (a : RingAction n) (s' : Ring n) : (Head n → List (Block n)) → Prop
  | goes (k : Head n) (x x' : ListCall (Block n))
    (m : ListCalls (Head n) (Fin n) (Block n)) :
    s.mem.calls a.pe = some (k, x) → CallsInv m lists →
    m.calls = Function.update s.mem.calls a.pe (some (k, x')) → x'.op = x.op →
      x'.held ≠ none →
    x'.left < x.left → s' = { s with mem := m } → Turn beyond s lists a s' lists
  | returns (k : Head n) (x : ListCall (Block n))
    (m : ListCalls (Head n) (Fin n) (Block n)) (reply : ListReply (Block n))
    (lists' : Head n → List (Block n)) :
    s.mem.calls a.pe = some (k, x) → CallsInv m lists' →
    m.calls = Function.update s.mem.calls a.pe none →
    (s.mem.proceed a.pe k x).2 = .returns reply →
    ListEffect (s.mem.heads k) lists k x.op (.returns reply) lists' →
    s' = { s with mem := m }.returned a.pe (s.pcs a.pe) reply →
      Turn beyond s lists a s' lists'
  | between : s.mem.calls a.pe = none → s.goOn beyond a.pe a.r (s.pcs a.pe) = some s' →
    Turn beyond s lists a s' lists

namespace RingInv

/-- The class of the blocks that are put into the pool. -/
theorem putClass (beyond : Nat) (second : Bool) : ∃ pt,
    sizeClass beyond (if second then maxSize / 2 else maxSize) = some pt ∧
      (if second then maxSize / 2 else maxSize) = cutOffPoint beyond pt ∧ pt.val ≤ 1 := by
  cases second with
  | false => exact ⟨⟨1, by decide⟩, rfl, rfl, Nat.le_refl 1⟩
  | true => exact ⟨⟨0, by decide⟩, rfl, rfl, Nat.zero_le 1⟩

theorem lput (h : RingInv beyond s lists place) {i : Nat} {second : Bool}
    (hpc : s.pcs p = .populating i second) :
    (∃ place', RingInv beyond (s.lput beyond p i second) lists place') ∧
      (s.lput beyond p i second).trouble = s.trouble := by
  obtain ⟨pt, hclass, hsize, -⟩ := putClass beyond second
  have hop : (s.pcs p).op p = none := by rw [hpc]; rfl
  have hidle : s.mem.calls p = none := h.idle hop
  have hnew : ∀ b q o, Has s lists b q o → b ≠ ⟨p, s.made p⟩ :=
    fun _ _ _ => h.placed.has_new
  have hlists : ∀ k, (⟨p, s.made p⟩ : Block n) ∉ lists k := by
    intro k hmem
    cases k with
    | pool o pt' => exact hnew _ _ _ (.pool o pt' _ hmem) rfl
    | queue o => exact hnew _ _ _ (.queue o _ hmem) rfl
  have hpcs : ∀ q b' x, (s.pcs q).block q = some (b', x) → b' ≠ ⟨p, s.made p⟩ :=
    fun q b' x hb' => hnew b' x.1 x.2 (.pc q b' _ _ hb')
  have hwritten : CallsInv (s.mem.write ⟨p, s.made p⟩ .null) lists :=
    h.calls.written hlists (fun q k x hq hpush => by
      obtain ⟨y, hy⟩ := h.pushes_block hq hpush
      exact hpcs q _ y hy rfl) .null
  have hcalls := h.pushing hwritten (fun _ _ => rfl) hidle (.pool p pt) hlists fun q _ =>
    hpcs q
  unfold Ring.lput newBlock
  dsimp only
  rw [hclass]
  dsimp only
  rw [if_neg (not_not_intro hsize)]
  refine ⟨⟨_, h.allocated hpc
    ⟨fun b hb => ?_, fun b hb => ?_, fun b hb => ?_, fun _ _ => rfl⟩
    ⟨?_, ?_⟩ hcalls (fun q hq => setCall_other hq _) ?_⟩, rfl⟩
  · exact Function.update_of_ne hb ..
  · exact Function.update_of_ne hb ..
  · exact Function.update_of_ne hb ..
  · exact Function.update_self ..
  · exact (Function.update_self ..).trans hsize
  · rw [ListCalls.start, setCall_self]
    rfl

/-- A PE calls `ralloc` or `dequeue`. -/
theorem pops (h : RingInv beyond s lists place) (hop : (s.pcs p).op p = none) (k : Head n)
    (hcop : c.op p = some (k, .pop)) (hblock : c.block p = none)
    (hcheck : c.checking = (s.pcs p).checking) (hsent : c.sent = (s.pcs p).sent)
    (hexit : s.pcs p ≠ .exited) (hexit' : c ≠ .exited)
    (hknows : c.Knows beyond s.blocks) :
    RingInv beyond ({ s with mem := s.mem.start p k .pop }.goto p c) lists place := by
  have hcalls : CallsInv (s.mem.start p k .pop) lists :=
    h.calls.started (h.idle hop) k .pop (fun b hb => by cases hb) fun b hb => by cases hb
  refine h.went hcalls (fun q hq => setCall_other hq _) ?_
    (fun x hx => by rw [hblock] at hx; cases hx) hcheck hsent hexit hexit' hknows
  rw [ListCalls.start, setCall_self, hcop]
  rfl

/-- What a PE does between two calls of lists. -/
theorem goOn (h : RingInv beyond s lists place) (hs : s.trouble = none) {r : Nat}
    (hstep : s.goOn beyond p r (s.pcs p) = some s') :
    (∃ place', RingInv beyond s' lists place') ∧ TroubleOk s' := by
  have hknows : (s.pcs p).Knows beyond s.blocks := h.knows p
  cases hpc : s.pcs p with
  | waiting =>
    rw [hpc, Ring.goOn] at hstep
    split at hstep
    next =>
      obtain rfl := Option.some.inj hstep
      have hidle : s.mem.calls p = none := h.idle (by rw [hpc]; rfl)
      exact ⟨⟨_, h.went h.calls (fun _ _ => rfl) (congrArg (Option.map _) hidle)
        (fun _ hx => by cases hx) (by rw [hpc]; rfl) (by rw [hpc]; rfl)
        (by rw [hpc]; exact fun h => by cases h) (fun h => by cases h)
        (by decide : 0 < numBlocks)⟩, Or.inl hs⟩
    next => cases hstep
  | populating i second =>
    rw [hpc] at hstep
    obtain rfl := Option.some.inj hstep
    exact (h.lput hpc).imp_right fun htrouble => Or.inl (htrouble.trans hs)
  | drawing i =>
    rw [hpc] at hstep hknows
    obtain rfl := Option.some.inj hstep
    unfold ralloc
    dsimp only
    rw [if_neg (not_not_intro (drawnSize_mod r))]
    split
    next => exact ⟨⟨_, h⟩, Or.inl hs⟩
    next pt hclass =>
      exact ⟨⟨_, h.pops (by rw [hpc]; rfl) _ rfl rfl (by rw [hpc]; rfl) (by rw [hpc]; rfl)
        (by rw [hpc]; exact fun h => by cases h) (fun h => by cases h)
        ⟨hknows, drawnSize_mod r, hclass⟩⟩, Or.inl hs⟩
  | marking i sz xlatd =>
    rw [hpc] at hstep hknows
    obtain ⟨hi, hsz, pt, hclass, hfree⟩ := hknows
    obtain rfl := Option.some.inj hstep
    rw [if_neg (by rw [hfree.used]; exact Bool.false_ne_true)]
    have hidle : s.mem.calls p = none := h.idle (by rw [hpc]; rfl)
    refine ⟨⟨_, h.wrote (by rw [hpc]; rfl) rfl
      ⟨fun _ _ => rfl, fun b hb => ?_, fun _ _ => rfl,
      fun _ _ => rfl⟩ h.calls (fun _ _ => rfl) (congrArg (Option.map _) hidle)
        (by rw [hpc]; rfl)
      ⟨hi, hsz, pt, hclass, hfree.room⟩⟩, Or.inl hs⟩
    exact Function.update_of_ne hb ..
  | filling i sz xlatd =>
    rw [hpc] at hstep hknows
    obtain ⟨hi, hsz, pt, hclass, hroom⟩ := hknows
    obtain rfl := Option.some.inj hstep
    have hblock : (s.pcs p).block p = some (xlatd, .sender, theirs p) := by rw [hpc]; rfl
    unfold fill
    split
    next hover =>
      have hfits : sz ≤ cutOffPoint beyond pt := sizeClass_fits hclass
      have hmod : cutOffPoint beyond pt % intSz = 0 := cutOffPoint_mod pt
      have heq : sz = s.blocks.room xlatd := by
        unfold intSz at hover hsz hmod
        omega
      exact ⟨⟨_, h.failed .overrun⟩, Or.inr ⟨rfl, p, i, xlatd, heq ▸ hpc⟩⟩
    next hover =>
      have hcalls := h.pushing h.calls (fun _ _ => rfl) (h.idle (by rw [hpc]; rfl))
        (.queue (theirs p)) (h.unlisted hblock (Or.inl rfl)) (h.others hblock)
      refine ⟨⟨_, h.wrote hblock rfl
        ⟨fun b hb => ?_, fun _ _ => rfl, fun _ _ => rfl, fun b hb => ?_⟩
        hcalls (fun q hq => setCall_other hq _) ?_ (by rw [hpc]; rfl)
        ⟨Nat.succ_pos i, hi, ⟨?_, fun j hj => ?_⟩, ?_⟩⟩, Or.inl hs⟩
      · exact Function.update_of_ne hb ..
      · exact Function.update_of_ne hb ..
      · rw [ListCalls.start, setCall_self]
        rfl
      · dsimp only
        rw [Function.update_self]
        exact Nat.le_of_not_lt hover
      · dsimp only at hj ⊢
        rw [Function.update_self] at hj
        rw [Function.update_self, Function.update_self, if_neg (Nat.succ_ne_zero j),
          if_pos (Nat.succ_le_of_lt hj)]
      · show decide (Function.update s.blocks.words xlatd _ xlatd 0 ≠ 0) = true ↔ _
        rw [decide_eq_true_iff, Function.update_self, if_pos rfl]
        split
        next heq => exact ⟨fun _ => heq, fun _ => Int.one_ne_zero⟩
        next hne => exact ⟨fun h => (h rfl).elim, fun heq => (hne heq).elim⟩
  | receiving =>
    rw [hpc] at hstep
    obtain rfl := Option.some.inj hstep
    exact ⟨⟨_, h.pops (by rw [hpc]; rfl) _ rfl rfl (by rw [hpc]; rfl) (by rw [hpc]; rfl)
      (by rw [hpc]; exact fun h => by cases h) (fun h => by cases h) trivial⟩, Or.inl hs⟩
  | handling b =>
    rw [hpc] at hstep
    obtain rfl := Option.some.inj hstep
    have hgot : b ∈ s.got lists p := by
      rw [got, hpc]
      exact List.mem_append_right _ (List.mem_append_left _ List.mem_cons_self)
    have hgood : s.blocks.Good b := h.good b p hgot
    have hall : ((List.range (s.blocks.size b / intSz)).all fun j =>
        s.blocks.words b (j + 1) = s.blocks.size b) = true :=
      List.all_eq_true.mpr fun j hj =>
        decide_eq_true (hgood.words j (List.mem_range.mp hj))
    unfold handleBlock
    dsimp only
    rw [if_neg (Nat.not_lt.mpr hgood.room), if_pos hall]
    refine ⟨⟨_, h.done hpc ?_⟩, Or.inl hs⟩
    by_cases hzero : s.blocks.words b 0 = 0
    · exact Or.inl ⟨decide_eq_false (not_not_intro hzero), if_pos hzero⟩
    · exact Or.inr ⟨decide_eq_true hzero, if_neg hzero⟩
  | _ =>
    rw [hpc] at hstep
    cases hstep

theorem turn (h : RingInv beyond s lists place) {a : RingAction n}
    (hstep : Ring.step beyond s a = some s') :
    s.trouble = none ∧ ∃ lists', Turn beyond s lists a s' lists' := by
  unfold Ring.step at hstep
  split at hstep
  next => cases hstep
  next hs =>
    refine ⟨not_not.mp hs, ?_⟩
    split at hstep
    next k x hcall =>
      obtain ⟨lists', hcalls, heffect⟩ := h.calls.proceed_effect hcall
      obtain ⟨y, hm, hleaves⟩ := ListCalls.proceed_calls s.mem a.pe k x
      dsimp only at hstep
      split at hstep
      next hturn =>
        rw [hturn] at heffect hleaves
        obtain ⟨x', rfl, hop, hheld, hleft⟩ := hleaves
        generalize x.op = o at heffect
        cases heffect
        exact ⟨_, .goes k x x' _ hcall hcalls hm hop hheld hleft
          (Option.some.inj hstep).symm⟩
      next reply hturn =>
        rw [hturn] at heffect hleaves
        obtain rfl : y = none := hleaves
        exact ⟨_, .returns k x _ reply _ hcall hcalls hm hturn heffect
          (Option.some.inj hstep).symm⟩
      next hturn =>
        -- no head is given back open
        rw [hturn] at heffect
        generalize x.op = o at heffect
        cases heffect
    next hcall => exact ⟨_, .between hcall hstep⟩

/-- A call goes on: its PE stays where it is. -/
theorem goes (h : RingInv beyond s lists place) {m : ListCalls (Head n) (Fin n) (Block n)}
    {k : Head n} {x x' : ListCall (Block n)} (hcall : s.mem.calls p = some (k, x))
    (hcalls : CallsInv m lists)
    (hm : m.calls = Function.update s.mem.calls p (some (k, x')))
    (hop : x'.op = x.op) : RingInv beyond { s with mem := m } lists place := by
  have hask := h.asks p
  rw [hcall, Option.map_some] at hask
  have hcall' : m.calls p = some (k, x') := by rw [hm, Function.update_self]
  have hsame : ({ s with mem := m }.goto p (s.pcs p)) = { s with mem := m } := by
    unfold goto
    rw [Function.update_eq_self]
  have hexit : s.pcs p ≠ .exited := fun heq => by rw [heq] at hask; cases hask
  have hinv := h.went (c := s.pcs p) hcalls
    (fun q hq => by rw [hm, Function.update_of_ne hq])
    (by rw [hcall', Option.map_some, hop]; exact hask) (fun _ hx => hx) rfl
    rfl hexit hexit
    (h.knows p)
  exact hsame ▸ hinv

/-- **Every turn keeps the invariant**, and goes wrong only in one way. -/
theorem turned (h : RingInv beyond s lists place) (hs : s.trouble = none)
    {a : RingAction n}
    (hturn : Turn beyond s lists a s' lists') :
    (∃ place', RingInv beyond s' lists' place') ∧ TroubleOk s' := by
  cases hturn with
  | goes k x x' m hcall hcalls hm hop _ _ heq =>
    subst heq
    exact ⟨⟨place, h.goes hcall hcalls hm hop⟩, Or.inl hs⟩
  | returns k x m reply lists' hcall hcalls hm _ heffect heq =>
    subst heq
    exact (h.returned hcall hcalls hm heffect).imp_right fun htrouble =>
      Or.inl (htrouble.trans hs)
  | between _ hstep => exact h.goOn hs hstep

theorem step (h : RingInv beyond s lists place) {a : RingAction n}
    (hstep : Ring.step beyond s a = some s') :
    (∃ lists' place', RingInv beyond s' lists' place') ∧ TroubleOk s' := by
  obtain ⟨hs, lists', hturn⟩ := h.turn hstep
  exact (h.turned hs hturn).imp_left fun ⟨place', h'⟩ => ⟨lists', place', h'⟩

end RingInv

theorem init_inv (next : Block n → Link (Block n)) (blocks : Blocks n) :
    RingInv beyond (init next blocks) (fun _ => []) fun _ => .nowhere := by
  have hhas : ∀ b q o, ¬ Has (init next blocks) (fun _ => []) b q o := by
    intro b q o hb
    cases hb with
    | pool o pt b hmem => cases hmem
    | queue o b hmem => cases hmem
    | handled o b hmem => cases hmem
    | pc r b q o hb => cases hb
  refine ⟨.init next, fun p => rfl,
    ⟨fun b q o hb => (hhas b q o hb).elim, fun b hb => (hb rfl).elim⟩,
    fun p => trivial, ?_, ?_, ⟨fun p => rfl, fun p => rfl⟩,
      ⟨fun p => List.nodup_nil, fun p => ?_⟩⟩
  · intro o pt b hmem
    cases hmem
  · intro b o hmem
    cases hmem
  · constructor
    · intro h
      cases h
    · rintro ⟨b, hb, -⟩
      cases hb

theorem reachable_inv {C : Ring n → RingAction n → Prop}
    (h : (system n beyond).Reachable C s) :
    (∃ lists place, RingInv beyond s lists place) ∧ TroubleOk s := by
  refine h.invariant
    (I := fun s => (∃ lists place, RingInv beyond s lists place) ∧ TroubleOk s) ?_ ?_
  · rintro s ⟨next, blocks, rfl⟩
    exact ⟨⟨_, _, init_inv next blocks⟩, Or.inl rfl⟩
  · rintro s a s' ⟨⟨lists, place, hinv⟩, -⟩ - hstep
    exact hinv.step hstep

/-! ## What the ring does -/

/-- What is promised of a state. -/
structure Sound (s : Ring n) : Prop where
  /-- No assertion has failed. A run goes wrong only when a PE fills a block of exactly the
  size it drew: it then writes one number too many. -/
  trouble : TroubleOk s
  /-- A PE handles its own blocks, each once and as it was filled, -/
  handled : ∀ p, (s.handled p).Nodup ∧ ∀ b ∈ s.handled p, b.owner = p ∧ s.blocks.Good b
  /-- and nobody has a block that was handled. -/
  gone : ∀ p b, b ∈ s.handled p → ∀ q x, (s.pcs q).block q ≠ some (b, x)
  /-- The lists are whole. What a PE has received and what is in its queue are as many
  different blocks as were sent to it, none of them is in a pool, and one of them is marked
  as the last when all were sent. -/
  received : ∃ lists, CallsInv s.mem lists ∧ ∀ p, (s.got lists (theirs p)).Nodup ∧
    (s.got lists (theirs p)).length = (s.pcs p).sent ∧
    (s.got lists (theirs p)).countP s.blocks.isLast =
      (if (s.pcs p).sent = numBlocks * 2 then 1 else 0) ∧
    ∀ b ∈ s.got lists (theirs p), b.owner = theirs p ∧ ∀ o pt, b ∉ lists (.pool o pt)
  /-- A PE exits when it has handled the last block, after all were sent. -/
  exits : ∀ p, (s.pcs (theirs p) = .exited ↔ ∃ b ∈ s.handled (theirs p),
    s.blocks.isLast b = true) ∧
    (s.pcs (theirs p) = .exited → (s.pcs p).sent = numBlocks * 2)

theorem RingInv.got_nodup (h : RingInv beyond s lists place) (o : Fin n) :
    (s.got lists o).Nodup := by
  have hcheck : ∀ b, b ∈ (s.pcs o).checking → Has s lists b .receiver o := by
    intro b hb
    refine .pc o b _ o ?_
    generalize s.pcs o = c at hb ⊢
    cases c with
    | handling block => rw [List.mem_singleton.mp hb]; rfl
    | _ => cases hb
  have hone : (s.pcs o).checking.Nodup := by
    generalize s.pcs o = c
    cases c with
    | handling block => exact List.nodup_singleton block
    | _ => exact List.nodup_nil
  have hrest : ((s.pcs o).checking ++ s.handled o).Nodup := by
    refine List.nodup_append'.mpr ⟨hone, h.exits.once o, ?_⟩
    intro b hb hb'
    exact h.placed.ne (hcheck b hb) (.handled o b hb') (fun h => by cases h) rfl
  refine List.nodup_append'.mpr ⟨h.calls.nodup _, hrest, ?_⟩
  intro b hb hb'
  rcases List.mem_append.mp hb' with hb' | hb'
  · exact h.placed.ne (.queue o b hb) (hcheck b hb') (fun h => by cases h) rfl
  · exact h.placed.ne (.queue o b hb) (.handled o b hb') (fun h => by cases h) rfl

theorem RingInv.sound (h : RingInv beyond s lists place) (ht : TroubleOk s) :
    Sound s := by
  refine ⟨ht, fun p => ⟨h.exits.once p, fun b hb =>
    ⟨(h.placed.has _ _ _ (.handled p b hb)).2, ?_⟩⟩,
    fun p b hb q x hx => ?_,
    ⟨lists, h.calls, fun p => ⟨h.got_nodup _, h.counts.sent p, h.counts.lasts p,
      fun b hb => ⟨?_, fun o pt hmem => ?_⟩⟩⟩,
        fun p => ⟨h.exits.exits _, fun hexit => ?_⟩⟩
  · exact h.good b p (List.mem_append_right _ (List.mem_append_right _ hb))
  · obtain ⟨y, o⟩ := x
    refine h.placed.ne (.handled p b hb) (.pc q b y o hx) ?_ rfl
    rcases block_place hx with rfl | rfl | rfl <;> intro heq <;> cases heq
  · obtain ⟨q, hhas, -⟩ := got_has hb
    exact (h.placed.has _ _ _ hhas).2
  · exact h.placed.ne_got hb (.pool o pt b hmem) (Or.inr (Or.inl rfl)) rfl
  · obtain ⟨b, hb, hlast⟩ := (h.exits.exits _).mp hexit
    have hpos : 0 < (s.got lists (theirs p)).countP s.blocks.isLast :=
      List.countP_pos_iff.mpr ⟨b,
        List.mem_append_right _ (List.mem_append_right _ hb), hlast⟩
    rw [h.counts.lasts] at hpos
    by_contra hne
    rw [if_neg hne] at hpos
    exact Nat.lt_irrefl 0 hpos

/-- **The ring is sound in every state it reaches**, for any number of PEs, any sizes drawn
and any interleaving. -/
theorem ring_sound (h : (system n beyond).Reachable (fun _ _ => True) s) : Sound s := by
  obtain ⟨⟨lists, place, hinv⟩, ht⟩ := reachable_inv h
  exact hinv.sound ht

/-- A PE populates its pool. -/
def populates (p : Fin 2) : List (RingAction 2) := List.replicate 65 ⟨p, 0⟩

/-- It fills and sends eight blocks of either class. -/
def sends (p : Fin 2) : List (RingAction 2) :=
  List.replicate 72 ⟨p, 40⟩ ++ List.replicate 72 ⟨p, 80⟩

/-- Two PEs: when both have sent all their blocks, `q` takes one and handles it. -/
def pairRun (p q : Fin 2) : List (RingAction 2) :=
  populates p ++ populates q ++ sends p ++ sends q ++ List.replicate 5 ⟨q, 0⟩

/-- The ring before its first step. -/
abbrev pairInit : Ring 2 :=
  init (fun _ => .null) ⟨fun _ => 0, fun _ => true, fun _ => 0, fun _ _ => 0⟩

/-- The block that was sent last comes first, and PE 1 handles no other. -/
theorem pairRun_handled : ∃ s, (system 2 0).run pairInit (pairRun 0 1) = some s ∧
    s.handled 0 = [] ∧ s.handled 1 = [⟨1, 0⟩] := by
  have hrun : ((system 2 0).run pairInit (pairRun 0 1)).map
    (fun s => (s.handled 0, s.handled 1)) =
      some ([], [⟨1, 0⟩]) := by
    decide +kernel
  obtain ⟨s, hs, hhandled⟩ := Option.map_eq_some_iff.mp hrun
  exact ⟨s, hs, Prod.mk.inj hhandled⟩

theorem ring_sound_pair : ∃ s, (system 2 0).run pairInit (pairRun 0 1) = some s ∧
    s.handled 1 = [⟨1, 0⟩] ∧ Sound s := by
  obtain ⟨s, hs, _, hhandled⟩ := pairRun_handled
  exact ⟨s, hs, hhandled, ring_sound
    (Transition.run_reachable (pairRun 0 1) (fun _ _ _ => trivial)
      (.init ⟨_, _, rfl⟩) hs)⟩

end Ring

end CharmExperiments.Ipc
