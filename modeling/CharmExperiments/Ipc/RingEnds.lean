import CharmExperiments.Ipc.RingInv
import CharmExperiments.Lib.Progress
import Mathlib.Algebra.BigOperators.Fin
import Mathlib.Algebra.Order.BigOperators.Group.Finset

/-!
# The ring comes to its end

From every state that the ring reaches while no PE draws exactly the size of a class, it
can go on until all PEs have exited (`ring_ends`): no interleaving leaves a PE spinning on
a head, on an empty pool or on an empty queue for good.

`PcStep` is what a step does to the PE that takes it and to the lists
(`RingInv.turn_step`). `Ring.done` says how far a PE is; no step takes it back
(`Going.done_step`). A PE whose call holds a head can return from it alone
(`Going.finish`), and once nobody holds one, some PE can get further (`Going.further`): a
pool has what was put into it and not taken out (`Going.stock`), and a queue has the last
block when all were sent (`Going.waits`).
-/

namespace CharmExperiments.Ipc

open CharmExperiments.Lib

variable {n beyond : Nat}

/-! ## How far a PE is -/

namespace Pc

/-- How many blocks a PE has put into its pool. -/
def puts : Pc n → Nat
  | .waiting => 0
  | .populating i second | .putting i second _ _ => 2 * i + second.toNat
  | _ => numBlocks * 2

/-- How many blocks a PE has taken out of the pool of the next. -/
def taken : Pc n → Nat
  | .waiting | .populating .. | .putting .. => 0
  | .drawing i | .allocating i _ _ | .enqueuing i _ => i
  | .marking i _ _ | .filling i _ _ => i + 1
  | .receiving | .dequeuing | .handling _ | .exited => numBlocks * 2

/-- How far a PE is that has handled `k` blocks. -/
def progress (k : Nat) : Pc n → Nat
  -- 17 comes after 16 blocks put, 81 after 16 blocks sent, 115 after 16 blocks handled
  | .waiting => 0
  | .populating i second | .putting i second _ _ => 1 + 2 * i + second.toNat
  | .drawing i | .allocating i _ _ => 17 + 4 * i
  | .marking i _ _ => 18 + 4 * i
  | .filling i _ _ => 19 + 4 * i
  | .enqueuing i _ => 16 + 4 * i
  | .receiving | .dequeuing => 81 + 2 * k
  | .handling _ => 82 + 2 * k
  | .exited => 115

/-- How many blocks a PE has handled after a step, that had handled `k` before. -/
def handles (k : Nat) : Pc n → Nat
  | .handling _ => k + 1
  | _ => k

/-- Where a PE is after a pop that returned nothing. -/
def again : Pc n → Pc n
  | .allocating i _ _ => .drawing i
  | .dequeuing => .receiving
  | c => c

/-- The class of a block that is put is one of the two that are used, and the size of a
block that is asked for is not that of a class. -/
def Small (beyond : Nat) : Pc n → Prop
  | .putting _ _ pt _ => pt.val ≤ 1
  | .allocating _ sz _ | .marking _ sz _ | .filling _ sz _ =>
    ∀ pt : Fin kNumCutOffPoints, sz ≠ cutOffPoint beyond pt
  | _ => True

end Pc

namespace Ring

open ListCalls (setCall_self setCall_other)

variable {s s' : Ring n} {lists lists' : Head n → List (Block n)} {place : Block n → Spot}
  {p : Fin n} {c c' : Pc n}

theorem numBlocks_eq : numBlocks = 8 := rfl

theorem populated_progress {i : Nat} (hi : i < numBlocks) (second : Bool)
    {pt : Fin kNumCutOffPoints} {blk : Block n} (k : Nat) :
    (Pc.putting i second pt blk).progress k < (populated i second : Pc n).progress k := by
  rw [numBlocks_eq] at hi
  unfold populated
  rw [numBlocks_eq]
  cases second with
  | false => exact Nat.lt_succ_self _
  | true =>
    rw [if_pos rfl]
    split <;> simp only [Pc.progress, Bool.toNat_true, Bool.toNat_false] <;> omega

theorem populated_taken (i : Nat) (second : Bool) :
    (populated i second : Pc n).taken = 0 := by
  unfold populated
  split
  · split <;> rfl
  · rfl

theorem populated_puts {i : Nat} (hi : i < numBlocks) (second : Bool) :
    (populated i second : Pc n).puts = 2 * i + second.toNat + 1 := by
  unfold populated
  rw [numBlocks_eq] at hi ⊢
  cases second with
  | false => rfl
  | true =>
    rw [if_pos rfl]
    split <;> simp only [Pc.puts, Bool.toNat_true, Bool.toNat_false,
      numBlocks_eq] <;> omega

theorem puts_lt {i : Nat} (hi : i < numBlocks) (second : Bool) :
    2 * i + second.toNat < numBlocks * 2 := by
  have hsecond := Bool.toNat_le second
  omega

theorem sent_progress {i : Nat} (hi : i ≤ numBlocks * 2) (xlatd : Block n) (k : Nat) :
    (Pc.enqueuing i xlatd).progress k <
      (if i < numBlocks * 2 then .drawing i else .receiving : Pc n).progress k := by
  rw [numBlocks_eq] at hi
  rw [numBlocks_eq]
  split <;> simp only [Pc.progress] <;> omega

/-! ## Steps -/

/-- What a step of `p` does to where it is and to the lists; `r` is what `rand` gives. -/
inductive PcStep (beyond : Nat) (lists : Head n → List (Block n)) (p : Fin n) (r : Nat) :
    Pc n → Pc n → (Head n → List (Block n)) → Prop
  | start : PcStep beyond lists p r .waiting (.populating 0 false) lists
  | new (i : Nat) (second : Bool) (pt : Fin kNumCutOffPoints) (blk : Block n) :
    pt.val ≤ 1 →
    PcStep beyond lists p r (.populating i second) (.putting i second pt blk) lists
  | put (i : Nat) (second : Bool) (pt : Fin kNumCutOffPoints) (blk : Block n) :
    PcStep beyond lists p r (.putting i second pt blk) (populated i second)
      (Function.update lists (.pool p pt) (blk :: lists (.pool p pt)))
  | lost (i : Nat) (second : Bool) (pt : Fin kNumCutOffPoints) (blk : Block n) :
    PcStep beyond lists p r (.putting i second pt blk) (.populating i second) lists
  | draw (i : Nat) (pt : Fin kNumCutOffPoints) :
    PcStep beyond lists p r (.drawing i) (.allocating i (drawnSize r) pt) lists
  | took (i sz : Nat) (pt : Fin kNumCutOffPoints) (b : Block n) (rest : List (Block n)) :
    lists (.pool (theirs p) pt) = b :: rest →
    PcStep beyond lists p r (.allocating i sz pt) (.marking i sz b)
      (Function.update lists (.pool (theirs p) pt) rest)
  | none (i sz : Nat) (pt : Fin kNumCutOffPoints) :
    PcStep beyond lists p r (.allocating i sz pt) (.drawing i) lists
  | mark (i sz : Nat) (b : Block n) :
    PcStep beyond lists p r (.marking i sz b) (.filling i sz b) lists
  | fill (i sz : Nat) (b : Block n) :
    PcStep beyond lists p r (.filling i sz b) (.enqueuing (i + 1) b) lists
  | sent (i : Nat) (b : Block n) : PcStep beyond lists p r (.enqueuing i b)
      (if i < numBlocks * 2 then .drawing i else .receiving)
      (Function.update lists (.queue (theirs p)) (b :: lists (.queue (theirs p))))
  | again (i : Nat) (b : Block n) :
    PcStep beyond lists p r (.enqueuing i b) (.enqueuing i b) lists
  | receive : PcStep beyond lists p r .receiving .dequeuing lists
  | got (b : Block n) (rest : List (Block n)) : lists (.queue p) = b :: rest →
    PcStep beyond lists p r .dequeuing (.handling b)
      (Function.update lists (.queue p) rest)
  | nothing : PcStep beyond lists p r .dequeuing .receiving lists
  | handled (b : Block n) (c : Pc n) : c = .receiving ∨ c = .exited →
    PcStep beyond lists p r (.handling b) c lists

/-- The blocks that were handled, after a step from `c`. -/
def handledAfter (s : Ring n) (p : Fin n) : Pc n → Fin n → List (Block n)
  | .handling b => Function.update s.handled p (b :: s.handled p)
  | _ => s.handled

theorem handledAfter_none (h : ∀ b, c ≠ .handling b) :
    s.handledAfter p c = s.handled := by
  cases c with
  | handling b => exact (h b rfl).elim
  | _ => rfl

/-- A step: `p` goes on in a call, or does one of the above. -/
inductive Step (beyond : Nat) (s : Ring n) (lists : Head n → List (Block n))
    (p : Fin n) (r : Nat) (s' : Ring n) : (Head n → List (Block n)) → Prop
  | goes : s'.pcs = s.pcs → s'.handled = s.handled → Step beyond s lists p r s' lists
  | moves (c : Pc n) (lists' : Head n → List (Block n)) :
    PcStep beyond lists p r (s.pcs p) c lists' → s'.pcs = Function.update s.pcs p c →
    s'.handled = s.handledAfter p (s.pcs p) → Step beyond s lists p r s' lists'

/-- A call that is started holds nothing. -/
theorem start_free {m : ListCalls (Head n) (Fin n) (Block n)} {k : Head n}
    {o : ListOp (Block n)}
    {q : Fin n} (hq : m.slots.held q = none) : (m.start p k o).slots.held q = none := by
  show ListCalls.heldBy ((m.start p k o).calls q) = none
  by_cases hqp : q = p
  · subst hqp
    rw [ListCalls.start, setCall_self, ListCalls.heldBy, start_held, Option.map_none]
  · rw [ListCalls.start, setCall_other hqp]
    exact hq

namespace RingInv

/-- A call has returned; it was in vain only if the list was empty or its head taken. -/
theorem returned_step (h : RingInv beyond s lists place) {k : Head n}
    {x : ListCall (Block n)}
    (hcall : s.mem.calls p = some (k, x)) {m : ListCalls (Head n) (Fin n) (Block n)}
    {reply : ListReply (Block n)} {head : Link (Block n)} (r : Nat)
    (heffect : ListEffect head lists k x.op (.returns reply) lists') :
    ∃ c, PcStep beyond lists p r (s.pcs p) c lists' ∧
      ({ s with mem := m }.returned p (s.pcs p) reply).pcs = Function.update s.pcs p c ∧
      ({ s with mem := m }.returned p (s.pcs p) reply).handled = s.handled ∧
      (∀ y, (s.pcs p) ≠ .handling y) ∧
      (reply ≠ .refused → reply ≠ .busy →
        ({ s with mem := m }.returned p (s.pcs p) reply).mem = m ∧
        ((∀ y, (s.pcs p).progress y < c.progress y) ∨
          x.op = .pop ∧ lists k = [] ∧ c = (s.pcs p).again)) := by
  have hask := h.asks p
  have hknows := h.knows p
  rw [hcall, Option.map_some] at hask
  cases hpc : s.pcs p with
  | putting i second pt blk =>
    rw [hpc] at hask hknows
    obtain ⟨rfl, hop⟩ := Prod.mk.inj (Option.some.inj hask)
    rw [hop] at heffect
    cases heffect with
    | pushed =>
      exact ⟨_, .put i second pt blk, rfl, rfl, fun _ h => (by cases h), fun _ _ =>
        ⟨rfl, Or.inl fun y => populated_progress hknows.1 second y⟩⟩
    | refused =>
      exact ⟨_, .lost i second pt blk, rfl, rfl, fun _ h => (by cases h),
        fun h => (h rfl).elim⟩
  | allocating i sz pt =>
    rw [hpc] at hask
    obtain ⟨rfl, hop⟩ := Prod.mk.inj (Option.some.inj hask)
    rw [hop] at heffect
    cases heffect with
    | popped b rest hlist =>
      exact ⟨_, .took i sz pt b rest hlist, rfl, rfl, fun _ h => (by cases h), fun _ _ =>
        ⟨rfl, Or.inl fun _ => Nat.add_lt_add_right (Nat.lt_succ_self 17) _⟩⟩
    | empty hnil =>
      exact ⟨_, .none i sz pt, rfl, rfl, fun _ h => (by cases h), fun _ _ =>
        ⟨rfl, Or.inr ⟨hop, hnil, rfl⟩⟩⟩
    | busy =>
      exact ⟨_, .none i sz pt, rfl, rfl, fun _ h => (by cases h), fun _ h => (h rfl).elim⟩
  | enqueuing i xlatd =>
    rw [hpc] at hask hknows
    obtain ⟨rfl, hop⟩ := Prod.mk.inj (Option.some.inj hask)
    rw [hop] at heffect
    cases heffect with
    | pushed =>
      exact ⟨_, .sent i xlatd, rfl, rfl, fun _ h => (by cases h), fun _ _ =>
        ⟨rfl, Or.inl fun y => sent_progress hknows.2.1 xlatd y⟩⟩
    | refused =>
      exact ⟨_, .again i xlatd, rfl, rfl, fun _ h => (by cases h), fun h => (h rfl).elim⟩
  | dequeuing =>
    rw [hpc] at hask
    obtain ⟨rfl, hop⟩ := Prod.mk.inj (Option.some.inj hask)
    rw [hop] at heffect
    cases heffect with
    | popped b rest hlist =>
      exact ⟨_, .got b rest hlist, rfl, rfl, fun _ h => (by cases h), fun _ _ =>
        ⟨rfl, Or.inl fun _ => Nat.add_lt_add_right (Nat.lt_succ_self 81) _⟩⟩
    | empty hnil =>
      exact ⟨_, .nothing, rfl, rfl, fun _ h => (by cases h), fun _ _ =>
        ⟨rfl, Or.inr ⟨hop, hnil, rfl⟩⟩⟩
    | busy => exact ⟨_, .nothing, rfl, rfl, fun _ h => (by cases h),
      fun _ h => (h rfl).elim⟩
  | _ =>
    rw [hpc] at hask
    cases hask

theorem goOn_step (h : RingInv beyond s lists place) {r : Nat}
    (hstep : s.goOn beyond p r (s.pcs p) = some s') : Step beyond s lists p r s' lists ∧
      ∀ q, s.mem.slots.held q = none → s'.mem.slots.held q = none := by
  have hknows : (s.pcs p).Knows beyond s.blocks := h.knows p
  cases hpc : s.pcs p with
  | waiting =>
    rw [hpc, Ring.goOn] at hstep
    split at hstep
    next =>
      obtain rfl := Option.some.inj hstep
      exact ⟨.moves _ _ (hpc ▸ .start) rfl (by rw [hpc]; rfl), fun _ hq => hq⟩
    next => cases hstep
  | populating i second =>
    rw [hpc] at hstep
    obtain rfl := Option.some.inj hstep
    obtain ⟨pt, hclass, hsize, hpt⟩ := putClass beyond second
    unfold Ring.lput newBlock
    dsimp only
    rw [hclass]
    dsimp only
    rw [if_neg (not_not_intro hsize)]
    exact ⟨.moves _ _ (hpc ▸ .new i second pt _ hpt) rfl (by rw [hpc]; rfl),
      fun _ hq => start_free hq⟩
  | drawing i =>
    rw [hpc] at hstep
    obtain rfl := Option.some.inj hstep
    unfold ralloc
    dsimp only
    rw [if_neg (not_not_intro (drawnSize_mod r))]
    split
    next => exact ⟨.goes rfl rfl, fun _ hq => hq⟩
    next pt _ =>
      exact ⟨.moves _ _ (hpc ▸ .draw i pt) rfl (by rw [hpc]; rfl), fun _ hq =>
        start_free hq⟩
  | marking i sz xlatd =>
    rw [hpc] at hstep hknows
    obtain ⟨-, -, pt, -, hfree⟩ := hknows
    obtain rfl := Option.some.inj hstep
    rw [if_neg (by rw [hfree.used]; exact Bool.false_ne_true)]
    exact ⟨.moves _ _ (hpc ▸ .mark i sz xlatd) rfl (by rw [hpc]; rfl), fun _ hq => hq⟩
  | filling i sz xlatd =>
    rw [hpc] at hstep
    obtain rfl := Option.some.inj hstep
    unfold fill
    split
    next => exact ⟨.goes rfl rfl, fun _ hq => hq⟩
    next =>
      exact ⟨.moves _ _ (hpc ▸ .fill i sz xlatd) rfl (by rw [hpc]; rfl), fun _ hq =>
        start_free hq⟩
  | receiving =>
    rw [hpc] at hstep
    obtain rfl := Option.some.inj hstep
    exact ⟨.moves _ _ (hpc ▸ .receive) rfl (by rw [hpc]; rfl), fun _ hq => start_free hq⟩
  | handling b =>
    rw [hpc] at hstep
    obtain rfl := Option.some.inj hstep
    have hc : ∀ x : Int, (if x = 0 then Pc.receiving else .exited : Pc n) = .receiving ∨
        (if x = 0 then Pc.receiving else .exited : Pc n) = .exited := by
      intro x
      split
      next => exact Or.inl rfl
      next => exact Or.inr rfl
    unfold handleBlock
    dsimp only
    split
    next => exact ⟨.goes rfl rfl, fun _ hq => hq⟩
    next =>
      split
      next => exact ⟨.moves _ _ (hpc ▸ .handled b _ (hc _)) rfl (by rw [hpc]; rfl),
        fun _ hq => hq⟩
      next => exact ⟨.goes rfl rfl, fun _ hq => hq⟩
  | _ =>
    rw [hpc] at hstep
    cases hstep

/-- **What a turn does.** -/
theorem turn_step (h : RingInv beyond s lists place) {a : RingAction n}
    (hturn : Turn beyond s lists a s' lists') :
    Step beyond s lists a.pe a.r s' lists' := by
  cases hturn with
  | goes k x x' m _ _ _ _ _ _ heq =>
    subst heq
    exact .goes rfl rfl
  | returns k x m reply lists' hcall _ _ _ heffect heq =>
    subst heq
    obtain ⟨c, hc, hpcs, hhandled, hnot, -⟩ := h.returned_step hcall (m := m) a.r heffect
    exact .moves c lists' hc hpcs (hhandled.trans (handledAfter_none hnot).symm)
  | between _ hstep => exact (h.goOn_step hstep).1

end RingInv

/-- How far PE `p` is. -/
def done (s : Ring n) (p : Fin n) : Nat := (s.pcs p).progress (s.handled p).length

/-- How many blocks are in a pool. -/
def poolSize (lists : Head n → List (Block n)) (o : Fin n) : Nat :=
  ∑ pt, (lists (.pool o pt)).length

theorem poolSize_pool (lists : Head n → List (Block n)) (o : Fin n)
    (pt : Fin kNumCutOffPoints) (L : List (Block n)) :
    poolSize (Function.update lists (.pool o pt) L) o +
      (lists (.pool o pt)).length = poolSize lists o + L.length := by
  unfold poolSize
  rw [← Finset.add_sum_erase _ _ (Finset.mem_univ pt), ← Finset.add_sum_erase _
    (fun pt => (lists (.pool o pt)).length) (Finset.mem_univ pt), Function.update_self]
  have hrest : ∑ x ∈ Finset.univ.erase pt,
      (Function.update lists (.pool o pt) L (.pool o x)).length =
      ∑ x ∈ Finset.univ.erase pt, (lists (.pool o x)).length := by
    refine Finset.sum_congr rfl fun x hx => ?_
    have hne : (Head.pool o x : Head n) ≠ .pool o pt := fun heq =>
      Finset.ne_of_mem_erase hx (Head.pool.inj heq).2
    rw [Function.update_of_ne hne]
  omega

theorem poolSize_other {lists : Head n → List (Block n)} {o : Fin n} {k : Head n}
    (hk : ∀ pt, k ≠ .pool o pt) (L : List (Block n)) :
    poolSize (Function.update lists k L) o = poolSize lists o :=
  Finset.sum_congr rfl fun pt _ => by rw [Function.update_of_ne (hk pt).symm]

/-- A block is put into a pool, -/
theorem poolSize_push (lists : Head n → List (Block n)) (q : Fin n)
    (pt : Fin kNumCutOffPoints) (b : Block n) (o : Fin n) :
    poolSize (Function.update lists (.pool q pt) (b :: lists (.pool q pt))) o =
      poolSize lists o + if o = q then 1 else 0 := by
  by_cases ho : o = q
  · subst ho
    have hsize := poolSize_pool lists o pt (b :: lists (.pool o pt))
    rw [List.length_cons] at hsize
    rw [if_pos rfl]
    omega
  · rw [if_neg ho, Nat.add_zero]
    exact poolSize_other (fun pt' heq => ho (Head.pool.inj heq).1.symm) _

/-- and taken out of it. -/
theorem poolSize_pop {lists : Head n → List (Block n)} {q : Fin n}
    {pt : Fin kNumCutOffPoints}
    {b : Block n} {rest : List (Block n)}
    (hlist : lists (.pool q pt) = b :: rest) (o : Fin n) :
    poolSize (Function.update lists (.pool q pt) rest) o + (if o = q then 1 else 0) =
      poolSize lists o := by
  by_cases ho : o = q
  · subst ho
    have hsize := poolSize_pool lists o pt rest
    rw [hlist, List.length_cons] at hsize
    rw [if_pos rfl]
    omega
  · rw [if_neg ho, Nat.add_zero]
    exact poolSize_other (fun pt' heq => ho (Head.pool.inj heq).1.symm) _

namespace PcStep

variable {r k : Nat}

/-- No step takes a PE back. -/
theorem progress (h : PcStep beyond lists p r c c' lists') {d : Blocks n}
    (hknows : c.Knows beyond d) (hk : k ≤ numBlocks * 2) :
    c.progress k ≤ c'.progress (c.handles k) := by
  rw [numBlocks_eq] at hk
  cases h with
  | start => exact Nat.zero_le _
  | put i second pt blk => exact Nat.le_of_lt (populated_progress hknows.1 second k)
  | took | mark | fill | got =>
    simp only [Pc.progress, Pc.handles]
    omega
  | sent i b => exact Nat.le_of_lt (sent_progress hknows.2.1 b k)
  | handled b c hc =>
    rcases hc with rfl | rfl <;> simp only [Pc.progress, Pc.handles] <;> omega
  | _ => exact Nat.le_refl _

theorem small (h : PcStep beyond lists p r c c' lists') (hsmall : c.Small beyond)
    (hdraw : ∀ i, c = .drawing i →
      ∀ pt : Fin kNumCutOffPoints, drawnSize r ≠ cutOffPoint beyond pt) :
        c'.Small beyond := by
  cases h with
  | new i second pt blk hpt => exact hpt
  | put i second pt blk =>
    unfold populated
    split
    · split <;> trivial
    · trivial
  | draw i pt => exact hdraw i rfl
  | took | mark => exact hsmall
  | sent i b => split <;> trivial
  | handled b c hc => rcases hc with rfl | rfl <;> trivial
  | _ => trivial

/-- What is put into the pool of `p`, and what is taken out of that of the next PE. -/
theorem stock (h : PcStep beyond lists p r c c' lists') {d : Blocks n}
    (hknows : c.Knows beyond d) :
    ∃ out put, c'.taken = c.taken + out ∧ c'.puts = c.puts + put ∧
      ∀ o, poolSize lists' o + (if o = theirs p then out else 0) =
        poolSize lists o + if o = p then put else 0 := by
  have hsame : ∀ {lists' : Head n → List (Block n)},
    (∀ o, poolSize lists' o = poolSize lists o) →
      ∀ o, poolSize lists' o + (if o = theirs p then 0 else 0) =
        poolSize lists o + if o = p then 0 else 0 := by
    intro lists' hsize o
    rw [hsize, ite_self, ite_self]
  cases h with
  | put i second pt blk =>
    refine ⟨0, 1, populated_taken i second, populated_puts hknows.1 second, fun o => ?_⟩
    rw [ite_self, Nat.add_zero]
    exact poolSize_push lists p pt blk o
  | took i sz pt b rest hlist =>
    refine ⟨1, 0, rfl, rfl, fun o => ?_⟩
    rw [ite_self, Nat.add_zero]
    exact poolSize_pop hlist o
  | sent i b =>
    have hi : i ≤ numBlocks * 2 := hknows.2.1
    refine ⟨0, 0, ?_, ?_, hsame fun o => poolSize_other (fun pt heq => by cases heq) _⟩
    · split
      next => rfl
      next hlt => exact Nat.le_antisymm (Nat.le_of_not_lt hlt) hi
    · split <;> rfl
  | got b rest hlist =>
    exact ⟨0, 0, rfl, rfl, hsame fun o => poolSize_other (fun pt heq => by cases heq) _⟩
  | handled b c hc =>
    rcases hc with rfl | rfl <;> exact ⟨0, 0, rfl, rfl, hsame fun _ => rfl⟩
  | _ => exact ⟨0, 0, rfl, rfl, hsame fun _ => rfl⟩

/-- Only the two classes that are put into are used. -/
theorem classes (h : PcStep beyond lists p r c c' lists') (hsmall : c.Small beyond)
    (hclasses : ∀ (o : Fin n) (pt : Fin kNumCutOffPoints), 1 < pt.val →
      lists (.pool o pt) = []) :
    ∀ (o : Fin n) (pt : Fin kNumCutOffPoints), 1 < pt.val → lists' (.pool o pt) = [] := by
  intro o pt' hpt'
  cases h with
  | put i second pt blk =>
    have hpt : pt.val ≤ 1 := hsmall
    have hne : (Head.pool o pt' : Head n) ≠ .pool p pt := by
      intro heq
      rw [(Head.pool.inj heq).2] at hpt'
      omega
    rw [Function.update_of_ne hne]
    exact hclasses o pt' hpt'
  | took i sz pt b rest hlist =>
    have hne : (Head.pool o pt' : Head n) ≠ .pool (theirs p) pt := by
      intro heq
      rw [← heq, hclasses o pt' hpt'] at hlist
      cases hlist
    rw [Function.update_of_ne hne]
    exact hclasses o pt' hpt'
  | sent i b =>
    rw [Function.update_of_ne fun heq => by cases heq]
    exact hclasses o pt' hpt'
  | got b rest hlist =>
    rw [Function.update_of_ne fun heq => by cases heq]
    exact hclasses o pt' hpt'
  | _ => exact hclasses o pt' hpt'

end PcStep

/-! ## Bounds -/

theorem theirs_surjective (p : Fin n) : ∃ q, theirs q = p :=
  Finite.surjective_of_injective (fun _ _ h => theirs_injective h) p

namespace RingInv

theorem sent_le (h : RingInv beyond s lists place) (p : Fin n) :
    (s.pcs p).sent ≤ numBlocks * 2 := by
  have hknows : (s.pcs p).Knows beyond s.blocks := h.knows p
  generalize s.pcs p = c at hknows ⊢
  cases c with
  | drawing i => exact Nat.le_of_lt hknows
  | allocating | marking | filling => exact Nat.le_of_lt hknows.1
  | enqueuing i b => exact Nat.le_trans (Nat.sub_le i 1) hknows.2.1
  | receiving | dequeuing | handling | exited => exact Nat.le_refl _
  | _ => exact Nat.zero_le _

/-- A PE handles no more than was sent to it. -/
theorem handled_le (h : RingInv beyond s lists place) (p : Fin n) :
    (s.handled p).length + (s.pcs p).checking.length ≤ numBlocks * 2 := by
  obtain ⟨q, rfl⟩ := theirs_surjective p
  have hgot := h.counts.sent q
  have hsent := h.sent_le q
  rw [got, List.length_append, List.length_append] at hgot
  omega

theorem done_le (h : RingInv beyond s lists place) (p : Fin n) : s.done p ≤ 115 := by
  have hknows : (s.pcs p).Knows beyond s.blocks := h.knows p
  have hle := h.handled_le p
  unfold Ring.done
  rw [numBlocks_eq] at hle
  generalize s.pcs p = c at hknows hle ⊢
  cases c with
  | waiting => exact Nat.zero_le _
  | populating i second =>
    have hi : i < 8 := hknows
    have hsecond := Bool.toNat_le second
    simp only [Pc.progress]
    omega
  | putting i second pt blk =>
    have hi : i < 8 := hknows.1
    have hsecond := Bool.toNat_le second
    simp only [Pc.progress]
    omega
  | drawing i =>
    have hi : i < 16 := hknows
    simp only [Pc.progress]
    omega
  | allocating | marking | filling =>
    have hi := hknows.1
    rw [numBlocks_eq] at hi
    simp only [Pc.progress]
    omega
  | enqueuing i b =>
    have hi : i ≤ 16 := hknows.2.1
    simp only [Pc.progress]
    omega
  | receiving | dequeuing | exited =>
    simp only [Pc.progress]
    omega
  | handling b =>
    rw [Pc.checking, List.length_singleton] at hle
    simp only [Pc.progress]
    omega

end RingInv

/-! ## Going on -/

/-- The size that is drawn is not that of a class. -/
def NoExact (s : Ring n) (a : RingAction n) : Prop :=
  ∀ i, s.pcs a.pe = .drawing i → drawnSize a.r ∉ kCutOffPoints

/-- What a run keeps in which no PE draws exactly the size of a class: nothing has gone
wrong, and a pool has what was put into it and not taken out. -/
structure Going (beyond : Nat) (s : Ring n) (lists : Head n → List (Block n)) : Prop where
  inv : ∃ place, RingInv beyond s lists place
  trouble : s.trouble = none
  small : ∀ p, (s.pcs p).Small beyond
  stock : ∀ p, poolSize lists (theirs p) + (s.pcs p).taken = (s.pcs (theirs p)).puts
  classes : ∀ (o : Fin n) (pt : Fin kNumCutOffPoints), 1 < pt.val →
    lists (.pool o pt) = []

theorem Going.init (next : Block n → Link (Block n)) (blocks : Blocks n) :
    Going beyond (init next blocks) fun _ => [] := by
  refine ⟨⟨_, init_inv next blocks⟩, rfl, fun _ => trivial, fun p => ?_, fun _ _ _ => rfl⟩
  show poolSize (fun _ => []) (theirs p) + 0 = 0
  rw [Nat.add_zero]
  exact Finset.sum_eq_zero fun _ _ => rfl

/-- A step moves one PE. -/
theorem done_other {q : Fin n} (hq : q ≠ p) (hpcs : s'.pcs = Function.update s.pcs p c)
    (hhandled : s'.handled = s.handledAfter p (s.pcs p)) : s'.done q = s.done q := by
  unfold done
  rw [hpcs, hhandled, Function.update_of_ne hq]
  cases s.pcs p with
  | handling b => rw [handledAfter, Function.update_of_ne hq]
  | _ => rfl

namespace Going

variable {r : Nat}

/-- No PE falls back. -/
theorem done_step (hinv : RingInv beyond s lists place)
    (hstep : Step beyond s lists p r s' lists') (q : Fin n) : s.done q ≤ s'.done q := by
  cases hstep with
  | goes hpcs hhandled =>
    unfold done
    rw [hpcs, hhandled]
  | moves c _ hc hpcs hhandled =>
    by_cases hq : q = p
    · subst hq
      have hle : (s.handled q).length ≤ numBlocks * 2 :=
        Nat.le_trans (Nat.le_add_right _ _) (hinv.handled_le q)
      have hprogress := hc.progress (hinv.knows q) hle
      unfold done
      rw [hpcs, Function.update_self, hhandled]
      generalize s.pcs q = c₀ at hprogress ⊢
      cases c₀ with
      | handling b =>
        rw [handledAfter, Function.update_self]
        exact hprogress
      | _ => exact hprogress
    · exact Nat.le_of_eq (done_other hq hpcs hhandled).symm

theorem small_step (h : Going beyond s lists) {a : RingAction n} (hexact : NoExact s a)
    (hstep : Step beyond s lists a.pe a.r s' lists') : ∀ p, (s'.pcs p).Small beyond := by
  cases hstep with
  | goes hpcs _ =>
    rw [hpcs]
    exact h.small
  | moves c _ hc hpcs _ =>
    rw [hpcs]
    refine forall_update (P := fun _ c => c.Small beyond)
      (hc.small (h.small _) fun i hi pt heq => ?_) fun q _ => h.small q
    exact hexact i hi (heq ▸ cutOffPoint_mem pt.isLt)

/-- What is in a pool is what was put into it and not taken out. -/
theorem stock_step (h : Going beyond s lists) (hstep : Step beyond s lists p r s' lists')
    (q : Fin n) :
    poolSize lists' (theirs q) + (s'.pcs q).taken = (s'.pcs (theirs q)).puts := by
  cases hstep with
  | goes hpcs _ =>
    rw [hpcs]
    exact h.stock q
  | moves c _ hc hpcs _ =>
    obtain ⟨place, hinv⟩ := h.inv
    obtain ⟨out, put, hout, hput, hsize⟩ := hc.stock (hinv.knows _)
    have htaken : ∀ q, (s'.pcs q).taken = (s.pcs q).taken + if q = p then out else 0 := by
      rw [hpcs]
      refine forall_update (P := fun q c => c.taken = (s.pcs q).taken + if q = p then out
        else 0) ?_
        fun q hq => ?_
      · rw [if_pos rfl]
        exact hout
      · rw [if_neg hq, Nat.add_zero]
    have hputs : ∀ q, (s'.pcs q).puts = (s.pcs q).puts + if q = p then put else 0 := by
      rw [hpcs]
      refine forall_update (P := fun q c => c.puts = (s.pcs q).puts + if q = p then put
        else 0) ?_
        fun q hq => ?_
      · rw [if_pos rfl]
        exact hput
      · rw [if_neg hq, Nat.add_zero]
    have hsizeq := hsize (theirs q)
    have hstock := h.stock q
    have hiff : (if theirs q = theirs p then out else 0) = if q = p then out else 0 :=
      if_congr ⟨theirs_injective, congrArg theirs⟩ rfl rfl
    rw [hiff] at hsizeq
    rw [htaken, hputs]
    omega

theorem turned (h : Going beyond s lists) {a : RingAction n} (hexact : NoExact s a)
    (hturn : Turn beyond s lists a s' lists') :
    Going beyond s' lists' ∧ ∀ q, s.done q ≤ s'.done q := by
  obtain ⟨place, hinv⟩ := h.inv
  obtain ⟨⟨place', hinv'⟩, htrouble⟩ := hinv.turned h.trouble hturn
  have hstep := hinv.turn_step hturn
  have hsmall := h.small_step hexact hstep
  refine ⟨⟨⟨place', hinv'⟩, ?_, hsmall, h.stock_step hstep, ?_⟩, done_step hinv hstep⟩
  · rcases htrouble with hnone | ⟨-, p, i, b, hpc⟩
    · exact hnone
    · -- the block of a size that is not that of a class has room
      have hknows := hinv'.knows p
      have hp := hsmall p
      rw [hpc] at hknows hp
      obtain ⟨-, -, pt, -, hroom⟩ := hknows
      exact (hp pt hroom).elim
  · cases hstep with
    | goes _ _ => exact h.classes
    | moves c _ hc _ _ => exact hc.classes (h.small _) h.classes

theorem step (h : Going beyond s lists) {a : RingAction n} (hexact : NoExact s a)
    (hstep : Ring.step beyond s a = some s') : ∃ lists', Going beyond s' lists' := by
  obtain ⟨place, hinv⟩ := h.inv
  obtain ⟨-, lists', hturn⟩ := hinv.turn hstep
  exact ⟨lists', (h.turned hexact hturn).1⟩

end Going

/-! ## Calls that are run to their return -/

/-- Nobody holds a head. -/
def Calm (s : Ring n) : Prop := ∀ q, s.mem.slots.held q = none

/-- A call of `o` on list `k` by `p` has returned, and nobody else went on: `p` has got
further, unless it popped an empty list. -/
structure Ended (beyond : Nat) (s : Ring n) (lists : Head n → List (Block n)) (p : Fin n)
    (k : Head n) (o : ListOp (Block n)) (s' : Ring n) (lists' : Head n → List (Block n)) :
    Prop where
  leads : (system n beyond).Leads s s'
  going : Going beyond s' lists'
  done : ∀ q, s.done q ≤ s'.done q
  calls : ∀ q, q ≠ p → s'.mem.calls q = s.mem.calls q
  pcs : ∀ q, q ≠ p → s'.pcs q = s.pcs q
  free : s'.mem.slots.held p = none
  nearer : s.done p < s'.done p ∨ o = .pop ∧ lists k = [] ∧ s'.pcs p = (s.pcs p).again

theorem held_congr {m m' : ListCalls (Head n) (Fin n) (Block n)} {q : Fin n}
    (h : m'.calls q = m.calls q) : m'.slots.held q = m.slots.held q :=
  congrArg ListCalls.heldBy h

namespace Going

/-- A PE with a call in progress draws nothing. -/
theorem noExact_call (h : Going beyond s lists) {k : Head n}
    {x : ListCall (Block n)} {r : Nat}
    (hcall : s.mem.calls p = some (k, x)) : NoExact s ⟨p, r⟩ := by
  intro i hi
  obtain ⟨place, hinv⟩ := h.inv
  have hpc : s.pcs p = .drawing i := hi
  have hask := hinv.asks p
  rw [hcall, hpc] at hask
  cases hask

/-- A call that is in progress goes on. -/
theorem call_step (h : Going beyond s lists) {k : Head n} {x : ListCall (Block n)}
    (hcall : s.mem.calls p = some (k, x)) (r : Nat) :
    ∃ s', Ring.step beyond s ⟨p, r⟩ = some s' := by
  unfold Ring.step
  rw [if_neg (not_not_intro h.trouble)]
  dsimp only
  rw [hcall]
  dsimp only
  split <;> exact ⟨_, rfl⟩

/-- **A call returns** when its PE alone goes on, if it holds the head or nobody holds one. -/
theorem finish (N : Nat) :
    ∀ {s : Ring n} {x : ListCall (Block n)} {k : Head n}, x.left ≤ N →
    Going beyond s lists → s.mem.calls p = some (k, x) → (x.held ≠ none ∨ s.Calm) →
    ∃ s' lists', Ended beyond s lists p k x.op s' lists' := by
  induction N with
  | zero =>
    intro s x k hleft
    cases x <;> cases hleft
  | succ N ih =>
    intro s x k hleft h hcall hown
    obtain ⟨place, hinv⟩ := h.inv
    obtain ⟨s₁, hstep⟩ := h.call_step hcall 0
    obtain ⟨-, lists₁, hturn⟩ := hinv.turn hstep
    obtain ⟨hgoing, hdone⟩ := h.turned (h.noExact_call hcall) hturn
    have hleads : (system n beyond).Leads s s₁ := .single hstep
    cases hturn with
    | goes k' x' y m hcall' hcalls hm hop hheld hless heq =>
      obtain ⟨rfl, rfl⟩ := Prod.mk.inj (Option.some.inj (hcall.symm.trans hcall'))
      subst heq
      have hcally : m.calls p = some (k, y) := by rw [hm, Function.update_self]
      obtain ⟨s₂, lists₂, hended⟩ :=
        ih (Nat.le_of_lt_succ (Nat.lt_of_lt_of_le hless hleft)) hgoing
        hcally (Or.inl hheld)
      refine ⟨s₂, lists₂, hleads.trans hended.leads, hended.going, hended.done,
        fun q hq => ?_, hended.pcs, hended.free, hop ▸ hended.nearer⟩
      refine (hended.calls q hq).trans ?_
      show m.calls q = s.mem.calls q
      rw [hm, Function.update_of_ne hq]
    | returns k' x' m reply _ hcall' hcalls hm hreply heffect heq =>
      obtain ⟨rfl, rfl⟩ := Prod.mk.inj (Option.some.inj (hcall.symm.trans hcall'))
      obtain ⟨hrefused, hbusy⟩ := hinv.calls.proceed_open hcall hown
      have hreply' : (s.mem.proceed p k x).2 = .returns reply := hreply
      rw [hreply'] at hrefused hbusy
      obtain ⟨c, -, hpcs, hhandled, -, hnearer⟩ :=
        hinv.returned_step hcall (m := m) 0 heffect
      have heq' : s₁ = { s with mem := m }.returned p (s.pcs p) reply := heq
      rw [← heq'] at hpcs hhandled hnearer
      obtain ⟨hmem, hnearer⟩ := hnearer (fun heq => hrefused (congrArg _ heq))
        fun heq => hbusy (congrArg _ heq)
      refine ⟨s₁, _, hleads, hgoing, hdone, fun q hq => ?_, fun q hq => ?_, ?_, ?_⟩
      · rw [hmem, hm]
        exact Function.update_of_ne hq ..
      · rw [hpcs]
        exact Function.update_of_ne hq ..
      · rw [hmem]
        exact ListCalls.slots_idle (hm ▸ Function.update_self ..)
      · have hpc : s₁.pcs p = c := by rw [hpcs, Function.update_self]
        refine hnearer.imp (fun hlt => ?_) fun ⟨hop, hnil, hc⟩ =>
          ⟨hop, hnil, hpc.trans hc⟩
        unfold done
        rw [hpc, hhandled]
        exact hlt _
    | between hnone _ =>
      have hnone' : s.mem.calls p = none := hnone
      rw [hcall] at hnone'
      cases hnone'

/-- What all PEs can get to: nobody holds a head any more. -/
theorem settle (L : List (Fin n)) : ∀ {s : Ring n} {lists : Head n → List (Block n)},
    Going beyond s lists → (∀ q, q ∉ L → s.mem.slots.held q = none) →
    ∃ s' lists', (system n beyond).Leads s s' ∧ Going beyond s' lists' ∧
      (∀ q, s.done q ≤ s'.done q) ∧ s'.Calm := by
  induction L with
  | nil =>
    intro s lists h hfree
    exact ⟨s, lists, .refl s, h, fun _ => Nat.le_refl _,
      fun q => hfree q List.not_mem_nil⟩
  | cons p L ih =>
    intro s lists h hfree
    by_cases hp : s.mem.slots.held p = none
    · refine ih h fun q hq => ?_
      by_cases hqp : q = p
      · exact hqp ▸ hp
      · exact hfree q fun hmem => (List.mem_cons.mp hmem).elim hqp hq
    · obtain ⟨k, x, hcall, hheld⟩ : ∃ k x, s.mem.calls p = some (k, x) ∧
          x.held ≠ none := by
        cases hcall : s.mem.calls p with
        | none => exact (hp (ListCalls.slots_idle hcall)).elim
        | some y =>
          obtain ⟨k, x⟩ := y
          exact ⟨k, x, rfl, fun hnone => hp (ListCalls.slots_free hcall hnone)⟩
      obtain ⟨s₁, lists₁, hended⟩ := finish x.left (Nat.le_refl _) h hcall (Or.inl hheld)
      obtain ⟨s₂, lists₂, hleads, hgoing, hdone, hcalm⟩ := ih hended.going fun q hq => by
        by_cases hqp : q = p
        · exact hqp ▸ hended.free
        · rw [held_congr (hended.calls q hqp)]
          exact hfree q fun hmem => (List.mem_cons.mp hmem).elim hqp hq
      exact ⟨s₂, lists₂, hended.leads.trans hleads, hgoing,
        fun q => Nat.le_trans (hended.done q) (hdone q), hcalm⟩

end Going

/-! ## Getting further -/

theorem goto_self (s : Ring n) (p : Fin n) (c : Pc n) : (s.goto p c).pcs p = c :=
  Function.update_self ..

/-- Some PE can get further, and none has to fall back. -/
def Further (beyond : Nat) (s : Ring n) : Prop :=
  ∃ s' lists', (system n beyond).Leads s s' ∧ Going beyond s' lists' ∧
    (∀ q, s.done q ≤ s'.done q) ∧ ∃ p, s.done p < s'.done p

theorem Further.trans (hleads : (system n beyond).Leads s s')
    (hdone : ∀ q, s.done q ≤ s'.done q) (h : Further beyond s') : Further beyond s := by
  obtain ⟨s₂, lists₂, hleads', hgoing, hdone', p, hp⟩ := h
  exact ⟨s₂, lists₂, hleads.trans hleads', hgoing,
    fun q => Nat.le_trans (hdone q) (hdone' q), p,
    Nat.lt_of_le_of_lt (hdone p) hp⟩

/-- The call that a PE is in. -/
theorem RingInv.asks_call (h : RingInv beyond s lists place) {k : Head n}
    {o : ListOp (Block n)}
    (hop : (s.pcs p).op p = some (k, o)) : ∃ x, s.mem.calls p = some (k, x) ∧
    x.op = o := by
  obtain ⟨⟨k', x⟩, hcall, heq⟩ := Option.map_eq_some_iff.mp ((h.asks p).trans hop)
  obtain ⟨rfl, hx⟩ := Prod.mk.inj heq
  exact ⟨x, hcall, hx⟩

namespace Going

/-- A call gets its PE further, unless it pops an empty list. -/
theorem calling (h : Going beyond s lists) (hcalm : s.Calm) {k : Head n}
    {o : ListOp (Block n)}
    (hop : (s.pcs p).op p = some (k, o)) (hlist : o = .pop → lists k ≠ []) :
    Further beyond s := by
  obtain ⟨place, hinv⟩ := h.inv
  obtain ⟨x, hcall, rfl⟩ := hinv.asks_call hop
  obtain ⟨s', lists', hended⟩ := finish x.left (Nat.le_refl _) h hcall (Or.inr hcalm)
  refine ⟨s', lists', hended.leads, hended.going, hended.done, p, ?_⟩
  exact hended.nearer.resolve_right fun ⟨hpop, hnil, _⟩ => hlist hpop hnil

/-- What a PE does between two calls. -/
theorem between (h : Going beyond s lists) (hcalm : s.Calm)
    (hop : (s.pcs p).op p = none) {r : Nat} (hexact : NoExact s ⟨p, r⟩)
    (hgo : s.goOn beyond p r (s.pcs p) = some s') :
    (system n beyond).Leads s s' ∧ Going beyond s' lists ∧ (∀ q, s.done q ≤ s'.done q) ∧
      s'.Calm := by
  obtain ⟨place, hinv⟩ := h.inv
  have hidle : s.mem.calls p = none := hinv.idle hop
  have hstep : Ring.step beyond s ⟨p, r⟩ = some s' := by
    unfold Ring.step
    rw [if_neg (not_not_intro h.trouble)]
    dsimp only
    rw [hidle]
    exact hgo
  obtain ⟨hgoing, hdone⟩ := h.turned hexact (.between hidle hgo)
  exact ⟨.single hstep, hgoing, hdone, fun q => (hinv.goOn_step hgo).2 q (hcalm q)⟩

/-- A PE starts a call that gets it further. -/
theorem starting (h : Going beyond s lists) (hcalm : s.Calm)
    (hop : (s.pcs p).op p = none) {r : Nat} (hexact : NoExact s ⟨p, r⟩)
    (hgo : s.goOn beyond p r (s.pcs p) = some s') {k : Head n}
    {o : ListOp (Block n)} (hop' : (s'.pcs p).op p = some (k, o))
    (hlist : o = .pop → lists k ≠ []) :
    Further beyond s := by
  obtain ⟨hleads, hgoing, hdone, hcalm'⟩ := h.between hcalm hop hexact hgo
  exact .trans hleads hdone (hgoing.calling hcalm' hop' hlist)

/-- A PE gets further without a call. -/
theorem passing (h : Going beyond s lists) (hcalm : s.Calm) (hop : (s.pcs p).op p = none)
    (hnot : ∀ i, s.pcs p ≠ .drawing i) (hgo : s.goOn beyond p 0 (s.pcs p) = some s')
    (hdone : s'.trouble = none → s.done p < s'.done p) : Further beyond s := by
  obtain ⟨hleads, hgoing, hle, -⟩ :=
    h.between hcalm hop (fun i hi => (hnot i hi).elim) hgo
  exact ⟨s', lists, hleads, hgoing, hle, p, hdone hgoing.trouble⟩

/-- A PE that has its call of `lput` before it. -/
theorem populating (h : Going beyond s lists) (hcalm : s.Calm) {i : Nat} {second : Bool}
    (hpc : s.pcs p = .populating i second) : Further beyond s := by
  obtain ⟨pt, hclass, hsize, -⟩ := RingInv.putClass beyond second
  have hop : (s.pcs p).op p = none := by rw [hpc]; rfl
  have hgo : s.goOn beyond p 0 (s.pcs p) =
      some (s.lput beyond p i second) := by rw [hpc]; rfl
  refine h.starting (o := .push ⟨p, s.made p⟩) (k := .pool p pt) hcalm hop
    (fun i hi => by rw [show s.pcs p = _ from hpc] at hi; cases hi) hgo ?_
    fun hpop => by cases hpop
  unfold Ring.lput newBlock
  dsimp only
  rw [hclass]
  dsimp only
  rw [if_neg (not_not_intro hsize)]
  rw [goto_self]
  rfl

/-- A pool that was filled and not emptied, and a size that takes from it. -/
theorem stocked (h : Going beyond s lists)
    (hputs : (s.pcs (theirs p)).puts = numBlocks * 2)
    (htaken : (s.pcs p).taken < numBlocks * 2) : ∃ pt, lists (.pool (theirs p) pt) ≠ [] ∧
      ∃ r, sizeClass beyond (drawnSize r) = some pt ∧ drawnSize r ∉ kCutOffPoints := by
  have hsize : poolSize lists (theirs p) ≠ 0 := by
    have hstock := h.stock p
    omega
  obtain ⟨pt, -, hpt⟩ := Finset.exists_ne_zero_of_sum_ne_zero hsize
  have hlist : lists (.pool (theirs p) pt) ≠ [] :=
    fun hnil => hpt (congrArg List.length hnil)
  have hle : pt.val ≤ 1 := Nat.le_of_not_lt fun hlt => hlist (h.classes _ pt hlt)
  refine ⟨pt, hlist, ?_⟩
  rcases Nat.le_one_iff_eq_zero_or_eq_one.mp hle with hzero | hone
  · obtain rfl : pt = ⟨0, by decide⟩ := Fin.ext hzero
    exact ⟨0, rfl, by decide⟩
  · obtain rfl : pt = ⟨1, by decide⟩ := Fin.ext hone
    exact ⟨67, rfl, by decide⟩

/-- A PE that draws. -/
theorem drawing (h : Going beyond s lists) (hcalm : s.Calm) {i : Nat}
    (hpc : s.pcs p = .drawing i) (hputs : ∀ q, (s.pcs q).puts = numBlocks * 2) :
    Further beyond s := by
  obtain ⟨place, hinv⟩ := h.inv
  have hknows := hinv.knows p
  rw [hpc] at hknows
  obtain ⟨pt, hlist, r, hclass, hr⟩ :=
    h.stocked (hputs (theirs p)) (by rw [hpc]; exact hknows)
  have hop : (s.pcs p).op p = none := by rw [hpc]; rfl
  have hgo : s.goOn beyond p r (s.pcs p) =
      some (s.ralloc beyond p i r) := by rw [hpc]; rfl
  refine h.starting (o := .pop) (k := .pool (theirs p) pt) hcalm hop
    (fun _ _ => hr) hgo ?_
    fun _ => hlist
  unfold ralloc
  dsimp only
  rw [if_neg (not_not_intro (drawnSize_mod r)), hclass]
  dsimp only
  rw [goto_self]
  rfl

/-- A PE that has its call of `ralloc` before it: it may find its class empty, and draws
again. -/
theorem allocating (h : Going beyond s lists) (hcalm : s.Calm) {i sz : Nat}
    {pt : Fin kNumCutOffPoints} (hpc : s.pcs p = .allocating i sz pt)
    (hputs : ∀ q, (s.pcs q).puts = numBlocks * 2) : Further beyond s := by
  obtain ⟨place, hinv⟩ := h.inv
  obtain ⟨x, hcall, -⟩ := hinv.asks_call (p := p) (by rw [hpc]; rfl)
  obtain ⟨s', lists', hended⟩ := finish x.left (Nat.le_refl _) h hcall (Or.inr hcalm)
  rcases hended.nearer with hlt | ⟨-, -, hagain⟩
  · exact ⟨s', lists', hended.leads, hended.going, hended.done, p, hlt⟩
  · rw [hpc] at hagain
    have hcalm' : s'.Calm := by
      intro q
      by_cases hq : q = p
      · exact hq ▸ hended.free
      · rw [held_congr (hended.calls q hq)]
        exact hcalm q
    refine .trans hended.leads hended.done
      (hended.going.drawing hcalm' hagain fun q => ?_)
    by_cases hq : q = p
    · rw [hq, hagain]
      rfl
    · rw [hended.pcs q hq]
      exact hputs q

/-- A queue to which all blocks were sent has the last, until its PE has it. -/
theorem waits (h : Going beyond s lists) (hsent : ∀ q, (s.pcs q).sent = numBlocks * 2)
    (hexit : s.pcs p ≠ .exited) (hcheck : (s.pcs p).checking = []) :
    lists (.queue p) ≠ [] := by
  obtain ⟨place, hinv⟩ := h.inv
  obtain ⟨q, rfl⟩ := theirs_surjective p
  have hlasts := hinv.counts.lasts q
  rw [if_pos (hsent q)] at hlasts
  obtain ⟨b, hb, hlast⟩ := List.countP_pos_iff.mp (hlasts ▸ Nat.one_pos)
  rw [got, hcheck, List.nil_append] at hb
  rcases List.mem_append.mp hb with hqueue | hhandled
  · exact List.ne_nil_of_mem hqueue
  · exact (hexit ((hinv.exits.exits _).mpr ⟨b, hhandled, hlast⟩)).elim

/-- A PE that has not started; PE 0 does not wait for another. -/
theorem waiting (h : Going beyond s lists) (hcalm : s.Calm) (hpc : s.pcs p = .waiting) :
    Further beyond s := by
  have hstart : ∀ q : Fin n, s.pcs q = .waiting →
      (q.val = 0 ∨ ∃ r : Fin n, r.val = 0 ∧ (s.pcs r).started) → Further beyond s := by
    intro q hq hready
    have hgo : s.goOn beyond q 0 (s.pcs q) = some (s.goto q (.populating 0 false)) := by
      rw [hq]
      exact if_pos hready
    refine h.passing hcalm (by rw [hq]; rfl) (fun i hi => by rw [hq] at hi; cases hi) hgo
      fun _ => ?_
    show (s.pcs q).progress _ <
      (Function.update s.pcs q (.populating 0 false) q).progress _
    rw [hq, Function.update_self]
    exact Nat.one_pos
  by_cases hfirst : s.pcs ⟨0, p.pos⟩ = .waiting
  · exact hstart ⟨0, p.pos⟩ hfirst (Or.inl rfl)
  · refine hstart p hpc (Or.inr ⟨⟨0, p.pos⟩, rfl, ?_⟩)
    generalize s.pcs ⟨0, p.pos⟩ = c at hfirst
    cases c with
    | waiting => exact (hfirst rfl).elim
    | _ => rfl

theorem marking (h : Going beyond s lists) (hcalm : s.Calm) {i sz : Nat} {b : Block n}
    (hpc : s.pcs p = .marking i sz b) : Further beyond s := by
  obtain ⟨place, hinv⟩ := h.inv
  have hknows := hinv.knows p
  rw [hpc] at hknows
  obtain ⟨-, -, pt, -, hfree⟩ := hknows
  have hgo : s.goOn beyond p 0 (s.pcs p) = some ({ s with blocks := { s.blocks with
      used := Function.update s.blocks.used b true } }.goto p (.filling i sz b)) := by
    rw [hpc]
    exact congrArg some (if_neg (by rw [hfree.used]; exact Bool.false_ne_true))
  refine h.passing hcalm (by rw [hpc]; rfl) (fun i hi => by rw [hpc] at hi; cases hi) hgo
    fun _ => ?_
  show (s.pcs p).progress _ < (Function.update s.pcs p (.filling i sz b) p).progress _
  rw [hpc, Function.update_self]
  exact Nat.add_lt_add_right (Nat.lt_succ_self 18) _

theorem filling (h : Going beyond s lists) (hcalm : s.Calm) {i sz : Nat} {b : Block n}
    (hpc : s.pcs p = .filling i sz b) : Further beyond s := by
  have hgo : s.goOn beyond p 0 (s.pcs p) = some (s.fill p i sz b) := by rw [hpc]; rfl
  refine h.passing hcalm (by rw [hpc]; rfl) (fun i hi => by rw [hpc] at hi; cases hi) hgo
    fun htrouble => ?_
  unfold fill at htrouble ⊢
  split at htrouble
  next => cases htrouble
  next hroom =>
    rw [if_neg hroom]
    show (s.pcs p).progress _ <
      (Function.update s.pcs p (.enqueuing (i + 1) b) p).progress _
    rw [hpc, Function.update_self]
    simp only [Pc.progress]
    omega

theorem handling (h : Going beyond s lists) (hcalm : s.Calm) {b : Block n}
    (hpc : s.pcs p = .handling b) : Further beyond s := by
  obtain ⟨place, hinv⟩ := h.inv
  have hle := hinv.handled_le p
  rw [hpc, Pc.checking, List.length_singleton, numBlocks_eq] at hle
  have hgo : s.goOn beyond p 0 (s.pcs p) = some (s.handleBlock p b) := by rw [hpc]; rfl
  refine h.passing hcalm (by rw [hpc]; rfl) (fun i hi => by rw [hpc] at hi; cases hi) hgo
    fun htrouble => ?_
  unfold handleBlock at htrouble ⊢
  dsimp only at htrouble ⊢
  split at htrouble
  next => cases htrouble
  next hroom =>
    rw [if_neg hroom]
    split at htrouble
    next hall =>
      rw [if_pos hall]
      show (s.pcs p).progress (s.handled p).length <
        (Function.update s.pcs p _ p).progress
        (Function.update s.handled p (b :: s.handled p) p).length
      rw [hpc, Function.update_self, Function.update_self, List.length_cons]
      split <;> simp only [Pc.progress] <;> omega
    next => cases htrouble

/-- A PE whose pool is not filled. -/
theorem further_unfilled (h : Going beyond s lists) (hcalm : s.Calm)
    (hp : (s.pcs p).puts ≠ numBlocks * 2) : Further beyond s := by
  cases hpc : s.pcs p with
  | waiting => exact h.waiting hcalm hpc
  | populating i second => exact h.populating hcalm hpc
  | putting i second pt blk =>
    exact h.calling (p := p) hcalm (by rw [hpc]; rfl) fun hpop => by cases hpop
  | _ => exact (hp (by rw [hpc]; rfl)).elim

/-- A PE that has not sent all its blocks, when the pools are filled. -/
theorem further_unsent (h : Going beyond s lists) (hcalm : s.Calm)
    (hputs : ∀ q, (s.pcs q).puts = numBlocks * 2) (hp : (s.pcs p).sent ≠ numBlocks * 2) :
    Further beyond s := by
  obtain ⟨place, hinv⟩ := h.inv
  have hputsp := hputs p
  have hknows := hinv.knows p
  cases hpc : s.pcs p with
  | waiting =>
    rw [hpc] at hputsp
    cases hputsp
  | populating i second =>
    rw [hpc] at hputsp hknows
    exact (Nat.ne_of_lt (puts_lt hknows second) hputsp).elim
  | putting i second pt blk =>
    rw [hpc] at hputsp hknows
    exact (Nat.ne_of_lt (puts_lt hknows.1 second) hputsp).elim
  | drawing i => exact h.drawing hcalm hpc hputs
  | allocating i sz pt => exact h.allocating hcalm hpc hputs
  | marking i sz b => exact h.marking hcalm hpc
  | filling i sz b => exact h.filling hcalm hpc
  | enqueuing i b =>
    exact h.calling (p := p) hcalm (by rw [hpc]; rfl) fun hpop => by cases hpop
  | _ => exact (hp (by rw [hpc]; rfl)).elim

/-- A PE that waits for its last block, when all blocks are sent. -/
theorem further_waits (h : Going beyond s lists) (hcalm : s.Calm)
    (hsent : ∀ q, (s.pcs q).sent = numBlocks * 2) (hp : s.pcs p ≠ .exited) :
    Further beyond s := by
  obtain ⟨place, hinv⟩ := h.inv
  have hsentp := hsent p
  have hknows := hinv.knows p
  cases hpc : s.pcs p with
  | receiving =>
    have hlist := h.waits hsent hp (by rw [hpc]; rfl)
    have hgo : s.goOn beyond p 0 (s.pcs p) =
        some ({ s with mem := s.mem.start p (.queue p) .pop }.goto p .dequeuing) := by
      rw [hpc]
      rfl
    exact h.starting hcalm (by rw [hpc]; rfl) (fun i hi => by
      rw [show s.pcs p = _ from hpc] at hi; cases hi) hgo
      (by rw [goto_self]; rfl) fun _ => hlist
  | dequeuing =>
    have hlist := h.waits hsent hp (by rw [hpc]; rfl)
    exact h.calling (p := p) hcalm (by rw [hpc]; rfl) fun _ => hlist
  | handling b => exact h.handling hcalm hpc
  | exited => exact (hp hpc).elim
  | waiting | populating | putting =>
    rw [hpc] at hsentp
    cases hsentp
  | drawing i =>
    rw [hpc] at hsentp hknows
    exact (Nat.ne_of_lt hknows hsentp).elim
  | allocating | marking | filling =>
    rw [hpc] at hsentp hknows
    exact (Nat.ne_of_lt hknows.1 hsentp).elim
  | enqueuing i b =>
    rw [hpc] at hsentp hknows
    have hlt : i - 1 < numBlocks * 2 :=
      Nat.lt_of_lt_of_le (Nat.sub_lt hknows.1 Nat.one_pos) hknows.2.1
    exact (Nat.ne_of_lt hlt hsentp).elim

/-- **Some PE can get further** once nobody holds a head, until all have exited. -/
theorem further (h : Going beyond s lists) (hcalm : s.Calm) :
    (∀ p, s.pcs p = .exited) ∨ Further beyond s := by
  by_cases hputs : ∀ q, (s.pcs q).puts = numBlocks * 2
  · by_cases hsent : ∀ q, (s.pcs q).sent = numBlocks * 2
    · by_cases hexit : ∀ q, s.pcs q = .exited
      · exact Or.inl hexit
      · obtain ⟨p, hp⟩ := not_forall.mp hexit
        exact Or.inr (h.further_waits hcalm hsent hp)
    · obtain ⟨p, hp⟩ := not_forall.mp hsent
      exact Or.inr (h.further_unsent hcalm hputs hp)
  · obtain ⟨p, hp⟩ := not_forall.mp hputs
    exact Or.inr (h.further_unfilled hcalm hp)

end Going

/-! ## The end -/

theorem reachable_going (h : (system n beyond).Reachable NoExact s) :
    ∃ lists, Going beyond s lists := by
  refine h.invariant (I := fun s => ∃ lists, Going beyond s lists) ?_ ?_
  · rintro s ⟨next, blocks, rfl⟩
    exact ⟨_, .init next blocks⟩
  · rintro s a s' ⟨lists, hgoing⟩ hexact hstep
    exact hgoing.step hexact hstep

/-- What is left to do. -/
def left (s : Ring n) : Nat := ∑ p, (115 - s.done p)

theorem left_lt {p : Fin n} (h : RingInv beyond s' lists place)
    (hdone : ∀ q, s.done q ≤ s'.done q) (hp : s.done p < s'.done p) :
    s'.left < s.left := by
  refine Finset.sum_lt_sum (fun q _ => Nat.sub_le_sub_left (hdone q) 115)
    ⟨p, Finset.mem_univ p, ?_⟩
  have hle := h.done_le p
  omega

/-- **The ring comes to its end**: as long as no PE has drawn exactly the size of a class,
and whatever the PEs did so far, they can go on until all have exited. -/
theorem ring_ends (h : (system n beyond).Reachable NoExact s) :
    ∃ s', (system n beyond).Leads s s' ∧ ∀ p, s'.pcs p = .exited := by
  have hnearer : ∀ N (s : Ring n), s.left = N ∧ (∃ lists, Going beyond s lists) →
      (∃ s', (system n beyond).Leads s s' ∧ ∀ p, s'.pcs p = .exited) ∨
        ∃ M s', M < N ∧ (system n beyond).Leads s s' ∧ s'.left = M ∧
          ∃ lists, Going beyond s' lists := by
    rintro _ s ⟨rfl, lists, hgoing⟩
    obtain ⟨s₁, lists₁, hleads₁, hgoing₁, hdone₁, hcalm⟩ :=
      hgoing.settle (List.finRange n) fun q hq => (hq (List.mem_finRange q)).elim
    rcases hgoing₁.further hcalm with hexit | hfurther
    · exact Or.inl ⟨s₁, hleads₁, hexit⟩
    · obtain ⟨s₂, lists₂, hleads₂, hgoing₂, hdone₂, p, hp⟩ :=
        hfurther.trans hleads₁ hdone₁
      obtain ⟨place, hinv⟩ := hgoing₂.inv
      exact Or.inr ⟨s₂.left, s₂, left_lt hinv hdone₂ hp, hleads₂, rfl, lists₂, hgoing₂⟩
  obtain ⟨s', hleads, s'', hleads', hexit⟩ :=
    Transition.leads_to_goal hnearer s.left s ⟨rfl, reachable_going h⟩
  exact ⟨s'', hleads.trans hleads', hexit⟩

/-- The sizes drawn in it are 44 and 84. -/
theorem pairRun_noExact (p q : Fin 2) : ∀ a ∈ pairRun p q, ∀ s : Ring 2, NoExact s a := by
  intro a ha s i _
  have hr : a.r = 0 ∨ a.r = 40 ∨ a.r = 80 := by
    simp only [pairRun, populates, sends, List.mem_append, List.mem_replicate] at ha
    grind
  rcases hr with hr | hr | hr <;> rw [hr] <;> decide

/-- When PE 1 has exited PE 0 can still come to its end. -/
theorem ring_ends_pair : ∃ s, (system 2 0).run pairInit (pairRun 0 1) = some s ∧
    s.handled 0 = [] ∧ s.handled 1 = [⟨1, 0⟩] ∧
    ∃ s', (system 2 0).Leads s s' ∧ ∀ p, s'.pcs p = .exited := by
  obtain ⟨s, hs, hnone, hhandled⟩ := pairRun_handled
  exact ⟨s, hs, hnone, hhandled, ring_ends
    (Transition.run_reachable (pairRun 0 1) (pairRun_noExact 0 1) (.init ⟨_, _, rfl⟩) hs)⟩

end Ring

end CharmExperiments.Ipc
