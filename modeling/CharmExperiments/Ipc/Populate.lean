import CharmExperiments.Ipc.SizeClasses
import CharmExperiments.Ipc.Retained

/-!
# Filling the pool

`archive/tests/pingpong/tester.cc`: before the first exchange `populate_buffers_` puts
one block for every `kBufferFactor` iterations into the pool of its own process, and
tries each until `lput` takes it. But `lput` takes a block only if its size is one of
the classes, and then, with nobody else at the pool, the first time. For any other
size, those above the largest class among them, the loop never ends
(`populates_iff`).

Mirroring notes:
- `new block` is another block each time, also for each failed attempt: they are
  numbered. What is `malloc`ed for them is not.
- Nobody else is at the pool, so `lput` is one step.
- The retry loop recurses on fuel; `none` is a run that has not returned.
- The `alloc_from` afterwards is that of a sender that retains no block yet: the
  steps of `PingPong`.
-/

namespace CharmExperiments.Ipc

open CharmExperiments.Lib

def kBufferFactor : Int := 4

/-- The pool, and the number of the next block that is allocated. -/
structure Populating where
  pool : Pool Nat
  fresh : Nat

namespace Populating

/-- `new block(nullptr, ptr, sz)`. -/
def newBlock (s : Populating) (sz : Nat) : Populating where
  pool := { s.pool with
    next := Function.update s.pool.next s.fresh .null
    used := Function.update s.pool.used s.fresh false
    size := Function.update s.pool.size s.fresh sz }
  fresh := s.fresh + 1

/-- `lput(ptr, sz)`. -/
def lput (beyond : Nat) (s : Populating) (sz : Nat) : Option (Bool × Populating) :=
  ((s.newBlock sz).pool.lput beyond s.fresh).map fun r => (r.1, ⟨r.2, s.fresh + 1⟩)

/-- `while (!my_pool->lput(ptr, state->size));`. -/
def retry (beyond sz : Nat) : Nat → Populating → Option Populating
  | 0, _ => none
  | fuel + 1, s =>
    match s.lput beyond sz with
    | none => none
    | some (true, s') => some s'
    | some (false, s') => retry beyond sz fuel s'

/-- The loop of `populate_buffers_` with `n` rounds left. -/
def populateLoop (beyond fuel sz : Nat) : Nat → Populating → Option Populating
  | 0, s => some s
  | n + 1, s =>
    match s.retry beyond sz fuel with
    | none => none
    | some s' => populateLoop beyond fuel sz n s'

/-- `populate_buffers_`; there is no round when `nBuffers` is negative. -/
def populateBuffers (beyond fuel : Nat) (nIters : Int) (size : Nat) (s : Populating) :
    Option Populating :=
  let nBuffers := nIters.tdiv kBufferFactor
  s.populateLoop beyond fuel size nBuffers.toNat

end Populating

/-- The pool has `n` blocks, each of which can hold `sz` bytes. -/
def Pool.Stocks (m : Pool Nat) (n sz : Nat) : Prop :=
  ∃ blocks : List Nat, blocks.length = n ∧ blocks.Nodup ∧
    (∀ b, b ∈ blocks ↔ ∃ pt L, Linked m.next (m.heads pt) L ∧ b ∈ L) ∧
    ∀ b ∈ blocks, sz ≤ m.size b

/-- `alloc_from` for `sz`, of a sender that retains nothing, finds a block: nothing is
retained, and `ralloc` returns one. -/
def Pool.AllocFinds (beyond : Nat) (m : Pool Nat) (sz : Nat) : Prop :=
  ∃ s b, (PingPong.system beyond Nat).run ⟨m, .tail, .null, .idle, [], [], 0⟩
    [.send sz, .step, .step] = some s ∧ s.sender = .caching b ∧ sz ≤ s.pool.size b

/-- From a new pool `populate_buffers_` returns with its blocks put, and if there are
any, `alloc_from` finds one. -/
def Populates (beyond : Nat) (start : Populating) (nIters : Int) (size : Nat) : Prop :=
  ∃ fuel s, start.populateBuffers beyond fuel nIters size = some s ∧
    s.pool.Stocks (nIters.tdiv kBufferFactor).toNat size ∧
    (0 < nIters.tdiv kBufferFactor → s.pool.AllocFinds beyond size)

/-! ## One attempt -/

section Attempt

variable {beyond sz : Nat}

/-- The class of a size that is one of the table. -/
theorem sizeClass_of_mem (h : sz ∈ kCutOffPoints) :
    ∃ pt, sizeClass beyond sz = some pt ∧ cutOffPoint beyond pt = sz := by
  obtain ⟨j, hj, hjsz⟩ := List.getElem_of_mem h
  have hcut : cutOffPoint beyond j = sz := (cutOffPoint_eq hj).trans hjsz
  have hle : whichPow2 beyond sz ≤ j := whichPow2_le (Nat.le_of_eq hcut.symm)
  have hlt : whichPow2 beyond sz < kNumCutOffPoints := Nat.lt_of_le_of_lt hle hj
  refine ⟨⟨whichPow2 beyond sz, hlt⟩, dif_pos hlt, ?_⟩
  show cutOffPoint beyond (whichPow2 beyond sz) = sz
  -- an earlier class would be smaller
  rcases Nat.eq_or_lt_of_le hle with heq | hearlier
  · rw [heq, hcut]
  · have hsmaller : cutOffPoint beyond _ < cutOffPoint beyond j :=
      cutOffPoint_lt hearlier hj
    have hfits := whichPow2_fits hlt
    omega

/-- **A block whose size is no class is refused**, and the pool stays as it is. -/
theorem lput_refused {β : Type} [DecidableEq β] {m : Pool β} {blk : β}
    (hsize : m.size blk = sz) (h : sz ∉ kCutOffPoints) :
    m.lput beyond blk = some (false, m) := by
  rw [Pool.lput, hsize]
  cases hpt : sizeClass beyond sz with
  | none => rfl
  | some pt =>
    have hne : sz ≠ cutOffPoint beyond pt := fun heq => h (heq ▸ cutOffPoint_mem pt.isLt)
    exact if_pos hne

/-- **A block whose size is a class is put**, when nobody holds the list. -/
theorem lput_taken {β : Type} [DecidableEq β] {m : Pool β} {blk : β}
    {pt : Fin kNumCutOffPoints}
    (hclass : sizeClass beyond (m.size blk) = some pt)
    (hcut : cutOffPoint beyond pt = m.size blk) (hhead : m.heads pt ≠ .null) :
    m.lput beyond blk = some (true, { m with
      heads := Function.update m.heads pt (.node blk)
      next := Function.update m.next blk (m.heads pt) }) := by
  simp only [Pool.lput, hclass, hcut, ne_eq, not_true_eq_false, if_false,
    Pool.exchange, hhead, Pool.link, Function.update_self, if_true, Function.update_idem]

end Attempt

namespace Populating

variable {beyond sz : Nat}

/-- **For a size that is no class the retry loop never ends.** -/
theorem retry_none (h : sz ∉ kCutOffPoints) :
    ∀ fuel s, retry beyond sz fuel s = none := by
  intro fuel
  induction fuel with
  | zero => exact fun _ => rfl
  | succ fuel ih =>
    intro s
    have hsize : (s.newBlock sz).pool.size s.fresh = sz := Function.update_self ..
    have hput : s.lput beyond sz = some (false, s.newBlock sz) := by
      rw [lput, lput_refused hsize h]
      rfl
    rw [retry, hput]
    exact ih _

/-- The pool holds `n` unused blocks of class `pt`, all allocated before, and no others. -/
structure Filled (sz : Nat) (pt : Fin kNumCutOffPoints) (n : Nat) (s : Populating) :
    Prop where
  list : ∃ L, Linked s.pool.next (s.pool.heads pt) L ∧ L.length = n ∧
    ∀ b ∈ L, b < s.fresh ∧ s.pool.used b = false ∧ s.pool.size b = sz
  others : ∀ pt', pt' ≠ pt → s.pool.heads pt' = .tail

variable {pt : Fin kNumCutOffPoints} {n : Nat} {s : Populating}

/-- One round puts one block. -/
theorem retry_filled (h : s.Filled sz pt n) (hclass : sizeClass beyond sz = some pt)
    (hcut : cutOffPoint beyond pt = sz) (fuel : Nat) :
    ∃ s', retry beyond sz (fuel + 1) s = some s' ∧ s'.Filled sz pt (n + 1) := by
  obtain ⟨L, hlinked, hlen, hL⟩ := h.list
  have hsize : (s.newBlock sz).pool.size s.fresh = sz := Function.update_self ..
  -- the new block is none of those in the list, whose links it leaves as they are
  have hclass' : sizeClass beyond ((s.newBlock sz).pool.size s.fresh) = some pt := by
    rw [hsize]
    exact hclass
  have hput := lput_taken hclass' (hcut.trans hsize.symm) hlinked.ne_null
  have hfresh : s.fresh ∉ L := fun hmem => Nat.lt_irrefl _ (hL _ hmem).1
  refine ⟨_, by rw [retry, lput, hput]; rfl, ⟨s.fresh :: L, ⟨?_, ?_⟩, ?_, ?_⟩, ?_⟩
  · exact Function.update_self ..
  · show Linked
      (Function.update (Function.update s.pool.next s.fresh .null) s.fresh
        (s.pool.heads pt))
      (Function.update (Function.update s.pool.next s.fresh .null) s.fresh
        (s.pool.heads pt)
        s.fresh) L
    rw [Function.update_idem, Function.update_self]
    exact (linked_update hfresh).mpr hlinked
  · rw [List.length_cons, hlen]
  · intro b hb
    rcases List.mem_cons.mp hb with rfl | hb
    · exact ⟨Nat.lt_succ_self _, Function.update_self .., Function.update_self ..⟩
    · obtain ⟨hlt, hused, hsz⟩ := hL b hb
      have hne : b ≠ s.fresh := Nat.ne_of_lt hlt
      exact ⟨Nat.lt_succ_of_lt hlt, (Function.update_of_ne hne _ _).trans hused,
        (Function.update_of_ne hne _ _).trans hsz⟩
  · intro pt' hne
    exact (Function.update_of_ne hne _ _).trans (h.others pt' hne)

theorem populateLoop_filled (hclass : sizeClass beyond sz = some pt)
    (hcut : cutOffPoint beyond pt = sz) :
    ∀ (k : Nat) {n : Nat} {s : Populating}, s.Filled sz pt n →
      ∃ s', populateLoop beyond 1 sz k s = some s' ∧ s'.Filled sz pt (n + k) := by
  intro k
  induction k with
  | zero => exact fun h => ⟨_, rfl, h⟩
  | succ k ih =>
    intro n s h
    obtain ⟨s₁, hretry, h₁⟩ := retry_filled h hclass hcut 0
    obtain ⟨s', hloop, h'⟩ := ih h₁
    refine ⟨s', ?_, by rwa [Nat.add_assoc, Nat.add_comm 1] at h'⟩
    rw [populateLoop, hretry]
    exact hloop

theorem populateLoop_none (h : sz ∉ kCutOffPoints) (fuel n : Nat) :
    populateLoop beyond fuel sz (n + 1) s = none := by
  rw [populateLoop, retry_none h]

/-! ## The blocks, and the request for one -/

/-- What was filled is stocked. -/
theorem Filled.stocks (h : s.Filled sz pt n) : s.pool.Stocks n sz := by
  obtain ⟨L, hlinked, hlen, hL⟩ := h.list
  refine ⟨L, hlen, hlinked.nodup, fun b => ⟨fun hb => ⟨pt, L, hlinked, hb⟩, ?_⟩,
    fun b hb => Nat.le_of_eq (hL b hb).2.2.symm⟩
  rintro ⟨pt', L', hlinked', hb⟩
  by_cases hpt : pt' = pt
  · subst hpt
    rwa [hlinked.unique hlinked']
  · rw [h.others pt' hpt, linked_tail] at hlinked'
    rw [hlinked'] at hb
    exact absurd hb List.not_mem_nil

/-- A class with a block serves a request for its size. -/
theorem Filled.ralloc (h : s.Filled sz pt (n + 1))
    (hclass : sizeClass beyond sz = some pt) :
    ∃ b m, s.pool.ralloc beyond sz = some (.node b, m) ∧ m.size b = sz := by
  obtain ⟨L, hlinked, hlen, hL⟩ := h.list
  cases L with
  | nil => cases hlen
  | cons b L =>
    obtain ⟨hhead, -⟩ := hlinked
    obtain ⟨-, hused, hsize⟩ := hL b List.mem_cons_self
    let m : Pool Nat := { s.pool with
      heads := Function.update (Function.update s.pool.heads pt .null) pt (s.pool.next b)
      used := Function.update s.pool.used b true }
    refine ⟨b, m, ?_, hsize⟩
    simp only [Pool.ralloc, hclass, Pool.exchange, hhead, Pool.mark, hused,
      Function.update_self, and_self, if_true, m]

/-- The first request of a sender goes to the pool. -/
theorem Filled.allocFinds (h : s.Filled sz pt (n + 1))
    (hclass : sizeClass beyond sz = some pt) :
    s.pool.AllocFinds beyond sz := by
  obtain ⟨b, m, hralloc, hsize⟩ := h.ralloc hclass
  refine ⟨⟨m, .tail, .null, .caching b, [], [b], 0⟩, b, ?_, rfl, Nat.le_of_eq hsize.symm⟩
  simp [Transition.run, PingPong.system, PingPong.step, PingPong.proceed, hralloc]

/-- `mempool::mempool`, in memory with anything in it. -/
def start (next : Nat → Link Nat) (used : Nat → Bool) (size : Nat → Nat) (fresh : Nat) :
    Populating := ⟨.new next used size, fresh⟩

end Populating

/-- **`populate_buffers_` does its work exactly when there is nothing to do, or the
payload size is one of the classes**: else it never returns. -/
theorem populates_iff (beyond : Nat) (next : Nat → Link Nat) (used : Nat → Bool)
    (size : Nat → Nat) (fresh : Nat) (nIters : Int) (sz : Nat) :
    Populates beyond (.start next used size fresh) nIters sz ↔
      nIters.tdiv kBufferFactor ≤ 0 ∨ sz ∈ kCutOffPoints := by
  have hnew : ∀ pt, (Populating.start next used size fresh).Filled sz pt 0 := fun pt =>
    ⟨⟨[], rfl, rfl, fun _ hb => absurd hb List.not_mem_nil⟩, fun _ _ => rfl⟩
  constructor
  · rintro ⟨fuel, s, hrun, -⟩
    by_contra hneither
    obtain ⟨hpos, hclass⟩ := not_or.mp hneither
    -- the first round is already without end
    obtain ⟨k, hk⟩ : ∃ k, (nIters.tdiv kBufferFactor).toNat = k + 1 :=
      ⟨(nIters.tdiv kBufferFactor).toNat - 1, by omega⟩
    rw [Populating.populateBuffers, hk, Populating.populateLoop_none hclass] at hrun
    cases hrun
  · intro h
    by_cases hpos : nIters.tdiv kBufferFactor ≤ 0
    · have hzero : (nIters.tdiv kBufferFactor).toNat = 0 := Int.toNat_of_nonpos hpos
      refine ⟨0, _, by rw [Populating.populateBuffers, hzero]; rfl, ?_,
        fun hlt => by omega⟩
      rw [hzero]
      exact (hnew ⟨0, Nat.succ_pos 24⟩).stocks
    · have hmem : sz ∈ kCutOffPoints := h.resolve_left hpos
      obtain ⟨pt, hclass, hcut⟩ : ∃ pt, sizeClass beyond sz = some pt ∧
          cutOffPoint beyond pt = sz := sizeClass_of_mem hmem
      obtain ⟨s, hrun, hfilled⟩ := Populating.populateLoop_filled hclass hcut
        (nIters.tdiv kBufferFactor).toNat (hnew pt)
      rw [Nat.zero_add] at hfilled
      refine ⟨1, s, hrun, hfilled.stocks, fun hlt => ?_⟩
      obtain ⟨k, hk⟩ : ∃ k, (nIters.tdiv kBufferFactor).toNat = k + 1 :=
        ⟨(nIters.tdiv kBufferFactor).toNat - 1, by omega⟩
      rw [hk] at hfilled
      exact hfilled.allocFinds hclass

/-- **A payload of 100 bytes and four iterations**: one block is to be put, and
`lput` refuses it for ever. -/
theorem hundred_never :
    (∀ fuel, (Populating.start (fun _ => .null) (fun _ => false) (fun _ => 0)
      0).populateBuffers 0 fuel 4 100 = none) ∧
    ¬ Populates 0 (.start (fun _ => .null) (fun _ => false) (fun _ => 0) 0) 4 100 := by
  have hnone : ∀ fuel, (Populating.start (fun _ => .null) (fun _ => false) (fun _ => 0)
      0).populateBuffers 0 fuel 4 100 = none :=
    fun fuel => Populating.populateLoop_none (by decide) fuel 0
  refine ⟨hnone, ?_⟩
  rintro ⟨fuel, s, hrun, -⟩
  rw [hnone fuel] at hrun
  cases hrun

end CharmExperiments.Ipc
