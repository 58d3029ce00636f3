import CharmExperiments.Lib.LockedList
import CharmExperiments.Lib.Transition

/-!
# The pool of free blocks

`archive/include/pool.hh`: one list of blocks for each size class, each behind a
head that is its lock, as the head of `queue` is. `lput` puts a block in front of
the list of its class; `ralloc` takes the first of the class that fits, and marks
it used after it has given the list back.

As in `Ipc.Queue`, each call is given in one step (`Pool.lput`, `Pool.ralloc`) and
cut at its exchanges and at its accesses to `next` (`Pooled`); `lput_alone` and
`ralloc_alone` relate the two.

Mirroring notes:
- For a size above the largest class `which_pow2` compares with
  `kCutOffPoints[25]`, which is behind the array; `beyond` is what it reads there.
  The read is undefined: a compiler that optimises may take it not to happen and
  drop the range checks of the callers. What is said of the pool is said for sizes
  up to `largestClass`.
- Only the owner puts: `lput` links to the address `blk` has in its own segment,
  which `ralloc` translates.
- `translate_address` gives the same block another address; here a block has one
  name. `orig`, `ptr` and `xlatd` are read by no function here.
- A failed `assert` ends the run (`failed`).
- `store` is other code that writes a block. `new block` is such a write.
- `ledger` and `served` record what the calls returned; no function reads them.
-/

namespace CharmExperiments.Ipc

open CharmExperiments.Lib

variable {ι β : Type}

/-! ## Size classes -/

def kNumCutOffPoints : Nat := 25

def kCutOffPoints : List Nat := [
  64, 128, 256, 512, 1024, 2048, 4096,
  8192, 16384, 32768, 65536, 131072, 262144, 524288,
  1048576, 2097152, 4194304, 8388608, 16777216, 33554432, 67108864,
  134217728, 268435456, 536870912, 1073741824]

/-- The largest class. -/
def largestClass : Nat := 1073741824

/-- `kCutOffPoints[i]`. -/
def cutOffPoint (beyond i : Nat) : Nat := kCutOffPoints.getD i beyond

/-- The loop of `which_pow2` from `i` on, with `n` rounds left. -/
def whichPow2Loop (beyond sz : Nat) : Nat → Nat → Nat
  | 0, i => i
  | n + 1, i => if sz ≤ cutOffPoint beyond i then i else whichPow2Loop beyond sz n (i + 1)

/-- `which_pow2`, whose loop runs while `i <= kNumCutOffPoints`. -/
def whichPow2 (beyond sz : Nat) : Nat := whichPow2Loop beyond sz (kNumCutOffPoints + 1) 0

theorem whichPow2Loop_fits (beyond sz : Nat) :
    ∀ n i, whichPow2Loop beyond sz n i < i + n →
      sz ≤ cutOffPoint beyond (whichPow2Loop beyond sz n i) := by
  intro n
  induction n with
  | zero => exact fun i h => absurd h (Nat.lt_irrefl i)
  | succ n ih =>
    intro i h
    unfold whichPow2Loop at h ⊢
    by_cases hsz : sz ≤ cutOffPoint beyond i
    · rw [if_pos hsz]
      exact hsz
    · rw [if_neg hsz] at h ⊢
      exact ih (i + 1) (by omega)

/-- The class found is one that fits. -/
theorem whichPow2_fits {beyond sz : Nat} (h : whichPow2 beyond sz < kNumCutOffPoints) :
    sz ≤ cutOffPoint beyond (whichPow2 beyond sz) :=
  whichPow2Loop_fits beyond sz _ 0 (by unfold whichPow2 at h; omega)

/-- The class of a size, when `pt < kNumCutOffPoints`. -/
def sizeClass (beyond sz : Nat) : Option (Fin kNumCutOffPoints) :=
  if h : whichPow2 beyond sz < kNumCutOffPoints then some ⟨whichPow2 beyond sz, h⟩
  else none

theorem sizeClass_fits {beyond sz : Nat} {pt : Fin kNumCutOffPoints}
    (h : sizeClass beyond sz = some pt) : sz ≤ cutOffPoint beyond pt := by
  unfold sizeClass at h
  split at h
  next hlt =>
    obtain rfl := Option.some.inj h
    exact whichPow2_fits hlt
  next => cases h

example : (sizeClass 0 65).map Fin.val = some 1 ∧ sizeClass 0 1073741825 =
    none := by decide

/-! ## Calls in one step -/

/-- `ipc::mempool`, with what is in the blocks. -/
structure Pool (β : Type) where
  heads : Fin kNumCutOffPoints → Link β
  next : β → Link β
  used : β → Bool
  size : β → Nat

namespace Pool

/-- `mempool::mempool`, with whatever is in the blocks. -/
def new (next : β → Link β) (used : β → Bool) (size : β → Nat) : Pool β :=
  ⟨fun _ => .tail, next, used, size⟩

/-- `blocks[pt].exchange`. -/
def exchange (m : Pool β) (pt : Fin kNumCutOffPoints) (l : Link β) : Link β × Pool β :=
  (m.heads pt, { m with heads := Function.update m.heads pt l })

variable [DecidableEq β]

/-- `blk->next = head`. -/
def link (m : Pool β) (blk : β) (head : Link β) : Pool β :=
  { m with next := Function.update m.next blk head }

/-- `blk->used.exchange`. -/
def mark (m : Pool β) (blk : β) (v : Bool) : Bool × Pool β :=
  (m.used blk, { m with used := Function.update m.used blk v })

/-- `mempool::lput`; `none` when the assertion fails. -/
def lput (beyond : Nat) (m : Pool β) (blk : β) : Option (Bool × Pool β) :=
  match sizeClass beyond (m.size blk) with
  | none => some (false, m)
  | some pt =>
    if m.size blk ≠ cutOffPoint beyond pt then some (false, m)
    else
      let (head, m) := m.exchange pt .null
      if head = .null then some (false, m)
      else
        let (swap, m) := (m.link blk head).exchange pt (.node blk)
        if swap = .null then some (true, m) else none

/-- `mempool::ralloc`; `none` when an assertion fails. -/
def ralloc (beyond : Nat) (m : Pool β) (sz : Nat) : Option (Link β × Pool β) :=
  match sizeClass beyond sz with
  | none => some (.null, m)
  | some pt =>
    let (head, m) := m.exchange pt .null
    match head with
    | .null => some (.null, m)
    | .tail =>
      let (swap, m) := m.exchange pt .tail
      if swap = .null then some (.null, m) else none
    | .node xlatd =>
      let next := m.next xlatd
      let (swap, m) := m.exchange pt next
      let (used, m) := m.mark xlatd true
      if used = false ∧ swap = .null then some (.node xlatd, m) else none

end Pool

/-! ## Calls that interleave -/

/-- Where a process is in a call. -/
inductive PoolCaller (β : Type)
  | idle
  /-- `lput(blk)`, before its first exchange. -/
  | lput (blk : β)
  /-- The first exchange gave `head`. -/
  | linking (blk : β) (pt : Fin kNumCutOffPoints) (head : Link β)
  /-- `blk->next` is written. -/
  | publishing (blk : β) (pt : Fin kNumCutOffPoints) (head : Link β)
  /-- `ralloc(sz)`, before its first exchange. -/
  | ralloc (sz : Nat)
  /-- The first exchange gave `kTail`. -/
  | restoring (pt : Fin kNumCutOffPoints)
  /-- The first exchange gave a block. -/
  | reading (sz : Nat) (pt : Fin kNumCutOffPoints) (xlatd : β)
  /-- `xlatd->next` is known. -/
  | swapping (sz : Nat) (pt : Fin kNumCutOffPoints) (xlatd : β) (next : Link β)
  /-- The second exchange gave `swap`. -/
  | marking (sz : Nat) (xlatd : β) (swap : Link β)

/-- What happened to a block: how often `lput` took it, how often `ralloc` returned
it, and whether other code has marked it unused since. -/
structure Ledger where
  puts : Nat
  allocs : Nat
  released : Bool

/-- The pool with the processes that call it. `served` has, for each block that
`ralloc` returned, the size asked for and the size of the block. -/
structure Pooled (ι β : Type) where
  pool : Pool β
  callers : ι → PoolCaller β
  failed : Bool
  ledger : β → Ledger
  served : List (Nat × Nat)

/-- What can happen: a call, the next step of a call, or a write by other code. -/
inductive PoolAction (ι β : Type)
  | lput (p : ι) (blk : β)
  | ralloc (p : ι) (sz : Nat)
  | step (p : ι)
  | store (blk : β) (next : Link β) (used : Bool) (size : Nat)

namespace Pooled

variable [DecidableEq ι] [DecidableEq β]

def goto (s : Pooled ι β) (p : ι) (c : PoolCaller β) : Pooled ι β :=
  { s with callers := Function.update s.callers p c }

/-- `lput` returns `true`. -/
def wasPut (s : Pooled ι β) (blk : β) : Pooled ι β :=
  { s with
    ledger := Function.update s.ledger blk
      { s.ledger blk with puts := (s.ledger blk).puts + 1 } }

/-- `ralloc(sz)` returns a block. -/
def wasServed (s : Pooled ι β) (sz : Nat) (blk : β) : Pooled ι β :=
  { s with
    ledger := Function.update s.ledger blk
      { s.ledger blk with allocs := (s.ledger blk).allocs + 1, released := false }
    served := s.served ++ [(sz, s.pool.size blk)] }

/-- The next step of the call of `p`. -/
def proceed (beyond : Nat) (s : Pooled ι β) (p : ι) : Option (Pooled ι β) :=
  match s.callers p with
  | .idle => none
  | .lput blk =>
    match sizeClass beyond (s.pool.size blk) with
    | none => some (s.goto p .idle)
    | some pt =>
      if s.pool.size blk ≠ cutOffPoint beyond pt then some (s.goto p .idle)
      else
        let (head, m) := s.pool.exchange pt .null
        let s := { s with pool := m }
        some (if head = .null then s.goto p .idle else s.goto p (.linking blk pt head))
  | .linking blk pt head =>
    some ({ s with pool := s.pool.link blk head }.goto p (.publishing blk pt head))
  | .publishing blk pt _ =>
    let (swap, m) := s.pool.exchange pt (.node blk)
    let s := { s with pool := m }
    some (if swap = .null then (s.wasPut blk).goto p .idle else { s with failed := true })
  | .ralloc sz =>
    match sizeClass beyond sz with
    | none => some (s.goto p .idle)
    | some pt =>
      let (head, m) := s.pool.exchange pt .null
      let s := { s with pool := m }
      match head with
      | .null => some (s.goto p .idle)
      | .tail => some (s.goto p (.restoring pt))
      | .node xlatd => some (s.goto p (.reading sz pt xlatd))
  | .restoring pt =>
    let (swap, m) := s.pool.exchange pt .tail
    let s := { s with pool := m }
    some (if swap = .null then s.goto p .idle else { s with failed := true })
  | .reading sz pt xlatd => some (s.goto p (.swapping sz pt xlatd (s.pool.next xlatd)))
  | .swapping sz pt xlatd next =>
    let (swap, m) := s.pool.exchange pt next
    some ({ s with pool := m }.goto p (.marking sz xlatd swap))
  | .marking sz xlatd swap =>
    let (used, m) := s.pool.mark xlatd true
    let s := { s with pool := m }
    some (if used = false ∧ swap = .null then (s.wasServed sz xlatd).goto p .idle
      else { s with failed := true })

/-- Other code writes a block. -/
def store (s : Pooled ι β) (blk : β) (next : Link β) (used : Bool) (size : Nat) :
    Pooled ι β :=
  { s with
    pool := { s.pool with
      next := Function.update s.pool.next blk next
      used := Function.update s.pool.used blk used
      size := Function.update s.pool.size blk size }
    ledger := Function.update s.ledger blk { s.ledger blk with released := !used } }

/-- One step; `none` when it cannot be taken. -/
def step (beyond : Nat) (s : Pooled ι β) (a : PoolAction ι β) : Option (Pooled ι β) :=
  if s.failed then none
  else
    match a with
    | .lput p blk =>
      match s.callers p with
      | .idle => some (s.goto p (.lput blk))
      | _ => none
    | .ralloc p sz =>
      match s.callers p with
      | .idle => some (s.goto p (.ralloc sz))
      | _ => none
    | .step p => s.proceed beyond p
    | .store blk next used size => some (s.store blk next used size)

omit [DecidableEq ι] [DecidableEq β] in
/-- A new pool that nobody calls. -/
def init (next : β → Link β) (used : β → Bool) (size : β → Nat) : Pooled ι β :=
  ⟨.new next used size, fun _ => .idle, false, fun _ => ⟨0, 0, false⟩, []⟩

/-- The pool as a transition system. -/
def system (beyond : Nat) (ι β : Type) [DecidableEq ι] [DecidableEq β] :
    Transition (Pooled ι β) (PoolAction ι β) where
  init s := ∃ next used size, s = init next used size
  step := step beyond

end Pooled

/-! ## A call nobody interferes with -/

section Alone

variable [DecidableEq ι] [DecidableEq β] {beyond : Nat}

/-- **A call of `lput` that nobody interferes with is `Pool.lput`.** -/
theorem lput_alone {s : Pooled ι β} {p : ι} {blk : β} {ok : Bool} {m : Pool β}
    (hidle : s.callers p = .idle) (hrun : s.failed = false)
    (h : s.pool.lput beyond blk = some (ok, m)) :
    ∃ as, (Pooled.system beyond ι β).run s (.lput p blk :: as)
      = some (if ok then { s with pool := m }.wasPut blk else { s with pool := m }) := by
  have hcallers : Function.update s.callers p .idle = s.callers := by
    rw [← hidle, Function.update_eq_self]
  unfold Pool.lput at h
  cases hpt : sizeClass beyond (s.pool.size blk) with
  | none =>
    rw [hpt] at h
    obtain ⟨rfl, rfl⟩ := Prod.mk.inj (Option.some.inj h)
    refine ⟨[.step p], ?_⟩
    simp [Transition.run, Pooled.system, Pooled.step, Pooled.proceed,
      Pooled.goto, hidle, hrun, hpt, hcallers]
  | some pt =>
    rw [hpt] at h
    by_cases hsize : s.pool.size blk = cutOffPoint beyond pt
    · have hpt' : sizeClass beyond (cutOffPoint beyond pt) = some pt := hsize ▸ hpt
      by_cases hnull : s.pool.heads pt = .null
      · simp only [Pool.exchange, hsize, hnull, ne_eq, not_true_eq_false,
          if_false, if_true] at h
        obtain ⟨rfl, rfl⟩ := Prod.mk.inj (Option.some.inj h)
        refine ⟨[.step p], ?_⟩
        simp [Transition.run, Pooled.system, Pooled.step, Pooled.proceed,
          Pooled.goto, hidle, hrun, hpt', hsize, hnull, hcallers, Pool.exchange]
      · simp only [Pool.exchange, Pool.link, hsize, hnull, ne_eq,
          not_true_eq_false, if_false, Function.update_self, if_true] at h
        obtain ⟨rfl, rfl⟩ := Prod.mk.inj (Option.some.inj h)
        refine ⟨[.step p, .step p, .step p], ?_⟩
        simp [Transition.run, Pooled.system, Pooled.step, Pooled.proceed,
          Pooled.goto, hidle, hrun, hpt', hsize, hnull, hcallers, Pool.exchange,
            Pool.link, Pooled.wasPut]
    · simp only [hsize, ne_eq, not_false_eq_true, if_true] at h
      obtain ⟨rfl, rfl⟩ := Prod.mk.inj (Option.some.inj h)
      refine ⟨[.step p], ?_⟩
      simp [Transition.run, Pooled.system, Pooled.step, Pooled.proceed,
        Pooled.goto, hidle, hrun, hpt, hsize, hcallers]

/-- **A call of `ralloc` that nobody interferes with is `Pool.ralloc`.** -/
theorem ralloc_alone {s : Pooled ι β} {p : ι} {sz : Nat} {ret : Link β} {m : Pool β}
    (hidle : s.callers p = .idle) (hrun : s.failed = false)
    (h : s.pool.ralloc beyond sz = some (ret, m)) :
    ∃ as, (Pooled.system beyond ι β).run s (.ralloc p sz :: as)
      = some (match ret with
        | .node blk => { s with pool := m }.wasServed sz blk
        | _ => { s with pool := m }) := by
  have hcallers : Function.update s.callers p .idle = s.callers := by
    rw [← hidle, Function.update_eq_self]
  unfold Pool.ralloc at h
  cases hpt : sizeClass beyond sz with
  | none =>
    rw [hpt] at h
    obtain ⟨rfl, rfl⟩ := Prod.mk.inj (Option.some.inj h)
    refine ⟨[.step p], ?_⟩
    simp [Transition.run, Pooled.system, Pooled.step, Pooled.proceed,
      Pooled.goto, hidle, hrun, hpt, hcallers]
  | some pt =>
    rw [hpt] at h
    cases hhead : s.pool.heads pt with
    | null =>
      simp only [Pool.exchange, hhead] at h
      obtain ⟨rfl, rfl⟩ := Prod.mk.inj (Option.some.inj h)
      refine ⟨[.step p], ?_⟩
      simp [Transition.run, Pooled.system, Pooled.step, Pooled.proceed,
        Pooled.goto, hidle, hrun, hpt, hhead, hcallers, Pool.exchange]
    | tail =>
      simp only [Pool.exchange, hhead, Function.update_self, if_true] at h
      obtain ⟨rfl, rfl⟩ := Prod.mk.inj (Option.some.inj h)
      refine ⟨[.step p, .step p], ?_⟩
      simp [Transition.run, Pooled.system, Pooled.step, Pooled.proceed,
        Pooled.goto, hidle, hrun, hpt, hhead, hcallers, Pool.exchange]
    | node xlatd =>
      simp only [Pool.exchange, Pool.mark, hhead, Function.update_self, and_true] at h
      split at h
      next hused =>
        obtain ⟨rfl, rfl⟩ := Prod.mk.inj (Option.some.inj h)
        refine ⟨[.step p, .step p, .step p, .step p], ?_⟩
        simp [Transition.run, Pooled.system, Pooled.step, Pooled.proceed,
          Pooled.goto, hidle, hrun, hpt, hhead, hcallers, hused, Pool.exchange, Pool.mark,
            Pooled.wasServed]
      next => cases h

end Alone

end CharmExperiments.Ipc
