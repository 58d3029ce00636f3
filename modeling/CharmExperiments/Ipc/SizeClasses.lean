import CharmExperiments.Ipc.Pool

/-!
# The class of a size

`which_pow2` goes through `kCutOffPoints` from the front and returns the first index
whose entry fits. Its loop runs while `i <= kNumCutOffPoints`, once more than there are
entries. For a size that fits in the largest class the loop has returned by then, and
all is as it should be; for any other it reads the entry behind the table, and what it
returns depends on what is there (`classSound_iff`). Compiled as it stands, either result
is past the last class, and `lput` and `ralloc` refuse the size (`too_large_refused`). The
read is undefined, though: an optimised build takes `pt >= kNumCutOffPoints` never to hold,
drops the check in `ralloc` and does not refuse.

Mirroring notes:
- `whichPow2Reads` lists the indexes the loop reads. It follows `whichPow2Loop`
  branch by branch; no function reads it.
-/

namespace CharmExperiments.Ipc

open CharmExperiments.Lib

variable {β : Type} {beyond sz : Nat}

/-- The indexes that the loop of `which_pow2` reads, from `i` on. -/
def whichPow2LoopReads (beyond sz : Nat) : Nat → Nat → List Nat
  | 0, _ => []
  | n + 1, i =>
    i :: if sz ≤ cutOffPoint beyond i then [] else whichPow2LoopReads beyond sz n (i + 1)

/-- The indexes that `which_pow2` reads. -/
def whichPow2Reads (beyond sz : Nat) : List Nat :=
  whichPow2LoopReads beyond sz (kNumCutOffPoints + 1) 0

/-- `which_pow2` stays in its table and finds the least class that fits, or that there
is none; and `lput` and `ralloc` use a class that fits, and refuse what is too large. -/
structure ClassSound (β : Type) [DecidableEq β] (beyond sz : Nat) : Prop where
  reads : ∀ i ∈ whichPow2Reads beyond sz, i < kNumCutOffPoints
  least : ∀ i < kNumCutOffPoints, sz ≤ cutOffPoint beyond i →
    whichPow2 beyond sz ≤ i ∧ sz ≤ cutOffPoint beyond (whichPow2 beyond sz)
  none : (∀ i < kNumCutOffPoints, cutOffPoint beyond i < sz) →
    whichPow2 beyond sz = kNumCutOffPoints
  fits : ∀ pt, sizeClass beyond sz = some pt → sz ≤ cutOffPoint beyond pt
  refused : largestClass < sz → ∀ m : Pool β,
    (∀ blk, m.size blk = sz → m.lput beyond blk = some (false, m)) ∧
      m.ralloc beyond sz = some (.null, m)

/-! ## The table -/

theorem cutOffPoint_eq {i : Nat} (hi : i < kCutOffPoints.length) :
    cutOffPoint beyond i = kCutOffPoints[i] := by
  rw [cutOffPoint, List.getD, List.getElem?_eq_getElem hi, Option.getD_some]

theorem cutOffPoint_mem {i : Nat} (hi : i < kNumCutOffPoints) :
    cutOffPoint beyond i ∈ kCutOffPoints := by
  rw [cutOffPoint_eq hi]
  exact List.getElem_mem hi

theorem kCutOffPoints_le : ∀ c ∈ kCutOffPoints, c ≤ largestClass := by decide

theorem kCutOffPoints_sorted : kCutOffPoints.Pairwise (· < ·) := by decide

theorem cutOffPoint_le {i : Nat} (hi : i < kNumCutOffPoints) :
    cutOffPoint beyond i ≤ largestClass := kCutOffPoints_le _ (cutOffPoint_mem hi)

theorem cutOffPoint_last : cutOffPoint beyond (kNumCutOffPoints - 1) = largestClass := rfl

theorem cutOffPoint_lt {i j : Nat} (hij : i < j) (hj : j < kNumCutOffPoints) :
    cutOffPoint beyond i < cutOffPoint beyond j := by
  have hi : i < kNumCutOffPoints := Nat.lt_trans hij hj
  rw [cutOffPoint_eq hi, cutOffPoint_eq hj]
  exact List.pairwise_iff_getElem.mp kCutOffPoints_sorted i j hi hj hij

/-! ## The loop -/

/-- What the loop has passed does not fit, and it ends after its rounds at the latest. -/
theorem whichPow2Loop_passed (beyond sz : Nat) :
    ∀ n i, whichPow2Loop beyond sz n i ≤ i + n ∧
    ∀ j, i ≤ j → j < whichPow2Loop beyond sz n i → cutOffPoint beyond j < sz := by
  intro n
  induction n with
  | zero => exact fun i => ⟨Nat.le_refl i, fun j hij hj => absurd hj (Nat.not_lt.mpr hij)⟩
  | succ n ih =>
    intro i
    unfold whichPow2Loop
    by_cases hsz : sz ≤ cutOffPoint beyond i
    · rw [if_pos hsz]
      exact ⟨Nat.le_add_right _ _, fun j hij hj => absurd hj (Nat.not_lt.mpr hij)⟩
    · rw [if_neg hsz]
      obtain ⟨hle, hpassed⟩ := ih (i + 1)
      refine ⟨by omega, fun j hij hj => ?_⟩
      rcases Nat.eq_or_lt_of_le hij with rfl | hlt
      · exact Nat.lt_of_not_le hsz
      · exact hpassed j hlt hj

theorem whichPow2Loop_ge (beyond sz : Nat) : ∀ n i, i ≤ whichPow2Loop beyond sz n i := by
  intro n
  induction n with
  | zero => exact Nat.le_refl
  | succ n ih =>
    intro i
    unfold whichPow2Loop
    split
    next => exact Nat.le_refl i
    next => exact Nat.le_of_succ_le (ih (i + 1))

/-- The loop reads what it passes, and where it stops. -/
theorem mem_whichPow2LoopReads (beyond sz : Nat) :
    ∀ n i j, j ∈ whichPow2LoopReads beyond sz n i ↔
    i ≤ j ∧ j ≤ whichPow2Loop beyond sz n i ∧ j < i + n := by
  intro n
  induction n with
  | zero =>
    intro i j
    exact ⟨fun h => absurd h List.not_mem_nil, fun ⟨hij, _, hlt⟩ => by omega⟩
  | succ n ih =>
    intro i j
    unfold whichPow2LoopReads whichPow2Loop
    rw [List.mem_cons]
    by_cases hsz : sz ≤ cutOffPoint beyond i
    · simp only [if_pos hsz, List.not_mem_nil, or_false]
      omega
    · simp only [if_neg hsz, ih]
      have hge : i + 1 ≤ whichPow2Loop beyond sz n (i + 1) :=
        whichPow2Loop_ge beyond sz n (i + 1)
      omega

/-- `which_pow2` found nothing that fits before the index it returns. -/
theorem whichPow2_passed {j : Nat} (h : j < whichPow2 beyond sz) :
    cutOffPoint beyond j < sz :=
  (whichPow2Loop_passed beyond sz _ 0).2 j (Nat.zero_le j) h

/-- A class that fits is not passed. -/
theorem whichPow2_le {i : Nat} (h : sz ≤ cutOffPoint beyond i) :
    whichPow2 beyond sz ≤ i :=
  Nat.le_of_not_lt fun hlt => Nat.not_lt.mpr h (whichPow2_passed hlt)

theorem mem_whichPow2Reads {j : Nat} :
    j ∈ whichPow2Reads beyond sz ↔ j ≤ whichPow2 beyond sz ∧ j ≤ kNumCutOffPoints := by
  rw [whichPow2Reads, mem_whichPow2LoopReads, ← whichPow2]
  omega

/-! ## Sizes that fit, and others -/

theorem whichPow2_lt (h : sz ≤ largestClass) : whichPow2 beyond sz < kNumCutOffPoints :=
  Nat.lt_of_le_of_lt (whichPow2_le (i := kNumCutOffPoints - 1) (cutOffPoint_last ▸ h))
    (Nat.sub_lt (Nat.succ_pos 24) Nat.one_pos)

/-- **A size above the largest class passes the whole table.** -/
theorem kNumCutOffPoints_le (h : largestClass < sz) :
    kNumCutOffPoints ≤ whichPow2 beyond sz := by
  refine Nat.le_of_not_lt fun hlt => ?_
  have hfits := whichPow2_fits hlt
  have hle : cutOffPoint beyond (whichPow2 beyond sz) ≤ largestClass := cutOffPoint_le hlt
  omega

theorem sizeClass_none (h : largestClass < sz) : sizeClass beyond sz = none :=
  dif_neg (Nat.not_lt.mpr (kNumCutOffPoints_le h))

/-- **A size above the largest class is refused**, whatever lies behind the table, as
long as the range checks are compiled as they stand. -/
theorem too_large_refused [DecidableEq β] (h : largestClass < sz) (m : Pool β) :
    (∀ blk, m.size blk = sz → m.lput beyond blk = some (false, m)) ∧
      m.ralloc beyond sz = some (.null, m) := by
  constructor
  · intro blk hblk
    rw [Pool.lput, hblk, sizeClass_none h]
  · rw [Pool.ralloc, sizeClass_none h]

/-- **`which_pow2` does what is asked of it exactly for the sizes up to the largest
class**; for any other it reads behind the table. -/
theorem classSound_iff (β : Type) [DecidableEq β] (beyond sz : Nat) :
    ClassSound β beyond sz ↔ sz ≤ largestClass := by
  constructor
  · intro h
    refine Nat.le_of_not_lt fun hlt => ?_
    -- having passed the last entry, the loop has one more round
    have hread : kNumCutOffPoints ∈ whichPow2Reads beyond sz :=
      mem_whichPow2Reads.mpr ⟨kNumCutOffPoints_le hlt, Nat.le_refl _⟩
    exact absurd (h.reads _ hread) (Nat.lt_irrefl _)
  · intro h
    have hlt : whichPow2 beyond sz < kNumCutOffPoints := whichPow2_lt h
    refine ⟨fun i hi => ?_, fun i _ hi => ⟨whichPow2_le hi, whichPow2_fits hlt⟩,
      fun hnone => ?_, fun pt => sizeClass_fits, fun hlarge => too_large_refused hlarge⟩
    · exact Nat.lt_of_le_of_lt (mem_whichPow2Reads.mp hi).1 hlt
    · exact absurd (hnone _ hlt) (Nat.not_lt.mpr (whichPow2_fits hlt))

/-- **One byte above 1 GiB**: the read leaves the table, and with a smaller number
behind it the result is 26. -/
theorem past_the_table : 25 ∈ whichPow2Reads 0 1073741825 ∧ whichPow2 0 1073741825 = 26 ∧
    ¬ ClassSound Nat 0 1073741825 := by
  have hread : 25 ∈ whichPow2Reads 0 1073741825 := by decide
  exact ⟨hread, by decide, fun h => absurd (h.reads 25 hread) (Nat.lt_irrefl 25)⟩

end CharmExperiments.Ipc
