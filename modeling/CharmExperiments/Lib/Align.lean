import Mathlib.Data.Nat.Bitwise

/-!
# Rounding to a multiple

What alignment macros compute. On numbers, `roundDown a n` and `roundUp a n` are the
multiples of `a` next to `n`, less than `a` away from it. On machine words the same
is done with a mask, `x & ~(a - 1)` for a power of two `a`. The two agree: rounding
down always (`toNat_maskDown`), rounding up as long as the sum under the mask does
not wrap (`toNat_maskUp`).
-/

namespace CharmExperiments.Lib

/-- The last multiple of `a` not above `n`. -/
def roundDown (a n : Nat) : Nat := n / a * a

/-- The first multiple of `a` not below `n`. -/
def roundUp (a n : Nat) : Nat := (n + (a - 1)) / a * a

variable {a n : Nat}

theorem dvd_roundDown : a ∣ roundDown a n := Nat.dvd_mul_left a _

theorem roundDown_le : roundDown a n ≤ n := Nat.div_mul_le_self n a

theorem lt_roundDown_add (ha : 0 < a) : n < roundDown a n + a := Nat.lt_div_mul_add ha

/-- Rounding up is rounding down, from `a - 1` further on. -/
theorem roundUp_eq : roundUp a n = roundDown a (n + (a - 1)) := rfl

theorem le_roundUp (ha : 0 < a) : n ≤ roundUp a n := by
  have h : n + (a - 1) < roundUp a n + a := lt_roundDown_add ha
  omega

theorem roundUp_lt (ha : 0 < a) : roundUp a n < n + a := by
  have h : roundUp a n ≤ n + (a - 1) := roundDown_le
  omega

/-! ## The same with masks -/

variable {w k : Nat}

/-- `x & ~(a - 1)`. -/
def maskDown (a x : BitVec w) : BitVec w := x &&& ~~~(a - 1)

/-- `(x + (a - 1)) & ~(a - 1)`. -/
def maskUp (a x : BitVec w) : BitVec w := (x + (a - 1)) &&& ~~~(a - 1)

/-- `1 << k`, less one, has the low `k` bits. -/
theorem toNat_twoPow_sub_one (hk : k < w) : (BitVec.twoPow w k - 1).toNat =
    2 ^ k - 1 := by
  have hlt : 2 ^ k < 2 ^ w := Nat.pow_lt_pow_right (by omega) hk
  have hpos : 0 < 2 ^ k := Nat.two_pow_pos k
  have hone : (1 : BitVec w).toNat = 1 := Nat.mod_eq_of_lt (Nat.lt_of_le_of_lt hpos hlt)
  have htwo : (BitVec.twoPow w k).toNat = 2 ^ k := by
    rw [BitVec.toNat_twoPow, Nat.mod_eq_of_lt hlt]
  rw [BitVec.toNat_sub_of_le (by rw [BitVec.le_def, hone, htwo]; omega), hone, htwo]

/-- **The mask rounds down.** Bit by bit: the bits from `k` on stay, the others go. -/
theorem toNat_maskDown (hk : k < w) (x : BitVec w) :
    (maskDown (BitVec.twoPow w k) x).toNat = roundDown (2 ^ k) x.toNat := by
  have hpos : 0 < 2 ^ k := Nat.two_pow_pos k
  have hlt : 2 ^ k - 1 < 2 ^ w :=
    Nat.lt_of_le_of_lt (Nat.sub_le _ _) (Nat.pow_lt_pow_right (by omega) hk)
  have hnot : (~~~(BitVec.twoPow w k - 1)).toNat = 2 ^ w - (2 ^ k - 1 + 1) := by
    rw [BitVec.toNat_not, toNat_twoPow_sub_one hk]
    omega
  apply Nat.eq_of_testBit_eq
  intro i
  rw [maskDown, BitVec.toNat_and, hnot, Nat.testBit_and, Nat.testBit_two_pow_sub_succ hlt,
    Nat.testBit_two_pow_sub_one, roundDown, Nat.testBit_mul_two_pow,
      Nat.testBit_div_two_pow]
  rcases Nat.lt_or_ge i k with hi | hi
  · simp [hi, Nat.not_le.mpr hi]
  · rw [Nat.sub_add_cancel hi]
    rcases Nat.lt_or_ge i w with hw | hw
    · simp [hi, hw, Nat.not_lt.mpr hi]
    · -- there are no bits above the width
      have hx : x.toNat.testBit i = false :=
        Nat.testBit_lt_two_pow (Nat.lt_of_lt_of_le x.isLt
          (Nat.pow_le_pow_right (by omega) hw))
      simp [hx]

/-- **The mask rounds up** where the sum does not wrap. -/
theorem toNat_maskUp (hk : k < w) (x : BitVec w) (h : x.toNat + (2 ^ k - 1) < 2 ^ w) :
    (maskUp (BitVec.twoPow w k) x).toNat = roundUp (2 ^ k) x.toNat := by
  have hsum : (x + (BitVec.twoPow w k - 1)).toNat = x.toNat + (2 ^ k - 1) := by
    rw [BitVec.toNat_add, toNat_twoPow_sub_one hk, Nat.mod_eq_of_lt h]
  calc (maskUp (BitVec.twoPow w k) x).toNat
      = (maskDown (BitVec.twoPow w k) (x + (BitVec.twoPow w k - 1))).toNat := rfl
    _ = roundUp (2 ^ k) x.toNat := by rw [toNat_maskDown hk, hsum, roundUp_eq]

end CharmExperiments.Lib
