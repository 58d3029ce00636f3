import Mathlib.Data.Nat.Basic
import Mathlib.Tactic.Ring

/-!
# Fields in a block of bytes

The members of a struct or a union as what they are in memory: a `Field` is where a
member lies in a block of bytes and how many bytes it has, and its value is kept
with the low byte first. Members of a union lie in one block, so writing one may
change another. It does not where the two fields have no byte in common
(`read_write_disjoint`), and what is written is read back where it fits
(`read_write_same`).
-/

namespace CharmExperiments.Lib

/-- A block of memory. -/
abbrev Bytes := Nat → BitVec 8

/-- The number whose `n` bytes, low byte first, are `f 0` and on. -/
def leNat (f : Nat → BitVec 8) : Nat → Nat
  | 0 => 0
  | n + 1 => leNat f n + 256 ^ n * (f n).toNat

/-- Where a member lies. -/
structure Field where
  offset : Nat
  width : Nat

namespace Field

/-- The value of the member. -/
def read (f : Field) (m : Bytes) : Nat := leNat (fun i => m (f.offset + i)) f.width

/-- The block after the member was given value `v`. -/
def write (f : Field) (m : Bytes) (v : Nat) : Bytes := fun a =>
  if f.offset ≤ a ∧ a < f.offset + f.width then BitVec.ofNat 8 (v / 256 ^ (a - f.offset))
  else m a

/-- The two members have no byte in common. -/
def Disjoint (f g : Field) : Prop := f.offset + f.width ≤ g.offset ∨
    g.offset + g.width ≤ f.offset

end Field

/-! ## What is read after a write -/

theorem leNat_congr {f g : Nat → BitVec 8} :
    ∀ {n : Nat}, (∀ i < n, f i = g i) → leNat f n = leNat g n := by
  intro n
  induction n with
  | zero => exact fun _ => rfl
  | succ n ih =>
    intro h
    show leNat f n + _ = leNat g n + _
    rw [ih fun i hi => h i (by omega), h n (by omega)]

/-- The bytes of a number make up the number. -/
theorem leNat_digits (v : Nat) : ∀ n : Nat,
    leNat (fun i => BitVec.ofNat 8 (v / 256 ^ i)) n = v % 256 ^ n := by
  intro n
  induction n with
  | zero => exact (Nat.mod_one v).symm
  | succ n ih =>
    show leNat _ n + 256 ^ n * (BitVec.ofNat 8 (v / 256 ^ n)).toNat = _
    rw [ih, BitVec.toNat_ofNat]
    exact Nat.mod_pow_succ.symm

variable {f g : Field} {m : Bytes} {v : Nat}

/-- **A value that fits is read back.** -/
theorem read_write_same (h : v < 256 ^ f.width) : f.read (f.write m v) = v := by
  have hbytes : f.read (f.write m v) =
      leNat (fun i => BitVec.ofNat 8 (v / 256 ^ i)) f.width := by
    refine leNat_congr fun i hi => ?_
    show (if _ then _ else _) = _
    rw [if_pos ⟨Nat.le_add_right _ _, by omega⟩, Nat.add_sub_cancel_left]
  rw [hbytes, leNat_digits, Nat.mod_eq_of_lt h]

/-- **A write does not reach what lies apart from it.** -/
theorem read_write_disjoint (h : f.Disjoint g) : f.read (g.write m v) = f.read m := by
  refine leNat_congr fun i hi => if_neg fun hin => ?_
  rcases h with h | h
  · omega
  · omega

end CharmExperiments.Lib
