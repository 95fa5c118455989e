import Mathlib.Data.Nat.Bitwise
import Mathlib.Logic.Function.Basic
import Mathlib.Tactic.Common

/-!
# Bitmaps

A bitmap is an array of bytes, and bit `i` of it is bit `i % 8` of byte `i / 8`.  `used`,
`mark` and `clear` are the tests and the updates that a program makes with the mask
`1 << (i % 8)`.

What is proved is that they are the tests and the updates of a set of numbers: each update
changes the membership of its own number and of no other.
-/

namespace InfoKernel.Lib

/-- The bytes of a bitmap. -/
abbrev Bitmap := Nat → UInt8

namespace Bitmap

/-- `1 << (i % 8)` -/
def mask (i : Nat) : UInt8 := UInt8.ofNat (2 ^ (i % 8))

/-- Bit `i` is set. -/
def used (b : Bitmap) (i : Nat) : Bool := b (i / 8) &&& mask i ≠ 0

/-- Set bit `i`. -/
def mark (b : Bitmap) (i : Nat) : Bitmap := Function.update b (i / 8) (b (i / 8) ||| mask i)

/-- Clear bit `i`. -/
def clear (b : Bitmap) (i : Nat) : Bitmap := Function.update b (i / 8) (b (i / 8) &&& ~~~mask i)

theorem toNat_mask (i : Nat) : (mask i).toNat = 2 ^ (i % 8) := by
  have h : 2 ^ (i % 8) < 2 ^ 8 := Nat.pow_lt_pow_right (by decide) (Nat.mod_lt i (by decide))
  rw [mask, UInt8.toNat_ofNat', Nat.mod_eq_of_lt h]

/-- A test with the mask is a test of the bit. -/
theorem used_eq_testBit (b : Bitmap) (i : Nat) :
    used b i = (b (i / 8)).toNat.testBit (i % 8) := by
  have h : b (i / 8) &&& mask i ≠ 0 ↔ (b (i / 8)).toNat.testBit (i % 8) = true := by
    rw [Ne, ← UInt8.toNat_inj, UInt8.toNat_and, toNat_mask, Nat.and_two_pow]
    cases (b (i / 8)).toNat.testBit (i % 8) <;> simp
  rw [used, Bool.eq_iff_iff, decide_eq_true_iff, h]

theorem used_mark (b : Bitmap) (i j : Nat) : used (mark b i) j = (j = i || used b j) := by
  rw [used_eq_testBit, used_eq_testBit, mark]
  by_cases hbyte : j / 8 = i / 8
  · rw [hbyte, Function.update_self, UInt8.toNat_or, toNat_mask, Nat.testBit_or,
      Nat.testBit_two_pow]
    by_cases hbit : j % 8 = i % 8
    · have hij : j = i := by omega
      simp [hij]
    · have hij : j ≠ i := fun h => hbit (by rw [h])
      simp [hij, Ne.symm hbit]
  · have hij : j ≠ i := fun h => hbyte (by rw [h])
    rw [Function.update_of_ne hbyte]
    simp [hij]

theorem used_clear (b : Bitmap) (i j : Nat) : used (clear b i) j = (j ≠ i && used b j) := by
  rw [used_eq_testBit, used_eq_testBit, clear]
  by_cases hbyte : j / 8 = i / 8
  · have hlt : j % 8 < 8 := Nat.mod_lt j (by decide)
    have hmask : 2 ^ (i % 8) < 2 ^ 8 :=
      Nat.pow_lt_pow_right (by decide) (Nat.mod_lt i (by decide))
    have hnot : (~~~mask i).toNat = 2 ^ 8 - (2 ^ (i % 8) + 1) := by
      rw [UInt8.toNat_not, toNat_mask]
      have hsize : UInt8.size = 2 ^ 8 := rfl
      omega
    rw [hbyte, Function.update_self, UInt8.toNat_and, hnot, Nat.testBit_and,
      Nat.testBit_two_pow_sub_succ hmask, Nat.testBit_two_pow]
    by_cases hbit : j % 8 = i % 8
    · have hij : j = i := by omega
      simp [hij]
    · have hij : j ≠ i := fun h => hbit (by rw [h])
      simp [hij, Ne.symm hbit, hlt]
  · have hij : j ≠ i := fun h => hbyte (by rw [h])
    rw [Function.update_of_ne hbyte]
    simp [hij]

/-- A bit is read off its own byte. -/
theorem used_congr {b b' : Bitmap} {i : Nat} (h : b' (i / 8) = b (i / 8)) :
    used b' i = used b i := by
  rw [used, used, h]

@[simp] theorem used_mark_self (b : Bitmap) (i : Nat) : used (mark b i) i = true := by
  simp [used_mark]

@[simp] theorem used_clear_self (b : Bitmap) (i : Nat) : used (clear b i) i = false := by
  simp [used_clear]

end Bitmap

end InfoKernel.Lib
