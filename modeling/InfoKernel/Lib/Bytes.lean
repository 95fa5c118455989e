import Mathlib.Logic.Function.Basic
import Mathlib.Tactic.Ring

/-!
# Numbers in memory

A memory is a function from addresses to bytes.  `getLE m a n` is the number that the `n`
bytes from `a` on hold, the least significant byte first, and `setLE m a n v` is the memory
after `v` has been stored there, cut to `n` bytes.

What is proved is how the two go together: a number is read back as it was stored, a store
leaves the bytes outside its range alone, and what a read gives depends on its own bytes
only.
-/

namespace InfoKernel.Lib

/-- The number in the `n` bytes from `a` on, the least significant byte first. -/
def getLE (m : Nat → UInt8) (a : Nat) : Nat → Nat
  | 0 => 0
  | n + 1 => (m a).toNat + 256 * getLE m (a + 1) n

/-- Store the low `n` bytes of `v` from `a` on, the least significant byte first. -/
def setLE (m : Nat → UInt8) (a : Nat) : Nat → Nat → Nat → UInt8
  | 0, _ => m
  | n + 1, v => setLE (Function.update m a (UInt8.ofNat v)) (a + 1) n (v / 256)

variable {m m' : Nat → UInt8} {a n v : Nat}

theorem getLE_lt (m : Nat → UInt8) (a n : Nat) : getLE m a n < 256 ^ n := by
  induction n generalizing a with
  | zero => exact Nat.one_pos
  | succ n ih =>
      have hb := (m a).toNat_lt
      have h := ih (a + 1)
      rw [getLE, pow_succ]
      omega

/-- A number is read off its own bytes. -/
theorem getLE_congr (h : ∀ i, a ≤ i → i < a + n → m' i = m i) : getLE m' a n = getLE m a n := by
  induction n generalizing a with
  | zero => rfl
  | succ n ih =>
      rw [getLE, getLE, h a (Nat.le_refl a) (by omega),
        ih fun i hi hi' => h i (by omega) (by omega)]

theorem getLE_zero (h : ∀ i, a ≤ i → i < a + n → m i = 0) : getLE m a n = 0 := by
  induction n generalizing a with
  | zero => rfl
  | succ n ih =>
      rw [getLE, h a (Nat.le_refl a) (by omega), ih fun i hi hi' => h i (by omega) (by omega)]
      rfl

/-- The same bytes at another place are the same number. -/
theorem getLE_shift {b : Nat} (h : ∀ i, i < n → m' (b + i) = m (a + i)) :
    getLE m' b n = getLE m a n := by
  induction n generalizing a b with
  | zero => rfl
  | succ n ih =>
      have hhead := h 0 (Nat.succ_pos n)
      have hrest := @ih (a + 1) (b + 1) fun i hi => by
        rw [show b + 1 + i = b + (i + 1) by omega, show a + 1 + i = a + (i + 1) by omega]
        exact h (i + 1) (by omega)
      rw [Nat.add_zero, Nat.add_zero] at hhead
      rw [getLE, getLE, hhead, hrest]

/-- A store leaves the bytes outside its range alone. -/
theorem setLE_of_not_mem {i : Nat} (h : i < a ∨ a + n ≤ i) : setLE m a n v i = m i := by
  induction n generalizing m a v with
  | zero => rfl
  | succ n ih =>
      rw [setLE, ih (by omega), Function.update_of_ne (by omega)]

/-- The bytes in the range of a store. -/
theorem setLE_of_mem {i : Nat} (h : i < n) : setLE m a n v (a + i) = UInt8.ofNat (v / 256 ^ i) := by
  induction n generalizing m a v i with
  | zero => exact absurd h (Nat.not_lt_zero i)
  | succ n ih =>
      cases i with
      | zero =>
          have hself : setLE (Function.update m a (UInt8.ofNat v)) (a + 1) n (v / 256) a = _ :=
            setLE_of_not_mem (.inl (Nat.lt_succ_self a))
          show setLE (Function.update m a (UInt8.ofNat v)) (a + 1) n (v / 256) a = _
          rw [hself, Function.update_self, pow_zero, Nat.div_one]
      | succ i =>
          have haddr : a + (i + 1) = a + 1 + i := by omega
          rw [setLE, haddr, ih (by omega), Nat.div_div_eq_div_mul, pow_succ, Nat.mul_comm 256]

/-- What is stored in the range of another number does not change it. -/
theorem getLE_setLE_of_disjoint {b k : Nat} (h : a + n ≤ b ∨ b + k ≤ a) :
    getLE (setLE m b k v) a n = getLE m a n :=
  getLE_congr fun i hi hi' => setLE_of_not_mem (by omega)

/-- **A number is read back as it was stored**, cut to its bytes. -/
theorem getLE_setLE : getLE (setLE m a n v) a n = v % 256 ^ n := by
  induction n generalizing m a v with
  | zero => rw [getLE, pow_zero, Nat.mod_one]
  | succ n ih =>
      have hfirst : setLE m a (n + 1) v a = UInt8.ofNat v := by
        rw [setLE, setLE_of_not_mem (.inl (Nat.lt_succ_self a)), Function.update_self]
      have hrest : getLE (setLE m a (n + 1) v) (a + 1) n = v / 256 % 256 ^ n := by
        rw [setLE, ih]
      have hcut : v % 256 ^ (n + 1) = v % 256 + 256 * (v / 256 % 256 ^ n) := by
        rw [Nat.pow_succ, Nat.mul_comm, Nat.mod_mul]
      rw [getLE, hfirst, hrest, UInt8.toNat_ofNat', hcut]

theorem getLE_setLE_of_lt (h : v < 256 ^ n) : getLE (setLE m a n v) a n = v := by
  rw [getLE_setLE, Nat.mod_eq_of_lt h]

/-- Storing the number that is there already, or one that is cut to it, changes nothing. -/
theorem setLE_eq_self (h : v % 256 ^ n = getLE m a n) : setLE m a n v = m := by
  induction n generalizing m a v with
  | zero => rfl
  | succ n ih =>
      have hcut : v % 256 ^ (n + 1) = v % 256 + 256 * (v / 256 % 256 ^ n) := by
        rw [Nat.pow_succ, Nat.mul_comm, Nat.mod_mul]
      have hbyte := (m a).toNat_lt
      rw [hcut, getLE] at h
      have hlow : UInt8.ofNat v = m a := by
        rw [← UInt8.toNat_inj, UInt8.toNat_ofNat']
        omega
      rw [setLE, hlow, Function.update_eq_self]
      exact ih (by omega)

/-- The second of two stores to one place is all that is left. -/
theorem setLE_setLE {w : Nat} : setLE (setLE m a n v) a n w = setLE m a n w := by
  funext i
  by_cases h : i < a ∨ a + n ≤ i
  · rw [setLE_of_not_mem h, setLE_of_not_mem h, setLE_of_not_mem h]
  · obtain ⟨j, rfl⟩ := Nat.exists_eq_add_of_le (show a ≤ i by omega)
    rw [setLE_of_mem (by omega), setLE_of_mem (by omega)]

end InfoKernel.Lib
