import Mathlib.Logic.Function.Basic
import Mathlib.Data.List.Basic
import Mathlib.Tactic.Common

/-!
# Ring buffers

A ring of `cap` slots is a function from slot numbers; the queue in it starts at a position
and takes up a number of slots, wrapping from the last slot to the first.  `ringList` is the
queue as a list, its front first, and `window` the list that the values of a function at
consecutive arguments make up.

What is proved is how the queue changes when the ring does: `ringList_put` adds a value at
the back, `ringList_add` cuts the queue in two, and `ringList_mod` moves a position around
the ring.
-/

namespace InfoKernel.Lib

variable {α : Type*} {cap : Nat} {slot : Nat → α} {pos count : Nat}

/-- The values at the `n` arguments from `a` on. -/
def window (f : Nat → α) (a n : Nat) : List α := (List.range n).map fun i => f (a + i)

/-- The `count` values in a ring of `cap` slots from position `pos` on. -/
def ringList (cap : Nat) (slot : Nat → α) (pos count : Nat) : List α :=
  (List.range count).map fun i => slot ((pos + i) % cap)

@[simp] theorem length_window (f : Nat → α) (a n : Nat) : (window f a n).length = n := by
  simp [window]

@[simp] theorem window_zero (f : Nat → α) (a : Nat) : window f a 0 = [] := rfl

theorem window_succ (f : Nat → α) (a n : Nat) :
    window f a (n + 1) = window f a n ++ [f (a + n)] := by
  simp [window, List.range_succ]

/-- A window from its first value on. -/
theorem window_cons (f : Nat → α) (a n : Nat) :
    window f a (n + 1) = f a :: window f (a + 1) n := by
  simp only [window, List.range_succ_eq_map, List.map_cons, List.map_map, Nat.add_zero]
  refine congrArg _ (List.map_congr_left fun i _ => ?_)
  exact congrArg f (by simp only [Nat.succ_eq_add_one]; omega)

/-- A window depends on its own values only. -/
theorem window_congr {f g : Nat → α} {a n : Nat} (h : ∀ i, i < n → f (a + i) = g (a + i)) :
    window f a n = window g a n :=
  List.map_congr_left fun i hi => h i (List.mem_range.mp hi)

@[simp] theorem length_ringList (slot : Nat → α) (pos count : Nat) :
    (ringList cap slot pos count).length = count := by
  simp [ringList]

@[simp] theorem ringList_zero (slot : Nat → α) (pos : Nat) : ringList cap slot pos 0 = [] := rfl

theorem ringList_succ (slot : Nat → α) (pos count : Nat) :
    ringList cap slot pos (count + 1) =
      ringList cap slot pos count ++ [slot ((pos + count) % cap)] := by
  simp [ringList, List.range_succ]

/-- **Cutting a queue.**  The values behind the first `m` are the queue that starts `m` slots
further on. -/
theorem ringList_add (slot : Nat → α) (pos m n : Nat) :
    ringList cap slot pos (m + n) = ringList cap slot pos m ++ ringList cap slot (pos + m) n := by
  induction n with
  | zero => rw [Nat.add_zero, ringList_zero, List.append_nil]
  | succ n ih =>
      rw [← Nat.add_assoc, ringList_succ, ih, ringList_succ, List.append_assoc, Nat.add_assoc pos]

/-- A position counts up to whole turns around the ring. -/
theorem ringList_mod (slot : Nat → α) (pos count : Nat) :
    ringList cap slot (pos % cap) count = ringList cap slot pos count :=
  List.map_congr_left fun i _ => by rw [Nat.mod_add_mod]

/-- Positions less than one turn apart are different slots. -/
theorem slot_ne {i n : Nat} (hi : i < n) (hn : n < cap) : (pos + i) % cap ≠ (pos + n) % cap := by
  intro heq
  have hdiff : (pos + n) - (pos + i) = n - i := by omega
  have hdvd : cap ∣ n - i := by
    rw [← hdiff]
    exact Nat.dvd_of_mod_eq_zero (Nat.sub_mod_eq_zero_of_mod_eq heq.symm)
  have hzero : n - i = 0 := Nat.eq_zero_of_dvd_of_lt hdvd (by omega)
  omega

/-- **A value put into the slot behind the queue** comes to its back. -/
theorem ringList_put (slot : Nat → α) (pos : Nat) (x : α) (h : count < cap) :
    ringList cap (Function.update slot ((pos + count) % cap) x) pos (count + 1) =
      ringList cap slot pos count ++ [x] := by
  have hold : ringList cap (Function.update slot ((pos + count) % cap) x) pos count =
      ringList cap slot pos count :=
    List.map_congr_left fun i hi =>
      Function.update_of_ne (slot_ne (List.mem_range.mp hi) h) _ _
  rw [ringList_succ, hold, Function.update_self]

end InfoKernel.Lib
