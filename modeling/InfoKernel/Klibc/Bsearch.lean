import InfoKernel.Fault
import InfoKernel.Lib.Loop
import InfoKernel.Machine

/-!
# Binary search

`bsearch` of `bsearch.c`.  The bounds of the interval that is left are unsigned: `high` is one less
than `mid`, so the loop breaks off where `mid` is zero, and the sum of the bounds does not wrap
around because the array has fewer than `2 ^ 63` elements.

`compar` is given the two addresses that it is called with.  A call of it on an element that is not
in the array is a fault, so a search that returns has read inside the array only.  An array lies in
the address space, so the addresses of its elements do not wrap around.
-/

namespace InfoKernel.Klibc

open Lib

/-- A turn of the loop of `bsearch`, with `low` and `high`. -/
def bsearchTurn (compar : Nat → Nat → Int) (key base nmemb size : Nat) (s : Nat × Nat) :
    Except Fault (Turn (Nat × Nat) Nat) :=
  let (low, high) := s
  if low ≤ high then
    let mid := u64 (low + high) / 2
    if nmemb ≤ mid then .error .outOfBounds
    else
      let midElement := base + mid * size
      let cmpResult := compar key midElement
      if cmpResult < 0 then
        if mid = 0 then .ok (.leave 0) else .ok (.again (low, sub64 mid 1))
      else if 0 < cmpResult then .ok (.again (u64 (mid + 1), high))
      else .ok (.leave midElement)
  else .ok (.leave 0)

/-- `bsearch`: the pointer it returns. -/
def bsearch (fuel : Nat) (key base nmemb size : Nat) (compar : Option (Nat → Nat → Int)) :
    Except Fault Nat :=
  match compar with
  | none => .ok 0
  | some compar =>
      if key = 0 ∨ base = 0 ∨ nmemb = 0 then .ok 0
      else loop (bsearchTurn compar key base nmemb size) .outOfFuel fuel (0, sub64 nmemb 1)

/-! ## What it should find -/

section Search

variable {compar : Nat → Nat → Int} {key base nmemb size : Nat}

/-- **Sorted with respect to the key**: the elements that the key is greater than come first, then
those it is equal to, then those it is less than. -/
def SortedFor (compar : Nat → Nat → Int) (key base nmemb size : Nat) : Prop :=
  ∀ i j, i ≤ j → j < nmemb →
    (compar key (base + i * size) < 0 → compar key (base + j * size) < 0) ∧
      (0 < compar key (base + j * size) → 0 < compar key (base + i * size))

/-- A pointer to an element that the key is equal to, or null if there is none. -/
def Finds (compar : Nat → Nat → Int) (key base nmemb size r : Nat) : Prop :=
  (r ≠ 0 ↔ ∃ i < nmemb, compar key (base + i * size) = 0) ∧
    (r ≠ 0 → ∃ i < nmemb, r = base + i * size ∧ compar key r = 0)

/-- What is left to search has `left` elements: the key is greater than those in front of it, and
less than those behind it. -/
structure Narrowed (compar : Nat → Nat → Int) (key base nmemb size left : Nat) (s : Nat × Nat) :
    Prop where
  left : left + s.1 = s.2 + 1
  high : s.2 < nmemb
  front : ∀ i < s.1, 0 < compar key (base + i * size)
  behind : ∀ i, s.2 < i → i < nmemb → compar key (base + i * size) < 0

/-- The null pointer is right if the key is equal to no element. -/
theorem finds_null (h : ∀ i < nmemb, compar key (base + i * size) ≠ 0) :
    Finds compar key base nmemb size 0 := by
  refine ⟨iff_of_false (fun hnull => hnull rfl) ?_, fun hnull => absurd rfl hnull⟩
  rintro ⟨i, hi, hequal⟩
  exact h i hi hequal

/-- **One turn** halves what is left, or ends with the right pointer. -/
theorem bsearchTurn_narrows (hbase : base ≠ 0) (hlen : nmemb < 2 ^ 63)
    (hsorted : SortedFor compar key base nmemb size) {left : Nat} {s : Nat × Nat}
    (h : Narrowed compar key base nmemb size left s) :
    ∃ u, bsearchTurn compar key base nmemb size s = .ok u ∧
      u.Meets (fun t => ∃ l, l < left ∧ Narrowed compar key base nmemb size l t)
        (Finds compar key base nmemb size) := by
  obtain ⟨low, high⟩ := s
  obtain ⟨hleft, hhigh, hfront, hbehind⟩ := h
  dsimp only at hleft hhigh hfront hbehind
  unfold bsearchTurn
  dsimp only
  split
  · rename_i hle
    have hmid : u64 (low + high) / 2 = (low + high) / 2 := by
      rw [u64, Nat.mod_eq_of_lt (by omega)]
    rw [hmid]
    obtain ⟨mid, hmidEq⟩ : ∃ mid, mid = (low + high) / 2 := ⟨_, rfl⟩
    rw [← hmidEq, if_neg (by omega)]
    split
    · rename_i hless
      have hupper (i : Nat) (hi : mid ≤ i) (hin : i < nmemb) : compar key (base + i * size) < 0 :=
        (hsorted mid i hi hin).1 hless
      split
      · -- the key is less than the first element
        rename_i hzero
        refine ⟨_, rfl, finds_null fun i hi => ?_⟩
        exact Int.ne_of_lt (hupper i (by omega) hi)
      · rename_i hpos
        have hpred : sub64 mid 1 = mid - 1 := by
          unfold sub64 u64
          omega
        rw [hpred]
        refine ⟨_, rfl, mid - low, by omega, ⟨?_, ?_, hfront, fun i hi => hupper i ?_⟩⟩
        · dsimp only
          omega
        · dsimp only
          omega
        · dsimp only at hi
          omega
    · split
      · rename_i hgreater
        have hsucc : u64 (mid + 1) = mid + 1 := by
          rw [u64, Nat.mod_eq_of_lt (by omega)]
        rw [hsucc]
        refine ⟨_, rfl, high - mid, by omega, ⟨?_, hhigh, fun i hi => ?_, hbehind⟩⟩
        · dsimp only
          omega
        · exact (hsorted i mid (Nat.lt_succ_iff.mp hi) (by omega)).2 hgreater
      · rename_i hnotLess hnotGreater
        have hequal : compar key (base + mid * size) = 0 := by omega
        have hin : mid < nmemb := by omega
        have hptr : base + mid * size ≠ 0 := by omega
        exact ⟨_, rfl, iff_of_true hptr ⟨mid, hin, hequal⟩, fun _ => ⟨mid, hin, rfl, hequal⟩⟩
  · rename_i hempty
    refine ⟨_, rfl, finds_null fun i hi => ?_⟩
    by_cases hlow : i < low
    · exact Int.ne_of_gt (hfront i hlow)
    · exact Int.ne_of_lt (hbehind i (by omega) hi)

/-- **`bsearch` finds what it should** in every sorted array with fewer than `2 ^ 63` elements,
reads no element outside of it, and ends. -/
theorem bsearch_finds {fuel : Nat} (hkey : key ≠ 0) (hbase : base ≠ 0) (hlen : nmemb < 2 ^ 63)
    (hsorted : SortedFor compar key base nmemb size) (hfuel : nmemb < fuel) :
    ∃ r, bsearch fuel key base nmemb size (some compar) = .ok r ∧
      Finds compar key base nmemb size r := by
  by_cases hnone : nmemb = 0
  · refine ⟨0, if_pos (.inr (.inr hnone)), finds_null fun i hi => ?_⟩
    rw [hnone] at hi
    exact absurd hi (Nat.not_lt_zero i)
  · have hpred : sub64 nmemb 1 = nmemb - 1 := by
      unfold sub64 u64
      omega
    have hstart : Narrowed compar key base nmemb size nmemb (0, nmemb - 1) := by
      refine ⟨?_, ?_, fun i hi => absurd hi (Nat.not_lt_zero i), fun i hi hin => ?_⟩
      · dsimp only
        omega
      · dsimp only
        omega
      · dsimp only at hi
        omega
    obtain ⟨r, hrun, hr⟩ := loop_returns
      (fun _ _ h => bsearchTurn_narrows hbase hlen hsorted h) hstart hfuel
    refine ⟨r, ?_, hr⟩
    rw [bsearch, if_neg (by omega), hpred]
    exact hrun

/-- Six elements of four bytes; the key is equal to the last two of them. -/
theorem bsearch_finds_small : ∃ r,
    bsearch 7 4096 64 6 4 (some fun _ a => if a < 80 then 1 else 0) = .ok r ∧
      Finds (fun _ a => if a < 80 then 1 else 0) 4096 64 6 4 r :=
  bsearch_finds (by decide) (by decide) (by decide)
    (fun i j hij _ =>
      ⟨fun h => by split at h <;> omega, fun h => by split at h <;> split <;> omega⟩)
    (by decide)

end Search

end InfoKernel.Klibc
