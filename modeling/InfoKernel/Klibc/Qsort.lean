import InfoKernel.Fault
import InfoKernel.Lib.Sorting
import Mathlib.Tactic.Ring

/-!
# Quicksort

`qsort` of `qsort.c`, on the bytes of memory.  `compar` is given the memory and the two addresses
that it is called with, and may return anything: what `qsort` leaves is always a permutation of the
elements.  It is sorted if `compar` compares the elements, by their bytes and by whatever lies
outside of the array, and its order is total and transitive on them.

An array lies in the address space, so the addresses of its elements do not wrap around.

* `element_swap`, `Moved`: `swap` exchanges two elements and stores nothing outside of them;
* `partition_moved`, `partition_split`: the partition around the middle element;
* `quickSort_spec`, `qsort_sorts`: the recursion ends, and sorts.
-/

namespace InfoKernel.Klibc

open Lib

/-! ## The model -/

/-- A comparison function, as it is called. -/
abbrev Compar := (Nat → UInt8) → Nat → Nat → Int

/-- `swap`, its first `n` turns. -/
def swap (a b : Nat) : Nat → (Nat → UInt8) → Nat → UInt8
  | 0, m => m
  | n + 1, m =>
      let m := swap a b n m
      Function.update (Function.update m (a + n) (m (b + n))) (b + n) (m (a + n))

/-- The loop of `quick_sort`, its first turns: the memory and `j`. -/
def partitionLoop (compar : Compar) (base size pivot : Nat) (m : Nat → UInt8) :
    Nat → (Nat → UInt8) × Nat
  | 0 => (m, 0)
  | i + 1 =>
      let r := partitionLoop compar base size pivot m i
      if compar r.1 (base + i * size) pivot ≤ 0 then
        (swap (base + i * size) (base + r.2 * size) size r.1, r.2 + 1)
      else r

/-- What `quick_sort` does before it calls itself: the memory and `j`. -/
def partition (compar : Compar) (base nmemb size : Nat) (m : Nat → UInt8) :
    (Nat → UInt8) × Nat :=
  let pivotIndex := nmemb / 2
  let last := base + (nmemb - 1) * size
  let m := swap (base + pivotIndex * size) last size m
  let r := partitionLoop compar base size last m (nmemb - 1)
  (swap (base + r.2 * size) last size r.1, r.2)

/-- `quick_sort` -/
def quickSort (compar : Compar) (size : Nat) :
    Nat → Nat → Nat → (Nat → UInt8) → Except Fault (Nat → UInt8)
  | 0, _, _, _ => .error .outOfFuel
  | fuel + 1, base, nmemb, m =>
      if nmemb ≤ 1 then .ok m
      else do
        let r := partition compar base nmemb size m
        let m ← quickSort compar size fuel base r.2 r.1
        quickSort compar size fuel (base + (r.2 + 1) * size) (nmemb - r.2 - 1) m

/-- `qsort` -/
def qsort (fuel : Nat) (base nmemb size : Nat) (compar : Option Compar) (m : Nat → UInt8) :
    Except Fault (Nat → UInt8) :=
  match compar with
  | none => .ok m
  | some compar =>
      if base = 0 ∨ nmemb ≤ 1 then .ok m else quickSort compar size fuel base nmemb m

/-! ## What it should do -/

/-- The bytes of an element. -/
def element (base size : Nat) (m : Nat → UInt8) (i : Nat) : List UInt8 :=
  window m (base + i * size) size

/-- The elements of an array. -/
def elements (base nmemb size : Nat) (m : Nat → UInt8) : List (List UInt8) :=
  window (element base size m) 0 nmemb

/-- Whatever the bytes of the array are, `compar` compares its elements as `cmp` does. -/
def Compares (compar : Compar) (cmp : List UInt8 → List UInt8 → Int) (base nmemb size : Nat)
    (m : Nat → UInt8) : Prop :=
  ∀ m', (∀ a, a < base ∨ base + nmemb * size ≤ a → m' a = m a) → ∀ i j, i < nmemb → j < nmemb →
    compar m' (base + i * size) (base + j * size) =
      cmp (element base size m' i) (element base size m' j)

/-- A comparison is a total preorder on a set. -/
structure TotalPreorderOn (cmp : List UInt8 → List UInt8 → Int) (S : Set (List UInt8)) : Prop where
  total : ∀ x ∈ S, ∀ y ∈ S, cmp x y ≤ 0 ∨ cmp y x ≤ 0
  trans : ∀ x ∈ S, ∀ y ∈ S, ∀ z ∈ S, cmp x y ≤ 0 → cmp y z ≤ 0 → cmp x z ≤ 0

/-- The elements from `lo` up to `hi` are in another order, and nothing is stored outside. -/
structure Moved (base size lo hi : Nat) (m m' : Nat → UInt8) : Prop where
  elements : Rearranged lo hi (element base size m) (element base size m')
  outside : ∀ a, a < base + lo * size ∨ base + hi * size ≤ a → m' a = m a

/-! ## Exchanging two elements -/

section Swap

variable {a b n x base size lo hi i j : Nat} {m m' m'' : Nat → UInt8}

/-- Two stretches of bytes are the same one or do not overlap. -/
def Apart (a b n : Nat) : Prop := a = b ∨ a + n ≤ b ∨ b + n ≤ a

theorem swap_outside (ha : x < a ∨ a + n ≤ x) (hb : x < b ∨ b + n ≤ x) : swap a b n m x = m x := by
  induction n with
  | zero => rfl
  | succ n ih =>
      rw [swap, Function.update_of_ne (by omega), Function.update_of_ne (by omega)]
      exact ih (by omega) (by omega)

theorem swap_left (h : Apart a b n) (hi : i < n) : swap a b n m (a + i) = m (b + i) := by
  unfold Apart at h
  induction n with
  | zero => exact absurd hi (Nat.not_lt_zero i)
  | succ n ih =>
      rw [swap]
      obtain rfl | hlt := Nat.eq_or_lt_of_le (Nat.le_of_lt_succ hi)
      · have hb : swap a b i m (b + i) = m (b + i) := swap_outside (by omega) (by omega)
        by_cases hab : a = b
        · rw [hab, Function.update_self, ← hab]
          exact hab ▸ hb
        · rw [Function.update_of_ne (by omega), Function.update_self, hb]
      · rw [Function.update_of_ne (by omega), Function.update_of_ne (by omega)]
        exact ih (by omega) hlt

theorem swap_right (h : Apart a b n) (hi : i < n) : swap a b n m (b + i) = m (a + i) := by
  unfold Apart at h
  induction n with
  | zero => exact absurd hi (Nat.not_lt_zero i)
  | succ n ih =>
      rw [swap]
      obtain rfl | hlt := Nat.eq_or_lt_of_le (Nat.le_of_lt_succ hi)
      · rw [Function.update_self]
        exact swap_outside (by omega) (by omega)
      · rw [Function.update_of_ne (by omega), Function.update_of_ne (by omega)]
        exact ih (by omega) hlt

/-- Two elements are the same one or do not overlap. -/
theorem apart_elements (base size i j : Nat) : Apart (base + i * size) (base + j * size) size := by
  obtain hlt | rfl | hlt := Nat.lt_trichotomy i j
  · have hle := Nat.mul_le_mul_right size (Nat.succ_le_of_lt hlt)
    rw [Nat.succ_mul] at hle
    exact .inr (.inl (by omega))
  · exact .inl rfl
  · have hle := Nat.mul_le_mul_right size (Nat.succ_le_of_lt hlt)
    rw [Nat.succ_mul] at hle
    exact .inr (.inr (by omega))

/-- A byte of an element is not in another one. -/
theorem not_in_element (h : n ≠ i) (hx : x < size) :
    base + n * size + x < base + i * size ∨ base + i * size + size ≤ base + n * size + x := by
  obtain heq | hle | hle := apart_elements base size n i
  · obtain hlt | hlt := Nat.lt_or_gt_of_ne h
    · have hle := Nat.mul_le_mul_right size (Nat.succ_le_of_lt hlt)
      rw [Nat.succ_mul] at hle
      omega
    · have hle := Nat.mul_le_mul_right size (Nat.succ_le_of_lt hlt)
      rw [Nat.succ_mul] at hle
      omega
  · omega
  · omega

/-- **`swap` exchanges two elements.** -/
theorem element_swap (base size i j : Nat) (m : Nat → UInt8) (n : Nat) :
    element base size (swap (base + i * size) (base + j * size) size m) n =
      element base size m (Equiv.swap i j n) := by
  have happ := apart_elements base size i j
  refine List.map_congr_left fun x hx => ?_
  rw [List.mem_range] at hx
  by_cases hni : n = i
  · rw [hni, Equiv.swap_apply_left, swap_left happ hx]
  · by_cases hnj : n = j
    · rw [hnj, Equiv.swap_apply_right, swap_right happ hx]
    · rw [Equiv.swap_apply_of_ne_of_ne hni hnj]
      exact swap_outside (not_in_element hni hx) (not_in_element hnj hx)

namespace Moved

theorem refl (base size lo hi : Nat) (m : Nat → UInt8) : Moved base size lo hi m m :=
  ⟨Rearranged.refl _ _ _, fun _ _ => rfl⟩

theorem trans (h : Moved base size lo hi m m') (h' : Moved base size lo hi m' m'') :
    Moved base size lo hi m m'' :=
  ⟨h.elements.trans h'.elements, fun a ha => (h'.outside a ha).trans (h.outside a ha)⟩

theorem mono {lo' hi' : Nat} (h : Moved base size lo hi m m') (hlo : lo' ≤ lo) (hhi : hi ≤ hi') :
    Moved base size lo' hi' m m' := by
  have hlow := Nat.mul_le_mul_right size hlo
  have hhigh := Nat.mul_le_mul_right size hhi
  exact ⟨h.elements.mono hlo hhi, fun a ha => h.outside a (by omega)⟩

theorem swap (hi₁ : lo ≤ i) (hi₂ : i < hi) (hj₁ : lo ≤ j) (hj₂ : j < hi) :
    Moved base size lo hi m (swap (base + i * size) (base + j * size) size m) := by
  have hstretch (k : Nat) (hk₁ : lo ≤ k) (hk₂ : k < hi) :
      lo * size ≤ k * size ∧ k * size + size ≤ hi * size := by
    have hlow := Nat.mul_le_mul_right size hk₁
    have hhigh := Nat.mul_le_mul_right size (Nat.succ_le_of_lt hk₂)
    rw [Nat.succ_mul] at hhigh
    exact ⟨hlow, hhigh⟩
  have hi := hstretch i hi₁ hi₂
  have hj := hstretch j hj₁ hj₂
  refine ⟨Rearranged.exchange hi₁ hi₂ hj₁ hj₂ (element_swap base size i j m), fun a ha => ?_⟩
  exact swap_outside (by omega) (by omega)

end Moved

/-- `compar` compares the elements still. -/
theorem Compares.moved {compar : Compar} {cmp : List UInt8 → List UInt8 → Int} {nmemb : Nat}
    (h : Compares compar cmp base nmemb size m) (hm : Moved base size lo hi m m')
    (hhi : hi ≤ nmemb) : Compares compar cmp base nmemb size m' := by
  intro m'' hm'' i j hi hj
  refine h m'' (fun a ha => ?_) i j hi hj
  have hlow := Nat.mul_le_mul_right size (Nat.zero_le lo)
  have hhigh := Nat.mul_le_mul_right size hhi
  rw [hm'' a ha]
  exact hm.outside a (by omega)

end Swap

/-! ## The partition -/

section Partition

variable {compar : Compar} {cmp : List UInt8 → List UInt8 → Int} {S : Set (List UInt8)}
  {base size nmemb lo n : Nat} {m : Nat → UInt8}

/-- The elements of an array that begins with an element of the array. -/
theorem address_add (base size lo i : Nat) :
    base + lo * size + i * size = base + (lo + i) * size := by
  ring

/-- The loop moves the elements that it has come to. -/
theorem partitionLoop_moved (compar : Compar) (base size lo pivot : Nat) (m : Nat → UInt8)
    (n : Nat) : (partitionLoop compar (base + lo * size) size pivot m n).2 ≤ n ∧
      Moved base size lo (lo + n) m (partitionLoop compar (base + lo * size) size pivot m n).1 := by
  induction n with
  | zero => exact ⟨Nat.le_refl 0, Moved.refl _ _ _ _ _⟩
  | succ n ih =>
      obtain ⟨hj, hmoved⟩ := ih
      have hmore := hmoved.mono (Nat.le_refl lo) (Nat.le_succ (lo + n))
      rw [partitionLoop]
      split
      · refine ⟨Nat.succ_le_succ hj, hmore.trans ?_⟩
        rw [address_add, address_add]
        exact Moved.swap (by omega) (by omega) (by omega) (by omega)
      · exact ⟨Nat.le_succ_of_le hj, hmore⟩

/-- **The loop** has the elements in front that are not greater than the pivot, and behind them
those that are. -/
theorem partitionLoop_split {p : Nat} (hcmp : Compares compar cmp base nmemb size m)
    (hp : lo + p < nmemb) (hn : n ≤ p) :
    (∀ k, lo ≤ k →
      k < lo + (partitionLoop compar (base + lo * size) size (base + (lo + p) * size) m n).2 →
      cmp (element base size
        (partitionLoop compar (base + lo * size) size (base + (lo + p) * size) m n).1 k)
          (element base size m (lo + p)) ≤ 0) ∧
    (∀ k, lo + (partitionLoop compar (base + lo * size) size (base + (lo + p) * size) m n).2 ≤ k →
      k < lo + n → ¬ cmp (element base size
        (partitionLoop compar (base + lo * size) size (base + (lo + p) * size) m n).1 k)
          (element base size m (lo + p)) ≤ 0) := by
  induction n with
  | zero =>
      exact ⟨fun k hk₁ hk₂ => absurd hk₁ (Nat.not_le.mpr hk₂),
        fun k hk₁ hk₂ => absurd hk₁ (Nat.not_le.mpr hk₂)⟩
  | succ n ih =>
      obtain ⟨hfront, hbehind⟩ := ih (by omega)
      obtain ⟨hj, hmoved⟩ :=
        partitionLoop_moved compar base size lo (base + (lo + p) * size) m n
      rw [partitionLoop]
      generalize partitionLoop compar (base + lo * size) size (base + (lo + p) * size) m n = r at *
      have hpivot : element base size r.1 (lo + p) = element base size m (lo + p) :=
        hmoved.elements.outside (.inr (by omega))
      have hcall : compar r.1 (base + lo * size + n * size) (base + (lo + p) * size) =
          cmp (element base size r.1 (lo + n)) (element base size m (lo + p)) := by
        rw [address_add, ← hpivot]
        exact hcmp.moved hmoved (by omega) _ (fun _ _ => rfl) _ _ (by omega) hp
      rw [hcall]
      split
      · rename_i hle
        dsimp only
        rw [address_add, address_add]
        refine ⟨fun k hk₁ hk₂ => ?_, fun k hk₁ hk₂ => ?_⟩
        · rw [element_swap]
          by_cases hlast : k = lo + r.2
          · rw [hlast, Equiv.swap_apply_right]
            exact hle
          · rw [Equiv.swap_apply_of_ne_of_ne (by omega) hlast]
            exact hfront k hk₁ (by omega)
        · rw [element_swap]
          by_cases hlast : k = lo + n
          · rw [hlast, Equiv.swap_apply_left]
            exact hbehind _ (Nat.le_refl _) (by omega)
          · rw [Equiv.swap_apply_of_ne_of_ne hlast (by omega)]
            exact hbehind k (by omega) (by omega)
      · rename_i hgt
        refine ⟨hfront, fun k hk₁ hk₂ => ?_⟩
        by_cases hlast : k = lo + n
        · rw [hlast]
          exact hgt
        · exact hbehind k hk₁ (by omega)

/-- The partition moves the elements between its bounds. -/
theorem partition_moved (compar : Compar) (base size lo : Nat) (m : Nat → UInt8) (hn : 2 ≤ n) :
    (partition compar (base + lo * size) n size m).2 < n ∧
      Moved base size lo (lo + n) m (partition compar (base + lo * size) n size m).1 := by
  unfold partition
  dsimp only
  rw [address_add, address_add]
  have hfirst : Moved base size lo (lo + n) m
      (swap (base + (lo + n / 2) * size) (base + (lo + (n - 1)) * size) size m) :=
    Moved.swap (by omega) (by omega) (by omega) (by omega)
  obtain ⟨hj, hloop⟩ := partitionLoop_moved compar base size lo (base + (lo + (n - 1)) * size)
    (swap (base + (lo + n / 2) * size) (base + (lo + (n - 1)) * size) size m) (n - 1)
  refine ⟨by omega, hfirst.trans ((hloop.mono (Nat.le_refl lo) (by omega)).trans ?_)⟩
  rw [address_add]
  exact Moved.swap (by omega) (by omega) (by omega) (by omega)

/-- **The partition** has the pivot at `j`, in front of it elements that are not greater, and behind
it elements that are. -/
theorem partition_split (hcmp : Compares compar cmp base nmemb size m) (hlast : lo + n ≤ nmemb)
    (hn : 2 ≤ n) {m' : Nat → UInt8} {j : Nat}
    (hpart : partition compar (base + lo * size) n size m = (m', j)) :
    (∀ k, lo ≤ k → k < lo + j →
      cmp (element base size m' k) (element base size m' (lo + j)) ≤ 0) ∧
    (∀ k, lo + j < k → k < lo + n →
      ¬ cmp (element base size m' k) (element base size m' (lo + j)) ≤ 0) := by
  unfold partition at hpart
  simp only [address_add] at hpart
  have hfirst : Moved base size lo (lo + n) m
      (swap (base + (lo + n / 2) * size) (base + (lo + (n - 1)) * size) size m) :=
    Moved.swap (by omega) (by omega) (by omega) (by omega)
  generalize swap (base + (lo + n / 2) * size) (base + (lo + (n - 1)) * size) size m = m₁
    at hpart hfirst
  obtain ⟨hj, hloop⟩ :=
    partitionLoop_moved compar base size lo (base + (lo + (n - 1)) * size) m₁ (n - 1)
  obtain ⟨hfront, hbehind⟩ := partitionLoop_split (hcmp.moved hfirst hlast)
    (by omega : lo + (n - 1) < nmemb) (Nat.le_refl (n - 1))
  generalize partitionLoop compar (base + lo * size) size (base + (lo + (n - 1)) * size) m₁ (n - 1)
    = r at hpart hj hloop hfront hbehind
  obtain ⟨rfl, rfl⟩ := Prod.mk.inj hpart
  have hpivot : element base size r.1 (lo + (n - 1)) = element base size m₁ (lo + (n - 1)) :=
    hloop.elements.outside (.inr (Nat.le_refl _))
  simp only [element_swap, Equiv.swap_apply_left, hpivot]
  refine ⟨fun k hk₁ hk₂ => ?_, fun k hk₁ hk₂ => ?_⟩
  · rw [Equiv.swap_apply_of_ne_of_ne (by omega) (by omega)]
    exact hfront k hk₁ hk₂
  · by_cases hend : k = lo + (n - 1)
    · rw [hend, Equiv.swap_apply_right]
      exact hbehind _ (Nat.le_refl _) (by omega)
    · rw [Equiv.swap_apply_of_ne_of_ne (by omega) hend]
      exact hbehind k (by omega) (by omega)

end Partition

/-! ## The recursion -/

section Recursion

variable {compar : Compar} {cmp : List UInt8 → List UInt8 → Int} {base size nmemb lo n fuel : Nat}
  {m : Nat → UInt8}

/-- **Two sorted parts** of a partition. -/
theorem ascending_of_parts {S : Set (List UInt8)} {m₁ m₂ m₃ : Nat → UInt8} {j : Nat}
    (hS : TotalPreorderOn cmp S) (hj : j < n)
    (hmem : ∀ i, lo ≤ i → i < lo + n → element base size m₁ i ∈ S)
    (hfront : ∀ k, lo ≤ k → k < lo + j →
      cmp (element base size m₁ k) (element base size m₁ (lo + j)) ≤ 0)
    (hbehind : ∀ k, lo + j < k → k < lo + n →
      ¬ cmp (element base size m₁ k) (element base size m₁ (lo + j)) ≤ 0)
    (hleft : Moved base size lo (lo + j) m₁ m₂)
    (hright : Moved base size (lo + j + 1) (lo + n) m₂ m₃)
    (hleftSorted : Ascending (fun x y => cmp x y ≤ 0) lo (lo + j) (element base size m₂))
    (hrightSorted : Ascending (fun x y => cmp x y ≤ 0) (lo + j + 1) (lo + n)
      (element base size m₃)) :
    Ascending (fun x y => cmp x y ≤ 0) lo (lo + n) (element base size m₃) := by
  have hboth : Moved base size lo (lo + n) m₁ m₃ :=
    (hleft.mono (Nat.le_refl lo) (by omega)).trans (hright.mono (by omega) (Nat.le_refl _))
  have hsame (i : Nat) (hi : i < lo + j + 1) : element base size m₃ i = element base size m₂ i :=
    hright.elements.outside (.inl hi)
  have hpivot : element base size m₃ (lo + j) = element base size m₁ (lo + j) := by
    rw [hsame _ (Nat.lt_succ_self _), hleft.elements.outside (.inr (Nat.le_refl _))]
  refine Ascending.join hS.trans ⟨Nat.le_add_right lo j, by omega⟩
    (hboth.elements.forall_inside hmem)
    (hleftSorted.congr fun i _ hi => hsame i (by omega)) hrightSorted (fun i hi₁ hi₂ => ?_)
    fun i hi₁ hi₂ => ?_
  · rw [hpivot, hsame i (by omega)]
    exact hleft.elements.forall_inside (P := fun x => cmp x _ ≤ 0) hfront i hi₁ hi₂
  · rw [hpivot]
    refine hright.elements.forall_inside (P := fun x => cmp _ x ≤ 0) (fun k hk₁ hk₂ => ?_) i
      hi₁ hi₂
    rw [hleft.elements.outside (.inr (by omega))]
    exact (hS.total _ (hmem k (by omega) hk₂) _ (hmem _ (by omega) (by omega))).resolve_left
      (hbehind k hk₁ hk₂)

/-- **`quick_sort`** ends, moves the elements that it is given, and sorts them. -/
theorem quickSort_spec (hlast : lo + n ≤ nmemb) (hfuel : n < fuel) :
    ∃ m', quickSort compar size fuel (base + lo * size) n m = .ok m' ∧
      Moved base size lo (lo + n) m m' ∧
      ∀ cmp S, Compares compar cmp base nmemb size m → TotalPreorderOn cmp S →
        (∀ i, lo ≤ i → i < lo + n → element base size m i ∈ S) →
        Ascending (fun x y => cmp x y ≤ 0) lo (lo + n) (element base size m') := by
  induction fuel generalizing lo n m with
  | zero => exact absurd hfuel (Nat.not_lt_zero n)
  | succ fuel ih =>
      rw [quickSort]
      split
      · rename_i hsmall
        exact ⟨m, rfl, Moved.refl _ _ _ _ _, fun _ _ _ _ _ => Ascending.of_le (by omega)⟩
      · obtain ⟨hj, hmoved⟩ := partition_moved compar base size lo m (by omega : 2 ≤ n)
        have hsplit (cmp : List UInt8 → List UInt8 → Int)
            (hcmp : Compares compar cmp base nmemb size m) :=
          partition_split hcmp hlast (by omega : 2 ≤ n) Prod.mk.eta.symm
        dsimp only
        generalize partition compar (base + lo * size) n size m = r at *
        obtain ⟨m₂, hleft, hleftMoved, hleftSorted⟩ :=
          @ih lo r.2 r.1 (by omega) (by omega)
        obtain ⟨m₃, hright, hrightMoved, hrightSorted⟩ :=
          @ih (lo + r.2 + 1) (n - r.2 - 1) m₂ (by omega) (by omega)
        have hend : lo + r.2 + 1 + (n - r.2 - 1) = lo + n := by omega
        rw [hend] at hrightMoved hrightSorted
        have hmoved₂ := hmoved.trans (hleftMoved.mono (Nat.le_refl lo) (by omega))
        refine ⟨m₃, ?_, hmoved₂.trans (hrightMoved.mono (by omega) (Nat.le_refl _)),
          fun cmp S hcmp hS hmem => ?_⟩
        · rw [hleft, address_add, ← Nat.add_assoc]
          exact hright
        · have hmem₁ := hmoved.elements.forall_inside hmem
          have hmem₂ := hmoved₂.elements.forall_inside hmem
          obtain ⟨hfront, hbehind⟩ := hsplit cmp hcmp
          exact ascending_of_parts hS hj hmem₁ hfront hbehind hleftMoved hrightMoved
            (hleftSorted cmp S (hcmp.moved hmoved hlast) hS
              fun i hi₁ hi₂ => hmem₁ i hi₁ (by omega))
            (hrightSorted cmp S (hcmp.moved hmoved₂ hlast) hS
              fun i hi₁ hi₂ => hmem₂ i (by omega) hi₂)

/-- **`qsort`** ends for every comparison function, and leaves a permutation of the elements and
everything else as it was; what it leaves is sorted if the comparison is a total preorder on
them. -/
theorem qsort_sorts (hfuel : nmemb < fuel) :
    ∃ m', qsort fuel base nmemb size (some compar) m = .ok m' ∧
      (elements base nmemb size m').Perm (elements base nmemb size m) ∧
      (∀ a, a < base ∨ base + nmemb * size ≤ a → m' a = m a) ∧
      ∀ cmp, base ≠ 0 → Compares compar cmp base nmemb size m →
        TotalPreorderOn cmp {x | x ∈ elements base nmemb size m} →
        (elements base nmemb size m').Pairwise fun x y => cmp x y ≤ 0 := by
  by_cases hskip : base = 0 ∨ nmemb ≤ 1
  · refine ⟨m, if_pos hskip, List.Perm.refl _, fun _ _ => rfl, fun cmp hbase _ _ => ?_⟩
    have hsmall := hskip.resolve_left hbase
    exact Ascending.pairwise (Ascending.of_le (by omega))
  · obtain ⟨m', hrun, hmoved, hsorted⟩ := @quickSort_spec compar base size nmemb 0 nmemb fuel m
      (by omega) hfuel
    rw [Nat.zero_mul, Nat.add_zero] at hrun
    refine ⟨m', (if_neg hskip).trans hrun, hmoved.elements.perm, fun a ha => ?_,
      fun cmp _ hcmp hS => ?_⟩
    · exact hmoved.outside a (by rw [Nat.zero_mul, Nat.zero_add]; omega)
    · refine (hsorted cmp _ hcmp hS fun i _ hi => ?_).pairwise
      exact List.mem_map.mpr ⟨i, List.mem_range.mpr (by omega), by rw [Nat.zero_add]⟩

/-- Four elements of two bytes, and a comparison of their first bytes. -/
theorem qsort_sorts_small : ∃ m',
    qsort 5 64 4 2 (some fun m a b => (m a).toNat - (m b).toNat) (fun a => UInt8.ofNat (100 - a)) =
        .ok m' ∧
      (elements 64 4 2 m').Perm [[36, 35], [34, 33], [32, 31], [30, 29]] ∧
      (elements 64 4 2 m').Pairwise
        fun x y => ((x.headD 0).toNat : Int) - (y.headD 0).toNat ≤ 0 := by
  obtain ⟨m', hrun, hperm, -, hsorted⟩ := @qsort_sorts
    (fun m a b => (m a).toNat - (m b).toNat) 64 2 4 5 (fun a => UInt8.ofNat (100 - a)) (by decide)
  exact ⟨m', hrun, hperm, hsorted (fun x y => (x.headD 0).toNat - (y.headD 0).toNat) (by decide)
    (fun _ _ _ _ _ _ => rfl) ⟨fun x _ y _ => by omega, fun x _ y _ z _ hxy hyz => by omega⟩⟩

end Recursion

end InfoKernel.Klibc
