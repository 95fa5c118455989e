import InfoKernel.Lib.Ring
import Mathlib.Data.List.Nodup
import Mathlib.Logic.Equiv.Basic
import Mathlib.Order.Basic

/-!
# Sorting in place

An array is a function from indices, and what an algorithm that sorts in place does with it is an
exchange of two values again and again.  `Rearranged lo hi f g` says that the values of `f` between
`lo` and `hi` have come into another order, and that the others have stayed.

* `Rearranged.exchange` and `Rearranged.trans`: what exchanges lead to;
* `Rearranged.perm`: the values are the same ones, each as often as before;
* `Ascending.join`: two sorted stretches with a value between them that separates them.
-/

namespace InfoKernel.Lib

variable {α : Type*} {f g k : Nat → α} {lo hi : Nat}

/-- The values from `lo` up to `hi` are in another order, and the others where they were. -/
def Rearranged (lo hi : Nat) (f g : Nat → α) : Prop :=
  ∃ σ : Equiv.Perm Nat, (∀ i, i < lo ∨ hi ≤ i → σ i = i) ∧ ∀ i, g i = f (σ i)

/-- What leaves the indices outside where they are leaves those inside there. -/
theorem perm_inside_iff {σ : Equiv.Perm Nat} (hσ : ∀ i, i < lo ∨ hi ≤ i → σ i = i) (i : Nat) :
    lo ≤ σ i ∧ σ i < hi ↔ lo ≤ i ∧ i < hi := by
  constructor
  · intro hin
    by_contra hout
    have hfixed := hσ i (by omega)
    omega
  · intro hin
    by_contra hout
    have hfixed : σ i = i := σ.injective (hσ (σ i) (by omega))
    omega

namespace Rearranged

theorem refl (lo hi : Nat) (f : Nat → α) : Rearranged lo hi f f :=
  ⟨Equiv.refl Nat, fun _ _ => rfl, fun _ => rfl⟩

theorem trans (h : Rearranged lo hi f g) (h' : Rearranged lo hi g k) : Rearranged lo hi f k := by
  obtain ⟨σ, hσ, hg⟩ := h
  obtain ⟨τ, hτ, hk⟩ := h'
  refine ⟨τ.trans σ, fun i hi => ?_, fun i => ?_⟩
  · rw [Equiv.trans_apply, hτ i hi, hσ i hi]
  · rw [hk, hg, Equiv.trans_apply]

theorem mono {lo' hi' : Nat} (h : Rearranged lo hi f g) (hlo : lo' ≤ lo) (hhi : hi ≤ hi') :
    Rearranged lo' hi' f g := by
  obtain ⟨σ, hσ, hg⟩ := h
  exact ⟨σ, fun i hi => hσ i (by omega), hg⟩

/-- Two values change places. -/
theorem exchange {i j : Nat} (hi₁ : lo ≤ i) (hi₂ : i < hi) (hj₁ : lo ≤ j) (hj₂ : j < hi)
    (hg : ∀ n, g n = f (Equiv.swap i j n)) : Rearranged lo hi f g := by
  refine ⟨Equiv.swap i j, fun n hn => ?_, hg⟩
  exact Equiv.swap_apply_of_ne_of_ne (by omega) (by omega)

/-- The values outside stay. -/
theorem outside (h : Rearranged lo hi f g) {i : Nat} (hi : i < lo ∨ hi ≤ i) : g i = f i := by
  obtain ⟨σ, hσ, hg⟩ := h
  rw [hg, hσ i hi]

/-- A value inside comes from inside. -/
theorem inside (h : Rearranged lo hi f g) {i : Nat} (hi₁ : lo ≤ i) (hi₂ : i < hi) :
    ∃ j, lo ≤ j ∧ j < hi ∧ g i = f j := by
  obtain ⟨σ, hσ, hg⟩ := h
  have hin := (perm_inside_iff hσ i).mpr ⟨hi₁, hi₂⟩
  exact ⟨σ i, hin.1, hin.2, hg i⟩

/-- What holds of all values inside still does. -/
theorem forall_inside (h : Rearranged lo hi f g) {P : α → Prop}
    (hf : ∀ i, lo ≤ i → i < hi → P (f i)) (i : Nat) (hi₁ : lo ≤ i) (hi₂ : i < hi) : P (g i) := by
  obtain ⟨j, hj₁, hj₂, heq⟩ := h.inside hi₁ hi₂
  rw [heq]
  exact hf j hj₁ hj₂

/-- **Rearranged values are the same values.** -/
theorem perm {n : Nat} (h : Rearranged lo (lo + n) f g) : (window g lo n).Perm (window f lo n) := by
  obtain ⟨σ, hσ, hg⟩ := h
  have hnodup : (window id lo n).Nodup :=
    List.nodup_range.map fun i j hij => Nat.add_left_cancel hij
  have hmem (i : Nat) : i ∈ window id lo n ↔ lo ≤ i ∧ i < lo + n := by
    simp only [window, List.mem_map, List.mem_range, id_eq]
    constructor
    · rintro ⟨k, hk, rfl⟩
      omega
    · rintro ⟨h₁, h₂⟩
      exact ⟨i - lo, by omega, by omega⟩
  have hindices : ((window id lo n).map σ).Perm (window id lo n) := by
    refine (List.perm_ext_iff_of_nodup (hnodup.map σ.injective) hnodup).mpr fun i => ?_
    rw [List.mem_map, hmem]
    constructor
    · rintro ⟨j, hj, rfl⟩
      exact (perm_inside_iff hσ j).mpr ((hmem j).mp hj)
    · intro hi
      refine ⟨σ.symm i, (hmem _).mpr ((perm_inside_iff hσ _).mp ?_), σ.apply_symm_apply i⟩
      rw [σ.apply_symm_apply]
      exact hi
  have hvalues : window g lo n = ((window id lo n).map σ).map f := by
    rw [window, window, List.map_map, List.map_map]
    exact List.map_congr_left fun i _ => hg (lo + i)
  have hbefore : window f lo n = (window id lo n).map f := by
    rw [window, window, List.map_map]
    rfl
  rw [hvalues, hbefore]
  exact hindices.map f

end Rearranged

/-- The values from `lo` up to `hi` ascend. -/
def Ascending (le : α → α → Prop) (lo hi : Nat) (f : Nat → α) : Prop :=
  ∀ i j, lo ≤ i → i < j → j < hi → le (f i) (f j)

namespace Ascending

variable {le : α → α → Prop}

/-- A stretch of at most one value. -/
theorem of_le (h : hi ≤ lo + 1) : Ascending le lo hi f := fun i j hi₁ hij hj => by omega

theorem congr (h : Ascending le lo hi f) (heq : ∀ i, lo ≤ i → i < hi → g i = f i) :
    Ascending le lo hi g := by
  intro i j hi₁ hij hj
  rw [heq i hi₁ (by omega), heq j (by omega) hj]
  exact h i j hi₁ hij hj

/-- **Two sorted stretches** with a value between them: none of the first is greater than it, and
none of the second is less. -/
theorem join {S : Set α} (htrans : ∀ x ∈ S, ∀ y ∈ S, ∀ z ∈ S, le x y → le y z → le x z) {p : Nat}
    (hp : lo ≤ p ∧ p < hi) (hS : ∀ i, lo ≤ i → i < hi → f i ∈ S)
    (hfront : Ascending le lo p f) (hbehind : Ascending le (p + 1) hi f)
    (hless : ∀ i, lo ≤ i → i < p → le (f i) (f p))
    (hgreater : ∀ i, p < i → i < hi → le (f p) (f i)) : Ascending le lo hi f := by
  intro i j hi₁ hij hj
  obtain hjp | rfl | hjp := Nat.lt_trichotomy j p
  · exact hfront i j hi₁ hij hjp
  · exact hless i hi₁ hij
  · obtain hip | rfl | hip := Nat.lt_trichotomy i p
    · exact htrans _ (hS i hi₁ (by omega)) _ (hS p hp.1 hp.2) _ (hS j (by omega) hj)
        (hless i hi₁ hip) (hgreater j hjp hj)
    · exact hgreater j hij hj
    · exact hbehind i j hip hij hj

theorem pairwise {n : Nat} (h : Ascending le lo (lo + n) f) : (window f lo n).Pairwise le := by
  rw [window, List.pairwise_map]
  refine (List.pairwise_lt_range (n := n)).imp_of_mem fun hi hj hij => ?_
  exact h _ _ (by omega) (by omega) (by rw [List.mem_range] at hj; omega)

end Ascending

end InfoKernel.Lib
