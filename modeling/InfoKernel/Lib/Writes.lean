import Mathlib.Data.List.Basic
import Mathlib.Logic.Function.Basic

/-!
# A row of writes

A loop that writes one entry of a memory in each turn is a fold of `Function.update` over the list
of its turns.  An entry that no turn writes keeps its value, and an entry that is written holds what
each of the turns that write it gives it, where these agree.
-/

namespace InfoKernel.Lib

variable {α κ β : Type*} [DecidableEq κ] {w : α → κ} {v : α → β} {l : List α} {a : α} {k : κ}

theorem foldl_update_of_ne (hk : ∀ b ∈ l, w b ≠ k) (y : κ → β) :
    l.foldl (fun y b => Function.update y (w b) (v b)) y k = y k := by
  induction l generalizing y with
  | nil => rfl
  | cons b l ih =>
      obtain ⟨hb, hl⟩ := List.forall_mem_cons.mp hk
      rw [List.foldl_cons, ih hl, Function.update_of_ne hb.symm]

/-- An entry that is written. -/
theorem foldl_update_of_mem (ha : a ∈ l) (hv : ∀ b ∈ l, w b = w a → v b = v a) (y : κ → β) :
    l.foldl (fun y b => Function.update y (w b) (v b)) y (w a) = v a := by
  induction l generalizing a y with
  | nil => cases ha
  | cons b l ih =>
      obtain ⟨hb, hl⟩ := List.forall_mem_cons.mp hv
      rw [List.foldl_cons]
      by_cases hlater : ∃ c ∈ l, w c = w a
      · obtain ⟨c, hc, hwc⟩ := hlater
        have hvc : v c = v a := hl c hc hwc
        rw [← hwc, ih hc fun d hd hwd => (hl d hd (hwd.trans hwc)).trans hvc.symm, hvc]
      · have hnone : ∀ c ∈ l, w c ≠ w a := fun c hc hwc => hlater ⟨c, hc, hwc⟩
        have hfirst : a = b := (List.mem_cons.mp ha).resolve_right fun hal => hnone a hal rfl
        rw [foldl_update_of_ne hnone, hfirst, Function.update_self]

end InfoKernel.Lib
