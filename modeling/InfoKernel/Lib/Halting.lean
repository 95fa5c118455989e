import InfoKernel.Lib.Loop

/-!
# Loops that end, and loops that do not

A program with loops is a family of computations indexed by the fuel.  It halts when, from some
fuel on, it does not fail for want of fuel; then it has a result or another error.  A loop halts by
a measure (`loop_ne_out`), and it does not when it comes to a state from which a turn leads back to
the same state (`Visits.loop_stuck`).
-/

namespace InfoKernel.Lib

universe u

variable {ε σ : Type*} {ρ : Type u} {body : σ → Except ε (Turn σ ρ)} {out : ε} {s t : σ} {n : Nat}

/-- With enough fuel, it is not the fuel that is missing. -/
def Halts (out : ε) (f : Nat → Except ε ρ) : Prop := ∃ n₀, ∀ n, n₀ ≤ n → f n ≠ .error out

theorem Halts.of_lt {f : Nat → Except ε ρ} {m : Nat} (h : ∀ n, m < n → f n ≠ .error out) :
    Halts out f := ⟨m + 1, h⟩

/-- What fails for want of fuel, however much there is. -/
theorem not_halts {f : Nat → Except ε ρ} {m : Nat} (h : ∀ n, m < n → f n = .error out) :
    ¬ Halts out f := by
  rintro ⟨n₀, hn⟩
  exact hn (max n₀ (m + 1)) (Nat.le_max_left _ _) (h _ (by omega))

/-- The states that the loop from `s` comes to, if it has the fuel. -/
inductive Visits (body : σ → Except ε (Turn σ ρ)) (s : σ) : σ → Prop
  | start : Visits body s s
  | again {t u : σ} : Visits body s t → body t = .ok (.again u) → Visits body s u

/-- **A loop with a measure** does not fail for want of fuel. -/
theorem loop_ne_out {I : Nat → σ → Prop} (hout : ∀ k s, I k s → body s ≠ .error out)
    (hturn : ∀ k s t, I k s → body s = .ok (.again t) → ∃ j, j < k ∧ I j t) {k : Nat}
    (hs : I k s) (hn : k < n) : loop body out n s ≠ .error out := by
  induction n generalizing k s with
  | zero => exact absurd hn (Nat.not_lt_zero _)
  | succ n ih =>
      cases hb : body s with
      | error err =>
          rw [loop_of_error hb]
          exact fun heq => hout k s hs (by rw [hb]; cases heq; rfl)
      | ok u =>
          cases u with
          | leave r =>
              rw [loop_of_leave hb]
              exact nofun
          | again t =>
              obtain ⟨j, hj, ht⟩ := hturn k s t hs hb
              rw [loop_of_again hb]
              exact ih ht (by omega)

/-- A loop that comes to a state from which it does not end does not end. -/
theorem Visits.loop_out (h : Visits body s t) (ht : ∀ n, loop body out n t = .error out) (n : Nat) :
    loop body out n s = .error out := by
  induction h generalizing n with
  | start => exact ht n
  | @again t u _ hb ih =>
      refine ih (fun n => ?_) n
      cases n with
      | zero => rfl
      | succ n => exact (loop_of_again hb).trans (ht n)

/-- **A loop that is stuck** fails for want of fuel, however much there is. -/
theorem Visits.loop_stuck (h : Visits body s t) (ht : body t = .ok (.again t)) (n : Nat) :
    loop body out n s = .error out := by
  refine h.loop_out (fun n => ?_) n
  induction n with
  | zero => rfl
  | succ n ih => exact (loop_of_again ht).trans ih

/-- A loop that has left has left from every state that it came to. -/
theorem Visits.loop_ok (h : Visits body s t) {r : ρ} (hs : loop body out n s = .ok r) :
    ∃ m, loop body out m t = .ok r := by
  induction h with
  | start => exact ⟨n, hs⟩
  | @again t u _ hb ih =>
      obtain ⟨m, hm⟩ := ih
      cases m with
      | zero => cases hm
      | succ m => exact ⟨m, (loop_of_again hb).symm.trans hm⟩

end InfoKernel.Lib
