import Mathlib.Tactic.TypeStar

/-!
# Loops with fuel

A `while` loop of a program is a function `body` that, from a loop state, either
goes on with a new state or leaves the loop with a result; any turn may fail.
`loop body out n s` runs at most `n` turns from `s` and fails with `out` when these
do not suffice, so a loop is a family of computations indexed by the fuel, and so
is a program made of loops.  Three rules cover what is proved about them:

* `loop_post`, partial correctness: an invariant gives the postcondition of every
  result, whatever the fuel;
* `loop_returns`, total correctness: an invariant with a decreasing measure gives a
  result for every fuel above the measure;
* `Steady`: more fuel never changes a result.  It is closed under the ways programs
  are put together, and with it a result for some fuel is the result for all.
-/

namespace InfoKernel.Lib

universe u

variable {ε σ : Type*} {ρ τ : Type u}

/-- One turn of a loop: go on, or leave it. -/
inductive Turn (σ ρ : Type*) where
  | again (s : σ)
  | leave (r : ρ)

/-- The loop with body `body`, at most `n` turns of it. -/
def loop (body : σ → Except ε (Turn σ ρ)) (out : ε) : Nat → σ → Except ε ρ
  | 0, _ => .error out
  | n + 1, s =>
      match body s with
      | .error e => .error e
      | .ok (.again t) => loop body out n t
      | .ok (.leave r) => .ok r

/-- What a turn from a state of the invariant `I` must establish. -/
def Turn.Meets (I : σ → Prop) (Q : ρ → Prop) : Turn σ ρ → Prop
  | .again s => I s
  | .leave r => Q r

theorem Turn.Meets.again {I : σ → Prop} {Q : ρ → Prop} {s : σ} {u : Turn σ ρ}
    (h : (.ok (.again s) : Except ε (Turn σ ρ)) = .ok u) (hs : I s) : u.Meets I Q := by
  injection h with h
  rw [← h]
  exact hs

theorem Turn.Meets.leave {I : σ → Prop} {Q : ρ → Prop} {r : ρ} {u : Turn σ ρ}
    (h : (.ok (.leave r) : Except ε (Turn σ ρ)) = .ok u) (hr : Q r) : u.Meets I Q := by
  injection h with h
  rw [← h]
  exact hr

section Loop

variable {body : σ → Except ε (Turn σ ρ)} {out : ε}

@[simp] theorem loop_zero (s : σ) : loop body out 0 s = .error out := rfl

theorem loop_of_again {n : Nat} {s t : σ} (h : body s = .ok (.again t)) :
    loop body out (n + 1) s = loop body out n t := by
  rw [loop, h]

theorem loop_of_leave {n : Nat} {s : σ} {r : ρ} (h : body s = .ok (.leave r)) :
    loop body out (n + 1) s = .ok r := by
  rw [loop, h]

theorem loop_of_error {n : Nat} {s : σ} {e : ε} (h : body s = .error e) :
    loop body out (n + 1) s = .error e := by
  rw [loop, h]

/-- **Partial correctness.**  If every turn that does not fail keeps the invariant
or establishes the postcondition, every result satisfies the postcondition. -/
theorem loop_post {I : σ → Prop} {Q : ρ → Prop}
    (hturn : ∀ s u, I s → body s = .ok u → u.Meets I Q) {n : Nat} {s : σ} {r : ρ}
    (hs : I s) (h : loop body out n s = .ok r) : Q r := by
  induction n generalizing s with
  | zero => cases h
  | succ n ih =>
      rw [loop] at h
      cases hb : body s with
      | error e => rw [hb] at h; cases h
      | ok u =>
          rw [hb] at h
          have hu := hturn s u hs hb
          cases u with
          | again t => exact ih hu h
          | leave r' =>
              injection h with h
              rw [← h]
              exact hu

/-- **Total correctness.**  `I k s` says that the invariant holds at `s` with measure
`k`.  If a turn from such a state succeeds, and either keeps the invariant with a
smaller measure or establishes the postcondition, then every fuel above the measure
gives a result that satisfies it. -/
theorem loop_returns {I : Nat → σ → Prop} {Q : ρ → Prop}
    (hturn : ∀ k s, I k s →
      ∃ u, body s = .ok u ∧ u.Meets (fun t => ∃ j, j < k ∧ I j t) Q)
    {n k : Nat} {s : σ} (hs : I k s) (hn : k < n) :
    ∃ r, loop body out n s = .ok r ∧ Q r := by
  induction n generalizing s k with
  | zero => exact absurd hn (Nat.not_lt_zero _)
  | succ n ih =>
      obtain ⟨u, hb, hu⟩ := hturn k s hs
      cases u with
      | again t =>
          obtain ⟨j, hj, ht⟩ := hu
          obtain ⟨r, hr, hq⟩ := ih ht (by omega)
          exact ⟨r, (loop_of_again hb).trans hr, hq⟩
      | leave r => exact ⟨r, loop_of_leave hb, hu⟩

end Loop

theorem eq_ok_of_toOption {x : Except ε ρ} {a : ρ} (h : x.toOption = some a) : x = .ok a := by
  cases x with
  | error e => cases h
  | ok b => rw [Option.some.inj h]

/-- A sequence of two computations succeeds when both do. -/
theorem bind_eq_ok_iff {x : Except ε ρ} {f : ρ → Except ε τ} {b : τ} :
    (x >>= f) = .ok b ↔ ∃ a, x = .ok a ∧ f a = .ok b := by
  cases x with
  | error e =>
      constructor
      · intro h
        cases h
      · rintro ⟨a, ha, -⟩
        cases ha
  | ok a =>
      constructor
      · intro h
        exact ⟨a, rfl, h⟩
      · rintro ⟨a', ha, h⟩
        injection ha with ha
        rw [ha]
        exact h

/-! ## More fuel -/

/-- A family of computations indexed by fuel in which more fuel never changes a
result. -/
def Steady (f : Nat → Except ε ρ) : Prop :=
  ∀ n m r, n ≤ m → f n = .ok r → f m = .ok r

namespace Steady

theorem const (x : Except ε ρ) : Steady fun _ => x :=
  fun _ _ _ _ h => h

theorem bind {f : Nat → Except ε ρ} {g : Nat → ρ → Except ε τ} (hf : Steady f)
    (hg : ∀ r, Steady fun n => g n r) : Steady fun n => f n >>= g n := by
  intro n m t hnm h
  change f n >>= g n = .ok t at h
  change f m >>= g m = .ok t
  cases hfn : f n with
  | error e => rw [hfn] at h; cases h
  | ok r =>
      rw [hfn] at h
      rw [hf n m r hnm hfn]
      exact hg r n m t hnm h

theorem ite {f g : Nat → Except ε ρ} (c : Prop) [Decidable c] (hf : Steady f)
    (hg : Steady g) : Steady fun n => if c then f n else g n := by
  by_cases hc : c
  · simpa only [if_pos hc] using hf
  · simpa only [if_neg hc] using hg

theorem loop (body : σ → Except ε (Turn σ ρ)) (out : ε) (s : σ) :
    Steady fun n => loop body out n s := by
  intro n
  induction n generalizing s with
  | zero => intro m r _ h; cases h
  | succ n ih =>
      intro m r hnm h
      obtain ⟨m, rfl⟩ : ∃ k, m = k + 1 := ⟨m - 1, by omega⟩
      simp only [Lib.loop] at h ⊢
      cases hb : body s with
      | error e => rw [hb] at h; cases h
      | ok u =>
          rw [hb] at h
          cases u with
          | again t => exact ih t m r (by omega) h
          | leave r' => exact h

/-- Two results, for whatever fuel, are the same result. -/
theorem unique {f : Nat → Except ε ρ} (hf : Steady f) {n m : Nat} {r r' : ρ}
    (h : f n = .ok r) (h' : f m = .ok r') : r = r' := by
  have h1 := hf n (max n m) r (Nat.le_max_left n m) h
  rw [hf m (max n m) r' (Nat.le_max_right n m) h'] at h1
  injection h1 with h1
  exact h1.symm

end Steady

end InfoKernel.Lib
