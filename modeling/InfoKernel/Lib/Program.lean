import InfoKernel.Lib.Loop

/-!
# Programs on a state

A program reads and changes a state and may fail: it is a `StateT` computation over
`Except`.  `Ends x s F Q` says what `x` does from the state `s`: it fails with an error of `F`,
or it has a result that satisfies `Q`.  With no error in `F` this is total correctness, and
with all errors in `F` it is partial correctness.

There is one rule for each way of putting programs together, and `Program.loop` is a loop with
fuel whose turns are programs; it has a rule with a decreasing measure and one without, for an
`F` that contains the error of a loop that has used up its fuel.
-/

namespace InfoKernel.Lib

universe u

/-- Computations that read and change a state and may fail. -/
abbrev Program (σ : Type u) (ε : Type*) (α : Type u) := StateT σ (Except ε) α

variable {σ τ α β ρ : Type u} {ε : Type*}

/-- What an outcome must satisfy: `F` as an error, `Q` as a result. -/
def Outcome (F : ε → Prop) (Q : α → σ → Prop) : Except ε (α × σ) → Prop
  | .error f => F f
  | .ok (a, t) => Q a t

/-- The program fails with an error of `F` or has a result that satisfies `Q`. -/
def Ends (x : Program σ ε α) (s : σ) (F : ε → Prop) (Q : α → σ → Prop) : Prop :=
  Outcome F Q (x s)

theorem bind_apply (x : Program σ ε α) (f : α → Program σ ε β) (s : σ) :
    (x >>= f) s = (x s >>= fun r => f r.1 r.2) := rfl

theorem bind_apply_of_ok {x : Program σ ε α} {f : α → Program σ ε β} {s t : σ} {a : α}
    (h : x s = .ok (a, t)) : (x >>= f) s = f a t := by
  rw [bind_apply, h]
  rfl

namespace Ends

variable {x : Program σ ε α} {s t : σ} {a : α} {F F' : ε → Prop} {P Q : α → σ → Prop}

theorem of_ok (h : x s = .ok (a, t)) (hq : Q a t) : Ends x s F Q := by
  rw [Ends, h]
  exact hq

theorem pure (h : Q a s) : Ends (pure a : Program σ ε α) s F Q := h

theorem throw {f : ε} (h : F f) : Ends (throw f : Program σ ε α) s F Q := h

theorem mono (h : Ends x s F P) (hQ : ∀ a t, P a t → Q a t) : Ends x s F Q := by
  rw [Ends] at h ⊢
  cases hx : x s with
  | error f => rw [hx] at h; exact h
  | ok r => rw [hx] at h; exact hQ r.1 r.2 h

theorem mono_error (h : Ends x s F Q) (hF : ∀ f, F f → F' f) : Ends x s F' Q := by
  rw [Ends] at h ⊢
  cases hx : x s with
  | error f => rw [hx] at h; exact hF f h
  | ok r => rw [hx] at h; exact h

/-- Whatever it does. -/
theorem trivial : Ends x s (fun _ => True) fun _ _ => True := by
  rw [Ends]
  cases x s <;> exact True.intro

/-- A program is deterministic: its one outcome satisfies all that is proved of it. -/
theorem and (h : Ends x s F P) (h' : Ends x s F' Q) :
    Ends x s (fun f => F f ∧ F' f) fun a t => P a t ∧ Q a t := by
  rw [Ends] at h h' ⊢
  cases hx : x s with
  | error f => rw [hx] at h h'; exact ⟨h, h'⟩
  | ok r => rw [hx] at h h'; exact ⟨h, h'⟩

theorem bind {f : α → Program σ ε β} {R : β → σ → Prop} (hx : Ends x s F P)
    (hf : ∀ a t, P a t → Ends (f a) t F R) : Ends (x >>= f) s F R := by
  rw [Ends] at hx
  rw [Ends, bind_apply]
  cases h : x s with
  | error e => rw [h] at hx; exact hx
  | ok r => rw [h] at hx; exact hf r.1 r.2 hx

/-- A first step whose result is known. -/
theorem step {f : α → Program σ ε β} {R : β → σ → Prop} (h : x s = .ok (a, t))
    (hf : Ends (f a) t F R) : Ends (x >>= f) s F R := by
  rw [Ends, bind_apply_of_ok h]
  exact hf

/-- A first step that fails. -/
theorem step_error {f : α → Program σ ε β} {R : β → σ → Prop} {err : ε} (h : x s = .error err)
    (hf : F err) : Ends (x >>= f) s F R := by
  rw [Ends, bind_apply, h]
  exact hf

/-- Total correctness gives a result. -/
theorem exists_ok (h : Ends x s (fun _ => False) Q) : ∃ a t, x s = .ok (a, t) ∧ Q a t := by
  rw [Ends] at h
  cases hx : x s with
  | error f => rw [hx] at h; exact h.elim
  | ok r => rw [hx] at h; exact ⟨r.1, r.2, rfl, h⟩

/-- What is proved of a program holds of the result it has. -/
theorem of_result (h : Ends x s F Q) (hx : x s = .ok (a, t)) : Q a t := by
  rw [Ends, hx] at h
  exact h

end Ends

/-- The loop whose turns are programs: at most `n` turns of `body`, from `t` on. -/
def Program.loop (body : τ → Program σ ε (Turn τ ρ)) (out : ε) : Nat → τ → Program σ ε ρ
  | 0, _ => throw out
  | n + 1, t => do
      match ← body t with
      | .again t => Program.loop body out n t
      | .leave r => pure r

section Loop

variable {body : τ → Program σ ε (Turn τ ρ)} {out : ε} {F : ε → Prop} {Q : ρ → σ → Prop}
  {n : Nat} {t : τ} {s : σ}

/-- **The loop rule with a measure and any fuel.**  If each turn from the invariant keeps it with
a smaller measure or leaves with the postcondition, then so does the loop, or it fails for want
of fuel. -/
theorem Ends.loop_or_out {I : Nat → τ → σ → Prop}
    (hturn : ∀ k t s, I k t s → Ends (body t) s F fun u s' =>
      u.Meets (fun t' => ∃ j, j < k ∧ I j t' s') fun r => Q r s')
    {k : Nat} (hs : I k t s) (hout : n ≤ k → F out) : Ends (Program.loop body out n t) s F Q := by
  induction n generalizing k t s with
  | zero => exact hout (Nat.zero_le k)
  | succ n ih =>
      refine bind (hturn k t s hs) fun u s' hu => ?_
      cases u with
      | again t' =>
          obtain ⟨j, hj, hI⟩ := hu
          exact ih hI fun hn => hout (by omega)
      | leave r => exact hu

/-- **The loop rule with a measure**, when there is fuel for the measure. -/
theorem Ends.loop {I : Nat → τ → σ → Prop}
    (hturn : ∀ k t s, I k t s → Ends (body t) s F fun u s' =>
      u.Meets (fun t' => ∃ j, j < k ∧ I j t' s') fun r => Q r s')
    {k : Nat} (hs : I k t s) (hn : k < n) : Ends (Program.loop body out n t) s F Q :=
  Ends.loop_or_out hturn hs fun hle => absurd hn (Nat.not_lt.mpr hle)

/-- **The loop rule without a measure.** -/
theorem Ends.loop_of_out {I : τ → σ → Prop}
    (hturn : ∀ t s, I t s → Ends (body t) s F fun u s' =>
      u.Meets (fun t' => I t' s') fun r => Q r s')
    (hout : F out) (hs : I t s) : Ends (Program.loop body out n t) s F Q := by
  induction n generalizing t s with
  | zero => exact hout
  | succ n ih =>
      refine bind (hturn t s hs) fun u s' hu => ?_
      cases u with
      | again t' => exact ih hu
      | leave r => exact hu

end Loop

/-! ## Programs that keep an invariant -/

/-- From the states of `I` the program ends in a state of `I`, and it fails with errors of `F`
only. -/
def Stays (F : ε → Prop) (I : σ → Prop) (x : Program σ ε α) : Prop :=
  ∀ s, I s → Ends x s F fun _ t => I t

namespace Stays

variable {F : ε → Prop} {I : σ → Prop} {x : Program σ ε α}

theorem pure (a : α) : Stays F I (pure a : Program σ ε α) := fun _ hs => Ends.pure hs

theorem throw {f : ε} (h : F f) : Stays F I (throw f : Program σ ε α) := fun _ _ => Ends.throw h

theorem bind {f : α → Program σ ε β} (hx : Stays F I x) (hf : ∀ a, Stays F I (f a)) :
    Stays F I (x >>= f) := fun s hs => Ends.bind (hx s hs) fun a t ht => hf a t ht

/-- A first step of whose result something is known. -/
theorem bind_of {P : α → Prop} {f : α → Program σ ε β}
    (hx : ∀ s, I s → Ends x s F fun a t => I t ∧ P a) (hf : ∀ a, P a → Stays F I (f a)) :
    Stays F I (x >>= f) := fun s hs => Ends.bind (hx s hs) fun a t ht => hf a ht.2 t ht.1

theorem ite {p : Prop} [Decidable p] {y : Program σ ε α} (hx : p → Stays F I x)
    (hy : ¬ p → Stays F I y) : Stays F I (if p then x else y) := by
  by_cases h : p
  · rw [if_pos h]
    exact hx h
  · rw [if_neg h]
    exact hy h

/-- A loop stays where its turns stay, if it may run out of fuel. -/
theorem loop {body : τ → Program σ ε (Turn τ ρ)} {out : ε} (hbody : ∀ t, Stays F I (body t))
    (hout : F out) (n : Nat) (t : τ) : Stays F I (Program.loop body out n t) := fun s hs => by
  refine Ends.loop_of_out (I := fun _ s => I s) (fun t s hs => (hbody t s hs).mono ?_) hout hs
  intro u s' hs'
  cases u with
  | again t' => exact hs'
  | leave r => exact hs'

end Stays

/-! ## Programs that do what others do -/

/-- Wherever `x` has a result, `y` has the same and leaves the same state. -/
def Below (x y : Program σ ε α) : Prop := ∀ ⦃s t a⦄, x s = .ok (a, t) → y s = .ok (a, t)

namespace Below

variable {x y x' y' : Program σ ε α}

theorem refl (x : Program σ ε α) : Below x x := fun _ _ _ h => h

theorem throw (f : ε) (y : Program σ ε α) : Below (throw f) y := fun _ _ _ h => nomatch h

theorem bind {f g : α → Program σ ε β} (hx : Below x y) (hf : ∀ a, Below (f a) (g a)) :
    Below (x >>= f) (y >>= g) := by
  intro s t b h
  rw [bind_apply] at h
  cases hres : x s with
  | error err =>
      rw [hres] at h
      exact nomatch h
  | ok r =>
      rw [hres] at h
      rw [bind_apply_of_ok (hx hres)]
      exact hf r.1 h

/-- After the same first step. -/
theorem bind_right {f g : α → Program σ ε β} (hf : ∀ a, Below (f a) (g a)) :
    Below (x >>= f) (x >>= g) := (refl x).bind hf

theorem ite {p : Prop} [Decidable p] (hx : p → Below x y) (hx' : ¬ p → Below x' y') :
    Below (if p then x else x') (if p then y else y') := by
  by_cases h : p
  · rw [if_pos h, if_pos h]
    exact hx h
  · rw [if_neg h, if_neg h]
    exact hx' h

/-- Where the one has a result, the other passes its check too. -/
theorem guard {p q : Prop} [Decidable p] [Decidable q] {f : ε} (hpq : p → q) (hx : Below x y) :
    Below (if p then x else MonadExcept.throw f) (if q then y else y') := by
  by_cases h : p
  · rw [if_pos h, if_pos (hpq h)]
    exact hx
  · rw [if_neg h]
    exact throw f _

theorem loop {body body' : τ → Program σ ε (Turn τ ρ)} {out : ε}
    (hbody : ∀ t, Below (body t) (body' t)) (n : Nat) (t : τ) :
    Below (Program.loop body out n t) (Program.loop body' out n t) := by
  induction n generalizing t with
  | zero => exact refl _
  | succ n ih =>
      refine (hbody t).bind fun u => ?_
      cases u with
      | again t' => exact ih t'
      | leave r => exact refl _

/-- What is proved of the one holds of the other, where no error is left. -/
theorem ends {F : ε → Prop} {Q : α → σ → Prop} {s : σ} (h : Below x y)
    (hx : Ends x s (fun _ => False) Q) : Ends y s F Q := by
  obtain ⟨a, t, hrun, hq⟩ := hx.exists_ok
  exact Ends.of_ok (h hrun) hq

end Below

end InfoKernel.Lib
