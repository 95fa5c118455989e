import InfoKernel.Lib.Program

/-!
# Machines that answer calls

A machine takes one call after the other, answers each of them and goes on in a new state.  The
implementation is a `Program` for each call, which may fail; the specification is a total function
from a state and a call to an answer and a state.

`Refines` is the step condition: from related states an admitted call does not fail, gets the answer
of the specification and leads to related states.  `Refines.run` carries it over all sequences of
admitted calls: the list of the answers is that of the specification.  Which calls are admitted
may depend on both states when the call is made, so a sequence of calls is `Admitted` along its run.
-/

namespace InfoKernel.Lib

universe u

variable {σ ω : Type u} {ε ι μ : Type*}

/-- The calls, one after the other, and the list of their answers. -/
def Program.calls (exec : ι → Program σ ε ω) : List ι → Program σ ε (List ω)
  | [] => pure []
  | i :: is => do
      let r ← exec i
      let rs ← Program.calls exec is
      pure (r :: rs)

/-- What the specification answers to the calls, and its state after them. -/
def answers (spec : μ → ι → ω × μ) : μ → List ι → List ω × μ
  | m, [] => ([], m)
  | m, i :: is =>
      ((spec m i).1 :: (answers spec (spec m i).2 is).1, (answers spec (spec m i).2 is).2)

section Answers

variable (spec : μ → ι → ω × μ) (m : μ) (i : ι) (is : List ι)

@[simp] theorem answers_nil : answers spec m [] = ([], m) := rfl

@[simp] theorem answers_cons_fst :
    (answers spec m (i :: is)).1 = (spec m i).1 :: (answers spec (spec m i).2 is).1 := rfl

@[simp] theorem answers_cons_snd :
    (answers spec m (i :: is)).2 = (answers spec (spec m i).2 is).2 := rfl

end Answers

/-- Each of the calls is admitted when it is made. -/
def Admitted (ok : σ → μ → ι → Prop) (exec : ι → Program σ ε ω) (spec : μ → ι → ω × μ) :
    σ → μ → List ι → Prop
  | _, _, [] => True
  | s, m, i :: is => ok s m i ∧ ∀ r t, exec i s = .ok (r, t) →
      Admitted ok exec spec t (spec m i).2 is

/-- Each of the calls is allowed in the state of the specification in which it is made. -/
def Allowed (ok : μ → ι → Prop) (spec : μ → ι → ω × μ) : μ → List ι → Prop
  | _, [] => True
  | m, i :: is => ok m i ∧ Allowed ok spec (spec m i).2 is

/-- What the specification allows is admitted. -/
theorem Allowed.admitted {ok : μ → ι → Prop} {exec : ι → Program σ ε ω} {spec : μ → ι → ω × μ}
    {s : σ} {m : μ} {is : List ι} (h : Allowed ok spec m is) :
    Admitted (fun _ => ok) exec spec s m is := by
  induction is generalizing s m with
  | nil => exact True.intro
  | cons i is ih => exact ⟨h.1, fun _ _ _ => ih h.2⟩

/-- **The step condition.**  From related states an admitted call gets the answer of the
specification and leads to related states. -/
def Refines (R : σ → μ → Prop) (ok : σ → μ → ι → Prop) (exec : ι → Program σ ε ω)
    (spec : μ → ι → ω × μ) : Prop :=
  ∀ s m i, R s m → ok s m i →
    Ends (exec i) s (fun _ => False) fun r t => r = (spec m i).1 ∧ R t (spec m i).2

section Run

variable {R : σ → μ → Prop} {ok : σ → μ → ι → Prop} {exec : ι → Program σ ε ω}
  {spec : μ → ι → ω × μ} {s : σ} {m : μ} {is : List ι}

/-- **Refinement of whole runs.** -/
theorem Refines.run (h : Refines R ok exec spec) (hR : R s m) (hok : Admitted ok exec spec s m is) :
    Ends (Program.calls exec is) s (fun _ => False) fun rs t =>
      rs = (answers spec m is).1 ∧ R t (answers spec m is).2 := by
  induction is generalizing s m with
  | nil => exact Ends.pure ⟨rfl, hR⟩
  | cons i is ih =>
      obtain ⟨hi, his⟩ := hok
      obtain ⟨r, t, hrun, hr, ht⟩ := (h s m i hR hi).exists_ok
      refine Ends.step hrun ((ih ht (his r t hrun)).bind fun rs u hrest => Ends.pure ?_)
      simp [hr, hrest]

end Run

end InfoKernel.Lib
