import Mathlib.Logic.Relation

/-!
# Runs of a labelled step relation

A system is a step relation `step : σ → ι → σ → Prop`: from a state, under a
label, to a state.  `Run step s ls t` says that the labels `ls`, read in order,
lead from `s` to `t`.  Safety results about a system are invariants carried along
its runs, and the induction is done once, here:

* `Run.invariant` carries a predicate that every step preserves;
* `Guarded ok step` keeps the steps whose state and label satisfy `ok`, and
  `Keeping P step` those after which `P` holds.  `run_keeping_iff_guarded` is the
  rule for a system that is right exactly while its steps meet a condition;
* `Recorded step` names in each label the state the step leads to, so that `visited` is the
  list of the states of a run.  `pairwise_visited_iff_guarded` is the rule for what holds
  from each state of a run to all the later ones.
-/

namespace InfoKernel.Lib

variable {σ ι : Type*}

/-- The runs of a step relation, one label a step, the last step last. -/
inductive Run (step : σ → ι → σ → Prop) (s : σ) : List ι → σ → Prop
  | nil : Run step s [] s
  | snoc {ls : List ι} {l : ι} {t u : σ} :
      Run step s ls t → step t l u → Run step s (ls ++ [l]) u

/-- **The invariant rule.**  What holds at the start and is preserved by every
step holds wherever a run ends. -/
theorem Run.invariant {step : σ → ι → σ → Prop} {I : σ → Prop} {s t : σ}
    {ls : List ι} (h : Run step s ls t) (hs : I s)
    (hstep : ∀ a l b, I a → step a l b → I b) : I t := by
  induction h with
  | nil => exact hs
  | snoc _ hlast ih => exact hstep _ _ _ ih hlast

/-- The steps of `step` taken from a state and under a label that satisfy `ok`. -/
def Guarded (ok : σ → ι → Prop) (step : σ → ι → σ → Prop) : σ → ι → σ → Prop :=
  fun s l t => ok s l ∧ step s l t

/-- The steps of `step` that end in a state satisfying `P`. -/
def Keeping (P : σ → Prop) (step : σ → ι → σ → Prop) : σ → ι → σ → Prop :=
  fun s l t => step s l t ∧ P t

/-- **Right exactly while the condition is met.**  If an invariant `I` is preserved
by the steps that meet `ok`, gives `P`, and a step from `I` that does not meet `ok`
ends outside `P`, then a run satisfies `P` after each of its steps exactly when
each of its steps meets `ok`. -/
theorem run_keeping_iff_guarded {step : σ → ι → σ → Prop} {ok : σ → ι → Prop}
    {I P : σ → Prop} {s t : σ} {ls : List ι} (hs : I s)
    (hstep : ∀ a l b, I a → ok a l → step a l b → I b) (hIP : ∀ a, I a → P a)
    (hbad : ∀ a l b, I a → ¬ ok a l → step a l b → ¬ P b) :
    Run (Keeping P step) s ls t ↔ Run (Guarded ok step) s ls t := by
  constructor
  · intro h
    have hboth : Run (Guarded ok step) s ls t ∧ I t := by
      induction h with
      | nil => exact ⟨Run.nil, hs⟩
      | @snoc _ l a b _ hlast ih =>
          have hok : ok a l := Classical.byContradiction fun hno =>
            hbad a l b ih.2 hno hlast.1 hlast.2
          exact ⟨Run.snoc ih.1 ⟨hok, hlast.1⟩, hstep a l b ih.2 hok hlast.1⟩
    exact hboth.1
  · intro h
    have hboth : Run (Keeping P step) s ls t ∧ I t := by
      induction h with
      | nil => exact ⟨Run.nil, hs⟩
      | @snoc _ l a b _ hlast ih =>
          have hb := hstep a l b ih.2 hlast.1 hlast.2
          exact ⟨Run.snoc ih.1 ⟨hlast.2, hIP b hb⟩, hb⟩
    exact hboth.1

/-- **Steps that are right exactly under a condition.**  If an invariant `I` is preserved by the
steps that meet `ok`, and a step from `I` is right exactly when it meets `ok`, then all steps of a
run are right exactly when all of them meet `ok`. -/
theorem run_right_iff_guarded {step R : σ → ι → σ → Prop} {ok : σ → ι → Prop} {I : σ → Prop}
    {s t : σ} {ls : List ι} (hs : I s) (hstep : ∀ a l b, I a → ok a l → step a l b → I b)
    (hright : ∀ a l b, I a → step a l b → (R a l b ↔ ok a l)) :
    Run (fun a l b => step a l b ∧ R a l b) s ls t ↔ Run (Guarded ok step) s ls t := by
  constructor
  · intro h
    have hboth : Run (Guarded ok step) s ls t ∧ I t := by
      induction h with
      | nil => exact ⟨Run.nil, hs⟩
      | @snoc _ l a b _ hlast ih =>
          have hok := (hright a l b ih.2 hlast.1).mp hlast.2
          exact ⟨Run.snoc ih.1 ⟨hok, hlast.1⟩, hstep a l b ih.2 hok hlast.1⟩
    exact hboth.1
  · intro h
    have hboth : Run (fun a l b => step a l b ∧ R a l b) s ls t ∧ I t := by
      induction h with
      | nil => exact ⟨Run.nil, hs⟩
      | @snoc _ l a b _ hlast ih =>
          have hr := (hright a l b ih.2 hlast.2).mpr hlast.1
          exact ⟨Run.snoc ih.1 ⟨hlast.2, hr⟩, hstep a l b ih.2 hlast.1 hlast.2⟩
    exact hboth.1

theorem run_nil_iff {step : σ → ι → σ → Prop} {s t : σ} : Run step s [] t ↔ t = s := by
  constructor
  · intro h
    generalize hms : ([] : List ι) = ms at h
    cases h with
    | nil => rfl
    | snoc _ _ => exact absurd hms (by simp)
  · rintro rfl
    exact Run.nil

/-- The last step of a run. -/
theorem run_snoc_iff {step : σ → ι → σ → Prop} {s u : σ} {ls : List ι} {l : ι} :
    Run step s (ls ++ [l]) u ↔ ∃ t, Run step s ls t ∧ step t l u := by
  constructor
  · intro h
    generalize hms : ls ++ [l] = ms at h
    cases h with
    | nil => exact absurd hms (by simp)
    | snoc hrun hlast =>
        obtain ⟨rfl, hl⟩ := List.append_inj' hms rfl
        obtain rfl := List.singleton_inj.mp hl
        exact ⟨_, hrun, hlast⟩
  · rintro ⟨t, hrun, hlast⟩
    exact hrun.snoc hlast

theorem run_singleton_iff {step : σ → ι → σ → Prop} {s t : σ} {l : ι} :
    Run step s [l] t ↔ step s l t := by
  rw [← List.nil_append [l], run_snoc_iff]
  simp only [run_nil_iff, exists_eq_left]

/-- A condition on the labels only. -/
theorem run_guarded_label_iff {step : σ → ι → σ → Prop} {p : ι → Prop} {s t : σ} {ls : List ι} :
    Run (Guarded (fun _ l => p l) step) s ls t ↔ Run step s ls t ∧ ∀ l ∈ ls, p l := by
  constructor
  · intro h
    induction h with
    | nil => exact ⟨Run.nil, List.forall_mem_nil _⟩
    | snoc _ hlast ih =>
        refine ⟨ih.1.snoc hlast.2, fun l hl => ?_⟩
        rcases List.mem_append.mp hl with hl | hl
        · exact ih.2 l hl
        · rw [List.mem_singleton.mp hl]
          exact hlast.1
  · rintro ⟨hrun, hall⟩
    induction hrun with
    | nil => exact Run.nil
    | snoc _ hlast ih =>
        refine (ih fun l hl => hall l (List.mem_append_left _ hl)).snoc ⟨?_, hlast⟩
        exact hall _ (List.mem_append_right _ (List.mem_singleton_self _))

/-- One more step in front of a run. -/
theorem Run.cons {step : σ → ι → σ → Prop} {s t u : σ} {l : ι} {ls : List ι}
    (h : step s l t) (hr : Run step t ls u) : Run step s (l :: ls) u := by
  induction hr with
  | nil => exact Run.snoc Run.nil h
  | snoc _ hlast ih => exact Run.snoc ih hlast

/-- Two runs, one after the other. -/
theorem Run.append {step : σ → ι → σ → Prop} {s t u : σ} {ls ms : List ι}
    (h : Run step s ls t) (hr : Run step t ms u) : Run step s (ls ++ ms) u := by
  induction hr with
  | nil =>
      rw [List.append_nil]
      exact h
  | snoc _ hlast ih =>
      rw [← List.append_assoc]
      exact Run.snoc ih hlast

/-! ## All the states of a run

A property of a run that compares its states with each other, as "once so, always so", is
about the list of the states it has come through. -/

/-- The steps of `step`, labelled with the state they lead to as well. -/
def Recorded (step : σ → ι → σ → Prop) : σ → ι × σ → σ → Prop :=
  fun s e t => step s e.1 t ∧ e.2 = t

/-- The states of a recorded run, in order. -/
def visited (s : σ) (es : List (ι × σ)) : List σ := s :: es.map Prod.snd

theorem visited_snoc (s : σ) (es : List (ι × σ)) (e : ι × σ) :
    visited s (es ++ [e]) = visited s es ++ [e.2] := by
  rw [visited, visited, List.map_append, List.map_singleton, List.cons_append]

theorem Run.last_mem_visited {step : σ → ι → σ → Prop} {s t : σ} {es : List (ι × σ)}
    (h : Run (Recorded step) s es t) : t ∈ visited s es := by
  cases h with
  | nil => exact List.mem_singleton_self s
  | snoc _ hlast =>
      rw [visited_snoc, hlast.2]
      exact List.mem_append_right _ (List.mem_singleton_self t)

/-- Every run can be recorded. -/
theorem Run.recorded {step : σ → ι → σ → Prop} {s t : σ} {ls : List ι} (h : Run step s ls t) :
    ∃ es : List (ι × σ), es.map Prod.fst = ls ∧ Run (Recorded step) s es t := by
  induction h with
  | nil => exact ⟨[], rfl, Run.nil⟩
  | @snoc ls l t u _ hlast ih =>
      obtain ⟨es, rfl, hes⟩ := ih
      refine ⟨es ++ [(l, u)], ?_, Run.snoc hes ⟨hlast, rfl⟩⟩
      rw [List.map_append, List.map_singleton]

section Visited

variable {step : σ → ι → σ → Prop} {ok : σ → ι → Prop} {R : σ → σ → Prop} {s t : σ}
  {es : List (ι × σ)}

/-- What every guarded step gives, and is reflexive and transitive, holds between any two
states of a guarded run. -/
theorem Run.pairwise_visited (hrefl : ∀ a, R a a) (htrans : ∀ a b c, R a b → R b c → R a c)
    (hstep : ∀ a l b, step a l b → ok a l → R a b)
    (h : Run (Guarded (fun a e => ok a e.1) (Recorded step)) s es t) :
    (visited s es).Pairwise R ∧ ∀ a ∈ visited s es, R a t := by
  induction h with
  | nil =>
      refine ⟨List.pairwise_singleton R s, fun a ha => ?_⟩
      rw [List.mem_singleton.mp ha]
      exact hrefl s
  | @snoc es e t u _ hlast ih =>
      obtain ⟨hok, hs, hu⟩ := hlast
      have htu : R t u := hstep t e.1 u hs hok
      have hall : ∀ a ∈ visited s es, R a u := fun a ha => htrans a t u (ih.2 a ha) htu
      rw [visited_snoc, hu]
      refine ⟨List.pairwise_append.mpr ⟨ih.1, List.pairwise_singleton R u, ?_⟩, ?_⟩
      · intro a ha b hb
        rw [List.mem_singleton.mp hb]
        exact hall a ha
      · intro a ha
        rcases List.mem_append.mp ha with ha | ha
        · exact hall a ha
        · rw [List.mem_singleton.mp ha]
          exact hrefl u

/-- **Once so, always so.**  If a step relates its two states exactly when it meets `ok`, and
the relation is reflexive and transitive, then it holds from each state of a run to every
later one exactly when each step of the run meets `ok`. -/
theorem pairwise_visited_iff_guarded (hrefl : ∀ a, R a a)
    (htrans : ∀ a b c, R a b → R b c → R a c)
    (hstep : ∀ a l b, step a l b → (R a b ↔ ok a l)) (h : Run (Recorded step) s es t) :
    (visited s es).Pairwise R ↔ Run (Guarded (fun a e => ok a e.1) (Recorded step)) s es t := by
  constructor
  · intro hall
    induction h with
    | nil => exact Run.nil
    | @snoc es e t u hrun hlast ih =>
        rw [visited_snoc, List.pairwise_append] at hall
        have htu : R t e.2 := hall.2.2 t hrun.last_mem_visited e.2 (List.mem_singleton_self _)
        rw [hlast.2] at htu
        exact Run.snoc (ih hall.1) ⟨(hstep t e.1 u hlast.1).mp htu, hlast⟩
  · intro hguarded
    exact (hguarded.pairwise_visited hrefl htrans fun a l b hs => (hstep a l b hs).mpr).1

end Visited

/-! ## Executions

A partial step function is a step relation, and its runs can be computed. -/

/-- A partial step function read as a step relation. -/
def ofOption (f : σ → ι → Option σ) : σ → ι → σ → Prop :=
  fun s l t => f s l = some t

/-- Running a list of labels through a partial step function, as long as each state
and label satisfies `ok`. -/
def exec (ok : σ → ι → Bool) (f : σ → ι → Option σ) (s : σ) : List ι → Option σ
  | [] => some s
  | l :: ls => if ok s l then (f s l).bind fun t => exec ok f t ls else none

/-- **A computed execution is a guarded run.** -/
theorem run_of_exec {ok : σ → ι → Bool} {f : σ → ι → Option σ} {ls : List ι} {s t : σ}
    (h : exec ok f s ls = some t) :
    Run (Guarded (fun s l => ok s l = true) (ofOption f)) s ls t := by
  induction ls generalizing s with
  | nil =>
      rw [exec, Option.some.injEq] at h
      rw [← h]
      exact Run.nil
  | cons l ls ih =>
      rw [exec] at h
      split at h
      · next hok =>
        rw [Option.bind_eq_some_iff] at h
        obtain ⟨u, hu, hrest⟩ := h
        exact Run.cons ⟨hok, hu⟩ (ih hrest)
      · cases h

/-- Steps may be replaced by steps they imply. -/
theorem Run.mono {step step' : σ → ι → σ → Prop} {s t : σ} {ls : List ι}
    (h : Run step s ls t) (himp : ∀ a l b, step a l b → step' a l b) :
    Run step' s ls t := by
  induction h with
  | nil => exact Run.nil
  | snoc _ hlast ih => exact Run.snoc ih (himp _ _ _ hlast)

end InfoKernel.Lib
