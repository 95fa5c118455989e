import InfoKernel.Task.Pipe

/-!
# Semaphores

`sem.cc`: `Sem::wait` and `Sem::signal`, called by any tasks.  What a call does between
`lock.lock()` and `lock.unlock()` is one step; a `wait` that finds no value blocks its
caller in that step, and returns in a step of its own when `Schedule()` comes back to the
caller, which it does only when the caller is in the run queue again.

The part of `wait` that puts the caller into `wait_queue` is commented out, and so is all
that `signal` does under its lock.  So a signal neither raises the value nor makes a task
ready, and a task that has blocked stays blocked (`waits_right_iff`).  What `signal` is for
is done in the runs in which nothing is left for it to do: it is called while no task is
blocked, and behind a call no `wait` finds the value used up.
-/

namespace InfoKernel.Task.Semaphore

open Lib
open Pipes (Sem)

/-- A semaphore and the tasks, with the number of waits that have returned and of
signals. -/
structure Sys (ι : Type*) where
  sem : Sem
  stat : ι → State
  /-- it is in the run queue -/
  queued : ι → Bool
  /-- it is in the `Schedule()` of a `wait` -/
  inSchedule : ι → Bool
  returned : Nat
  signals : Nat

/-- What happens next: a task calls `wait` or `signal`, or the `Schedule()` of its `wait`
returns. -/
inductive Act (ι : Type*) where
  | wait (t : ι)
  | signal (t : ι)
  | resume (t : ι)

variable {ι : Type*}

/-- The task can call. -/
def Sys.Free (s : Sys ι) (t : ι) : Prop := s.queued t = true ∧ s.inSchedule t = false

instance (s : Sys ι) (t : ι) : Decidable (s.Free t) :=
  inferInstanceAs (Decidable (_ ∧ _))

/-- A semaphore of the value `v`, and tasks that have not used it yet. -/
def Sys.init (v : Int) : Sys ι where
  sem := ⟨v⟩
  stat _ := .ready
  queued _ := true
  inSchedule _ := false
  returned := 0
  signals := 0

/-- No more waits have returned than the value and the signals allow, and as long as there
are fewer no task is blocked. -/
def Right (v : Int) (s : Sys ι) : Prop :=
  s.returned ≤ v + s.signals ∧ ((∃ t, s.stat t = .blocked) → ¬ s.returned < v + s.signals)

/-- Nothing is left for a signal to do: none is called while a task is blocked, and behind
the first one no `wait` finds the value used up. -/
def SignalsIdle (s : Sys ι) : Act ι → Prop
  | .wait _ => 0 < s.sem.value ∨ s.signals = 0
  | .signal _ => ∀ u, s.stat u ≠ .blocked
  | .resume _ => True

variable [DecidableEq ι]

/-- `current->stat = Blocked` and `Dequeue`, in front of the `Schedule()` of `wait`. -/
def Sys.block (s : Sys ι) (t : ι) : Sys ι :=
  { s with
    stat := Function.update s.stat t .blocked
    queued := Function.update s.queued t false
    inSchedule := Function.update s.inSchedule t true }

/-- One step, if it can be taken. -/
def step (s : Sys ι) : Act ι → Option (Sys ι)
  | .wait t =>
      if s.Free t then
        match s.sem.wait with
        | some sem => some { s with sem := sem, returned := s.returned + 1 }
        | none => some (s.block t)
      else none
  | .signal t =>
      if s.Free t then some { s with sem := s.sem.signal, signals := s.signals + 1 } else none
  | .resume t =>
      if s.queued t = true ∧ s.inSchedule t = true then
        some { s with
          inSchedule := Function.update s.inSchedule t false
          returned := s.returned + 1 }
      else none

/-! ## Every run -/

/-- What holds in every run: each wait that has returned has taken one from the value, and a
task is blocked when the value is used up, in `Schedule()` and out of the run queue. -/
structure Spent (v : Int) (s : Sys ι) : Prop where
  value : s.sem.value = v - s.returned
  nonneg : 0 ≤ s.sem.value
  blocked {t : ι} : s.stat t = .blocked →
    s.sem.value = 0 ∧ s.inSchedule t = true ∧ s.queued t = false
  inSchedule {t : ι} : s.inSchedule t = true → s.stat t = .blocked

variable {v : Int} {s s' : Sys ι}

omit [DecidableEq ι] in
theorem Spent.init (hv : 0 ≤ v) : Spent v (Sys.init v : Sys ι) where
  value := by simp [Sys.init]
  nonneg := hv
  blocked h := by cases h
  inSchedule h := by cases h

omit [DecidableEq ι] in
/-- No task comes back from the `Schedule()` of a `wait`. -/
theorem Spent.not_resume (h : Spent v s) (t : ι) :
    ¬ (s.queued t = true ∧ s.inSchedule t = true) := by
  rintro ⟨hq, hin⟩
  obtain ⟨-, -, hout⟩ := h.blocked (h.inSchedule hin)
  rw [hout] at hq
  cases hq

/-- What a step does: a wait takes one from the value, or blocks when there is none; a
signal is counted. -/
theorem Spent.step_cases (h : Spent v s) {a : Act ι} (hs : step s a = some s') :
    (∃ t, a = .wait t ∧ 0 < s.sem.value ∧
      s' = { s with sem := ⟨s.sem.value - 1⟩, returned := s.returned + 1 }) ∨
    (∃ t, a = .wait t ∧ s.sem.value = 0 ∧ s' = s.block t) ∨
    ∃ t, a = .signal t ∧ s' = { s with signals := s.signals + 1 } := by
  cases a with
  | wait t =>
      rw [step] at hs
      split at hs
      · by_cases hpos : 0 < s.sem.value
        · rw [Sem.wait, if_pos hpos] at hs
          exact .inl ⟨t, rfl, hpos, (Option.some.inj hs).symm⟩
        · rw [Sem.wait, if_neg hpos] at hs
          have hnonneg := h.nonneg
          exact .inr (.inl ⟨t, rfl, by omega, (Option.some.inj hs).symm⟩)
      · cases hs
  | signal t =>
      rw [step] at hs
      split at hs
      · exact .inr (.inr ⟨t, rfl, (Option.some.inj hs).symm⟩)
      · cases hs
  | resume t =>
      rw [step, if_neg (h.not_resume t)] at hs
      cases hs

theorem Spent.step {a : Act ι} (h : Spent v s) (hs : step s a = some s') : Spent v s' := by
  rcases h.step_cases hs with ⟨t, -, hpos, rfl⟩ | ⟨t, -, hzero, rfl⟩ | ⟨t, -, rfl⟩
  · refine ⟨?_, ?_, fun hb => ?_, h.inSchedule⟩
    · show s.sem.value - 1 = v - ((s.returned + 1 : Nat) : Int)
      have hvalue := h.value
      omega
    · show 0 ≤ s.sem.value - 1
      omega
    · have hzero := (h.blocked hb).1
      omega
  · refine ⟨h.value, h.nonneg, fun {u} hb => ?_, fun {u} hin => ?_⟩
    · by_cases hut : u = t
      · subst hut
        exact ⟨hzero, Function.update_self .., Function.update_self ..⟩
      · have hb : s.stat u = .blocked := by simpa [Sys.block, hut] using hb
        obtain ⟨-, hin, hout⟩ := h.blocked hb
        exact ⟨hzero, by simpa [Sys.block, hut] using hin, by simpa [Sys.block, hut] using hout⟩
    · by_cases hut : u = t
      · subst hut
        exact Function.update_self ..
      · have hin : s.inSchedule u = true := by simpa [Sys.block, hut] using hin
        simpa [Sys.block, hut] using h.inSchedule hin
  · exact ⟨h.value, h.nonneg, h.blocked, h.inSchedule⟩

/-- A step leaves a blocked task blocked. -/
theorem Spent.stays_blocked {a : Act ι} {u : ι} (h : Spent v s) (hs : Semaphore.step s a = some s')
    (hu : s.stat u = .blocked) : s'.stat u = .blocked := by
  rcases h.step_cases hs with ⟨t, -, -, rfl⟩ | ⟨t, -, -, rfl⟩ | ⟨t, -, rfl⟩
  · exact hu
  · by_cases hut : u = t
    · rw [hut]
      exact Function.update_self ..
    · simpa [Sys.block, hut] using hu
  · exact hu

/-! ## The runs in which the signals are idle -/

/-- The invariant of these runs: while a task is blocked there has been no signal. -/
def Idle (v : Int) (s : Sys ι) : Prop :=
  Spent v s ∧ ((∃ t, s.stat t = .blocked) → s.signals = 0)

omit [DecidableEq ι] in
theorem Idle.right (h : Idle v s) : Right v s := by
  obtain ⟨hspent, hidle⟩ := h
  have hvalue := hspent.value
  have hnonneg := hspent.nonneg
  refine ⟨by omega, ?_⟩
  rintro ⟨t, ht⟩
  have hzero := (hspent.blocked ht).1
  have hnone := hidle ⟨t, ht⟩
  omega

theorem Idle.step {a : Act ι} (h : Idle v s) (hok : SignalsIdle s a)
    (hs : Semaphore.step s a = some s') : Idle v s' := by
  obtain ⟨hspent, hidle⟩ := h
  refine ⟨hspent.step hs, ?_⟩
  rintro ⟨u, hu⟩
  rcases hspent.step_cases hs with ⟨t, -, hpos, rfl⟩ | ⟨t, rfl, hzero, rfl⟩ | ⟨t, rfl, rfl⟩
  · exact hidle ⟨u, hu⟩
  · exact hok.resolve_left (by omega)
  · exact absurd hu (hok u)

theorem Idle.not_right {a : Act ι} (h : Idle v s) (hno : ¬ SignalsIdle s a)
    (hs : Semaphore.step s a = some s') : ¬ Right v s' := by
  obtain ⟨hspent, -⟩ := h
  have hvalue := hspent.value
  rintro ⟨-, hright⟩
  rcases hspent.step_cases hs with ⟨t, rfl, hpos, -⟩ | ⟨t, rfl, hzero, rfl⟩ | ⟨t, rfl, rfl⟩
  · exact hno (.inl hpos)
  · have hsignals : s.signals ≠ 0 := fun hnone => hno (.inr hnone)
    refine hright ⟨t, Function.update_self ..⟩ ?_
    show (s.returned : Int) < v + s.signals
    omega
  · simp only [SignalsIdle, not_forall, not_not] at hno
    obtain ⟨u, hu⟩ := hno
    have hzero := (hspent.blocked hu).1
    refine hright ⟨u, hu⟩ ?_
    show (s.returned : Int) < v + ((s.signals + 1 : Nat) : Int)
    omega

/-- **A semaphore is right exactly while its signals are idle.**  In every run no more
waits return than the first value, whatever is signalled, and a task that has blocked is
blocked ever after. -/
theorem waits_right_iff {acts : List (Act ι)} {t : Sys ι} (hv : 0 ≤ v) :
    (Run (Keeping (Right v) (ofOption step)) (Sys.init v) acts t ↔
      Run (Guarded SignalsIdle (ofOption step)) (Sys.init v) acts t) ∧
    (Run (ofOption step) (Sys.init v) acts t → t.returned ≤ v ∧
      ∀ u, t.stat u = .blocked → ∀ acts' t', Run (ofOption step) t acts' t' →
        t'.stat u = .blocked) := by
  have hstart : Idle v (Sys.init v : Sys ι) :=
    ⟨Spent.init hv, fun ⟨u, hu⟩ => by cases hu⟩
  refine ⟨run_keeping_iff_guarded hstart (fun _ _ _ h hok hs => h.step hok hs)
    (fun _ h => h.right) (fun _ _ _ h hno hs => h.not_right hno hs), fun hrun => ?_⟩
  have hspent : Spent v t := hrun.invariant hstart.1 fun _ _ _ h hs => h.step hs
  refine ⟨?_, fun u hu acts' t' hrun' => ?_⟩
  · have hvalue := hspent.value
    have hnonneg := hspent.nonneg
    omega
  · have hboth : Spent v t' ∧ t'.stat u = .blocked :=
      hrun'.invariant (I := fun s => Spent v s ∧ s.stat u = .blocked) ⟨hspent, hu⟩
        fun _ _ _ h hs => ⟨h.1.step hs, h.1.stays_blocked hs h.2⟩
    exact hboth.2

/-- Two waits on a value of 2, and a signal. -/
theorem waits_right_iff_two :
    ∃ t : Sys Nat, Run (Keeping (Right 2) (ofOption step)) (Sys.init 2)
      [.wait 1, .wait 2, .signal 1] t := by
  refine ⟨_, (waits_right_iff (by decide)).1.mpr
    (Run.cons ⟨.inr rfl, rfl⟩ (Run.cons ⟨.inr rfl, rfl⟩ (Run.cons ⟨?_, rfl⟩ Run.nil)))⟩
  intro u hu
  cases hu

/-- **A signal does not release a task.**  Task 1 waits on a value of 0, as a reader of an
empty pipe does, and task 2 signals. -/
theorem signal_leaves_blocked :
    ¬ ∀ (v : Int), 0 ≤ v → ∀ (acts : List (Act Nat)) (t : Sys Nat),
      Run (ofOption step) (Sys.init v) acts t → Right v t := by
  intro hclaim
  have hrun : Run (ofOption step) (Sys.init 0) [.wait 1, .signal 2]
      { (Sys.init 0 : Sys Nat).block 1 with signals := 1 } :=
    Run.cons rfl (Run.cons rfl Run.nil)
  obtain ⟨-, hright⟩ := hclaim 0 (by decide) _ _ hrun
  exact hright ⟨1, rfl⟩ (by decide)

end InfoKernel.Task.Semaphore
