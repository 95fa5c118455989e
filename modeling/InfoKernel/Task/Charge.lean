import InfoKernel.Lib.Run
import InfoKernel.Task.Cfs

/-!
# What a tick charges

At every tick of the timer `UpdateClock(TIMER_PERIOD)` adds `TIMER_PERIOD * 1024 / weight` to the
vruntime of the task that runs, rounded down.  The remainder is dropped at each tick and kept
nowhere, so that after `n` ticks the task has been charged `n` times the rounded value and not the
rounded `n`-fold.

`div_le_mul_div_iff` is the arithmetic: the two agree as long as `n` remainders together stay below
the divisor.  `charged_iff` is what it means for the scheduler.  For the weights above
`TIMER_PERIOD * 1024`, those of the nice levels -20 to -11, the rounded value is 0, and the vruntime
of such a task does not move at all while it runs.
-/

namespace InfoKernel.Lib

/-- **Rounding each of `n` terms** gives the rounded sum exactly while the remainders together stay
below the divisor. -/
theorem div_le_mul_div_iff {a n w : Nat} (hw : 0 < w) :
    n * a / w ≤ n * (a / w) ↔ n * (a % w) < w := by
  have hsplit : n * a = w * (n * (a / w)) + n * (a % w) := by
    conv => lhs; rw [← Nat.div_add_mod a w]
    rw [Nat.mul_add, Nat.mul_left_comm]
  rw [hsplit, Nat.mul_add_div hw]
  constructor
  · intro h
    have hzero : n * (a % w) / w = 0 := Nat.eq_zero_of_le_zero (Nat.le_of_add_le_add_left h)
    exact (Nat.div_eq_zero_iff_lt hw).mp hzero
  · intro h
    rw [Nat.div_eq_of_lt h]
    exact Nat.le_refl _

end InfoKernel.Lib

namespace InfoKernel.Task.Cfs

open InfoKernel.Lib

/-- What happens to the scheduler, as far as the vruntime of one task is concerned: a tick of the
timer while the task runs, or something that changes neither its vruntime nor its weight. -/
inductive Moment where
  | tick
  | other
  deriving DecidableEq

/-- The steps of the scheduler for the task `p`. -/
def Charging (p : PcbId) (s : Sched) : Moment → Sched → Prop
  | .tick, s' => s.current = some p ∧ s.updateClock timerPeriod = .ok s'
  | .other, s' => s'.rq.vruntime p = s.rq.vruntime p ∧ s'.weight p = s.weight p

variable {s s' : Sched} {p : PcbId} {ms : List Moment} {nice : Int}

namespace Sched

/-- The divisor of a task whose weight `Nice2Weight` gave. -/
theorem divisor_of_nice (hw : s.weight p = nice2Weight nice) :
    s.divisor p = nice2Weight nice := by
  obtain ⟨hpos, hle⟩ := nice2Weight_bounds nice
  rw [divisor, hw, if_pos (Nat.pos_iff_ne_zero.mp hpos)]
  exact Nat.mod_eq_of_lt (Nat.lt_of_le_of_lt hle (by decide))

/-- A tick adds the rounded charge. -/
theorem updateClock_of_nice (hcur : s.current = some p) (hw : s.weight p = nice2Weight nice) :
    s.updateClock timerPeriod =
      .ok ({ s with clock := u64 (s.clock + timerPeriod) }.charge p timerPeriod
        (u64 (s.rq.vruntime p + timerPeriod * 1024 / nice2Weight nice))) := by
  have hdiv : { s with clock := u64 (s.clock + timerPeriod) }.divisor p = nice2Weight nice :=
    divisor_of_nice hw
  have hne : nice2Weight nice ≠ 0 := Nat.pos_iff_ne_zero.mp (nice2Weight_bounds nice).1
  rw [updateClock]
  split
  · next hnone => exact absurd (hnone.symm.trans hcur) (by simp)
  · next q hq =>
    have hqp : q = p := Option.some.inj (hq.symm.trans hcur)
    rw [hqp, updateVruntime, hdiv, if_neg hne]
    rfl

end Sched

/-- **The charge of a run.**  Every tick adds the same rounded number. -/
theorem vruntime_of_run (hrun : Run (Charging p) s ms s') (hw : s.weight p = nice2Weight nice)
    (hwrap : s.rq.vruntime p + ms.count .tick * (timerPeriod * 1024 / nice2Weight nice) < 2 ^ 64) :
    s'.rq.vruntime p =
        s.rq.vruntime p + ms.count .tick * (timerPeriod * 1024 / nice2Weight nice) ∧
      s'.weight p = nice2Weight nice := by
  induction hrun with
  | nil =>
      rw [List.count_nil, Nat.zero_mul]
      exact ⟨rfl, hw⟩
  | @snoc ms m a b _ hlast ih =>
      cases m with
      | tick =>
          have hcount : (ms ++ [Moment.tick]).count .tick = ms.count .tick + 1 :=
            List.count_append
          rw [hcount, Nat.add_mul, Nat.one_mul] at hwrap ⊢
          obtain ⟨hv, hwa⟩ :=
            ih (Nat.lt_of_le_of_lt (Nat.add_le_add_left (Nat.le_add_right _ _) _) hwrap)
          obtain ⟨hcur, hclock⟩ := hlast
          rw [Sched.updateClock_of_nice hcur hwa] at hclock
          injection hclock with hclock
          rw [← hclock]
          refine ⟨(Function.update_self ..).trans ?_, hwa⟩
          rw [hv, Nat.add_assoc, u64, Nat.mod_eq_of_lt hwrap]
      | other =>
          have hcount : (ms ++ [Moment.other]).count .tick = ms.count .tick := List.count_append
          rw [hcount] at hwrap ⊢
          obtain ⟨hv, hwa⟩ := ih hwrap
          exact ⟨hlast.1.trans hv, hlast.2.trans hwa⟩

/-- **When the charge keeps up.**  After `n` ticks the task has been charged at least what `n`
ticks are worth exactly as long as `n` remainders stay below its weight; and its vruntime has not
moved at all exactly when a tick is worth less than 1. -/
theorem charged_iff (hrun : Run (Charging p) s ms s') (hw : s.weight p = nice2Weight nice)
    (hwrap : s.rq.vruntime p + ms.count .tick * (timerPeriod * 1024) / nice2Weight nice < 2 ^ 64) :
    (s.rq.vruntime p + ms.count .tick * (timerPeriod * 1024) / nice2Weight nice ≤
        s'.rq.vruntime p ↔
      ms.count .tick * (timerPeriod * 1024 % nice2Weight nice) < nice2Weight nice) ∧
    (s'.rq.vruntime p = s.rq.vruntime p ↔
      ms.count .tick = 0 ∨ timerPeriod * 1024 < nice2Weight nice) := by
  obtain ⟨hpos, -⟩ := nice2Weight_bounds nice
  have hle : ms.count .tick * (timerPeriod * 1024 / nice2Weight nice) ≤
      ms.count .tick * (timerPeriod * 1024) / nice2Weight nice := Nat.mul_div_le_mul_div_assoc ..
  obtain ⟨hv, -⟩ :=
    vruntime_of_run hrun hw (Nat.lt_of_le_of_lt (Nat.add_le_add_left hle _) hwrap)
  rw [hv, Nat.add_le_add_iff_left, div_le_mul_div_iff hpos, Nat.add_eq_left, Nat.mul_eq_zero,
    Nat.div_eq_zero_iff_lt hpos]
  exact ⟨Iff.rfl, Iff.rfl⟩

/-- A task with a nice level that runs for a number of ticks. -/
theorem exists_run_ticks (hcur : s.current = some p) (hw : s.weight p = nice2Weight nice)
    (n : Nat) : ∃ s', Run (Charging p) s (List.replicate n .tick) s' := by
  induction n generalizing s with
  | zero => exact ⟨s, .nil⟩
  | succ n ih =>
      have hclock := Sched.updateClock_of_nice hcur hw
      obtain ⟨s', hrun⟩ := ih (s := { s with clock := u64 (s.clock + timerPeriod) }.charge p
        timerPeriod (u64 (s.rq.vruntime p + timerPeriod * 1024 / nice2Weight nice))) hcur hw
      exact ⟨s', hrun.cons ⟨hcur, hclock⟩⟩

/-- A scheduler that charges task 0, of a nice level. -/
def charging (nice : Int) : Sched where
  rq :=
    { links := ⟨fun _ _ => none, fun _ => none, none⟩
      isRed := fun _ => false
      vruntime := fun _ => 0
      leftmost := none
      minVruntime := 0 }
  weight := fun _ => nice2Weight nice
  sumExecRuntime := fun _ => 0
  nrRunning := 1
  totalWeight := nice2Weight nice
  current := some 0
  clock := 0

/-- At nice level 0 nothing is lost. -/
theorem charged_iff_zero : ∃ s', Run (Charging 0) (charging 0) (List.replicate 100 .tick) s' ∧
    1000 ≤ s'.rq.vruntime 0 := by
  have hw : (charging 0).weight 0 = nice2Weight 0 := rfl
  obtain ⟨s', hrun⟩ := exists_run_ticks (s := charging 0) rfl hw 100
  have hle := (charged_iff hrun hw (by decide +kernel)).1.mpr (by decide +kernel)
  have hworth : (charging 0).rq.vruntime 0 +
      (List.replicate 100 Moment.tick).count .tick *
        (timerPeriod * 1024) / nice2Weight 0 = 1000 := by
    decide +kernel
  rw [hworth] at hle
  exact ⟨s', hrun, hle⟩

/-- At nice level -20 nine ticks are worth 1, and charge nothing. -/
theorem not_charged_of_nice_low : ¬ ∀ (s s' : Sched) (p : PcbId) (nice : Int) (ms : List Moment),
    Run (Charging p) s ms s' → s.weight p = nice2Weight nice →
    s.rq.vruntime p + ms.count .tick * (timerPeriod * 1024) / nice2Weight nice < 2 ^ 64 →
    s.rq.vruntime p + ms.count .tick * (timerPeriod * 1024) / nice2Weight nice ≤
      s'.rq.vruntime p := by
  intro h
  have hw : (charging (-20)).weight 0 = nice2Weight (-20) := rfl
  obtain ⟨s', hrun⟩ := exists_run_ticks (s := charging (-20)) rfl hw 9
  have hle := h _ s' 0 (-20) _ hrun hw (by decide)
  obtain ⟨hv, -⟩ := vruntime_of_run hrun hw (by decide)
  rw [hv] at hle
  exact absurd hle (by decide)

end InfoKernel.Task.Cfs
