import InfoKernel.Lib.Run
import InfoKernel.Task.SchedQueue
import Mathlib.Algebra.Order.BigOperators.Group.List
import Mathlib.Algebra.Order.Ring.Nat

/-!
# The counters of the run queue

`nr_running` and `total_weight` are kept by `Enqueue`, `Dequeue` and `PickNextTask`.
`Enqueue` adds the task it links.  `Dequeue` subtracts the task it unlinks unless it is
dead, and `PickNextTask` makes up for that in part: for a dead task at the front of the
queue it lowers `nr_running`, but not `total_weight`, and for a dead task that calls
`Schedule` nothing is subtracted at all.

So both counters are right as long as no dead task is taken out of the queue
(`countersRight_iff_countSafe`): `MeetsDead` says when a `Schedule` does that.  They are too
large from the first `Exit` on (`exit_leaves_counters`).
-/

namespace InfoKernel.Task

open InfoKernel.Lib
open BinaryTree hiding node

namespace Cfs.Sched

variable {s s' : Sched} {t : BinaryTree PcbId} {p : PcbId} {fuel : Nat}

/-- `se.weight` once `Enqueue` has seen to it. -/
def enqueueWeight (s : Sched) (p : PcbId) : Nat := if s.weight p = 0 then 1024 else s.weight p

/-- The sum of the weights of some tasks. -/
def load (w : PcbId → Nat) (xs : List PcbId) : Nat := (xs.map w).sum

/-- The counters count the tasks `xs`. -/
structure Counts (s : Sched) (xs : List PcbId) : Prop where
  running : s.nrRunning = xs.length
  weight : s.totalWeight = load s.weight xs

/-- `Enqueue` counts the task in. -/
theorem enqueue_counts (hr : s.enqueue fuel .ready p = .ok s') :
    s'.nrRunning = u32 (s.nrRunning + 1) ∧
      s'.weight = Function.update s.weight p (s.enqueueWeight p) ∧
      s'.totalWeight = u64 (s.totalWeight + s.enqueueWeight p) := by
  rw [enqueue, if_pos (.inr rfl)] at hr
  unfold enqueueLive at hr
  have hnormal : ∃ s₁ : Sched, s₁ = (if s.rq.links.root ≠ none then s.normalizeVruntime p else s) ∧
      s₁.nrRunning = s.nrRunning ∧ s₁.weight = s.weight ∧ s₁.totalWeight = s.totalWeight := by
    refine ⟨_, rfl, ?_⟩
    split <;> exact ⟨rfl, rfl, rfl⟩
  obtain ⟨s₁, hs₁, hnr₁, hw₁, htw₁⟩ := hnormal
  rw [← hs₁] at hr
  have hweight : ∃ s₂ : Sched,
      s₂ = (if s₁.weight p = 0 then { s₁ with weight := Function.update s₁.weight p 1024 }
        else s₁) ∧ s₂.nrRunning = s.nrRunning ∧ s₂.totalWeight = s.totalWeight ∧
      s₂.weight = Function.update s.weight p (s.enqueueWeight p) := by
    refine ⟨_, rfl, ?_⟩
    rw [hw₁, enqueueWeight]
    split
    · exact ⟨hnr₁, htw₁, rfl⟩
    · exact ⟨hnr₁, htw₁, hw₁.trans (Function.update_eq_self p _).symm⟩
  obtain ⟨s₂, hs₂, hnr₂, htw₂, hw₂⟩ := hweight
  simp only [← hs₂] at hr
  rw [bind_eq_ok_iff] at hr
  obtain ⟨rq, -, hr⟩ := hr
  injection hr with hr
  rw [← hr]
  refine ⟨?_, hw₂, ?_⟩
  · show u32 (s₂.nrRunning + 1) = _
    rw [hnr₂]
  · show u64 (s₂.totalWeight + s₂.weight p) = _
    rw [htw₂, hw₂, Function.update_self]

/-- `Dequeue` counts the task out, unless it is dead. -/
theorem dequeue_counts {stat : State} (hr : s.dequeue fuel stat p = .ok s') :
    s'.weight = s.weight ∧
      (stat = .dead → s'.nrRunning = s.nrRunning ∧ s'.totalWeight = s.totalWeight) ∧
      (stat = .ready ∨ stat = .blocked → s'.nrRunning = sub32 s.nrRunning 1 ∧
        s'.totalWeight = sub64 s.totalWeight (s.weight p)) := by
  have hd := dequeue_dequeued hr
  refine ⟨hd.weight, fun hdead => hd.uncounted ?_, fun hlive => hd.counted (.inr hlive)⟩
  rw [hdead]
  simp

/-- `PickNextTask` lowers `nr_running` by the number of dead tasks it takes out, and leaves
`total_weight` as it is. -/
theorem pickNextTask_counts {stat : PcbId → State} {next : PcbId} (h : s.Queue t)
    (hlen : t.inorder.length ≤ s.nrRunning) (hlt : s.nrRunning < 2 ^ 32)
    (hr : s.pickNextTask fuel stat = .ok (s', some next)) :
    s'.weight = s.weight ∧ s'.totalWeight = s.totalWeight ∧
      s'.nrRunning + t.inorder.length = s.nrRunning + (skipDead stat t.inorder).length := by
  let J : Sched → List PcbId → Prop := fun s₁ xs => s₁.weight = s.weight ∧
    s₁.totalWeight = s.totalWeight ∧ xs.length ≤ t.inorder.length ∧
    s₁.nrRunning + t.inorder.length = s.nrRunning + xs.length
  have hstep : ∀ s₁ s₂ x xs, J s₁ (x :: xs) → stat x = .dead →
      s₁.dequeue fuel (stat x) x = .ok s₂ → s₂.rq.vruntime = s₁.rq.vruntime →
      J s₂.decNrRunning xs := by
    rintro s₁ s₂ x xs ⟨hw, htw, hle, hnr⟩ hdead hdeq -
    obtain ⟨hw₂, hsame, -⟩ := dequeue_counts hdeq
    obtain ⟨hnr₂, htw₂⟩ := hsame hdead
    rw [List.length_cons] at hle hnr
    refine ⟨hw₂.trans hw, htw₂.trans htw, by omega, ?_⟩
    show sub32 s₂.nrRunning 1 + _ = _
    rw [hnr₂, sub32, u32, u32]
    omega
  obtain ⟨s₁, t', hs', ⟨hw, htw, -, hnr⟩, -, hin, -⟩ :=
    pickNextTask_rule (J := J) h ⟨rfl, rfl, Nat.le_refl _, rfl⟩ hstep hr
  rw [hs', ← hin]
  exact ⟨hw, htw, hnr⟩

/-! ## Sums of weights -/

variable {w w' : PcbId → Nat} {xs ys : List PcbId}

theorem load_cons (w : PcbId → Nat) (x : PcbId) (xs : List PcbId) :
    load w (x :: xs) = w x + load w xs := by
  rw [load, List.map_cons, List.sum_cons]
  rfl

theorem load_congr (h : ∀ x ∈ xs, w' x = w x) : load w' xs = load w xs :=
  congrArg List.sum (List.map_congr_left h)

theorem load_perm (h : xs.Perm ys) : load w xs = load w ys := (h.map w).sum_eq

theorem load_erase (h : p ∈ xs) : load w (xs.erase p) + w p = load w xs := by
  rw [load_perm (List.perm_cons_erase h), load_cons, Nat.add_comm]

theorem load_sublist (h : xs.Sublist ys) : load w xs ≤ load w ys :=
  (h.map w).sum_le_sum fun _ _ => Nat.zero_le _

theorem load_le {m : Nat} (h : ∀ x ∈ xs, w x ≤ m) : load w xs ≤ xs.length * m := by
  have hle := List.sum_le_card_nsmul (xs.map w) m fun v hv => by
    obtain ⟨x, hx, rfl⟩ := List.mem_map.mp hv
    exact h x hx
  rwa [List.length_map, nsmul_eq_mul, Nat.cast_id] at hle

theorem length_skipDead_le (stat : PcbId → State) (xs : List PcbId) :
    (skipDead stat xs).length ≤ xs.length := (List.dropWhile_sublist _).length_le

/-- A list without its first tasks, the first of them dead, is a smaller load. -/
theorem load_skipDead_lt {stat : PcbId → State} {d : PcbId} (hd : stat d = .dead) (hpos : 0 < w d) :
    load w (skipDead stat (d :: xs)) < load w (d :: xs) := by
  have hle : load w (skipDead stat xs) ≤ load w xs := load_sublist (List.dropWhile_sublist _)
  rw [skipDead_cons_of_dead hd, load_cons]
  omega

/-- A list that does not begin with a dead task stays as it is. -/
theorem skipDead_of_head {stat : PcbId → State} (h : ∀ d, xs.head? = some d → stat d ≠ .dead) :
    skipDead stat xs = xs := by
  cases xs with
  | nil => rfl
  | cons d xs => exact skipDead_cons_of_ne (h d rfl)

/-- An insertion makes a permutation of the new task and the old ones. -/
theorem Inserted.perm {n : Nat} {c : Ctx PcbId} {t' : BinaryTree PcbId}
    (h : s.Inserted t p n c s' t') : t'.inorder.Perm (p :: t.inorder) := by
  rw [h.inorder, h.hole, inorder_plug, inorder_nil, List.append_nil]
  exact List.perm_middle

end Cfs.Sched

/-! ## The calls -/

namespace Kernel

open Cfs (nice2Weight nice2Weight_bounds)
open Cfs.Sched (load load_cons load_congr load_perm load_erase load_sublist load_le skipDead)

variable {k k' : Kernel} {t : BinaryTree PcbId} {p prev : PcbId} {fuel : Nat}

/-- `Exit`, as far as the scheduler sees it. -/
def exit (k : Kernel) (fuel : Nat) : Except Fault Kernel :=
  match k.currentProc with
  | none => .error .nullDeref
  | some cur => (k.kill cur).schedule fuel

/-- The calls of the scheduler, and `Exit`. -/
inductive Act where
  | call (op : Op)
  | exit
  deriving DecidableEq, Repr

/-- Whether a call may be made: as before, but a dead task may block. -/
def Permitted (k : Kernel) : Act → Prop
  | .call .block => k.currentProc ≠ none
  | .call op => k.Allowed op
  | .exit => k.currentProc ≠ none

/-- The calls, with fuel for their loops. -/
def act (k : Kernel) (fuel : Nat) : Act → Except Fault Kernel
  | .call op => k.call fuel op
  | .exit => k.exit fuel

/-- A step: a permitted call that returns, whatever fuel it takes. -/
def atomic (k : Kernel) (a : Act) (k' : Kernel) : Prop :=
  k.Permitted a ∧ ∃ fuel, k.act fuel a = .ok k'

/-- The counters count the linked tasks, and there is something to subtract for each of
them. -/
def CountersRight (k : Kernel) : Prop :=
  ∀ t, k.sched.rq.links.Represents t →
    k.sched.nrRunning = t.inorder.length ∧
    k.sched.totalWeight = (t.inorder.map k.sched.weight).sum ∧
    ∀ x ∈ t.inorder, 0 < k.sched.nrRunning ∧ k.sched.weight x ≤ k.sched.totalWeight

/-- `Schedule`, called by `prev`, takes a dead task out of the queue: `prev` itself, or the
first task when the queue has been updated for `prev`. -/
def MeetsDead (k : Kernel) (prev : PcbId) : Prop :=
  k.pcbs.stat prev = .dead ∨ ∃ fuel k₁ d, k.requeue fuel prev = .ok k₁ ∧
    k₁.sched.firstTask = some d ∧ k₁.pcbs.stat d = .dead

/-- A task is added when the number of tasks still fits, and `Schedule` meets no dead
task. -/
def CountSafe (k : Kernel) : Act → Prop
  | .call (.fork _ _ _) => ∀ t, k.sched.rq.links.Represents t → t.inorder.length + 1 < 2 ^ 32
  | .call (.wake _) => ∀ t, k.sched.rq.links.Represents t → t.inorder.length + 1 < 2 ^ 32
  | .call .schedule => ∀ prev, k.currentProc = some prev → ¬ k.MeetsDead prev
  | .call .block => ∀ prev, k.currentProc = some prev → ¬ (k.setBlocked prev).MeetsDead prev
  | .exit => False
  | _ => True

/-- The kernel before `InitIdle`, with a new scheduler. -/
structure Start (k : Kernel) : Prop where
  init : k.Init
  running : k.sched.nrRunning = 0
  weight : k.sched.totalWeight = 0

/-- The run queue between two calls, with its counters. -/
structure Balanced (k : Kernel) (t : BinaryTree PcbId) : Prop where
  queued : k.Queued t
  counts : k.sched.Counts t.inorder
  lt : t.inorder.length < 2 ^ 32
  pos : ∀ x ∈ k.tasks, 0 < k.sched.weight x
  le : ∀ x ∈ k.tasks, k.sched.weight x ≤ 88761

namespace Balanced

theorem right (h : k.Balanced t) : k.CountersRight := by
  intro u hu
  rw [hu.unique h.queued.queue.represents]
  refine ⟨h.counts.running, h.counts.weight, fun x hx => ⟨?_, ?_⟩⟩
  · rw [h.counts.running]
    exact List.length_pos_of_mem hx
  · rw [h.counts.weight, ← load_erase hx]
    exact Nat.le_add_left _ _

/-- No more weight than the counter can hold, with room for one more task. -/
theorem weight_lt (h : k.Balanced t) : k.sched.totalWeight + 88761 < 2 ^ 64 := by
  have hle := load_le fun x hx => h.le x (h.queued.tasks x hx)
  have hlt := h.lt
  rw [← h.counts.weight] at hle
  have hmul : t.inorder.length * 88761 ≤ 2 ^ 32 * 88761 := Nat.mul_le_mul_right _ hlt.le
  omega

/-- The control blocks do not count. -/
theorem of_pcbs (h : k.Balanced t) (T : PcbTable) : ({ k with pcbs := T } : Kernel).Balanced t :=
  ⟨⟨h.queued.queue, h.queued.current, h.queued.mem, h.queued.empty, h.queued.tasks⟩,
    ⟨h.counts.running, h.counts.weight⟩, h.lt, h.pos, h.le⟩

end Balanced

theorem Start.balanced (h : k.Start) : k.Balanced nil where
  queued := h.init.queued
  counts := ⟨h.running, h.weight⟩
  lt := by decide
  pos x hx := by
    rw [h.init.tasks] at hx
    cases hx
  le x hx := by
    rw [h.init.tasks] at hx
    cases hx

/-! ### Adding a task -/

/-- **A task is added**: a new one, or one that wakes up.  `s₀` is the scheduler before
`Enqueue`. -/
theorem Balanced.added {n : Nat} {c : Ctx PcbId} {t' : BinaryTree PcbId}
    (h : k.Balanced t) (s₀ : Cfs.Sched) (hq : k'.Queued t') (hout : p ∉ t.inorder)
    (hins : k.sched.Inserted t p n c k'.sched t') (hnr : s₀.nrRunning = k.sched.nrRunning)
    (htw : s₀.totalWeight = k.sched.totalWeight)
    (hw : ∀ x, x ≠ p → s₀.weight x = k.sched.weight x)
    (hpos : 0 < s₀.weight p) (hle : s₀.weight p ≤ 88761)
    (hr : s₀.enqueue fuel .ready p = .ok k'.sched)
    (htasks : ∀ x ∈ k'.tasks, x = p ∨ x ∈ k.tasks) :
    (t.inorder.length + 1 < 2 ^ 32 → k'.Balanced t') ∧
      (¬ t.inorder.length + 1 < 2 ^ 32 → ¬ k'.CountersRight) := by
  obtain ⟨hnr', hw', htw'⟩ := Cfs.Sched.enqueue_counts hr
  have hkey : s₀.enqueueWeight p = s₀.weight p := if_neg (by omega)
  have hself : k'.sched.weight = s₀.weight := by
    rw [hw', hkey, Function.update_eq_self]
  have hlen : t'.inorder.length = t.inorder.length + 1 := hins.perm.length_eq
  rw [hnr, h.counts.running] at hnr'
  refine ⟨fun hlt => ⟨hq, ⟨?_, ?_⟩, by omega, fun x hx => ?_, fun x hx => ?_⟩,
    fun hfull hright => ?_⟩
  · rw [hnr', hlen]
    exact Nat.mod_eq_of_lt hlt
  · have hfit := h.weight_lt
    have hrest : load s₀.weight t.inorder = k.sched.totalWeight := by
      rw [h.counts.weight]
      exact load_congr fun x hx => hw x fun hxp => hout (hxp ▸ hx)
    rw [htw', htw, hkey, hself, load_perm hins.perm, load_cons, hrest, u64,
      Nat.mod_eq_of_lt (by omega),
      Nat.add_comm]
  · rw [hself]
    rcases htasks x hx with rfl | hx
    · exact hpos
    · by_cases hxp : x = p
      · rw [hxp]
        exact hpos
      · rw [hw x hxp]
        exact h.pos x hx
  · rw [hself]
    rcases htasks x hx with rfl | hx
    · exact hle
    · by_cases hxp : x = p
      · rw [hxp]
        exact hle
      · rw [hw x hxp]
        exact h.le x hx
  · have hlt := h.lt
    have hcount := (hright t' hq.queue.represents).1
    have hzero : u32 (t.inorder.length + 1) = 0 := by
      have heq : t.inorder.length + 1 = 2 ^ 32 := by omega
      rw [heq]
      rfl
    rw [hnr', hzero, hlen] at hcount
    omega

/-! ### `Schedule` -/

theorem dequeue_steady (s : Cfs.Sched) (st : State) (p : PcbId) :
    Steady fun n => s.dequeue n st p :=
  (Cfs.Rq.rbErase_steady _ _).bind fun _ => Steady.const _

theorem enqueue_steady (s : Cfs.Sched) (st : State) (p : PcbId) :
    Steady fun n => s.enqueue n st p := by
  refine Steady.ite _ ?_ (Steady.const _)
  exact (Cfs.Rq.rbInsert_steady _ _).bind fun _ => Steady.const _

theorem requeue_steady (k : Kernel) (prev : PcbId) : Steady fun n => k.requeue n prev := by
  refine Steady.ite _ ?_ ?_
  · exact (dequeue_steady _ _ _).bind fun _ => Steady.const _
  · exact (dequeue_steady _ _ _).bind fun _ =>
      (enqueue_steady _ _ _).bind fun _ => Steady.const _

/-- The counters when a live task has been counted out. -/
theorem Balanced.dequeued {s : Cfs.Sched} {st : State} (h : k.Balanced t)
    (hprev : prev ∈ t.inorder) (hst : st = .ready ∨ st = .blocked)
    (hr : k.sched.dequeue fuel st prev = .ok s) :
    s.weight = k.sched.weight ∧ s.Counts (t.inorder.erase prev) := by
  obtain ⟨hw, -, hlive⟩ := Cfs.Sched.dequeue_counts hr
  obtain ⟨hnr, htw⟩ := hlive hst
  have hlen := List.length_erase_of_mem hprev
  have hpos := List.length_pos_of_mem hprev
  have hlt := h.lt
  have hfit := h.weight_lt
  have hload := load_erase (w := k.sched.weight) hprev
  rw [← h.counts.weight] at hload
  refine ⟨hw, ⟨?_, ?_⟩⟩
  · rw [hnr, h.counts.running, hlen, sub32, u32, u32]
    omega
  · rw [htw, hw, sub64, u64, u64]
    omega

/-- **The run queue is updated for `prev`**: a dead task is left in both counters. -/
theorem Balanced.requeued (h : k.Balanced t) (hprev : prev ∈ t.inorder)
    (hr : k.requeue fuel prev = .ok k') :
    k'.sched.weight = k.sched.weight ∧ ∃ t₁, k'.sched.Queue t₁ ∧
      t₁.inorder.length ≤ t.inorder.length ∧ (∀ x ∈ t₁.inorder, x ∈ t.inorder) ∧
      (k.pcbs.stat prev ≠ .dead → k'.sched.Counts t₁.inorder) ∧
      (k.pcbs.stat prev = .dead → k'.sched.nrRunning = t.inorder.length ∧
        t₁.inorder.length + 1 = t.inorder.length) := by
  have hnodup := h.queued.queue.represents.nodup
  have hlen := List.length_erase_of_mem hprev
  have hpos := List.length_pos_of_mem hprev
  rw [requeue] at hr
  split at hr
  · next hoff =>
    rw [bind_eq_ok_iff] at hr
    obtain ⟨s, hdeq, hr⟩ := hr
    injection hr with hr
    obtain ⟨t₁, hq, hin, -⟩ := Cfs.Sched.dequeue_queue h.queued.queue hprev hdeq
    rw [← hr]
    have hlen₁ : t₁.inorder.length + 1 = t.inorder.length := by
      rw [hin, hlen]
      omega
    refine ⟨(Cfs.Sched.dequeue_counts hdeq).1, t₁, hq, by omega, fun x hx => ?_, fun hlive => ?_,
      fun hdead => ⟨?_, hlen₁⟩⟩
    · rw [hin] at hx
      exact List.mem_of_mem_erase hx
    · have hblocked := hoff.resolve_left hlive
      rw [hblocked] at hdeq
      rw [hin]
      exact (h.dequeued hprev (.inr rfl) hdeq).2
    · obtain ⟨-, hsame, -⟩ := Cfs.Sched.dequeue_counts hdeq
      show s.nrRunning = _
      rw [(hsame hdead).1, h.counts.running]
  · next hon =>
    rw [bind_eq_ok_iff] at hr
    obtain ⟨s₀, hdeq, hr⟩ := hr
    rw [bind_eq_ok_iff] at hr
    obtain ⟨s, henq, hr⟩ := hr
    injection hr with hr
    obtain ⟨t₀, hq, hin, -⟩ := Cfs.Sched.dequeue_queue h.queued.queue hprev hdeq
    have hout : prev ∉ t₀.inorder := by
      rw [hin]
      exact hnodup.not_mem_erase
    obtain ⟨c, t₁, hins⟩ := Cfs.Sched.enqueue_inserted hq hout henq
    obtain ⟨hw₀, hcounts⟩ := h.dequeued hprev (.inl rfl) hdeq
    obtain ⟨hnr, hw, htw⟩ := Cfs.Sched.enqueue_counts henq
    have hkey : s₀.enqueueWeight prev = k.sched.weight prev := by
      have hne := h.pos prev (h.queued.tasks prev hprev)
      rw [Cfs.Sched.enqueueWeight, hw₀]
      exact if_neg (by omega)
    have hself : s.weight = k.sched.weight := by
      rw [hw, hkey, hw₀, Function.update_eq_self]
    have hperm : t₁.inorder.Perm t.inorder := by
      refine hins.perm.trans ?_
      rw [hin]
      exact (List.perm_cons_erase hprev).symm
    rw [← hr]
    refine ⟨hself, t₁, hins.queue, hperm.length_eq.le, fun x hx => hperm.mem_iff.mp hx,
      fun _ => ⟨?_, ?_⟩, fun hdead => absurd (.inl hdead) hon⟩
    · show s.nrRunning = _
      have hlt := h.lt
      rw [hnr, hcounts.running, hlen, hperm.length_eq, Nat.sub_add_cancel hpos]
      exact Nat.mod_eq_of_lt hlt
    · show s.totalWeight = load s.weight _
      have hfit := h.weight_lt
      rw [htw, hkey, hcounts.weight, hw₀, load_erase hprev, hself, load_perm hperm,
        ← h.counts.weight]
      exact Nat.mod_eq_of_lt (by omega)

/-- **`Schedule`** keeps the counters right exactly when it meets no dead task. -/
theorem Balanced.schedule (h : k.Balanced t) (hprev : k.currentProc = some prev)
    (hr : k.schedule fuel = .ok k') :
    (¬ k.MeetsDead prev → ∃ t', k'.Balanced t') ∧ (k.MeetsDead prev → ¬ k'.CountersRight) := by
  obtain ⟨t', hsch, hq'⟩ := h.queued.schedule hprev hr
  obtain ⟨-, htasks, -⟩ := hsch.frame
  have hmem := h.queued.mem prev hprev
  rw [Kernel.schedule.eq_def, hprev] at hr
  simp only at hr
  rw [bind_eq_ok_iff] at hr
  obtain ⟨k₁, hreq, hr⟩ := hr
  rw [bind_eq_ok_iff] at hr
  obtain ⟨⟨s, n⟩, hpick, hr⟩ := hr
  cases n with
  | none => cases hr
  | some next =>
      injection hr with hr
      obtain ⟨hw₁, t₁, hq₁, hlen₁, hsub, hlive, hdead⟩ := h.requeued hmem hreq
      have hlt := h.lt
      have hnr₁ : t₁.inorder.length ≤ k₁.sched.nrRunning ∧ k₁.sched.nrRunning < 2 ^ 32 := by
        by_cases hst : k.pcbs.stat prev = .dead
        · obtain ⟨hnr, hlen⟩ := hdead hst
          omega
        · rw [(hlive hst).running]
          exact ⟨Nat.le_refl _, by omega⟩
      obtain ⟨t₂, hq₂, hin₂, -⟩ := Cfs.Sched.pickNextTask_queue hq₁ hpick
      obtain ⟨hw, htw, hnr⟩ := Cfs.Sched.pickNextTask_counts hq₁ hnr₁.1 hnr₁.2 hpick
      have hsched : k'.sched = s := by
        rw [← hr]
        exact switchTo_sched _ _ _
      have htree : t' = t₂ := by
        have hrep := hq'.queue.represents
        rw [hsched] at hrep
        exact hrep.unique hq₂.represents
      rw [← hin₂, ← htree, ← hsched] at hnr
      rw [← hsched] at hw htw
      rw [← htree] at hin₂
      refine ⟨fun hmeet => ⟨t', hq', ?_, ?_, ?_, ?_⟩, fun hmeet hright => ?_⟩
      · have hst : k.pcbs.stat prev ≠ .dead := fun hst => hmeet (.inl hst)
        have hsame : t'.inorder = t₁.inorder := by
          rw [hin₂]
          refine Cfs.Sched.skipDead_of_head fun d hfront hd => hmeet (.inr ⟨_, _, d, hreq, ?_, hd⟩)
          rw [Cfs.Sched.firstTask, hq₁.leftmost, hfront]
        have hcounts := hlive hst
        refine ⟨?_, ?_⟩
        · rw [hsame] at hnr ⊢
          rw [← hcounts.running]
          omega
        · rw [htw, hw, hsame]
          exact hcounts.weight
      · have hle : t'.inorder.length ≤ t₁.inorder.length := by
          rw [hin₂]
          exact Cfs.Sched.length_skipDead_le _ _
        omega
      · rw [htasks, hw, hw₁]
        exact h.pos
      · rw [htasks, hw, hw₁]
        exact h.le
      · obtain ⟨hcount, hweight, -⟩ := hright t' hq'.queue.represents
        by_cases hst : k.pcbs.stat prev = .dead
        · obtain ⟨hnr', hlen⟩ := hdead hst
          omega
        · obtain ⟨fuel', k₁', d, hreq', hfirst, hd⟩ := hmeet.resolve_left hst
          rw [(requeue_steady k prev).unique hreq' hreq, Cfs.Sched.firstTask,
            hq₁.leftmost] at hfirst
          rw [(requeue_steady k prev).unique hreq' hreq] at hd
          obtain ⟨xs, hxs⟩ := List.head?_eq_some_iff.mp hfirst
          have hd' : d ∈ t₁.inorder := by
            rw [hxs]
            exact List.mem_cons_self
          have hpos : 0 < k₁.sched.weight d := by
            rw [hw₁]
            exact h.pos d (h.queued.tasks d (hsub d hd'))
          have hless : load k₁.sched.weight (skipDead k₁.pcbs.stat (d :: xs)) <
              load k₁.sched.weight (d :: xs) := Cfs.Sched.load_skipDead_lt hd hpos
          rw [← hxs, ← hin₂, ← (hlive hst).weight, ← htw, ← hw] at hless
          exact absurd hweight (Nat.ne_of_gt hless)

/-! ### The steps -/

/-- `InitIdle` starts the counters. -/
theorem Balanced.initIdle (h : k.Balanced t) (hcur : k.currentProc = none) {idle : PcbId}
    (hr : k.initIdle fuel idle = .ok k') : ∃ t', k'.Balanced t' := by
  obtain ⟨-, t', -, hq', -⟩ := h.queued.initIdle hcur hr
  obtain rfl := h.queued.empty hcur
  rw [Kernel.initIdle, bind_eq_ok_iff] at hr
  obtain ⟨s, henq, hr⟩ := hr
  injection hr with hr
  have hs : k'.sched = s := by rw [← hr]
  have hlinks : ∀ x, x ≠ idle →
      (∀ d, (k.sched.clearEntity idle).rq.links.child d x = k.sched.rq.links.child d x) ∧
        (k.sched.clearEntity idle).rq.links.parent x = k.sched.rq.links.parent x :=
    fun x hx => ⟨fun d => Function.update_of_ne hx _ _, Function.update_of_ne hx _ _⟩
  obtain ⟨c, t'', hins⟩ := initEntity_inserted h.queued.queue (by simp)
    (rfl : (k.sched.clearEntity idle).rq.links.root = _) rfl rfl rfl hlinks ⟨_, rfl⟩ henq
  rw [← hs] at hins henq
  have htree : t'' = t' := hins.queue.represents.unique hq'.queue.represents
  rw [htree] at hins
  have hweight : ((k.sched.clearEntity idle).initEntity idle 19).weight idle = nice2Weight 19 :=
    Function.update_self _ _ _
  refine ⟨t', (h.added ((k.sched.clearEntity idle).initEntity idle 19) hq' (by simp) hins rfl rfl
    (fun x hx => ?_) ?_ ?_ henq fun x hx => ?_).1 (by simp)⟩
  · show Function.update (Function.update k.sched.weight idle 0) idle _ x = _
    rw [Function.update_of_ne hx, Function.update_of_ne hx]
  · rw [hweight]
    exact (nice2Weight_bounds 19).1
  · rw [hweight]
    exact (nice2Weight_bounds 19).2
  · rw [← hr] at hx
    exact List.mem_cons.mp hx

/-- `Fork` adds its child. -/
theorem Balanced.fork (h : k.Balanced t) {child : PcbId} {flags : Nat} {nice : Int}
    {c : Ctx PcbId} {n : Nat} {t' : BinaryTree PcbId} (hq' : k'.Queued t')
    (hout : child ∉ t.inorder) (hins : k.sched.Inserted t child n c k'.sched t')
    (hr : k.fork fuel child flags nice = .ok k') :
    (t.inorder.length + 1 < 2 ^ 32 → k'.Balanced t') ∧
      (¬ t.inorder.length + 1 < 2 ^ 32 → ¬ k'.CountersRight) := by
  have hbounds := nice2Weight_bounds nice
  rw [Kernel.fork, bind_eq_ok_iff] at hr
  obtain ⟨s, henq, hr⟩ := hr
  injection hr with hr
  have hcopy : (k.copyCurrent child).sched.nrRunning = k.sched.nrRunning ∧
      (k.copyCurrent child).sched.totalWeight = k.sched.totalWeight ∧
      (∀ x, x ≠ child → (k.copyCurrent child).sched.weight x = k.sched.weight x) ∧
      (k.copyCurrent child).tasks = k.tasks := by
    rw [copyCurrent]
    split
    · exact ⟨rfl, rfl, fun x hx => Function.update_of_ne hx _ _, rfl⟩
    · exact ⟨rfl, rfl, fun x hx => Function.update_of_ne hx _ _, rfl⟩
  obtain ⟨hnr, htw, hw, htasks⟩ := hcopy
  have hs : s = k'.sched := by rw [← hr]
  have hweight : ((k.copyCurrent child).sched.initEntity child nice).weight child =
      nice2Weight nice := Function.update_self _ _ _
  rw [hs] at henq
  refine h.added ((k.copyCurrent child).sched.initEntity child nice) hq' hout hins hnr htw
    (fun x hx => ?_) ?_ ?_ henq fun x hx => ?_
  · show Function.update (k.copyCurrent child).sched.weight child _ x = _
    rw [Function.update_of_ne hx, hw x hx]
  · rw [hweight]
    exact hbounds.1
  · rw [hweight]
    exact hbounds.2
  · rw [← hr] at hx
    rw [← htasks]
    exact List.mem_cons.mp hx

/-- A wake-up adds its task. -/
theorem Balanced.wake (h : k.Balanced t) {c : Ctx PcbId} {n : Nat} {t' : BinaryTree PcbId}
    (hq' : k'.Queued t') (hp : p ∈ k.tasks) (hout : p ∉ t.inorder)
    (hins : k.sched.Inserted t p n c k'.sched t') (hr : k.wake fuel p = .ok k') :
    (t.inorder.length + 1 < 2 ^ 32 → k'.Balanced t') ∧
      (¬ t.inorder.length + 1 < 2 ^ 32 → ¬ k'.CountersRight) := by
  rw [Kernel.wake, bind_eq_ok_iff] at hr
  obtain ⟨s, henq, hr⟩ := hr
  injection hr with hr
  have hs : s = k'.sched := by rw [← hr]
  rw [hs] at henq
  refine h.added k.sched hq' hout hins rfl rfl (fun _ _ => rfl) (h.pos p hp) (h.le p hp) henq
    fun x hx => ?_
  rw [← hr] at hx
  exact .inr hx

/-- The timer counts nothing. -/
theorem Balanced.tick (h : k.Balanced t) {delta : Nat} (hq' : k'.Queued t)
    (hr : k.tick delta = .ok k') : k'.Balanced t := by
  rw [Kernel.tick, bind_eq_ok_iff] at hr
  obtain ⟨s, hclock, hr⟩ := hr
  injection hr with hr
  have hsame : s.nrRunning = k.sched.nrRunning ∧ s.totalWeight = k.sched.totalWeight ∧
      s.weight = k.sched.weight := by
    rw [Cfs.Sched.updateClock] at hclock
    split at hclock
    · injection hclock with hclock
      rw [← hclock]
      exact ⟨rfl, rfl, rfl⟩
    · rw [Cfs.Sched.updateVruntime] at hclock
      split at hclock
      · cases hclock
      · injection hclock with hclock
        rw [← hclock]
        exact ⟨rfl, rfl, rfl⟩
  obtain ⟨hnr, htw, hw⟩ := hsame
  rw [← hr] at hq' ⊢
  refine ⟨hq', ⟨hnr.trans h.counts.running, ?_⟩, h.lt, ?_, ?_⟩
  · show s.totalWeight = load s.weight _
    rw [htw, hw]
    exact h.counts.weight
  · show ∀ x ∈ k.tasks, 0 < s.weight x
    rw [hw]
    exact h.pos
  · show ∀ x ∈ k.tasks, s.weight x ≤ 88761
    rw [hw]
    exact h.le

/-- A `Schedule` that is allowed to meet no dead task. -/
theorem Balanced.scheduled (h : k.Balanced t) (hcur : k.currentProc ≠ none)
    (hr : k.schedule fuel = .ok k') :
    ((∀ prev, k.currentProc = some prev → ¬ k.MeetsDead prev) → ∃ t', k'.Balanced t') ∧
      (¬ (∀ prev, k.currentProc = some prev → ¬ k.MeetsDead prev) → ¬ k'.CountersRight) := by
  obtain ⟨prev, hprev⟩ := Option.ne_none_iff_exists'.mp hcur
  obtain ⟨hgood, hbad⟩ := h.schedule hprev hr
  refine ⟨fun hsafe => hgood (hsafe prev hprev), fun hunsafe => hbad ?_⟩
  refine Classical.byContradiction fun hno => hunsafe fun prev' hprev' => ?_
  rw [hprev, Option.some.injEq] at hprev'
  rw [← hprev']
  exact hno

/-- **The step lemma**, in both directions. -/
theorem Balanced.step (h : k.Balanced t) {a : Act} (hs : k.atomic a k') :
    (k.CountSafe a → ∃ t', k'.Balanced t') ∧ (¬ k.CountSafe a → ¬ k'.CountersRight) := by
  obtain ⟨ha, fuel, hr⟩ := hs
  have hroom : ∀ {t' : BinaryTree PcbId},
      (t.inorder.length + 1 < 2 ^ 32 → k'.Balanced t') ∧
        (¬ t.inorder.length + 1 < 2 ^ 32 → ¬ k'.CountersRight) →
      ((∀ u, k.sched.rq.links.Represents u → u.inorder.length + 1 < 2 ^ 32) →
        ∃ t', k'.Balanced t') ∧
      (¬ (∀ u, k.sched.rq.links.Represents u → u.inorder.length + 1 < 2 ^ 32) →
        ¬ k'.CountersRight) := by
    rintro t' ⟨hgood, hbad⟩
    refine ⟨fun hsafe => ⟨t', hgood (hsafe t h.queued.queue.represents)⟩, fun hunsafe => hbad ?_⟩
    intro hlt
    refine hunsafe fun u hu => ?_
    rwa [hu.unique h.queued.queue.represents]
  cases a with
  | exit =>
      refine ⟨fun hsafe => hsafe.elim, fun _ => ?_⟩
      obtain ⟨prev, hprev⟩ := Option.ne_none_iff_exists'.mp ha
      rw [act, Kernel.exit, hprev] at hr
      have hk : (k.kill prev).Balanced t := h.of_pcbs _
      exact (hk.schedule hprev hr).2 (.inl (by simp [Kernel.kill, PcbTable.setStat_stat]))
  | call op =>
      cases op with
      | initIdle idle =>
          exact ⟨fun _ => h.initIdle ha.1 hr, fun hunsafe => absurd trivial hunsafe⟩
      | fork child flags nice =>
          have hs : Kernel.step k (.fork child flags nice) k' := ⟨ha, fuel, hr⟩
          obtain ⟨t', hstep, hq'⟩ := h.queued.step hs
          cases hstep with
          | fork cur hcur hout hins =>
              exact hroom (h.fork hq' (fun hmem => hout (h.queued.tasks _ hmem)) hins hr)
      | wake p =>
          have hs : Kernel.step k (.wake p) k' := ⟨ha, fuel, hr⟩
          obtain ⟨t', hstep, hq'⟩ := h.queued.step hs
          cases hstep with
          | wake cur hcur hout hins => exact hroom (h.wake hq' ha.2.1 hout hins hr)
      | tick delta =>
          have hs : Kernel.step k (.tick delta) k' := ⟨ha, fuel, hr⟩
          obtain ⟨t', hstep, hq'⟩ := h.queued.step hs
          cases hstep with
          | tick hv => exact ⟨fun _ => ⟨t, h.tick hq' hr⟩, fun hunsafe => absurd trivial hunsafe⟩
      | schedule => exact h.scheduled ha hr
      | block =>
          obtain ⟨prev, hprev⟩ := Option.ne_none_iff_exists'.mp ha
          rw [act, call, hprev] at hr
          have hk : (k.setBlocked prev).Balanced t := h.of_pcbs _
          obtain ⟨hgood, hbad⟩ := hk.schedule hprev hr
          refine ⟨fun hsafe => hgood (hsafe prev hprev), fun hunsafe => hbad ?_⟩
          refine Classical.byContradiction fun hno => hunsafe fun prev' hprev' => ?_
          rw [hprev, Option.some.injEq] at hprev'
          rw [← hprev']
          exact hno
      | kill p =>
          injection hr with hr
          rw [← hr]
          exact ⟨fun _ => ⟨t, h.of_pcbs _⟩, fun hunsafe => absurd trivial hunsafe⟩
      | execve pml4 =>
          obtain ⟨cur, hcur⟩ := Option.ne_none_iff_exists'.mp ha.1
          rw [act, call, hcur] at hr
          injection hr with hr
          rw [← hr]
          refine ⟨fun _ => ⟨t, ?_⟩, fun hunsafe => absurd trivial hunsafe⟩
          exact ⟨⟨h.queued.queue, h.queued.current, h.queued.mem, h.queued.empty, h.queued.tasks⟩,
            ⟨h.counts.running, h.counts.weight⟩, h.lt, h.pos, h.le⟩

/-- **The counters are right exactly as long as no dead task is taken out of the queue** (and
the number of tasks fits). -/
theorem countersRight_iff_countSafe {acts : List Act} (hinit : k.Start) :
    Run (Keeping CountersRight atomic) k acts k' ↔ Run (Guarded CountSafe atomic) k acts k' :=
  run_keeping_iff_guarded (I := fun k => ∃ t, k.Balanced t) ⟨nil, hinit.balanced⟩
    (fun _ _ _ ⟨_, h⟩ hok hs => (h.step hs).1 hok) (fun _ ⟨_, h⟩ => h.right)
    fun _ _ _ ⟨_, h⟩ hbad hs => (h.step hs).2 hbad

/-! ## Two tasks -/

/-- `Permitted`, computed for a run queue whose tree is not deeper than `depth`. -/
def permitted (depth : Nat) (k : Kernel) : Act → Bool
  | .call .block => k.currentProc ≠ none
  | .call op => k.allowed depth op
  | .exit => k.currentProc ≠ none

/-- A step, computed: `fuel` bounds the loops and the depth of the tree. -/
def tryAct (fuel : Nat) (k : Kernel) (a : Act) : Option Kernel :=
  if k.permitted fuel a then (k.act fuel a).toOption else none

theorem permitted_sound {depth : Nat} {a : Act} (h : k.permitted depth a = true) :
    k.Permitted a := by
  cases a with
  | exit => simpa [permitted, Permitted] using h
  | call op =>
      cases op with
      | block => simpa [permitted, Permitted] using h
      | _ =>
          rw [permitted] at h
          · exact k.allowed_sound h
          · nofun

theorem atomic_of_tryAct {a : Act} (h : k.tryAct fuel a = some k') : k.atomic a k' := by
  rw [tryAct] at h
  split at h
  · next ha =>
    refine ⟨permitted_sound ha, fuel, ?_⟩
    cases hact : k.act fuel a with
    | error e =>
        rw [hact] at h
        cases h
    | ok k₁ =>
        rw [hact] at h
        exact congrArg Except.ok (Option.some.inj h)
  · cases h

/-- `MeetsDead` fails, computed. -/
def meetsLive (fuel : Nat) (k : Kernel) (prev : PcbId) : Bool :=
  k.pcbs.stat prev ≠ .dead ∧ (k.requeue fuel prev).toOption.any fun k₁ =>
    k₁.sched.firstTask.all fun d => k₁.pcbs.stat d ≠ .dead

theorem not_meetsDead (h : k.meetsLive fuel prev = true) : ¬ k.MeetsDead prev := by
  rw [meetsLive, decide_eq_true_eq, Option.any_eq_true] at h
  obtain ⟨hlive, k₁, hk₁, hfirst⟩ := h
  rintro (hdead | ⟨fuel', k₂, d, hreq, hd, hdead⟩)
  · exact hlive hdead
  · have hreq₁ : k.requeue fuel prev = .ok k₁ := by
      cases hr : k.requeue fuel prev with
      | error e =>
          rw [hr] at hk₁
          cases hk₁
      | ok k₃ =>
          rw [hr] at hk₁
          exact congrArg Except.ok (Option.some.inj hk₁)
    rw [(requeue_steady k prev).unique hreq hreq₁] at hd hdead
    rw [hd, Option.all_some, decide_eq_true_eq] at hfirst
    exact hfirst hdead

/-- `CountSafe`, computed. -/
def countSafe (fuel : Nat) (k : Kernel) : Act → Bool
  | .call (.fork _ _ _) => k.sched.rq.links.Represents (k.linkedTree fuel) ∧
      (k.linkedTree fuel).inorder.length + 1 < 2 ^ 32
  | .call (.wake _) => k.sched.rq.links.Represents (k.linkedTree fuel) ∧
      (k.linkedTree fuel).inorder.length + 1 < 2 ^ 32
  | .call .schedule => k.currentProc.all fun prev => k.meetsLive fuel prev
  | .call .block => k.currentProc.all fun prev => (k.setBlocked prev).meetsLive fuel prev
  | .exit => false
  | _ => true

theorem CountSafe.of_countSafe {a : Act} (h : k.countSafe fuel a = true) : k.CountSafe a := by
  have hroom : (k.sched.rq.links.Represents (k.linkedTree fuel) ∧
      (k.linkedTree fuel).inorder.length + 1 < 2 ^ 32) →
      ∀ t, k.sched.rq.links.Represents t → t.inorder.length + 1 < 2 ^ 32 := by
    rintro ⟨ht, hlt⟩ u hu
    rwa [hu.unique ht]
  cases a with
  | exit => cases h
  | call op =>
      cases op with
      | fork child flags nice => exact hroom (of_decide_eq_true h)
      | wake p => exact hroom (of_decide_eq_true h)
      | schedule =>
          intro prev hprev
          rw [countSafe, hprev] at h
          exact not_meetsDead h
      | block =>
          intro prev hprev
          rw [countSafe, hprev] at h
          exact not_meetsDead h
      | _ => trivial

/-- Two tasks take turns, one of them waits and is woken. -/
theorem countersRight_iff_countSafe_turns : ∃ k, Run (Keeping CountersRight atomic) boot
    [.call (.initIdle 1), .call (.fork 2 threadKernel 0), .call .schedule, .call .block,
      .call (.wake 2)] k := by
  have hexec : (Lib.exec (countSafe 9) (tryAct 9) boot [.call (.initIdle 1),
      .call (.fork 2 threadKernel 0), .call .schedule, .call .block,
      .call (.wake 2)]).isSome = true := by
    decide
  obtain ⟨k, hk⟩ := Option.isSome_iff_exists.mp hexec
  refine ⟨k, (countersRight_iff_countSafe ⟨boot_init, rfl, rfl⟩).mpr ?_⟩
  exact (run_of_exec hk).mono fun _ _ _ hs => ⟨.of_countSafe hs.1, atomic_of_tryAct hs.2⟩

/-- **An exit is never counted.**  Task 1 exits: task 2 is left alone in the queue, and
`nr_running` stays 2. -/
theorem exit_leaves_counters :
    ¬ ∀ (k k' : Kernel) (acts : List Act), k.Start → Run atomic k acts k' →
      k'.CountersRight := by
  intro hclaim
  have hexec : ((Lib.exec (fun _ _ => true) (tryAct 9) boot [.call (.initIdle 1),
      .call (.fork 2 threadKernel 0), .exit]).map fun k =>
        (decide (k.sched.rq.links.Represents (k.linkedTree 9)), (k.linkedTree 9).inorder,
          k.sched.nrRunning)) = some (true, [2], 2) := by
    decide
  rw [Option.map_eq_some_iff] at hexec
  obtain ⟨k, hk, hend⟩ := hexec
  injection hend with htree hend
  injection hend with hlist hnr
  have hrun := (run_of_exec hk).mono fun _ _ _ hs => atomic_of_tryAct hs.2
  have hright := hclaim _ _ _ ⟨boot_init, rfl, rfl⟩ hrun _ (of_decide_eq_true htree)
  rw [hlist, hnr] at hright
  exact absurd hright.1 (by decide)

end Kernel

end InfoKernel.Task
