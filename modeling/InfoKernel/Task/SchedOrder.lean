import InfoKernel.Lib.Run
import InfoKernel.Task.SchedQueue

/-!
# Which task `Schedule` picks

`PickNextTask` takes the first task of the run queue, so it picks one of least vruntime as
long as the in-order list is sorted by vruntime.  The running task stays linked while
`UpdateClock` changes its vruntime, so between two calls of `Schedule` the list is sorted but
for that task.  `Schedule` itself takes the running task out before it puts it back.  But
`Enqueue` does not: a search that passes the running task is led by a vruntime that no longer
says anything about the place in the list.

`PassSafe` says that such a search goes the right way all the same, and
`schedule_picks_least` that in every run whose insertions satisfy it, each call of `Schedule`
picks a task of least vruntime.
-/

namespace InfoKernel.Task

open InfoKernel.Lib
open BinaryTree hiding node
open Cfs (Rq)
open Cfs.Rq (SearchCtx)

/-! ## Sorted but for one task -/

/-- The list is sorted by vruntime, but for `cur`. -/
def SortedBut (v : PcbId → Nat) (cur : Option PcbId) (xs : List PcbId) : Prop :=
  xs.Pairwise fun a b => cur ≠ some a → cur ≠ some b → v a ≤ v b

theorem SortedBut.congr {v v' : PcbId → Nat} {cur : Option PcbId} {xs : List PcbId}
    (h : SortedBut v cur xs) (hv : ∀ x ∈ xs, cur ≠ some x → v' x = v x) :
    SortedBut v' cur xs := by
  refine List.Pairwise.imp_of_mem (fun ha hb hab hca hcb => ?_) h
  rw [hv _ ha hca, hv _ hb hcb]
  exact hab hca hcb

theorem SortedBut.weaken {v : PcbId → Nat} {xs : List PcbId} (h : SortedBut v none xs)
    (cur : Option PcbId) : SortedBut v cur xs :=
  List.Pairwise.imp (fun hab _ _ => hab (by simp) (by simp)) h

/-- Without the task it is sorted but for, the list is sorted. -/
theorem SortedBut.erase {v : PcbId → Nat} {cur : PcbId} {xs : List PcbId}
    (h : SortedBut v (some cur) xs) (hn : xs.Nodup) : SortedBut v none (xs.erase cur) := by
  have hsub : SortedBut v (some cur) (xs.erase cur) := List.Pairwise.sublist List.erase_sublist h
  refine List.Pairwise.imp_of_mem (fun ha hb hab _ _ => hab ?_ ?_) hsub
  · rintro ⟨⟩
    exact hn.not_mem_erase ha
  · rintro ⟨⟩
    exact hn.not_mem_erase hb

/-- The first task of a sorted list has the least vruntime. -/
theorem SortedBut.head_le {v : PcbId → Nat} {xs : List PcbId} {x y : PcbId}
    (h : SortedBut v none xs) (hx : xs.head? = some x) (hy : y ∈ xs) : v x ≤ v y := by
  cases xs with
  | nil => cases hx
  | cons z xs =>
      injection hx with hx
      rw [← hx]
      rcases List.mem_cons.mp hy with rfl | hy
      · exact Nat.le_refl _
      · exact (List.pairwise_cons.mp h).1 y hy (by simp) (by simp)

/-- A task put into a list between those of no larger and those of no smaller vruntime. -/
theorem SortedBut.insert {v : PcbId → Nat} {cur : Option PcbId} {xs ys : List PcbId}
    {p : PcbId} {n : Nat} (h : SortedBut v cur (xs ++ ys)) (hp : p ∉ xs ++ ys)
    (hxs : ∀ x ∈ xs, cur ≠ some x → v x ≤ n) (hys : ∀ y ∈ ys, cur ≠ some y → n ≤ v y) :
    SortedBut (Function.update v p n) cur (xs ++ p :: ys) := by
  have hv : ∀ x ∈ xs ++ ys, Function.update v p n x = v x := by
    intro x hx
    have hxp : x ≠ p := fun hxp => hp (hxp ▸ hx)
    exact Function.update_of_ne hxp _ _
  have h' : SortedBut (Function.update v p n) cur (xs ++ ys) := h.congr fun x hx _ => hv x hx
  obtain ⟨hx, hy, hxy⟩ := List.pairwise_append.mp h'
  refine List.pairwise_append.mpr ⟨hx, List.pairwise_cons.mpr ⟨?_, hy⟩, ?_⟩
  · intro y hy' _ hcy
    rw [Function.update_self, hv y (List.mem_append_right _ hy')]
    exact hys y hy' hcy
  · intro x hx' y hy' hcx hcy
    rcases List.mem_cons.mp hy' with rfl | hy'
    · rw [Function.update_self, hv x (List.mem_append_left _ hx')]
      exact hxs x hx' hcx
    · exact hxy x hx' y hy' hcx hcy

/-! ## The search -/

/-- Where the search for the vruntime `n` passes the running task `cur`, the subtree that it
does not enter is on its own side of `n`. -/
def PassSafe (v : PcbId → Nat) (n : Nat) (cur : Option PcbId) : BinaryTree PcbId → Prop
  | .nil => True
  | .node x l r =>
      if n < v x then (cur = some x → ∀ z ∈ r.inorder, n ≤ v z) ∧ PassSafe v n cur l
      else (cur = some x → ∀ z ∈ l.inorder, v z ≤ n) ∧ PassSafe v n cur r

instance decidablePassSafe (v : PcbId → Nat) (n : Nat) (cur : Option PcbId) :
    (t : BinaryTree PcbId) → Decidable (PassSafe v n cur t)
  | .nil => isTrue trivial
  | .node x l r =>
      have := decidablePassSafe v n cur l
      have := decidablePassSafe v n cur r
      inferInstanceAs (Decidable (if n < v x then
        (cur = some x → ∀ z ∈ r.inorder, n ≤ v z) ∧ PassSafe v n cur l
        else (cur = some x → ∀ z ∈ l.inorder, v z ≤ n) ∧ PassSafe v n cur r))

theorem passSafe_none (v : PcbId → Nat) (n : Nat) (t : BinaryTree PcbId) :
    PassSafe v n none t := by
  induction t with
  | nil => trivial
  | node x l r ihl ihr =>
      rw [PassSafe]
      split
      · exact ⟨fun h => (by cases h), ihl⟩
      · exact ⟨fun h => (by cases h), ihr⟩

/-- The levels of the tree that the search has passed. -/
def FramesSafe (v : PcbId → Nat) (n : Nat) (cur : Option PcbId) (c : Ctx PcbId) : Prop :=
  ∀ f ∈ c, cur = some f.elem → ∀ z ∈ f.other.inorder,
    (f.side = .left → n ≤ v z) ∧ (f.side = .right → v z ≤ n)

theorem PassSafe.frames {v : PcbId → Nat} {n : Nat} {cur : Option PcbId} {c : Ctx PcbId}
    {s : BinaryTree PcbId} (hs : SearchCtx v n c) (h : PassSafe v n cur (plug c s)) :
    PassSafe v n cur s ∧ FramesSafe v n cur c := by
  induction c generalizing s with
  | nil => exact ⟨h, fun f hf => by cases hf⟩
  | cons f c ih =>
      obtain ⟨d, x, a⟩ := f
      have hx := hs _ List.mem_cons_self
      obtain ⟨hpass, hframes⟩ := ih (fun g hg => hs g (List.mem_cons_of_mem _ hg)) h
      cases d with
      | left =>
          rw [branch, PassSafe, if_pos (hx.mp rfl)] at hpass
          refine ⟨hpass.2, fun g hg hcur z hz => ?_⟩
          rcases List.mem_cons.mp hg with rfl | hg
          · exact ⟨fun _ => hpass.1 hcur z hz, fun hd => by cases hd⟩
          · exact hframes g hg hcur z hz
      | right =>
          rw [branch, PassSafe, if_neg (fun hlt => by cases hx.mpr hlt)] at hpass
          refine ⟨hpass.2, fun g hg hcur z hz => ?_⟩
          rcases List.mem_cons.mp hg with rfl | hg
          · exact ⟨fun hd => (by cases hd), fun _ => hpass.1 hcur z hz⟩
          · exact hframes g hg hcur z hz

/-- **The search ends in the right place**: between the tasks of no larger and those of no
smaller vruntime, but for the running one. -/
theorem bounds_of_search {v : PcbId → Nat} {n : Nat} {cur : Option PcbId} {c : Ctx PcbId}
    (hs : SearchCtx v n c) (hsafe : FramesSafe v n cur c)
    (hsorted : SortedBut v cur (before c ++ after c)) :
    (∀ x ∈ before c, cur ≠ some x → v x ≤ n) ∧ ∀ y ∈ after c, cur ≠ some y → n ≤ v y := by
  induction c with
  | nil => exact ⟨fun x hx => (by cases hx), fun y hy => by cases hy⟩
  | cons f c ih =>
      obtain ⟨d, x, a⟩ := f
      have hx := hs _ List.mem_cons_self
      have ha := hsafe _ List.mem_cons_self
      have ih' := ih (fun g hg => hs g (List.mem_cons_of_mem _ hg))
        fun g hg => hsafe g (List.mem_cons_of_mem _ hg)
      cases d with
      | left =>
          have hlt : n < v x := hx.mp rfl
          obtain ⟨hb, hxa, hba⟩ := List.pairwise_append.mp hsorted
          obtain ⟨hxa', hac, haac⟩ := List.pairwise_append.mp hxa
          obtain ⟨hbefore, hafter⟩ := ih' (List.pairwise_append.mpr ⟨hb, hac, fun y hy z hz =>
            hba y hy z (List.mem_append_right _ hz)⟩)
          refine ⟨hbefore, fun y hy hcy => ?_⟩
          rcases List.mem_append.mp hy with hy | hy
          · rcases List.mem_cons.mp hy with rfl | hy
            · exact Nat.le_of_lt hlt
            · by_cases hcx : cur = some x
              · exact (ha hcx y hy).1 rfl
              · exact Nat.le_trans (Nat.le_of_lt hlt) ((List.pairwise_cons.mp hxa').1 y hy hcx hcy)
          · exact hafter y hy hcy
      | right =>
          have hle : v x ≤ n := Nat.le_of_not_lt fun hlt => by cases hx.mpr hlt
          obtain ⟨hbax, hac, hbac⟩ := List.pairwise_append.mp hsorted
          obtain ⟨hb, hax, -⟩ := List.pairwise_append.mp hbax
          obtain ⟨-, -, hax'⟩ := List.pairwise_append.mp hax
          obtain ⟨hbefore, hafter⟩ := ih' (List.pairwise_append.mpr ⟨hb, hac, fun y hy z hz =>
            hbac y (List.mem_append_left _ hy) z hz⟩)
          refine ⟨fun y hy hcy => ?_, hafter⟩
          rcases List.mem_append.mp hy with hy | hy
          · exact hbefore y hy hcy
          · rcases List.mem_append.mp hy with hy | hy
            · by_cases hcx : cur = some x
              · exact (ha hcx y hy).2 rfl
              · exact Nat.le_trans (hax' y hy x List.mem_cons_self hcy hcx) hle
            · rw [List.mem_singleton.mp hy]
              exact hle

/-- An insertion keeps the list sorted but for the running task. -/
theorem SortedBut.inserted {s s' : Cfs.Sched} {t t' : BinaryTree PcbId} {p : PcbId} {n : Nat}
    {c : Ctx PcbId} {cur : Option PcbId} (h : SortedBut s.rq.vruntime cur t.inorder)
    (hp : p ∉ t.inorder) (hins : s.Inserted t p n c s' t')
    (hsafe : PassSafe s.rq.vruntime n cur t) : SortedBut s'.rq.vruntime cur t'.inorder := by
  have hin : t.inorder = before c ++ after c := by
    rw [hins.hole, inorder_plug, inorder_nil, List.append_nil]
  rw [hins.hole] at hsafe
  rw [hin] at h hp
  obtain ⟨hbefore, hafter⟩ := bounds_of_search hins.search (hsafe.frames hins.search).2 h
  rw [hins.vruntime, hins.inorder]
  exact h.insert hp hbefore hafter

namespace Kernel

variable {k k' : Kernel} {t t' : BinaryTree PcbId}

/-! ## Runs of live tasks -/

/-- The steps of a run in which no task is killed. -/
def liveStep (k : Kernel) (op : Op) (k' : Kernel) : Prop :=
  (∀ p, op ≠ .kill p) ∧ step k op k'

/-- The condition on `Fork` and on a wake-up: where the search for the place of the new task
passes the running one, the subtree it leaves aside is on its own side of the vruntime. -/
def EnqueueSafe (k : Kernel) (op : Op) : Prop :=
  match op with
  | .fork .. | .wake _ => ∀ t, k.sched.rq.links.Represents t →
      PassSafe k.sched.rq.vruntime (k.insertKey op) k.currentProc t
  | _ => True

/-- The task that runs is linked in the run queue and has the least vruntime in it. -/
def RunsLeast (k : Kernel) : Prop :=
  ∃ next, k.currentProc = some next ∧ k.Linked next ∧
    ∀ x, k.Linked x → k.sched.rq.vruntime next ≤ k.sched.rq.vruntime x

/-- The invariant: the run queue is sorted by vruntime but for the running task, and no task
in it is dead. -/
structure Sorted (k : Kernel) (t : BinaryTree PcbId) : Prop where
  queued : k.Queued t
  live : ∀ x ∈ t.inorder, k.pcbs.stat x ≠ .dead
  sorted : SortedBut k.sched.rq.vruntime k.currentProc t.inorder

theorem Init.sorted (h : k.Init) : k.Sorted nil :=
  ⟨h.queued, fun x hx => (by cases hx), List.Pairwise.nil⟩

/-- `Schedule` sorts the run queue. -/
theorem Scheduled.sorted {prev : PcbId} (h : Scheduled k t prev k' t')
    (hn : t.inorder.Nodup) (hprev : prev ∈ t.inorder)
    (hlive : ∀ x ∈ t.inorder, k.pcbs.stat x ≠ .dead)
    (hsorted : SortedBut k.sched.rq.vruntime (some prev) t.inorder) :
    (∀ x ∈ t'.inorder, k'.pcbs.stat x ≠ .dead) ∧
      SortedBut k'.sched.rq.vruntime none t'.inorder := by
  cases h with | @intro k₁ t₁ _ s next hre hin _ _ hv _ => ?_
  have hsub : t'.inorder.Sublist t₁.inorder := by
    rw [hin]
    exact List.dropWhile_sublist _
  have hsorted₁ : SortedBut k₁.sched.rq.vruntime none t₁.inorder := by
    have herase := hsorted.erase hn
    cases hre with
    | off _ _ hin₁ hv₁ =>
        rw [← hin₁] at herase
        exact herase.congr fun x _ _ => congrFun hv₁ x
    | on _ hin₀ hv₀ hins =>
        rw [← hin₀, ← hv₀] at herase
        have hout := hn.not_mem_erase (a := prev)
        rw [← hin₀] at hout
        exact herase.inserted hout hins (passSafe_none _ _ _)
  rw [switchTo_pcbs, switchTo_sched]
  refine ⟨fun x hx hdead => ?_, ?_⟩
  · exact hlive x (hre.mem hprev (hsub.subset hx)) ((hre.dead_iff x).mp hdead)
  · have hsorted' : SortedBut k₁.sched.rq.vruntime none t'.inorder :=
      List.Pairwise.sublist hsub hsorted₁
    exact hsorted'.congr fun x _ _ => congrFun hv x

/-- After `Schedule` the task of least vruntime runs. -/
theorem Scheduled.runsLeast {prev : PcbId} (h : Scheduled k t prev k' t') (hq : k'.Queued t')
    (hsorted : SortedBut k'.sched.rq.vruntime none t'.inorder) : k'.RunsLeast := by
  obtain ⟨next, -, -, hhead, -, -, hcur⟩ := h
  refine ⟨next, hcur, hq.linked_iff.mpr (List.mem_of_mem_head? hhead), fun x hx => ?_⟩
  exact hsorted.head_le hhead (hq.linked_iff.mp hx)

/-- The state in which a blocking task calls `Schedule`. -/
theorem Sorted.setBlocked (h : k.Sorted t) {prev : PcbId} :
    ∀ x ∈ t.inorder, (k.setBlocked prev).pcbs.stat x ≠ .dead := by
  intro x hx
  rw [Kernel.setBlocked, PcbTable.setStat_stat]
  split
  · decide
  · exact h.live x hx

/-- **A step keeps the run queue sorted** but for the running task, if its insertion is
safe. -/
theorem Sorted.step (h : k.Sorted t) {op : Op} (hsafe : k.EnqueueSafe op)
    (hs : liveStep k op k') : ∃ t', k'.Sorted t' := by
  obtain ⟨t', hstep, hq⟩ := h.queued.step hs.2
  have hn := h.queued.queue.represents.nodup
  suffices (∀ x ∈ t'.inorder, k'.pcbs.stat x ≠ .dead) ∧
      SortedBut k'.sched.rq.vruntime k'.currentProc t'.inorder from ⟨t', hq, this.1, this.2⟩
  cases hstep with
  | initIdle _ hin =>
      rw [hin]
      refine ⟨fun x hx => ?_, List.pairwise_singleton _ _⟩
      rw [List.mem_singleton.mp hx]
      simp [PcbTable.init]
  | @fork child _ _ _ _ _ cur hcur hnew hins =>
      have hout : child ∉ t.inorder := fun hmem => hnew (h.queued.tasks _ hmem)
      refine ⟨fun x hx => ?_, ?_⟩
      · rcases hins.mem.mp hx with rfl | hx
        · rw [(forkedPcbs_self _).1]
          decide
        · have hxc : x ≠ child := fun hxc => hout (hxc ▸ hx)
          rw [(forkedPcbs_of_ne _ hxc).1]
          exact h.live x hx
      · exact h.sorted.inserted hout hins (hsafe t h.queued.queue.represents)
  | wake cur hcur hout hins =>
      refine ⟨fun x hx => ?_, ?_⟩
      · rw [PcbTable.setStat_stat]
        split
        · decide
        · next hxp => exact h.live x ((hins.mem.mp hx).resolve_left hxp)
      · exact h.sorted.inserted hout hins (hsafe t h.queued.queue.represents)
  | tick hv => exact ⟨h.live, h.sorted.congr fun x _ hx => hv x hx⟩
  | schedule prev hprev hsch =>
      have hsorted := h.sorted
      rw [hprev] at hsorted
      obtain ⟨hlive, hsorted'⟩ := hsch.sorted hn (h.queued.mem prev hprev) h.live hsorted
      exact ⟨hlive, hsorted'.weaken _⟩
  | block prev hprev hsch =>
      have hsorted := h.sorted
      rw [hprev] at hsorted
      obtain ⟨hlive, hsorted'⟩ :=
        hsch.sorted hn (h.queued.mem prev hprev) h.setBlocked hsorted
      exact ⟨hlive, hsorted'.weaken _⟩
  | @kill p => exact absurd rfl (hs.1 p)
  | execve => exact ⟨h.live, h.sorted⟩

/-- **`Schedule` picks a task of least vruntime** in every run whose insertions are safe. -/
theorem schedule_runsLeast {k₀ : Kernel} {ops : List Op} {op : Op} (hinit : k₀.Init)
    (hrun : Run (Guarded EnqueueSafe liveStep) k₀ ops k) (hop : op = .schedule ∨ op = .block)
    (hs : step k op k') : k'.RunsLeast := by
  obtain ⟨t, h⟩ := hrun.invariant (I := fun k => ∃ t, k.Sorted t) ⟨nil, hinit.sorted⟩
    fun _ _ _ ⟨_, h⟩ hstep => h.step hstep.1 hstep.2
  obtain ⟨t', hstep, hq⟩ := h.queued.step hs
  have hn := h.queued.queue.represents.nodup
  have hsorted := h.sorted
  rcases hop with rfl | rfl
  · cases hstep with
    | schedule prev hprev hsch =>
        rw [hprev] at hsorted
        exact hsch.runsLeast hq (hsch.sorted hn (h.queued.mem prev hprev) h.live hsorted).2
  · cases hstep with
    | block prev hprev hsch =>
        rw [hprev] at hsorted
        exact hsch.runsLeast hq
          (hsch.sorted hn (h.queued.mem prev hprev) h.setBlocked hsorted).2

/-! ## Three tasks

All of them have the least weight.  The period of the timer is 10. -/

/-- `EnqueueSafe`, computed for a run queue whose tree is not deeper than `depth`. -/
def enqueueSafe (depth : Nat) (k : Kernel) (op : Op) : Bool :=
  match op with
  | .kill _ => false
  | .fork .. | .wake _ => k.sched.rq.links.Represents (k.linkedTree depth) ∧
      PassSafe k.sched.rq.vruntime (k.insertKey op) k.currentProc (k.linkedTree depth)
  | _ => true

theorem EnqueueSafe.of_enqueueSafe {depth : Nat} {op : Op}
    (h : k.enqueueSafe depth op = true) : k.EnqueueSafe op ∧ ∀ p, op ≠ .kill p := by
  have hinsert : k.sched.rq.links.Represents (k.linkedTree depth) ∧ PassSafe k.sched.rq.vruntime
      (k.insertKey op) k.currentProc (k.linkedTree depth) →
      ∀ t, k.sched.rq.links.Represents t →
        PassSafe k.sched.rq.vruntime (k.insertKey op) k.currentProc t := by
    rintro ⟨ht, hpass⟩ t ht'
    rwa [ht'.unique ht]
  cases op with
  | kill p => cases h
  | fork child flags nice => exact ⟨hinsert (of_decide_eq_true h), fun p hp => by cases hp⟩
  | wake q => exact ⟨hinsert (of_decide_eq_true h), fun p hp => by cases hp⟩
  | _ => exact ⟨trivial, fun p hp => by cases hp⟩

/-- A computed execution whose insertions are safe. -/
theorem run_of_exec_enqueueSafe {fuel : Nat} {ops : List Op}
    (h : Lib.exec (enqueueSafe fuel) (tryStep fuel) k ops = some k') :
    Run (Guarded EnqueueSafe liveStep) k ops k' :=
  (run_of_exec h).mono fun _ _ _ hs =>
    have hsafe := EnqueueSafe.of_enqueueSafe hs.1
    ⟨hsafe.1, hsafe.2, step_of_tryStep hs.2⟩

/-- Task 2 has run for two ticks and waits, task 3 runs. -/
def twoWaits : List Op :=
  [.initIdle 1, .fork 2 threadKernel 19, .fork 3 threadKernel 19, .tick 10, .schedule,
    .tick 10, .tick 10, .block]

theorem schedule_runsLeast_twoWaits :
    ∃ k k', Run (Guarded EnqueueSafe liveStep) boot (twoWaits ++ [.tick 10, .wake 2]) k ∧
      step k .schedule k' ∧ k'.RunsLeast := by
  obtain ⟨k, hk⟩ := Option.isSome_iff_exists.mp
    (by decide : (Lib.exec (enqueueSafe 9) (tryStep 9) boot
      (twoWaits ++ [.tick 10, .wake 2])).isSome)
  obtain ⟨k', hk'⟩ := Option.isSome_iff_exists.mp
    (by decide : ((Lib.exec (enqueueSafe 9) (tryStep 9) boot
      (twoWaits ++ [.tick 10, .wake 2])).bind fun k => k.tryStep 9 .schedule).isSome)
  rw [hk, Option.bind_some] at hk'
  have hrun := run_of_exec_enqueueSafe hk
  have hs := step_of_tryStep hk'
  exact ⟨k, k', hrun, hs, schedule_runsLeast boot_init hrun (.inl rfl) hs⟩

/-- **A task of larger vruntime is picked.**  Task 3 has run for three ticks when it wakes
task 2, which is put to the left of it, before the idle task 1. -/
theorem schedule_picks_larger :
    ¬ ∀ (k₀ k k' : Kernel) (ops : List Op), k₀.Init → Run liveStep k₀ ops k →
      step k .schedule k' → k'.RunsLeast := by
  intro hclaim
  let before := Lib.exec (enqueueSafe 9) (tryStep 9) boot
    (twoWaits ++ [.tick 10, .tick 10, .tick 10])
  obtain ⟨k₁, hk₁⟩ := Option.isSome_iff_exists.mp (by decide : before.isSome)
  obtain ⟨k₂, hk₂⟩ := Option.isSome_iff_exists.mp
    (by decide : (before.bind fun k => k.tryStep 9 (.wake 2)).isSome)
  obtain ⟨k₃, hk₃⟩ := Option.isSome_iff_exists.mp
    (by decide : ((before.bind fun k => k.tryStep 9 (.wake 2)).bind
      fun k => k.tryStep 9 .schedule).isSome)
  have hend : ((before.bind fun k => k.tryStep 9 (.wake 2)).bind
      fun k => k.tryStep 9 .schedule).map (fun k => (k.currentProc,
        k.sched.rq.vruntime 2, k.sched.rq.vruntime 1,
        decide (k.sched.rq.links.Represents (k.linkedTree 9) ∧
          1 ∈ (k.linkedTree 9).inorder))) = some (some 2, 1364, 682, true) := by decide
  rw [hk₃, Option.map_some, Option.some.injEq, Prod.mk.injEq, Prod.mk.injEq, Prod.mk.injEq,
    decide_eq_true_eq] at hend
  obtain ⟨hcur, hv2, hv1, ht, hmem⟩ := hend
  rw [hk₂, Option.bind_some] at hk₃
  rw [hk₁, Option.bind_some] at hk₂
  have hrun : Run liveStep boot (twoWaits ++ [.tick 10, .tick 10, .tick 10] ++ [.wake 2]) k₂ :=
    .snoc ((run_of_exec_enqueueSafe hk₁).mono fun _ _ _ hs => hs.2)
      ⟨fun p hp => (by cases hp), step_of_tryStep hk₂⟩
  obtain ⟨next, hnext, -, hleast⟩ := hclaim _ _ _ _ boot_init hrun (step_of_tryStep hk₃)
  rw [hcur, Option.some.injEq] at hnext
  have hle := hleast 1 ⟨_, ht, hmem⟩
  rw [← hnext, hv1, hv2] at hle
  exact absurd hle (by decide)

end Kernel

end InfoKernel.Task
