import InfoKernel.Lib.Run
import InfoKernel.Task.SchedQueue

/-!
# Which page table is loaded

`Schedule` loads the page table of the next task on some of its branches only.  Where it goes
away from a task that is not dead, the branches cover every case in which the table has to
change.  Where it goes away from a dead task it loads the table of a kernel thread, and
leaves the one that is loaded if the next task is a user process.

`DeadSafe` is the condition under which that is right all the same, and
`tableLoaded_iff_deadSafe` says that the page table is right after every step of a run
exactly when every step meets it.
-/

namespace InfoKernel.Task.Kernel

open InfoKernel.Lib
open BinaryTree hiding node

variable {k k' : Kernel} {t t' : BinaryTree PcbId}

/-- The page table of the running task is loaded, if the task is a user process. -/
def TableLoaded (k : Kernel) : Prop :=
  ∀ cur, k.currentProc = some cur → k.pcbs.isKernel cur = false →
    k.cr3 = Mm.vir2Phy (k.pcbs.pml4 cur)

/-- The condition on a call of `Schedule` by a dead task: the first task behind it in the run
queue that is not dead is a kernel thread, or its page table is the one that is loaded. -/
def DeadSafe (k : Kernel) : Op → Prop
  | .schedule => ∀ prev t next, k.currentProc = some prev → k.pcbs.stat prev = .dead →
      k.sched.rq.links.Represents t →
      (Cfs.Sched.skipDead k.pcbs.stat (t.inorder.erase prev)).head? = some next →
      k.pcbs.isKernel next = false → k.cr3 = Mm.vir2Phy (k.pcbs.pml4 next)
  | _ => True

/-- The invariant: every task has a page table, and that of the running task is loaded if it
has to be. -/
structure Tables (k : Kernel) (t : BinaryTree PcbId) : Prop where
  queued : k.Queued t
  kernelPml4 : k.kernelPml4 ≠ 0
  pml4 : ∀ x ∈ k.tasks, k.pcbs.pml4 x ≠ 0
  loaded : k.TableLoaded

theorem Init.tables (h : k.Init) : k.Tables nil where
  queued := h.queued
  kernelPml4 := h.kernelPml4
  pml4 := fun x hx => by rw [h.tasks] at hx; cases hx
  loaded := fun cur hcur => by rw [h.currentProc] at hcur; cases hcur

/-! ## The switch -/

theorem switchTo_self {prev : PcbId} (hlive : k.pcbs.stat prev ≠ .dead) :
    k.switchTo prev prev = k := by
  rw [switchTo, if_neg hlive, if_pos rfl]

/-- Away from a task that is not dead, the switch loads the table of a user process. -/
theorem switchTo_cr3_of_live {prev next : PcbId} (hlive : k.pcbs.stat prev ≠ .dead)
    (hne : prev ≠ next) (huser : k.pcbs.isKernel next = false) (hpml4 : k.pcbs.pml4 next ≠ 0) :
    (k.switchTo prev next).cr3 = Mm.vir2Phy (k.pcbs.pml4 next) := by
  simp [switchTo, switchTable, hlive, hne, huser, hpml4]

/-- Away from a dead task, it does not. -/
theorem switchTo_cr3_of_dead {prev next : PcbId} (hdead : k.pcbs.stat prev = .dead)
    (huser : k.pcbs.isKernel next = false) : (k.switchTo prev next).cr3 = k.cr3 := by
  simp [switchTo, hdead, huser]

theorem isKernel_eq_of_flags {T T' : PcbTable} {x : PcbId} (h : T'.flags x = T.flags x) :
    T'.isKernel x = T.isKernel x := by
  rw [PcbTable.isKernel, PcbTable.isKernel, h]

/-- The right page table is loaded after `Schedule` if the calling task is not dead. -/
theorem Scheduled.loaded {prev : PcbId} (h : Scheduled k t prev k' t')
    (hq : k.Queued t) (hcur : k.currentProc = some prev) (hlive : k.pcbs.stat prev ≠ .dead)
    (hpml4 : ∀ x ∈ k.tasks, k.pcbs.pml4 x ≠ 0) (hloaded : k.TableLoaded) : k'.TableLoaded := by
  cases h with | @intro k₁ t₁ _ s next hre hin hhead _ _ hnext => ?_
  obtain ⟨hproc, hcr3, -, htasks, hpml4₁, hflags⟩ := hre.frame
  have hprev := hq.mem prev hcur
  have hlive₁ : k₁.pcbs.stat prev ≠ .dead := fun hd => hlive ((hre.dead_iff prev).mp hd)
  intro cur hcur' huser
  rw [hnext, Option.some.injEq] at hcur'
  rw [← hcur'] at huser ⊢
  rw [switchTo_pcbs] at huser ⊢
  by_cases hne : prev = next
  · rw [← hne] at huser ⊢
    rw [@switchTo_self { k₁ with sched := s } prev hlive₁]
    have huser' : k.pcbs.isKernel prev = false := by
      rw [← huser]
      exact (isKernel_eq_of_flags (congrFun hflags prev)).symm
    have hl := hloaded prev hcur huser'
    rw [← hcr3, ← hpml4₁] at hl
    exact hl
  · have hmem : next ∈ t.inorder := by
      refine hre.mem hprev ?_
      have := List.mem_of_mem_head? hhead
      rw [hin] at this
      exact (List.dropWhile_sublist _).subset this
    have hp : k₁.pcbs.pml4 next ≠ 0 := by
      rw [hpml4₁]
      exact hpml4 next (hq.tasks next hmem)
    exact @switchTo_cr3_of_live { k₁ with sched := s } prev next hlive₁ hne huser hp

/-- After `Schedule` by a dead task, the right page table is loaded exactly if the call was
safe. -/
theorem Scheduled.loaded_iff {prev : PcbId} (h : Scheduled k t prev k' t')
    (hq : k.Queued t) (hcur : k.currentProc = some prev) (hdead : k.pcbs.stat prev = .dead) :
    k'.TableLoaded ↔ k.DeadSafe .schedule := by
  cases h with | @intro k₁ t₁ _ s next hre hin hhead _ _ hnext => ?_
  cases hre with
  | on hlive => exact absurd hdead hlive
  | @off s₁ _ _ _ hin₁ _ =>
      have hfirst : (Cfs.Sched.skipDead k.pcbs.stat (t.inorder.erase prev)).head? = some next := by
        rw [← hin₁, ← hhead, hin]
      have hpick : (({ k with sched := s } : Kernel).switchTo prev next).TableLoaded ↔
          (k.pcbs.isKernel next = false → k.cr3 = Mm.vir2Phy (k.pcbs.pml4 next)) := by
        constructor
        · intro hl huser
          have h₁ := hl next hnext (by rw [switchTo_pcbs]; exact huser)
          rwa [@switchTo_cr3_of_dead { k with sched := s } _ _ hdead huser, switchTo_pcbs] at h₁
        · intro hl cur hcur' huser
          rw [hnext, Option.some.injEq] at hcur'
          rw [← hcur'] at huser ⊢
          rw [switchTo_pcbs] at huser ⊢
          rw [@switchTo_cr3_of_dead { k with sched := s } _ _ hdead huser]
          exact hl huser
      refine hpick.trans ⟨fun hl prev' t' next' hprev' _ ht' hnext' huser => ?_, fun hs => ?_⟩
      · rw [hcur, Option.some.injEq] at hprev'
        rw [ht'.unique hq.queue.represents, ← hprev', hfirst, Option.some.injEq] at hnext'
        rw [← hnext'] at huser ⊢
        exact hl huser
      · exact hs prev t next hcur hdead hq.queue.represents hfirst

/-! ## Runs -/

/-- A step that starts and ends with the same tables and the same running task. -/
theorem TableLoaded.congr (h : k.TableLoaded) (hcur : k'.currentProc = k.currentProc)
    (hcr3 : k'.cr3 = k.cr3)
    (heq : ∀ x, k.currentProc = some x →
      k'.pcbs.flags x = k.pcbs.flags x ∧ k'.pcbs.pml4 x = k.pcbs.pml4 x) : k'.TableLoaded := by
  intro cur hcur' huser
  rw [hcur] at hcur'
  obtain ⟨hflags, hpml4⟩ := heq cur hcur'
  rw [isKernel_eq_of_flags hflags] at huser
  rw [hcr3, hpml4]
  exact h cur hcur' huser

/-- What a step does to the page tables: they stay there, and the right one is loaded exactly
if the step is safe. -/
theorem Tables.step_spec (h : k.Tables t) {op : Op} (hs : Kernel.step k op k') :
    ∃ t', k'.Queued t' ∧ k'.kernelPml4 ≠ 0 ∧ (∀ x ∈ k'.tasks, k'.pcbs.pml4 x ≠ 0) ∧
      (k'.TableLoaded ↔ k.DeadSafe op) := by
  obtain ⟨t', hstep, hq⟩ := h.queued.step hs
  refine ⟨t', hq, ?_⟩
  cases hstep with
  | @initIdle idle =>
      refine ⟨h.kernelPml4, fun x hx => ?_, iff_of_true (fun cur hcur huser => ?_) trivial⟩
      · rcases List.mem_cons.mp hx with rfl | hx
        · simpa [PcbTable.init] using h.kernelPml4
        · by_cases hxi : x = idle
          · simpa [PcbTable.init, hxi] using h.kernelPml4
          · simpa [PcbTable.init, PcbTable.clear, hxi] using h.pml4 x hx
      · -- the idle task is a kernel thread
        injection hcur with hcur
        rw [← hcur] at huser
        simp [PcbTable.init, PcbTable.isKernel, threadKernel] at huser
  | @fork child flags _ _ _ _ cur hcur hnew =>
      refine ⟨h.kernelPml4, fun x hx => ?_, iff_of_true ?_ trivial⟩
      · rcases List.mem_cons.mp hx with rfl | hx
        · rw [(forkedPcbs_self flags).2]
          exact h.kernelPml4
        · have hxc : x ≠ child := fun hxc => hnew (hxc ▸ hx)
          rw [(forkedPcbs_of_ne flags hxc).2.2]
          exact h.pml4 x hx
      · refine h.loaded.congr rfl rfl fun x hx => ?_
        have hxc : x ≠ child := fun hxc =>
          hnew (hxc ▸ h.queued.tasks x (h.queued.mem x hx))
        exact (forkedPcbs_of_ne flags hxc).2
  | wake => exact ⟨h.kernelPml4, h.pml4, iff_of_true h.loaded trivial⟩
  | tick => exact ⟨h.kernelPml4, h.pml4, iff_of_true h.loaded trivial⟩
  | schedule prev hprev hsch =>
      obtain ⟨hkernel, htasks, hpml4⟩ := hsch.frame
      rw [hkernel, htasks, hpml4]
      refine ⟨h.kernelPml4, h.pml4, ?_⟩
      by_cases hdead : k.pcbs.stat prev = .dead
      · exact hsch.loaded_iff h.queued hprev hdead
      · refine iff_of_true (hsch.loaded h.queued hprev hdead h.pml4 h.loaded) ?_
        intro prev' t₁ next hprev' hdead'
        rw [hprev, Option.some.injEq] at hprev'
        exact absurd (hprev' ▸ hdead') hdead
  | block prev hprev hsch =>
      obtain ⟨hkernel, htasks, hpml4⟩ := hsch.frame
      rw [hkernel, htasks, hpml4]
      refine ⟨h.kernelPml4, h.pml4, iff_of_true ?_ trivial⟩
      have hq : (k.setBlocked prev).Queued t := ⟨h.queued.queue, h.queued.current,
        h.queued.mem, h.queued.empty, h.queued.tasks⟩
      refine hsch.loaded hq hprev ?_ h.pml4 h.loaded
      simp [setBlocked, PcbTable.setStat_stat]
  | kill => exact ⟨h.kernelPml4, h.pml4, iff_of_true h.loaded trivial⟩
  | @execve pml4 cur hcur hne =>
      refine ⟨h.kernelPml4, fun x hx => ?_, iff_of_true (fun cur' hcur' _ => ?_) trivial⟩
      · by_cases hxc : x = cur
        · simpa [Kernel.execve, switchTable, hxc] using hne
        · simpa [Kernel.execve, switchTable, hxc] using h.pml4 x hx
      · have hcc : cur' = cur := Option.some.inj (hcur'.symm.trans hcur)
        rw [hcc]
        rfl

theorem Tables.step (h : k.Tables t) {op : Op} (hsafe : k.DeadSafe op)
    (hs : Kernel.step k op k') : ∃ t', k'.Tables t' := by
  obtain ⟨t', hq, hkernel, hpml4, hiff⟩ := h.step_spec hs
  exact ⟨t', hq, hkernel, hpml4, hiff.mpr hsafe⟩

/-- **The right page table is loaded exactly as long as every dead task hands over safely.** -/
theorem tableLoaded_iff_deadSafe {ops : List Op} (hinit : k.Init) :
    Run (Keeping TableLoaded step) k ops k' ↔ Run (Guarded DeadSafe step) k ops k' := by
  refine run_keeping_iff_guarded (I := fun k => ∃ t, k.Tables t) ⟨nil, hinit.tables⟩
    (fun _ _ _ ⟨_, h⟩ hok hs => h.step hok hs) (fun _ ⟨_, h⟩ => h.loaded) ?_
  rintro a op b ⟨t, h⟩ hbad hs hloaded
  obtain ⟨-, -, -, -, hiff⟩ := h.step_spec hs
  exact hbad (hiff.mp hloaded)

/-! ## Two processes -/

/-- `DeadSafe`, computed for a run queue whose tree is not deeper than `depth`. -/
def deadSafe (depth : Nat) (k : Kernel) (op : Op) : Bool :=
  match op, k.currentProc with
  | .schedule, some prev =>
      k.sched.rq.links.Represents (k.linkedTree depth) ∧ (k.pcbs.stat prev = .dead →
        (Cfs.Sched.skipDead k.pcbs.stat ((k.linkedTree depth).inorder.erase prev)).head?.all
          fun next => k.pcbs.isKernel next ∨ k.cr3 = Mm.vir2Phy (k.pcbs.pml4 next))
  | _, _ => true

theorem DeadSafe.of_deadSafe {depth : Nat} {op : Op} (h : k.deadSafe depth op = true) :
    k.DeadSafe op := by
  cases op with
  | schedule =>
      intro prev t next hprev hdead ht hnext huser
      simp only [deadSafe, hprev, decide_eq_true_eq] at h
      obtain ⟨ht', hall⟩ := h
      have hall := hall hdead
      rw [ht.unique ht'] at hnext
      rw [hnext, Option.all_some, decide_eq_true_eq] at hall
      rcases hall with hkernel | hcr3
      · rw [huser] at hkernel
        cases hkernel
      · exact hcr3
  | _ => trivial

/-- A computed execution in which every dead task hands over safely. -/
theorem run_of_exec_deadSafe {fuel : Nat} {ops : List Op}
    (h : Lib.exec (deadSafe fuel) (tryStep fuel) k ops = some k') :
    Run (Guarded DeadSafe step) k ops k' :=
  (run_of_exec h).mono fun _ _ _ hs => ⟨.of_deadSafe hs.1, step_of_tryStep hs.2⟩

/-- Tasks 2 and 3 have become processes, 3 runs. -/
def twoProcesses : List Op :=
  [.initIdle 1, .fork 2 threadKernel 0, .fork 3 threadKernel 0, .tick 10, .schedule,
    .execve (Mm.phy2Vir 0x2000), .tick 10, .schedule, .execve (Mm.phy2Vir 0x3000)]

/-- Process 2 waits, and process 3 exits: behind it comes the idle thread. -/
theorem tableLoaded_iff_deadSafe_twoProcesses :
    ∃ k, Run (Keeping TableLoaded step) boot
      (twoProcesses ++ [.tick 10, .tick 10, .schedule, .block, .kill 3, .schedule]) k := by
  obtain ⟨k, hk⟩ := Option.isSome_iff_exists.mp
    (by decide : (Lib.exec (deadSafe 9) (tryStep 9) boot
      (twoProcesses ++ [.tick 10, .tick 10, .schedule, .block, .kill 3, .schedule])).isSome)
  exact ⟨k, (tableLoaded_iff_deadSafe boot_init).mpr (run_of_exec_deadSafe hk)⟩

/-- **A process runs in another's address space.**  Process 3 exits: behind it comes
process 2, and the table of process 3 stays loaded. -/
theorem exit_keeps_table :
    ¬ ∀ (k k' : Kernel) (ops : List Op), k.Init → Run step k ops k' → k'.TableLoaded := by
  intro hclaim
  let before := Lib.exec (deadSafe 9) (tryStep 9) boot (twoProcesses ++ [.kill 3])
  obtain ⟨k, hk⟩ := Option.isSome_iff_exists.mp (by decide : before.isSome)
  obtain ⟨k', hk'⟩ := Option.isSome_iff_exists.mp
    (by decide : (before.bind fun k => k.tryStep 9 .schedule).isSome)
  have hend : (before.bind fun k => k.tryStep 9 .schedule).map (fun k => (k.currentProc,
      k.pcbs.isKernel 2, k.cr3, Mm.vir2Phy (k.pcbs.pml4 2))) =
      some (some 2, false, 0x3000, 0x2000) := by decide
  rw [hk', Option.map_some, Option.some.injEq, Prod.mk.injEq, Prod.mk.injEq,
    Prod.mk.injEq] at hend
  obtain ⟨hcur, huser, hcr3, hpml4⟩ := hend
  rw [hk, Option.bind_some] at hk'
  have hrun : Run step boot (twoProcesses ++ [.kill 3] ++ [.schedule]) k' :=
    .snoc ((run_of_exec_deadSafe hk).mono fun _ _ _ hs => hs.2) (step_of_tryStep hk')
  have hloaded := hclaim _ _ _ boot_init hrun 2 hcur huser
  rw [hcr3, hpml4] at hloaded
  exact absurd hloaded (by decide)

end InfoKernel.Task.Kernel
