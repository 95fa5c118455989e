import InfoKernel.Task.RbTreeShape
import InfoKernel.Task.Sched

/-!
# What the scheduler does to the run queue

The in-order list of the tree is the run queue as a list.  `Enqueue` puts a task into it
where the search for its vruntime ends, `Dequeue` takes one out, `PickNextTask` drops dead
tasks from its front, and nothing else changes it.  `Kernel.Queued` is the invariant of all
runs that makes these results apply: the links represent a tree, `leftmost` is its first
task, and the running task is linked in it and is the one that `sched.current` charges.
-/

namespace InfoKernel.Task

open InfoKernel.Lib
open BinaryTree hiding node
open Cfs (Rq)
open Cfs.Rq (SearchCtx)

/-! ## The scheduler class -/

namespace Cfs.Sched

variable {s s' : Sched} {t : BinaryTree PcbId} {p : PcbId} {fuel : Nat}

/-- The tree of the run queue is `t`. -/
structure Queue (s : Sched) (t : BinaryTree PcbId) : Prop where
  represents : s.rq.links.Represents t
  leftmost : s.rq.leftmost = t.inorder.head?

/-- `s'` is `s` with `p` inserted under the vruntime `n`, in the hole of `c`. -/
structure Inserted (s : Sched) (t : BinaryTree PcbId) (p : PcbId) (n : Nat) (c : Ctx PcbId)
    (s' : Sched) (t' : BinaryTree PcbId) : Prop where
  hole : t = plug c nil
  search : SearchCtx s.rq.vruntime n c
  queue : s'.Queue t'
  inorder : t'.inorder = before c ++ p :: after c
  vruntime : s'.rq.vruntime = Function.update s.rq.vruntime p n
  current : s'.current = if s.current = none then some p else s.current

theorem Queue.decNrRunning (h : s.Queue t) : s.decNrRunning.Queue t :=
  ⟨h.represents, h.leftmost⟩

theorem Inserted.mem {n : Nat} {c : Ctx PcbId} {t' : BinaryTree PcbId}
    (h : s.Inserted t p n c s' t') {x : PcbId} : x ∈ t'.inorder ↔ x = p ∨ x ∈ t.inorder := by
  rw [h.inorder, h.hole, inorder_plug]
  simp only [inorder_nil, List.append_nil, List.mem_append, List.mem_cons]
  tauto

/-- The vruntimes that the search compares with are those of other tasks. -/
theorem searchCtx_congr {v v' : PcbId → Nat} {n : Nat} {c : Ctx PcbId}
    (hv : ∀ x ∈ ctxElems c, v' x = v x) (h : SearchCtx v n c) : SearchCtx v' n c := by
  induction c with
  | nil =>
      intro f hf
      cases hf
  | cons f c ih =>
      obtain ⟨d, x, a⟩ := f
      intro g hg
      rcases List.mem_cons.mp hg with rfl | hg
      · rw [hv x (mem_ctxElems_cons.mpr (.inl rfl))]
        exact h _ List.mem_cons_self
      · exact ih (fun y hy => hv y (mem_ctxElems_cons.mpr (.inr (.inr hy))))
          (fun e he => h e (List.mem_cons_of_mem _ he)) g hg

/-- **`Enqueue`** of a task that is not linked. -/
theorem enqueue_inserted (h : s.Queue t) (hp : p ∉ t.inorder)
    (hr : s.enqueue fuel .ready p = .ok s') : ∃ c t', s.Inserted t p (s.enqueueKey p) c s' t' := by
  rw [enqueue, if_pos (.inr rfl)] at hr
  unfold enqueueLive at hr
  -- `se.vruntime` when the task is inserted
  have hkey : ∃ s₁ : Sched, s₁ = (if s.rq.links.root ≠ none then s.normalizeVruntime p else s) ∧
      s₁.rq.links = s.rq.links ∧ s₁.current = s.current ∧
      s₁.rq.vruntime = Function.update s.rq.vruntime p (s.enqueueKey p) := by
    refine ⟨_, rfl, ?_⟩
    by_cases hroot : s.rq.links.root = none
    · rw [if_neg (not_not_intro hroot), enqueueKey, if_neg (not_not_intro hroot)]
      exact ⟨rfl, rfl, (Function.update_eq_self p _).symm⟩
    · rw [if_pos hroot, enqueueKey, if_pos hroot]
      exact ⟨rfl, rfl, rfl⟩
  obtain ⟨s₁, hs₁, hlinks, hcur, hv⟩ := hkey
  rw [← hs₁] at hr
  have hweight : ∃ s₂ : Sched,
      s₂ = (if s₁.weight p = 0 then { s₁ with weight := Function.update s₁.weight p 1024 }
        else s₁) ∧ s₂.rq = s₁.rq ∧ s₂.current = s₁.current := by
    refine ⟨_, rfl, ?_⟩
    split <;> exact ⟨rfl, rfl⟩
  obtain ⟨s₂, hs₂, hrq, hcur₂⟩ := hweight
  simp only [← hs₂] at hr
  rw [bind_eq_ok_iff] at hr
  obtain ⟨rq, hins, hr⟩ := hr
  injection hr with hr
  have htree : s₂.rq.links.Represents t := by
    rw [hrq, hlinks]
    exact h.represents
  obtain ⟨c, rfl, hs, ⟨⟨t', ht', hin⟩, hv'⟩, hleft⟩ := Rq.rbInsert_order htree hp hins
  rw [hrq, hv, Function.update_self] at hs
  refine ⟨c, t', rfl, searchCtx_congr (fun x hx => ?_) hs, ⟨?_, ?_⟩, hin, ?_, ?_⟩
  · have hxp : x ≠ p := fun hxp => hp (mem_inorder_plug.mpr (.inr (hxp ▸ hx)))
    exact (Function.update_of_ne hxp _ _).symm
  · rw [← hr]
    exact ht'
  · rw [← hr, hin]
    exact hleft.leftmost
  · rw [← hr]
    exact hv'.trans (by rw [hrq, hv])
  · rw [← hr]
    simp only [hcur₂, hcur]

/-- What `Dequeue` does when it returns: `RbErase`, whatever the task, and the counters for a
task that is running, ready or blocked. -/
structure Dequeued (s : Sched) (fuel : Nat) (stat : State) (p : PcbId) (s' : Sched) : Prop where
  erased : s.rq.rbErase fuel p = .ok s'.rq
  weight : s'.weight = s.weight
  current : s'.current = if s.current = some p then s'.rq.leftmost else s.current
  counted : stat = .running ∨ stat = .ready ∨ stat = .blocked →
    s'.nrRunning = sub32 s.nrRunning 1 ∧ s'.totalWeight = sub64 s.totalWeight (s.weight p)
  uncounted : ¬ (stat = .running ∨ stat = .ready ∨ stat = .blocked) →
    s'.nrRunning = s.nrRunning ∧ s'.totalWeight = s.totalWeight

theorem dequeue_dequeued {stat : State} (hr : s.dequeue fuel stat p = .ok s') :
    s.Dequeued fuel stat p s' := by
  rw [dequeue, bind_eq_ok_iff] at hr
  obtain ⟨rq, her, hr⟩ := hr
  injection hr with hr
  -- the end of `Dequeue` changes `current` alone
  have hend : ∀ s₁ : Sched, (if s₁.current = some p then { s₁ with current := s₁.firstTask }
      else s₁) = s' → s'.rq = s₁.rq ∧ s'.weight = s₁.weight ∧
        s'.nrRunning = s₁.nrRunning ∧ s'.totalWeight = s₁.totalWeight ∧
        s'.current = if s₁.current = some p then s₁.rq.leftmost else s₁.current := by
    intro s₁ h
    rw [← h]
    split <;> exact ⟨rfl, rfl, rfl, rfl, rfl⟩
  obtain ⟨hrq, hw, hnr, htw, hcur⟩ := hend _ hr
  by_cases hcount : stat = .running ∨ stat = .ready ∨ stat = .blocked
  · rw [if_pos hcount] at hrq hw hnr htw hcur
    have hrq : s'.rq = rq := hrq
    refine ⟨?_, hw, ?_, fun _ => ⟨hnr, htw⟩, fun h => absurd hcount h⟩
    · rw [hrq]
      exact her
    · rw [hrq]
      exact hcur
  · rw [if_neg hcount] at hrq hw hnr htw hcur
    have hrq : s'.rq = rq := hrq
    refine ⟨?_, hw, ?_, fun h => absurd h hcount, fun _ => ⟨hnr, htw⟩⟩
    · rw [hrq]
      exact her
    · rw [hrq]
      exact hcur

/-- **`Dequeue`** of a linked task. -/
theorem dequeue_queue (h : s.Queue t) (hp : p ∈ t.inorder) {stat : State}
    (hr : s.dequeue fuel stat p = .ok s') :
    ∃ t', s'.Queue t' ∧ t'.inorder = t.inorder.erase p ∧ s'.rq.vruntime = s.rq.vruntime ∧
      s'.current = if s.current = some p then s'.rq.leftmost else s.current := by
  have hd := dequeue_dequeued hr
  obtain ⟨⟨⟨t', ht', hin⟩, hv⟩, hleft⟩ := Rq.rbErase_order h.represents hp hd.erased
  refine ⟨t', ⟨ht', ?_⟩, hin, hv, hd.current⟩
  rw [hin]
  exact hleft.leftmost

/-- The run queue without the dead tasks at its front. -/
def skipDead (stat : PcbId → State) (xs : List PcbId) : List PcbId :=
  xs.dropWhile fun x => stat x = .dead

theorem skipDead_cons_of_dead {stat : PcbId → State} {x : PcbId} {xs : List PcbId}
    (h : stat x = .dead) : skipDead stat (x :: xs) = skipDead stat xs := by
  rw [skipDead, List.dropWhile_cons_of_pos (by simpa using h)]
  rfl

theorem skipDead_cons_of_ne {stat : PcbId → State} {x : PcbId} {xs : List PcbId}
    (h : stat x ≠ .dead) : skipDead stat (x :: xs) = x :: xs := by
  rw [skipDead, List.dropWhile_cons_of_neg (by simpa using h)]

/-- **The rule for `PickNextTask`**, when it finds a task: the first one that is not dead,
with the dead ones before it taken out of the queue.  What holds of the queue at first and is
kept when a dead task is taken off its front holds of it at the end. -/
theorem pickNextTask_rule {stat : PcbId → State} {next : PcbId} {J : Sched → List PcbId → Prop}
    (h : s.Queue t) (hJ : J s t.inorder)
    (hstep : ∀ s₁ s₂ x xs, J s₁ (x :: xs) → stat x = .dead →
      s₁.dequeue fuel (stat x) x = .ok s₂ → s₂.rq.vruntime = s₁.rq.vruntime → J s₂.decNrRunning xs)
    (hr : s.pickNextTask fuel stat = .ok (s', some next)) :
    ∃ s₁ t', s' = { s₁ with current := some next } ∧ J s₁ t'.inorder ∧ s'.Queue t' ∧
      t'.inorder = skipDead stat t.inorder ∧ t'.inorder.head? = some next ∧ stat next ≠ .dead := by
  rw [pickNextTask] at hr
  split at hr
  · rw [bind_eq_ok_iff] at hr
    obtain ⟨⟨s₁, n₁⟩, hloop, hr⟩ := hr
    injection hr with hr
    obtain ⟨hs', rfl⟩ := Prod.mk.inj hr
    let I : Sched × Option PcbId → Prop := fun st => ∃ t', st.1.Queue t' ∧
      skipDead stat t'.inorder = skipDead stat t.inorder ∧ st.2 = t'.inorder.head? ∧
      J st.1 t'.inorder
    let Q : Sched × Option PcbId → Prop := fun st => ∀ n, st.2 = some n → ∃ t', st.1.Queue t' ∧
      t'.inorder = skipDead stat t.inorder ∧ t'.inorder.head? = some n ∧ stat n ≠ .dead ∧
      J st.1 t'.inorder
    have hpost : Q (s₁, some next) := by
      refine loop_post (I := I) (Q := Q) (fun st u hI hu => ?_) ⟨t, h, rfl, h.leftmost, hJ⟩ hloop
      obtain ⟨t', hq, hskip, hn, hv⟩ := hI
      obtain ⟨s₂, n₂⟩ := st
      cases n₂ with
      | none => exact .leave hu fun n hn => by cases hn
      | some x =>
          obtain ⟨xs, hxs⟩ : ∃ xs, t'.inorder = x :: xs := by
            cases hx : t'.inorder with
            | nil =>
                rw [hx] at hn
                cases hn
            | cons y ys =>
                rw [hx] at hn
                injection hn with hn
                exact ⟨ys, by rw [hn]⟩
          rw [pickTurn] at hu
          split at hu
          · next hdead =>
            rw [bind_eq_ok_iff] at hu
            obtain ⟨s₃, hdeq, hu⟩ := hu
            obtain ⟨t₃, hq₃, hin₃, hv₃, -⟩ := dequeue_queue hq (by simp [hxs]) hdeq
            have hrest : t₃.inorder = xs := by rw [hin₃, hxs, List.erase_cons_head]
            split at hu
            · refine .again hu ⟨t₃, hq₃.decNrRunning, ?_, hq₃.leftmost, ?_⟩
              · rw [hrest, ← hskip, hxs, skipDead_cons_of_dead hdead]
              · rw [hrest]
                exact hstep s₂ s₃ x xs (hxs ▸ hv) hdead hdeq hv₃
            · exact .leave hu fun n hn => by cases hn
          · next hlive =>
            refine .leave hu fun n hn' => ?_
            injection hn' with hn'
            rw [← hn']
            refine ⟨t', hq, ?_, hn.symm, hlive, hv⟩
            rw [← hskip, hxs, skipDead_cons_of_ne hlive]
    obtain ⟨t', hq, hin, hhead, hlive, hv⟩ := hpost next rfl
    exact ⟨s₁, t', hs'.symm, hv, hs' ▸ ⟨hq.represents, hq.leftmost⟩, hin, hhead, hlive⟩
  · injection hr with hr
    cases (Prod.mk.inj hr).2

/-- **`PickNextTask`** changes no vruntime. -/
theorem pickNextTask_queue {stat : PcbId → State} {next : PcbId} (h : s.Queue t)
    (hr : s.pickNextTask fuel stat = .ok (s', some next)) :
    ∃ t', s'.Queue t' ∧ t'.inorder = skipDead stat t.inorder ∧
      t'.inorder.head? = some next ∧ stat next ≠ .dead ∧ s'.rq.vruntime = s.rq.vruntime ∧
      s'.current = some next := by
  obtain ⟨s₁, t', hs', hv, hq, hin, hhead, hlive⟩ :=
    pickNextTask_rule (J := fun s₁ _ => s₁.rq.vruntime = s.rq.vruntime) h rfl
      (fun _ _ _ _ hJ _ _ hv => hv.trans hJ) hr
  refine ⟨t', hq, hin, hhead, hlive, ?_, ?_⟩
  · rw [hs']
    exact hv
  · rw [hs']

/-- **`UpdateClock`** changes the vruntime of the current task alone. -/
theorem updateClock_queue {delta : Nat} (h : s.Queue t)
    (hr : s.updateClock delta = .ok s') :
    s'.Queue t ∧ s'.current = s.current ∧
      ∀ x, s.current ≠ some x → s'.rq.vruntime x = s.rq.vruntime x := by
  rw [updateClock] at hr
  cases hcur : s.current with
  | none =>
      rw [hcur] at hr
      injection hr with hr
      rw [← hr]
      exact ⟨⟨h.represents, h.leftmost⟩, rfl, fun _ _ => rfl⟩
  | some p =>
      rw [hcur] at hr
      simp only [updateVruntime] at hr
      split at hr
      · cases hr
      · injection hr with hr
        rw [← hr]
        refine ⟨⟨h.represents, h.leftmost⟩, rfl, fun x hx => ?_⟩
        exact Function.update_of_ne (fun hxp => hx (congrArg some hxp.symm)) _ _

/-- The links of tasks that are not in the tree do not matter. -/
theorem Queue.congr (h : s.Queue t) (hroot : s'.rq.links.root = s.rq.links.root)
    (hleft : s'.rq.leftmost = s.rq.leftmost)
    (hlinks : ∀ x ∈ t.inorder, (∀ d, s'.rq.links.child d x = s.rq.links.child d x) ∧
      s'.rq.links.parent x = s.rq.links.parent x) : s'.Queue t :=
  ⟨h.represents.congr hroot (fun x hx => (hlinks x hx).1) fun x hx => (hlinks x hx).2,
    hleft.trans h.leftmost⟩

end Cfs.Sched

/-! ## The kernel -/

namespace Kernel

variable {k k' : Kernel} {t : BinaryTree PcbId} {p : PcbId} {fuel : Nat}

/-- **The run queue between two calls**, with the tree `t`. -/
structure Queued (k : Kernel) (t : BinaryTree PcbId) : Prop where
  queue : k.sched.Queue t
  current : k.sched.current = k.currentProc
  mem : ∀ cur, k.currentProc = some cur → cur ∈ t.inorder
  empty : k.currentProc = none → t = nil
  tasks : ∀ x ∈ t.inorder, x ∈ k.tasks

theorem Queued.linked_iff (h : k.Queued t) : k.Linked p ↔ p ∈ t.inorder := by
  constructor
  · rintro ⟨u, hu, hp⟩
    rwa [hu.unique h.queue.represents] at hp
  · intro hp
    exact ⟨t, h.queue.represents, hp⟩

theorem Init.queued (h : k.Init) : k.Queued nil where
  queue := ⟨⟨h.root, trivial, List.nodup_nil⟩, h.leftmost⟩
  current := h.current.trans h.currentProc.symm
  mem := fun cur hcur => by rw [h.currentProc] at hcur; cases hcur
  empty := fun _ => rfl
  tasks := fun x hx => by cases hx

/-- An insertion by a running task keeps the invariant. -/
theorem Queued.of_inserted (h : k.Queued t) {n : Nat} {c : Ctx PcbId} {t' : BinaryTree PcbId}
    (hins : k.sched.Inserted t p n c k'.sched t') {cur : PcbId} (hcur : k.currentProc = some cur)
    (hcur' : k'.currentProc = some cur) (htasks : ∀ x, x = p ∨ x ∈ k.tasks → x ∈ k'.tasks) :
    k'.Queued t' where
  queue := hins.queue
  current := by
    rw [hins.current, h.current, hcur, hcur']
    rfl
  mem := by
    intro x hx
    rw [hcur', Option.some.injEq] at hx
    exact hins.mem.mpr (.inr (hx ▸ h.mem cur hcur))
  empty := fun hnone => by rw [hcur'] at hnone; cases hnone
  tasks := fun x hx => htasks x ((hins.mem.mp hx).imp_right (h.tasks x))

/-- The vruntime under which a call inserts its task. -/
def insertKey (k : Kernel) : Op → Nat
  | .wake p => k.sched.enqueueKey p
  | .fork child _ nice => (k.sched.initEntity child nice).enqueueKey child
  | _ => 0

/-- A new entity, set up and inserted: its links, its vruntime and its weight before that do
not matter. -/
theorem initEntity_inserted {s s₀ s' : Cfs.Sched} {nice : Int} (h : s.Queue t)
    (hp : p ∉ t.inorder) (hroot : s₀.rq.links.root = s.rq.links.root)
    (hleft : s₀.rq.leftmost = s.rq.leftmost) (hmin : s₀.rq.minVruntime = s.rq.minVruntime)
    (hcur : s₀.current = s.current)
    (hlinks : ∀ x, x ≠ p → (∀ d, s₀.rq.links.child d x = s.rq.links.child d x) ∧
      s₀.rq.links.parent x = s.rq.links.parent x)
    (hv : ∃ n, s₀.rq.vruntime = Function.update s.rq.vruntime p n)
    (hr : (s₀.initEntity p nice).enqueue fuel .ready p = .ok s') :
    ∃ c t', s.Inserted t p ((s.initEntity p nice).enqueueKey p) c s' t' := by
  have hq : (s₀.initEntity p nice).Queue t :=
    h.congr hroot hleft fun x hx => hlinks x fun hxp => hp (hxp ▸ hx)
  obtain ⟨n, hv⟩ := hv
  have hkey : (s₀.initEntity p nice).enqueueKey p = (s.initEntity p nice).enqueueKey p := by
    simp only [Cfs.Sched.enqueueKey, Cfs.Sched.normalized, Cfs.Sched.initEntity, hroot, hmin,
      Function.update_self]
  have hv' : (s₀.initEntity p nice).rq.vruntime = Function.update s.rq.vruntime p 0 := by
    simp only [Cfs.Sched.initEntity, hv, Function.update_idem]
  obtain ⟨c, t', hins⟩ := Cfs.Sched.enqueue_inserted hq hp hr
  rw [hkey] at hins
  refine ⟨c, t', hins.hole, ?_, hins.queue, hins.inorder, ?_, ?_⟩
  · refine Cfs.Sched.searchCtx_congr (fun x hx => ?_) hins.search
    have hxp : x ≠ p := by
      intro hxp
      rw [hins.hole, mem_inorder_plug] at hp
      exact hp (.inr (hxp ▸ hx))
    rw [hv', Function.update_of_ne hxp]
  · rw [hins.vruntime, hv', Function.update_idem]
  · rw [hins.current]
    exact congrArg (fun o : Option PcbId => if o = none then some p else o) hcur

/-- **The wake-up** of a task that is not linked. -/
theorem wake_inserted (h : k.sched.Queue t) (hp : p ∉ t.inorder) (hr : k.wake fuel p = .ok k') :
    ∃ s c t', k' = { k with pcbs := k.pcbs.setStat p .ready, sched := s } ∧
      k.sched.Inserted t p (k.insertKey (.wake p)) c s t' := by
  rw [wake, bind_eq_ok_iff] at hr
  obtain ⟨s, henq, hr⟩ := hr
  obtain ⟨c, t', hins⟩ := Cfs.Sched.enqueue_inserted h hp henq
  injection hr with hr
  exact ⟨s, c, t', hr.symm, hins⟩

theorem copyCurrent_eq (k : Kernel) (child : PcbId) :
    k.copyCurrent child = { k with
      pcbs := (k.copyCurrent child).pcbs
      sched := (k.copyCurrent child).sched } := by
  unfold copyCurrent
  split <;> rfl

/-- What the copy of the control block leaves alone in the scheduler. -/
theorem copyCurrent_sched (k : Kernel) (child : PcbId) :
    (k.copyCurrent child).sched.rq.links.root = k.sched.rq.links.root ∧
    (k.copyCurrent child).sched.rq.leftmost = k.sched.rq.leftmost ∧
    (k.copyCurrent child).sched.rq.minVruntime = k.sched.rq.minVruntime ∧
    (k.copyCurrent child).sched.current = k.sched.current ∧
    (∀ x, x ≠ child →
      (∀ d, (k.copyCurrent child).sched.rq.links.child d x = k.sched.rq.links.child d x) ∧
        (k.copyCurrent child).sched.rq.links.parent x = k.sched.rq.links.parent x) ∧
    ∃ n, (k.copyCurrent child).sched.rq.vruntime =
      Function.update k.sched.rq.vruntime child n := by
  unfold copyCurrent
  split
  · exact ⟨rfl, rfl, rfl, rfl, fun x hx =>
      ⟨fun d => Function.update_of_ne hx _ _, Function.update_of_ne hx _ _⟩, _, rfl⟩
  · exact ⟨rfl, rfl, rfl, rfl, fun x hx =>
      ⟨fun d => Function.update_of_ne hx _ _, Function.update_of_ne hx _ _⟩, _, rfl⟩

/-- The control blocks after `Fork`. -/
def forkedPcbs (k : Kernel) (child : PcbId) (flags : Nat) : PcbTable :=
  (k.copyCurrent child).pcbs.init child k.pidCounter flags k.kernelPml4

theorem forkedPcbs_of_ne {child x : PcbId} (flags : Nat) (h : x ≠ child) :
    (k.forkedPcbs child flags).stat x = k.pcbs.stat x ∧
      (k.forkedPcbs child flags).flags x = k.pcbs.flags x ∧
      (k.forkedPcbs child flags).pml4 x = k.pcbs.pml4 x := by
  unfold forkedPcbs copyCurrent
  cases k.currentProc <;> simp [PcbTable.init, PcbTable.clear, PcbTable.copy, h]

theorem forkedPcbs_self {child : PcbId} (flags : Nat) :
    (k.forkedPcbs child flags).stat child = .ready ∧
      (k.forkedPcbs child flags).pml4 child = k.kernelPml4 := by
  simp [forkedPcbs, PcbTable.init]

/-- **`Fork`** of a task that is not linked. -/
theorem fork_inserted {child : PcbId} {flags : Nat} {nice : Int} (h : k.sched.Queue t)
    (hp : child ∉ t.inorder) (hr : k.fork fuel child flags nice = .ok k') :
    ∃ s c t', k' = { k with
        pcbs := k.forkedPcbs child flags
        sched := s
        pidCounter := k.pidCounter + 1
        tasks := child :: k.tasks } ∧
      k.sched.Inserted t child (k.insertKey (.fork child flags nice)) c s t' := by
  rw [fork, bind_eq_ok_iff] at hr
  obtain ⟨s, henq, hr⟩ := hr
  injection hr with hr
  obtain ⟨hroot, hleft, hmin, hcur, hlinks, hv⟩ := k.copyCurrent_sched child
  obtain ⟨c, t', hins⟩ := initEntity_inserted h hp hroot hleft hmin hcur hlinks hv henq
  refine ⟨s, c, t', ?_, hins⟩
  rw [← hr, forkedPcbs, copyCurrent_eq]

/-- **`InitIdle`**, when nothing is linked. -/
theorem Queued.initIdle (h : k.Queued t) (hcur : k.currentProc = none) {idle : PcbId}
    (hr : k.initIdle fuel idle = .ok k') :
    ∃ s t', k' = { k with
        pcbs := (k.pcbs.clear idle).init idle k.pidCounter threadKernel k.kernelPml4
        sched := s
        currentProc := some idle
        pidCounter := k.pidCounter + 1
        tasks := idle :: k.tasks } ∧
      k'.Queued t' ∧ t'.inorder = [idle] := by
  obtain rfl := h.empty hcur
  rw [Kernel.initIdle, bind_eq_ok_iff] at hr
  obtain ⟨s, henq, hr⟩ := hr
  injection hr with hr
  obtain ⟨c, t', hins⟩ := initEntity_inserted h.queue (by simp)
    (rfl : (k.sched.clearEntity idle).rq.links.root = _) rfl rfl rfl
    (fun x hx => ⟨fun d => Function.update_of_ne hx _ _, Function.update_of_ne hx _ _⟩)
    ⟨_, rfl⟩ henq
  have hin : t'.inorder = [idle] := by
    have hnil : (plug c nil).inorder = [] := by
      rw [← hins.hole]
      rfl
    rw [inorder_plug, inorder_nil, List.append_nil, List.append_eq_nil_iff] at hnil
    rw [hins.inorder, hnil.1, hnil.2]
    rfl
  refine ⟨s, t', hr.symm, ?_, hin⟩
  rw [← hr]
  refine ⟨hins.queue, ?_, fun cur hcur' => ?_, (fun hnone => by cases hnone), fun x hx => ?_⟩
  · rw [hins.current, h.current, hcur]
    rfl
  · injection hcur' with hcur'
    rw [hin, hcur']
    exact List.mem_singleton_self _
  · rw [hin, List.mem_singleton] at hx
    rw [hx]
    exact List.mem_cons_self

/-! ### `Schedule` -/

/-- What the part of `Schedule` that updates the run queue does: `prev` is taken out, and
put back if it is neither dead nor blocked. -/
inductive Requeued (k : Kernel) (t : BinaryTree PcbId) (prev : PcbId) :
    Kernel → BinaryTree PcbId → Prop
  | off {s : Cfs.Sched} {t₁ : BinaryTree PcbId} :
      k.pcbs.stat prev = .dead ∨ k.pcbs.stat prev = .blocked → s.Queue t₁ →
      t₁.inorder = t.inorder.erase prev → s.rq.vruntime = k.sched.rq.vruntime →
      Requeued k t prev { k with sched := s } t₁
  | on {s₀ s : Cfs.Sched} {t₀ t₁ : BinaryTree PcbId} {n : Nat} {c : Ctx PcbId} :
      k.pcbs.stat prev ≠ .dead → t₀.inorder = t.inorder.erase prev →
      s₀.rq.vruntime = k.sched.rq.vruntime → s₀.Inserted t₀ prev n c s t₁ →
      Requeued k t prev { k with pcbs := k.pcbs.setStat prev .ready, sched := s } t₁

theorem requeue_requeued (h : k.sched.Queue t) {prev : PcbId} (hprev : prev ∈ t.inorder)
    (hr : k.requeue fuel prev = .ok k') : ∃ t₁, Requeued k t prev k' t₁ := by
  rw [requeue] at hr
  split at hr
  · next hoff =>
    rw [bind_eq_ok_iff] at hr
    obtain ⟨s, hdeq, hr⟩ := hr
    injection hr with hr
    obtain ⟨t₁, hq, hin, hv, -⟩ := Cfs.Sched.dequeue_queue h hprev hdeq
    rw [← hr]
    exact ⟨t₁, .off hoff hq hin hv⟩
  · next hon =>
    rw [bind_eq_ok_iff] at hr
    obtain ⟨s₀, hdeq, hr⟩ := hr
    rw [bind_eq_ok_iff] at hr
    obtain ⟨s, henq, hr⟩ := hr
    injection hr with hr
    obtain ⟨t₀, hq, hin, hv, -⟩ := Cfs.Sched.dequeue_queue h hprev hdeq
    have hout : prev ∉ t₀.inorder := by
      rw [hin]
      exact h.represents.nodup.not_mem_erase
    obtain ⟨c, t₁, hins⟩ := Cfs.Sched.enqueue_inserted hq hout henq
    rw [← hr]
    exact ⟨t₁, .on (fun hdead => hon (.inl hdead)) hin hv hins⟩

namespace Requeued

variable {k₁ : Kernel} {t₁ : BinaryTree PcbId} {prev : PcbId}

theorem queue (h : Requeued k t prev k₁ t₁) : k₁.sched.Queue t₁ := by
  cases h with
  | off _ hq => exact hq
  | on _ _ _ hins => exact hins.queue

theorem mem (h : Requeued k t prev k₁ t₁) (hprev : prev ∈ t.inorder) {x : PcbId}
    (hx : x ∈ t₁.inorder) : x ∈ t.inorder := by
  cases h with
  | off _ _ hin =>
      rw [hin] at hx
      exact List.mem_of_mem_erase hx
  | on _ hin _ hins =>
      rcases hins.mem.mp hx with rfl | hx
      · exact hprev
      · rw [hin] at hx
        exact List.mem_of_mem_erase hx

theorem frame (h : Requeued k t prev k₁ t₁) :
    k₁.currentProc = k.currentProc ∧ k₁.cr3 = k.cr3 ∧ k₁.kernelPml4 = k.kernelPml4 ∧
      k₁.tasks = k.tasks ∧ k₁.pcbs.pml4 = k.pcbs.pml4 ∧ k₁.pcbs.flags = k.pcbs.flags := by
  cases h <;> exact ⟨rfl, rfl, rfl, rfl, rfl, rfl⟩

/-- No task is given another state that is dead, and none that was dead comes back. -/
theorem dead_iff (h : Requeued k t prev k₁ t₁) (x : PcbId) :
    k₁.pcbs.stat x = .dead ↔ k.pcbs.stat x = .dead := by
  cases h with
  | off => exact Iff.rfl
  | on hlive =>
      simp only [PcbTable.setStat_stat]
      split
      · next hx => exact iff_of_false (by decide) (hx ▸ hlive)
      · exact Iff.rfl

end Requeued

/-- The switch changes the current task and the page table register alone. -/
theorem switchTo_eq (k : Kernel) (prev next : PcbId) :
    ∃ cur cr3, k.switchTo prev next = { k with currentProc := cur, cr3 := cr3 } := by
  unfold switchTo
  simp only
  repeat' split
  all_goals exact ⟨_, _, rfl⟩

@[simp] theorem switchTo_pcbs (k : Kernel) (prev next : PcbId) :
    (k.switchTo prev next).pcbs = k.pcbs := by
  obtain ⟨cur, cr3, h⟩ := k.switchTo_eq prev next
  rw [h]

@[simp] theorem switchTo_sched (k : Kernel) (prev next : PcbId) :
    (k.switchTo prev next).sched = k.sched := by
  obtain ⟨cur, cr3, h⟩ := k.switchTo_eq prev next
  rw [h]

@[simp] theorem switchTo_tasks (k : Kernel) (prev next : PcbId) :
    (k.switchTo prev next).tasks = k.tasks := by
  obtain ⟨cur, cr3, h⟩ := k.switchTo_eq prev next
  rw [h]

@[simp] theorem switchTo_kernelPml4 (k : Kernel) (prev next : PcbId) :
    (k.switchTo prev next).kernelPml4 = k.kernelPml4 := by
  obtain ⟨cur, cr3, h⟩ := k.switchTo_eq prev next
  rw [h]

theorem switchTo_currentProc {prev next : PcbId} (h : k.currentProc = some prev) :
    (k.switchTo prev next).currentProc = some next := by
  unfold switchTo
  simp only
  repeat' split
  all_goals first
    | rfl
    | rw [h]; exact congrArg some ‹prev = next›

/-- What `Schedule` does when it returns: the run queue is updated, the first task in it that
is not dead is picked, and the processor goes over to it. -/
inductive Scheduled (k : Kernel) (t : BinaryTree PcbId) (prev : PcbId) :
    Kernel → BinaryTree PcbId → Prop
  | intro {k₁ : Kernel} {t₁ t' : BinaryTree PcbId} {s : Cfs.Sched} (next : PcbId) :
      Requeued k t prev k₁ t₁ → t'.inorder = Cfs.Sched.skipDead k₁.pcbs.stat t₁.inorder →
      t'.inorder.head? = some next → k₁.pcbs.stat next ≠ .dead →
      s.rq.vruntime = k₁.sched.rq.vruntime →
      (({ k₁ with sched := s } : Kernel).switchTo prev next).currentProc = some next →
      Scheduled k t prev (({ k₁ with sched := s } : Kernel).switchTo prev next) t'

theorem Scheduled.frame {prev : PcbId} {t' : BinaryTree PcbId} (h : Scheduled k t prev k' t') :
    k'.kernelPml4 = k.kernelPml4 ∧ k'.tasks = k.tasks ∧ k'.pcbs.pml4 = k.pcbs.pml4 := by
  obtain ⟨next, hre, -⟩ := h
  obtain ⟨-, -, hkernel, htasks, hpml4, -⟩ := hre.frame
  rw [switchTo_kernelPml4, switchTo_tasks, switchTo_pcbs]
  exact ⟨hkernel, htasks, hpml4⟩

theorem Queued.schedule (h : k.Queued t) {prev : PcbId} (hprev : k.currentProc = some prev)
    (hr : k.schedule fuel = .ok k') : ∃ t', Scheduled k t prev k' t' ∧ k'.Queued t' := by
  rw [Kernel.schedule.eq_def, hprev] at hr
  simp only at hr
  rw [bind_eq_ok_iff] at hr
  obtain ⟨k₁, hreq, hr⟩ := hr
  rw [bind_eq_ok_iff] at hr
  obtain ⟨⟨s, n⟩, hpick, hr⟩ := hr
  cases n with
  | none => cases hr
  | some next =>
      injection hr with hr
      obtain ⟨t₁, hre⟩ := requeue_requeued h.queue (h.mem prev hprev) hreq
      obtain ⟨t', hq, hin, hhead, hlive, hv, hcur⟩ :=
        Cfs.Sched.pickNextTask_queue hre.queue hpick
      obtain ⟨hproc, -, -, htasks, -⟩ := hre.frame
      have hcur' : (({ k₁ with sched := s } : Kernel).switchTo prev next).currentProc =
          some next := switchTo_currentProc (hproc.trans hprev)
      rw [← hr]
      refine ⟨t', .intro next hre hin hhead hlive hv hcur', ?_⟩
      refine ⟨?_, ?_, fun cur hcur'' => ?_, fun hnone => ?_, fun x hx => ?_⟩
      · rw [switchTo_sched]
        exact hq
      · rw [hcur', switchTo_sched]
        exact hcur
      · rw [hcur'] at hcur''
        exact List.mem_of_mem_head? (hhead.trans hcur'')
      · rw [hcur'] at hnone
        cases hnone
      · have hx' : x ∈ t₁.inorder := by
          rw [hin] at hx
          exact (List.dropWhile_sublist _).subset hx
        rw [switchTo_tasks]
        exact htasks ▸ h.tasks x (hre.mem (h.mem prev hprev) hx')

/-! ### The steps -/

/-- What a step does, from a state with the tree `t`: one case for each call. -/
inductive Stepped (k : Kernel) (t : BinaryTree PcbId) :
    Op → Kernel → BinaryTree PcbId → Prop
  | initIdle {idle : PcbId} {s : Cfs.Sched} {t' : BinaryTree PcbId} :
      k.currentProc = none → t'.inorder = [idle] →
      Stepped k t (.initIdle idle) { k with
        pcbs := (k.pcbs.clear idle).init idle k.pidCounter threadKernel k.kernelPml4
        sched := s
        currentProc := some idle
        pidCounter := k.pidCounter + 1
        tasks := idle :: k.tasks } t'
  | fork {child : PcbId} {flags : Nat} {nice : Int} {s : Cfs.Sched} {c : Ctx PcbId}
      {t' : BinaryTree PcbId} (cur : PcbId) :
      k.currentProc = some cur → child ∉ k.tasks →
      k.sched.Inserted t child (k.insertKey (.fork child flags nice)) c s t' →
      Stepped k t (.fork child flags nice) { k with
        pcbs := k.forkedPcbs child flags
        sched := s
        pidCounter := k.pidCounter + 1
        tasks := child :: k.tasks } t'
  | wake {p : PcbId} {s : Cfs.Sched} {c : Ctx PcbId} {t' : BinaryTree PcbId} (cur : PcbId) :
      k.currentProc = some cur → p ∉ t.inorder →
      k.sched.Inserted t p (k.insertKey (.wake p)) c s t' →
      Stepped k t (.wake p) { k with pcbs := k.pcbs.setStat p .ready, sched := s } t'
  | tick {delta : Nat} {s : Cfs.Sched} :
      (∀ x, k.currentProc ≠ some x → s.rq.vruntime x = k.sched.rq.vruntime x) →
      Stepped k t (.tick delta) { k with sched := s } t
  | schedule {k' : Kernel} {t' : BinaryTree PcbId} (prev : PcbId) :
      k.currentProc = some prev → Scheduled k t prev k' t' → Stepped k t .schedule k' t'
  | block {k' : Kernel} {t' : BinaryTree PcbId} (prev : PcbId) :
      k.currentProc = some prev → Scheduled (k.setBlocked prev) t prev k' t' →
      Stepped k t .block k' t'
  | kill {p : PcbId} : p ∈ k.tasks → Stepped k t (.kill p) (k.kill p) t
  | execve {pml4 : Nat} (cur : PcbId) :
      k.currentProc = some cur → pml4 ≠ 0 → Stepped k t (.execve pml4) (k.execve cur pml4) t

/-- **Every step** is one of these, and keeps the invariant. -/
theorem Queued.step (h : k.Queued t) {op : Op} (hs : Kernel.step k op k') :
    ∃ t', Stepped k t op k' t' ∧ k'.Queued t' := by
  obtain ⟨hop, fuel, hr⟩ := hs
  cases op with
  | initIdle idle =>
      obtain ⟨s, t', rfl, hq, hin⟩ := h.initIdle hop.1 hr
      exact ⟨t', .initIdle hop.1 hin, hq⟩
  | fork child flags nice =>
      obtain ⟨cur, hcur⟩ := Option.ne_none_iff_exists'.mp hop.1
      obtain ⟨s, c, t', rfl, hins⟩ :=
        fork_inserted h.queue (fun hmem => hop.2 (h.tasks child hmem)) hr
      exact ⟨t', .fork cur hcur hop.2 hins,
        h.of_inserted hins hcur hcur fun x hx => List.mem_cons.mpr hx⟩
  | wake p =>
      obtain ⟨cur, hcur⟩ := Option.ne_none_iff_exists'.mp hop.1
      have hp : p ∉ t.inorder := fun hmem => hop.2.2 (h.linked_iff.mpr hmem)
      obtain ⟨s, c, t', rfl, hins⟩ := wake_inserted h.queue hp hr
      refine ⟨t', .wake cur hcur hp hins, h.of_inserted hins hcur hcur fun x hx => ?_⟩
      rcases hx with rfl | hx
      · exact hop.2.1
      · exact hx
  | tick delta =>
      rw [call, Kernel.tick, bind_eq_ok_iff] at hr
      obtain ⟨s, hclock, hr⟩ := hr
      injection hr with hr
      obtain ⟨hq, hcur, hv⟩ := Cfs.Sched.updateClock_queue h.queue hclock
      rw [← hr]
      exact ⟨t, .tick (h.current ▸ hv), hq, hcur.trans h.current, h.mem, h.empty, h.tasks⟩
  | schedule =>
      obtain ⟨prev, hprev⟩ := Option.ne_none_iff_exists'.mp hop
      obtain ⟨t', hsch, hq⟩ := h.schedule hprev hr
      exact ⟨t', .schedule prev hprev hsch, hq⟩
  | block =>
      obtain ⟨prev, hprev, -⟩ := hop
      simp only [call, hprev] at hr
      have hb : (k.setBlocked prev).Queued t := ⟨h.queue, h.current, h.mem, h.empty, h.tasks⟩
      obtain ⟨t', hsch, hq⟩ := hb.schedule hprev hr
      exact ⟨t', .block prev hprev hsch, hq⟩
  | kill p =>
      injection hr with hr
      rw [← hr]
      exact ⟨t, .kill hop, h.queue, h.current, h.mem, h.empty, h.tasks⟩
  | execve pml4 =>
      obtain ⟨cur, hcur⟩ := Option.ne_none_iff_exists'.mp hop.1
      simp only [call, hcur] at hr
      injection hr with hr
      rw [← hr]
      exact ⟨t, .execve cur hcur hop.2, h.queue, h.current, h.mem, h.empty, h.tasks⟩

end Kernel

end InfoKernel.Task
