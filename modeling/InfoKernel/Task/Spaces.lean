import InfoKernel.Lib.Refinement
import InfoKernel.Task.Exec

/-!
# The address spaces

`Execve` of `src/task/exec.cc` behind the loop that loads the segments, and `ExecProc`: the array of
the arguments, the arguments themselves and the stack get pages of their own, which are mapped where
they lie.  The fields of the task and the registers are left out.

All processes and the kernel share one memory, and what keeps them apart is only which pages `Alloc`
and `AllocPages` have handed out.  `Given` says it of one process: its tables and all pages that are
mapped in its half were free when its `Execve` began, and nothing else has changed since.
`spaces_run` is what follows for any number of processes started one after the other, with
allocations of the kernel between them.
-/

namespace InfoKernel.Task.Exec

open InfoKernel.Lib InfoKernel.Mm InfoKernel.Mm.Page

/-! ## The rest of `Execve` -/

/-- `PTE_PRESENT | PTE_WRITABLE | PTE_USER` -/
def userFlags : Nat := ptePresent ||| pteWritable ||| pteUser

/-- The memory after `strcpy`. -/
def copyString (mem : Nat → UInt8) (dst : Nat) (s : List UInt8) : Nat → UInt8 :=
  fun i => if dst ≤ i ∧ i < dst + (s.length + 1) then (s ++ [0]).getD (i - dst) 0 else mem i

/-- `strcpy` of a string that is given without the byte at its end. -/
def strcpy (dst : Nat) (s : List UInt8) : Program (Arena FrameMem) Fault Unit :=
  fun a =>
    if dst = 0 then .error .nullDeref else .ok ((), { a with mem := copyString a.mem dst s })

/-- A page that is mapped where it lies. -/
def mapPage (fuel pml4 addr : Nat) : Program (Arena FrameMem) Fault Unit :=
  map fuel pml4 addr addr userFlags

/-- A turn of the loop over the arguments. -/
def pushArg (fuel pml4 userArgv argc : Nat) (s : List UInt8) :
    Program (Arena FrameMem) Fault Unit := do
  let page ← allocBlock fuel (s.length + 1)
  store userArgv argc (vir2Phy page)
  let arg ← load userArgv argc
  strcpy (phy2Vir arg) s
  mapPage fuel pml4 arg

/-- The loop over the arguments, from `argc` on. -/
def pushArgs (fuel pml4 userArgv : Nat) : Nat → List (List UInt8) →
    Program (Arena FrameMem) Fault Unit
  | _, [] => pure ()
  | argc, s :: argv => do
      pushArg fuel pml4 userArgv argc s
      pushArgs fuel pml4 userArgv (argc + 1) argv

/-- `ExecProc`; the result is `start_addr`. -/
def execProc (fuel pml4 : Nat) : Program (Arena FrameMem) Fault Nat := do
  let startAddr ← allocBlock fuel 0x3000
  mapPage fuel pml4 (vir2Phy startAddr)
  mapPage fuel pml4 (u64 (vir2Phy startAddr + 0x1000))
  mapPage fuel pml4 (u64 (vir2Phy startAddr + 0x2000))
  return startAddr

/-- A process: its root, its array of arguments and its stack. -/
structure Process where
  pml4 : Nat
  userArgv : Nat
  startAddr : Nat
  deriving DecidableEq, Repr

/-- `Execve` to its end, and `ExecProc`; without a result where `Execve` returns -1. -/
def launch (fuel kernelPml4 : Nat) (f : Elf) (argv : List (List UInt8)) :
    Program (Arena FrameMem) Fault (Option Process) := do
  match ← execve fuel kernelPml4 f with
  | none => return none
  | some pml4 =>
      let userArgv ← allocBlock fuel 0
      pushArgs fuel pml4 userArgv 0 argv
      mapPage fuel pml4 (vir2Phy userArgv)
      let startAddr ← execProc fuel pml4
      return some ⟨pml4, userArgv, startAddr⟩

/-- What is asked of the allocator: a program is started, or the kernel takes memory for itself. -/
inductive Request where
  | launch (f : Elf) (argv : List (List UInt8))
  | alloc (size : Nat)

/-- The process that has been started, if one has. -/
def Request.exec (fuel kernelPml4 : Nat) :
    Request → Program (Arena FrameMem) Fault (Option Process)
  | .launch f argv => Exec.launch fuel kernelPml4 f argv
  | .alloc size => do
      let _ ← allocBlock fuel size
      return none

/-- The segments of a program are those of a user program, and the array of its arguments fits into
a page, for which nothing is checked. -/
def Request.Fits : Request → Prop
  | .launch f argv => (∀ t ∈ f.loads, t.Fits f) ∧ argv.length ≤ 512 ∧ ∀ s ∈ argv, s.length < 2 ^ 40
  | .alloc size => size < 2 ^ 60

/-- `Alloc` has not returned a null pointer for the array of the arguments or the stack, which is
not checked either. -/
def Process.Placed (p : Process) : Prop := p.userArgv ≠ 0 ∧ p.startAddr ≠ 0

instance (p : Process) : Decidable p.Placed := inferInstanceAs (Decidable (_ ∧ _))

/-! ## Time -/

/-- What changes in time: free pages become fewer, and what is apart from them keeps its bytes. -/
structure Later (a a' : Arena FrameMem) : Prop where
  frames : FramesOk windowSize a'.frames
  free : ∀ x, FreePage a'.frames x → FreePage a.frames x
  rest : ∀ x, (∀ y, FreePage a.frames y → Apart y x) → SamePage a.mem a'.mem x

namespace Later

variable {a b c : Arena FrameMem} {p n : Nat}

theorem refl (h : FramesOk windowSize a.frames) : Later a a :=
  ⟨h, fun _ hx => hx, fun _ _ => SamePage.refl⟩

theorem trans (h : Later a b) (h' : Later b c) : Later a c where
  frames := h'.frames
  free x hx := h.free x (h'.free x hx)
  rest x hx := (h.rest x hx).trans (h'.rest x fun y hy => hx y (h.free y hy))

theorem of_block (hb : Block a b p n) (hn : 0 < n) : Later a b where
  frames := hb.frames
  free := hb.free
  rest _ hx := hb.samePage (hx p (hb.first hn)).symm

end Later

/-! ## A process -/

section Pages

variable {fuel kernelPml4 pml4 p n x virt : Nat} {a₀ a a' : Arena FrameMem} {owned : Nat → Prop}

/-- The pages of a block. -/
def Pages (p n x : Nat) : Prop := ∃ j, j < n ∧ x = p + j * pageSize

/-- **What a process has been given** since `a₀`: the pages of its tables, and those of `owned`,
which are all that its half of the page table maps.  The other half is the kernel's. -/
structure Given (fuel kernelPml4 : Nat) (a₀ a : Arena FrameMem) (pml4 : Nat) (owned : Nat → Prop) :
    Prop where
  tables : Tables (pageSupply fuel windowSize) 256 a pml4
  aligned : pml4 % pageSize = 0
  mapped : ∀ v, pml4Entry v < 256 → entryFor fuel a pml4 v &&& ptePresent ≠ 0 →
    ∃ x, owned x ∧ entryFor fuel a pml4 v &&& pageMask = vir2Phy x
  foreign : ∀ x, owned x → Foreign (pageSupply fuel windowSize) 256 a pml4 x
  upper : ∀ r, 256 ≤ r → r < 512 → readEntry a.mem pml4 r = readEntry a₀.mem kernelPml4 r
  fresh : ∀ x, (mapper fuel).Block 256 a pml4 x ∨ owned x → FreePage a₀.frames x
  first : FramesOk windowSize a₀.frames
  later : Later a₀ a

/-- A page of the window. -/
theorem window_of_free {frame : FrameMem} (h : FramesOk windowSize frame) (hx : FreePage frame x) :
    identityBase ≤ x ∧ x + pageSize ≤ 2 ^ 64 ∧ x % pageSize = 0 := by
  have hmod := h.page_of_free hx
  obtain ⟨-, i, hi, rfl⟩ := hx
  obtain ⟨haddr, hle⟩ := addr_of_window h (FrameMem.mem_freeFrames.mp hi).1
  rw [haddr] at hmod ⊢
  exact ⟨by omega, hle, hmod⟩

/-- Its physical address. -/
theorem vir2Phy_of_window (h : identityBase ≤ x) (hlt : x < 2 ^ 64) :
    vir2Phy x = x - identityBase := by
  unfold vir2Phy sub64 u64
  rw [identityBase] at h ⊢
  omega

theorem phy2Vir_vir2Phy (hlt : x < 2 ^ 64) : phy2Vir (vir2Phy x) = x := by
  unfold phy2Vir vir2Phy sub64 u64
  rw [identityBase]
  omega

/-- A page is its own address in an entry. -/
theorem vir2Phy_and_pageMask (hx : x % pageSize = 0) : vir2Phy x &&& pageMask = vir2Phy x := by
  have hphys : vir2Phy x < 2 ^ 64 := Nat.mod_lt _ (by decide)
  have hmod : vir2Phy x % pageSize = 0 := by
    rw [pageSize] at hx ⊢
    rw [vir2Phy, sub64, u64, u64, identityBase]
    omega
  rw [and_pageMask hphys, hmod, Nat.sub_zero]

/-- Bytes that are written to the pages of a block leave other pages alone. -/
theorem samePage_of_outside {mem mem' : Nat → UInt8} {len : Nat}
    (hmem : ∀ i, ¬ (p ≤ i ∧ i < p + len) → mem' i = mem i)
    (hx : ∀ y, Pages p n y → Apart y x) (hlen : len ≤ n * pageSize) : SamePage mem mem' x := by
  intro i hi hi'
  refine hmem i fun hin => ?_
  have hlt : i - p < n * pageSize := by omega
  have happart := hx _ ⟨(i - p) / pageSize, Nat.div_lt_of_lt_mul (by rwa [Nat.mul_comm]), rfl⟩
  rw [Apart, pageSize] at happart
  rw [pageSize] at hi'
  omega

/-- The number of pages that `Alloc` takes for some bytes. -/
theorem pagesFor_spec {size : Nat} (hsize : size < 2 ^ 60) : 0 < Heap.pagesFor size ∧
    Heap.pagesFor size < 2 ^ 52 ∧ size ≤ Heap.pagesFor size * pageSize := by
  have hround : ∀ k, k < 2 ^ 61 → u64 (u64 (k + 8) + pageSize - 1) = k + 8 + pageSize - 1 := by
    intro k hk
    have hfirst : u64 (k + 8) = k + 8 := Nat.mod_eq_of_lt (by omega)
    rw [hfirst, u64, pageSize]
    omega
  rw [Heap.pagesFor]
  rw [pageSize] at hround ⊢
  split
  · rw [hround 1 (by decide)]
    omega
  · rw [hround size (by omega)]
    omega

namespace Given

/-- A page of a process: one of its tables, or one that it may use. -/
theorem apart_free (h : Given fuel kernelPml4 a₀ a pml4 owned) {y : Nat}
    (hx : (mapper fuel).Block 256 a pml4 x ∨ owned x) (hy : FreePage a.frames y) : Apart x y := by
  rcases hx with hx | hx
  · exact h.tables.block_free hx hy
  · exact ((h.foreign x hx).free y hy).symm

/-- What leaves the tables alone and makes no page free keeps it. -/
theorem undisturbed (h : Given fuel kernelPml4 a₀ a pml4 owned) (hlater : Later a₀ a')
    (hfree : ∀ x, FreePage a'.frames x → FreePage a.frames x)
    (hsame : ∀ x, (mapper fuel).Block 256 a pml4 x → SamePage a.mem a'.mem x) :
    Given fuel kernelPml4 a₀ a' pml4 owned ∧
      (∀ v, pml4Entry v < 256 → entryFor fuel a' pml4 v = entryFor fuel a pml4 v) ∧
      ∀ x, (mapper fuel).Block 256 a' pml4 x → (mapper fuel).Block 256 a pml4 x := by
  obtain ⟨htables, hpte, hblocks⟩ := h.tables.undisturbed hlater.frames hfree hsame
  have hentry : ∀ v, pml4Entry v < 256 → entryFor fuel a' pml4 v = entryFor fuel a pml4 v :=
    fun v hv => hpte _ (leaf_tablePos hv) _ (and_entryMask_lt _)
  refine ⟨?_, hentry, hblocks⟩
  exact
    { tables := htables
      aligned := h.aligned
      mapped := fun v hv hpresent => by
        rw [hentry v hv] at hpresent ⊢
        exact h.mapped v hv hpresent
      foreign := fun x hx => by
        obtain ⟨hblock, hnotfree⟩ := foreign_iff.mp (h.foreign x hx)
        exact foreign_iff.mpr
          ⟨fun y hy => hblock y (hblocks y hy), fun y hy => hnotfree y (hfree y hy)⟩
      upper := fun r hr hr' =>
        ((hsame pml4 (.inl rfl)).readEntry hr').trans (h.upper r hr hr')
      fresh := fun x hx => h.fresh x (hx.imp (hblocks x) id)
      first := h.first
      later := hlater }

/-- **Time does not touch it.** -/
theorem keeps (h : Given fuel kernelPml4 a₀ a pml4 owned) (hl : Later a a') :
    Given fuel kernelPml4 a₀ a' pml4 owned ∧
      (∀ v, pml4Entry v < 256 → entryFor fuel a' pml4 v = entryFor fuel a pml4 v) ∧
      (∀ x, (mapper fuel).Block 256 a' pml4 x → (mapper fuel).Block 256 a pml4 x) ∧
      ∀ x, (mapper fuel).Block 256 a pml4 x ∨ owned x → SamePage a.mem a'.mem x := by
  have hsame : ∀ x, (mapper fuel).Block 256 a pml4 x ∨ owned x → SamePage a.mem a'.mem x :=
    fun x hx => hl.rest x fun y hy => (h.apart_free hx hy).symm
  obtain ⟨hgiven, hentry, hblocks⟩ :=
    h.undisturbed (h.later.trans hl) hl.free fun x hx => hsame x (.inl hx)
  exact ⟨hgiven, hentry, hblocks, hsame⟩

/-- **Writing** to pages that it may use. -/
theorem write (h : Given fuel kernelPml4 a₀ a pml4 owned) {mem : Nat → UInt8}
    (hmem : ∀ x, (∀ y, owned y → Apart y x) → SamePage a.mem mem x) :
    Given fuel kernelPml4 a₀ { a with mem := mem } pml4 owned := by
  have hlater : Later a₀ { a with mem := mem } :=
    { frames := h.later.frames
      free := h.later.free
      rest := fun x hx => (h.later.rest x hx).trans
        (hmem x fun y hy => hx y (h.fresh y (.inr hy))) }
  refine (h.undisturbed hlater (fun _ hx => hx) fun x hx => hmem x fun y hy => ?_).1
  exact ((foreign_iff.mp (h.foreign y hy)).1 x hx).symm

/-- **`Alloc`** gives it more pages. -/
theorem alloc (h : Given fuel kernelPml4 a₀ a pml4 owned) {size : Nat} (hsize : size < 2 ^ 60) :
    Ends (allocBlock fuel size) a (fun _ => True) fun p a' => p = 0 ∨
      (p ≠ 0 ∧ p % pageSize = 0 ∧ p + Heap.pagesFor size * pageSize ≤ 2 ^ 64 ∧
        Given fuel kernelPml4 a₀ a' pml4 fun x => owned x ∨ Pages p (Heap.pagesFor size) x) := by
  obtain ⟨hpos, hlt, -⟩ := pagesFor_spec hsize
  refine (allocBlock_ends h.tables.ok rfl hpos hlt).mono fun p a' hp => hp.imp id fun hb => ?_
  obtain ⟨-, hnew⟩ := hb.keeps hpos h.tables
  have hold := (h.keeps (Later.of_block hb hpos)).1
  refine ⟨hb.ne, hb.aligned, hb.bound, ?_⟩
  exact
    { tables := hold.tables
      aligned := hold.aligned
      mapped := fun v hv hpresent => by
        obtain ⟨x, hx, haddr⟩ := hold.mapped v hv hpresent
        exact ⟨x, .inl hx, haddr⟩
      foreign := by
        rintro x (hx | ⟨j, hj, rfl⟩)
        · exact hold.foreign x hx
        · exact hnew j hj
      upper := hold.upper
      fresh := by
        rintro x (hx | hx | ⟨j, hj, rfl⟩)
        · exact hold.fresh x (.inl hx)
        · exact hold.fresh x (.inr hx)
        · exact h.later.free _ (hb.was_free j hj)
      first := h.first
      later := hold.later }

/-- The tables of a page table after a call of `Map` have been its tables before, or free. -/
theorem fresh_of_maps (h : Given fuel kernelPml4 a₀ a pml4 owned) {e k : Nat}
    (hmaps : Maps (pageSupply fuel windowSize) 256 a a' pml4 virt e k)
    (hx : (mapper fuel).Block 256 a' pml4 x) : FreePage a₀.frames x := by
  by_contra hnot
  have hmod : x % pageSize = 0 := by
    rcases hx with rfl | ⟨q, hq, hne, rfl⟩
    · exact h.aligned
    · exact hmaps.tables.aligned q hq hne
  -- a page that was no table and is not free is none now
  have hforeign : Foreign (pageSupply fuel windowSize) 256 a pml4 x := by
    refine foreign_iff.mpr ⟨fun y hy => ?_, fun y hy => ?_⟩
    · have hy' : FreePage a₀.frames y := h.fresh y (.inl hy)
      refine apart_of_ne ?_ hmod fun heq => hnot (heq ▸ hy')
      rcases hy with rfl | ⟨q, hq, hne, rfl⟩
      · exact h.aligned
      · exact h.tables.aligned q hq hne
    · exact apart_of_ne (h.tables.ok.page_of_free hy) hmod fun heq => hnot (heq ▸ h.later.free y hy)
  exact ((foreign_iff.mp (hmaps.foreign x hforeign).1).1 x hx).ne rfl

/-- **`Map`** of a page that it may use. -/
theorem map (h : Given fuel kernelPml4 a₀ a pml4 owned) {phys : Nat} (hx : owned x)
    (hphys : phys &&& pageMask = vir2Phy x) (hlow : pml4Entry virt < 256) :
    Ends (Page.map fuel pml4 virt phys userFlags) a (fun _ => True) fun _ a' =>
      Given fuel kernelPml4 a₀ a' pml4 owned := by
  have hflags : userFlags < pageSize := by decide
  have hmap : Ends (Page.map fuel pml4 virt phys userFlags) a _ _ :=
    (Mapper.map_ends h.tables hlow hflags).and (Mapper.map_beyond h.tables hlow hflags)
  refine (hmap.mono_error fun _ _ => True.intro).mono ?_
  rintro _ a' ⟨hmaps, hbeyond⟩
  exact
    { tables := hmaps.tables
      aligned := h.aligned
      mapped := fun v hv hpresent => by
        have hentry : entryFor fuel a' pml4 v = _ :=
          hmaps.pte _ (leaf_tablePos hv) (ptEntry v) (and_entryMask_lt _)
        rw [hentry] at hpresent ⊢
        split at hpresent
        · next hsame =>
          rw [if_pos hsame, entry_and_pageMask hflags]
          exact ⟨x, hx, hphys⟩
        · next hother =>
          rw [if_neg hother]
          exact h.mapped v hv hpresent
      foreign := fun y hy => (hmaps.foreign y (h.foreign y hy)).1
      upper := fun r hr hr' => (hbeyond r hr hr').trans (h.upper r hr hr')
      fresh := by
        rintro y (hy | hy)
        · exact h.fresh_of_maps hmaps hy
        · exact h.fresh y (.inr hy)
      first := h.first
      later :=
        { frames := hmaps.tables.ok
          free := fun y hy => h.later.free y (hmaps.free y hy).1
          rest := fun y hy => by
            have hforeign : Foreign (pageSupply fuel windowSize) 256 a pml4 y :=
              foreign_iff.mpr ⟨fun z hz => hy z (h.fresh z (.inl hz)),
                fun z hz => hy z (h.later.free z hz)⟩
            exact (h.later.rest y hy).trans (hmaps.foreign y hforeign).2 } }

end Given

end Pages

/-! ### The steps of `Execve` -/

section Steps

variable {fuel kernelPml4 pml4 argc userArgv : Nat} {a₀ a : Arena FrameMem} {owned : Nat → Prop}
  {f : Elf} {t : Phdr} {ts : List Phdr} {calls : List MapCall} {s : List UInt8}
  {argv : List (List UInt8)}

/-- It has been given more. -/
def Grown (fuel kernelPml4 : Nat) (a₀ a : Arena FrameMem) (pml4 : Nat) (owned : Nat → Prop) :
    Prop :=
  ∃ owned', (∀ x, owned x → owned' x) ∧ Given fuel kernelPml4 a₀ a pml4 owned'

theorem Grown.trans {owned' : Nat → Prop} (h : Grown fuel kernelPml4 a₀ a pml4 owned')
    (hle : ∀ x, owned x → owned' x) : Grown fuel kernelPml4 a₀ a pml4 owned := by
  obtain ⟨more, hmore, hgiven⟩ := h
  exact ⟨more, fun x hx => hmore x (hle x hx), hgiven⟩

namespace Given

/-- What is owned lies in the window. -/
theorem window (h : Given fuel kernelPml4 a₀ a pml4 owned) {x : Nat} (hx : owned x) :
    identityBase ≤ x ∧ x + pageSize ≤ 2 ^ 64 ∧ x % pageSize = 0 :=
  window_of_free h.first (h.fresh x (.inr hx))

theorem mapAll (h : Given fuel kernelPml4 a₀ a pml4 owned)
    (hcalls : ∀ c ∈ calls, c.flags = userFlags ∧ pml4Entry c.virt < 256 ∧
      ∃ x, owned x ∧ c.phys &&& pageMask = vir2Phy x) :
    Ends (Page.mapAll fuel pml4 calls) a (fun _ => True) fun _ a' =>
      Given fuel kernelPml4 a₀ a' pml4 owned := by
  induction calls generalizing a with
  | nil => exact Ends.pure h
  | cons c calls ih =>
      obtain ⟨⟨hflags, hlow, x, hx, hphys⟩, hrest⟩ := List.forall_mem_cons.mp hcalls
      have hmap := h.map hx hphys hlow
      rw [← hflags] at hmap
      exact hmap.bind fun _ b hb => ih hb hrest

/-- A page is mapped where it lies. -/
theorem mapPage (h : Given fuel kernelPml4 a₀ a pml4 owned) {x : Nat} (hx : owned x) :
    Ends (Exec.mapPage fuel pml4 (vir2Phy x)) a (fun _ => True) fun _ a' =>
      Given fuel kernelPml4 a₀ a' pml4 owned := by
  obtain ⟨hbase, hle, hmod⟩ := h.window hx
  refine h.map hx (vir2Phy_and_pageMask hmod) (pml4Entry_lt_of_lt ?_)
  rw [pageSize] at hle
  rw [vir2Phy_of_window hbase (by omega)]
  rw [identityBase] at hbase ⊢
  omega

theorem loadSegment (h : Given fuel kernelPml4 a₀ a pml4 owned) (ht : t.Fits f) :
    Ends (Exec.loadSegment fuel f pml4 t) a (fun _ => True) fun _ a' =>
      Grown fuel kernelPml4 a₀ a' pml4 owned := by
  have hp := ht.pages
  have huser := hp.user
  have hcount : t.pageCount < 2 ^ 40 := by
    rw [pageSize] at huser
    omega
  have hpages : Heap.pagesFor (sub64 t.pageEnd t.pageStart) = t.pageCount + 1 := by
    rw [hp.size, pagesFor_mul hcount]
  have hsize : sub64 t.pageEnd t.pageStart < 2 ^ 60 := by
    rw [hp.size]
    omega
  refine (h.alloc hsize).bind ?_
  rintro b a₁ (rfl | ⟨hne, hmod, hbound, h₁⟩)
  · -- nothing is read to a null pointer
    exact Ends.bind Ends.trivial fun _ _ _ => True.intro
  rw [hpages] at hbound h₁
  refine (h₁.mapAll fun c hc => ?_).bind fun _ a₂ h₂ => ?_
  · obtain ⟨-, hlow⟩ := hp.calls_low c hc
    obtain ⟨j, hj, rfl⟩ := List.mem_map.mp hc
    have hj' := List.mem_range.mp hj
    refine ⟨rfl, hlow, b + j * pageSize, .inr ⟨j, hj', rfl⟩, ?_⟩
    have hle : j * pageSize + pageSize ≤ (t.pageCount + 1) * pageSize := by
      rw [← Nat.succ_mul]
      exact Nat.mul_le_mul_right _ hj'
    have haddr : u64 (b + j * 0x1000) = b + j * pageSize := by
      refine Nat.mod_eq_of_lt ?_
      rw [pageSize] at hle hbound
      omega
    show vir2Phy (u64 (b + j * 0x1000)) &&& pageMask = _
    rw [haddr, vir2Phy_and_pageMask]
    rw [Nat.add_mul_mod_self_right, hmod]
  · refine Ends.of_ok (if_neg hne) ⟨_, fun x hx => .inl hx, h₂.write fun x hx => ?_⟩
    have hfits : t.pFilesz ≤ (t.pageCount + 1) * pageSize := by
      have hcovers := hp.covers
      have hstart := hp.start
      have hfilesz := ht.filesz
      rw [Nat.add_mul]
      omega
    refine samePage_of_outside (fun i hi => if_neg ?_) (fun y hy => hx y (.inr hy)) hfits
    omega

theorem loadAll (h : Given fuel kernelPml4 a₀ a pml4 owned)
    (hts : ∀ t ∈ ts, t.pType = ptLoad → t.Fits f) :
    Ends (Exec.loadAll fuel f pml4 ts) a (fun _ => True) fun _ a' =>
      Grown fuel kernelPml4 a₀ a' pml4 owned := by
  induction ts generalizing a owned with
  | nil => exact Ends.pure ⟨owned, fun _ hx => hx, h⟩
  | cons t ts ih =>
      obtain ⟨ht, hrest⟩ := List.forall_mem_cons.mp hts
      have hheader : Ends (loadHeader fuel f pml4 t) a (fun _ => True) fun _ a' =>
          Grown fuel kernelPml4 a₀ a' pml4 owned := by
        unfold loadHeader
        split
        · next hload => exact h.loadSegment (ht hload)
        · exact Ends.pure ⟨owned, fun _ hx => hx, h⟩
      refine hheader.bind ?_
      rintro _ a₁ ⟨owned₁, hle, h₁⟩
      exact (ih h₁ hrest).mono fun _ a₂ h₂ => h₂.trans hle

/-- **An argument** gets pages of its own, and the array of the arguments, which is owned, its
address. -/
theorem pushArg (h : Given fuel kernelPml4 a₀ a pml4 owned) (hargv : owned userArgv)
    (hargc : argc < 512) (hs : s.length < 2 ^ 40) :
    Ends (Exec.pushArg fuel pml4 userArgv argc s) a (fun _ => True) fun _ a' =>
      Grown fuel kernelPml4 a₀ a' pml4 owned := by
  have hsize : s.length + 1 < 2 ^ 60 := by omega
  have hne : userArgv ≠ 0 := (h.fresh userArgv (.inr hargv)).1
  refine (h.alloc hsize).bind fun p a₁ hp => ?_
  refine Ends.step (store_of_ne hne) ?_
  refine Ends.step (load_of_ne hne) ?_
  have hphys : vir2Phy p < 2 ^ 64 := Nat.mod_lt _ (by decide)
  rw [show readEntry (writeEntry a₁.mem userArgv argc (vir2Phy p)) userArgv argc = vir2Phy p from
    readEntry_writeEntry hphys]
  rcases hp with rfl | ⟨hpne, hmod, hbound, h₁⟩
  · -- nothing is copied to a null pointer
    exact True.intro
  have hlt : p < 2 ^ 64 := by
    obtain ⟨hpos, -, -⟩ := pagesFor_spec hsize
    have hle : 1 * pageSize ≤ Heap.pagesFor (s.length + 1) * pageSize := Nat.mul_le_mul_right _ hpos
    rw [pageSize] at hle hbound
    omega
  rw [phy2Vir_vir2Phy hlt]
  have h₂ : Given fuel kernelPml4 a₀ ⟨a₁.frames, writeEntry a₁.mem userArgv argc (vir2Phy p)⟩
      pml4 (fun x => owned x ∨ Pages p (Heap.pagesFor (s.length + 1)) x) :=
    h₁.write fun x hx => samePage_writeEntry (hx userArgv (.inl hargv)).symm hargc
  refine Ends.step (if_neg hpne) ?_
  have h₃ : Given fuel kernelPml4 a₀
      ⟨a₁.frames, copyString (writeEntry a₁.mem userArgv argc (vir2Phy p)) p s⟩ pml4
      (fun x => owned x ∨ Pages p (Heap.pagesFor (s.length + 1)) x) :=
    h₂.write fun x hx => samePage_of_outside (fun i hi => if_neg hi) (fun y hy => hx y (.inr hy))
      (pagesFor_spec hsize).2.2
  refine (h₃.mapPage (.inr ⟨0, (pagesFor_spec hsize).1, rfl⟩)).mono fun _ a' h' => ?_
  exact ⟨_, fun x hx => .inl hx, h'⟩

theorem pushArgs (h : Given fuel kernelPml4 a₀ a pml4 owned) (hargv : owned userArgv)
    (hargc : argc + argv.length ≤ 512) (hall : ∀ s ∈ argv, s.length < 2 ^ 40) :
    Ends (Exec.pushArgs fuel pml4 userArgv argc argv) a (fun _ => True) fun _ a' =>
      Grown fuel kernelPml4 a₀ a' pml4 owned := by
  induction argv generalizing a owned argc with
  | nil => exact Ends.pure ⟨owned, fun _ hx => hx, h⟩
  | cons s argv ih =>
      obtain ⟨hs, hrest⟩ := List.forall_mem_cons.mp hall
      rw [List.length_cons] at hargc
      refine (h.pushArg hargv (by omega) hs).bind ?_
      rintro _ a₁ ⟨owned₁, hle, h₁⟩
      exact (ih h₁ (hle _ hargv) (by omega) hrest).mono fun _ a₂ h₂ => h₂.trans hle

/-- **The stack.** -/
theorem execProc (h : Given fuel kernelPml4 a₀ a pml4 owned) :
    Ends (Exec.execProc fuel pml4) a (fun _ => True) fun start a' =>
      start ≠ 0 → Grown fuel kernelPml4 a₀ a' pml4 owned := by
  refine (h.alloc (by decide)).bind fun start a₁ hstart => ?_
  rcases hstart with rfl | ⟨hne, hmod, hbound, h₁⟩
  · refine Ends.trivial.bind fun _ _ _ => Ends.trivial.bind fun _ _ _ =>
      Ends.trivial.bind fun _ _ _ => Ends.pure fun hnot => absurd rfl hnot
  have hpages : Heap.pagesFor 0x3000 = 4 := by decide
  rw [hpages] at hbound h₁
  obtain ⟨hbase, -, -⟩ := h₁.window (.inr ⟨0, by decide, rfl⟩)
  rw [Nat.zero_mul, Nat.add_zero] at hbase
  -- the pages of the stack, at their physical addresses
  have hpage : ∀ j, j < 4 → u64 (vir2Phy start + j * 0x1000) = vir2Phy (start + j * pageSize) := by
    intro j hj
    rw [pageSize] at hbound ⊢
    rw [vir2Phy_of_window hbase (by omega), vir2Phy_of_window (by omega) (by omega), u64]
    rw [identityBase] at hbase ⊢
    omega
  have hfirst : vir2Phy start = vir2Phy (start + 0 * pageSize) := by
    rw [Nat.zero_mul, Nat.add_zero]
  rw [hfirst]
  refine (h₁.mapPage (.inr ⟨0, by decide, rfl⟩)).bind fun _ a₂ h₂ => ?_
  rw [← hfirst, show (0x1000 : Nat) = 1 * 0x1000 from rfl, hpage 1 (by decide)]
  refine (h₂.mapPage (.inr ⟨1, by decide, rfl⟩)).bind fun _ a₃ h₃ => ?_
  rw [show (0x2000 : Nat) = 2 * 0x1000 from rfl, hpage 2 (by decide)]
  refine (h₃.mapPage (.inr ⟨2, by decide, rfl⟩)).bind fun _ a₄ h₄ => ?_
  exact Ends.pure fun _ => ⟨_, fun x hx => .inl hx, h₄⟩

end Given

end Steps

/-! ### A new process -/

section Launch

variable {fuel kernelPml4 : Nat} {a : Arena FrameMem} {f : Elf} {argv : List (List UInt8)}

/-- **The new page table**: nothing is mapped in its half, and the other half is the kernel's. -/
theorem given_userTable (h : FramesOk windowSize a.frames)
    (hkernel : ∀ y, FreePage a.frames y → Apart y kernelPml4) :
    Ends (userTable fuel kernelPml4) a (fun _ => True) fun pml4 a' =>
      Given fuel kernelPml4 a a' pml4 fun _ => False := by
  refine Ends.bind (allocBlock_ends h (n := 2) (by decide) (by decide) (by decide)) ?_
  rintro pml4 a₁ (rfl | hb)
  · exact True.intro
  refine Ends.of_ok (if_neg hb.ne) ?_
  have hfirst : FreePage a.frames pml4 := hb.first (by decide)
  have htaken : ∀ x, FreePage a₁.frames x → Apart pml4 x := by
    intro x hx
    refine apart_of_ne hb.aligned (h.page_of_free (hb.free x hx)) ?_
    rintro rfl
    have hnot := hb.taken 0 (by decide)
    rw [Nat.zero_mul, Nat.add_zero] at hnot
    exact hnot hx
  have hpage : SamePage a.mem (zeroPage a₁.mem pml4) kernelPml4 :=
    (hb.samePage (hkernel pml4 hfirst).symm).trans (samePage_zeroPage (hkernel pml4 hfirst).symm)
  have hupper : ∀ r, 256 ≤ r → r < 512 →
      readEntry (copyKernel (zeroPage a₁.mem pml4) pml4 kernelPml4) pml4 r =
        readEntry a.mem kernelPml4 r := by
    intro r hr hr'
    refine getLE_shift fun i hi => ?_
    have haddr : kernelPml4 + (pml4 + 8 * r + i - pml4) = kernelPml4 + 8 * r + i := by omega
    rw [copyKernel, if_pos (by omega), haddr]
    refine hpage _ (by omega) ?_
    rw [pageSize]
    omega
  obtain ⟨hzero, htables⟩ := Tables.of_empty (S := pageSupply fuel windowSize) (n := 256)
    (a := ⟨a₁.frames, copyKernel (zeroPage a₁.mem pml4) pml4 kernelPml4⟩) hb.frames (by decide)
    hb.ne htaken fun r hr => readEntry_copyKernel hr
  exact
    { tables := htables
      aligned := hb.aligned
      mapped := fun v hv hpresent => by
        have hentry : entryFor fuel
            ⟨a₁.frames, copyKernel (zeroPage a₁.mem pml4) pml4 kernelPml4⟩ pml4 v = 0 :=
          if_pos (hzero _ (leaf_tablePos hv).pos)
        rw [hentry, Nat.zero_and] at hpresent
        exact absurd rfl hpresent
      foreign := fun x hx => hx.elim
      upper := hupper
      fresh := by
        rintro x ((rfl | ⟨q, hq, hne, -⟩) | hx)
        · exact hfirst
        · exact absurd (hzero q hq) hne
        · exact hx.elim
      first := h
      later :=
        { frames := hb.frames
          free := hb.free
          rest := fun x hx => (hb.samePage (hx pml4 hfirst).symm).trans
            (samePage_copyKernel (hx pml4 hfirst).symm) } }

/-- `Execve` to the end of its loop. -/
theorem given_execve (h : FramesOk windowSize a.frames)
    (hkernel : ∀ y, FreePage a.frames y → Apart y kernelPml4) (hf : ∀ t ∈ f.loads, t.Fits f) :
    Ends (execve fuel kernelPml4 f) a (fun _ => True) fun r a' => (r = none → a' = a) ∧
      ∀ pml4, r = some pml4 → ∃ owned, Given fuel kernelPml4 a a' pml4 owned := by
  have hnone : Ends (pure none : Program (Arena FrameMem) Fault (Option Nat)) a (fun _ => True)
      fun r a' => (r = none → a' = a) ∧
        ∀ pml4, r = some pml4 → ∃ owned, Given fuel kernelPml4 a a' pml4 owned :=
    Ends.pure ⟨fun _ => rfl, fun _ hr => by cases hr⟩
  unfold execve
  split
  · exact hnone
  split
  · exact hnone
  split
  · exact hnone
  refine (given_userTable h hkernel).bind fun pml4 a₁ h₁ => ?_
  refine (h₁.loadAll fun t ht hload => hf t ?_).bind fun _ a₂ h₂ => ?_
  · exact List.mem_filter.mpr ⟨ht, decide_eq_true hload⟩
  refine Ends.pure ⟨fun hr => absurd hr (Option.some_ne_none _), fun root hr => ?_⟩
  obtain ⟨owned, -, hgiven⟩ := h₂
  rw [← Option.some.inj hr]
  exact ⟨owned, hgiven⟩

/-- **`Execve`**: the process has been given what it has since the call, if none of its allocations
has failed. -/
theorem given_launch (h : FramesOk windowSize a.frames)
    (hkernel : ∀ y, FreePage a.frames y → Apart y kernelPml4)
    (hfits : (Request.launch f argv).Fits) :
    Ends (launch fuel kernelPml4 f argv) a (fun _ => True) fun r a' => (r = none → a' = a) ∧
      ∀ p, r = some p → p.Placed → ∃ owned, Given fuel kernelPml4 a a' p.pml4 owned := by
  obtain ⟨hf, hargc, hargv⟩ := hfits
  refine (given_execve h hkernel hf).bind fun r a₁ h₁ => ?_
  obtain ⟨hnone, hsome⟩ := h₁
  cases r with
  | none => exact Ends.pure ⟨fun _ => hnone rfl, fun p hp => by cases hp⟩
  | some pml4 =>
      obtain ⟨owned, hgiven⟩ := hsome pml4 rfl
      refine (hgiven.alloc (by decide)).bind fun userArgv a₂ h₂ => ?_
      by_cases hnull : userArgv = 0
      · refine Ends.trivial.bind fun _ _ _ => Ends.trivial.bind fun _ _ _ =>
          Ends.trivial.bind fun _ _ _ => Ends.pure
            ⟨fun hr => absurd hr (Option.some_ne_none _), fun p hp hplaced => ?_⟩
        rw [← Option.some.inj hp] at hplaced
        exact absurd hnull hplaced.1
      obtain ⟨-, -, -, hgiven₂⟩ := h₂.resolve_left hnull
      have hpage : Pages userArgv (Heap.pagesFor 0) userArgv := ⟨0, by decide, by
        rw [Nat.zero_mul, Nat.add_zero]⟩
      refine (hgiven₂.pushArgs (.inr hpage) (by rwa [Nat.zero_add]) hargv).bind ?_
      rintro _ a₃ ⟨owned₃, hle₃, hgiven₃⟩
      refine (hgiven₃.mapPage (hle₃ userArgv (.inr hpage))).bind fun _ a₄ hgiven₄ => ?_
      refine hgiven₄.execProc.bind fun startAddr a₅ h₅ => ?_
      refine Ends.pure ⟨fun hr => absurd hr (Option.some_ne_none _), fun p hp hplaced => ?_⟩
      rw [← Option.some.inj hp] at hplaced ⊢
      obtain ⟨owned₅, -, hgiven₅⟩ := h₅ hplaced.2
      exact ⟨owned₅, hgiven₅⟩

end Launch

/-! ## All processes -/

/-- A process, as far as the memory is concerned: its root, and the pages that it may use. -/
structure Space where
  pml4 : Nat
  owned : Nat → Prop

/-- A page of a process: one of its tables, or one that it may use. -/
def Space.Page (fuel : Nat) (a : Arena FrameMem) (s : Space) (x : Nat) : Prop :=
  (mapper fuel).Block 256 a s.pml4 x ∨ s.owned x

/-- **The invariant**: each process has been given its pages, and no two have one in common. -/
structure Spaces (fuel kernelPml4 : Nat) (a₀ a : Arena FrameMem) (spaces : List Space) : Prop where
  first : FramesOk windowSize a₀.frames
  kernel : ∀ y, FreePage a₀.frames y → Apart y kernelPml4
  given : ∀ s ∈ spaces, Given fuel kernelPml4 a₀ a s.pml4 s.owned
  apart : spaces.Pairwise fun s t => ∀ x y, s.Page fuel a x → t.Page fuel a y → Apart x y
  later : Later a₀ a

/-- A process reads the same bytes. -/
def Untouched (fuel : Nat) (a a' : Arena FrameMem) (pml4 : Nat) : Prop :=
  ∀ v, v < 2 ^ 47 → virtByte fuel a' pml4 v = virtByte fuel a pml4 v

/-- The processes that have been started. -/
def started (results : List (Option Process)) : List Process := results.filterMap id

theorem started_cons (r : Option Process) (results : List (Option Process)) :
    started (r :: results) = r.toList ++ started results := by
  cases r <;> rfl

section Spaces

variable {fuel kernelPml4 pml4 : Nat} {a₀ a b a' : Arena FrameMem} {spaces : List Space}
  {owned : Nat → Prop} {r : Request} {rs : List Request}

/-- An allocation, whether it fails or not. -/
theorem allocBlock_later (h : FramesOk windowSize a.frames) {size : Nat} (hsize : size < 2 ^ 60) :
    Ends (allocBlock fuel size) a (fun _ => True) fun _ a' => Later a a' := by
  obtain ⟨hpos, hlt, -⟩ := pagesFor_spec hsize
  rw [Ends, allocBlock]
  cases hrun : Heap.alloc ⟨a.frames, a.mem⟩ fuel size with
  | error e => exact True.intro
  | ok r =>
      obtain ⟨⟨frame, mem⟩, p⟩ := r
      show Later a ⟨frame, mem⟩
      rw [Heap.alloc] at hrun
      simp only at hrun
      rw [bind_eq_ok_iff] at hrun
      obtain ⟨⟨frame', base⟩, halloc, hrun⟩ := hrun
      simp only at hrun
      have htotal : a.frames.totalPages < 2 ^ 53 := by
        have hregion := Nat.le_trans h.region h.lower
        rw [upperHalf, pageSize] at hregion
        omega
      rcases allocPages_spec (by omega) (by omega) halloc with ⟨rfl, rfl⟩ | ⟨first, hall⟩
      · rw [if_pos rfl] at hrun
        injection hrun with hrun
        obtain ⟨rfl, rfl⟩ := Heap.mk.inj (Prod.mk.inj hrun).1
        exact Later.refl h
      · rw [if_neg (by omega)] at hall
        have hb : Block a ⟨frame', setLE a.mem base 8 (Heap.pagesFor size)⟩ base
            (Heap.pagesFor size) := block_of_allocated h hpos hall rfl
        rw [if_neg hb.ne] at hrun
        injection hrun with hrun
        obtain ⟨rfl, rfl⟩ := Heap.mk.inj (Prod.mk.inj hrun).1
        exact Later.of_block hb hpos

/-- A process started later. -/
theorem Given.since (h : Given fuel kernelPml4 b a pml4 owned)
    (hfirst : FramesOk windowSize a₀.frames)
    (hkernel : ∀ y, FreePage a₀.frames y → Apart y kernelPml4) (hl : Later a₀ b) :
    Given fuel kernelPml4 a₀ a pml4 owned where
  tables := h.tables
  aligned := h.aligned
  mapped := h.mapped
  foreign := h.foreign
  upper r hr hr' := (h.upper r hr hr').trans ((hl.rest kernelPml4 hkernel).readEntry hr')
  fresh x hx := hl.free x (h.fresh x hx)
  first := hfirst
  later := hl.trans h.later

/-- The byte at an address is one of a page of the process. -/
theorem Given.virtByte_eq (h : Given fuel kernelPml4 a₀ a pml4 owned)
    (hentry : ∀ v, pml4Entry v < 256 → entryFor fuel a' pml4 v = entryFor fuel a pml4 v)
    (hsame : ∀ x, owned x → SamePage a.mem a'.mem x) {v : Nat} (hv : v < 2 ^ 47) :
    virtByte fuel a' pml4 v = virtByte fuel a pml4 v := by
  have hlow := pml4Entry_lt_of_lt hv
  rw [virtByte, virtByte, hentry v hlow]
  by_cases hpresent : entryFor fuel a pml4 v &&& ptePresent = 0
  · rw [if_pos hpresent, if_pos hpresent]
  · obtain ⟨x, hx, haddr⟩ := h.mapped v hlow hpresent
    obtain ⟨hbase, hle, -⟩ := h.window hx
    have hoff : v &&& 0xfff = v % pageSize := Nat.and_two_pow_sub_one_eq_mod v 12
    have hplace : phy2Vir (vir2Phy x + v % pageSize) = x + v % pageSize := by
      rw [pageSize] at hle ⊢
      rw [vir2Phy_of_window hbase (by omega), phy2Vir, u64]
      rw [identityBase] at hbase ⊢
      omega
    have hbyte : a'.mem (x + v % pageSize) = a.mem (x + v % pageSize) :=
      hsame x hx _ (Nat.le_add_right _ _)
        (Nat.add_lt_add_left (Nat.mod_lt _ (by decide)) _)
    rw [if_neg hpresent, if_neg hpresent, haddr, hoff, hplace, hbyte]

namespace Spaces

/-- Time does not touch the processes. -/
theorem keeps (h : Spaces fuel kernelPml4 a₀ a spaces) (hl : Later a a') :
    Spaces fuel kernelPml4 a₀ a' spaces ∧ ∀ s ∈ spaces, Untouched fuel a a' s.pml4 := by
  have hpage : ∀ s ∈ spaces, ∀ x, s.Page fuel a' x → s.Page fuel a x := by
    intro s hs x hx
    exact hx.imp (((h.given s hs).keeps hl).2.2.1 x) id
  refine ⟨⟨h.first, h.kernel, fun s hs => ((h.given s hs).keeps hl).1, ?_, h.later.trans hl⟩, ?_⟩
  · refine h.apart.imp_of_mem fun {s t} hs ht hapart x y hx hy => ?_
    exact hapart x y (hpage s hs x hx) (hpage t ht y hy)
  · intro s hs v hv
    obtain ⟨-, hentry, -, hsame⟩ := (h.given s hs).keeps hl
    exact (h.given s hs).virtByte_eq hentry (fun x hx => hsame x (.inr hx)) hv

/-- **One more process.** -/
theorem add (h : Spaces fuel kernelPml4 a₀ a spaces)
    (hnew : Given fuel kernelPml4 a a' pml4 owned) :
    Spaces fuel kernelPml4 a₀ a' (spaces ++ [⟨pml4, owned⟩]) ∧
      ∀ s ∈ spaces, Untouched fuel a a' s.pml4 := by
  obtain ⟨hold, hread⟩ := h.keeps hnew.later
  refine ⟨⟨h.first, h.kernel, ?_, ?_, hold.later⟩, hread⟩
  · refine List.forall_mem_append.mpr ⟨hold.given, List.forall_mem_singleton.mpr ?_⟩
    exact hnew.since h.first h.kernel h.later
  · refine List.pairwise_append.mpr ⟨hold.apart, List.pairwise_singleton _ _, ?_⟩
    intro s hs t ht x y hx hy
    rw [List.mem_singleton.mp ht] at hy
    -- its pages were free when the others had theirs
    exact (h.given s hs).apart_free (hx.imp (((h.given s hs).keeps hnew.later).2.2.1 x) id)
      (hnew.fresh y hy)

/-- A request. -/
theorem step (h : Spaces fuel kernelPml4 a₀ a spaces) (hfits : r.Fits) :
    Ends (r.exec fuel kernelPml4) a (fun _ => True) fun result a' =>
      (∀ p, result = some p → p.Placed) → ∃ more : List Space,
        more.map Space.pml4 = result.toList.map Process.pml4 ∧
        Spaces fuel kernelPml4 a₀ a' (spaces ++ more) ∧
        ∀ s ∈ spaces, Untouched fuel a a' s.pml4 := by
  have hframes := h.later.frames
  cases r with
  | launch f argv =>
      have hkernel : ∀ y, FreePage a.frames y → Apart y kernelPml4 :=
        fun y hy => h.kernel y (h.later.free y hy)
      refine (given_launch hframes hkernel hfits).mono fun result a' hresult hplaced => ?_
      obtain ⟨hnone, hsome⟩ := hresult
      cases result with
      | none =>
          have hsame := hnone rfl
          subst hsame
          refine ⟨[], rfl, ?_, fun _ _ _ _ => rfl⟩
          rwa [List.append_nil]
      | some p =>
          obtain ⟨owned, hgiven⟩ := hsome p rfl (hplaced p rfl)
          exact ⟨[⟨p.pml4, owned⟩], rfl, h.add hgiven⟩
  | alloc size =>
      refine (allocBlock_later hframes hfits).bind fun _ a' hl => Ends.pure fun _ => ?_
      refine ⟨[], rfl, ?_⟩
      rw [List.append_nil]
      exact h.keeps hl

/-- **All requests.** -/
theorem run (h : Spaces fuel kernelPml4 a₀ a spaces) (hfits : ∀ r ∈ rs, r.Fits) :
    Ends (Program.calls (Request.exec fuel kernelPml4) rs) a (fun _ => True) fun results a' =>
      (∀ p ∈ started results, p.Placed) → ∃ more : List Space,
        more.map Space.pml4 = (started results).map Process.pml4 ∧
        Spaces fuel kernelPml4 a₀ a' (spaces ++ more) ∧
        ∀ s ∈ spaces, Untouched fuel a a' s.pml4 := by
  induction rs generalizing a spaces with
  | nil =>
      refine Ends.pure fun _ => ⟨[], rfl, ?_, fun _ _ _ _ => rfl⟩
      rwa [List.append_nil]
  | cons r rs ih =>
      obtain ⟨hr, hrs⟩ := List.forall_mem_cons.mp hfits
      unfold Program.calls
      refine (h.step hr).bind fun result a₁ h₁ => ?_
      by_cases hplaced : ∀ p, result = some p → p.Placed
      · obtain ⟨more, hmore, hspaces, hread⟩ := h₁ hplaced
        refine (ih hspaces hrs).bind fun results a₂ h₂ => Ends.pure fun hall => ?_
        rw [started_cons] at hall ⊢
        obtain ⟨rest, hrest, hspaces', hread'⟩ :=
          h₂ fun p hp => hall p (List.mem_append_right _ hp)
        refine ⟨more ++ rest, ?_, ?_, fun s hs v hv => ?_⟩
        · rw [List.map_append, List.map_append, hmore, hrest]
        · rwa [List.append_assoc] at hspaces'
        · rw [hread' s (List.mem_append_left _ hs) v hv, hread s hs v hv]
      · refine Ends.trivial.bind fun results a₂ _ => Ends.pure fun hall => absurd ?_ hplaced
        rintro p rfl
        exact hall p List.mem_cons_self

end Spaces

/-! ## Isolation -/

/-- `AnalyzePageTable` finds the physical address `x` for an address of the lower half. -/
def Finds (mem : Nat → UInt8) (pml4 v x : Nat) : Prop :=
  v < 2 ^ 47 ∧ analyzePageTable mem pml4 v = .ok x ∧ x ≠ 0

/-- The page of a physical address. -/
def pageAt (phys : Nat) : Nat := phy2Vir (phys / pageSize * pageSize)

/-- **The processes are isolated**, and so is what was not free before they were started. -/
structure Isolated (fuel kernelPml4 : Nat) (a a' : Arena FrameMem) (roots : List Nat) : Prop where
  /-- the walks end -/
  walks : ∀ r ∈ roots, ∀ v, v < 2 ^ 47 → ∃ x, analyzePageTable a'.mem r v = .ok x
  /-- no two processes have a page in common -/
  apart : roots.Pairwise fun r r' => ∀ v w x y, Finds a'.mem r v x → Finds a'.mem r' w y →
    x / pageSize ≠ y / pageSize
  /-- what a process has was free before, is not free now, and is no table of a process -/
  own : ∀ r ∈ roots, ∀ v x, Finds a'.mem r v x → FreePage a.frames (pageAt x) ∧
    ¬ FreePage a'.frames (pageAt x) ∧ ∀ r' ∈ roots, ¬ (mapper fuel).Block 256 a' r' (pageAt x)
  /-- the upper half is the kernel's -/
  kernel : ∀ r ∈ roots, ∀ v, v < 2 ^ 64 → 256 ≤ pml4Entry v →
    analyzePageTable a'.mem r v = analyzePageTable a'.mem kernelPml4 v
  /-- what was not free before is as it was -/
  rest : ∀ x, x % pageSize = 0 → ¬ FreePage a.frames x → SamePage a.mem a'.mem x

theorem Given.walk (h : Given fuel kernelPml4 a₀ a pml4 owned) {v : Nat} (hv : v < 2 ^ 47) :
    analyzePageTable a.mem pml4 v = .ok (if entryFor fuel a pml4 v &&& ptePresent = 0 then 0
      else (entryFor fuel a pml4 v &&& pageMask) + (v &&& 0xfff)) :=
  analyzePageTable_of_lt h.tables (by omega) (pml4Entry_lt_of_lt hv)

/-- What the walk finds is owned. -/
theorem Given.owned_of_finds (h : Given fuel kernelPml4 a₀ a pml4 owned) {v x : Nat}
    (hx : Finds a.mem pml4 v x) : owned (pageAt x) := by
  obtain ⟨hv, hwalk, hne⟩ := hx
  rw [h.walk hv] at hwalk
  have hvalue := Except.ok.inj hwalk
  by_cases hpresent : entryFor fuel a pml4 v &&& ptePresent = 0
  · rw [if_pos hpresent] at hvalue
    exact absurd hvalue.symm hne
  · rw [if_neg hpresent] at hvalue
    obtain ⟨z, hz, haddr⟩ := h.mapped v (pml4Entry_lt_of_lt hv) hpresent
    obtain ⟨hbase, hle, hmod⟩ := h.window hz
    have hoff : v &&& 0xfff = v % pageSize := Nat.and_two_pow_sub_one_eq_mod v 12
    have hlt : z < 2 ^ 64 := by
      rw [pageSize] at hle
      omega
    have hphys : vir2Phy z % pageSize = 0 := by
      rw [vir2Phy_of_window hbase hlt]
      rw [pageSize] at hmod ⊢
      rw [identityBase] at hbase ⊢
      omega
    have hpage : x / pageSize * pageSize = vir2Phy z := by
      rw [← hvalue, haddr, hoff]
      rw [pageSize] at hphys ⊢
      omega
    rw [pageAt, hpage, phy2Vir_vir2Phy hlt]
    exact hz

namespace Spaces

/-- A page of one process is no page of another. -/
theorem page_ne (h : Spaces fuel kernelPml4 a₀ a spaces) {s t : Space} {x : Nat} (hs : s ∈ spaces)
    (ht : t ∈ spaces) (hx : s.owned x) : ¬ (mapper fuel).Block 256 a t.pml4 x := by
  intro hblock
  have hpage : s = t ∨ ∀ x y, s.Page fuel a x → t.Page fuel a y → Apart x y :=
    List.Pairwise.forall_of_forall_of_flip
      (R := fun s t => s = t ∨ ∀ x y, s.Page fuel a x → t.Page fuel a y → Apart x y)
      (fun _ _ => Or.inl rfl) (h.apart.imp Or.inr)
      (h.apart.imp fun hst => Or.inr fun x y hx hy => (hst y x hy hx).symm) hs ht
  rcases hpage with rfl | hapart
  · exact ((foreign_iff.mp ((h.given s hs).foreign x hx)).1 x hblock).ne rfl
  · exact (hapart x x (.inr hx) (.inl hblock)).ne rfl

theorem isolated (h : Spaces fuel kernelPml4 a₀ a spaces) (hne : kernelPml4 ≠ 0) :
    Isolated fuel kernelPml4 a₀ a (spaces.map Space.pml4) := by
  refine
    { walks := List.forall_mem_map.mpr fun s hs v hv => ⟨_, (h.given s hs).walk hv⟩
      apart := List.pairwise_map.mpr (h.apart.imp_of_mem fun {s t} hs ht hapart => ?_)
      own := List.forall_mem_map.mpr fun s hs v x hx => ⟨?_, ?_, ?_⟩
      kernel := List.forall_mem_map.mpr fun s hs v hv hupper => ?_
      rest := fun x hx hfree => h.later.rest x fun y hy => ?_ }
  · intro v w x y hx hy heq
    have hsame : pageAt x = pageAt y := by rw [pageAt, pageAt, heq]
    have hx' := (h.given s hs).owned_of_finds hx
    have hy' := (h.given t ht).owned_of_finds hy
    exact (hapart _ _ (.inr hx') (.inr hy')).ne hsame
  · exact (h.given s hs).fresh _ (.inr ((h.given s hs).owned_of_finds hx))
  · intro hfree
    exact ((h.given s hs).apart_free (.inr ((h.given s hs).owned_of_finds hx)) hfree).ne rfl
  · exact List.forall_mem_map.mpr fun t ht =>
      h.page_ne hs ht ((h.given s hs).owned_of_finds hx)
  · have hentry : readEntry a.mem s.pml4 (pml4Entry v) = readEntry a.mem kernelPml4 (pml4Entry v) :=
      ((h.given s hs).upper _ hupper (pml4Entry_lt v)).trans
        ((h.later.rest kernelPml4 h.kernel).readEntry (pml4Entry_lt v)).symm
    exact analyzePageTable_congr (h.given s hs).tables.root_ne hne hv hentry
  · exact apart_of_ne (h.first.page_of_free hy) hx fun heq => hfree (heq ▸ hy)

end Spaces

/-- **Isolation.**  After any programs that have been started one after the other, with allocations
of the kernel between them, the processes are isolated, and none of those that were there at some
moment reads anything else than at that moment. -/
theorem spaces_run {qs : List Request} {results results' : List (Option Process)}
    (hframes : FramesOk windowSize a.frames)
    (hkernel : kernelPml4 ≠ 0 ∧ kernelPml4 % pageSize = 0 ∧ ¬ FreePage a.frames kernelPml4)
    (hfits : ∀ r ∈ rs ++ qs, r.Fits)
    (hrun : Program.calls (Request.exec fuel kernelPml4) rs a = .ok (results, b))
    (hrest : Program.calls (Request.exec fuel kernelPml4) qs b = .ok (results', a'))
    (hplaced : ∀ p ∈ started results ++ started results', p.Placed) :
    Isolated fuel kernelPml4 a a' ((started results ++ started results').map Process.pml4) ∧
      ∀ p ∈ started results, Untouched fuel b a' p.pml4 := by
  have hbegin : Spaces fuel kernelPml4 a a [] :=
    { first := hframes
      kernel := fun y hy => apart_of_ne (hframes.page_of_free hy) hkernel.2.1
        fun heq => hkernel.2.2 (heq ▸ hy)
      given := fun s hs => absurd hs List.not_mem_nil
      apart := List.Pairwise.nil
      later := Later.refl hframes }
  obtain ⟨hrs, hqs⟩ := List.forall_mem_append.mp hfits
  obtain ⟨hplaced₁, hplaced₂⟩ := List.forall_mem_append.mp hplaced
  obtain ⟨more, hmore, hspaces, -⟩ := (hbegin.run hrs).of_result hrun hplaced₁
  obtain ⟨rest, hroots, hspaces', hsame⟩ := (hspaces.run hqs).of_result hrest hplaced₂
  refine ⟨?_, fun p hp => ?_⟩
  · have hisolated := hspaces'.isolated hkernel.1
    rw [List.nil_append, List.map_append, hmore, hroots, ← List.map_append] at hisolated
    exact hisolated
  · have hmem : p.pml4 ∈ more.map Space.pml4 := by
      rw [hmore]
      exact List.mem_map_of_mem hp
    obtain ⟨s, hs, heq⟩ := List.mem_map.mp hmem
    rw [← heq]
    exact hsame s (List.mem_append_right _ hs)

end Spaces

/-- Thirty-two free frames from the physical address `0x300000` on, and memory that is zero. -/
def thirtyTwoFrames : Arena FrameMem where
  frames := { sixteenFrames with totalPages := 32, freePages := 32 }
  mem := fun _ => 0

/-- The small program is started twice, the first time with an argument. -/
theorem spaces_run_twice : ∃ results results' b a',
    Program.calls (Request.exec 33 (phy2Vir 0x200000)) [.launch smallElf [[0x73]], .alloc 0x100]
      thirtyTwoFrames = .ok (results, b) ∧
    Program.calls (Request.exec 33 (phy2Vir 0x200000)) [.launch smallElf []] b =
      .ok (results', a') ∧
    (started results ++ started results').map Process.pml4 =
      [phy2Vir 0x300000, phy2Vir 0x30f000] ∧
    Isolated 33 (phy2Vir 0x200000) thirtyTwoFrames a' [phy2Vir 0x300000, phy2Vir 0x30f000] ∧
    Untouched 33 b a' (phy2Vir 0x300000) := by
  have hcalls : (do
      let first ← Program.calls (Request.exec 33 (phy2Vir 0x200000))
        [.launch smallElf [[0x73]], .alloc 0x100] thirtyTwoFrames
      let second ← Program.calls (Request.exec 33 (phy2Vir 0x200000)) [.launch smallElf []] first.2
      return (first.1, second.1)) =
      (.ok ([some ⟨phy2Vir 0x300000, phy2Vir 0x307000, phy2Vir 0x30a000⟩, none],
        [some ⟨phy2Vir 0x30f000, phy2Vir 0x316000, phy2Vir 0x318000⟩]) : Except Fault _) := by
    decide +kernel
  obtain ⟨⟨results, b⟩, hrun, hcalls⟩ := bind_eq_ok_iff.mp hcalls
  obtain ⟨⟨results', a'⟩, hrest, hcalls⟩ := bind_eq_ok_iff.mp hcalls
  injection hcalls with hcalls
  obtain ⟨rfl, rfl⟩ := Prod.mk.inj hcalls
  have hloads : ∀ t ∈ smallElf.loads, t.Fits smallElf := by
    rw [smallElf_loads.2]
    exact List.forall_mem_singleton.mpr smallPhdr_fits
  have hfits : ∀ r ∈ [Request.launch smallElf [[0x73]], .alloc 0x100] ++ [.launch smallElf []],
      r.Fits := by
    simpa [Request.Fits] using hloads
  have hkernel : ¬ FreePage thirtyTwoFrames.frames (phy2Vir 0x200000) := by
    unfold FreePage
    decide +kernel
  obtain ⟨hisolated, huntouched⟩ := spaces_run (a := thirtyTwoFrames)
    ⟨by decide, by decide, by decide, by decide⟩ ⟨by decide, by decide, hkernel⟩ hfits hrun hrest
    (by decide)
  have hroots : (started [some (⟨phy2Vir 0x300000, phy2Vir 0x307000, phy2Vir 0x30a000⟩ : Process),
      none] ++ started [some ⟨phy2Vir 0x30f000, phy2Vir 0x316000, phy2Vir 0x318000⟩]).map
      Process.pml4 = [phy2Vir 0x300000, phy2Vir 0x30f000] := rfl
  rw [hroots] at hisolated
  refine ⟨_, _, b, a', hrun, hrest, hroots, hisolated, ?_⟩
  exact huntouched ⟨phy2Vir 0x300000, phy2Vir 0x307000, phy2Vir 0x30a000⟩ List.mem_cons_self

end InfoKernel.Task.Exec
