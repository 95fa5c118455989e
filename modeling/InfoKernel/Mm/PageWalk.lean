import InfoKernel.Mm.Frames
import InfoKernel.Mm.TableForest

/-!
# What `Map` builds and `AnalyzePageTable` finds

A sequence of calls of `Map` on a root that starts cleared, with tables that come from
`AllocPages`.  `pageSupply` connects `AllocPages(1)` to what the tree of tables asks of an
allocator, `mapAll_ends` is the induction over the calls, and `analyzePageTable_eq` says that the
walk of `AnalyzePageTable` ends at the entry that the tree holds.

`analyzePageTable_mapAll` puts them together: the walk gives the address of the last call for
the page, and 0 if there was none.
-/

namespace InfoKernel.Mm.Page

open InfoKernel.Lib

/-! ## Frames from `AllocPages` -/

section Supply

variable {frame frame' : FrameMem} {fuel limit i j p : Nat}

/-- The frames start at the border of a page and have physical addresses below a limit, in the
lower half. -/
structure FramesOk (limit : Nat) (frame : FrameMem) : Prop where
  aligned : frame.startUsable % pageSize = 0
  region : frame.startUsable + frame.totalPages * pageSize ≤ limit
  lower : limit ≤ upperHalf
  freePages : frame.freePages < 2 ^ 64

/-- A page that `AllocPages` may hand out. -/
def FreePage (frame : FrameMem) (p : Nat) : Prop :=
  p ≠ 0 ∧ ∃ i ∈ frame.freeFrames, p = phy2Vir (u64 (frame.startUsable + i * pageSize))

/-- A number of calls of `AllocPages(1)` that return a page: the frames that are left, when all
of them lie in the kernel's window. -/
def stock (fuel : Nat) (frame : FrameMem) : Nat :=
  if frame.totalPages < fuel ∧
      frame.startUsable + frame.totalPages * pageSize ≤ 2 ^ 64 - identityBase then
    min frame.freePages frame.freeFrames.card
  else 0

theorem FramesOk.addr (h : FramesOk limit frame) (hi : i < frame.totalPages) :
    u64 (frame.startUsable + i * pageSize) = frame.startUsable + i * pageSize := by
  have hregion := Nat.le_trans h.region h.lower
  rw [upperHalf, pageSize] at hregion
  rw [u64, pageSize]
  omega

/-- The address of a page, and the physical address in an entry for it. -/
theorem FramesOk.page (h : FramesOk limit frame) (hi : i < frame.totalPages) :
    phy2Vir (u64 (frame.startUsable + i * pageSize)) % pageSize = 0 ∧
      tableAddr (vir2Phy (phy2Vir (u64 (frame.startUsable + i * pageSize))) &&& pageMask) =
        phy2Vir (u64 (frame.startUsable + i * pageSize)) := by
  have hregion := Nat.le_trans h.region h.lower
  have haligned := h.aligned
  rw [h.addr hi]
  rw [upperHalf, pageSize] at hregion
  rw [pageSize] at haligned ⊢
  generalize hphys : frame.startUsable + i * 0x1000 = phys
  have hlt : phys < 0xffff800000000000 := by omega
  have hmod : phys % 0x1000 = 0 := by omega
  have hback : vir2Phy (phy2Vir phys) = phys := by
    simp only [vir2Phy, phy2Vir, sub64, u64, identityBase]
    omega
  constructor
  · rw [phy2Vir, u64, identityBase]
    omega
  · rw [hback, and_pageMask (by omega), pageSize, hmod, Nat.sub_zero, tableAddr, upperHalf,
      if_pos hlt]

theorem FramesOk.page_inj (h : FramesOk limit frame) (hi : i < frame.totalPages)
    (hj : j < frame.totalPages) (hij : phy2Vir (u64 (frame.startUsable + i * pageSize)) =
      phy2Vir (u64 (frame.startUsable + j * pageSize))) : i = j := by
  have hregion := Nat.le_trans h.region h.lower
  rw [h.addr hi, h.addr hj] at hij
  simp only [phy2Vir, u64, identityBase, pageSize] at hij
  rw [upperHalf, pageSize] at hregion
  omega

/-- A free page starts at the border of a page. -/
theorem FramesOk.page_of_free (h : FramesOk limit frame) (hp : FreePage frame p) :
    p % pageSize = 0 := by
  obtain ⟨-, i, hi, rfl⟩ := hp
  exact (h.page (FrameMem.mem_freeFrames.mp hi).1).1

theorem Takes.framesOk (h : Takes frame frame' i) (hok : FramesOk limit frame) :
    FramesOk limit frame' where
  aligned := by
    rw [h.startUsable]
    exact hok.aligned
  region := by
    rw [h.startUsable, h.totalPages]
    exact hok.region
  lower := hok.lower
  freePages := by
    have hfree := hok.freePages
    rw [h.freePages]
    omega

theorem Takes.stock_le (h : Takes frame frame' i) : stock fuel frame ≤ stock fuel frame' + 1 := by
  have hcard := h.card
  have hfree := h.freePages
  rw [stock, stock, h.totalPages, h.startUsable]
  split <;> omega

/-- A page that is free is a frame of the pool. -/
theorem FramesOk.freePage {p : Nat} (hok : FramesOk limit frame) (hp : FreePage frame p) :
    p ≠ 0 ∧ p % pageSize = 0 ∧
      (mapper fuel).toTable ((mapper fuel).toEntry p &&& pageMask) = p := by
  obtain ⟨hne, i, hi, rfl⟩ := hp
  exact ⟨hne, hok.page (FrameMem.mem_freeFrames.mp hi).1⟩

/-- What `AllocPages(1)` takes. -/
theorem FramesOk.allocPages {p : Nat} (hok : FramesOk limit frame)
    (halloc : (mapper fuel).alloc frame = .ok (frame', p)) (hp : p ≠ 0) :
    FramesOk limit frame' ∧ FreePage frame p ∧
      (∀ q, FreePage frame' q → FreePage frame q ∧ q ≠ p) ∧
      stock fuel frame ≤ stock fuel frame' + 1 := by
  have htotal : frame.totalPages < 2 ^ 63 := by
    have hregion := Nat.le_trans hok.region hok.lower
    rw [upperHalf, pageSize] at hregion
    omega
  obtain ⟨i, htakes, rfl⟩ := takes_of_allocPages htotal hok.freePages halloc hp
  refine ⟨htakes.framesOk hok, ⟨hp, i, htakes.mem, rfl⟩, ?_, htakes.stock_le⟩
  rintro q ⟨hq, j, hj, rfl⟩
  rw [htakes.freeFrames, Finset.mem_erase] at hj
  rw [htakes.startUsable] at hq ⊢
  refine ⟨⟨hq, j, hj.2, rfl⟩, fun heq => hj.1 ?_⟩
  exact hok.page_inj (FrameMem.mem_freeFrames.mp hj.2).1 htakes.lt heq

/-- `AllocPages(1)` finds a page as long as the stock lasts. -/
theorem FramesOk.allocPages_ok (hok : FramesOk limit frame) (hstock : 0 < stock fuel frame) :
    ∃ frame' p, (mapper fuel).alloc frame = .ok (frame', p) ∧ p ≠ 0 := by
  rw [stock] at hstock
  split at hstock
  · next hcond =>
    have hwindow := hcond.2
    rw [pageSize, identityBase] at hwindow
    obtain ⟨frame', p, halloc, i, hi, hp⟩ := allocPages_one hcond.1 (by omega)
      (by omega) (by omega)
    refine ⟨frame', p, halloc, ?_⟩
    rw [hp, hok.addr hi, phy2Vir, u64, identityBase, pageSize]
    omega
  · exact absurd hstock (Nat.lt_irrefl 0)

/-- **`AllocPages(1)` is an allocator of tables.** -/
def pageSupply (fuel limit : Nat) : (mapper fuel).Supply where
  Ok := FramesOk limit
  Free := FreePage
  stock := stock fuel
  frame := FramesOk.freePage
  alloc := FramesOk.allocPages
  succeeds := FramesOk.allocPages_ok

end Supply

/-! ## Addresses -/

section Addresses

variable {u v : Nat}

/-- The number of the page of an address, as far as a page table distinguishes it. -/
def pageNumber (virt : Nat) : Nat := virt / pageSize % 2 ^ 36

theorem ptEntry_eq (v : Nat) : ptEntry v = v / 2 ^ 12 % 512 := by
  rw [ptEntry, and_entryMask, Nat.shiftRight_eq_div_pow]

theorem pdEntry_eq (v : Nat) : pdEntry v = v / 2 ^ 21 % 512 := by
  rw [pdEntry, and_entryMask, Nat.shiftRight_eq_div_pow]

theorem pdptEntry_eq (v : Nat) : pdptEntry v = v / 2 ^ 30 % 512 := by
  rw [pdptEntry, and_entryMask, Nat.shiftRight_eq_div_pow]

theorem pml4Entry_eq (v : Nat) : pml4Entry v = v / 2 ^ 39 % 512 := by
  rw [pml4Entry, and_entryMask, Nat.shiftRight_eq_div_pow]

/-- The indices of an address are those of its page. -/
theorem tablePos_eq_iff :
    (tablePos u = tablePos v ∧ ptEntry u = ptEntry v) ↔ pageNumber u = pageNumber v := by
  simp only [tablePos, ptEntry_eq, pdEntry_eq, pdptEntry_eq, pml4Entry_eq, pageNumber, pageSize,
    Prod.mk.injEq, List.cons.injEq, and_true]
  omega

/-- An address of 48 bits, the highest of them repeated. -/
def Canonical (virt : Nat) : Prop := virt < 2 ^ 47 ∨ (2 ^ 64 - 2 ^ 47 ≤ virt ∧ virt < 2 ^ 64)

theorem Canonical.lt (h : Canonical v) : v < 2 ^ 64 := by
  rw [Canonical] at h
  omega

theorem Canonical.pageNumber_eq_iff (hu : Canonical u) (hv : Canonical v) :
    pageNumber u = pageNumber v ↔ u / pageSize = v / pageSize := by
  rw [Canonical] at hu hv
  rw [pageNumber, pageNumber, pageSize]
  omega

end Addresses

/-! ## The calls -/

/-- The arguments of a call of `Map` besides the root. -/
structure MapCall where
  virt : Nat
  phys : Nat
  flags : Nat
  deriving DecidableEq, Repr

namespace MapCall

/-- What is promised about the arguments: a canonical address, a word, and flags below the
address in an entry, the present bit among them. -/
structure Valid (c : MapCall) : Prop where
  virt : Canonical c.virt
  phys : c.phys < 2 ^ 64
  flags : c.flags < pageSize
  present : c.flags &&& ptePresent ≠ 0

/-- The entry that the call writes. -/
def entry (c : MapCall) : Nat := (c.phys &&& pageMask) ||| c.flags

/-- The last of the calls that satisfies `P`. -/
def last (P : MapCall → Bool) (calls : List MapCall) : Option MapCall := calls.reverse.find? P

theorem last_cons (P : MapCall → Bool) (c : MapCall) (calls : List MapCall) :
    last P (c :: calls) = (last P calls).or (if P c then some c else none) := by
  rw [last, List.reverse_cons, List.find?_append, List.find?_singleton]
  rfl

theorem last_congr {P Q : MapCall → Bool} {calls : List MapCall} (h : ∀ c ∈ calls, P c = Q c) :
    last P calls = last Q calls := by
  induction calls with
  | nil => rfl
  | cons c calls ih =>
      rw [last_cons, last_cons, h c List.mem_cons_self,
        ih fun d hd => h d (List.mem_cons_of_mem _ hd)]

end MapCall

/-- The calls, one behind the other, on one root. -/
def mapAll (fuel pml4 : Nat) : List MapCall → Program (Arena FrameMem) Fault Unit
  | [] => pure ()
  | c :: calls => do
      map fuel pml4 c.virt c.phys c.flags
      mapAll fuel pml4 calls

variable {fuel limit pml4 : Nat} {a : Arena FrameMem} {calls : List MapCall}

/-- The entry for an address. -/
def entryFor (fuel : Nat) (a : Arena FrameMem) (pml4 virt : Nat) : Nat :=
  (mapper fuel).pte a.mem pml4 (tablePos virt) (ptEntry virt)

theorem pml4Entry_lt (virt : Nat) : pml4Entry virt < 512 := and_entryMask_lt _

theorem Mapper.missing_le {φ : Type} {m : Mapper φ} {a : Arena φ} {p : Nat × List Nat} :
    m.missing a pml4 p ≤ 1 := by
  rw [missing]
  split <;> omega

/-- **What the calls do.**  The entry for an address is that of the last call for its page, and
pages that are neither tables nor free keep their bytes. -/
structure MapsAll (fuel limit n : Nat) (a a' : Arena FrameMem) (pml4 : Nat) (calls : List MapCall) :
    Prop where
  tables : Tables (pageSupply fuel limit) n a' pml4
  entry : ∀ v, pml4Entry v < n → entryFor fuel a' pml4 v =
    match MapCall.last (fun c => pageNumber c.virt = pageNumber v) calls with
    | some c => c.entry
    | none => entryFor fuel a pml4 v
  free : ∀ x, FreePage a'.frames x → FreePage a.frames x ∧ SamePage a.mem a'.mem x
  foreign : ∀ x, Foreign (pageSupply fuel limit) n a pml4 x →
    Foreign (pageSupply fuel limit) n a' pml4 x ∧ SamePage a.mem a'.mem x

/-- The calls end so, or there are too few frames for their tables. -/
theorem mapAll_ends {n : Nat} (h : Tables (pageSupply fuel limit) n a pml4)
    (hcalls : ∀ c ∈ calls, c.flags < pageSize ∧ pml4Entry c.virt < n) :
    Ends (mapAll fuel pml4 calls) a (fun _ => stock fuel a.frames < 3 * calls.length)
      fun _ a' => MapsAll fuel limit n a a' pml4 calls := by
  induction calls generalizing a with
  | nil =>
      exact Ends.pure
        { tables := h
          entry := fun v _ => rfl
          free := fun x hx => ⟨hx, SamePage.refl⟩
          foreign := fun x hx => ⟨hx, SamePage.refl⟩ }
  | cons c calls ih =>
      obtain ⟨hflags, hlow⟩ := hcalls c List.mem_cons_self
      have hmap : Ends (map fuel pml4 c.virt c.phys c.flags) a _ _ :=
        Mapper.map_ends h hlow hflags
      have hmissing : (mapper fuel).missingFor a pml4 c.virt ≤ 3 :=
        Nat.add_le_add (Nat.add_le_add Mapper.missing_le Mapper.missing_le) Mapper.missing_le
      refine Ends.bind (hmap.mono_error fun _ hfail => ?_) fun _ b hb => ?_
      · show stock fuel a.frames < 3 * (calls.length + 1)
        have hfail' : stock fuel a.frames < _ := hfail
        omega
      refine ((ih hb.tables fun c hc => hcalls c (List.mem_cons_of_mem _ hc)).mono_error
        fun _ hfail => ?_).mono fun _ a' ha' => ?_
      · show stock fuel a.frames < 3 * (calls.length + 1)
        have hstock : stock fuel a.frames ≤ stock fuel b.frames + _ := hb.stock
        omega
      refine
        { tables := ha'.tables
          entry := fun v hv => ?_
          free := fun x hx => ?_
          foreign := fun x hx => ?_ }
      · rw [ha'.entry v hv, MapCall.last_cons]
        cases MapCall.last (fun c => pageNumber c.virt = pageNumber v) calls with
        | some d => rfl
        | none =>
            have hpte := hb.pte _ (leaf_tablePos hv) (ptEntry v) (and_entryMask_lt _)
            show entryFor fuel b pml4 v = _
            rw [entryFor, hpte, Option.none_or]
            by_cases hpage : pageNumber c.virt = pageNumber v
            · rw [if_pos (tablePos_eq_iff.mpr hpage.symm), if_pos (decide_eq_true hpage)]
              rfl
            · rw [if_neg fun hsame => hpage (tablePos_eq_iff.mp hsame).symm,
                if_neg (by rwa [decide_eq_true_iff])]
              rfl
      · have hfree := hb.free x (ha'.free x hx).1
        exact ⟨hfree.1, hfree.2.trans (ha'.free x hx).2⟩
      · have hforeign := hb.foreign x hx
        exact ⟨(ha'.foreign x hforeign.1).1, hforeign.2.trans (ha'.foreign x hforeign.1).2⟩

/-! ## The walk -/

theorem entryOf_of_ne {mem : Nat → UInt8} {table idx : Nat} (h : table ≠ 0) :
    entryOf mem table idx = .ok (readEntry mem table idx) := if_neg h

/-- The indices do not depend on the place in the page. -/
theorem entries_and_pageMask {v : Nat} (hv : v < 2 ^ 64) :
    pml4Entry (v &&& pageMask) = pml4Entry v ∧ pdptEntry (v &&& pageMask) = pdptEntry v ∧
      pdEntry (v &&& pageMask) = pdEntry v ∧ ptEntry (v &&& pageMask) = ptEntry v := by
  simp only [and_pageMask hv, pageSize, ptEntry_eq, pdEntry_eq, pdptEntry_eq, pml4Entry_eq]
  omega

theorem ok_bind {ε α β : Type} (x : α) (f : α → Except ε β) : (Except.ok x >>= f) = f x := rfl

/-- What the walk does at an entry: it stops, or goes on to the table at the position. -/
theorem walk_step {n table idx : Nat} {p : Nat × List Nat}
    (h : Tables (pageSupply fuel limit) n a pml4) (hs : (mapper fuel).Slot n a pml4 table idx p) :
    (readEntry a.mem table idx &&& ptePresent = 0 ∧ ((mapper fuel).forest a.mem pml4).ref p = 0) ∨
      (readEntry a.mem table idx &&& ptePresent ≠ 0 ∧
        tableAddr (readEntry a.mem table idx &&& pageMask) =
          ((mapper fuel).forest a.mem pml4).ref p ∧
        ((mapper fuel).forest a.mem pml4).ref p ≠ 0) := by
  by_cases hnone : readEntry a.mem table idx &&& ptePresent = 0
  · exact .inl ⟨hnone, (h.slot_present hs).mpr hnone⟩
  · refine .inr ⟨hnone, ?_, fun hzero => hnone ((h.slot_present hs).mp hzero)⟩
    rw [hs.ref h.bound]
    exact (if_neg hnone).symm

/-- **`AnalyzePageTable` reads the entry for the address**, below the first `n` entries of the
root. -/
theorem analyzePageTable_of_lt {n : Nat} (h : Tables (pageSupply fuel limit) n a pml4) {v : Nat}
    (hv : v < 2 ^ 64) (hn : pml4Entry v < n) :
    analyzePageTable a.mem pml4 v = .ok (if entryFor fuel a pml4 v &&& ptePresent = 0 then 0
      else (entryFor fuel a pml4 v &&& pageMask) + (v &&& 0xfff)) := by
  obtain ⟨h4, h3, h2, h1⟩ := entries_and_pageMask hv
  have hleaf := leaf_tablePos hn
  have hmid : (tableShape n).Inner (pml4Entry v, [pdptEntry v]) :=
    hleaf.pos.inner_of_prefix (i := pdEntry v) (List.prefix_refl _)
  have htop : (tableShape n).Inner (pml4Entry v, []) :=
    hleaf.pos.inner_of_prefix (i := pdptEntry v) (List.prefix_append [pdptEntry v] _)
  -- without one of the tables there is no entry
  have hstop : ∀ js is, (pml4Entry v, js ++ is) = tablePos v →
      ((mapper fuel).forest a.mem pml4).ref (pml4Entry v, js) = 0 →
      (0 : Nat) = if entryFor fuel a pml4 v &&& ptePresent = 0 then 0
        else (entryFor fuel a pml4 v &&& pageMask) + (v &&& 0xfff) := by
    intro js is hpos hzero
    have hentry : entryFor fuel a pml4 v = 0 := by
      rw [entryFor, Mapper.pte, ← hpos, Forest.ref_append, hzero, walk_zero, if_pos rfl]
    rw [hentry, Nat.zero_and, if_pos rfl]
  rw [analyzePageTable, h4, h3, h2, h1, entryOf_of_ne h.root_ne, ok_bind]
  rcases walk_step h (.root hn) with ⟨hnone, hzero⟩ | ⟨hsome, haddr, hpdpt⟩
  · rw [if_pos hnone]
    exact congrArg Except.ok (hstop [] _ rfl hzero)
  rw [if_neg hsome, haddr, entryOf_of_ne hpdpt, ok_bind]
  have hs2 : (mapper fuel).Slot n a pml4 _ (pdptEntry v) (pml4Entry v, [pdptEntry v]) :=
    .word htop (and_entryMask_lt _) hpdpt
  rcases walk_step h hs2 with ⟨hnone, hzero⟩ | ⟨hsome, haddr, hpd⟩
  · rw [if_pos hnone]
    exact congrArg Except.ok (hstop [pdptEntry v] _ rfl hzero)
  rw [if_neg hsome, haddr, entryOf_of_ne hpd, ok_bind]
  have hs3 : (mapper fuel).Slot n a pml4 _ (pdEntry v) (tablePos v) :=
    .word hmid (and_entryMask_lt _) hpd
  rcases walk_step h hs3 with ⟨hnone, hzero⟩ | ⟨hsome, haddr, hpt⟩
  · rw [if_pos hnone]
    exact congrArg Except.ok (hstop [pdptEntry v, pdEntry v] [] rfl hzero)
  rw [if_neg hsome, haddr, entryOf_of_ne hpt, ok_bind]
  have hentry : entryFor fuel a pml4 v =
      readEntry a.mem (((mapper fuel).forest a.mem pml4).ref (tablePos v)) (ptEntry v) :=
    if_neg hpt
  rw [hentry]
  split <;> rfl

/-- The walk in a whole page table. -/
theorem analyzePageTable_eq (h : Tables (pageSupply fuel limit) 512 a pml4) {v : Nat}
    (hv : v < 2 ^ 64) :
    analyzePageTable a.mem pml4 v = .ok (if entryFor fuel a pml4 v &&& ptePresent = 0 then 0
      else (entryFor fuel a pml4 v &&& pageMask) + (v &&& 0xfff)) :=
  analyzePageTable_of_lt h hv (pml4Entry_lt v)

/-- The walks from two roots with the same entry for an address are the same. -/
theorem analyzePageTable_congr {mem : Nat → UInt8} {r r' v : Nat} (hr : r ≠ 0) (hr' : r' ≠ 0)
    (hv : v < 2 ^ 64) (h : readEntry mem r (pml4Entry v) = readEntry mem r' (pml4Entry v)) :
    analyzePageTable mem r v = analyzePageTable mem r' v := by
  rw [analyzePageTable, analyzePageTable, (entries_and_pageMask hv).1, entryOf_of_ne hr,
    entryOf_of_ne hr', h]

/-! ## The walk after the calls -/

/-- A root that is cleared, before any call. -/
structure Cleared (a : Arena FrameMem) (pml4 : Nat) : Prop where
  frames : FramesOk upperHalf a.frames
  root : pml4 ≠ 0
  taken : ∀ p, FreePage a.frames p → Apart pml4 p
  zero : ∀ i, pml4 ≤ i → i < pml4 + pageSize → a.mem i = 0

theorem Cleared.entry (h : Cleared a pml4) {r : Nat} (hr : r < 512) :
    readEntry a.mem pml4 r = 0 := by
  refine getLE_zero fun i hi hi' => h.zero i (by omega) ?_
  rw [pageSize]
  omega

/-- A cleared root is a page table in which nothing is mapped. -/
theorem Cleared.tables (h : Cleared a pml4) (fuel : Nat) :
    Tables (pageSupply fuel upperHalf) 512 a pml4 ∧ ∀ v, entryFor fuel a pml4 v = 0 := by
  obtain ⟨hzero, htables⟩ := Tables.of_empty (S := pageSupply fuel upperHalf) (n := 512)
    (a := a) h.frames
    (Nat.le_refl _) h.root h.taken fun r hr => h.entry hr
  refine ⟨htables, fun v => ?_⟩
  exact if_pos (hzero _ (leaf_tablePos (pml4Entry_lt v)).pos)

/-- The address that the last of the calls for a page gives to the address `v` in it. -/
def mappedBy (c : Option MapCall) (v : Nat) : Nat :=
  match c with
  | some c => (c.phys &&& pageMask) + (v &&& 0xfff)
  | none => 0

/-- **`AnalyzePageTable` finds the last mapping.**  On a root that starts cleared, after calls of
`Map` that have all returned, the walk from `v` gives the address that the last call for the page
of `v` has mapped, and 0 if there was none.  The calls return when three frames for each of them
are left. -/
theorem analyzePageTable_mapAll (ha : Cleared a pml4) (hcalls : ∀ c ∈ calls, c.Valid) :
    (∀ a', mapAll fuel pml4 calls a = .ok ((), a') →
      (∀ v, v < 2 ^ 64 → analyzePageTable a'.mem pml4 v =
        .ok (mappedBy (MapCall.last (fun c => pageNumber c.virt = pageNumber v) calls) v)) ∧
      ∀ v, Canonical v → analyzePageTable a'.mem pml4 v =
        .ok (mappedBy (MapCall.last (fun c => c.virt / pageSize = v / pageSize) calls) v)) ∧
    (3 * calls.length ≤ stock fuel a.frames → ∃ a', mapAll fuel pml4 calls a = .ok ((), a')) := by
  obtain ⟨htables, hnone⟩ := ha.tables fuel
  have hends := mapAll_ends htables fun c hc => ⟨(hcalls c hc).flags, pml4Entry_lt c.virt⟩
  constructor
  · intro a' hrun
    have hmaps := hends.of_result hrun
    have hall : ∀ v, v < 2 ^ 64 → analyzePageTable a'.mem pml4 v =
        .ok (mappedBy (MapCall.last (fun c => pageNumber c.virt = pageNumber v) calls) v) := by
      intro v hv
      rw [analyzePageTable_eq hmaps.tables hv, hmaps.entry v (pml4Entry_lt v), hnone v]
      cases hlast : MapCall.last (fun c => pageNumber c.virt = pageNumber v) calls with
      | none =>
          show Except.ok (if 0 &&& ptePresent = 0 then 0 else _) = _
          rw [Nat.zero_and, if_pos rfl]
          rfl
      | some c =>
          have hc := hcalls c (List.mem_reverse.mp (List.mem_of_find?_eq_some hlast))
          show Except.ok (if c.entry &&& ptePresent = 0 then 0
            else (c.entry &&& pageMask) + (v &&& 0xfff)) = _
          rw [MapCall.entry, entry_and_present, if_neg hc.present, entry_and_pageMask hc.flags]
          rfl
    refine ⟨hall, fun v hv => ?_⟩
    rw [hall v hv.lt]
    refine congrArg (fun c => Except.ok (mappedBy c v)) (MapCall.last_congr fun c hc => ?_)
    exact decide_eq_decide.mpr ((hcalls c hc).virt.pageNumber_eq_iff hv)
  · intro hstock
    obtain ⟨_, a', hrun, -⟩ := (hends.mono_error fun _ hfail =>
      absurd hfail (Nat.not_lt.mpr hstock)).exists_ok
    exact ⟨a', hrun⟩

/-- Eight free frames, and memory that is zero. -/
def freshArena : Arena FrameMem where
  frames := eightFrames
  mem := fun _ => 0

/-- The root lies below the frames. -/
theorem freshArena_cleared : Cleared freshArena (phy2Vir 0x200000) where
  frames := ⟨by decide, by decide, by decide, by decide⟩
  root := by decide
  taken := by
    rintro p ⟨-, i, hi, rfl⟩
    have hlt : i < 8 := (FrameMem.mem_freeFrames.mp hi).1
    have hpage : phy2Vir (u64 (0x300000 + i * pageSize)) =
      identityBase + 0x300000 + i * 0x1000 := by
      simp only [phy2Vir, u64, identityBase, pageSize]
      omega
    have hroot : phy2Vir 0x200000 = identityBase + 0x200000 := by decide
    show Apart _ (phy2Vir (u64 (0x300000 + i * pageSize)))
    rw [hpage, hroot, Apart, pageSize]
    omega
  zero := fun _ _ _ => rfl

/-- Two calls for one page: the second counts. -/
theorem analyzePageTable_mapAll_eightFrames :
    ∃ a', mapAll 9 (phy2Vir 0x200000) [⟨0x400000, 0x5000, 7⟩, ⟨0x400123, 0x7000, 7⟩] freshArena =
        .ok ((), a') ∧
      analyzePageTable a'.mem (phy2Vir 0x200000) 0x400abc = .ok 0x7abc ∧
      analyzePageTable a'.mem (phy2Vir 0x200000) 0x401abc = .ok 0 := by
  have hcalls : ∀ c ∈ [(⟨0x400000, 0x5000, 7⟩ : MapCall), ⟨0x400123, 0x7000, 7⟩], c.Valid := by
    intro c hc
    rcases List.mem_cons.mp hc with rfl | hc
    · exact ⟨.inl (by decide), by decide, by decide, by decide⟩
    · rw [List.mem_singleton.mp hc]
      exact ⟨.inl (by decide), by decide, by decide, by decide⟩
  have hstock : 3 * 2 ≤ stock 9 eightFrames := by decide
  obtain ⟨hall, hreturns⟩ := analyzePageTable_mapAll freshArena_cleared hcalls
  obtain ⟨a', hrun⟩ := hreturns hstock
  refine ⟨a', hrun, ?_, ?_⟩
  · exact (hall a' hrun).2 0x400abc (.inl (by decide))
  · exact (hall a' hrun).2 0x401abc (.inl (by decide))

end InfoKernel.Mm.Page
