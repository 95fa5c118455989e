import InfoKernel.Lib.Run
import InfoKernel.Mm.Page

/-!
# What `Free` gives back

`Alloc` returns the address of its pages in the kernel's window, and `Free` passes that
address on to `FreePages`, which counts frames from `start_usable`, a physical address.  The
two lie `identityBase` apart, so `FreePages` never looks at the frames that are to be given
back.  Besides, `Alloc` writes the number of pages at the address that it returns, and `Free`
reads it in the page before.

`Sys` is the allocator with the pointers that are live.  `not_freesExactly` says that in no
state that calls of `Alloc`, calls of `Free` and writes of the owners can reach, `Free` of a
live pointer clears the bits that its `Alloc` has set.
-/

namespace InfoKernel.Mm.Page

open InfoKernel.Lib

/-- A live pointer, the frames that its `Alloc` has marked, and their number. -/
structure Allocation where
  ptr : Nat
  set : Nat → Bool
  pages : Nat

/-- The allocation made by a call of `Alloc`, from the frames before and after it. -/
def Allocation.of (frame frame' : FrameMem) (p : Nat) : Allocation where
  ptr := p
  set := fun i => !frame.bitmap.used i && frame'.bitmap.used i
  pages := sub64 frame.freePages frame'.freePages

/-- The allocator, with the allocations that are live. -/
structure Sys where
  heap : Heap
  live : List Allocation

namespace Sys

/-- The steps: the two calls, and a write by the owner of a live pointer. -/
inductive Op where
  | alloc (size : Nat)
  | free (p : Nat)
  | write (addr : Nat) (b : UInt8)
  deriving DecidableEq, Repr

/-- Whether a step may be taken: `Free` is for live pointers, and an owner writes into the
pages it was given. -/
def allowed (s : Sys) : Op → Bool
  | .alloc size => size < 2 ^ 64
  | .free p => s.live.any fun a => a.ptr = p
  | .write addr _ => s.live.any fun a => a.ptr ≤ addr ∧ addr < a.ptr + a.pages * pageSize

/-- The calls, with fuel for their loops. -/
def call (fuel : Nat) (s : Sys) : Op → Except Fault Sys
  | .alloc size => do
      let (heap, p) ← s.heap.alloc fuel size
      if p = 0 then return { s with heap := heap }
      else return ⟨heap, .of s.heap.frame heap.frame p :: s.live⟩
  | .free p => .ok ⟨s.heap.free p, s.live.eraseP fun a => a.ptr = p⟩
  | .write addr b =>
      .ok { s with heap := { s.heap with mem := Function.update s.heap.mem addr b } }

/-- A step that returns, with fuel for its loops. -/
def exec (fuel : Nat) (s : Sys) (op : Op) : Option Sys :=
  if s.allowed op then (s.call fuel op).toOption else none

/-- A step, whatever fuel it takes. -/
def step (s : Sys) (op : Op) (s' : Sys) : Prop := ∃ fuel, s.exec fuel op = some s'

/-- The state at the hand-over: nothing is live, and all frames have a physical address of 64
bits. -/
structure Init (s : Sys) : Prop where
  live : s.live = []
  region : s.heap.frame.startUsable + s.heap.frame.totalPages * pageSize ≤ 2 ^ 64
  freePages : s.heap.frame.freePages < 2 ^ 64

/-- **What `Free` is for.**  It clears the bits that the `Alloc` of `a` has set, and no
others, it adds their number to `free_pages`, and it leaves the frames of every other live
allocation marked. -/
structure FreesExactly (s : Sys) (a : Allocation) : Prop where
  cleared : ∀ i, (s.heap.frame.bitmap.used i = true ∧
    (s.heap.free a.ptr).frame.bitmap.used i = false) ↔ a.set i = true
  freePages : (s.heap.free a.ptr).frame.freePages = u64 (s.heap.frame.freePages + a.pages)
  others : ∀ b ∈ s.live, b.ptr ≠ a.ptr → ∀ i, b.set i = true →
    (s.heap.free a.ptr).frame.bitmap.used i = true

/-- A live allocation: `n` frames from `first` on. -/
structure IsRange (frame : FrameMem) (a : Allocation) (first n : Nat) : Prop where
  pos : 0 < n
  fits : first + n ≤ frame.totalPages
  set : ∀ i, a.set i = true ↔ InRange first n i
  pages : a.pages = n
  addr : a.ptr = phy2Vir (u64 (frame.startUsable + first * pageSize))

/-- The invariant: every live allocation is a range of frames. -/
structure Inv (s : Sys) : Prop where
  region : s.heap.frame.startUsable + s.heap.frame.totalPages * pageSize ≤ 2 ^ 64
  freePages : s.heap.frame.freePages < 2 ^ 64
  live : ∀ a ∈ s.live, ∃ first n, IsRange s.heap.frame a first n

theorem Init.inv {s : Sys} (h : Init s) : Inv s :=
  ⟨h.region, h.freePages, fun a ha => by rw [h.live] at ha; cases ha⟩

theorem IsRange.congr {frame frame' : FrameMem} {a : Allocation} {first n : Nat}
    (h : IsRange frame a first n) (htotal : frame'.totalPages = frame.totalPages)
    (hstart : frame'.startUsable = frame.startUsable) : IsRange frame' a first n where
  pos := h.pos
  fits := htotal ▸ h.fits
  set := h.set
  pages := h.pages
  addr := by rw [hstart]; exact h.addr

/-- The frames after `FreePages`. -/
theorem freePages_frame (frame : FrameMem) (addr n : Nat) :
    (freePages frame addr n).totalPages = frame.totalPages ∧
      (freePages frame addr n).startUsable = frame.startUsable ∧
      (frame.freePages < 2 ^ 64 → (freePages frame addr n).freePages < 2 ^ 64) := by
  unfold freePages
  simp only
  split
  · exact ⟨rfl, rfl, id⟩
  · split
    · exact ⟨rfl, rfl, id⟩
    · split
      · exact ⟨rfl, rfl, id⟩
      · exact ⟨FrameMem.clearPages_totalPages _ _, FrameMem.clearPages_startUsable _ _,
          fun _ => Nat.mod_lt _ (by decide)⟩

/-- A new allocation is a range of frames. -/
theorem isRange_of_allocated {frame frame' : FrameMem} {n first p : Nat} (hn : 0 < n)
    (hfree : frame.freePages < 2 ^ 64) (h : Allocated frame n first frame' p) :
    IsRange frame' (.of frame frame' p) first n where
  pos := hn
  fits := by
    rw [h.totalPages]
    exact h.fits
  set := by
    intro i
    rw [Allocation.of, Bool.and_eq_true, Bool.not_eq_true', h.used]
    constructor
    · rintro ⟨hi, hin | hi'⟩
      · exact hin
      · rw [hi] at hi'
        cases hi'
    · intro hin
      exact ⟨h.wasFree i hin, .inl hin⟩
  pages := by
    have henough := h.enough
    rw [Allocation.of, h.freePages]
    simp only [sub64, u64]
    omega
  addr := by
    rw [h.startUsable]
    exact h.addr

theorem pagesFor_lt (size : Nat) : Heap.pagesFor size < 2 ^ 52 := by
  have h : ∀ n, u64 n / pageSize < 2 ^ 52 := by
    intro n
    have := Nat.mod_lt n (by decide : 2 ^ 64 > 0)
    simp only [u64, pageSize]
    omega
  exact h _

/-- What `Alloc` does to the frames: nothing, or it marks a range of them. -/
theorem alloc_cases {h h' : Heap} {fuel size p : Nat} (hsmall : h.frame.totalPages < 2 ^ 53)
    (hr : h.alloc fuel size = .ok (h', p)) :
    (h'.frame = h.frame ∧ p = 0) ∨ ∃ n first base, 0 < n ∧ (p = 0 ∨ p = base) ∧
      Allocated h.frame n first h'.frame base := by
  rw [Heap.alloc] at hr
  simp only at hr
  rw [bind_eq_ok_iff] at hr
  obtain ⟨⟨frame, base⟩, halloc, hr⟩ := hr
  have hpages := pagesFor_lt size
  have hspec := allocPages_spec (by omega) (by omega) halloc
  have hframe : h'.frame = frame ∧ (p = 0 ∨ p = base) ∧ (base = 0 → p = 0) := by
    simp only at hr
    split at hr
    · injection hr with hr
      obtain ⟨rfl, rfl⟩ := Prod.mk.inj hr
      exact ⟨rfl, .inl rfl, fun _ => rfl⟩
    · next hne =>
      injection hr with hr
      obtain ⟨rfl, rfl⟩ := Prod.mk.inj hr
      exact ⟨rfl, .inr rfl, fun h0 => absurd h0 hne⟩
  obtain ⟨rfl, hp, hp0⟩ := hframe
  rcases hspec with ⟨hsame, hbase⟩ | ⟨first, hall⟩
  · exact .inl ⟨hsame, hp0 hbase⟩
  · refine .inr ⟨_, first, base, ?_, hp, hall⟩
    split <;> omega

theorem Inv.totalPages_lt {s : Sys} (h : Inv s) : s.heap.frame.totalPages < 2 ^ 53 := by
  have hregion := h.region
  rw [pageSize] at hregion
  omega

/-- A change of the frames that keeps what the invariant says of them. -/
theorem Inv.of_frame {s s' : Sys} (h : Inv s)
    (htotal : s'.heap.frame.totalPages = s.heap.frame.totalPages)
    (hstart : s'.heap.frame.startUsable = s.heap.frame.startUsable)
    (hfree : s'.heap.frame.freePages < 2 ^ 64)
    (hlive : ∀ a ∈ s'.live, a ∈ s.live ∨ ∃ first n, IsRange s'.heap.frame a first n) :
    Inv s' := by
  refine ⟨?_, hfree, fun a ha => ?_⟩
  · rw [htotal, hstart]
    exact h.region
  · rcases hlive a ha with ha | hnew
    · obtain ⟨first, n, hrange⟩ := h.live a ha
      exact ⟨first, n, hrange.congr htotal hstart⟩
    · exact hnew

/-- A step keeps the invariant. -/
theorem Inv.step {s s' : Sys} {op : Op} (h : Inv s) (hs : step s op s') : Inv s' := by
  obtain ⟨fuel, hs⟩ := hs
  rw [exec] at hs
  split at hs
  · next hop =>
    cases op with
    | alloc size =>
        cases hcall : s.call fuel (.alloc size) with
        | error e =>
            rw [hcall] at hs
            cases hs
        | ok s₁ =>
            rw [hcall] at hs
            injection hs with hs
            rw [call, bind_eq_ok_iff] at hcall
            obtain ⟨⟨heap, p⟩, halloc, hcall⟩ := hcall
            have hres : s'.heap = heap ∧ ∀ a ∈ s'.live, a ∈ s.live ∨
                p ≠ 0 ∧ a = .of s.heap.frame heap.frame p := by
              rw [← hs]
              simp only at hcall
              split at hcall
              · injection hcall with hcall
                rw [← hcall]
                exact ⟨rfl, fun a ha => .inl ha⟩
              · next hne =>
                injection hcall with hcall
                rw [← hcall]
                refine ⟨rfl, fun a ha => ?_⟩
                rcases List.mem_cons.mp ha with ha | ha
                · exact .inr ⟨hne, ha⟩
                · exact .inl ha
            obtain ⟨rfl, hlive⟩ := hres
            rcases alloc_cases h.totalPages_lt halloc with ⟨hsame, hp⟩ |
              ⟨n, first, base, hn, hp, hall⟩
            · refine h.of_frame (by rw [hsame]) (by rw [hsame]) (hsame ▸ h.freePages) ?_
              exact fun a ha => (hlive a ha).imp_right fun hnew => absurd hp hnew.1
            · refine h.of_frame hall.totalPages hall.startUsable ?_ fun a ha => ?_
              · rw [hall.freePages]
                exact Nat.mod_lt _ (by decide)
              · refine (hlive a ha).imp_right ?_
                rintro ⟨hne, rfl⟩
                rw [hp.resolve_left hne]
                exact ⟨first, n, isRange_of_allocated hn h.freePages hall⟩
    | free p =>
        injection hs with hs
        rw [← hs]
        obtain ⟨htotal, hstart, hfree⟩ := freePages_frame s.heap.frame p
          (getLE s.heap.mem (Heap.headerPage p) 8)
        have hframe : (s.heap.free p).frame.totalPages = s.heap.frame.totalPages ∧
            (s.heap.free p).frame.startUsable = s.heap.frame.startUsable ∧
            (s.heap.free p).frame.freePages < 2 ^ 64 := by
          rw [Heap.free]
          split
          · exact ⟨rfl, rfl, h.freePages⟩
          · exact ⟨htotal, hstart, hfree h.freePages⟩
        exact h.of_frame hframe.1 hframe.2.1 hframe.2.2
          fun a ha => .inl (List.mem_of_mem_eraseP ha)
    | write addr b =>
        injection hs with hs
        rw [← hs]
        exact ⟨h.region, h.freePages, h.live⟩
  · cases hs

/-! ## `Free` -/

/-- What `FreePages` has done when it has cleared the bit `i`. -/
theorem freePages_of_cleared {frame : FrameMem} {addr n i : Nat}
    (hused : frame.bitmap.used i = true)
    (hclear : (freePages frame addr n).bitmap.used i = false) :
    frame.startUsable ≤ addr ∧ (addr - frame.startUsable) / pageSize ≤ i ∧
      i < (addr - frame.startUsable) / pageSize + n ∧
      (freePages frame addr n).freePages = u64 (frame.freePages + n) := by
  have hsame : ∀ {P : Prop}, frame.bitmap.used i = false → P := by
    intro P h
    rw [hused] at h
    cases h
  unfold freePages at hclear ⊢
  simp only at hclear ⊢
  split at hclear
  · exact hsame hclear
  · next hnull =>
    split at hclear
    · exact hsame hclear
    · next hstart =>
      split at hclear
      · exact hsame hclear
      · next hidx =>
        rw [if_neg hnull, if_neg hstart, if_neg hidx]
        have hin : ¬ (frame.clearPages ((addr - frame.startUsable) / pageSize)
            (min n (frame.totalPages - (addr - frame.startUsable) / pageSize))).bitmap.used
              i = true := by
          rw [Bool.not_eq_true]
          exact hclear
        rw [FrameMem.used_clearPages, hused] at hin
        simp only [and_true, not_not] at hin
        exact ⟨by omega, hin.1, by omega, rfl⟩

/-- The address that `FreePages` gets leads it past the frames of the allocation, or to a
frame far below them. -/
theorem IsRange.far {frame : FrameMem} {a : Allocation} {first n : Nat}
    (h : IsRange frame a first n)
    (hregion : frame.startUsable + frame.totalPages * pageSize ≤ 2 ^ 64)
    (hstart : frame.startUsable ≤ a.ptr)
    (hle : (a.ptr - frame.startUsable) / pageSize ≤ first) :
    (a.ptr - frame.startUsable) / pageSize + 2 ^ 32 = first := by
  have hpos := h.pos
  have hfits := h.fits
  have haddr := h.addr
  rw [pageSize] at hregion hle haddr ⊢
  -- no wrap-around in the physical address of the first frame
  have hphys : frame.startUsable + first * 0x1000 < 2 ^ 64 := by omega
  rw [u64, Nat.mod_eq_of_lt hphys, phy2Vir, identityBase, u64] at haddr
  omega

/-- **`Free` never gives back what `Alloc` has handed out.**  In every state that calls of
`Alloc`, calls of `Free` and writes of the owners can reach, `Free` of a live pointer fails to
clear the bits of its allocation or adds a wrong number to `free_pages`. -/
theorem not_freesExactly {s₀ s : Sys} {ops : List Op} (hinit : Init s₀) (hrun : Run step s₀ ops s)
    {a : Allocation} (ha : a ∈ s.live) : ¬ FreesExactly s a := by
  intro hfree
  have h : Inv s := hrun.invariant hinit.inv fun _ _ _ h hs => h.step hs
  obtain ⟨first, n, hrange⟩ := h.live a ha
  have hpos := hrange.pos
  -- the first and the last frame of the allocation
  have hfirst := (hfree.cleared first).mpr ((hrange.set first).mpr ⟨by omega, by omega⟩)
  have hlast := (hfree.cleared (first + n - 1)).mpr
    ((hrange.set (first + n - 1)).mpr ⟨by omega, by omega⟩)
  have hcount := hfree.freePages
  rw [hrange.pages] at hcount
  rw [Heap.free] at hfirst hlast hcount
  split at hfirst
  · rw [hfirst.1] at hfirst
    cases hfirst.2
  · next hnull =>
    rw [if_neg hnull] at hlast hcount
    have hpages := getLE_lt s.heap.mem (Heap.headerPage a.ptr) 8
    generalize getLE s.heap.mem (Heap.headerPage a.ptr) 8 = pages at *
    obtain ⟨hstart, hle, -, hraise⟩ := freePages_of_cleared hfirst.1 hfirst.2
    obtain ⟨-, -, hlt, -⟩ := freePages_of_cleared hlast.1 hlast.2
    have hfar := hrange.far h.region hstart hle
    have hfits := hrange.fits
    have htotal := h.totalPages_lt
    -- so more than `n` pages are added
    have hcount' : u64 (s.heap.frame.freePages + pages) = u64 (s.heap.frame.freePages + n) := by
      rw [← hraise]
      exact hcount
    simp only [u64] at hcount'
    omega

/-! ## One page -/

/-- Eight free frames, and memory that is zero. -/
def fresh : Sys where
  heap := { frame := eightFrames, mem := fun _ => 0 }
  live := []

theorem fresh_init : Init fresh := ⟨rfl, by decide, by decide⟩

/-- A call of `Alloc` for 100 bytes. -/
theorem not_freesExactly_eightFrames :
    ∃ s a, Run step fresh [.alloc 100] s ∧ a ∈ s.live ∧ ¬ FreesExactly s a := by
  obtain ⟨s, hs⟩ := Option.isSome_iff_exists.mp
    (by decide : (exec 9 fresh (.alloc 100)).isSome)
  have hlive : (exec 9 fresh (.alloc 100)).map (fun s => s.live.length) = some 1 := by
    decide
  rw [hs, Option.map_some, Option.some.injEq] at hlive
  obtain ⟨a, ha⟩ := List.length_eq_one_iff.mp hlive
  have hmem : a ∈ s.live := by
    rw [ha]
    exact List.mem_singleton_self a
  have hrun : Run step fresh [.alloc 100] s := .snoc .nil ⟨9, hs⟩
  exact ⟨s, a, hrun, hmem, not_freesExactly fresh_init hrun hmem⟩

/-- **The page is not given back**: its frame stays marked. -/
theorem free_keeps_frame :
    ¬ ∀ (s₀ s : Sys) (ops : List Op) (a : Allocation), Init s₀ → Run step s₀ ops s →
      a ∈ s.live → FreesExactly s a := by
  intro hclaim
  obtain ⟨s, hs⟩ := Option.isSome_iff_exists.mp
    (by decide : (exec 9 fresh (.alloc 100)).isSome)
  have hend : (exec 9 fresh (.alloc 100)).map (fun s => s.live.map fun a =>
      (a.ptr, a.set 0, (s.heap.free a.ptr).frame.bitmap.used 0)) =
        some [(phy2Vir 0x300000, true, true)] := by decide
  rw [hs, Option.map_some, Option.some.injEq] at hend
  obtain ⟨a, l, hlive, ha, -⟩ := List.map_eq_cons_iff.mp hend
  obtain ⟨-, hset, hused⟩ := by simpa only [Prod.mk.injEq] using ha
  have hmem : a ∈ s.live := by
    rw [hlive]
    exact List.mem_cons_self
  have hfree := hclaim fresh s [.alloc 100] a fresh_init (.snoc .nil ⟨9, hs⟩) hmem
  have hcleared := ((hfree.cleared 0).mpr hset).2
  rw [hused] at hcleared
  cases hcleared

end Sys

end InfoKernel.Mm.Page
