import InfoKernel.Lib.PointerForest
import InfoKernel.Mm.PageTable
import Mathlib.Tactic.ByContra

/-!
# The tree of tables

The tables below the root of a page table form a `Forest`, one tree for each entry of the root.
`Mapper.child` says what an entry refers to, and `Mapper.pte` is the entry of a last table.
`Tables` is the invariant of a builder: no two positions have one table, and all tables are apart
from the root and from the frames that are still to be handed out.  It speaks of the first `n`
entries of the root only, for a builder whose root shares the tables below the others.

What an allocator of tables must do is `Mapper.Supply`.  With it, `Mapper.map_ends` says what one
`Map` does: it changes the one entry and no other, it takes no more frames than tables were
missing, and it writes into no page that is neither a table nor free.
-/

namespace InfoKernel.Mm.Page

open InfoKernel.Lib

/-! ## The tree -/

section Tree

variable {φ : Type}

namespace Mapper

variable (m : Mapper φ)

/-- The table that an entry refers to, and 0 for an entry that is not present. -/
def child (mem : Nat → UInt8) (table idx : Nat) : Nat :=
  if readEntry mem table idx &&& ptePresent = 0 then 0
  else m.toTable (readEntry mem table idx &&& pageMask)

/-- The tables below the root, one tree for each of its entries. -/
def forest (mem : Nat → UInt8) (pml4 : Nat) : Forest Nat where
  mem := m.child mem
  root r := if r < 512 then m.child mem pml4 r else 0

/-- The entry `i` of the last table at `p`, and 0 if there is no table. -/
def pte (mem : Nat → UInt8) (pml4 : Nat) (p : Nat × List Nat) (i : Nat) : Nat :=
  if (m.forest mem pml4).ref p = 0 then 0 else readEntry mem ((m.forest mem pml4).ref p) i

/-- What an allocator of tables must do.  `Free f` are the pages that it may still hand out,
and `stock f` is a number of calls that do not fail. -/
structure Supply where
  Ok : φ → Prop
  Free : φ → Nat → Prop
  stock : φ → Nat
  frame : ∀ {f p}, Ok f → Free f p →
    p ≠ 0 ∧ p % pageSize = 0 ∧ m.toTable (m.toEntry p &&& pageMask) = p
  alloc : ∀ {f f' p}, Ok f → m.alloc f = .ok (f', p) → p ≠ 0 →
    Ok f' ∧ Free f p ∧ (∀ q, Free f' q → Free f q ∧ q ≠ p) ∧ stock f ≤ stock f' + 1
  succeeds : ∀ {f}, Ok f → 0 < stock f → ∃ f' p, m.alloc f = .ok (f', p) ∧ p ≠ 0

end Mapper

/-- The positions of the tables below the first `n` entries of the root. -/
def tableShape (n : Nat) : Shape Nat where
  arity := 512
  root r := r < n
  depth _ := 2

variable {m : Mapper φ} (S : m.Supply) (n : Nat)

/-- **The invariant of a page table**, below the first `n` entries of its root. -/
structure Tables (a : Arena φ) (pml4 : Nat) : Prop where
  ok : S.Ok a.frames
  bound : n ≤ 512
  root_ne : pml4 ≠ 0
  free_root : ∀ x, S.Free a.frames x → Apart pml4 x
  unshared : (m.forest a.mem pml4).Unshared (tableShape n).Pos
  aligned : ∀ p, (tableShape n).Pos p → (m.forest a.mem pml4).ref p ≠ 0 →
    (m.forest a.mem pml4).ref p % pageSize = 0
  apart : ∀ p, (tableShape n).Pos p → (m.forest a.mem pml4).ref p ≠ 0 →
    Apart pml4 ((m.forest a.mem pml4).ref p)
  free : ∀ p, (tableShape n).Pos p → (m.forest a.mem pml4).ref p ≠ 0 →
    ¬ S.Free a.frames ((m.forest a.mem pml4).ref p)
  linked_root : ∀ r, r < n → readEntry a.mem pml4 r &&& ptePresent ≠ 0 → m.child a.mem pml4 r ≠ 0
  linked : ∀ p, (tableShape n).Inner p → (m.forest a.mem pml4).ref p ≠ 0 → ∀ i, i < 512 →
    readEntry a.mem ((m.forest a.mem pml4).ref p) i &&& ptePresent ≠ 0 →
      m.child a.mem ((m.forest a.mem pml4).ref p) i ≠ 0

/-- A page that is neither a table nor free. -/
structure Foreign (a : Arena φ) (pml4 x : Nat) : Prop where
  root : Apart pml4 x
  table : ∀ p, (tableShape n).Pos p → (m.forest a.mem pml4).ref p ≠ 0 →
    Apart ((m.forest a.mem pml4).ref p) x
  free : ∀ y, S.Free a.frames y → Apart y x

/-- **What making tables does.**  No entry of a last table changes; `k` frames are taken. -/
structure Grows (a a' : Arena φ) (pml4 k : Nat) : Prop where
  tables : Tables S n a' pml4
  keeps : ∀ p, (tableShape n).Pos p → (m.forest a.mem pml4).ref p ≠ 0 →
    (m.forest a'.mem pml4).ref p = (m.forest a.mem pml4).ref p
  pte : ∀ p, (tableShape n).Leaf p → ∀ i, i < 512 → m.pte a'.mem pml4 p i = m.pte a.mem pml4 p i
  stock : S.stock a.frames ≤ S.stock a'.frames + k
  free : ∀ x, S.Free a'.frames x → S.Free a.frames x ∧ SamePage a.mem a'.mem x
  foreign : ∀ x, Foreign S n a pml4 x → Foreign S n a' pml4 x ∧ SamePage a.mem a'.mem x

/-- The pages of the page table. -/
def Mapper.Block (m : Mapper φ) (n : Nat) (a : Arena φ) (pml4 x : Nat) : Prop :=
  x = pml4 ∨ ∃ p, (tableShape n).Pos p ∧ (m.forest a.mem pml4).ref p ≠ 0 ∧
    x = (m.forest a.mem pml4).ref p

/-- The entry `idx` of the table at `table` refers to the table at `p`. -/
inductive Mapper.Slot (m : Mapper φ) (n : Nat) (a : Arena φ) (pml4 : Nat) :
    Nat → Nat → Nat × List Nat → Prop
  | root {r : Nat} (hr : r < n) : Mapper.Slot m n a pml4 pml4 r (r, [])
  | word {r i : Nat} {js : List Nat} (hin : (tableShape n).Inner (r, js)) (hi : i < 512)
      (hne : (m.forest a.mem pml4).ref (r, js) ≠ 0) :
      Mapper.Slot m n a pml4 ((m.forest a.mem pml4).ref (r, js)) i (r, js ++ [i])

end Tree

section Facts

variable {φ : Type} {m : Mapper φ} {S : m.Supply} {n : Nat} {a a' : Arena φ}
  {pml4 table idx x y i k l : Nat} {p q : Nat × List Nat}

theorem Mapper.child_congr {mem mem' : Nat → UInt8}
    (h : readEntry mem' x i = readEntry mem x i) : m.child mem' x i = m.child mem x i := by
  rw [child, child, h]

namespace Mapper.Slot

theorem pos (h : m.Slot n a pml4 table idx p) : (tableShape n).Pos p := by
  cases h with
  | root hr => exact ⟨hr, nofun, Nat.zero_le _⟩
  | word hin hi _ => exact hin.pos_snoc hi

theorem lt (h : m.Slot n a pml4 table idx p) (hn : n ≤ 512) : idx < 512 := by
  cases h with
  | root hr => exact Nat.lt_of_lt_of_le hr hn
  | word _ hi _ => exact hi

theorem block (h : m.Slot n a pml4 table idx p) : m.Block n a pml4 table := by
  cases h with
  | root _ => exact .inl rfl
  | word hin _ hne => exact .inr ⟨_, hin.pos, hne, rfl⟩

/-- What the entry refers to. -/
theorem ref (h : m.Slot n a pml4 table idx p) (hn : n ≤ 512) :
    (m.forest a.mem pml4).ref p = m.child a.mem table idx := by
  cases h with
  | root hr => exact if_pos (Nat.lt_of_lt_of_le hr hn)
  | word _ _ hne => exact Forest.ref_append.trans (walk_cons hne)

end Mapper.Slot

namespace Tables

theorem block_ne (h : Tables S n a pml4) (hx : m.Block n a pml4 x) : x ≠ 0 := by
  rcases hx with rfl | ⟨p, _, hne, rfl⟩
  · exact h.root_ne
  · exact hne

/-- Two pages of a page table are the same or have no byte in common. -/
theorem block_apart (h : Tables S n a pml4) (hx : m.Block n a pml4 x) (hy : m.Block n a pml4 y)
    (hne : x ≠ y) : Apart x y := by
  rcases hx with rfl | ⟨p, hp, hpne, rfl⟩
  · rcases hy with rfl | ⟨q, hq, hqne, rfl⟩
    · exact absurd rfl hne
    · exact h.apart q hq hqne
  · rcases hy with rfl | ⟨q, hq, hqne, rfl⟩
    · exact (h.apart p hp hpne).symm
    · exact apart_of_ne (h.aligned p hp hpne) (h.aligned q hq hqne) hne

/-- No page of a page table is free. -/
theorem block_free (h : Tables S n a pml4) (hx : m.Block n a pml4 x)
    (hy : S.Free a.frames y) : Apart x y := by
  rcases hx with rfl | ⟨p, hp, hpne, rfl⟩
  · exact h.free_root y hy
  · refine apart_of_ne (h.aligned p hp hpne) (S.frame h.ok hy).2.1 ?_
    rintro rfl
    exact h.free p hp hpne hy

theorem ref_ne_root (h : Tables S n a pml4) (hq : (tableShape n).Pos q) :
    (m.forest a.mem pml4).ref q ≠ pml4 := by
  intro heq
  have hne : (m.forest a.mem pml4).ref q ≠ 0 := by
    rw [heq]
    exact h.root_ne
  exact (h.apart q hq hne).ne heq.symm

/-- A last table refers to no other. -/
theorem leaf_ne_inner (h : Tables S n a pml4) (hq : (tableShape n).Leaf q)
    (hp : (tableShape n).Inner p) (hne : (m.forest a.mem pml4).ref p ≠ 0) :
    (m.forest a.mem pml4).ref q ≠ (m.forest a.mem pml4).ref p := by
  intro heq
  have hpos := h.unshared q p hq.pos hp.pos (heq ▸ hne) heq
  exact hp.not_leaf (hpos ▸ hq)

/-- An entry that refers to no table is not present. -/
theorem slot_present (h : Tables S n a pml4) (hs : m.Slot n a pml4 table idx p) :
    (m.forest a.mem pml4).ref p = 0 ↔ readEntry a.mem table idx &&& ptePresent = 0 := by
  rw [hs.ref h.bound]
  constructor
  · intro hzero
    by_contra hpresent
    cases hs with
    | root hr => exact h.linked_root _ hr hpresent hzero
    | word hin hi hne => exact h.linked _ hin hne _ hi hpresent hzero
  · intro hnone
    rw [Mapper.child, if_pos hnone]

/-- The tables are determined by the entries that refer to them. -/
theorem ref_congr (h : Tables S n a pml4)
    (hsame : ∀ x, m.Block n a pml4 x → (∀ q, (tableShape n).Leaf q →
      (m.forest a.mem pml4).ref q ≠ x) → ∀ i, i < 512 → (x = pml4 → i < n) →
      readEntry a'.mem x i = readEntry a.mem x i) (hp : (tableShape n).Pos p) :
    (m.forest a'.mem pml4).ref p = (m.forest a.mem pml4).ref p := by
  obtain ⟨r, is⟩ := p
  have hr : r < n := hp.root
  have hroot : readEntry a'.mem pml4 r = readEntry a.mem pml4 r := by
    exact hsame pml4 (.inl rfl) (fun q hq => h.ref_ne_root hq.pos) r
      (Nat.lt_of_lt_of_le hr h.bound) fun _ => hr
  refine Forest.ref_congr (S := tableShape n) ?_ hp fun js i _ hin hne hi => ?_
  · show (if r < 512 then m.child a'.mem pml4 r else 0) = if r <
      512 then m.child a.mem pml4 r else 0
    rw [Mapper.child_congr hroot]
  · exact Mapper.child_congr (hsame _ (.inr ⟨_, hin.pos, hne, rfl⟩)
      (fun q hq => h.leaf_ne_inner hq hin hne) i hi
      fun heq => absurd heq (h.ref_ne_root hin.pos))

/-- A root without tables. -/
theorem of_empty (hok : S.Ok a.frames) (hn : n ≤ 512) (hroot : pml4 ≠ 0)
    (hfree : ∀ x, S.Free a.frames x → Apart pml4 x)
    (hempty : ∀ r, r < n → readEntry a.mem pml4 r = 0) :
    (∀ p, (tableShape n).Pos p → (m.forest a.mem pml4).ref p = 0) ∧ Tables S n a pml4 := by
  have hzero : ∀ p, (tableShape n).Pos p → (m.forest a.mem pml4).ref p = 0 := by
    rintro ⟨r, is⟩ hp
    have hr : r < n := hp.root
    have htable : (m.forest a.mem pml4).root r = 0 := by
      show (if r < 512 then m.child a.mem pml4 r else 0) = 0
      rw [if_pos (Nat.lt_of_lt_of_le hr hn), Mapper.child, hempty r hr, Nat.zero_and, if_pos rfl]
    rw [Forest.ref, htable, walk_zero]
  refine ⟨hzero,
    { ok := hok
      bound := hn
      root_ne := hroot
      free_root := hfree
      unshared := fun p q hp _ hne _ => absurd (hzero p hp) hne
      aligned := fun p hp hne => absurd (hzero p hp) hne
      apart := fun p hp hne => absurd (hzero p hp) hne
      free := fun p hp hne => absurd (hzero p hp) hne
      linked_root := fun r hr hpresent => ?_
      linked := fun p hp hne => absurd (hzero p hp.pos) hne }⟩
  rw [hempty r hr, Nat.zero_and] at hpresent
  exact absurd rfl hpresent

/-- **What the invariant rests on.**  The frames that are free may become fewer, and the memory
may change outside the root and the tables that refer to others. -/
theorem transfer (h : Tables S n a pml4) (hok : S.Ok a'.frames)
    (hfree : ∀ x, S.Free a'.frames x → S.Free a.frames x)
    (hsame : ∀ x, m.Block n a pml4 x → (∀ q, (tableShape n).Leaf q →
      (m.forest a.mem pml4).ref q ≠ x) → ∀ i, i < 512 → (x = pml4 → i < n) →
      readEntry a'.mem x i = readEntry a.mem x i) :
    Tables S n a' pml4 := by
  have href : ∀ p, (tableShape n).Pos p →
      (m.forest a'.mem pml4).ref p = (m.forest a.mem pml4).ref p := fun p hp => h.ref_congr hsame hp
  have hroot : ∀ r, r < n → readEntry a'.mem pml4 r = readEntry a.mem pml4 r := by
    intro r hr
    exact hsame pml4 (.inl rfl) (fun q hq => h.ref_ne_root hq.pos) r
      (Nat.lt_of_lt_of_le hr h.bound) fun _ => hr
  refine
    { ok := hok
      bound := h.bound
      root_ne := h.root_ne
      free_root := fun x hx => h.free_root x (hfree x hx)
      unshared := fun p q hp hq hne heq => ?_
      aligned := fun p hp hne => ?_
      apart := fun p hp hne => ?_
      free := fun p hp hne hx => ?_
      linked_root := fun r hr hpresent => ?_
      linked := fun p hp hne i hi hpresent => ?_ }
  · rw [href p hp] at hne heq
    rw [href q hq] at heq
    exact h.unshared p q hp hq hne heq
  · rw [href p hp] at hne ⊢
    exact h.aligned p hp hne
  · rw [href p hp] at hne ⊢
    exact h.apart p hp hne
  · rw [href p hp] at hne hx
    exact h.free p hp hne (hfree _ hx)
  · rw [hroot r hr] at hpresent
    rw [Mapper.child_congr (hroot r hr)]
    exact h.linked_root r hr hpresent
  · rw [href p hp.pos] at hne hpresent ⊢
    have hentry : readEntry a'.mem ((m.forest a.mem pml4).ref p) i =
        readEntry a.mem ((m.forest a.mem pml4).ref p) i := by
      exact hsame _ (.inr ⟨p, hp.pos, hne, rfl⟩) (fun q hq => h.leaf_ne_inner hq hp hne) i hi
        fun heq => absurd heq (h.ref_ne_root hp.pos)
    rw [hentry] at hpresent
    rw [Mapper.child_congr hentry]
    exact h.linked p hp hne i hi hpresent

/-- **Elsewhere.**  What happens outside the pages of a page table does not change it. -/
theorem undisturbed (h : Tables S n a pml4) (hok : S.Ok a'.frames)
    (hfree : ∀ x, S.Free a'.frames x → S.Free a.frames x)
    (hsame : ∀ x, m.Block n a pml4 x → SamePage a.mem a'.mem x) :
    Tables S n a' pml4 ∧
      (∀ p, (tableShape n).Leaf p → ∀ i, i < 512 → m.pte a'.mem pml4 p i = m.pte a.mem pml4 p i) ∧
      ∀ x, m.Block n a' pml4 x → m.Block n a pml4 x := by
  have hentry : ∀ x, m.Block n a pml4 x → (∀ q, (tableShape n).Leaf q →
      (m.forest a.mem pml4).ref q ≠ x) → ∀ i, i < 512 → (x = pml4 → i < n) →
      readEntry a'.mem x i = readEntry a.mem x i :=
    fun x hx _ i hi _ => (hsame x hx).readEntry hi
  have href : ∀ q, (tableShape n).Pos q →
      (m.forest a'.mem pml4).ref q = (m.forest a.mem pml4).ref q :=
    fun q hq => h.ref_congr hentry hq
  refine ⟨h.transfer hok hfree hentry, fun p hp i hi => ?_, fun x hx => ?_⟩
  · rw [Mapper.pte, Mapper.pte, href p hp.pos]
    split
    · rfl
    · next hne => exact (hsame _ (.inr ⟨p, hp.pos, hne, rfl⟩)).readEntry hi
  · refine hx.imp_right ?_
    rintro ⟨q, hq, hne, hxq⟩
    rw [href q hq] at hne hxq
    exact ⟨q, hq, hne, hxq⟩

end Tables

/-- A page is foreign to a page table when it is apart from its pages and from the free ones. -/
theorem foreign_iff : Foreign S n a pml4 x ↔
    (∀ y, m.Block n a pml4 y → Apart y x) ∧ ∀ y, S.Free a.frames y → Apart y x := by
  constructor
  · intro h
    refine ⟨fun y hy => ?_, h.free⟩
    rcases hy with rfl | ⟨p, hp, hne, rfl⟩
    · exact h.root
    · exact h.table p hp hne
  · rintro ⟨hblock, hfree⟩
    exact ⟨hblock pml4 (.inl rfl), fun p hp hne => hblock _ (.inr ⟨p, hp, hne, rfl⟩), hfree⟩

/-! ## A new table -/

/-- What `makeTable` has done to the memory: the page `t` is cleared, and the entry `idx` of
`table` refers to it. -/
structure Linked (S : m.Supply) (n : Nat) (a a' : Arena φ) (pml4 table idx t : Nat) : Prop where
  ok : S.Ok a'.frames
  was_free : S.Free a.frames t
  free : ∀ x, S.Free a'.frames x → S.Free a.frames x ∧ x ≠ t
  stock : S.stock a.frames ≤ S.stock a'.frames + 1
  child : m.child a'.mem table idx = t
  cleared : ∀ i, i < 512 → readEntry a'.mem t i = 0
  entry : ∀ x, m.Block n a pml4 x → ∀ i, i < 512 → ¬ (x = table ∧ i = idx) →
    readEntry a'.mem x i = readEntry a.mem x i
  outside : ∀ x, Apart x t → Apart x table → SamePage a.mem a'.mem x

namespace Linked

variable {t : Nat}

/-- Writing the entry of a new table. -/
theorem of_alloc {flags : Nat} {f : φ} (h : Tables S n a pml4)
    (hs : m.Slot n a pml4 table idx p) (halloc : m.alloc a.frames = .ok (f, t)) (ht : t ≠ 0)
    (hflags : flags < pageSize) :
    Linked S n a ⟨f, writeEntry (zeroPage a.mem t) table idx
      ((m.toEntry t &&& pageMask) ||| ptePresent ||| pteWritable ||| flags)⟩ pml4 table idx t := by
  obtain ⟨hok, hfree, hless, hstock⟩ := S.alloc h.ok halloc ht
  obtain ⟨-, -, haddr⟩ := S.frame h.ok hfree
  have hidx := hs.lt h.bound
  have htable : Apart table t := h.block_free hs.block hfree
  -- the bits of the entry below its address
  have hbits : (m.toEntry t &&& pageMask) ||| ptePresent ||| pteWritable ||| flags =
      (m.toEntry t &&& pageMask) ||| (ptePresent ||| pteWritable ||| flags) := by
    rw [Nat.or_assoc, Nat.or_assoc, Nat.or_assoc]
  have hlow : ptePresent ||| pteWritable ||| flags < pageSize := by
    refine Nat.or_lt_two_pow (n := 12) (by decide) ?_
    rwa [pageSize] at hflags
  have hpresent : (ptePresent ||| pteWritable ||| flags) &&& ptePresent ≠ 0 := by
    rw [Nat.or_assoc, Nat.and_or_distrib_right, Nat.and_self]
    have hle : ptePresent ≤ ptePresent ||| ((pteWritable ||| flags) &&& ptePresent) :=
      Nat.left_le_or
    rw [ptePresent] at hle ⊢
    omega
  rw [hbits]
  refine
    { ok := hok
      was_free := hfree
      free := hless
      stock := hstock
      child := ?_
      cleared := fun i hi => ?_
      entry := fun x hx i hi hnot => ?_
      outside := fun x hxt hxtable => ?_ }
  · rw [Mapper.child, readEntry_writeEntry (entry_lt hlow), entry_and_present, if_neg hpresent,
      entry_and_pageMask hlow, haddr]
  · rw [(samePage_writeEntry htable.symm hidx).readEntry hi, readEntry_zeroPage hi]
  · have hzero : readEntry (zeroPage a.mem t) x i = readEntry a.mem x i :=
      (samePage_zeroPage (h.block_free hx hfree)).readEntry hi
    rw [← hzero]
    by_cases hxt : x = table
    · rw [hxt]
      exact readEntry_writeEntry_of_ne fun hi' => hnot ⟨hxt, hi'⟩
    · exact (samePage_writeEntry (h.block_apart hx hs.block hxt) hidx).readEntry hi
  · exact (samePage_zeroPage hxt).trans (samePage_writeEntry hxtable hidx)

/-- The new table is at the position of its entry, and the others stay. -/
theorem updates (hl : Linked S n a a' pml4 table idx t) (h : Tables S n a pml4)
    (hs : m.Slot n a pml4 table idx p) (hzero : (m.forest a.mem pml4).ref p = 0) :
    Forest.Updates (tableShape n) (m.forest a.mem pml4) (m.forest a'.mem pml4) p t := by
  have hnew : ∀ j, j < 512 → m.child a'.mem t j = 0 := by
    intro j hj
    rw [Mapper.child, hl.cleared j hj, Nat.zero_and, if_pos rfl]
  have hun : (m.forest a.mem pml4).Unshared (tableShape n).Inner :=
    fun p q hp hq hne heq => h.unshared p q hp.pos hq.pos hne heq
  cases hs with
  | root hr =>
      refine Forest.updates_root (fun r hne => ?_) ?_ (fun q hq hqne j hj => ?_)
        (.inr ⟨hzero, fun j hj _ => hnew j hj⟩)
      · show (if r < 512 then m.child a'.mem pml4 r else 0) =
          if r < 512 then m.child a.mem pml4 r else 0
        split
        · next hr' =>
          exact Mapper.child_congr (hl.entry pml4 (.inl rfl) r hr' fun hsame => hne hsame.2)
        · rfl
      · exact (if_pos (Nat.lt_of_lt_of_le hr h.bound)).trans hl.child
      · exact Mapper.child_congr (hl.entry _ (.inr ⟨q, hq.pos, hqne, rfl⟩) j hj
          fun hsame => h.ref_ne_root hq.pos hsame.1)
  | word hin hi hne =>
      refine Forest.updates_word (funext fun r => ?_) hun hin hne (fun q hq hqne j hj => ?_) hi
        (.inr ⟨hzero, hnew⟩)
      · show (if r < 512 then m.child a'.mem pml4 r else 0) =
          if r < 512 then m.child a.mem pml4 r else 0
        split
        · next hr' =>
          exact Mapper.child_congr (hl.entry pml4 (.inl rfl) r hr'
            fun hsame => h.ref_ne_root hin.pos hsame.1.symm)
        · rfl
      · split
        · next hsame =>
          rw [hsame.1, hsame.2]
          exact hl.child
        · next hnot => exact Mapper.child_congr (hl.entry _ (.inr ⟨q, hq.pos, hqne, rfl⟩) j hj hnot)

/-- The page that was taken is no page of the page table. -/
theorem ref_ne (hl : Linked S n a a' pml4 table idx t) (h : Tables S n a pml4)
    (hq : (tableShape n).Pos q) : (m.forest a.mem pml4).ref q ≠ t := by
  intro heq
  have hne : (m.forest a.mem pml4).ref q ≠ 0 := by
    rw [heq]
    exact (S.frame h.ok hl.was_free).1
  exact h.free q hq hne (heq ▸ hl.was_free)

/-- The invariant, with the new table. -/
theorem tables (hl : Linked S n a a' pml4 table idx t) (h : Tables S n a pml4)
    (hs : m.Slot n a pml4 table idx p) (hzero : (m.forest a.mem pml4).ref p = 0) :
    Tables S n a' pml4 := by
  have hup := hl.updates h hs hzero
  obtain ⟨hne, hmod, -⟩ := S.frame h.ok hl.was_free
  have hself : (m.forest a'.mem pml4).ref p = t := hup.1 hs.pos
  refine
    { ok := hl.ok
      bound := h.bound
      root_ne := h.root_ne
      free_root := fun x hx => h.free_root x (hl.free x hx).1
      unshared := hup.unshared (fun q hq => hq) h.unshared fun _ =>
        .inr fun q hq => hl.ref_ne h hq
      aligned := fun q hq hqne => ?_
      apart := fun q hq hqne => ?_
      free := fun q hq hqne hx => ?_
      linked_root := fun r hr hpresent => ?_
      linked := fun q hq hqne i hi hpresent => ?_ }
  · by_cases hqp : q = p
    · rw [hqp, hself]
      exact hmod
    · rw [hup.2 q hq hqp] at hqne ⊢
      exact h.aligned q hq hqne
  · by_cases hqp : q = p
    · rw [hqp, hself]
      exact h.free_root t hl.was_free
    · rw [hup.2 q hq hqp] at hqne ⊢
      exact h.apart q hq hqne
  · by_cases hqp : q = p
    · rw [hqp, hself] at hx
      exact (hl.free t hx).2 rfl
    · rw [hup.2 q hq hqp] at hqne hx
      exact h.free q hq hqne (hl.free _ hx).1
  · by_cases hslot : pml4 = table ∧ r = idx
    · rw [hslot.1, hslot.2, hl.child]
      exact hne
    · have hentry := hl.entry pml4 (.inl rfl) r (Nat.lt_of_lt_of_le hr h.bound) hslot
      rw [hentry] at hpresent
      rw [Mapper.child_congr hentry]
      exact h.linked_root r hr hpresent
  · by_cases hqp : q = p
    · -- the new table is empty
      rw [hqp, hself, hl.cleared i hi, Nat.zero_and] at hpresent
      exact absurd rfl hpresent
    · rw [hup.2 q hq.pos hqp] at hqne hpresent ⊢
      by_cases hslot : (m.forest a.mem pml4).ref q = table ∧ i = idx
      · rw [hslot.1, hslot.2, hl.child]
        exact hne
      · have hentry := hl.entry _ (.inr ⟨q, hq.pos, hqne, rfl⟩) i hi hslot
        rw [hentry] at hpresent
        rw [Mapper.child_congr hentry]
        exact h.linked q hq hqne i hi hpresent

/-- **A new table** adds no entry to the last tables. -/
theorem grows (hl : Linked S n a a' pml4 table idx t) (h : Tables S n a pml4)
    (hs : m.Slot n a pml4 table idx p) (hzero : (m.forest a.mem pml4).ref p = 0) :
    Grows S n a a' pml4 1 := by
  have hup := hl.updates h hs hzero
  obtain ⟨hne, -, -⟩ := S.frame h.ok hl.was_free
  have hself : (m.forest a'.mem pml4).ref p = t := hup.1 hs.pos
  refine
    { tables := hl.tables h hs hzero
      keeps := fun q hq hqne => hup.2 q hq ?_
      pte := fun q hq i hi => ?_
      stock := hl.stock
      free := fun x hx => ⟨(hl.free x hx).1, ?_⟩
      foreign := fun x hx => ⟨⟨hx.root, fun q hq hqne => ?_, ?_⟩, ?_⟩ }
  · rintro rfl
    exact hqne hzero
  · rw [Mapper.pte, Mapper.pte]
    by_cases hqp : q = p
    · rw [hqp, hself, hl.cleared i hi, if_neg hne, hzero, if_pos rfl]
    · rw [hup.2 q hq.pos hqp]
      split
      · rfl
      · next hqne =>
        refine hl.entry _ (.inr ⟨q, hq.pos, hqne, rfl⟩) i hi fun hslot => ?_
        -- a last table holds no entry of a table
        cases hs with
        | root hr => exact h.ref_ne_root hq.pos hslot.1
        | word hin _ hin_ne => exact h.leaf_ne_inner hq hin hin_ne hslot.1
  · obtain ⟨hfree, hxt⟩ := hl.free x hx
    exact hl.outside x (apart_of_ne (S.frame h.ok hfree).2.1 (S.frame h.ok hl.was_free).2.1 hxt)
      (h.block_free hs.block hfree).symm
  · by_cases hqp : q = p
    · rw [hqp, hself]
      exact hx.free t hl.was_free
    · rw [hup.2 q hq hqp] at hqne ⊢
      exact hx.table q hq hqne
  · exact fun y hy => hx.free y (hl.free y hy).1
  · refine hl.outside x (hx.free t hl.was_free).symm ?_
    rcases hs.block with rfl | ⟨q, hq, hqne, rfl⟩
    · exact hx.root.symm
    · exact (hx.table q hq hqne).symm

end Linked

namespace Grows

theorem refl (h : Tables S n a pml4) : Grows S n a a pml4 0 where
  tables := h
  keeps _ _ _ := rfl
  pte _ _ _ _ := rfl
  stock := Nat.le_refl _
  free _ hx := ⟨hx, SamePage.refl⟩
  foreign _ hx := ⟨hx, SamePage.refl⟩

theorem trans {b c : Arena φ} (h : Grows S n a b pml4 k) (h' : Grows S n b c pml4 l) :
    Grows S n a c pml4 (k + l) where
  tables := h'.tables
  keeps p hp hne := by
    have hb := h.keeps p hp hne
    rw [← hb] at hne
    rw [h'.keeps p hp hne, hb]
  pte p hp i hi := (h'.pte p hp i hi).trans (h.pte p hp i hi)
  stock := by
    have h1 := h.stock
    have h2 := h'.stock
    omega
  free x hx :=
    ⟨(h.free x (h'.free x hx).1).1, (h.free x (h'.free x hx).1).2.trans (h'.free x hx).2⟩
  foreign x hx :=
    ⟨(h'.foreign x (h.foreign x hx).1).1,
      (h.foreign x hx).2.trans (h'.foreign x (h.foreign x hx).1).2⟩

theorem weaken (h : Grows S n a a' pml4 k) (hkl : k ≤ l) : Grows S n a a' pml4 l :=
  { h with stock := Nat.le_trans h.stock (Nat.add_le_add_left hkl _) }

end Grows

/-! ## Going down -/

/-- The number of tables that are missing at a position. -/
def Mapper.missing (m : Mapper φ) (a : Arena φ) (pml4 : Nat) (p : Nat × List Nat) : Nat :=
  if (m.forest a.mem pml4).ref p = 0 then 1 else 0

theorem Grows.missing_le (h : Grows S n a a' pml4 k) (hp : (tableShape n).Pos p) :
    m.missing a' pml4 p ≤ m.missing a pml4 p := by
  rw [Mapper.missing, Mapper.missing]
  by_cases hne : (m.forest a.mem pml4).ref p = 0
  · rw [if_pos hne]
    split <;> omega
  · rw [h.keeps p hp hne, if_neg hne]

theorem load_of_ne {table : Nat} (h : table ≠ 0) :
    load table idx a = .ok (readEntry a.mem table idx, a) := if_neg h

theorem store_of_ne {table v : Nat} (h : table ≠ 0) :
    store table idx v a = .ok ((), { a with mem := writeEntry a.mem table idx v }) := if_neg h

/-- A new table, or no frame is left. -/
theorem Mapper.newTable_ends (hok : S.Ok a.frames) :
    Ends m.newTable a (fun _ => S.stock a.frames = 0) fun t a' =>
      ∃ f, m.alloc a.frames = .ok (f, t) ∧ t ≠ 0 ∧ a' = ⟨f, zeroPage a.mem t⟩ := by
  have hfails : (∀ f t, m.alloc a.frames = .ok (f, t) → t = 0) → S.stock a.frames = 0 := by
    intro hnone
    by_contra hstock
    obtain ⟨f, t, halloc, ht⟩ := S.succeeds hok (Nat.pos_of_ne_zero hstock)
    exact ht (hnone f t halloc)
  rw [Ends, newTable]
  cases halloc : m.alloc a.frames with
  | error e => exact hfails fun f t hsome => by rw [halloc] at hsome; cases hsome
  | ok r =>
      obtain ⟨f, t⟩ := r
      show Outcome _ _ (if t = 0 then (.error .nullDeref : Except Fault (Nat × Arena φ))
        else .ok (t, ⟨f, zeroPage a.mem t⟩))
      split
      · next ht =>
        refine hfails fun f' t' hsome => ?_
        rw [halloc] at hsome
        injection hsome with hsome
        exact (Prod.mk.inj hsome).2 ▸ ht
      · next ht => exact ⟨f, rfl, ht, rfl⟩

/-- **A new root** has no tables below it. -/
theorem Mapper.newRoot_ends (hok : S.Ok a.frames) :
    Ends m.newTable a (fun _ => S.stock a.frames = 0) fun pml4 a' =>
      Tables S 512 a' pml4 ∧ (∀ p, (tableShape 512).Pos p → (m.forest a'.mem pml4).ref p = 0) ∧
        S.stock a.frames ≤ S.stock a'.frames + 1 := by
  refine (newTable_ends hok).mono ?_
  rintro pml4 _ ⟨f, halloc, hne, rfl⟩
  obtain ⟨hok', hfree, hless, hstock⟩ := S.alloc hok halloc hne
  have hroot : ∀ x, S.Free f x → Apart pml4 x := fun x hx =>
    apart_of_ne (S.frame hok hfree).2.1 (S.frame hok' hx).2.1 (hless x hx).2.symm
  have hempty := Tables.of_empty (S := S) (n := 512) (a := ⟨f, zeroPage a.mem pml4⟩) hok'
    (Nat.le_refl _) hne hroot fun r hr => readEntry_zeroPage hr
  exact ⟨hempty.2, hempty.1, hstock⟩

/-- Afterwards the entry refers to a table. -/
theorem Mapper.makeTable_ends {flags : Nat} (h : Tables S n a pml4)
    (hs : m.Slot n a pml4 table idx p) (hflags : flags < pageSize) :
    Ends (m.makeTable table idx flags) a
      (fun _ => S.stock a.frames = 0 ∧ (m.forest a.mem pml4).ref p = 0)
      fun _ a' => Grows S n a a' pml4 (m.missing a pml4 p) ∧
        m.child a'.mem table idx = (m.forest a'.mem pml4).ref p ∧
        (m.forest a'.mem pml4).ref p ≠ 0 := by
  have htable := h.block_ne hs.block
  refine Ends.step (load_of_ne htable) ?_
  by_cases hnone : readEntry a.mem table idx &&& ptePresent = 0
  · rw [if_pos hnone]
    have hzero := (h.slot_present hs).mpr hnone
    refine Ends.bind ((newTable_ends h.ok).mono_error fun _ hstock => ⟨hstock, hzero⟩) ?_
    rintro t _ ⟨f, halloc, ht, rfl⟩
    refine Ends.of_ok (store_of_ne htable) ?_
    have hl := Linked.of_alloc h hs halloc ht hflags
    have hself := (hl.updates h hs hzero).1 hs.pos
    rw [missing, if_pos hzero, hself]
    exact ⟨hl.grows h hs hzero, hl.child, ht⟩
  · rw [if_neg hnone]
    have hne : (m.forest a.mem pml4).ref p ≠ 0 := fun hzero => hnone ((h.slot_present hs).mp hzero)
    refine Ends.pure ?_
    rw [missing, if_neg hne]
    exact ⟨Grows.refl h, (hs.ref h.bound).symm, hne⟩

/-- **A step down.**  The table below an entry is found, or made from a new frame. -/
theorem Mapper.nextTable_ends {flags : Nat} (h : Tables S n a pml4)
    (hs : m.Slot n a pml4 table idx p) (hflags : flags < pageSize) :
    Ends (m.nextTable table idx flags) a
      (fun _ => S.stock a.frames = 0 ∧ (m.forest a.mem pml4).ref p = 0)
      fun t a' => Grows S n a a' pml4 (m.missing a pml4 p) ∧
        t = (m.forest a'.mem pml4).ref p ∧ t ≠ 0 := by
  refine Ends.bind (makeTable_ends h hs hflags) ?_
  rintro _ a' ⟨hgrows, hchild, hne⟩
  refine Ends.step (load_of_ne (h.block_ne hs.block)) (Ends.pure ?_)
  have haddr : m.toTable (readEntry a'.mem table idx &&& pageMask) = m.child a'.mem table idx := by
    rw [child]
    split
    · next hnone =>
      rw [child, if_pos hnone] at hchild
      exact absurd hchild.symm hne
    · rfl
  rw [haddr, hchild]
  exact ⟨hgrows, rfl, hne⟩

/-! ## One `Map` -/

/-- The position of the last table for an address. -/
def tablePos (virt : Nat) : Nat × List Nat := (pml4Entry virt, [pdptEntry virt, pdEntry virt])

/-- The number of tables that are missing for an address. -/
def Mapper.missingFor (m : Mapper φ) (a : Arena φ) (pml4 virt : Nat) : Nat :=
  m.missing a pml4 (pml4Entry virt, []) + m.missing a pml4 (pml4Entry virt, [pdptEntry virt]) +
    m.missing a pml4 (tablePos virt)

/-- **What one `Map` does.**  The entry for the address becomes `v`, and no other changes. -/
structure Maps (S : m.Supply) (n : Nat) (a a' : Arena φ) (pml4 virt v k : Nat) : Prop where
  tables : Tables S n a' pml4
  keeps : ∀ p, (tableShape n).Pos p → (m.forest a.mem pml4).ref p ≠ 0 →
    (m.forest a'.mem pml4).ref p = (m.forest a.mem pml4).ref p
  found : (m.forest a'.mem pml4).ref (tablePos virt) ≠ 0
  pte : ∀ p, (tableShape n).Leaf p → ∀ i, i < 512 → m.pte a'.mem pml4 p i =
    if p = tablePos virt ∧ i = ptEntry virt then v else m.pte a.mem pml4 p i
  stock : S.stock a.frames ≤ S.stock a'.frames + k
  free : ∀ x, S.Free a'.frames x → S.Free a.frames x ∧ SamePage a.mem a'.mem x
  foreign : ∀ x, Foreign S n a pml4 x → Foreign S n a' pml4 x ∧ SamePage a.mem a'.mem x

theorem and_entryMask (x : Nat) : x &&& 0x1ff = x % 512 := Nat.and_two_pow_sub_one_eq_mod x 9

theorem and_entryMask_lt (x : Nat) : x &&& 0x1ff < 512 := by
  rw [and_entryMask]
  exact Nat.mod_lt x (by decide)

theorem leaf_tablePos {virt : Nat} (hv : pml4Entry virt < n) :
    (tableShape n).Leaf (tablePos virt) where
  pos :=
    { root := hv
      index := by
        intro i hi
        rcases List.mem_cons.mp hi with rfl | hi
        · exact and_entryMask_lt _
        · rw [List.mem_singleton.mp hi]
          exact and_entryMask_lt _
      length := Nat.le_refl 2 }
  eq := rfl

/-- Writing an entry of a last table. -/
theorem Tables.maps {virt v : Nat} (h : Tables S n a pml4) (hv : pml4Entry virt < n)
    (hne : (m.forest a.mem pml4).ref (tablePos virt) ≠ 0) (hlt : v < 2 ^ 64) :
    Maps S n a ⟨a.frames, writeEntry a.mem ((m.forest a.mem pml4).ref (tablePos virt))
      (ptEntry virt) v⟩ pml4 virt v 0 := by
  have hleaf := leaf_tablePos hv
  have hblock : m.Block n a pml4 ((m.forest a.mem pml4).ref (tablePos virt)) :=
    .inr ⟨_, hleaf.pos, hne, rfl⟩
  have hidx : ptEntry virt < 512 := and_entryMask_lt _
  have hother : ∀ x, m.Block n a pml4 x → (m.forest a.mem pml4).ref (tablePos virt) ≠ x →
      SamePage a.mem (writeEntry a.mem ((m.forest a.mem pml4).ref (tablePos virt))
        (ptEntry virt) v) x :=
    fun x hx hxne => samePage_writeEntry (h.block_apart hx hblock hxne.symm) hidx
  have hsame : ∀ x, m.Block n a pml4 x → (∀ q, (tableShape n).Leaf q →
      (m.forest a.mem pml4).ref q ≠ x) → ∀ i, i < 512 → (x = pml4 → i < n) →
      readEntry (writeEntry a.mem ((m.forest a.mem pml4).ref (tablePos virt))
        (ptEntry virt) v) x i = readEntry a.mem x i :=
    fun x hx hxne i hi _ => (hother x hx (hxne _ hleaf)).readEntry hi
  generalize hmem : writeEntry a.mem ((m.forest a.mem pml4).ref (tablePos virt))
    (ptEntry virt) v = mem at hother hsame ⊢
  have htables : Tables S n ⟨a.frames, mem⟩ pml4 := h.transfer h.ok (fun x hx => hx) hsame
  have href : ∀ q, (tableShape n).Pos q →
      (m.forest mem pml4).ref q = (m.forest a.mem pml4).ref q := by
    intro q hq
    show (m.forest (Arena.mk a.frames mem).mem pml4).ref q = _
    exact h.ref_congr hsame hq
  refine
    { tables := htables
      keeps := fun q hq _ => href q hq
      found := by
        rw [href _ hleaf.pos]
        exact hne
      pte := fun q hq i hi => ?_
      stock := Nat.le_refl _
      free := fun x hx => ⟨hx, ?_⟩
      foreign := fun x hx => ⟨⟨hx.root, fun q hq hqne => ?_, hx.free⟩, ?_⟩ }
  · rw [Mapper.pte, Mapper.pte, href q hq.pos]
    by_cases hqv : q = tablePos virt
    · rw [hqv, if_neg hne, if_neg hne]
      by_cases hi' : i = ptEntry virt
      · rw [if_pos ⟨rfl, hi'⟩, hi']
        rw [← hmem]
        exact readEntry_writeEntry hlt
      · have hnot : ¬ (tablePos virt = tablePos virt ∧ i = ptEntry virt) := fun hboth => hi' hboth.2
        rw [if_neg hnot, ← hmem]
        exact readEntry_writeEntry_of_ne hi'
    · have hnot : ¬ (q = tablePos virt ∧ i = ptEntry virt) := fun hboth => hqv hboth.1
      rw [if_neg hnot]
      split
      · rfl
      · next hqne =>
        refine (hother _ (.inr ⟨q, hq.pos, hqne, rfl⟩) fun heq => ?_).readEntry hi
        exact hqv (h.unshared _ q hleaf.pos hq.pos hne heq).symm
  · rw [← hmem]
    exact samePage_writeEntry (h.block_free hblock hx).symm hidx
  · rw [href q hq] at hqne ⊢
    exact hx.table q hq hqne
  · rw [← hmem]
    exact samePage_writeEntry (hx.table _ hleaf.pos hne).symm hidx

theorem Maps.of_grows {virt v : Nat} {b c : Arena φ} (h : Grows S n a b pml4 k)
    (h' : Maps S n b c pml4 virt v l) : Maps S n a c pml4 virt v (k + l) where
  tables := h'.tables
  keeps p hp hne := by
    have hb := h.keeps p hp hne
    rw [← hb] at hne
    rw [h'.keeps p hp hne, hb]
  found := h'.found
  pte p hp i hi := by rw [h'.pte p hp i hi, h.pte p hp i hi]
  stock := by
    have h1 := h.stock
    have h2 := h'.stock
    omega
  free x hx :=
    ⟨(h.free x (h'.free x hx).1).1, (h.free x (h'.free x hx).1).2.trans (h'.free x hx).2⟩
  foreign x hx :=
    ⟨(h'.foreign x (h.foreign x hx).1).1,
      (h.foreign x hx).2.trans (h'.foreign x (h.foreign x hx).1).2⟩

/-- **`Map`** changes the entry for its address, or the frames do not suffice for the tables that
are missing. -/
theorem Mapper.map_ends {virt phys flags : Nat} (h : Tables S n a pml4) (hv : pml4Entry virt < n)
    (hflags : flags < pageSize) :
    Ends (m.map pml4 virt phys flags) a
      (fun _ => S.stock a.frames < m.missingFor a pml4 virt)
      fun _ a' => Maps S n a a' pml4 virt ((phys &&& pageMask) ||| flags)
        (m.missingFor a pml4 virt) := by
  have hleaf := leaf_tablePos hv
  have hmid : (tableShape n).Inner (pml4Entry virt, [pdptEntry virt]) :=
    hleaf.pos.inner_of_prefix (i := pdEntry virt) (List.prefix_refl _)
  have htop : (tableShape n).Inner (pml4Entry virt, []) :=
    hleaf.pos.inner_of_prefix (i := pdptEntry virt) (List.prefix_append [pdptEntry virt] _)
  have hone : ∀ (b : Arena φ) q, (m.forest b.mem pml4).ref q = 0 → m.missing b pml4 q = 1 :=
    fun b q hq => if_pos hq
  -- the table below the root
  have h1 := nextTable_ends h (.root hv) hflags
  refine Ends.bind (h1.mono_error fun _ hfail => ?_) ?_
  · rw [missingFor, hone a _ hfail.2, hfail.1]
    omega
  rintro pdpt b ⟨hgrows, rfl, hpdpt⟩
  -- the table below that
  have hs2 : m.Slot n b pml4 ((m.forest b.mem pml4).ref (pml4Entry virt, [])) (pdptEntry virt)
      (pml4Entry virt, [pdptEntry virt]) := .word htop (and_entryMask_lt _) hpdpt
  refine Ends.bind ((nextTable_ends hgrows.tables hs2 hflags).mono_error fun _ hfail => ?_) ?_
  · have hle := hgrows.missing_le hmid.pos
    have hstock := hgrows.stock
    have hmiss := hone b _ hfail.2
    rw [missingFor]
    omega
  rintro pd c ⟨hgrows', rfl, hpd⟩
  have hboth := hgrows.trans (hgrows'.weaken (hgrows.missing_le hmid.pos))
  -- the last table
  have hs3 : m.Slot n c pml4 ((m.forest c.mem pml4).ref (pml4Entry virt, [pdptEntry virt]))
      (pdEntry virt) (tablePos virt) := .word hmid (and_entryMask_lt _) hpd
  refine Ends.bind ((nextTable_ends hboth.tables hs3 hflags).mono_error fun _ hfail => ?_) ?_
  · have hle := hboth.missing_le hleaf.pos
    have hstock := hboth.stock
    have hmiss := hone c _ hfail.2
    rw [missingFor]
    omega
  rintro pt d ⟨hgrows'', rfl, hpt⟩
  have hall := hboth.trans (hgrows''.weaken (hboth.missing_le hleaf.pos))
  have hmaps := Maps.of_grows hall (hall.tables.maps hv hpt (entry_lt (x := phys) hflags))
  exact Ends.of_ok (store_of_ne hpt) hmaps

/-! ### The other entries of the root -/

/-- The entries of the root that the builder does not look at stay. -/
theorem Mapper.makeTable_beyond {flags : Nat} (h : Tables S n a pml4)
    (hs : m.Slot n a pml4 table idx p) (hflags : flags < pageSize) :
    Ends (m.makeTable table idx flags) a (fun _ => True) fun _ a' =>
      ∀ r, n ≤ r → r < 512 → readEntry a'.mem pml4 r = readEntry a.mem pml4 r := by
  have htable := h.block_ne hs.block
  refine Ends.step (load_of_ne htable) ?_
  split
  · refine Ends.bind ((newTable_ends h.ok).mono_error fun _ _ => True.intro) ?_
    rintro t _ ⟨f, halloc, ht, rfl⟩
    refine Ends.of_ok (store_of_ne htable) fun r hr hr' => ?_
    have hl := Linked.of_alloc h hs halloc ht hflags
    refine hl.entry pml4 (.inl rfl) r hr' ?_
    rintro ⟨hroot, hidx⟩
    cases hs with
    | root hlt => omega
    | word hin _ _ => exact h.ref_ne_root hin.pos hroot.symm
  · exact Ends.pure fun _ _ _ => rfl

theorem Mapper.nextTable_beyond {flags : Nat} (h : Tables S n a pml4)
    (hs : m.Slot n a pml4 table idx p) (hflags : flags < pageSize) :
    Ends (m.nextTable table idx flags) a (fun _ => True) fun _ a' =>
      ∀ r, n ≤ r → r < 512 → readEntry a'.mem pml4 r = readEntry a.mem pml4 r := by
  refine (makeTable_beyond h hs hflags).bind fun _ a' ha' => ?_
  exact Ends.step (load_of_ne (h.block_ne hs.block)) (Ends.pure ha')

/-- `Map` leaves the other entries of the root alone. -/
theorem Mapper.map_beyond {virt phys flags : Nat} (h : Tables S n a pml4) (hv : pml4Entry virt < n)
    (hflags : flags < pageSize) :
    Ends (m.map pml4 virt phys flags) a (fun _ => True) fun _ a' =>
      ∀ r, n ≤ r → r < 512 → readEntry a'.mem pml4 r = readEntry a.mem pml4 r := by
  have hleaf := leaf_tablePos hv
  have hmid : (tableShape n).Inner (pml4Entry virt, [pdptEntry virt]) :=
    hleaf.pos.inner_of_prefix (i := pdEntry virt) (List.prefix_refl _)
  have htop : (tableShape n).Inner (pml4Entry virt, []) :=
    hleaf.pos.inner_of_prefix (i := pdptEntry virt) (List.prefix_append [pdptEntry virt] _)
  -- a step down, with what it does to the tree and to the root
  have hstep : ∀ {b : Arena φ} {table idx : Nat} {p : Nat × List Nat}, Tables S n b pml4 →
      m.Slot n b pml4 table idx p → Ends (m.nextTable table idx flags) b (fun _ => True)
        fun t b' => (Tables S n b' pml4 ∧ t = (m.forest b'.mem pml4).ref p ∧ t ≠ 0) ∧
          ∀ r, n ≤ r → r < 512 → readEntry b'.mem pml4 r = readEntry b.mem pml4 r := by
    intro b table idx p hb hs
    refine (((nextTable_ends hb hs hflags).and (nextTable_beyond hb hs hflags)).mono_error
      fun _ _ => True.intro).mono ?_
    rintro t b' ⟨⟨hgrows, ht⟩, hroot⟩
    exact ⟨⟨hgrows.tables, ht⟩, hroot⟩
  refine Ends.bind (hstep h (.root hv)) ?_
  rintro pdpt b ⟨⟨hb, rfl, hpdpt⟩, hroot⟩
  refine Ends.bind (hstep hb (.word htop (and_entryMask_lt _) hpdpt)) ?_
  rintro pd c ⟨⟨hc, rfl, hpd⟩, hroot'⟩
  refine Ends.bind (hstep hc (.word hmid (and_entryMask_lt _) hpd)) ?_
  rintro pt d ⟨⟨hd, rfl, hpt⟩, hroot''⟩
  refine Ends.of_ok (store_of_ne hpt) fun r hr hr' => ?_
  have hlast :
    readEntry (writeEntry d.mem ((m.forest d.mem pml4).ref (tablePos virt)) (ptEntry virt)
      ((phys &&& pageMask) ||| flags)) pml4 r = readEntry d.mem pml4 r :=
    (samePage_writeEntry (hd.apart _ hleaf.pos hpt) (and_entryMask_lt _)).readEntry hr'
  exact hlast.trans ((hroot'' r hr hr').trans ((hroot' r hr hr').trans (hroot r hr hr')))

end Facts

end InfoKernel.Mm.Page
