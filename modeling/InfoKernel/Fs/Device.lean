import InfoKernel.Fault
import InfoKernel.Machine
import InfoKernel.Lib.Program
import Mathlib.Logic.Function.Basic

/-!
# The device under the file system

A block device is a row of bytes cut into sectors of 512.  `Read` and `Write` either move
whole sectors or return a code other than `0` and move nothing.  When they do so is up to
the device, and when the page allocator has no page left is up to the rest of the kernel:
an environment `Env` says which of these calls fail, by a clock that every call advances.

The functions of `ext2` share one state: the device, and the superblock that the mount keeps
in memory.  Their parameters `dev` and `ext2_lba` are the same in all calls of a run and
belong to the environment; the null checks on `dev`, `sb` and the buffers are left out,
since nothing in the source passes a null pointer there.
-/

namespace InfoKernel.Ext2

open Lib

/-- A buffer, or the bytes of a device. -/
abbrev Bytes := Nat → UInt8

/-- `Ext2SuperBlock`, byte by byte as on the device. -/
structure SuperBlock where
  bytes : Bytes

/-- What the functions of `ext2` are given by the kernel around them. -/
structure Env where
  /-- `ext2_lba`, the first sector of the partition -/
  lba : Nat
  /-- the reads that return a code other than `0`, by the clock -/
  readFails : Nat → Bool
  /-- the writes that return a code other than `0`, by the clock -/
  writeFails : Nat → Bool
  /-- the calls of `mm::page::Alloc` that return null, by the clock -/
  allocFails : Nat → Bool
  /-- what memory holds behind the end of a buffer -/
  behind : Bytes
  /-- the groups for which there is memory where the descriptor would lie behind the buffer -/
  mapped : Nat → Bool

/-- The state that the functions of `ext2` share. -/
structure State where
  /-- the bytes of the device -/
  disk : Bytes
  /-- the superblock held in memory -/
  super : SuperBlock
  /-- how many calls have left the file system so far -/
  clock : Nat
  /-- `AllocBlock` has returned `0` -/
  noSpace : Bool

/-- The computations of the file system. -/
abbrev Io := Program State Fault

/-- The same kernel, with memory elsewhere behind the buffers. -/
def Env.over (e : Env) (mapped : Nat → Bool) : Env := { e with mapped := mapped }

/-- The same kernel, with no memory behind the buffers of descriptors. -/
def Env.walled (e : Env) : Env := e.over fun _ => false

/-- Device and memory do not fail. -/
structure Env.Reliable (e : Env) : Prop where
  read (t : Nat) : e.readFails t = false
  write (t : Nat) : e.writeFails t = false
  alloc (t : Nat) : e.allocFails t = false

theorem Env.Reliable.over {e : Env} (he : e.Reliable) (mapped : Nat → Bool) :
    (e.over mapped).Reliable :=
  ⟨he.read, he.write, he.alloc⟩

theorem Env.Reliable.walled {e : Env} (he : e.Reliable) : e.walled.Reliable := he.over _

/-- The time of a call, which advances the clock. -/
def tick : Io Nat := fun s => .ok (s.clock, { s with clock := s.clock + 1 })

/-- The superblock held in memory. -/
def super : Io SuperBlock := fun s => .ok (s.super, s)

/-- Change the superblock held in memory. -/
def setSuper (sb : SuperBlock) : Io PUnit := fun s => .ok (⟨⟩, { s with super := sb })

/-- Record what `AllocBlock` returns. -/
def returned (block : Nat) : Io Nat :=
  fun s => .ok (block, { s with noSpace := s.noSpace || block = 0 })

/-- `mm::page::Alloc` returns a page. -/
def pageAlloc (e : Env) : Io Bool := do
  let t ← tick
  pure (!e.allocFails t)

/-- `size` bytes of the device from `start` on, in a buffer of that size. -/
@[irreducible] def copyOut (e : Env) (disk : Bytes) (start size : Nat) : Bytes :=
  fun i => if i < size then disk (start + i) else e.behind i

/-- The device after the `size` bytes of `buf` have been written from `start` on. -/
@[irreducible] def copyIn (disk : Bytes) (start size : Nat) (buf : Bytes) : Bytes :=
  fun a => if start ≤ a ∧ a < start + size then buf (a - start) else disk a

/-- `dev->Read(sector, count, buf)`: the buffer, or nothing when a code other than `0` is
returned. -/
def devRead (e : Env) (sector count : Nat) : Io (Option Bytes) := do
  let t ← tick
  if e.readFails t then
    pure none
  else
    fun s => .ok (some (copyOut e s.disk (512 * sector) (512 * count)), s)

/-- `dev->Write(sector, count, buf)`: whether `0` is returned. -/
def devWrite (e : Env) (sector count : Nat) (buf : Bytes) : Io Bool := do
  let t ← tick
  if e.writeFails t then
    pure false
  else
    fun s => .ok (true, { s with disk := copyIn s.disk (512 * sector) (512 * count) buf })

/-! ## Single calls -/

theorem copyOut_of_lt {e : Env} {disk : Bytes} {start size i : Nat} (h : i < size) :
    copyOut e disk start size i = disk (start + i) := by
  rw [copyOut, if_pos h]

theorem copyIn_of_mem {disk buf : Bytes} {start size i : Nat} (h : i < size) :
    copyIn disk start size buf (start + i) = buf i := by
  rw [copyIn, if_pos ⟨Nat.le_add_right start i, by omega⟩, Nat.add_sub_cancel_left]

/-- Writing back what was read, with a part of it changed, is writing that part. -/
theorem copyIn_copyIn_copyOut {e : Env} {disk buf : Bytes} {start size a n : Nat}
    (h : a + n ≤ size) : copyIn disk start size (copyIn (copyOut e disk start size) a n buf) =
      copyIn disk (start + a) n buf := by
  funext x
  simp only [copyIn, copyOut]
  by_cases hin : start ≤ x ∧ x < start + size
  · have hx : start + (x - start) = x := by omega
    rw [if_pos hin, hx, if_pos (show x - start < size by omega)]
    by_cases hpart : start + a ≤ x ∧ x < start + a + n
    · rw [if_pos (show a ≤ x - start ∧ x - start < a + n by omega), if_pos hpart,
        Nat.sub_sub]
    · rw [if_neg (show ¬ (a ≤ x - start ∧ x - start < a + n) by omega), if_neg hpart]
  · rw [if_neg hin, if_neg (show ¬ (start + a ≤ x ∧ x < start + a + n) by omega)]

theorem copyIn_update_copyOut {e : Env} {disk : Bytes} {start size j : Nat} {v : UInt8}
    (h : j < size) : copyIn disk start size (Function.update (copyOut e disk start size) j v) =
      Function.update disk (start + j) v := by
  funext x
  simp only [copyIn, Function.update_apply, copyOut]
  by_cases hin : start ≤ x ∧ x < start + size
  · have hx : start + (x - start) = x := by omega
    rw [if_pos hin, hx, if_pos (show x - start < size by omega)]
    by_cases hj : x = start + j
    · rw [if_pos (show x - start = j by omega), if_pos hj]
    · rw [if_neg (show ¬ x - start = j by omega), if_neg hj]
  · rw [if_neg hin, if_neg (show ¬ x = start + j by omega)]

theorem copyIn_of_not_mem {disk buf : Bytes} {start size a : Nat}
    (h : a < start ∨ start + size ≤ a) : copyIn disk start size buf a = disk a := by
  rw [copyIn, if_neg (by omega)]

end InfoKernel.Ext2
