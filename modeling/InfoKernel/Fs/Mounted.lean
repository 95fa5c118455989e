import InfoKernel.Fs.FileBytes
import InfoKernel.Fs.Looks
import Mathlib.Data.Set.Card

/-!
# Making and removing directories

`fs.cc`: `Ext2Mkdir` and `Ext2Rmdir`, the calls that a mount offers.  `Ext2Mkdir` lets
`CreateFile` make an inode with the mode of a directory and then adds the entries `.` and `..` to
it, both with its own inode number.  `Ext2Rmdir` looks the directory up and hands the path to
`DeleteFile`, which refuses directories.

So no `Ext2Rmdir` ever returns `0` (`ext2Rmdir_ne_zero`): up to the test that refuses it,
`DeleteFile` repeats the two calls that `Ext2Rmdir` has made before, and calls that only look have
the same result again.  A directory that has been made cannot be removed
(`ext2Mkdir_never_undone`).
-/

namespace InfoKernel.Ext2

open Lib

/-- `'.'` -/
def dot : UInt8 := 46

/-- `EXT2_S_IFDIR | 0755` -/
def dirMode : Nat := Inode.sIfdir ||| 0o755

/-- `vfs::Ext2Mkdir` -/
def ext2Mkdir (e : Env) (path : List UInt8) (n : Nat) : Io Int := do
  let ret ← createFile e path dirMode n
  if ret ≤ 0 then
    pure (-3)
  else
    let dirNum := ret.toNat
    match ← readInode e dirNum with
    | .error _ => pure (-4)
    | .ok dir => do
        let (_, dir) ← addEntry e dir dirNum [dot] 2 n
        let (_, dir) ← addEntry e dir dirNum [dot, dot] 2 n
        let _ ← writeInode e dirNum (dir.setLinksCount 2)
        pure 0

/-- `lookup_path`: the path with a slash in front; nothing when it is too long for that. -/
def absPath (path : List UInt8) : Option (List UInt8) :=
  if path.head? = some slash then
    some path
  else if path.length ≥ 255 then
    none
  else
    some (slash :: path)

/-- `vfs::Ext2Rmdir` -/
def ext2Rmdir (e : Env) (path : List UInt8) (n : Nat) : Io Int := do
  match absPath path with
  | none => pure (-7)
  | some path =>
      match ← lookupPath e path n with
      | .error _ => pure (-3)
      | .ok num =>
          match ← readInode e num with
          | .error _ => pure (-4)
          | .ok inode =>
              if !inode.isDir then
                pure (-5)
              else if inode.iLinksCount > 2 then
                pure (-6)
              else
                deleteFile e path n

/-! ## What the two calls should do to each other -/

section Statement

variable (e : Env) (s : State)

/-- The path leads to inode `num`. -/
def Resolves (path : List UInt8) (num : Nat) : Prop :=
  ∃ n t, lookupPath e path n s = .ok (.ok num, t)

/-- The blocks of the file of inode `num`, its pointer blocks included. -/
def blocksOf (num : Nat) : Set Nat :=
  {b | b ≠ 0 ∧ ∃ inode t, readInode e num s = .ok (.ok inode, t) ∧
    s.Refers e (fun _ : Unit => inode) b}

/-- The directory of `path`, made between `s` and `t`, refers to itself and to its parent, and it
can be removed: the path leads nowhere then, and as many inodes and blocks are free as in `s`, but
for the blocks that the parent has gained. -/
structure Undone (t : State) (path : List UInt8) : Prop where
  itself : ∃ num, Resolves e t path num ∧ Resolves e t (path ++ [slash, dot]) num
  parent : ∃ parentPath name num, splitLast path = some (parentPath, name) ∧
    Resolves e t (parentOf parentPath) num ∧ Resolves e t (path ++ [slash, dot, dot]) num
  removed : ∃ n u parentPath name num, ext2Rmdir e path n t = .ok (0, u) ∧
    (∀ num, ¬ Resolves e u path num) ∧
    u.super.sFreeInodesCount = s.super.sFreeInodesCount ∧
    splitLast path = some (parentPath, name) ∧ Resolves e s (parentOf parentPath) num ∧
    u.super.sFreeBlocksCount + (blocksOf e u num).ncard =
      s.super.sFreeBlocksCount + (blocksOf e s num).ncard

end Statement

/-! ## No directory is removed -/

section Removing

variable {e : Env} {s t : State} {path : List UInt8} {n : Nat}

/-- `DeleteFile` refuses the directory that the path leads to. -/
theorem deleteFile_of_isDir {num : Nat} {inode : Inode} {u : State} (he : e.Reliable)
    (hlook : lookupPath e path n s = .ok (.ok num, t))
    (hread : readInode e num t = .ok (.ok inode, u)) (hdir : inode.isDir = true) :
    ∃ t', deleteFile e path n u = .ok (-4, t') := by
  obtain ⟨ht, hlook'⟩ := (looks_lookupPath he path n).again hlook
  obtain ⟨hu, hread'⟩ := (looks_readInode he num).again hread
  obtain ⟨c, hl⟩ := hlook' u.clock
  obtain ⟨c', hr⟩ := hread' c
  have hus : s.at u.clock = u := by
    rw [hu, ht]
    rfl
  have hts : t.at c = s.at c := by
    rw [ht]
    rfl
  rw [hus] at hl
  rw [hts] at hr
  refine ⟨t.at c', ?_⟩
  rw [deleteFile, bind_apply_of_ok hl]
  simp only []
  rw [bind_apply_of_ok hr]
  simp only [hdir, if_true]
  rfl

/-- **`Ext2Rmdir` never returns `0`**: what it hands to `DeleteFile` is a directory. -/
theorem ext2Rmdir_ne_zero (he : e.Reliable) :
    Ends (ext2Rmdir e path n) s (fun _ => True) fun code _ => code ≠ 0 := by
  rw [ext2Rmdir]
  cases absPath path with
  | none => exact Ends.pure (show (-7 : Int) ≠ 0 by decide)
  | some path =>
      simp only []
      cases hlook : lookupPath e path n s with
      | error f => exact Ends.step_error hlook True.intro
      | ok r =>
          obtain ⟨num | num, t⟩ := r
          · exact Ends.step hlook (Ends.pure (show (-3 : Int) ≠ 0 by decide))
          · refine Ends.step hlook ?_
            cases hread : readInode e num t with
            | error f => exact Ends.step_error hread True.intro
            | ok r =>
                obtain ⟨inode | inode, u⟩ := r
                · exact Ends.step hread (Ends.pure (show (-4 : Int) ≠ 0 by decide))
                · refine Ends.step hread ?_
                  simp only []
                  by_cases hdir : inode.isDir = true
                  · rw [hdir]
                    simp only [Bool.not_true, Bool.false_eq_true, if_false]
                    split
                    · exact Ends.pure (show (-6 : Int) ≠ 0 by decide)
                    · obtain ⟨t', hdelete⟩ := deleteFile_of_isDir he hlook hread hdir
                      exact Ends.of_ok hdelete (show (-4 : Int) ≠ 0 by decide)
                  · rw [Bool.not_eq_true] at hdir
                    rw [hdir]
                    exact Ends.pure (show (-5 : Int) ≠ 0 by decide)

/-- **A directory that has been made is never undone.**  Whenever `Ext2Mkdir` returns `0`, what it
leaves fails to be a directory that can be removed again. -/
theorem ext2Mkdir_never_undone (he : e.Reliable) :
    Ends (ext2Mkdir e path n) s (fun _ => True) fun code t => code = 0 → ¬ Undone e s t path := by
  refine Ends.trivial.mono fun code t _ _ hundone => ?_
  obtain ⟨m, u, -, -, -, hremoved, -⟩ := hundone.removed
  exact (ext2Rmdir_ne_zero he).of_result hremoved rfl

end Removing

namespace Small

/-- The entries `.` and `..` of a root directory in block 7, and its inode. -/
def rootDir : List (Nat × Nat × Nat) :=
  [(5248, 2, 0x41ED), (5252, 4, 1024), (5274, 2, 2), (5288, 4, 7),
    (7168, 4, 2), (7172, 2, 12), (7174, 1, 1), (7175, 1, 2), (7176, 1, 46),
    (7180, 4, 2), (7184, 2, 1012), (7186, 1, 2), (7187, 1, 2), (7188, 2, 0x2E2E)]

/-- The small volume with a root directory. -/
def rooted (first : Nat) : State :=
  (volume first 0xFF).put (store (volume first 0xFF).disk rootDir)

end Small

/-- The root directory of the small volume leads to itself and `/a` leads nowhere; `Ext2Mkdir` of
`/a` returns `0`, and what it leaves is not undone. -/
theorem mkdir_not_undone_small : (Env.ideal 0).Reliable ∧
    Resolves (Env.ideal 0) (Small.rooted 1) [slash] rootIno ∧
    (∃ code t, lookupPath (Env.ideal 0) [slash, 97] 1024 (Small.rooted 1) = .ok (.error code, t)) ∧
    ∃ t, ext2Mkdir (Env.ideal 0) [slash, 97] 1024 (Small.rooted 1) = .ok (0, t) ∧
      ¬ Undone (Env.ideal 0) (Small.rooted 1) t [slash, 97] := by
  have hroot : (lookupPath (Env.ideal 0) [slash] 1 (Small.rooted 1)).toOption.map
      (fun r => r.1.toOption) = some (some rootIno) := by
    decide
  have hfree : (lookupPath (Env.ideal 0) [slash, 97] 1024 (Small.rooted 1)).toOption.map
      (fun r => r.1.toOption) = some none := by
    decide +kernel
  have hmade : (ext2Mkdir (Env.ideal 0) [slash, 97] 1024 (Small.rooted 1)).toOption.map
      (fun r => r.1) = some 0 := by
    decide +kernel
  refine ⟨Env.ideal_reliable 0, ?_, ?_, ?_⟩
  · obtain ⟨⟨r, t⟩, hrun, hr⟩ := Option.map_eq_some_iff.mp hroot
    have hr : r = .ok rootIno := eq_ok_of_toOption hr
    rw [hr] at hrun
    exact ⟨1, t, eq_ok_of_toOption hrun⟩
  · obtain ⟨⟨r, t⟩, hrun, hr⟩ := Option.map_eq_some_iff.mp hfree
    cases r with
    | error code => exact ⟨code, t, eq_ok_of_toOption hrun⟩
    | ok num => cases hr
  · obtain ⟨⟨code, t⟩, hrun, rfl⟩ := Option.map_eq_some_iff.mp hmade
    refine ⟨t, eq_ok_of_toOption hrun, fun hundone => ?_⟩
    obtain ⟨m, u, -, -, -, hremoved, -⟩ := hundone.removed
    exact (ext2Rmdir_ne_zero (Env.ideal_reliable 0)).of_result hremoved rfl

/-- `Ext2Mkdir` of `/a` on the small volume. -/
theorem ext2Mkdir_never_undone_small :
    Ends (ext2Mkdir (Env.ideal 0) [slash, 97] 1024) (Small.rooted 1) (fun _ => True) fun code t =>
      code = 0 → ¬ Undone (Env.ideal 0) (Small.rooted 1) t [slash, 97] :=
  ext2Mkdir_never_undone (Env.ideal_reliable 0)

end InfoKernel.Ext2
