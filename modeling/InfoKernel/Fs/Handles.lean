import InfoKernel.Fs.OpenFiles
import InfoKernel.Lib.Refinement

/-!
# An open file is a list of bytes with a position

`vfs::Read`, `vfs::Write` and `vfs::Seek` go through one `File` of an ext2 volume: the position is
in the `File`, and the bytes are in the blocks that the copy of the inode leads to.

* `vfsWrite`, `vfsSeek` and the calls of a handle (`Handle.exec`).
* `ByteFile` says what a handle is for: a list of bytes and a position (`ByteFile.answer`).
* `Handle.Shows` relates the two, with one lemma for each call (`Handle.Shows.read`,
  `Handle.Shows.write`, `Handle.Shows.seek`).
* `handle_run`: all sequences of calls through a `File` without holes get the answers of the list of
  bytes, and leave its bytes on the disk.
-/

namespace InfoKernel.Ext2

open Lib

variable {e : Env} {s t u : State} {num : Nat}

/-! ## The calls of a handle -/

/-- `vfs::Write`: what is returned, and the file. -/
def vfsWrite (e : Env) (file : OpenFile) (buf : Bytes) (count n : Nat) : Io (Int × OpenFile) := do
  if count = 0 then
    pure (-1, file)
  else do
    let (ret, file) ← ext2Write e file buf count file.position n
    if ret > 0 then
      pure (ret, { file with position := u64 (file.position + ret.toNat) })
    else
      pure (ret, file)

/-- A number of 64 bits as `std::int64_t`. -/
def asInt64 (n : Int) : Int := Int.bmod n (2 ^ 64)

theorem asInt64_of_lt {n : Int} (hlo : -2 ^ 63 ≤ n) (hhi : n < 2 ^ 63) : asInt64 n = n := by
  unfold asInt64
  rw [Int.bmod_def]
  omega

theorem asInt64_neg {n : Int} (hlo : 2 ^ 63 ≤ n) (hhi : n < 2 ^ 64) : asInt64 n < 0 := by
  unfold asInt64
  rw [Int.bmod_def]
  omega

/-- The position that `vfs::Seek` computes from `whence`, if there is such a `whence`. -/
def seekTarget (position : Nat) (offset : Int) : Int → Option Int
  | 0 => some offset
  | 1 => some (asInt64 (position + offset))
  | 2 => some (-1)
  | _ => none

/-- `vfs::Seek`: what is returned, and the file. -/
def vfsSeek (file : OpenFile) (offset whence : Int) : Int × OpenFile :=
  match seekTarget file.position offset whence with
  | none => (-3, file)
  | some newPos => if newPos < 0 then (-4, file) else (newPos, { file with position :=
      newPos.toNat })

/-- A `File`, and the volume that it is on. -/
structure Handle where
  volume : State
  file : OpenFile

/-- A call through a `File`: the buffer of a read, the bytes of a write. -/
inductive HandleCall where
  | read (out : Bytes) (count : Nat)
  | write (buf : Bytes) (count : Nat)
  | seek (offset whence : Int)

/-- A call: what it returns, and the bytes that it delivers.  A loop over `count` bytes has at most
`count` turns that go on. -/
def Handle.exec (e : Env) : HandleCall → Program Handle Fault (Int × List UInt8)
  | .read out count => fun h =>
      (vfsRead e h.file.toFile out count (count + 1) h.volume).map fun r =>
        ((r.1.1, (List.range r.1.1.toNat).map r.1.2.1), ⟨r.2, ⟨r.1.2.2, h.file.inodeNum⟩⟩)
  | .write buf count => fun h =>
      (vfsWrite e h.file buf count (count + 1) h.volume).map fun r => ((r.1.1, []), ⟨r.2, r.1.2⟩)
  | .seek offset whence => fun h =>
      .ok (((vfsSeek h.file offset whence).1, []), ⟨h.volume, (vfsSeek h.file offset whence).2⟩)

/-! ## What a handle is for -/

/-- A list of bytes, and a position. -/
structure ByteFile where
  bytes : List UInt8
  position : Nat

namespace ByteFile

/-- The bytes with `data` at position `p`. -/
def overwrite (bytes data : List UInt8) (p : Nat) : List UInt8 :=
  bytes.take p ++ data ++ bytes.drop (p + data.length)

/-- Going to `target`, if that is the position of a byte that a file can have. -/
def moveTo (f : ByteFile) (target : Int) : (Int × List UInt8) × ByteFile :=
  if 0 ≤ target ∧ target < 2 ^ 63 then ((target, []), ⟨f.bytes, target.toNat⟩) else ((-4, []), f)

/-- Going to `offset`, or by `offset`; nothing is done from the end. -/
def seekTo (f : ByteFile) (offset : Int) : Int → (Int × List UInt8) × ByteFile
  | 0 => f.moveTo offset
  | 1 => f.moveTo (f.position + offset)
  | 2 => ((-4, []), f)
  | _ => ((-3, []), f)

/-- **What a call is for.**  A read delivers the bytes from the position on, a write replaces them
and goes on behind the end, and both move the position. -/
def answer (f : ByteFile) : HandleCall → (Int × List UInt8) × ByteFile
  | .read _ count =>
      if count = 0 then
        ((-1, []), f)
      else
        ((((f.bytes.drop f.position).take count).length, (f.bytes.drop f.position).take count),
          ⟨f.bytes, f.position + ((f.bytes.drop f.position).take count).length⟩)
  | .write buf count =>
      if count = 0 then
        ((-1, []), f)
      else
        ((count, []), ⟨overwrite f.bytes ((List.range count).map buf) f.position,
          f.position + count⟩)
  | .seek offset whence => f.seekTo offset whence

section Overwrite

variable {bytes data : List UInt8} {p x : Nat}

theorem length_overwrite (hp : p ≤ bytes.length) :
    (overwrite bytes data p).length = max bytes.length (p + data.length) := by
  unfold overwrite
  simp only [List.length_append, List.length_take, List.length_drop]
  omega

theorem getElem?_overwrite (hp : p ≤ bytes.length) : (overwrite bytes data p)[x]? =
    if p ≤ x ∧ x < p + data.length then data[x - p]? else bytes[x]? := by
  have htake : (bytes.take p).length = p := by simp [hp]
  unfold overwrite
  rcases Nat.lt_or_ge x p with hlt | hge
  · rw [if_neg (by omega), List.append_assoc, List.getElem?_append_left (by omega),
      List.getElem?_take_of_lt hlt]
  · rw [List.append_assoc, List.getElem?_append_right (by omega), htake]
    rcases Nat.lt_or_ge (x - p) data.length with hin | hout
    · rw [if_pos (by omega), List.getElem?_append_left hin]
    · rw [if_neg (by omega), List.getElem?_append_right hout, List.getElem?_drop]
      congr 1
      omega

end Overwrite

end ByteFile

/-! ## The handle shows the list of bytes -/

namespace Handle

/-- The call finds room: the positions are below the limits, a write does not leave a hole behind
the end, and there are enough free blocks for it. -/
def Fits (e : Env) (h : Handle) (f : ByteFile) : HandleCall → Prop
  | .read _ count => f.position + count < 2 ^ 63
  | .write _ count => f.position ≤ f.bytes.length ∧ f.position + count < 2 ^ 32 ∧
      needed e (fileOf h.file.inode) h.volume () f.position count ≤ h.volume.super.sFreeBlocksCount
  | .seek offset _ => -2 ^ 63 ≤ offset ∧ offset < 2 ^ 63

/-- **The handle shows `f`**: its copy of inode `num` is the inode on the disk, a file without holes
that has the bytes of `f`.  The blocks that have been taken since `s₀` are its blocks. -/
structure Shows (e : Env) (num : Nat) (s₀ : State) (h : Handle) (f : ByteFile) : Prop where
  agrees : Agrees e num s₀ ⟨h.volume, fun _ : Unit => h.file⟩ fun x => f.bytes[x]?
  current : h.file.inode.Same (h.volume.inodeAt e num)
  isFile : (s₀.inodeAt e num).isDir = false
  size : (h.volume.inodeAt e num).iSize = f.bytes.length
  position : h.file.position = f.position
  inRange : f.position < 2 ^ 63

namespace Shows

variable {s₀ : State} {h : Handle} {f : ByteFile} {out buf : Bytes} {count : Nat}
  {offset whence : Int}

theorem holds (hs : Shows e num s₀ h f) :
    Holds e s₀ (fileByte e (fileOf (s₀.inodeAt e num)) s₀ ()) false h.file.inode h.volume
      fun x => f.bytes[x]? := by
  have hcopy := hs.agrees.holds.of_same hs.current h.volume.clock
  rw [hs.isFile] at hcopy
  exact hcopy

theorem iSize (hs : Shows e num s₀ h f) : h.file.inode.iSize = f.bytes.length :=
  hs.current.iSize.trans hs.size

theorem length_lt (hs : Shows e num s₀ h f) : f.bytes.length < 2 ^ 32 := by
  rw [← hs.iSize]
  exact iSize_lt _

/-- The clock and the position of the handle are no part of the file. -/
theorem moved (hs : Shows e num s₀ h f) (c : Nat) {p : Nat} (hp : p < 2 ^ 63) :
    Shows e num s₀ ⟨h.volume.at c, ⟨⟨p, h.file.inode⟩, h.file.inodeNum⟩⟩ ⟨f.bytes, p⟩ where
  agrees := (hs.agrees.at_clock c).of_file (i := ()) ⟨p, h.file.inode⟩
  current := hs.current
  isFile := hs.isFile
  size := hs.size
  position := rfl
  inRange := hp

/-! ### Seeking -/

/-- The code computes the position that is meant, or a negative number where there is none. -/
theorem seek_moveTo (hs : Shows e num s₀ h f) {target : Int} (newPos : Int)
    (hval : seekTarget h.file.position offset whence = some newPos)
    (hin : 0 ≤ target → target < 2 ^ 63 → newPos = target)
    (hout : ¬ (0 ≤ target ∧ target < 2 ^ 63) → newPos < 0) :
    Ends (exec e (.seek offset whence)) h (fun _ => False) fun r h' =>
      r = (f.moveTo target).1 ∧ Shows e num s₀ h' (f.moveTo target).2 := by
  refine Ends.of_ok (a := (((vfsSeek h.file offset whence).1, [])))
    (t := ⟨h.volume, (vfsSeek h.file offset whence).2⟩) rfl ?_
  unfold vfsSeek ByteFile.moveTo
  simp only [hval]
  by_cases hrange : 0 ≤ target ∧ target < 2 ^ 63
  · obtain rfl := hin hrange.1 hrange.2
    rw [if_pos hrange, if_neg (by omega)]
    exact ⟨rfl, hs.moved h.volume.clock (by omega)⟩
  · rw [if_neg hrange, if_pos (hout hrange)]
    exact ⟨rfl, hs⟩

theorem seek (hs : Shows e num s₀ h f) (hlo : -2 ^ 63 ≤ offset) (hhi : offset < 2 ^ 63) :
    Ends (exec e (.seek offset whence)) h (fun _ => False) fun r h' =>
      r = (f.answer (.seek offset whence)).1 ∧
        Shows e num s₀ h' (f.answer (.seek offset whence)).2 := by
  have hp := hs.inRange
  unfold ByteFile.answer ByteFile.seekTo
  simp only []
  split
  · exact hs.seek_moveTo offset rfl (fun _ _ => rfl) fun hno => by omega
  · refine hs.seek_moveTo (asInt64 (f.position + offset)) ?_ (fun _ hlt => ?_) fun hno => ?_
    · rw [← hs.position]
      rfl
    · exact asInt64_of_lt (by omega) hlt
    · by_cases hneg : (f.position : Int) + offset < 0
      · rwa [asInt64_of_lt (by omega) (by omega)]
      · exact asInt64_neg (by omega) (by omega)
  · exact Ends.of_ok rfl ⟨rfl, hs⟩
  · next hset hcur hend =>
    refine Ends.of_ok (a := (-3, [])) (t := h) ?_ ⟨rfl, hs⟩
    have htarget : seekTarget h.file.position offset whence = none := by
      unfold seekTarget
      split <;> first | rfl | exact absurd rfl ‹_›
    unfold exec vfsSeek
    simp only [htarget]

/-! ### Reading and writing -/

/-- **A read delivers what the list of bytes has from the position on.** -/
theorem read (hs : Shows e num s₀ h f) (he : e.Reliable) (hlt : f.position + count < 2 ^ 63) :
    Ends (exec e (.read out count)) h (fun _ => False) fun r h' =>
      r = (f.answer (.read out count)).1 ∧ Shows e num s₀ h' (f.answer (.read out count)).2 := by
  have hpos := hs.position
  have hlen := hs.length_lt
  unfold ByteFile.answer
  simp only []
  by_cases hzero : count = 0
  · rw [if_pos hzero]
    refine Ends.of_ok (a := (-1, [])) (t := h) ?_ ⟨rfl, hs⟩
    unfold exec vfsRead
    simp only []
    rw [if_pos hzero]
    rfl
  · rw [if_neg hzero]
    obtain ⟨⟨ret, buf⟩, t, hrun, ⟨c, rfl⟩, m, hret, hreach, hbytes⟩ :=
      (readFile_reach (F := fun _ => False) (f := fileOf h.file.inode) (k := ()) (s := h.volume) he
        out hs.agrees.counted.roles.size_pos hs.holds.isDir
        (show h.file.position + count < 2 ^ 64 by omega) (Nat.lt_succ_self count)).exists_ok
    obtain rfl : ret = m := hret
    -- there are no holes
    have hm : m = min count (f.bytes.length - f.position) := by
      have hsize : (fileOf h.file.inode ()).iSize = f.bytes.length := hs.iSize
      rw [hsize, hpos] at hreach
      refine hreach.full_iff.mpr fun x hlo hhi => (hs.holds.written ?_).2.2
      rw [List.getElem?_eq_getElem (by omega)]
      exact Option.some_ne_none _
    have hdata : (List.range m).map buf = (f.bytes.drop f.position).take count := by
      refine List.ext_getElem? fun j => ?_
      rw [List.getElem?_map, List.getElem?_take, List.getElem?_drop]
      by_cases hj : j < m
      · have hbyte := hbytes j hj
        rw [hs.holds.bytes (by omega), hpos, List.getElem?_eq_getElem (by omega)] at hbyte
        rw [List.getElem?_range hj, if_pos (by omega), List.getElem?_eq_getElem (by omega)]
        exact congrArg some hbyte
      · rw [List.getElem?_eq_none (by simpa using Nat.le_of_not_lt hj)]
        split
        · rw [List.getElem?_eq_none (by omega)]
          rfl
        · rfl
    have hlength : ((f.bytes.drop f.position).take count).length = m := by
      rw [← hdata]
      simp
    rw [hlength, ← hdata]
    have hread : vfsRead e h.file.toFile out count (count + 1) h.volume =
        .ok (((m : Int), buf, ⟨f.position + m, h.file.inode⟩), h.volume.at c) := by
      unfold vfsRead ext2Read
      rw [if_neg hzero, bind_apply_of_ok hrun]
      simp only []
      by_cases hmz : m = 0
      · subst hmz
        rw [if_neg (by omega), Nat.add_zero, ← hpos]
        rfl
      · rw [if_pos (by omega), Int.toNat_natCast, u64_of_lt (by omega), hpos]
        rfl
    refine Ends.of_ok (a := ((m : Int), (List.range m).map buf))
      (t := ⟨h.volume.at c, ⟨⟨f.position + m, h.file.inode⟩, h.file.inodeNum⟩⟩) ?_
      ⟨rfl, hs.moved c (by omega)⟩
    unfold exec
    simp only [hread]
    rfl

/-- What has been written last are the bytes of the list. -/
theorem after_overwrite (hp : f.position ≤ f.bytes.length) :
    ((FileCall.write () buf count f.position).after count fun x => f.bytes[x]?) =
      fun x => (ByteFile.overwrite f.bytes ((List.range count).map buf) f.position)[x]? := by
  funext x
  rw [ByteFile.getElem?_overwrite hp]
  unfold FileCall.after
  simp only [List.length_map, List.length_range]
  norm_cast
  split
  · next hin => rw [List.getElem?_map, List.getElem?_range (by omega), Option.map_some]
  · rfl

/-- **A write puts its bytes into the list.** -/
theorem write (hs : Shows e num s₀ h f) (he : e.Reliable) (hc : Counted e s₀)
    (hfit : Fits e h f (.write buf count)) :
    Ends (exec e (.write buf count)) h (fun _ => False) fun r h' =>
      r = (f.answer (.write buf count)).1 ∧ Shows e num s₀ h' (f.answer (.write buf count)).2 := by
  obtain ⟨hp, hlt, hspace⟩ := hfit
  have hpos := hs.position
  have hnum := hs.agrees.hasInode
  rw [← hs.agrees.number ()] at hnum
  unfold ByteFile.answer
  simp only []
  by_cases hzero : count = 0
  · rw [if_pos hzero]
    refine Ends.of_ok (a := (-1, [])) (t := h) ?_ ⟨rfl, hs⟩
    unfold exec vfsWrite
    simp only []
    rw [if_pos hzero]
    rfl
  · rw [if_neg hzero]
    obtain ⟨inode, t, u, hwrite, hprogress, -, -, -, -, hsame⟩ :=
      ext2Write_run (s := h.volume) h.file buf he hs.holds.files hs.agrees.counted
        hs.agrees.tables hnum hs.holds.isDir (Nat.pos_of_ne_zero hzero) hlt hspace
    have hstep : OpenFiles.exec e (.write () buf count f.position) ⟨h.volume, fun _ => h.file⟩ =
        .ok (((count : Int), buf), ⟨u, Function.update (fun _ => h.file) ()
          ⟨⟨h.file.position, inode⟩, h.file.inodeNum⟩⟩) := by
      unfold OpenFiles.exec
      simp only [hwrite]
      rfl
    obtain ⟨hagrees, -⟩ :=
      (hs.agrees.write he hc (i := ()) hs.current ⟨hlt, hspace⟩).of_result hstep
    rw [after_overwrite hp] at hagrees
    refine Ends.of_ok (a := ((count : Int), []))
      (t := ⟨u, ⟨⟨f.position + count, inode⟩, h.file.inodeNum⟩⟩) ?_ ⟨rfl, ?_⟩
    · unfold exec vfsWrite
      simp only []
      rw [if_neg hzero, hpos, bind_apply_of_ok hwrite]
      simp only []
      rw [if_pos (by omega), Int.toNat_natCast, hpos, u64_of_lt (by omega)]
      rfl
    · have hsym : inode.Same (u.inodeAt e h.file.inodeNum) := fun i hi => (hsame i hi).symm
      have hnumber : h.file.inodeNum = num := hs.agrees.number ()
      rw [hnumber] at hsym
      refine ⟨hagrees.of_file (i := ()) ⟨f.position + count, inode⟩, hsym, hs.isFile, ?_, rfl, by
        dsimp only; omega⟩
      have hlen : (ByteFile.overwrite f.bytes ((List.range count).map buf) f.position).length =
          max f.bytes.length (f.position + count) := by
        rw [ByteFile.length_overwrite hp, List.length_map, List.length_range]
      show (u.inodeAt e num).iSize = _
      rw [← hsym.iSize, hprogress.size, hs.iSize, hlen]

end Shows

end Handle

/-! ## Runs of calls -/

/-- **The step condition**: a handle refines the list of bytes. -/
theorem Handle.refines {s₀ : State} (he : e.Reliable) (hc : Counted e s₀) :
    Refines (Handle.Shows e num s₀) (Handle.Fits e) (Handle.exec e) ByteFile.answer := by
  intro h f call hs hfit
  cases call with
  | read out count => exact hs.read he hfit
  | write buf count => exact hs.write he hc hfit
  | seek offset whence => exact hs.seek hfit.1 hfit.2

/-- The bytes of the file of inode `num`. -/
def State.contents (s : State) (e : Env) (num : Nat) : List UInt8 :=
  (List.range (s.inodeAt e num).iSize).map (fileByte e (fileOf (s.inodeAt e num)) s ())

section Opening

variable {path : List UInt8} {flags n : Nat} {file : OpenFile}

theorem getElem?_contents {x : Nat} (hx : x < (s.inodeAt e num).iSize) :
    (s.contents e num)[x]? = some (fileByte e (fileOf (s.inodeAt e num)) s () x) := by
  unfold State.contents
  rw [List.getElem?_map, List.getElem?_range hx, Option.map_some]

theorem length_contents : (s.contents e num).length = (s.inodeAt e num).iSize := by
  simp [State.contents]

/-- A `File` begins at its first byte. -/
theorem ext2Open_position : Ends (ext2Open e path flags n) s (fun _ => True) fun r _ =>
    ∀ file, r = some file → file.position = 0 := by
  have hnone : ∀ u, Ends (pure none : Io (Option OpenFile)) u (fun _ => True) fun r _ =>
      ∀ file, r = some file → file.position = 0 := fun u => .pure fun file hfile => by cases hfile
  unfold ext2Open
  cases absPath path with
  | none => exact hnone s
  | some path =>
      refine Ends.trivial.bind fun num u _ => ?_
      cases num with
      | none => exact hnone u
      | some num =>
          refine Ends.trivial.bind fun inode v _ => ?_
          cases inode with
          | error code => exact hnone v
          | ok inode =>
              refine Ends.trivial.bind fun a w _ => ?_
              cases a with
              | false => exact hnone w
              | true =>
                  refine Ends.trivial.bind fun b x _ => ?_
                  cases b with
                  | false => exact hnone x
                  | true =>
                      refine .pure fun file hfile => ?_
                      obtain rfl := Option.some.inj hfile
                      rfl

/-- **A file that has just been opened shows its bytes**, if it has no holes. -/
theorem Opened.shows (hopen : Opened e path num ⟨s, fun _ : Unit => file⟩) (he : e.Reliable)
    (hdir : (s.inodeAt e num).isDir = false)
    (hfull : ∀ x, x < (s.inodeAt e num).iSize → s.Maps e (s.inodeAt e num) x) :
    Handle.Shows e num s ⟨s, file⟩ ⟨s.contents e num, 0⟩ where
  agrees := by
    refine ⟨hopen.counted, hopen.tables, hopen.hasInode, hopen.number, hopen.files, rfl,
      fun {p} _ => ?_, fun {p} hp => ?_, fun hy hy' => absurd hy hy'⟩
    · rcases Nat.lt_or_ge p (s.inodeAt e num).iSize with hlt | hge
      · rw [getElem?_contents hlt]
        rfl
      · rw [List.getElem?_eq_none (by rw [length_contents]; exact hge)]
        rfl
    · have hlt : p < (s.inodeAt e num).iSize := by
        rw [← length_contents]
        by_contra hge
        exact hp (List.getElem?_eq_none (Nat.le_of_not_lt hge))
      exact ⟨hlt, hdir, (hfull p hlt).2⟩
  current := hopen.current he ()
  isFile := hdir
  size := length_contents.symm
  position := by
    obtain ⟨flags, n, s', c, hrun⟩ := hopen.opened ()
    exact ext2Open_position.of_result hrun _ rfl
  inRange := by norm_num

end Opening

/-- The bytes that a handle shows are those of the file on the disk. -/
theorem Handle.Shows.contents {s₀ : State} {h : Handle} {f : ByteFile}
    (hs : Handle.Shows e num s₀ h f) : h.volume.contents e num = f.bytes := by
  refine List.ext_getElem? fun x => ?_
  rcases Nat.lt_or_ge x f.bytes.length with hlt | hge
  · have hsize : x < (h.volume.inodeAt e num).iSize := hs.size ▸ hlt
    rw [getElem?_contents hsize, hs.agrees.holds.bytes (hsize.trans (iSize_lt _)),
      List.getElem?_eq_getElem hlt]
    rfl
  · rw [List.getElem?_eq_none hge,
      List.getElem?_eq_none (by rw [length_contents, hs.size]; exact hge)]

section Runs

variable {path : List UInt8} {file : OpenFile} {calls : List HandleCall}

/-- **An open file is a list of bytes with a position.**  All sequences of `vfs::Read`, `vfs::Write`
and `vfs::Seek` through a `File` that has been opened on a file without holes get the answers of
its list of bytes, from position 0 on, as long as the writes find room and leave no holes.
Afterwards the file on the disk has the bytes of the list, and refers to all blocks that have been
taken. -/
theorem handle_run (he : e.Reliable) (hopen : Opened e path num ⟨s, fun _ : Unit => file⟩)
    (hdir : (s.inodeAt e num).isDir = false)
    (hfull : ∀ x, x < (s.inodeAt e num).iSize → s.Maps e (s.inodeAt e num) x)
    (hcalls : Admitted (Handle.Fits e) (Handle.exec e) ByteFile.answer ⟨s, file⟩
      ⟨s.contents e num, 0⟩ calls) :
    ∃ h, Program.calls (Handle.exec e) calls ⟨s, file⟩ =
        .ok ((answers ByteFile.answer ⟨s.contents e num, 0⟩ calls).1, h) ∧
      h.volume.contents e num = (answers ByteFile.answer ⟨s.contents e num, 0⟩ calls).2.bytes ∧
      h.file.position = (answers ByteFile.answer ⟨s.contents e num, 0⟩ calls).2.position ∧
      ∀ y, Free e s .block y → ¬ Free e h.volume .block y →
        h.volume.Refers e (fileOf (h.volume.inodeAt e num)) y := by
  obtain ⟨rs, h, hrun, rfl, hs⟩ := ((Handle.refines he hopen.counted).run
    (hopen.shows he hdir hfull) hcalls).exists_ok
  exact ⟨h, hrun, hs.contents, hs.position, fun y hy hy' => hs.agrees.holds.taken hy hy'⟩

end Runs

/-- A byte is written to an empty file and read again from its beginning. -/
theorem handle_run_small : ∃ h, Program.calls (Handle.exec (Env.ideal 0))
      [.write (fun _ => 7) 1, .seek 0 0, .read (fun _ => 0) 5] ⟨Small.linked 0, Small.openedFile⟩ =
        .ok ([(1, []), (0, []), (1, [7])], h) ∧ h.volume.contents (Env.ideal 0) 10 = [7] ∧
      h.file.position = 1 := by
  have he := Env.ideal_reliable 0
  have hopen : Opened (Env.ideal 0) [47, 97] 10 ⟨Small.linked 0, fun _ : Unit =>
    Small.openedFile⟩ :=
    ⟨Small.opened_linked.counted, Small.opened_linked.tables, Small.opened_linked.hasInode,
      Small.opened_linked.files, fun _ => Small.opened_linked.opened true,
      fun _ => Small.opened_linked.number true⟩
  have hsize : ((Small.linked 0).inodeAt (Env.ideal 0) 10).iSize = 0 := by decide +kernel
  have hbytes : (Small.linked 0).contents (Env.ideal 0) 10 = [] := by
    unfold State.contents
    rw [hsize]
    rfl
  have hroom : needed (Env.ideal 0) (fileOf Small.openedFile.inode) (Small.linked 0) () 0 1 ≤
      (Small.linked 0).super.sFreeBlocksCount := by
    decide +kernel
  have hcalls : Admitted (Handle.Fits (Env.ideal 0)) (Handle.exec (Env.ideal 0)) ByteFile.answer
      ⟨Small.linked 0, Small.openedFile⟩ ⟨(Small.linked 0).contents (Env.ideal 0) 10, 0⟩
      [.write (fun _ => 7) 1, .seek 0 0, .read (fun _ => 0) 5] := by
    rw [hbytes]
    refine ⟨⟨Nat.le_refl 0, by decide, hroom⟩, fun _ _ _ =>
      ⟨?_, fun _ _ _ => ⟨?_, fun _ _ _ => trivial⟩⟩⟩
    · exact show (-2 ^ 63 : Int) ≤ 0 ∧ (0 : Int) < 2 ^ 63 by decide
    · exact show 0 + 5 < 2 ^ 63 by decide
  obtain ⟨h, hrun, hcontents, hposition, -⟩ :=
    handle_run he hopen (by decide) (fun x hx => by omega) hcalls
  rw [hbytes] at hrun hcontents hposition
  exact ⟨h, hrun, hcontents, hposition⟩

end InfoKernel.Ext2
