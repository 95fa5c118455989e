import InfoKernel.Fs.Mounts
import InfoKernel.Fault
import InfoKernel.Lib.Run
import Mathlib.Data.List.Nodup

/-!
# The table of file systems and the table of mounts

`vfs.cc`: the list of registered file systems and the list of mounts, and the calls that change
them.

`RegisterFileSystem` walks along the list with one pointer and looks at another to see whether it
has come to the end.  So it registers the first file system and finds a name that is registered,
and with every other name it follows the null pointer (`registers_right_iff`).

A mount keeps the first 63 bytes of its path.  `mounts_right_iff` says that this is all that can go
wrong: the mounts keep distinct paths, a mount can be undone at once and no mount is taken for
another exactly as long as no longer path is mounted.
-/

namespace InfoKernel.Vfs

open Lib

variable {α : Type}

/-- `FileSystem`: its name, and its `mount`.  What `mount` makes of the device is a parameter of the
call; it is nothing when the file system cannot use the device. -/
structure FileSystem (α : Type) where
  name : List UInt8
  mount : Option (Option α → List UInt8 → Option (MountFs α))

/-! ## `RegisterFileSystem` -/

/-- The loop of `RegisterFileSystem`: whether it returns from inside. -/
def nameTaken (registered : List (FileSystem α)) (name : List UInt8) :
    List (FileSystem α) → Except Fault Bool
  | [] => if registered.isEmpty then .ok false else .error .nullDeref
  | current :: next =>
      if registered.isEmpty then .ok false
      else if current.name = name then .ok true
      else nameTaken registered name next

/-- `vfs::RegisterFileSystem`: the code, and the list. -/
def registerFileSystem (registered : List (FileSystem α)) (fs : Option (FileSystem α)) :
    Except Fault (Int × List (FileSystem α)) :=
  match fs with
  | none => .ok (-1, registered)
  | some fs =>
      if fs.name.length = 0 then .ok (-1, registered)
      else
        match nameTaken registered fs.name registered with
        | .error f => .error f
        | .ok true => .ok (-2, registered)
        | .ok false => .ok (0, fs :: registered)

/-- `vfs::GetFileSystem` -/
def getFileSystem (registered : List (FileSystem α)) (name : List UInt8) : Option (FileSystem α) :=
  registered.find? fun current => current.name = name

/-! ## `Mount` and `Umount` -/

/-- The size of `MountFs::path`. -/
def pathSize : Nat := 64

/-- `vfs::Ext2Mount`, where `device` is what it gets from the device. -/
def ext2Mount (device : Option α) (path : List UInt8) : Option (MountFs α) :=
  device.map fun mountData => ⟨path.take (pathSize - 1), mountData⟩

/-- `vfs::Mount`: the code, and the list. -/
def mount (registered : List (FileSystem α)) (device : Option α) (path fsType : List UInt8)
    (mounts : List (MountFs α)) : Int × List (MountFs α) :=
  match getFileSystem registered fsType with
  | none => (-2, mounts)
  | some fs =>
      match fs.mount with
      | none => (-2, mounts)
      | some fsMount =>
          if ∃ current ∈ mounts, current.path = path then (-3, mounts)
          else
            match fsMount device path with
            | none => (-4, mounts)
            | some new => (0, new :: mounts)

/-- The loop of `Umount`: the list behind `prev` without the mount, if it is there. -/
def umountBehind (path : List UInt8) (prev : MountFs α) :
    List (MountFs α) → Option (List (MountFs α))
  | [] => none
  | current :: next =>
      if current.path = path then some (prev :: next)
      else (umountBehind path current next).map fun rest => prev :: rest

/-- `vfs::Umount`: the code, and the list. -/
def umount (path : List UInt8) (mounts : List (MountFs α)) : Int × List (MountFs α) :=
  match mounts with
  | [] => (-2, [])
  | head :: next =>
      if head.path = path then (0, next)
      else
        match umountBehind path head next with
        | none => (-2, mounts)
        | some rest => (0, rest)

/-! ## What the calls should do -/

/-- The names of the file systems. -/
def fsNames (registered : List (FileSystem α)) : List (List UInt8) := registered.map FileSystem.name

/-- `GetFileSystem` finds exactly the registered file systems. -/
def FindsRegistered (registered : List (FileSystem α)) : Prop :=
  ∀ name fs, getFileSystem registered name = some fs ↔ fs ∈ registered ∧ fs.name = name

/-- A call of `RegisterFileSystem`, from the list that the calls before it have left, if none of
them has faulted. -/
def RegisterStep (s : Except Fault (List (FileSystem α))) (fs : FileSystem α)
    (t : Except Fault (List (FileSystem α))) : Prop :=
  fs.name ≠ [] ∧
    t = s.bind fun registered => (registerFileSystem registered (some fs)).map Prod.snd

/-- **A registration is right**: the call returns, with `-2` and the same list exactly when the name
is registered, and otherwise with `0` and the file system added; the names stay distinct, and
`GetFileSystem` finds what is registered. -/
def RegistersRight (s : Except Fault (List (FileSystem α))) (fs : FileSystem α)
    (t : Except Fault (List (FileSystem α))) : Prop :=
  ∃ registered code registered', s = .ok registered ∧ t = .ok registered' ∧
    registerFileSystem registered (some fs) = .ok (code, registered') ∧
    ((code = -2 ∧ registered' = registered) ↔ fs.name ∈ fsNames registered) ∧
    (fs.name ∉ fsNames registered → code = 0 ∧ registered' = fs :: registered) ∧
    (fsNames registered').Nodup ∧ FindsRegistered registered'

/-- The list is empty, or the name is registered. -/
def Fresh (s : Except Fault (List (FileSystem α))) (fs : FileSystem α) : Prop :=
  ∃ registered, s = .ok registered ∧ (registered = [] ∨ fs.name ∈ fsNames registered)

section Registering

variable {registered : List (FileSystem α)} {fs : FileSystem α}

theorem findsRegistered_of_nodup (h : (fsNames registered).Nodup) : FindsRegistered registered := by
  intro name fs
  constructor
  · intro hfind
    exact ⟨List.mem_of_find?_eq_some hfind, by simpa using List.find?_some hfind⟩
  · rintro ⟨hmem, rfl⟩
    cases hfind : getFileSystem registered fs.name with
    | none =>
        have hnone := List.find?_eq_none.mp hfind fs hmem
        simp only [decide_true, not_true_eq_false] at hnone
    | some fs' =>
        have hname : fs'.name = fs.name := by simpa using List.find?_some hfind
        rw [List.inj_on_of_nodup_map h (List.mem_of_find?_eq_some hfind) hmem hname]

/-- The loop ends at the name, or at the null pointer. -/
theorem nameTaken_eq (hne : registered ≠ []) (name : List UInt8) (rest : List (FileSystem α)) :
    nameTaken registered name rest =
      if name ∈ fsNames rest then .ok true else .error .nullDeref := by
  have hempty : registered.isEmpty = false := by simpa using hne
  induction rest with
  | nil => rw [nameTaken, hempty]; rfl
  | cons current next ih =>
      have hcons : name ∈ fsNames (current :: next) ↔ name = current.name ∨ name ∈ fsNames next :=
        List.mem_cons
      rw [nameTaken, hempty, if_neg Bool.false_ne_true]
      by_cases hname : current.name = name
      · rw [if_pos hname, if_pos (hcons.mpr (.inl hname.symm))]
      · rw [if_neg hname, ih]
        by_cases hmem : name ∈ fsNames next
        · rw [if_pos hmem, if_pos (hcons.mpr (.inr hmem))]
        · rw [if_neg hmem, if_neg fun h => (hcons.mp h).elim (fun h => hname h.symm) hmem]

/-- **What `RegisterFileSystem` does** with a file system that has a name. -/
theorem registerFileSystem_eq (hname : fs.name ≠ []) : registerFileSystem registered (some fs) =
    if registered = [] then .ok (0, [fs])
    else if fs.name ∈ fsNames registered then .ok (-2, registered) else .error .nullDeref := by
  have hlen : fs.name.length ≠ 0 := fun h => hname (List.eq_nil_of_length_eq_zero h)
  rw [registerFileSystem]
  simp only [if_neg hlen]
  by_cases hnil : registered = []
  · subst hnil
    rfl
  · rw [nameTaken_eq hnil, if_neg hnil]
    by_cases hmem : fs.name ∈ fsNames registered
    · rw [if_pos hmem, if_pos hmem]
    · rw [if_neg hmem, if_neg hmem]

end Registering

/-- **When registrations are right.**  In a sequence of calls with file systems of any nonempty
names, from the empty list on, all calls are right exactly when each of them finds the list empty or
the name registered. -/
theorem registers_right_iff {calls : List (FileSystem α)} {t : Except Fault (List (FileSystem α))} :
    Run (fun s fs t => RegisterStep s fs t ∧ RegistersRight s fs t) (.ok []) calls t ↔
      Run (Guarded Fresh RegisterStep) (.ok []) calls t := by
  refine run_right_iff_guarded
    (I := fun s => ∃ registered, s = .ok registered ∧ (fsNames registered).Nodup)
    ⟨[], rfl, List.nodup_nil⟩ ?_ ?_
  · rintro s fs t ⟨registered, rfl, hnodup⟩ ⟨_, hs, hfresh⟩ ⟨hname, rfl⟩
    obtain rfl := Except.ok.inj hs
    rw [Except.bind, registerFileSystem_eq hname]
    by_cases hnil : registered = []
    · rw [if_pos hnil]
      exact ⟨[fs], rfl, List.nodup_singleton _⟩
    · rw [if_neg hnil, if_pos (hfresh.resolve_left hnil)]
      exact ⟨registered, rfl, hnodup⟩
  · rintro s fs t ⟨registered, rfl, hnodup⟩ ⟨hname, rfl⟩
    constructor
    · rintro ⟨_, code, registered', hs, -, hrun, -⟩
      obtain rfl := Except.ok.inj hs
      refine ⟨registered, rfl, ?_⟩
      rw [registerFileSystem_eq hname] at hrun
      by_contra hnot
      rw [not_or] at hnot
      rw [if_neg hnot.1, if_neg hnot.2] at hrun
      cases hrun
    · rintro ⟨_, hs, hfresh⟩
      obtain rfl := Except.ok.inj hs
      have hrun : registerFileSystem registered (some fs) = _ := registerFileSystem_eq hname
      by_cases hnil : registered = []
      · subst hnil
        rw [if_pos rfl] at hrun
        refine ⟨[], 0, [fs], rfl, ?_, hrun, ?_, fun _ => ⟨rfl, rfl⟩, List.nodup_singleton _,
          findsRegistered_of_nodup (List.nodup_singleton _)⟩
        · rw [Except.bind, hrun]
          rfl
        · refine iff_of_false (fun h => ?_) (List.not_mem_nil)
          cases h.2
      · have hmem := hfresh.resolve_left hnil
        rw [if_neg hnil, if_pos hmem] at hrun
        refine ⟨registered, -2, registered, rfl, ?_, hrun, iff_of_true ⟨rfl, rfl⟩ hmem,
          fun h => absurd hmem h, hnodup, findsRegistered_of_nodup hnodup⟩
        rw [Except.bind, hrun]
        rfl

/-- The first two calls: the second follows the null pointer. -/
theorem registers_wrong :
    registerFileSystem [] (some (⟨[97], none⟩ : FileSystem Unit)) = .ok (0, [⟨[97], none⟩]) ∧
      registerFileSystem [⟨[97], none⟩] (some (⟨[98], none⟩ : FileSystem Unit)) =
        .error .nullDeref :=
  ⟨rfl, rfl⟩

/-! ## Sequences of `Mount` and `Umount` -/

/-- A call of `Mount` or `Umount`. -/
inductive Call (α : Type) where
  | mount (device : Option α) (path fsType : List UInt8)
  | umount (path : List UInt8)

/-- The mounts, each with the path that `Mount` was called with. -/
abbrev Made (α : Type) := List (MountFs α × List UInt8)

/-- The list of the source. -/
def Made.mounts (s : Made α) : List (MountFs α) := s.map Prod.fst

/-- The steps of `Mount` and `Umount`: a mount is made in front of the others or refused, and the
first mount with the path is taken out, if there is one.  The lists are those that the calls of the
source leave. -/
inductive Step (registered : List (FileSystem α)) : Made α → Call α → Made α → Prop
  | mounted {s : Made α} {device : Option α} {path fsType : List UInt8} {new : MountFs α} :
      mount registered device path fsType s.mounts = (0, new :: s.mounts) →
      Step registered s (.mount device path fsType) ((new, path) :: s)
  | refused {s : Made α} {device : Option α} {path fsType : List UInt8} :
      (mount registered device path fsType s.mounts).1 ≠ 0 →
      Step registered s (.mount device path fsType) s
  | umounted {s : Made α} {path : List UInt8} :
      (umount path s.mounts).2 = Made.mounts (s.eraseP fun x => x.1.path = path) →
      Step registered s (.umount path) (s.eraseP fun x => x.1.path = path)

/-- **A call does what it should**: the paths of the mounts are distinct; a mount that has been made
can be undone at once; and what is taken out was mounted under the path. -/
structure MountsRight (registered : List (FileSystem α)) (s : Made α) (c : Call α) (t : Made α) :
    Prop where
  distinct : (t.mounts.map MountFs.path).Nodup
  undone {device : Option α} {path fsType : List UInt8} : c = .mount device path fsType →
    (mount registered device path fsType s.mounts).1 = 0 → umount path t.mounts = (0, s.mounts)
  own {path : List UInt8} : c = .umount path →
    t = s ∨ ∃ before x after, s = before ++ x :: after ∧ t = before ++ after ∧ x.2 = path

/-- The path fits into the field of a mount, or there is no file system to be mounted or no device
for it. -/
def Fits (registered : List (FileSystem α)) (_ : Made α) : Call α → Prop
  | .mount device path fsType => path.length < pathSize ∨ device = none ∨
      ∀ fs, getFileSystem registered fsType = some fs → fs.mount = none
  | .umount _ => True

section Mounting

variable {registered : List (FileSystem α)} {mounts : List (MountFs α)} {device : Option α}
  {path fsType : List UInt8}

theorem eraseP_head {m : MountFs α} {l : List (MountFs α)} (h : m.path = path) :
    (m :: l).eraseP (fun m => m.path = path) = l := List.eraseP_cons_of_pos (by simpa using h)

theorem eraseP_behind {m : MountFs α} {l : List (MountFs α)} (h : m.path ≠ path) :
    (m :: l).eraseP (fun m => m.path = path) = m :: l.eraseP fun m => m.path = path :=
  List.eraseP_cons_of_neg (by simpa using h)

theorem exists_path_cons {m : MountFs α} {l : List (MountFs α)} (h : m.path ≠ path) :
    (∃ m' ∈ m :: l, m'.path = path) ↔ ∃ m' ∈ l, m'.path = path := by
  simp only [List.mem_cons, or_and_right, exists_or, exists_eq_left, h, false_or]

theorem umountBehind_eq (path : List UInt8) (prev : MountFs α) (rest : List (MountFs α)) :
    umountBehind path prev rest = if ∃ m ∈ rest, m.path = path then
      some (prev :: rest.eraseP fun m => m.path = path) else none := by
  induction rest generalizing prev with
  | nil => rfl
  | cons current next ih =>
      rw [umountBehind, ih current]
      by_cases hpath : current.path = path
      · rw [if_pos hpath, if_pos ⟨current, List.mem_cons_self, hpath⟩, eraseP_head hpath]
      · simp only [exists_path_cons hpath]
        rw [if_neg hpath, eraseP_behind hpath]
        split
        · rfl
        · rfl

/-- **What `Umount` does**: it takes the first mount with the path out of the list. -/
theorem umount_eq (path : List UInt8) (mounts : List (MountFs α)) :
    umount path mounts = (if ∃ m ∈ mounts, m.path = path then 0 else -2,
      mounts.eraseP fun m => m.path = path) := by
  cases mounts with
  | nil => rfl
  | cons head next =>
      rw [umount]
      by_cases hpath : head.path = path
      · rw [if_pos hpath, if_pos ⟨head, List.mem_cons_self, hpath⟩, eraseP_head hpath]
      · simp only [exists_path_cons hpath]
        rw [if_neg hpath, umountBehind_eq, eraseP_behind hpath]
        by_cases hnext : ∃ m ∈ next, m.path = path
        · rw [if_pos hnext, if_pos hnext]
        · rw [if_neg hnext, if_neg hnext, List.eraseP_of_forall_not fun m hm => by
            simpa using fun h => hnext ⟨m, hm, h⟩]

theorem mounts_eraseP (s : Made α) (path : List UInt8) :
    Made.mounts (s.eraseP fun x => x.1.path = path) =
      s.mounts.eraseP fun m => m.path = path := by
  rw [Made.mounts, Made.mounts, List.eraseP_map]
  rfl

/-- What makes `Mount` refuse a call. -/
def Refusal (registered : List (FileSystem α)) (device : Option α) (path fsType : List UInt8)
    (mounts : List (MountFs α)) : Prop :=
  device = none ∨ (∀ fs, getFileSystem registered fsType = some fs → fs.mount = none) ∨
    ∃ m ∈ mounts, m.path = path

/-- **What `Mount` does**, when all mounts are done by `Ext2Mount`. -/
theorem mount_cases (hext2 : ∀ fs ∈ registered, ∀ f, fs.mount = some f → f = ext2Mount)
    (device : Option α) (path fsType : List UInt8) (mounts : List (MountFs α)) :
    (¬ Refusal registered device path fsType mounts ∧ ∃ data, mount registered device path fsType
        mounts = (0, ⟨path.take (pathSize - 1), data⟩ :: mounts)) ∨
      (Refusal registered device path fsType mounts ∧ ∃ code, code ≠ 0 ∧
        mount registered device path fsType mounts = (code, mounts)) := by
  rw [mount]
  cases hget : getFileSystem registered fsType with
  | none =>
      refine .inr ⟨.inr (.inl fun fs hfs => ?_), -2, by decide, rfl⟩
      rw [hget] at hfs
      cases hfs
  | some fs =>
      simp only []
      cases hmount : fs.mount with
      | none =>
          refine .inr ⟨.inr (.inl fun fs' hfs' => ?_), -2, by decide, rfl⟩
          rw [hget] at hfs'
          rwa [← Option.some.inj hfs']
      | some f =>
          simp only []
          obtain rfl := hext2 fs (List.mem_of_find?_eq_some hget) f hmount
          by_cases hpath : ∃ m ∈ mounts, m.path = path
          · rw [if_pos hpath]
            exact .inr ⟨.inr (.inr hpath), -3, by decide, rfl⟩
          · rw [if_neg hpath]
            cases device with
            | none => exact .inr ⟨.inl rfl, -4, by decide, rfl⟩
            | some data =>
                refine .inl ⟨?_, data, rfl⟩
                rintro (h | h | h)
                · cases h
                · rw [h fs hget] at hmount
                  cases hmount
                · exact hpath h

/-- What is true of the mounts as long as all paths fit. -/
structure Kept (s : Made α) : Prop where
  fits {x : MountFs α × List UInt8} : x ∈ s → x.1.path = x.2 ∧ x.2.length < pathSize
  distinct : (s.mounts.map MountFs.path).Nodup

section Steps

variable (hext2 : ∀ fs ∈ registered, ∀ f, fs.mount = some f → f = ext2Mount) {s t : Made α}
  {c : Call α} (hs : Kept s)

include hs

theorem Kept.mount_fits {m : MountFs α} (hm : m ∈ s.mounts) : m.path.length < pathSize := by
  obtain ⟨x, hx, rfl⟩ := List.mem_map.mp hm
  rw [(hs.fits hx).1]
  exact (hs.fits hx).2

theorem Kept.umounted (path : List UInt8) : Kept (s.eraseP fun x => x.1.path = path) where
  fits hx := hs.fits (List.mem_of_mem_eraseP hx)
  distinct := by
    rw [mounts_eraseP]
    exact hs.distinct.sublist (List.eraseP_sublist.map _)

theorem Kept.mounted (hfits : path.length < pathSize) {data : α}
    (hnew : ∀ m ∈ s.mounts, m.path ≠ path) :
      Kept ((⟨path.take (pathSize - 1), data⟩, path) :: s) := by
  have htake : path.take (pathSize - 1) = path :=
    List.take_of_length_le (Nat.le_sub_one_of_lt hfits)
  rw [htake]
  refine ⟨fun {x} hx => ?_, List.nodup_cons.mpr ⟨fun hmem => ?_, hs.distinct⟩⟩
  · rcases List.mem_cons.mp hx with rfl | hx
    · exact ⟨rfl, hfits⟩
    · exact hs.fits hx
  · obtain ⟨m, hm, hpath⟩ := List.mem_map.mp hmem
    exact hnew m hm hpath

include hext2

theorem Step.kept (h : Step registered s c t) (hfits : Fits registered s c) : Kept t := by
  cases h with
  | @mounted device path fsType new hrun =>
      rcases mount_cases hext2 device path fsType s.mounts with
        ⟨hno, data, hrun'⟩ | ⟨-, _, hne, hrun'⟩
      · rw [hrun'] at hrun
        obtain rfl := List.cons.inj (Prod.mk.inj hrun).2 |>.1
        refine hs.mounted (hfits.resolve_right fun h => hno (h.imp_right .inl)) fun m hm hpath => ?_
        exact hno (.inr (.inr ⟨m, hm, hpath⟩))
      · rw [hrun'] at hrun
        exact absurd (Prod.mk.inj hrun).1 hne
  | refused => exact hs
  | umounted _ => exact hs.umounted _

/-- A call does what it should exactly when its path fits. -/
theorem Step.right_iff (h : Step registered s c t) : MountsRight registered s c t ↔
    Fits registered s c := by
  cases h with
  | @mounted device path fsType new hrun =>
      rcases mount_cases hext2 device path fsType s.mounts with
        ⟨hno, data, hrun'⟩ | ⟨-, _, hne, hrun'⟩
      swap
      · rw [hrun'] at hrun
        exact absurd (Prod.mk.inj hrun).1 hne
      have hnew : (⟨path.take (pathSize - 1), data⟩ : MountFs α) = new := by
        rw [hrun'] at hrun
        exact (List.cons.inj (Prod.mk.inj hrun).2).1
      constructor
      · intro hright
        refine .inl (Nat.lt_of_not_le fun hlong => ?_)
        have hundone := hright.undone rfl (congrArg Prod.fst hrun)
        -- no mount has a path of that length
        have hnone : ¬ ∃ m ∈ new :: s.mounts, m.path = path := by
          rintro ⟨m, hm, rfl⟩
          rcases List.mem_cons.mp hm with rfl | hm
          · have hlen := congrArg (fun m : MountFs α => m.path.length) hnew
            simp only [List.length_take, pathSize] at hlen hlong
            omega
          · exact Nat.not_lt_of_le hlong (hs.mount_fits hm)
        have hcode := congrArg Prod.fst ((umount_eq path (new :: s.mounts)).symm.trans hundone)
        rw [if_neg hnone] at hcode
        cases hcode
      · intro hfits
        have hshort : path.length < pathSize := hfits.resolve_right fun h => hno (h.imp_right .inl)
        have hpath : new.path = path := by
          rw [← hnew]
          exact List.take_of_length_le (Nat.le_sub_one_of_lt hshort)
        refine ⟨(Step.kept hext2 hs (.mounted hrun) hfits).distinct, ?_, fun h => by cases h⟩
        rintro device' path' fsType' ⟨⟩ -
        show umount path (new :: s.mounts) = (0, s.mounts)
        rw [umount_eq, if_pos ⟨new, List.mem_cons_self, hpath⟩, eraseP_head hpath]
  | @refused device path fsType hrun =>
      rcases mount_cases hext2 device path fsType s.mounts with ⟨-, _, hrun'⟩ | ⟨hrefusal, -⟩
      · rw [hrun'] at hrun
        exact absurd rfl hrun
      refine iff_of_true ⟨hs.distinct, ?_, fun h => by cases h⟩ ?_
      · rintro device' path' fsType' ⟨⟩ hzero
        exact absurd hzero hrun
      · rcases hrefusal with h | h | ⟨m, hm, rfl⟩
        · exact .inr (.inl h)
        · exact .inr (.inr h)
        · exact .inl (hs.mount_fits hm)
  | @umounted path _ =>
      refine iff_of_true ⟨(hs.umounted path).distinct, (fun h => by cases h), ?_⟩ trivial
      rintro path' ⟨⟩
      rcases List.exists_or_eq_self_of_eraseP
        (fun x : MountFs α × List UInt8 => decide (x.1.path = path)) s with
        hsame | ⟨x, before, after, -, hx, hs', ht⟩
      · exact .inl hsame
      · refine .inr ⟨before, x, after, hs', ht, ?_⟩
        rw [← (hs.fits (hs' ▸ List.mem_append_right _ List.mem_cons_self)).1]
        exact of_decide_eq_true hx

end Steps

end Mounting

/-- **When mounts keep their paths.**  In a sequence of `Mount` and `Umount` calls for which all
file systems mount as ext2 does, all calls do what they should exactly when no path is longer than
the field of a mount, but in calls that have no file system or no device to mount. -/
theorem mounts_right_iff {registered : List (FileSystem α)}
    (hext2 : ∀ fs ∈ registered, ∀ f, fs.mount = some f → f = ext2Mount) {calls : List (Call α)}
    {t : Made α} :
    Run (fun s c t => Step registered s c t ∧ MountsRight registered s c t) [] calls t ↔
      Run (Guarded (Fits registered) (Step registered)) [] calls t := by
  refine run_right_iff_guarded (I := Kept) ⟨(fun h => by cases h), List.nodup_nil⟩ ?_ ?_
  · exact fun s c t hs hfits h => h.kept hext2 hs hfits
  · exact fun s c t hs h => h.right_iff hext2 hs

/-- The file system `ext2`, for devices that need nothing. -/
def ext2 : FileSystem Unit := ⟨[101, 120, 116, 50], some ext2Mount⟩

/-- Mounts at `/` and `/a`, one at `/` that is refused, and the first of them is taken out. -/
theorem mounts_right_small :
    Run (fun s c t => Step [ext2] s c t ∧ MountsRight [ext2] s c t) []
      [.mount (some ()) [47] [101, 120, 116, 50], .mount (some ()) [47, 97] [101, 120, 116, 50],
        .mount (some ()) [47] [101, 120, 116, 50], .umount [47]] [(⟨[47, 97], ()⟩, [47, 97])] := by
  refine (mounts_right_iff fun fs hfs f hf => ?_).mpr ?_
  · obtain rfl := List.mem_singleton.mp hfs
    exact (Option.some.inj hf).symm
  · have hroot : Run (Guarded (Fits [ext2]) (Step [ext2])) []
        [.mount (some ()) [47] [101, 120, 116, 50]] [(⟨[47], ()⟩, [47])] :=
      .snoc .nil ⟨.inl (by decide), .mounted rfl⟩
    have hboth : Run (Guarded (Fits [ext2]) (Step [ext2])) []
        [.mount (some ()) [47] [101, 120, 116, 50], .mount (some ()) [47, 97] [101, 120, 116, 50]]
        [(⟨[47, 97], ()⟩, [47, 97]), (⟨[47], ()⟩, [47])] :=
      .snoc hroot ⟨.inl (by decide), .mounted rfl⟩
    have hrefused := Run.snoc (l := Call.mount (some ()) [47] [101, 120, 116, 50]) hboth
      ⟨.inl (by decide), .refused (by decide)⟩
    exact .snoc hrefused ⟨trivial, .umounted rfl⟩

/-- A mount at a path of 64 bytes cannot be undone. -/
theorem umount_long :
    (mount [ext2] (some ()) (List.replicate 64 47) [101, 120, 116, 50] []).1 = 0 ∧
      (umount (List.replicate 64 47)
        (mount [ext2] (some ()) (List.replicate 64 47) [101, 120, 116, 50] []).2).1 = -2 := by
  decide

end InfoKernel.Vfs
