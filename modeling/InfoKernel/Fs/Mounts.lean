import InfoKernel.Fs.Paths

/-!
# Mount points

`vfs.cc`: the list of mounts, and which of them a path belongs to.  `FindMountPoint` looks for the
mount with the longest path that is a prefix of the path, byte by byte; it does not look at what
stands behind the prefix, so that a mount at `/a` is taken for the path `/ab`.

`mountPoint_right_iff` says for which mounts and paths it is right: those where no such prefix is
longer than all that end at a component of the path.  Then `ExtractRelativePath` gives the other
components, but for a buffer of two bytes and the path `/`, where it leaves the end of the string
out.
-/

namespace InfoKernel.Vfs

open Ext2 (slash components Bytes copyIn)

variable {α : Type}

/-- `MountFs`, with what its file system has put into `private_data`. -/
structure MountFs (α : Type) where
  path : List UInt8
  privateData : α
  deriving DecidableEq

/-! ## `FindMountPoint` -/

/-- The loop of `FindMountPoint`, with `best_match` and `best_len`. -/
def findFrom (path : List UInt8) :
    List (MountFs α) → Option (MountFs α) → Nat → Option (MountFs α)
  | [], best, _ => best
  | current :: next, best, bestLen =>
      if current.path <+: path then
        if current.path.length > bestLen then
          findFrom path next (some current) current.path.length
        else
          findFrom path next best bestLen
      else
        findFrom path next best bestLen

/-- `vfs::FindMountPoint` -/
def findMountPoint (mounts : List (MountFs α)) (path : List UInt8) : Option (MountFs α) :=
  if path.head? ≠ some slash then none else findFrom path mounts none 0

/-! ## `ExtractRelativePath` -/

/-- `strncpy` -/
def strncpy (dst : Bytes) (src : List UInt8) (n : Nat) : Bytes :=
  fun i => if i < n then src.getD i 0 else dst i

/-- `if (*rel == '/') rel++;` -/
def dropSlash (rel : List UInt8) : List UInt8 := if rel.head? = some slash then rel.tail else rel

/-- `vfs::ExtractRelativePath`: what it leaves in the buffer. -/
def extractRelativePath (mount : MountFs α) (fullPath : List UInt8) (relPath : Bytes)
    (relPathLen : Nat) : Bytes :=
  let mountLen := mount.path.length
  if mountLen = 1 ∧ mount.path.head? = some slash ∧ fullPath.length = 1 then
    strncpy relPath [slash] (sub64 relPathLen 1)
  else
    let rel := dropSlash (fullPath.drop mountLen)
    if rel = [] then
      Function.update (Function.update relPath 0 slash) 1 0
    else
      let copyLen := sub64 relPathLen 1
      let copyLen := if rel.length < copyLen then rel.length else copyLen
      Function.update (copyIn relPath 0 copyLen fun i => rel.getD i 0) copyLen 0

/-! ## What a mount covers -/

/-- The mount path is a prefix of the path by components. -/
def Covers (mountPath path : List UInt8) : Prop :=
  mountPath = [slash] ∨ mountPath = path ∨ mountPath ++ [slash] <+: path

instance (mountPath path : List UInt8) : Decidable (Covers mountPath path) :=
  inferInstanceAs (Decidable (_ ∨ _ ∨ _))

/-- The mount with the longest path that covers the path. -/
def Longest (mounts : List (MountFs α)) (path : List UInt8) (m : MountFs α) : Prop :=
  m ∈ mounts ∧ Covers m.path path ∧
    ∀ m' ∈ mounts, Covers m'.path path → m'.path.length ≤ m.path.length

/-- The names of a path. -/
def names (path : List UInt8) : List (List UInt8) := (components path).filter (· ≠ [])

/-- What is behind the mount path, without a slash in front; the slash when that is nothing. -/
def restOf (mountPath path : List UInt8) : List UInt8 :=
  if dropSlash (path.drop mountPath.length) = [] then [slash]
  else dropSlash (path.drop mountPath.length)

/-- The first `len` bytes of the buffer hold the string `x`. -/
structure Holds (buf : Bytes) (len : Nat) (x : List UInt8) : Prop where
  lt : x.length < len
  text {i : Nat} (h : i < x.length) : buf i = x[i]
  last : buf x.length = 0
  noNul : 0 ∉ x

section Names

variable {p c : List UInt8}

/-- **A slash parts the names** of the path in front of it from those of the path behind it. -/
theorem components_slash (p c : List UInt8) :
    (p = [] ∧ components (p ++ slash :: c) = [] :: components c) ∨
      ∃ first ds ds', components p = first :: ds ∧ components (p ++ slash :: c) = first :: ds' ∧
        ds'.filter (· ≠ []) = ds.filter (· ≠ []) ++ names c := by
  induction p with
  | nil =>
      refine .inl ⟨rfl, ?_⟩
      rw [List.nil_append, components, if_pos rfl]
  | cons b p ih =>
      refine .inr ?_
      rw [List.cons_append, components, components]
      by_cases hb : b = slash
      · rw [if_pos hb, if_pos hb]
        refine ⟨[], components p, components (p ++ slash :: c), rfl, rfl, ?_⟩
        rcases ih with ⟨rfl, hnil⟩ | ⟨first, ds, ds', hp, hpc, hnames⟩
        · rw [hnil, names]
          rfl
        · rw [hp, hpc, List.filter_cons, List.filter_cons, hnames]
          split
          · rfl
          · rfl
      · rw [if_neg hb, if_neg hb]
        rcases ih with ⟨rfl, hnil⟩ | ⟨first, ds, ds', hp, hpc, hnames⟩
        · rw [hnil]
          exact ⟨[b], [], components c, rfl, rfl, rfl⟩
        · rw [hp, hpc]
          exact ⟨b :: first, ds, ds', rfl, rfl, hnames⟩

theorem names_append_slash (p c : List UInt8) : names (p ++ slash :: c) = names p ++ names c := by
  rw [names, names]
  rcases components_slash p c with ⟨rfl, hnil⟩ | ⟨first, ds, ds', hp, hpc, hnames⟩
  · rw [hnil]
    rfl
  · rw [hp, hpc, List.filter_cons, List.filter_cons, hnames]
    split
    · rfl
    · rfl

theorem names_slash (c : List UInt8) : names (slash :: c) = names c := names_append_slash [] c

/-- A slash in front of a path does not matter. -/
theorem names_dropSlash (rel : List UInt8) : names (dropSlash rel) = names rel := by
  rw [dropSlash]
  split
  · next h =>
    cases rel with
    | nil => rfl
    | cons b rel =>
        obtain rfl := Option.some.inj h
        exact (names_slash rel).symm
  · rfl

/-- **The names of a path** are those of a mount that covers it and those of the rest. -/
theorem Covers.names {m p : List UInt8} (habs : p.head? = some slash) (h : Covers m p) :
    names p = names m ++ names (restOf m p) := by
  have hrest : Vfs.names (restOf m p) = Vfs.names (p.drop m.length) := by
    rw [restOf]
    have hdrop := names_dropSlash (p.drop m.length)
    split
    · next hnil =>
      rw [← hdrop, hnil]
      rfl
    · exact hdrop
  rw [hrest]
  rcases h with rfl | rfl | ⟨c, rfl⟩
  · cases p with
    | nil => cases habs
    | cons b p =>
        obtain rfl := Option.some.inj habs
        exact names_slash p
  · rw [List.drop_length]
    exact (List.append_nil _).symm
  · rw [List.append_assoc, List.drop_left, List.singleton_append, names_append_slash, names_slash]

end Names

/-! ## What `FindMountPoint` finds -/

theorem Covers.isPrefix {m p : List UInt8} (habs : p.head? = some slash) (h : Covers m p) :
    m <+: p := by
  rcases h with rfl | rfl | h
  · cases p with
    | nil => cases habs
    | cons b p =>
        obtain rfl := Option.some.inj habs
        exact ⟨p, rfl⟩
  · exact List.prefix_rfl
  · exact (List.prefix_append m [slash]).trans h

/-- What the loop has found so far: nothing yet, or a mount with the length of its path. -/
def Best (path : List UInt8) : Option (MountFs α) → Nat → Prop
  | none, n => n = 0
  | some m, n => m.path <+: path ∧ m.path.length = n

/-- **The loop finds the mount with the longest path that is a prefix**, and nothing only when all
such paths are empty. -/
theorem findFrom_spec {path : List UInt8} (mounts : List (MountFs α)) {best : Option (MountFs α)}
    {n : Nat} (h : Best path best n) :
    ∃ n', Best path (findFrom path mounts best n) n' ∧ n ≤ n' ∧
      (∀ m ∈ mounts, m.path <+: path → m.path.length ≤ n') ∧
      ∀ m, findFrom path mounts best n = some m → m ∈ mounts ∨ best = some m := by
  induction mounts generalizing best n with
  | nil =>
      refine ⟨n, h, Nat.le_refl n, fun m hm => ?_, fun m hm => .inr hm⟩
      cases hm
  | cons current next ih =>
      rw [findFrom]
      by_cases hpre : current.path <+: path
      · rw [if_pos hpre]
        by_cases hlen : current.path.length > n
        · rw [if_pos hlen]
          obtain ⟨n', hbest, hle, hall, hmem⟩ :=
            ih (show Best path (some current) current.path.length from ⟨hpre, rfl⟩)
          refine ⟨n', hbest, by omega, fun m hm hmpre => ?_, fun m hm => .inl ?_⟩
          · rcases List.mem_cons.mp hm with rfl | hm
            · exact hle
            · exact hall m hm hmpre
          · rcases hmem m hm with hin | heq
            · exact List.mem_cons_of_mem _ hin
            · exact Option.some.inj heq ▸ List.mem_cons_self
        · rw [if_neg hlen]
          obtain ⟨n', hbest, hle, hall, hmem⟩ := ih h
          refine ⟨n', hbest, hle, fun m hm hmpre => ?_, fun m hm => ?_⟩
          · rcases List.mem_cons.mp hm with rfl | hm
            · omega
            · exact hall m hm hmpre
          · exact (hmem m hm).imp_left (List.mem_cons_of_mem _)
      · rw [if_neg hpre]
        obtain ⟨n', hbest, hle, hall, hmem⟩ := ih h
        refine ⟨n', hbest, hle, fun m hm hmpre => ?_, fun m hm => ?_⟩
        · rcases List.mem_cons.mp hm with rfl | hm
          · exact absurd hmpre hpre
          · exact hall m hm hmpre
        · exact (hmem m hm).imp_left (List.mem_cons_of_mem _)

/-- `FindMountPoint` returns the longest mount that covers the path, and nothing when there is
none. -/
def FindsRight (mounts : List (MountFs α)) (path : List UInt8) : Prop :=
  (∀ m, findMountPoint mounts path = some m ↔ Longest mounts path m) ∧
    (findMountPoint mounts path = none ↔ ∀ m ∈ mounts, ¬ Covers m.path path)

/-- No mount path that is a prefix of the path, but does not cover it, is as long as all those that
cover it. -/
def PrefixesCovered (mounts : List (MountFs α)) (path : List UInt8) : Prop :=
  ∀ m ∈ mounts, m.path <+: path → ¬ Covers m.path path →
    ∃ m' ∈ mounts, Covers m'.path path ∧ m.path.length < m'.path.length

instance (mounts : List (MountFs α)) (path : List UInt8) :
    Decidable (PrefixesCovered mounts path) :=
  inferInstanceAs (Decidable (∀ m ∈ mounts, _ → _ → ∃ m' ∈ mounts, _ ∧ _))

section Finding

variable {mounts : List (MountFs α)} {p : List UInt8} (habs : p.head? = some slash)
  (hmounts : ∀ m ∈ mounts, m.path.head? = some slash)

include habs hmounts

theorem findMountPoint_cases :
    (findMountPoint mounts p = none ∧ ∀ m ∈ mounts, ¬ m.path <+: p) ∨
      ∃ m ∈ mounts, findMountPoint mounts p = some m ∧ m.path <+: p ∧
        ∀ m' ∈ mounts, m'.path <+: p → m'.path.length ≤ m.path.length := by
  have hfind : findMountPoint mounts p = findFrom p mounts none 0 := by
    rw [findMountPoint, if_neg (not_not.mpr habs)]
  have hnone : Best p (none : Option (MountFs α)) 0 := rfl
  obtain ⟨n, hbest, -, hall, hmem⟩ := findFrom_spec mounts hnone
  rw [hfind]
  cases hrun : findFrom p mounts none 0 with
  | none =>
      rw [hrun] at hbest
      refine .inl ⟨rfl, fun m hm hpre => ?_⟩
      have hle := hall m hm hpre
      rw [show n = 0 from hbest, Nat.le_zero, List.length_eq_zero_iff] at hle
      have habs' := hmounts m hm
      rw [hle] at habs'
      cases habs'
  | some m =>
      rw [hrun] at hbest
      obtain ⟨hpre, rfl⟩ := hbest
      rcases hmem m hrun with hm | heq
      · exact .inr ⟨m, hm, rfl, hpre, hall⟩
      · cases heq

variable (hdistinct : (mounts.map MountFs.path).Nodup)

include hdistinct

omit habs hmounts in
/-- Two mounts with prefixes of the same length are the same. -/
theorem eq_of_prefixes {m m' : MountFs α} (hm : m ∈ mounts) (hm' : m' ∈ mounts)
    (hpre : m.path <+: p) (hpre' : m'.path <+: p) (hlen : m.path.length = m'.path.length) :
    m = m' := by
  refine List.inj_on_of_nodup_map hdistinct hm hm' ?_
  exact (List.prefix_of_prefix_length_le hpre hpre' (Nat.le_of_eq hlen)).eq_of_length hlen

theorem findsRight_iff : FindsRight mounts p ↔ PrefixesCovered mounts p := by
  constructor
  · intro hright m hm hpre hnot
    rcases findMountPoint_cases habs hmounts with ⟨-, hnone⟩ | ⟨r, hr, hfind, hrpre, hmax⟩
    · exact absurd hpre (hnone m hm)
    · have hcovers := ((hright.1 r).mp hfind).2.1
      refine ⟨r, hr, hcovers, Nat.lt_of_le_of_ne (hmax m hm hpre) fun hlen => hnot ?_⟩
      rwa [eq_of_prefixes hdistinct hm hr hpre hrpre hlen]
  · intro hcond
    rcases findMountPoint_cases habs hmounts with ⟨hfind, hnone⟩ | ⟨r, hr, hfind, hrpre, hmax⟩
    · have hno : ∀ m ∈ mounts, ¬ Covers m.path p := fun m hm hc =>
        hnone m hm (hc.isPrefix habs)
      refine ⟨fun m => ?_, iff_of_true hfind hno⟩
      rw [hfind]
      exact iff_of_false (fun h => by cases h) fun h => hno m h.1 h.2.1
    · -- the prefix that has been found covers the path
      have hcovers : Covers r.path p := by
        by_contra hnot
        obtain ⟨m', hm', hc, hlt⟩ := hcond r hr hrpre hnot
        exact Nat.not_lt_of_le (hmax m' hm' (hc.isPrefix habs)) hlt
      have hlongest : Longest mounts p r :=
        ⟨hr, hcovers, fun m' hm' hc => hmax m' hm' (hc.isPrefix habs)⟩
      refine ⟨fun m => ?_, ?_⟩
      · rw [hfind, Option.some.injEq]
        constructor
        · rintro rfl
          exact hlongest
        · intro h
          exact eq_of_prefixes hdistinct hr h.1 hrpre (h.2.1.isPrefix habs)
            (Nat.le_antisymm (h.2.2 r hr hcovers) (hlongest.2.2 m h.1 h.2.1))
      · rw [hfind]
        exact iff_of_false (fun h => by cases h) fun h => h r hr hcovers

end Finding

/-! ## What `ExtractRelativePath` gives -/

/-- The string in the buffer has the names of the path behind those of the mount. -/
def GivesRest (m : MountFs α) (path : List UInt8) (buf : Bytes) (len : Nat) : Prop :=
  ∃ x, Holds (extractRelativePath m path buf len) len x ∧ names path = names m.path ++ names x

section Extracting

variable {m : MountFs α} {p : List UInt8} {buf : Bytes} {len : Nat}

theorem sub64_one (hpos : 0 < len) (hlen : len < 2 ^ 64) : sub64 len 1 = len - 1 := by
  simp only [sub64, u64]
  omega

theorem eq_singleton_of_head {l : List UInt8} {b : UInt8} (hlen : l.length = 1)
    (hhead : l.head? = some b) : l = [b] := by
  obtain ⟨a, rfl⟩ := List.length_eq_one_iff.mp hlen
  rw [Option.some.inj hhead]

theorem extractRelativePath_of_root (hm : m.path = [slash]) (hlen : 1 < len)
    (hlen' : len < 2 ^ 64) :
    extractRelativePath m [slash] buf len = strncpy buf [slash] (len - 1) := by
  rw [extractRelativePath, hm, if_pos ⟨rfl, rfl, rfl⟩, sub64_one (Nat.zero_lt_of_lt hlen) hlen']

/-- The rest of the path is what is put into the buffer, where the end of the string is not left
out. -/
theorem extractRelativePath_holds (habs : p.head? = some slash) (hnul : 0 ∉ p) (hlen : len < 2 ^ 64)
    (hfit : (restOf m.path p).length < len)
    (hroot : m.path = [slash] → p = [slash] → len = 2 → buf 1 = 0) :
    Holds (extractRelativePath m p buf len) len (restOf m.path p) := by
  have hnul' : 0 ∉ restOf m.path p := by
    have hdrop : 0 ∉ p.drop m.path.length := fun h => hnul (List.mem_of_mem_drop h)
    have hrel : 0 ∉ dropSlash (p.drop m.path.length) := by
      rw [dropSlash]
      split
      · exact fun h => hdrop (List.mem_of_mem_tail h)
      · exact hdrop
    rw [restOf]
    split
    · decide
    · exact hrel
  by_cases hboth : m.path.length = 1 ∧ m.path.head? = some slash ∧ p.length = 1
  · -- both paths are the slash
    obtain ⟨hone, hhead, hone'⟩ := hboth
    have hm : m.path = [slash] := eq_singleton_of_head hone hhead
    have hp : p = [slash] := eq_singleton_of_head hone' habs
    have hrest : restOf m.path p = [slash] := by rw [hm, hp]; rfl
    rw [hrest] at hfit hnul' ⊢
    rw [hp, extractRelativePath_of_root hm hfit hlen]
    refine ⟨hfit, fun {i} hi => ?_, ?_, hnul'⟩
    · obtain rfl : i = 0 := Nat.lt_one_iff.mp hi
      exact if_pos (by simp only [List.length_singleton] at hfit; omega)
    · rw [strncpy]
      split
      · rfl
      · next h => exact hroot hm hp (by simp only [List.length_singleton] at hfit h; omega)
  · rw [extractRelativePath, if_neg hboth]
    simp only []
    by_cases hrel : dropSlash (p.drop m.path.length) = []
    · have hrest : restOf m.path p = [slash] := by rw [restOf, if_pos hrel]
      rw [hrest] at hfit hnul' ⊢
      rw [if_pos hrel]
      refine ⟨hfit, fun {i} hi => ?_, ?_, hnul'⟩
      · obtain rfl : i = 0 := Nat.lt_one_iff.mp hi
        rfl
      · rfl
    · have hrest : restOf m.path p = dropSlash (p.drop m.path.length) := by rw [restOf, if_neg hrel]
      rw [hrest] at hfit hnul' ⊢
      generalize dropSlash (p.drop m.path.length) = rel at hfit hnul' hrel ⊢
      have hcopy : (if rel.length < sub64 len 1 then rel.length else sub64 len 1) = rel.length := by
        rw [sub64_one (by omega) hlen]
        split
        · rfl
        · omega
      rw [if_neg hrel, hcopy]
      refine ⟨hfit, fun {i} hi => ?_, Function.update_self .., hnul'⟩
      have hbyte : copyIn buf 0 rel.length (fun i => rel.getD i 0) (0 + i) = rel.getD i 0 :=
        Ext2.copyIn_of_mem hi
      rw [Nat.zero_add] at hbyte
      rw [Function.update_of_ne (Nat.ne_of_lt hi), hbyte]
      exact List.getD_eq_getElem rel 0 hi

end Extracting

/-- **When a path finds its mount.**  For mounts with distinct absolute paths and an absolute path,
`FindMountPoint` returns the mount with the longest path that covers it, and `ExtractRelativePath`
then gives the other names of the path when they fit the buffer, exactly when each mount path that
is a prefix without covering the path is shorter than one that covers it, and the buffer of the path
`/` does not have two bytes with something else in the second. -/
theorem mountPoint_right_iff {mounts : List (MountFs α)} {p : List UInt8} {buf : Bytes} {len : Nat}
    (habs : p.head? = some slash) (hnul : 0 ∉ p)
    (hmounts : ∀ m ∈ mounts, m.path.head? = some slash)
    (hdistinct : (mounts.map MountFs.path).Nodup) (hlen : len < 2 ^ 64) :
    (FindsRight mounts p ∧ ∀ m, findMountPoint mounts p = some m →
        (restOf m.path p).length < len → GivesRest m p buf len) ↔
      PrefixesCovered mounts p ∧
        ((∃ m ∈ mounts, m.path = [slash]) → p = [slash] → len = 2 → buf 1 = 0) := by
  rw [findsRight_iff habs hmounts hdistinct]
  refine and_congr_right fun hcond => ?_
  obtain ⟨hfind, -⟩ := (findsRight_iff habs hmounts hdistinct).mpr hcond
  constructor
  · rintro hgives ⟨m, hm, hroot⟩ rfl rfl
    have hlongest : Longest mounts [slash] m := by
      refine ⟨hm, .inl hroot, fun m' _ hc => ?_⟩
      rw [hroot]
      exact (hc.isPrefix habs).length_le
    have hrest : restOf m.path [slash] = [slash] := by
      rw [hroot]
      rfl
    obtain ⟨x, hx, -⟩ := hgives m ((hfind m).mpr hlongest) (by rw [hrest]; decide)
    rw [extractRelativePath_of_root hroot (by decide) hlen] at hx
    -- the string ends in one of the two bytes, and the first is a slash
    have hlast := hx.last
    have hlt := hx.lt
    rcases Nat.lt_succ_iff_lt_or_eq.mp hlt with h | h
    · rw [Nat.lt_one_iff.mp h] at hlast
      exact absurd (show slash = 0 from hlast) (by decide)
    · rw [h] at hlast
      exact hlast
  · intro hroot m hm hfit
    obtain ⟨hmem, hcovers, -⟩ := (hfind m).mp hm
    exact ⟨_, extractRelativePath_holds habs hnul hlen hfit fun hm => hroot ⟨m, hmem, hm⟩,
      hcovers.names habs⟩

/-- A mount at `/a` and one at the root. -/
def twoMounts : List (MountFs Unit) := [⟨[47, 97], ()⟩, ⟨[47], ()⟩]

/-- The path `/a/b` finds the mount at `/a`. -/
theorem mountPoint_right_small : FindsRight twoMounts [47, 97, 47, 98] ∧
    ∀ m, findMountPoint twoMounts [47, 97, 47, 98] = some m →
      (restOf m.path [47, 97, 47, 98]).length < 256 →
        GivesRest m [47, 97, 47, 98] (fun _ => 0) 256 :=
  (mountPoint_right_iff rfl (by decide) (by decide) (by decide) (by decide)).mpr
    ⟨by decide, fun _ h => absurd h (by decide)⟩

/-- The path `/ab` finds the mount at `/a` as well. -/
theorem mountPoint_wrong : ¬ ∀ mounts : List (MountFs Unit), ∀ p : List UInt8,
    p.head? = some slash → 0 ∉ p → (∀ m ∈ mounts, m.path.head? = some slash) →
    (mounts.map MountFs.path).Nodup → FindsRight mounts p := by
  intro hall
  obtain ⟨hfind, -⟩ := hall twoMounts [47, 97, 98] rfl (by decide) (by decide) (by decide)
  have hlongest := (hfind ⟨[47, 97], ()⟩).mp (by decide)
  exact absurd hlongest.2.1 (by decide)

end InfoKernel.Vfs
