import InfoKernel.Fs.Listing
import Mathlib.Data.List.TakeWhile

/-!
# Looking up paths

`LookupPath` takes a path apart while it follows it.  Here the two are separate: `components` are
the names of a path, and `Follows` says where a list of names leads from an inode on, one
`FindEntry` and one `ReadInode` for each of them.

On a volume whose directories are well formed, every path leads somewhere, and `LookupPath` returns
what its components lead to (`Tree.yields_iff`).  Following one list of names behind another is
following both (`Follows.append_iff`); so a path is looked up by looking up its last component in
what the rest of it leads to, and a slash at its end does not matter (`lookupPath_join`).
-/

namespace InfoKernel.Ext2

open Lib

/-! ## The names of a path -/

/-- The names between the slashes.  Behind a slash at the end there is none. -/
def components : List UInt8 → List (List UInt8)
  | [] => []
  | b :: rest =>
      if b = slash then
        [] :: components rest
      else
        match components rest with
        | [] => [[b]]
        | c :: cs => (b :: c) :: cs

section Components

variable {p c : List UInt8}

theorem components_eq_nil_iff : components p = [] ↔ p = [] := by
  cases p with
  | nil => simp [components]
  | cons b rest =>
      rw [components]
      split
      · simp
      · split <;> simp

/-- The first name of a path, and the others. -/
theorem components_of_ne_nil (hp : p ≠ []) : components p =
    p.takeWhile (· ≠ slash) :: components (p.dropWhile (· ≠ slash)).tail := by
  induction p with
  | nil => exact absurd rfl hp
  | cons b rest ih =>
      rw [components]
      by_cases hb : b = slash
      · rw [if_pos hb, List.takeWhile_cons_of_neg (by simpa using hb),
          List.dropWhile_cons_of_neg (by simpa using hb)]
        rfl
      · rw [if_neg hb, List.takeWhile_cons_of_pos (by simpa using hb),
          List.dropWhile_cons_of_pos (by simpa using hb)]
        cases rest with
        | nil => rfl
        | cons b' rest => rw [ih (List.cons_ne_nil _ _)]

/-- What is left of a path with a first name. -/
theorem components_eq_cons {cs : List (List UInt8)} (h : components p = c :: cs) :
    p ≠ [] ∧ p.takeWhile (· ≠ slash) = c ∧
      components (p.dropWhile (· ≠ slash)).tail = cs := by
  have hne : p ≠ [] := fun heq => by
    rw [components_eq_nil_iff.mpr heq] at h
    cases h
  rw [components_of_ne_nil hne] at h
  injection h with hname hcs
  exact ⟨hne, hname, hcs⟩

theorem components_of_not_mem (hc : c ≠ []) (hslash : slash ∉ c) : components c = [c] := by
  have hall : ∀ b ∈ c, decide (b ≠ slash) = true := fun b hb =>
    decide_eq_true fun heq => hslash (heq ▸ hb)
  rw [components_of_ne_nil hc, List.takeWhile_eq_self_iff.mpr hall,
    List.dropWhile_eq_nil_iff.mpr hall, List.tail_nil, components]

/-- **A slash joins the names** of the path before it and of the path behind it. -/
theorem components_append (hp : p ≠ []) (hend : p.getLast? ≠ some slash) :
    components (p ++ slash :: c) = components p ++ components c := by
  induction p with
  | nil => exact absurd rfl hp
  | cons b rest ih =>
      rw [List.cons_append, components, components]
      cases rest with
      | nil =>
          have hb : b ≠ slash := fun heq => hend (by rw [heq]; rfl)
          have hslash : components (slash :: c) = [] :: components c := if_pos rfl
          rw [if_neg hb, if_neg hb, List.nil_append, hslash]
          rfl
      | cons b' rest =>
          have hrest := ih (List.cons_ne_nil _ _) (by rwa [List.getLast?_cons_cons] at hend)
          rw [hrest]
          by_cases hb : b = slash
          · rw [if_pos hb, if_pos hb]
            rfl
          · rw [if_neg hb, if_neg hb]
            cases hcs : components (b' :: rest) with
            | nil => exact absurd (components_eq_nil_iff.mp hcs) (List.cons_ne_nil _ _)
            | cons c cs => rfl

/-- Between two slashes there is an empty name. -/
theorem components_append_of_slash (hend : p.getLast? = some slash) :
    components (p ++ slash :: c) = components p ++ [] :: components c := by
  induction p with
  | nil => cases hend
  | cons b rest ih =>
      have hslash : components (slash :: c) = [] :: components c := if_pos rfl
      rw [List.cons_append, components, components]
      cases rest with
      | nil =>
          obtain rfl : b = slash := Option.some.inj hend
          rw [if_pos rfl, if_pos rfl, List.nil_append, hslash]
          rfl
      | cons b' rest =>
          rw [ih (by rwa [List.getLast?_cons_cons] at hend)]
          by_cases hb : b = slash
          · rw [if_pos hb, if_pos hb]
            rfl
          · rw [if_neg hb, if_neg hb]
            cases hcs : components (b' :: rest) with
            | nil => exact absurd (components_eq_nil_iff.mp hcs) (List.cons_ne_nil _ _)
            | cons c cs => rfl

/-- A path is cut at its last slash. -/
theorem eq_of_splitLast {path p c : List UInt8} (h : splitLast path = some (p, c)) :
    path = p ++ slash :: c ∧ slash ∉ c := by
  rw [splitLast] at h
  split at h
  · rename_i hmem
    obtain ⟨hp, hc⟩ := Prod.mk.inj (Option.some.inj h)
    have hdrop : path.reverse.dropWhile (· ≠ slash) ≠ [] := by
      rw [ne_eq, List.dropWhile_eq_nil_iff]
      intro hall
      exact absurd (hall slash (List.mem_reverse.mpr hmem)) (by simp)
    obtain ⟨b, rest, hrest⟩ := List.exists_cons_of_ne_nil hdrop
    have hb : b = slash := by
      have hhead := List.head_dropWhile_not (· ≠ slash) hdrop
      simp only [hrest, List.head_cons] at hhead
      simpa using hhead
    have hpath : path = rest.reverse ++ slash :: c := by
      have hsplit := List.takeWhile_append_dropWhile (p := (· ≠ slash)) (l := path.reverse)
      rw [hrest, hb] at hsplit
      have hrev := congrArg List.reverse hsplit
      rw [List.reverse_append, List.reverse_cons, List.reverse_reverse, hc] at hrev
      rw [← hrev, List.append_assoc]
      rfl
    refine ⟨?_, ?_⟩
    · have hlen : path.length - c.length - 1 = rest.reverse.length := by
        rw [hpath]
        simp only [List.length_append, List.length_cons]
        omega
      rw [hc, hlen, hpath, List.take_left] at hp
      rw [← hp]
      exact hpath
    · rw [← hc, List.mem_reverse]
      intro hin
      exact absurd (List.mem_takeWhile_imp hin) (by simp)
  · cases h

end Components

/-! ## Following names -/

variable {e : Env} {s t : State} {pos pos' : Nat × Inode} {cs ds : List (List UInt8)}
  {r r' : Except Int (Nat × Inode)}

/-- From inode `pos` on, given by its number and its bytes, the names lead to `r`: an inode, or the
code of `LookupPath` for a name that is too long or not there. -/
inductive Follows (e : Env) (s : State) :
    Nat × Inode → List (List UInt8) → Except Int (Nat × Inode) → Prop
  | nil {pos : Nat × Inode} : Follows e s pos [] (.ok pos)
  | long {pos : Nat × Inode} {c : List UInt8} {cs : List (List UInt8)} : 256 ≤ c.length →
      Follows e s pos (c :: cs) (.error (-4))
  | missing {pos : Nat × Inode} {c : List UInt8} {cs : List (List UInt8)} : c.length < 256 →
      Answers e pos.2 s c none → Follows e s pos (c :: cs) (.error (-5))
  | step {pos : Nat × Inode} {c : List UInt8} {cs : List (List UInt8)} {m : Nat} {inode : Inode}
      {t : State} {r : Except Int (Nat × Inode)} : c.length < 256 →
      Answers e pos.2 s c (some m) → readInode e m s = .ok (.ok inode, t) →
      Follows e s (m, inode) cs r → Follows e s pos (c :: cs) r

namespace Follows

theorem nil_iff : Follows e s pos [] r ↔ r = .ok pos := by
  constructor
  · intro h
    cases h
    rfl
  · rintro rfl
    exact .nil

/-- Names lead to one place only. -/
theorem unique (h : Follows e s pos cs r) (h' : Follows e s pos cs r') : r = r' := by
  induction h with
  | nil => exact (nil_iff.mp h').symm
  | long hlong =>
      cases h' with
      | long _ => rfl
      | missing hshort _ => omega
      | step hshort _ _ _ => omega
  | missing hshort hnone =>
      cases h' with
      | long hlong => omega
      | missing _ _ => rfl
      | step _ hsome _ _ => cases hnone.unique hsome
  | step hshort hsome hread _ ih =>
      cases h' with
      | long hlong => omega
      | missing _ hnone => cases hnone.unique hsome
      | step _ hsome' hread' hrest =>
          cases hsome.unique hsome'
          rw [hread] at hread'
          cases hread'
          exact ih hrest

/-- **Names behind others** are followed from where the others lead. -/
theorem append_iff : Follows e s pos (cs ++ ds) r ↔
    (∃ pos', Follows e s pos cs (.ok pos') ∧ Follows e s pos' ds r) ∨
      ∃ code, Follows e s pos cs (.error code) ∧ r = .error code := by
  induction cs generalizing pos with
  | nil =>
      rw [List.nil_append]
      constructor
      · exact fun h => .inl ⟨pos, .nil, h⟩
      · rintro (⟨pos', h, hrest⟩ | ⟨code, h, -⟩)
        · cases h
          exact hrest
        · cases h
  | cons c cs ih =>
      rw [List.cons_append]
      constructor
      · intro h
        cases h with
        | long hlong => exact .inr ⟨-4, .long hlong, rfl⟩
        | missing hshort hnone => exact .inr ⟨-5, .missing hshort hnone, rfl⟩
        | step hshort hsome hread hrest =>
            rcases ih.mp hrest with ⟨pos', hcs, hds⟩ | ⟨code, hcs, hr⟩
            · exact .inl ⟨pos', .step hshort hsome hread hcs, hds⟩
            · exact .inr ⟨code, .step hshort hsome hread hcs, hr⟩
      · rintro (⟨pos', h, hrest⟩ | ⟨code, h, rfl⟩)
        · cases h with
          | step hshort hsome hread hcs =>
              exact .step hshort hsome hread (ih.mpr (.inl ⟨pos', hcs, hrest⟩))
        · cases h with
          | long hlong => exact .long hlong
          | missing hshort hnone => exact .missing hshort hnone
          | step hshort hsome hread hcs =>
              exact .step hshort hsome hread (ih.mpr (.inr ⟨code, hcs, rfl⟩))

/-- One name, that leads to an inode. -/
theorem singleton_ok_iff {c : List UInt8} (hc : c.length < 256) :
    Follows e s pos [c] (.ok pos') ↔
      Answers e pos.2 s c (some pos'.1) ∧ ∃ t, readInode e pos'.1 s = .ok (.ok pos'.2, t) := by
  constructor
  · intro h
    cases h with
    | step _ hsome hread hrest =>
        cases hrest
        exact ⟨hsome, _, hread⟩
  · rintro ⟨hsome, t, hread⟩
    exact .step hc hsome hread .nil

end Follows

/-! ## `LookupPath` -/

section Loop

variable (he : e.Reliable)

include he

omit he in
/-- A turn of the loop at a path that is not empty. -/
theorem lookupTurn_of_ne_nil {path : List UInt8} (hne : path ≠ []) {n : Nat} :
    lookupTurn e n (path, pos) = (do
      if (path.takeWhile (· ≠ slash)).length ≥ 256 then
        pure (.leave (.error (-4)))
      else
        match ← findEntry e pos.2 (path.takeWhile (· ≠ slash)) n with
        | .error _ => pure (.leave (.error (-5)))
        | .ok entry =>
            match ← readInode e (direntInode entry 0) with
            | .error _ => pure (.leave (.error (-3)))
            | .ok inode =>
                if path.dropWhile (· ≠ slash) = [] then
                  pure (.leave (.ok (direntInode entry 0)))
                else
                  pure (.again ((path.dropWhile (· ≠ slash)).tail, direntInode entry 0,
                    inode))) := by
  obtain ⟨num, inode⟩ := pos
  cases path with
  | nil => exact absurd rfl hne
  | cons b rest => rfl

/-- What `FindEntry` answers, at any time. -/
theorem Answers.run_at {inode : Inode} {x : List UInt8} {a : Option Nat} (h : Answers e inode s x a)
    {n : Nat} (hn : s.super.blockSize < n) (c : Nat) : ∃ out c',
      findEntry e inode x n (s.at c) = .ok (out, s.at c') ∧ found out = a := by
  obtain ⟨out, c₀, hrun, hout⟩ := h n hn
  obtain ⟨-, hagain⟩ := (looks_findEntry he inode x n).again hrun
  obtain ⟨c', hc'⟩ := hagain c
  exact ⟨out, c', hc', hout⟩

/-- **The loop of `LookupPath` follows the names of the path.** -/
theorem Follows.loop (h : Follows e s pos cs r) {path : List UInt8} (hpath : components path = cs)
    {n k : Nat} (hn : s.super.blockSize < n) (hfuel : path.length < k) (c : Nat) :
    ∃ c', Program.loop (lookupTurn e n) .outOfFuel k (path, pos) (s.at c) =
      .ok (r.map Prod.fst, s.at c') := by
  obtain ⟨k, rfl⟩ : ∃ j, k = j + 1 := ⟨k - 1, by omega⟩
  induction h generalizing path k c with
  | nil =>
      rw [components_eq_nil_iff.mp hpath]
      exact ⟨c, rfl⟩
  | @long pos name cs hlong =>
      obtain ⟨hne, hname, -⟩ := components_eq_cons hpath
      refine ⟨c, ?_⟩
      rw [Program.loop, bind_apply, lookupTurn_of_ne_nil hne, hname, if_pos hlong]
      rfl
  | @missing pos name cs hshort hnone =>
      obtain ⟨hne, hname, -⟩ := components_eq_cons hpath
      obtain ⟨out, c₁, hfind, hout⟩ := hnone.run_at he hn c
      obtain ⟨code, rfl⟩ : ∃ code, out = .error code := by
        cases out with
        | error code => exact ⟨code, rfl⟩
        | ok entry => cases hout
      refine ⟨c₁, ?_⟩
      rw [Program.loop, bind_apply, lookupTurn_of_ne_nil hne, hname, if_neg (by omega),
        bind_apply_of_ok hfind]
      rfl
  | @step pos name cs m inode t r hshort hsome hread hrest ih =>
      obtain ⟨hne, hname, hcs⟩ := components_eq_cons hpath
      obtain ⟨out, c₁, hfind, hout⟩ := hsome.run_at he hn c
      obtain ⟨entry, rfl, hentry⟩ : ∃ entry, out = .ok entry ∧ direntInode entry 0 = m := by
        cases out with
        | error code => cases hout
        | ok entry => exact ⟨entry, rfl, Option.some.inj hout⟩
      obtain ⟨-, hagain⟩ := (looks_readInode he m).again hread
      obtain ⟨c₂, hread'⟩ := hagain c₁
      have hturn :
        lookupTurn e n (path, pos) (s.at c) = .ok (if path.dropWhile (· ≠ slash) = [] then
          .leave (.ok m) else .again ((path.dropWhile (· ≠ slash)).tail, m, inode), s.at c₂) := by
        rw [lookupTurn_of_ne_nil hne, hname, if_neg (by omega), bind_apply_of_ok hfind]
        simp only [hentry]
        rw [bind_apply_of_ok hread']
        simp only []
        split <;> rfl
      rw [Program.loop, bind_apply_of_ok hturn]
      by_cases hlast : path.dropWhile (· ≠ slash) = []
      · rw [if_pos hlast]
        rw [hlast, List.tail_nil, components] at hcs
        subst hcs
        rw [nil_iff.mp hrest]
        exact ⟨c₂, rfl⟩
      · rw [if_neg hlast]
        have hle := (List.dropWhile_suffix (l := path) (· ≠ slash)).length_le
        have hpos := List.length_pos_iff.mpr hlast
        have hlen : (path.dropWhile (· ≠ slash)).tail.length < k := by
          rw [List.length_tail]
          omega
        obtain ⟨k, rfl⟩ : ∃ j, k = j + 1 := ⟨k - 1, by omega⟩
        exact ih hcs c₂ k hlen

/-- **What `LookupPath` returns** is what the names of the path lead to from the root on. -/
theorem Follows.lookupPath {root : Inode} (hroot : readInode e rootIno s = .ok (.ok root, t))
    {path : List UInt8} (habs : path.head? = some slash)
    (h : Follows e s (rootIno, root) (components path.tail) r) {n : Nat}
    (hn : s.super.blockSize + path.length < n) :
    ∃ c, lookupPath e path n s = .ok (r.map Prod.fst, s.at c) := by
  obtain ⟨ht, -⟩ := (looks_readInode he rootIno).again hroot
  obtain ⟨c, hloop⟩ := h.loop he rfl (n := n) (k := n) (by omega)
    (by rw [List.length_tail]; omega) t.clock
  refine ⟨c, ?_⟩
  rw [Ext2.lookupPath, if_neg (not_not.mpr habs), bind_apply_of_ok hroot, ht]
  exact hloop

end Loop

/-! ## Volumes with well-formed directories -/

/-- A path leads to inode `n`. -/
inductive Named (e : Env) (s : State) : Nat → Prop
  | root : Named e s rootIno
  | entry {n m : Nat} {x : List UInt8} {inode : Inode} {t : State} : Named e s n →
      readInode e n s = .ok (.ok inode, t) → Answers e inode s x (some m) → Named e s m

/-- **A volume with well-formed directories**: what a path leads to is an inode that can be read,
and a directory that it leads to is well formed. -/
structure Tree (e : Env) (s : State) : Prop where
  size_pos : 0 < s.super.blockSize
  readable {n : Nat} : Named e s n → ∃ inode t, readInode e n s = .ok (.ok inode, t)
  listing {n : Nat} {inode : Inode} {t : State} : Named e s n →
    readInode e n s = .ok (.ok inode, t) → inode.isDir = true →
    ∃ os, Listing e (fun _ : Unit => inode) s () os

/-- `LookupPath` returns `r` whenever it has the fuel for a block and for the path. -/
def Yields (e : Env) (s : State) (path : List UInt8) (r : Except Int Nat) : Prop :=
  ∀ n, s.super.blockSize + path.length < n → ∃ c, lookupPath e path n s = .ok (r, s.at c)

theorem Yields.unique {path : List UInt8} {a b : Except Int Nat} (h : Yields e s path a)
    (h' : Yields e s path b) : a = b := by
  obtain ⟨c, hrun⟩ := h _ (Nat.lt_succ_self _)
  obtain ⟨c', hrun'⟩ := h' _ (Nat.lt_succ_self _)
  rw [hrun] at hrun'
  exact congrArg Prod.fst (Except.ok.inj hrun')

/-- Only paths that begin with a slash lead to inodes. -/
theorem Yields.absolute {path : List UInt8} {m : Nat} (h : Yields e s path (.ok m)) :
    path.head? = some slash := by
  by_contra hrel
  obtain ⟨c, hrun⟩ := h _ (Nat.lt_succ_self _)
  rw [lookupPath, if_pos hrel] at hrun
  cases hrun

/-- What is no directory has no entries. -/
theorem answers_of_not_dir {inode : Inode} (hdir : inode.isDir = false) (x : List UInt8) :
    Answers e inode s x none := by
  intro n _
  refine ⟨.error (-2), s.clock, ?_, rfl⟩
  rw [findEntry, bind_apply_of_ok (super_run s), hdir]
  rfl

theorem Answers.isDir {inode : Inode} {x : List UInt8} {m : Nat}
    (h : Answers e inode s x (some m)) : inode.isDir = true := by
  cases hdir : inode.isDir with
  | true => rfl
  | false => cases h.unique (answers_of_not_dir hdir x)

/-- What names lead to is named itself, and given by its bytes. -/
theorem Follows.named (h : Follows e s pos cs (.ok pos')) (hn : Named e s pos.1)
    (hread : ∃ t, readInode e pos.1 s = .ok (.ok pos.2, t)) :
    Named e s pos'.1 ∧ ∃ t, readInode e pos'.1 s = .ok (.ok pos'.2, t) := by
  generalize hr : Except.ok pos' = r at h
  induction h with
  | nil =>
      cases hr
      exact ⟨hn, hread⟩
  | long _ => cases hr
  | missing _ _ => cases hr
  | step _ hsome hinode _ ih =>
      obtain ⟨t, hread⟩ := hread
      exact ih (hn.entry hread hsome) ⟨_, hinode⟩ hr

namespace Tree

variable (hv : Tree e s) (he : e.Reliable)

include hv he

/-- In every directory that a path leads to, every name is looked up. -/
theorem answers {n : Nat} {inode : Inode} (hn : Named e s n)
    (hread : readInode e n s = .ok (.ok inode, t)) (x : List UInt8) :
    ∃ a, Answers e inode s x a := by
  cases hdir : inode.isDir with
  | false => exact ⟨none, answers_of_not_dir hdir x⟩
  | true =>
      obtain ⟨os, hd⟩ := hv.listing hn hread hdir
      exact ⟨_, hd.answers he hv.size_pos x⟩

/-- All names lead somewhere. -/
theorem follows {pos : Nat × Inode} (hn : Named e s pos.1)
    (hread : ∃ t, readInode e pos.1 s = .ok (.ok pos.2, t)) (cs : List (List UInt8)) :
    ∃ r, Follows e s pos cs r := by
  induction cs generalizing pos with
  | nil => exact ⟨_, .nil⟩
  | cons c cs ih =>
      obtain ⟨t, hread⟩ := hread
      rcases Nat.lt_or_ge c.length 256 with hshort | hlong
      · obtain ⟨a, ha⟩ := hv.answers he hn hread c
        cases a with
        | none => exact ⟨_, .missing hshort ha⟩
        | some m =>
            have hm : Named e s m := hn.entry hread ha
            obtain ⟨inode, u, hinode⟩ := hv.readable hm
            obtain ⟨r, hr⟩ := @ih (m, inode) hm ⟨u, hinode⟩
            exact ⟨r, .step hshort ha hinode hr⟩
      · exact ⟨_, .long hlong⟩

/-- **`LookupPath` returns what the names of the path lead to**, and there is something they lead
to. -/
theorem yields_iff {root : Inode} (hroot : readInode e rootIno s = .ok (.ok root, t))
    {path : List UInt8} (habs : path.head? = some slash) {a : Except Int Nat} :
    Yields e s path a ↔
      ∃ r, Follows e s (rootIno, root) (components path.tail) r ∧ r.map Prod.fst = a := by
  have hyields : ∀ {r}, Follows e s (rootIno, root) (components path.tail) r →
      Yields e s path (r.map Prod.fst) := fun hr _ hn => hr.lookupPath he hroot habs hn
  constructor
  · intro h
    obtain ⟨r, hr⟩ := @Tree.follows _ _ hv he (rootIno, root) .root ⟨t, hroot⟩
      (components path.tail)
    exact ⟨r, hr, (hyields hr).unique h⟩
  · rintro ⟨r, hr, rfl⟩
    exact hyields hr

/-- Every path leads somewhere, and what it leads to is named. -/
theorem exists_yields (p : List UInt8) :
    ∃ r, Yields e s p r ∧ ∀ m, r = .ok m → Named e s m := by
  by_cases habs : p.head? = some slash
  · obtain ⟨root, t, hroot⟩ := hv.readable .root
    have hpos : ∃ t, readInode e (rootIno, root).1 s = .ok (.ok (rootIno, root).2, t) := ⟨t, hroot⟩
    obtain ⟨r, hr⟩ := hv.follows he .root hpos (components p.tail)
    refine ⟨_, (hv.yields_iff he hroot habs).mpr ⟨r, hr, rfl⟩, fun m hm => ?_⟩
    cases r with
    | error code => cases hm
    | ok pos =>
        obtain rfl := Except.ok.inj hm
        exact (hr.named .root hpos).1
  · refine ⟨.error (-2), fun n _ => ⟨s.clock, ?_⟩, fun m hm => by cases hm⟩
    rw [lookupPath, if_pos habs]
    rfl

end Tree

/-! ## Joining paths -/

/-- The path with one name behind it. -/
def joinPath (p c : List UInt8) : List UInt8 := if p = [slash] then slash :: c else p ++ slash :: c

theorem head?_joinPath {p : List UInt8} (habs : p.head? = some slash) (c : List UInt8) :
    (joinPath p c).head? = some slash := by
  rw [joinPath]
  split
  · rfl
  · rw [List.head?_append, habs]
    rfl

/-- A path that begins with a slash and does not end in one has a name. -/
theorem tail_of_not_slash {p : List UInt8} (habs : p.head? = some slash)
    (hend : p.getLast? ≠ some slash) : p.tail ≠ [] ∧ p.tail.getLast? ≠ some slash := by
  cases p with
  | nil => cases habs
  | cons b rest =>
      obtain rfl : b = slash := Option.some.inj habs
      cases rest with
      | nil => exact absurd rfl hend
      | cons b' rest => exact ⟨List.cons_ne_nil _ _, by rwa [List.getLast?_cons_cons] at hend⟩

/-- The names of a path with one name behind it. -/
theorem components_joinPath {p c : List UInt8} (habs : p.head? = some slash)
    (hp : p = [slash] ∨ p.getLast? ≠ some slash) (hc : c ≠ []) (hslash : slash ∉ c) :
    components (joinPath p c).tail = components p.tail ++ [c] := by
  have hname := components_of_not_mem hc hslash
  by_cases hroot : p = [slash]
  · rw [joinPath, if_pos hroot, hroot, List.tail_cons, hname]
    rfl
  · obtain ⟨hne, hend⟩ := tail_of_not_slash habs (hp.resolve_left hroot)
    have hcons : p ≠ [] := fun heq => hne (by rw [heq]; rfl)
    rw [joinPath, if_neg hroot, List.tail_append_of_ne_nil hcons, components_append hne hend, hname]

section Join

variable (he : e.Reliable) (hv : Tree e s) {p c : List UInt8} (habs : p.head? = some slash)
  (hp : p = [slash] ∨ p.getLast? ≠ some slash) (hc : c ≠ []) (hlen : c.length ≤ 255)
  (hslash : slash ∉ c)

include he hv habs hp hc hlen hslash

/-- A path with one name behind it leads to what the name is in the directory that the path leads
to. -/
theorem Tree.yields_join_iff (m : Nat) : Yields e s (joinPath p c) (.ok m) ↔
    ∃ d dir t, Yields e s p (.ok d) ∧ readInode e d s = .ok (.ok dir, t) ∧ dir.isDir = true ∧
      Answers e dir s c (some m) := by
  obtain ⟨root, t, hroot⟩ := hv.readable .root
  rw [hv.yields_iff he hroot (head?_joinPath habs c), components_joinPath habs hp hc hslash]
  constructor
  · rintro ⟨r, hr, hm⟩
    rcases Follows.append_iff.mp hr with ⟨pos, hpos, hlast⟩ | ⟨code, -, rfl⟩
    · obtain ⟨pos', rfl, rfl⟩ : ∃ pos', r = .ok pos' ∧ pos'.1 = m := by
        cases r with
        | error code => cases hm
        | ok pos' => exact ⟨pos', rfl, Except.ok.inj hm⟩
      obtain ⟨hanswer, -⟩ := (Follows.singleton_ok_iff (by omega)).mp hlast
      obtain ⟨-, u, hread⟩ := hpos.named .root ⟨t, hroot⟩
      have hd : Yields e s p (.ok pos.1) := (hv.yields_iff he hroot habs).mpr ⟨_, hpos, rfl⟩
      exact ⟨pos.1, pos.2, u, hd, hread, hanswer.isDir, hanswer⟩
    · cases hm
  · rintro ⟨d, dir, u, hd, hread, -, hanswer⟩
    obtain ⟨r, hr, hfst⟩ := (hv.yields_iff he hroot habs).mp hd
    obtain ⟨pos, rfl, rfl⟩ : ∃ pos, r = .ok pos ∧ pos.1 = d := by
      cases r with
      | error code => cases hfst
      | ok pos => exact ⟨pos, rfl, Except.ok.inj hfst⟩
    obtain ⟨hnamed, u', hread'⟩ := hr.named .root ⟨t, hroot⟩
    obtain rfl : pos.2 = dir := by
      rw [hread] at hread'
      exact (Except.ok.inj (congrArg Prod.fst (Except.ok.inj hread'))).symm
    obtain ⟨inode, v, hinode⟩ := hv.readable (hnamed.entry hread hanswer)
    exact ⟨.ok (m, inode), Follows.append_iff.mpr (.inl ⟨pos, hr,
      (Follows.singleton_ok_iff (by omega)).mpr ⟨hanswer, v, hinode⟩⟩), rfl⟩

end Join

/-- **A path is looked up name by name.**  On a volume with well-formed directories, a path with
one name behind it leads to inode `m` exactly when the path leads to a directory in which
`FindEntry` of the name gives `m`; every path leads somewhere; and a slash behind a path does not
change what it leads to. -/
theorem lookupPath_join (he : e.Reliable) (hv : Tree e s) {p c : List UInt8}
    (habs : p.head? = some slash) (hp : p = [slash] ∨ p.getLast? ≠ some slash) (hc : c ≠ [])
    (hlen : c.length ≤ 255) (hslash : slash ∉ c) :
    (∃ r, Yields e s (joinPath p c) r) ∧
      (∀ m, Yields e s (joinPath p c) (.ok m) ↔ ∃ d dir t, Yields e s p (.ok d) ∧
        readInode e d s = .ok (.ok dir, t) ∧ dir.isDir = true ∧ Answers e dir s c (some m)) ∧
      (p.getLast? ≠ some slash → ∀ r, Yields e s (p ++ [slash]) r ↔ Yields e s p r) := by
  obtain ⟨root, t, hroot⟩ := hv.readable .root
  refine ⟨?_, hv.yields_join_iff he habs hp hc hlen hslash, fun hend r => ?_⟩
  · obtain ⟨r, hr⟩ := @Tree.follows _ _ hv he (rootIno, root) .root ⟨t, hroot⟩
      (components (joinPath p c).tail)
    exact ⟨_, (hv.yields_iff he hroot (head?_joinPath habs c)).mpr ⟨r, hr, rfl⟩⟩
  · obtain ⟨hne, hlast⟩ := tail_of_not_slash habs hend
    have hcons : p ≠ [] := fun heq => hne (by rw [heq]; rfl)
    have hslash' : (p ++ [slash]).head? = some slash := by
      rw [List.head?_append, habs]
      rfl
    have hnames : components (p ++ [slash]).tail = components p.tail := by
      rw [List.tail_append_of_ne_nil hcons, components_append hne hlast, components,
        List.append_nil]
    rw [hv.yields_iff he hroot hslash', hv.yields_iff he hroot habs, hnames]

/-! ## The volume with one directory -/

namespace Small

/-- Inode 12 has never been written. -/
theorem readInode_twelve : ∃ y c, readInode (Env.ideal 0) 12 single = .ok (.ok y, single.at c) ∧
    y.isDir = false := by
  obtain ⟨y, c, hrun, hbytes⟩ := inodeTables_single.readInode_run (n := 12)
    (Env.ideal_reliable 0) ⟨by decide, by decide⟩
  have hsame : y.Same ⟨fun _ => 0⟩ := by
    intro i hi
    have hall : ∀ i < 128, single.disk (single.slot (Env.ideal 0) 12 + i) = 0 := by decide +kernel
    exact (hbytes i hi).trans (hall i hi)
  exact ⟨y, c, hrun, hsame.isDir⟩

/-- The directory, and the inode that it names. -/
theorem named_single {n : Nat} (h : Named (Env.ideal 0) single n) : n = 2 ∨ n = 12 := by
  induction h with
  | root => exact .inl rfl
  | @entry n m x inode t _ hread hanswer ih =>
      rcases ih with rfl | rfl
      · obtain ⟨y, c, hrun, hsame⟩ := readInode_single
        rw [hrun] at hread
        cases hread
        obtain ⟨hd, hentries⟩ := listing_single.of_same (g := fun _ => inode) (by decide) hsame
        have hlookup := hanswer.unique (hd.answers (Env.ideal_reliable 0) (by decide) x)
        have hmem := (lookup_eq_some_iff hd.distinct).mp hlookup.symm
        rw [hentries, entries_single, List.mem_singleton] at hmem
        exact .inr (congrArg Prod.snd hmem)
      · obtain ⟨y, c, hrun, hdir⟩ := readInode_twelve
        rw [hrun] at hread
        cases hread
        cases hanswer.unique (answers_of_not_dir hdir x)

theorem tree_single : Tree (Env.ideal 0) single where
  size_pos := by decide
  readable hn := by
    rcases named_single hn with rfl | rfl
    · obtain ⟨y, c, hrun, -⟩ := readInode_single
      exact ⟨y, _, hrun⟩
    · obtain ⟨y, c, hrun, -⟩ := readInode_twelve
      exact ⟨y, _, hrun⟩
  listing {n inode t} hn hread hdir := by
    rcases named_single hn with rfl | rfl
    · obtain ⟨y, c, hrun, hsame⟩ := readInode_single
      rw [hrun] at hread
      cases hread
      exact ⟨_, (listing_single.of_same (g := fun _ => inode) (by decide) hsame).1⟩
    · obtain ⟨y, c, hrun, hno⟩ := readInode_twelve
      rw [hrun] at hread
      cases hread
      rw [hno] at hdir
      cases hdir

end Small

/-- The path `/a`, with the name `b` behind it and with a slash behind it. -/
theorem lookupPath_join_single :
    (∃ r, Yields (Env.ideal 0) Small.single [47, 97, 47, 98] r) ∧
      (∀ m, Yields (Env.ideal 0) Small.single [47, 97, 47, 98] (.ok m) ↔ ∃ d dir t,
        Yields (Env.ideal 0) Small.single [47, 97] (.ok d) ∧
        readInode (Env.ideal 0) d Small.single = .ok (.ok dir, t) ∧ dir.isDir = true ∧
        Answers (Env.ideal 0) dir Small.single [98] (some m)) ∧
      ∀ r, Yields (Env.ideal 0) Small.single [47, 97, 47] r ↔
        Yields (Env.ideal 0) Small.single [47, 97] r := by
  obtain ⟨htotal, hjoin, hslash⟩ := lookupPath_join (p := [47, 97]) (c := [98])
    (Env.ideal_reliable 0) Small.tree_single rfl (.inr (by decide)) (by decide) (by decide)
    (by decide)
  exact ⟨htotal, hjoin, hslash (by decide)⟩

end InfoKernel.Ext2
