import InfoKernel.Fs.Creation
import InfoKernel.Fs.Truncation

/-!
# Where paths lead afterwards

A call that changes a few blocks leaves the files that have none of them as they are: their block
maps and, of a directory, its entries (`Lasts.refAt_eq`, `Lasts.listing`).  Names are followed from
one state to another when each entry on the way is still there (`Follows.carry_along`); and
if they lead to a directory, only the entries for directories matter (`Follows.carry`).
-/

namespace InfoKernel.Ext2

open Lib

variable {e : Env} {s t u : State} {A B : Nat → Prop} {x y : Inode} {q : FilePos}

/-! ## Files -/

/-- Freeing blocks changes none that lasts. -/
theorem Freed.lasts {l : List Nat} (h : Freed e s l t) (hg : 0 < s.groups .block) :
    Lasts e A s t where
  layout := h.layout
  block hy _ hi := h.block hg hy hi

/-- All blocks of the file hold data, and none is in `A`. -/
def Outside (e : Env) (A : Nat → Prop) (s : State) (x : Inode) : Prop :=
  ∀ q, (s.shape Unit).Pos q → s.refAt e x q ≠ 0 →
    ¬ Meta e s (s.refAt e x q) ∧ ¬ A (s.refAt e x q)

namespace Lasts

/-- The file has the blocks that it had, when its pointer blocks last. -/
theorem refAt_eq (h : Lasts e A s t) (hinner : ∀ {p}, (s.shape Unit).Inner p → s.refAt e x p ≠ 0 →
      ¬ Meta e s (s.refAt e x p) ∧ ¬ A (s.refAt e x p)) (hxy : y.Alike x)
    (hq : (s.shape Unit).Pos q) : t.refAt e y q = s.refAt e x q := by
  have hroot : t.refAt e y q = t.refAt e x q :=
    congrArg (fun b => walk (t.words e) b _) (hxy.iBlock hq.root)
  have hsame : (t.forest e (fileOf x)).root = (s.forest e (fileOf x)).root := rfl
  rw [hroot]
  refine Forest.ref_of_same hsame (fun p hp hne i hi => ?_) hq
  obtain ⟨hdata, hA⟩ := hinner hp hne
  exact words_congr (fun _ hj => h.block (.of_data hdata) hA hj) hi

/-- **The directory lists what it listed**, when all its blocks last. -/
theorem listing {os : Nat → List Nat} (h : Lasts e A s t) (hsize : 0 < s.super.blockSize)
    (ho : Outside e A s x) (hxy : y.Alike x) (hd : Listing e (fileOf x) s () os) :
    Listing e (fileOf y) t () os ∧
      dirEntries e (fileOf y) t () os = dirEntries e (fileOf x) s () os := by
  refine hd.congr h.layout.geometry hxy fun i hi => ?_
  have hpos := (filePos_leaf hsize (dirBlock_in_range hsize hi).1 ()).pos
  have hsame : t.dataBlock e (fileOf y) () i = s.dataBlock e (fileOf x) () i := by
    rw [State.dataBlock_congr h.layout.geometry]
    exact h.refAt_eq (fun hp => ho _ hp.pos) hxy hpos
  refine ⟨hsame, fun hne j hj => ?_⟩
  obtain ⟨hdata, hA⟩ := ho _ hpos hne
  exact h.block (.of_data hdata) hA hj

end Lasts

/-- Searches say what they said where the name is listed as before. -/
theorem Listing.answers_carry {os os' : Nat → List Nat} (he : e.Reliable)
    (hd : Listing e (fileOf x) s () os) (hd' : Listing e (fileOf y) t () os')
    (hsize : 0 < s.super.blockSize) (hsize' : 0 < t.super.blockSize) {name : List UInt8}
    {r : Option Nat} (hlookup : (dirEntries e (fileOf y) t () os').lookup name =
      (dirEntries e (fileOf x) s () os).lookup name)
    (h : Answers e x s name r) : Answers e y t name r := by
  rw [h.unique (hd.answers he hsize name), ← hlookup]
  exact hd'.answers he hsize' name

/-! ## Paths -/

namespace Follows

variable {pos pos' : Nat × Inode} {cs : List (List UInt8)}

/-- Only a directory leads to a directory. -/
theorem isDir_of_ok (h : Follows e s pos cs (.ok pos')) (hdir : pos'.2.isDir = true) :
    pos.2.isDir = true := by
  cases h with
  | nil => exact hdir
  | step _ hsome _ _ => exact hsome.isDir

/-- **Names lead where they led**, when every inode on the way can be read and every entry on the
way is still there. -/
theorem carry_along (hread : ∀ {n x v}, Named e s n → readInode e n s = .ok (.ok x, v) →
      ∃ x' v', readInode e n t = .ok (.ok x', v'))
    (hentry : ∀ {n m x x' z v v' w name cs}, Named e s n → readInode e n s = .ok (.ok x, v) →
      readInode e n t = .ok (.ok x', v') → Answers e x s name (some m) →
      readInode e m s = .ok (.ok z, w) → Follows e s (m, z) cs (.ok pos') →
      Answers e x' t name (some m))
    (h : Follows e s pos cs (.ok pos')) (hn : Named e s pos.1)
    (hpos : ∃ v, readInode e pos.1 s = .ok (.ok pos.2, v))
    (hx : ∃ v, readInode e pos.1 t = .ok (.ok x, v)) :
    ∃ y, (∃ v, readInode e pos'.1 t = .ok (.ok y, v)) ∧
      Follows e t (pos.1, x) cs (.ok (pos'.1, y)) := by
  generalize hr : Except.ok pos' = r at h
  induction h generalizing x with
  | nil =>
      cases hr
      exact ⟨x, hx, .nil⟩
  | long _ => cases hr
  | missing _ _ => cases hr
  | @step pos name cs m z w r hshort hsome hinode hrest ih =>
      subst hr
      obtain ⟨v, hpos⟩ := hpos
      obtain ⟨v', hx⟩ := hx
      have hm : Named e s m := hn.entry hpos hsome
      obtain ⟨z', w', hz'⟩ := hread hm hinode
      obtain ⟨y, hy, hfollows⟩ := ih hm ⟨w, hinode⟩ ⟨w', hz'⟩ rfl
      exact ⟨y, hy, .step hshort (hentry hn hpos hx hsome hinode hrest) hz' hfollows⟩

/-- **Names that led to a directory lead there still**, when every inode on the way can be read and
every entry for a directory is still there. -/
theorem carry (hread : ∀ {n x v}, Named e s n → readInode e n s = .ok (.ok x, v) →
      ∃ x' v', readInode e n t = .ok (.ok x', v'))
    (hentry : ∀ {n m x x' z v v' w name}, Named e s n → readInode e n s = .ok (.ok x, v) →
      readInode e n t = .ok (.ok x', v') → Answers e x s name (some m) →
      readInode e m s = .ok (.ok z, w) → z.isDir = true → Answers e x' t name (some m))
    (h : Follows e s pos cs (.ok pos')) (hdir : pos'.2.isDir = true) (hn : Named e s pos.1)
    (hpos : ∃ v, readInode e pos.1 s = .ok (.ok pos.2, v))
    (hx : ∃ v, readInode e pos.1 t = .ok (.ok x, v)) :
    ∃ y, (∃ v, readInode e pos'.1 t = .ok (.ok y, v)) ∧
      Follows e t (pos.1, x) cs (.ok (pos'.1, y)) :=
  h.carry_along hread (fun hn hx hx' hsome hinode hrest =>
    hentry hn hx hx' hsome hinode (hrest.isDir_of_ok hdir)) hn hpos hx

end Follows

end InfoKernel.Ext2
