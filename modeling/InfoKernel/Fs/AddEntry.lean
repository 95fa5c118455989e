import InfoKernel.Fs.Directory

/-!
# Adding an entry to a directory

`AddEntry` puts the new record into the first record with room, or into a block of its own
behind the others.  What it returns says little of what it has done: a record that is taken over
is not split, whatever lies in its unused bytes, and the code of `SetBlockNum` is not looked at.

`addEntry_right_iff` says for which directories it does what it should: those where the first
record with room is live, or where the bytes behind the new record happen to be a chain with the
entries that were there; and, when there is no room, where the length of a block fits into 16
bits, the size of the directory can grow, and there are blocks for the pointer blocks that are
missing.
-/

namespace InfoKernel.Ext2

open Lib

variable {κ : Type} [DecidableEq κ] {e : Env} {f g : κ → Inode} {s t u : State} {k : κ}
  {os : Nat → List Nat} {x : List UInt8} {num : Nat} {fileType : UInt8}

/-! ## A block of its own -/

/-- The position behind the last block of the directory. -/
def behindLast (f : κ → Inode) (s : State) (k : κ) : (κ × Nat) × List Nat :=
  filePos s.super.ptrsPerBlock k (dirBlockCount s.super (f k))

/-- **The directory has grown by one block.**  The new block holds the new record, or it is
missing for want of a pointer block; the rest stays. -/
structure Appended (e : Env) (f : κ → Inode) (s : State) (k : κ) (num : Nat) (x : List UInt8)
    (fileType : UInt8) (inode : Inode) (t : State) : Prop where
  files : Files e (Function.update f k inode) t
  counted : Counted e t
  geometry : s.super.SameGeometry t.super
  kept : DataKept e f s (Function.update f k inode) t (behindLast f s k)
  isDir : inode.isDir = (f k).isDir
  size : inode.iSize = u32 ((f k).iSize + s.super.blockSize)
  last : ((missing e f s (behindLast f s k)).card < s.super.sFreeBlocksCount ∧
      (t.forest e (Function.update f k inode)).ref (behindLast f s k) ≠ 0 ∧
      ∀ j, j < s.super.blockSize →
        t.block e ((t.forest e (Function.update f k inode)).ref (behindLast f s k)) j =
          putDirent (fun _ => 0) 0 num (u16 s.super.blockSize) x fileType j) ∨
    (s.super.sFreeBlocksCount ≤ (missing e f s (behindLast f s k)).card ∧
      (t.forest e (Function.update f k inode)).ref (behindLast f s k) = 0)

omit [DecidableEq κ] in
theorem behindLast_in_range (hsize : 0 < s.super.blockSize) :
    dirBlockCount s.super (f k) < maxBlocks s.super.ptrsPerBlock ∧
      Reached s.super.ptrsPerBlock (dirBlockCount s.super (f k)) := by
  have h := byte_in_range hsize (ceilDiv_mul_lt (a := (f k).iSize) (b := s.super.blockSize))
  rwa [Nat.mul_div_cancel _ hsize] at h

/-- The free blocks after one of them has been taken. -/
theorem Counted.free_newBlock {b : Nat} (h : Counted e s) (hnew : NewBlock e b s t) :
    t.super.sFreeBlocksCount + 1 = s.super.sFreeBlocksCount := by
  have hset : {n | Free e t .block n} = {n | Free e s .block n} \ {b} := by
    ext n
    rw [Set.mem_sdiff, Set.mem_singleton_iff]
    refine ⟨fun hf => ⟨?_, ?_⟩, fun hf => hnew.free_of_ne hf.1 hf.2⟩
    · exact Frame.free (hnew.frame (A := fun _ => False)) hf
    · rintro rfl
      exact (hnew.owned_self h.consistent).used hf
  have hcount : t.super.sFreeBlocksCount = _ := ((h.newBlock hnew).ncard_free .block).symm
  have hcount' : s.super.sFreeBlocksCount = _ := (h.ncard_free .block).symm
  rw [hcount, hcount', hset]
  exact Set.ncard_sdiff_singleton_add_one hnew.free (h.finite_free .block)

omit [DecidableEq κ] in
theorem missing_congr {p : (κ × Nat) × List Nat} (hp : (s.shape κ).Leaf p)
    (href : ∀ q, (s.shape κ).Pos q → (t.forest e g).ref q = (s.forest e f).ref q) :
    missing e g t p = missing e f s p := by
  refine Finset.filter_congr fun n hn => ?_
  have hin := ((onWay_iff hp).mpr ⟨n, Finset.mem_range.mp hn, rfl⟩).1
  rw [href _ hin.pos]

theorem forest_update_setSize (f : κ → Inode) (k : κ) (inode : Inode) (v : Nat) :
    u.forest e (Function.update f k (inode.setSize v)) =
      u.forest e (Function.update f k inode) := by
  have h := forest_setSize (e := e) (s := u) (f := Function.update f k inode) k v
  rwa [Function.update_self, Function.update_idem] at h

/-- The new record has been written to a block that `AllocBlock` has returned and `SetBlockNum` has
been called with. -/
theorem appended_of_run {b : Nat} {code : Int} {inode : Inode} {v : State} {slot w : Nat}
    (h : Files e f s) (hc : Counted e s) (hnew : NewBlock e b s t)
    (ha : Assigned e f t (Function.update f k inode) u (behindLast f s k) b code)
    (hinode : inode = f k ∨ inode = (f k).setBlock slot w)
    (hw : Written e b (putDirent (fun _ => 0) 0 num (u16 s.super.blockSize) x fileType) u v) :
    Appended e f s k num x fileType (inode.setSize (u32 (inode.iSize + s.super.blockSize))) v := by
  have hsize := h.consistent.roles.size_pos
  have hleaf : (s.shape κ).Leaf (behindLast f s k) :=
    filePos_leaf hsize (behindLast_in_range hsize).1 k
  have hb := hnew.ne_zero h.consistent
  have hnewFrame : Frame e (fun _ => False) s t := hnew.frame
  have hfiles : Files e f t := h.of_frame hnewFrame fun _ _ => id
  have hassign := h.assign hnew ha
  have hgeo := hnewFrame.layout.geometry
  have hgeo' := hgeo.trans ha.grown.frame.layout.geometry
  have hshape : u.shape κ = s.shape κ := State.shape_congr hgeo'
  have hown : Owned e u b := ha.grown.frame.owned (hnew.owned_self h.consistent)
  -- nothing but the new position refers to the new block
  have honly : ∀ {q}, (s.shape κ).Pos q →
      (u.forest e (Function.update f k inode)).ref q = b → q = behindLast f s k := fun hq href =>
    (h.assigned_self hnew ha hq href).1
  have hpoints : ∀ y, u.Points e (Function.update f k inode) y → ¬ y = b := by
    rintro y ⟨q, hq, rfl⟩ heq
    rw [hshape] at hq
    exact hq.not_leaf (honly hq.pos heq ▸ hleaf)
  have hframe := hw.frame hassign.consistent.roles hown.data
  have href : ∀ {q}, (s.shape κ).Pos q → (v.forest e (Function.update f k
      (inode.setSize (u32 (inode.iSize + s.super.blockSize))))).ref q =
        (u.forest e (Function.update f k inode)).ref q := fun hq => by
    rw [forest_update_setSize]
    exact hassign.mapped.ref_of_frame hframe hpoints (hshape.symm ▸ hq)
  have hold : ∀ q, (s.shape κ).Pos q → (t.forest e f).ref q = (s.forest e f).ref q := fun q hq =>
    h.mapped.ref_of_frame hnewFrame (fun _ _ => id) hq
  have hmissing : missing e f t (behindLast f s k) = missing e f s (behindLast f s k) :=
    missing_congr hleaf hold
  have hfree := hc.free_newBlock hnew
  have hleaf' : (t.shape κ).Leaf (behindLast f s k) := by
    rw [State.shape_congr hgeo]
    exact hleaf
  have hother : ∀ q, (s.shape κ).Leaf q → q ≠ behindLast f s k →
      (u.forest e (Function.update f k inode)).ref q = (s.forest e f).ref q := by
    intro q hq hqp
    have hq' := hq
    rw [← State.shape_congr hgeo] at hq'
    rw [← hold q hq.pos]
    rcases ha.outcome with ⟨-, -, hother⟩ | ⟨-, -, hkept⟩
    · exact hother q hq' hqp
    · exact hkept q hq'
  have hsame : inode.isDir = (f k).isDir ∧ inode.iSize = (f k).iSize := by
    rcases hinode with rfl | rfl
    · exact ⟨rfl, rfl⟩
    · rw [Inode.isDir, Inode.isDir, Inode.iMode_setBlock, Inode.iSize_setBlock]
      exact ⟨rfl, rfl⟩
  refine ⟨(hassign.of_frame hframe hpoints).of_forest
    (forest_update_setSize f k inode _), ?_, ?_, fun q hq hqp => ?_,
    ?_, ?_, ?_⟩
  · exact (ha.grown.counted (hc.newBlock hnew)).written hw hown.data
  · exact hgeo'.trans hframe.layout.geometry
  · refine ⟨(href hq.pos).trans (hother q hq hqp), fun hne j hj => ?_⟩
    have hq' := hq
    rw [← State.shape_congr hgeo] at hq'
    have hnot := hfiles.not_points hq' (by rwa [hold q hq.pos])
    rw [hold q hq.pos] at hnot
    have hown' := h.owned hq.pos hne
    have hneb : (s.forest e f).ref q ≠ b := fun heq =>
      hqp (honly hq.pos ((hother q hq hqp).trans heq))
    rw [hw.of_ne hneb (by rwa [hgeo'.blockSize]),
      ha.grown.frame.block (hnewFrame.owned hown').kept hnot (by rwa [hgeo.blockSize]),
      hnew.block hown' hj]
  · rw [← hsame.1, Inode.isDir, Inode.isDir, Inode.iMode_setSize]
  · have hlt : u32 (inode.iSize + s.super.blockSize) < 2 ^ 32 := Nat.mod_lt _ (by decide)
    rw [Inode.iSize_setSize _ hlt, hsame.2]
  · rw [href hleaf.pos]
    rcases ha.outcome with ⟨hcode, hself, -⟩ | ⟨hcode, -, -⟩
    · have hle := ha.le_free (hc.newBlock hnew) hleaf' hcode hb
      rw [hmissing] at hle
      refine .inl ⟨by omega, hself ▸ hb, fun j hj => ?_⟩
      rw [hself]
      exact hw.self (by rwa [hgeo'.blockSize])
    · have hlt := ha.free_lt (hc.newBlock hnew) hleaf' hcode
      rw [hmissing] at hlt
      obtain ⟨q, -, hon, hzero⟩ := (ha.stuck hcode).missing
      exact .inr ⟨by omega, ref_eq_zero_of_onWay hon hzero⟩

/-- What `AddEntry` does to a directory: the new record is in the first record with room; or there
is no record with room and no free block; or the directory has grown. -/
inductive Added (e : Env) (f : κ → Inode) (s : State) (k : κ) (os : Nat → List Nat) (num : Nat)
    (x : List UInt8) (fileType : UInt8) (t : State) : Int × Inode → Prop
  | placed {i a : Nat} {buf : Bytes} (hfirst : FirstRoom e f s k os x.length i a)
      (hbuf : ∀ j, j < s.super.blockSize → buf j = s.block e (s.dataBlock e f k i) j)
      (hw : Written e (s.dataBlock e f k i) (Dirent.placed buf a num x fileType) s t) :
      Added e f s k os num x fileType t (0, f k)
  | full {inode : Inode} (hcrowded : Crowded e f s k os x.length)
      (hfree : s.super.sFreeBlocksCount = 0) : Added e f s k os num x fileType t (-5, inode)
  | appended {inode : Inode} (hcrowded : Crowded e f s k os x.length)
      (hfree : s.super.sFreeBlocksCount ≠ 0) (happ : Appended e f s k num x fileType inode t) :
      Added e f s k os num x fileType t (0, inode)

section Adding

variable (he : e.Reliable)

include he

theorem addBlock_ends (h : Files e f s) (hc : Counted e s) (hlen : x.length < 256) :
    Ends (addBlock e (f k) (dirBlockCount s.super (f k)) num x fileType) s (fun _ =>
      False) fun r t =>
      Frame e (s.Refers e f) s t ∧
        ((r.1 = -5 ∧ s.super.sFreeBlocksCount = 0 ∧
          ∃ c f, t = { s with clock := c, noSpace := f }) ∨
          (r.1 = 0 ∧ s.super.sFreeBlocksCount ≠ 0 ∧ Appended e f s k num x fileType r.2 t)) := by
  have hunfit : ∀ {s' : State}, SameLayout e s s' → ∀ err, Unfit s' .block err → False := by
    exact fun hl err herr => hc.not_unfit (herr.of_layout hl)
  have hsize := h.consistent.roles.size_pos
  obtain ⟨hmax, hreach⟩ := behindLast_in_range (f := f) (k := k) hsize
  refine Ends.bind ((allocBlock_ends he h.consistent.roles fun _ =>
    h.consistent.meta_used).mono_error (hunfit (SameLayout.refl e s))) fun b t hb => ?_
  rcases hb with ⟨rfl, hno⟩ | hnew
  · refine Ends.pure ⟨hno.frame, .inl ⟨rfl, ?_, _, _, hno.same.choose_spec⟩⟩
    have hempty : {n | Free e s .block n} = ∅ :=
      Set.eq_empty_of_forall_notMem fun n hn => hc.not_free (k := .block) hno.passed n hn
    have hcount : s.super.sFreeBlocksCount = _ := (hc.ncard_free .block).symm
    rw [hcount, hempty, Set.ncard_empty]
  · have hb := hnew.ne_zero h.consistent
    have hframe : Frame e (fun _ => False) s t := hnew.frame
    have hm : Mapped e f t := (h.of_frame hframe fun _ _ => id).mapped
    have hptrs : t.super.ptrsPerBlock = s.super.ptrsPerBlock := by
      rw [SuperBlock.ptrsPerBlock, SuperBlock.ptrsPerBlock, hframe.layout.geometry.blockSize]
    rw [if_neg hb]
    refine Ends.bind (((setBlockNum_ends (k := k) he (dirBlockCount s.super (f k)) b
      hm (by rwa [hptrs]) (by rwa [hptrs]) hnew.lt).and (setBlockNum_inode (f k) _ b)).mono_error
        fun err hf => hunfit hframe.layout err hf.1) fun r u hr => ?_
    obtain ⟨ha, w, hinode⟩ := hr
    rw [hptrs] at ha
    have hblock : u.super.blockSize = s.super.blockSize := by
      rw [ha.grown.frame.layout.geometry.blockSize, hframe.layout.geometry.blockSize]
    refine Ends.step (a := u.super) rfl ?_
    have hle := s.super.le_blockSize hsize
    have hheader : direntHeader = 8 := rfl
    rw [hblock, if_pos (by omega)]
    obtain ⟨v, hv, hw⟩ := writeBlock_written (s := u) he b
      (putDirent (fun _ => 0) 0 num (u16 s.super.blockSize) x fileType)
    have hlayout := hframe.layout.trans ha.grown.frame.layout
    have hdata : ¬ Meta e u b := fun hm => h.consistent.meta_used (hlayout.meta_of hm) hnew.free
    refine Ends.step hv (Ends.pure ⟨?_, .inr ⟨rfl, ?_, appended_of_run h hc hnew ha hinode hw⟩⟩)
    · have hpoints : ∀ y, t.Points e f y → s.Refers e f y := by
        rintro y ⟨q, hq, rfl⟩
        rw [State.shape_congr hframe.layout.geometry] at hq
        exact ⟨q, hq.pos, (h.mapped.ref_of_frame hframe (fun _ _ => id) hq.pos).symm⟩
      have hwritten := hw.frame (hlayout.roles h.consistent.roles) hdata
      refine ((hnew.frame (A := s.Refers e f)).trans ha.grown.frame fun y _ hy =>
        hpoints y hy).trans
        hwritten fun y hy heq => absurd hnew.free ?_
      rw [← heq]
      exact hy.used
    · have hfree := hc.free_newBlock hnew
      omega

variable (num fileType) in
/-- What `AddEntry` does; of the blocks in use only those of the directories change, and nothing at
all is done when a code is returned. -/
theorem addEntry_added (h : Files e f s) (hc : Counted e s) (hd : Directory e f s k os)
    (hlen : x.length < 256) {n : Nat} (hn : s.super.blockSize < n) :
    Ends (addEntry e (f k) num x fileType n) s (fun _ => False) fun r t =>
      Added e f s k os num x fileType t r ∧ Frame e (s.Refers e f) s t ∧
        (r.1 ≠ 0 → ∃ c f, t = { s with clock := c, noSpace := f }) := by
  have hsize := h.consistent.roles.size_pos
  rw [addEntry]
  refine Ends.step (super_run s) ?_
  rw [hd.isDir]
  simp only [Bool.not_true, Bool.false_eq_true, if_false]
  rw [if_neg (by omega), if_neg (Nat.ne_of_gt hsize)]
  refine Ends.step (pageAlloc_run he) ?_
  simp only [Bool.not_true, Bool.false_eq_true, if_false]
  rcases addFrom_run (c := s.clock + 1) he hd hsize x num fileType hn
    (Nat.zero_add _) (fun j hj => absurd hj (Nat.not_lt_zero j)) with
    ⟨hcrowded, c, hrun⟩ | ⟨i, a, buf, t, hfirst, hbuf, hrun, hw⟩
  · refine Ends.step hrun ?_
    have hat : Files e f (s.at c) := h.of_frame (Frame.at_right s c) fun _ _ => id
    refine (addBlock_ends (s := s.at c) (k := k) he hat (hc.same c s.noSpace) hlen).mono ?_
    rintro ⟨code, inode⟩ t ⟨hframe, ⟨rfl, hfree, hsame⟩ | ⟨rfl, hfree, happ⟩⟩
    · exact ⟨.full hcrowded hfree, (Frame.at_right s c).trans hframe fun _ _ => id, fun _ => hsame⟩
    · exact ⟨.appended hcrowded hfree ⟨happ.files, happ.counted, happ.geometry, happ.kept,
        happ.isDir, happ.size, happ.last⟩,
        (Frame.at_right s c).trans hframe fun _ _ => id, fun hne => absurd rfl hne⟩
  · have hi := (filePos_leaf hsize (dirBlock_in_range hsize hfirst.block).1 k).pos
    have hown := h.owned hi (hd.mapped hfirst.block)
    exact Ends.step hrun (Ends.pure ⟨.placed hfirst hbuf hw,
      (hw.frame h.consistent.roles hown.data).mono fun y _ hy => hy ▸ ⟨_, hi, rfl⟩,
      fun hne => absurd rfl hne⟩)

variable (num fileType) in
/-- **What `AddEntry` does.** -/
theorem addEntry_ends (h : Files e f s) (hc : Counted e s) (hd : Directory e f s k os)
    (hlen : x.length < 256) {n : Nat} (hn : s.super.blockSize < n) :
    Ends (addEntry e (f k) num x fileType n) s (fun _ => False) fun r t =>
      Added e f s k os num x fileType t r :=
  (addEntry_added num fileType he h hc hd hlen hn).mono fun _ _ hr => hr.1

end Adding

/-! ## The directory afterwards -/

/-- The directory of `k` is well formed and says what it said before, and `(x, num)`. -/
def Gains (e : Env) (f : κ → Inode) (s : State) (g : κ → Inode) (t : State) (k : κ)
    (os : Nat → List Nat) (x : List UInt8) (num : Nat) : Prop :=
  ∃ os', Directory e g t k os' ∧ (dirEntries e g t k os').Perm ((x, num) :: dirEntries e f s k os)

/-- The bytes behind the new record in the dead record at `a` of block `i` are a chain with the
entries of the records behind the dead one. -/
def Reusable (e : Env) (f : κ → Inode) (s : State) (k : κ) (os : Nat → List Nat) (len i a : Nat) :
    Prop :=
  ∀ front back, os i = front ++ a :: back → ∃ rest,
    Dirent.Chain s.super.blockSize (s.block e (s.dataBlock e f k i)) (a + direntLen len) rest ∧
      (blockEntries e f s k i rest).Perm (blockEntries e f s k i back)

omit [DecidableEq κ] in
theorem Directory.distinct_gain (hd : Directory e f s k os)
    (habsent : x ∉ (dirEntries e f s k os).map Prod.fst) :
    Distinct ((x, num) :: dirEntries e f s k os) :=
  distinct_cons.mpr ⟨habsent, hd.distinct⟩

section Placed

variable {i a : Nat} {buf : Bytes} (h : Files e f s) (hd : Directory e f s k os)
  (habsent : x ∉ (dirEntries e f s k os).map Prod.fst)
  (hfirst : FirstRoom e f s k os x.length i a)
  (hw : Written e (s.dataBlock e f k i) (Dirent.placed buf a num x fileType) s t)

include h hd habsent hfirst hw

omit [DecidableEq κ] in
/-- A well-formed block with one entry more. -/
theorem gains_of_chain {l : List Nat}
    (hchain : Dirent.Chain s.super.blockSize (Dirent.placed buf a num x fileType) 0 l)
    (hperm : (Dirent.entries (Dirent.placed buf a num x fileType) l).Perm
      ((x, num) :: blockEntries e f s k i (os i))) : Gains e f s f t k os x num := by
  have hother : ∀ j, j < dirBlockCount s.super (f k) → j ≠ i → Function.update os i l j = os j :=
    fun j _ hj => Function.update_of_ne hj _ _
  have hwrite := hd.write h hfirst.block hw hother (by rwa [Function.update_self])
  rw [Function.update_self] at hwrite
  have hgain := (hwrite.1 (x, num)).mpr hperm
  exact ⟨_, hwrite.2 ((hd.distinct_gain habsent).perm hgain.symm), hgain⟩

variable (hx : x ≠ []) (hlen : x.length < 256) (hnul : 0 ∉ x) (hnum : num ≠ 0)
  (hnum' : num < 2 ^ 32)
  (hbuf : ∀ j, j < s.super.blockSize → buf j = s.block e (s.dataBlock e f k i) j)

include hx hlen hnul hnum hnum' hbuf

omit [DecidableEq κ] in
/-- **A record with room makes the directory right** when it is live, and when the bytes behind the
new record are right already. -/
theorem gains_placed_iff : Gains e f s f t k os x num ↔
    (direntInode (s.block e (s.dataBlock e f k i)) a = 0 → Reusable e f s k os x.length i a) := by
  have hchain := hd.chain hfirst.block
  have hmem := List.mem_of_find?_eq_some hfirst.first
  have hsame := hchain.tiles.same_of_block hbuf a hmem
  have hentries : ∀ {o l}, Dirent.Chain s.super.blockSize (s.block e (s.dataBlock e f k i)) o l →
      Dirent.entries buf l = blockEntries e f s k i l := fun hl => hl.tiles.entries_of_block hbuf
  have hbchain := hchain.of_block hbuf
  obtain ⟨front, back, hos⟩ := List.append_of_mem hmem
  have hroom : Dirent.Room x.length buf a := by
    have hroom := List.find?_some hfirst.first
    exact (Dirent.room_congr hsame).mpr (by simpa using hroom)
  by_cases hinode : direntInode (s.block e (s.dataBlock e f k i)) a = 0
  · have hdead : direntInode buf a = 0 := hsame.inode.trans hinode
    have hnot : ¬ Dirent.Live buf a := fun hl => hl.1 hdead
    have hplaced : Dirent.placed buf a num x fileType =
        putDirent buf a num (direntLen x.length) x fileType := if_neg (not_not.mpr hdead)
    have hrec := Dirent.direntLen_lt hlen
    have hge := Dirent.direntLen_ge x.length
    -- what the entries of the block become, for any records behind the new one
    have hperm : ∀ {front back rest}, os i = front ++ a :: back →
        Dirent.Chain s.super.blockSize buf (a + direntLen x.length) rest →
        ((Dirent.entries (Dirent.placed buf a num x fileType) (front ++ a :: rest)).Perm
          ((x, num) :: blockEntries e f s k i (os i)) ↔
            (Dirent.entries buf rest).Perm (blockEntries e f s k i back)) := by
      intro front back rest hos hrest
      obtain ⟨-, hnew⟩ := Dirent.chain_reuse fileType hx hlen hnul hnum hnum'
        (hos ▸ hbchain) hdead hrest
      have hback := (hos ▸ hchain).splice.1
      have hback : Dirent.entries buf back = blockEntries e f s k i back := by
        cases hback with
        | cons _ _ hback => exact hentries hback
      rw [hnew, ← hentries hchain, hos, Dirent.entries_append, Dirent.entries_cons_dead hnot,
        ← hback, (List.perm_middle.congr_left _), List.perm_cons, List.perm_append_left_iff]
    constructor
    · rintro ⟨os', hd', hgain⟩ - front back hos
      obtain ⟨hother, hnew⟩ := hd.of_write h hfirst.block hw hd'
      have hgain := ((hd.write h hfirst.block hw hother hnew).1 (x, num)).mp hgain
      have hbefore : ∀ j, j < a → Dirent.placed buf a num x fileType j = buf j := fun j hj => by
        rw [hplaced, Dirent.putDirent_of_not_mem (.inl hj)]
      have hfront := (hos ▸ hbchain).front_same hbefore
      obtain ⟨l, hl, hlchain⟩ := (hos ▸ hbchain).follow hfront hnew
      have halt : a < s.super.blockSize := by
        have hend := (hbchain.mem hmem).2.2
        have hok := (hbchain.mem hmem).2.1.room
        have hheader : direntHeader = 8 := rfl
        omega
      obtain ⟨rest, rfl, -, -, hrest⟩ := hlchain.head halt
      rw [hplaced, Dirent.direntRecLen_put hrec] at hrest
      -- the bytes behind the new record are those of the buffer
      have hrestBuf : Dirent.Chain s.super.blockSize buf (a + direntLen x.length) rest :=
        hrest.same fun b hb => by
          have hlo := (hrest.mem hb).1
          refine Dirent.same_of_bytes fun j hj _ => ?_
          rw [Dirent.putDirent_of_not_mem (.inr (by omega))]
      rw [hl, hperm hos hrestBuf] at hgain
      have hblock := hrestBuf.of_block fun j hj => (hbuf j hj).symm
      exact ⟨rest, hblock, hentries hblock ▸ hgain⟩
    · intro hreuse
      obtain ⟨rest, hrest, hsays⟩ := hreuse hinode front back hos
      have hrestBuf := hrest.of_block hbuf
      refine gains_of_chain h hd habsent hfirst hw (Dirent.chain_reuse _ hx hlen hnul hnum hnum'
        (hos ▸ hbchain) hdead hrestBuf).1 ((hperm hos hrestBuf).mpr ?_)
      rwa [hentries hrest]
  · have hlive : direntInode buf a ≠ 0 := by
      rw [hsame.inode]
      exact hinode
    obtain ⟨hnew, hperm⟩ := Dirent.chain_split fileType hx hlen hnul hnum hnum'
      (hos ▸ hbchain) hlive hroom
    refine ⟨fun _ h0 => absurd h0 hinode, fun _ => ?_⟩
    refine gains_of_chain h hd habsent hfirst hw hnew ?_
    rwa [← hos, hentries hchain] at hperm

end Placed

/-! ## The directory with a new block -/

/-- The number of blocks grows by one at most. -/
theorem ceilDiv_add_le {a b : Nat} (ha : a < 2 ^ 32) (hb : 0 < b) (hb' : b < 2 ^ 32) :
    ceilDiv (u32 (a + b)) b ≤ ceilDiv a b + 1 := by
  have hval : ∀ a, ceilDiv a b = u32 (a + b - 1) / b := fun a => by
    rw [ceilDiv]
    congr 1
    rw [sub32, u32, u32, u32, u32]
    omega
  rw [hval, hval]
  by_cases hsum : a + b < 2 ^ 32
  · have hu : u32 (a + b) = a + b := Nat.mod_eq_of_lt hsum
    have hu' : u32 (a + b - 1) = a + b - 1 := Nat.mod_eq_of_lt (by omega)
    rw [hu, hu']
    by_cases hwrap : a + b + b - 1 < 2 ^ 32
    · rw [u32, Nat.mod_eq_of_lt hwrap, show a + b + b - 1 = (a + b - 1) + b by omega,
        Nat.add_div_right _ hb]
    · have hlt : u32 (a + b + b - 1) < b := by
        rw [u32]
        omega
      rw [Nat.div_eq_of_lt hlt]
      exact Nat.zero_le _
  · have hlt : u32 (u32 (a + b) + b - 1) < 2 * b := by
      rw [u32, u32]
      omega
    have hone : u32 (u32 (a + b) + b - 1) / b < 2 := (Nat.div_lt_iff_lt_mul hb).mpr hlt
    exact Nat.le_trans (Nat.le_of_lt_succ hone) (Nat.le_add_left 1 _)

/-- A block whose length does not fit into 16 bits has length `0` there. -/
theorem u16_blockSize {sb : SuperBlock} (hsize : 0 < sb.blockSize) :
    u16 sb.blockSize = if sb.blockSize ≤ 32768 then sb.blockSize else 0 := by
  obtain ⟨j, -, hj⟩ := ptrsPerBlock_eq hsize
  have hmul := sb.ptrs_mul
  rw [hj, show 4 * 2 ^ (8 + j) = 2 ^ (10 + j) by rw [show 10 + j = 2 + (8 + j) by omega,
    Nat.pow_add 2 2]]
    at hmul
  rw [← hmul]
  by_cases hlt : j < 6
  · have hle : 2 ^ (10 + j) ≤ 2 ^ 15 := Nat.pow_le_pow_right (by decide) (by omega)
    rw [if_pos (show 2 ^ (10 + j) ≤ 32768 from hle), u16, Nat.mod_eq_of_lt (by omega)]
  · have hge : 2 ^ 16 ≤ 2 ^ (10 + j) := Nat.pow_le_pow_right (by decide) (by omega)
    rw [if_neg (by omega), u16, show 10 + j = 16 + (j - 6) by omega, Nat.pow_add]
    exact Nat.mul_mod_right _ _

/-- The number of blocks of a directory that has grown. -/
def grownCount (f : κ → Inode) (s : State) (k : κ) : Nat :=
  dirBlockCount s.super ((f k).setSize (u32 ((f k).iSize + s.super.blockSize)))

omit [DecidableEq κ] in
theorem grownCount_eq (f : κ → Inode) (s : State) (k : κ) :
    grownCount f s k = ceilDiv (u32 ((f k).iSize + s.super.blockSize)) s.super.blockSize := by
  have hlt : u32 ((f k).iSize + s.super.blockSize) < 2 ^ 32 := Nat.mod_lt _ (by decide)
  rw [grownCount, dirBlockCount, Inode.iSize_setSize _ hlt]

section Appended

variable {inode : Inode} (hd : Directory e f s k os) (hsize : 0 < s.super.blockSize)
  (happ : Appended e f s k num x fileType inode t)

include happ

theorem Appended.count : dirBlockCount t.super (Function.update f k inode k) =
    grownCount f s k := by
  rw [grownCount_eq, Function.update_self, dirBlockCount, happ.size, happ.geometry.blockSize]

theorem Appended.dataBlock_last : t.dataBlock e (Function.update f k inode) k
    (dirBlockCount s.super (f k)) =
      (t.forest e (Function.update f k inode)).ref (behindLast f s k) :=
  State.dataBlock_congr happ.geometry _

include hd hsize

/-- The blocks that were there say what they said. -/
theorem Appended.block {j : Nat} (hj : j < dirBlockCount s.super (f k)) :
    t.dataBlock e (Function.update f k inode) k j = s.dataBlock e f k j ∧
      ∀ b, b < s.super.blockSize → t.block e (t.dataBlock e (Function.update f k inode) k j) b =
        s.block e (s.dataBlock e f k j) b :=
  happ.kept.dirBlock happ.geometry hsize hj
    (fun heq => absurd (filePos_inj heq).2 (Nat.ne_of_lt hj)) (hd.mapped hj)

/-- A directory to which a new block adds its record has room for it. -/
theorem Appended.room_of_gains (habsent : x ∉ (dirEntries e f s k os).map Prod.fst)
    (h : Gains e f s (Function.update f k inode) t k os x num) :
    s.super.blockSize ≤ 32768 ∧ grownCount f s k = dirBlockCount s.super (f k) + 1 ∧
      (missing e f s (behindLast f s k)).card < s.super.sFreeBlocksCount := by
  have hle := s.super.le_blockSize hsize
  have hu := u16_blockSize hsize
  have hu16 : u16 s.super.blockSize < 2 ^ 16 := Nat.mod_lt _ (by decide)
  obtain ⟨os', hd', hgain⟩ := h
  have hchain : ∀ {j}, j < grownCount f s k → Dirent.Chain s.super.blockSize
      (t.block e (t.dataBlock e (Function.update f k inode) k j)) 0 (os' j) := fun {j} hj => by
    rw [← happ.count] at hj
    have hchain := hd'.chain hj
    rwa [happ.geometry.blockSize] at hchain
  have hgrown : grownCount f s k = dirBlockCount s.super (f k) + 1 := by
    by_contra hne
    have hle' : grownCount f s k ≤ dirBlockCount s.super (f k) + 1 := by
      rw [grownCount_eq]
      exact ceilDiv_add_le (getLE_lt _ 4 4) hsize s.super.blockSize_lt
    -- the name would have to be in a block that was there
    have hmem : (x, num) ∈ dirEntries e (Function.update f k inode) t k os' :=
      hgain.symm.subset List.mem_cons_self
    obtain ⟨j, hj, hjm⟩ := List.mem_flatMap.mp hmem
    rw [List.mem_range, happ.count] at hj
    have hj' : j < dirBlockCount s.super (f k) := by omega
    have hbytes := (happ.block hd hsize hj').2
    have hos : os' j = os j := (hchain hj).unique ((hd.chain hj').of_block hbytes)
    rw [hos, blockEntries_congr (hd.chain hj') hbytes] at hjm
    exact habsent (List.mem_map.mpr ⟨(x, num),
      List.mem_flatMap.mpr ⟨j, List.mem_range.mpr hj', hjm⟩, rfl⟩)
  have hlt : dirBlockCount s.super (f k) < grownCount f s k := by omega
  have hne : t.dataBlock e (Function.update f k inode) k (dirBlockCount s.super (f k)) ≠ 0 :=
    hd'.mapped (by rwa [happ.count])
  rw [happ.dataBlock_last] at hne
  rcases happ.last with ⟨hfree, -, hbytes⟩ | ⟨-, hzero⟩
  · refine ⟨?_, hgrown, hfree⟩
    by_contra hbig
    rw [if_neg hbig] at hu
    have hlast := hchain hlt
    rw [happ.dataBlock_last] at hlast
    obtain ⟨-, -, hok, -, -⟩ := (hlast.of_block fun j hj => (hbytes j hj).symm).head hsize
    have hroom := hok.room
    have hheader : direntHeader = 8 := rfl
    rw [Dirent.direntRecLen_put hu16, hu] at hroom
    omega
  · exact absurd hzero hne

variable (hx : x ≠ []) (hlen : x.length < 256) (hnul : 0 ∉ x)
  (habsent : x ∉ (dirEntries e f s k os).map Prod.fst) (hnum : num ≠ 0) (hnum' : num < 2 ^ 32)

include hx hlen hnul habsent hnum hnum'

/-- Where there is room, the new block adds its record. -/
theorem Appended.gains_of_room (hsmall : s.super.blockSize ≤ 32768)
    (hgrown : grownCount f s k = dirBlockCount s.super (f k) + 1)
    (hfree : (missing e f s (behindLast f s k)).card < s.super.sFreeBlocksCount) :
    Gains e f s (Function.update f k inode) t k os x num := by
  have hle := s.super.le_blockSize hsize
  have hu := u16_blockSize hsize
  have hu16 : u16 s.super.blockSize < 2 ^ 16 := Nat.mod_lt _ (by decide)
  rw [if_pos hsmall] at hu
  obtain ⟨hne, hbytes⟩ :
    (t.forest e (Function.update f k inode)).ref (behindLast f s k) ≠ 0 ∧ _ := by
    rcases happ.last with ⟨-, hlast⟩ | ⟨hno, -⟩
    · exact hlast
    · omega
  have hheader : direntHeader = 8 := rfl
  have hdvd : 4 ∣ s.super.blockSize := Nat.dvd_trans (by decide) s.super.dvd_blockSize
  obtain ⟨hok, hlive, hentry⟩ := Dirent.put_ok (fun _ => 0) 0 fileType
    hnum' (hu ▸ hu16) hlen (by omega) hdvd hnul hnum hx
  rw [hu] at hbytes
  have hnew : Dirent.Chain s.super.blockSize
      (putDirent (fun _ => 0) 0 num s.super.blockSize x fileType) 0 [0] := by
    refine .cons hsize hok ?_
    rw [Dirent.direntRecLen_put (hu ▸ hu16), Nat.zero_add]
    exact .nil
  have hlast : ∀ j, j < s.super.blockSize →
      t.block e (t.dataBlock e (Function.update f k inode) k (dirBlockCount s.super (f k))) j =
        putDirent (fun _ => 0) 0 num s.super.blockSize x fileType j := by
    rw [happ.dataBlock_last]
    exact hbytes
  obtain ⟨os', hos'⟩ :
    ∃ os', os' = Function.update os (dirBlockCount s.super (f k)) [0] := ⟨_, rfl⟩
  have hself : os' (dirBlockCount s.super (f k)) = [0] := by rw [hos', Function.update_self]
  have hother : ∀ {j}, j < dirBlockCount s.super (f k) → os' j = os j := fun hj => by
    rw [hos', Function.update_of_ne (Nat.ne_of_lt hj)]
  have hentries : dirEntries e (Function.update f k inode) t k os' =
      dirEntries e f s k os ++ [(x, num)] := by
    rw [dirEntries, dirEntries, happ.count, hgrown, List.range_succ, List.flatMap_append]
    congr 1
    · refine List.flatMap_congr fun j hj => ?_
      have hj := List.mem_range.mp hj
      rw [hother hj, blockEntries_congr (hd.chain hj) (happ.block hd hsize hj).2]
    · rw [List.flatMap_singleton, hself, blockEntries, hnew.tiles.entries_of_block hlast,
        Dirent.entries_cons_live hlive, hentry]
      rfl
  have hgain : (dirEntries e (Function.update f k inode) t k os').Perm
      ((x, num) :: dirEntries e f s k os) := hentries ▸ List.perm_append_singleton _ _
  refine ⟨os', ⟨?_, fun {j} hj => ?_, fun {j} hj => ?_,
    (hd.distinct_gain habsent).perm hgain.symm⟩, hgain⟩
  · rw [Function.update_self, happ.isDir]
    exact hd.isDir
  · rw [happ.count, hgrown] at hj
    rcases Nat.lt_or_eq_of_le (Nat.le_of_lt_succ hj) with hj | rfl
    · rw [(happ.block hd hsize hj).1]
      exact hd.mapped hj
    · rw [happ.dataBlock_last]
      exact hne
  · rw [happ.count, hgrown] at hj
    rw [happ.geometry.blockSize]
    rcases Nat.lt_or_eq_of_le (Nat.le_of_lt_succ hj) with hj | rfl
    · rw [hother hj]
      exact (hd.chain hj).of_block (happ.block hd hsize hj).2
    · rw [hself]
      exact hnew.of_block hlast

/-- **A new block makes the directory right** when its length fits into 16 bits, the size of the
directory can grow, and there were blocks for the pointer blocks. -/
theorem Appended.gains_iff : Gains e f s (Function.update f k inode) t k os x num ↔
    s.super.blockSize ≤ 32768 ∧ grownCount f s k = dirBlockCount s.super (f k) + 1 ∧
      (missing e f s (behindLast f s k)).card < s.super.sFreeBlocksCount := by
  constructor
  · exact happ.room_of_gains hd hsize habsent
  · rintro ⟨hsmall, hgrown, hfree⟩
    exact happ.gains_of_room hd hsize hx hlen hnul habsent hnum hnum' hsmall hgrown hfree

end Appended

/-! ## When `AddEntry` does what it should -/

omit [DecidableEq κ] in
theorem Directory.answers (he : e.Reliable) (hd : Directory e f s k os)
    (hsize : 0 < s.super.blockSize) (x : List UInt8) :
    Answers e (f k) s x ((dirEntries e f s k os).lookup x) :=
  hd.listing.answers he hsize x

/-- After `AddEntry` the directory is well formed, `FindEntry` of the new name gives the new inode,
and of every other name it gives what it gave before. -/
structure AddRight (e : Env) (f : κ → Inode) (s : State) (k : κ) (x : List UInt8) (num : Nat)
    (inode : Inode) (t : State) : Prop where
  directory : ∃ os, Directory e (Function.update f k inode) t k os
  new : Answers e inode t x (some num)
  other {y : List UInt8} {r : Option Nat} :
    y ≠ x → Answers e (f k) s y r → Answers e inode t y r

/-- The condition for it: the first record with room is live, or the bytes behind the new record are
right already; and where no record has room, a block is short enough, the size can grow, and there
is a free block besides those for the pointer blocks that are missing. -/
structure AddSafe (e : Env) (f : κ → Inode) (s : State) (k : κ) (os : Nat → List Nat)
    (x : List UInt8) : Prop where
  reuse {i a : Nat} : FirstRoom e f s k os x.length i a →
    direntInode (s.block e (s.dataBlock e f k i)) a = 0 → Reusable e f s k os x.length i a
  grow : Crowded e f s k os x.length → s.super.sFreeBlocksCount ≠ 0 →
    s.super.blockSize ≤ 32768 ∧ grownCount f s k = dirBlockCount s.super (f k) + 1 ∧
      (missing e f s (behindLast f s k)).card < s.super.sFreeBlocksCount

omit [DecidableEq κ] in
theorem FirstRoom.unique {len i a j b : Nat} (h : FirstRoom e f s k os len i a)
    (h' : FirstRoom e f s k os len j b) : i = j ∧ a = b := by
  have hnot :
    ∀ {i a j b}, FirstRoom e f s k os len i a → FirstRoom e f s k os len j b → ¬ i < j := by
    intro i a j b h h' hlt
    have hroom := List.find?_some h.first
    exact h'.before hlt a (List.mem_of_find?_eq_some h.first) (by simpa using hroom)
  have hij : i = j := Nat.le_antisymm (Nat.not_lt.mp (hnot h' h)) (Nat.not_lt.mp (hnot h h'))
  subst hij
  exact ⟨rfl, Option.some.inj (h.first.symm.trans h'.first)⟩

omit [DecidableEq κ] in
theorem FirstRoom.not_crowded {len i a : Nat} (h : FirstRoom e f s k os len i a) :
    ¬ Crowded e f s k os len := fun hc => by
  have hroom := List.find?_some h.first
  exact hc i h.block a (List.mem_of_find?_eq_some h.first) (by simpa using hroom)

section Right

variable (he : e.Reliable)

include he

/-- What the searches give says what the directory says. -/
theorem addRight_iff_gains {inode : Inode} (hd : Directory e f s k os)
    (hsize : 0 < s.super.blockSize) (hsize' : 0 < t.super.blockSize)
    (habsent : x ∉ (dirEntries e f s k os).map Prod.fst) :
    AddRight e f s k x num inode t ↔ Gains e f s (Function.update f k inode) t k os x num := by
  have hself : Function.update f k inode k = inode := Function.update_self k inode f
  have hlookup : ∀ y, y ≠ x → ((x, num) :: dirEntries e f s k os).lookup y =
      (dirEntries e f s k os).lookup y := fun y hy => by
    rw [List.lookup_cons, beq_false_of_ne hy]
  have hlookupSelf : ((x, num) :: dirEntries e f s k os).lookup x = some num := by
    rw [List.lookup_cons, beq_self_eq_true]
  constructor
  · intro h
    obtain ⟨os', hd'⟩ := h.directory
    refine ⟨os', hd', perm_of_lookup (hd.distinct_gain habsent) hd'.distinct fun y => ?_⟩
    have hanswer := hd'.answers he hsize' y
    rw [hself] at hanswer
    by_cases hy : y = x
    · rw [hy] at hanswer ⊢
      rw [hlookupSelf]
      exact hanswer.unique h.new
    · rw [hlookup y hy]
      exact hanswer.unique (h.other hy (hd.answers he hsize y))
  · rintro ⟨os', hd', hgain⟩
    have hsame := lookup_perm hd'.distinct hgain
    have hanswer : ∀ y, Answers e inode t y (((x, num) :: dirEntries e f s k os).lookup y) := by
      intro y
      have hanswer := hd'.answers he hsize' y
      rwa [hself, hsame] at hanswer
    refine ⟨⟨os', hd'⟩, hlookupSelf ▸ hanswer x, fun {y r} hy hr => ?_⟩
    rw [hr.unique (hd.answers he hsize y), ← hlookup y hy]
    exact hanswer y

/-- **When `AddEntry` does what it should.**  On a volume with right counts and sound block maps,
for a well-formed directory and a name that is not in it: whenever the call returns `0`, the
directory is well formed again and says in addition that the name has the inode, exactly when the
directory is safe. -/
theorem addEntry_right_iff (h : Files e f s) (hc : Counted e s) (hd : Directory e f s k os)
    (hx : x ≠ []) (hlen : x.length < 256) (hnul : 0 ∉ x) (habsent : Answers e (f k) s x none)
    (hnum : num ≠ 0) (hnum' : num < 2 ^ 32) :
    (∀ n, s.super.blockSize < n → Ends (addEntry e (f k) num x fileType n) s (fun _ => False)
      fun r t => r.1 = 0 → AddRight e f s k x num r.2 t) ↔ AddSafe e f s k os x := by
  have hsize := h.consistent.roles.size_pos
  have habsent : x ∉ (dirEntries e f s k os).map Prod.fst :=
    lookup_isNone_iff.mp (habsent.unique (hd.answers he hsize x)).symm
  -- what the outcomes are worth
  have hplaced : ∀ {i a buf t}, FirstRoom e f s k os x.length i a →
      (∀ j, j < s.super.blockSize → buf j = s.block e (s.dataBlock e f k i) j) →
      Written e (s.dataBlock e f k i) (Dirent.placed buf a num x fileType) s t →
      (AddRight e f s k x num (f k) t ↔
        (direntInode (s.block e (s.dataBlock e f k i)) a = 0 →
          Reusable e f s k os x.length i a)) := by
    intro i a buf t hfirst hbuf hw
    rw [addRight_iff_gains he hd hsize (by rwa [hw.super]) habsent, Function.update_eq_self]
    exact gains_placed_iff h hd habsent hfirst hw hx hlen hnul hnum hnum' hbuf
  have happended : ∀ {inode t}, Appended e f s k num x fileType inode t →
      (AddRight e f s k x num inode t ↔ s.super.blockSize ≤ 32768 ∧
        grownCount f s k = dirBlockCount s.super (f k) + 1 ∧
          (missing e f s (behindLast f s k)).card < s.super.sFreeBlocksCount) := by
    intro inode t happ
    rw [addRight_iff_gains he hd hsize (by rwa [happ.geometry.blockSize]) habsent]
    exact happ.gains_iff hd hsize hx hlen hnul habsent hnum hnum'
  constructor
  · intro hright
    have hn := Nat.lt_succ_self s.super.blockSize
    obtain ⟨r, t, -, hr, hadded⟩ := ((hright _ hn).and (addEntry_ends num fileType he h hc
      hd hlen hn)).mono_error (fun _ hf => hf.1) |>.exists_ok
    refine ⟨fun hfirst hdead => ?_, fun hcrowded hfree => ?_⟩
    · cases hadded with
      | placed hfirst' hbuf hw =>
          obtain ⟨rfl, rfl⟩ := hfirst.unique hfirst'
          exact (hplaced hfirst' hbuf hw).mp (hr rfl) hdead
      | full hcrowded _ => exact absurd hcrowded hfirst.not_crowded
      | appended hcrowded _ _ => exact absurd hcrowded hfirst.not_crowded
    · cases hadded with
      | placed hfirst _ _ => exact absurd hcrowded hfirst.not_crowded
      | full _ hzero => exact absurd hzero hfree
      | appended _ _ happ => exact (happended happ).mp (hr rfl)
  · intro hsafe n hn
    refine (addEntry_ends num fileType he h hc hd hlen hn).mono ?_
    intro r t hadded hcode
    cases hadded with
    | placed hfirst hbuf hw => exact (hplaced hfirst hbuf hw).mpr (hsafe.reuse hfirst)
    | full _ _ => exact absurd (show (-5 : Int) = 0 from hcode) (by decide)
    | appended hcrowded hfree happ => exact (happended happ).mpr (hsafe.grow hcrowded hfree)

end Right

/-! ## A directory of one dead record -/

namespace Small

/-- The small volume with one dead record in block 7, as long as the block. -/
def vacant : State := (volume 0 0xFF).put (store (volume 0 0xFF).disk [(7172, 2, 1024)])

theorem written_vacant : Written (Env.ideal 0) 7 (vacant.block (Env.ideal 0) 7) (volume 0 0xFF)
    vacant where
  super := rfl
  noSpace := rfl
  self _ := rfl
  of_ne {y i} hy hi := by
    rw [blockSize_volume Nat.two_pos] at hi
    have horigin : (volume 0 0xFF).origin (Env.ideal 0) y = y * 1024 := by
      rw [State.origin, blockSize_volume Nat.two_pos]
      exact Nat.zero_add _
    show setLE (volume 0 0xFF).disk 7172 2 1024 ((volume 0 0xFF).origin (Env.ideal 0) y + i) = _
    rw [setLE_of_not_mem (by rw [horigin]; omega)]
    rfl

theorem notMeta_seven : ¬ Meta (Env.ideal 0) (volume 0 0xFF) 7 := fun hm =>
  absurd (meta_volume Nat.two_pos hm) (by decide)

theorem counted_vacant : Counted (Env.ideal 0) vacant :=
  counted_small.written written_vacant notMeta_seven

/-- The blocks of the directory are sound where block 7 is a block of data. -/
theorem files_of_owned (hc : Consistent (Env.ideal 0) s) (h : Owned (Env.ideal 0) s 7) :
    Files (Env.ideal 0) (fileOf dirInode) s where
  consistent := hc
  unshared p q hp hq hne heq := by
    rw [(ref_dirInode hp hne).1, (ref_dirInode hq (heq ▸ hne)).1]
  owned {p} hp hne := by
    rw [(ref_dirInode hp hne).2]
    exact h

/-- So they are on every volume with the bits of the small one. -/
theorem files_dirInode (h : SameBits (Env.ideal 0) (volume 0 0xFF) s) :
    Files (Env.ideal 0) (fileOf dirInode) s := by
  have hbit : (volume 0 0xFF).bit (Env.ideal 0) .block 7 = true := by decide
  refine files_of_owned (h.consistent counted_small.consistent)
    (h.owned ⟨fun hf => ?_, notMeta_seven⟩)
  have hclear := hf.clear
  rw [hbit] at hclear
  cases hclear

theorem files_vacant : Files (Env.ideal 0) (fun _ : Unit => dirInode) vacant :=
  files_dirInode (written_vacant.sameBits counted_small.roles notMeta_seven)

theorem directory_vacant :
    Directory (Env.ideal 0) (fun _ : Unit => dirInode) vacant () fun _ => [0] := by
  have hcount : dirBlockCount vacant.super dirInode = 1 := by decide
  have hblock : vacant.dataBlock (Env.ideal 0) (fun _ : Unit => dirInode) () 0 = 7 := by
    decide
  refine ⟨by decide, fun {i} hi => ?_, fun {i} hi => ?_, ?_⟩
  · rw [hcount, Nat.lt_one_iff] at hi
    rw [hi, hblock]
    decide
  · rw [hcount, Nat.lt_one_iff] at hi
    rw [hi, hblock]
    have hrec : direntRecLen (vacant.block (Env.ideal 0) 7) 0 = 1024 := by decide
    refine .cons (by decide) ⟨?_, ?_, fun hlive => absurd hlive.1 ?_⟩ ?_
    · decide +kernel
    · rw [hrec]
      decide
    · decide +kernel
    · rw [hrec]
      exact .nil
  · have hentries : dirEntries (Env.ideal 0) (fun _ : Unit => dirInode) vacant ()
        (fun _ => [0]) = [] := by
      decide +kernel
    rw [hentries]
    exact .nil

theorem absent_vacant (x : List UInt8) : Answers (Env.ideal 0) dirInode vacant x none := by
  have hentries : dirEntries (Env.ideal 0) (fun _ : Unit => dirInode) vacant ()
      (fun _ => [0]) = [] := by
    decide +kernel
  have hanswers := directory_vacant.answers (Env.ideal_reliable 0) (by decide) x
  rwa [hentries] at hanswers

end Small

/-- **A dead record that is taken over is cut off.**  `AddEntry` returns `0` for a well-formed
directory of one dead record, and behind the new record the directory is not a chain any more. -/
theorem addEntry_cuts_dead_record :
    (Env.ideal 0).Reliable ∧ Counted (Env.ideal 0) Small.vacant ∧
      Files (Env.ideal 0) (fun _ : Unit => Small.dirInode) Small.vacant ∧
      Directory (Env.ideal 0) (fun _ : Unit => Small.dirInode) Small.vacant () (fun _ => [0]) ∧
      Answers (Env.ideal 0) Small.dirInode Small.vacant [97] none ∧
      ∃ inode t, addEntry (Env.ideal 0) Small.dirInode 12 [97] 1 1025 Small.vacant =
        .ok ((0, inode), t) ∧
          ¬ AddRight (Env.ideal 0) (fun _ : Unit => Small.dirInode) Small.vacant () [97] 12 inode
            t := by
  refine ⟨Env.ideal_reliable 0, Small.counted_vacant, Small.files_vacant, Small.directory_vacant,
    Small.absent_vacant _, ?_⟩
  -- where the first two records of the block lie afterwards
  have hrun : (addEntry (Env.ideal 0) Small.dirInode 12 [97] 1 1025 Small.vacant).toOption.map
      (fun r => (r.1.1, r.2.super.blockSize,
        (dirBlockCount r.2.super (Function.update (fun _ : Unit => Small.dirInode) () r.1.2 ()),
          direntRecLen (r.2.block (Env.ideal 0) (r.2.dataBlock (Env.ideal 0)
            (Function.update (fun _ : Unit => Small.dirInode) () r.1.2) () 0)) 0,
          direntRecLen (r.2.block (Env.ideal 0) (r.2.dataBlock (Env.ideal 0)
            (Function.update (fun _ : Unit => Small.dirInode) () r.1.2) () 0)) 12))) =
      some (0, 1024, 1, 12, 0) := by
    decide +kernel
  obtain ⟨⟨⟨code, inode⟩, t⟩, hrun, heq⟩ := Option.map_eq_some_iff.mp hrun
  simp only [Prod.mk.injEq] at heq
  obtain ⟨rfl, hsize, hcount, hfirst, hsecond⟩ := heq
  refine ⟨inode, t, eq_ok_of_toOption hrun, fun hright => ?_⟩
  obtain ⟨os, hd⟩ := hright.directory
  have hchain := hd.chain (hcount ▸ Nat.zero_lt_one)
  rw [hsize] at hchain
  obtain ⟨_, -, -, -, hrest⟩ := hchain.head (by decide)
  rw [hfirst] at hrest
  obtain ⟨_, -, hok, -, -⟩ := hrest.head (by decide)
  have hroom := hok.room
  rw [Nat.zero_add, hsecond] at hroom
  exact absurd hroom (by rw [direntHeader]; omega)

/-- The name `a` in the directory of one dead record. -/
theorem addEntry_right_iff_small :
    (∀ n, Small.vacant.super.blockSize < n →
      Ends (addEntry (Env.ideal 0) Small.dirInode 12 [97] 1 n) Small.vacant (fun _ => False)
        fun r t => r.1 = 0 → AddRight (Env.ideal 0) (fun _ : Unit => Small.dirInode) Small.vacant ()
          [97] 12 r.2 t) ↔
      AddSafe (Env.ideal 0) (fun _ : Unit => Small.dirInode) Small.vacant () (fun _ => [0]) [97] :=
  addEntry_right_iff (f := fun _ : Unit => Small.dirInode) (Env.ideal_reliable 0)
    Small.files_vacant Small.counted_vacant Small.directory_vacant (by decide) (by decide)
    (by decide) (Small.absent_vacant _) (by decide) (by decide)

end InfoKernel.Ext2
