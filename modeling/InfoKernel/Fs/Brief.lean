import InfoKernel.Fs.Inode
import InfoKernel.Fs.Volume

/-!
# Calls of bounded length

The loops of the allocators run over groups and bits, and those of `SetBlockNum` over the levels of
a tree; none of them waits for something that it finds on the disk.  `Brief` says this of a
program: it never uses up a fuel, and, when device and memory do not fail, its outcome is the same
at any time; it also leaves the geometry of the volume alone.  It is closed under sequencing and
branching, as `Looks` is, and it holds of `AllocBlock` and `SetBlockNum`, which change the volume.
-/

namespace InfoKernel.Ext2

open Lib

variable {α β : Type} {e : Env} {s : State}

/-- The program does not run out of fuel, time does not matter to it, and it keeps the geometry of
the volume. -/
structure Brief (x : Io α) : Prop where
  fuel (s : State) : x s ≠ .error .outOfFuel
  at_time (s : State) (c : Nat) : ∃ c', x (s.at c) = (x s).map fun r => (r.1, r.2.at c')
  geometry {s t : State} {a : α} : x s = .ok (a, t) → s.super.SameGeometry t.super

namespace Brief

variable {x : Io α} {f : α → Io β}

/-- A program that has a result in every state. -/
theorem of_ok {g : State → α} {h : State → State} (hrun : ∀ s, x s = .ok (g s, h s))
    (hg : ∀ s c, g (s.at c) = g s) (hh : ∀ s c, ∃ c', h (s.at c) = (h s).at c')
    (hgeo : ∀ s : State, s.super.SameGeometry (h s).super) : Brief x where
  fuel s := by
    rw [hrun]
    exact nofun
  at_time s c := by
    obtain ⟨c', hc'⟩ := hh s c
    refine ⟨c', ?_⟩
    rw [hrun, hrun, hg, hc']
    rfl
  geometry {s t a} heq := by
    rw [hrun] at heq
    cases heq
    exact hgeo s

theorem pure (a : α) : Brief (pure a : Io α) :=
  of_ok (fun _ => rfl) (fun _ _ => rfl) (fun _ c => ⟨c, rfl⟩) fun _ =>
    SuperBlock.SameGeometry.refl _

theorem throw {err : Fault} (h : err ≠ .outOfFuel) : Brief (throw err : Io α) :=
  ⟨fun _ heq => h (Except.error.inj heq), fun _ c => ⟨c, rfl⟩, nofun⟩

theorem super : Brief super :=
  of_ok (fun _ => rfl) (fun _ _ => rfl) (fun _ c => ⟨c, rfl⟩) fun _ =>
    SuperBlock.SameGeometry.refl _

theorem returned (block : Nat) : Brief (returned block) :=
  of_ok (fun _ => rfl) (fun _ _ => rfl) (fun _ c => ⟨c, rfl⟩) fun _ =>
    SuperBlock.SameGeometry.refl _

theorem bind (hx : Brief x) (hf : ∀ a, Brief (f a)) : Brief (x >>= f) where
  fuel s := by
    cases h : x s with
    | error err =>
        have hne := hx.fuel s
        rw [bind_apply, h] at *
        exact fun heq => hne (by cases heq; rfl)
    | ok r =>
        rw [bind_apply, h]
        exact (hf r.1).fuel r.2
  at_time s c := by
    obtain ⟨c', hc'⟩ := hx.at_time s c
    cases h : x s with
    | error err =>
        rw [h] at hc'
        refine ⟨c, ?_⟩
        rw [bind_apply, bind_apply, hc', h]
        rfl
    | ok r =>
        rw [h] at hc'
        obtain ⟨c'', hc''⟩ := (hf r.1).at_time r.2 c'
        refine ⟨c'', ?_⟩
        rw [bind_apply, bind_apply, hc', h]
        exact hc''
  geometry {s t b} heq := by
    obtain ⟨r, hr, hrest⟩ := bind_eq_ok_iff.mp heq
    exact (hx.geometry hr).trans ((hf r.1).geometry hrest)

/-- The superblock in memory is changed, but not its geometry. -/
theorem changeSuper {g : SuperBlock → SuperBlock} {h : SuperBlock → Io β}
    (hg : ∀ sb : SuperBlock, sb.SameGeometry (g sb)) (hh : ∀ sb, Brief (h sb)) :
    Brief (do
      let sb ← Ext2.super
      setSuper (g sb)
      h sb) where
  fuel s := (hh s.super).fuel { s with super := g s.super }
  at_time s c := (hh s.super).at_time { s with super := g s.super } c
  geometry {s _ _} heq := (hg s.super).trans ((hh s.super).geometry heq)

theorem ite {p : Prop} [Decidable p] {y : Io α} (hx : p → Brief x) (hy : ¬ p → Brief y) :
    Brief (if p then x else y) := by
  by_cases h : p
  · rw [if_pos h]
    exact hx h
  · rw [if_neg h]
    exact hy h

end Brief

/-! ## The calls -/

section Calls

variable (he : e.Reliable)

include he

theorem brief_pageAlloc : Brief (pageAlloc e) :=
  Brief.of_ok (fun _ => pageAlloc_run he) (fun _ _ => rfl) (fun _ c => ⟨c + 1, rfl⟩)
    fun _ => SuperBlock.SameGeometry.refl _

theorem brief_devRead (sector count : Nat) : Brief (devRead e sector count) :=
  Brief.of_ok (fun _ => devRead_run he sector count) (fun _ _ => rfl) (fun _ c => ⟨c + 1, rfl⟩)
    fun _ => SuperBlock.SameGeometry.refl _

theorem brief_devWrite (sector count : Nat) (buf : Bytes) : Brief (devWrite e sector count buf) :=
  Brief.of_ok (fun _ => devWrite_run he sector count buf) (fun _ _ => rfl) (fun _ c => ⟨c + 1, rfl⟩)
    fun _ => SuperBlock.SameGeometry.refl _

theorem brief_readBlock (x : Nat) : Brief (readBlock e x) :=
  Brief.super.bind fun _ => brief_devRead he _ _

theorem brief_writeBlock (x : Nat) (buf : Bytes) : Brief (writeBlock e x buf) :=
  Brief.super.bind fun _ => brief_devWrite he _ _ buf

theorem brief_readGroupDesc (g : Nat) : Brief (readGroupDesc e g) := by
  refine Brief.super.bind fun sb => (brief_pageAlloc he).bind fun _ => ?_
  refine Brief.ite (fun _ => Brief.pure _) fun _ => (brief_devRead he _ _).bind fun r => ?_
  cases r with
  | none => exact Brief.pure _
  | some buf => exact Brief.ite (fun _ => Brief.pure _) fun _ => Brief.throw (by decide)

theorem brief_writeGroupDesc (g : Nat) (gd : GroupDesc) : Brief (writeGroupDesc e g gd) := by
  refine Brief.super.bind fun sb => (brief_pageAlloc he).bind fun _ => ?_
  refine Brief.ite (fun _ => Brief.pure _) fun _ => (brief_devRead he _ _).bind fun r => ?_
  cases r with
  | none => exact Brief.pure _
  | some buf =>
      refine Brief.ite (fun _ => ?_) fun _ => Brief.throw (by decide)
      exact (brief_devWrite he _ _ _).bind fun _ =>
        Brief.ite (fun _ => Brief.pure _) fun _ => Brief.pure _

theorem brief_writeSuperBlock : Brief (writeSuperBlock e) := by
  refine Brief.super.bind fun sb => (brief_pageAlloc he).bind fun _ => ?_
  refine Brief.ite (fun _ => Brief.pure _) fun _ => (brief_devWrite he _ _ _).bind fun _ => ?_
  exact Brief.ite (fun _ => Brief.pure _) fun _ => Brief.pure _

theorem brief_setCounts (k : Kind) (g : Nat) (gd : GroupDesc) (inGroup onVolume : Nat) :
    Brief (setCounts k e g gd inGroup onVolume) :=
  Brief.changeSuper (fun _ => k.sameGeometry_setSuperFree) fun _ =>
    (brief_writeGroupDesc he _ _).bind fun _ =>
      (brief_writeSuperBlock he).bind fun _ => Brief.pure _

theorem brief_takeBit (k : Kind) (g : Nat) (gd : GroupDesc) (bitmap : Bitmap) (i : Nat) :
    Brief (takeBit k e g gd bitmap i) := by
  refine (brief_writeBlock he _ _).bind fun _ => Brief.ite (fun _ => Brief.pure _) fun _ => ?_
  exact Brief.super.bind fun _ => (brief_setCounts he k _ _ _ _).bind fun _ => Brief.pure _

omit he in
/-- The search for a clear bit may leave the bitmap, and fails in no other way. -/
theorem findClear_ne_outOfFuel (k : Kind) (bitmap : Bitmap) (size start n i : Nat) :
    findClear k bitmap size start n i ≠ .error .outOfFuel := by
  induction n generalizing i with
  | zero => exact nofun
  | succ n ih =>
      rw [findClear]
      split
      · split
        · exact nofun
        · exact ih (i + 1)
      · exact nofun

theorem brief_allocBitFrom (k : Kind) (n g : Nat) : Brief (allocBitFrom k e n g) := by
  induction n generalizing g with
  | zero => exact Brief.pure _
  | succ n ih =>
      refine (brief_readGroupDesc he g).bind fun r => ?_
      cases r with
      | error code => exact ih (g + 1)
      | ok gd =>
          refine Brief.ite (fun _ => ih (g + 1)) fun _ => (brief_readBlock he _).bind fun r => ?_
          cases r with
          | none => exact ih (g + 1)
          | some bitmap =>
              refine Brief.super.bind fun sb => ?_
              have hfuel := findClear_ne_outOfFuel k bitmap sb.blockSize (g * k.perGroup sb)
                (k.perGroup sb - k.first sb (g * k.perGroup sb)) (k.first sb (g * k.perGroup sb))
              simp only []
              cases hclear : findClear k bitmap sb.blockSize (g * k.perGroup sb)
                  (k.perGroup sb - k.first sb (g * k.perGroup sb))
                  (k.first sb (g * k.perGroup sb)) with
              | error f => exact Brief.throw fun heq => hfuel (heq ▸ hclear)
              | ok found =>
                  cases found with
                  | none => exact ih (g + 1)
                  | some i => exact brief_takeBit he k g gd bitmap i

theorem brief_allocBlock : Brief (allocBlock e) := by
  refine Brief.bind (Brief.super.bind fun sb =>
    Brief.ite (fun _ => Brief.throw (by decide)) fun _ =>
    (brief_pageAlloc he).bind fun _ => Brief.ite (fun _ => Brief.pure _) fun _ =>
      brief_allocBitFrom he .block _ 0) fun r => ?_
  cases r with
  | none => exact Brief.returned 0
  | some block =>
      refine (brief_pageAlloc he).bind fun _ => Brief.ite (fun _ => ?_) fun _ =>
        Brief.returned block
      exact (brief_writeBlock he _ _).bind fun _ => Brief.returned block

omit he in
theorem pointerAt_ne_outOfFuel (size : Nat) {index : Except Fault Nat}
    (h : index ≠ .error .outOfFuel) : pointerAt size index ≠ .error .outOfFuel := by
  cases index with
  | error f => exact h
  | ok i =>
      rw [pointerAt]
      split
      · exact nofun
      · exact nofun

theorem brief_linkPtr {num x : Nat} {index : Except Fault Nat} (h : index ≠ .error .outOfFuel) :
    Brief (linkPtr e num x index) := by
  refine (brief_pageAlloc he).bind fun _ => Brief.ite (fun _ => Brief.pure _) fun _ => ?_
  refine (brief_readBlock he x).bind fun r => ?_
  cases r with
  | none => exact Brief.pure _
  | some buf =>
      refine Brief.super.bind fun sb => ?_
      have hfuel := pointerAt_ne_outOfFuel sb.blockSize h
      cases hptr : pointerAt sb.blockSize index with
      | error f => exact Brief.throw fun heq => hfuel (heq ▸ hptr)
      | ok i =>
          refine Brief.ite (fun _ => ?_) fun _ => ?_
          · refine Brief.ite (fun _ => Brief.pure _) fun _ =>
              (brief_allocBlock he).bind fun child => ?_
            refine Brief.ite (fun _ => Brief.pure _) fun _ =>
              (brief_writeBlock he _ _).bind fun _ => ?_
            exact Brief.ite (fun _ => Brief.pure _) fun _ => Brief.pure _
          · exact (brief_writeBlock he _ _).bind fun _ =>
              Brief.ite (fun _ => Brief.pure _) fun _ => Brief.pure _

theorem brief_storePtr {num x : Nat} {index : Except Fault Nat} (h : index ≠ .error .outOfFuel) :
    Brief (storePtr e num x index) := by
  refine (brief_pageAlloc he).bind fun _ => Brief.ite (fun _ => Brief.pure _) fun _ => ?_
  refine (brief_readBlock he x).bind fun r => ?_
  cases r with
  | none => exact Brief.pure _
  | some buf =>
      refine Brief.super.bind fun sb => ?_
      have hfuel := pointerAt_ne_outOfFuel sb.blockSize h
      cases hptr : pointerAt sb.blockSize index with
      | error f => exact Brief.throw fun heq => hfuel (heq ▸ hptr)
      | ok i =>
          exact (brief_writeBlock he _ _).bind fun _ =>
            Brief.ite (fun _ => Brief.pure _) fun _ => Brief.pure _

theorem brief_setLevel (num : Nat) (path : List (Except Fault Nat))
    (h : ∀ index ∈ path, index ≠ .error .outOfFuel) (x : Nat) : Brief (setLevel e num x path) := by
  induction path generalizing x with
  | nil => exact Brief.pure 0
  | cons index rest ih =>
      obtain ⟨hindex, hrest⟩ := List.forall_mem_cons.mp h
      cases rest with
      | nil => exact brief_storePtr he hindex
      | cons index' rest =>
          refine (brief_linkPtr he hindex).bind fun r => ?_
          cases r with
          | error code => exact Brief.pure code
          | ok child => exact ih hrest child

omit he in
/-- The indices on the way to a block may divide by zero, and fail in no other way. -/
theorem blockPath_ne_outOfFuel (p block : Nat) :
    ∀ index ∈ (blockPath p block).2, index ≠ .error .outOfFuel := by
  rw [blockPath]
  split
  · exact nofun
  · simp only []
    split
    · simp
    · split
      · simp
      · rw [checkedDiv]
        split <;> simp

theorem brief_setBlockNum (inode : Inode) (block num : Nat) :
    Brief (setBlockNum e inode block num) := by
  refine Brief.super.bind fun sb => ?_
  have hlevel := brief_setLevel he num _ (blockPath_ne_outOfFuel sb.ptrsPerBlock block)
  refine Brief.ite (fun _ => Brief.pure _) fun _ => Brief.ite (fun _ => ?_) fun _ => ?_
  · refine Brief.ite (fun _ => Brief.pure _) fun _ => (brief_allocBlock he).bind fun x => ?_
    exact Brief.ite (fun _ => Brief.pure _) fun _ => (hlevel x).bind fun _ => Brief.pure _
  · exact (hlevel _).bind fun _ => Brief.pure _

end Calls

end InfoKernel.Ext2
