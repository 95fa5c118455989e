import InfoKernel.Fs.Counts

/-!
# The room before the descriptors run out

An allocator searches the groups one behind the other, and the descriptors of the first of them lie
in the block that descriptors are read from.  `State.room` is the number of bits that it can still
take there: of each group as many as are free, and no more than its descriptor counts.

`AllocBlock` takes one of them, or it finds that there is no room.  Then all groups that it searches
have their descriptors in that block, and it returns `0`; or it comes to one that has not
(`allocBlock_room`).  Nothing is said of the count in the superblock, which no search looks at.
-/

namespace InfoKernel.Ext2

open Lib

/-- The groups searched whose descriptors lie in the block they are read from. -/
def State.nearGroups (s : State) (k : Kind) : Finset Nat :=
  (Finset.range (s.searched k)).filter s.Fits

/-- How many bits of these groups an allocator can take. -/
def State.room (s : State) (e : Env) (k : Kind) : Nat :=
  ∑ g ∈ s.nearGroups k, min (k.free (s.desc e g)) (s.freeBits e k g).card

variable {e : Env} {s t : State} {k : Kind} {n : Nat}

theorem mem_nearGroups {g : Nat} : g ∈ s.nearGroups k ↔ g < s.searched k ∧ s.Fits g := by
  rw [State.nearGroups, Finset.mem_filter, Finset.mem_range]

/-- The descriptors before one in the block lie in it too. -/
theorem State.Fits.of_le {g g' : Nat} (h : s.Fits g) (hle : g' ≤ g) : s.Fits g' := by
  have hmul : GroupDesc.size * g' ≤ GroupDesc.size * g := Nat.mul_le_mul_left _ hle
  have h : GroupDesc.size * g + GroupDesc.size ≤ s.super.blockSize := h
  show GroupDesc.size * g' + GroupDesc.size ≤ s.super.blockSize
  omega

/-- Where there is room, a bit can be taken. -/
theorem exists_free_of_room (hr : Roles e s) (hroom : 0 < s.room e k) :
    ∃ n, Free e s k n ∧ n / k.perGroup s.super ∈ s.nearGroups k ∧
      k.free (s.desc e (n / k.perGroup s.super)) ≠ 0 := by
  obtain ⟨g, hg, hpos⟩ := Finset.sum_pos_iff.mp hroom
  obtain ⟨hcount, hcard⟩ := Nat.lt_min.mp hpos
  obtain ⟨i, hi⟩ := Finset.card_pos.mp hcard
  have hlt := (mem_freeBits.mp hi).1
  have hgroup := Nat.lt_of_lt_of_le (mem_nearGroups.mp hg).1 (State.searched_le (hr.per_pos k))
  refine ⟨g * k.perGroup s.super + i, (free_iff_mem hgroup hlt).mpr hi, ?_⟩
  rw [(number_div_mod hlt).1]
  exact ⟨hg, Nat.ne_of_gt hcount⟩

/-- The search comes to a descriptor that it cannot read where there is no room before. -/
theorem Strays.room {f : Fault} (hr : Roles e s) (h : Strays e k (s.searched k) s f) :
    s.room e k = 0 ∧ ¬ s.SearchFits k := by
  obtain ⟨-, g, hg, hfit, hpassed⟩ := h
  refine ⟨Nat.eq_zero_of_not_pos fun hroom => ?_, fun hall => hfit (hall g hg)⟩
  obtain ⟨n, hf, hn, hcount⟩ := exists_free_of_room hr hroom
  refine hcount (hpassed n ?_ hf)
  by_contra hle
  exact hfit ((mem_nearGroups.mp hn).2.of_le (Nat.le_of_not_lt hle))

/-! ## What changes the room -/

/-- A bit that an allocator takes. -/
theorem Flip.room {b : Nat} {C : Nat → Prop}
    (h : Flip e k n true (k.free (s.desc e (n / k.perGroup s.super)) - 1) b C s t) (hr : Roles e s)
    (hf : Free e s k n) (hn : n / k.perGroup s.super ∈ s.nearGroups k)
    (hcount : k.free (s.desc e (n / k.perGroup s.super)) ≠ 0) : s.room e k = t.room e k + 1 := by
  have hnear : t.nearGroups k = s.nearGroups k := by
    ext g
    rw [mem_nearGroups, mem_nearGroups, h.layout.searched, State.Fits, State.Fits,
      h.layout.geometry.blockSize]
  have hother : ∀ g ∈ (s.nearGroups k).erase (n / k.perGroup s.super),
      min (k.free (t.desc e g)) (t.freeBits e k g).card =
        min (k.free (s.desc e g)) (s.freeBits e k g).card := by
    intro g hg
    obtain ⟨hne, hg⟩ := Finset.mem_erase.mp hg
    have hgroup := Nat.lt_of_lt_of_le (mem_nearGroups.mp hg).1 (State.searched_le (hr.per_pos k))
    rw [h.free hgroup, if_neg fun hc => hne hc.2, h.freeBits_of_ne hgroup fun hc => hne hc.2]
  have hself : min (k.free (s.desc e (n / k.perGroup s.super)))
      (s.freeBits e k (n / k.perGroup s.super)).card =
        min (k.free (t.desc e (n / k.perGroup s.super)))
          (t.freeBits e k (n / k.perGroup s.super)).card + 1 := by
    have hlt : k.free (s.desc e (n / k.perGroup s.super)) < 2 ^ 16 := by
      cases k <;> exact getLE_lt _ _ _
    have hmem := hf.mem (hr.per_pos k)
    have hcard := Finset.card_erase_add_one hmem
    rw [h.free hf.group, if_pos ⟨rfl, rfl⟩, Nat.mod_eq_of_lt (by omega),
      h.freeBits_take hf.group]
    omega
  rw [State.room, State.room, hnear, ← Finset.add_sum_erase _ _ hn, ← Finset.add_sum_erase _ _ hn,
    Finset.sum_congr rfl hother, hself]
  omega

/-- Descriptors and bits are all that matters. -/
theorem SameBits.room (h : SameBits e s t) (hr : Roles e s) : t.room e k = s.room e k := by
  have hnear : t.nearGroups k = s.nearGroups k := by
    ext g
    rw [mem_nearGroups, mem_nearGroups, h.layout.searched, State.Fits, State.Fits,
      h.layout.geometry.blockSize]
  rw [State.room, State.room, hnear]
  refine Finset.sum_congr rfl fun g hg => ?_
  have hgroup := Nat.lt_of_lt_of_le (mem_nearGroups.mp hg).1 (State.searched_le (hr.per_pos k))
  rw [h.free hgroup, h.freeBits hgroup]

theorem NewBlock.room (h : NewBlock e n s t) (hr : Roles e s) :
    s.room e .block = t.room e .block + 1 :=
  h.flip.room hr h.free (mem_nearGroups.mpr ⟨h.searched, h.fits⟩) h.counted

/-- Where `AllocBlock` returns `0` there is no room. -/
theorem NoBlock.room (h : NoBlock e s t) (hr : Roles e s) : s.room e .block = 0 := by
  refine Nat.eq_zero_of_not_pos fun hroom => ?_
  obtain ⟨n, hf, hn, hcount⟩ := exists_free_of_room hr hroom
  exact hcount (h.passed n (mem_nearGroups.mp hn).1 hf)

/-- **`AllocBlock` and the room**: it does not return where there is none and the search goes on to
a group whose descriptor lies elsewhere. -/
theorem allocBlock_room (he : e.Reliable) (hr : Roles e s)
    (hused : ∀ x, Meta e s x → ¬ Free e s .block x) :
    Ends (allocBlock e) s (fun _ => s.room e .block = 0 ∧ ¬ s.SearchFits .block) fun n t =>
      (n = 0 ∧ NoBlock e s t ∧ s.room e .block = 0) ∨
        (NewBlock e n s t ∧ s.room e .block = t.room e .block + 1) := by
  refine ((allocBlock_strays he hr hused).mono ?_).mono_error fun f hf => hf.room hr
  rintro n t (⟨h0, hno⟩ | hnew)
  · exact .inl ⟨h0, hno, hno.room hr⟩
  · exact .inr ⟨hnew, hnew.room hr⟩

end InfoKernel.Ext2
