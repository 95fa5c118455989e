import InfoKernel.Fs.Records

/-!
# Chains of records

The records that `AddEntry` makes have a length that is a multiple of 4, and it counts on the same
of the records it finds.  `Chain` says of a block that its records tile it and are of that form.

`AddEntry` takes the first record with room (`add_loop`), and what it makes of the block is a chain
again with one entry more: always when it splits the slack of a live record (`chain_split`), and
when it takes a dead record over, if the bytes behind the new record are a chain with the entries
that were there (`chain_reuse`).
-/

namespace InfoKernel.Ext2

open Lib

namespace Dirent

/-- The record is long enough for its name, which is a name when the record is live. -/
structure Ok (buf : Bytes) (o : Nat) : Prop where
  room : direntHeader + direntNameLen buf o ≤ direntRecLen buf o
  aligned : 4 ∣ direntRecLen buf o
  name : Live buf o → 0 ∉ name buf o

/-- The records from `o` on lie one behind the other up to the end of the block. -/
inductive Chain (size : Nat) (buf : Bytes) : Nat → List Nat → Prop
  | nil : Chain size buf size []
  | cons {o : Nat} {os : List Nat} :
      o < size → Ok buf o → Chain size buf (o + direntRecLen buf o) os →
      Chain size buf o (o :: os)

variable {size : Nat} {buf buf' : Bytes} {o : Nat} {os : List Nat} {x : List UInt8}

theorem Ok.fit (h : Ok buf o) : Fit buf o := ⟨h.room, h.name⟩

theorem Says.ok (h : Says buf buf' o) (hok : Ok buf o)
    (hroom : direntHeader + direntNameLen buf o ≤ direntRecLen buf' o)
    (haligned : 4 ∣ direntRecLen buf' o) : Ok buf' o :=
  ⟨(h.fit hok.fit hroom).room, haligned, (h.fit hok.fit hroom).name⟩

theorem Same.ok (h : Same buf buf' o) (hok : Ok buf o) : Ok buf' o :=
  h.toSays.ok hok (by rw [h.recLen]; exact hok.room) (by rw [h.recLen]; exact hok.aligned)

/-! ## Chains -/

namespace Chain

theorem tiling (h : Chain size buf o os) : Tiling (direntRecLen buf) size o os := by
  induction h with
  | nil => exact .nil
  | cons hlt _ _ ih => exact .cons hlt ih

theorem ok (h : Chain size buf o os) : ∀ a ∈ os, Ok buf a := by
  induction h with
  | nil => exact nofun
  | cons _ hok _ ih => exact List.forall_mem_cons.mpr ⟨hok, ih⟩

theorem of_tiling (h : Tiling (direntRecLen buf) size o os) (hok : ∀ a ∈ os, Ok buf a) :
    Chain size buf o os := by
  induction h with
  | nil => exact .nil
  | cons hlt _ ih =>
      obtain ⟨hhead, hrest⟩ := List.forall_mem_cons.mp hok
      exact .cons hlt hhead (ih hrest)

theorem tiles (h : Chain size buf o os) : Tiles size buf o os :=
  ⟨h.tiling, fun a ha => (h.ok a ha).fit⟩

theorem le (h : Chain size buf o os) : o ≤ size := h.tiling.le

/-- A record ends within the block. -/
theorem head (h : Chain size buf o os) (hlt : o < size) :
    ∃ rest, os = o :: rest ∧ Ok buf o ∧ o + direntRecLen buf o ≤ size ∧
      Chain size buf (o + direntRecLen buf o) rest := by
  cases h with
  | nil => exact absurd hlt (Nat.lt_irrefl _)
  | cons _ hok hrest => exact ⟨_, rfl, hok, hrest.le, hrest⟩

theorem unique {os' : List Nat} (h : Chain size buf o os) (h' : Chain size buf o os') :
    os = os' := h.tiling.unique h'.tiling

/-- Where the records of a chain lie. -/
theorem mem (h : Chain size buf o os) {a : Nat} (ha : a ∈ os) :
    o ≤ a ∧ Ok buf a ∧ a + direntRecLen buf a ≤ size := by
  obtain ⟨hle, -, hend⟩ := h.tiling.mem ha
  exact ⟨hle, h.ok a ha, hend⟩

theorem same (h : Chain size buf o os) (hsame : ∀ a ∈ os, Same buf buf' a) :
    Chain size buf' o os :=
  .of_tiling (h.tiles.same hsame).tiling fun a ha => (hsame a ha).ok (h.ok a ha)

theorem of_block (h : Chain size buf o os) (hbytes : ∀ i, i < size → buf' i = buf i) :
    Chain size buf' o os := h.same (h.tiles.same_of_block hbytes)

end Chain

/-! ## Filling in a record -/

section Put

variable {inode recLen : Nat} {fileType : UInt8}

theorem putDirent_of_not_mem {i : Nat} (h : i < o ∨ o + direntHeader + x.length ≤ i) :
    putDirent buf o inode recLen x fileType i = buf i := by
  have hheader : direntHeader = 8 := rfl
  rw [putDirent, copyIn_of_not_mem (by omega), Function.update_of_ne (by omega),
    Function.update_of_ne (by omega), setLE_of_not_mem (by omega), setLE_of_not_mem (by omega)]

/-- The header of the record, which the copying of the name leaves alone. -/
theorem putDirent_header {i : Nat} (h : i < o + direntHeader) :
    putDirent buf o inode recLen x fileType i =
      Function.update (Function.update (setLE (setLE buf o 4 inode) (o + 4) 2 recLen) (o + 6)
        (UInt8.ofNat x.length)) (o + 7) fileType i := by
  rw [putDirent, copyIn_of_not_mem (.inl h)]

theorem direntInode_put (h : inode < 2 ^ 32) :
    direntInode (putDirent buf o inode recLen x fileType) o = inode := by
  have hheader : direntHeader = 8 := rfl
  have hstored : getLE (setLE buf o 4 inode) o 4 = inode := getLE_setLE_of_lt h
  rw [direntInode, ← hstored]
  refine getLE_congr fun i hi hi' => ?_
  rw [putDirent_header (by omega), Function.update_of_ne (by omega),
    Function.update_of_ne (by omega),
    setLE_of_not_mem (by omega), hstored]

theorem direntRecLen_put (h : recLen < 2 ^ 16) :
    direntRecLen (putDirent buf o inode recLen x fileType) o = recLen := by
  have hheader : direntHeader = 8 := rfl
  have hstored : getLE (setLE (setLE buf o 4 inode) (o + 4) 2 recLen) (o + 4) 2 = recLen :=
    getLE_setLE_of_lt h
  rw [direntRecLen, ← hstored]
  refine getLE_congr fun i hi hi' => ?_
  rw [putDirent_header (by omega), Function.update_of_ne (by omega),
    Function.update_of_ne (by omega),
    hstored]

theorem direntNameLen_put (h : x.length < 256) :
    direntNameLen (putDirent buf o inode recLen x fileType) o = x.length := by
  have hheader : direntHeader = 8 := rfl
  rw [direntNameLen, putDirent_header (by omega), Function.update_of_ne (by omega),
    Function.update_self, UInt8.toNat_ofNat']
  exact Nat.mod_eq_of_lt h

theorem name_put (h : x.length < 256) :
    name (putDirent buf o inode recLen x fileType) o = x := by
  refine List.ext_getElem ?_ fun i hi hi' => ?_
  · rw [name_length, direntNameLen_put h]
  · rw [getElem_name, direntName, putDirent, copyIn_of_mem hi', List.getD_eq_getElem _ _ hi']

variable (buf o fileType) in
/-- What the new record says, and that it is well-formed. -/
theorem put_ok (hinode : inode < 2 ^ 32) (hrec : recLen < 2 ^ 16) (hlen : x.length < 256)
    (hroom : direntHeader + x.length ≤ recLen) (haligned : 4 ∣ recLen) (hnul : 0 ∉ x)
    (hne : inode ≠ 0) (hx : x ≠ []) :
    Ok (putDirent buf o inode recLen x fileType) o ∧
      Live (putDirent buf o inode recLen x fileType) o ∧
      entry (putDirent buf o inode recLen x fileType) o = (x, inode) := by
  refine ⟨⟨?_, ?_, fun _ => ?_⟩, ⟨?_, ?_⟩, ?_⟩
  · rw [direntNameLen_put hlen, direntRecLen_put hrec]
    exact hroom
  · rw [direntRecLen_put hrec]
    exact haligned
  · rw [name_put hlen]
    exact hnul
  · rw [direntInode_put hinode]
    exact hne
  · rw [direntNameLen_put hlen]
    exact List.length_pos_iff.mpr hx
  · rw [entry, name_put hlen, direntInode_put hinode]

end Put

/-! ## `AddEntry` -/

theorem direntLen_ge (n : Nat) : direntHeader + n ≤ direntLen n := by
  rw [direntLen]
  omega

theorem direntLen_lt {n : Nat} (h : n < 256) : direntLen n < 2 ^ 16 := by
  have hheader : direntHeader = 8 := rfl
  rw [direntLen]
  omega

theorem dvd_direntLen (n : Nat) : 4 ∣ direntLen n := Nat.dvd_mul_left 4 _

/-- What a record itself needs of its bytes: nothing when it is dead. -/
def usedLen (buf : Bytes) (o : Nat) : Nat :=
  if direntInode buf o ≠ 0 then direntLen (direntNameLen buf o) else 0

/-- The record has room for another one with a name of `len` bytes. -/
def Room (len : Nat) (buf : Bytes) (o : Nat) : Prop :=
  usedLen buf o + direntLen len ≤ direntRecLen buf o

instance (len : Nat) (buf : Bytes) (o : Nat) : Decidable (Room len buf o) :=
  inferInstanceAs (Decidable (_ ≤ _))

/-- The block after the new record has been put into the record at `o`. -/
def placed (buf : Bytes) (o num : Nat) (x : List UInt8) (fileType : UInt8) : Bytes :=
  if direntInode buf o ≠ 0 then
    setRecLen
      (putDirent buf (o + usedLen buf o) num (direntRecLen buf o - usedLen buf o) x fileType)
      o (usedLen buf o)
  else
    putDirent buf o num (direntLen x.length) x fileType

section Add

variable {num : Nat} {fileType : UInt8}

/-- One turn of `AddEntry` at a record of a chain. -/
theorem addTurn_eq (hend : o + direntRecLen buf o ≤ size) (hok : Ok buf o) (hlt : o < size) :
    addTurn size num x fileType buf o = if Room x.length buf o then
      .ok (.leave (some (placed buf o num x fileType))) else .ok
        (.again (o + direntRecLen buf o)) := by
  have hroom := hok.room
  have hge := direntLen_ge x.length
  rw [addTurn, if_pos hlt, if_pos (by omega)]
  by_cases hinode : direntInode buf o ≠ 0
  · have hused : usedLen buf o = direntLen (direntNameLen buf o) := if_pos hinode
    have hiff : (direntRecLen buf o : Int) - direntLen (direntNameLen buf o) ≥ direntLen x.length ↔
        Room x.length buf o := by
      rw [Room, hused]
      omega
    simp only [if_pos hinode, placed, hused]
    by_cases hr : Room x.length buf o
    · rw [if_pos hr, if_pos (hiff.mpr hr)]
      rw [Room, hused] at hr
      rw [if_pos (by omega)]
    · rw [if_neg hr, if_neg fun h => hr (hiff.mp h)]
  · have hused : usedLen buf o = 0 := if_neg hinode
    have hiff : direntRecLen buf o ≥ direntLen x.length ↔ Room x.length buf o := by
      rw [Room, hused]
      omega
    simp only [if_neg hinode, placed]
    by_cases hr : Room x.length buf o
    · rw [if_pos hr, if_pos (hiff.mpr hr)]
      rw [← hiff] at hr
      rw [if_pos (by omega)]
    · rw [if_neg hr, if_neg fun h => hr (hiff.mp h)]

variable (x num fileType) in
/-- **The walk of `AddEntry` along a chain** ends at the first record with room. -/
theorem add_loop {n : Nat} (h : Chain size buf o os) (hn : os.length < n) :
    Lib.loop (addTurn size num x fileType buf) .outOfFuel n o =
      .ok ((os.find? fun a => Room x.length buf a).map fun a => placed buf a num x fileType) := by
  refine h.tiling.loop_find (fun _ a => a) (fun c _ => c) (fun a => Room x.length buf a)
    (fun _ a => placed buf a num x fileType) (fun _ => ?_) (fun _ a ha => ?_) hn ()
  · rw [addTurn, if_neg (Nat.lt_irrefl _)]
  · obtain ⟨-, hlt, hend⟩ := h.tiling.mem ha
    exact addTurn_eq hend (h.ok a ha) hlt

/-! ## Chains with one record more -/

/-- The front of a chain leads to its rest, whatever changes behind it. -/
theorem Chain.splice {front : List Nat} {a : Nat} {back : List Nat}
    (h : Chain size buf o (front ++ a :: back)) :
    Chain size buf a (a :: back) ∧ (∀ b ∈ front, b + direntRecLen buf b ≤ a) ∧
      ∀ {buf' : Bytes} {back' : List Nat}, (∀ b ∈ front, Same buf buf' b) →
        Chain size buf' a back' → Chain size buf' o (front ++ back') := by
  obtain ⟨hback, hfront, hsplice⟩ := h.tiling.splice
  refine ⟨.of_tiling hback fun b hb => h.ok b (List.mem_append_right _ hb), hfront, ?_⟩
  intro buf' back' hsame hback'
  refine .of_tiling (hsplice (fun b hb => (hsame b hb).recLen) hback'.tiling) fun b hb => ?_
  rcases List.mem_append.mp hb with hb | hb
  · exact (hsame b hb).ok (h.ok b (List.mem_append_left _ hb))
  · exact hback'.ok b hb

/-- A chain with the same front is the same up to its end. -/
theorem Chain.follow {front back l : List Nat} {a : Nat} (h : Chain size buf o (front ++ a :: back))
    (hsame : ∀ b ∈ front, Same buf buf' b) (h' : Chain size buf' o l) :
    ∃ rest, l = front ++ rest ∧ Chain size buf' a rest := by
  obtain ⟨rest, rfl, hrest⟩ := h.tiling.follow (fun b hb => (hsame b hb).recLen) h'.tiling
  exact ⟨rest, rfl, .of_tiling hrest fun b hb => h'.ok b (List.mem_append_right _ hb)⟩

variable {front back : List Nat} {a : Nat}

/-- The records of the front do not change with the bytes from `a` on. -/
theorem Chain.front_same (h : Chain size buf o (front ++ a :: back))
    (hbytes : ∀ i, i < a → buf' i = buf i) : ∀ b ∈ front, Same buf buf' b := by
  intro b hb
  have hle := h.splice.2.1 b hb
  have hroom := (h.mem (List.mem_append_left _ hb)).2.1.room
  exact same_of_bytes fun i _ hi => hbytes i (by omega)

/-- The records behind `a` do not change with the bytes before its end. -/
theorem Chain.back_same (h : Chain size buf a (a :: back))
    (hbytes : ∀ i, a + direntRecLen buf a ≤ i → buf' i = buf i) : ∀ b ∈ back, Same buf buf' b := by
  intro b hb
  cases h with
  | cons _ _ hrest =>
      have hle := (hrest.mem hb).1
      exact same_of_bytes fun i hi _ => hbytes i (by omega)

section Placed

variable (hx : x ≠ []) (hlen : x.length < 256) (hnul : 0 ∉ x) (hnum : num ≠ 0)
  (hnum' : num < 2 ^ 32)

include hx hlen hnul hnum hnum'

variable (fileType) in
/-- **Splitting the slack of a record** gives a chain with one entry more. -/
theorem chain_split (h : Chain size buf o (front ++ a :: back)) (hinode : direntInode buf a ≠ 0)
    (hroom : Room x.length buf a) :
    Chain size (placed buf a num x fileType) o (front ++ a :: (a + usedLen buf a) :: back) ∧
      (entries (placed buf a num x fileType) (front ++ a :: (a + usedLen buf a) :: back)).Perm
        ((x, num) :: entries buf (front ++ a :: back)) := by
  obtain ⟨hhere, -, hsplice⟩ := h.splice
  have hheader : direntHeader = 8 := rfl
  have hrec : direntRecLen buf a < 2 ^ 16 := getLE_lt buf (a + 4) 2
  have hge := direntLen_ge x.length
  have hused : usedLen buf a = direntLen (direntNameLen buf a) := if_pos hinode
  have hgeUsed := direntLen_ge (direntNameLen buf a)
  have hfits : usedLen buf a + direntLen x.length ≤ direntRecLen buf a := hroom
  have hok : Ok buf a := (hhere.mem List.mem_cons_self).2.1
  have hlt : a < size := by
    have hend := (hhere.mem List.mem_cons_self).2.2
    omega
  -- the two writes, the new record first
  obtain ⟨put, hput⟩ : ∃ put, put = putDirent buf (a + usedLen buf a) num
      (direntRecLen buf a - usedLen buf a) x fileType := ⟨_, rfl⟩
  have hplaced : placed buf a num x fileType = setRecLen put a (usedLen buf a) := by
    rw [placed, if_pos hinode, hput]
  have houtside : ∀ i, i < a ∨ a + direntRecLen buf a ≤ i →
      placed buf a num x fileType i = buf i := by
    intro i hi
    rw [hplaced, setRecLen_of_not_mem (by omega), hput, putDirent_of_not_mem (by omega)]
  -- the record that has given its slack
  have hold : Says buf (placed buf a num x fileType) a := by
    have hsame : Same buf put a := same_of_bytes fun i _ hi => by
      rw [hput, putDirent_of_not_mem (by omega)]
    rw [hplaced]
    exact hsame.toSays.trans says_setRecLen
  have holdLen : direntRecLen (placed buf a num x fileType) a = usedLen buf a := by
    rw [hplaced, direntRecLen_set (by omega)]
  have holdOk : Ok (placed buf a num x fileType) a := by
    refine hold.ok hok ?_ ?_
    · rw [holdLen]
      omega
    · rw [holdLen, hused]
      exact dvd_direntLen _
  -- the new record
  have hdvd : 4 ∣ direntRecLen buf a - usedLen buf a := by
    rw [hused]
    exact Nat.dvd_sub hok.aligned (dvd_direntLen _)
  obtain ⟨hputOk, hputLive, hputEntry⟩ := put_ok buf (a + usedLen buf a)
    fileType hnum' (show direntRecLen buf a - usedLen buf a < 2 ^ 16 by omega) hlen
    (by omega) hdvd hnul hnum hx
  rw [← hput] at hputOk hputLive hputEntry
  have hnew : Same put (placed buf a num x fileType) (a + usedLen buf a) :=
    same_of_bytes fun i hi _ => by
      rw [hplaced, setRecLen_of_not_mem (by omega)]
  have hnewLen : direntRecLen (placed buf a num x fileType) (a + usedLen buf a) =
      direntRecLen buf a - usedLen buf a := by
    rw [hnew.recLen, hput, direntRecLen_put (by omega)]
  -- the rest of the chain
  have hfront := h.front_same fun i hi => houtside i (.inl hi)
  have hback := hhere.back_same fun i hi => houtside i (.inr hi)
  have hrest : Chain size (placed buf a num x fileType) (a + direntRecLen buf a) back := by
    cases hhere with
    | cons _ _ hrest => exact hrest.same hback
  refine ⟨hsplice hfront (.cons hlt holdOk ?_), ?_⟩
  · rw [holdLen]
    have hend := hrest.le
    refine .cons (by omega) (hnew.ok hputOk) ?_
    rw [hnewLen, show a + usedLen buf a + (direntRecLen buf a - usedLen buf a) =
      a + direntRecLen buf a by omega]
    exact hrest
  · have hsplit : ∀ (m : Bytes) (b : Nat) (l : List Nat), entries m (b :: l) =
        entries m [b] ++ entries m l := fun m b l => entries_append [b] l
    have hentry : entries (placed buf a num x fileType) ((a + usedLen buf a) :: back) =
        (x, num) :: entries buf back := by
      rw [entries_cons_live (hnew.toSays.live.mpr hputLive), hnew.toSays.entry, hputEntry,
        entries_says fun b hb => (hback b hb).toSays]
    have hself : entries (placed buf a num x fileType) [a] = entries buf [a] :=
      entries_says fun b hb => by
        rw [List.mem_singleton.mp hb]
        exact hold
    rw [entries_append, hsplit _ a, hentry, entries_says fun b hb => (hfront b hb).toSays, hself,
      entries_append, hsplit buf a back, ← List.append_assoc, ← List.append_assoc]
    exact List.perm_middle

variable (fileType) in
/-- **Taking over a dead record** gives a chain with one entry more, if the bytes behind the new
record are a chain. -/
theorem chain_reuse {rest : List Nat} (h : Chain size buf o (front ++ a :: back))
    (hinode : direntInode buf a = 0)
    (hrest : Chain size buf (a + direntLen x.length) rest) :
    Chain size (placed buf a num x fileType) o (front ++ a :: rest) ∧
      entries (placed buf a num x fileType) (front ++ a :: rest) =
        entries buf front ++ (x, num) :: entries buf rest := by
  obtain ⟨hhere, -, hsplice⟩ := h.splice
  have hge := direntLen_ge x.length
  have hrec := direntLen_lt hlen
  have hplaced : placed buf a num x fileType =
      putDirent buf a num (direntLen x.length) x fileType := by
    rw [placed, if_neg (not_not.mpr hinode)]
  have hlt : a < size := by
    have hend := hrest.le
    have hheader : direntHeader = 8 := rfl
    omega
  obtain ⟨hok, hlive, hentry⟩ := put_ok buf a fileType hnum' hrec hlen
    hge (dvd_direntLen _) hnul hnum hx
  have houtside : ∀ i, i < a ∨ a + direntLen x.length ≤ i →
      putDirent buf a num (direntLen x.length) x fileType i = buf i := fun i hi =>
    putDirent_of_not_mem (by omega)
  have hfront := h.front_same fun i hi => houtside i (.inl hi)
  have hback : ∀ b ∈ rest, Same buf (putDirent buf a num (direntLen x.length) x fileType) b := by
    intro b hb
    have hle := (hrest.mem hb).1
    exact same_of_bytes fun i hi _ => houtside i (.inr (by omega))
  rw [hplaced]
  refine ⟨hsplice hfront (.cons hlt hok ?_), ?_⟩
  · rw [direntRecLen_put hrec]
    exact hrest.same hback
  · rw [entries_append, entries_cons_live hlive, hentry,
      entries_says fun b hb => (hfront b hb).toSays, entries_says fun b hb => (hback b hb).toSays]

end Placed

end Add

end Dirent

end InfoKernel.Ext2
