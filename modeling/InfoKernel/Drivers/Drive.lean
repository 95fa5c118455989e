import InfoKernel.Drivers.Transfer
import InfoKernel.Fs.Device
import InfoKernel.Lib.Refinement
import Mathlib.Data.List.Chain

/-!
# The driver and the drives

`IDEDeviceRead` and `IDEDeviceWrite` together with what they talk to.  A channel has two drives and
one set of registers.  What is written to the registers is heard by the channel, and what is read
from them is said by it: `Channel.hears` is what an access makes of the channel, and `Channel.Says`
which values it may give.  A drive is busy for as long as it likes behind a command and behind the
last word of a sector; it does not fail, and its status has no data request while it is busy, since
`WaitDrq` looks at nothing else.

`requests_run` is about any sequence of reads and writes on the two drives.  If the log of the calls
is a talk with a channel, and no wait has been given up, then every call returns `0` and the words
that `devRead` of the file system's device gives, the disks are as `devWrite` leaves them, and the
channel has never been told anything that it does not understand.
-/

namespace InfoKernel.Ide.Drive

open Lib Transfer

/-! ## The channel -/

/-- What the selected drive does. -/
inductive Phase where
  /-- it waits for a command -/
  | idle
  /-- it looks for the sector that is to be read -/
  | fetching
  /-- it has given `pos` words of the sector -/
  | giving (pos : Nat)
  /-- it gets ready for the sector that is to be written -/
  | asking
  /-- it has taken these words of the sector -/
  | taking (words : List UInt16)
  /-- it puts the sector onto the disk -/
  | storing
  /-- it has been told something that it does not understand -/
  | lost
  deriving DecidableEq

/-- The registers, and the two drives with their disks. -/
structure Channel where
  registers : Nat → UInt8
  phase : Phase
  disks : Bool → Ext2.Bytes

/-- The word at an address of a disk or a buffer. -/
def wordAt (bytes : Ext2.Bytes) (a : Nat) : UInt16 :=
  UInt16.ofNat ((bytes a).toNat + 256 * (bytes (a + 1)).toNat)

/-- The bytes of some words. -/
def bytesOf (words : List UInt16) : Ext2.Bytes := fun i =>
  UInt8.ofNat ((words.getD (i / 2) 0).toNat / 256 ^ (i % 2))

/-- The drive is busy. -/
def Busy (v : UInt8) : Prop := v &&& ideStatusBsy ≠ 0 ∧ v &&& ideStatusDrq = 0

/-- The drive waits for a command. -/
def Ready (v : UInt8) : Prop :=
  v &&& ideStatusBsy = 0 ∧ v &&& ideStatusDrdy ≠ 0 ∧ v &&& ideStatusDrq = 0

/-- The drive asks for data to be moved. -/
def Requests (v : UInt8) : Prop :=
  v &&& ideStatusBsy = 0 ∧ v &&& ideStatusDrdy ≠ 0 ∧ v &&& ideStatusDrq ≠ 0

instance (v : UInt8) : Decidable (Busy v) := inferInstanceAs (Decidable (_ ∧ _))
instance (v : UInt8) : Decidable (Ready v) := inferInstanceAs (Decidable (_ ∧ _ ∧ _))
instance (v : UInt8) : Decidable (Requests v) := inferInstanceAs (Decidable (_ ∧ _ ∧ _))

/-- The statuses that the selected drive may show. -/
def Phase.Shows : Phase → UInt8 → Prop
  | .idle, v => Ready v
  | .fetching, v => Busy v ∨ Requests v
  | .giving _, v => Requests v
  | .asking, v => Busy v ∨ Requests v
  | .taking _, v => Requests v
  | .storing, v => Busy v ∨ Ready v
  | .lost, _ => True

/-- The words that it may give, if `sector` are those of the sector. -/
def Phase.Gives (sector : Nat → UInt16) : Phase → UInt16 → Prop
  | .giving pos, w => w = sector pos
  | _, _ => True

instance : (p : Phase) → (v : UInt8) → Decidable (p.Shows v)
  | .idle, v => inferInstanceAs (Decidable (Ready v))
  | .fetching, v => inferInstanceAs (Decidable (Busy v ∨ Requests v))
  | .giving _, v => inferInstanceAs (Decidable (Requests v))
  | .asking, v => inferInstanceAs (Decidable (Busy v ∨ Requests v))
  | .taking _, v => inferInstanceAs (Decidable (Requests v))
  | .storing, v => inferInstanceAs (Decidable (Busy v ∨ Ready v))
  | .lost, _ => isTrue True.intro

instance (sector : Nat → UInt16) : (p : Phase) → (w : UInt16) → Decidable (p.Gives sector w)
  | .giving pos, w => inferInstanceAs (Decidable (w = sector pos))
  | .idle, _ => isTrue True.intro
  | .fetching, _ => isTrue True.intro
  | .asking, _ => isTrue True.intro
  | .taking _, _ => isTrue True.intro
  | .storing, _ => isTrue True.intro
  | .lost, _ => isTrue True.intro

namespace Channel

variable (ioBase : Nat) (c : Channel)

/-- The drive that the device register selects. -/
def drive : Bool := (c.registers (ioBase + ideDevice)).toNat.testBit 4

/-- The sector that the registers name. -/
def lba : Nat :=
  (c.registers (ioBase + ideDevice)).toNat % 16 * 2 ^ 24 +
    (c.registers (ioBase + ideLbaHigh)).toNat * 2 ^ 16 +
    (c.registers (ioBase + ideLbaMid)).toNat * 2 ^ 8 + (c.registers (ioBase + ideLbaLow)).toNat

/-- The values that the channel may give. -/
def Says : Access → Prop
  | .in8 port v => port = ioBase + ideStatus → c.phase.Shows v
  | .in16 port v => port = ioBase + ideData → c.phase.Gives
      (fun pos => wordAt (c.disks (c.drive ioBase)) (512 * c.lba ioBase + 2 * pos)) v
  | _ => True

instance : DecidablePred (c.Says ioBase)
  | .in8 port v => inferInstanceAs (Decidable (port = ioBase + ideStatus → c.phase.Shows v))
  | .in16 port v => inferInstanceAs (Decidable (port = ioBase + ideData → c.phase.Gives _ v))
  | .ticks => isTrue True.intro
  | .out8 _ _ => isTrue True.intro
  | .out16 _ _ => isTrue True.intro

/-- A command or another byte for a register. -/
def told (port : Nat) (v : UInt8) : Channel :=
  match c.phase with
  | .idle =>
      { c with
        registers := Function.update c.registers port v
        phase :=
          if port = ioBase + ideCommand then
            if v = ideCmdReadPio then .fetching else if v = ideCmdWritePio then .asking else .lost
          else .idle }
  | _ => { c with phase := .lost }

/-- A status that is no longer busy has been read. -/
def shown : Channel :=
  match c.phase with
  | .fetching => { c with phase := .giving 0 }
  | .asking => { c with phase := .taking [] }
  | .storing => { c with phase := .idle }
  | _ => c

/-- A word has been read. -/
def given : Channel :=
  match c.phase with
  | .giving pos => { c with phase := if pos + 1 < 256 then .giving (pos + 1) else .idle }
  | _ => { c with phase := .lost }

/-- A word has been written; the last one of the sector completes it. -/
def taken (w : UInt16) : Channel :=
  match c.phase with
  | .taking words =>
      if words.length + 1 < 256 then { c with phase := .taking (words ++ [w]) }
      else
        { c with
          phase := .storing
          disks := Function.update c.disks (c.drive ioBase)
            (Ext2.copyIn (c.disks (c.drive ioBase)) (512 * c.lba ioBase) 512
              (bytesOf (words ++ [w]))) }
  | _ => { c with phase := .lost }

/-- What an access makes of the channel. -/
def hears : Access → Channel
  | .ticks => c
  | .out8 port v => c.told ioBase port v
  | .in8 port v => if port = ioBase + ideStatus ∧ v &&& ideStatusBsy = 0 then c.shown else c
  | .in16 port _ => if port = ioBase + ideData then c.given else c
  | .out16 port w => if port = ioBase + ideData then c.taken ioBase w else c

/-- The channel after some accesses. -/
def after (log : List Access) : Channel := log.foldl (hears ioBase) c

/-- The channel has said all that has been read. -/
def Talks (c : Channel) : List Access → Prop
  | [] => True
  | a :: log => c.Says ioBase a ∧ Talks (c.hears ioBase a) log

instance talksDecidable : (c : Channel) → (log : List Access) → Decidable (c.Talks ioBase log)
  | _, [] => isTrue True.intro
  | c, a :: log => @instDecidableAnd _ _ _ (talksDecidable (c.hears ioBase a) log)

/-- It waits for a command, or will when it has put a sector onto the disk. -/
def Settled : Prop := c.phase = .idle ∨ c.phase = .storing

end Channel

instance : DecidablePred Access.IsPoll
  | .ticks => isTrue (.inl rfl)
  | .in8 port v => isTrue (.inr ⟨port, v, rfl⟩)
  | .out8 _ _ => isFalse (by simp [Access.IsPoll])
  | .in16 _ _ => isFalse (by simp [Access.IsPoll])
  | .out16 _ _ => isFalse (by simp [Access.IsPoll])

/-- No wait has been given up: behind a look at the clock there is another one, or a status is
read. -/
def Prompt (log : List Access) : Prop := log.IsChain fun a b => a = .ticks → b.IsPoll

instance (log : List Access) : Decidable (Prompt log) :=
  inferInstanceAs (Decidable (log.IsChain _))

/-! ## The requests -/

/-- A call of `Read` or `Write` of one of the two devices. -/
inductive Request where
  | read (drive : Bool) (sector count : Nat)
  | write (drive : Bool) (sector count : Nat) (buf : Ext2.Bytes)

namespace Request

/-- The sectors have numbers of 28 bits. -/
def Fits : Request → Prop
  | .read _ sector count => sector + count ≤ 2 ^ 28
  | .write _ sector count _ => sector + count ≤ 2 ^ 28

/-- The number of a drive. -/
def number (drive : Bool) : UInt8 := if drive then 1 else 0

/-- The code, and the words that have been read. -/
def exec (fuel ioBase : Nat) : Request → Io (Int × List UInt16)
  | .read drive sector count => ideDeviceRead fuel ioBase (number drive) sector count
  | .write drive sector count buf => do
      let code ← ideDeviceWrite fuel ioBase (number drive) sector count fun j => wordAt buf (2 * j)
      return (code, [])

/-- **What a request is for**, in terms of the device of the file system. -/
def answer (e : Ext2.Env) (disks : Bool → Ext2.Bytes) :
    Request → (Int × List UInt16) × (Bool → Ext2.Bytes)
  | .read drive sector count =>
      ((0, (List.range (256 * count)).map fun j =>
        wordAt (Ext2.copyOut e (disks drive) (512 * sector) (512 * count)) (2 * j)), disks)
  | .write drive sector count buf =>
      ((0, []), Function.update disks drive
        (Ext2.copyIn (disks drive) (512 * sector) (512 * count) buf))

end Request

/-! ## Words and bytes -/

section Bytes

variable {bytes disk buf : Ext2.Bytes} {a i j n sector : Nat} {e : Ext2.Env}

theorem toNat_wordAt (bytes : Ext2.Bytes) (a : Nat) :
    (wordAt bytes a).toNat = (bytes a).toNat + 256 * (bytes (a + 1)).toNat := by
  have hlow := (bytes a).toNat_lt
  have hhigh := (bytes (a + 1)).toNat_lt
  unfold wordAt
  rw [UInt16.toNat_ofNat']
  omega

/-- The words of a buffer have its bytes. -/
theorem bytesOf_wordAt (hi : i < 2 * n) :
    bytesOf ((List.range n).map fun j => wordAt bytes (a + 2 * j)) i = bytes (a + i) := by
  have hlow := (bytes (a + 2 * (i / 2))).toNat_lt
  have hhigh := (bytes (a + 2 * (i / 2) + 1)).toNat_lt
  have hget : ((List.range n).map fun j => wordAt bytes (a + 2 * j)).getD (i / 2) 0 =
      wordAt bytes (a + 2 * (i / 2)) := by
    rw [List.getD_eq_getElem?_getD, List.getElem?_map, List.getElem?_range (by omega)]
    rfl
  unfold bytesOf
  rw [hget, toNat_wordAt]
  refine UInt8.toNat_inj.mp ?_
  rw [UInt8.toNat_ofNat']
  rcases Nat.mod_two_eq_zero_or_one i with hmod | hmod
  · have haddr : a + 2 * (i / 2) = a + i := by omega
    rw [hmod, haddr, pow_zero, Nat.div_one]
    rw [haddr] at hlow
    omega
  · have haddr : a + 2 * (i / 2) + 1 = a + i := by omega
    rw [hmod, haddr, pow_one]
    rw [haddr] at hhigh
    omega

theorem wordAt_copyOut (hj : j < 256 * n) :
    wordAt (Ext2.copyOut e disk (512 * sector) (512 * n)) (2 * j) =
      wordAt disk (512 * sector + 2 * j) := by
  unfold wordAt
  rw [Ext2.copyOut_of_lt (by omega), Ext2.copyOut_of_lt (by omega), Nat.add_assoc]

/-- One more sector is written. -/
theorem copyIn_sector :
    Ext2.copyIn (Ext2.copyIn disk (512 * sector) (512 * n) buf) (512 * (sector + n)) 512
        (bytesOf ((List.range 256).map fun j => wordAt buf (512 * n + 2 * j))) =
      Ext2.copyIn disk (512 * sector) (512 * (n + 1)) buf := by
  funext x
  unfold Ext2.copyIn
  by_cases hlast : 512 * (sector + n) ≤ x ∧ x < 512 * (sector + n) + 512
  · rw [if_pos hlast, if_pos (by omega), bytesOf_wordAt (by omega)]
    congr 1
    omega
  · rw [if_neg hlast]
    by_cases hin : 512 * sector ≤ x ∧ x < 512 * sector + 512 * n
    · rw [if_pos hin, if_pos (by omega)]
    · rw [if_neg hin, if_neg (by omega)]

end Bytes

/-! ## What the accesses make of a channel -/

section Talks

variable {ioBase n pos port lba : Nat} {c : Channel} {log more : List Access} {a : Access}
  {stop : UInt8 → Bool} {v command : UInt8} {d : Bool} {words data : List UInt16}

theorem after_append : c.after ioBase (log ++ more) = (c.after ioBase log).after ioBase more :=
  List.foldl_append

@[simp] theorem talks_nil : c.Talks ioBase [] := True.intro

@[simp] theorem talks_cons :
    c.Talks ioBase (a :: log) ↔ c.Says ioBase a ∧ (c.hears ioBase a).Talks ioBase log := Iff.rfl

theorem talks_append : c.Talks ioBase (log ++ more) ↔
    c.Talks ioBase log ∧ (c.after ioBase log).Talks ioBase more := by
  induction log generalizing c with
  | nil => simp [Channel.after]
  | cons a log ih =>
      rw [List.cons_append, talks_cons, talks_cons, ih, and_assoc]
      rfl

@[simp] theorem hears_ticks : c.hears ioBase .ticks = c := rfl

/-- The statuses that end a wait are those that are not busy. -/
def Channel.Heeded (c : Channel) (stop : UInt8 → Bool) : Prop :=
  ∀ v, c.phase.Shows v → (stop v = true ↔ v &&& ideStatusBsy = 0)

theorem isReady_iff : isReady v = true ↔ v &&& ideStatusBsy = 0 ∧ v &&& ideStatusDrdy ≠ 0 := by
  simp [isReady]

theorem isDrq_iff : isDrq v = true ↔ v &&& ideStatusDrq ≠ 0 := by
  simp [isDrq]

theorem Busy.heeds_ready (h : Busy v) : isReady v = true ↔ v &&& ideStatusBsy = 0 := by
  rw [isReady_iff]
  exact ⟨fun hv => hv.1, fun hv => absurd hv h.1⟩

theorem Ready.heeds_ready (h : Ready v) : isReady v = true ↔ v &&& ideStatusBsy = 0 := by
  rw [isReady_iff]
  exact ⟨fun hv => hv.1, fun hv => ⟨hv, h.2.1⟩⟩

theorem Requests.heeds_ready (h : Requests v) : isReady v = true ↔ v &&& ideStatusBsy = 0 := by
  rw [isReady_iff]
  exact ⟨fun hv => hv.1, fun hv => ⟨hv, h.2.1⟩⟩

/-- `WaitReady` waits for the end of what a settled channel does. -/
theorem Channel.Settled.heeded (h : c.Settled) : c.Heeded isReady := by
  intro v hv
  rcases h with h | h
  · rw [h] at hv
    exact Ready.heeds_ready hv
  · rw [h] at hv
    exact hv.elim Busy.heeds_ready Ready.heeds_ready

/-- It waits for a drive to ask for the data of a sector. -/
theorem heeded_asking (h : c.phase = .asking) : c.Heeded isReady := by
  intro v hv
  rw [h] at hv
  exact hv.elim Busy.heeds_ready Requests.heeds_ready

/-- `WaitDrq` waits for a drive to have the data of a sector. -/
theorem heeded_fetching (h : c.phase = .fetching) : c.Heeded isDrq := by
  intro v hv
  rw [h] at hv
  rw [isDrq_iff]
  rcases hv with hv | hv
  · exact ⟨fun hdrq => absurd hv.2 hdrq, fun hbsy => absurd hbsy hv.1⟩
  · exact ⟨fun _ => hv.1, fun _ => hv.2.2⟩

/-! ### Waits -/

/-- The accesses of a wait that has read these statuses. -/
def polls (ioBase : Nat) (statuses : List UInt8) : List Access :=
  statuses.flatMap fun v => [.ticks, .in8 (ioBase + ideStatus) v]

/-- What a wait adds to the log: it has been given up, or a status has ended it. -/
def WaitLog (stop : UInt8 → Bool) (ioBase : Nat) (new : List Access) : Prop :=
  ∃ statuses, (∀ v ∈ statuses, stop v = false) ∧
    (new = .ticks :: (polls ioBase statuses ++ [.ticks]) ∨
      ∃ v, stop v = true ∧
        new = .ticks :: (polls ioBase statuses ++ [.ticks, .in8 (ioBase + ideStatus) v]))

theorem says_status (h : c.Says ioBase (.in8 (ioBase + ideStatus) v)) : c.phase.Shows v := h rfl

theorem hears_status : c.hears ioBase (.in8 (ioBase + ideStatus) v) =
    if v &&& ideStatusBsy = 0 then c.shown else c := by
  simp [Channel.hears]

/-- The statuses that do not end a wait leave the channel alone. -/
theorem after_polls {statuses : List UInt8} (hstop : ∀ v ∈ statuses, stop v = false)
    (hheeded : c.Heeded stop) (htalks : c.Talks ioBase (polls ioBase statuses)) :
    c.after ioBase (polls ioBase statuses) = c := by
  induction statuses with
  | nil => rfl
  | cons v statuses ih =>
      obtain ⟨hv, hrest⟩ := List.forall_mem_cons.mp hstop
      obtain ⟨-, hsaid, htalks⟩ := htalks
      have hbusy : v &&& ideStatusBsy ≠ 0 := by
        rw [ne_eq, ← hheeded v (says_status hsaid), hv]
        exact Bool.false_ne_true
      have hhears : (c.hears ioBase .ticks).hears ioBase (.in8 (ioBase + ideStatus) v) = c := by
        rw [hears_ticks, hears_status, if_neg hbusy]
      rw [hhears] at htalks
      change ((c.hears ioBase .ticks).hears ioBase (.in8 (ioBase + ideStatus) v)).after ioBase
        (polls ioBase statuses) = c
      rw [hhears]
      exact ih hrest htalks

/-- **What a wait makes of a channel** whose statuses it heeds. -/
theorem WaitLog.after (h : WaitLog stop ioBase log) (hheeded : c.Heeded stop)
    (htalks : c.Talks ioBase log) : c.after ioBase log = c.shown ∨
      (c.after ioBase log = c ∧ log.getLast? = some .ticks) := by
  obtain ⟨statuses, hstop, rfl | ⟨v, hv, rfl⟩⟩ := h
  · obtain ⟨-, htalks⟩ := htalks
    obtain ⟨hpolls, -⟩ := talks_append.mp htalks
    refine .inr ⟨?_, ?_⟩
    · change c.after ioBase (polls ioBase statuses ++ [.ticks]) = c
      rw [after_append, after_polls hstop hheeded hpolls]
      rfl
    · rw [← List.cons_append, List.getLast?_concat]
  · obtain ⟨-, htalks⟩ := htalks
    obtain ⟨hpolls, hlast⟩ := talks_append.mp htalks
    have hafter : c.after ioBase (polls ioBase statuses) = c := after_polls hstop hheeded hpolls
    rw [hears_ticks, hafter] at hlast
    obtain ⟨-, hsaid, -⟩ := hlast
    refine .inl ?_
    change c.after ioBase (polls ioBase statuses ++ [.ticks, .in8 (ioBase + ideStatus) v]) = c.shown
    rw [after_append, hafter]
    change c.hears ioBase (.in8 (ioBase + ideStatus) v) = c.shown
    rw [hears_status, if_pos ((hheeded v (says_status hsaid)).mp hv)]

/-! ### Words and commands -/

/-- The words that are read are those of the sector. -/
theorem after_given (hphase : c.phase = .giving pos) (hlen : pos + data.length = 256)
    (hdata : data ≠ []) (htalks : c.Talks ioBase (data.map (.in16 (ioBase + ideData)))) :
    c.after ioBase (data.map (.in16 (ioBase + ideData))) = { c with phase := .idle } ∧
      data = (List.range data.length).map fun j =>
        wordAt (c.disks (c.drive ioBase)) (512 * c.lba ioBase + 2 * (pos + j)) := by
  induction data generalizing c pos with
  | nil => exact absurd rfl hdata
  | cons w data ih =>
      obtain ⟨hsaid, htalks⟩ := htalks
      have hw : w = wordAt (c.disks (c.drive ioBase)) (512 * c.lba ioBase + 2 * pos) := by
        have hgives := hsaid rfl
        rw [hphase] at hgives
        exact hgives
      have hhears : c.hears ioBase (.in16 (ioBase + ideData) w) =
          { c with phase := if pos + 1 < 256 then .giving (pos + 1) else .idle } := by
        simp [Channel.hears, Channel.given, hphase]
      rw [List.length_cons] at hlen
      rw [List.map_cons, List.length_cons, List.range_succ_eq_map, List.map_cons, List.map_map]
      change (c.hears ioBase (.in16 (ioBase + ideData) w)).after ioBase _ = _ ∧ _
      rw [hhears] at htalks ⊢
      by_cases hlast : data = []
      · subst hlast
        rw [if_neg (by simp at hlen; omega), hw]
        exact ⟨rfl, rfl⟩
      · have hpos := List.length_pos_iff.mpr hlast
        rw [if_pos (by omega)] at htalks ⊢
        obtain ⟨hafter, hrest⟩ := ih rfl (by omega) hlast htalks
        refine ⟨hafter, ?_⟩
        conv_lhs => rw [hrest, hw]
        congr 1
        refine List.map_congr_left fun j _ => ?_
        change wordAt (c.disks (c.drive ioBase)) (512 * c.lba ioBase + 2 * (pos + 1 + j)) =
          wordAt (c.disks (c.drive ioBase)) (512 * c.lba ioBase + 2 * (pos + (j + 1)))
        rw [Nat.add_assoc pos 1 j, Nat.add_comm 1 j]

/-- The channel gives the words of the sector, to the last one. -/
theorem talks_given (hphase : c.phase = .giving pos) (hlen : pos + n = 256) :
    c.Talks ioBase (((List.range n).map fun j =>
      wordAt (c.disks (c.drive ioBase)) (512 * c.lba ioBase + 2 * (pos + j))).map
        (.in16 (ioBase + ideData))) := by
  induction n generalizing c pos with
  | zero => exact True.intro
  | succ n ih =>
      rw [List.range_succ_eq_map, List.map_cons, List.map_map, List.map_cons]
      refine ⟨fun _ => ?_, ?_⟩
      · rw [hphase]
        rfl
      by_cases hlast : n = 0
      · subst hlast
        exact True.intro
      · have hhears (w : UInt16) : c.hears ioBase (.in16 (ioBase + ideData) w) =
            { c with phase := .giving (pos + 1) } := by
          have hmore : pos + 1 < 256 := by omega
          simp [Channel.hears, Channel.given, hphase, hmore]
        rw [hhears]
        have hnext : ∀ j, pos + 1 + j = pos + (j + 1) := fun j => by omega
        have hrest := @ih (pos + 1) { c with phase := .giving (pos + 1) } rfl (by omega)
        simp only [hnext] at hrest
        exact hrest

/-- The words that are written become those of the sector. -/
theorem after_taken (hphase : c.phase = .taking words) (hlen : words.length + data.length = 256)
    (hdata : data ≠ []) : c.after ioBase (data.map (.out16 (ioBase + ideData))) =
      { c with
        phase := .storing
        disks := Function.update c.disks (c.drive ioBase) (Ext2.copyIn (c.disks (c.drive ioBase))
          (512 * c.lba ioBase) 512 (bytesOf (words ++ data))) } := by
  induction data generalizing c words with
  | nil => exact absurd rfl hdata
  | cons w data ih =>
      rw [List.length_cons] at hlen
      rw [List.map_cons]
      change (c.hears ioBase (.out16 (ioBase + ideData) w)).after ioBase _ = _
      by_cases hlast : data = []
      · subst hlast
        have hfull : ¬ words.length + 1 < 256 := by
          rw [List.length_nil] at hlen
          omega
        simp [Channel.hears, Channel.taken, hphase, hfull, Channel.after]
      · have hpos := List.length_pos_iff.mpr hlast
        have hhears : c.hears ioBase (.out16 (ioBase + ideData) w) =
            { c with phase := .taking (words ++ [w]) } := by
          have hmore : words.length + 1 < 256 := by omega
          simp [Channel.hears, Channel.taken, hphase, hmore]
        rw [hhears, ih rfl ?_ hlast]
        · rw [List.append_assoc]
          rfl
        · rw [List.length_append, List.length_singleton]
          omega

/-- A byte for a register that is not the command. -/
theorem told_of_idle (hphase : c.phase = .idle) (hport : port ≠ ioBase + ideCommand) :
    c.told ioBase port v = { c with registers := Function.update c.registers port v } := by
  unfold Channel.told
  rw [hphase]
  simp [hport]

/-- Bytes for registers that are not the command. -/
theorem after_bytes {bytes : List (Nat × UInt8)} (hphase : c.phase = .idle)
    (hport : ∀ b ∈ bytes, b.1 ≠ ioBase + ideCommand) :
    c.after ioBase (bytes.map fun b => .out8 b.1 b.2) =
      { c with registers := bytes.foldl (fun r b => Function.update r b.1 b.2) c.registers } := by
  induction bytes generalizing c with
  | nil => rfl
  | cons b bytes ih =>
      obtain ⟨hb, hbytes⟩ := List.forall_mem_cons.mp hport
      change (c.told ioBase b.1 b.2).after ioBase _ = _
      rw [told_of_idle hphase hb, ih ?_ hbytes]
      · rfl
      · exact hphase

/-- The channel behind the bytes for a sector, before the command. -/
theorem after_issue_eq (command : UInt8) (ioBase lba : Nat) (d : Bool) (hphase : c.phase = .idle) :
    ∃ registers, c.after ioBase (issueLog command ioBase (Request.number d) lba) =
        { c with registers := registers }.told ioBase (ioBase + ideCommand) command ∧
      registers (ioBase + ideDevice) =
        ((0xE0 : UInt8) ||| (Request.number d <<< 4) ||| UInt8.ofNat (lba / 2 ^ 24 % 16)) ∧
      registers (ioBase + ideLbaHigh) = UInt8.ofNat (lba / 2 ^ 16 % 256) ∧
      registers (ioBase + ideLbaMid) = UInt8.ofNat (lba / 2 ^ 8 % 256) ∧
      registers (ioBase + ideLbaLow) = UInt8.ofNat (lba % 256) := by
  let bytes : List (Nat × UInt8) :=
    [(ioBase + ideDevice,
        (0xE0 : UInt8) ||| (Request.number d <<< 4) ||| UInt8.ofNat (lba / 2 ^ 24 % 16)),
      (ioBase + ideError, 0), (ioBase + ideSectorCount, 1),
      (ioBase + ideLbaLow, UInt8.ofNat (lba % 256)),
      (ioBase + ideLbaMid, UInt8.ofNat (lba / 2 ^ 8 % 256)),
      (ioBase + ideLbaHigh, UInt8.ofNat (lba / 2 ^ 16 % 256))]
  have hsplit : issueLog command ioBase (Request.number d) lba =
      (bytes.map fun b => .out8 b.1 b.2) ++ [.out8 (ioBase + ideCommand) command] := rfl
  have hport : ∀ b ∈ bytes, b.1 ≠ ioBase + ideCommand := by
    simp [bytes, ideDevice, ideError, ideSectorCount, ideLbaLow, ideLbaMid, ideLbaHigh, ideCommand]
  rw [hsplit, after_append, after_bytes hphase hport]
  refine ⟨_, rfl, ?_⟩
  simp [bytes, ideDevice, ideError, ideSectorCount, ideLbaLow, ideLbaMid, ideLbaHigh]

/-- **A command** makes the drive `d` begin with a sector. -/
theorem after_issue (command : UInt8) (ioBase lba : Nat) (d : Bool) (hphase : c.phase = .idle) :
    (c.after ioBase (issueLog command ioBase (Request.number d) lba)).phase =
        (if command = ideCmdReadPio then .fetching
          else if command = ideCmdWritePio then .asking else .lost) ∧
      (c.after ioBase (issueLog command ioBase (Request.number d) lba)).disks = c.disks ∧
      (c.after ioBase (issueLog command ioBase (Request.number d) lba)).drive ioBase = d ∧
      (c.after ioBase (issueLog command ioBase (Request.number d) lba)).lba ioBase =
        lba % 2 ^ 28 := by
  obtain ⟨registers, hafter, hdevice, hhigh, hmid, hlow⟩ :=
    after_issue_eq command ioBase lba d hphase
  have hbyte (n : Nat) : (UInt8.ofNat (n % 256)).toNat = n % 256 :=
    UInt8.toNat_ofNat_of_lt' (Nat.mod_lt n (by decide))
  have hfour : ∀ n < 16, ((0xE0 : UInt8) ||| (Request.number d <<< 4) |||
      UInt8.ofNat n).toNat.testBit 4 = d := by
    cases d <;> decide
  have hsame (r : Nat) (h : r ≠ ideCommand) :
      Function.update registers (ioBase + ideCommand) command (ioBase + r) =
        registers (ioBase + r) :=
    Function.update_of_ne (fun heq => h (Nat.add_left_cancel heq)) _ _
  rw [hafter]
  unfold Channel.told
  simp only [hphase, if_true, true_and]
  refine ⟨?_, ?_⟩
  · unfold Channel.drive
    dsimp only
    rw [hsame _ (by decide), hdevice]
    exact hfour _ (Nat.mod_lt _ (by decide))
  · unfold Channel.lba
    dsimp only
    rw [hsame _ (by decide), hsame _ (by decide), hsame _ (by decide), hsame _ (by decide), hdevice,
      hhigh, hmid, hlow, device_mod _ (Nat.mod_lt _ (by decide)), hbyte, hbyte, hbyte]
    omega

end Talks

/-! ## What the loops of the driver add to the log -/

section Logs

variable {fuel ioBase n : Nat} {s : Bus} {stop : UInt8 → Bool} {words : List UInt16}

theorem polls_concat (statuses : List UInt8) (v : UInt8) : polls ioBase (statuses ++ [v]) =
    polls ioBase statuses ++ [.ticks, .in8 (ioBase + ideStatus) v] := by
  unfold polls
  rw [List.flatMap_append]
  rfl

theorem wait_log (stop : UInt8 → Bool) (fuel ioBase : Nat) (s : Bus) :
    Ends (wait stop fuel ioBase) s (fun _ => True) fun _ t =>
      t.hw = s.hw ∧ ∃ new, t.log = s.log ++ new ∧ WaitLog stop ioBase new := by
  refine Ends.step rfl ?_
  refine Ends.loop_of_out (I := fun _ t =>
    t.hw = s.hw ∧ ∃ statuses, (∀ v ∈ statuses, stop v = false) ∧
    t.log = s.log ++ .ticks :: polls ioBase statuses) ?_ trivial
      ⟨rfl, [], List.forall_mem_nil _, rfl⟩
  rintro _ t ⟨hhw, statuses, hstop, hlog⟩
  refine Ends.step rfl ?_
  split
  · refine Ends.step rfl ?_
    generalize (t.push .ticks).hw.in8 (t.push .ticks).log.length (ioBase + ideStatus) = v
    split
    · rename_i hv
      refine ⟨hhw, .ticks :: (polls ioBase statuses ++ [.ticks, .in8 (ioBase + ideStatus) v]), ?_,
        statuses, hstop, .inr ⟨v, hv, rfl⟩⟩
      simp [Bus.push, hlog]
    · rename_i hv
      refine ⟨hhw, statuses ++ [v], ?_, ?_⟩
      · exact List.forall_mem_append.mpr ⟨hstop, List.forall_mem_singleton.mpr
          (Bool.not_eq_true _ ▸ hv)⟩
      · simp [Bus.push, hlog, polls_concat]
  · refine ⟨hhw, .ticks :: (polls ioBase statuses ++ [.ticks]), ?_, statuses, hstop, .inl rfl⟩
    simp [Bus.push, hlog]

end Logs

/-! ## The turns for the sectors -/

/-- A channel at rest behind these accesses: if it still puts a sector onto the disk, the wait for
that has been given up. -/
def Channel.Rests (c : Channel) (log : List Access) : Prop :=
  c.phase = .idle ∨ (c.phase = .storing ∧ log.getLast? = some .ticks)

section Rests

variable {α : Type} {ioBase : Nat} {c : Channel} {log more : List Access} {a : Access}
  {stop : UInt8 → Bool}

theorem Channel.Rests.append (h : c.Rests more) : c.Rests (log ++ more) := by
  rcases h with h | ⟨h, hlast⟩
  · exact .inl h
  · refine .inr ⟨h, ?_⟩
    rw [List.getLast?_append, hlast]
    rfl

theorem Channel.Rests.settled (h : c.Rests log) : c.Settled := h.imp id And.left

/-- What is no access of a wait does not stand behind a look at the clock. -/
theorem Prompt.last_ne (h : Prompt (log ++ a :: more)) (ha : ¬ a.IsPoll) :
    log.getLast? ≠ some .ticks := by
  intro hlast
  exact ha ((List.isChain_append.mp h).2.2 _ hlast _ rfl rfl)

/-- Before a byte for a register the channel waits for a command. -/
theorem Channel.Rests.idle (h : c.Rests log) (hprompt : Prompt (log ++ a :: more))
    (ha : ¬ a.IsPoll) : c.phase = .idle :=
  h.resolve_right fun hgiven => hprompt.last_ne ha hgiven.2

/-- A wait before data or a command has not been given up. -/
theorem WaitLog.shown (h : WaitLog stop ioBase log) (hheeded : c.Heeded stop)
    (htalks : c.Talks ioBase log) (hprompt : Prompt (log ++ a :: more)) (ha : ¬ a.IsPoll) :
    c.after ioBase log = c.shown :=
  (h.after hheeded htalks).resolve_right fun hgiven => hprompt.last_ne ha hgiven.2

/-- `WaitReady` leaves a settled channel at rest. -/
theorem WaitLog.rests (h : WaitLog isReady ioBase log) (hc : c.Settled)
    (htalks : c.Talks ioBase log) : (c.after ioBase log).Rests log ∧
      (c.after ioBase log).disks = c.disks := by
  have hshown : c.shown.phase = .idle ∧ c.shown.disks = c.disks := by
    unfold Channel.shown
    rcases hc with hc | hc
    · rw [hc]
      exact ⟨hc, rfl⟩
    · rw [hc]
      exact ⟨rfl, rfl⟩
  rcases h.after hc.heeded htalks with hafter | ⟨hafter, hlast⟩
  · rw [hafter]
    exact ⟨.inl hshown.1, hshown.2⟩
  · rw [hafter]
    exact ⟨hc.imp id fun hstoring => ⟨hstoring, hlast⟩, rfl⟩

/-- A turn for a sector: it begins with a byte for a register, and it finds a channel that waits for
a command, leaves it at rest and makes of it what `G` says. -/
def Moves (ioBase : Nat) (G : Channel → α → Channel → Prop) (s : Bus) (r : α) (t : Bus) : Prop :=
  t.hw = s.hw ∧ ∃ new, t.log = s.log ++ new ∧ (∃ port v more, new = .out8 port v :: more) ∧
    ∀ c : Channel, c.phase = .idle → c.Talks ioBase new → Prompt new →
      (c.after ioBase new).Rests new ∧ G c r (c.after ioBase new)

end Rests

section Sectors

variable {fuel ioBase sector i n : Nat} {d : Bool} {s t : Bus} {buf : Ext2.Bytes}

theorem not_isPoll_out8 {port : Nat} {v : UInt8} : ¬ (Access.out8 port v).IsPoll := by
  rintro (h | ⟨_, _, h⟩)
  · cases h
  · cases h

theorem not_isPoll_of_isData {a : Access} (h : a.isData = true) : ¬ a.IsPoll := by
  intro hpoll
  rw [hpoll.isData] at h
  cases h

/-- What is read of a sector. -/
def Fetched (d : Bool) (sector i : Nat) (c : Channel) (data : List UInt16) (c' : Channel) : Prop :=
  sector + i < 2 ^ 28 →
    data = ((List.range 256).map fun j => wordAt (c.disks d) (512 * (sector + i) + 2 * j)) ∧
      c'.disks = c.disks

/-- What is made of a sector. -/
def Stored (d : Bool) (sector : Nat) (buf : Ext2.Bytes) (i : Nat) (c : Channel) (_ : Unit)
    (c' : Channel) : Prop :=
  sector + i < 2 ^ 28 → c'.disks = Function.update c.disks d
    (Ext2.copyIn (c.disks d) (512 * (sector + i)) 512
      (bytesOf ((List.range 256).map fun j => wordAt buf (512 * i + 2 * j))))

theorem sector_address (h : sector + i < 2 ^ 28) : u64 (sector + i) % 2 ^ 28 = sector + i := by
  unfold u64
  omega

theorem readSector_moves (fuel ioBase sector : Nat) (d : Bool) (i : Nat) (s : Bus) :
    Ends (readSector fuel ioBase (Request.number d) sector i) s (fun _ => True) fun data t =>
      Moves ioBase (Fetched d sector i) s data t := by
  refine Ends.step (issue_eq s) ?_
  refine (wait_log isDrq fuel ioBase _).bind fun _ waited hwait => ?_
  obtain ⟨hhw, polled, hpolled, hwait⟩ := hwait
  refine ((readWords_log ioBase 256 waited).mono_error fun _ h => h.elim).mono fun data t ht => ?_
  obtain ⟨hhw', hlog, hlen⟩ := ht
  refine ⟨hhw'.trans hhw, issueLog ideCmdReadPio ioBase (Request.number d) (u64 (sector + i)) ++
    (polled ++ data.map (.in16 (ioBase + ideData))), ?_, ⟨_, _, _, rfl⟩, ?_⟩
  · rw [hlog, hpolled, List.append_assoc, List.append_assoc]
  intro c hphase htalks hprompt
  obtain ⟨-, htalks⟩ := talks_append.mp htalks
  obtain ⟨hpolls, hwords⟩ := talks_append.mp htalks
  obtain ⟨hfetching, hdisks, hdrive, hlba⟩ :=
    after_issue ideCmdReadPio ioBase (u64 (sector + i)) d hphase
  rw [after_append, after_append]
  generalize c.after ioBase
    (issueLog ideCmdReadPio ioBase (Request.number d) (u64 (sector + i))) = c₁
    at *
  rw [if_pos rfl] at hfetching
  -- the wait is followed by data, so that it has not been given up
  have hne : data ≠ [] := by
    rintro rfl
    cases hlen
  obtain ⟨w, words, rfl⟩ := List.exists_cons_of_ne_nil hne
  have hshown : c₁.after ioBase polled = { c₁ with phase := .giving 0 } := by
    rw [hwait.shown (heeded_fetching hfetching) hpolls hprompt.right_of_append
      (not_isPoll_of_isData rfl)]
    unfold Channel.shown
    rw [hfetching]
  rw [hshown] at hwords ⊢
  obtain ⟨hafter, hdata⟩ := after_given rfl (by rw [Nat.zero_add, hlen]) hne hwords
  rw [hafter]
  refine ⟨.inl rfl, fun hfits => ⟨?_, hdisks⟩⟩
  rw [hlen] at hdata
  refine hdata.trans (List.map_congr_left fun j _ => ?_)
  change wordAt (c₁.disks (c₁.drive ioBase)) (512 * c₁.lba ioBase + 2 * (0 + j)) = _
  rw [hdisks, hdrive, hlba, sector_address hfits, Nat.zero_add]

theorem writeSector_moves (fuel ioBase sector : Nat) (d : Bool) (buf : Ext2.Bytes) (i : Nat)
    (s : Bus) : Ends (writeSector fuel ioBase (Request.number d) sector
      (fun j => wordAt buf (2 * j)) i) s (fun _ => True) fun r t =>
        Moves ioBase (Stored d sector buf i) s r t := by
  refine Ends.step (issue_eq s) ?_
  refine (wait_log isReady fuel ioBase _).bind fun _ waited hwait => ?_
  obtain ⟨hhw, polled, hpolled, hwait⟩ := hwait
  refine ((writeWords_log ioBase _ waited).mono_error fun _ h => h.elim).bind fun _ u hu => ?_
  obtain ⟨hhw', hlog⟩ := hu
  refine (wait_log isReady fuel ioBase u).mono fun _ t ht => ?_
  obtain ⟨hhw'', rest, hrest, hlast⟩ := ht
  have hwords : ((List.range 256).map fun j => wordAt buf (2 * (256 * i + j))) =
      (List.range 256).map fun j => wordAt buf (512 * i + 2 * j) :=
    List.map_congr_left fun j _ => by congr 1; omega
  rw [hwords] at hlog
  have hlen : ((List.range 256).map fun j => wordAt buf (512 * i + 2 * j)).length = 256 := by
    rw [List.length_map, List.length_range]
  unfold Stored
  generalize (List.range 256).map (fun j => wordAt buf (512 * i + 2 * j)) = data at *
  refine ⟨hhw''.trans (hhw'.trans hhw),
    issueLog ideCmdWritePio ioBase (Request.number d) (u64 (sector + i)) ++
      (polled ++ (data.map (.out16 (ioBase + ideData)) ++ rest)), ?_, ⟨_, _, _, rfl⟩, ?_⟩
  · rw [hrest, hlog, hpolled]
    simp only [List.append_assoc]
  intro c hphase htalks hprompt
  obtain ⟨-, htalks⟩ := talks_append.mp htalks
  obtain ⟨hpolls, htalks⟩ := talks_append.mp htalks
  obtain ⟨-, hstatus⟩ := talks_append.mp htalks
  obtain ⟨hasking, hdisks, hdrive, hlba⟩ :=
    after_issue ideCmdWritePio ioBase (u64 (sector + i)) d hphase
  rw [after_append, after_append, after_append]
  generalize c.after ioBase (issueLog ideCmdWritePio ioBase (Request.number d) (u64 (sector + i))) =
    c₁ at *
  rw [if_neg (by decide), if_pos rfl] at hasking
  have hne : data ≠ [] := by
    rintro rfl
    cases hlen
  have hshown : c₁.after ioBase polled = { c₁ with phase := .taking [] } := by
    obtain ⟨w, words, rfl⟩ := List.exists_cons_of_ne_nil hne
    rw [hwait.shown (heeded_asking hasking) hpolls hprompt.right_of_append
      (not_isPoll_of_isData rfl)]
    unfold Channel.shown
    rw [hasking]
  rw [hshown, after_taken rfl (by rw [List.length_nil, Nat.zero_add, hlen]) hne] at hstatus ⊢
  -- the disk is as it will be, and the last wait leaves it so
  obtain ⟨hrests, hafter⟩ := hlast.rests (.inr rfl) hstatus
  refine ⟨?_, fun hfits => ?_⟩
  · rw [← List.append_assoc, ← List.append_assoc]
    exact hrests.append
  · rw [hafter]
    change Function.update c₁.disks (c₁.drive ioBase) (Ext2.copyIn (c₁.disks (c₁.drive ioBase))
      (512 * c₁.lba ioBase) 512 (bytesOf data)) = _
    rw [hdisks, hdrive, hlba, sector_address hfits]

/-- **The loop over the sectors**, if `H` is what its turns together make of a channel. -/
theorem eachSector_moves {α : Type} {body : Nat → Io α} {G : Nat → Channel → α → Channel → Prop}
    {H : Nat → Channel → List α → Channel → Prop}
    (hbody : ∀ i s, Ends (body i) s (fun _ => True) fun a t => Moves ioBase (G i) s a t)
    (hzero : ∀ c, H 0 c [] c)
    (hsucc : ∀ i c as c₁ a c₂, H i c as c₁ → G i c₁ a c₂ → H (i + 1) c (as ++ [a]) c₂)
    (n : Nat) (s : Bus) :
    Ends (eachSector body n) s (fun _ => True) fun as t =>
      t.hw = s.hw ∧ ∃ new, t.log = s.log ++ new ∧ ∀ (c : Channel) before, c.Rests before →
        c.Talks ioBase new → Prompt (before ++ new) →
          (c.after ioBase new).Rests (before ++ new) ∧ H n c as (c.after ioBase new) := by
  induction n with
  | zero =>
      refine Ends.pure ⟨rfl, [], (List.append_nil _).symm, fun c before hc _ _ => ?_⟩
      rw [List.append_nil]
      exact ⟨hc, hzero c⟩
  | succ n ih =>
      refine ih.bind fun as t ht => ?_
      obtain ⟨hhw, new, hlog, hnew⟩ := ht
      refine (hbody n t).bind fun r u hu => ?_
      obtain ⟨hhw', turn, hlog', ⟨port, v, more, rfl⟩, hturn⟩ := hu
      refine Ends.pure ⟨hhw'.trans hhw, new ++ .out8 port v :: more, ?_,
        fun c before hc htalks hprompt => ?_⟩
      · rw [hlog', hlog, List.append_assoc]
      rw [← List.append_assoc] at hprompt ⊢
      obtain ⟨hfirst, hsecond⟩ := talks_append.mp htalks
      obtain ⟨hrests, hH⟩ := hnew c before hc hfirst hprompt.left_of_append
      have hturn' := hturn _ (hrests.idle hprompt not_isPoll_out8) hsecond hprompt.right_of_append
      rw [after_append]
      exact ⟨hturn'.1.append, hsucc _ _ _ _ _ _ hH hturn'.2⟩

end Sectors

/-! ## The calls -/

section Calls

variable {fuel ioBase sector count n : Nat} {d : Bool} {s : Bus} {buf : Ext2.Bytes} {e : Ext2.Env}

/-- A wait and a loop over the sectors, on a settled channel. -/
theorem call_moves {α β : Type} {body : Nat → Io α} {H : Channel → List α → Channel → Prop}
    (hbody : ∀ s, Ends (eachSector body count) s (fun _ => True) fun as t =>
      t.hw = s.hw ∧ ∃ new, t.log = s.log ++ new ∧ ∀ (c : Channel) before, c.Rests before →
        c.Talks ioBase new → Prompt (before ++ new) →
          (c.after ioBase new).Rests (before ++ new) ∧ H c as (c.after ioBase new))
    (f : List α → β) (fuel : Nat) (s : Bus) :
    Ends (do
        let _ ← Transfer.waitReady fuel ioBase
        let as ← eachSector body count
        return f as) s (fun _ => True) fun r t =>
      t.hw = s.hw ∧ ∃ as new, r = f as ∧ t.log = s.log ++ new ∧ ∀ c : Channel, c.Settled →
        c.Talks ioBase new → Prompt new → (c.after ioBase new).Settled ∧
          ∃ c₁ : Channel, c₁.disks = c.disks ∧ H c₁ as (c.after ioBase new) := by
  refine (wait_log isReady fuel ioBase s).bind fun _ u hu => ?_
  obtain ⟨hhw, polled, hpolled, hwait⟩ := hu
  refine (hbody u).bind fun as t ht => ?_
  obtain ⟨hhw', new, hnew, hloop⟩ := ht
  refine Ends.pure ⟨hhw'.trans hhw, as, polled ++ new, rfl, ?_, fun c hc htalks hprompt => ?_⟩
  · rw [hnew, hpolled, List.append_assoc]
  obtain ⟨hpolls, htalks⟩ := talks_append.mp htalks
  obtain ⟨hrests, hdisks⟩ := hwait.rests hc hpolls
  obtain ⟨hend, hH⟩ := hloop _ polled hrests htalks hprompt
  rw [after_append]
  exact ⟨hend.settled, _, hdisks, hH⟩

/-- What is read of `n` sectors. -/
def FetchedAll (d : Bool) (sector n : Nat) (c : Channel) (as : List (List UInt16)) (c' : Channel) :
    Prop :=
  sector + n ≤ 2 ^ 28 →
    as.flatten = ((List.range (256 * n)).map fun j => wordAt (c.disks d) (512 * sector + 2 * j)) ∧
      c'.disks = c.disks

/-- What is made of `n` sectors. -/
def StoredAll (d : Bool) (sector : Nat) (buf : Ext2.Bytes) (n : Nat) (c : Channel) (_ : List Unit)
    (c' : Channel) : Prop :=
  sector + n ≤ 2 ^ 28 → c'.disks = Function.update c.disks d
    (Ext2.copyIn (c.disks d) (512 * sector) (512 * n) buf)

theorem FetchedAll.succ {c c₁ c₂ : Channel} {as : List (List UInt16)} {data : List UInt16}
    (h : FetchedAll d sector n c as c₁) (hlast : Fetched d sector n c₁ data c₂) :
    FetchedAll d sector (n + 1) c (as ++ [data]) c₂ := by
  intro hfits
  obtain ⟨hwords, hdisks⟩ := h (by omega)
  obtain ⟨hdata, hdisks'⟩ := hlast (by omega)
  refine ⟨?_, hdisks'.trans hdisks⟩
  rw [List.flatten_append, List.flatten_singleton, hwords, hdata, hdisks, Nat.mul_add_one,
    List.range_add, List.map_append, List.map_map]
  congr 1
  refine List.map_congr_left fun j _ => ?_
  change _ = wordAt (c.disks d) (512 * sector + 2 * (256 * n + j))
  congr 1
  omega

theorem StoredAll.succ {c c₁ c₂ : Channel} {as : List Unit} {r : Unit}
    (h : StoredAll d sector buf n c as c₁) (hlast : Stored d sector buf n c₁ r c₂) :
    StoredAll d sector buf (n + 1) c (as ++ [r]) c₂ := by
  intro hfits
  have hdisks := h (by omega)
  rw [hlast (by omega), hdisks, Function.update_self, copyIn_sector, Function.update_idem]

theorem read_moves (e : Ext2.Env) (fuel ioBase : Nat) (d : Bool) (s : Bus)
    (hfits : sector + count ≤ 2 ^ 28) :
    Ends (Request.exec fuel ioBase (.read d sector count)) s (fun _ => True) fun r t =>
      t.hw = s.hw ∧ ∃ new, t.log = s.log ++ new ∧ ∀ c : Channel, c.Settled →
        c.Talks ioBase new → Prompt new → (c.after ioBase new).Settled ∧
          (r, (c.after ioBase new).disks) = Request.answer e c.disks (.read d sector count) := by
  have hloop := eachSector_moves (H := FetchedAll d sector) (readSector_moves fuel ioBase sector d)
    (fun c _ => ⟨rfl, rfl⟩) (fun _ _ _ _ _ _ h hlast => h.succ hlast) count
  refine (call_moves (H := FetchedAll d sector count) hloop (fun data => (0, data.flatten)) fuel
    s).mono fun r t ht => ?_
  obtain ⟨hhw, as, new, rfl, hlog, hnew⟩ := ht
  refine ⟨hhw, new, hlog, fun c hc htalks hprompt => ?_⟩
  obtain ⟨hsettled, c₁, hdisks, hall⟩ := hnew c hc htalks hprompt
  obtain ⟨hwords, hafter⟩ := hall hfits
  refine ⟨hsettled, ?_⟩
  rw [hwords, hafter, hdisks]
  unfold Request.answer
  congr 2
  exact List.map_congr_left fun j hj => (wordAt_copyOut (List.mem_range.mp hj)).symm

theorem copyIn_zero {disk : Ext2.Bytes} {a : Nat} : Ext2.copyIn disk a 0 buf = disk := by
  funext x
  unfold Ext2.copyIn
  exact if_neg (by omega)

theorem write_moves (e : Ext2.Env) (fuel ioBase : Nat) (d : Bool) (buf : Ext2.Bytes) (s : Bus)
    (hfits : sector + count ≤ 2 ^ 28) :
    Ends (Request.exec fuel ioBase (.write d sector count buf)) s (fun _ => True) fun r t =>
      t.hw = s.hw ∧ ∃ new, t.log = s.log ++ new ∧ ∀ c : Channel, c.Settled →
        c.Talks ioBase new → Prompt new → (c.after ioBase new).Settled ∧
          (r, (c.after ioBase new).disks) =
            Request.answer e c.disks (.write d sector count buf) := by
  have hloop := eachSector_moves (H := StoredAll d sector buf)
    (writeSector_moves fuel ioBase sector d buf) ?_
    (fun _ _ _ _ _ _ h hlast => h.succ hlast) count
  · refine ((call_moves (H := StoredAll d sector buf count) hloop (fun _ => (0 : Int)) fuel
      s).bind fun r t ht => Ends.pure ?_)
    obtain ⟨hhw, as, new, rfl, hlog, hnew⟩ := ht
    refine ⟨hhw, new, hlog, fun c hc htalks hprompt => ?_⟩
    obtain ⟨hsettled, c₁, hdisks, hall⟩ := hnew c hc htalks hprompt
    refine ⟨hsettled, ?_⟩
    rw [hall hfits, hdisks]
    rfl
  · intro c _
    rw [Nat.mul_zero, copyIn_zero, Function.update_eq_self]

end Calls

/-! ## All calls -/

/-- The clock goes on: each wait is given up behind `n` statuses at the latest. -/
def Ticking (hw : Hardware) (n : Nat) : Prop := ∀ m, ∃ k ≤ n, ¬ PollInTime hw m k

section Runs

variable {fuel ioBase n : Nat} {hw : Hardware} {s : Bus} {rs : List Request} {r : Request}

theorem Ticking.endsWithin (h : Ticking hw n) (stop : UInt8 → Bool) (ioBase : Nat) :
    EndsWithin stop hw ioBase n := by
  intro m
  obtain ⟨k, hk, hout⟩ := h m
  exact ⟨k, hk, .inl hout⟩

theorem exec_returns (h : Ticking s.hw n) (hn : n < fuel) (ioBase : Nat) (r : Request) :
    ∃ result t, r.exec fuel ioBase s = .ok (result, t) := by
  cases r with
  | read d sector count =>
      have hread : ∃ data t,
          ideDeviceRead fuel ioBase (Request.number d) sector count s = .ok ((0, data), t) :=
        ideDeviceRead_returns (h.endsWithin isReady ioBase) (h.endsWithin isDrq ioBase) hn count
      obtain ⟨data, t, hrun⟩ := hread
      exact ⟨_, t, hrun⟩
  | write d sector count buf =>
      have hwrite : ∃ t, ideDeviceWrite fuel ioBase (Request.number d) sector count
          (fun j => wordAt buf (2 * j)) s = .ok (0, t) :=
        ideDeviceWrite_returns (h.endsWithin isReady ioBase) hn count
      obtain ⟨t, hrun⟩ := hwrite
      exact ⟨_, t, bind_apply_of_ok hrun⟩

/-- A call, on a channel that is settled. -/
theorem exec_moves (e : Ext2.Env) (hclock : Ticking s.hw n) (hfuel : n < fuel) (ioBase : Nat)
    (hfits : r.Fits) :
    ∃ result t new, r.exec fuel ioBase s = .ok (result, t) ∧ t.hw = s.hw ∧ t.log = s.log ++ new ∧
      ∀ c : Channel, c.Settled → c.Talks ioBase new → Prompt new → (c.after ioBase new).Settled ∧
        (result, (c.after ioBase new).disks) = r.answer e c.disks := by
  obtain ⟨result, t, hrun⟩ := exec_returns hclock hfuel ioBase r
  have hmoves : t.hw = s.hw ∧ ∃ new, t.log = s.log ++ new ∧ ∀ c : Channel, c.Settled →
      c.Talks ioBase new → Prompt new → (c.after ioBase new).Settled ∧
        (result, (c.after ioBase new).disks) = r.answer e c.disks := by
    cases r with
    | read d sector count => exact (read_moves e fuel ioBase d s hfits).of_result hrun
    | write d sector count buf => exact (write_moves e fuel ioBase d buf s hfits).of_result hrun
  obtain ⟨hhw, new, hlog, hnew⟩ := hmoves
  exact ⟨result, t, new, hrun, hhw, hlog, hnew⟩

/-- **The driver and the drives**: any reads and writes end, and if what they have read from the
ports is what a channel has said that was settled, and no wait for it has been given up, then they
have returned what the device of the file system returns, and its disks are those of that device. -/
theorem requests_run (e : Ext2.Env) (hclock : Ticking s.hw n) (hfuel : n < fuel) (ioBase : Nat)
    (hfits : ∀ r ∈ rs, r.Fits) :
    ∃ results t new, Program.calls (Request.exec fuel ioBase) rs s = .ok (results, t) ∧
      t.log = s.log ++ new ∧
      ∀ c : Channel, c.Settled → c.Talks ioBase new → Prompt new →
        results = (answers (Request.answer e) c.disks rs).1 ∧
          (c.after ioBase new).disks = (answers (Request.answer e) c.disks rs).2 ∧
          (c.after ioBase new).Settled := by
  induction rs generalizing s with
  | nil => exact ⟨[], s, [], rfl, (List.append_nil _).symm, fun c hc _ _ => ⟨rfl, rfl, hc⟩⟩
  | cons r rs ih =>
      obtain ⟨hr, hrs⟩ := List.forall_mem_cons.mp hfits
      obtain ⟨result, u, first, hrun, hhw, hlog, hfirst⟩ := exec_moves e hclock hfuel ioBase hr
      obtain ⟨results, t, new, hrest, hlog', hnew⟩ := ih (hhw ▸ hclock) hrs
      refine ⟨result :: results, t, first ++ new, ?_, ?_, fun c hc htalks hprompt => ?_⟩
      · unfold Program.calls
        rw [bind_apply_of_ok hrun, bind_apply_of_ok hrest]
        rfl
      · rw [hlog', hlog, List.append_assoc]
      obtain ⟨htalks, htalks'⟩ := talks_append.mp htalks
      obtain ⟨hsettled, hanswer⟩ := hfirst c hc htalks hprompt.left_of_append
      obtain ⟨hresult, hdisks⟩ := Prod.ext_iff.mp hanswer
      obtain ⟨hresults, hdisks', hsettled'⟩ := hnew _ hsettled htalks' hprompt.right_of_append
      dsimp only at hresult hdisks
      rw [hdisks] at hresults hdisks'
      rw [answers_cons_fst, answers_cons_snd, after_append, ← hresult, ← hresults]
      exact ⟨rfl, hdisks', hsettled'⟩

end Runs

/-- The bytes of a word, again and again. -/
def letters : Ext2.Bytes := fun a => if a % 2 = 0 then 0x34 else 0x12

/-- A channel that gives this word whenever it is read. -/
def answering : Hardware where
  in8 m _ := if m = 12 then 0x48 else 0x40
  in16 _ _ := 0x1234
  ticks m := m % 200

/-- Two drives with the same disk. -/
def lettered : Channel := ⟨fun _ => 0, .idle, fun _ => letters⟩

theorem ticking_answering : Ticking answering 50 := by
  intro m
  refine ⟨50, Nat.le_refl 50, ?_⟩
  have hall : ∀ r < 200, inTime (u64 r) (u64 ((r + 101) % 200)) = false := by decide +kernel
  have hm := hall (m % 200) (Nat.mod_lt m (by decide))
  have hlater : (m % 200 + 101) % 200 = (m + 1 + 2 * 50) % 200 := by omega
  unfold PollInTime answering
  dsimp only
  rw [← hlater, hm]
  exact Bool.false_ne_true

/-- What a read of the sector `5` of the second drive adds to the log, before the words. -/
def commandLog : List Access :=
  [.ticks, .ticks, .in8 0x1F7 0x40] ++ issueLog ideCmdReadPio 0x1F0 1 5 ++
    [.ticks, .ticks, .in8 0x1F7 0x48]

/-- A sector of the second drive is read. -/
theorem requests_run_read : ∃ results t,
    Program.calls (Request.exec 51 0x1F0) [.read true 5 1] ⟨answering, []⟩ = .ok (results, t) ∧
      lettered.Talks 0x1F0 t.log ∧ Prompt t.log ∧
      results = [(0, List.replicate 256 0x1234)] := by
  have hfits : ∀ r ∈ [Request.read true 5 1], r.Fits := by
    simp [Request.Fits]
  obtain ⟨results, t, new, hrun, hlog, hnew⟩ := requests_run ⟨0, fun _ => false, fun _ => false,
    fun _ => false, fun _ => 0, fun _ => false⟩ (s :=
      ⟨answering, []⟩) ticking_answering (by decide : 50 < 51) 0x1F0
    hfits
  have hnil : t.log = new := hlog
  have heval : ((Program.calls (Request.exec 51 0x1F0) [.read true 5 1]
      ⟨answering, []⟩).toOption.map fun r => r.2.log) = some (commandLog ++
        ((List.range 256).map fun j =>
          wordAt letters (512 * 5 + 2 * (0 + j))).map (.in16 0x1F0)) := by
    decide +kernel
  rw [hrun] at heval
  have hwords : t.log = _ := Option.some.inj heval
  have hcommand : lettered.Talks 0x1F0 commandLog ∧
      (lettered.after 0x1F0 commandLog).phase = .giving 0 ∧
      (lettered.after 0x1F0 commandLog).drive 0x1F0 = true ∧
      (lettered.after 0x1F0 commandLog).lba 0x1F0 = 5 := by decide +kernel
  obtain ⟨hfirst, hphase, hdrive, hlba⟩ := hcommand
  have htalks : lettered.Talks 0x1F0 t.log := by
    rw [hwords]
    refine talks_append.mpr ⟨hfirst, ?_⟩
    have hgiven : (lettered.after 0x1F0 commandLog).Talks 0x1F0 _ :=
      talks_given (n := 256) hphase (Nat.zero_add 256)
    rw [hdrive, hlba] at hgiven
    exact hgiven
  have hprompt : Prompt t.log := by
    rw [hwords]
    decide +kernel
  obtain ⟨hresults, -⟩ := hnew lettered (.inl rfl) (hnil ▸ htalks) (hnil ▸ hprompt)
  refine ⟨results, t, hrun, htalks, hprompt, hresults.trans ?_⟩
  decide +kernel

end InfoKernel.Ide.Drive
