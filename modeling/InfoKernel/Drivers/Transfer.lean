import InfoKernel.Drivers.Ide
import InfoKernel.Lib.Run

/-!
# Reading and writing sectors

`IDEDeviceRead` and `IDEDeviceWrite` of `ide.cc`, from `ide_lock.lock()` to `ide_lock.unlock()`.
The drive is a `Hardware`, and the model keeps a log of all accesses to the ports and all looks at
the clock: the length of the log is the moment, and what the drive has been told and what it has
said is read off the log.

Both functions wait before they move the data of a sector, and they do not ask how the wait has
ended.  So a call is right exactly when each wait before a transfer reads a status with a data
request and no error (`transfers_reported_iff`), and nothing that the drive can say makes them
return an error.

They put 28 bits of the number of a sector into the registers: the address of a transfer is the
number of its sector exactly below `2 ^ 28` (`transfers_address_iff`).
-/

namespace InfoKernel.Ide.Transfer

open Lib

/-! ## The drive and its log -/

/-- An access to a port, or a look at the clock. -/
inductive Access where
  | ticks
  | in8 (port : Nat) (v : UInt8)
  | out8 (port : Nat) (v : UInt8)
  | in16 (port : Nat) (v : UInt16)
  | out16 (port : Nat) (v : UInt16)
  deriving DecidableEq, Repr

/-- The accesses that move data. -/
def Access.isData : Access → Bool
  | .in16 _ _ => true
  | .out16 _ _ => true
  | _ => false

/-- The drive, and what has been done with it so far. -/
structure Bus where
  hw : Hardware
  log : List Access

/-- One more access. -/
def Bus.push (s : Bus) (a : Access) : Bus := { s with log := s.log ++ [a] }

/-- What reads and changes the drive. -/
abbrev Io (α : Type) := Program Bus Fault α

/-- `inb` -/
def inb (port : Nat) : Io UInt8 := fun s =>
  .ok (s.hw.in8 s.log.length port, s.push (.in8 port (s.hw.in8 s.log.length port)))

/-- `inw` -/
def inw (port : Nat) : Io UInt16 := fun s =>
  .ok (s.hw.in16 s.log.length port, s.push (.in16 port (s.hw.in16 s.log.length port)))

/-- `outb` -/
def outb (port : Nat) (v : UInt8) : Io Unit := fun s => .ok ((), s.push (.out8 port v))

/-- `outw` -/
def outw (port : Nat) (v : UInt16) : Io Unit := fun s => .ok ((), s.push (.out16 port v))

/-- `timer::GetTicks` -/
def getTicks : Io Nat := fun s => .ok (u64 (s.hw.ticks s.log.length), s.push .ticks)

/-! ## The waits -/

/-- `IDE_ERROR` -/
def ideError : Nat := 1

/-- `IDE_CMD_READ_PIO` -/
def ideCmdReadPio : UInt8 := 0x20

/-- `IDE_CMD_WRITE_PIO` -/
def ideCmdWritePio : UInt8 := 0x30

/-- `IDE_STATUS_DRQ` -/
def ideStatusDrq : UInt8 := 0x08

/-- The condition of the loops that wait, with the ticks at their beginning and now. -/
def inTime (t now : Nat) : Bool :=
  u64 (sub64 now (asInt t) * 1000) / timerFrequency < ideTimeout

/-- A turn of a loop that waits for a status. -/
def waitTurn (stop : UInt8 → Bool) (ioBase t : Nat) (_ : Unit) : Io (Turn Unit Unit) := do
  let now ← getTicks
  if inTime t now then
    let status ← inb (ioBase + ideStatus)
    if stop status then return .leave () else return .again ()
  else return .leave ()

/-- The waits: for a status, or for a second to go by. -/
def wait (stop : UInt8 → Bool) (fuel ioBase : Nat) : Io Unit := do
  let t ← getTicks
  Program.loop (waitTurn stop ioBase t) .outOfFuel fuel ()

/-- What `WaitReady` waits for. -/
def isReady (status : UInt8) : Bool :=
  status &&& ideStatusBsy = 0 ∧ status &&& ideStatusDrdy ≠ 0

/-- What `WaitDrq` waits for. -/
def isDrq (status : UInt8) : Bool := status &&& ideStatusDrq ≠ 0

/-- `WaitReady` -/
def waitReady : Nat → Nat → Io Unit := wait isReady

/-- `WaitDrq` -/
def waitDrq : Nat → Nat → Io Unit := wait isDrq

/-! ## The transfers -/

/-- The seven bytes that both functions write for a sector, the command last. -/
def issue (command : UInt8) (ioBase : Nat) (drive : UInt8) (lba : Nat) : Io Unit := do
  outb (ioBase + ideDevice)
    ((0xE0 : UInt8) ||| (drive <<< 4) ||| UInt8.ofNat (lba / 2 ^ 24 % 16))
  outb (ioBase + ideError) 0
  outb (ioBase + ideSectorCount) 1
  outb (ioBase + ideLbaLow) (UInt8.ofNat (lba % 256))
  outb (ioBase + ideLbaMid) (UInt8.ofNat (lba / 2 ^ 8 % 256))
  outb (ioBase + ideLbaHigh) (UInt8.ofNat (lba / 2 ^ 16 % 256))
  outb (ioBase + ideCommand) command

/-- The loop that reads `n` words. -/
def readWords (ioBase : Nat) : Nat → Io (List UInt16)
  | 0 => return []
  | n + 1 => do
      let data ← readWords ioBase n
      let w ← inw (ioBase + ideData)
      return data ++ [w]

/-- The loop that writes the words `data`. -/
def writeWords (ioBase : Nat) : List UInt16 → Io Unit
  | [] => return ()
  | w :: data => do
      outw (ioBase + ideData) w
      writeWords ioBase data

/-- A turn of the loop of `IDEDeviceRead`. -/
def readSector (fuel ioBase : Nat) (drive : UInt8) (sector i : Nat) : Io (List UInt16) := do
  issue ideCmdReadPio ioBase drive (u64 (sector + i))
  waitDrq fuel ioBase
  readWords ioBase 256

/-- A turn of the loop of `IDEDeviceWrite`.  The words of the buffer are `buf`. -/
def writeSector (fuel ioBase : Nat) (drive : UInt8) (sector : Nat) (buf : Nat → UInt16) (i : Nat) :
    Io Unit := do
  issue ideCmdWritePio ioBase drive (u64 (sector + i))
  waitReady fuel ioBase
  writeWords ioBase ((List.range 256).map fun j => buf (256 * i + j))
  waitReady fuel ioBase

/-- The loops over the sectors. -/
def eachSector {α : Type} (body : Nat → Io α) : Nat → Io (List α)
  | 0 => return []
  | n + 1 => do
      let done ← eachSector body n
      let a ← body n
      return done ++ [a]

/-- `IDEDeviceRead`: the code, and what is in the buffer. -/
def ideDeviceRead (fuel ioBase : Nat) (drive : UInt8) (sector count : Nat) :
    Io (Int × List UInt16) := do
  waitReady fuel ioBase
  let data ← eachSector (readSector fuel ioBase drive sector) count
  return (0, data.flatten)

/-- `IDEDeviceWrite` -/
def ideDeviceWrite (fuel ioBase : Nat) (drive : UInt8) (sector count : Nat)
    (buf : Nat → UInt16) : Io Int := do
  waitReady fuel ioBase
  let _ ← eachSector (writeSector fuel ioBase drive sector buf) count
  return 0

/-! ## What the calls should do -/

/-- A data request, and no error. -/
def Good (status : UInt8) : Prop := status &&& ideStatusDrq ≠ 0 ∧ status &&& ideStatusErr = 0

/-- **A sector is transferred after the drive has asked for it**: what is added to the log has a
command, then a status with a data request and no error that is read before any data, and then 256
words of data. -/
def Reported (ioBase : Nat) (command : UInt8) (s t : Bus) : Prop :=
  ∃ before status after, t.log = s.log ++ (before ++ .in8 (ioBase + ideStatus) status :: after) ∧
    Good status ∧ .out8 (ioBase + ideCommand) command ∈ before ∧
    (∀ a ∈ before, a.isData = false) ∧ (after.filter Access.isData).length = 256

/-- What was written last to a port. -/
def register (log : List Access) (port : Nat) : UInt8 :=
  log.foldl (fun r a => if let .out8 p v := a then if p = port then v else r else r) 0

/-- The sector that the registers name. -/
def address (ioBase : Nat) (log : List Access) : Nat :=
  (register log (ioBase + ideDevice)).toNat % 16 * 2 ^ 24 +
    (register log (ioBase + ideLbaHigh)).toNat * 2 ^ 16 +
    (register log (ioBase + ideLbaMid)).toNat * 2 ^ 8 + (register log (ioBase + ideLbaLow)).toNat

/-! ## What a wait reads -/

section Polls

variable (hw : Hardware) (ioBase m : Nat)

/-- The status that a wait from the moment `m` on reads, `j` statuses behind the first. -/
def polled (j : Nat) : UInt8 := hw.in8 (m + 2 + 2 * j) (ioBase + ideStatus)

/-- The wait from the moment `m` on has not timed out when it comes to the status `j`. -/
def PollInTime (j : Nat) : Prop :=
  inTime (u64 (hw.ticks m)) (u64 (hw.ticks (m + 1 + 2 * j))) = true

/-- **A wait reads a data request without an error**: before it has timed out, and with no status
before that ends it. -/
def Sees (stop : UInt8 → Bool) : Prop :=
  ∃ k, (∀ j ≤ k, PollInTime hw m j) ∧ (∀ j < k, stop (polled hw ioBase m j) = false) ∧
    Good (polled hw ioBase m k)

/-- The accesses of the first `n` turns. -/
def pollLog (n : Nat) : List Access :=
  (List.range n).flatMap fun j => [.ticks, .in8 (ioBase + ideStatus) (polled hw ioBase m j)]

variable {hw ioBase m} {n : Nat}

theorem pollLog_succ : pollLog hw ioBase m (n + 1) = pollLog hw ioBase m n ++
    [.ticks, .in8 (ioBase + ideStatus) (polled hw ioBase m n)] := by
  rw [pollLog, List.range_succ, List.flatMap_append]
  rfl

theorem length_pollLog : (pollLog hw ioBase m n).length = 2 * n := by
  induction n with
  | zero => rfl
  | succ n ih =>
      rw [pollLog_succ, List.length_append, ih]
      rfl

theorem mem_pollLog {a : Access} : a ∈ pollLog hw ioBase m n ↔
    ∃ j < n, a = .ticks ∨ a = .in8 (ioBase + ideStatus) (polled hw ioBase m j) := by
  simp only [pollLog, List.mem_flatMap, List.mem_range, List.mem_cons, List.not_mem_nil, or_false]

end Polls

/-- What a wait has done that has ended after `n` statuses: the last of them has ended it, or it has
timed out. -/
structure Waited (stop : UInt8 → Bool) (ioBase n : Nat) (s t : Bus) : Prop where
  hw : t.hw = s.hw
  log : ∃ last, (last = [] ∨ last = [.ticks]) ∧
    t.log = s.log ++ (.ticks :: (pollLog s.hw ioBase s.log.length n ++ last))
  inTime : ∀ j < n, PollInTime s.hw s.log.length j
  goesOn : ∀ j, j + 1 < n → stop (polled s.hw ioBase s.log.length j) = false
  ended : ¬ PollInTime s.hw s.log.length n ∨
    ∃ k, n = k + 1 ∧ stop (polled s.hw ioBase s.log.length k) = true

section Waiting

variable {stop : UInt8 → Bool} {fuel ioBase n : Nat} {s t : Bus}

/-- Where the loop of a wait from `s` on stands behind `n` statuses. -/
structure Waits (stop : UInt8 → Bool) (ioBase : Nat) (s : Bus) (n : Nat) (t : Bus) : Prop where
  hw : t.hw = s.hw
  log : t.log = s.log ++ (.ticks :: pollLog s.hw ioBase s.log.length n)
  inTime : ∀ j < n, PollInTime s.hw s.log.length j
  goesOn : ∀ j < n, stop (polled s.hw ioBase s.log.length j) = false

theorem Waits.length (h : Waits stop ioBase s n t) : t.log.length = s.log.length + 1 + 2 * n := by
  rw [h.log, List.length_append, List.length_cons, length_pollLog]
  omega

/-- A turn of the loop: it reads a status and goes on or ends, or it times out. -/
theorem Waits.turn (h : Waits stop ioBase s n t) :
    Ends (waitTurn stop ioBase (u64 (s.hw.ticks s.log.length)) ()) t (fun _ => False) fun u t' =>
      u.Meets (fun _ => Waits stop ioBase s (n + 1) t') fun _ =>
        ∃ n, Waited stop ioBase n s t' := by
  have hlen := h.length
  refine Ends.step rfl ?_
  rw [h.hw, hlen]
  by_cases hin : PollInTime s.hw s.log.length n
  · rw [PollInTime] at hin
    rw [if_pos hin]
    have hstatus : t.hw.in8 (t.push .ticks).log.length (ioBase + ideStatus) =
        polled s.hw ioBase s.log.length n := by
      rw [h.hw, polled, Bus.push, List.length_append, hlen, List.length_singleton]
      congr 1
      omega
    refine Ends.step rfl ?_
    have hpush : (t.push .ticks).hw.in8 (t.push .ticks).log.length (ioBase + ideStatus) =
        polled s.hw ioBase s.log.length n := hstatus
    rw [hpush]
    have hlog : ((t.push .ticks).push (.in8 (ioBase + ideStatus)
        (polled s.hw ioBase s.log.length n))).log =
          s.log ++ (.ticks :: pollLog s.hw ioBase s.log.length (n + 1)) := by
      rw [Bus.push, Bus.push, h.log, pollLog_succ]
      simp only [List.append_assoc, List.cons_append, List.nil_append]
    have hbefore : ∀ j < n + 1, PollInTime s.hw s.log.length j := by
      intro j hj
      rcases Nat.lt_succ_iff_lt_or_eq.mp hj with hj | rfl
      · exact h.inTime j hj
      · exact hin
    split
    · rename_i hstop
      refine ⟨n + 1, h.hw, ⟨[], .inl rfl, ?_⟩, hbefore, ?_, .inr ⟨n, rfl, hstop⟩⟩
      · rw [hlog, List.append_nil]
      · exact fun j hj => h.goesOn j (Nat.lt_of_succ_lt_succ hj)
    · rename_i hstop
      refine ⟨h.hw, hlog, hbefore, fun j hj => ?_⟩
      rcases Nat.lt_succ_iff_lt_or_eq.mp hj with hj | rfl
      · exact h.goesOn j hj
      · exact Bool.not_eq_true _ ▸ hstop
  · rw [PollInTime] at hin
    rw [if_neg hin]
    refine ⟨n, h.hw, ⟨[.ticks], .inr rfl, ?_⟩, h.inTime, ?_, .inl hin⟩
    · rw [Bus.push, h.log]
      simp only [List.append_assoc, List.cons_append]
    · exact fun j hj => h.goesOn j (Nat.lt_of_succ_lt hj)

/-- **What a wait does**, if it ends. -/
theorem wait_ends (stop : UInt8 → Bool) (fuel ioBase : Nat) (s : Bus) :
    Ends (wait stop fuel ioBase) s (fun _ => True) fun _ t => ∃ n, Waited stop ioBase n s t := by
  refine Ends.step rfl ?_
  refine Ends.loop_of_out
    (I := fun _ t => ∃ n, Waits stop ioBase s n t) ?_ trivial ⟨0, rfl, ?_, ?_, ?_⟩
  · rintro _ t ⟨n, hn⟩
    refine (hn.turn.mono_error fun _ h => h.elim).mono fun u t' hu => ?_
    cases u with
    | again _ => exact ⟨n + 1, hu⟩
    | leave _ => exact hu
  · rfl
  · exact fun j hj => absurd hj (Nat.not_lt_zero j)
  · exact fun j hj => absurd hj (Nat.not_lt_zero j)

/-- What a wait reads, as a condition on the drive. -/
theorem Waited.good_iff (h : Waited stop ioBase n s t) :
    (∃ j < n, Good (polled s.hw ioBase s.log.length j)) ↔ Sees s.hw ioBase s.log.length stop := by
  constructor
  · rintro ⟨j, hj, hgood⟩
    exact ⟨j, fun i hi => h.inTime i (Nat.lt_of_le_of_lt hi hj),
      fun i hi => h.goesOn i (by omega), hgood⟩
  · rintro ⟨k, hin, hgo, hgood⟩
    refine ⟨k, ?_, hgood⟩
    by_contra hk
    rcases h.ended with hout | ⟨l, rfl, hstop⟩
    · exact hout (hin n (Nat.not_lt.mp hk))
    · rw [hgo l (by omega)] at hstop
      cases hstop

end Waiting

/-! ## What the turn for a sector does -/

/-- An access of a wait. -/
def Access.IsPoll (a : Access) : Prop := a = .ticks ∨ ∃ port v, a = .in8 port v

theorem Access.IsPoll.isData {a : Access} (h : a.IsPoll) : a.isData = false := by
  rcases h with rfl | ⟨port, v, rfl⟩
  · rfl
  · rfl

/-- The seven bytes for a sector. -/
def issueLog (command : UInt8) (ioBase : Nat) (drive : UInt8) (lba : Nat) : List Access :=
  [.out8 (ioBase + ideDevice)
      ((0xE0 : UInt8) ||| (drive <<< 4) ||| UInt8.ofNat (lba / 2 ^ 24 % 16)),
    .out8 (ioBase + ideError) 0, .out8 (ioBase + ideSectorCount) 1,
    .out8 (ioBase + ideLbaLow) (UInt8.ofNat (lba % 256)),
    .out8 (ioBase + ideLbaMid) (UInt8.ofNat (lba / 2 ^ 8 % 256)),
    .out8 (ioBase + ideLbaHigh) (UInt8.ofNat (lba / 2 ^ 16 % 256)),
    .out8 (ioBase + ideCommand) command]

/-- What the turn for a sector does: the command, a wait, 256 words of data, and perhaps another
wait. -/
structure Transfers (stop : UInt8 → Bool) (command : UInt8) (ioBase : Nat) (drive : UInt8)
    (lba : Nat) (s t : Bus) : Prop where
  hw : t.hw = s.hw
  log : ∃ n waited data rest,
    Waited stop ioBase n { s with log := s.log ++ issueLog command ioBase drive lba } waited ∧
      t.log = waited.log ++ (data ++ rest) ∧ data.length = 256 ∧ (∀ a ∈ data, a.isData = true) ∧
      ∀ a ∈ rest, a.IsPoll

section Turns

variable {stop : UInt8 → Bool} {fuel ioBase n lba sector i : Nat} {command drive : UInt8}
  {s t : Bus} {buf : Nat → UInt16}

theorem issue_eq (s : Bus) : issue command ioBase drive lba s =
    .ok ((), { s with log := s.log ++ issueLog command ioBase drive lba }) := by
  rw [issueLog, List.append_cons, List.append_cons, List.append_cons, List.append_cons,
    List.append_cons, List.append_cons]
  rfl

/-- What a wait adds to the log. -/
theorem Waited.polls (h : Waited stop ioBase n s t) :
    ∃ more, t.log = s.log ++ more ∧ ∀ a ∈ more, a.IsPoll := by
  obtain ⟨last, hlast, hlog⟩ := h.log
  refine ⟨_, hlog, fun a ha => ?_⟩
  rcases List.mem_cons.mp ha with rfl | ha
  · exact .inl rfl
  rcases List.mem_append.mp ha with ha | ha
  · obtain ⟨j, -, rfl | rfl⟩ := mem_pollLog.mp ha
    · exact .inl rfl
    · exact .inr ⟨_, _, rfl⟩
  · rcases hlast with rfl | rfl
    · cases ha
    · exact .inl (List.mem_singleton.mp ha)

/-- The words that `ReadSectors` takes from the data port are those it has in its buffer. -/
theorem readWords_log (ioBase n : Nat) (s : Bus) :
    Ends (readWords ioBase n) s (fun _ => False) fun data t =>
      t.hw = s.hw ∧ t.log = s.log ++ data.map (.in16 (ioBase + ideData)) ∧ data.length = n := by
  induction n with
  | zero => exact ⟨rfl, (List.append_nil _).symm, rfl⟩
  | succ n ih =>
      refine ih.bind fun data t ht => ?_
      obtain ⟨hhw, hlog, hlen⟩ := ht
      refine Ends.step rfl ⟨hhw, ?_, ?_⟩
      · simp [Bus.push, hlog]
      · simp [hlen]

/-- The words that `WriteSectors` puts on the data port are those of its buffer. -/
theorem writeWords_log (ioBase : Nat) (words : List UInt16) (s : Bus) :
    Ends (writeWords ioBase words) s (fun _ => False) fun _ t =>
      t.hw = s.hw ∧ t.log = s.log ++ words.map (.out16 (ioBase + ideData)) := by
  induction words generalizing s with
  | nil => exact ⟨rfl, (List.append_nil _).symm⟩
  | cons w words ih =>
      refine Ends.step rfl ((ih _).mono fun _ t ht => ?_)
      obtain ⟨hhw, hlog⟩ := ht
      refine ⟨hhw, ?_⟩
      rw [hlog, Bus.push, List.append_assoc]
      rfl

theorem readWords_ends (ioBase n : Nat) (s : Bus) :
    Ends (readWords ioBase n) s (fun _ => False) fun _ t => t.hw = s.hw ∧
      ∃ data, t.log = s.log ++ data ∧ data.length = n ∧ ∀ a ∈ data, a.isData = true := by
  refine (readWords_log ioBase n s).mono fun words t ht => ?_
  obtain ⟨hhw, hlog, hlen⟩ := ht
  refine ⟨hhw, _, hlog, by rw [List.length_map, hlen], fun a ha => ?_⟩
  obtain ⟨w, -, rfl⟩ := List.mem_map.mp ha
  rfl

theorem writeWords_ends (ioBase : Nat) (words : List UInt16) (s : Bus) :
    Ends (writeWords ioBase words) s (fun _ => False) fun _ t => t.hw = s.hw ∧
      ∃ data, t.log = s.log ++ data ∧ data.length = words.length ∧ ∀ a ∈ data, a.isData = true := by
  refine (writeWords_log ioBase words s).mono fun _ t ht => ?_
  obtain ⟨hhw, hlog⟩ := ht
  refine ⟨hhw, _, hlog, List.length_map .., fun a ha => ?_⟩
  obtain ⟨w, -, rfl⟩ := List.mem_map.mp ha
  rfl

-- The unifier would run the loops over the words of a sector.
attribute [irreducible] readWords writeWords

theorem readSector_ends (s : Bus) :
    Ends (readSector fuel ioBase drive sector i) s (fun _ => True) fun _ t =>
      Transfers isDrq ideCmdReadPio ioBase drive (u64 (sector + i)) s t := by
  refine Ends.step (issue_eq s) ?_
  refine (wait_ends isDrq fuel ioBase _).bind fun _ waited hwait => ?_
  obtain ⟨n, hwait⟩ := hwait
  refine ((readWords_ends ioBase 256 waited).mono_error fun _ h => h.elim).mono fun _ t ht => ?_
  obtain ⟨hhw, data, hlog, hlen, hdata⟩ := ht
  refine ⟨hhw.trans hwait.hw, n, waited, data, [], hwait, ?_, hlen, hdata, List.forall_mem_nil _⟩
  rw [List.append_nil, hlog]

theorem writeSector_ends (s : Bus) :
    Ends (writeSector fuel ioBase drive sector buf i) s (fun _ => True) fun _ t =>
      Transfers isReady ideCmdWritePio ioBase drive (u64 (sector + i)) s t := by
  refine Ends.step (issue_eq s) ?_
  refine (wait_ends isReady fuel ioBase _).bind fun _ waited hwait => ?_
  obtain ⟨n, hwait⟩ := hwait
  refine ((writeWords_ends ioBase _ waited).mono_error fun _ h => h.elim).bind fun _ u hu => ?_
  obtain ⟨hhw, data, hlog, hlen, hdata⟩ := hu
  refine (wait_ends isReady fuel ioBase u).mono fun _ t ht => ?_
  obtain ⟨n', hafter⟩ := ht
  obtain ⟨rest, hrest, hpoll⟩ := hafter.polls
  refine ⟨hafter.hw.trans (hhw.trans hwait.hw), n, waited, data, rest, hwait, ?_, ?_, hdata, hpoll⟩
  · rw [hrest, hlog, List.append_assoc]
  · rw [hlen, List.length_map, List.length_range]

end Turns

/-! ## When a sector is reported -/

section Reporting

variable {stop : UInt8 → Bool} {ioBase n m j lba : Nat} {command drive : UInt8} {s t : Bus}
  {hw : Hardware} {before after front data : List Access} {a : Access}

/-- What stands before any data, in a list that begins with `front` and goes on with data, is in
`front`. -/
theorem mem_of_append_eq (h : before ++ a :: after = front ++ data)
    (hbefore : ∀ b ∈ before, b.isData = false) (ha : a.isData = false)
    (hdata : ∀ d, data.head? = some d → d.isData = true) : a ∈ front := by
  rcases List.append_eq_append_iff.mp h with ⟨mid, hfront, hmid⟩ | ⟨mid, hfront, hmid⟩
  · cases mid with
    | nil =>
        rw [List.nil_append] at hmid
        have hd := hdata a (by rw [← hmid]; rfl)
        rw [ha] at hd
        cases hd
    | cons b mid =>
        rw [List.cons_append] at hmid
        obtain ⟨rfl, -⟩ := List.cons.inj hmid
        rw [hfront]
        exact List.mem_append_right _ List.mem_cons_self
  · cases mid with
    | nil =>
        have hd := hdata a (by rw [hmid]; rfl)
        rw [ha] at hd
        cases hd
    | cons b mid =>
        have hd := hdata b (by rw [hmid]; rfl)
        rw [hbefore b (by rw [hfront]; exact List.mem_append_right _ List.mem_cons_self)] at hd
        cases hd

theorem isData_of_mem_issueLog (h : a ∈ issueLog command ioBase drive lba) : a.isData = false := by
  simp only [issueLog, List.mem_cons, List.not_mem_nil, or_false] at h
  rcases h with rfl | rfl | rfl | rfl | rfl | rfl | rfl
  all_goals rfl

theorem filter_isData_of_polls {l : List Access} (h : ∀ a ∈ l, a.IsPoll) :
    l.filter Access.isData = [] :=
  List.filter_eq_nil_iff.mpr fun a ha => by rw [(h a ha).isData]; exact Bool.false_ne_true

theorem isPoll_of_mem_pollLog (h : a ∈ pollLog hw ioBase m n) : a.IsPoll := by
  obtain ⟨j, -, rfl | rfl⟩ := mem_pollLog.mp h
  · exact .inl rfl
  · exact .inr ⟨_, _, rfl⟩

/-- A status among those that a wait reads. -/
theorem pollLog_split (hw : Hardware) (ioBase m : Nat) (h : j < n) : ∃ more, pollLog hw ioBase m n =
    pollLog hw ioBase m j ++
    (.ticks :: .in8 (ioBase + ideStatus) (polled hw ioBase m j) :: more) ∧
      ∀ a ∈ more, a.IsPoll := by
  induction n with
  | zero => exact absurd h (Nat.not_lt_zero j)
  | succ n ih =>
      rw [pollLog_succ]
      rcases Nat.lt_succ_iff_lt_or_eq.mp h with hj | rfl
      · obtain ⟨more, hmore, hpoll⟩ := ih hj
        refine ⟨more ++ [.ticks, .in8 (ioBase + ideStatus) (polled hw ioBase m n)], ?_, ?_⟩
        · rw [hmore, List.append_assoc]
          rfl
        · rintro a ha
          rcases List.mem_append.mp ha with ha | ha
          · exact hpoll a ha
          · have hmem : a ∈ pollLog hw ioBase m (n + 1) := by
              rw [pollLog_succ]
              exact List.mem_append_right _ ha
            exact isPoll_of_mem_pollLog hmem
      · exact ⟨[], rfl, List.forall_mem_nil _⟩

/-- **A sector is transferred after the drive has asked for it exactly when the wait sees that.** -/
theorem Transfers.reported_iff (h : Transfers stop command ioBase drive lba s t) :
    Reported ioBase command s t ↔ Sees s.hw ioBase (s.log.length + 7) stop := by
  obtain ⟨n, waited, data, rest, hwait, hlog, hlen, hdata, hrest⟩ := h.log
  obtain ⟨last, hlast, hwlog⟩ := hwait.log
  have hmoment : (s.log ++ issueLog command ioBase drive lba).length = s.log.length + 7 := by
    rw [List.length_append]
    rfl
  have hgood := hwait.good_iff
  rw [hmoment] at hgood hwlog
  rw [hwlog, List.append_assoc, List.append_assoc] at hlog
  rw [← hgood]
  have hlast' : ∀ a ∈ last, a.IsPoll := by
    rcases hlast with rfl | rfl
    · exact List.forall_mem_nil _
    · exact List.forall_mem_singleton.mpr (.inl rfl)
  constructor
  · rintro ⟨before, status, after, hsplit, hstatus, -, hbefore, -⟩
    rw [hlog, ← List.append_assoc (issueLog _ _ _ _)] at hsplit
    have hhead : ∀ d, (data ++ rest).head? = some d → d.isData = true := by
      cases data with
      | nil => cases hlen
      | cons b data =>
          rintro d ⟨⟩
          exact hdata _ List.mem_cons_self
    have hmem := mem_of_append_eq (List.append_cancel_left hsplit).symm hbefore rfl hhead
    rcases List.mem_append.mp hmem with hmem | hmem
    · simp [issueLog] at hmem
    rcases List.mem_cons.mp hmem with hmem | hmem
    · cases hmem
    rcases List.mem_append.mp hmem with hmem | hmem
    · obtain ⟨j, hj, ha | ha⟩ := mem_pollLog.mp hmem
      · cases ha
      · refine ⟨j, hj, ?_⟩
        rw [Access.in8.injEq] at ha
        rw [← ha.2]
        exact hstatus
    · rcases hlast with rfl | rfl
      · cases hmem
      · cases List.mem_singleton.mp hmem
  · rintro ⟨j, hj, hstatus⟩
    obtain ⟨more, hmore, hpoll⟩ := pollLog_split s.hw ioBase (s.log.length + 7) hj
    refine ⟨issueLog command ioBase drive lba ++
        (.ticks :: pollLog s.hw ioBase (s.log.length + 7) j ++ [.ticks]), _,
      more ++ last ++ (data ++ rest), ?_, hstatus, ?_, ?_, ?_⟩
    · rw [hlog, hmore]
      simp only [List.append_assoc, List.cons_append, List.nil_append]
    · refine List.mem_append_left _ ?_
      simp [issueLog]
    · intro a ha
      rcases List.mem_append.mp ha with ha | ha
      · exact isData_of_mem_issueLog ha
      rcases List.mem_append.mp ha with ha | ha
      · rcases List.mem_cons.mp ha with rfl | ha
        · rfl
        · exact (isPoll_of_mem_pollLog ha).isData
      · rw [List.mem_singleton.mp ha]
        rfl
    · rw [List.filter_append, List.filter_append, List.filter_append, filter_isData_of_polls hpoll,
        filter_isData_of_polls hlast', filter_isData_of_polls hrest, List.filter_eq_self.mpr hdata]
      simpa using hlen

end Reporting

/-! ## The address of a transfer -/

section Addresses

variable {stop : UInt8 → Bool} {ioBase lba port : Nat} {command drive : UInt8} {s t : Bus}
  {log more : List Access}

/-- What is not written to the ports leaves the registers alone. -/
theorem register_append (h : ∀ a ∈ more, a.IsPoll ∨ a.isData = true) :
    register (log ++ more) port = register log port := by
  rw [register, List.foldl_append, ← register]
  generalize register log port = r
  induction more generalizing r with
  | nil => rfl
  | cons a more ih =>
      obtain ⟨ha, hmore⟩ := List.forall_mem_cons.mp h
      rw [List.foldl_cons]
      cases a with
      | out8 p v =>
          rcases ha with (ha | ⟨_, _, ha⟩) | ha
          · cases ha
          · cases ha
          · cases ha
      | ticks => exact ih hmore r
      | in8 p v => exact ih hmore r
      | in16 p v => exact ih hmore r
      | out16 p v => exact ih hmore r

/-- The low bits of the device register are those of the number of the sector. -/
theorem device_mod (drive : UInt8) {n : Nat} (h : n < 16) :
    ((0xE0 : UInt8) ||| (drive <<< 4) ||| UInt8.ofNat n).toNat % 16 = n := by
  have hn : (UInt8.ofNat n).toNat = n := UInt8.toNat_ofNat_of_lt' (Nat.lt_trans h (by decide))
  have hdrive : (drive <<< 4).toNat % 2 ^ 4 = 0 := by
    rw [UInt8.toNat_shiftLeft, Nat.shiftLeft_eq]
    have h4 : (4 : UInt8).toNat % 8 = 4 := rfl
    rw [h4]
    omega
  rw [UInt8.toNat_or, UInt8.toNat_or, hn]
  change _ % 2 ^ 4 = n
  rw [Nat.or_mod_two_pow, Nat.or_mod_two_pow, hdrive, Nat.mod_eq_of_lt h]
  simp

theorem address_issueLog : address ioBase (log ++ issueLog command ioBase drive lba) =
    lba % 2 ^ 28 := by
  have hregisters : register (log ++ issueLog command ioBase drive lba) (ioBase + ideDevice) =
        (0xE0 : UInt8) ||| (drive <<< 4) ||| UInt8.ofNat (lba / 2 ^ 24 % 16) ∧
      register (log ++ issueLog command ioBase drive lba) (ioBase + ideLbaHigh) =
        UInt8.ofNat (lba / 2 ^ 16 % 256) ∧
      register (log ++ issueLog command ioBase drive lba) (ioBase + ideLbaMid) =
        UInt8.ofNat (lba / 2 ^ 8 % 256) ∧
      register (log ++ issueLog command ioBase drive lba) (ioBase + ideLbaLow) =
        UInt8.ofNat (lba % 256) := by
    simp [register, issueLog, ideDevice, ideError, ideSectorCount, ideLbaLow, ideLbaMid, ideLbaHigh,
      ideCommand]
  obtain ⟨hdevice, hhigh, hmid, hlow⟩ := hregisters
  have hbyte (n : Nat) : (UInt8.ofNat (n % 256)).toNat = n % 256 :=
    UInt8.toNat_ofNat_of_lt' (Nat.mod_lt n (by decide))
  rw [address, hdevice, hhigh, hmid, hlow, device_mod drive (Nat.mod_lt _ (by decide)), hbyte,
    hbyte, hbyte]
  omega

/-- **The address of a transfer** is what 28 bits hold of the number of the sector. -/
theorem Transfers.address_eq (h : Transfers stop command ioBase drive lba s t) :
    address ioBase t.log = lba % 2 ^ 28 := by
  obtain ⟨n, waited, data, rest, hwait, hlog, -, hdata, hrest⟩ := h.log
  obtain ⟨more, hmore, hpoll⟩ := hwait.polls
  have hafter : ∀ a ∈ more ++ (data ++ rest), a.IsPoll ∨ a.isData = true := by
    intro a ha
    rcases List.mem_append.mp ha with ha | ha
    · exact .inl (hpoll a ha)
    rcases List.mem_append.mp ha with ha | ha
    · exact .inr (hdata a ha)
    · exact .inl (hrest a ha)
  rw [hlog, hmore, List.append_assoc, address, register_append hafter, register_append hafter,
    register_append hafter, register_append hafter, ← address, address_issueLog]

end Addresses

/-! ## Whole calls -/

/-- A turn of the loop over the sectors. -/
def Step {α : Type} (body : Nat → Io α) : Bus → Nat → Bus → Prop :=
  fun s i t => ∃ a, body i s = .ok (a, t)

/-- **A call is right**: it ends, and if it returns `0` then what `R` says holds for each turn of
its loop over the sectors, which begins behind `WaitReady`. -/
def Right {α : Type} (call : Io Int) (first : Io Unit) (body : Nat → Io α)
    (R : Bus → Nat → Bus → Prop) (count : Nat) (s t : Bus) : Prop :=
  ∃ code u, call s = .ok (code, t) ∧ first s = .ok ((), u) ∧
    (code = 0 → Run (fun a i b => Step body a i b ∧ R a i b) u (List.range count) t)

/-- The wait before a transfer sees a data request and no error. -/
def Reports (stop : UInt8 → Bool) (ioBase : Nat) (s : Bus) (_ : Nat) : Prop :=
  Sees s.hw ioBase (s.log.length + 7) stop

section Calls

variable {α : Type} {body : Nat → Io α} {fuel ioBase sector count : Nat} {drive : UInt8}
  {buf : Nat → UInt16} {s t u : Bus}

theorem eachSector_iff : (∃ as, eachSector body count s = .ok (as, t)) ↔
    Run (Step body) s (List.range count) t := by
  induction count generalizing t with
  | zero =>
      rw [List.range_zero, run_nil_iff]
      constructor
      · rintro ⟨as, h⟩
        exact (Prod.mk.inj (Except.ok.inj h)).2.symm
      · rintro rfl
        exact ⟨[], rfl⟩
  | succ n ih =>
      rw [List.range_succ, run_snoc_iff]
      constructor
      · rintro ⟨as, h⟩
        rw [eachSector, bind_apply, bind_eq_ok_iff] at h
        obtain ⟨⟨done, mid⟩, hdone, h⟩ := h
        rw [bind_apply, bind_eq_ok_iff] at h
        obtain ⟨⟨a, last⟩, ha, h⟩ := h
        obtain ⟨-, rfl⟩ := Prod.mk.inj (Except.ok.inj h)
        exact ⟨mid, ih.mp ⟨done, hdone⟩, a, ha⟩
      · rintro ⟨mid, hrun, a, ha⟩
        obtain ⟨done, hdone⟩ := ih.mpr hrun
        refine ⟨done ++ [a], ?_⟩
        rw [eachSector, bind_apply_of_ok hdone, bind_apply_of_ok ha]
        rfl

/-- A call of `IDEDeviceRead` is the wait at its beginning and its loop. -/
theorem ideDeviceRead_iff {code : Int} {data : List UInt16} :
    ideDeviceRead fuel ioBase drive sector count s = .ok ((code, data), t) ↔ ∃ u as,
      waitReady fuel ioBase s = .ok ((), u) ∧
        eachSector (readSector fuel ioBase drive sector) count u = .ok (as, t) ∧
          code = 0 ∧ data = as.flatten := by
  constructor
  · intro h
    rw [ideDeviceRead, bind_apply, bind_eq_ok_iff] at h
    obtain ⟨⟨_, u⟩, hfirst, h⟩ := h
    rw [bind_apply, bind_eq_ok_iff] at h
    obtain ⟨⟨as, last⟩, has, h⟩ := h
    obtain ⟨hcode, rfl⟩ := Prod.mk.inj (Except.ok.inj h)
    obtain ⟨rfl, rfl⟩ := Prod.mk.inj hcode
    exact ⟨u, as, hfirst, has, rfl, rfl⟩
  · rintro ⟨u, as, hfirst, has, rfl, rfl⟩
    rw [ideDeviceRead, bind_apply_of_ok hfirst, bind_apply_of_ok has]
    rfl

/-- And so is one of `IDEDeviceWrite`. -/
theorem ideDeviceWrite_iff {code : Int} :
    ideDeviceWrite fuel ioBase drive sector count buf s = .ok (code, t) ↔ ∃ u as,
      waitReady fuel ioBase s = .ok ((), u) ∧
        eachSector (writeSector fuel ioBase drive sector buf) count u = .ok (as, t) ∧ code = 0 := by
  constructor
  · intro h
    rw [ideDeviceWrite, bind_apply, bind_eq_ok_iff] at h
    obtain ⟨⟨_, u⟩, hfirst, h⟩ := h
    rw [bind_apply, bind_eq_ok_iff] at h
    obtain ⟨⟨as, last⟩, has, h⟩ := h
    obtain ⟨rfl, rfl⟩ := Prod.mk.inj (Except.ok.inj h)
    exact ⟨u, as, hfirst, has, rfl⟩
  · rintro ⟨u, as, hfirst, has, rfl⟩
    rw [ideDeviceWrite, bind_apply_of_ok hfirst, bind_apply_of_ok has]
    rfl

/-- **When a call is right**, if it is made of a wait and a loop and returns `0`: its steps are
right exactly when they meet a condition. -/
theorem right_iff {call : Io Int} {first : Io Unit} {R : Bus → Nat → Bus → Prop}
    {ok : Bus → Nat → Prop}
    (hcall : ∀ code t, call s = .ok (code, t) ↔ ∃ u as, first s = .ok ((), u) ∧
      eachSector body count u = .ok (as, t) ∧ code = 0)
    (hright : ∀ a i b, Step body a i b → (R a i b ↔ ok a i)) :
    Right call first body R count s t ↔
      ∃ u, first s = .ok ((), u) ∧ Run (Guarded ok (Step body)) u (List.range count) t := by
  have hrun (u : Bus) : Run (fun a i b => Step body a i b ∧ R a i b) u (List.range count) t ↔
      Run (Guarded ok (Step body)) u (List.range count) t :=
    run_right_iff_guarded (I := fun _ => True) trivial (fun _ _ _ _ _ _ => trivial)
      fun a i b _ => hright a i b
  constructor
  · rintro ⟨code, u, hc, hfirst, hall⟩
    obtain ⟨_, _, -, -, hcode⟩ := (hcall code t).mp hc
    exact ⟨u, hfirst, (hrun u).mp (hall hcode)⟩
  · rintro ⟨u, hfirst, hguarded⟩
    have hsteps := hguarded.mono fun a i b h => h.2
    obtain ⟨as, has⟩ := eachSector_iff.mpr hsteps
    exact ⟨0, u, (hcall 0 t).mpr ⟨u, as, hfirst, has, rfl⟩, hfirst, fun _ => (hrun u).mpr hguarded⟩

/-- The same for a condition on the number of the step only. -/
theorem right_label_iff {call : Io Int} {first : Io Unit} {R : Bus → Nat → Bus → Prop}
    {p : Nat → Prop}
    (hcall : ∀ code t, call s = .ok (code, t) ↔ ∃ u as, first s = .ok ((), u) ∧
      eachSector body count u = .ok (as, t) ∧ code = 0)
    (hright : ∀ a i b, Step body a i b → (R a i b ↔ p i)) :
    Right call first body R count s t ↔
      (∃ code, call s = .ok (code, t)) ∧ ∀ i ∈ List.range count, p i := by
  have hiff : Right call first body R count s t ↔ ∃ u, first s = .ok ((), u) ∧
      Run (Guarded (fun _ i => p i) (Step body)) u (List.range count) t := right_iff hcall hright
  rw [hiff]
  simp only [run_guarded_label_iff]
  constructor
  · rintro ⟨u, hfirst, hsteps, hall⟩
    obtain ⟨as, has⟩ := eachSector_iff.mpr hsteps
    exact ⟨⟨0, (hcall 0 t).mpr ⟨u, as, hfirst, has, rfl⟩⟩, hall⟩
  · rintro ⟨⟨code, hrun⟩, hall⟩
    obtain ⟨u, as, hfirst, has, -⟩ := (hcall code t).mp hrun
    exact ⟨u, hfirst, eachSector_iff.mp ⟨as, has⟩, hall⟩

end Calls

/-! ## Calls end -/

/-- Each wait ends within `n + 1` statuses: a second goes by, or a status ends it. -/
def EndsWithin (stop : UInt8 → Bool) (hw : Hardware) (ioBase n : Nat) : Prop :=
  ∀ m, ∃ k ≤ n, ¬ PollInTime hw m k ∨ stop (polled hw ioBase m k) = true

section Returns

variable {α : Type} {body : Nat → Io α} {stop : UInt8 → Bool} {fuel ioBase sector n : Nat}
  {drive : UInt8} {buf : Nat → UInt16} {hw : Hardware} {s : Bus}

theorem wait_returns (h : EndsWithin stop hw ioBase n) (hn : n < fuel) (hs : s.hw = hw) :
    Ends (wait stop fuel ioBase) s (fun _ => False) fun _ t => t.hw = hw := by
  subst hs
  refine Ends.step rfl ?_
  refine Ends.loop (I := fun k _ t => ∃ j, Waits stop ioBase s j t ∧ j + k = n) ?_
    ⟨0, ⟨rfl, rfl, ?_, ?_⟩, Nat.zero_add n⟩ hn
  · rintro k _ t ⟨j, hj, hk⟩
    refine hj.turn.mono fun u t' hu => ?_
    cases u with
    | again _ =>
        obtain ⟨l, hl, hend⟩ := h s.log.length
        have hlt : j + 1 ≤ n := by
          by_contra hgt
          rcases hend with hout | hstop
          · exact hout (hu.inTime l (by omega))
          · rw [hu.goesOn l (by omega)] at hstop
            cases hstop
        exact ⟨k - 1, by omega, j + 1, hu, by omega⟩
    | leave _ =>
        obtain ⟨_, hwait⟩ := hu
        exact hwait.hw
  · exact fun j hj => absurd hj (Nat.not_lt_zero j)
  · exact fun j hj => absurd hj (Nat.not_lt_zero j)

theorem eachSector_returns
    (hbody : ∀ i s, s.hw = hw → Ends (body i) s (fun _ => False) fun _ t => t.hw = hw)
    (hs : s.hw = hw) (count : Nat) :
    Ends (eachSector body count) s (fun _ => False) fun _ t => t.hw = hw := by
  induction count with
  | zero => exact hs
  | succ n ih =>
      refine ih.bind fun done t ht => ?_
      exact (hbody n t ht).bind fun a u hu => hu

/-- **`IDEDeviceRead` ends** when its waits do, whatever the drive says. -/
theorem ideDeviceRead_returns (hready : EndsWithin isReady s.hw ioBase n)
    (hdrq : EndsWithin isDrq s.hw ioBase n) (hn : n < fuel) (count : Nat) :
    ∃ data t, ideDeviceRead fuel ioBase drive sector count s = .ok ((0, data), t) := by
  have hbody : ∀ i a, a.hw = s.hw → Ends (readSector fuel ioBase drive sector i) a
      (fun _ => False) fun _ t => t.hw = s.hw := by
    intro i a ha
    refine Ends.step (issue_eq a) ?_
    refine Ends.bind (wait_returns hdrq hn ?_) fun _ b hb => ?_
    · exact ha
    exact (readWords_ends ioBase 256 b).mono fun _ t ht => ht.1.trans hb
  have hall : Ends (ideDeviceRead fuel ioBase drive sector count) s (fun _ => False)
      fun r _ => r.1 = 0 := by
    refine (wait_returns hready hn rfl).bind fun _ u hu => ?_
    exact (eachSector_returns hbody hu count).bind fun _ _ _ => rfl
  obtain ⟨⟨code, data⟩, t, hrun, rfl⟩ := hall.exists_ok
  exact ⟨data, t, hrun⟩

/-- **`IDEDeviceWrite` ends** when its waits do, whatever the drive says. -/
theorem ideDeviceWrite_returns (hready : EndsWithin isReady s.hw ioBase n) (hn : n < fuel)
    (count : Nat) : ∃ t, ideDeviceWrite fuel ioBase drive sector count buf s = .ok (0, t) := by
  have hbody : ∀ i a, a.hw = s.hw → Ends (writeSector fuel ioBase drive sector buf i) a
      (fun _ => False) fun _ t => t.hw = s.hw := by
    intro i a ha
    refine Ends.step (issue_eq a) ?_
    refine Ends.bind (wait_returns hready hn ?_) fun _ b hb => ?_
    · exact ha
    refine (writeWords_ends ioBase _ b).bind fun _ c hc => ?_
    exact wait_returns hready hn (hc.1.trans hb)
  have hall : Ends (ideDeviceWrite fuel ioBase drive sector count buf) s (fun _ => False)
      fun r _ => r = 0 := by
    refine (wait_returns hready hn rfl).bind fun _ u hu => ?_
    exact (eachSector_returns hbody hu count).bind fun _ _ _ => rfl
  obtain ⟨code, t, hrun, rfl⟩ := hall.exists_ok
  exact ⟨t, hrun⟩

end Returns

/-! ## When calls are right -/

section Main

variable {fuel ioBase sector count : Nat} {drive : UInt8} {buf : Nat → UInt16} {s t : Bus}

theorem read_call_iff (code : Int) (t : Bus) :
    (Prod.fst <$> ideDeviceRead fuel ioBase drive sector count) s = .ok (code, t) ↔ ∃ u as,
      waitReady fuel ioBase s = .ok ((), u) ∧
        eachSector (readSector fuel ioBase drive sector) count u = .ok (as, t) ∧ code = 0 := by
  have hmap : (Prod.fst <$> ideDeviceRead fuel ioBase drive sector count) s = .ok (code, t) ↔
      ∃ data, ideDeviceRead fuel ioBase drive sector count s = .ok ((code, data), t) := by
    change (ideDeviceRead fuel ioBase drive sector count s >>= fun r => .ok (r.1.1, r.2)) =
      .ok (code, t) ↔ _
    rw [bind_eq_ok_iff]
    constructor
    · rintro ⟨⟨⟨code', data⟩, t'⟩, hrun, h⟩
      obtain ⟨rfl, rfl⟩ := Prod.mk.inj (Except.ok.inj h)
      exact ⟨data, hrun⟩
    · rintro ⟨data, hrun⟩
      exact ⟨_, hrun, rfl⟩
  rw [hmap]
  constructor
  · rintro ⟨data, hrun⟩
    obtain ⟨u, as, hfirst, has, hcode, -⟩ := ideDeviceRead_iff.mp hrun
    exact ⟨u, as, hfirst, has, hcode⟩
  · rintro ⟨u, as, hfirst, has, hcode⟩
    exact ⟨as.flatten, ideDeviceRead_iff.mpr ⟨u, as, hfirst, has, hcode, rfl⟩⟩

/-- **When transfers are reported.**  Calls of `IDEDeviceRead` and `IDEDeviceWrite` return `0` only
if each sector has been transferred after a data request without error exactly when each wait before
a transfer sees one. -/
theorem transfers_reported_iff (fuel ioBase sector count : Nat) (drive : UInt8) (buf : Nat → UInt16)
    (s t : Bus) :
    (Right (Prod.fst <$> ideDeviceRead fuel ioBase drive sector count) (waitReady fuel ioBase)
        (readSector fuel ioBase drive sector) (fun a _ b => Reported ioBase ideCmdReadPio a b)
        count s t ↔
      ∃ u, waitReady fuel ioBase s = .ok ((), u) ∧ Run (Guarded (Reports isDrq ioBase)
        (Step (readSector fuel ioBase drive sector))) u (List.range count) t) ∧
    (Right (ideDeviceWrite fuel ioBase drive sector count buf) (waitReady fuel ioBase)
        (writeSector fuel ioBase drive sector buf)
        (fun a _ b => Reported ioBase ideCmdWritePio a b) count s t ↔
      ∃ u, waitReady fuel ioBase s = .ok ((), u) ∧ Run (Guarded (Reports isReady ioBase)
        (Step (writeSector fuel ioBase drive sector buf))) u (List.range count) t) := by
  constructor
  · refine right_iff read_call_iff ?_
    rintro a i b ⟨data, hturn⟩
    exact ((readSector_ends a).of_result hturn).reported_iff
  · refine right_iff (fun code t => ideDeviceWrite_iff) ?_
    rintro a i b ⟨_, hturn⟩
    exact ((writeSector_ends a).of_result hturn).reported_iff

/-- The registers name the sector of a turn exactly when it is below `2 ^ 28`. -/
theorem address_iff {lba : Nat} {stop : UInt8 → Bool} {command : UInt8} {a b : Bus}
    (h : Transfers stop command ioBase drive (u64 lba) a b) :
    address ioBase b.log = lba ↔ lba < 2 ^ 28 := by
  rw [h.address_eq, u64, Nat.mod_mod_of_dvd _ (by decide : 2 ^ 28 ∣ 2 ^ 64)]
  constructor
  · intro hmod
    rw [← hmod]
    exact Nat.mod_lt _ (by decide)
  · exact Nat.mod_eq_of_lt

/-- All sectors of a call are below `2 ^ 28`. -/
theorem range_below_iff : (∀ i ∈ List.range count, sector + i < 2 ^ 28) ↔
    sector + count ≤ 2 ^ 28 ∨ count = 0 := by
  constructor
  · intro hall
    by_cases hcount : count = 0
    · exact .inr hcount
    · have hlast := hall (count - 1) (List.mem_range.mpr (by omega))
      exact .inl (by omega)
  · rintro (hle | rfl) i hi
    · have hlt := List.mem_range.mp hi
      omega
    · exact absurd hi (by simp)

/-- **When addresses are right.**  The registers name the sector of each transfer of a call exactly
when all its sectors are below `2 ^ 28`. -/
theorem transfers_address_iff (fuel ioBase sector count : Nat) (drive : UInt8) (buf : Nat → UInt16)
    (s t : Bus) :
    (Right (Prod.fst <$> ideDeviceRead fuel ioBase drive sector count) (waitReady fuel ioBase)
        (readSector fuel ioBase drive sector) (fun _ i b => address ioBase b.log = sector + i)
        count s t ↔
      (∃ code, (Prod.fst <$> ideDeviceRead fuel ioBase drive sector count) s = .ok (code, t)) ∧
        (sector + count ≤ 2 ^ 28 ∨ count = 0)) ∧
    (Right (ideDeviceWrite fuel ioBase drive sector count buf) (waitReady fuel ioBase)
        (writeSector fuel ioBase drive sector buf)
        (fun _ i b => address ioBase b.log = sector + i) count s t ↔
      (∃ code, ideDeviceWrite fuel ioBase drive sector count buf s = .ok (code, t)) ∧
        (sector + count ≤ 2 ^ 28 ∨ count = 0)) := by
  rw [← range_below_iff]
  constructor
  · refine right_label_iff read_call_iff ?_
    rintro a i b ⟨data, hturn⟩
    exact address_iff ((readSector_ends a).of_result hturn)
  · refine right_label_iff (fun code t => ideDeviceWrite_iff) ?_
    rintro a i b ⟨_, hturn⟩
    exact address_iff ((writeSector_ends a).of_result hturn)

end Main

/-- A drive that always has the same status, and a clock that stands still. -/
def steady (status : UInt8) : Hardware := ⟨fun _ _ => status, fun _ _ => 0, fun _ => 0⟩

theorem steady_endsWithin {stop : UInt8 → Bool} {status : UInt8} (h : stop status = true)
    (ioBase : Nat) : EndsWithin stop (steady status) ioBase 0 :=
  fun _ => ⟨0, Nat.le_refl 0, .inr h⟩

/-- A drive that is ready and never asks for data: `IDEDeviceWrite` writes a sector and returns
`0`. -/
theorem write_unasked : ∃ t,
    ideDeviceWrite 1 0x1F0 0 0 1 (fun _ => 0) ⟨steady 0x40, []⟩ = .ok (0, t) ∧
      ¬ Right (ideDeviceWrite 1 0x1F0 0 0 1 fun _ => 0) (waitReady 1 0x1F0)
        (writeSector 1 0x1F0 0 0 fun _ => 0)
        (fun a _ b => Reported 0x1F0 ideCmdWritePio a b) 1 ⟨steady 0x40, []⟩ t := by
  have hready : EndsWithin isReady (⟨steady 0x40, []⟩ : Bus).hw 0x1F0 0 :=
    steady_endsWithin (by decide) 0x1F0
  have hends : ∃ t, ideDeviceWrite 1 0x1F0 0 0 1 (fun _ => 0) ⟨steady 0x40, []⟩ = .ok (0, t) :=
    ideDeviceWrite_returns hready Nat.one_pos 1
  obtain ⟨t, hrun⟩ := hends
  refine ⟨t, hrun, ?_⟩
  rintro ⟨code, u, hcall, hfirst, hall⟩
  obtain ⟨_, _, -, -, hcode⟩ := ideDeviceWrite_iff.mp hcall
  obtain ⟨⟨_, hturn⟩, hreported⟩ := run_singleton_iff.mp (hall hcode)
  obtain ⟨n, hwait⟩ := (wait_ends isReady 1 0x1F0 _).of_result hfirst
  obtain ⟨k, -, -, hgood⟩ := ((writeSector_ends u).of_result hturn).reported_iff.mp hreported
  rw [hwait.hw] at hgood
  have hstatus : Good 0x40 := hgood
  exact hstatus.1 (by decide)

/-- The sector `2 ^ 28` of a drive with `2 ^ 32` sectors is read at the address `0`. -/
theorem read_wrapped : ∃ data, 2 ^ 28 + 1 ≤ sectors data ∧ ∃ buf t,
    ideDeviceRead 1 0x1F0 0 (2 ^ 28) 1 ⟨steady 0x48, []⟩ = .ok ((0, buf), t) ∧
      ¬ Right (Prod.fst <$> ideDeviceRead 1 0x1F0 0 (2 ^ 28) 1) (waitReady 1 0x1F0)
        (readSector 1 0x1F0 0 (2 ^ 28)) (fun _ i b => address 0x1F0 b.log = 2 ^ 28 + i)
        1 ⟨steady 0x48, []⟩ t := by
  refine ⟨(List.replicate 83 0 ++ [1024] ++ List.replicate 18 0 ++ [1]), by decide, ?_⟩
  have hready : EndsWithin isReady (⟨steady 0x48, []⟩ : Bus).hw 0x1F0 0 :=
    steady_endsWithin (by decide) 0x1F0
  have hdrq : EndsWithin isDrq (⟨steady 0x48, []⟩ : Bus).hw 0x1F0 0 :=
    steady_endsWithin (by decide) 0x1F0
  have hends : ∃ buf t,
      ideDeviceRead 1 0x1F0 0 (2 ^ 28) 1 ⟨steady 0x48, []⟩ = .ok ((0, buf), t) :=
    ideDeviceRead_returns hready hdrq Nat.one_pos 1
  obtain ⟨buf, t, hrun⟩ := hends
  refine ⟨buf, t, hrun, ?_⟩
  rintro ⟨code, u, hcall, -, hall⟩
  obtain ⟨_, _, -, -, hcode⟩ := (read_call_iff code t).mp hcall
  obtain ⟨⟨_, hturn⟩, haddress⟩ := run_singleton_iff.mp (hall hcode)
  exact absurd ((address_iff ((readSector_ends u).of_result hturn)).mp haddress) (by decide)

end InfoKernel.Ide.Transfer
