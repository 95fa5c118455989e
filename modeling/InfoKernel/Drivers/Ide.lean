import InfoKernel.Locks
import InfoKernel.Machine

/-!
# The disk driver

`ide::Identify` and `ide::DetectDevices` of `ide.cc`, with the calls to `ide_lock.lock()` and
`ide_lock.unlock()`, and what of `block.cc` they call.  The drive is what `inb` and `inw` get:
each access to a port and each look at the clock takes the next moment, and `Hardware` says
what is there in each, so that a theorem about every `Hardware` is one about every drive.

`DetectDevices` calls `Identify` from inside the lock, which takes it again: there is no state
in which it keeps the discipline of the lock (`detectDevices_not_disciplined`).
-/

namespace InfoKernel.Ide

open Lib

/-- What the ports and the clock give, by moment. -/
structure Hardware where
  in8 : Nat → Nat → UInt8
  in16 : Nat → Nat → UInt16
  ticks : Nat → Nat

/-- `HdStruct` -/
structure HdStruct where
  startSect : Nat
  nrSects : Nat
  name : String

/-- `block::IDEBlockDevice` -/
structure BlockDevice where
  diskName : String
  ioBase : Nat
  drive : Nat
  sectorSize : Nat
  capacity : Nat
  partitions : List HdStruct
  /-- `queue->request_fn` is `IDEProcessRequest` -/
  requestFn : Bool

/-- `IDEDeviceController` -/
structure Controller where
  ioBase : Nat
  drive : Nat
  dev : BlockDevice

/-- The drives, the moment, the bytes that `outb` has written, and the devices found. -/
structure Driver where
  hw : Hardware
  time : Nat
  written : List (Nat × UInt8)
  devices : Nat → Option Controller
  deviceCount : Nat
  /-- `block::device_list` -/
  deviceList : List BlockDevice

/-- `IDE_SECTOR_COUNT` -/
def ideSectorCount : Nat := 2

/-- `IDE_LBA_LOW` -/
def ideLbaLow : Nat := 3

/-- `IDE_LBA_MID` -/
def ideLbaMid : Nat := 4

/-- `IDE_LBA_HIGH` -/
def ideLbaHigh : Nat := 5

/-- `IDE_DEVICE` -/
def ideDevice : Nat := 6

/-- `IDE_COMMAND` -/
def ideCommand : Nat := 7

/-- `IDE_STATUS` -/
def ideStatus : Nat := 7

/-- `IDE_DATA` -/
def ideData : Nat := 0

/-- `IDE_CMD_IDENTIFY` -/
def ideCmdIdentify : UInt8 := 0xEC

/-- `IDE_STATUS_ERR` -/
def ideStatusErr : UInt8 := 0x01

/-- `IDE_STATUS_BSY` -/
def ideStatusBsy : UInt8 := 0x80

/-- `IDE_STATUS_DRDY` -/
def ideStatusDrdy : UInt8 := 0x40

/-- `IDE_TIMEOUT` -/
def ideTimeout : Nat := 1000

/-- `inb` -/
def inb (port : Nat) : Locked Driver UInt8 :=
  inside fun s => .ok (s.hw.in8 s.time port, { s with time := s.time + 1 })

/-- `inw` -/
def inw (port : Nat) : Locked Driver UInt16 :=
  inside fun s => .ok (s.hw.in16 s.time port, { s with time := s.time + 1 })

/-- `outb` -/
def outb (port : Nat) (v : UInt8) : Locked Driver Unit :=
  assign fun s => { s with time := s.time + 1, written := s.written ++ [(port, v)] }

/-- `timer::GetTicks` -/
def getTicks : Locked Driver Nat :=
  inside fun s => .ok (u64 (s.hw.ticks s.time), { s with time := s.time + 1 })

/-- `int t = timer::GetTicks()`, as it stands in the subtractions. -/
def asInt (ticks : Nat) : Nat :=
  if u32 ticks < 2 ^ 31 then u32 ticks else u32 ticks + (2 ^ 64 - 2 ^ 32)

/-- A turn of the loop of `WaitReady`. -/
def waitReadyTurn (ioBase t : Nat) (_ : Unit) : Locked Driver (Turn Unit Unit) := do
  let now ← getTicks
  if u64 (sub64 now (asInt t) * 1000) / timerFrequency < ideTimeout then
    let status ← inb (ioBase + ideStatus)
    if status &&& ideStatusBsy = 0 ∧ status &&& ideStatusDrdy ≠ 0 then return .leave ()
    else return .again ()
  else return .leave ()

/-- `WaitReady` -/
def waitReady (fuel ioBase : Nat) : Locked Driver Unit := do
  let t ← getTicks
  Program.loop (waitReadyTurn ioBase t) (.fault .outOfFuel) fuel ()

/-- The loop of `Identify` that reads the data, `n` words of it. -/
def readData (ioBase : Nat) : Nat → Locked Driver (List UInt16)
  | 0 => return []
  | n + 1 => do
      let buf ← readData ioBase n
      let w ← inw (ioBase + ideData)
      return buf ++ [w]

/-- `Identify`: what it returns, and the buffer if it has been filled. -/
def identify (fuel ioBase : Nat) (drive : UInt8) : Locked Driver (Int × List UInt16) := do
  acquire .ide
  outb (ioBase + ideDevice) ((0xA0 : UInt8) ||| (drive <<< 4))
  outb (ioBase + ideSectorCount) 0
  outb (ioBase + ideLbaLow) 0
  outb (ioBase + ideLbaMid) 0
  outb (ioBase + ideLbaHigh) 0
  outb (ioBase + ideCommand) ideCmdIdentify
  let status ← inb (ioBase + ideStatus)
  if status = 0 then do
    release .ide
    return (-1, [])
  else do
    waitReady fuel ioBase
    let status ← inb (ioBase + ideStatus)
    if status &&& ideStatusErr ≠ 0 then do
      release .ide
      return (-2, [])
    else do
      let buf ← readData ioBase 256
      release .ide
      return (0, buf)

/-- The number of sectors that the drive has said it has. -/
def sectors (data : List UInt16) : Nat :=
  let word (i : Nat) : Nat := (data.getD i 0).toNat
  if (word 83).testBit 10 then
    word 103 * 2 ^ 48 + word 102 * 2 ^ 32 + word 101 * 2 ^ 16 + word 100
  else word 61 * 2 ^ 16 + word 60

/-- `block::add_partition` -/
def BlockDevice.addPartition (dev : BlockDevice) (start num minor : Nat) : BlockDevice :=
  if num = 0 then dev
  else
    { dev with
      partitions := ⟨start, num, dev.diskName ++ toString minor⟩ :: dev.partitions }

/-- What `DetectDevices` does with a drive that has answered: the device is put into
`devices`, which has four places, and into the list of `block.cc`. -/
def addDevice (ioBase : Nat) (drive : UInt8) (data : List UInt16) (s : Driver) :
    Except Fault Driver :=
  let name := "hd" ++ String.singleton (Char.ofNat ('a'.toNat + s.deviceCount))
  let dev : BlockDevice := ⟨name, ioBase, drive.toNat, 512, sectors data, [], true⟩
  let dev := dev.addPartition 0 (sectors data) 1
  if s.deviceCount < 4 then
    .ok { s with
      devices := Function.update s.devices s.deviceCount (some ⟨ioBase, drive.toNat, dev⟩)
      deviceCount := s.deviceCount + 1
      deviceList := dev :: s.deviceList }
  else .error .outOfBounds

/-- A turn of the loop of `DetectDevices`. -/
def detectDrive (fuel ioBase : Nat) (drive : UInt8) : Locked Driver Unit := do
  let r ← identify fuel ioBase drive
  if r.1 = 0 then change (addDevice ioBase drive r.2) else return ()

/-- `DetectDevices` -/
def detectDevices (fuel ioBase : Nat) : Locked Driver Unit := do
  acquire .ide
  detectDrive fuel ioBase 0
  detectDrive fuel ioBase 1
  release .ide

/-! ## The discipline -/

variable {fuel ioBase : Nat} {drive : UInt8} {s : Driver}

theorem waitReady_keeps : Keeps (waitReady fuel ioBase) := by
  refine .bind (.inside _) fun t => fun s => ?_
  refine Ends.loop_of_out (I := fun _ u => u.held = s.held) (fun _ u hu => ?_) trivial rfl
  refine Ends.bind (Keeps.inside _ u) fun now v hv => ?_
  split
  · refine Ends.bind (Keeps.inside _ v) fun status w hw => ?_
    split
    · exact Ends.pure ((hw.trans hv).trans hu)
    · exact Ends.pure ((hw.trans hv).trans hu)
  · exact Ends.pure (hv.trans hu)

theorem readData_keeps (ioBase n : Nat) : Keeps (readData ioBase n) := by
  induction n with
  | zero =>
      rw [readData]
      exact .pure _
  | succ n ih =>
      rw [readData]
      exact .bind ih fun buf => .bind (.inside _) fun w => .pure _

-- The unifier would run the loop over the words of a sector.
attribute [irreducible] readData

/-- **`Identify` keeps the discipline**: it gives the lock back on each of its three ways
out. -/
theorem identify_disciplined : Disciplined (identify fuel ioBase drive) s := by
  refine .lock (.bind (.assign _) fun _ => .bind (.assign _) fun _ => .bind (.assign _) fun _ =>
    .bind (.assign _) fun _ => .bind (.assign _) fun _ => .bind (.assign _) fun _ =>
    .bind (.inside _) fun status => ?_)
  split
  · exact .unlock _ (.pure _)
  · refine .bind waitReady_keeps fun _ => .bind (.inside _) fun status => ?_
    split
    · exact .unlock _ (.pure _)
    · exact .bind (readData_keeps ioBase 256) fun buf => .unlock _ (.pure _)

/-- **`DetectDevices` never keeps the discipline**: its first `Identify` takes the lock that it
has taken itself. -/
theorem detectDevices_not_disciplined : ¬ Disciplined (detectDevices fuel ioBase) s := by
  refine not_disciplined_of_relock (l := LockId.ide) ?_
  rw [detectDevices, acquire_bind_of_free rfl, bind_apply, detectDrive, bind_apply, identify,
    bind_apply, acquire_of_held rfl]
  rfl

end InfoKernel.Ide
