import InfoKernel.Locks
import InfoKernel.Machine

/-!
# The console

`Console::SwitchTTY`, `Console::Redraw` and `Console::PutChar` of `console.cc`, with the calls
to `tty_lock.lock()` and `tty_lock.unlock()`.  A screen buffer and the framebuffer are
functions from the index of a pixel to its colour.

Two of the three return from inside the lock: `SwitchTTY` when the number is not that of
another tty, and `PutChar` when the tty has no screen buffer or no font has been set.
-/

namespace InfoKernel.Console

open Lib

/-- The value of an `int` behind an operation. -/
def int32 (n : Int) : Int := Int.bmod n (2 ^ 32)

/-- The conversion from `int` to `std::uint32_t`. -/
def ofInt (n : Int) : Nat := (n % 2 ^ 32).toNat

/-- `FontData`, with the fields of its header that are used. -/
structure FontData where
  width : Nat
  height : Nat
  data : Nat → UInt8

/-- `Console::TTYState` -/
structure TTYState where
  xpos : Int
  ypos : Int
  screenBuffer : Option (Nat → UInt32)
  needRedraw : Bool

/-- `NUM_TTYS` -/
def numTtys : Int := 6

/-- The console, the framebuffer and its size in pixels. -/
structure Con where
  ttys : Int → TTYState
  currentTty : Int
  fontdata : Option FontData
  fb : Nat → UInt32
  width : Nat
  height : Nat

/-- `(0xff << 24) | DEFAULT_BG_COLOR` -/
def background : UInt32 := 0xff121212

namespace Con

variable (con : Con)

/-- A tty changes. -/
def setTty (n : Int) (tty : TTYState) : Con :=
  { con with ttys := Function.update con.ttys n tty }

/-- `need_redraw` of a tty. -/
def setNeedRedraw (n : Int) (b : Bool) : Con :=
  con.setTty n { con.ttys n with needRedraw := b }

/-- The assignments of `SwitchTTY`. -/
def switchTo (ttyNum : Int) : Con :=
  { con.setNeedRedraw (con.currentTty - 1) true with currentTty := ttyNum }.setNeedRedraw
    (ttyNum - 1) true

/-- The loop of `Redraw`. -/
def copyScreen : Con :=
  match (con.ttys (con.currentTty - 1)).screenBuffer with
  | none => con
  | some screen =>
      { con with fb := fun i => if i < u32 (con.width * con.height) then screen i else con.fb i }

/-- The part of `PutChar` that goes to the next line, or to the top, where the cursor is out of
the screen. -/
def wrap (font : FontData) (tty : TTYState) : TTYState :=
  let tty :=
    if con.width ≤ ofInt tty.xpos then
      { tty with xpos := 0, ypos := int32 (tty.ypos + font.height) }
    else tty
  if con.height ≤ ofInt tty.ypos then { tty with ypos := 0 } else tty

/-- The index of the pixel `x`, `y` of the cell at the cursor. -/
def pixelIndex (tty : TTYState) (x y : Nat) : Nat :=
  ofInt ((tty.ypos + y) * con.width + (tty.xpos + x))

/-- The pixels of a cell, in the order in which they are drawn. -/
def cell (font : FontData) : List (Nat × Nat) :=
  (List.range font.height).flatMap fun y => (List.range font.width).map fun x => (x, y)

/-- The two loops over the pixels of a cell of the tty number `ttyNum`, and over the
framebuffer too when it is the one shown. -/
def drawCell (font : FontData) (ttyNum n : Int) (tty : TTYState) (screen : Nat → UInt32)
    (pixel : Nat → Nat → UInt32) : Con :=
  let paint (buf : Nat → UInt32) :=
    (cell font).foldl
      (fun buf p => Function.update buf (con.pixelIndex tty p.1 p.2) (pixel p.1 p.2)) buf
  { con.setTty n { tty with screenBuffer := some (paint screen) } with
    fb := if ttyNum = con.currentTty then paint con.fb else con.fb }

/-- The pixel of a character's glyph. -/
def glyph (font : FontData) (c : Int) (color : UInt32) (x y : Nat) : UInt32 :=
  if x ≤ 7 ∧ (font.data (ofInt (c * font.height + y))).toNat.testBit (7 - x) then
    0xff000000 ||| color
  else background

/-- The `switch` of `PutChar`. -/
def putGlyph (font : FontData) (ttyNum n : Int) (tty : TTYState) (screen : Nat → UInt32)
    (c : Int) (color : UInt32) : Con :=
  if c = 10 then con.setTty n { tty with xpos := 0, ypos := int32 (tty.ypos + font.height) }
  else if c = 13 then con.setTty n tty
  else if c = 8 then
    let x := int32 (tty.xpos - font.width)
    let tty := { tty with xpos := if x < 0 then 0 else x }
    con.drawCell font ttyNum n tty screen fun _ _ => background
  else
    let con := con.drawCell font ttyNum n tty screen (glyph font c color)
    con.setTty n { con.ttys n with xpos := int32 (tty.xpos + font.width) }

/-- `Console::Redraw` -/
def redraw : Locked Con Unit := do
  acquire .tty
  assign copyScreen
  assign fun con => con.setNeedRedraw (con.currentTty - 1) false
  release .tty

/-- `Console::SwitchTTY` -/
def switchTTY (ttyNum : Int) : Locked Con Unit := do
  acquire .tty
  let con ← look
  if ttyNum < 1 ∨ numTtys < ttyNum then return ()
  else if ttyNum = con.currentTty then return ()
  else do
    assign fun con => con.switchTo ttyNum
    release .tty
    redraw

/-- `Console::PutChar` -/
def putChar (ttyNum c : Int) (color : UInt32) : Locked Con Unit := do
  acquire .tty
  let con ← look
  if ttyNum < 1 ∨ numTtys < ttyNum then release .tty
  else
    let n := if ttyNum = 0 then con.currentTty - 1 else ttyNum - 1
    match (con.ttys n).screenBuffer, con.fontdata with
    | some screen, some font => do
        assign fun con =>
          con.putGlyph font ttyNum n (con.wrap font (con.ttys n)) screen c color
        release .tty
    | _, _ => return ()

end Con

/-! ## The discipline -/

namespace Con

variable {con : Con}

theorem redraw_disciplined : Disciplined redraw con := by
  rw [Disciplined, Ends, redraw, acquire_bind_of_free rfl, assign_bind, assign_bind]
  exact release_acquire rfl

/-- `SwitchTTY` goes to another tty. -/
def Switches (con : Con) (ttyNum : Int) : Prop :=
  1 ≤ ttyNum ∧ ttyNum ≤ numTtys ∧ ttyNum ≠ con.currentTty

/-- The state in which an operation returns from inside the lock. -/
def locked (con : Con) : Owned LockId Con := ⟨con, Function.update (fun _ => false) .tty true⟩

theorem not_disciplined_of_locked {x : Locked Con Unit}
    (h : x (Owned.free con) = .ok ((), con.locked)) : ¬ Disciplined x con :=
  not_disciplined_of_held (l := LockId.tty) h rfl

/-- **`SwitchTTY` keeps the discipline exactly when it goes to another tty.** -/
theorem switchTTY_disciplined_iff {ttyNum : Int} :
    Disciplined (switchTTY ttyNum) con ↔ con.Switches ttyNum := by
  by_cases hrange : ttyNum < 1 ∨ numTtys < ttyNum
  · have hrun : switchTTY ttyNum (Owned.free con) = .ok ((), con.locked) := by
      rw [switchTTY, acquire_bind_of_free rfl, look_bind, if_pos hrange]
      rfl
    refine iff_of_false (not_disciplined_of_locked hrun) ?_
    rintro ⟨hlo, hhi, -⟩
    rcases hrange with h | h <;> omega
  · rw [not_or, Int.not_lt, Int.not_lt] at hrange
    by_cases hsame : ttyNum = con.currentTty
    · have hrun : switchTTY ttyNum (Owned.free con) = .ok ((), con.locked) := by
        rw [switchTTY, acquire_bind_of_free rfl, look_bind, if_neg (by omega), if_pos hsame]
        rfl
      exact iff_of_false (not_disciplined_of_locked hrun) fun h => h.2.2 hsame
    · refine iff_of_true ?_ ⟨hrange.1, hrange.2, hsame⟩
      rw [Disciplined, Ends, switchTTY, acquire_bind_of_free rfl, look_bind, if_neg (by omega),
        if_neg hsame, assign_bind]
      refine Ends.step (rfl : release LockId.tty _ = .ok (_, _)) ?_
      show Ends redraw ⟨_, Function.update (Function.update (fun _ => false) LockId.tty true)
        LockId.tty false⟩ _ _
      rw [release_acquire rfl]
      exact redraw_disciplined

/-- `PutChar` does not get as far as the screen buffer, or finds it and a font. -/
def CanPut (con : Con) (ttyNum : Int) : Prop :=
  1 ≤ ttyNum ∧ ttyNum ≤ numTtys →
    (con.ttys (ttyNum - 1)).screenBuffer ≠ none ∧ con.fontdata ≠ none

/-- **`PutChar` keeps the discipline exactly when the tty, if it is one, has a screen buffer and
a font has been set.** -/
theorem putChar_disciplined_iff {ttyNum c : Int} {color : UInt32} :
    Disciplined (putChar ttyNum c color) con ↔ con.CanPut ttyNum := by
  rw [Disciplined, Ends, putChar, acquire_bind_of_free rfl, look_bind]
  by_cases hrange : ttyNum < 1 ∨ numTtys < ttyNum
  · rw [if_pos hrange]
    refine iff_of_true (release_acquire rfl) ?_
    rintro ⟨hlo, hhi⟩
    rcases hrange with h | h <;> omega
  · rw [if_neg hrange]
    rw [not_or, Int.not_lt, Int.not_lt] at hrange
    have hzero : ttyNum ≠ 0 := by omega
    simp only [if_neg hzero]
    rw [CanPut, imp_iff_right hrange]
    have hleak : Function.update (fun _ : LockId => false) .tty true ≠ fun _ => false :=
      fun heq => by cases congrFun heq .tty
    cases (con.ttys (ttyNum - 1)).screenBuffer with
    | none => exact iff_of_false hleak fun h => h.1 rfl
    | some screen =>
        cases con.fontdata with
        | none => exact iff_of_false hleak fun h => h.2 rfl
        | some font =>
            refine iff_of_true ?_ ⟨Option.some_ne_none screen, Option.some_ne_none font⟩
            dsimp only
            rw [assign_bind]
            exact release_acquire rfl

end Con

end InfoKernel.Console
