import InfoKernel.Drivers.Console
import Mathlib.Data.Int.Cast.Lemmas
import Mathlib.Tactic.Linarith
import Mathlib.Tactic.Zify

/-!
# What `Puts` writes to

`Console::Puts` of `console.cc`, with a check of each index into the screen buffer, the framebuffer
and the font: `putsChecked` is a fault where `PutChar` uses an index that is not in them, and is
what `PutChar` does where it uses none.

The screen is a typewriter.  Its cursor steps from cell to cell and goes to the next line where it
is out of the screen, so that the last cell of a line and the cells of the last line may be partly
out of it.  What matters is the line at the bottom: what is out of the screen to the right is the
beginning of the next line.

`putsChecked_iff` says for which strings all indices are inside: those that draw no such cell of the
last line and have no byte from `0x80` on, for which `char` is negative.
-/

namespace InfoKernel.Console

open Lib

/-! ## The model with checks -/

/-- The font of the console, with 256 glyphs. -/
def fontdata8x16 (data : Nat → UInt8) : FontData := ⟨8, 16, data⟩

/-- A byte as a `char`. -/
def toChar (b : UInt8) : Int := if b.toNat < 128 then b.toNat else b.toNat - 256

/-- The index into the font for a line of a glyph. -/
def glyphIndex (font : FontData) (c : Int) (y : Nat) : Nat := ofInt (c * font.height + y)

/-- All lines of the glyph are in the font. -/
def GlyphInside (font : FontData) (c : Int) : Prop :=
  ∀ p ∈ Con.cell font, glyphIndex font c p.2 < 256 * font.height

namespace Con

/-- All pixels of the cell at the cursor are in the screen. -/
def CellInside (con : Con) (font : FontData) (tty : TTYState) : Prop :=
  ∀ p ∈ cell font, con.pixelIndex tty p.1 p.2 < con.width * con.height

instance (con : Con) (font : FontData) (tty : TTYState) : Decidable (con.CellInside font tty) :=
  inferInstanceAs (Decidable (∀ p ∈ cell font, _))

instance (font : FontData) (c : Int) : Decidable (GlyphInside font c) :=
  inferInstanceAs (Decidable (∀ p ∈ cell font, _))

/-- `putGlyph`, with checks. -/
def putGlyphChecked (con : Con) (font : FontData) (ttyNum n : Int) (tty : TTYState)
    (screen : Nat → UInt32) (c : Int) (color : UInt32) : Except Fault Con :=
  if c = 10 then
    .ok (con.setTty n { tty with xpos := 0, ypos := int32 (tty.ypos + font.height) })
  else if c = 13 then .ok (con.setTty n tty)
  else if c = 8 then
    let x := int32 (tty.xpos - font.width)
    let tty := { tty with xpos := if x < 0 then 0 else x }
    if con.CellInside font tty then
      .ok (con.drawCell font ttyNum n tty screen fun _ _ => background)
    else .error .outOfBounds
  else if GlyphInside font c ∧ con.CellInside font tty then
    let con := con.drawCell font ttyNum n tty screen (glyph font c color)
    .ok (con.setTty n { con.ttys n with xpos := int32 (tty.xpos + font.width) })
  else .error .outOfBounds

/-- `Console::PutChar`, with checks and without the lock. -/
def putCharChecked (con : Con) (ttyNum c : Int) (color : UInt32) : Except Fault Con :=
  if ttyNum < 1 ∨ numTtys < ttyNum then .ok con
  else
    let n := if ttyNum = 0 then con.currentTty - 1 else ttyNum - 1
    match (con.ttys n).screenBuffer, con.fontdata with
    | some screen, some font =>
        con.putGlyphChecked font ttyNum n (con.wrap font (con.ttys n)) screen c color
    | _, _ => .ok con

/-- `Console::Puts`, with checks. -/
def putsChecked (con : Con) (ttyNum : Int) (color : UInt32) : List UInt8 → Except Fault Con
  | [] => .ok con
  | b :: str =>
      match con.putCharChecked ttyNum (toChar b) color with
      | .error f => .error f
      | .ok con => con.putsChecked ttyNum color str

section Checked

variable {con con' : Con} {font : FontData} {ttyNum n c : Int} {tty : TTYState}
  {screen : Nat → UInt32} {color : UInt32}

/-- The checks change nothing. -/
theorem putGlyph_of_checked
    (h : con.putGlyphChecked font ttyNum n tty screen c color = .ok con') :
    con.putGlyph font ttyNum n tty screen c color = con' := by
  rw [putGlyphChecked] at h
  rw [putGlyph]
  by_cases hnl : c = 10
  · rw [if_pos hnl] at h ⊢
    exact Except.ok.inj h
  rw [if_neg hnl] at h ⊢
  by_cases hcr : c = 13
  · rw [if_pos hcr] at h ⊢
    exact Except.ok.inj h
  rw [if_neg hcr] at h ⊢
  by_cases hbs : c = 8
  · rw [if_pos hbs] at h ⊢
    dsimp only at h ⊢
    by_cases hin : con.CellInside font { tty with
        xpos := if int32 (tty.xpos - font.width) < 0 then 0 else int32 (tty.xpos - font.width) }
    · rw [if_pos hin] at h
      exact Except.ok.inj h
    · rw [if_neg hin] at h
      cases h
  rw [if_neg hbs] at h ⊢
  by_cases hin : GlyphInside font c ∧ con.CellInside font tty
  · rw [if_pos hin] at h
    exact Except.ok.inj h
  · rw [if_neg hin] at h
    cases h

/-- **Where no check fails, `PutChar` does the same**, in the lock. -/
theorem putChar_of_checked (hput : con.CanPut ttyNum)
    (h : con.putCharChecked ttyNum c color = .ok con') :
    putChar ttyNum c color (Owned.free con) = .ok ((), Owned.free con') := by
  rw [putChar, acquire_bind_of_free rfl, look_bind]
  rw [putCharChecked] at h
  by_cases hrange : ttyNum < 1 ∨ numTtys < ttyNum
  · rw [if_pos hrange] at h ⊢
    obtain rfl := Except.ok.inj h
    exact congrArg (fun held => Except.ok ((), (⟨con, held⟩ : Owned LockId Con)))
      (release_acquire rfl)
  · rw [if_neg hrange] at h ⊢
    rw [not_or, Int.not_lt, Int.not_lt] at hrange
    have hzero : ttyNum ≠ 0 := by omega
    simp only [if_neg hzero] at h ⊢
    obtain ⟨hbuffer, hfont⟩ := hput hrange
    cases hscreen : (con.ttys (ttyNum - 1)).screenBuffer with
    | none => exact absurd hscreen hbuffer
    | some screen =>
        cases hdata : con.fontdata with
        | none => exact absurd hdata hfont
        | some font =>
            rw [hscreen, hdata] at h
            have hglyph := putGlyph_of_checked h
            dsimp only
            rw [assign_bind, hglyph]
            exact congrArg (fun held => Except.ok ((), (⟨con', held⟩ : Owned LockId Con)))
              (release_acquire rfl)

end Checked

end Con

/-! ## The cursor -/

/-- The cursor, in pixels. -/
structure Cursor where
  x : Nat
  y : Nat
  deriving DecidableEq, Repr

namespace Cursor

variable (w h : Nat) (k : Cursor)

/-- The cursor goes to the next line, or to the top, where it is out of the screen. -/
def wrap : Cursor :=
  let k := if w ≤ k.x then ⟨0, k.y + 16⟩ else k
  if h ≤ k.y then ⟨k.x, 0⟩ else k

/-- The cell before. -/
def back : Cursor := ⟨k.x - 8, k.y⟩

/-- Where the cursor is behind a character. -/
def advance (c : Int) : Cursor :=
  if c = 10 then ⟨0, (k.wrap w h).y + 16⟩
  else if c = 13 then k.wrap w h
  else if c = 8 then (k.wrap w h).back
  else ⟨(k.wrap w h).x + 8, (k.wrap w h).y⟩

/-- **The cell at the cursor is in the screen**: it ends above the last line of pixels, or at its
end and not to the right of the screen.  (Or the screen is so large that indices start again at `0`
behind its end.) -/
def Fits : Prop :=
  k.y + 16 < h ∨ (k.y + 16 = h ∧ k.x + 8 ≤ w) ∨ 2 ^ 32 ≤ w * h ∨
    (k.x + 8 ≤ w ∧ 2 ^ 32 ≤ w * h + k.x)

/-- What a character draws is in the screen and in the font. -/
def CharFits (c : Int) : Prop :=
  c = 10 ∨ c = 13 ∨ (0 ≤ c ∧ Fits w h (if c = 8 then (k.wrap w h).back else k.wrap w h))

/-- The characters of a string draw what is in the screen and in the font, from the cursor on. -/
def Drawable : Cursor → List UInt8 → Prop
  | _, [] => True
  | k, b :: str => CharFits w h k (toChar b) ∧ Drawable (k.advance w h (toChar b)) str

instance : Decidable (k.Fits w h) := inferInstanceAs (Decidable (_ ∨ _))

instance (c : Int) : Decidable (k.CharFits w h c) := inferInstanceAs (Decidable (_ ∨ _))

instance decidableDrawable : (k : Cursor) → (str : List UInt8) → Decidable (Drawable w h k str)
  | _, [] => .isTrue trivial
  | k, _ :: str => @instDecidableAnd _ _ _ (decidableDrawable (k.advance w h _) str)

end Cursor

/-! ## Indices -/

section Indices

variable {w h x y : Nat} {k : Cursor} {data : Nat → UInt8} {c : Int} {con : Con} {tty : TTYState}

theorem ofInt_lt (n : Int) : ofInt n < 2 ^ 32 := by
  unfold ofInt
  omega

theorem ofInt_natCast (n : Nat) : ofInt n = n % 2 ^ 32 := by
  unfold ofInt
  omega

theorem mem_cell {p : Nat × Nat} :
    p ∈ Con.cell (fontdata8x16 data) ↔ p.1 < 8 ∧ p.2 < 16 := by
  obtain ⟨x, y⟩ := p
  simp only [Con.cell, fontdata8x16, List.mem_flatMap, List.mem_map, List.mem_range, Prod.mk.injEq]
  constructor
  · rintro ⟨y', hy, x', hx, rfl, rfl⟩
    exact ⟨hx, hy⟩
  · rintro ⟨hx, hy⟩
    exact ⟨y, hy, x, hx, rfl, rfl⟩

theorem toChar_range (b : UInt8) : -128 ≤ toChar b ∧ toChar b < 128 := by
  have hb := b.toNat_lt
  rw [toChar]
  split <;> omega

/-- The glyph of a character is in the font exactly when the character is not negative. -/
theorem glyphInside_iff (hlo : -128 ≤ c) (hhi : c < 128) :
    GlyphInside (fontdata8x16 data) c ↔ 0 ≤ c := by
  constructor
  · intro hin
    have hfirst := hin (0, 0) (mem_cell.mpr ⟨by decide, by decide⟩)
    simp only [glyphIndex, fontdata8x16] at hfirst
    unfold ofInt at hfirst
    by_contra hneg
    omega
  · intro hc p hp
    obtain ⟨-, hy⟩ := mem_cell.mp hp
    simp only [glyphIndex, fontdata8x16]
    unfold ofInt
    omega

/-- A cell in a screen whose indices are numbers of 32 bits. -/
theorem cell_inside_iff (hw : 8 ≤ w) (hh : 16 ≤ h) (hsize : w * h < 2 ^ 32) (hx : k.x < w)
    (hy : k.y < h) :
    (∀ x < 8, ∀ y < 16, ((k.y + y) * w + (k.x + x)) % 2 ^ 32 < w * h) ↔ k.Fits w h := by
  constructor
  · intro hall
    by_contra hno
    rw [Cursor.Fits, not_or, not_or, not_or] at hno
    obtain ⟨habove, hlast, hlarge, hwrap⟩ := hno
    by_cases hright : k.x + 8 ≤ w
    · -- the first line under the screen
      have hunder := hall 0 (by decide) (h - k.y) (by omega)
      have hindex : (k.y + (h - k.y)) * w + (k.x + 0) = w * h + k.x := by
        rw [Nat.add_sub_cancel' hy.le, Nat.mul_comm, Nat.add_zero]
      rw [hindex, Nat.mod_eq_of_lt (by omega)] at hunder
      omega
    · -- the first pixel to the right of the last line
      have hbeside := hall (w - k.x) (by omega) (h - 1 - k.y) (by omega)
      have hindex : (k.y + (h - 1 - k.y)) * w + (k.x + (w - k.x)) = w * h := by
        have hline : k.y + (h - 1 - k.y) = h - 1 := by omega
        rw [hline, Nat.add_sub_cancel' hx.le, ← Nat.succ_mul, Nat.succ_eq_add_one,
          Nat.sub_add_cancel (by omega), Nat.mul_comm]
      rw [hindex, Nat.mod_eq_of_lt hsize] at hbeside
      exact Nat.lt_irrefl _ hbeside
  · intro hfits x hx8 y hy16
    have hmul : ∀ {a b : Nat}, a ≤ b → a * w ≤ b * w := Nat.mul_le_mul_right w
    have hcomm : h * w = w * h := Nat.mul_comm h w
    rcases hfits with habove | ⟨hlast, hright⟩ | hlarge | ⟨hright, hwrap⟩
    · have hline := hmul (show k.y + y + 2 ≤ h by omega)
      rw [Nat.add_mul] at hline
      exact Nat.lt_of_le_of_lt (Nat.mod_le _ _) (by omega)
    · have hline := hmul (show k.y + y + 1 ≤ h by omega)
      rw [Nat.add_mul] at hline
      exact Nat.lt_of_le_of_lt (Nat.mod_le _ _) (by omega)
    · omega
    · by_cases hrow : k.y + y < h
      · have hline := hmul (show k.y + y + 1 ≤ h by omega)
        rw [Nat.add_mul] at hline
        exact Nat.lt_of_le_of_lt (Nat.mod_le _ _) (by omega)
      · -- the index starts again behind `2 ^ 32`
        have hlow := hmul (show h ≤ k.y + y by omega)
        have hhigh := hmul (show k.y + y + 2 ≤ 2 * h by omega)
        rw [Nat.add_mul, Nat.mul_assoc 2 h w] at hhigh
        omega

/-- The pixels of the cell at a cursor. -/
theorem pixelIndex_eq (hx : tty.xpos = k.x) (hy : tty.ypos = k.y) (x y : Nat) :
    con.pixelIndex tty x y = ((k.y + y) * con.width + (k.x + x)) % 2 ^ 32 := by
  rw [Con.pixelIndex, hx, hy, ← ofInt_natCast]
  push_cast
  rfl

/-- **The cell at a cursor** is in the screen exactly when it fits. -/
theorem cellInside_iff (hw : 8 ≤ con.width) (hh : 16 ≤ con.height) (hxk : k.x < con.width)
    (hyk : k.y < con.height)
    (hcursor : con.width * con.height < 2 ^ 32 → tty.xpos = k.x ∧ tty.ypos = k.y) :
    con.CellInside (fontdata8x16 data) tty ↔ k.Fits con.width con.height := by
  by_cases hsize : con.width * con.height < 2 ^ 32
  · obtain ⟨hx, hy⟩ := hcursor hsize
    rw [← cell_inside_iff hw hh hsize hxk hyk]
    constructor
    · intro hin x hx8 y hy16
      have hpixel := hin (x, y) (mem_cell.mpr ⟨hx8, hy16⟩)
      rwa [pixelIndex_eq hx hy] at hpixel
    · intro hall p hp
      obtain ⟨hx8, hy16⟩ := mem_cell.mp hp
      rw [pixelIndex_eq hx hy]
      exact hall p.1 hx8 p.2 hy16
  · refine iff_of_true (fun p _ => ?_) (.inr (.inr (.inl (Nat.not_lt.mp hsize))))
    exact Nat.lt_of_lt_of_le (ofInt_lt _) (Nat.not_lt.mp hsize)

end Indices

/-! ## A character -/

/-- A tty with a screen buffer, whose cursor is at `k` where indices are numbers of 32 bits. -/
structure At (con : Con) (n : Int) (data : Nat → UInt8) (k : Cursor) : Prop where
  fontdata : con.fontdata = some (fontdata8x16 data)
  buffer : (con.ttys n).screenBuffer ≠ none
  cursor : con.width * con.height < 2 ^ 32 → (con.ttys n).xpos = k.x ∧ (con.ttys n).ypos = k.y ∧
    k.x < con.width + 8 ∧ k.y < con.height + 16

section Steps

variable {w h : Nat} {k : Cursor} {data : Nat → UInt8} {c n : Int} {con : Con} {tty : TTYState}

theorem int32_eq {n : Int} (hlo : -2 ^ 31 ≤ n) (hhi : n < 2 ^ 31) : int32 n = n := by
  unfold int32
  rw [Int.bmod_def]
  split <;> omega

/-- The sides of a screen whose indices are numbers of 32 bits. -/
theorem sides_lt (hw : 8 ≤ w) (hh : 16 ≤ h) (hsize : w * h < 2 ^ 32) : w < 2 ^ 28 ∧ h < 2 ^ 29 := by
  have hwide := Nat.mul_le_mul_left w hh
  have hhigh := Nat.mul_le_mul_right h hw
  omega

theorem Cursor.wrap_x_lt (hw : 8 ≤ w) : (k.wrap w h).x < w := by
  unfold Cursor.wrap
  grind

theorem Cursor.wrap_y_lt (hh : 16 ≤ h) : (k.wrap w h).y < h := by
  unfold Cursor.wrap
  grind

/-- The cursor of the source goes where the cursor goes. -/
theorem wrap_cursor (hw : 8 ≤ con.width) (hh : 16 ≤ con.height)
    (hsize : con.width * con.height < 2 ^ 32) (hx : tty.xpos = k.x) (hy : tty.ypos = k.y)
    (hxk : k.x < con.width + 8) (hyk : k.y < con.height + 16) :
    (con.wrap (fontdata8x16 data) tty).xpos = (k.wrap con.width con.height).x ∧
      (con.wrap (fontdata8x16 data) tty).ypos = (k.wrap con.width con.height).y := by
  obtain ⟨hwide, hhigh⟩ := sides_lt hw hh hsize
  have hofx : ofInt tty.xpos = k.x := by rw [hx, ofInt_natCast, Nat.mod_eq_of_lt (by omega)]
  have hofy : ofInt tty.ypos = k.y := by rw [hy, ofInt_natCast, Nat.mod_eq_of_lt (by omega)]
  have hnext : int32 (tty.ypos + (16 : Nat)) = (k.y + 16 : Nat) := by
    rw [hy, int32_eq (by omega) (by omega)]
    rfl
  have hofnext : ofInt (k.y + 16 : Nat) = k.y + 16 := by
    rw [ofInt_natCast, Nat.mod_eq_of_lt (by omega)]
  simp only [Con.wrap, Cursor.wrap, hofx, fontdata8x16]
  by_cases hright : con.width ≤ k.x
  · simp only [if_pos hright, hnext, hofnext]
    by_cases hunder : con.height ≤ k.y + 16
    · simp [if_pos hunder]
    · simp [if_neg hunder]
  · simp only [if_neg hright, hofy]
    by_cases hunder : con.height ≤ k.y
    · simp only [if_pos hunder]
      exact ⟨hx, rfl⟩
    · simp only [if_neg hunder]
      exact ⟨hx, hy⟩

/-- What a character leaves: the same screen and font, and the cursor behind it. -/
def After (con con' : Con) (n : Int) (data : Nat → UInt8) (k : Cursor) : Prop :=
  con'.width = con.width ∧ con'.height = con.height ∧ At con' n data k

theorem setTty_ttys : (con.setTty n tty).ttys n = tty := Function.update_self ..

theorem drawCell_ttys (con : Con) (font : FontData) (ttyNum n : Int) (tty : TTYState)
    (screen : Nat → UInt32) (pixel : Nat → Nat → UInt32) : ∃ buffer,
      (con.drawCell font ttyNum n tty screen pixel).ttys n =
        { tty with screenBuffer := some buffer } :=
  ⟨_, Function.update_self ..⟩

/-- The tty behind the screen buffer changes. -/
theorem At.setTty {con' : Con} {k' : Cursor} (hat : At con n data k)
    (hcon : con'.width = con.width ∧ con'.height = con.height ∧ con'.fontdata = con.fontdata)
    (hbuffer : (con'.ttys n).screenBuffer ≠ none)
    (hcursor : con.width * con.height < 2 ^ 32 → (con'.ttys n).xpos = k'.x ∧
      (con'.ttys n).ypos = k'.y ∧ k'.x < con.width + 8 ∧ k'.y < con.height + 16) :
    After con con' n data k' := by
  obtain ⟨hwidth, hheight, hfont⟩ := hcon
  refine ⟨hwidth, hheight, hfont.trans hat.fontdata, hbuffer, ?_⟩
  rw [hwidth, hheight]
  exact hcursor

theorem wrap_screenBuffer (con : Con) (font : FontData) (tty : TTYState) :
    (con.wrap font tty).screenBuffer = tty.screenBuffer := by
  simp only [Con.wrap]
  split <;> split <;> rfl

/-- **A character** is drawn without a fault exactly when it fits. -/
theorem putGlyphChecked_step (ttyNum : Int) (screen : Nat → UInt32) (color : UInt32)
    (hat : At con n data k) (hw : 8 ≤ con.width) (hh : 16 ≤ con.height) (hlo : -128 ≤ c)
    (hhi : c < 128) :
    (k.CharFits con.width con.height c → ∃ con',
        con.putGlyphChecked (fontdata8x16 data) ttyNum n
          (con.wrap (fontdata8x16 data) (con.ttys n)) screen c color = .ok con' ∧
        After con con' n data (k.advance con.width con.height c)) ∧
      (¬ k.CharFits con.width con.height c →
        con.putGlyphChecked (fontdata8x16 data) ttyNum n
          (con.wrap (fontdata8x16 data) (con.ttys n)) screen c color = .error .outOfBounds) := by
  have hxw := Cursor.wrap_x_lt (k := k) (h := con.height) hw
  have hyw := Cursor.wrap_y_lt (k := k) (w := con.width) hh
  have hcursor : con.width * con.height < 2 ^ 32 →
      (con.wrap (fontdata8x16 data) (con.ttys n)).xpos = (k.wrap con.width con.height).x ∧
        (con.wrap (fontdata8x16 data) (con.ttys n)).ypos = (k.wrap con.width con.height).y := by
    intro hsize
    obtain ⟨hx, hy, hxk, hyk⟩ := hat.cursor hsize
    exact wrap_cursor hw hh hsize hx hy hxk hyk
  have hbuffer := wrap_screenBuffer con (fontdata8x16 data) (con.ttys n)
  generalize con.wrap (fontdata8x16 data) (con.ttys n) = tty at hcursor hbuffer ⊢
  rw [Con.putGlyphChecked, Cursor.CharFits, Cursor.advance]
  generalize k.wrap con.width con.height = k' at hxw hyw hcursor ⊢
  by_cases hnl : c = 10
  · rw [if_pos hnl, if_pos hnl]
    refine ⟨fun _ => ⟨_, rfl, hat.setTty ⟨rfl, rfl, rfl⟩ ?_ fun hsize => ?_⟩,
      fun h => absurd (.inl hnl) h⟩
    · rw [setTty_ttys, hbuffer]
      exact hat.buffer
    · obtain ⟨hwide, hhigh⟩ := sides_lt hw hh hsize
      rw [setTty_ttys]
      refine ⟨rfl, ?_, by simp, by simp only []; omega⟩
      have hnext : tty.ypos + (16 : Nat) = (k'.y + 16 : Nat) := by rw [(hcursor hsize).2]; rfl
      change int32 (tty.ypos + (16 : Nat)) = _
      rw [hnext, int32_eq (by omega) (by omega)]
  rw [if_neg hnl, if_neg hnl]
  by_cases hcr : c = 13
  · rw [if_pos hcr, if_pos hcr]
    refine ⟨fun _ => ⟨_, rfl, hat.setTty ⟨rfl, rfl, rfl⟩ ?_ fun hsize => ?_⟩,
      fun h => absurd (.inr (.inl hcr)) h⟩
    · rw [setTty_ttys, hbuffer]
      exact hat.buffer
    · rw [setTty_ttys]
      exact ⟨(hcursor hsize).1, (hcursor hsize).2, by omega, by omega⟩
  rw [if_neg hcr, if_neg hcr]
  by_cases hbs : c = 8
  · rw [if_pos hbs, if_pos hbs, if_pos hbs]
    dsimp only
    let font := fontdata8x16 data
    have hback : con.width * con.height < 2 ^ 32 →
        (if int32 (tty.xpos - font.width) < 0 then 0 else int32 (tty.xpos - font.width)) =
          ((k'.x - 8 : Nat) : Int) := by
      intro hsize
      obtain ⟨hwide, -⟩ := sides_lt hw hh hsize
      have hwidth : (font.width : Int) = 8 := rfl
      rw [(hcursor hsize).1, hwidth, int32_eq (by omega) (by omega)]
      split <;> omega
    have hcell : con.CellInside font { tty with
        xpos := if int32 (tty.xpos - font.width) < 0 then 0 else int32 (tty.xpos - font.width) } ↔
          k'.back.Fits con.width con.height :=
      cellInside_iff hw hh (Nat.lt_of_le_of_lt (Nat.sub_le _ _) hxw) hyw
        fun hsize => ⟨hback hsize, (hcursor hsize).2⟩
    constructor
    · intro hfits
      have hboth := (hfits.resolve_left hnl).resolve_left hcr
      rw [if_pos (hcell.mpr hboth.2)]
      obtain ⟨buffer, hdraw⟩ := drawCell_ttys con (fontdata8x16 data) ttyNum n { tty with
        xpos := if int32 (tty.xpos - font.width) < 0 then 0 else int32 (tty.xpos - font.width) }
        screen fun _ _ => background
      refine ⟨_, rfl, hat.setTty ⟨rfl, rfl, rfl⟩ ?_ fun hsize => ?_⟩
      · rw [hdraw]
        exact Option.some_ne_none _
      · rw [hdraw]
        exact ⟨hback hsize, (hcursor hsize).2, by simp only [Cursor.back]; omega,
          by simp only [Cursor.back]; omega⟩
    · intro hno
      rw [if_neg fun h => hno (.inr (.inr ⟨by omega, hcell.mp h⟩))]
  rw [if_neg hbs, if_neg hbs, if_neg hbs]
  have hin : GlyphInside (fontdata8x16 data) c ∧ con.CellInside (fontdata8x16 data) tty ↔
      0 ≤ c ∧ k'.Fits con.width con.height :=
    and_congr (glyphInside_iff hlo hhi) (cellInside_iff hw hh hxw hyw hcursor)
  constructor
  · intro hfits
    have hboth := (hfits.resolve_left hnl).resolve_left hcr
    rw [if_pos (hin.mpr hboth)]
    obtain ⟨buffer, hdraw⟩ := drawCell_ttys con (fontdata8x16 data) ttyNum n tty screen
      (Con.glyph (fontdata8x16 data) c color)
    refine ⟨_, rfl, hat.setTty ⟨rfl, rfl, rfl⟩ ?_ fun hsize => ?_⟩
    · rw [setTty_ttys, hdraw]
      exact Option.some_ne_none _
    · obtain ⟨hwide, -⟩ := sides_lt hw hh hsize
      rw [setTty_ttys, hdraw]
      refine ⟨?_, (hcursor hsize).2, by simp only []; omega, by simp only []; omega⟩
      have hnext : tty.xpos + (8 : Nat) = (k'.x + 8 : Nat) := by rw [(hcursor hsize).1]; rfl
      change int32 (tty.xpos + (8 : Nat)) = _
      rw [hnext, int32_eq (by omega) (by omega)]
  · intro hno
    rw [if_neg fun h => hno (.inr (.inr (hin.mp h)))]

end Steps

/-! ## Strings -/

section Strings

variable {w h : Nat} {k : Cursor} {data : Nat → UInt8} {ttyNum : Int} {con : Con} {str : List UInt8}
  {color : UInt32}

theorem putCharChecked_eq {c : Int} {screen : Nat → UInt32} {font : FontData} (hlo : 1 ≤ ttyNum)
    (hhi : ttyNum ≤ numTtys) (hscreen : (con.ttys (ttyNum - 1)).screenBuffer = some screen)
    (hfont : con.fontdata = some font) : con.putCharChecked ttyNum c color =
      con.putGlyphChecked font ttyNum (ttyNum - 1) (con.wrap font (con.ttys (ttyNum - 1))) screen c
        color := by
  have hzero : ttyNum ≠ 0 := by omega
  rw [Con.putCharChecked, if_neg (by omega)]
  simp only [if_neg hzero, hscreen, hfont]

/-- **A string** is written without a fault exactly when its characters fit. -/
theorem putsChecked_iff (hw : 8 ≤ con.width) (hh : 16 ≤ con.height) (hlo : 1 ≤ ttyNum)
    (hhi : ttyNum ≤ numTtys) (hat : At con (ttyNum - 1) data k) :
    (∃ con', con.putsChecked ttyNum color str = .ok con') ↔
      k.Drawable con.width con.height str := by
  induction str generalizing con k with
  | nil => exact iff_of_true ⟨con, rfl⟩ trivial
  | cons b str ih =>
      obtain ⟨screen, hscreen⟩ := Option.ne_none_iff_exists'.mp hat.buffer
      obtain ⟨hclo, hchi⟩ := toChar_range b
      obtain ⟨hfit, hout⟩ := putGlyphChecked_step ttyNum screen color hat hw hh hclo hchi
      rw [Con.putsChecked, Cursor.Drawable, putCharChecked_eq hlo hhi hscreen hat.fontdata]
      by_cases hc : k.CharFits con.width con.height (toChar b)
      · obtain ⟨con', hrun, hwidth, hheight, hat'⟩ := hfit hc
        rw [hrun, and_iff_right hc, ← hwidth, ← hheight]
        rw [← hwidth, ← hheight] at hat'
        exact ih (hwidth ▸ hw) (hheight ▸ hh) hat'
      · rw [hout hc]
        refine iff_of_false ?_ fun h => hc h.1
        rintro ⟨con', h⟩
        cases h

/-- Where nothing is written, nothing faults. -/
theorem putsChecked_of_idle (h : ∀ c, con.putCharChecked ttyNum c color = .ok con) :
    con.putsChecked ttyNum color str = .ok con := by
  induction str with
  | nil => rfl
  | cons b str ih =>
      rw [Con.putsChecked, h]
      exact ih

/-- **When all indices are inside.**  For a screen that a cell fits into, every tty and every
string, from the initial cursor on: the indices of `Puts` are in the screen and in the font exactly
when there is no tty to write to, or all characters of the string fit. -/
theorem puts_inside_iff (hw : 8 ≤ con.width) (hh : 16 ≤ con.height)
    (hfont : con.fontdata = some (fontdata8x16 data))
    (hcursor : ∀ n, (con.ttys n).xpos = 0 ∧ (con.ttys n).ypos = 0) :
    (∃ con', con.putsChecked ttyNum color str = .ok con') ↔
      (1 ≤ ttyNum ∧ ttyNum ≤ numTtys ∧ (con.ttys (ttyNum - 1)).screenBuffer ≠ none →
        Cursor.Drawable con.width con.height ⟨0, 0⟩ str) := by
  by_cases htty : 1 ≤ ttyNum ∧ ttyNum ≤ numTtys ∧ (con.ttys (ttyNum - 1)).screenBuffer ≠ none
  · obtain ⟨hlo, hhi, hbuffer⟩ := htty
    rw [imp_iff_right ⟨hlo, hhi, hbuffer⟩]
    obtain ⟨hx, hy⟩ := hcursor (ttyNum - 1)
    have hat : At con (ttyNum - 1) data ⟨0, 0⟩ :=
      ⟨hfont, hbuffer, fun _ => ⟨hx, hy, Nat.succ_pos _, Nat.succ_pos _⟩⟩
    exact putsChecked_iff hw hh hlo hhi hat
  · refine iff_of_true ⟨con, putsChecked_of_idle fun c => ?_⟩ fun h => absurd h htty
    rw [Con.putCharChecked]
    by_cases hrange : ttyNum < 1 ∨ numTtys < ttyNum
    · rw [if_pos hrange]
    · have hzero : ttyNum ≠ 0 := by omega
      have hnone : (con.ttys (ttyNum - 1)).screenBuffer = none := by
        by_contra hbuffer
        exact htty ⟨by omega, by omega, hbuffer⟩
      rw [if_neg hrange]
      simp only [if_neg hzero, hnone]

theorem Cursor.wrap_dvd (hx : 8 ∣ k.x) (hy : 16 ∣ k.y) :
    8 ∣ (k.wrap w h).x ∧ 16 ∣ (k.wrap w h).y := by
  unfold Cursor.wrap
  grind

/-- On a screen of whole cells, a cell that begins in it ends in it. -/
theorem Cursor.fits_of_dvd (hwidth : 8 ∣ w) (hheight : 16 ∣ h) (hx : 8 ∣ k.x) (hy : 16 ∣ k.y)
    (hxw : k.x < w) (hyh : k.y < h) : k.Fits w h := by
  rw [Cursor.Fits]
  omega

/-- A screen of whole cells, and a string of characters below `0x80`. -/
theorem Cursor.drawable_of_dvd (hw : 8 ≤ w) (hh : 16 ≤ h) (hwidth : 8 ∣ w) (hheight : 16 ∣ h)
    (hx : 8 ∣ k.x) (hy : 16 ∣ k.y) (hstr : ∀ b ∈ str, b.toNat < 128) : k.Drawable w h str := by
  induction str generalizing k with
  | nil => trivial
  | cons b str ih =>
      obtain ⟨hb, hrest⟩ := List.forall_mem_cons.mp hstr
      have hxw := Cursor.wrap_x_lt (k := k) (h := h) hw
      have hyw := Cursor.wrap_y_lt (k := k) (w := w) hh
      obtain ⟨hx', hy'⟩ := Cursor.wrap_dvd (w := w) (h := h) hx hy
      refine ⟨.inr (.inr ⟨?_, ?_⟩), ih ?_ ?_ hrest⟩
      · rw [toChar, if_pos hb]
        exact Int.natCast_nonneg _
      · split
        · exact Cursor.fits_of_dvd hwidth hheight (Nat.dvd_sub hx' (Nat.dvd_refl 8)) hy'
            (Nat.lt_of_le_of_lt (Nat.sub_le _ _) hxw) hyw
        · exact Cursor.fits_of_dvd hwidth hheight hx' hy' hxw hyw
      · rw [Cursor.advance]
        split
        · exact Nat.dvd_zero 8
        split
        · exact hx'
        split
        · exact Nat.dvd_sub hx' (Nat.dvd_refl 8)
        · exact Nat.dvd_add hx' (Nat.dvd_refl 8)
      · rw [Cursor.advance]
        split
        · exact Nat.dvd_add hy' (Nat.dvd_refl 16)
        split
        · exact hy'
        split
        · exact hy'
        · exact hy'

end Strings

/-- The console as it is at first, on a screen of some size. -/
def initial (width height : Nat) : Con :=
  ⟨fun _ => ⟨0, 0, some fun _ => background, false⟩, 1, some (fontdata8x16 fun _ => 0),
    fun _ => background, width, height⟩

/-- A letter, a line and a letter that a backspace takes away. -/
theorem puts_inside_small :
    ∃ con', (initial 800 600).putsChecked 1 0x8f8f8f [65, 10, 65, 8] = .ok con' :=
  (puts_inside_iff (show 8 ≤ 800 by decide) (show 16 ≤ 600 by decide) rfl
    fun _ => ⟨rfl, rfl⟩).mpr fun _ => by decide

/-- A letter in the last line of a screen with 600 lines of pixels. -/
theorem puts_outside : ¬ ∃ con',
    (initial 800 600).putsChecked 1 0x8f8f8f (List.replicate 37 10 ++ [65]) = .ok con' := by
  have hat : At (initial 800 600) (1 - 1) (fun _ => 0) ⟨0, 0⟩ :=
    ⟨rfl, Option.some_ne_none _, fun _ => ⟨rfl, rfl, by decide, by decide⟩⟩
  rw [putsChecked_iff (by decide) (by decide) (by decide) (by decide) hat]
  decide +kernel

end InfoKernel.Console
