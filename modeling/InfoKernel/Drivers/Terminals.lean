import InfoKernel.Drivers.Screen
import InfoKernel.Lib.Refinement
import InfoKernel.Lib.Writes

/-!
# Six terminals on one screen

`Console::Init`, `SetFont` and `Puts` of `console.cc`, over `PutChar`, `SwitchTTY` and `Redraw`, and
what all of them together are for.

A terminal is a grid of characters with a cursor: a `TextScreen`.  The console keeps six of them as
pixels, each in a screen buffer of its own, and draws what goes to the current one on the
framebuffer at once.  `Console.refines` says that it never mixes them up: whatever is written to
which terminal and whenever another one is shown, each screen buffer is the picture of a grid that
only knows what was written to that terminal, and the framebuffer is the picture of the current one.

## What is admitted

`SwitchTTY` to a number that is not that of another terminal returns with the lock, and `PutChar`
leaves the font for a byte from `0x80` on: such calls are not admitted.  The sides of the screen are
whole numbers of cells.
-/

namespace InfoKernel.Console

open Lib

/-! ## The model -/

namespace Con

/-- The loops of `Init` over the screen buffers. -/
def clearBuffers (con : Con) : Con :=
  { con with
    ttys := fun n =>
      match (con.ttys n).screenBuffer with
      | some screen =>
          if 0 ≤ n ∧ n < numTtys then
            { con.ttys n with
              screenBuffer :=
                some fun i => if i < u32 (con.height * con.width) then background else screen i }
          else con.ttys n
      | none => con.ttys n }

/-- `Console::Init`, with whether the framebuffer is one of colours. -/
def init (rgb : Bool) : Locked Con Unit := do
  acquire .tty
  if rgb then assign clearBuffers
  release .tty
  redraw

/-- `Console::SetFont` -/
def setFont (font : FontData) : Locked Con Unit :=
  assign fun con => { con with fontdata := some font }

/-- `PutChar`, which is a fault where an index is not in the screen or in the font. -/
def putCharInside (ttyNum c : Int) (color : UInt32) : Locked Con Unit := do
  let con ← look
  match con.putCharChecked ttyNum c color with
  | .error f => throw (.fault f)
  | .ok _ => putChar ttyNum c color

/-- `Console::Puts` -/
def puts (ttyNum : Int) (color : UInt32) : List UInt8 → Locked Con Unit
  | [] => pure ()
  | b :: str => do
      putCharInside ttyNum (toChar b) color
      puts ttyNum color str

end Con

/-- A call to the console. -/
inductive TtyCall where
  | puts (ttyNum : Int) (str : List UInt8) (color : UInt32)
  | switchTTY (ttyNum : Int)
  | redraw

/-- The call is made. -/
def Con.exec : TtyCall → Locked Con Unit
  | .puts ttyNum str color => Con.puts ttyNum color str
  | .switchTTY ttyNum => Con.switchTTY ttyNum
  | .redraw => Con.redraw

/-! ## What a terminal is -/

/-- A grid of characters with their colours, and a cursor. -/
structure TextScreen where
  cells : Nat × Nat → Option (Int × UInt32)
  col : Nat
  row : Nat

namespace TextScreen

variable (cols rows : Nat) (t : TextScreen)

/-- Nothing has been written. -/
def blank : TextScreen := ⟨fun _ => none, 0, 0⟩

/-- Where the cursor is when a character comes: out of the grid it goes to the next line, or to the
top. -/
def wrap : TextScreen :=
  let t := if cols ≤ t.col then { t with col := 0, row := t.row + 1 } else t
  if rows ≤ t.row then { t with row := 0 } else t

/-- The cell at the cursor is written. -/
def write (cell : Option (Int × UInt32)) : TextScreen :=
  { t with cells := Function.update t.cells (t.col, t.row) cell }

/-- A character comes. -/
def put (c : Int) (color : UInt32) : TextScreen :=
  let t := t.wrap cols rows
  if c = 10 then { t with col := 0, row := t.row + 1 }
  else if c = 13 then t
  else if c = 8 then { t with col := t.col - 1 }.write none
  else { t.write (some (c, color)) with col := t.col + 1 }

/-- A string comes. -/
def puts (color : UInt32) (str : List UInt8) : TextScreen :=
  str.foldl (fun t b => t.put cols rows (toChar b) color) t

/-- The pixel of the picture. -/
def pixel (font : FontData) (x y : Nat) : UInt32 :=
  match t.cells (x / 8, y / 16) with
  | none => background
  | some (c, color) => Con.glyph font c color (x % 8) (y % 16)

@[simp] theorem cells_wrap : (t.wrap cols rows).cells = t.cells := by
  simp only [wrap]
  split <;> split <;> rfl

@[simp] theorem col_write (cell : Option (Int × UInt32)) : (t.write cell).col = t.col := rfl

@[simp] theorem row_write (cell : Option (Int × UInt32)) : (t.write cell).row = t.row := rfl

end TextScreen

/-- The terminals, and the number of the current one. -/
structure Terminals where
  text : Int → TextScreen
  current : Int

namespace Terminals

variable (cols rows : Nat) (ts : Terminals)

/-- The terminals at first. -/
def start : Terminals := ⟨fun _ => .blank, 1⟩

/-- A grid changes. -/
def setText (n : Int) (t : TextScreen) : Terminals :=
  { ts with text := Function.update ts.text n t }

@[simp] theorem text_setText_self (n : Int) (t : TextScreen) : (ts.setText n t).text n = t :=
  Function.update_self ..

theorem text_setText_of_ne {m n : Int} (h : m ≠ n) (t : TextScreen) :
    (ts.setText n t).text m = ts.text m := Function.update_of_ne h ..

@[simp] theorem current_setText (n : Int) (t : TextScreen) :
    (ts.setText n t).current = ts.current :=
  rfl

/-- What the call does. -/
def step : TtyCall → Terminals
  | .puts ttyNum str color =>
      if 1 ≤ ttyNum ∧ ttyNum ≤ numTtys then
        ts.setText (ttyNum - 1) ((ts.text (ttyNum - 1)).puts cols rows color str)
      else ts
  | .switchTTY ttyNum => { ts with current := ttyNum }
  | .redraw => ts

/-- The terminals after the call, and its answer. -/
def answer (call : TtyCall) : Unit × Terminals := ((), ts.step cols rows call)

/-- The terminals after the calls. -/
def after (calls : List TtyCall) : Terminals := (answers (answer cols rows) start calls).2

/-- The call is admitted. -/
def Admits : TtyCall → Prop
  | .puts _ str _ => ∀ b ∈ str, b.toNat < 128
  | .switchTTY ttyNum => 1 ≤ ttyNum ∧ ttyNum ≤ numTtys ∧ ttyNum ≠ ts.current
  | .redraw => True

end Terminals

/-! ## Pictures -/

section Pictures

variable {cols rows : Nat} {data : Nat → UInt8} {buf : Nat → UInt32} {t t' : TextScreen}

/-- The buffer is the picture of the grid. -/
def Pictures (cols rows : Nat) (data : Nat → UInt8) (buf : Nat → UInt32) (t : TextScreen) : Prop :=
  ∀ x y, x < 8 * cols → y < 16 * rows →
    buf (y * (8 * cols) + x) = t.pixel (fontdata8x16 data) x y

/-- Only the cells matter. -/
theorem Pictures.congr (h : Pictures cols rows data buf t) (hcells : t'.cells = t.cells) :
    Pictures cols rows data buf t' := by
  intro x y hx hy
  rw [h x y hx hy, TextScreen.pixel, TextScreen.pixel, hcells]

/-- An index tells the pixel. -/
theorem index_inj {w x y x' y' : Nat} (hx : x < w) (hx' : x' < w)
    (h : y * w + x = y' * w + x') : x = x' ∧ y = y' := by
  have hdiv : (y * w + x) / w = (y' * w + x') / w := by rw [h]
  have hmod : (y * w + x) % w = (y' * w + x') % w := by rw [h]
  rw [Nat.mul_comm y, Nat.mul_comm y', Nat.mul_add_div (by omega), Nat.mul_add_div (by omega),
    Nat.div_eq_of_lt hx, Nat.div_eq_of_lt hx'] at hdiv
  rw [Nat.mul_comm y, Nat.mul_comm y', Nat.mul_add_mod, Nat.mul_add_mod, Nat.mod_eq_of_lt hx,
    Nat.mod_eq_of_lt hx'] at hmod
  exact ⟨hmod, hdiv⟩

/-- The index of a pixel of the screen is in the buffer. -/
theorem index_lt {w h x y : Nat} (hx : x < w) (hy : y < h) : y * w + x < w * h := by
  have hline := Nat.mul_le_mul_right w (show y + 1 ≤ h from hy)
  rw [Nat.add_mul, Nat.mul_comm h w] at hline
  omega

/-- **Drawing a cell** makes the picture of a grid the picture of the grid with the cell written. -/
theorem Pictures.write {con : Con} {tty : TTYState} {pixel : Nat → Nat → UInt32}
    {cell : Option (Int × UInt32)} (h : Pictures cols rows data buf t)
    (hw : con.width = 8 * cols) (hsize : 8 * cols * (16 * rows) < 2 ^ 32) (hcol : t.col < cols)
    (hrow : t.row < rows) (hx : tty.xpos = (8 * t.col : Nat)) (hy : tty.ypos = (16 * t.row : Nat))
    (hpixel : ∀ x y, x < 8 → y < 16 → pixel x y =
      match cell with
      | none => background
      | some (c, color) => Con.glyph (fontdata8x16 data) c color x y) :
    Pictures cols rows data
      ((Con.cell (fontdata8x16 data)).foldl
        (fun buf p => Function.update buf (con.pixelIndex tty p.1 p.2) (pixel p.1 p.2)) buf)
      (t.write cell) := by
  intro x y hxw hyh
  -- the index of a pixel of the cell, with no remainder
  have hindex : ∀ p ∈ Con.cell (fontdata8x16 data), con.pixelIndex tty p.1 p.2 =
      (16 * t.row + p.2) * (8 * cols) + (8 * t.col + p.1) := by
    intro p hp
    obtain ⟨hp1, hp2⟩ := mem_cell.mp hp
    rw [pixelIndex_eq (k := ⟨8 * t.col, 16 * t.row⟩) hx hy, hw]
    have hp1 : 8 * t.col + p.1 < 8 * cols := by omega
    have hp2 : 16 * t.row + p.2 < 16 * rows := by omega
    exact Nat.mod_eq_of_lt (Nat.lt_trans (index_lt hp1 hp2) hsize)
  by_cases hin : x / 8 = t.col ∧ y / 16 = t.row
  · obtain ⟨hinx, hiny⟩ := hin
    have hmem : (x % 8, y % 16) ∈ Con.cell (fontdata8x16 data) :=
      mem_cell.mpr ⟨Nat.mod_lt _ (by decide), Nat.mod_lt _ (by decide)⟩
    have hat : y * (8 * cols) + x = con.pixelIndex tty (x % 8) (y % 16) := by
      have hxx : 8 * t.col + x % 8 = x := by omega
      have hyy : 16 * t.row + y % 16 = y := by omega
      rw [hindex _ hmem, hxx, hyy]
    have hsame : ∀ q ∈ Con.cell (fontdata8x16 data),
        con.pixelIndex tty q.1 q.2 = con.pixelIndex tty (x % 8) (y % 16) →
          pixel q.1 q.2 = pixel (x % 8) (y % 16) := by
      intro q hq hqw
      obtain ⟨hq1, hq2⟩ := mem_cell.mp hq
      rw [← hat, hindex q hq] at hqw
      obtain ⟨hqx, hqy⟩ := index_inj (by omega) hxw hqw
      rw [show q.1 = x % 8 by omega, show q.2 = y % 16 by omega]
    have hget := foldl_update_of_mem (w := fun p : Nat × Nat => con.pixelIndex tty p.1 p.2)
      (v := fun p : Nat × Nat => pixel p.1 p.2) hmem hsame buf
    dsimp only at hget
    rw [hat, hget, TextScreen.pixel, hinx, hiny]
    simp only [TextScreen.write, Function.update_self]
    exact hpixel _ _ (Nat.mod_lt _ (by decide)) (Nat.mod_lt _ (by decide))
  · have hother : (x / 8, y / 16) ≠ (t.col, t.row) := fun heq => hin (Prod.ext_iff.mp heq)
    have hnone : ∀ p ∈ Con.cell (fontdata8x16 data),
        con.pixelIndex tty p.1 p.2 ≠ y * (8 * cols) + x := by
      intro p hp hpw
      obtain ⟨hp1, hp2⟩ := mem_cell.mp hp
      rw [hindex p hp] at hpw
      obtain ⟨hxx, hyy⟩ := index_inj (by omega) hxw hpw
      exact hin ⟨by omega, by omega⟩
    have hkeep := foldl_update_of_ne (w := fun p : Nat × Nat => con.pixelIndex tty p.1 p.2)
      (v := fun p : Nat × Nat => pixel p.1 p.2) hnone buf
    rw [hkeep, h x y hxw hyh]
    simp only [TextScreen.pixel, TextScreen.write, Function.update_of_ne hother]

end Pictures

/-! ## A character -/

/-- The tty shows the grid: its cursor is at the cursor, and its screen buffer is the picture. -/
structure TTYState.Shows (cols rows : Nat) (data : Nat → UInt8) (tty : TTYState) (t : TextScreen) :
    Prop where
  xpos : tty.xpos = (8 * t.col : Nat)
  ypos : tty.ypos = (16 * t.row : Nat)
  col_le : t.col ≤ cols
  row_le : t.row ≤ rows
  buffer : ∃ screen, tty.screenBuffer = some screen ∧ Pictures cols rows data screen t

/-- The screen has room for the cells. -/
structure Con.Sized (cols rows : Nat) (con : Con) : Prop where
  cols_pos : 0 < cols
  rows_pos : 0 < rows
  width : con.width = 8 * cols
  height : con.height = 16 * rows
  small : 8 * cols * (16 * rows) < 2 ^ 32

section Characters

variable {cols rows : Nat} {data : Nat → UInt8} {t : TextScreen} {tty : TTYState} {con : Con}
  {ttyNum n c : Int} {color : UInt32}

/-- The cursor of the grid, in pixels. -/
def TextScreen.cursor (t : TextScreen) : Cursor := ⟨8 * t.col, 16 * t.row⟩

theorem TextScreen.cursor_wrap (t : TextScreen) :
    (t.wrap cols rows).cursor = t.cursor.wrap (8 * cols) (16 * rows) := by
  unfold TextScreen.wrap TextScreen.cursor Cursor.wrap
  grind

theorem TextScreen.wrap_col_lt (t : TextScreen) (rows : Nat) (hcols : 0 < cols) :
    (t.wrap cols rows).col < cols := by
  unfold TextScreen.wrap
  grind

theorem TextScreen.wrap_row_lt (t : TextScreen) (cols : Nat) (hrows : 0 < rows) :
    (t.wrap cols rows).row < rows := by
  unfold TextScreen.wrap
  grind

/-- The cursor of the tty wraps with the one of the grid. -/
theorem TTYState.Shows.wrap (hs : tty.Shows cols rows data t) (hc : con.Sized cols rows) :
    (con.wrap (fontdata8x16 data) tty).Shows cols rows data (t.wrap cols rows) := by
  have hcols := hc.cols_pos
  have hrows := hc.rows_pos
  have hw := hc.width
  have hh := hc.height
  have hxk : t.cursor.x < con.width + 8 := by
    have := hs.col_le
    simp only [TextScreen.cursor]
    omega
  have hyk : t.cursor.y < con.height + 16 := by
    have := hs.row_le
    simp only [TextScreen.cursor]
    omega
  have hcursor : (con.wrap (fontdata8x16 data) tty).xpos =
        (t.cursor.wrap con.width con.height).x ∧
      (con.wrap (fontdata8x16 data) tty).ypos = (t.cursor.wrap con.width con.height).y :=
    wrap_cursor (by omega) (by omega) (hw ▸ hh ▸ hc.small) hs.xpos hs.ypos hxk hyk
  rw [hw, hh, ← TextScreen.cursor_wrap] at hcursor
  obtain ⟨screen, hscreen, hpicture⟩ := hs.buffer
  exact ⟨hcursor.1, hcursor.2, (t.wrap_col_lt rows hcols).le, (t.wrap_row_lt cols hrows).le, screen,
    (wrap_screenBuffer ..).trans hscreen, hpicture.congr (TextScreen.cells_wrap ..)⟩

/-- What writing to the tty `n` leaves: the grid `t` has become `t'` in its screen buffer, and on
the framebuffer if it is shown. -/
structure Con.Written (cols rows : Nat) (data : Nat → UInt8) (ttyNum n : Int) (t t' : TextScreen)
    (con con' : Con) : Prop where
  sized : con'.Sized cols rows
  fontdata : con'.fontdata = con.fontdata
  current : con'.currentTty = con.currentTty
  shows : (con'.ttys n).Shows cols rows data t'
  others : ∀ m, m ≠ n → con'.ttys m = con.ttys m
  drawn : ttyNum = con.currentTty → Pictures cols rows data con.fb t →
    Pictures cols rows data con'.fb t'
  kept : ttyNum ≠ con.currentTty → con'.fb = con.fb

/-- The cursor goes somewhere, and nothing is drawn. -/
theorem Con.Sized.written_setTty {t' : TextScreen} (hc : con.Sized cols rows)
    (hs : tty.Shows cols rows data t') (hcells : t'.cells = t.cells) :
    Con.Written cols rows data ttyNum n t t' con (con.setTty n tty) where
  sized := ⟨hc.cols_pos, hc.rows_pos, hc.width, hc.height, hc.small⟩
  fontdata := rfl
  current := rfl
  shows := by
    rw [setTty_ttys]
    exact hs
  others m hm := Function.update_of_ne hm ..
  drawn _ h := h.congr hcells
  kept _ := rfl

/-- A cell is drawn. -/
theorem Con.Sized.written_drawCell {screen : Nat → UInt32} {pixel : Nat → Nat → UInt32}
    {cell : Option (Int × UInt32)} (hc : con.Sized cols rows)
    (hs : tty.Shows cols rows data t) (hscreen : tty.screenBuffer = some screen)
    (hcol : t.col < cols) (hrow : t.row < rows)
    (hpixel : ∀ x y, x < 8 → y < 16 → pixel x y =
      match cell with
      | none => background
      | some (c, color) => Con.glyph (fontdata8x16 data) c color x y) :
    Con.Written cols rows data ttyNum n t (t.write cell) con
      (con.drawCell (fontdata8x16 data) ttyNum n tty screen pixel) where
  sized := ⟨hc.cols_pos, hc.rows_pos, hc.width, hc.height, hc.small⟩
  fontdata := rfl
  current := rfl
  shows := by
    obtain ⟨screen', hscreen', hpicture⟩ := hs.buffer
    obtain rfl : screen = screen' := Option.some.inj (hscreen.symm.trans hscreen')
    have httys : (con.drawCell (fontdata8x16 data) ttyNum n tty screen pixel).ttys n =
        { tty with
          screenBuffer := some ((Con.cell (fontdata8x16 data)).foldl
            (fun buf p => Function.update buf (con.pixelIndex tty p.1 p.2) (pixel p.1 p.2))
            screen) } := Function.update_self ..
    rw [httys]
    exact ⟨hs.xpos, hs.ypos, hs.col_le, hs.row_le, _, rfl,
      hpicture.write hc.width hc.small hcol hrow hs.xpos hs.ypos hpixel⟩
  others m hm := Function.update_of_ne hm ..
  drawn hshown h := by
    have hfb : (con.drawCell (fontdata8x16 data) ttyNum n tty screen pixel).fb =
        (Con.cell (fontdata8x16 data)).foldl
          (fun buf p => Function.update buf (con.pixelIndex tty p.1 p.2) (pixel p.1 p.2)) con.fb :=
      if_pos hshown
    rw [hfb]
    exact h.write hc.width hc.small hcol hrow hs.xpos hs.ypos hpixel
  kept hshown := if_neg hshown

/-- A second step of the writing. -/
theorem Con.Written.trans {con' con'' : Con} {t' t'' : TextScreen}
    (h : Con.Written cols rows data ttyNum n t t' con con')
    (h' : Con.Written cols rows data ttyNum n t' t'' con' con'') :
    Con.Written cols rows data ttyNum n t t'' con con'' where
  sized := h'.sized
  fontdata := h'.fontdata.trans h.fontdata
  current := h'.current.trans h.current
  shows := h'.shows
  others m hm := (h'.others m hm).trans (h.others m hm)
  drawn hshown hfb := h'.drawn (hshown.trans h.current.symm) (h.drawn hshown hfb)
  kept hshown := (h'.kept fun heq => hshown (heq.trans h.current)).trans (h.kept hshown)

/-- Only the cells of the grid before matter. -/
theorem Con.Written.of_cells {con' : Con} {t' t'' : TextScreen}
    (h : Con.Written cols rows data ttyNum n t' t'' con con') (hcells : t'.cells = t.cells) :
    Con.Written cols rows data ttyNum n t t'' con con' :=
  { h with drawn := fun hshown hfb => h.drawn hshown (hfb.congr hcells) }

/-- The cell at a cursor in the grid is in the screen. -/
theorem TTYState.Shows.cellInside (hs : tty.Shows cols rows data t) (hc : con.Sized cols rows)
    (hcol : t.col < cols) (hrow : t.row < rows) : con.CellInside (fontdata8x16 data) tty := by
  have hw := hc.width
  have hh := hc.height
  have hx : t.cursor.x < con.width := by simp only [TextScreen.cursor]; omega
  have hy : t.cursor.y < con.height := by simp only [TextScreen.cursor]; omega
  refine (cellInside_iff (by omega) (by omega) hx hy fun _ => ⟨hs.xpos, hs.ypos⟩).mpr ?_
  exact Cursor.fits_of_dvd ⟨cols, hw⟩ ⟨rows, hh⟩ ⟨t.col, rfl⟩ ⟨t.row, rfl⟩ hx hy

/-- **A character** is written as the grid says, with all indices inside. -/
theorem putGlyphChecked_written (ttyNum : Int) (color : UInt32) (hc : con.Sized cols rows)
    (hs : (con.ttys n).Shows cols rows data t) {screen : Nat → UInt32}
    (hscreen : (con.ttys n).screenBuffer = some screen) (hlo : 0 ≤ c) (hhi : c < 128) :
    ∃ con', con.putGlyphChecked (fontdata8x16 data) ttyNum n
        (con.wrap (fontdata8x16 data) (con.ttys n)) screen c color = .ok con' ∧
      Con.Written cols rows data ttyNum n t (t.put cols rows c color) con con' := by
  have hwrap := hs.wrap hc
  have hscreen' := (wrap_screenBuffer con (fontdata8x16 data) (con.ttys n)).trans hscreen
  have hcol := t.wrap_col_lt rows hc.cols_pos
  have hrow := t.wrap_row_lt cols hc.rows_pos
  have hcells := TextScreen.cells_wrap cols rows t
  obtain ⟨hwide, hhigh⟩ := sides_lt (show 8 ≤ 8 * cols by have := hc.cols_pos; omega)
    (show 16 ≤ 16 * rows by have := hc.rows_pos; omega) hc.small
  unfold Con.putGlyphChecked TextScreen.put
  generalize con.wrap (fontdata8x16 data) (con.ttys n) = tty at hwrap hscreen' ⊢
  generalize t.wrap cols rows = t' at hwrap hcol hrow hcells ⊢
  have hx := hwrap.xpos
  have hy := hwrap.ypos
  obtain ⟨screen', hbuffer, hpicture⟩ := hwrap.buffer
  by_cases hnl : c = 10
  · have hnext : int32 (tty.ypos + (16 : Nat)) = (16 * (t'.row + 1) : Nat) := by
      rw [hy, int32_eq (by omega) (by omega)]
      push_cast
      omega
    rw [if_pos hnl]
    simp only [if_pos hnl]
    exact ⟨_, rfl, hc.written_setTty ⟨rfl, hnext, Nat.zero_le _, hrow, screen', hbuffer,
      hpicture.congr rfl⟩ hcells⟩
  rw [if_neg hnl]
  simp only [if_neg hnl]
  by_cases hcr : c = 13
  · rw [if_pos hcr]
    simp only [if_pos hcr]
    exact ⟨_, rfl, hc.written_setTty hwrap hcells⟩
  rw [if_neg hcr]
  simp only [if_neg hcr]
  by_cases hbs : c = 8
  · -- the cell before the cursor, or the first one of the line
    have hback : (if int32 (tty.xpos - (8 : Nat)) < 0 then 0 else int32 (tty.xpos - (8 : Nat))) =
        ((8 * (t'.col - 1) : Nat) : Int) := by
      rw [hx, int32_eq (by omega) (by omega)]
      split <;> omega
    have hshows : TTYState.Shows cols rows data
        { tty with
          xpos := if int32 (tty.xpos - (8 : Nat)) < 0 then 0 else int32 (tty.xpos - (8 : Nat)) }
        { t' with col := t'.col - 1 } :=
      ⟨hback, hy, (Nat.sub_le _ _).trans hcol.le, hrow.le, screen', hbuffer, hpicture.congr rfl⟩
    have hcol' : t'.col - 1 < cols := Nat.lt_of_le_of_lt (Nat.sub_le _ _) hcol
    rw [if_pos hbs]
    simp only [if_pos hbs]
    exact ⟨_, if_pos (hshows.cellInside hc hcol' hrow),
      (hc.written_drawCell hshows hscreen' hcol' hrow fun _ _ _ _ => rfl).of_cells hcells⟩
  rw [if_neg hbs]
  simp only [if_neg hbs]
  have hnext : int32 (tty.xpos + (8 : Nat)) = (8 * (t'.col + 1) : Nat) := by
    rw [hx, int32_eq (by omega) (by omega)]
    push_cast
    omega
  have hdraw : Con.Written cols rows data ttyNum n t' (t'.write (some (c, color))) con
      (con.drawCell (fontdata8x16 data) ttyNum n tty screen
        (Con.glyph (fontdata8x16 data) c color)) :=
    hc.written_drawCell hwrap hscreen' hcol hrow fun _ _ _ _ => rfl
  refine ⟨_, if_pos ⟨(glyphInside_iff (by omega) hhi).mpr hlo, hwrap.cellInside hc hcol hrow⟩, ?_⟩
  generalize con.drawCell (fontdata8x16 data) ttyNum n tty screen
    (Con.glyph (fontdata8x16 data) c color) = drawn at hdraw ⊢
  obtain ⟨screen'', hbuffer', hpicture'⟩ := hdraw.shows.buffer
  refine (hdraw.trans (hdraw.sized.written_setTty ?_ ?_)).of_cells hcells
  · exact ⟨hnext, hdraw.shows.ypos, hcol, hrow.le, screen'', hbuffer', hpicture'.congr rfl⟩
  · rfl

end Characters

/-! ## Calls -/

/-- **The console displays the terminals**, each in its screen buffer and the current one on the
framebuffer. -/
structure Con.Displays (cols rows : Nat) (data : Nat → UInt8) (con : Con) (ts : Terminals) :
    Prop where
  sized : con.Sized cols rows
  current : con.currentTty = ts.current
  current_pos : 1 ≤ ts.current
  current_le : ts.current ≤ numTtys
  shows : ∀ n, 0 ≤ n → n < numTtys → (con.ttys n).Shows cols rows data (ts.text n)
  shown : Pictures cols rows data con.fb (ts.text (ts.current - 1))

section Calls

variable {cols rows : Nat} {data : Nat → UInt8} {con : Con} {ts : Terminals} {ttyNum c : Int}
  {color : UInt32}

/-- Nothing is written to a number that is not that of a tty. -/
theorem putCharInside_outside (hout : ttyNum < 1 ∨ numTtys < ttyNum) :
    Con.putCharInside ttyNum c color (Owned.free con) = .ok ((), Owned.free con) := by
  have hchecked : con.putCharChecked ttyNum c color = .ok con := if_pos hout
  have hput : con.CanPut ttyNum := by
    rintro ⟨hlo, hhi⟩
    omega
  unfold Con.putCharInside
  rw [look_bind, hchecked]
  exact Con.putChar_of_checked hput hchecked

/-- A character is written. -/
theorem Con.Displays.putChar (color : UInt32) (h : con.Displays cols rows data ts)
    (hfont : con.fontdata = some (fontdata8x16 data)) (htty : 1 ≤ ttyNum)
    (htty' : ttyNum ≤ numTtys) (hlo : 0 ≤ c) (hhi : c < 128) :
    ∃ con', Con.putCharInside ttyNum c color (Owned.free con) = .ok ((), Owned.free con') ∧
      con'.fontdata = con.fontdata ∧ con'.Displays cols rows data
        (ts.setText (ttyNum - 1) ((ts.text (ttyNum - 1)).put cols rows c color)) := by
  have hshows := h.shows (ttyNum - 1) (by omega) (by omega)
  obtain ⟨screen, hscreen, -⟩ := hshows.buffer
  have hput : con.CanPut ttyNum := fun _ => by
    rw [hscreen, hfont]
    exact ⟨Option.some_ne_none _, Option.some_ne_none _⟩
  obtain ⟨con', hglyph, hwritten⟩ := putGlyphChecked_written ttyNum color h.sized hshows
    hscreen hlo hhi
  have hchecked : con.putCharChecked ttyNum c color = .ok con' :=
    (putCharChecked_eq htty htty' hscreen hfont).trans hglyph
  refine ⟨con', ?_, hwritten.fontdata, hwritten.sized, hwritten.current.trans h.current,
    h.current_pos, h.current_le, ?_, ?_⟩
  · unfold Con.putCharInside
    rw [look_bind, hchecked]
    exact Con.putChar_of_checked hput hchecked
  · intro n hn hn'
    by_cases heq : n = ttyNum - 1
    · rw [heq, Terminals.text_setText_self]
      exact hwritten.shows
    · rw [ts.text_setText_of_ne heq, hwritten.others n heq]
      exact h.shows n hn hn'
  · rw [Terminals.current_setText]
    by_cases heq : ttyNum = ts.current
    · rw [heq, Terminals.text_setText_self, ← heq]
      exact hwritten.drawn (heq.trans h.current.symm) (heq ▸ h.shown)
    · rw [ts.text_setText_of_ne (by omega),
        hwritten.kept fun hshown => heq (hshown.trans h.current)]
      exact h.shown

/-- A string is written. -/
theorem Con.Displays.puts {str : List UInt8} (color : UInt32) (h : con.Displays cols rows data ts)
    (hfont : con.fontdata = some (fontdata8x16 data)) (htty : 1 ≤ ttyNum)
    (htty' : ttyNum ≤ numTtys) (hstr : ∀ b ∈ str, b.toNat < 128) :
    ∃ con', Con.puts ttyNum color str (Owned.free con) = .ok ((), Owned.free con') ∧
      con'.fontdata = con.fontdata ∧ con'.Displays cols rows data
        (ts.setText (ttyNum - 1) ((ts.text (ttyNum - 1)).puts cols rows color str)) := by
  induction str generalizing con ts with
  | nil =>
      refine ⟨con, rfl, rfl, ?_⟩
      have hsame : ts.setText (ttyNum - 1) ((ts.text (ttyNum - 1)).puts cols rows color []) = ts :=
        congrArg (fun text => { ts with text := text }) (Function.update_eq_self _ _)
      rwa [hsame]
  | cons b str ih =>
      obtain ⟨hb, hrest⟩ := List.forall_mem_cons.mp hstr
      have hchar : toChar b = b.toNat := if_pos hb
      obtain ⟨con', hrun, hfont', hdisplays⟩ := h.putChar color hfont htty htty'
        (hchar ▸ Int.natCast_nonneg _ : 0 ≤ toChar b) (by omega)
      obtain ⟨con'', hrun', hfont'', hdisplays'⟩ := ih hdisplays (hfont'.trans hfont) hrest
      refine ⟨con'', ?_, hfont''.trans hfont', ?_⟩
      · unfold Con.puts
        rw [bind_apply_of_ok hrun]
        exact hrun'
      · have hboth : (ts.setText (ttyNum - 1)
            ((ts.text (ttyNum - 1)).put cols rows (toChar b) color)).setText (ttyNum - 1)
              (((ts.setText (ttyNum - 1)
                ((ts.text (ttyNum - 1)).put cols rows (toChar b) color)).text
                (ttyNum - 1)).puts cols rows color str) =
            ts.setText (ttyNum - 1) ((ts.text (ttyNum - 1)).puts cols rows color (b :: str)) := by
          rw [Terminals.text_setText_self]
          exact congrArg (fun text => { ts with text := text }) (Function.update_idem ..)
        rwa [hboth] at hdisplays'

/-- A string that goes to no tty. -/
theorem puts_no_tty {str : List UInt8} (hout : ttyNum < 1 ∨ numTtys < ttyNum) :
    Con.puts ttyNum color str (Owned.free con) = .ok ((), Owned.free con) := by
  induction str with
  | nil => rfl
  | cons b str ih =>
      unfold Con.puts
      rw [bind_apply_of_ok (putCharInside_outside hout)]
      exact ih

/-- What `Redraw` leaves. -/
theorem redraw_run : Con.redraw (Owned.free con) =
    .ok ((), Owned.free (con.copyScreen.setNeedRedraw (con.copyScreen.currentTty - 1) false)) := by
  unfold Con.redraw
  rw [acquire_bind_of_free rfl, assign_bind, assign_bind]
  exact congrArg (fun held => Except.ok ((), (⟨_, held⟩ : Owned LockId Con))) (release_acquire rfl)

/-- What `SwitchTTY` to another terminal leaves. -/
theorem switchTTY_run (h : con.Switches ttyNum) : Con.switchTTY ttyNum (Owned.free con) =
    Con.redraw (Owned.free (con.switchTo ttyNum)) := by
  obtain ⟨hlo, hhi, hother⟩ := h
  unfold Con.switchTTY
  rw [acquire_bind_of_free rfl, look_bind, if_neg (by omega), if_neg hother, assign_bind,
    bind_apply_of_ok (rfl : release LockId.tty _ = .ok (_, _))]
  show Con.redraw ⟨_, Function.update (Function.update (fun _ => false) LockId.tty true)
    LockId.tty false⟩ = _
  rw [release_acquire rfl]

/-- A tty is marked. -/
theorem TTYState.Shows.setNeedRedraw {m n : Int} {b : Bool} {t : TextScreen}
    (h : (con.ttys m).Shows cols rows data t) :
    ((con.setNeedRedraw n b).ttys m).Shows cols rows data t := by
  by_cases heq : m = n
  · subst heq
    rw [Con.setNeedRedraw, setTty_ttys]
    exact ⟨h.xpos, h.ypos, h.col_le, h.row_le, h.buffer⟩
  · have hother : (con.setNeedRedraw n b).ttys m = con.ttys m := Function.update_of_ne heq ..
    rwa [hother]

/-- The screen buffer of the current terminal is copied to the framebuffer, whatever was there. -/
theorem Con.Sized.redraw (hsized : con.Sized cols rows) (ts : Terminals)
    (hcurrent : con.currentTty = ts.current)
    (hpos : 1 ≤ ts.current) (hle : ts.current ≤ numTtys)
    (hshows : ∀ n, 0 ≤ n → n < numTtys → (con.ttys n).Shows cols rows data (ts.text n)) :
    ∃ con', Con.redraw (Owned.free con) = .ok ((), Owned.free con') ∧
      con'.fontdata = con.fontdata ∧ con'.Displays cols rows data ts := by
  obtain ⟨screen, hscreen, hpicture⟩ := (hshows (ts.current - 1) (by omega) (by omega)).buffer
  rw [← hcurrent] at hscreen
  have hcopy : con.copyScreen = { con with
      fb := fun i => if i < u32 (con.width * con.height) then screen i else con.fb i } := by
    unfold Con.copyScreen
    rw [hscreen]
  have hlen : u32 (con.width * con.height) = 8 * cols * (16 * rows) := by
    rw [hsized.width, hsized.height]
    exact Nat.mod_eq_of_lt hsized.small
  refine ⟨_, redraw_run, ?_, ⟨hsized.cols_pos, hsized.rows_pos, ?_, ?_, hsized.small⟩, ?_, hpos,
    hle, fun n hn hn' => TTYState.Shows.setNeedRedraw ?_, ?_⟩
  · rw [hcopy]
    rfl
  · rw [hcopy]
    exact hsized.width
  · rw [hcopy]
    exact hsized.height
  · rw [hcopy]
    exact hcurrent
  · rw [hcopy]
    exact hshows n hn hn'
  · intro x y hx hy
    rw [hcopy, ← hpicture x y hx hy]
    exact if_pos (by rw [hlen]; exact index_lt hx hy)

/-- **The step theorem.** -/
theorem Con.refines : Refines
    (fun (s : Owned LockId Con) ts => ∃ con, s = Owned.free con ∧
      con.fontdata = some (fontdata8x16 data) ∧ con.Displays cols rows data ts)
    (fun _ => Terminals.Admits) Con.exec (Terminals.answer cols rows) := by
  rintro _ ts call ⟨con, rfl, hfont, h⟩ hcall
  cases call with
  | puts ttyNum str color =>
      by_cases htty : 1 ≤ ttyNum ∧ ttyNum ≤ numTtys
      · obtain ⟨con', hrun, hfont', hdisplays⟩ := h.puts color hfont htty.1 htty.2 hcall
        refine Ends.of_ok hrun ⟨rfl, con', rfl, hfont'.trans hfont, ?_⟩
        show con'.Displays cols rows data (ite _ _ _)
        rwa [if_pos htty]
      · refine Ends.of_ok (puts_no_tty (by omega)) ⟨rfl, con, rfl, hfont, ?_⟩
        show con.Displays cols rows data (ite _ _ _)
        rwa [if_neg htty]
  | switchTTY ttyNum =>
      obtain ⟨hlo, hhi, hother⟩ := hcall
      have hrun : Con.switchTTY ttyNum (Owned.free con) =
          Con.redraw (Owned.free (con.switchTo ttyNum)) :=
        switchTTY_run ⟨hlo, hhi, fun heq => hother (heq.trans h.current)⟩
      have hsized : (con.switchTo ttyNum).Sized cols rows :=
        ⟨h.sized.cols_pos, h.sized.rows_pos, h.sized.width, h.sized.height, h.sized.small⟩
      have hshows : ∀ n, 0 ≤ n → n < numTtys →
          ((con.switchTo ttyNum).ttys n).Shows cols rows data (ts.text n) := fun n hn hn' =>
        (h.shows n hn hn').setNeedRedraw.setNeedRedraw
      obtain ⟨con', hrun', hfont', hdisplays⟩ :=
        hsized.redraw (ts.step cols rows (.switchTTY ttyNum)) rfl hlo hhi hshows
      exact Ends.of_ok (hrun.trans hrun') ⟨rfl, con', rfl, hfont'.trans hfont, hdisplays⟩
  | redraw =>
      obtain ⟨con', hrun, hfont', hdisplays⟩ := h.sized.redraw ts h.current h.current_pos
        h.current_le h.shows
      exact Ends.of_ok hrun ⟨rfl, con', rfl, hfont'.trans hfont, hdisplays⟩

end Calls

/-! ## Runs -/

/-- `Service` before it serves: `Init` and `SetFont`, and then the calls. -/
def Con.serve (rgb : Bool) (font : FontData) (calls : List TtyCall) : Locked Con (List Unit) := do
  Con.init rgb
  Con.setFont font
  Program.calls Con.exec calls

section Runs

variable {cols rows : Nat} {data : Nat → UInt8} {con : Con} {calls : List TtyCall}

/-- `Init` shows a blank screen. -/
theorem init_run (data : Nat → UInt8) (hc : con.Sized cols rows) (hcurrent : con.currentTty = 1)
    (hnew : ∀ n, 0 ≤ n → n < numTtys → (con.ttys n).xpos = 0 ∧ (con.ttys n).ypos = 0 ∧
      (con.ttys n).screenBuffer ≠ none) :
    ∃ con', Con.init true (Owned.free con) = .ok ((), Owned.free con') ∧
      con'.Displays cols rows data Terminals.start := by
  have hclear : Con.init true (Owned.free con) = Con.redraw (Owned.free con.clearBuffers) := by
    unfold Con.init
    rw [acquire_bind_of_free rfl, if_pos rfl, assign_bind]
    show (release LockId.tty >>= fun _ => Con.redraw) _ = _
    rw [bind_apply_of_ok (rfl : release LockId.tty _ = .ok (_, _))]
    show Con.redraw ⟨_, Function.update (Function.update (fun _ => false) LockId.tty true)
      LockId.tty false⟩ = _
    rw [release_acquire rfl]
  have hlen : u32 (con.height * con.width) = 8 * cols * (16 * rows) := by
    rw [hc.width, hc.height, Nat.mul_comm]
    exact Nat.mod_eq_of_lt hc.small
  have hblank : ∀ n, 0 ≤ n → n < numTtys →
      (con.clearBuffers.ttys n).Shows cols rows data .blank := by
    intro n hn hn'
    obtain ⟨hx, hy, hbuffer⟩ := hnew n hn hn'
    obtain ⟨screen, hscreen⟩ := Option.ne_none_iff_exists'.mp hbuffer
    have htty : con.clearBuffers.ttys n = { con.ttys n with
        screenBuffer :=
          some fun i => if i < u32 (con.height * con.width) then background else screen i } := by
      simp only [Con.clearBuffers, hscreen, if_pos (show 0 ≤ n ∧ n < numTtys from ⟨hn, hn'⟩)]
    rw [htty]
    refine ⟨hx, hy, Nat.zero_le _, Nat.zero_le _, _, rfl, fun x y hxw hyh => ?_⟩
    exact if_pos (by rw [hlen]; exact index_lt hxw hyh)
  have hsized : con.clearBuffers.Sized cols rows :=
    ⟨hc.cols_pos, hc.rows_pos, hc.width, hc.height, hc.small⟩
  obtain ⟨con', hrun, -, hdisplays⟩ :=
    hsized.redraw Terminals.start hcurrent le_rfl (by decide) hblank
  exact ⟨con', hclear.trans hrun, hdisplays⟩

/-- **What the console shows.**  It starts with six ttys that have memory for their pixels and
their cursors at the top, on a screen of whole cells.  After `Init`, `SetFont` and any calls that
are admitted no lock is held and no index has been outside.  The framebuffer is the picture of what
has been written to the current terminal, and each screen buffer is the picture of what has been
written to the one terminal that it belongs to. -/
theorem console_run (data : Nat → UInt8) (hc : con.Sized cols rows) (hcurrent : con.currentTty = 1)
    (hnew : ∀ n, 0 ≤ n → n < numTtys → (con.ttys n).xpos = 0 ∧ (con.ttys n).ypos = 0 ∧
      (con.ttys n).screenBuffer ≠ none)
    (hcalls : Allowed Terminals.Admits (Terminals.answer cols rows) Terminals.start calls) :
    ∃ rs con', Con.serve true (fontdata8x16 data) calls (Owned.free con) =
        .ok (rs, Owned.free con') ∧
      con'.currentTty = (Terminals.after cols rows calls).current ∧
      Pictures cols rows data con'.fb
        ((Terminals.after cols rows calls).text (con'.currentTty - 1)) ∧
      ∀ n, 0 ≤ n → n < numTtys →
        (con'.ttys n).Shows cols rows data ((Terminals.after cols rows calls).text n) := by
  obtain ⟨con₁, hinit, hstart⟩ := init_run data hc hcurrent hnew
  have hready : Con.Displays cols rows data { con₁ with fontdata := some (fontdata8x16 data) }
      Terminals.start :=
    ⟨⟨hstart.sized.cols_pos, hstart.sized.rows_pos, hstart.sized.width, hstart.sized.height,
      hstart.sized.small⟩, hstart.current, hstart.current_pos, hstart.current_le, hstart.shows,
      hstart.shown⟩
  obtain ⟨rs, s, hrun, -, con', rfl, -, h⟩ := (Con.refines.run ⟨_, rfl, rfl, hready⟩
    hcalls.admitted).exists_ok
  refine ⟨rs, con', ?_, h.current, h.current ▸ h.shown, h.shows⟩
  unfold Con.serve
  rw [bind_apply_of_ok hinit, Con.setFont, assign_bind]
  exact hrun

end Runs

/-- A letter on the third terminal, which is then shown. -/
theorem console_run_third : ∃ rs con', Con.serve true (fontdata8x16 fun _ => 0xff)
      [.puts 3 [65, 10] 0x8f8f8f, .puts 1 [66] 0x8f8f8f, .switchTTY 3]
        (Owned.free (initial 16 16)) = .ok (rs, Owned.free con') ∧ con'.currentTty = 3 ∧
      con'.fb 5 = 0xff8f8f8f := by
  have hc : (initial 16 16).Sized 2 1 := ⟨by decide, by decide, rfl, rfl, by decide⟩
  have hcalls : Allowed Terminals.Admits (Terminals.answer 2 1) Terminals.start
      [.puts 3 [65, 10] 0x8f8f8f, .puts 1 [66] 0x8f8f8f, .switchTTY 3] := by
    refine ⟨fun b hb => ?_, fun b hb => ?_, ⟨by decide, by decide, by decide⟩, trivial⟩
    · simp only [List.mem_cons, List.not_mem_nil, or_false] at hb
      rcases hb with rfl | rfl <;> decide
    · rw [List.mem_singleton.mp hb]
      decide
  obtain ⟨rs, con', hrun, hcurrent, hfb, -⟩ := console_run (fun _ => 0xff) hc rfl
    (fun _ _ _ => ⟨rfl, rfl, Option.some_ne_none _⟩) hcalls
  refine ⟨rs, con', hrun, hcurrent, ?_⟩
  rw [hcurrent] at hfb
  exact hfb 5 0 (by decide) (by decide)

end InfoKernel.Console
