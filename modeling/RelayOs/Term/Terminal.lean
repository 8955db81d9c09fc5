import RelayOs.Lib.Bytes

/-!
# The terminal

Bytes become actions (`RelayOs.Term.Parser.parse`), and actions change a grid of cells and a picture
of it, pixel by pixel, whose changed lines are copied to the framebuffer
(`RelayOs.Term.Terminal.flush`). Every action but a reset is made of a few changes
(`RelayOs.Term.Closed`), and what these keep, it keeps.
-/

namespace RelayOs.Term

/-! ### Escape sequences -/

/-- **What a terminal is told to do.** -/
inductive Action
  | print (ch : UInt8)
  | control (b : UInt8)
  | csi (params : List ℕ) (isPrivate : Bool) (finalByte : UInt8)
  | reset
  deriving DecidableEq, Repr

/-- Where the parser is in an escape sequence or a character. -/
inductive State
  | ground
  | utf8 (cp remaining : ℕ)
  | escape
  | csi
  deriving DecidableEq, Repr

/-- **The parser**: its state, and the parameters read so far. -/
structure Parser where
  state : State := .ground
  params : List ℕ := List.replicate 8 0
  len : ℕ := 0
  isPrivate : Bool := false
  deriving DecidableEq, Repr

/-- The character, if the font has it, or a question mark. -/
def latin1 (cp : ℕ) : UInt8 :=
  if 0x20 ≤ cp ∧ cp ≤ 0x7E ∨ 0xA0 ≤ cp ∧ cp ≤ 0xFF then UInt8.ofNat cp else 63

namespace Parser

/-- A byte outside of escape sequences. -/
def ground (p : Parser) (b : UInt8) : List Action × Parser :=
  if b = 0x1B then ([], { p with state := .escape })
  else if b = 10 ∨ b = 13 ∨ b = 8 ∨ b = 9 then ([.control b], p)
  else if 0x20 ≤ b ∧ b ≤ 0x7E then ([.print b], p)
  else if 0xC2 ≤ b ∧ b ≤ 0xDF then ([], { p with state := .utf8 (b &&& 0x1F).toNat 1 })
  else if 0xE0 ≤ b ∧ b ≤ 0xEF then ([], { p with state := .utf8 (b &&& 0x0F).toNat 2 })
  else if 0xF0 ≤ b ∧ b ≤ 0xF4 then ([], { p with state := .utf8 (b &&& 0x07).toNat 3 })
  else if 0x80 ≤ b then ([.print 63], p)
  else ([], p)

/-- A byte of a control sequence. -/
def csi (p : Parser) (b : UInt8) : List Action × Parser :=
  let len := if p.len = 0 then 1 else p.len
  if 48 ≤ b ∧ b ≤ 57 then
    let digit v := min 65535 (min 65535 (v * 10) + (b - 48).toNat)
    ([], { p with len, params := p.params.modify (len - 1) digit })
  else if b = 59 then ([], { p with len := min (len + 1) 9 })
  else if b = 63 ∨ b = 62 ∨ b = 61 then ([], { p with isPrivate := true })
  else if 0x40 ≤ b ∧ b ≤ 0x7E then
    ([.csi (p.params.take (min p.len 8)) p.isPrivate b], { p with state := .ground })
  else if b = 0x1B then ([], { p with state := .escape })
  else ([], p)

/-- One byte. -/
def advance (p : Parser) (b : UInt8) : List Action × Parser :=
  match p.state with
  | .ground => p.ground b
  | .utf8 cp remaining =>
    if b &&& 0xC0 ≠ 0x80 then
      let (as, p) := { p with state := .ground }.ground b
      (.print 63 :: as, p)
    else
      let cp := cp <<< 6 ||| (b &&& 0x3F).toNat
      if 1 < remaining then ([], { p with state := .utf8 cp (remaining - 1) })
      else ([.print (latin1 cp)], { p with state := .ground })
  | .escape =>
    if b = 91 then ([], { state := .csi })
    else if b = 99 then ([.reset], { p with state := .ground })
    else ([], { p with state := .ground })
  | .csi => p.csi b

/-- **The actions of some bytes.** -/
def parse (p : Parser) : Bytes → List Action × Parser
  | [] => ([], p)
  | b :: bytes =>
    let (as, p) := p.advance b
    let (rest, p) := p.parse bytes
    (as ++ rest, p)

end Parser

/-! ### The screen -/

/-- A character with its colours. -/
structure Cell where
  ch : UInt8
  fg : ℕ
  bg : ℕ
  deriving DecidableEq, Repr

/-- A blank in the colours at the start. -/
def Cell.BLANK : Cell := ⟨32, 7, 0⟩

/-- The order of the colours in a pixel. -/
inductive PixelFormat
  | rgb
  | bgr

/-- The sixteen colours. -/
def PALETTE : List ℕ :=
  [0x000000, 0xAA0000, 0x00AA00, 0xAA5500, 0x0000AA, 0xAA00AA, 0x00AAAA, 0xAAAAAA, 0x555555,
  0xFF5555, 0x55FF55, 0xFFFF55, 0x5555FF, 0xFF55FF, 0x55FFFF, 0xFFFFFF]

/-- A colour as a pixel of the format. -/
def pixel (format : PixelFormat) (index : ℕ) : ℕ :=
  let rgb := PALETTE.getD (index &&& 0x0F) 0
  match format with
  | .bgr => rgb
  | .rgb => (rgb &&& 0xFF) <<< 16 ||| (rgb >>> 8 &&& 0xFF) <<< 8 ||| (rgb >>> 16 &&& 0xFF)

/-- Glyphs are drawn at twice their size on a wide screen. -/
def scaleOf (width : ℕ) : ℕ := if 1600 ≤ width then 2 else 1

/-- The columns of a screen. -/
def colsOf (width : ℕ) : ℕ := width / (8 * scaleOf width)

/-- The rows of a screen. -/
def rowsOf (width height : ℕ) : ℕ := min (height / (16 * scaleOf width)) 128

/-- The pixel area, of at least one cell, and the font, whose space is empty. -/
structure Screen where
  width : ℕ
  height : ℕ
  format : PixelFormat
  glyphs : UInt8 → ℕ → UInt8
  cols_pos : 0 < colsOf width
  rows_pos : 0 < rowsOf width height
  space : ∀ y, glyphs 32 y = 0

namespace Screen

variable (s : Screen)

/-- How often a pixel of the font is drawn in each direction. -/
def scale : ℕ := scaleOf s.width

/-- The columns. -/
def cols : ℕ := colsOf s.width

/-- The rows. -/
def rows : ℕ := rowsOf s.width s.height

/-- The width of a cell in pixels. -/
def cellWidth : ℕ := 8 * s.scale

/-- The height of a cell in pixels. -/
def cellHeight : ℕ := 16 * s.scale

/-- The pixel of a cell in its line `y` and column `x`. -/
def paint (cell : Cell) (invert : Bool) (y x : ℕ) : ℕ :=
  let fg := if invert then cell.bg else cell.fg
  let bg := if invert then cell.fg else cell.bg
  if s.glyphs cell.ch (y / s.scale) &&& 0x80 >>> UInt8.ofNat (x / s.scale) ≠ 0 then
    pixel s.format fg
  else pixel s.format bg

end Screen

/-! ### The terminal -/

/-- Cells are by row and column, the picture's pixels by line and column. -/
structure Terminal where
  cells : ℕ → ℕ → Cell
  shadow : ℕ → ℕ → ℕ
  cx : ℕ := 0
  cy : ℕ := 0
  fg : ℕ := 7
  bg : ℕ := 0
  bold : Bool := false
  drawnCursor : Option (ℕ × ℕ) := none
  parser : Parser := {}
  dirty : ℕ → Bool := fun _ => false
  flushAll : Bool := true

namespace Terminal

variable (s : Screen) (t : Terminal)

/-- Every pixel of a cell's rectangle is written. -/
def render (col row : ℕ) (invert : Bool) : Terminal :=
  { t with
    shadow := fun y x =>
      if y / s.cellHeight = row ∧ x / s.cellWidth = col then
        s.paint (t.cells row col) invert (y % s.cellHeight) (x % s.cellWidth)
      else t.shadow y x
    dirty := Function.update t.dirty row true }

/-- Draws the cell under the cursor without it. -/
def eraseCursor : Terminal :=
  match t.drawnCursor with
  | some (col, row) => { t with drawnCursor := none }.render s col row false
  | none => t

/-- Draws the cursor. -/
def drawCursor : Terminal :=
  { t.render s (min t.cx (s.cols - 1)) t.cy true with
    drawnCursor := some (min t.cx (s.cols - 1), t.cy) }

/-- **A reset**: everything blank, and all of it to be copied. -/
def reset : Terminal :=
  { t with
    fg := 7, bg := 0, bold := false, cx := 0, cy := 0, drawnCursor := none
    shadow := fun _ _ => pixel s.format 0
    cells := fun _ _ => Cell.BLANK
    flushAll := true }.drawCursor s

/-- The colour characters are drawn in: bold makes it bright. -/
def effectiveFg : ℕ := if t.bold ∧ t.fg < 8 then t.fg + 8 else t.fg

/-- Changes a cell and draws it. -/
def put (col row : ℕ) (cell : Cell) : Terminal :=
  { t with cells := Function.update t.cells row (Function.update (t.cells row) col cell) }.render
    s col row false

/-- Blanks cells of a row. -/
def clearSpan (row start stop : ℕ) : Terminal :=
  let blank : Cell := ⟨32, t.effectiveFg, t.bg⟩
  (List.range' start (stop - start)).foldl (fun t col => t.put s col row blank) t

/-- The rows from `start` up to `stop`, cleared. -/
def clearRows (start stop : ℕ) : Terminal :=
  (List.range' start (stop - start)).foldl (fun t row => t.clearSpan s row 0 s.cols) t

/-- Everything but the last row moved up by one. -/
def shift : Terminal :=
  { t with
    cells := fun row => if row + 1 < s.rows then t.cells (row + 1) else t.cells row
    shadow := fun y => if y < (s.rows - 1) * s.cellHeight then t.shadow (y + s.cellHeight)
      else t.shadow y
    dirty := fun row => row < s.rows || t.dirty row }

/-- Moves all rows up by one. -/
def scrollUp : Terminal := (t.shift s).clearSpan s (s.rows - 1) 0 s.cols

/-- Goes a row down, and scrolls at the last. -/
def lineFeed : Terminal := if t.cy + 1 < s.rows then { t with cy := t.cy + 1 } else t.scrollUp s

/-- One number of a change of colours. -/
def sgr (v : ℕ) : Terminal :=
  if v = 0 then { t with fg := 7, bg := 0, bold := false }
  else if v = 1 then { t with bold := true }
  else if v = 22 then { t with bold := false }
  else if 30 ≤ v ∧ v ≤ 37 then { t with fg := v - 30 }
  else if v = 39 then { t with fg := 7 }
  else if 40 ≤ v ∧ v ≤ 47 then { t with bg := v - 40 }
  else if v = 49 then { t with bg := 0 }
  else if 90 ≤ v ∧ v ≤ 97 then { t with fg := v - 90 + 8 }
  else if 100 ≤ v ∧ v ≤ 107 then { t with bg := v - 100 + 8 }
  else t

/-- A parameter that is missing or 0 is the default. -/
def arg (p : List ℕ) (i default : ℕ) : ℕ :=
  match p[i]? with
  | some v => if v ≠ 0 then v else default
  | none => default

/-- No colour at all is code 0. -/
def codes (p : List ℕ) : List ℕ := if p = [] then [0] else p

/-- **A control sequence.** -/
def csi (p : List ℕ) (finalByte : UInt8) : Terminal :=
  if finalByte = 109 then (codes p).foldl sgr t
  else if finalByte = 74 then
    match arg p 0 0 with
    | 0 => (t.clearSpan s t.cy (min t.cx s.cols) s.cols).clearRows s (t.cy + 1) s.rows
    | 1 => (t.clearRows s 0 t.cy).clearSpan s t.cy 0 (min (t.cx + 1) s.cols)
    | 2 | 3 => t.clearRows s 0 s.rows
    | _ => t
  else if finalByte = 75 then
    match arg p 0 0 with
    | 0 => t.clearSpan s t.cy (min t.cx s.cols) s.cols
    | 1 => t.clearSpan s t.cy 0 (min (t.cx + 1) s.cols)
    | 2 => t.clearSpan s t.cy 0 s.cols
    | _ => t
  else if finalByte = 72 ∨ finalByte = 102 then
    { t with cy := min (arg p 0 1 - 1) (s.rows - 1), cx := min (arg p 1 1 - 1) (s.cols - 1) }
  else if finalByte = 65 then { t with cy := t.cy - arg p 0 1 }
  else if finalByte = 66 then { t with cy := min (t.cy + arg p 0 1) (s.rows - 1) }
  else if finalByte = 67 then { t with cx := min (t.cx + arg p 0 1) (s.cols - 1) }
  else if finalByte = 68 then { t with cx := min t.cx (s.cols - 1) - arg p 0 1 }
  else t

/-- Past the last column a character goes on the next line. -/
def wrap : Terminal := if s.cols ≤ t.cx then { t with cx := 0 }.lineFeed s else t

/-- **One action.** -/
def apply : Action → Terminal
  | .print ch =>
    let t := t.wrap s
    { t.put s t.cx t.cy ⟨ch, t.effectiveFg, t.bg⟩ with cx := t.cx + 1 }
  | .control b =>
    if b = 10 then { t with cx := 0 }.lineFeed s
    else if b = 13 then { t with cx := 0 }
    else if b = 8 then { t with cx := min t.cx (s.cols - 1) - 1 }
    else if b = 9 then
      if t.cx < s.cols then { t with cx := min ((t.cx / 8 + 1) * 8) (s.cols - 1) } else t
    else t
  | .csi params isPrivate finalByte => if isPrivate then t else t.csi s params finalByte
  | .reset => t.reset s

/-- **`write_bytes`.** The parser does not see the terminal. -/
def writeBytes (bytes : Bytes) : Terminal :=
  let (as, parser) := t.parser.parse bytes
  { as.foldl (apply s) (t.eraseCursor s) with parser }.drawCursor s

/-- A terminal at the start. -/
def new : Terminal := reset s { cells := fun _ _ => Cell.BLANK, shadow := fun _ _ => 0 }

/-- One line to a framebuffer whose lines are `stride` pixels apart. -/
def copyLine (stride : ℕ) (fb : ℕ → ℕ) (y : ℕ) : ℕ → ℕ := fun i =>
  if y * stride ≤ i ∧ i < y * stride + s.width then t.shadow y (i - y * stride) else fb i

/-- The lines of the rows marked, or all. -/
def dirtyLines : List ℕ :=
  if t.flushAll then List.range s.height
  else (List.range s.rows).flatMap fun row =>
    if t.dirty row then List.range' (row * s.cellHeight) s.cellHeight else []

/-- **`flush`.** -/
def flush (stride : ℕ) (fb : ℕ → ℕ) : Terminal × (ℕ → ℕ) :=
  ({ t with flushAll := false, dirty := fun row => !t.flushAll && t.dirty row && s.rows ≤ row },
    (t.dirtyLines s).foldl (t.copyLine s stride) fb)

end Terminal

/-! ### What actions are made of -/

section Closed

variable {s : Screen} {t : Terminal} {P : Terminal → Prop}

/-- The cursor is in a row, and in a column or just past the last. -/
def InRange (s : Screen) (t : Terminal) : Prop := t.cx ≤ s.cols ∧ t.cy < s.rows

/-- **A property that the changes keep**: a cell put, the rows moved up, and whatever leaves cells
and picture alone. -/
structure Closed (s : Screen) (P : Terminal → Prop) : Prop where
  put : ∀ t col row cell, col < s.cols → row < s.rows → P t → P (t.put s col row cell)
  shift : ∀ t, P t → P (t.shift s)
  same : ∀ {t t' : Terminal}, P t → t'.cells = t.cells → t'.shadow = t.shadow → t'.dirty = t.dirty →
    t'.flushAll = t.flushAll → P t'

theorem clearSpan_cx (row start stop : ℕ) : (t.clearSpan s row start stop).cx = t.cx :=
  List.foldlRecOn (motive := fun t' : Terminal => t'.cx = t.cx) _ _ rfl fun _ h _ _ => h

theorem lineFeed_cx : (t.lineFeed s).cx = t.cx := by
  rw [Terminal.lineFeed]
  split
  · rfl
  · exact clearSpan_cx ..

namespace Closed

variable (h : Closed s P)

include h

theorem move {t' : Terminal} (ht : InRange s t ∧ P t) (hcells : t'.cells = t.cells)
    (hshadow : t'.shadow = t.shadow)
    (hdirty : t'.dirty = t.dirty) (hflush : t'.flushAll = t.flushAll) (hcx : t'.cx ≤ s.cols)
    (hcy : t'.cy < s.rows) :
    InRange s t' ∧ P t' :=
  ⟨⟨hcx, hcy⟩, h.same ht.2 hcells hshadow hdirty hflush⟩

theorem clearSpan {row start stop : ℕ} (hrow : row < s.rows) (hstop : stop ≤ s.cols)
    (ht : InRange s t ∧ P t) :
    InRange s (t.clearSpan s row start stop) ∧ P (t.clearSpan s row start stop) := by
  refine List.foldlRecOn (motive := fun t => InRange s t ∧ P t) _ _ ht fun t' ht' col hcol => ?_
  rw [List.mem_range'_1] at hcol
  exact ⟨ht'.1, h.put _ _ _ _ (by omega) hrow ht'.2⟩

theorem clearRows {start stop : ℕ} (hstop : stop ≤ s.rows) (ht : InRange s t ∧ P t) :
    InRange s (t.clearRows s start stop) ∧ P (t.clearRows s start stop) := by
  refine List.foldlRecOn (motive := fun t => InRange s t ∧ P t) _ _ ht fun t' ht' row hrow => ?_
  rw [List.mem_range'_1] at hrow
  exact h.clearSpan (by omega) le_rfl ht'

section

variable (ht : InRange s t ∧ P t)

include ht

theorem lineFeed : InRange s (t.lineFeed s) ∧ P (t.lineFeed s) := by
  rw [Terminal.lineFeed]
  split
  · next hmore => exact h.move ht rfl rfl rfl rfl ht.1.1 hmore
  · exact h.clearSpan (Nat.sub_lt s.rows_pos one_pos) le_rfl ⟨ht.1, h.shift _ ht.2⟩

theorem wrap : (InRange s (t.wrap s) ∧ P (t.wrap s)) ∧ (t.wrap s).cx < s.cols := by
  have hcols : 0 < s.cols := s.cols_pos
  rw [Terminal.wrap]
  split
  · exact ⟨h.lineFeed (h.move ht rfl rfl rfl rfl (Nat.zero_le _) ht.1.2),
      lineFeed_cx.trans_lt hcols⟩
  · exact ⟨ht, by omega⟩

theorem sgr {v : ℕ} : InRange s (t.sgr v) ∧ P (t.sgr v) := by
  rw [Terminal.sgr]
  split_ifs <;> exact h.move ht rfl rfl rfl rfl ht.1.1 ht.1.2

theorem csi (p : List ℕ) (b : UInt8) : InRange s (t.csi s p b) ∧ P (t.csi s p b) := by
  have hcols : 0 < s.cols := s.cols_pos
  have hrows : 0 < s.rows := s.rows_pos
  obtain ⟨hcx, hcy⟩ := ht.1
  rw [Terminal.csi]
  split_ifs
  · exact List.foldlRecOn (motive := fun t => InRange s t ∧ P t) _ _ ht fun t' ht' v _ => h.sgr ht'
  · split
    · exact h.clearRows le_rfl (h.clearSpan hcy le_rfl ht)
    · exact h.clearSpan hcy (min_le_right _ _) (h.clearRows hcy.le ht)
    · exact h.clearRows le_rfl ht
    · exact h.clearRows le_rfl ht
    · exact ht
  · split
    · exact h.clearSpan hcy le_rfl ht
    · exact h.clearSpan hcy (min_le_right _ _) ht
    · exact h.clearSpan hcy le_rfl ht
    · exact ht
  any_goals exact ht
  all_goals exact h.move ht rfl rfl rfl rfl (by dsimp only; omega) (by dsimp only; omega)

/-- **An action but a reset keeps it.** -/
theorem apply {a : Action} (ha : a ≠ .reset) : InRange s (t.apply s a) ∧ P (t.apply s a) := by
  have hcols : 0 < s.cols := s.cols_pos
  obtain ⟨hcx, hcy⟩ := ht.1
  cases a with
  | print ch =>
    obtain ⟨ht', hlt⟩ := h.wrap ht
    exact ⟨⟨hlt, ht'.1.2⟩, h.same (h.put _ _ _ _ hlt ht'.1.2 ht'.2) rfl rfl rfl rfl⟩
  | control b =>
    rw [Terminal.apply]
    split_ifs
    · exact h.lineFeed (h.move ht rfl rfl rfl rfl (Nat.zero_le _) hcy)
    any_goals exact ht
    all_goals exact h.move ht rfl rfl rfl rfl (by dsimp only; omega) hcy
  | csi p isPrivate b =>
    rw [Terminal.apply]
    split_ifs
    · exact ht
    · exact h.csi ht p b
  | reset => exact absurd rfl ha

end

end Closed

theorem closed_true : Closed s fun _ => True :=
  ⟨fun _ _ _ _ _ _ => id, fun _ => id, fun h _ _ _ _ => h⟩

theorem inRange_reset (s : Screen) (t : Terminal) : InRange s (t.reset s) :=
  ⟨Nat.zero_le _, s.rows_pos⟩

end Closed

/-! ### The picture -/

section Picture

variable {s : Screen} {t : Terminal} {inverted : ℕ → ℕ → Bool}

/-- The picture is the rendering of every cell, some of them inverted. -/
def Shows (s : Screen) (t : Terminal) (inverted : ℕ → ℕ → Bool) : Prop :=
  ∀ y x, y / s.cellHeight < s.rows → x / s.cellWidth < s.cols → t.shadow y x =
    s.paint (t.cells (y / s.cellHeight) (x / s.cellWidth))
      (inverted (y / s.cellHeight) (x / s.cellWidth))
      (y % s.cellHeight) (x % s.cellWidth)

/-- Whether a cell is the cursor's. -/
def atCursor (s : Screen) (t : Terminal) (row col : ℕ) : Bool :=
  row = t.cy ∧ col = min t.cx (s.cols - 1)

/-- **The picture is the cells**, inverted at the cursor and nowhere else. -/
def Picture (s : Screen) (t : Terminal) : Prop := Shows s t (atCursor s t)

theorem Shows.render (h : Shows s t inverted) (col row : ℕ) (invert : Bool) :
    Shows s (t.render s col row invert) fun r c => if r = row ∧ c = col then invert
      else inverted r c := by
  intro y x hy hx
  dsimp only [Terminal.render]
  by_cases hcell : y / s.cellHeight = row ∧ x / s.cellWidth = col
  · rw [if_pos hcell, if_pos hcell, hcell.1, hcell.2]
  · rw [if_neg hcell, if_neg hcell]
    exact h y x hy hx

theorem cellHeight_pos (s : Screen) : 0 < s.cellHeight := by
  rw [Screen.cellHeight, Screen.scale, scaleOf]
  split <;> norm_num

/-- **The changes keep a picture with nothing inverted.** -/
theorem closed_shows : Closed s fun t => Shows s t fun _ _ => false where
  put t col row cell _ _ h := by
    intro y x hy hx
    dsimp only [Terminal.put, Terminal.render]
    by_cases hcell : y / s.cellHeight = row ∧ x / s.cellWidth = col
    · rw [if_pos hcell, hcell.1, hcell.2]
    · rw [if_neg hcell, h y x hy hx]
      rcases eq_or_ne (y / s.cellHeight) row with hrow | hrow
      · rw [hrow, Function.update_self, Function.update_of_ne fun hcol => hcell ⟨hrow, hcol⟩]
      · rw [Function.update_of_ne hrow]
  shift t h := by
    intro y x hy hx
    dsimp only [Terminal.shift]
    have hlast : y < (s.rows - 1) * s.cellHeight ↔ y / s.cellHeight + 1 < s.rows := by
      refine (Nat.div_lt_iff_lt_mul (cellHeight_pos s)).symm.trans ?_
      generalize y / s.cellHeight = row
      omega
    by_cases hmore : y / s.cellHeight + 1 < s.rows
    · have hline := h (y + s.cellHeight) x (by rwa [Nat.add_div_right _ (cellHeight_pos s)]) hx
      rw [Nat.add_div_right _ (cellHeight_pos s), Nat.add_mod_right] at hline
      rw [if_pos (hlast.mpr hmore), if_pos hmore, hline]
    · rw [if_neg (mt hlast.mp hmore), if_neg hmore, h y x hy hx]
  same {t t'} h hcells hshadow _ _ := by
    intro y x hy hx
    rw [hshadow, hcells]
    exact h y x hy hx

theorem paint_blank (s : Screen) (y x : ℕ) : s.paint Cell.BLANK false y x = pixel s.format 0 := by
  simp [Screen.paint, Cell.BLANK, s.space]

/-- What is inverted, if anything, is the cursor. -/
theorem Shows.drawCursor (h : Shows s t inverted)
    (hcursor : ∀ row col, inverted row col = true → atCursor s t row col = true) :
    Picture s (t.drawCursor s) := by
  intro y x hy hx
  have hinvert : (if y / s.cellHeight = t.cy ∧ x / s.cellWidth = min t.cx (s.cols - 1) then true
      else inverted (y / s.cellHeight) (x / s.cellWidth)) = atCursor s t (y / s.cellHeight)
        (x / s.cellWidth) := by
    split
    · next hcell => exact (decide_eq_true hcell).symm
    · next hcell =>
      rw [atCursor, decide_eq_false hcell, Bool.eq_false_iff]
      exact fun htrue => hcell (of_decide_eq_true (hcursor _ _ htrue))
  have hpixel := h.render (min t.cx (s.cols - 1)) t.cy true y x hy hx
  beta_reduce at hpixel
  rw [hinvert] at hpixel
  exact hpixel

/-- The cursor erased, nothing is inverted. -/
theorem Shows.eraseCursor (h : Picture s t)
    (hdrawn : t.drawnCursor = some (min t.cx (s.cols - 1), t.cy)) :
    Shows s (t.eraseCursor s) fun _ _ => false := by
  intro y x hy hx
  rw [Terminal.eraseCursor, hdrawn]
  have hpixel := h.render (min t.cx (s.cols - 1)) t.cy false y x hy hx
  have hinvert : (if y / s.cellHeight = t.cy ∧ x / s.cellWidth = min t.cx (s.cols - 1) then false
      else atCursor s t (y / s.cellHeight) (x / s.cellWidth)) = false := by
    split
    · rfl
    · next hcell => exact decide_eq_false hcell
  beta_reduce at hpixel
  rw [hinvert] at hpixel
  exact hpixel

/-- With nothing inverted, the cursor alone is drawn. -/
theorem Shows.drawCursor_of_false (h : Shows s t fun _ _ => false) : Picture s (t.drawCursor s) :=
  h.drawCursor fun _ _ hfalse => absurd hfalse Bool.false_ne_true

theorem shows_reset (t : Terminal) : Picture s (t.reset s) :=
  Shows.drawCursor_of_false fun _ _ _ _ => (paint_blank s _ _).symm

/-- **How the terminal is left** between calls. -/
structure Rests (s : Screen) (t : Terminal) : Prop where
  inRange : InRange s t
  drawn : t.drawnCursor = some (min t.cx (s.cols - 1), t.cy)

theorem rests_new : Rests s (Terminal.new s) := ⟨inRange_reset s _, rfl⟩

theorem inRange_eraseCursor (h : InRange s t) : InRange s (t.eraseCursor s) := by
  rw [Terminal.eraseCursor]
  split <;> exact h

theorem inRange_foldl (as : List Action) (h : InRange s t) :
    InRange s (as.foldl (Terminal.apply s) t) := by
  refine List.foldlRecOn (motive := InRange s) _ _ h fun t' ht' a _ => ?_
  by_cases ha : a = .reset
  · rw [ha]
    exact inRange_reset s t'
  · exact (closed_true.apply ⟨ht', trivial⟩ ha).1

theorem Rests.writeBytes (h : Rests s t) (bytes : Bytes) : Rests s (t.writeBytes s bytes) :=
  ⟨inRange_foldl _ (inRange_eraseCursor h.inRange), rfl⟩

theorem shows_foldl {as : List Action} (has : .reset ∉ as) (ht : InRange s t)
    (h : Shows s t fun _ _ => false) :
    Shows s (as.foldl (Terminal.apply s) t) fun _ _ => false := by
  refine (List.foldlRecOn (motive := fun t => InRange s t ∧ Shows s t fun _ _ => false)
    _ _ ⟨ht, h⟩ ?_).2
  exact fun t' ht' a ha => closed_shows.apply ht' fun he => has (he ▸ ha)

/-- A write in which nothing follows a reset. -/
theorem Picture.writeBytes (h : Picture s t) (hrests : Rests s t) {bytes : Bytes}
    (hcalm : .reset ∉ (t.parser.parse bytes).1.dropLast) : Picture s (t.writeBytes s bytes) := by
  have hrange := inRange_eraseCursor hrests.inRange
  have hshows := Shows.eraseCursor h hrests.drawn
  rw [Terminal.writeBytes]
  generalize t.parser.parse bytes = parsed at hcalm ⊢
  obtain ⟨as, p⟩ := parsed
  rcases List.eq_nil_or_concat' as with rfl | ⟨as, a, rfl⟩
  · exact (closed_shows.same hshows rfl rfl rfl rfl).drawCursor_of_false
  · rw [List.dropLast_concat] at hcalm
    dsimp only
    rw [List.foldl_append, List.foldl_cons, List.foldl_nil]
    by_cases ha : a = .reset
    · subst ha
      exact Shows.drawCursor (shows_reset _) fun _ _ => id
    · have hlast := closed_shows.apply ⟨inRange_foldl as hrange, shows_foldl hcalm hrange hshows⟩ ha
      exact (closed_shows.same hlast.2 rfl rfl rfl rfl).drawCursor_of_false

/-- In no write does an action follow a reset. -/
def Calm : Parser → List Bytes → Prop
  | _, [] => True
  | p, bytes :: writes => .reset ∉ (p.parse bytes).1.dropLast ∧ Calm (p.parse bytes).2 writes

theorem Picture.writes (h : Picture s t) (hrests : Rests s t) {writes : List Bytes}
    (hcalm : Calm t.parser writes) :
    Picture s (writes.foldl (Terminal.writeBytes s) t) := by
  induction writes generalizing t with
  | nil => exact h
  | cons bytes writes ih => exact ih (h.writeBytes hrests hcalm.1) (hrests.writeBytes bytes) hcalm.2

/-- **The picture is the cells after every call**, if in no call an action follows a reset. -/
theorem picture_of_calm (s : Screen) (writes : List Bytes) (h : Calm {} writes) :
    Picture s (writes.foldl (Terminal.writeBytes s) (Terminal.new s)) :=
  (shows_reset _).writes rests_new h

/-- A column of two cells. -/
def narrow : Screen := ⟨8, 32, .bgr, fun _ _ => 0, by decide, by decide, fun _ => rfl⟩

/-- **A reset leaves a second cursor** at the first cell, if the cursor then moves: `ESC c` and a
new line. -/
theorem reset_leaves_cursor :
    ¬Picture narrow ((Terminal.new narrow).writeBytes narrow [0x1B, 99, 10]) := by
  intro h
  have hpixel := h 0 0 (by decide) (by decide)
  revert hpixel
  decide

/-- A reset with nothing after it in its call is calm; the new line comes in the next one. -/
theorem picture_of_calm_narrow :
    Picture narrow ([[72, 105], [0x1B], [99], [10]].foldl (Terminal.writeBytes narrow)
      (Terminal.new narrow)) :=
  picture_of_calm narrow [[72, 105], [0x1B], [99], [10]]
    ⟨by decide, by decide, by decide, by decide, trivial⟩

end Picture

/-! ### The framebuffer -/

section Flush

variable {s : Screen} {t t' t'' : Terminal} {stride : ℕ} {fb : ℕ → ℕ}

/-- **What has changed is marked**: as lines of a row that is dirty, or all. -/
structure Marked (s : Screen) (t t' : Terminal) : Prop where
  flushAll : t.flushAll = true → t'.flushAll = true
  dirty : ∀ row, t.dirty row = true → t'.dirty row = true
  shadow : ∀ y x, t'.shadow y x ≠ t.shadow y x →
    t'.flushAll = true ∨ y / s.cellHeight < s.rows ∧ t'.dirty (y / s.cellHeight) = true

namespace Marked

theorem refl (t : Terminal) : Marked s t t := ⟨id, fun _ => id, fun _ _ h => absurd rfl h⟩

theorem trans (h : Marked s t t') (h' : Marked s t' t'') : Marked s t t'' := by
  refine ⟨h'.flushAll ∘ h.flushAll, fun row => h'.dirty row ∘ h.dirty row, fun y x hne => ?_⟩
  rcases eq_or_ne (t''.shadow y x) (t'.shadow y x) with heq | hne'
  · rw [heq] at hne
    exact (h.shadow y x hne).imp h'.flushAll fun hd => ⟨hd.1, h'.dirty _ hd.2⟩
  · exact h'.shadow y x hne'

theorem render (t : Terminal) (col : ℕ) {row : ℕ} (hrow : row < s.rows) (invert : Bool) :
    Marked s t (t.render s col row invert) := by
  refine ⟨id, fun r hr => ?_, fun y x hne => Or.inr ?_⟩
  · dsimp only [Terminal.render]
    rcases eq_or_ne r row with rfl | hne
    · rw [Function.update_self]
    · rwa [Function.update_of_ne hne]
  · have hcell : y / s.cellHeight = row := by
      by_contra hother
      exact hne (if_neg fun h => hother h.1)
    dsimp only [Terminal.render]
    rw [hcell, Function.update_self]
    exact ⟨hrow, rfl⟩

theorem shift : Marked s t (t.shift s) := by
  refine ⟨id, fun row hrow => ?_, fun y x hne => Or.inr ?_⟩
  · dsimp only [Terminal.shift]
    rw [hrow, Bool.or_true]
  · have hlast : y < (s.rows - 1) * s.cellHeight := by
      by_contra hge
      exact hne (congrFun (if_neg hge) x)
    rw [← Nat.div_lt_iff_lt_mul (cellHeight_pos s)] at hlast
    have hrow : y / s.cellHeight < s.rows := by omega
    exact ⟨hrow, by dsimp only [Terminal.shift]; rw [decide_eq_true hrow, Bool.true_or]⟩

theorem put (t : Terminal) (col : ℕ) {row : ℕ} (hrow : row < s.rows) (cell : Cell) :
    Marked s t (t.put s col row cell) := by
  obtain ⟨hflush, hdirty, hshadow⟩ := render
    { t with cells := Function.update t.cells row (Function.update (t.cells row) col cell) }
      col hrow false
  exact ⟨hflush, hdirty, hshadow⟩

theorem closed (t : Terminal) : Closed s (Marked s t) where
  put t' col _ cell _ hrow h := h.trans (put t' col hrow cell)
  shift _ h := h.trans shift
  same h _ hshadow hdirty hflush :=
    h.trans ⟨fun hf => hflush.trans hf, fun row hr => (congrFun hdirty row).trans hr,
    fun y x hne => absurd (congrFun (congrFun hshadow y) x) hne⟩

theorem reset : Marked s t (t.reset s) :=
  ⟨fun _ => rfl, (render t 0 s.rows_pos true).dirty, fun _ _ _ => Or.inl rfl⟩

theorem foldl (as : List Action) (ht : InRange s t) :
    Marked s t (as.foldl (Terminal.apply s) t) := by
  refine (List.foldlRecOn (motive := fun t' => InRange s t' ∧ Marked s t t') _ _ ⟨ht, refl t⟩
    fun t' ht' a _ => ?_).2
  by_cases ha : a = .reset
  · rw [ha]
    exact ⟨inRange_reset s t', ht'.2.trans reset⟩
  · exact (closed t).apply ht' ha

end Marked

theorem Rests.marked (h : Rests s t) (bytes : Bytes) : Marked s t (t.writeBytes s bytes) := by
  have herase : Marked s t (t.eraseCursor s) := by
    rw [Terminal.eraseCursor, h.drawn]
    obtain ⟨hflush, hdirty, hshadow⟩ :=
      Marked.render { t with drawnCursor := none } (min t.cx (s.cols - 1)) h.inRange.2 false
    exact ⟨hflush, hdirty, hshadow⟩
  have hrange := inRange_eraseCursor h.inRange
  refine herase.trans ((Marked.foldl (t.parser.parse bytes).1 hrange).trans ?_)
  obtain ⟨hflush, hdirty, hshadow⟩ :=
    Marked.render _ (min _ (s.cols - 1)) (inRange_foldl _ hrange).2 true
  exact ⟨hflush, hdirty, hshadow⟩

/-- Line `y` and column `x` of the framebuffer are another line's only if that is `y`. -/
theorem line_iff (hstride : s.width ≤ stride) {y y' x : ℕ} (hx : x < s.width) :
    (y' * stride ≤ y * stride + x ∧ y * stride + x < y' * stride + s.width) ↔ y' = y := by
  refine ⟨fun ⟨h1, h2⟩ => ?_, fun h => by subst h; omega⟩
  rcases lt_trichotomy y' y with hlt | heq | hgt
  · have := Nat.mul_le_mul_right stride (Nat.succ_le_of_lt hlt)
    rw [Nat.succ_mul] at this
    omega
  · exact heq
  · have := Nat.mul_le_mul_right stride (Nat.succ_le_of_lt hgt)
    rw [Nat.succ_mul] at this
    omega

theorem foldl_copyLine (hstride : s.width ≤ stride) (lines : List ℕ) {y x : ℕ} (hx : x < s.width) :
    lines.foldl (t.copyLine s stride) fb (y * stride + x) =
      if y ∈ lines then t.shadow y x else fb (y * stride + x) := by
  induction lines generalizing fb with
  | nil => rfl
  | cons y' lines ih =>
    rw [List.foldl_cons, ih, Terminal.copyLine]
    simp only [line_iff hstride hx, List.mem_cons]
    by_cases hmem : y ∈ lines
    · rw [if_pos hmem, if_pos (Or.inr hmem)]
    · rw [if_neg hmem]
      by_cases heq : y' = y
      · rw [if_pos heq, if_pos (Or.inl heq.symm), heq, Nat.add_sub_cancel_left]
      · rw [if_neg heq, if_neg fun h => h.elim (fun h => heq h.symm) hmem]

/-- A pixel of no line is never written. -/
theorem foldl_copyLine_outside {lines : List ℕ} {i : ℕ}
    (h : ∀ y ∈ lines, ¬(y * stride ≤ i ∧ i < y * stride + s.width)) :
    lines.foldl (t.copyLine s stride) fb i = fb i := by
  induction lines generalizing fb with
  | nil => rfl
  | cons y lines ih =>
    rw [List.foldl_cons, ih fun y' hy' => h y' (List.mem_cons_of_mem _ hy'), Terminal.copyLine,
      if_neg (h y List.mem_cons_self)]

theorem rows_mul_le (s : Screen) : s.rows * s.cellHeight ≤ s.height :=
  (Nat.mul_le_mul_right _ (min_le_left _ _)).trans (Nat.div_mul_le_self _ _)

theorem mem_dirtyLines {y : ℕ} : y ∈ t.dirtyLines s ↔
    if t.flushAll then y < s.height else y / s.cellHeight < s.rows ∧
      t.dirty (y / s.cellHeight) = true := by
  have hpos := cellHeight_pos s
  rw [Terminal.dirtyLines]
  split
  · exact List.mem_range
  · rw [List.mem_flatMap]
    constructor
    · rintro ⟨row, hrow, hy⟩
      split at hy
      · next hdirty =>
        rw [List.mem_range'_1] at hy
        have hline : y / s.cellHeight = row := by
          refine Nat.div_eq_of_lt_le hy.1 ?_
          rw [Nat.succ_mul]
          exact hy.2
        rw [hline]
        exact ⟨List.mem_range.mp hrow, hdirty⟩
      · cases hy
    · rintro ⟨hrow, hdirty⟩
      refine ⟨y / s.cellHeight, List.mem_range.mpr hrow, ?_⟩
      rw [if_pos hdirty, List.mem_range'_1]
      exact ⟨Nat.div_mul_le_self _ _, Nat.lt_div_mul_add hpos⟩

theorem lt_height_of_mem {y : ℕ} (h : y ∈ t.dirtyLines s) : y < s.height := by
  rw [mem_dirtyLines] at h
  split at h
  · exact h
  · exact ((Nat.div_lt_iff_lt_mul (cellHeight_pos s)).mp h.1).trans_le (rows_mul_le s)

/-- **What the framebuffer does not show is marked.** -/
def Synced (s : Screen) (stride : ℕ) (t : Terminal) (fb : ℕ → ℕ) : Prop :=
  ∀ y < s.height, ∀ x < s.width, fb (y * stride + x) = t.shadow y x ∨ y ∈ t.dirtyLines s

theorem Synced.mono (h : Synced s stride t fb) (hm : Marked s t t') : Synced s stride t' fb := by
  intro y hy x hx
  have hkeep : y ∈ t.dirtyLines s → y ∈ t'.dirtyLines s := by
    rw [mem_dirtyLines, mem_dirtyLines]
    intro hmem
    split
    · exact hy
    · next hflush =>
      rw [if_neg (mt hm.flushAll hflush)] at hmem
      exact ⟨hmem.1, hm.dirty _ hmem.2⟩
  rcases h y hy x hx with heq | hmem
  · rcases eq_or_ne (t'.shadow y x) (t.shadow y x) with hsame | hne
    · exact Or.inl (heq.trans hsame.symm)
    · refine Or.inr (mem_dirtyLines.mpr ?_)
      rcases hm.shadow y x hne with hflush | hdirty
      · rwa [if_pos hflush]
      · split
        · exact hy
        · exact hdirty
  · exact Or.inr (hkeep hmem)

/-- **A flush shows everything.** -/
theorem Synced.flush (hstride : s.width ≤ stride) (h : Synced s stride t fb) :
    ∀ y < s.height, ∀ x < s.width, (t.flush s stride fb).2 (y * stride + x) = t.shadow y x := by
  intro y hy x hx
  dsimp only [Terminal.flush]
  rw [foldl_copyLine hstride _ hx]
  split
  · rfl
  · next hclean => exact (h y hy x hx).resolve_right hclean

/-- What the kernel asks of the terminal. -/
inductive Call
  | write (bytes : Bytes)
  | flush

/-- A terminal and the framebuffer it is flushed to. -/
def call (s : Screen) (stride : ℕ) (x : Terminal × (ℕ → ℕ)) : Call → Terminal × (ℕ → ℕ)
  | .write bytes => (x.1.writeBytes s bytes, x.2)
  | .flush => x.1.flush s stride x.2

/-- **A run of calls** on a new terminal, with the framebuffer they leave. -/
def run (s : Screen) (stride : ℕ) (fb : ℕ → ℕ) (calls : List Call) : Terminal × (ℕ → ℕ) :=
  calls.foldl (call s stride) (Terminal.new s, fb)

/-- What every call keeps: `fb` is the framebuffer before them. -/
structure Inv (s : Screen) (stride : ℕ) (fb : ℕ → ℕ) (x : Terminal × (ℕ → ℕ)) : Prop where
  rests : Rests s x.1
  synced : Synced s stride x.1 x.2
  outside : ∀ i, (∀ y < s.height, ¬(y * stride ≤ i ∧ i < y * stride + s.width)) → x.2 i = fb i

theorem inv_run (hstride : s.width ≤ stride) (fb : ℕ → ℕ) (calls : List Call) :
    Inv s stride fb (run s stride fb calls) := by
  refine List.foldlRecOn (motive := Inv s stride fb) _ _
    ⟨rests_new, fun y hy x _ => Or.inr (mem_dirtyLines.mpr hy), fun _ _ => rfl⟩
      fun ⟨t, fb'⟩ h c _ => ?_
  cases c with
  | write bytes => exact ⟨h.rests.writeBytes bytes, h.synced.mono (h.rests.marked bytes), h.outside⟩
  | flush =>
    refine ⟨⟨h.rests.inRange, h.rests.drawn⟩,
      fun y hy x hx => Or.inl (h.synced.flush hstride y hy x hx),
      fun i hi => ?_⟩
    exact (foldl_copyLine_outside fun y hy => hi y (lt_height_of_mem hy)).trans (h.outside i hi)

/-- **Flushing is complete**: after each flush the framebuffer shows the picture, and nothing but
its visible pixels is ever written. -/
theorem flush_complete (s : Screen) (stride : ℕ) (hstride : s.width ≤ stride) (fb : ℕ → ℕ)
    (calls : List Call) :
    (∀ y < s.height, ∀ x < s.width, (run s stride fb (calls ++ [.flush])).2 (y * stride + x) =
      (run s stride fb (calls ++ [.flush])).1.shadow y x) ∧
      ∀ i, (∀ y < s.height, ¬(y * stride ≤ i ∧ i < y * stride + s.width)) →
        (run s stride fb calls).2 i = fb i := by
  have h := inv_run hstride fb calls
  refine ⟨fun y hy x hx => ?_, h.outside⟩
  rw [run, List.foldl_append]
  exact h.synced.flush hstride y hy x hx

theorem flush_complete_narrow : (run narrow 8 (fun _ => 1) [.write [72], .flush]).2 0 =
    (run narrow 8 (fun _ => 1) [.write [72], .flush]).1.shadow 0 0 :=
  (flush_complete narrow 8 le_rfl (fun _ => 1) [.write [72]]).1 0 (by decide) 0 (by decide)

end Flush

end RelayOs.Term
