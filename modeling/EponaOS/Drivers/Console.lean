import Mathlib.Logic.Function.Basic
import Mathlib.Tactic.Ring

/-!
# The text console

`gpu.c`: the console is a grid of character cells, either of a viewport of the framebuffer or of
the VGA text memory, with a cursor. A cell of the framebuffer is the rectangle that `fb_draw_char`
paints; how glyphs become pixels is left out. What is drawn and erased is recorded.
-/

namespace EponaOS.Drivers

open Function (update)

structure Cell where
  ch : UInt8
  color : UInt8
  deriving DecidableEq

inductive ConsoleEvent
  /-- A character cell is drawn or erased. -/
  | cell (row col : Nat)
  /-- The whole framebuffer is filled. -/
  | screen
  /-- The rectangle above the viewport is filled. -/
  | above
  deriving DecidableEq

def VGA_COLS : Nat := 80
def VGA_ROWS : Nat := 25

/-- The grid: `g_vp_cols` and `g_vp_rows` of `uint16_t` in the framebuffer, 80x25 in text memory. -/
structure Viewport where
  fbEnabled : Bool
  vpCols : Nat
  vpRows : Nat
  vpCols_lt : vpCols < 2 ^ 16
  vpRows_lt : vpRows < 2 ^ 16

def Viewport.cols (v : Viewport) : Nat := if v.fbEnabled then v.vpCols else VGA_COLS
def Viewport.rows (v : Viewport) : Nat := if v.fbEnabled then v.vpRows else VGA_ROWS

def Viewport.place (v : Viewport) (row col : Nat) : Nat × Nat :=
  if v.fbEnabled then (row, col)
  else ((row * VGA_COLS + col) / VGA_COLS, (row * VGA_COLS + col) % VGA_COLS)

structure Console extends Viewport where
  row : Nat
  col : Nat
  color : UInt8
  cells : Nat × Nat → Cell
  events : List ConsoleEvent
  /-- How many rows went out at the top. -/
  scrolled : Nat

def drawCell (con : Console) (row col : Nat) (ch : UInt8) : Console :=
  let p := con.place row col
  { con with
    cells := update con.cells p ⟨ch, con.color⟩
    events := con.events ++ [.cell p.1 p.2] }

def gpuSetColor (con : Console) (fg bg : UInt8) : Console := { con with color := fg ||| (bg <<< 4) }

-- ---------------------------------------------------------------------------
-- Scrolling
-- ---------------------------------------------------------------------------

/-- The cells of the first `rows` rows and `cols` columns. -/
def gridEvents (rows cols : Nat) : List ConsoleEvent :=
  (List.range rows).flatMap fun r => (List.range cols).map (.cell r)

/-- `rows` rows of `cols` cells go up by one, and the last one is cleared. -/
def scrollCells (con : Console) (rows cols : Nat) : Console :=
  { con with
    cells := fun p =>
      if p.1 + 1 < rows ∧ p.2 < cols then con.cells (p.1 + 1, p.2)
      else if p.1 + 1 = rows ∧ p.2 < cols then ⟨0x20, con.color⟩
      else con.cells p
    events := con.events ++ gridEvents rows cols }

/-- `vp_w_px`, in cells; a width in pixels has 16 bits. -/
def Viewport.scrollCols (v : Viewport) : Nat := v.vpCols * 8 % 2 ^ 16 / 8

/-- `vp_h_px`, in cells -/
def Viewport.scrollRows (v : Viewport) : Nat := v.vpRows * 16 % 2 ^ 16 / 16

/-- `n - 1` of `size_t` -/
def sizePred (n : Nat) : Nat := (n + 2 ^ 64 - 1) % 2 ^ 64

/-- Where nothing is left of the height, the rectangle that is filled is above the viewport. -/
def fbScroll (con : Console) : Console :=
  let con' := if con.scrollRows = 0 then { con with events := con.events ++ [.above] }
    else scrollCells con con.scrollRows con.scrollCols
  { con' with row := sizePred con.vpRows, scrolled := con.scrolled + 1 }

def consoleScroll (con : Console) : Console :=
  if con.fbEnabled then fbScroll con
  else
    { scrollCells con VGA_ROWS VGA_COLS with
      row := VGA_ROWS - 1
      scrolled := con.scrolled + 1 }

-- ---------------------------------------------------------------------------
-- Characters
-- ---------------------------------------------------------------------------

def gpuClear (con : Console) (fg bg : UInt8) : Console :=
  let color := fg ||| (bg <<< 4)
  { con with
    row := 0
    col := 0
    color
    cells := fun p => if con.fbEnabled ∨ p.1 < VGA_ROWS ∧ p.2 < VGA_COLS then ⟨0x20, color⟩
      else con.cells p
    events := con.events ++ if con.fbEnabled then [.screen] else gridEvents VGA_ROWS VGA_COLS }

/-- The end of `gpu_putc`. -/
def scrollIfBelow (con : Console) : Console :=
  if con.row ≥ con.rows then consoleScroll con else con

def advance (con : Console) : Console :=
  if con.col + 1 ≥ con.cols then { con with col := 0, row := con.row + 1 }
  else { con with col := con.col + 1 }

def gpuPutc (con : Console) (c : UInt8) : Console :=
  if c = 0x0A then scrollIfBelow { con with col := 0, row := con.row + 1 }
  else if c = 0x0D then scrollIfBelow { con with col := 0 }
  else if c = 0x08 then scrollIfBelow { con with col := con.col - 1 }
  else if c = 0x0C then gpuClear con 0x0F 0x00
  else scrollIfBelow (advance (drawCell con con.row con.col c))

def gpuPrint (con : Console) (s : List UInt8) : Console := s.foldl gpuPutc con

-- ---------------------------------------------------------------------------
-- The cursor
-- ---------------------------------------------------------------------------

def gpuConsoleCols (con : Console) : Nat := con.cols % 2 ^ 16

/-- `(uint16_t)(bound - 1)` -/
def lastBelow (bound : Nat) : Nat := sizePred bound % 2 ^ 16

def gpuSetCursor (con : Console) (row col : Nat) : Console :=
  { con with
    row := if row ≥ con.rows then lastBelow con.rows else row
    col := if col ≥ con.cols then lastBelow con.cols else col }

def gpuGetCursor (con : Console) : Nat × Nat := (con.row % 2 ^ 16, con.col % 2 ^ 16)

-- ---------------------------------------------------------------------------
-- Erasing
-- ---------------------------------------------------------------------------

def eraseCells (con : Console) (r c0 c1 : Nat) : Console :=
  (List.range' c0 (c1 - c0)).foldl (fun con c => drawCell con r c 0x20) con

def gpuEraseDisplay (con : Console) (mode : Int) : Console :=
  let r0 := if mode = 0 then con.row else 0
  let r1 := if mode = 1 then con.row + 1 else con.rows
  let c0 r := if mode = 0 ∧ r = con.row then con.col else 0
  let c1 r := if mode = 1 ∧ r = con.row then con.col + 1 else con.cols
  (List.range' r0 (r1 - r0)).foldl (fun con r => eraseCells con r (c0 r) (c1 r)) con

def gpuEraseLine (con : Console) (mode : Int) : Console :=
  let c0 := if mode = 0 then con.col else 0
  let c1 := if mode = 1 then con.col + 1 else con.cols
  eraseCells con con.row c0 c1

def textConsole : Console where
  fbEnabled := false
  vpCols := 0
  vpRows := 0
  vpCols_lt := by decide
  vpRows_lt := by decide
  row := 0
  col := 0
  color := 0x0F
  cells _ := ⟨0x20, 0x0F⟩
  events := []
  scrolled := 0

-- ---------------------------------------------------------------------------
-- Inside the viewport
-- ---------------------------------------------------------------------------

/-- Cells are those of the viewport. The whole framebuffer is filled when it is cleared, and the
rectangle above the viewport where the height in pixels has no bits left. -/
def ConsoleEvent.In (v : Viewport) : ConsoleEvent → Prop
  | .cell row col => row < v.rows ∧ col < v.cols
  | .screen => v.fbEnabled = true
  | .above => v.scrollRows = 0

variable {v : Viewport} {es : List ConsoleEvent} {con : Console}

theorem Viewport.cols_lt (v : Viewport) : v.cols < 2 ^ 16 := by
  rw [Viewport.cols]
  split
  · exact v.vpCols_lt
  · decide

theorem Viewport.rows_lt (v : Viewport) : v.rows < 2 ^ 16 := by
  rw [Viewport.rows]
  split
  · exact v.vpRows_lt
  · decide

theorem sizePred_eq (hpos : 0 < n) (hlt : n < 2 ^ 16) : sizePred n = n - 1 := by
  rw [sizePred]
  omega

theorem lastBelow_eq (hpos : 0 < bound) (hlt : bound < 2 ^ 16) : lastBelow bound = bound - 1 := by
  rw [lastBelow, sizePred_eq hpos hlt]
  omega

theorem Viewport.place_eq (v : Viewport) (hcol : col < v.cols) : v.place row col = (row, col) := by
  rw [Viewport.place]
  split
  · rfl
  · next hmode =>
    rw [Viewport.cols, if_neg hmode] at hcol
    rw [Nat.mul_comm, Nat.mul_add_div (by decide), Nat.div_eq_of_lt hcol, Nat.mul_add_mod,
      Nat.mod_eq_of_lt hcol, Nat.add_zero]

structure Records (v : Viewport) (es : List ConsoleEvent) (con : Console) : Prop where
  view : con.toViewport = v
  events : ∀ e ∈ con.events, e ∈ es ∨ e.In v

structure Inside (v : Viewport) (es : List ConsoleEvent) (con : Console) : Prop
    extends Records v es con where
  row : con.row < v.rows
  col : con.col < v.cols

theorem Records.append (h : Records v es con) (hnew : ∀ e ∈ new, e.In v) :
    ∀ e ∈ con.events ++ new, e ∈ es ∨ e.In v := by
  intro e he
  obtain he | he := List.mem_append.mp he
  · exact h.events e he
  · exact .inr (hnew e he)

theorem Records.setRow (h : Records v es con) (row scrolled : Nat) :
    Records v es { con with row, scrolled } :=
  ⟨h.view, h.events⟩

theorem Records.drawCell (h : Records v es con) (hrow : row < v.rows) (hcol : col < v.cols)
    (ch : UInt8) : Records v es (drawCell con row col ch) := by
  refine ⟨h.view, h.append fun e he => ?_⟩
  rw [List.mem_singleton.mp he, h.view, v.place_eq hcol]
  exact ⟨hrow, hcol⟩

theorem gridEvents_in (hrows : rows ≤ v.rows) (hcols : cols ≤ v.cols) :
    ∀ e ∈ gridEvents rows cols, e.In v := by
  intro e he
  obtain ⟨r, hr, he⟩ := List.mem_flatMap.mp he
  obtain ⟨c, hc, rfl⟩ := List.mem_map.mp he
  rw [List.mem_range] at hr hc
  exact ⟨by omega, by omega⟩

theorem Records.scrollCells (h : Records v es con) (hrows : rows ≤ v.rows) (hcols : cols ≤ v.cols) :
    Records v es (scrollCells con rows cols) :=
  ⟨h.view, h.append (gridEvents_in hrows hcols)⟩

theorem Viewport.scrollRows_le (v : Viewport) : v.scrollRows ≤ v.vpRows := by
  rw [Viewport.scrollRows]
  omega

theorem Viewport.scrollCols_le (v : Viewport) : v.scrollCols ≤ v.vpCols := by
  rw [Viewport.scrollCols]
  omega

theorem Records.consoleScroll (h : Records v es con) (hrows : 0 < v.rows)
    (hcol : con.col < v.cols) :
    Inside v es (consoleScroll con) := by
  have hmode : con.fbEnabled = v.fbEnabled := by rw [h.view]
  rw [Drivers.consoleScroll]
  split
  · next hfb =>
    have hvr : v.rows = con.vpRows := by rw [Viewport.rows, ← hmode, if_pos hfb, h.view]
    have hvc : v.cols = con.vpCols := by rw [Viewport.cols, ← hmode, if_pos hfb, h.view]
    have hlt := v.rows_lt
    have hscroll : Records v es (if con.scrollRows = 0
        then { con with events := con.events ++ [.above] }
        else Drivers.scrollCells con con.scrollRows con.scrollCols) := by
      split
      · next hzero =>
        rw [h.view] at hzero
        refine ⟨h.view, h.append fun e he => ?_⟩
        rw [List.mem_singleton.mp he]
        exact hzero
      · refine h.scrollCells ?_ ?_
        · rw [hvr]
          exact con.scrollRows_le
        · rw [hvc]
          exact con.scrollCols_le
    refine ⟨hscroll.setRow _ _, ?_, ?_⟩
    · rw [fbScroll, ← hvr, sizePred_eq hrows hlt]
      exact Nat.sub_lt hrows Nat.one_pos
    · rw [fbScroll]
      simp only
      split <;> exact hcol
  · next hfb =>
    have hvr : v.rows = VGA_ROWS := by rw [Viewport.rows, ← hmode, if_neg hfb]
    have hvc : v.cols = VGA_COLS := by rw [Viewport.cols, ← hmode, if_neg hfb]
    have hscroll : Records v es (Drivers.scrollCells con VGA_ROWS VGA_COLS) :=
      h.scrollCells (Nat.le_of_eq hvr.symm) (Nat.le_of_eq hvc.symm)
    refine ⟨⟨hscroll.view, hscroll.events⟩, ?_, hcol⟩
    rw [hvr]
    exact Nat.sub_lt (by decide) (by decide)

theorem Records.scrollIfBelow (h : Records v es con) (hrows : 0 < v.rows)
    (hcol : con.col < v.cols) :
    Inside v es (scrollIfBelow con) := by
  rw [Drivers.scrollIfBelow]
  split
  · exact h.consoleScroll hrows hcol
  · next hrow =>
    rw [h.view] at hrow
    exact ⟨h, by omega, hcol⟩

theorem Inside.gpuClear (h : Inside v es con) (fg bg : UInt8) :
    Inside v es (gpuClear con fg bg) := by
  have hrow := h.row
  have hcol := h.col
  refine ⟨⟨h.view, h.append fun e he => ?_⟩, ?_, ?_⟩
  · split at he
    · next hmode =>
      rw [List.mem_singleton.mp he]
      rwa [h.view] at hmode
    · next hmode =>
      rw [h.view] at hmode
      refine gridEvents_in ?_ ?_ e he
      · exact Nat.le_of_eq (if_neg hmode).symm
      · exact Nat.le_of_eq (if_neg hmode).symm
  · exact Nat.zero_lt_of_lt hrow
  · exact Nat.zero_lt_of_lt hcol

theorem Inside.gpuPutc (h : Inside v es con) (c : UInt8) : Inside v es (gpuPutc con c) := by
  have hrow := h.row
  have hcol := h.col
  have hrows : 0 < v.rows := Nat.zero_lt_of_lt hrow
  have hcols : 0 < v.cols := Nat.zero_lt_of_lt hcol
  rw [Drivers.gpuPutc]
  split_ifs
  · exact Records.scrollIfBelow ⟨h.view, h.events⟩ hrows hcols
  · exact Records.scrollIfBelow ⟨h.view, h.events⟩ hrows hcols
  · exact Records.scrollIfBelow ⟨h.view, h.events⟩ hrows (Nat.lt_of_le_of_lt (Nat.sub_le ..) hcol)
  · exact h.gpuClear _ _
  · have hdraw := h.drawCell hrow hcol c
    rw [advance]
    split
    · exact Records.scrollIfBelow ⟨hdraw.view, hdraw.events⟩ hrows hcols
    · next hlt =>
      rw [hdraw.view] at hlt
      exact Records.scrollIfBelow ⟨hdraw.view, hdraw.events⟩ hrows (Nat.lt_of_not_le hlt)

theorem Inside.gpuSetCursor (h : Inside v es con) (row col : Nat) :
    Inside v es (gpuSetCursor con row col) := by
  have hrow := h.row
  have hcol := h.col
  have hrows := v.rows_lt
  have hcols := v.cols_lt
  refine ⟨⟨h.view, h.events⟩, ?_, ?_⟩
  · rw [Drivers.gpuSetCursor, h.view, lastBelow_eq (by omega) hrows]
    simp only
    split <;> omega
  · rw [Drivers.gpuSetCursor, h.view, lastBelow_eq (by omega) hcols]
    simp only
    split <;> omega

theorem Inside.gpuSetColor (h : Inside v es con) (fg bg : UInt8) :
    Inside v es (gpuSetColor con fg bg) := ⟨⟨h.view, h.events⟩, h.row, h.col⟩

theorem Inside.eraseCells (h : Inside v es con) (hr : r < v.rows) (c0 : Nat) (hc : c1 ≤ v.cols) :
    Inside v es (eraseCells con r c0 c1) := by
  rw [Drivers.eraseCells]
  have hmem : ∀ c ∈ List.range' c0 (c1 - c0), c < v.cols := by
    intro c hc
    rw [List.mem_range'_1] at hc
    omega
  generalize List.range' c0 (c1 - c0) = cs at hmem
  induction cs generalizing con with
  | nil => exact h
  | cons c cs ih =>
    have hdraw := h.drawCell hr (hmem c (List.mem_cons_self ..)) 0x20
    have hnext : Inside v es (Drivers.drawCell con r c 0x20) := ⟨hdraw, h.row, h.col⟩
    exact ih hnext fun c' hc' => hmem c' (List.mem_cons_of_mem _ hc')

theorem Inside.eraseRows (h : Inside v es con) (rs : List Nat) (hrs : ∀ r ∈ rs, r < v.rows)
    (c0 c1 : Nat → Nat) (hc : ∀ r, c1 r ≤ v.cols) :
    Inside v es (rs.foldl (fun con r => Drivers.eraseCells con r (c0 r) (c1 r)) con) := by
  induction rs generalizing con with
  | nil => exact h
  | cons r rs ih =>
    have hrow := h.eraseCells (hrs r (List.mem_cons_self ..)) (c0 r) (hc r)
    exact ih hrow fun r' hr' => hrs r' (List.mem_cons_of_mem _ hr')

theorem Inside.gpuEraseDisplay (h : Inside v es con) (mode : Int) :
    Inside v es (gpuEraseDisplay con mode) := by
  have hrow := h.row
  have hcol := h.col
  refine h.eraseRows _ (fun r hr => ?_) _ _ fun r => ?_
  · rw [List.mem_range'_1, h.view] at hr
    split_ifs at hr <;> omega
  · rw [h.view]
    split <;> omega

theorem Inside.gpuEraseLine (h : Inside v es con) (mode : Int) :
    Inside v es (gpuEraseLine con mode) := by
  have hcol := h.col
  refine h.eraseCells h.row _ ?_
  rw [h.view]
  split <;> omega

end EponaOS.Drivers
