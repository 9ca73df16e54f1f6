import EponaOS.Drivers.Console
import EponaOS.Drivers.Pictures

/-!
# The console in pixels

The calls of `gpu.c` that write text, with a framebuffer. Whatever the console is asked for, the
pixels of its viewport are the glyphs of the cells that the text console has, and nothing beside the
buffer that is drawn on is written.
-/

namespace EponaOS.Drivers.Fb

open Bytes
open Function (update)

structure PixelConsole extends Gpu where
  gCol : Nat
  video : Video

section Calls

variable (font : Font)

def fbDrawCell (con : PixelConsole) (row col : Nat) (ch : UInt8) : PixelConsole :=
  { con with
    video := fbDrawChar font con.toGpu row col ch (con.gColor &&& 0x0F) (con.gColor >>> 4)
      con.video }

def gpuSetColor (con : PixelConsole) (fg bg : UInt8) : PixelConsole :=
  { con with gColor := fg ||| (bg <<< 4) }

def gpuClear (con : PixelConsole) (fg bg : UInt8) : PixelConsole :=
  { con with
    gRow := 0
    gCol := 0
    gColor := fg ||| (bg <<< 4)
    video := fbFillRect con.toGpu 0 0 con.gFbWidth con.gFbHeight (rgbForColor bg) con.video }

def consoleScroll (con : PixelConsole) : PixelConsole :=
  let r := fbScroll con.toGpu con.video
  { con with toGpu := r.1, video := r.2 }

/-- The end of `gpu_putc` -/
def scrollIfBelow (con : PixelConsole) : PixelConsole :=
  if con.gRow ≥ con.gVpRows.toNat then consoleScroll con else con

def advance (con : PixelConsole) : PixelConsole :=
  if con.gCol + 1 ≥ con.gVpCols.toNat then { con with gCol := 0, gRow := con.gRow + 1 }
  else { con with gCol := con.gCol + 1 }

def gpuPutc (con : PixelConsole) (c : UInt8) : PixelConsole :=
  if c = 0x0A then scrollIfBelow { con with gCol := 0, gRow := con.gRow + 1 }
  else if c = 0x0D then scrollIfBelow { con with gCol := 0 }
  else if c = 0x08 then scrollIfBelow { con with gCol := con.gCol - 1 }
  else if c = 0x0C then gpuClear con 0x0F 0x00
  else scrollIfBelow (advance (fbDrawCell font con con.gRow con.gCol c))

def gpuSetCursor (con : PixelConsole) (row col : Nat) : PixelConsole :=
  { con with
    gRow := if row ≥ con.gVpRows.toNat then lastBelow con.gVpRows.toNat else row
    gCol := if col ≥ con.gVpCols.toNat then lastBelow con.gVpCols.toNat else col }

def gpuGetCursor (con : PixelConsole) : Nat × Nat := (con.gRow % 2 ^ 16, con.gCol % 2 ^ 16)

def eraseCells (con : PixelConsole) (r c0 c1 : Nat) : PixelConsole :=
  (List.range' c0 (c1 - c0)).foldl (fun con c => fbDrawCell font con r c 0x20) con

def gpuEraseDisplay (con : PixelConsole) (mode : Int) : PixelConsole :=
  let r0 := if mode = 0 then con.gRow else 0
  let r1 := if mode = 1 then con.gRow + 1 else con.gVpRows.toNat
  let c0 r := if mode = 0 ∧ r = con.gRow then con.gCol else 0
  let c1 r := if mode = 1 ∧ r = con.gRow then con.gCol + 1 else con.gVpCols.toNat
  (List.range' r0 (r1 - r0)).foldl (fun con r => eraseCells font con r (c0 r) (c1 r)) con

def gpuEraseLine (con : PixelConsole) (mode : Int) : PixelConsole :=
  let c0 := if mode = 0 then con.gCol else 0
  let c1 := if mode = 1 then con.gCol + 1 else con.gVpCols.toNat
  eraseCells font con con.gRow c0 c1

end Calls

-- ---------------------------------------------------------------------------
-- Cells as pixels
-- ---------------------------------------------------------------------------

structure Surface (g : Gpu) : Prop extends Target g, ViewportInside g, OnScreen g

variable {g : Gpu} {font : Font} {v v₀ : Video} {pc : PixelConsole} {con : Console}
  {p q : Pixel g} {row col : Nat}

structure Pixel.InViewport (p : Pixel g) : Prop where
  left : g.gVpX.toNat ≤ p.x
  right : p.x < g.gVpX.toNat + g.gVpCols.toNat * FONT_W
  top : g.gVpY.toNat ≤ p.y
  bottom : p.y < g.gVpY.toNat + g.gVpRows.toNat * FONT_H

def Pixel.cell (p : Pixel g) : Nat × Nat :=
  ((p.y - g.gVpY.toNat) / FONT_H, (p.x - g.gVpX.toNat) / FONT_W)

def cellBytes (font : Font) (bpp : Nat) (cell : Cell) (gy gx : Nat) : List UInt8 :=
  pixelBytes bpp (glyphPixel font cell.ch (rgbForColor (cell.color &&& 0x0F))
    (rgbForColor (cell.color >>> 4)) gy gx)

def Pixel.glyph (font : Font) (cells : Nat × Nat → Cell) (p : Pixel g) : List UInt8 :=
  cellBytes font (rtBpp g) (cells p.cell) ((p.y - g.gVpY.toNat) % FONT_H)
    ((p.x - g.gVpX.toNat) % FONT_W)

structure Follows (g : Gpu) (pc : PixelConsole) (con : Console) : Prop where
  gpu : pc.toGpu = { g with gRow := con.row, gColor := con.color }
  col : pc.gCol = con.col
  enabled : con.fbEnabled = true
  cols : con.vpCols = g.gVpCols.toNat
  rows : con.vpRows = g.gVpRows.toNat

structure Drawn (font : Font) (g : Gpu) (v : Video) (pc : PixelConsole) (con : Console) : Prop
    extends Follows g pc con where
  cells : ∀ p : Pixel g, p.InViewport → pixelAt pc.video p = p.glyph font con.cells
  confined : Confined g v pc.video

structure Shows (font : Font) (g : Gpu) (v₀ : Video) (pc : PixelConsole) (con : Console) : Prop
    extends Drawn font g v₀ pc con where
  row_lt : con.row < con.vpRows
  col_lt : con.col < con.vpCols

def SpaceBlank (font : Font) : Prop := ∀ gy < FONT_H, font ((0x20 : UInt8).toNat * FONT_H + gy) = 0

-- ---------------------------------------------------------------------------
-- A cell
-- ---------------------------------------------------------------------------

theorem fbDrawChar_paints (hs : Surface g) (font : Font) (row col : Nat) (ch fg bg : UInt8) :
    Paints g (fbDrawChar font g row col ch fg bg)
      (rectPicture g (.ofNat (g.gVpX.toNat + col * FONT_W)) (.ofNat (g.gVpY.toNat + row * FONT_H))
        FONT_W FONT_H (glyphPixel font ch (rgbForColor fg) (rgbForColor bg))) :=
  paintRect_paints hs.toTarget _ _ (by decide) (by decide) _

theorem Pixel.InViewport.in_cell (hs : Surface g) (hp : p.InViewport)
    (hrow : row < g.gVpRows.toNat) (hcol : col < g.gVpCols.toNat) :
    p.In (.ofNat (g.gVpX.toNat + col * FONT_W)) (.ofNat (g.gVpY.toNat + row * FONT_H)) FONT_W
      FONT_H ↔ p.cell = (row, col) := by
  have hx := offset_of_le p.x_lt_16 hp.left
  have hy := offset_of_le p.y_lt_16 hp.top
  have hright := hs.right
  have hbottom := hs.bottom
  have hw := rtWidth_lt g
  have hh := rtHeight_lt g
  simp only [FONT_W, FONT_H] at *
  rw [Pixel.In, offset_add_lt (by omega), offset_add_lt (by omega), hx, hy, Pixel.cell,
    Prod.mk.injEq]
  simp only [FONT_W, FONT_H]
  omega

theorem Pixel.InViewport.cell_offsets (hs : Surface g) (hp : p.InViewport)
    (hcell : p.cell = (row, col)) :
    offset p.x (.ofNat (g.gVpX.toNat + col * FONT_W)) = (p.x - g.gVpX.toNat) % FONT_W ∧
      offset p.y (.ofNat (g.gVpY.toNat + row * FONT_H)) = (p.y - g.gVpY.toNat) % FONT_H := by
  obtain ⟨hrow, hcol⟩ := Prod.mk.inj hcell
  have hright := hs.right
  have hbottom := hs.bottom
  have hleft := hp.left
  have htop := hp.top
  have hx := p.x_lt_16
  have hy := p.y_lt_16
  simp only [FONT_W, FONT_H] at *
  rw [offset, offset, UInt16.toNat_ofNat', UInt16.toNat_ofNat']
  omega

theorem pixelAt_drawChar (hs : Surface g) (hp : p.InViewport) (hrow : row < g.gVpRows.toNat)
    (hcol : col < g.gVpCols.toNat) (ch color : UInt8) (v : Video) :
    pixelAt (fbDrawChar font g row col ch (color &&& 0x0F) (color >>> 4) v) p =
      if p.cell = (row, col) then
        cellBytes font (rtBpp g) ⟨ch, color⟩ ((p.y - g.gVpY.toNat) % FONT_H)
          ((p.x - g.gVpX.toNat) % FONT_W)
      else pixelAt v p := by
  rw [(fbDrawChar_paints hs font row col ch _ _).seen, rectPicture]
  simp only [hp.in_cell hs hrow hcol]
  split
  · next hcell =>
    obtain ⟨hx, hy⟩ := hp.cell_offsets hs hcell
    rw [hx, hy]
    rfl
  · rfl

theorem Drawn.drawCell (hs : Surface g) (h : Drawn font g v₀ pc con)
    (hrow : row < con.vpRows) (hcol : col < con.vpCols) (ch : UInt8) :
    Drawn font g v₀ (fbDrawCell font pc row col ch) (drawCell con row col ch) := by
  have hplace : con.place row col = (row, col) := if_pos h.enabled
  have hgpu : fbDrawChar font pc.toGpu = fbDrawChar font g := by
    rw [h.gpu]
    rfl
  have hcolor : pc.gColor = con.color := by rw [h.gpu]
  refine ⟨⟨h.gpu, h.col, h.enabled, h.cols, h.rows⟩, fun p hp => ?_, ?_⟩
  · simp only [fbDrawCell, Drivers.drawCell, hgpu, hcolor, hplace]
    rw [pixelAt_drawChar hs hp (h.rows ▸ hrow) (h.cols ▸ hcol), Pixel.glyph]
    split
    · next hcell => rw [hcell, Function.update_self]
    · next hcell => rw [Function.update_of_ne hcell, h.cells p hp, Pixel.glyph]
  · simp only [fbDrawCell, hgpu]
    exact h.confined.trans ((fbDrawChar_paints hs font row col ch _ _).confined _)

-- ---------------------------------------------------------------------------
-- Scrolling
-- ---------------------------------------------------------------------------

theorem pixelAddr_eq (hp : p.InViewport) (k : Nat) :
    pixelAddr g p.x p.y + k = vpByte g (p.x - g.gVpX.toNat) (p.y - g.gVpY.toNat) k := by
  rw [vpByte, Nat.add_sub_cancel' hp.left, Nat.add_sub_cancel' hp.top]

theorem scroll_shifts (hs : Surface g) (hp : p.InViewport) (hq : q.InViewport) (hx : q.x = p.x)
    (hy : q.y = p.y + FONT_H) (v : Video) : pixelAt (fbScroll g v).2 p = pixelAt v q := by
  have hpx := hp.right
  have hqy := hq.bottom
  have hleft := hp.left
  have htop := hp.top
  refine List.map_congr_left fun k hk => ?_
  have hk := List.mem_range.mp hk
  have hi : (p.x - g.gVpX.toNat) * (rtBpp g / 8) + k < rowBytes g := by
    have hrow := Nat.mul_le_mul_right (rtBpp g / 8)
      (show p.x - g.gVpX.toNat + 1 ≤ g.gVpCols.toNat * FONT_W by omega)
    rw [Nat.succ_mul] at hrow
    rw [rowBytes, hs.toViewportInside.sizes.1]
    omega
  have hqp : q.y - g.gVpY.toNat = p.y - g.gVpY.toNat + FONT_H := by omega
  rw [pixelAddr_eq hp, pixelAddr_eq hq, hx, hqp, fill_keeps hs.toTarget hs.toViewportInside,
    ← rowAddr_add, ← rowAddr_add]
  · exact scrollRows_shifts hs.toTarget hs.toViewportInside _ v (by omega) hi
  · intro x' y' k' hx' hy' hlow hk' heq
    have := vpByte_inj hs.toTarget hs.toViewportInside (by omega) hx' hk hk' heq
    omega

theorem scroll_clears (hs : Surface g) (hp : p.InViewport)
    (hlow : g.gVpY.toNat + g.gVpRows.toNat * FONT_H ≤ p.y + FONT_H) (v : Video) :
    pixelAt (fbScroll g v).2 p = pixelBytes (rtBpp g) (rgbForColor (g.gColor >>> 4)) := by
  have hright := hp.right
  have hbottom := hp.bottom
  have hleft := hp.left
  have htop := hp.top
  have hlen := pixelBytes_length hs.toTarget.depth (rgbForColor (g.gColor >>> 4))
  apply List.ext_getElem?
  intro k
  rw [pixelAt, List.getElem?_map]
  obtain hk | hk := Nat.lt_or_ge k (rtBpp g / 8)
  · rw [List.getElem?_range hk, Option.map_some, pixelAddr_eq hp]
    exact fill_sets hs.toTarget hs.toViewportInside v (by omega) (by omega) (by omega) hk
  · rw [List.getElem?_eq_none (by simpa using hk), List.getElem?_eq_none (by omega)]
    rfl

theorem scroll_confined (hs : Surface g) (v : Video) : Confined g v (fbScroll g v).2 where
  beside a ha := by
    have ht := hs.toTarget
    have hv := hs.toViewportInside
    have hout : ∀ x y k, x < g.gVpCols.toNat * FONT_W → y < g.gVpRows.toNat * FONT_H →
        k < rtBpp g / 8 → a ≠ vpByte g x y k := fun x y k hx hy hk heq =>
      ha (heq ▸ vpByte_inBuffer ht hv hx hy hk)
    rw [fill_keeps ht hv v fun x y k hx hy _ hk => hout x y k hx hy hk]
    refine scrollRows_off _ v fun y hy i hi heq => ?_
    obtain ⟨x, k, hx, hk, hbyte⟩ := rowBytes_pixel ht hv hi y
    exact hout x y k hx (by omega) hk (heq.trans hbyte)
  accessed a ha := by
    have hrows := Nat.mul_le_mul_right FONT_H (Nat.succ_le_of_lt hs.rows_pos)
    obtain ha | ha := fbFillRect_accessed hs.toTarget _ _ a ha
    · rw [hs.toViewportInside.sizes.2] at ha
      exact scrollRows_accessed hs.toTarget hs.toViewportInside v (by omega) a ha
    · exact .inr ha

theorem glyphPixel_space (hfont : SpaceBlank font) (hgy : gy < FONT_H) (fg bg gx : Nat) :
    glyphPixel font 0x20 fg bg gy gx = bg := by
  rw [glyphPixel, hfont gy hgy]
  simp

theorem Pixel.InViewport.cell_lt (hp : p.InViewport) :
    p.cell.1 < g.gVpRows.toNat ∧ p.cell.2 < g.gVpCols.toNat := by
  have hright := hp.right
  have hbottom := hp.bottom
  have hleft := hp.left
  have htop := hp.top
  simp only [Pixel.cell, FONT_W, FONT_H] at *
  omega

theorem Pixel.InViewport.below (hs : Surface g) (hp : p.InViewport)
    (hrow : p.cell.1 + 1 < g.gVpRows.toNat) :
    ∃ q : Pixel g, q.InViewport ∧ q.x = p.x ∧ q.y = p.y + FONT_H ∧
      q.cell = (p.cell.1 + 1, p.cell.2) := by
  have hbottom := hs.bottom
  have htop := hp.top
  simp only [Pixel.cell, FONT_H] at hrow hbottom
  refine ⟨⟨p.x, p.y + FONT_H, p.x_lt, ?_⟩, ⟨hp.left, hp.right, ?_, ?_⟩, rfl, rfl, ?_⟩
  · rw [FONT_H]
    omega
  · exact Nat.le_add_right_of_le htop
  · simp only [FONT_H]
    omega
  · simp only [Pixel.cell, FONT_H, Prod.mk.injEq, and_true]
    omega

theorem scrollCells_cells (con : Console) (hrow : row < con.vpRows) (hcol : col < con.vpCols) :
    (scrollCells con con.vpRows con.vpCols).cells (row, col) =
      if row + 1 < con.vpRows then con.cells (row + 1, col) else ⟨0x20, con.color⟩ := by
  simp only [scrollCells, hcol, and_true]
  split
  · rfl
  · rw [if_pos (by omega)]

theorem consoleScroll_cells (hs : Surface g) (h : Follows g pc con) :
    Drivers.consoleScroll con =
      { scrollCells con con.vpRows con.vpCols with
        row := sizePred con.vpRows, scrolled := con.scrolled + 1 } := by
  have hright := hs.right
  have hbottom := hs.bottom
  have hpos := hs.rows_pos
  have hw := rtWidth_lt g
  have hh := rtHeight_lt g
  rw [← h.rows, ← h.cols] at *
  simp only [FONT_W, FONT_H] at hright hbottom
  have hrows : con.scrollRows = con.vpRows := by rw [Viewport.scrollRows]; omega
  have hcols : con.scrollCols = con.vpCols := by rw [Viewport.scrollCols]; omega
  rw [Drivers.consoleScroll, if_pos h.enabled, Drivers.fbScroll, hrows, hcols, if_neg hpos.ne']

theorem fbScroll_gpu (g : Gpu) (v : Video) :
    (fbScroll g v).1 = { g with gRow := sizePred g.gVpRows.toNat } := by
  unfold fbScroll sizePred
  rfl

theorem consoleScroll_gCol (pc : PixelConsole) : (consoleScroll pc).gCol = pc.gCol := by
  unfold consoleScroll
  rfl

theorem Surface.cursor (hs : Surface g) (row : Nat) (color : UInt8) :
    Surface { g with gRow := row, gColor := color } := { hs with }

def Pixel.cursor (p : Pixel g) (row : Nat) (color : UInt8) :
    Pixel { g with gRow := row, gColor := color } := ⟨p.x, p.y, p.x_lt, p.y_lt⟩

theorem Pixel.InViewport.cursor (hp : p.InViewport) (row : Nat) (color : UInt8) :
    (p.cursor row color).InViewport := ⟨hp.left, hp.right, hp.top, hp.bottom⟩

theorem pixelAt_cursor (v : Video) (p : Pixel g) (row : Nat) (color : UInt8) :
    pixelAt v (p.cursor row color) = pixelAt v p := rfl

theorem scroll_glyph (hs : Surface g) (hfont : SpaceBlank font) (hp : p.InViewport)
    (hrows : con.vpRows = g.gVpRows.toNat) (hcols : con.vpCols = g.gVpCols.toNat)
    (hcells : ∀ p : Pixel g, p.InViewport → pixelAt v p = p.glyph font con.cells) :
    pixelAt (fbScroll { g with gRow := con.row, gColor := con.color } v).2 p =
      p.glyph font (scrollCells con con.vpRows con.vpCols).cells := by
  have hs' := hs.cursor con.row con.color
  obtain ⟨hrow, hcol⟩ := hp.cell_lt
  rw [Pixel.glyph, ← Prod.mk.eta (p := p.cell),
    scrollCells_cells con (hrows ▸ hrow) (hcols ▸ hcol)]
  split
  · next hbelow =>
    obtain ⟨q, hq, hx, hy, hcell⟩ := hp.below hs (hrows ▸ hbelow)
    have hshift : pixelAt (fbScroll { g with gRow := con.row, gColor := con.color } v).2 p =
        pixelAt v q := by
      rw [← pixelAt_cursor _ p con.row con.color,
        scroll_shifts hs' (hp.cursor _ _) (hq.cursor _ _) hx hy v, pixelAt_cursor]
    have hline : (q.y - g.gVpY.toNat) % FONT_H = (p.y - g.gVpY.toNat) % FONT_H := by
      have htop := hp.top
      rw [hy, FONT_H]
      omega
    rw [hshift, hcells q hq, Pixel.glyph, hcell, hline, hx]
  · next hlast =>
    have hbottom := hp.bottom
    have htop := hp.top
    have hclear : pixelAt (fbScroll { g with gRow := con.row, gColor := con.color } v).2 p =
        pixelBytes (rtBpp g) (rgbForColor (con.color >>> 4)) := by
      have hlow : g.gVpY.toNat + g.gVpRows.toNat * FONT_H ≤ p.y + FONT_H := by
        rw [hrows, Pixel.cell] at hlast
        simp only [FONT_H] at hlast hbottom ⊢
        omega
      rw [← pixelAt_cursor _ p con.row con.color]
      exact scroll_clears hs' (hp.cursor _ _) hlow v
    rw [hclear, cellBytes, glyphPixel_space hfont (Nat.mod_lt _ (by decide))]

theorem Drawn.consoleScroll (hs : Surface g) (hfont : SpaceBlank font)
    (h : Drawn font g v₀ pc con) : Drawn font g v₀ (consoleScroll pc) (Drivers.consoleScroll con) := by
  have hvideo : (Fb.consoleScroll pc).video =
      (fbScroll { g with gRow := con.row, gColor := con.color } pc.video).2 :=
    congrArg (fun g => (fbScroll g pc.video).2) h.gpu
  rw [consoleScroll_cells hs h.toFollows]
  refine ⟨⟨?_, (consoleScroll_gCol pc).trans h.col, h.enabled, h.cols, h.rows⟩, fun p hp => ?_, ?_⟩
  · have hrow : sizePred pc.gVpRows.toNat = sizePred con.vpRows := by rw [h.rows, h.gpu]
    have hset : ∀ n, { pc.toGpu with gRow := n } = { g with gRow := n, gColor := con.color } := by
      intro n
      rw [h.gpu]
    have hnext := congrArg (fun n => { pc.toGpu with gRow := n }) hrow
    exact (fbScroll_gpu pc.toGpu pc.video).trans (hnext.trans (hset (sizePred con.vpRows)))
  · rw [hvideo]
    exact scroll_glyph hs hfont hp h.rows h.cols h.cells
  · rw [hvideo]
    have hscroll := scroll_confined (hs.cursor con.row con.color) pc.video
    exact h.confined.trans ⟨hscroll.beside, hscroll.accessed⟩

-- ---------------------------------------------------------------------------
-- The calls
-- ---------------------------------------------------------------------------

section Fields

variable (h : Follows g pc con)

include h

theorem Follows.gRow : pc.gRow = con.row := by rw [h.gpu]

theorem Follows.gVpRows : pc.gVpRows.toNat = con.vpRows := by rw [h.gpu, h.rows]

theorem Follows.gVpCols : pc.gVpCols.toNat = con.vpCols := by rw [h.gpu, h.cols]

theorem Follows.con_rows : con.toViewport.rows = con.vpRows := if_pos h.enabled

theorem Follows.con_cols : con.toViewport.cols = con.vpCols := if_pos h.enabled

end Fields

theorem Drawn.move (h : Drawn font g v₀ pc con) (row col : Nat) :
    Drawn font g v₀ { pc with gRow := row, gCol := col } { con with row, col } where
  gpu := congrArg (fun g : Gpu => { g with gRow := row }) h.gpu
  col := rfl
  enabled := h.enabled
  cols := h.cols
  rows := h.rows
  cells := h.cells
  confined := h.confined

theorem Drawn.gpuSetColor (h : Drawn font g v₀ pc con) (fg bg : UInt8) :
    Drawn font g v₀ (gpuSetColor pc fg bg) (Drivers.gpuSetColor con fg bg) where
  gpu := congrArg (fun g : Gpu => { g with gColor := fg ||| (bg <<< 4) }) h.gpu
  col := h.col
  enabled := h.enabled
  cols := h.cols
  rows := h.rows
  cells := h.cells
  confined := h.confined

theorem Drawn.gpuSetCursor (h : Drawn font g v₀ pc con) (row col : Nat) :
    Drawn font g v₀ (gpuSetCursor pc row col) (Drivers.gpuSetCursor con row col) := by
  rw [Fb.gpuSetCursor, Drivers.gpuSetCursor, h.gVpRows, h.gVpCols, h.con_rows, h.con_cols]
  exact h.move _ _

theorem Drawn.scrollIfBelow (hs : Surface g) (hfont : SpaceBlank font)
    (h : Drawn font g v₀ pc con) :
    Drawn font g v₀ (scrollIfBelow pc) (Drivers.scrollIfBelow con) := by
  rw [Fb.scrollIfBelow, Drivers.scrollIfBelow, h.gRow, h.gVpRows, h.con_rows]
  split
  · exact h.consoleScroll hs hfont
  · exact h

theorem Drawn.advance (h : Drawn font g v₀ pc con) :
    Drawn font g v₀ (advance pc) (Drivers.advance con) := by
  rw [Fb.advance, Drivers.advance, h.col, h.gVpCols, h.con_cols, h.gRow]
  split
  · exact h.move (con.row + 1) 0
  · exact { h with col := rfl }

theorem background_eq (hfg : fg < 0x10) (bg : UInt8) :
    rgbForColor ((fg ||| (bg <<< 4)) >>> 4) = rgbForColor bg := by
  have hshift : ∀ b : Fin 256, ((UInt8.ofNat b <<< 4) >>> 4) &&& 0x0F = UInt8.ofNat b &&& 0x0F := by
    decide +kernel
  have hlow : fg >>> 4 = 0 := by
    rw [← UInt8.toNat_inj, UInt8.toNat_shiftRight]
    exact Nat.shiftRight_eq_zero _ _ hfg
  have hbg := hshift ⟨bg.toNat, bg.toNat_lt⟩
  rw [UInt8.ofNat_toNat] at hbg
  rw [rgbForColor, UInt8.shiftRight_or, hlow, UInt8.zero_or, hbg, rgbForColor]

theorem fill_all (hs : Surface g) (p : Pixel g) (rgb : Nat) (v : Video) :
    pixelAt (fbFillRect g 0 0 g.gFbWidth g.gFbHeight rgb v) p = pixelBytes (rtBpp g) rgb := by
  have hx := p.x_lt.trans_le hs.width_le
  have hy := p.y_lt.trans_le hs.height_le
  have hx' : offset p.x 0 = p.x := offset_of_le p.x_lt_16 (Nat.zero_le _)
  have hy' : offset p.y 0 = p.y := offset_of_le p.y_lt_16 (Nat.zero_le _)
  refine (fbFillRect_paints hs.toTarget 0 0 g.gFbWidth g.gFbHeight rgb).some (if_pos ?_) v
  rw [Pixel.In, hx', hy']
  exact ⟨hx, hy⟩

theorem Follows.gpuClear (hs : Surface g) (hfont : SpaceBlank font) (h : Follows g pc con)
    (hv : Confined g v₀ pc.video) (hfg : fg < 0x10) (bg : UInt8) :
    Drawn font g v₀ (gpuClear pc fg bg) (Drivers.gpuClear con fg bg) := by
  have hvideo : (Fb.gpuClear pc fg bg).video =
      fbFillRect g 0 0 g.gFbWidth g.gFbHeight (rgbForColor bg) pc.video := by
    have hfill := congrArg
      (fun g : Gpu => fbFillRect g 0 0 g.gFbWidth g.gFbHeight (rgbForColor bg) pc.video) h.gpu
    exact hfill
  refine ⟨⟨?_, rfl, h.enabled, h.cols, h.rows⟩, fun p _ => ?_, ?_⟩
  · exact congrArg (fun g : Gpu => { g with gRow := 0, gColor := fg ||| (bg <<< 4) }) h.gpu
  · have hcell : (Drivers.gpuClear con fg bg).cells p.cell = ⟨0x20, fg ||| (bg <<< 4)⟩ :=
      if_pos (.inl h.enabled)
    rw [hvideo, fill_all hs, Pixel.glyph, hcell, cellBytes,
      glyphPixel_space hfont (Nat.mod_lt _ (by decide)), background_eq hfg]
  · rw [hvideo]
    exact hv.trans ((fbFillRect_paints hs.toTarget _ _ _ _ _).confined _)

theorem Drawn.eraseCells (hs : Surface g) (h : Drawn font g v₀ pc con) (hrow : row < con.vpRows)
    (c0 : Nat) (hc1 : c1 ≤ con.vpCols) :
    Drawn font g v₀ (eraseCells font pc row c0 c1) (Drivers.eraseCells con row c0 c1) := by
  rw [Fb.eraseCells, Drivers.eraseCells]
  have hmem : ∀ c ∈ List.range' c0 (c1 - c0), c < con.vpCols := fun c hc => by
    have := List.mem_range'_1.mp hc
    omega
  generalize List.range' c0 (c1 - c0) = cs at hmem
  clear hc1
  induction cs generalizing pc con with
  | nil => exact h
  | cons c cs ih =>
    have hdraw := h.drawCell hs hrow (hmem c List.mem_cons_self) 0x20
    exact ih hdraw hrow fun c' hc' => hmem c' (List.mem_cons_of_mem _ hc')

theorem eraseCells_view (con : Console) (r c0 c1 : Nat) :
    (Drivers.eraseCells con r c0 c1).toViewport = con.toViewport :=
  List.foldlRecOn (motive := fun c : Console => c.toViewport = con.toViewport) _ _ rfl
    fun _ h _ _ => h

theorem Drawn.eraseRows (hs : Surface g) (h : Drawn font g v₀ pc con) (rs : List Nat)
    (hrs : ∀ r ∈ rs, r < con.vpRows) (c0 c1 : Nat → Nat) (hc1 : ∀ r, c1 r ≤ con.vpCols) :
    Drawn font g v₀ (rs.foldl (fun pc r => Fb.eraseCells font pc r (c0 r) (c1 r)) pc)
      (rs.foldl (fun con r => Drivers.eraseCells con r (c0 r) (c1 r)) con) := by
  induction rs generalizing pc con with
  | nil => exact h
  | cons r rs ih =>
    have herase := h.eraseCells hs (hrs r List.mem_cons_self) (c0 r) (hc1 r)
    have hview := eraseCells_view con r (c0 r) (c1 r)
    refine ih herase (fun r' hr' => ?_) fun r' => ?_
    · rw [hview]
      exact hrs r' (List.mem_cons_of_mem _ hr')
    · rw [hview]
      exact hc1 r'

-- ---------------------------------------------------------------------------
-- With the cursor inside
-- ---------------------------------------------------------------------------

theorem Shows.inside (h : Shows font g v₀ pc con) : Inside con.toViewport con.events con :=
  ⟨⟨rfl, fun _ he => .inl he⟩, h.con_rows.symm ▸ h.row_lt, h.con_cols.symm ▸ h.col_lt⟩

theorem Drawn.shows {w : Viewport} (h : Drawn font g v₀ pc con) (hin : Inside w es con) :
    Shows font g v₀ pc con where
  toDrawn := h
  row_lt := h.con_rows ▸ hin.view ▸ hin.row
  col_lt := h.con_cols ▸ hin.view ▸ hin.col

theorem Shows.gpuPutc (hs : Surface g) (hfont : SpaceBlank font) (h : Shows font g v₀ pc con)
    (c : UInt8) : Shows font g v₀ (gpuPutc font pc c) (Drivers.gpuPutc con c) := by
  refine Drawn.shows ?_ (h.inside.gpuPutc c)
  rw [Fb.gpuPutc, Drivers.gpuPutc, h.gRow, h.col]
  split_ifs
  · exact (h.move (con.row + 1) 0).scrollIfBelow hs hfont
  · have hreturn : Drawn font g v₀ { pc with gCol := 0 } { con with col := 0 } :=
      { h.toDrawn with col := rfl }
    exact hreturn.scrollIfBelow hs hfont
  · have hback : Drawn font g v₀ { pc with gCol := con.col - 1 } { con with col := con.col - 1 } :=
      { h.toDrawn with col := rfl }
    exact hback.scrollIfBelow hs hfont
  · exact h.toFollows.gpuClear hs hfont h.confined (by decide) 0x00
  · exact ((h.toDrawn.drawCell hs h.row_lt h.col_lt c).advance).scrollIfBelow hs hfont

theorem Shows.gpuSetCursor (h : Shows font g v₀ pc con) (row col : Nat) :
    Shows font g v₀ (gpuSetCursor pc row col) (Drivers.gpuSetCursor con row col) :=
  (h.toDrawn.gpuSetCursor row col).shows (h.inside.gpuSetCursor row col)

theorem Shows.gpuSetColor (h : Shows font g v₀ pc con) (fg bg : UInt8) :
    Shows font g v₀ (gpuSetColor pc fg bg) (Drivers.gpuSetColor con fg bg) :=
  (h.toDrawn.gpuSetColor fg bg).shows (h.inside.gpuSetColor fg bg)

theorem Shows.gpuClear (hs : Surface g) (hfont : SpaceBlank font) (h : Shows font g v₀ pc con)
    (hfg : fg < 0x10) (bg : UInt8) :
    Shows font g v₀ (gpuClear pc fg bg) (Drivers.gpuClear con fg bg) :=
  (h.toFollows.gpuClear hs hfont h.confined hfg bg).shows (h.inside.gpuClear fg bg)

theorem Shows.gpuEraseDisplay (hs : Surface g) (h : Shows font g v₀ pc con) (mode : Int) :
    Shows font g v₀ (gpuEraseDisplay font pc mode) (Drivers.gpuEraseDisplay con mode) := by
  have hrow := h.row_lt
  have hcol := h.col_lt
  refine Drawn.shows ?_ (h.inside.gpuEraseDisplay mode)
  simp only [Fb.gpuEraseDisplay, Drivers.gpuEraseDisplay, h.gRow, h.col, h.gVpRows, h.gVpCols,
    h.con_rows, h.con_cols]
  refine h.toDrawn.eraseRows hs _ (fun r hr => ?_) _ _ fun r => ?_
  · have := List.mem_range'_1.mp hr
    split_ifs at this <;> omega
  · split <;> omega

theorem Shows.gpuEraseLine (hs : Surface g) (h : Shows font g v₀ pc con) (mode : Int) :
    Shows font g v₀ (gpuEraseLine font pc mode) (Drivers.gpuEraseLine con mode) := by
  have hcol := h.col_lt
  refine Drawn.shows ?_ (h.inside.gpuEraseLine mode)
  simp only [Fb.gpuEraseLine, Drivers.gpuEraseLine, h.gRow, h.col, h.gVpCols, h.con_cols]
  refine h.toDrawn.eraseCells hs h.row_lt _ ?_
  split <;> omega

theorem gpuGetCursor_eq (h : Follows g pc con) :
    gpuGetCursor pc = Drivers.gpuGetCursor con := by
  rw [Fb.gpuGetCursor, Drivers.gpuGetCursor, h.gRow, h.col]

-- ---------------------------------------------------------------------------
-- Any calls
-- ---------------------------------------------------------------------------

inductive ConsoleCall
  | putc (c : UInt8)
  | clear (fg bg : UInt8)
  | setColor (fg bg : UInt8)
  | setCursor (row col : Nat)
  | eraseDisplay (mode : Int)
  | eraseLine (mode : Int)

def ConsoleCall.Valid : ConsoleCall → Prop
  | .clear fg _ => fg < 0x10
  | _ => True

def pixelCall (font : Font) (pc : PixelConsole) : ConsoleCall → PixelConsole
  | .putc c => gpuPutc font pc c
  | .clear fg bg => gpuClear pc fg bg
  | .setColor fg bg => gpuSetColor pc fg bg
  | .setCursor row col => gpuSetCursor pc row col
  | .eraseDisplay mode => gpuEraseDisplay font pc mode
  | .eraseLine mode => gpuEraseLine font pc mode

def cellCall (con : Console) : ConsoleCall → Console
  | .putc c => Drivers.gpuPutc con c
  | .clear fg bg => Drivers.gpuClear con fg bg
  | .setColor fg bg => Drivers.gpuSetColor con fg bg
  | .setCursor row col => Drivers.gpuSetCursor con row col
  | .eraseDisplay mode => Drivers.gpuEraseDisplay con mode
  | .eraseLine mode => Drivers.gpuEraseLine con mode

theorem Shows.call (hs : Surface g) (hfont : SpaceBlank font) (h : Shows font g v₀ pc con)
    (c : ConsoleCall) (hc : c.Valid) :
    Shows font g v₀ (pixelCall font pc c) (cellCall con c) := by
  cases c with
  | putc c => exact h.gpuPutc hs hfont c
  | clear fg bg => exact h.gpuClear hs hfont hc bg
  | setColor fg bg => exact h.gpuSetColor fg bg
  | setCursor row col => exact h.gpuSetCursor row col
  | eraseDisplay mode => exact h.gpuEraseDisplay hs mode
  | eraseLine mode => exact h.gpuEraseLine hs mode

theorem Shows.calls (hs : Surface g) (hfont : SpaceBlank font) (h : Shows font g v₀ pc con)
    (cs : List ConsoleCall) (hcs : ∀ c ∈ cs, c.Valid) :
    Shows font g v₀ (cs.foldl (pixelCall font) pc) (cs.foldl cellCall con) := by
  induction cs generalizing pc con with
  | nil => exact h
  | cons c cs ih =>
    exact ih (h.call hs hfont c (hcs c List.mem_cons_self)) fun c' hc' =>
      hcs c' (List.mem_cons_of_mem _ hc')

def viewConsole (g : Gpu) : Console where
  fbEnabled := true
  vpCols := g.gVpCols.toNat
  vpRows := g.gVpRows.toNat
  vpCols_lt := g.gVpCols.toNat_lt
  vpRows_lt := g.gVpRows.toNat_lt
  row := g.gRow
  col := 0
  color := g.gColor
  cells _ := ⟨0x20, g.gColor⟩
  events := []
  scrolled := 0

theorem gpuClear_shows (hs : Surface pc.toGpu) (hfont : SpaceBlank font)
    (hcols : 0 < pc.gVpCols.toNat) (hfg : fg < 0x10) (bg : UInt8) :
    Shows font pc.toGpu pc.video (gpuClear pc fg bg)
      (Drivers.gpuClear (viewConsole pc.toGpu) fg bg) := by
  have hfollows : Follows pc.toGpu { pc with gCol := 0 } (viewConsole pc.toGpu) :=
    ⟨rfl, rfl, rfl, rfl, rfl⟩
  exact ⟨hfollows.gpuClear hs hfont (.refl _) hfg bg, hs.rows_pos, hcols⟩

/-- Once the console was cleared, its pixels are the glyphs of the cells, whatever is called. -/
theorem console_shows_cells (font : Font) (pc : PixelConsole) (hs : Surface pc.toGpu)
    (hfont : SpaceBlank font) (hcols : 0 < pc.gVpCols.toNat) (hfg : fg < 0x10) (bg : UInt8)
    (cs : List ConsoleCall) (hcs : ∀ c ∈ cs, c.Valid) :
    Shows font pc.toGpu pc.video (cs.foldl (pixelCall font) (gpuClear pc fg bg))
      (cs.foldl cellCall (Drivers.gpuClear (viewConsole pc.toGpu) fg bg)) :=
  (gpuClear_shows hs hfont hcols hfg bg).calls hs hfont cs hcs

def textScreen : Gpu :=
  { smallScreen with
    gFbWidth := 16, gFbHeight := 32, gFbPitch := 32, gVpX := 0, gVpY := 0, gVpCols := 2
    gVpRows := 2 }

def blockFont : Font := fun i => if i / FONT_H = 0x20 then 0 else 0xFF

theorem textScreen_surface : Surface textScreen where
  depth := .inl rfl
  pitch := by decide
  rows_pos := by decide
  right := by decide
  bottom := by decide
  enabled := rfl
  width_le := by decide
  height_le := by decide

theorem blockFont_space : SpaceBlank blockFont := by
  unfold SpaceBlank
  decide

def scrollOut : List ConsoleCall := [.putc 0x61, .putc 0x0A, .putc 0x0A]

theorem console_shows_cells_few :
    Shows blockFont textScreen ⟨ascending, []⟩
      (scrollOut.foldl (pixelCall blockFont) (gpuClear ⟨textScreen, 0, ⟨ascending, []⟩⟩ 0x0F 0x00))
      (scrollOut.foldl cellCall (Drivers.gpuClear (viewConsole textScreen) 0x0F 0x00)) :=
  console_shows_cells blockFont ⟨textScreen, 0, ⟨ascending, []⟩⟩ textScreen_surface blockFont_space
    (by decide) (show (0x0F : UInt8) < 0x10 by decide) 0x00 scrollOut
    (by simp [scrollOut, ConsoleCall.Valid])

end EponaOS.Drivers.Fb
