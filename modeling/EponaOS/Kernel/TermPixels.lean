import EponaOS.Drivers.ConsolePixels
import EponaOS.Kernel.WindowContents

/-!
# The terminal in pixels

A terminal that draws on a framebuffer or on the buffer of a window, next to one that has cells.
Whatever bytes come, the parser does the same, and the pixels are the glyphs of the cells.
-/

namespace EponaOS.Kernel

open Drivers

-- ---------------------------------------------------------------------------
-- Two consoles
-- ---------------------------------------------------------------------------

structure Gpu.Simulates (dev : Gpu G) (dev' : Gpu G') (R : G → G' → Prop) : Prop where
  putc : R g g' → R (dev.putc g c) (dev'.putc g' c)
  getCursor : R g g' → dev.getCursor g = dev'.getCursor g'
  setCursor : R g g' → R (dev.setCursor g row col) (dev'.setCursor g' row col)
  eraseDisplay : R g g' → R (dev.eraseDisplay g mode) (dev'.eraseDisplay g' mode)
  eraseLine : R g g' → R (dev.eraseLine g mode) (dev'.eraseLine g' mode)
  setColor : R g g' → R (dev.setColor g fg bg) (dev'.setColor g' fg bg)

structure Terminal.Mirrors (R : G → G' → Prop) (t : Terminal G) (t' : Terminal G') : Prop where
  ctx : t.ctx = t'.ctx
  gpu : R t.gpu t'.gpu
  events : t.events = t'.events

variable {G G' : Type} {dev : Gpu G} {dev' : Gpu G'} {R : G → G' → Prop} {g : G} {g' : G'}
  {t : Terminal G} {t' : Terminal G'}

theorem both_ite [Decidable c] {x y : TermCtx × G} {x' y' : TermCtx × G'}
    (hx : x.1 = x'.1 ∧ R x.2 x'.2) (hy : y.1 = y'.1 ∧ R y.2 y'.2) :
    (if c then x else y).1 = (if c then x' else y').1 ∧
      R (if c then x else y).2 (if c then x' else y').2 := by
  split
  · exact hx
  · exact hy

theorem Gpu.Simulates.csiDispatch (hs : dev.Simulates dev' R) (ctx : TermCtx) (hg : R g g')
    (final : UInt8) :
    (csiDispatch dev ctx g final).1 = (csiDispatch dev' ctx g' final).1 ∧
      R (csiDispatch dev ctx g final).2 (csiDispatch dev' ctx g' final).2 := by
  rw [Kernel.csiDispatch, Kernel.csiDispatch, hs.getCursor hg]
  refine both_ite ⟨rfl, hs.setCursor hg⟩ ?_
  refine both_ite ⟨rfl, hs.setCursor hg⟩ ?_
  refine both_ite ⟨rfl, hs.setCursor hg⟩ ?_
  refine both_ite ⟨rfl, hs.setCursor hg⟩ ?_
  refine both_ite ⟨rfl, hs.setCursor hg⟩ ?_
  refine both_ite ⟨rfl, hs.eraseDisplay hg⟩ ?_
  refine both_ite ⟨rfl, hs.eraseLine hg⟩ ?_
  refine both_ite ⟨rfl, hs.setColor hg⟩ ?_
  refine both_ite ⟨rfl, hg⟩ ?_
  exact both_ite ⟨rfl, hs.setCursor hg⟩ ⟨rfl, hg⟩

theorem Terminal.Mirrors.setCtx (h : t.Mirrors R t') (ctx : TermCtx) :
    (t.setCtx ctx).Mirrors R (t'.setCtx ctx) := ⟨rfl, h.gpu, h.events⟩

theorem Terminal.Mirrors.setState (h : t.Mirrors R t') (state : TermState) :
    (t.setState state).Mirrors R (t'.setState state) :=
  ⟨congrArg (fun ctx : TermCtx => { ctx with state }) h.ctx, h.gpu, h.events⟩

theorem Gpu.Simulates.termCtxPutc (hs : dev.Simulates dev' R) (h : t.Mirrors R t') (b : UInt8) :
    (termCtxPutc dev t b).Mirrors R (termCtxPutc dev' t' b) := by
  rw [Kernel.termCtxPutc, Kernel.termCtxPutc, h.ctx, h.events]
  cases t'.ctx.state with
  | ground =>
    dsimp only
    split
    · exact h.setState .escape
    · exact ⟨rfl, hs.putc h.gpu, rfl⟩
  | escape =>
    dsimp only
    split_ifs
    · exact (h.setCtx _).setState .csi
    · exact h.setState .osc
    · exact h.setState .ground
  | csi =>
    dsimp only
    split_ifs
    · exact h.setCtx _
    · exact h.setCtx _
    · obtain ⟨hctx, hgpu⟩ := hs.csiDispatch t'.ctx h.gpu b
      exact ⟨congrArg (fun ctx : TermCtx => { ctx with state := .ground }) hctx, hgpu, rfl⟩
    · exact h
  | osc =>
    dsimp only
    split
    · exact h.setState .ground
    · exact h

theorem Gpu.Simulates.run (hs : dev.Simulates dev' R) (h : t.Mirrors R t') (bytes : List UInt8) :
    (bytes.foldl (Kernel.termCtxPutc dev) t).Mirrors R
      (bytes.foldl (Kernel.termCtxPutc dev') t') := by
  induction bytes generalizing t t' with
  | nil => exact h
  | cons b bytes ih => exact ih (hs.termCtxPutc h b)

-- ---------------------------------------------------------------------------
-- Pixels and cells
-- ---------------------------------------------------------------------------

section Pixels

open Drivers.Fb

variable {font : Font} {g : Fb.Gpu} {v : Video} {t : Terminal PixelConsole} {t' : Terminal Console}

def gpuPixels (font : Font) : Gpu PixelConsole where
  putc := Fb.gpuPutc font
  getCursor := Fb.gpuGetCursor
  setCursor := Fb.gpuSetCursor
  eraseDisplay := Fb.gpuEraseDisplay font
  eraseLine := Fb.gpuEraseLine font
  setColor := Fb.gpuSetColor

theorem gpuPixels_simulates (hs : Surface g) (hfont : SpaceBlank font) (v : Video) :
    (gpuPixels font).Simulates gpuConsole (Shows font g v) where
  putc h := h.gpuPutc hs hfont _
  getCursor h := gpuGetCursor_eq h.toFollows
  setCursor h := h.gpuSetCursor _ _
  eraseDisplay h := h.gpuEraseDisplay hs _
  eraseLine h := h.gpuEraseLine hs _
  setColor h := h.gpuSetColor _ _

/-- A terminal in pixels does with any bytes what one in cells does, and shows what that one has. -/
theorem terminal_pixels (hs : Surface g) (hfont : SpaceBlank font)
    (h : t.Mirrors (Shows font g v) t') (bytes : List UInt8) :
    (bytes.foldl (termCtxPutc (gpuPixels font)) t).Mirrors (Shows font g v)
      (bytes.foldl (termCtxPutc gpuConsole) t') :=
  (gpuPixels_simulates hs hfont v).run h bytes

-- ---------------------------------------------------------------------------
-- The terminal of a window
-- ---------------------------------------------------------------------------

/-- `gpu_begin_target` and `gpu_set_console_viewport` for the buffer of a window -/
def windowTarget (g : Fb.Gpu) (buf : Nat) (w h : UInt16) : Fb.Gpu :=
  { gpuBeginTarget g buf w h with
    gVpX := 0, gVpY := 0, gVpCols := w / 8, gVpRows := h / 16 }

/-- A buffer with room for a character, of a window that is no larger than the screen -/
structure WindowBuffer (g : Fb.Gpu) (buf : Nat) (w h : UInt16) : Prop where
  enabled : g.gFbEnabled = true
  buf_ne : buf ≠ 0
  cols : 8 ≤ w.toNat
  rows : 16 ≤ h.toNat
  pitch : w.toNat < 2 ^ 14
  width_le : w ≤ g.gFbWidth
  height_le : h ≤ g.gFbHeight

variable {buf : Nat} {w h : UInt16}

theorem WindowBuffer.surface (hb : WindowBuffer g buf w h) : Surface (windowTarget g buf w h) := by
  have ht := (gpuBeginTarget_target hb.buf_ne hb.pitch g h).1
  have hcols : (windowTarget g buf w h).gVpCols.toNat = w.toNat / 8 := UInt16.toNat_div ..
  have hrows : (windowTarget g buf w h).gVpRows.toNat = h.toNat / 16 := UInt16.toNat_div ..
  have hwidth : rtWidth (windowTarget g buf w h) = w.toNat := if_pos hb.buf_ne
  have hheight : rtHeight (windowTarget g buf w h) = h.toNat := if_pos hb.buf_ne
  have hx : (windowTarget g buf w h).gVpX.toNat = 0 := rfl
  have hy : (windowTarget g buf w h).gVpY.toNat = 0 := rfl
  have h16 := hb.rows
  exact {
    depth := ht.depth
    pitch := ht.pitch
    rows_pos := by rw [hrows]; omega
    right := by rw [hx, hcols, hwidth, FONT_W]; omega
    bottom := by rw [hy, hrows, hheight, FONT_H]; omega
    enabled := hb.enabled
    width_le := by rw [hwidth]; exact hb.width_le
    height_le := by rw [hheight]; exact hb.height_le }

def blackConsole (g : Fb.Gpu) : Console := { viewConsole g with cells := fun _ => ⟨0, 0⟩ }

structure BlackBuffer (buf : Nat) (w h : UInt16) (v : Video) : Prop where
  black : ∀ a, buf ≤ a → a < buf + 4 * (w.toNat * h.toNat) → v.bytes a = 0

theorem BlackBuffer.drawn (hb : WindowBuffer g buf w h) (hv : BlackBuffer buf w h v)
    (font : Font) :
    Drawn font (windowTarget g buf w h) v ⟨windowTarget g buf w h, 0, v⟩
      (blackConsole (windowTarget g buf w h)) := by
  obtain ⟨ht, hbuf⟩ := gpuBeginTarget_target hb.buf_ne hb.pitch g h
  have hbpp : rtBpp (windowTarget g buf w h) = 32 := if_pos hb.buf_ne
  refine ⟨⟨rfl, rfl, rfl, rfl, rfl⟩, fun p _ => ?_, .refl v⟩
  have hzero : pixelAt v p = List.replicate 4 0 := by
    rw [pixelAt, hbpp]
    refine List.eq_replicate_iff.mpr ⟨rfl, fun b hmem => ?_⟩
    obtain ⟨k, hk, rfl⟩ := List.mem_map.mp hmem
    have hin := (hbuf _).mp (ht.inBuffer p.x_lt p.y_lt (hbpp ▸ List.mem_range.mp hk))
    exact hv.black _ hin.1 hin.2
  have hfg : rgbForColor (0 &&& 0x0F) = 0 := by decide
  have hbg : rgbForColor ((0 : UInt8) >>> 4) = 0 := by decide
  rw [hzero, Pixel.glyph, hbpp]
  change _ = cellBytes font 32 ⟨0, 0⟩ _ _
  rw [cellBytes, hfg, hbg, glyphPixel, ite_self]
  rfl

/-- `win_render_terminal_init` up to its text, for consoles in pixels and in cells -/
def startTerminal (dev : Gpu G) (g : G) (ctx : TermCtx) : Terminal G :=
  ⟨termCtxInit ctx, dev.setCursor (dev.setColor g 0x0F 0x00) 0 0, []⟩

theorem startTerminal_mirrors (hb : WindowBuffer g buf w h) (hv : BlackBuffer buf w h v)
    (font : Font) (ctx : TermCtx) :
    (startTerminal (gpuPixels font) ⟨windowTarget g buf w h, 0, v⟩ ctx).Mirrors
      (Shows font (windowTarget g buf w h) v)
      (startTerminal gpuConsole (blackConsole (windowTarget g buf w h)) ctx) := by
  have hs := hb.surface
  have hcols : 0 < (w / 8).toNat := by
    have hw := hb.cols
    have hdiv : (w / 8).toNat = w.toNat / 8 := UInt16.toNat_div ..
    omega
  refine ⟨rfl, ⟨((hv.drawn hb font).gpuSetColor 0x0F 0x00).gpuSetCursor 0 0, ?_, ?_⟩, rfl⟩
  · exact (if_neg (Nat.not_le_of_lt hs.rows_pos)).trans_lt hs.rows_pos
  · exact (if_neg (Nat.not_le_of_lt hcols)).trans_lt hcols

/-- The terminal of a window, from its black buffer on: after any bytes the parser is where that of
the terminal with cells is, and the buffer has the glyphs of the cells. -/
theorem terminal_window_pixels (hb : WindowBuffer g buf w h) (hv : BlackBuffer buf w h v)
    (hfont : SpaceBlank font) (ctx : TermCtx) (bytes : List UInt8) :
    (bytes.foldl (termCtxPutc (gpuPixels font))
        (startTerminal (gpuPixels font) ⟨windowTarget g buf w h, 0, v⟩ ctx)).Mirrors
      (Shows font (windowTarget g buf w h) v)
      (bytes.foldl (termCtxPutc gpuConsole)
        (startTerminal gpuConsole (blackConsole (windowTarget g buf w h)) ctx)) :=
  terminal_pixels hb.surface hfont (startTerminal_mirrors hb hv font ctx) bytes

/-- A window of the size of a terminal, at 4 KiB, on a screen of 1024 by 768 -/
def terminalScreen : Fb.Gpu :=
  { smallScreen with gFbWidth := 1024, gFbHeight := 768, gFbPitch := 4096, gFbBpp := 32 }

theorem terminal_window_pixels_greeting :
    ((asciiBytes "EponaOS Terminal\r\n").foldl (termCtxPutc (gpuPixels blockFont))
        (startTerminal (gpuPixels blockFont)
          ⟨windowTarget terminalScreen 0x1000 520 300, 0, ⟨fun _ => 0, []⟩⟩
          (consoleTerminal textConsole).ctx)).Mirrors
      (Shows blockFont (windowTarget terminalScreen 0x1000 520 300) ⟨fun _ => 0, []⟩)
      ((asciiBytes "EponaOS Terminal\r\n").foldl (termCtxPutc gpuConsole)
        (startTerminal gpuConsole (blackConsole (windowTarget terminalScreen 0x1000 520 300))
          (consoleTerminal textConsole).ctx)) :=
  terminal_window_pixels
    ⟨rfl, by decide, by decide, by decide, by decide, by decide, by decide⟩
    ⟨fun _ _ _ => rfl⟩ blockFont_space _ _

end Pixels

end EponaOS.Kernel
