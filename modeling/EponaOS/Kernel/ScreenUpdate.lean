import EponaOS.Kernel.Compositor

/-!
# Updating the screen

`gui.c` draws on the back buffer and copies to the framebuffer what has changed: all of it, the
rectangle around the old and the new place of the pointer, or the client area of a window. After
each step the framebuffer shows what the back buffer has.
-/

namespace EponaOS.Kernel

open Bytes Drivers Drivers.Fb

def CLR_DESKTOP : Nat := 0x0000AA
def CLR_MENU_BG : Nat := 0xBBBBBB
def CLR_TASKBAR : Nat := 0xBBBBBB
def CLR_TASKBAR_TOP : Nat := 0x888888
def CLR_TASKBTN_ACT : Nat := 0x0000AA
def CLR_MENUBTN : Nat := 0x0000AA
def CLR_ICON_BG : Nat := 0xCCCCCC
def CLR_ICON_BORDER : Nat := 0x888888
def TASKBAR_BTN_W : Nat := 110

section Drawing

variable (font : Font) (g : Fb.Gpu)

-- ---------------------------------------------------------------------------
-- What the desktop is drawn with
-- ---------------------------------------------------------------------------

def drawDesktopIcon (x y : UInt16) (label : List UInt8) (color : Nat) (v : Video) : Video :=
  let v := gpuFillRect g x y 40 40 CLR_ICON_BG v
  let v := drawFlatBorder g x y 40 40 CLR_ICON_BORDER v
  let v := gpuFillRect g (x + 6) (y + 4) 28 22 color v
  let lblX : Int := x.toNat + 20 - label.length * 4
  let lblX : Int := if lblX < x.toNat then x.toNat else lblX
  gpuDrawText font g (castU16 lblX) (y + 44) label 0xFFFFFF CLR_DESKTOP v

def desktopIcons : List ((UInt16 × UInt16) × String × Nat) :=
  [((20, 20), "Terminal", 0x000000), ((90, 20), "File Manager", 0x808000),
    ((160, 20), "About", 0x008000), ((230, 20), "Network", 0x000080),
    ((300, 20), "System", 0x800080), ((20, 90), "Run...", 0x808080), ((90, 90), "Help", 0x008080),
    ((160, 90), "Console", 0x444444), ((230, 90), "Settings", 0x804000),
    ((300, 90), "Shutdown", 0xAA0000)]

def drawDesktopIcons (v : Video) : Video :=
  desktopIcons.foldl
    (fun v i => drawDesktopIcon font g i.1.1 i.1.2 (asciiBytes i.2.1) i.2.2 v) v

/-- A button of the taskbar; `max_chars` is 12. -/
def drawTaskButton (w : Window B) (focused : Bool) (bx tbY : Int) (v : Video) : Video :=
  let btnBg := if focused then CLR_TASKBTN_ACT else CLR_TASKBTN
  let btnFg := if focused then 0xFFFFFF else 0x444444
  let v := gpuFillRect g (castU16 bx) (castU16 (tbY + 3)) (.ofNat TASKBAR_BTN_W) 20 btnBg v
  let v := drawFlatBorder g (castU16 bx) (castU16 (tbY + 3)) (.ofNat TASKBAR_BTN_W) 20
    (if focused then 0x000066 else 0x888888) v
  gpuDrawText font g (castU16 (bx + 5)) (castU16 (tbY + 7))
    (w.title.take ((TASKBAR_BTN_W - 10) / 8)) btnFg btnBg v

/-- A round of the loop over the windows; it ends at the first button without room. -/
def taskButtonRound (s : Windows B) (w : UInt16) (tbY : Int) (r : Int × Video) (z : Nat) :
    Int × Video :=
  let win := s.win (s.zorder z)
  if r.1 < w.toNat - 80 ∧ win.used = true then
    (r.1 + TASKBAR_BTN_W + 2, drawTaskButton font g win (z = s.winCount - 1) r.1 tbY r.2)
  else r

/-- `time` is what `read_time` gives. -/
def drawTaskbar (s : Windows B) (time : List UInt8) (w h : UInt16) (v : Video) : Video :=
  let tbY : Int := h.toNat - TASKBAR_H
  let v := gpuFillRect g 0 (castU16 tbY) w (castU16 TASKBAR_H) CLR_TASKBAR v
  let v := gpuFillRect g 0 (castU16 tbY) w 1 CLR_TASKBAR_TOP v
  let v := gpuFillRect g 2 (castU16 (tbY + 3)) 50 20 CLR_MENUBTN v
  let v := drawFlatBorder g 2 (castU16 (tbY + 3)) 50 20 0x000066 v
  let v := gpuDrawText font g 10 (castU16 (tbY + 3 + 5)) (asciiBytes "Menu") 0xFFFFFF CLR_MENUBTN v
  let v := gpuFillRect g 54 (castU16 (tbY + 3)) 1 20 CLR_TASKBAR_TOP v
  let v := ((List.range s.winCount).foldl (taskButtonRound font g s w tbY) (58, v)).2
  let clockX : Int := w.toNat - 60 - 4
  let v := gpuFillRect g (castU16 clockX) (castU16 (tbY + 3)) 60 20 CLR_TASKBAR v
  let v := drawFlatBorder g (castU16 clockX) (castU16 (tbY + 3)) 60 20 0x888888 v
  gpuDrawText font g (castU16 (clockX + 8)) (castU16 (tbY + 3 + 5)) time 0x444444 CLR_TASKBAR v

def menuItems : List String :=
  ["Terminal", "File Manager", "About", "Help", "Run...", "-------", "Shut Down"]

def menuItemRound (r : Int × Video) (item : String) : Int × Video :=
  if item.toList.head? = some '-' then
    (r.1 + 6, gpuFillRect g 6 (castU16 (r.1 + 2)) 172 1 0x888888 r.2)
  else
    let v := gpuFillRect g 4 (castU16 r.1) 176 24 CLR_MENU_BG r.2
    (r.1 + 24, gpuDrawText font g 14 (castU16 (r.1 + 6)) (asciiBytes item) 0x000000 CLR_MENU_BG v)

def drawMenuPanel (screenH : UInt16) (v : Video) : Video :=
  let my : Int := screenH.toNat - TASKBAR_H - 200
  let v := gpuFillRect g 2 (castU16 my) 180 198 CLR_MENU_BG v
  let v := drawFlatBorder g 2 (castU16 my) 180 198 0x888888 v
  let v := gpuFillRect g 3 (castU16 (my + 1)) 178 20 0x0000AA v
  let v := gpuDrawText font g 10 (castU16 (my + 5)) (asciiBytes "EponaOS") 0xFFFFFF 0x0000AA v
  (menuItems.foldl (menuItemRound font g) (my + 24, v)).2

def drawDesktop (s : Windows B) (time : List UInt8) (w h : UInt16) (v : Video) : Video :=
  let v := gpuFillRect g 0 0 w h CLR_DESKTOP v
  drawTaskbar font g s time w h (drawDesktopIcons font g v)

-- ---------------------------------------------------------------------------
-- The pointer
-- ---------------------------------------------------------------------------

def cursorW : Nat := 12
def cursorH : Nat := 16

def cursorBitmap : List String :=
  ["X...........", "XX..........", "XXX.........", "XXXX........", "XXXXX.......", "XXXXXX......",
    "XXXXXXX.....", "XXXXXXXX....", "XXXXXXXXX...", "XX..XXXXX...", "X...XXXX....", "....XXXX....",
    "...XXX......", "...XXX......", "..XX........", "..XX........"]

/-- `cursor[yy][xx] == 'X'` -/
def cursorDot (yy xx : Nat) : Bool :=
  (cursorBitmap[yy]?.bind fun row => row.toList[xx]?) == some 'X'

def drawCursorBitmap (b : Pointer) (v : Video) : Video :=
  nested (List.range cursorH) (List.range cursorW) (fun v yy xx =>
    if cursorDot yy xx then gpuPutPixel g (castU16 (b.x + xx)) (castU16 (b.y + yy)) 0x000000 v
    else v) v

structure PointerScreen where
  video : Video
  cursorBg : Int → Nat
  cursorSaved : Bool
  cursorX : Int
  cursorY : Int

def saveCursorBg (s : PointerScreen) (p : Pointer) : PointerScreen :=
  { s with
    cursorBg := gpuSaveRegion g s.cursorBg (castU16 p.x) (castU16 p.y) (.ofNat cursorW)
      (.ofNat cursorH) s.video.bytes
    cursorX := p.x
    cursorY := p.y
    cursorSaved := true }

def restoreCursorBg (s : PointerScreen) : PointerScreen :=
  if s.cursorSaved then
    { s with
      video := gpuRestoreRegion g s.cursorBg (castU16 s.cursorX) (castU16 s.cursorY)
        (.ofNat cursorW) (.ofNat cursorH) s.video
      cursorSaved := false }
  else s

/-- Behind `cursor_init` -/
def drawCursorAt (s : PointerScreen) (p : Pointer) : PointerScreen :=
  let s := saveCursorBg g s p
  { s with video := drawCursorBitmap g p s.video }

-- ---------------------------------------------------------------------------
-- Copying to the framebuffer
-- ---------------------------------------------------------------------------

def gpuFlip (v : Video) : Video :=
  if !g.gFbEnabled ∨ g.gFbBack = 0 then v
  else fbBlitRow g.gFb g.gFbBack (g.gFbPitch.toNat * g.gFbHeight.toNat) v

/-- The rows of `gpu_flip_rect` -/
def flipRows (x y w : Nat) (rows : Nat) (v : Video) : Video :=
  let bpp := g.gFbBpp.toNat / 8
  (List.range rows).foldl (fun v row =>
    let off := (y + row) * g.gFbPitch.toNat + x * bpp
    fbBlitRow (g.gFb + off) (g.gFbBack + off) (w * bpp) v) v

def gpuFlipRect (x y w h : UInt16) (v : Video) : Video :=
  if !g.gFbEnabled ∨ g.gFbBack = 0 then v
  else if x ≥ g.gFbWidth ∨ y ≥ g.gFbHeight then v
  else
    let w := if x.toNat + w.toNat > g.gFbWidth.toNat then g.gFbWidth - x else w
    let h := if y.toNat + h.toNat > g.gFbHeight.toNat then g.gFbHeight - y else h
    flipRows g x.toNat y.toNat w.toNat h.toNat v

-- ---------------------------------------------------------------------------
-- The loop
-- ---------------------------------------------------------------------------

structure Scene where
  windows : Windows (Int → Nat)
  menuOpen : Bool
  time : List UInt8

/-- A round of the loop behind the events of the pointer, with a redraw or without one, or a key
that is fed to the terminal `w`; `mx` and `my` are what `mouse_get_state` gives. -/
inductive ScreenStep
  | redraw (scene : Scene) (mx my : Int)
  | moved (mx my : Int)
  | output (w : Window (Int → Nat))

def drawScene (null : Int → Nat) (scene : Scene) (v : Video) : Video :=
  let v := drawDesktop font g scene.windows scene.time g.gFbWidth g.gFbHeight v
  let v := composeWindows font g null scene.windows v
  if scene.menuOpen then drawMenuPanel font g g.gFbHeight v else v

def redraw (null : Int → Nat) (s : PointerScreen) (scene : Scene) (p : Pointer) : PointerScreen :=
  let s := restoreCursorBg g s
  { s with video := gpuFlip g (drawCursorBitmap g p (drawScene font g null scene s.video)) }

/-- `rx0` and `ry0` -/
def boxStart (hadOld : Bool) (old new : Int) : Int :=
  if hadOld then (if old < new then old else new) else new

/-- `rx1` and `ry1` -/
def boxEnd (hadOld : Bool) (old new : Int) (size : Nat) : Int :=
  if hadOld then (if old > new then old else new) + size else new + size

def moved (s : PointerScreen) (p : Pointer) : PointerScreen :=
  let rx0 := boxStart s.cursorSaved s.cursorX p.x
  let ry0 := boxStart s.cursorSaved s.cursorY p.y
  let rx1 := boxEnd s.cursorSaved s.cursorX p.x cursorW
  let ry1 := boxEnd s.cursorSaved s.cursorY p.y cursorH
  let s := drawCursorAt g (restoreCursorBg g s) p
  { s with
    video := gpuFlipRect g (castU16 rx0) (castU16 ry0) (castU16 (rx1 - rx0)) (castU16 (ry1 - ry0))
      s.video }

def output (null : Int → Nat) (s : PointerScreen) (w : Window (Int → Nat)) : PointerScreen :=
  let v := gpuBlitBuffer g (windowPixels null w) (castU16 w.cw) (castU16 w.ch)
    (castU16 (winClientX w)) (castU16 (winClientY w)) s.video
  { s with
    video := gpuFlipRect g (castU16 (winClientX w)) (castU16 (winClientY w)) (castU16 w.cw)
      (castU16 w.ch) v }

/-- `gui_run_desktop` up to its loop -/
def screenStart (null : Int → Nat) (s : PointerScreen) (scene : Scene) : PointerScreen :=
  let v := drawDesktop font g scene.windows scene.time g.gFbWidth g.gFbHeight s.video
  { s with video := gpuFlip g (composeWindows font g null scene.windows v), cursorSaved := false }

def pointerAt (mx my : Int) : Pointer := readPointer ⟨g.gFbWidth, g.gFbHeight⟩ mx my

def screenStep (null : Int → Nat) (s : PointerScreen) : ScreenStep → PointerScreen
  | .redraw scene mx my => redraw font g null s scene (pointerAt g mx my)
  | .moved mx my => moved g s (pointerAt g mx my)
  | .output w => output g null s w

def screenRun (null : Int → Nat) (s : PointerScreen) (scene : Scene) (steps : List ScreenStep) :
    PointerScreen :=
  steps.foldl (screenStep font g null) (screenStart font g null s scene)

def pointerRun (null : Int → Nat) (s : PointerScreen) (moves : List (Int × Int)) : PointerScreen :=
  moves.foldl (fun s m => screenStep font g null s (.moved m.1 m.2)) s

end Drawing

/-- What is drawn goes to the back buffer, which has no byte of the framebuffer. -/
structure BackBuffered (g : Fb.Gpu) : Prop where
  enabled : g.gFbEnabled = true
  target : g.gRenderTarget = 0
  back : g.gTargetBack = true
  back_ne : g.gFbBack ≠ 0
  depth : Depth g.gFbBpp.toNat
  pitch : g.gFbWidth.toNat * (g.gFbBpp.toNat / 8) ≤ g.gFbPitch.toNat
  apart : g.gFb + g.gFbPitch.toNat * g.gFbHeight.toNat ≤ g.gFbBack ∨
    g.gFbBack + g.gFbPitch.toNat * g.gFbHeight.toNat ≤ g.gFb

variable {font : Font} {g : Fb.Gpu} {null : Int → Nat} {v : Video} {p : Pixel g} {n k a : Nat}

def Pixel.place (p : Pixel g) : Nat := p.y * rtPitch g + p.x * (rtBpp g / 8)

def frontAt (v : Video) (p : Pixel g) : List UInt8 :=
  (List.range (rtBpp g / 8)).map fun k => v.bytes (g.gFb + (Pixel.place p + k))

section BackBuffered

variable (hb : BackBuffered g)

include hb

theorem BackBuffered.rt : rtWidth g = g.gFbWidth.toNat ∧ rtHeight g = g.gFbHeight.toNat ∧
    rtPitch g = g.gFbPitch.toNat ∧ rtBpp g = g.gFbBpp.toNat ∧ fbTarget g = g.gFbBack := by
  simp [rtWidth, rtHeight, rtPitch, rtBpp, fbTarget, hb.target, hb.back, hb.back_ne]

theorem BackBuffered.onTarget : Target g := by
  obtain ⟨hw, -, hp, hbpp, -⟩ := hb.rt
  exact ⟨hbpp ▸ hb.depth, by rw [hw, hp, hbpp]; exact hb.pitch⟩

theorem BackBuffered.onScreen : OnScreen g :=
  onScreen_framebuffer hb.enabled hb.target hb.depth

theorem BackBuffered.pixelAt_eq (v : Video) (p : Pixel g) :
    pixelAt v p =
      (List.range (rtBpp g / 8)).map fun k => v.bytes (g.gFbBack + (Pixel.place p + k)) := by
  obtain ⟨-, -, -, -, htarget⟩ := hb.rt
  refine List.map_congr_left fun k _ => ?_
  rw [pixelAddr, htarget, Pixel.place]
  congr 1
  omega

theorem BackBuffered.place_lt (p : Pixel g) (hk : k < rtBpp g / 8) :
    Pixel.place p + k < g.gFbPitch.toNat * g.gFbHeight.toNat := by
  obtain ⟨-, hh, hp, -, htarget⟩ := hb.rt
  have hin := hb.onTarget.inBuffer p.x_lt p.y_lt hk
  rw [InBuffer, pixelAddr, htarget, hh, hp, Nat.mul_comm g.gFbHeight.toNat] at hin
  rw [Pixel.place, hp]
  omega

end BackBuffered

-- ---------------------------------------------------------------------------
-- Copying
-- ---------------------------------------------------------------------------

theorem copy_behind {m : Bytes} {dst src : Nat} (h : src + (k + n) ≤ dst)
    (hv : v.bytes = blit m dst k m src) :
    (v.copy (dst + k) (src + k) n).bytes = blit m dst (k + n) m src := by
  have hsrc : blit v.bytes (dst + k) n v.bytes (src + k) =
      blit v.bytes (dst + k) n m (src + k) := by
    funext x
    by_cases hx : dst + k ≤ x ∧ x < dst + k + n
    · rw [blit_in _ _ _ hx, blit_in _ _ _ hx, hv, blit_off _ _ _ (by omega)]
    · rw [blit_off _ _ _ (by omega), blit_off _ _ _ (by omega)]
  change blit v.bytes (dst + k) n v.bytes (src + k) = _
  rw [hsrc, hv, blit_blit]

theorem fbBlitRow_apart {dst src : Nat} (h : dst + n ≤ src ∨ src + n ≤ dst) (v : Video) :
    (fbBlitRow dst src n v).bytes = blit v.bytes dst n v.bytes src := by
  obtain h | h := h
  · exact fbBlitRow_bytes (by omega) n v
  have hwords : ∀ words, 4 * words ≤ n → ((List.range words).foldl
      (fun (v : Video) i => v.copy (dst + 4 * i) (src + 4 * i) 4) v).bytes =
        blit v.bytes dst (4 * words) v.bytes src := by
    intro words hle
    induction words with
    | zero => rw [Nat.mul_zero, blit_zero]; rfl
    | succ words ih =>
      rw [List.range_succ, List.foldl_append]
      exact copy_behind (by omega) (ih (by omega))
  have htail : ∀ (start rest : Nat) (v' : Video), start + rest ≤ n →
      v'.bytes = blit v.bytes dst start v.bytes src →
      ((List.range' start rest).foldl (fun (v : Video) i => v.copy (dst + i) (src + i) 1)
        v').bytes = blit v.bytes dst (start + rest) v.bytes src := by
    intro start rest
    induction rest generalizing start with
    | zero => exact fun v' _ hv' => hv'
    | succ rest ih =>
      intro v' hle hv'
      rw [List.range'_succ, List.foldl_cons, ih _ _ (by omega) (copy_behind (by omega) hv'),
        Nat.add_assoc, Nat.add_comm 1]
  rw [fbBlitRow, htail _ _ _ (by omega) (by rw [hwords _ (by omega), Nat.mul_comm])]
  congr 1
  omega

section Flip

variable (hb : BackBuffered g)

include hb

theorem gpuFlip_upToDate (v : Video) (p : Pixel g) :
    frontAt (gpuFlip g v) p = pixelAt v p ∧ pixelAt (gpuFlip g v) p = pixelAt v p := by
  have hrun : gpuFlip g v =
      fbBlitRow g.gFb g.gFbBack (g.gFbPitch.toNat * g.gFbHeight.toNat) v :=
    if_neg (by simp [hb.enabled, hb.back_ne])
  have hapart := hb.apart
  have hbytes := fbBlitRow_apart hapart v
  rw [hrun, hb.pixelAt_eq, hb.pixelAt_eq, frontAt, hbytes]
  constructor
  · refine List.map_congr_left fun k hk => ?_
    have hlt := hb.place_lt p (List.mem_range.mp hk)
    rw [blit_in _ _ _ (by omega)]
    congr 1
    omega
  · refine List.map_congr_left fun k hk => ?_
    have hlt := hb.place_lt p (List.mem_range.mp hk)
    exact blit_off _ _ _ (by omega)

theorem place_in_row {x y w : Nat} (hw : x + w ≤ g.gFbWidth.toNat) (p : Pixel g)
    (hk : k < rtBpp g / 8) :
    y * g.gFbPitch.toNat + x * (g.gFbBpp.toNat / 8) ≤ Pixel.place p + k ∧
        Pixel.place p + k < y * g.gFbPitch.toNat + x * (g.gFbBpp.toNat / 8) +
          w * (g.gFbBpp.toNat / 8) ↔
      p.y = y ∧ x ≤ p.x ∧ p.x < x + w := by
  obtain ⟨hrw, -, hp, hbpp, -⟩ := hb.rt
  have hbyte := hb.onTarget.byte_lt p.x_lt hk
  have hpitch := hb.pitch
  rw [hp, hbpp] at hbyte
  rw [hbpp] at hk
  rw [Pixel.place, hp, hbpp]
  generalize g.gFbBpp.toNat / 8 = b at *
  have hrect := Nat.mul_le_mul_right b hw
  rw [Nat.add_mul] at hrect
  constructor
  · rintro ⟨hle, hlt⟩
    obtain ⟨i, hi⟩ := Nat.exists_eq_add_of_le hle
    have hcell := cell_inj (show x * b + i < g.gFbPitch.toNat by omega) hbyte
      (show y * g.gFbPitch.toNat + (x * b + i) = p.y * g.gFbPitch.toNat + (p.x * b + k) by omega)
    obtain ⟨hy, hcol⟩ := Prod.mk.inj hcell
    refine ⟨hy.symm, ?_, ?_⟩
    · by_contra hleft
      have := Nat.mul_le_mul_right b (Nat.succ_le_of_lt (Nat.lt_of_not_le hleft))
      rw [Nat.succ_mul] at this
      omega
    · by_contra hright
      have := Nat.mul_le_mul_right b (Nat.le_of_not_lt hright)
      rw [Nat.add_mul] at this
      omega
  · rintro ⟨rfl, hleft, hright⟩
    have h1 := Nat.mul_le_mul_right b hleft
    have h2 := Nat.mul_le_mul_right b (Nat.succ_le_of_lt hright)
    rw [Nat.succ_mul, Nat.add_mul] at h2
    omega

theorem flipRow_pixels {x y w : Nat} (hw : x + w ≤ g.gFbWidth.toNat) (hy : y < g.gFbHeight.toNat)
    (v : Video) (p : Pixel g) :
    let off := y * g.gFbPitch.toNat + x * (g.gFbBpp.toNat / 8)
    let v' := fbBlitRow (g.gFb + off) (g.gFbBack + off) (w * (g.gFbBpp.toNat / 8)) v
    frontAt v' p = (if p.y = y ∧ x ≤ p.x ∧ p.x < x + w then pixelAt v p else frontAt v p) ∧
      pixelAt v' p = pixelAt v p := by
  intro off v'
  have hsize : off + w * (g.gFbBpp.toNat / 8) ≤ g.gFbPitch.toNat * g.gFbHeight.toNat := by
    have hrow := Nat.mul_le_mul_right g.gFbPitch.toNat (Nat.succ_le_of_lt hy)
    have hcols := Nat.mul_le_mul_right (g.gFbBpp.toNat / 8) hw
    have hpitch := hb.pitch
    rw [Nat.succ_mul] at hrow
    rw [Nat.add_mul] at hcols
    rw [Nat.mul_comm g.gFbPitch.toNat]
    omega
  have hapart := hb.apart
  have hbytes : v'.bytes = _ := fbBlitRow_apart (by omega) v
  have hplace : ∀ k < rtBpp g / 8, Pixel.place p + k < g.gFbPitch.toNat * g.gFbHeight.toNat :=
    fun k hk => hb.place_lt p hk
  constructor
  · split
    · next hin =>
      rw [hb.pixelAt_eq, frontAt, hbytes]
      refine List.map_congr_left fun k hk => ?_
      have hk := List.mem_range.mp hk
      obtain ⟨hle, hlt⟩ := (place_in_row hb hw p hk).mpr hin
      rw [blit_in _ _ _ (by omega)]
      congr 1
      omega
    · next hout =>
      rw [frontAt, frontAt, hbytes]
      refine List.map_congr_left fun k hk => ?_
      have hk := List.mem_range.mp hk
      have hrow := mt (place_in_row hb hw p hk).mp hout
      exact blit_off _ _ _ (by omega)
  · rw [hb.pixelAt_eq, hb.pixelAt_eq, hbytes]
    refine List.map_congr_left fun k hk => ?_
    have hlt := hplace k (List.mem_range.mp hk)
    exact blit_off _ _ _ (by omega)

theorem flipRows_pixels {x y w : Nat} (hw : x + w ≤ g.gFbWidth.toNat) (n : Nat)
    (hn : y + n ≤ g.gFbHeight.toNat) (v : Video) (p : Pixel g) :
    frontAt (flipRows g x y w n v) p =
        (if (x ≤ p.x ∧ p.x < x + w) ∧ y ≤ p.y ∧ p.y < y + n then pixelAt v p else frontAt v p) ∧
      pixelAt (flipRows g x y w n v) p = pixelAt v p := by
  induction n with
  | zero =>
    rw [if_neg (by omega)]
    exact ⟨rfl, rfl⟩
  | succ n ih =>
    obtain ⟨hfront, hback⟩ := ih (by omega)
    have hsucc : flipRows g x y w (n + 1) v =
        fbBlitRow (g.gFb + ((y + n) * g.gFbPitch.toNat + x * (g.gFbBpp.toNat / 8)))
          (g.gFbBack + ((y + n) * g.gFbPitch.toNat + x * (g.gFbBpp.toNat / 8)))
          (w * (g.gFbBpp.toNat / 8)) (flipRows g x y w n v) := by
      rw [flipRows, List.range_succ, List.foldl_append]
      rfl
    obtain ⟨hfront', hback'⟩ := flipRow_pixels hb hw (y := y + n) (by omega)
      (flipRows g x y w n v) p
    rw [hsucc]
    refine ⟨hfront'.trans ?_, hback'.trans hback⟩
    rw [hback, hfront]
    split
    · next hrow => rw [if_pos (by omega)]
    · next hrow => exact if_congr (by omega) rfl rfl

omit hb in
theorem cut_toNat {x size w : UInt16} (h : x.toNat < size.toNat) :
    (if x.toNat + w.toNat > size.toNat then size - x else w).toNat =
      min w.toNat (size.toNat - x.toNat) := by
  split
  · rw [UInt16.toNat_sub_of_le _ _ (UInt16.le_iff_toNat_le.mpr h.le)]
    omega
  · omega

theorem gpuFlipRect_pixels (x y w h : UInt16) (v : Video) (p : Pixel g) :
    frontAt (gpuFlipRect g x y w h v) p =
        (if (x.toNat ≤ p.x ∧ p.x < x.toNat + w.toNat) ∧ y.toNat ≤ p.y ∧ p.y < y.toNat + h.toNat then
          pixelAt v p else frontAt v p) ∧
      pixelAt (gpuFlipRect g x y w h v) p = pixelAt v p := by
  obtain ⟨hrw, hrh, -, -, -⟩ := hb.rt
  have hpx := p.x_lt.trans_eq hrw
  have hpy := p.y_lt.trans_eq hrh
  rw [gpuFlipRect, if_neg (by simp [hb.enabled, hb.back_ne])]
  split
  · next hoff =>
    simp only [ge_iff_le, UInt16.le_iff_toNat_le] at hoff
    rw [if_neg (by omega)]
    exact ⟨rfl, rfl⟩
  · next hon =>
    simp only [ge_iff_le, UInt16.le_iff_toNat_le, not_or, Nat.not_le] at hon
    have hw := cut_toNat (w := w) hon.1
    have hh := cut_toNat (w := h) hon.2
    dsimp only
    generalize (if x.toNat + w.toNat > g.gFbWidth.toNat then g.gFbWidth - x else w) = w' at *
    generalize (if y.toNat + h.toNat > g.gFbHeight.toNat then g.gFbHeight - y else h) = h' at *
    obtain ⟨hfront, hback⟩ := flipRows_pixels hb (x := x.toNat) (y := y.toNat) (w := w'.toNat)
      (by omega) h'.toNat (by omega) v p
    refine ⟨hfront.trans (if_congr (by omega) rfl rfl), hback⟩

end Flip

-- ---------------------------------------------------------------------------
-- What the drawing functions draw
-- ---------------------------------------------------------------------------

section Scene

variable (ht : Target g) (hscreen : OnScreen g)

include ht hscreen

variable (font null)

theorem drawDesktopIcon_paintable (x y : UInt16) (label : List UInt8) (color : Nat) :
    Paintable g (drawDesktopIcon font g x y label color) := by
  have hplate := (gpuFillRect_paints ht hscreen x y 40 40 CLR_ICON_BG).able.comp
    (drawFlatBorder_paints ht hscreen x y 40 40 CLR_ICON_BORDER).able
  have hpicture := hplate.comp (gpuFillRect_paints ht hscreen (x + 6) (y + 4) 28 22 color).able
  exact hpicture.comp (gpuDrawText_paints ht hscreen font _ _ _ _ _).able

theorem drawDesktopIcons_paintable : Paintable g (drawDesktopIcons font g) := by
  have hicon := fun i : (UInt16 × UInt16) × String × Nat =>
    drawDesktopIcon_paintable font ht hscreen i.1.1 i.1.2 (asciiBytes i.2.1) i.2.2
  choose pic hpic using hicon
  exact ⟨_, .foldl desktopIcons fun i _ => hpic i⟩

theorem drawTaskButton_paintable (w : Window B) (focused : Bool) (bx tbY : Int) :
    Paintable g (drawTaskButton font g w focused bx tbY) := by
  have hplate := (gpuFillRect_paints ht hscreen (castU16 bx) (castU16 (tbY + 3))
    (.ofNat TASKBAR_BTN_W) 20 (if focused then CLR_TASKBTN_ACT else CLR_TASKBTN)).able.comp
      (drawFlatBorder_paints ht hscreen (castU16 bx) (castU16 (tbY + 3)) (.ofNat TASKBAR_BTN_W) 20
        (if focused then 0x000066 else 0x888888)).able
  exact hplate.comp (gpuDrawText_paints ht hscreen font _ _ _ _ _).able

theorem taskButtons_paintable (s : Windows B) (w : UInt16) (tbY bx : Int) (l : List Nat) :
    Paintable g fun v => (l.foldl (taskButtonRound font g s w tbY) (bx, v)).2 := by
  refine .rounds (fun bx z =>
      if bx < w.toNat - 80 ∧ (s.win (s.zorder z)).used = true then bx + TASKBAR_BTN_W + 2 else bx)
    (f := fun bx z v => if bx < w.toNat - 80 ∧ (s.win (s.zorder z)).used = true then
      drawTaskButton font g (s.win (s.zorder z)) (z = s.winCount - 1) bx tbY v else v)
    (fun r z => ?_) (fun bx z => ?_) l bx
  · rw [taskButtonRound]
    split <;> rfl
  · exact (drawTaskButton_paintable font ht hscreen _ _ bx tbY).ite Paints.nothing.able

theorem drawTaskbar_paintable (s : Windows B) (time : List UInt8) (w h : UInt16) :
    Paintable g (drawTaskbar font g s time w h) := by
  have hbar := (gpuFillRect_paints ht hscreen 0 (castU16 (h.toNat - TASKBAR_H)) w
    (castU16 TASKBAR_H) CLR_TASKBAR).able.comp
      (gpuFillRect_paints ht hscreen 0 (castU16 (h.toNat - TASKBAR_H)) w 1 CLR_TASKBAR_TOP).able
  have hmenu := ((hbar.comp (gpuFillRect_paints ht hscreen 2 (castU16 (h.toNat - TASKBAR_H + 3)) 50
    20 CLR_MENUBTN).able).comp (drawFlatBorder_paints ht hscreen 2
      (castU16 (h.toNat - TASKBAR_H + 3)) 50 20 0x000066).able).comp
        (gpuDrawText_paints ht hscreen font 10 (castU16 (h.toNat - TASKBAR_H + 3 + 5))
          (asciiBytes "Menu") 0xFFFFFF CLR_MENUBTN).able
  have hbuttons := (hmenu.comp (gpuFillRect_paints ht hscreen 54
    (castU16 (h.toNat - TASKBAR_H + 3)) 1 20 CLR_TASKBAR_TOP).able).comp
      (taskButtons_paintable font ht hscreen s w (h.toNat - TASKBAR_H) 58
        (List.range s.winCount))
  have hclock := (hbuttons.comp (gpuFillRect_paints ht hscreen (castU16 (w.toNat - 60 - 4))
    (castU16 (h.toNat - TASKBAR_H + 3)) 60 20 CLR_TASKBAR).able).comp
      (drawFlatBorder_paints ht hscreen (castU16 (w.toNat - 60 - 4))
        (castU16 (h.toNat - TASKBAR_H + 3)) 60 20 0x888888).able
  exact hclock.comp (gpuDrawText_paints ht hscreen font _ _ time 0x444444 CLR_TASKBAR).able

theorem menuItems_paintable (l : List String) (iy : Int) :
    Paintable g fun v => (l.foldl (menuItemRound font g) (iy, v)).2 := by
  refine .rounds (fun iy item => if item.toList.head? = some '-' then iy + 6 else iy + 24)
    (f := fun iy item v => if item.toList.head? = some '-' then
        gpuFillRect g 6 (castU16 (iy + 2)) 172 1 0x888888 v
      else gpuDrawText font g 14 (castU16 (iy + 6)) (asciiBytes item) 0x000000 CLR_MENU_BG
        (gpuFillRect g 4 (castU16 iy) 176 24 CLR_MENU_BG v))
    (fun r item => ?_) (fun iy item => ?_) l iy
  · rw [menuItemRound]
    split <;> rfl
  · exact (gpuFillRect_paints ht hscreen _ _ _ _ _).able.ite
      ((gpuFillRect_paints ht hscreen _ _ _ _ _).able.comp
        (gpuDrawText_paints ht hscreen font _ _ _ _ _).able)

theorem drawMenuPanel_paintable (h : UInt16) : Paintable g (drawMenuPanel font g h) := by
  have hpanel := (gpuFillRect_paints ht hscreen 2 (castU16 (h.toNat - TASKBAR_H - 200)) 180 198
    CLR_MENU_BG).able.comp (drawFlatBorder_paints ht hscreen 2
      (castU16 (h.toNat - TASKBAR_H - 200)) 180 198 0x888888).able
  have htitle := (hpanel.comp (gpuFillRect_paints ht hscreen 3
    (castU16 (h.toNat - TASKBAR_H - 200 + 1)) 178 20 0x0000AA).able).comp
      (gpuDrawText_paints ht hscreen font 10 (castU16 (h.toNat - TASKBAR_H - 200 + 5))
        (asciiBytes "EponaOS") 0xFFFFFF 0x0000AA).able
  exact htitle.comp (menuItems_paintable font ht hscreen menuItems (h.toNat - TASKBAR_H - 200 + 24))

theorem drawScene_covers (scene : Scene) : ∃ pic : Picture (Pixel g) (List UInt8),
    Paints g (drawScene font g null scene) pic ∧ ∀ p, (pic p).isSome = true := by
  have hicons := (drawDesktopIcons_paintable font ht hscreen).comp (drawTaskbar_paintable font ht
    hscreen scene.windows scene.time g.gFbWidth g.gFbHeight)
  have hwindows := hicons.comp (composeWindows_paints ht hscreen font null scene.windows).able
  have hmenu : Paintable g fun v => if scene.menuOpen then drawMenuPanel font g g.gFbHeight v else v :=
    (drawMenuPanel_paintable font ht hscreen g.gFbHeight).ite Paints.nothing.able
  obtain ⟨rest, hrest⟩ := hwindows.comp hmenu
  refine ⟨_, (gpuFillRect_paints ht hscreen 0 0 g.gFbWidth g.gFbHeight CLR_DESKTOP).comp hrest,
    fun p => ?_⟩
  have hx : offset p.x 0 = p.x := offset_of_le p.x_lt_16 (Nat.zero_le _)
  have hy : offset p.y 0 = p.y := offset_of_le p.y_lt_16 (Nat.zero_le _)
  have hall : p.In 0 0 g.gFbWidth.toNat g.gFbHeight.toNat := by
    rw [Pixel.In, hx, hy]
    exact ⟨p.x_lt.trans_le hscreen.width_le, p.y_lt.trans_le hscreen.height_le⟩
  have hfill := (rectPicture_isSome g 0 0 _ _ (fun _ _ => CLR_DESKTOP) p).mpr hall
  simp only [Picture.atop_isSome, Bool.or_eq_true]
  exact .inr hfill

end Scene

-- ---------------------------------------------------------------------------
-- The arrow
-- ---------------------------------------------------------------------------

structure Pointer.Shown (g : Fb.Gpu) (b : Pointer) : Prop where
  x_nonneg : 0 ≤ b.x
  y_nonneg : 0 ≤ b.y
  right : b.x + cursorW ≤ g.gFbWidth.toNat
  bottom : b.y + cursorH ≤ g.gFbHeight.toNat

def Pointer.Covers (b : Pointer) (p : Pixel g) : Prop :=
  p.In (castU16 b.x) (castU16 b.y) cursorW cursorH

def arrowPicture (g : Fb.Gpu) (b : Pointer) : Picture (Pixel g) (List UInt8) := fun p =>
  if cursorDot (offset p.y (castU16 b.y)) (offset p.x (castU16 b.x)) then
    some (pixelBytes (rtBpp g) 0x000000)
  else none

section Arrow

variable {b : Pointer} {s : PointerScreen} {yy xx : Nat}

theorem cursorDot_lt (h : cursorDot yy xx = true) : yy < cursorH ∧ xx < cursorW := by
  have hrows : ∀ row ∈ cursorBitmap, row.toList.length = cursorW := by decide
  have hdot : (cursorBitmap[yy]?.bind fun row => row.toList[xx]?) = some 'X' := by
    simpa [cursorDot] using h
  obtain ⟨row, hrow, hcol⟩ := Option.bind_eq_some_iff.mp hdot
  obtain ⟨hyy, rfl⟩ := List.getElem?_eq_some_iff.mp hrow
  obtain ⟨hxx, -⟩ := List.getElem?_eq_some_iff.mp hcol
  exact ⟨hyy, hxx.trans_eq (hrows _ (List.getElem_mem hyy))⟩

theorem arrowPicture_within (g : Fb.Gpu) (b : Pointer) :
    (arrowPicture g b).Within fun p _ => b.Covers p := by
  intro p c hc
  rw [arrowPicture] at hc
  split at hc
  · next hdot => exact (cursorDot_lt hdot).symm
  · cases hc

theorem drawCursorBitmap_paints (ht : Target g) (hscreen : OnScreen g) (b : Pointer) :
    Paints g (drawCursorBitmap g b) (arrowPicture g b) := by
  have hcast : ∀ (x : Int) (k : Nat), (castU16 (x + k)).toNat =
      ((castU16 x).toNat + k) % 2 ^ 16 := by
    intro x k
    rw [castU16, castU16, UInt16.toNat_ofNat', UInt16.toNat_ofNat', toU16, toU16]
    omega
  refine (rounds_paint (x := castU16 b.x) (y := castU16 b.y) ht (List.range cursorH)
    (fun yy hyy => ?_) (w := cursorW) (by decide) _
    (fun yy xx => if cursorDot yy xx then some 0x000000 else none) fun yy _ xx _ v => ?_).congr
      fun p => ?_
  · exact (List.mem_range.mp hyy).trans (by decide)
  · split
    · rw [gpuPutPixel, if_pos hscreen.enabled, hcast, hcast, Option.elim_some]
    · rfl
  · rw [arrowPicture]
    by_cases hdot : cursorDot (offset p.y (castU16 b.y)) (offset p.x (castU16 b.x)) = true
    · obtain ⟨hyy, hxx⟩ := cursorDot_lt hdot
      simp [hdot, hyy, hxx]
    · simp [hdot]

theorem covers_iff (hb : b.Shown g) (p : Pixel g) :
    b.Covers p ↔ (b.x ≤ p.x ∧ (p.x : Int) < b.x + cursorW) ∧ b.y ≤ p.y ∧
      (p.y : Int) < b.y + cursorH := by
  have hw := g.gFbWidth.toNat_lt
  have hh := g.gFbHeight.toNat_lt
  have hright := hb.right
  have hbottom := hb.bottom
  have hcol := offset_interval (k := cursorW) hb.x_nonneg (by omega) p.x_lt_16
  have hrow := offset_interval (k := cursorH) hb.y_nonneg (by omega) p.y_lt_16
  rw [Pointer.Covers, Pixel.In]
  omega

theorem pointerAt_shown (hw : cursorW ≤ g.gFbWidth.toNat) (hh : cursorH ≤ g.gFbHeight.toNat)
    (mx my : Int) : (pointerAt g mx my).Shown g := by
  rw [cursorW] at hw
  rw [cursorH] at hh
  obtain ⟨hx, hright⟩ := clampTo_bounds (v := g.gFbWidth.toNat / 2 + mx)
    (show (0 : Int) ≤ g.gFbWidth.toNat - 12 by omega)
  obtain ⟨hy, hbottom⟩ := clampTo_bounds (v := g.gFbHeight.toNat / 2 - my)
    (show (0 : Int) ≤ g.gFbHeight.toNat - 16 by omega)
  exact ⟨hx, hy, Int.add_le_of_le_sub_right hright, Int.add_le_of_le_sub_right hbottom⟩

-- ---------------------------------------------------------------------------
-- What is kept below it
-- ---------------------------------------------------------------------------

/-- What `restore_cursor_bg` draws -/
def keptPicture (g : Fb.Gpu) (s : PointerScreen) : Picture (Pixel g) (List UInt8) :=
  if s.cursorSaved then
    blitPicture g s.cursorBg (.ofNat cursorW) (.ofNat cursorH) (castU16 s.cursorX)
      (castU16 s.cursorY)
  else fun _ => none

theorem blitPicture_within (buf : Int → Nat) (bw bh x y : UInt16) :
    (blitPicture g buf bw bh x y).Within fun p _ => p.In x y bw.toNat bh.toNat := by
  intro p c hc
  rw [blitPicture] at hc
  split at hc
  · next hin =>
    refine ⟨hin.1, ?_⟩
    rw [offset_of_le p.y_lt_16 hin.2.1]
    omega
  · cases hc

theorem restoreCursorBg_paints (ht : Target g) (hscreen : OnScreen g) (s : PointerScreen) :
    ∃ f, Paints g f (keptPicture g s) ∧
      restoreCursorBg g s = { s with video := f s.video, cursorSaved := false } := by
  obtain ⟨v, cursorBg, _ | _, cursorX, cursorY⟩ := s
  · exact ⟨id, .nothing, rfl⟩
  · exact ⟨_, gpuBlitBuffer_paints ht hscreen _ _ _ _ _, rfl⟩

end Arrow

-- ---------------------------------------------------------------------------
-- The screen is up to date
-- ---------------------------------------------------------------------------

/-- The screen shows what is on the back buffer, and what is kept below the arrow is on it. -/
structure Current (g : Fb.Gpu) (s : PointerScreen) : Prop where
  shows : ∀ p : Pixel g, frontAt s.video p = pixelAt s.video p
  kept : s.cursorSaved = true → (⟨s.cursorX, s.cursorY⟩ : Pointer).Shown g

section UpToDate

variable (hb : BackBuffered g) {s : PointerScreen} {b : Pointer} {scene : Scene}
  {f : Video → Video} {pic : Picture (Pixel g) (List UInt8)}

include hb

theorem Confined.front {v v' : Video} (h : Confined g v v') (p : Pixel g) :
    frontAt v' p = frontAt v p := by
  obtain ⟨-, hh, hp, -, htarget⟩ := hb.rt
  have hapart := hb.apart
  refine List.map_congr_left fun k hk => h.beside _ fun hin => ?_
  have hlt := hb.place_lt p (List.mem_range.mp hk)
  rw [InBuffer, htarget, hh, hp, Nat.mul_comm g.gFbHeight.toNat] at hin
  omega

theorem gpuFlip_current {s : PointerScreen} (hsaved : s.cursorSaved = false) :
    Current g { s with video := gpuFlip g s.video } where
  shows p := by
    obtain ⟨hfront, hback⟩ := gpuFlip_upToDate hb s.video p
    rw [hfront, hback]
  kept h := absurd h (by rw [hsaved]; decide)

theorem gpuFlipRect_current (hup : ∀ p : Pixel g, frontAt v p = pixelAt v p)
    (hpaints : Paints g f pic) (x y w h : UInt16)
    (hin : pic.Within fun p _ => (x.toNat ≤ p.x ∧ p.x < x.toNat + w.toNat) ∧ y.toNat ≤ p.y ∧
      p.y < y.toNat + h.toNat) (p : Pixel g) :
    frontAt (gpuFlipRect g x y w h (f v)) p = pixelAt (gpuFlipRect g x y w h (f v)) p := by
  obtain ⟨hfront, hback⟩ := gpuFlipRect_pixels hb x y w h (f v) p
  rw [hfront, hback]
  split
  · rfl
  · next hout =>
    have hnone : pic p = none := by
      rw [Option.eq_none_iff_forall_not_mem]
      exact fun c hc => hout (hin p c hc)
    rw [Confined.front hb (hpaints.confined v), hup, hpaints.none hnone]

theorem screenStart_current (s : PointerScreen) (scene : Scene) :
    Current g (screenStart font g null s scene) :=
  gpuFlip_current hb (s := { s with
    video := composeWindows font g null scene.windows
      (drawDesktop font g scene.windows scene.time g.gFbWidth g.gFbHeight s.video)
    cursorSaved := false }) rfl

theorem restoreCursorBg_saved (s : PointerScreen) :
    (restoreCursorBg g s).cursorSaved = false := by
  obtain ⟨f, -, hrun⟩ := restoreCursorBg_paints hb.onTarget hb.onScreen s
  rw [hrun]

theorem redraw_current (s : PointerScreen) (scene : Scene) (b : Pointer) :
    Current g (redraw font g null s scene b) :=
  gpuFlip_current hb (s := { restoreCursorBg g s with
    video := drawCursorBitmap g b (drawScene font g null scene (restoreCursorBg g s).video) })
    (restoreCursorBg_saved hb s)

omit hb in
theorem kept_within (s : PointerScreen) :
    (keptPicture g s).Within fun p _ =>
      s.cursorSaved = true ∧ (⟨s.cursorX, s.cursorY⟩ : Pointer).Covers p := by
  intro p c hc
  rw [keptPicture] at hc
  split at hc
  · next hsaved => exact ⟨hsaved, blitPicture_within _ _ _ _ _ p c hc⟩
  · cases hc

omit hb in
/-- A coordinate of the new arrow, or of one that was there, is between those of the rectangle. -/
theorem box_covers {hadOld : Bool} {old new : Int} {size n q : Nat} (hn : n < 2 ^ 16)
    (hnew : 0 ≤ new ∧ new + size ≤ n) (hold : hadOld = true → 0 ≤ old ∧ old + size ≤ n)
    (hpx : (new ≤ q ∧ (q : Int) < new + size) ∨
      hadOld = true ∧ old ≤ q ∧ (q : Int) < old + size) :
    (castU16 (boxStart hadOld old new)).toNat ≤ q ∧
      q < (castU16 (boxStart hadOld old new)).toNat +
        (castU16 (boxEnd hadOld old new size - boxStart hadOld old new)).toNat := by
  cases hadOld with
  | false =>
    have hpx : new ≤ q ∧ (q : Int) < new + size := by simpa using hpx
    have hstart := castU16_toNat hnew.1 (by omega)
    have hsize := castU16_toNat (x := new + size - new) (by omega) (by omega)
    simp only [boxStart, boxEnd, Bool.false_eq_true, if_false]
    omega
  | true =>
    have hold := hold rfl
    simp only [boxStart, boxEnd, if_true]
    have hstart := castU16_toNat (x := if old < new then old else new) (by omega) (by omega)
    have hsize := castU16_toNat
      (x := (if old > new then old else new) + size - if old < new then old else new) (by omega)
      (by omega)
    omega

omit hb in
theorem covers_either (hs : Current g s) (hshown : b.Shown g) {p : Pixel g}
    (hp : b.Covers p ∨ s.cursorSaved = true ∧ (⟨s.cursorX, s.cursorY⟩ : Pointer).Covers p) :
    (b.x ≤ p.x ∧ (p.x : Int) < b.x + cursorW ∨
        s.cursorSaved = true ∧ s.cursorX ≤ p.x ∧ (p.x : Int) < s.cursorX + cursorW) ∧
      (b.y ≤ p.y ∧ (p.y : Int) < b.y + cursorH ∨
        s.cursorSaved = true ∧ s.cursorY ≤ p.y ∧ (p.y : Int) < s.cursorY + cursorH) := by
  obtain hnew | ⟨hsaved, hold⟩ := hp
  · obtain ⟨hx, hy⟩ := (covers_iff hshown p).mp hnew
    exact ⟨.inl hx, .inl hy⟩
  · obtain ⟨hx, hy⟩ := (covers_iff (hs.kept hsaved) p).mp hold
    exact ⟨.inr ⟨hsaved, hx⟩, .inr ⟨hsaved, hy⟩⟩

theorem moved_current (hs : Current g s) (hshown : b.Shown g) : Current g (moved g s b) := by
  obtain ⟨f, hpaints, hrun⟩ := restoreCursorBg_paints hb.onTarget hb.onScreen s
  have hdraw := hpaints.comp (drawCursorBitmap_paints hb.onTarget hb.onScreen b)
  have hx : ∀ q : Nat, _ := fun q => box_covers (q := q) g.gFbWidth.toNat_lt
    ⟨hshown.x_nonneg, hshown.right⟩ fun h => ⟨(hs.kept h).x_nonneg, (hs.kept h).right⟩
  have hy : ∀ q : Nat, _ := fun q => box_covers (q := q) g.gFbHeight.toNat_lt
    ⟨hshown.y_nonneg, hshown.bottom⟩ fun h => ⟨(hs.kept h).y_nonneg, (hs.kept h).bottom⟩
  refine ⟨?_, fun _ => hshown⟩
  unfold moved drawCursorAt saveCursorBg
  rw [hrun]
  refine gpuFlipRect_current hb hs.shows hdraw _ _ _ _ (.atop (fun p c hc => ?_) fun p c hc => ?_)
  · obtain ⟨hcol, hrow⟩ := covers_either hs hshown (.inl (arrowPicture_within g b p c hc))
    exact ⟨hx p.x hcol, hy p.y hrow⟩
  · obtain ⟨hcol, hrow⟩ := covers_either hs hshown (.inr (kept_within s p c hc))
    exact ⟨hx p.x hcol, hy p.y hrow⟩

theorem output_current {w : Window (Int → Nat)} (hs : Current g s) (hw : w.Placed) :
    Current g (output g null s w) := by
  refine ⟨?_, hs.kept⟩
  refine gpuFlipRect_current hb hs.shows (gpuBlitBuffer_paints hb.onTarget hb.onScreen _ _ _ _ _)
    _ _ _ _ fun p c hc => ?_
  rw [blit_eq hw] at hc
  split at hc
  · next hin =>
    have hx := hw.x_nonneg
    have hy := hw.y_nonneg
    have hright := hw.right
    have hbottom := hw.bottom
    have hheight := hw.height
    have hwidth := hw.width
    rw [winTotalW, BORDER_W] at hright hwidth
    rw [winTotalH, TITLEBAR_H, BORDER_W] at hbottom
    rw [pointIn, decide_eq_true_eq] at hin
    rw [winClientX, winClientY, TITLEBAR_H, BORDER_W] at hin ⊢
    have hcx := castU16_toNat (x := w.x + 1) (by omega) (by omega)
    have hcy := castU16_toNat (x := w.y + 22) (by omega) (by omega)
    have hcw := castU16_toNat (x := w.cw) (by omega) (by omega)
    have hch := castU16_toNat (x := w.ch) (by omega) (by omega)
    omega
  · cases hc

theorem screenStep_current {a : ScreenStep} (hwide : cursorW ≤ g.gFbWidth.toNat)
    (htall : cursorH ≤ g.gFbHeight.toNat) (ha : ∀ w, a = .output w → w.Placed)
    (hs : Current g s) : Current g (screenStep font g null s a) := by
  cases a with
  | redraw scene mx my => exact redraw_current hb s scene _
  | moved mx my => exact moved_current hb hs (pointerAt_shown hwide htall mx my)
  | output w => exact output_current hb hs (ha w rfl)

/-- However the loop goes on, the screen shows what the back buffer has. -/
theorem screenRun_current (hwide : cursorW ≤ g.gFbWidth.toNat)
    (htall : cursorH ≤ g.gFbHeight.toNat) (s : PointerScreen) (scene : Scene)
    (steps : List ScreenStep) (hsteps : ∀ w, .output w ∈ steps → w.Placed) :
    Current g (screenRun font g null s scene steps) := by
  refine List.foldlRecOn steps _ (screenStart_current hb s scene) fun s hs a ha => ?_
  exact screenStep_current hb hwide htall (fun w hw => hsteps w (hw ▸ ha)) hs

end UpToDate

-- ---------------------------------------------------------------------------
-- What the arrow leaves behind
-- ---------------------------------------------------------------------------

theorem pixelBytes_pixelValue {bpp m p} (hdepth : Depth bpp) {rgb : Nat}
    (h : ((List.range (bpp / 8)).map fun k => m (p + k)) = pixelBytes bpp rgb) :
    pixelBytes bpp (pixelValue bpp m p) = (List.range (bpp / 8)).map fun k => m (p + k) := by
  obtain rfl | rfl | rfl := hdepth
  · exact pixelBytes_16 m p
  · exact pixelBytes_24 m p
  · rw [pixelBytes_32]
    have hlast : m (p + 3) = 0 := congrArg (·.getD 3 0) h
    exact congrArg (fun b => [m p, m (p + 1), m (p + 2), b]) hlast.symm

/-- The picture `base` is on the back buffer, below an arrow if one was drawn, and restoring what is
kept gives it again. -/
structure Behind (g : Fb.Gpu) (base : Pixel g → List UInt8) (s : PointerScreen) : Prop where
  restored : ∀ p, (keptPicture g s p).getD (pixelAt s.video p) = base p
  stored : ∀ p, Stored g (base p)

section Behind

variable {s : PointerScreen} {b : Pointer} {scene : Scene} {base : Pixel g → List UInt8}

theorem saved_within (hscreen : OnScreen g) (dst : Int → Nat) (x y w h : UInt16) (v : Video) :
    (blitPicture g (gpuSaveRegion g dst x y w h v.bytes) w h x y).Within fun p c =>
      Stored g (pixelAt v p) → c = pixelAt v p := by
  rintro p c hc ⟨rgb, hrgb⟩
  rw [blitPicture] at hc
  split at hc
  · next hin =>
    obtain ⟨hcol, hrow⟩ := hin
    have hrows := (offset_mem_rowsShown hscreen p).mpr hrow
    have hx : (x.toNat + offset p.x x) % 2 ^ 16 = p.x :=
      (offset_eq_iff p.x_lt_16 (offset_lt _ _)).mpr rfl
    have hy : (y.toNat + offset p.y y) % 2 ^ 16 = p.y :=
      (offset_eq_iff p.y_lt_16 (offset_lt _ _)).mpr rfl
    have hget : gpuSaveRegion g dst x y w h v.bytes (regionIndex w (offset p.y y) (offset p.x x)) =
        _ := gpuSaveRegion_get hscreen hrows hcol (hx.trans_lt (p.x_lt.trans_le hscreen.width_le))
    rw [hx, hy, offset_of_le p.y_lt_16 hrow.1, fbGetPixel,
      if_neg (not_or.mpr ⟨Nat.not_le.mpr p.x_lt, Nat.not_le.mpr p.y_lt⟩)] at hget
    rw [hget, pixelBytes_pixelValue hscreen.depth hrgb] at hc
    exact (Option.some.inj hc).symm
  · cases hc

theorem kept_covers (hshown : b.Shown g) (buf : Int → Nat) {p : Pixel g} (hp : b.Covers p) :
    (blitPicture g buf (.ofNat cursorW) (.ofNat cursorH) (castU16 b.x) (castU16 b.y) p).isSome =
      true := by
  have hh := g.gFbHeight.toNat_lt
  have hbottom := hshown.bottom
  have htop := hshown.y_nonneg
  obtain ⟨-, hrow⟩ := (covers_iff hshown p).mp hp
  have hy := castU16_toNat (x := b.y) htop (by omega)
  have hheight : (UInt16.ofNat cursorH).toNat = cursorH := rfl
  rw [blitPicture, if_pos ⟨hp.1, by omega, by omega⟩, Option.isSome_some]

theorem drawCursorAt_behind (hb : BackBuffered g) (hshown : b.Shown g)
    (hbase : ∀ p, pixelAt s.video p = base p) (hstored : ∀ p, Stored g (base p)) :
    Behind g base (drawCursorAt g s b) ∧
      ∀ p, pixelAt (drawCursorAt g s b).video p = (arrowPicture g b p).getD (base p) := by
  have hseen : ∀ p, pixelAt (drawCursorAt g s b).video p = (arrowPicture g b p).getD (base p) :=
    fun p => by
      rw [← hbase]
      exact (drawCursorBitmap_paints hb.onTarget hb.onScreen b).seen s.video p
  refine ⟨⟨fun p => ?_, hstored⟩, hseen⟩
  rw [hseen]
  cases hpic : keptPicture g (drawCursorAt g s b) p with
  | some c =>
    have hsaved := saved_within hb.onScreen _ _ _ _ _ _ p c hpic (hbase p ▸ hstored p)
    rw [Option.getD_some, hsaved, hbase]
  | none =>
    have hnone : arrowPicture g b p = none := by
      rw [Option.eq_none_iff_forall_not_mem]
      intro c hc
      have hsome : (keptPicture g (drawCursorAt g s b) p).isSome = true :=
        kept_covers hshown _ (arrowPicture_within g b p c hc)
      rw [hpic] at hsome
      cases hsome
    rw [hnone, Option.getD_none, Option.getD_none]

theorem moved_behind (hb : BackBuffered g) (hshown : b.Shown g) (hs : Behind g base s) :
    Behind g base (moved g s b) ∧
      ∀ p, pixelAt (moved g s b).video p = (arrowPicture g b p).getD (base p) := by
  obtain ⟨f, hpaints, hrun⟩ := restoreCursorBg_paints hb.onTarget hb.onScreen s
  have hbase : ∀ p, pixelAt (restoreCursorBg g s).video p = base p := fun p => by
    rw [hrun, ← hs.restored p]
    exact hpaints.seen s.video p
  obtain ⟨hdrawn, hseen⟩ := drawCursorAt_behind hb hshown hbase hs.stored
  have hflip : ∀ p : Pixel g, pixelAt (moved g s b).video p =
      pixelAt (drawCursorAt g (restoreCursorBg g s) b).video p :=
    fun p => (gpuFlipRect_pixels hb _ _ _ _ _ p).2
  refine ⟨⟨fun p => ?_, hs.stored⟩, fun p => ?_⟩
  · rw [hflip, ← hdrawn.restored p]
    rfl
  · rw [hflip, hseen]

theorem redraw_behind (hb : BackBuffered g) (font : Font) (null : Int → Nat) (s : PointerScreen)
    (scene : Scene) (b : Pointer) (v : Video) :
    Behind g (fun p => (arrowPicture g b p).getD (pixelAt (drawScene font g null scene v) p))
      (redraw font g null s scene b) := by
  obtain ⟨pic, hpaints, hcovers⟩ := drawScene_covers font null hb.onTarget hb.onScreen scene
  have hdraw := hpaints.comp (drawCursorBitmap_paints hb.onTarget hb.onScreen b)
  have hsame : ∀ (v v' : Video) (p : Pixel g), pixelAt (drawScene font g null scene v) p =
      pixelAt (drawScene font g null scene v') p := by
    intro v v' p
    obtain ⟨c, hc⟩ := Option.isSome_iff_exists.mp (hcovers p)
    rw [hpaints.some hc, hpaints.some hc]
  refine ⟨fun p => ?_, fun p => ?_⟩
  · have hnone : keptPicture g (redraw font g null s scene b) p = none := by
      have hsaved : (redraw font g null s scene b).cursorSaved = false :=
        restoreCursorBg_saved hb s
      rw [keptPicture, hsaved]
      rfl
    rw [hnone, Option.getD_none, hsame v (restoreCursorBg g s).video]
    refine (gpuFlip_upToDate hb _ p).2.trans ?_
    exact (drawCursorBitmap_paints hb.onTarget hb.onScreen b).seen _ p
  · obtain ⟨c, hc⟩ := Option.isSome_iff_exists.mp (hcovers p)
    rw [hpaints.some hc]
    cases harrow : arrowPicture g b p with
    | some c' =>
      exact (drawCursorBitmap_paints hb.onTarget hb.onScreen b).stored p c' harrow
    | none => exact hpaints.stored p c hc

theorem pointerRun_snoc (font : Font) (g : Fb.Gpu) (null : Int → Nat) (s : PointerScreen)
    (moves : List (Int × Int)) (m : Int × Int) :
    pointerRun font g null s (moves ++ [m]) =
      moved g (pointerRun font g null s moves) (pointerAt g m.1 m.2) := by
  simp only [pointerRun, List.foldl_append, List.foldl_cons, List.foldl_nil, screenStep]

/-- After a redraw the pointer moves over the picture without a trace, but for the arrow that the
redraw itself has drawn: it stays. -/
theorem pointer_leaves_scene (hb : BackBuffered g) (hwide : cursorW ≤ g.gFbWidth.toNat)
    (htall : cursorH ≤ g.gFbHeight.toNat) (font : Font) (null : Int → Nat) (s : PointerScreen)
    (scene : Scene) (mx my : Int) (moves : List (Int × Int)) (x y : Int) (v : Video)
    (p : Pixel g) :
    let after := pointerRun font g null (screenStep font g null s (.redraw scene mx my))
      (moves ++ [(x, y)])
    let seen := (arrowPicture g (pointerAt g x y) p).getD
      ((arrowPicture g (pointerAt g mx my) p).getD (pixelAt (drawScene font g null scene v) p))
    pixelAt after.video p = seen ∧ frontAt after.video p = seen := by
  intro after seen
  have hshown := pointerAt_shown hwide htall
  have hinv : ∀ l, Current g (pointerRun font g null
      (screenStep font g null s (.redraw scene mx my)) l) ∧
      Behind g (fun p => (arrowPicture g (pointerAt g mx my) p).getD
        (pixelAt (drawScene font g null scene v) p)) (pointerRun font g null
          (screenStep font g null s (.redraw scene mx my)) l) := by
    intro l
    induction l using List.reverseRecOn with
    | nil => exact ⟨redraw_current hb s scene _, redraw_behind hb font null s scene _ v⟩
    | append_singleton l m ih =>
      rw [pointerRun_snoc]
      exact ⟨moved_current hb ih.1 (hshown m.1 m.2), (moved_behind hb (hshown m.1 m.2) ih.2).1⟩
  have hback : pixelAt after.video p = seen := by
    simp only [after, pointerRun_snoc]
    exact (moved_behind hb (hshown x y) (hinv moves).2).2 p
  exact ⟨hback, ((hinv (moves ++ [(x, y)])).1.shows p).trans hback⟩

/-- `terminalScreen`, with a back buffer -/
def doubleScreen : Fb.Gpu := { terminalScreen with gFbBack := 0x1000000, gTargetBack := true }

theorem doubleScreen_backBuffered : BackBuffered doubleScreen :=
  ⟨rfl, rfl, rfl, by decide, .inr (.inr rfl), by decide, .inl (by decide)⟩

def emptyScene : Scene := ⟨(Desktop.boot : Desktop (Int → Nat)).toWindows, false, asciiBytes "12:00"⟩

def blackScreen : PointerScreen := ⟨⟨fun _ => 0, []⟩, fun _ => 0, false, 0, 0⟩

def firstTerminal : Window (Int → Nat) :=
  ((Desktop.boot : Desktop (Int → Nat)).win 0).created newTerminal (some ⟨0x200000, fun _ => 0⟩)

/-- The contents of a window are drawn between two rounds of the loop. -/
theorem screenRun_current_output :
    Current doubleScreen (screenRun blockFont doubleScreen (fun _ => 0) blackScreen emptyScene
      [.moved 5 5, .output firstTerminal, .redraw emptyScene 0 0]) :=
  screenRun_current doubleScreen_backBuffered (by decide) (by decide) blackScreen emptyScene _
    fun w hw => by
      simp only [List.mem_cons, List.not_mem_nil, reduceCtorEq, ScreenStep.output.injEq, false_or,
        or_false] at hw
      subst hw
      exact ⟨by decide, by decide, by decide, by decide, by decide, by decide, by decide⟩

def middlePixel : Pixel doubleScreen := ⟨512, 384, by decide, by decide⟩

/-- The pointer has gone to the corner, and the tip of its first arrow is still in the middle. -/
theorem pointer_leaves_scene_tip :
    frontAt (pointerRun blockFont doubleScreen (fun _ => 0)
      (screenStep blockFont doubleScreen (fun _ => 0) blackScreen (.redraw emptyScene 0 0))
        ([(-100, 50)] ++ [(-512, 384)])).video middlePixel = [0, 0, 0, 0] := by
  have hcorner : arrowPicture doubleScreen (pointerAt doubleScreen (-512) 384) middlePixel = none :=
    by decide
  have htip : arrowPicture doubleScreen (pointerAt doubleScreen 0 0) middlePixel =
      some [0, 0, 0, 0] := by decide
  have hseen := (pointer_leaves_scene doubleScreen_backBuffered (by decide) (by decide) blockFont
    (fun _ => 0) blackScreen emptyScene 0 0 [(-100, 50)] (-512) 384 ⟨ascending, []⟩ middlePixel).2
  rwa [hcorner, htip] at hseen

end Behind

end EponaOS.Kernel
