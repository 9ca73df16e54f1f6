import EponaOS.Kernel.TermPixels
import EponaOS.Kernel.WindowPlaces
import Mathlib.Data.List.Find

/-!
# Drawing the windows

`compose_windows` of `gui.c` draws the windows from the bottom to the top, each with a border, a
title bar and its buffer. However the desktop was used, a pixel shows the window that a click on it
is for.
-/

namespace EponaOS.Kernel

open Drivers Drivers.Fb

/-- `(uint16_t)` of an `int` -/
def castU16 (x : Int) : UInt16 := UInt16.ofNat (toU16 x)

def winClientX (w : Window B) : Int := w.x + BORDER_W
def winClientY (w : Window B) : Int := w.y + TITLEBAR_H

def CLR_BORDER : Nat := 0xAAAAAA
def CLR_BORDER_FOCUS : Nat := 0x0000AA
def CLR_TITLE_ACTIVE : Nat := 0x0000AA
def CLR_TITLE_INACT : Nat := 0xAAAAAA
def CLR_TITLE_TEXT : Nat := 0xFFFFFF
def CLR_TITLE_TEXT_I : Nat := 0x444444
def CLR_TASKBTN : Nat := 0xAAAAAA

section Drawing

variable (font : Font) (g : Fb.Gpu)

def drawFlatBorder (x y w h : UInt16) (color : Nat) (v : Video) : Video :=
  let v := gpuFillRect g x y w 1 color v
  let v := gpuFillRect g x (y + h - 1) w 1 color v
  let v := gpuFillRect g x y 1 h color v
  gpuFillRect g (x + w - 1) y 1 h color v

def drawCloseButton (x y : UInt16) (v : Video) : Video :=
  let v := gpuFillRect g x y 14 14 0xAA0000 v
  let v := drawFlatBorder g x y 14 14 0x880000 v
  let v := (List.range' 2 7).foldl (fun v i =>
    let v := gpuPutPixel g (.ofNat (x.toNat + i)) (.ofNat (y.toNat + i)) 0xFFFFFF v
    gpuPutPixel g (.ofNat (x.toNat + 8 - i + 2)) (.ofNat (y.toNat + i)) 0xFFFFFF v) v
  (List.range' 3 5).foldl (fun v i =>
    let v := gpuPutPixel g (.ofNat (x.toNat + i + 1)) (.ofNat (y.toNat + i)) 0xFFFFFF v
    gpuPutPixel g (.ofNat (x.toNat + 7 - i + 3)) (.ofNat (y.toNat + i)) 0xFFFFFF v) v

def drawMinButton (x y : UInt16) (v : Video) : Video :=
  let v := gpuFillRect g x y 14 14 CLR_TASKBTN v
  let v := drawFlatBorder g x y 14 14 0x888888 v
  (List.range' 3 8).foldl (fun v i =>
    gpuPutPixel g (.ofNat (x.toNat + i)) (.ofNat (y.toNat + 10)) 0x444444 v) v

def drawWindowChrome (w : Window B) (focused : Bool) (v : Video) : Video :=
  let ow := winTotalW w
  let oh := winTotalH w
  let borderColor := if focused then CLR_BORDER_FOCUS else CLR_BORDER
  let v := drawFlatBorder g (castU16 w.x) (castU16 w.y) (castU16 ow) (castU16 oh) borderColor v
  let titleBg := if focused then CLR_TITLE_ACTIVE else CLR_TITLE_INACT
  let titleFg := if focused then CLR_TITLE_TEXT else CLR_TITLE_TEXT_I
  let v := gpuFillRect g (castU16 (w.x + 1)) (castU16 (w.y + 1)) (castU16 (ow - 2))
    (castU16 (TITLEBAR_H - 1)) titleBg v
  let v := gpuDrawText font g (castU16 (w.x + 6)) (castU16 (w.y + 5)) w.title titleFg titleBg v
  let v := drawCloseButton g (castU16 (w.x + ow - 18)) (castU16 (w.y + 4)) v
  let v := drawMinButton g (castU16 (w.x + ow - 34)) (castU16 (w.y + 4)) v
  gpuFillRect g (castU16 (w.x + 1)) (castU16 (w.y + TITLEBAR_H)) (castU16 (ow - 2)) (castU16 w.ch)
    CLR_WINDOWBG.toNat v

/-- `null` is what is read through a buffer that `kmalloc` did not give. -/
def windowPixels (null : Int → Nat) (w : Window (Int → Nat)) : Int → Nat :=
  (w.buf.map Buffer.pixels).getD null

variable (null : Int → Nat)

/-- A round of `compose_windows` -/
def composeWindow (w : Window (Int → Nat)) (focused : Bool) (v : Video) : Video :=
  gpuBlitBuffer g (windowPixels null w) (castU16 w.cw) (castU16 w.ch) (castU16 (winClientX w))
    (castU16 (winClientY w)) (drawWindowChrome font g w focused v)

def composeWindows (s : Windows (Int → Nat)) (v : Video) : Video :=
  (List.range s.winCount).foldl (fun v z =>
    let w := s.win (s.zorder z)
    if w.used then composeWindow font g null w (z = s.winCount - 1) v else v) v

-- ---------------------------------------------------------------------------
-- What is drawn of a window
-- ---------------------------------------------------------------------------

def borderPicture (x y w h : UInt16) (color : Nat) : Picture (Pixel g) (List UInt8) :=
  (fillPicture g (x + w - 1) y 1 h color).atop
    ((fillPicture g x y 1 h color).atop
      ((fillPicture g x (y + h - 1) w 1 color).atop (fillPicture g x y w 1 color)))

def closePicture (x y : UInt16) : Picture (Pixel g) (List UInt8) :=
  let cross1 := Picture.stack (List.range' 2 7) fun i =>
    (dotPicture g (.ofNat (x.toNat + 8 - i + 2)) (.ofNat (y.toNat + i)) 0xFFFFFF).atop
      (dotPicture g (.ofNat (x.toNat + i)) (.ofNat (y.toNat + i)) 0xFFFFFF)
  let cross2 := Picture.stack (List.range' 3 5) fun i =>
    (dotPicture g (.ofNat (x.toNat + 7 - i + 3)) (.ofNat (y.toNat + i)) 0xFFFFFF).atop
      (dotPicture g (.ofNat (x.toNat + i + 1)) (.ofNat (y.toNat + i)) 0xFFFFFF)
  cross2.atop (cross1.atop ((borderPicture g x y 14 14 0x880000).atop
    (fillPicture g x y 14 14 0xAA0000)))

def minPicture (x y : UInt16) : Picture (Pixel g) (List UInt8) :=
  let line := Picture.stack (List.range' 3 8) fun i =>
    dotPicture g (.ofNat (x.toNat + i)) (.ofNat (y.toNat + 10)) 0x444444
  line.atop ((borderPicture g x y 14 14 0x888888).atop
    (fillPicture g x y 14 14 CLR_TASKBTN))

def framePicture (w : Window B) (focused : Bool) : Picture (Pixel g) (List UInt8) :=
  let titleBg := if focused then CLR_TITLE_ACTIVE else CLR_TITLE_INACT
  let titleFg := if focused then CLR_TITLE_TEXT else CLR_TITLE_TEXT_I
  (textPicture font g (castU16 (w.x + 6)) (castU16 (w.y + 5)) w.title titleFg titleBg).atop
    ((fillPicture g (castU16 (w.x + 1)) (castU16 (w.y + 1)) (castU16 (winTotalW w - 2))
        (castU16 (TITLEBAR_H - 1)) titleBg).atop
      (borderPicture g (castU16 w.x) (castU16 w.y) (castU16 (winTotalW w)) (castU16 (winTotalH w))
        (if focused then CLR_BORDER_FOCUS else CLR_BORDER)))

def clientPicture (w : Window B) : Picture (Pixel g) (List UInt8) :=
  fillPicture g (castU16 (w.x + 1)) (castU16 (w.y + TITLEBAR_H)) (castU16 (winTotalW w - 2))
    (castU16 w.ch) CLR_WINDOWBG.toNat

def windowPicture (w : Window (Int → Nat)) (focused : Bool) : Picture (Pixel g) (List UInt8) :=
  (blitPicture g (windowPixels null w) (castU16 w.cw) (castU16 w.ch) (castU16 (winClientX w))
      (castU16 (winClientY w))).atop
    ((clientPicture g w).atop
      ((minPicture g (castU16 (w.x + winTotalW w - 34)) (castU16 (w.y + 4))).atop
        ((closePicture g (castU16 (w.x + winTotalW w - 18)) (castU16 (w.y + 4))).atop
          (framePicture font g w focused))))

end Drawing

variable {g : Fb.Gpu} {font : Font} {null : Int → Nat}

section Paints

variable (ht : Target g) (hscreen : OnScreen g)

include ht hscreen

theorem drawFlatBorder_paints (x y w h : UInt16) (color : Nat) :
    Paints g (drawFlatBorder g x y w h color) (borderPicture g x y w h color) :=
  (((gpuFillRect_paints ht hscreen x y w 1 color).comp (gpuFillRect_paints ht hscreen _ _ w 1
    color)).comp (gpuFillRect_paints ht hscreen x y 1 h color)).comp
      (gpuFillRect_paints ht hscreen _ y 1 h color)

theorem drawCloseButton_paints (x y : UInt16) :
    Paints g (drawCloseButton g x y) (closePicture g x y) := by
  have hback := (gpuFillRect_paints ht hscreen x y 14 14 0xAA0000).comp
    (drawFlatBorder_paints ht hscreen x y 14 14 0x880000)
  unfold drawCloseButton closePicture
  refine (hback.comp (.foldl (List.range' 2 7) fun i _ => ?_)).comp
    (.foldl (List.range' 3 5) fun i _ => ?_)
  · exact (gpuPutPixel_paints ht hscreen _ _ _).comp (gpuPutPixel_paints ht hscreen _ _ _)
  · exact (gpuPutPixel_paints ht hscreen _ _ _).comp (gpuPutPixel_paints ht hscreen _ _ _)

theorem drawMinButton_paints (x y : UInt16) :
    Paints g (drawMinButton g x y) (minPicture g x y) := by
  have hback := (gpuFillRect_paints ht hscreen x y 14 14 CLR_TASKBTN).comp
    (drawFlatBorder_paints ht hscreen x y 14 14 0x888888)
  unfold drawMinButton minPicture
  exact hback.comp (.foldl (List.range' 3 8) fun _ _ => gpuPutPixel_paints ht hscreen _ _ _)

theorem composeWindow_paints (w : Window (Int → Nat)) (focused : Bool) :
    Paints g (composeWindow font g null w focused) (windowPicture font g null w focused) := by
  have hframe := ((drawFlatBorder_paints ht hscreen (castU16 w.x) (castU16 w.y)
      (castU16 (winTotalW w)) (castU16 (winTotalH w))
      (if focused then CLR_BORDER_FOCUS else CLR_BORDER)).comp
    (gpuFillRect_paints ht hscreen (castU16 (w.x + 1)) (castU16 (w.y + 1))
      (castU16 (winTotalW w - 2)) (castU16 (TITLEBAR_H - 1))
      (if focused then CLR_TITLE_ACTIVE else CLR_TITLE_INACT))).comp
    (gpuDrawText_paints ht hscreen font (castU16 (w.x + 6)) (castU16 (w.y + 5)) w.title
      (if focused then CLR_TITLE_TEXT else CLR_TITLE_TEXT_I)
      (if focused then CLR_TITLE_ACTIVE else CLR_TITLE_INACT))
  have hbuttons := (hframe.comp (drawCloseButton_paints ht hscreen
    (castU16 (w.x + winTotalW w - 18)) (castU16 (w.y + 4)))).comp (drawMinButton_paints ht hscreen
    (castU16 (w.x + winTotalW w - 34)) (castU16 (w.y + 4)))
  exact (hbuttons.comp (gpuFillRect_paints ht hscreen _ _ _ _ _)).comp
    (gpuBlitBuffer_paints ht hscreen _ _ _ _ _)

end Paints

-- ---------------------------------------------------------------------------
-- Where it is drawn
-- ---------------------------------------------------------------------------

section Within

variable {p : Pixel g} {x y w h : UInt16} {i j rgb m n : Nat} {cs : List (List UInt8)}

def Shaded (p : Pixel g) (x y : UInt16) (m n : Nat) (cs : List (List UInt8))
    (c : List UInt8) : Prop := p.In x y m n ∧ c ∈ cs

theorem fill_within (x y w h : UInt16) (hc : pixelBytes (rtBpp g) rgb ∈ cs) :
    (fillPicture g x y w h rgb).Within fun p c => Shaded p x y w.toNat h.toNat cs c := by
  refine (rectPicture_within g x y w.toNat h.toNat _).mono fun p c hin => ⟨hin.1, ?_⟩
  obtain ⟨-, _, _, rfl⟩ := hin
  exact hc

theorem dot_within (x y : UInt16) (hi : i < m) (hj : j < n) (hm : m ≤ 2 ^ 16) (hn : n ≤ 2 ^ 16)
    (hc : pixelBytes (rtBpp g) rgb ∈ cs) :
    (dotPicture g (.ofNat (x.toNat + i)) (.ofNat (y.toNat + j)) rgb).Within fun p c =>
      Shaded p x y m n cs c := by
  refine (rectPicture_within g _ _ 1 1 _).mono fun p c hin => ?_
  obtain ⟨⟨hx, hy⟩, _, _, rfl⟩ := hin
  have hx := (offset_add_lt (by omega) p.x).mp hx
  have hy := (offset_add_lt (by omega) p.y).mp hy
  exact ⟨⟨by omega, by omega⟩, hc⟩

theorem border_within (hw : 0 < w.toNat) (hh : 0 < h.toNat)
    (hc : pixelBytes (rtBpp g) rgb ∈ cs) :
    (borderPicture g x y w h rgb).Within fun p c => Shaded p x y w.toNat h.toNat cs c := by
  have hone : (1 : UInt16).toNat = 1 := rfl
  refine .atop ?_ (.atop ?_ (.atop ?_ ?_))
  · refine (fill_within _ y 1 h hc).mono fun p c ⟨⟨hx, hy⟩, hc⟩ => ⟨⟨?_, hy⟩, hc⟩
    have := (offset_last hw p.x).mp hx
    omega
  · refine (fill_within x y 1 h hc).mono fun p c ⟨⟨hx, hy⟩, hc⟩ => ⟨⟨?_, hy⟩, hc⟩
    omega
  · refine (fill_within x _ w 1 hc).mono fun p c ⟨⟨hx, hy⟩, hc⟩ => ⟨⟨hx, ?_⟩, hc⟩
    have := (offset_last hh p.y).mp hy
    omega
  · refine (fill_within x y w 1 hc).mono fun p c ⟨⟨hx, hy⟩, hc⟩ => ⟨⟨hx, ?_⟩, hc⟩
    omega

def closeColors (g : Fb.Gpu) : List (List UInt8) :=
  [0xFFFFFF, 0x880000, 0xAA0000].map (pixelBytes (rtBpp g))

theorem closePicture_within (x y : UInt16) :
    (closePicture g x y).Within fun p c => Shaded p x y 14 14 (closeColors g) c := by
  have hwhite : pixelBytes (rtBpp g) 0xFFFFFF ∈ closeColors g := by simp [closeColors]
  have hdot : ∀ i j, i < 14 → j < 14 →
      (dotPicture g (.ofNat (x.toNat + i)) (.ofNat (y.toNat + j)) 0xFFFFFF).Within fun p c =>
        Shaded p x y 14 14 (closeColors g) c := fun i j hi hj =>
    dot_within x y hi hj (by decide) (by decide) hwhite
  refine .atop (.stack fun i hi => ?_) (.atop (.stack fun i hi => ?_)
    (.atop (border_within (by decide) (by decide) ?_) (fill_within x y 14 14 ?_)))
  · have hi := List.mem_range'_1.mp hi
    have hleft : x.toNat + 7 - i + 3 = x.toNat + (10 - i) := by omega
    rw [hleft]
    exact (hdot _ i (by omega) (by omega)).atop (hdot (i + 1) i (by omega) (by omega))
  · have hi := List.mem_range'_1.mp hi
    have hleft : x.toNat + 8 - i + 2 = x.toNat + (10 - i) := by omega
    rw [hleft]
    exact (hdot _ i (by omega) (by omega)).atop (hdot i i (by omega) (by omega))
  · simp [closeColors]
  · simp [closeColors]

theorem minPicture_within (x y : UInt16) :
    (minPicture g x y).Within fun p _ => p.In x y 14 14 := by
  have hin : ∀ {cs : List (List UInt8)} (p : Pixel g) c, Shaded p x y 14 14 cs c →
      p.In x y 14 14 := fun p c h => h.1
  refine .atop (.stack fun i hi => ?_) (.atop ?_ ?_)
  · have hi := List.mem_range'_1.mp hi
    exact (dot_within x y (m := 14) (n := 14) (by omega) (by decide) (by decide) (by decide)
      (List.mem_singleton_self _)).mono hin
  · exact (border_within (by decide) (by decide) (List.mem_singleton_self _)).mono hin
  · exact (fill_within x y 14 14 (List.mem_singleton_self _)).mono hin

end Within

-- ---------------------------------------------------------------------------
-- A window
-- ---------------------------------------------------------------------------

section Window

variable {w : Window B} {p : Pixel g} {focused : Bool} {x k : Int} {n px : Nat}

theorem castU16_toNat (h0 : 0 ≤ x) (h : x < 2 ^ 16) : ((castU16 x).toNat : Int) = x := by
  rw [castU16, UInt16.toNat_ofNat', toU16]
  omega

/-- A rectangle that starts `k` further to the right or below -/
theorem offset_cast (hk : 0 ≤ k) (hn : k + n ≤ 2 ^ 16) (x : Int) (px : Nat) :
    offset px (castU16 (x + k)) < n ↔
      k ≤ offset px (castU16 x) ∧ (offset px (castU16 x) : Int) < k + n := by
  rw [offset, offset, castU16, castU16, UInt16.toNat_ofNat', UInt16.toNat_ofNat', toU16, toU16]
  omega

def Window.column (w : Window B) (p : Pixel g) : Nat := offset p.x (castU16 w.x)

def Window.row (w : Window B) (p : Pixel g) : Nat := offset p.y (castU16 w.y)

theorem offset_interval (h0 : 0 ≤ x) (h : x + k < 2 ^ 16) (hpx : px < 2 ^ 16) :
    (offset px (castU16 x) : Int) < k ↔ px ≥ x ∧ px < x + k := by
  rw [offset, castU16, UInt16.toNat_ofNat', toU16]
  omega

theorem pointIn_iff (hw : w.Placed) (p : Pixel g) :
    pointIn p.x p.y w.x w.y (winTotalW w) (winTotalH w) = true ↔
      (w.column p : Int) < winTotalW w ∧ (w.row p : Int) < winTotalH w := by
  rw [Window.column, Window.row, offset_interval hw.x_nonneg hw.right p.x_lt_16,
    offset_interval hw.y_nonneg hw.bottom p.y_lt_16, pointIn, decide_eq_true_eq, and_assoc]

theorem in_cast {kx ky : Int} {m n : Nat} (hkx : 0 ≤ kx) (hky : 0 ≤ ky) (hm : kx + m ≤ 2 ^ 16)
    (hn : ky + n ≤ 2 ^ 16) (w : Window B) (p : Pixel g) :
    p.In (castU16 (w.x + kx)) (castU16 (w.y + ky)) m n ↔
      (kx ≤ w.column p ∧ (w.column p : Int) < kx + m) ∧
        (ky ≤ w.row p ∧ (w.row p : Int) < ky + n) := by
  rw [Pixel.In, offset_cast hkx hm, offset_cast hky hn, Window.column, Window.row]

def Window.Holds (w : Window B) (p : Pixel g) : Prop :=
  (w.column p : Int) < winTotalW w ∧ (w.row p : Int) < winTotalH w

theorem text_holds (hw : w.Placed) (font : Font) (fg bg : Nat) :
    (textPicture font g (castU16 (w.x + 6)) (castU16 (w.y + 5)) w.title fg bg).Within
      fun p _ => w.Holds p := by
  have hwidth := hw.title
  have hright := hw.right
  have hx := hw.x_nonneg
  have hheight := hw.height
  refine .stack fun c hc => (rectPicture_within g _ _ _ _ _).mono fun p _ ⟨⟨hpx, hpy⟩, _⟩ => ?_
  have hlt := List.snd_lt_of_mem_zipIdx hc
  have hadd : castU16 (w.x + 6) + UInt16.ofNat (c.2 * FONT_W) =
      .ofNat ((castU16 (w.x + 6)).toNat + c.2 * FONT_W) := by
    rw [UInt16.ofNat_add, UInt16.ofNat_toNat]
  rw [hadd, offset_add_lt (by rw [FONT_W]; omega)] at hpx
  have hcol := (offset_cast (by decide) (by rw [FONT_W]; omega) w.x p.x).mp hpx.2
  have hrow := (offset_cast (by decide) (by decide) w.y p.y).mp hpy
  rw [FONT_W] at hcol
  rw [FONT_H] at hrow
  refine ⟨?_, ?_⟩
  · change (offset p.x (castU16 w.x) : Int) < _
    omega
  · change (offset p.y (castU16 w.y) : Int) < w.ch + TITLEBAR_H + BORDER_W
    rw [TITLEBAR_H, BORDER_W]
    omega

theorem Window.Placed.sizes (hw : w.Placed) :
    ((castU16 (winTotalW w)).toNat : Int) = winTotalW w ∧
      ((castU16 (winTotalH w)).toNat : Int) = winTotalH w ∧
      ((castU16 (winTotalW w - 2)).toNat : Int) = winTotalW w - 2 ∧
      ((castU16 w.ch).toNat : Int) = w.ch := by
  have hx := hw.x_nonneg
  have hy := hw.y_nonneg
  have hwidth := hw.width
  have hright := hw.right
  have hheight := hw.height
  have hbottom := hw.bottom
  rw [winTotalH, TITLEBAR_H, BORDER_W] at hbottom ⊢
  exact ⟨castU16_toNat (by omega) (by omega), castU16_toNat (by omega) (by omega),
    castU16_toNat (by omega) (by omega), castU16_toNat (by omega) (by omega)⟩

theorem frame_holds (hw : w.Placed) (font : Font) (focused : Bool) :
    (framePicture font g w focused).Within fun p _ => w.Holds p := by
  obtain ⟨hsw, hsh, hsi, -⟩ := hw.sizes
  have hx := hw.x_nonneg
  have hy := hw.y_nonneg
  have hwidth := hw.width
  have hright := hw.right
  have hheight := hw.height
  have hbottom := hw.bottom
  have htotal : winTotalH w = w.ch + 23 := by rw [winTotalH, TITLEBAR_H, BORDER_W]; omega
  refine (text_holds hw font _ _).atop (.atop ?_ ?_)
  · refine (fill_within _ _ _ _ (List.mem_singleton_self _)).mono fun p _ h => ?_
    obtain ⟨hin, -⟩ := h
    have hbar : ((castU16 (TITLEBAR_H - 1)).toNat : Int) = 21 := by decide
    obtain ⟨hcol, hrow⟩ := (in_cast (by decide) (by decide) (by omega) (by omega) w p).mp hin
    exact ⟨by omega, by omega⟩
  · refine (border_within (by omega) (by omega) (List.mem_singleton_self _)).mono fun p _ h => ?_
    obtain ⟨⟨hcol, hrow⟩, -⟩ := h
    exact ⟨by rw [Window.column]; omega, by rw [Window.row]; omega⟩

theorem client_isSome (hw : w.Placed) (p : Pixel g) :
    (clientPicture g w p).isSome = true ↔
      (1 ≤ (w.column p : Int) ∧ (w.column p : Int) < winTotalW w - 1) ∧
        (22 ≤ (w.row p : Int) ∧ (w.row p : Int) < winTotalH w - 1) := by
  obtain ⟨-, -, hsi, hsc⟩ := hw.sizes
  have hx := hw.x_nonneg
  have hy := hw.y_nonneg
  have hright := hw.right
  have hbottom := hw.bottom
  have htotal : winTotalH w = w.ch + 23 := by rw [winTotalH, TITLEBAR_H, BORDER_W]; omega
  rw [clientPicture, fillPicture, rectPicture_isSome, TITLEBAR_H,
    in_cast (by decide) (by decide) (by omega) (by omega)]
  omega

theorem title_isSome (hw : w.Placed) (p : Pixel g) (titleBg : Nat) :
    (fillPicture g (castU16 (w.x + 1)) (castU16 (w.y + 1)) (castU16 (winTotalW w - 2))
        (castU16 (TITLEBAR_H - 1)) titleBg p).isSome = true ↔
      (1 ≤ (w.column p : Int) ∧ (w.column p : Int) < winTotalW w - 1) ∧
        (1 ≤ (w.row p : Int) ∧ (w.row p : Int) < 22) := by
  obtain ⟨-, -, hsi, -⟩ := hw.sizes
  have hx := hw.x_nonneg
  have hright := hw.right
  have hbar : ((castU16 (TITLEBAR_H - 1)).toNat : Int) = 21 := by decide
  rw [fillPicture, rectPicture_isSome,
    in_cast (by decide) (by decide) (by omega) (by omega)]
  omega

theorem border_isSome (hw : w.Placed) (p : Pixel g) (color : Nat) :
    (borderPicture g (castU16 w.x) (castU16 w.y) (castU16 (winTotalW w)) (castU16 (winTotalH w))
        color p).isSome = true ↔
      w.Holds p ∧ (w.column p = 0 ∨ w.row p = 0 ∨ (w.column p : Int) = winTotalW w - 1 ∨
        (w.row p : Int) = winTotalH w - 1) := by
  obtain ⟨hsw, hsh, -, -⟩ := hw.sizes
  have hwidth := hw.width
  have hheight := hw.height
  have htotal : winTotalH w = w.ch + 23 := by rw [winTotalH, TITLEBAR_H, BORDER_W]; omega
  have hone : (1 : UInt16).toNat = 1 := rfl
  simp only [borderPicture, Picture.atop_isSome, Bool.or_eq_true, fillPicture, rectPicture_isSome,
    Pixel.In, hone]
  rw [offset_last (by omega), offset_last (by omega), Window.Holds, Window.column, Window.row]
  omega

end Window

section Contents

variable {w : Window (Int → Nat)} {p : Pixel g} {focused : Bool}

theorem blit_eq (hw : w.Placed) (buf : Int → Nat) (p : Pixel g) :
    blitPicture g buf (castU16 w.cw) (castU16 w.ch) (castU16 (winClientX w))
        (castU16 (winClientY w)) p =
      if pointIn p.x p.y (winClientX w) (winClientY w) w.cw w.ch then
        some (pixelBytes (rtBpp g)
          (buf (wrapInt ((p.y - winClientY w) * w.cw + (p.x - winClientX w)))))
      else none := by
  have hx := hw.x_nonneg
  have hy := hw.y_nonneg
  have hright := hw.right
  have hbottom := hw.bottom
  have hwidth := hw.width
  have hheight := hw.height
  have hpx := p.x_lt_16
  have hpy := p.y_lt_16
  have hclientX : winClientX w = w.x + 1 := rfl
  have hclientY : winClientY w = w.y + 22 := rfl
  rw [hclientX, hclientY]
  simp only [winTotalW, winTotalH, TITLEBAR_H, BORDER_W] at hright hbottom hwidth
  have hcw := castU16_toNat (x := w.cw) (by omega) (by omega)
  have hch := castU16_toNat (x := w.ch) (by omega) (by omega)
  have hcy := castU16_toNat (x := w.y + 22) (by omega) (by omega)
  have hcol : (offset p.x (castU16 (w.x + 1)) : Int) < w.cw ↔ p.x ≥ w.x + 1 ∧ p.x < w.x + 1 + w.cw :=
    offset_interval (by omega) (by omega) hpx
  have hiff : (offset p.x (castU16 (w.x + 1)) < (castU16 w.cw).toNat ∧
      (castU16 (w.y + 22)).toNat ≤ p.y ∧
        p.y < (castU16 (w.y + 22)).toNat + (castU16 w.ch).toNat) ↔
      pointIn p.x p.y (w.x + 1) (w.y + 22) w.cw w.ch = true := by
    rw [pointIn, decide_eq_true_eq]
    omega
  rw [blitPicture]
  split
  · next hin =>
    rw [if_pos (hiff.mp hin), regionIndex]
    obtain ⟨hc, hr, -⟩ := hin
    have hcx := castU16_toNat (x := w.x + 1) (by omega) (by omega)
    have hcolumn : (offset p.x (castU16 (w.x + 1)) : Int) = p.x - (w.x + 1) := by
      rw [offset_of_le hpx (by omega)]
      omega
    have hrow : ((p.y - (castU16 (w.y + 22)).toNat : Nat) : Int) = p.y - (w.y + 22) := by omega
    rw [hcolumn, hrow, hcw]
  · next hout => rw [if_neg fun hin => hout (hiff.mpr hin)]

theorem windowPicture_within (hw : w.Placed) (font : Font) (null : Int → Nat) (focused : Bool) :
    (windowPicture font g null w focused).Within fun p _ => w.Holds p := by
  have hx := hw.x_nonneg
  have hright := hw.right
  have hwidth := hw.width
  have hheight := hw.height
  have htotal : winTotalH w = w.ch + 23 := by rw [winTotalH, TITLEBAR_H, BORDER_W]; omega
  have hbutton : ∀ (k : Int) (p : Pixel g), 18 ≤ k → k ≤ 34 →
      p.In (castU16 (w.x + winTotalW w - k)) (castU16 (w.y + 4)) 14 14 → w.Holds p := by
    intro k p hk hk' hin
    rw [Int.add_sub_assoc, in_cast (by omega) (by decide) (by omega) (by decide)] at hin
    exact ⟨by omega, by omega⟩
  refine .atop (fun p c hc => ?_) (.atop (fun p c hc => ?_) (.atop ?_ (.atop ?_
    (frame_holds hw font focused))))
  · rw [blit_eq hw] at hc
    split at hc
    · next hin =>
      have hin := hin
      rw [pointIn, decide_eq_true_eq, winClientX, winClientY, TITLEBAR_H, BORDER_W] at hin
      refine (pointIn_iff hw p).mp ?_
      rw [pointIn, decide_eq_true_eq, winTotalW, htotal, BORDER_W]
      omega
    · cases hc
  · have hclient := (client_isSome hw p).mp (Option.isSome_of_eq_some hc)
    exact ⟨by omega, by omega⟩
  · exact (minPicture_within _ _).mono fun p _ hin => hbutton 34 p (by decide) (by decide) hin
  · exact (closePicture_within _ _).mono fun p _ hin => hbutton 18 p (by decide) (by decide) hin.1

theorem windowPicture_isSome (hw : w.Placed) (font : Font) (null : Int → Nat) (focused : Bool)
    (p : Pixel g) :
    (windowPicture font g null w focused p).isSome =
      pointIn p.x p.y w.x w.y (winTotalW w) (winTotalH w) := by
  rw [Bool.eq_iff_iff, pointIn_iff hw]
  constructor
  · intro hsome
    obtain ⟨c, hc⟩ := Option.isSome_iff_exists.mp hsome
    exact windowPicture_within hw font null focused p c hc
  · intro hin
    have hclient := client_isSome hw p
    have htitle := title_isSome hw p (if focused then CLR_TITLE_ACTIVE else CLR_TITLE_INACT)
    have hborder := border_isSome hw p (if focused then CLR_BORDER_FOCUS else CLR_BORDER)
    simp only [windowPicture, framePicture, Picture.atop_isSome, Bool.or_eq_true, hclient, htitle,
      hborder]
    obtain ⟨hcol, hrow⟩ := id hin
    by_cases hedge : w.column p = 0 ∨ w.row p = 0 ∨ (w.column p : Int) = winTotalW w - 1 ∨
        (w.row p : Int) = winTotalH w - 1
    · simp [Window.Holds, hin, hedge]
    · omega

theorem windowPicture_client (hw : w.Placed) (font : Font) (null : Int → Nat) (focused : Bool)
    (hp : pointIn p.x p.y (winClientX w) (winClientY w) w.cw w.ch = true) :
    windowPicture font g null w focused p = some (pixelBytes (rtBpp g)
      (windowPixels null w (wrapInt ((p.y - winClientY w) * w.cw + (p.x - winClientX w))))) := by
  rw [windowPicture, Picture.atop, blit_eq hw, if_pos hp, Option.some_or]

theorem windowPicture_close (hw : w.Placed) (font : Font) (null : Int → Nat) (focused : Bool)
    (hp : pointIn p.x p.y (w.x + winTotalW w - 18) (w.y + 4) 14 14 = true) :
    ∃ c ∈ closeColors g, windowPicture font g null w focused p = some c := by
  have hx := hw.x_nonneg
  have hy := hw.y_nonneg
  have hright := hw.right
  have hbottom := hw.bottom
  have hwidth := hw.width
  have hheight := hw.height
  have htotal : winTotalH w = w.ch + 23 := by rw [winTotalH, TITLEBAR_H, BORDER_W]; omega
  have hsub : w.x + winTotalW w - 18 = w.x + (winTotalW w - 18) := Int.add_sub_assoc ..
  have hin : p.In (castU16 (w.x + winTotalW w - 18)) (castU16 (w.y + 4)) 14 14 := by
    rw [pointIn, decide_eq_true_eq] at hp
    have hcol := (offset_interval (x := w.x + winTotalW w - 18) (k := (14 : Nat)) (by omega)
      (by omega) p.x_lt_16).mpr ⟨by omega, by omega⟩
    have hrow := (offset_interval (x := w.y + 4) (k := (14 : Nat)) (by omega) (by omega)
      p.y_lt_16).mpr ⟨by omega, by omega⟩
    exact ⟨by omega, by omega⟩
  have hplace : (winTotalW w - 18 ≤ w.column p ∧ (w.column p : Int) < winTotalW w - 4) ∧
      (4 ≤ (w.row p : Int) ∧ (w.row p : Int) < 18) := by
    have hin := hin
    rw [hsub, in_cast (by omega) (by decide) (by omega) (by decide)] at hin
    omega
  -- the contents and the minimize button are elsewhere
  have hblit : blitPicture g (windowPixels null w) (castU16 w.cw) (castU16 w.ch)
      (castU16 (winClientX w)) (castU16 (winClientY w)) p = none := by
    rw [blit_eq hw, if_neg]
    rw [pointIn, decide_eq_true_eq] at hp ⊢
    rw [winClientY, TITLEBAR_H]
    omega
  have hclient : clientPicture g w p = none := by
    rw [← Option.not_isSome_iff_eq_none, client_isSome hw]
    omega
  have hmin : minPicture g (castU16 (w.x + winTotalW w - 34)) (castU16 (w.y + 4)) p = none := by
    rw [Option.eq_none_iff_forall_not_mem]
    intro c hc
    have hother := minPicture_within _ _ p c hc
    rw [Int.add_sub_assoc, in_cast (by omega) (by decide) (by omega) (by decide)] at hother
    omega
  have hback : (closePicture g (castU16 (w.x + winTotalW w - 18)) (castU16 (w.y + 4)) p).isSome =
      true := by
    have hfill := (rectPicture_isSome g _ _ 14 14 (fun _ _ => 0xAA0000) p).mpr hin
    simp only [closePicture, Picture.atop_isSome, Bool.or_eq_true]
    exact .inr (.inr (.inr hfill))
  obtain ⟨c, hc⟩ := Option.isSome_iff_exists.mp hback
  refine ⟨c, (closePicture_within _ _ p c hc).2, ?_⟩
  simp only [windowPicture, Picture.atop, hblit, hclient, hmin, hc, Option.none_or, Option.some_or]

end Contents

-- ---------------------------------------------------------------------------
-- All windows
-- ---------------------------------------------------------------------------

section Windows

variable {s : Windows (Int → Nat)} {scr : Screen} {p : Pixel g} {zpos : Nat}

/-- The picture of the window at a place of `g_zorder` -/
def placePicture (font : Font) (g : Fb.Gpu) (null : Int → Nat) (s : Windows (Int → Nat))
    (zpos : Nat) : Picture (Pixel g) (List UInt8) :=
  if (s.win (s.zorder zpos)).used then
    windowPicture font g null (s.win (s.zorder zpos)) (zpos = s.winCount - 1)
  else fun _ => none

theorem composeWindows_paints (ht : Target g) (hscreen : OnScreen g) (font : Font)
    (null : Int → Nat) (s : Windows (Int → Nat)) :
    Paints g (composeWindows font g null s)
      (Picture.stack (List.range s.winCount) (placePicture font g null s)) := by
  unfold composeWindows
  refine .foldl _ fun zpos _ => ?_
  dsimp only
  rw [placePicture]
  split
  · exact composeWindow_paints ht hscreen _ _
  · exact .nothing

theorem stack_hit (font : Font) (null : Int → Nat)
    (hplaced : ∀ zpos < s.winCount, (s.win (s.zorder zpos)).used = true →
      (s.win (s.zorder zpos)).Placed) (p : Pixel g) :
    Picture.stack (List.range s.winCount) (placePicture font g null s) p =
      (winHitTest s p.x p.y).bind fun zpos =>
        windowPicture font g null (s.win (s.zorder zpos)) (zpos = s.winCount - 1) p := by
  rw [Picture.stack_eq]
  have hsame : ((List.range s.winCount).reverse.find? fun zpos =>
      (placePicture font g null s zpos p).isSome) = winHitTest s p.x p.y := by
    refine List.find?_congr fun zpos hz => ?_
    have hz := List.mem_range.mp (List.mem_reverse.mp hz)
    rw [placePicture]
    split
    · next hused => simp [windowPicture_isSome (hplaced zpos hz hused), hused]
    · next hunused => simp [hunused]
  rw [hsame]
  cases hhit : winHitTest s p.x p.y with
  | none => rfl
  | some zpos =>
    have hused := List.find?_some hhit
    simp only [Bool.and_eq_true] at hused
    rw [Option.bind_some, Option.bind_some, placePicture, if_pos hused.1]

/-- What a pixel shows when the windows were drawn over `v` -/
structure ShowsHit (font : Font) (g : Fb.Gpu) (null : Int → Nat) (s : Windows (Int → Nat))
    (v : Video) (p : Pixel g) : Prop where
  beside : winHitTest s p.x p.y = none → pixelAt (composeWindows font g null s v) p = pixelAt v p
  /-- No other window and nothing below matters. -/
  window : ∀ zpos, winHitTest s p.x p.y = some zpos → ∀ v',
    pixelAt (composeWindows font g null s v) p =
      pixelAt (composeWindow font g null (s.win (s.zorder zpos)) (zpos = s.winCount - 1) v') p
  contents : ∀ zpos, winHitTest s p.x p.y = some zpos →
    let w := s.win (s.zorder zpos)
    pointIn p.x p.y (winClientX w) (winClientY w) w.cw w.ch = true →
    pixelAt (composeWindows font g null s v) p = pixelBytes (rtBpp g)
      (windowPixels null w (wrapInt ((p.y - winClientY w) * w.cw + (p.x - winClientX w))))
  closes : ∀ zpos, winHitTest s p.x p.y = some zpos →
    clickWindow s ⟨p.x, p.y⟩ zpos = .closeButton zpos →
    pixelAt (composeWindows font g null s v) p ∈ closeColors g

theorem showsHit_of_placed (ht : Target g) (hscreen : OnScreen g)
    (hplaced : ∀ zpos < s.winCount, (s.win (s.zorder zpos)).used = true →
      (s.win (s.zorder zpos)).Placed) (font : Font) (null : Int → Nat) (v : Video) (p : Pixel g) :
    ShowsHit font g null s v p := by
  have hpaints := composeWindows_paints ht hscreen font null s
  have hstack := stack_hit font null hplaced p
  have hhit : ∀ zpos, winHitTest s p.x p.y = some zpos →
      (s.win (s.zorder zpos)).Placed ∧ ∀ c,
        windowPicture font g null (s.win (s.zorder zpos)) (zpos = s.winCount - 1) p = some c →
          pixelAt (composeWindows font g null s v) p = c := by
    intro zpos hz
    have hused := List.find?_some hz
    simp only [Bool.and_eq_true] at hused
    refine ⟨hplaced zpos (winHitTest_lt hz) hused.1, fun c hc => hpaints.some ?_ v⟩
    rw [hstack, hz, Option.bind_some, hc]
  constructor
  · intro hnone
    exact hpaints.none (by rw [hstack, hnone, Option.bind_none]) v
  · intro zpos hz v'
    obtain ⟨hw, hsome⟩ := hhit zpos hz
    have hused := List.find?_some hz
    simp only [Bool.and_eq_true] at hused
    have hpic := (windowPicture_isSome hw font null (zpos = s.winCount - 1) p).trans hused.2
    obtain ⟨c, hc⟩ := Option.isSome_iff_exists.mp hpic
    rw [hsome c hc, (composeWindow_paints ht hscreen _ _).some hc]
  · intro zpos hz w hp
    obtain ⟨hw, hsome⟩ := hhit zpos hz
    exact hsome _ (windowPicture_client hw font null _ hp)
  · intro zpos hz hclick
    obtain ⟨hw, hsome⟩ := hhit zpos hz
    rw [clickWindow] at hclick
    split at hclick
    · next hp =>
      obtain ⟨c, hmem, hc⟩ := windowPicture_close hw font null (zpos = s.winCount - 1) hp
      rwa [hsome c hc]
    · split at hclick <;> cases hclick

/-- However the desktop was used on a screen with room for its windows, each pixel shows the window
that a click on it is for. -/
theorem desktopRun_showsHit (C : Canvas (Int → Nat) G) (hscr : scr.Roomy) (d : Desktop (Int → Nat))
    (terminalBuf aboutBuf : Option (Buffer (Int → Nat))) (steps : List (LoopStep (Int → Nat)))
    (ht : Target g) (hscreen : OnScreen g) (font : Font) (null : Int → Nat) (v : Video)
    (p : Pixel g) :
    ShowsHit font g null (desktopRun C scr (guiStart C d terminalBuf aboutBuf) steps).toWindows v
      p := by
  have hfit := desktopRun_allFit C hscr (guiStart_allFit C hscr d terminalBuf aboutBuf) steps
  have hordered := desktopRun_ordered C scr (guiStart_ordered C d terminalBuf aboutBuf) steps
  refine showsHit_of_placed ht hscreen (fun zpos hz hused => ?_) font null v p
  have hlen := hz.trans_eq (order_length _).symm
  have hmem := order_getElem hlen ▸ List.getElem_mem hlen
  exact (hfit _ ((hordered.mem _).mp hmem).1 hused).toPlaced

/-- The words of a buffer, from `buf` on -/
def wordsAt (buf : Nat) (pixels : Int → Nat) : Bytes := fun a =>
  UInt8.ofNat (pixels ((a - buf) / 4 : Nat) >>> (8 * ((a - buf) % 4)))

/-- `gpu.c` on buffers of words, which lie at `buf` while they are drawn on -/
def pixelCanvas (font : Font) (con : PixelConsole) (buf : Nat) :
    Canvas (Int → Nat) PixelConsole where
  toGpu := gpuPixels font
  fill color _ _ := color.toNat
  beginTarget pixels w h cols rows :=
    let target := gpuBeginTarget con.toGpu (if pixels.isSome then buf else 0) (.ofNat w) (.ofNat h)
    { con with
      toGpu := { target with gVpX := 0, gVpY := 0, gVpCols := .ofNat cols, gVpRows := .ofNat rows }
      video :=
        match pixels with
        | some pixels => ⟨wordsAt buf pixels, []⟩
        | none => con.video }
  endTarget con i := pixelValue 32 con.video.bytes (buf + 4 * i.toNat)

def screenCanvas : Canvas (Int → Nat) PixelConsole :=
  pixelCanvas blockFont ⟨terminalScreen, 0, ⟨ascending, []⟩⟩ 0x1000

/-- A third window was opened, and the pixel is in its client area. -/
theorem desktopRun_showsHit_icon :
    ShowsHit blockFont terminalScreen (fun _ => 0)
      (desktopRun screenCanvas ⟨1024, 768⟩
        (guiStart screenCanvas .boot (some ⟨0x200000, fun _ => 0⟩) (some ⟨0x300000, fun _ => 0⟩))
        [.pointer ⟨-472, 334, 1, false, some ⟨0x400000, fun _ => 0⟩, []⟩]).toWindows
      ⟨ascending, []⟩ ⟨210, 100, by decide, by decide⟩ :=
  desktopRun_showsHit screenCanvas ⟨by decide, by decide⟩ .boot _ _ _ ⟨.inr (.inr rfl), by decide⟩
    ⟨rfl, .inr (.inr rfl), by decide, by decide⟩ blockFont _ _ _

end Windows

end EponaOS.Kernel
