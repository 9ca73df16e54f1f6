import EponaOS.Drivers.Regions
import EponaOS.Drivers.Scroll
import EponaOS.Lib.Painter

/-!
# Characters, text and window contents as pictures

`gpu.c`: a character, a line of text and the buffer of a window are rectangles with a color for each
pixel. Coordinates have 16 bits; what goes over the last one comes in again at the left or the top.
-/

namespace EponaOS.Drivers.Fb

open Bytes Kernel

/-- `VGA_FONT_8X16` -/
abbrev Font := Nat → UInt8

/-- `(bits & (0x80 >> gx)) ? fg : bg` -/
def glyphPixel (font : Font) (ch : UInt8) (fg bg gy gx : Nat) : Nat :=
  if (font (ch.toNat * FONT_H + gy)).toNat &&& (0x80 >>> gx) ≠ 0 then fg else bg

/-- A rectangle of `w` by `h` pixels; `color yy xx` is the color of a pixel. -/
def paintRect (g : Gpu) (x y : UInt16) (w h : Nat) (color : Nat → Nat → Nat) (v : Video) : Video :=
  nested (List.range h) (List.range w)
    (fun v yy xx =>
      fbPutPixel g ((x.toNat + xx) % 2 ^ 16) ((y.toNat + yy) % 2 ^ 16) (color yy xx) v) v

def fbDrawCharPx (font : Font) (g : Gpu) (x y : UInt16) (ch : UInt8) (fg bg : Nat) (v : Video) :
    Video :=
  paintRect g x y FONT_W FONT_H (glyphPixel font ch fg bg) v

def fbDrawChar (font : Font) (g : Gpu) (row col : Nat) (ch fg bg : UInt8) (v : Video) : Video :=
  let x := UInt16.ofNat (g.gVpX.toNat + col * FONT_W)
  let y := UInt16.ofNat (g.gVpY.toNat + row * FONT_H)
  paintRect g x y FONT_W FONT_H (glyphPixel font ch (rgbForColor fg) (rgbForColor bg)) v

def gpuDrawText (font : Font) (g : Gpu) (x y : UInt16) (s : List UInt8) (fg bg : Nat) (v : Video) :
    Video :=
  if g.gFbEnabled then
    s.zipIdx.foldl
      (fun v c => fbDrawCharPx font g (x + UInt16.ofNat (c.2 * FONT_W)) y c.1 fg bg v) v
  else v

def gpuFillRect (g : Gpu) (x y w h : UInt16) (rgb : Nat) (v : Video) : Video :=
  if g.gFbEnabled then fbFillRect g x y w h rgb v else v

def gpuPutPixel (g : Gpu) (x y : UInt16) (rgb : Nat) (v : Video) : Video :=
  if g.gFbEnabled then fbPutPixel g x.toNat y.toNat rgb v else v

/-- The loops are those of `gpu_restore_region`. -/
def gpuBlitBuffer (g : Gpu) (buf : Int → Nat) (bw bh dstX dstY : UInt16) (v : Video) : Video :=
  if g.gFbEnabled then
    nested (rowsShown g dstY bh) (List.range bw.toNat) (restorePixel g buf dstX dstY bw) v
  else v

-- ---------------------------------------------------------------------------
-- Pixels of the target
-- ---------------------------------------------------------------------------

structure Pixel (g : Gpu) where
  x : Nat
  y : Nat
  x_lt : x < rtWidth g
  y_lt : y < rtHeight g

variable {g : Gpu} {v : Video} {x y : UInt16} {w h n px py xx yy rgb : Nat} {p : Pixel g}
  {color : Nat → Nat → Nat} {font : Font} {f : Video → Video} {pic : Picture (Pixel g) (List UInt8)}

def pixelAt (v : Video) (p : Pixel g) : List UInt8 :=
  (List.range (rtBpp g / 8)).map fun k => v.bytes (pixelAddr g p.x p.y + k)

structure Confined (g : Gpu) (v v' : Video) : Prop where
  beside : ∀ a, ¬ InBuffer g a → v'.bytes a = v.bytes a
  accessed : ∀ a ∈ v'.accessed, a ∈ v.accessed ∨ InBuffer g a

theorem Confined.refl (v : Video) : Confined g v v := ⟨fun _ _ => rfl, fun _ ha => .inl ha⟩

theorem Confined.trans {v' v'' : Video} (h : Confined g v v') (h' : Confined g v' v'') :
    Confined g v v'' where
  beside a ha := by rw [h'.beside a ha, h.beside a ha]
  accessed a ha := (h'.accessed a ha).elim (h.accessed a) .inr

/-- The bytes are of a color as `fb_put_pixel` stores it. -/
def Stored (g : Gpu) (c : List UInt8) : Prop := ∃ rgb, c = pixelBytes (rtBpp g) rgb

structure Paints (g : Gpu) (f : Video → Video) (pic : Picture (Pixel g) (List UInt8)) : Prop
    extends Draws pixelAt f pic where
  confined : ∀ v, Confined g v (f v)
  stored : pic.Within fun _ c => Stored g c

theorem Paints.comp {f' : Video → Video} {pic' : Picture (Pixel g) (List UInt8)}
    (h : Paints g f pic) (h' : Paints g f' pic') :
    Paints g (fun v => f' (f v)) (pic'.atop pic) :=
  ⟨h.toDraws.comp h'.toDraws, fun v => (h.confined v).trans (h'.confined _),
    h'.stored.atop h.stored⟩

theorem Paints.congr {pic' : Picture (Pixel g) (List UInt8)} (h : Paints g f pic)
    (heq : ∀ p, pic p = pic' p) : Paints g f pic' :=
  ⟨h.toDraws.congr heq, h.confined, fun p c hc => h.stored p c ((heq p).trans hc)⟩

theorem Paints.nothing : Paints g id fun _ => none := ⟨.nothing, .refl, Picture.within_none _⟩

theorem Paints.foldl {α : Type} {f : Video → α → Video} {pic : α → Picture (Pixel g) (List UInt8)}
    (l : List α) (h : ∀ a ∈ l, Paints g (fun v => f v a) (pic a)) :
    Paints g (fun v => l.foldl f v) (Picture.stack l pic) where
  toDraws := .foldl l fun a ha => (h a ha).toDraws
  confined v := List.foldlRecOn l f (.refl v) fun _ hv a ha => hv.trans ((h a ha).confined _)
  stored := .stack fun a ha => (h a ha).stored

def Paintable (g : Gpu) (f : Video → Video) : Prop :=
  ∃ pic : Picture (Pixel g) (List UInt8), Paints g f pic

theorem Paints.able (h : Paints g f pic) : Paintable g f := ⟨pic, h⟩

theorem Paintable.comp {f' : Video → Video} (h : Paintable g f) (h' : Paintable g f') :
    Paintable g fun v => f' (f v) := by
  obtain ⟨_, h⟩ := h
  obtain ⟨_, h'⟩ := h'
  exact ⟨_, h.comp h'⟩

theorem Paintable.ite {c : Prop} [Decidable c] {f' : Video → Video} (h : Paintable g f)
    (h' : Paintable g f') : Paintable g fun v => if c then f v else f' v := by
  by_cases hc : c
  · simpa [hc] using h
  · simpa [hc] using h'

theorem Paintable.rounds {α : Type} {round : Int × Video → α → Int × Video}
    (next : Int → α → Int) {f : Int → α → Video → Video}
    (hround : ∀ r a, round r a = (next r.1 a, f r.1 a r.2)) (hf : ∀ i a, Paintable g (f i a))
    (l : List α) (i : Int) : Paintable g fun v => (l.foldl round (i, v)).2 := by
  induction l generalizing i with
  | nil => exact Paints.nothing.able
  | cons a l ih =>
    simp only [List.foldl_cons, hround]
    exact (hf i a).comp (ih (next i a))

theorem pixelAt_put_self (h : Depth (rtBpp g)) (p : Pixel g) (rgb : Nat) (v : Video) :
    pixelAt (fbPutPixel g p.x p.y rgb v) p = pixelBytes (rtBpp g) rgb := by
  apply List.ext_getElem?
  intro k
  rw [pixelAt, List.getElem?_map]
  by_cases hk : k < rtBpp g / 8
  · rw [List.getElem?_range hk, Option.map_some]
    exact fbPutPixel_sets h p.x_lt p.y_lt hk rgb v
  · have hlen := pixelBytes_length h rgb
    rw [List.getElem?_eq_none (by simpa using hk), List.getElem?_eq_none (by omega)]
    rfl

theorem pixelAt_put_ne (ht : Target g) (p : Pixel g) (hne : (px, py) ≠ (p.x, p.y)) (rgb : Nat)
    (v : Video) : pixelAt (fbPutPixel g px py rgb v) p = pixelAt v p := by
  refine List.map_congr_left fun k hk => fbPutPixel_keeps ht.depth fun hx _ k' hk' heq => hne ?_
  obtain ⟨rfl, rfl, -⟩ := ht.pixel_inj p.x_lt hx (List.mem_range.mp hk) hk' heq
  rfl

theorem fbPutPixel_paints (ht : Target g) (px py rgb : Nat) :
    Paints g (fbPutPixel g px py rgb) fun p =>
      if (px, py) = (p.x, p.y) then some (pixelBytes (rtBpp g) rgb) else none where
  seen v p := by
    split
    · next heq =>
      cases heq
      exact pixelAt_put_self ht.depth p rgb v
    · next hne => exact pixelAt_put_ne ht p hne rgb v
  confined v := {
    beside := fun a ha => fbPutPixel_keeps ht.depth fun hx hy k hk heq =>
      ha (heq ▸ ht.inBuffer hx hy hk)
    accessed := fun _ ha => fbPutPixel_accessed ht ha }
  stored p c hc := by
    dsimp only at hc
    split at hc
    · exact ⟨rgb, (Option.some.inj hc).symm⟩
    · cases hc

-- ---------------------------------------------------------------------------
-- Rectangles
-- ---------------------------------------------------------------------------

/-- How far `px` is to the right of (or below) `x`, for coordinates of 16 bits -/
def offset (px : Nat) (x : UInt16) : Nat := (px + 2 ^ 16 - x.toNat) % 2 ^ 16

theorem offset_eq_iff (hpx : px < 2 ^ 16) (hxx : xx < 2 ^ 16) :
    (x.toNat + xx) % 2 ^ 16 = px ↔ xx = offset px x := by
  have hx := x.toNat_lt
  rw [offset]
  omega

theorem offset_lt (px : Nat) (x : UInt16) : offset px x < 2 ^ 16 := Nat.mod_lt _ (by decide)

/-- A rectangle that starts `k` further to the right or below -/
theorem offset_add_lt (hk : k + n ≤ 2 ^ 16) (px : Nat) :
    offset px (.ofNat (x.toNat + k)) < n ↔ k ≤ offset px x ∧ offset px x < k + n := by
  have hx := x.toNat_lt
  rw [offset, offset, UInt16.toNat_ofNat']
  omega

theorem offset_last {w : UInt16} (hw : 0 < w.toNat) (px : Nat) :
    offset px (x + w - 1) < 1 ↔ offset px x + 1 = w.toNat := by
  have hx := x.toNat_lt
  have hw' := w.toNat_lt
  have hone : (1 : UInt16).toNat = 1 := rfl
  rw [offset, offset, UInt16.toNat_sub, UInt16.toNat_add, hone]
  omega

theorem offset_of_le (hpx : px < 2 ^ 16) (hle : x.toNat ≤ px) : offset px x = px - x.toNat := by
  rw [offset]
  omega

def Pixel.In (p : Pixel g) (x y : UInt16) (w h : Nat) : Prop := offset p.x x < w ∧ offset p.y y < h

instance (p : Pixel g) (x y : UInt16) (w h : Nat) : Decidable (p.In x y w h) :=
  inferInstanceAs (Decidable (_ ∧ _))

def rectPicture (g : Gpu) (x y : UInt16) (w h : Nat) (color : Nat → Nat → Nat) :
    Picture (Pixel g) (List UInt8) := fun p =>
  if p.In x y w h then some (pixelBytes (rtBpp g) (color (offset p.y y) (offset p.x x))) else none

def fillPicture (g : Gpu) (x y w h : UInt16) (rgb : Nat) : Picture (Pixel g) (List UInt8) :=
  rectPicture g x y w.toNat h.toNat fun _ _ => rgb

def dotPicture (g : Gpu) (x y : UInt16) (rgb : Nat) : Picture (Pixel g) (List UInt8) :=
  rectPicture g x y 1 1 fun _ _ => rgb

theorem Pixel.x_lt_16 (p : Pixel g) : p.x < 2 ^ 16 := p.x_lt.trans (rtWidth_lt g)

theorem Pixel.y_lt_16 (p : Pixel g) : p.y < 2 ^ 16 := p.y_lt.trans (rtHeight_lt g)

theorem round_eq_iff (p : Pixel g) (hxx : xx < 2 ^ 16) (hyy : yy < 2 ^ 16) :
    ((x.toNat + xx) % 2 ^ 16, (y.toNat + yy) % 2 ^ 16) = (p.x, p.y) ↔
      xx = offset p.x x ∧ yy = offset p.y y := by
  rw [Prod.mk.injEq, offset_eq_iff p.x_lt_16 hxx, offset_eq_iff p.y_lt_16 hyy]

theorem rounds_paint (ht : Target g) (ys : List Nat) (hy : ∀ yy ∈ ys, yy < 2 ^ 16)
    (hw : w ≤ 2 ^ 16) (f : Video → Nat → Nat → Video) (dot : Nat → Nat → Option Nat)
    (hf : ∀ yy ∈ ys, ∀ xx < w, ∀ v, f v yy xx = (dot yy xx).elim v fun rgb =>
      fbPutPixel g ((x.toNat + xx) % 2 ^ 16) ((y.toNat + yy) % 2 ^ 16) rgb v) :
    Paints g (nested ys (List.range w) f) fun p =>
      if offset p.x x < w ∧ offset p.y y ∈ ys then
        (dot (offset p.y y) (offset p.x x)).map (pixelBytes (rtBpp g))
      else none where
  seen v p := by
    have hround : ∀ yy ∈ ys, ∀ xx ∈ List.range w, ∀ v, pixelAt (f v yy xx) p =
        if xx = offset p.x x ∧ yy = offset p.y y then
          ((dot yy xx).map (pixelBytes (rtBpp g))).getD (pixelAt v p)
        else pixelAt v p := by
      intro yy hyy xx hxx v
      have hxx := List.mem_range.mp hxx
      rw [hf yy hyy xx hxx]
      cases hdot : dot yy xx with
      | none => exact (ite_self _).symm
      | some rgb =>
        rw [Option.elim_some, (fbPutPixel_paints ht _ _ _).seen]
        simp only [round_eq_iff p (hxx.trans_le hw) (hy yy hyy)]
        split <;> rfl
    have hother : (∀ yy ∈ ys, ∀ xx ∈ List.range w, xx = offset p.x x ∧ yy = offset p.y y →
        dot yy xx = none) → pixelAt (nested ys (List.range w) f v) p = pixelAt v p := by
      refine fun hnone => nested_keeps (fun v => pixelAt v p) (fun yy hyy xx hxx v => ?_) v
      rw [hround yy hyy xx hxx]
      split
      · next heq => rw [hnone yy hyy xx hxx heq, Option.map_none, Option.getD_none]
      · rfl
    split
    · next hin =>
      cases hdot : dot (offset p.y y) (offset p.x x) with
      | none =>
        refine hother fun yy hyy xx hxx heq => ?_
        rw [heq.1, heq.2, hdot]
      | some rgb =>
        refine nested_sets (fun v => pixelAt v p) hin.2 (List.mem_range.mpr hin.1) (fun v => ?_)
          (fun yy hyy xx hxx hne v => ?_) v
        · rw [hround _ hin.2 _ (List.mem_range.mpr hin.1), if_pos ⟨rfl, rfl⟩, hdot]
          rfl
        · rw [hround yy hyy xx hxx, if_neg]
          rintro ⟨rfl, rfl⟩
          exact hne rfl
    · next hout =>
      refine hother fun yy hyy xx hxx heq => absurd ⟨?_, ?_⟩ hout
      · exact heq.1 ▸ List.mem_range.mp hxx
      · exact heq.2 ▸ hyy
  confined v := nested_always (.refl v) fun yy hyy xx hxx w hw => by
    rw [hf yy hyy xx (List.mem_range.mp hxx)]
    cases dot yy xx with
    | none => exact hw
    | some rgb => exact hw.trans ((fbPutPixel_paints ht _ _ _).confined w)
  stored p c hc := by
    dsimp only at hc
    split at hc
    · obtain ⟨rgb, -, hc⟩ := Option.map_eq_some_iff.mp hc
      exact ⟨rgb, hc.symm⟩
    · cases hc

theorem paintRect_paints (ht : Target g) (x y : UInt16) (hw : w ≤ 2 ^ 16) (hh : h ≤ 2 ^ 16)
    (color : Nat → Nat → Nat) :
    Paints g (paintRect g x y w h color) (rectPicture g x y w h color) := by
  refine (rounds_paint (y := y) ht (List.range h) (fun yy hyy => ?_) hw _
    (fun yy xx => some (color yy xx)) fun _ _ _ _ _ => rfl).congr fun p => ?_
  · exact (List.mem_range.mp hyy).trans_le hh
  · exact if_congr (and_congr_right' List.mem_range) rfl rfl

theorem fbFillRect_paints (ht : Target g) (x y w h : UInt16) (rgb : Nat) :
    Paints g (fbFillRect g x y w h rgb) (fillPicture g x y w h rgb) :=
  paintRect_paints ht x y (Nat.le_of_lt w.toNat_lt) (Nat.le_of_lt h.toNat_lt) _

theorem rectPicture_isSome (g : Gpu) (x y : UInt16) (w h : Nat) (color : Nat → Nat → Nat)
    (p : Pixel g) : (rectPicture g x y w h color p).isSome = true ↔ p.In x y w h := by
  rw [rectPicture]
  split
  · next hin => exact iff_of_true rfl hin
  · next hout => exact iff_of_false nofun hout

theorem rectPicture_within (g : Gpu) (x y : UInt16) (w h : Nat) (color : Nat → Nat → Nat) :
    Picture.Within (rectPicture g x y w h color) fun p c =>
      p.In x y w h ∧ ∃ yy xx, c = pixelBytes (rtBpp g) (color yy xx) := by
  intro p c hc
  rw [rectPicture] at hc
  split at hc
  · next hin =>
    cases hc
    exact ⟨hin, _, _, rfl⟩
  · cases hc

theorem gpuFillRect_paints (ht : Target g) (hscreen : OnScreen g) (x y w h : UInt16) (rgb : Nat) :
    Paints g (gpuFillRect g x y w h rgb) (fillPicture g x y w h rgb) := by
  have hrun : gpuFillRect g x y w h rgb = fbFillRect g x y w h rgb :=
    funext fun v => if_pos hscreen.enabled
  rw [hrun]
  exact fbFillRect_paints ht x y w h rgb

theorem gpuPutPixel_paints (ht : Target g) (hscreen : OnScreen g) (x y : UInt16) (rgb : Nat) :
    Paints g (gpuPutPixel g x y rgb) (dotPicture g x y rgb) := by
  have hrun : gpuPutPixel g x y rgb = paintRect g x y 1 1 fun _ _ => rgb := by
    funext v
    have hx := Nat.mod_eq_of_lt x.toNat_lt
    have hy := Nat.mod_eq_of_lt y.toNat_lt
    simp [gpuPutPixel, hscreen.enabled, paintRect, nested, hx, hy]
  rw [hrun]
  exact paintRect_paints ht x y (by decide) (by decide) _

def textPicture (font : Font) (g : Gpu) (x y : UInt16) (s : List UInt8) (fg bg : Nat) :
    Picture (Pixel g) (List UInt8) :=
  Picture.stack s.zipIdx fun c =>
    rectPicture g (x + UInt16.ofNat (c.2 * FONT_W)) y FONT_W FONT_H (glyphPixel font c.1 fg bg)

theorem gpuDrawText_paints (ht : Target g) (hscreen : OnScreen g) (font : Font) (x y : UInt16)
    (s : List UInt8) (fg bg : Nat) :
    Paints g (gpuDrawText font g x y s fg bg) (textPicture font g x y s fg bg) := by
  have hrun : gpuDrawText font g x y s fg bg = fun v => s.zipIdx.foldl
      (fun v c => fbDrawCharPx font g (x + UInt16.ofNat (c.2 * FONT_W)) y c.1 fg bg v) v :=
    funext fun v => if_pos hscreen.enabled
  rw [hrun]
  exact .foldl _ fun c _ => paintRect_paints ht _ y (by decide) (by decide) _

/-- The picture that a buffer gives: its rows do not come in again at the top. -/
def blitPicture (g : Gpu) (buf : Int → Nat) (bw bh dstX dstY : UInt16) :
    Picture (Pixel g) (List UInt8) := fun p =>
  if offset p.x dstX < bw.toNat ∧ dstY.toNat ≤ p.y ∧ p.y < dstY.toNat + bh.toNat then
    some (pixelBytes (rtBpp g) (buf (regionIndex bw (p.y - dstY.toNat) (offset p.x dstX))))
  else none

/-- The columns that `gpu_blit_buffer` leaves out are beside the target. -/
theorem restorePixel_put (hscreen : OnScreen g) (buf : Int → Nat) (x y w : UInt16) (yy xx : Nat)
    (v : Video) : restorePixel g buf x y w v yy xx =
      fbPutPixel g ((x.toNat + xx) % 2 ^ 16) ((y.toNat + yy) % 2 ^ 16) (buf (regionIndex w yy xx))
        v := by
  rw [restorePixel]
  split
  · rfl
  · next hout =>
    have hright := hscreen.width_le.trans (Nat.le_of_not_lt hout)
    rw [fbPutPixel, if_pos (.inl hright)]

theorem offset_mem_rowsShown (hscreen : OnScreen g) (p : Pixel g) :
    offset p.y y ∈ rowsShown g y bh ↔ y.toNat ≤ p.y ∧ p.y < y.toNat + bh.toNat := by
  have hp := p.y_lt.trans_le hscreen.height_le
  have hy := y.toNat_lt
  have hscr := g.gFbHeight.toNat_lt
  rw [mem_rowsShown, offset]
  omega

theorem gpuBlitBuffer_paints (ht : Target g) (hscreen : OnScreen g) (buf : Int → Nat)
    (bw bh dstX dstY : UInt16) :
    Paints g (gpuBlitBuffer g buf bw bh dstX dstY) (blitPicture g buf bw bh dstX dstY) := by
  have hrows : ∀ yy ∈ rowsShown g dstY bh, yy < 2 ^ 16 := fun yy hyy =>
    (mem_rowsShown.mp hyy).1.trans bh.toNat_lt
  have hpaint := rounds_paint ht _ hrows (Nat.le_of_lt bw.toNat_lt) _
    (fun yy xx => some (buf (regionIndex bw yy xx)))
    fun yy _ xx _ => restorePixel_put hscreen buf dstX dstY bw yy xx
  have hrun : gpuBlitBuffer g buf bw bh dstX dstY = nested (rowsShown g dstY bh)
      (List.range bw.toNat) (restorePixel g buf dstX dstY bw) :=
    funext fun v => if_pos hscreen.enabled
  rw [hrun]
  refine hpaint.congr fun p => ?_
  simp only [blitPicture, offset_mem_rowsShown hscreen p]
  split
  · next hin => rw [offset_of_le p.y_lt_16 hin.2.1, Option.map_some]
  · rfl

end EponaOS.Drivers.Fb
