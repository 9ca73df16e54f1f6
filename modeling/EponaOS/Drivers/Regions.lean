import EponaOS.Drivers.Framebuffer
import EponaOS.Kernel.Term

/-!
# Saving what is under a region

`gpu_save_region` and `gpu_restore_region` of `gpu.c`. The columns of a region that goes over the
right edge of the coordinates go on at the left; the rows end at the edge of the screen.
-/

namespace EponaOS.Drivers.Fb

open Bytes Kernel
open Function (update)

/-- The rows before `if (py >= g_fb_height) break;` -/
def rowsShown (g : Gpu) (y h : UInt16) : List Nat :=
  (List.range h.toNat).takeWhile fun yy => (y.toNat + yy) % 2 ^ 16 < g.gFbHeight.toNat

/-- `yy * w + xx`, of `int` -/
def regionIndex (w : UInt16) (yy xx : Nat) : Int := wrapInt (yy * w.toNat + xx)

/-- A round of the loops of `gpu_save_region` -/
def savePixel (g : Gpu) (m : Bytes) (x y w : UInt16) (dst : Int → Nat) (yy xx : Nat) : Int → Nat :=
  let py := (y.toNat + yy) % 2 ^ 16
  let px := (x.toNat + xx) % 2 ^ 16
  update dst (regionIndex w yy xx) (if px < g.gFbWidth.toNat then fbGetPixel g px py m else 0)

def gpuSaveRegion (g : Gpu) (dst : Int → Nat) (x y w h : UInt16) (m : Bytes) : Int → Nat :=
  if g.gFbEnabled then
    nested (rowsShown g y h) (List.range w.toNat) (savePixel g m x y w) dst
  else dst

/-- A round of the loops of `gpu_restore_region` -/
def restorePixel (g : Gpu) (src : Int → Nat) (x y w : UInt16) (v : Video) (yy xx : Nat) : Video :=
  let py := (y.toNat + yy) % 2 ^ 16
  let px := (x.toNat + xx) % 2 ^ 16
  if px < g.gFbWidth.toNat then fbPutPixel g px py (src (regionIndex w yy xx)) v else v

def gpuRestoreRegion (g : Gpu) (src : Int → Nat) (x y w h : UInt16) (v : Video) : Video :=
  if g.gFbEnabled then
    nested (rowsShown g y h) (List.range w.toNat) (restorePixel g src x y w) v
  else v

/-- The framebuffer is there, and what is drawn on is it, or is no larger. -/
structure OnScreen (g : Gpu) : Prop where
  enabled : g.gFbEnabled = true
  depth : Depth (rtBpp g)
  width_le : rtWidth g ≤ g.gFbWidth.toNat
  height_le : rtHeight g ≤ g.gFbHeight.toNat

structure RegionPixel (g : Gpu) (x y w h : UInt16) (px py : Nat) : Prop where
  column : ∃ xx < w.toNat, px = (x.toNat + xx) % 2 ^ 16
  row : ∃ yy < h.toNat, py = y.toNat + yy
  width : px < rtWidth g
  height : py < rtHeight g

def RegionByte (g : Gpu) (x y w h : UInt16) (a : Nat) : Prop :=
  ∃ px py k, RegionPixel g x y w h px py ∧ k < rtBpp g / 8 ∧ a = pixelAddr g px py + k

/-- The byte of a 32-bit pixel that is no colour. -/
def ReservedByte (g : Gpu) (x y w h : UInt16) (a : Nat) : Prop :=
  ∃ px py, RegionPixel g x y w h px py ∧ rtBpp g = 32 ∧ a = pixelAddr g px py + 3

variable {g : Gpu} {x y w h : UInt16} {m : Bytes} {v : Video} {dst : Int → Nat}
  {a px py xx yy k : Nat}

theorem onScreen_framebuffer (h : g.gFbEnabled = true) (htarget : g.gRenderTarget = 0)
    (hdepth : Depth g.gFbBpp.toNat) : OnScreen g where
  enabled := h
  depth := by rwa [rtBpp, if_neg (not_not.mpr htarget)]
  width_le := by rw [rtWidth, if_neg (not_not.mpr htarget)]
  height_le := by rw [rtHeight, if_neg (not_not.mpr htarget)]

theorem mem_rowsShown : yy ∈ rowsShown g y h ↔ yy < h.toNat ∧ y.toNat + yy < g.gFbHeight.toNat := by
  have hy := y.toNat_lt
  have hheight := g.gFbHeight.toNat_lt
  rw [rowsShown, mem_takeWhile_range]
  simp only [decide_eq_true_eq]
  refine and_congr_right fun _ => ⟨fun hall => ?_, fun hrow j hj => ?_⟩
  · by_contra hbelow
    have hedge := hall (2 ^ 16 - 1 - y.toNat)
    have hlast := hall yy (Nat.le_refl yy)
    by_cases hwrap : y.toNat + yy < 2 ^ 16
    · rw [Nat.mod_eq_of_lt hwrap] at hlast
      exact hbelow hlast
    · have := hedge (by omega)
      omega
  · rw [Nat.mod_eq_of_lt (by omega)]
    omega

-- ---------------------------------------------------------------------------
-- What is saved
-- ---------------------------------------------------------------------------

theorem regionIndex_inj (hy : yy < 2 ^ 16) (hy' : yy' < 2 ^ 16) (hx : xx < w.toNat)
    (hx' : xx' < w.toNat) (h : regionIndex w yy xx = regionIndex w yy' xx') :
    (yy, xx) = (yy', xx') := by
  have hw := w.toNat_lt
  have hlt : ∀ y x, y < 2 ^ 16 → x < w.toNat → y * w.toNat + x < 2 ^ 32 := by
    intro y x hy hx
    have := Nat.mul_le_mul (Nat.le_sub_one_of_lt hy) (Nat.le_sub_one_of_lt hw)
    omega
  have hmod := congrArg (· % ((2 ^ 32 : Nat) : Int)) h
  simp only [regionIndex, wrapInt] at hmod
  rw [Int.bmod_emod, Int.bmod_emod] at hmod
  have h1 := hlt yy xx hy hx
  have h2 := hlt yy' xx' hy' hx'
  refine cell_inj hx hx' ?_
  omega

theorem gpuSaveRegion_get (hscreen : OnScreen g) (hy : yy ∈ rowsShown g y h) (hx : xx < w.toNat)
    (hpx : (x.toNat + xx) % 2 ^ 16 < g.gFbWidth.toNat) :
    gpuSaveRegion g dst x y w h m (regionIndex w yy xx) =
      fbGetPixel g ((x.toNat + xx) % 2 ^ 16) ((y.toNat + yy) % 2 ^ 16) m := by
  have hh := h.toNat_lt
  have hrow : ∀ yy ∈ rowsShown g y h, yy < 2 ^ 16 := fun yy hy => by
    have := (mem_rowsShown.mp hy).1
    omega
  rw [gpuSaveRegion, if_pos hscreen.enabled]
  refine nested_sets (fun dst : Int → Nat => dst (regionIndex w yy xx)) hy (List.mem_range.mpr hx)
    (fun dst => ?_) (fun y' hy' x' hx' hne dst => ?_) dst
  · rw [savePixel, Function.update_self, if_pos hpx]
  · rw [savePixel]
    exact Function.update_of_ne (fun heq => hne (regionIndex_inj (hrow y' hy') (hrow yy hy)
      (List.mem_range.mp hx') hx heq.symm)) ..

-- ---------------------------------------------------------------------------
-- What is restored
-- ---------------------------------------------------------------------------

theorem putPixel_getPixel (hdepth : Depth (rtBpp g)) (hx : px < rtWidth g) (hy : py < rtHeight g)
    (hk : k < min (rtBpp g / 8) 3) (m : Bytes) (v : Video) :
    (fbPutPixel g px py (fbGetPixel g px py m) v).bytes (pixelAddr g px py + k) =
      m (pixelAddr g px py + k) := by
  have hin : ¬ (px ≥ rtWidth g ∨ py ≥ rtHeight g) := by omega
  rw [fbPutPixel, fbGetPixel, if_neg hin, if_neg hin]
  generalize pixelAddr g px py = p
  have hput := putBytes_has v.bytes p (pixelBytes (rtBpp g) (pixelValue (rtBpp g) m p))
  have hcolour : HasBytes m p ((pixelBytes (rtBpp g) (pixelValue (rtBpp g) m p)).take 3) := by
    obtain hb | hb | hb := hdepth
    · rw [hb, pixelBytes_16]
      exact ⟨rfl, rfl, trivial⟩
    · rw [hb, pixelBytes_24]
      exact ⟨rfl, rfl, rfl, trivial⟩
    · rw [hb, pixelBytes_32]
      exact ⟨rfl, rfl, rfl, trivial⟩
  have hlen := pixelBytes_length hdepth (pixelValue (rtBpp g) m p)
  have h1 := hasBytes_iff.mp hput k (by omega)
  have h2 := hasBytes_iff.mp hcolour k (by rw [List.length_take]; omega)
  rw [List.getElem_take] at h2
  exact h1.trans h2.symm

theorem colour_of_not_reserved (hdepth : Depth (rtBpp g)) (hpixel : RegionPixel g x y w h px py)
    (hk : k < rtBpp g / 8) (ha : ¬ ReservedByte g x y w h (pixelAddr g px py + k)) :
    k < min (rtBpp g / 8) 3 := by
  have hk3 : ¬ (rtBpp g = 32 ∧ k = 3) := fun ⟨hbpp, hk⟩ => ha ⟨_, _, hpixel, hbpp, by rw [hk]⟩
  rw [Depth] at hdepth
  omega

theorem restorePixel_eq (hscreen : OnScreen g) (hy : yy ∈ rowsShown g y h) (hx : xx < w.toNat)
    (hpx : (x.toNat + xx) % 2 ^ 16 < rtWidth g) (v : Video) :
    restorePixel g (gpuSaveRegion g dst x y w h m) x y w v yy xx =
      fbPutPixel g ((x.toNat + xx) % 2 ^ 16) (y.toNat + yy)
        (fbGetPixel g ((x.toNat + xx) % 2 ^ 16) (y.toNat + yy) m) v := by
  have hfb := g.gFbHeight.toNat_lt
  have hrow := (mem_rowsShown.mp hy).2
  have hin := Nat.lt_of_lt_of_le hpx hscreen.width_le
  have hpy : (y.toNat + yy) % 2 ^ 16 = y.toNat + yy := Nat.mod_eq_of_lt (by omega)
  rw [restorePixel, gpuSaveRegion_get hscreen hy hx hin, hpy]
  exact if_pos hin

theorem restorePixel_round (hscreen : OnScreen g) (ha : ¬ ReservedByte g x y w h a)
    (hy : yy ∈ rowsShown g y h) (hx : xx < w.toNat) (v : Video) :
    (restorePixel g (gpuSaveRegion g dst x y w h m) x y w v yy xx).bytes a = v.bytes a ∨
      (restorePixel g (gpuSaveRegion g dst x y w h m) x y w v yy xx).bytes a = m a := by
  by_cases hin : (x.toNat + xx) % 2 ^ 16 < rtWidth g ∧ y.toNat + yy < rtHeight g
  · rw [restorePixel_eq hscreen hy hx hin.1]
    by_cases hcover : ∃ k < rtBpp g / 8,
        a = pixelAddr g ((x.toNat + xx) % 2 ^ 16) (y.toNat + yy) + k
    · obtain ⟨k, hk, rfl⟩ := hcover
      have hpixel : RegionPixel g x y w h ((x.toNat + xx) % 2 ^ 16) (y.toNat + yy) :=
        ⟨⟨xx, hx, rfl⟩, ⟨yy, (mem_rowsShown.mp hy).1, rfl⟩, hin.1, hin.2⟩
      have hcolour := colour_of_not_reserved hscreen.depth hpixel hk ha
      exact .inr (putPixel_getPixel hscreen.depth hin.1 hin.2 hcolour m v)
    · exact .inl (fbPutPixel_keeps hscreen.depth fun _ _ k hk heq => hcover ⟨k, hk, heq⟩)
  · have hout : ∀ c, fbPutPixel g ((x.toNat + xx) % 2 ^ 16) ((y.toNat + yy) % 2 ^ 16) c v = v := by
      have hfb := g.gFbHeight.toNat_lt
      have hrow := (mem_rowsShown.mp hy).2
      intro c
      rw [fbPutPixel, if_pos (by omega)]
    left
    rw [restorePixel, hout, ite_self]

/-- What was drawn on pixels of the region is gone from all bytes that are colours. -/
theorem gpuRestoreRegion_undoes (hscreen : OnScreen g)
    (hdrawn : ∀ a, ¬ RegionByte g x y w h a → v.bytes a = m a) (ha : ¬ ReservedByte g x y w h a) :
    (gpuRestoreRegion g (gpuSaveRegion g dst x y w h m) x y w h v).bytes a = m a := by
  have hround : ∀ yy ∈ rowsShown g y h, ∀ xx ∈ List.range w.toNat, ∀ v : Video,
      (restorePixel g (gpuSaveRegion g dst x y w h m) x y w v yy xx).bytes a = v.bytes a ∨
        (restorePixel g (gpuSaveRegion g dst x y w h m) x y w v yy xx).bytes a = m a :=
    fun yy hy xx hx v => restorePixel_round hscreen ha hy (List.mem_range.mp hx) v
  rw [gpuRestoreRegion, if_pos hscreen.enabled]
  by_cases hregion : RegionByte g x y w h a
  · obtain ⟨_, _, k, hpixel, hk, rfl⟩ := hregion
    have hcolour := colour_of_not_reserved hscreen.depth hpixel hk ha
    obtain ⟨⟨xx, hxx, rfl⟩, ⟨yy, hyy, rfl⟩, hpx, hpy⟩ := hpixel
    have hy : yy ∈ rowsShown g y h :=
      mem_rowsShown.mpr ⟨hyy, Nat.lt_of_lt_of_le hpy hscreen.height_le⟩
    refine nested_settles (fun v : Video => v.bytes _) hy (List.mem_range.mpr hxx) (fun v => ?_)
      hround v
    rw [restorePixel_eq hscreen hy hxx hpx]
    exact putPixel_getPixel hscreen.depth hpx hpy hcolour m v
  · exact nested_stays (fun v : Video => v.bytes a) hround (hdrawn a hregion)

def whitePixel : Video := fbPutPixel smallScreen 1 1 0xFFFFFF ⟨ascending, []⟩

/-- A region of two columns, one of them off the screen, and a white pixel drawn in it. -/
theorem whitePixel_undone : whitePixel.bytes 6 = 0xFF ∧ ∀ a,
    (gpuRestoreRegion smallScreen (gpuSaveRegion smallScreen (fun _ => 0) 1 0 2 2 ascending) 1 0 2 2
      whitePixel).bytes a = ascending a := by
  have hdepth : Depth (rtBpp smallScreen) := .inl rfl
  have hpixel : RegionPixel smallScreen 1 0 2 2 1 1 :=
    ⟨⟨0, by decide, by decide⟩, ⟨1, by decide, rfl⟩, by decide, by decide⟩
  refine ⟨by decide, fun a => gpuRestoreRegion_undoes (onScreen_framebuffer rfl rfl hdepth)
    (fun a ha => ?_) ?_⟩
  · exact fbPutPixel_keeps hdepth fun _ _ k hk heq => ha ⟨1, 1, k, hpixel, hk, heq⟩
  · rintro ⟨_, _, _, hbpp, _⟩
    exact absurd hbpp (by decide)

end EponaOS.Drivers.Fb
