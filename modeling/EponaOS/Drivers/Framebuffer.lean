import EponaOS.Lib.CString
import EponaOS.Lib.Nested

/-!
# Pixels

`gpu.c`: the framebuffer, its back buffer and the buffer of a window are bytes in memory, and one of
them is drawn on. A pixel has 16, 24 or 32 bits.
-/

namespace EponaOS.Drivers.Fb

open Bytes

/-- The variables of `gpu.c`; 0 is `NULL`. -/
structure Gpu where
  gFbEnabled : Bool
  gFb : Nat
  gFbWidth : UInt16
  gFbHeight : UInt16
  gFbPitch : UInt16
  gFbBpp : UInt8
  gFbBack : Nat
  gTargetBack : Bool
  gRenderTarget : Nat
  gRenderPitch : UInt16
  gRenderW : UInt16
  gRenderH : UInt16
  gRenderBpp : UInt8
  gVpX : UInt16
  gVpY : UInt16
  gVpCols : UInt16
  gVpRows : UInt16
  gColor : UInt8
  gRow : Nat

structure Video where
  bytes : Bytes
  accessed : List Nat

/-- `p[0] = ...; p[1] = ...;` -/
def Video.store (v : Video) (p : Nat) (l : List UInt8) : Video :=
  ⟨putBytes v.bytes p l, v.accessed ++ (List.range l.length).map (p + ·)⟩

section

variable (g : Gpu)

def rtPitch : Nat := if g.gRenderTarget ≠ 0 then g.gRenderPitch.toNat else g.gFbPitch.toNat
def rtWidth : Nat := if g.gRenderTarget ≠ 0 then g.gRenderW.toNat else g.gFbWidth.toNat
def rtHeight : Nat := if g.gRenderTarget ≠ 0 then g.gRenderH.toNat else g.gFbHeight.toNat
def rtBpp : Nat := if g.gRenderTarget ≠ 0 then g.gRenderBpp.toNat else g.gFbBpp.toNat

def fbTarget : Nat :=
  if g.gRenderTarget ≠ 0 then g.gRenderTarget
  else if g.gTargetBack ∧ g.gFbBack ≠ 0 then g.gFbBack
  else g.gFb

/-- `t + (uint32_t)y * rt_pitch() + (uint32_t)x * (bpp / 8)` -/
def pixelAddr (x y : Nat) : Nat := fbTarget g + y * rtPitch g + x * (rtBpp g / 8)

end

/-- What `fb_put_pixel` stores from `p` on. -/
def pixelBytes (bpp rgb : Nat) : List UInt8 :=
  if bpp = 32 then
    [.ofNat (rgb &&& 0xFF), .ofNat (rgb >>> 8 &&& 0xFF), .ofNat (rgb >>> 16 &&& 0xFF), 0]
  else if bpp = 24 then
    [.ofNat (rgb &&& 0xFF), .ofNat (rgb >>> 8 &&& 0xFF), .ofNat (rgb >>> 16 &&& 0xFF)]
  else if bpp = 16 then
    let r := rgb >>> 19 &&& 0x1F
    let g := rgb >>> 10 &&& 0x3F
    let b := rgb >>> 3 &&& 0x1F
    let v := r <<< 11 ||| g <<< 5 ||| b
    [.ofNat (v &&& 0xFF), .ofNat (v >>> 8)]
  else []

/-- What `fb_get_pixel` makes of the bytes from `p` on. -/
def pixelValue (bpp : Nat) (m : Bytes) (p : Nat) : Nat :=
  if bpp = 32 ∨ bpp = 24 then
    (m (p + 2)).toNat <<< 16 ||| (m (p + 1)).toNat <<< 8 ||| (m p).toNat
  else if bpp = 16 then
    let v := (m p).toNat ||| (m (p + 1)).toNat <<< 8
    let r := (v >>> 11 &&& 0x1F) <<< 3
    let g := (v >>> 5 &&& 0x3F) <<< 2
    let b := (v &&& 0x1F) <<< 3
    r <<< 16 ||| g <<< 8 ||| b
  else 0

def fbPutPixel (g : Gpu) (x y rgb : Nat) (v : Video) : Video :=
  if x ≥ rtWidth g ∨ y ≥ rtHeight g then v
  else v.store (pixelAddr g x y) (pixelBytes (rtBpp g) rgb)

def fbGetPixel (g : Gpu) (x y : Nat) (m : Bytes) : Nat :=
  if x ≥ rtWidth g ∨ y ≥ rtHeight g then 0 else pixelValue (rtBpp g) m (pixelAddr g x y)

def fbFillRect (g : Gpu) (x y w h : UInt16) (rgb : Nat) (v : Video) : Video :=
  nested (List.range h.toNat) (List.range w.toNat)
    (fun v yy xx => fbPutPixel g ((x.toNat + xx) % 2 ^ 16) ((y.toNat + yy) % 2 ^ 16) rgb v) v

/-- The three depths that `fb_init_from_vbe` accepts. -/
def Depth (bpp : Nat) : Prop := bpp = 16 ∨ bpp = 24 ∨ bpp = 32

structure Target (g : Gpu) : Prop where
  depth : Depth (rtBpp g)
  pitch : rtWidth g * (rtBpp g / 8) ≤ rtPitch g

def InBuffer (g : Gpu) (a : Nat) : Prop :=
  fbTarget g ≤ a ∧ a < fbTarget g + rtHeight g * rtPitch g

-- ---------------------------------------------------------------------------
-- One pixel
-- ---------------------------------------------------------------------------

variable {g : Gpu} {v : Video} {x y rgb bpp : Nat}

theorem pixelBytes_length (h : Depth bpp) (rgb : Nat) : (pixelBytes bpp rgb).length = bpp / 8 := by
  obtain rfl | rfl | rfl := h <;> rfl

theorem byte_eq (c : UInt8) (n : Nat) (h : n % 256 = c.toNat) : UInt8.ofNat n = c := by
  rw [← UInt8.toNat_inj, UInt8.toNat_ofNat', h]

theorem and_ff (n : Nat) : n &&& 0xFF = n % 256 := Nat.and_two_pow_sub_one_eq_mod n 8

theorem pixelValue_wide (h : bpp = 32 ∨ bpp = 24) (m : Bytes) (p : Nat) :
    pixelValue bpp m p = (m (p + 2)).toNat * 65536 + ((m (p + 1)).toNat * 256 + (m p).toNat) := by
  have h0 := (m p).toNat_lt
  have h1 := (m (p + 1)).toNat_lt
  rw [pixelValue, if_pos h, Nat.or_assoc, shiftLeft_or _ (i := 8) h0,
    shiftLeft_or _ (i := 16) (by omega)]
  rfl

theorem wide_bytes (h : bpp = 32 ∨ bpp = 24) (m : Bytes) (p : Nat) :
    UInt8.ofNat (pixelValue bpp m p &&& 0xFF) = m p ∧
      UInt8.ofNat (pixelValue bpp m p >>> 8 &&& 0xFF) = m (p + 1) ∧
      UInt8.ofNat (pixelValue bpp m p >>> 16 &&& 0xFF) = m (p + 2) := by
  have h0 := (m p).toNat_lt
  have h1 := (m (p + 1)).toNat_lt
  have h2 := (m (p + 2)).toNat_lt
  simp only [pixelValue_wide h, and_ff, Nat.shiftRight_eq_div_pow]
  exact ⟨byte_eq _ _ (by omega), byte_eq _ _ (by omega), byte_eq _ _ (by omega)⟩

theorem pixelBytes_32 (m : Bytes) (p : Nat) :
    pixelBytes 32 (pixelValue 32 m p) = [m p, m (p + 1), m (p + 2), 0] := by
  obtain ⟨h0, h1, h2⟩ := wide_bytes (.inl rfl) m p
  rw [pixelBytes, if_pos rfl, h0, h1, h2]

theorem pixelBytes_24 (m : Bytes) (p : Nat) :
    pixelBytes 24 (pixelValue 24 m p) = [m p, m (p + 1), m (p + 2)] := by
  obtain ⟨h0, h1, h2⟩ := wide_bytes (.inr rfl) m p
  rw [pixelBytes, if_neg (by decide), if_pos rfl, h0, h1, h2]

theorem and_1f (n : Nat) : n &&& 0x1F = n % 32 := Nat.and_two_pow_sub_one_eq_mod n 5

theorem and_3f (n : Nat) : n &&& 0x3F = n % 64 := Nat.and_two_pow_sub_one_eq_mod n 6

theorem pixelValue_16 {w : Nat} (m : Bytes) (p : Nat)
    (hw : (m (p + 1)).toNat * 256 + (m p).toNat = w) :
    pixelValue 16 m p =
      w / 2048 % 32 * 8 * 65536 + (w / 32 % 64 * 4 * 256 + w % 32 * 8) := by
  have hword : (m p).toNat ||| (m (p + 1)).toNat <<< 8 = w := by
    rw [Nat.or_comm, shiftLeft_or _ (i := 8) (m p).toNat_lt]
    exact hw
  rw [pixelValue, if_neg (by decide), if_pos rfl, hword]
  simp only [and_1f, and_3f, Nat.shiftRight_eq_div_pow]
  rw [Nat.or_assoc, Nat.shiftLeft_eq _ 3, Nat.shiftLeft_eq _ 2, Nat.shiftLeft_eq _ 3,
    shiftLeft_or _ (i := 8) (by omega), shiftLeft_or _ (i := 16) (by omega)]
  rfl

theorem word_of_rgb {r g b rgb : Nat} (hr : r < 32) (hg : g < 64) (hb : b < 32)
    (hrgb : rgb = r * 8 * 65536 + (g * 4 * 256 + b * 8)) :
    (rgb >>> 19 &&& 0x1F) <<< 11 ||| (rgb >>> 10 &&& 0x3F) <<< 5 ||| (rgb >>> 3 &&& 0x1F) =
      r * 2048 + (g * 32 + b) := by
  have hr' : rgb / 2 ^ 19 % 32 = r := by omega
  have hg' : rgb / 2 ^ 10 % 64 = g := by omega
  have hb' : rgb / 2 ^ 3 % 32 = b := by omega
  simp only [and_1f, and_3f, Nat.shiftRight_eq_div_pow, hr', hg', hb']
  rw [Nat.or_assoc, shiftLeft_or _ (i := 5) hb, shiftLeft_or _ (i := 11) (by omega)]
  rfl

theorem parts_of_word {w : Nat} (h : w < 65536) :
    w / 2048 % 32 * 2048 + (w / 32 % 64 * 32 + w % 32) = w := by
  have hr : w / 2048 % 32 = w / 32 / 64 := by omega
  have hword := Nat.div_add_mod (w / 32) 64
  have hlow := Nat.div_add_mod w 32
  omega

theorem pixelBytes_16 (m : Bytes) (p : Nat) :
    pixelBytes 16 (pixelValue 16 m p) = [m p, m (p + 1)] := by
  have h0 := (m p).toNat_lt
  have h1 := (m (p + 1)).toNat_lt
  generalize hw : (m (p + 1)).toNat * 256 + (m p).toNat = w
  have hparts := parts_of_word (w := w) (by omega)
  have hback := word_of_rgb (Nat.mod_lt (w / 2048) (by decide)) (Nat.mod_lt (w / 32) (by decide))
    (Nat.mod_lt w (by decide)) (pixelValue_16 m p hw)
  rw [pixelBytes, if_neg (by decide), if_neg (by decide), if_pos rfl]
  dsimp only
  rw [hback, hparts, and_ff, Nat.shiftRight_eq_div_pow, byte_eq (m p) _ (by omega),
    byte_eq (m (p + 1)) _ (by omega)]

theorem fbPutPixel_keeps (h : Depth (rtBpp g))
    (ha : x < rtWidth g → y < rtHeight g → ∀ k < rtBpp g / 8, a ≠ pixelAddr g x y + k) :
    (fbPutPixel g x y rgb v).bytes a = v.bytes a := by
  rw [fbPutPixel]
  split
  · rfl
  · refine putBytes_off _ _ ?_
    rw [pixelBytes_length h]
    by_contra hcover
    exact ha (by omega) (by omega) (a - pixelAddr g x y) (by omega) (by omega)

theorem rtWidth_lt (g : Gpu) : rtWidth g < 2 ^ 16 := by
  rw [rtWidth]
  split <;> exact UInt16.toNat_lt _

theorem rtHeight_lt (g : Gpu) : rtHeight g < 2 ^ 16 := by
  rw [rtHeight]
  split <;> exact UInt16.toNat_lt _

theorem Target.byte_lt (ht : Target g) (hx : x < rtWidth g) (hk : k < rtBpp g / 8) :
    x * (rtBpp g / 8) + k < rtPitch g := by
  have hrow := Nat.mul_le_mul_right (rtBpp g / 8) (Nat.succ_le_of_lt hx)
  rw [Nat.succ_mul] at hrow
  have := ht.pitch
  omega

theorem Target.pixel_inj (ht : Target g) (hx : x < rtWidth g) (hx' : x' < rtWidth g)
    (hk : k < rtBpp g / 8) (hk' : k' < rtBpp g / 8)
    (h : pixelAddr g x y + k = pixelAddr g x' y' + k') : x = x' ∧ y = y' ∧ k = k' := by
  have hcell := cell_inj (ht.byte_lt hx hk) (ht.byte_lt hx' hk')
    (show y * rtPitch g + _ = y' * rtPitch g + _ by rw [pixelAddr, pixelAddr] at h; omega)
  obtain ⟨rfl, hbyte⟩ := Prod.mk.inj hcell
  obtain ⟨rfl, rfl⟩ := Prod.mk.inj (cell_inj hk hk' hbyte)
  exact ⟨rfl, rfl, rfl⟩

theorem Target.inBuffer (ht : Target g) (hx : x < rtWidth g) (hy : y < rtHeight g)
    (hk : k < rtBpp g / 8) : InBuffer g (pixelAddr g x y + k) := by
  have hrow := Nat.mul_le_mul_right (rtPitch g) (Nat.succ_le_of_lt hy)
  rw [Nat.succ_mul] at hrow
  have := ht.byte_lt hx hk
  rw [InBuffer, pixelAddr]
  omega

theorem fbPutPixel_sets (h : Depth (rtBpp g)) (hx : x < rtWidth g) (hy : y < rtHeight g)
    (hk : k < rtBpp g / 8) (rgb : Nat) (v : Video) :
    some ((fbPutPixel g x y rgb v).bytes (pixelAddr g x y + k)) =
      (pixelBytes (rtBpp g) rgb)[k]? := by
  have hlen : k < (pixelBytes (rtBpp g) rgb).length := by rwa [pixelBytes_length h]
  rw [fbPutPixel, if_neg (by omega), List.getElem?_eq_getElem hlen]
  exact congrArg some (hasBytes_iff.mp (putBytes_has v.bytes _ _) k hlen)

theorem fbPutPixel_accessed (ht : Target g) (ha : a ∈ (fbPutPixel g x y rgb v).accessed) :
    a ∈ v.accessed ∨ InBuffer g a := by
  rw [fbPutPixel] at ha
  split at ha
  · exact .inl ha
  · simp only [Video.store, List.mem_append, List.mem_map, List.mem_range] at ha
    obtain ha | ⟨k, hk, rfl⟩ := ha
    · exact .inl ha
    · rw [pixelBytes_length ht.depth] at hk
      exact .inr (ht.inBuffer (by omega) (by omega) hk)

-- ---------------------------------------------------------------------------
-- Rectangles
-- ---------------------------------------------------------------------------

section Rect

variable {x y w h : UInt16}

theorem rect_coord (hright : x.toNat + w.toNat ≤ rtWidth g)
    (hbottom : y.toNat + h.toNat ≤ rtHeight g) (hi : i < w.toNat) (hj : j < h.toNat) :
    (x.toNat + i) % 2 ^ 16 = x.toNat + i ∧ (y.toNat + j) % 2 ^ 16 = y.toNat + j := by
  have hw := rtWidth_lt g
  have hh := rtHeight_lt g
  exact ⟨Nat.mod_eq_of_lt (by omega), Nat.mod_eq_of_lt (by omega)⟩

theorem fbFillRect_sets (ht : Target g) (hright : x.toNat + w.toNat ≤ rtWidth g)
    (hbottom : y.toNat + h.toNat ≤ rtHeight g) (hi : i < w.toNat) (hj : j < h.toNat)
    (hk : k < rtBpp g / 8) (rgb : Nat) (v : Video) :
    some ((fbFillRect g x y w h rgb v).bytes (pixelAddr g (x.toNat + i) (y.toNat + j) + k)) =
      (pixelBytes (rtBpp g) rgb)[k]? := by
  refine nested_sets
    (fun v : Video => some (v.bytes (pixelAddr g (x.toNat + i) (y.toNat + j) + k)))
    (List.mem_range.mpr hj) (List.mem_range.mpr hi) (fun v => ?_) (fun j' hj' i' hi' hne v => ?_) v
  · obtain ⟨hx, hy⟩ := rect_coord hright hbottom hi hj
    rw [hx, hy]
    exact fbPutPixel_sets ht.depth (by omega) (by omega) hk rgb v
  · have hi' := List.mem_range.mp hi'
    obtain ⟨hx, hy⟩ := rect_coord hright hbottom hi' (List.mem_range.mp hj')
    rw [hx, hy]
    refine congrArg some (fbPutPixel_keeps ht.depth fun _ _ k' hk' heq => hne ?_)
    obtain ⟨hx, hy, -⟩ := ht.pixel_inj (by omega) (by omega) hk hk' heq
    rw [Nat.add_left_cancel hx, Nat.add_left_cancel hy]

theorem fbFillRect_keeps (ht : Target g) (hright : x.toNat + w.toNat ≤ rtWidth g)
    (hbottom : y.toNat + h.toNat ≤ rtHeight g)
    (ha : ∀ i j k, i < w.toNat → j < h.toNat → k < rtBpp g / 8 →
      a ≠ pixelAddr g (x.toNat + i) (y.toNat + j) + k) (rgb : Nat) (v : Video) :
    (fbFillRect g x y w h rgb v).bytes a = v.bytes a := by
  refine nested_keeps (fun v : Video => v.bytes a) (fun j hj i hi v => ?_) v
  have hj := List.mem_range.mp hj
  have hi := List.mem_range.mp hi
  obtain ⟨hx, hy⟩ := rect_coord hright hbottom hi hj
  rw [hx, hy]
  exact fbPutPixel_keeps ht.depth fun _ _ k hk => ha i j k hi hj hk

theorem fbFillRect_accessed (ht : Target g) (rgb : Nat) (v : Video) :
    ∀ a ∈ (fbFillRect g x y w h rgb v).accessed, a ∈ v.accessed ∨ InBuffer g a :=
  nested_always (P := fun w : Video => ∀ a ∈ w.accessed, a ∈ v.accessed ∨ InBuffer g a)
    (fun _ ha => .inl ha) fun _ _ _ _ _ hw a ha => (fbPutPixel_accessed ht ha).elim (hw a) .inr

end Rect

-- ---------------------------------------------------------------------------
-- Targets
-- ---------------------------------------------------------------------------

def gpuBeginTarget (g : Gpu) (buf : Nat) (w h : UInt16) : Gpu :=
  { g with
    gRenderTarget := buf
    gRenderW := w
    gRenderH := h
    gRenderBpp := 32
    gRenderPitch := w * 4 }

/-- A buffer of `w * h` words is a target, up to the width from which on the pitch wraps. -/
theorem gpuBeginTarget_target {w : UInt16} (hbuf : buf ≠ 0) (hw : w.toNat < 2 ^ 14) (g : Gpu)
    (h : UInt16) : Target (gpuBeginTarget g buf w h) ∧
      ∀ a, InBuffer (gpuBeginTarget g buf w h) a ↔ buf ≤ a ∧ a < buf + 4 * (w.toNat * h.toNat) := by
  have hpitch : rtPitch (gpuBeginTarget g buf w h) = w.toNat * 4 := by
    refine (if_pos hbuf).trans ?_
    show (w * 4).toNat = _
    rw [UInt16.toNat_mul]
    exact Nat.mod_eq_of_lt (by change _ * 4 < _; omega)
  have hbpp : rtBpp (gpuBeginTarget g buf w h) = 32 := if_pos hbuf
  have hwidth : rtWidth (gpuBeginTarget g buf w h) = w.toNat := if_pos hbuf
  have hheight : rtHeight (gpuBeginTarget g buf w h) = h.toNat := if_pos hbuf
  have htarget : fbTarget (gpuBeginTarget g buf w h) = buf := if_pos hbuf
  have hsize : h.toNat * (w.toNat * 4) = 4 * (w.toNat * h.toNat) := by ring
  refine ⟨⟨.inr (.inr hbpp), by rw [hpitch, hbpp, hwidth]⟩, fun a => ?_⟩
  rw [InBuffer, htarget, hheight, hpitch, hsize]

def smallScreen : Gpu where
  gFbEnabled := true
  gFb := 0
  gFbWidth := 2
  gFbHeight := 2
  gFbPitch := 4
  gFbBpp := 16
  gFbBack := 0
  gTargetBack := false
  gRenderTarget := 0
  gRenderPitch := 0
  gRenderW := 0
  gRenderH := 0
  gRenderBpp := 0
  gVpX := 0
  gVpY := 0
  gVpCols := 0
  gVpRows := 0
  gColor := 0
  gRow := 0

def ascending : Bytes := fun a => .ofNat a

end EponaOS.Drivers.Fb
