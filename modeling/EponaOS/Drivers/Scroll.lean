import EponaOS.Drivers.Framebuffer

/-!
# Scrolling

`fb_scroll` of `gpu.c`: the rows of the viewport are copied one after the other to 16 rows above,
in words and a rest of bytes, and the last 16 rows are filled.
-/

namespace EponaOS.Drivers.Fb

open Bytes

def FONT_W : Nat := 8
def FONT_H : Nat := 16

def gPalette : List Nat :=
  [0x000000, 0x0000AA, 0x00AA00, 0x00AAAA, 0xAA0000, 0xAA00AA, 0xAA5500, 0xAAAAAA,
   0x555555, 0x5555FF, 0x55FF55, 0x55FFFF, 0xFF5555, 0xFF55FF, 0xFFFF55, 0xFFFFFF]

def rgbForColor (color : UInt8) : Nat := gPalette.getD (color &&& 0x0F).toNat 0

def Video.copy (v : Video) (dst src n : Nat) : Video :=
  ⟨blit v.bytes dst n v.bytes src,
    v.accessed ++ (List.range n).map (src + ·) ++ (List.range n).map (dst + ·)⟩

def fbBlitRow (dst src bytes : Nat) (v : Video) : Video :=
  let words := bytes / 4
  let v := (List.range words).foldl (fun v i => v.copy (dst + 4 * i) (src + 4 * i) 4) v
  (List.range' (words * 4) (bytes - words * 4)).foldl (fun v i => v.copy (dst + i) (src + i) 1) v

def vpWPx (g : Gpu) : UInt16 := g.gVpCols * UInt16.ofNat FONT_W
def vpHPx (g : Gpu) : UInt16 := g.gVpRows * UInt16.ofNat FONT_H

/-- `t + (g_vp_y + row) * pitch + g_vp_x * bpp_bytes` -/
def rowAddr (g : Gpu) (row : Nat) : Nat :=
  fbTarget g + ((g.gVpY.toNat + row) * rtPitch g + g.gVpX.toNat * (rtBpp g / 8))

def rowBytes (g : Gpu) : Nat := (vpWPx g).toNat * (rtBpp g / 8)

/-- The loop of `fb_scroll` -/
def scrollRows (g : Gpu) (rows : Nat) (v : Video) : Video :=
  (List.range rows).foldl
    (fun v row => fbBlitRow (rowAddr g row) (rowAddr g (row + FONT_H)) (rowBytes g) v) v

def fbScroll (g : Gpu) (v : Video) : Gpu × Video :=
  let v := scrollRows g ((vpHPx g).toNat - FONT_H) v
  let bg := rgbForColor (g.gColor >>> 4)
  ({ g with gRow := (g.gVpRows.toNat + 2 ^ 64 - 1) % 2 ^ 64 },
    fbFillRect g g.gVpX (g.gVpY + vpHPx g - UInt16.ofNat FONT_H) (vpWPx g) (UInt16.ofNat FONT_H) bg
      v)

/-- The viewport has a row at least, and lies inside the target. -/
structure ViewportInside (g : Gpu) : Prop where
  rows_pos : 0 < g.gVpRows.toNat
  right : g.gVpX.toNat + g.gVpCols.toNat * FONT_W ≤ rtWidth g
  bottom : g.gVpY.toNat + g.gVpRows.toNat * FONT_H ≤ rtHeight g

def vpByte (g : Gpu) (x y k : Nat) : Nat := pixelAddr g (g.gVpX.toNat + x) (g.gVpY.toNat + y) + k

structure Scrolled (g : Gpu) (v v' : Video) : Prop where
  shifted : ∀ x y k, x < g.gVpCols.toNat * FONT_W → y + FONT_H < g.gVpRows.toNat * FONT_H →
    k < rtBpp g / 8 → v'.bytes (vpByte g x y k) = v.bytes (vpByte g x (y + FONT_H) k)
  cleared : ∀ x y k, x < g.gVpCols.toNat * FONT_W → y < g.gVpRows.toNat * FONT_H →
    g.gVpRows.toNat * FONT_H ≤ y + FONT_H → k < rtBpp g / 8 →
    some (v'.bytes (vpByte g x y k)) = (pixelBytes (rtBpp g) (rgbForColor (g.gColor >>> 4)))[k]?
  kept : ∀ a, (∀ x y k, x < g.gVpCols.toNat * FONT_W → y < g.gVpRows.toNat * FONT_H →
    k < rtBpp g / 8 → a ≠ vpByte g x y k) → v'.bytes a = v.bytes a
  inside : ∀ a ∈ v'.accessed, a ∈ v.accessed ∨ InBuffer g a

variable {g : Gpu} {v v' : Video} {m : Bytes} {dst src n a x y px py k : Nat}

-- ---------------------------------------------------------------------------
-- A row
-- ---------------------------------------------------------------------------

theorem copy_next (h : dst ≤ src) (hv : v.bytes = blit m dst k m src) (n : Nat) :
    (v.copy (dst + k) (src + k) n).bytes = blit m dst (k + n) m src := by
  have hsrc : blit v.bytes (dst + k) n v.bytes (src + k) =
      blit v.bytes (dst + k) n m (src + k) := by
    funext x
    by_cases hx : dst + k ≤ x ∧ x < dst + k + n
    · rw [blit_in _ _ _ hx, blit_in _ _ _ hx, hv, blit_off _ _ _ (by omega)]
    · rw [blit_off _ _ _ (by omega), blit_off _ _ _ (by omega)]
  show blit v.bytes (dst + k) n v.bytes (src + k) = _
  rw [hsrc, hv, blit_blit]

theorem fbBlitRow_bytes (h : dst ≤ src) (n : Nat) (v : Video) :
    (fbBlitRow dst src n v).bytes = blit v.bytes dst n v.bytes src := by
  have hwords : ∀ words, ((List.range words).foldl
      (fun v i => v.copy (dst + 4 * i) (src + 4 * i) 4) v).bytes =
        blit v.bytes dst (4 * words) v.bytes src := by
    intro words
    induction words with
    | zero => rw [Nat.mul_zero, blit_zero]; rfl
    | succ words ih =>
      rw [List.range_succ, List.foldl_append]
      exact copy_next h ih 4
  have htail : ∀ (start rest : Nat) (v' : Video), v'.bytes = blit v.bytes dst start v.bytes src →
      ((List.range' start rest).foldl (fun (v : Video) i => v.copy (dst + i) (src + i) 1)
        v').bytes = blit v.bytes dst (start + rest) v.bytes src := by
    intro start rest
    induction rest generalizing start with
    | zero => exact fun v' hv' => hv'
    | succ rest ih =>
      intro v' hv'
      rw [List.range'_succ, List.foldl_cons, ih _ _ (copy_next h hv' 1), Nat.add_assoc,
        Nat.add_comm 1]
  rw [fbBlitRow, htail _ _ _ (by rw [hwords, Nat.mul_comm])]
  congr 1
  omega

def RowAccesses (dst src n : Nat) (v w : Video) : Prop :=
  ∀ a ∈ w.accessed, a ∈ v.accessed ∨ ∃ i < n, a = dst + i ∨ a = src + i

theorem RowAccesses.copy (h : RowAccesses dst src n v v') (hk : i + k ≤ n) :
    RowAccesses dst src n v (v'.copy (dst + i) (src + i) k) := by
  intro a ha
  simp only [Video.copy, List.mem_append, List.mem_map, List.mem_range] at ha
  obtain (ha | ⟨j, hj, rfl⟩) | ⟨j, hj, rfl⟩ := ha
  · exact h a ha
  · exact .inr ⟨i + j, by omega, .inr (Nat.add_assoc ..)⟩
  · exact .inr ⟨i + j, by omega, .inl (Nat.add_assoc ..)⟩

theorem fbBlitRow_accesses (dst src n : Nat) (v : Video) :
    RowAccesses dst src n v (fbBlitRow dst src n v) := by
  rw [fbBlitRow]
  refine List.foldlRecOn _ _ (List.foldlRecOn _ _ (fun a ha => .inl ha) fun w hw i hi => ?_)
    fun w hw i hi => ?_
  · have := List.mem_range.mp hi
    exact hw.copy (by omega)
  · have := List.mem_range'_1.mp hi
    exact hw.copy (by omega)

-- ---------------------------------------------------------------------------
-- The viewport
-- ---------------------------------------------------------------------------

theorem ViewportInside.sizes (hv : ViewportInside g) :
    (vpWPx g).toNat = g.gVpCols.toNat * FONT_W ∧ (vpHPx g).toNat = g.gVpRows.toNat * FONT_H := by
  have hw := rtWidth_lt g
  have hh := rtHeight_lt g
  have hright := hv.right
  have hbottom := hv.bottom
  constructor
  · rw [vpWPx, UInt16.toNat_mul]
    exact Nat.mod_eq_of_lt (by change _ * FONT_W < _; omega)
  · rw [vpHPx, UInt16.toNat_mul]
    exact Nat.mod_eq_of_lt (by change _ * FONT_H < _; omega)

theorem rowBytes_le (ht : Target g) (hv : ViewportInside g) : rowBytes g ≤ rtPitch g := by
  refine Nat.le_trans (Nat.mul_le_mul_right _ ?_) ht.pitch
  rw [hv.sizes.1]
  exact Nat.le_trans (Nat.le_add_left ..) hv.right

theorem rowAddr_add (g : Gpu) (x y k : Nat) :
    rowAddr g y + (x * (rtBpp g / 8) + k) = vpByte g x y k := by
  rw [rowAddr, vpByte, pixelAddr, Nat.add_mul g.gVpX.toNat]
  omega

theorem rowAddr_inj (ht : Target g) (hv : ViewportInside g) (hi : i < rowBytes g)
    (hi' : i' < rowBytes g) (h : rowAddr g y + i = rowAddr g y' + i') : y = y' ∧ i = i' := by
  have hle := rowBytes_le ht hv
  have hcell := cell_inj (Nat.lt_of_lt_of_le hi hle) (Nat.lt_of_lt_of_le hi' hle)
    (show y * rtPitch g + i = y' * rtPitch g + i' by
      rw [rowAddr, rowAddr, Nat.add_mul, Nat.add_mul] at h
      omega)
  exact Prod.mk.inj hcell

theorem rowAddr_le (g : Gpu) (y : Nat) : rowAddr g y ≤ rowAddr g (y + FONT_H) := by
  have hrow := Nat.mul_le_mul_right (rtPitch g)
    (show g.gVpY.toNat + y ≤ g.gVpY.toNat + (y + FONT_H) by omega)
  rw [rowAddr, rowAddr]
  omega

theorem scrollRows_succ (g : Gpu) (n : Nat) (v : Video) :
    (scrollRows g (n + 1) v).bytes = blit (scrollRows g n v).bytes (rowAddr g n) (rowBytes g)
      (scrollRows g n v).bytes (rowAddr g (n + FONT_H)) := by
  rw [scrollRows, List.range_succ, List.foldl_append]
  exact fbBlitRow_bytes (rowAddr_le g n) ..

theorem scrollRows_off (n : Nat) (v : Video)
    (ha : ∀ y < n, ∀ i < rowBytes g, a ≠ rowAddr g y + i) :
    (scrollRows g n v).bytes a = v.bytes a := by
  induction n with
  | zero => rfl
  | succ n ih =>
    have hrow : a < rowAddr g n ∨ rowAddr g n + rowBytes g ≤ a := by
      by_contra hcover
      exact ha n (Nat.lt_succ_self n) (a - rowAddr g n) (by omega) (by omega)
    rw [scrollRows_succ, blit_off _ _ _ hrow]
    exact ih fun y hy => ha y (Nat.lt_succ_of_lt hy)

/-- After `n` rows the first `n` of them hold what was 16 rows below: a row is read before it is
written. -/
theorem scrollRows_shifts (ht : Target g) (hv : ViewportInside g) (n : Nat) (v : Video)
    (hy : y < n) (hi : i < rowBytes g) :
    (scrollRows g n v).bytes (rowAddr g y + i) = v.bytes (rowAddr g (y + FONT_H) + i) := by
  induction n with
  | zero => exact absurd hy (Nat.not_lt_zero y)
  | succ n ih =>
    rw [scrollRows_succ]
    obtain hlt | rfl := Nat.lt_succ_iff_lt_or_eq.mp hy
    · have hrow : rowAddr g y + i < rowAddr g n ∨ rowAddr g n + rowBytes g ≤ rowAddr g y + i := by
        by_contra hcover
        have heq : rowAddr g y + i = rowAddr g n + (rowAddr g y + i - rowAddr g n) := by omega
        have := (rowAddr_inj ht hv hi (by omega) heq).1
        omega
      rw [blit_off _ _ _ hrow]
      exact ih hlt
    · rw [blit_in _ _ _ ⟨Nat.le_add_right .., Nat.add_lt_add_left hi _⟩, Nat.add_sub_cancel_left]
      refine scrollRows_off _ v fun y' hy' i' hi' heq => ?_
      have hsame := (rowAddr_inj ht hv hi hi' heq).1
      rw [FONT_H] at hsame
      omega

theorem rowBytes_pixel (ht : Target g) (hv : ViewportInside g) (hi : i < rowBytes g) (y : Nat) :
    ∃ x k, x < g.gVpCols.toNat * FONT_W ∧ k < rtBpp g / 8 ∧ rowAddr g y + i = vpByte g x y k := by
  have hpos : 0 < rtBpp g / 8 := by
    have := ht.depth
    rw [Depth] at this
    omega
  rw [rowBytes, hv.sizes.1] at hi
  refine ⟨i / (rtBpp g / 8), i % (rtBpp g / 8), Nat.div_lt_of_lt_mul (by rwa [Nat.mul_comm]),
    Nat.mod_lt _ hpos, ?_⟩
  rw [← rowAddr_add, Nat.mul_comm, Nat.div_add_mod]

theorem vpByte_inBuffer (ht : Target g) (hv : ViewportInside g) (hx : x < g.gVpCols.toNat * FONT_W)
    (hy : y < g.gVpRows.toNat * FONT_H) (hk : k < rtBpp g / 8) : InBuffer g (vpByte g x y k) := by
  have hright := hv.right
  have hbottom := hv.bottom
  exact ht.inBuffer (by omega) (by omega) hk

theorem scrollRows_accessed (ht : Target g) (hv : ViewportInside g) (v : Video)
    (hn : n + FONT_H ≤ g.gVpRows.toNat * FONT_H) :
    ∀ a ∈ (scrollRows g n v).accessed, a ∈ v.accessed ∨ InBuffer g a := by
  refine List.foldlRecOn
    (motive := fun w : Video => ∀ a ∈ w.accessed, a ∈ v.accessed ∨ InBuffer g a) _ _ (fun a ha => .inl ha) fun w hw y hy a ha => ?_
  have hy := List.mem_range.mp hy
  obtain ha | ⟨i, hi, rfl | rfl⟩ := fbBlitRow_accesses _ _ _ w a ha
  · exact hw a ha
  · obtain ⟨x, k, hx, hk, hbyte⟩ := rowBytes_pixel ht hv hi y
    rw [hbyte]
    exact .inr (vpByte_inBuffer ht hv hx (by omega) hk)
  · obtain ⟨x, k, hx, hk, hbyte⟩ := rowBytes_pixel ht hv hi (y + FONT_H)
    rw [hbyte]
    exact .inr (vpByte_inBuffer ht hv hx (by omega) hk)

theorem ViewportInside.last_rows (hv : ViewportInside g) :
    (g.gVpY + vpHPx g - UInt16.ofNat FONT_H).toNat + FONT_H =
      g.gVpY.toNat + g.gVpRows.toNat * FONT_H := by
  have hh := rtHeight_lt g
  have hbottom := hv.bottom
  have hrows := Nat.mul_le_mul_right FONT_H (Nat.succ_le_of_lt hv.rows_pos)
  have hsize := hv.sizes.2
  have hfont : (UInt16.ofNat FONT_H).toNat = FONT_H := rfl
  rw [UInt16.toNat_sub, UInt16.toNat_add, hsize, hfont]
  rw [FONT_H] at *
  omega

theorem vpByte_inj (ht : Target g) (hv : ViewportInside g) (hx : x < g.gVpCols.toNat * FONT_W)
    (hx' : x' < g.gVpCols.toNat * FONT_W) (hk : k < rtBpp g / 8) (hk' : k' < rtBpp g / 8)
    (h : vpByte g x y k = vpByte g x' y' k') : y = y' := by
  have hright := hv.right
  obtain ⟨-, hy, -⟩ := ht.pixel_inj (by omega) (by omega) hk hk' h
  exact Nat.add_left_cancel hy

section Fill

variable (ht : Target g) (hv : ViewportInside g) (v : Video)

include ht hv

theorem fill_sets (hx : x < g.gVpCols.toNat * FONT_W) (hy : y < g.gVpRows.toNat * FONT_H)
    (hlow : g.gVpRows.toNat * FONT_H ≤ y + FONT_H) (hk : k < rtBpp g / 8) :
    some ((fbScroll g v).2.bytes (vpByte g x y k)) =
      (pixelBytes (rtBpp g) (rgbForColor (g.gColor >>> 4)))[k]? := by
  have hlast := hv.last_rows
  have hbottom := hv.bottom
  have hw := hv.sizes.1
  obtain ⟨j, hj, hrow⟩ : ∃ j < FONT_H, g.gVpY.toNat + y =
      (g.gVpY + vpHPx g - UInt16.ofNat FONT_H).toNat + j :=
    ⟨g.gVpY.toNat + y - (g.gVpY + vpHPx g - UInt16.ofNat FONT_H).toNat, by omega, by omega⟩
  rw [vpByte, hrow]
  exact fbFillRect_sets ht (by rw [hw]; exact hv.right) (by change _ + FONT_H ≤ _; omega)
    (by rwa [hw]) hj hk _ _

theorem fill_keeps (ha : ∀ x y k, x < g.gVpCols.toNat * FONT_W → y < g.gVpRows.toNat * FONT_H →
      g.gVpRows.toNat * FONT_H ≤ y + FONT_H → k < rtBpp g / 8 → a ≠ vpByte g x y k) :
    (fbScroll g v).2.bytes a =
      (scrollRows g (g.gVpRows.toNat * FONT_H - FONT_H) v).bytes a := by
  have hlast := hv.last_rows
  have hbottom := hv.bottom
  have hrows := Nat.mul_le_mul_right FONT_H (Nat.succ_le_of_lt hv.rows_pos)
  obtain ⟨hw, hh⟩ := hv.sizes
  rw [← hh]
  refine fbFillRect_keeps ht (by rw [hw]; exact hv.right) (by change _ + FONT_H ≤ _; omega)
    (fun i j k hi hj hk heq => ?_) _ _
  have hj : j < FONT_H := hj
  rw [hw] at hi
  refine ha i (g.gVpRows.toNat * FONT_H - FONT_H + j) k hi (by omega) (by omega) hk ?_
  rw [heq, vpByte]
  congr 2
  omega

end Fill

/-- Scrolling shifts the viewport up by a row of characters, clears the last one, and touches
nothing else. -/
theorem fbScroll_scrolled (ht : Target g) (hv : ViewportInside g) (v : Video) :
    Scrolled g v (fbScroll g v).2 where
  shifted x y k hx hy hk := by
    have hi : x * (rtBpp g / 8) + k < rowBytes g := by
      have hrow := Nat.mul_le_mul_right (rtBpp g / 8) (Nat.succ_le_of_lt hx)
      rw [Nat.succ_mul] at hrow
      rw [rowBytes, hv.sizes.1]
      omega
    rw [fill_keeps ht hv v, ← rowAddr_add, ← rowAddr_add]
    · exact scrollRows_shifts ht hv _ v (by omega) hi
    · intro x' y' k' hx' hy' hlow hk' heq
      have := vpByte_inj ht hv hx hx' hk hk' heq
      omega
  cleared x y k hx hy hlow hk := fill_sets ht hv v hx hy hlow hk
  kept a ha := by
    rw [fill_keeps ht hv v fun x y k hx hy _ hk => ha x y k hx hy hk]
    refine scrollRows_off _ v fun y hy i hi heq => ?_
    obtain ⟨x, k, hx, hk, hbyte⟩ := rowBytes_pixel ht hv hi y
    exact ha x y k hx (by omega) hk (heq.trans hbyte)
  inside a ha := by
    have hrows := Nat.mul_le_mul_right FONT_H (Nat.succ_le_of_lt hv.rows_pos)
    obtain ha | ha := fbFillRect_accessed ht _ _ a ha
    · rw [hv.sizes.2] at ha
      exact scrollRows_accessed ht hv v (by omega) a ha
    · exact .inr ha

def smallWindow : Gpu :=
  gpuBeginTarget { smallScreen with gVpCols := 1, gVpRows := 2 } 0x1000 8 32

theorem smallWindow_scrolled :
    Scrolled smallWindow ⟨ascending, []⟩ (fbScroll smallWindow ⟨ascending, []⟩).2 :=
  fbScroll_scrolled (gpuBeginTarget_target (by decide) (by decide) _ _).1
    ⟨by decide, by decide, by decide⟩ ⟨ascending, []⟩

theorem Scrolled.cell (h : Scrolled g v v') (hrow : row + 1 < g.gVpRows.toNat)
    (hcol : col < g.gVpCols.toNat) (hx : x < FONT_W) (hy : y < FONT_H) (hk : k < rtBpp g / 8) :
    v'.bytes (vpByte g (col * FONT_W + x) (row * FONT_H + y) k) =
      v.bytes (vpByte g (col * FONT_W + x) ((row + 1) * FONT_H + y) k) := by
  have hcells := Nat.mul_le_mul_right FONT_W (Nat.succ_le_of_lt hcol)
  have hrows := Nat.mul_le_mul_right FONT_H (Nat.succ_le_of_lt hrow)
  rw [Nat.succ_mul] at hcells hrows
  rw [h.shifted _ _ k (by omega) (by rw [Nat.add_mul] at hrows; omega) hk, Nat.add_mul row,
    Nat.one_mul]
  congr 2
  omega

end EponaOS.Drivers.Fb
