import EponaOS.Fs.Vfs
import EponaOS.Fs.Usable
import EponaOS.Lib.Nested

/-!
# Loading a cursor

`cursor_load` of `cursor.c`. The size of the pixel data comes from the bits per pixel in the
file, and the loop takes four bytes a pixel.
-/

namespace EponaOS.Drivers

open Bytes Fs
open Function (update)

def CURSOR_MAX_W : Nat := 64
def CURSOR_MAX_H : Nat := 64

structure IcoHeader where
  type : Nat
  count : Nat

structure IcoEntry where
  hotspotX : Nat
  hotspotY : Nat
  dataOffset : Nat

structure BmpInfoHeader where
  width : Nat
  height : Nat
  bpp : Nat

def sizeofIcoHeader : Nat := 6
def sizeofIcoEntry : Nat := 16
def sizeofBmpInfoHeader : Nat := 40

def readIcoHeader (buf : Bytes) : IcoHeader := ⟨getLE buf 2 2, getLE buf 4 2⟩

def readIcoEntry (buf : Bytes) : IcoEntry := ⟨getLE buf 4 2, getLE buf 6 2, getLE buf 12 4⟩

def readBmpInfoHeader (buf : Bytes) : BmpInfoHeader :=
  ⟨getLE buf 4 4, getLE buf 8 4, getLE buf 14 2⟩

/-- `cursor_t` -/
structure Cursor where
  width : Nat
  height : Nat
  hotspotX : Nat
  hotspotY : Nat
  pixels : Nat → UInt32

/-- `uint32_t h = bmp.height / 2` -/
def BmpInfoHeader.rows (bmp : BmpInfoHeader) : Nat := bmp.height / 2

def BmpInfoHeader.rowSize (bmp : BmpInfoHeader) : Nat :=
  (bmp.width * bmp.bpp + 31) % 2 ^ 32 / 32 * 4 % 2 ^ 32

def BmpInfoHeader.xorSize (bmp : BmpInfoHeader) : Nat := bmp.rowSize * bmp.rows % 2 ^ 32

-- ---------------------------------------------------------------------------
-- The headers
-- ---------------------------------------------------------------------------

/-- `cursor_load` up to the check of the size: what is in `out`, and if nothing is wrong the
header of the image and the offset behind it. `junk` is what the structs on the stack hold at
first. -/
def cursorHeaders (fp : FatPrivate) (fuel : Nat) (node : VfsNode) (junk : Nat → Bytes)
    (out : Cursor) (d : Disk) : Option (Cursor × Option (BmpInfoHeader × Nat) × Disk) :=
  (vfsRead fp fuel node 0 sizeofIcoHeader (junk 0) d).bind fun (n, offset, buf, d) =>
    let ico := readIcoHeader buf
    if n < sizeofIcoHeader ∨ ico.type ≠ 2 ∨ ico.count = 0 then some (out, none, d)
    else (vfsRead fp fuel node offset sizeofIcoEntry (junk 1) d).bind fun (n, _, buf, d) =>
      if n < sizeofIcoEntry then some (out, none, d)
      else
        let entry := readIcoEntry buf
        let out := { out with hotspotX := entry.hotspotX, hotspotY := entry.hotspotY }
        (vfsRead fp fuel node entry.dataOffset sizeofBmpInfoHeader (junk 2) d).bind
          fun (n, offset, buf, d) =>
            let bmp := readBmpInfoHeader buf
            if n < sizeofBmpInfoHeader ∨ bmp.width > CURSOR_MAX_W ∨ bmp.rows > CURSOR_MAX_H ∨
                bmp.width = 0 ∨ bmp.rows = 0 then some (out, none, d)
            else some (out, some (bmp, offset), d)

-- ---------------------------------------------------------------------------
-- The pixels
-- ---------------------------------------------------------------------------

/-- `(a << 24) | (r << 16) | (g << 8) | b` -/
def argb (b g r a : UInt8) : UInt32 :=
  a.toUInt32 <<< 24 ||| r.toUInt32 <<< 16 ||| g.toUInt32 <<< 8 ||| b.toUInt32

/-- What the loops have stored in `out->pixels`, and the indices they have used. -/
structure Decoding where
  pixels : Nat → UInt32
  reads : List Nat
  writes : List Nat

/-- `src_y * row_size + x * 4 + k` -/
def BmpInfoHeader.srcIndex (bmp : BmpInfoHeader) (y x k : Nat) : Nat :=
  ((bmp.rows - 1 - y) * bmp.rowSize + x * 4 + k) % 2 ^ 32

def decodePixel (bmp : BmpInfoHeader) (xorData : Bytes) (o : Decoding) (y x : Nat) : Decoding where
  pixels := update o.pixels (y * bmp.width + x)
    (argb (xorData (bmp.srcIndex y x 0)) (xorData (bmp.srcIndex y x 1))
      (xorData (bmp.srcIndex y x 2)) (xorData (bmp.srcIndex y x 3)))
  reads := o.reads ++ (List.range 4).map (bmp.srcIndex y x)
  writes := o.writes ++ [y * bmp.width + x]

def decodeRows (bmp : BmpInfoHeader) (xorData : Bytes) (pixels : Nat → UInt32) : Decoding :=
  nested (List.range bmp.rows) (List.range bmp.width) (decodePixel bmp xorData) ⟨pixels, [], []⟩

-- ---------------------------------------------------------------------------
-- The call
-- ---------------------------------------------------------------------------

inductive CursorCall
  | vfsOpen
  | kmalloc
  | kfree
  | vfsClose
  deriving DecidableEq

/-- What a call did: its result, the cursor if one was given, the calls in order, and the indices
used of `xor_data` and of `out->pixels`. -/
structure CursorRun where
  ret : Int
  out : Option Cursor
  calls : List CursorCall
  bmp : Option BmpInfoHeader
  xorData : Bytes
  reads : List Nat
  writes : List Nat
  disk : Disk

/-- `return -1` behind `calls`. -/
def cursorFails (out : Option Cursor) (calls : List CursorCall) (d : Disk) : CursorRun :=
  ⟨-1, out, calls, none, fun _ => 0, [], [], d⟩

/-- `return 0` -/
def cursorLoaded (bmp : BmpInfoHeader) (xorData : Bytes) (out : Cursor) (d : Disk) : CursorRun :=
  let o := decodeRows bmp xorData out.pixels
  ⟨0, some { out with pixels := o.pixels }, [.vfsOpen, .kmalloc, .kfree, .vfsClose], some bmp,
    xorData, o.reads, o.writes, d⟩

/-- `cursor_load` behind the check of the size. `kmalloc` gives what the block holds at first. -/
def cursorPixels (fp : FatPrivate) (fuel : Nat) (node : VfsNode) (kmalloc : Nat → Option Bytes)
    (bmp : BmpInfoHeader) (offset : Nat) (out : Cursor) (d : Disk) : Option CursorRun :=
  let out := { out with width := bmp.width % 2 ^ 16, height := bmp.rows % 2 ^ 16 }
  match kmalloc bmp.xorSize with
  | none => some (cursorFails (some out) [.vfsOpen, .vfsClose] d)
  | some buf =>
    (vfsRead fp fuel node offset bmp.xorSize buf d).map fun (n, _, xorData, d) =>
      if n < asInt bmp.xorSize then
        cursorFails (some out) [.vfsOpen, .kmalloc, .kfree, .vfsClose] d
      else cursorLoaded bmp xorData out d

/-- `cursor_load`; `vfsOpen` gives the node of the file it opened. -/
def cursorLoad (fp : FatPrivate) (fuel : Nat) (vfsOpen : CStr → Option VfsNode) (junk : Nat → Bytes)
    (kmalloc : Nat → Option Bytes) (path : CStr) (out : Option Cursor) (d : Disk) :
    Option CursorRun :=
  match out with
  | none => some (cursorFails none [] d)
  | some out =>
    match vfsOpen path with
    | none => some (cursorFails (some out) [] d)
    | some node =>
      (cursorHeaders fp fuel node junk out d).bind fun (out, found, d) =>
        match found with
        | none => some (cursorFails (some out) [.vfsOpen, .vfsClose] d)
        | some (bmp, offset) => cursorPixels fp fuel node kmalloc bmp offset out d

/-- The file is there, its headers are accepted, there is memory for the pixels of `bmp`, and the
file has all of them. -/
def HasImage (fp : FatPrivate) (fuel : Nat) (vfsOpen : CStr → Option VfsNode) (junk : Nat → Bytes)
    (kmalloc : Nat → Option Bytes) (path : CStr) (out : Option Cursor) (d : Disk)
    (bmp : BmpInfoHeader) : Prop :=
  ∃ cur node out' offset d' buf n offset' xorData d'', out = some cur ∧ vfsOpen path = some node ∧
    cursorHeaders fp fuel node junk cur d = some (out', some (bmp, offset), d') ∧
    kmalloc bmp.xorSize = some buf ∧
    vfsRead fp fuel node offset bmp.xorSize buf d' = some (n, offset', xorData, d'') ∧
    asInt bmp.xorSize ≤ n

def CursorRun.Released (run : CursorRun) : Prop :=
  run.calls.count .vfsClose = run.calls.count .vfsOpen ∧
    run.calls.count .kfree = run.calls.count .kmalloc

/-- The loops stay in their buffers, and an image of 32 bits is stored upside down. -/
structure CursorRun.Inside (run : CursorRun) (bmp : BmpInfoHeader) (out : Cursor) : Prop where
  reads : ∀ i ∈ run.reads, i < bmp.xorSize
  writes : ∀ i ∈ run.writes, i < CURSOR_MAX_W * CURSOR_MAX_H
  pixels : bmp.bpp = 32 → ∀ y x, y < bmp.rows → x < bmp.width →
    (out.pixels (y * bmp.width + x)).toNat =
      getLE run.xorData (4 * ((bmp.rows - 1 - y) * bmp.width + x)) 4

def CursorRun.Ok (run : CursorRun) : Prop :=
  (run.ret = -1 ∧ run.Released) ∨
    run.ret = 0 ∧ ∃ bmp out, run.bmp = some bmp ∧ run.out = some out ∧ run.Inside bmp out

-- ---------------------------------------------------------------------------
-- The sizes
-- ---------------------------------------------------------------------------

structure BmpInfoHeader.Accepted (bmp : BmpInfoHeader) : Prop where
  width_pos : 0 < bmp.width
  width_le : bmp.width ≤ 64
  rows_pos : 0 < bmp.rows
  rows_le : bmp.rows ≤ 64
  bpp_lt : bmp.bpp < 2 ^ 16

variable {bmp : BmpInfoHeader} {fp : FatPrivate} {fuel : Nat} {node : VfsNode} {junk : Nat → Bytes}
  {vfsOpen : CStr → Option VfsNode} {kmalloc : Nat → Option Bytes} {path : CStr}
  {cur cur' : Cursor} {d d' : Disk} {run : CursorRun} {xorData : Bytes}

theorem cursorHeaders_accepted
    (h : cursorHeaders fp fuel node junk cur d = some (cur', some (bmp, offset), d')) :
    bmp.Accepted := by
  obtain ⟨⟨n, o, buf, d₁⟩, -, h⟩ := Option.bind_eq_some_iff.mp h
  dsimp only at h
  split at h
  · cases h
  obtain ⟨⟨n₂, o₂, buf₂, d₂⟩, -, h⟩ := Option.bind_eq_some_iff.mp h
  dsimp only at h
  split at h
  · cases h
  obtain ⟨⟨n₃, o₃, buf₃, d₃⟩, -, h⟩ := Option.bind_eq_some_iff.mp h
  dsimp only at h
  split at h
  · cases h
  rename_i hok
  cases h
  simp only [CURSOR_MAX_W, CURSOR_MAX_H, not_or] at hok
  obtain ⟨-, hw, hh, hw0, hh0⟩ := hok
  exact ⟨by omega, by omega, by omega, by omega, getLE_lt _ _ 2⟩

namespace BmpInfoHeader.Accepted

variable (h : bmp.Accepted)

include h

theorem width_mul_bpp_le : bmp.width * bmp.bpp ≤ 64 * 65535 :=
  Nat.mul_le_mul h.width_le (by have := h.bpp_lt; omega)

theorem rowSize_eq : bmp.rowSize = (bmp.width * bmp.bpp + 31) / 32 * 4 := by
  have := h.width_mul_bpp_le
  rw [rowSize]
  omega

theorem xorSize_le : bmp.rowSize * bmp.rows ≤ 524280 * 64 := by
  have := h.width_mul_bpp_le
  exact Nat.mul_le_mul (by rw [h.rowSize_eq]; omega) h.rows_le

theorem xorSize_eq : bmp.xorSize = bmp.rowSize * bmp.rows := by
  have := h.xorSize_le
  rw [xorSize]
  omega

theorem srcIndex_eq (hx : x < bmp.width) (hk : k < 4) :
    bmp.srcIndex y x k = (bmp.rows - 1 - y) * bmp.rowSize + x * 4 + k := by
  have hle := h.xorSize_le
  have hrow : (bmp.rows - 1 - y) * bmp.rowSize ≤ bmp.rowSize * bmp.rows := by
    rw [Nat.mul_comm]
    exact Nat.mul_le_mul_left _ (by omega)
  have := h.width_le
  rw [srcIndex]
  omega

theorem srcIndex_lt (hwide : 32 * bmp.width ≤ bmp.width * bmp.bpp + 31) (hy : y < bmp.rows)
    (hx : x < bmp.width) (hk : k < 4) : bmp.srcIndex y x k < bmp.xorSize := by
  have hrow : 4 * bmp.width ≤ bmp.rowSize := by
    rw [h.rowSize_eq]
    omega
  have hend : (bmp.rows - 1 - y) * bmp.rowSize + bmp.rowSize ≤ bmp.rows * bmp.rowSize := by
    rw [← Nat.succ_mul]
    exact Nat.mul_le_mul_right _ (by omega)
  rw [h.srcIndex_eq hx hk, h.xorSize_eq, Nat.mul_comm bmp.rowSize]
  omega

theorem le_srcIndex (hwide : ¬ 32 * bmp.width ≤ bmp.width * bmp.bpp + 31) :
    bmp.xorSize ≤ bmp.srcIndex 0 (bmp.width - 1) 3 := by
  have hrow : bmp.rowSize < 4 * bmp.width := by
    rw [h.rowSize_eq]
    omega
  have hpos := h.rows_pos
  have hwpos := h.width_pos
  have hend : (bmp.rows - 1 - 0) * bmp.rowSize + bmp.rowSize = bmp.rows * bmp.rowSize := by
    rw [← Nat.succ_mul]
    congr 1
    omega
  rw [h.srcIndex_eq (by omega) (by omega), h.xorSize_eq, Nat.mul_comm bmp.rowSize]
  omega

end BmpInfoHeader.Accepted

-- ---------------------------------------------------------------------------
-- The loops
-- ---------------------------------------------------------------------------

theorem argb_toNat (b g r a : UInt8) :
    (argb b g r a).toNat = b.toNat + 256 * (g.toNat + 256 * (r.toNat + 256 * a.toNat)) := by
  have hb := b.toNat_lt
  have hg := g.toNat_lt
  have hr := r.toNat_lt
  have ha := a.toNat_lt
  simp only [argb, UInt32.toNat_or, UInt32.toNat_shiftLeft, UInt8.toNat_toUInt32, Nat.or_assoc,
    UInt32.reduceToNat, Nat.reduceMod]
  have hmod : ∀ n i : Nat, n < 2 ^ 8 → i ≤ 24 → n <<< i % 2 ^ 32 = n <<< i := by
    intro n i hn hi
    refine Nat.mod_eq_of_lt ?_
    rw [Nat.shiftLeft_eq]
    calc n * 2 ^ i < 2 ^ 8 * 2 ^ 24 :=
          Nat.mul_lt_mul_of_lt_of_le hn (Nat.pow_le_pow_right (by decide) hi) (by decide)
      _ = 2 ^ 32 := by decide
  rw [hmod _ 24 ha (by decide), hmod _ 16 hr (by decide), hmod _ 8 hg (by decide)]
  rw [shiftLeft_or _ hb, shiftLeft_or _ (i := 16) (by omega), shiftLeft_or _ (i := 24) (by omega)]
  omega

theorem mem_decodeRows_reads {pixels : Nat → UInt32} :
    i ∈ (decodeRows bmp xorData pixels).reads ↔
      ∃ y < bmp.rows, ∃ x < bmp.width, ∃ k < 4, bmp.srcIndex y x k = i := by
  have hreads : (decodeRows bmp xorData pixels).reads = _ :=
    nested_appends Decoding.reads (fun _ _ _ => rfl) _ _ _
  simp [hreads]

theorem mem_decodeRows_writes {pixels : Nat → UInt32} :
    i ∈ (decodeRows bmp xorData pixels).writes ↔
      ∃ y < bmp.rows, ∃ x < bmp.width, y * bmp.width + x = i := by
  have hwrites : (decodeRows bmp xorData pixels).writes = _ :=
    nested_appends Decoding.writes (fun _ _ _ => rfl) _ _ _
  simp [hwrites, eq_comm]

theorem decodeRows_pixels {pixels : Nat → UInt32} (hy : y < bmp.rows) (hx : x < bmp.width) :
    (decodeRows bmp xorData pixels).pixels (y * bmp.width + x) =
      argb (xorData (bmp.srcIndex y x 0)) (xorData (bmp.srcIndex y x 1))
        (xorData (bmp.srcIndex y x 2)) (xorData (bmp.srcIndex y x 3)) := by
  refine nested_sets (fun o : Decoding => o.pixels (y * bmp.width + x)) (List.mem_range.mpr hy)
    (List.mem_range.mpr hx) (fun o => ?_) (fun y' hy' x' hx' hne o => ?_) _
  · exact Function.update_self ..
  · exact Function.update_of_ne (fun heq => hne (cell_inj (List.mem_range.mp hx') hx heq.symm)) ..

/-- The pixels of an accepted header fit in `out->pixels`. -/
theorem BmpInfoHeader.Accepted.pixel_lt (h : bmp.Accepted) (hy : y < bmp.rows)
    (hx : x < bmp.width) : y * bmp.width + x < CURSOR_MAX_W * CURSOR_MAX_H := by
  have hrow : y * bmp.width ≤ 63 * 64 :=
    Nat.mul_le_mul (by have := h.rows_le; omega) h.width_le
  have := h.width_le
  rw [show CURSOR_MAX_W * CURSOR_MAX_H = 64 * 64 from rfl]
  omega

/-- A call that decodes is right just when a row of the buffer has four bytes for each pixel. -/
theorem cursorLoaded_ok_iff (h : bmp.Accepted) :
    (cursorLoaded bmp xorData cur d).Ok ↔ 32 * bmp.width ≤ bmp.width * bmp.bpp + 31 := by
  constructor
  · rintro (⟨hret, -⟩ | ⟨-, bmp', out, hbmp, -, hin⟩)
    · cases hret
    · obtain rfl : bmp = bmp' := Option.some.inj hbmp
      by_contra hwide
      have hlt := hin.reads _ (mem_decodeRows_reads.mpr
        ⟨0, h.rows_pos, bmp.width - 1, Nat.sub_lt h.width_pos Nat.one_pos, 3, by decide, rfl⟩)
      have := h.le_srcIndex hwide
      omega
  · refine fun hwide => .inr ⟨rfl, bmp, _, rfl, rfl, ?_, ?_, ?_⟩
    · intro i hi
      obtain ⟨y, hy, x, hx, k, hk, rfl⟩ := mem_decodeRows_reads.mp hi
      exact h.srcIndex_lt hwide hy hx hk
    · intro i hi
      obtain ⟨y, hy, x, hx, rfl⟩ := mem_decodeRows_writes.mp hi
      exact h.pixel_lt hy hx
    · intro hbpp y x hy hx
      have hrow : bmp.rowSize = bmp.width * 4 := by
        rw [h.rowSize_eq, hbpp]
        omega
      have hsrc : ∀ k < 4,
          bmp.srcIndex y x k = 4 * ((bmp.rows - 1 - y) * bmp.width + x) + k := by
        intro k hk
        rw [h.srcIndex_eq hx hk, hrow, ← Nat.mul_assoc, Nat.mul_add, Nat.mul_comm _ 4,
          Nat.mul_comm x 4]
      show ((decodeRows bmp xorData cur.pixels).pixels _).toNat = getLE xorData _ 4
      rw [decodeRows_pixels hy hx, argb_toNat, hsrc 0 (by decide), hsrc 1 (by decide),
        hsrc 2 (by decide), hsrc 3 (by decide)]
      rfl

-- ---------------------------------------------------------------------------
-- The call
-- ---------------------------------------------------------------------------

theorem HasImage.loads (himage : HasImage fp fuel vfsOpen junk kmalloc path out d bmp)
    (h : cursorLoad fp fuel vfsOpen junk kmalloc path out d = some run) :
    bmp.Accepted ∧ ∃ xorData cur d', run = cursorLoaded bmp xorData cur d' := by
  obtain ⟨cur, node, cur', offset, d₁, buf, n, o, xorData, d₂, rfl, hnode, hheaders, hbuf, hread,
    hn⟩ := himage
  have haccepted := cursorHeaders_accepted hheaders
  simp only [cursorLoad, hnode, hheaders, Option.bind_some, cursorPixels, hbuf, hread,
    Option.map_some, if_neg (Int.not_lt.mpr hn), Option.some.injEq] at h
  exact ⟨haccepted, _, _, _, h.symm⟩

theorem cursorLoad_fails
    (hno : ∀ bmp, ¬ HasImage fp fuel vfsOpen junk kmalloc path out d bmp)
    (h : cursorLoad fp fuel vfsOpen junk kmalloc path out d = some run) : run.Ok := by
  rcases out with _ | cur
  · cases h
    exact .inl ⟨rfl, rfl, rfl⟩
  rw [cursorLoad] at h
  rcases hnode : vfsOpen path with _ | node
  · rw [hnode] at h
    cases h
    exact .inl ⟨rfl, rfl, rfl⟩
  rw [hnode] at h
  obtain ⟨⟨cur', found, d₁⟩, hheaders, h⟩ := Option.bind_eq_some_iff.mp h
  rcases found with _ | ⟨bmp, offset⟩
  · cases h
    exact .inl ⟨rfl, rfl, rfl⟩
  dsimp only [cursorPixels] at h
  rcases hbuf : kmalloc bmp.xorSize with _ | buf
  · rw [hbuf] at h
    cases h
    exact .inl ⟨rfl, rfl, rfl⟩
  rw [hbuf] at h
  obtain ⟨⟨n, o, xorData, d₂⟩, hread, rfl⟩ := Option.map_eq_some_iff.mp h
  dsimp only
  split
  · exact .inl ⟨rfl, rfl, rfl⟩
  · rename_i hn
    exact absurd ⟨cur, node, cur', offset, d₁, buf, n, o, xorData, d₂, rfl, hnode, hheaders, hbuf,
      hread, Int.not_lt.mp hn⟩ (hno bmp)

-- ---------------------------------------------------------------------------
-- The call returns
-- ---------------------------------------------------------------------------

theorem vfsRead_ends (hb : 0 < fp.bytesPerCluster) (node : VfsNode) (offset size : Nat)
    (buf : Bytes) (d : Disk) : Ends fun fuel => vfsRead fp fuel node offset size buf d := by
  obtain ⟨fuel, r, h⟩ := fatRead_returns hb node offset (min size (remaining node offset)) buf d
  exact ⟨_, vfsRead_returns_of h⟩

theorem cursorHeaders_ends (hb : 0 < fp.bytesPerCluster) (node : VfsNode) (junk : Nat → Bytes)
    (cur : Cursor) (d : Disk) : Ends fun fuel => cursorHeaders fp fuel node junk cur d := by
  refine .bind (vfsRead_ends hb ..) fun ⟨n, offset, buf, d₁⟩ => .ite _ (.pure _) ?_
  refine .bind (vfsRead_ends hb ..) fun ⟨n, _, buf, d₂⟩ => .ite _ (.pure _) ?_
  exact .bind (vfsRead_ends hb ..) fun ⟨n, offset, buf, d₃⟩ => .ite _ (.pure _) (.pure _)

theorem cursorPixels_ends (hb : 0 < fp.bytesPerCluster) (node : VfsNode)
    (kmalloc : Nat → Option Bytes) (bmp : BmpInfoHeader) (offset : Nat) (cur : Cursor) (d : Disk) :
    Ends fun fuel => cursorPixels fp fuel node kmalloc bmp offset cur d := by
  simp only [cursorPixels]
  rcases kmalloc bmp.xorSize with _ | buf
  · exact .pure _
  · obtain ⟨r, hread⟩ := vfsRead_ends hb node offset bmp.xorSize buf d
    exact ⟨_, hread.map _⟩

theorem cursorLoad_ends (hb : 0 < fp.bytesPerCluster) (vfsOpen : CStr → Option VfsNode)
    (junk : Nat → Bytes) (kmalloc : Nat → Option Bytes) (path : CStr) (out : Option Cursor)
    (d : Disk) : Ends fun fuel => cursorLoad fp fuel vfsOpen junk kmalloc path out d := by
  rcases out with _ | cur
  · exact .pure _
  simp only [cursorLoad]
  rcases vfsOpen path with _ | node
  · exact .pure _
  refine .bind (cursorHeaders_ends hb node junk cur d) fun ⟨cur', found, d₁⟩ => ?_
  rcases found with _ | ⟨bmp, offset⟩
  · exact .pure _
  · exact cursorPixels_ends hb node kmalloc bmp offset cur' d₁

/-- Every call returns, and what it did is right just when it does not come to decode rows that are
shorter than four bytes for each pixel. -/
theorem cursorLoad_inside_iff (fp : FatPrivate) (vfsOpen : CStr → Option VfsNode)
    (junk : Nat → Bytes) (kmalloc : Nat → Option Bytes) (path : CStr) (out : Option Cursor)
    (d : Disk) :
    (0 < fp.bytesPerCluster →
      ∃ run, Returns (fun fuel => cursorLoad fp fuel vfsOpen junk kmalloc path out d) run) ∧
    ∀ fuel run, cursorLoad fp fuel vfsOpen junk kmalloc path out d = some run →
      (run.Ok ↔ ∀ bmp, HasImage fp fuel vfsOpen junk kmalloc path out d bmp →
        32 * bmp.width ≤ bmp.width * bmp.bpp + 31) := by
  refine ⟨fun hb => cursorLoad_ends hb vfsOpen junk kmalloc path out d, fun fuel run h => ?_⟩
  by_cases himage : ∃ bmp, HasImage fp fuel vfsOpen junk kmalloc path out d bmp
  · constructor
    · intro hok bmp himage
      obtain ⟨haccepted, xorData, cur, d', rfl⟩ := himage.loads h
      exact (cursorLoaded_ok_iff haccepted).mp hok
    · intro hwide
      obtain ⟨bmp, himage⟩ := himage
      obtain ⟨haccepted, xorData, cur, d', rfl⟩ := himage.loads h
      exact (cursorLoaded_ok_iff haccepted).mpr (hwide bmp himage)
  · have hno := not_exists.mp himage
    exact ⟨fun _ bmp h => absurd h (hno bmp), fun _ => cursorLoad_fails hno h⟩

def smallCursor : VfsNode := { overlayNode with size := 66 }

/-- A cursor of one row and two pixels, of one bit each: the image is at 22, and its four bytes
are at 62. -/
def cursorDisk : Disk :=
  { overlayDisk with
    sectors := fun n => if n = 4 then
        putLE (putLE (putLE (putLE (putLE (putLE (fun _ => 0) 2 2 2) 4 2 1) 18 4 22) 26 4 2) 30 4 2)
          36 2 1
      else overlayDisk.sectors n }

def narrowLoad : Option CursorRun :=
  cursorLoad overlayFp 2 (fun _ => some smallCursor) (fun _ _ => 0)
    (fun n => if n = 0 then none else some fun _ => 0) [] (some ⟨0, 0, 0, 0, fun _ => 0⟩) cursorDisk

/-- It is accepted, and eight bytes of the four are read. -/
theorem narrow_rows_overread : ∃ run, narrowLoad = some run ∧ run.ret = 0 ∧ ¬ run.Ok := by
  have hrun : narrowLoad.map (fun run => (run.ret, run.bmp.map (·.xorSize), run.reads)) =
      some (0, some 4, List.range 8) := by decide +kernel
  obtain ⟨run, hrun, heq⟩ := Option.map_eq_some_iff.mp hrun
  obtain ⟨hret, hsize, hreads⟩ : run.ret = 0 ∧ run.bmp.map (·.xorSize) = some 4 ∧
      run.reads = List.range 8 := by
    simpa only [Prod.mk.injEq] using heq
  refine ⟨run, hrun, hret, ?_⟩
  rintro (⟨hfail, -⟩ | ⟨-, bmp, out, hbmp, -, hin⟩)
  · rw [hret] at hfail
    exact absurd hfail (by decide)
  · rw [hbmp] at hsize
    have hfour : bmp.xorSize = 4 := Option.some.inj hsize
    have hlt := hin.reads 7 (by rw [hreads]; decide)
    rw [hfour] at hlt
    exact absurd hlt (by decide)

end EponaOS.Drivers
