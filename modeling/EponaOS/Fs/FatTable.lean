import EponaOS.Lib.Chain
import EponaOS.Fs.Fat
import Mathlib.Data.Finset.Card
import Mathlib.Order.Interval.Finset.Nat

/-!
# The table on the image

What the accesses to the table do when the geometry is sound and the drive has no errors,
stated on the bytes of the image: the entries are those of the first copy, a change of one
leaves the others and everything behind the table alone, and the allocator finds the least
free cluster.
-/

namespace EponaOS.Fs

open Bytes

/-- Sectors of 512 bytes; the boot sector, then the copies of the table with an entry for
each cluster, then the clusters, all within what the drive can address. -/
structure Geometry (fp : FatPrivate) : Prop where
  sector : fp.bpb.bytesPerSector = 512
  spc_pos : 1 ≤ fp.bpb.sectorsPerCluster
  spc_lt : fp.bpb.sectorsPerCluster < 2 ^ 8
  cluster : fp.bytesPerCluster = 512 * fp.bpb.sectorsPerCluster
  copies : 1 ≤ fp.bpb.fatCount
  start : 1 ≤ fp.fatStart
  covers : 4 * (fatTotalClusters fp + 2) ≤ 512 * fp.sectorsPerFat
  behind : fp.fatStart + fp.bpb.fatCount * fp.sectorsPerFat ≤ fp.dataStart
  fits : fp.dataStart + fatTotalClusters fp * fp.bpb.sectorsPerCluster ≤ 2 ^ 28

def Valid (fp : FatPrivate) (c : Nat) : Prop := 2 ≤ c ∧ c < fatTotalClusters fp + 2

def fatAddr (fp : FatPrivate) (c : Nat) : Nat := 512 * fp.fatStart + 4 * c

def fatEntry (fp : FatPrivate) (m : Bytes) (c : Nat) : Nat := getLE m (fatAddr fp c) 4 % 2 ^ 28

def clusterLba (fp : FatPrivate) (c : Nat) : Nat :=
  fp.dataStart + (c - 2) * fp.bpb.sectorsPerCluster

def clusterAddr (fp : FatPrivate) (c : Nat) : Nat := 512 * clusterLba fp c

def InTable (fp : FatPrivate) (a : Nat) : Prop := 512 * fp.fatStart ≤ a ∧ a < 512 * fp.dataStart

def InCluster (fp : FatPrivate) (c a : Nat) : Prop :=
  clusterAddr fp c ≤ a ∧ a < clusterAddr fp c + fp.bytesPerCluster

def FatChain (fp : FatPrivate) (m : Bytes) (c : Nat) (l : List Nat) : Prop :=
  Chain (fatEntry fp m) (FAT_EOC ≤ ·) c l ∧ ∀ x ∈ l, Valid fp x

structure SetEntry (fp : FatPrivate) (m m' : Bytes) (c v : Nat) : Prop where
  entry : ∀ x, Valid fp x → fatEntry fp m' x = if x = c then v else fatEntry fp m x
  other : ∀ a, ¬ InTable fp a → m' a = m a

variable {fp : FatPrivate} {d d' : Disk} {m m' : Bytes} {c v x : Nat}

-- ---------------------------------------------------------------------------
-- Where the parts of the volume lie
-- ---------------------------------------------------------------------------

theorem Geometry.fat_le (hg : Geometry fp) : fp.fatStart + fp.sectorsPerFat ≤ fp.dataStart := by
  have h := hg.behind
  have := Nat.le_mul_of_pos_left fp.sectorsPerFat hg.copies
  omega

theorem Geometry.data_le (hg : Geometry fp) : fp.dataStart ≤ 2 ^ 28 := by
  have := hg.fits
  omega

theorem Geometry.total_lt (hg : Geometry fp) : fatTotalClusters fp + 2 < FAT_EOC := by
  have h1 := hg.fits
  have h2 := hg.covers
  have h3 := hg.fat_le
  have h4 := Nat.le_mul_of_pos_right (fatTotalClusters fp) hg.spc_pos
  unfold FAT_EOC
  omega

theorem Valid.lt_eoc (hg : Geometry fp) (hc : Valid fp c) : c < FAT_EOC :=
  Nat.lt_trans hc.2 hg.total_lt

theorem clusterAddr_lt (hg : Geometry fp) (hc : Valid fp c) (h : c < x) :
    clusterAddr fp c + fp.bytesPerCluster ≤ clusterAddr fp x := by
  have h1 : c - 2 + 1 ≤ x - 2 := by
    have := hc.1
    omega
  have h2 := Nat.mul_le_mul_right fp.bpb.sectorsPerCluster h1
  rw [Nat.add_mul, Nat.one_mul] at h2
  rw [clusterAddr, clusterAddr, clusterLba, clusterLba, hg.cluster]
  omega

theorem clusterLba_lt (hg : Geometry fp) (hc : Valid fp c) :
    clusterLba fp c + fp.bpb.sectorsPerCluster ≤ 2 ^ 28 := by
  have h1 : c - 2 + 1 ≤ fatTotalClusters fp := by
    have := hc.1
    have := hc.2
    omega
  have h2 := Nat.mul_le_mul_right fp.bpb.sectorsPerCluster h1
  rw [Nat.add_mul, Nat.one_mul] at h2
  have h3 := hg.fits
  rw [clusterLba]
  omega

theorem InCluster.eq (hg : Geometry fp) (hc : Valid fp c) (hx : Valid fp x)
    (h : InCluster fp c a) (h' : InCluster fp x a) : c = x := by
  obtain ⟨h1, h2⟩ := h
  obtain ⟨h3, h4⟩ := h'
  rcases Nat.lt_trichotomy c x with h | h | h
  · have := clusterAddr_lt hg hc h
    omega
  · exact h
  · have := clusterAddr_lt hg hx h
    omega

theorem InCluster.not_table (h : InCluster fp c a) : ¬ InTable fp a := by
  intro ht
  have h1 := h.1
  have h2 := ht.2
  rw [clusterAddr, clusterLba] at h1
  omega

theorem fatAddr_table (hg : Geometry fp) (hc : Valid fp c) (hi : i < 4) :
    InTable fp (fatAddr fp c + i) := by
  have h1 := hg.covers
  have h2 := hg.fat_le
  have h3 := hc.2
  rw [InTable, fatAddr]
  omega

theorem fatEntry_congr (h : ∀ i, i < 4 → m' (fatAddr fp c + i) = m (fatAddr fp c + i)) :
    fatEntry fp m' c = fatEntry fp m c := by
  rw [fatEntry, fatEntry, getLE_congr h]

theorem fatClusterToLba_eq (hg : Geometry fp) (hc : Valid fp c) :
    fatClusterToLba fp c = clusterLba fp c := by
  have h1 := clusterLba_lt hg hc
  have h2 := hc.1
  have h3 := hc.lt_eoc hg
  unfold FAT_EOC at h3
  have h4 : (c + 2 ^ 32 - 2) % 2 ^ 32 = c - 2 := by omega
  rw [fatClusterToLba, h4]
  exact Nat.mod_eq_of_lt (by rw [clusterLba] at h1; omega)

-- ---------------------------------------------------------------------------
-- Chains
-- ---------------------------------------------------------------------------

theorem FatChain.unique (h : FatChain fp m c l) (h' : FatChain fp m c l') : l = l' :=
  h.1.unique h'.1

theorem FatChain.nodup (h : FatChain fp m c l) : l.Nodup := h.1.nodup

theorem FatChain.ne_nil (h : FatChain fp m c l) (hg : Geometry fp) (hc : Valid fp c) : l ≠ [] :=
  h.1.ne_nil (Nat.not_le.mpr (hc.lt_eoc hg))

theorem FatChain.congr (h : FatChain fp m c l) (he : ∀ x ∈ l, fatEntry fp m' x = fatEntry fp m x) :
    FatChain fp m' c l := ⟨h.1.congr he, h.2⟩

theorem FatChain.entry_ne_zero (h : FatChain fp m c l) (hx : x ∈ l) : fatEntry fp m x ≠ 0 := by
  obtain ⟨l₁, l₂, rfl⟩ := List.append_of_mem hx
  intro h0
  cases h.1.of_append with
  | link _ ht =>
    rw [h0] at ht
    cases ht with
    | nil hs => simp [FAT_EOC] at hs
    | link _ _ =>
      have := (h.2 0 (by simp)).1
      omega

-- ---------------------------------------------------------------------------
-- One entry
-- ---------------------------------------------------------------------------

/-- The sector and the offset at which the driver looks for the entry of `c`. -/
theorem fat_offsets (hg : Geometry fp) (hc : c < fatTotalClusters fp + 2) :
    c * 4 % 2 ^ 32 = 4 * c ∧ fp.fatStart + 4 * c / 512 < fp.dataStart ∧
      512 * (fp.fatStart + 4 * c / 512) + 4 * c % 512 = fatAddr fp c ∧ 4 * c % 512 + 4 ≤ 512 := by
  have h1 := hg.covers
  have h2 := hg.fat_le
  have h3 := hg.total_lt
  unfold FAT_EOC at h3
  rw [fatAddr]
  omega

theorem fatNextCluster_eq (hg : Geometry fp) (hd : NoFaults d)
    (hc : c < fatTotalClusters fp + 2) : fatNextCluster fp d c = (fatEntry fp d.image c, d) := by
  obtain ⟨h1, h2, h3, h4⟩ := fat_offsets hg hc
  have h5 := hg.data_le
  have h6 : (fp.fatStart + 4 * c / 512) % 2 ^ 32 = fp.fatStart + 4 * c / 512 :=
    Nat.mod_eq_of_lt (by omega)
  simp only [fatNextCluster, hg.sector, h1, h6]
  rw [ataReadSectors_eq hd (by omega)]
  dsimp only
  rw [getLE_sector d _ h4, h3, fatEntry]

theorem fatWriteCopies_spec (hg : Geometry fp) (hd : NoFaults d) (buf : Bytes)
    (hc : c < fatTotalClusters fp + 2) (hk : i + k ≤ fp.bpb.fatCount) :
    ∃ d', fatWriteCopies fp (4 * c) buf k i d = (true, d') ∧ NoFaults d' ∧
      (∀ a, ¬ InTable fp a → d'.image a = d.image a) ∧
      ∀ a, a < 512 * (fp.fatStart + fp.sectorsPerFat) → d'.image a =
        if i = 0 ∧ 0 < k then blit d.image (512 * (fp.fatStart + 4 * c / 512)) 512 buf 0 a
        else d.image a := by
  induction k generalizing i d with
  | zero =>
    refine ⟨d, rfl, hd, fun _ _ => rfl, fun a _ => ?_⟩
    rw [if_neg (by omega)]
  | succ k ih =>
    have h1 := hg.covers
    have h2 := hg.behind
    have h3 := hg.data_le
    have h4 : (i + 1) * fp.sectorsPerFat ≤ fp.bpb.fatCount * fp.sectorsPerFat :=
      Nat.mul_le_mul_right _ (by omega)
    rw [Nat.add_mul, Nat.one_mul] at h4
    generalize hs : fp.fatStart + i * fp.sectorsPerFat + 4 * c / 512 = s
    have hlt : s < fp.dataStart := by omega
    obtain ⟨d₁, he, hd₁, him⟩ := ataWriteSectors_eq hd (show s < 2 ^ 28 by omega) buf
    obtain ⟨d₂, he₂, hd₂, hout, hfirst⟩ := ih hd₁ (show i + 1 + k ≤ fp.bpb.fatCount by omega)
    refine ⟨d₂, ?_, hd₂, fun a ha => ?_, fun a ha => ?_⟩
    · rw [fatWriteCopies, hg.sector, hs, Nat.mod_eq_of_lt (by omega), he]
      exact he₂
    · rw [hout a ha, him, blit_off]
      simp only [InTable] at ha
      omega
    · rw [hfirst a ha, if_neg (by omega), him]
      by_cases hi : i = 0
      · subst hi
        have : s = fp.fatStart + 4 * c / 512 := by omega
        rw [if_pos (by omega), this]
      · have : fp.sectorsPerFat ≤ i * fp.sectorsPerFat := Nat.le_mul_of_pos_left _ (by omega)
        rw [if_neg (by omega), blit_off]
        omega

def entrySectorSet (fp : FatPrivate) (d : Disk) (c v : Nat) : Bytes :=
  putLE (d.sectors (fp.fatStart + 4 * c / 512)) (4 * c % 512) 4
    (getLE (d.sectors (fp.fatStart + 4 * c / 512)) (4 * c % 512) 4 / 2 ^ 28 * 2 ^ 28 + v % 2 ^ 28)

theorem SetEntry.of_first (hg : Geometry fp) (hc : c < fatTotalClusters fp + 2)
    (hout : ∀ a, ¬ InTable fp a → d'.image a = d.image a)
    (hin : ∀ a, a < 512 * (fp.fatStart + fp.sectorsPerFat) → d'.image a =
      blit d.image (512 * (fp.fatStart + 4 * c / 512)) 512 (entrySectorSet fp d c v) 0 a) :
    SetEntry fp d.image d'.image c (v % 2 ^ 28) := by
  obtain ⟨h1, h2, h3, h4⟩ := fat_offsets hg hc
  refine ⟨fun x hx => ?_, hout⟩
  -- the bytes of the entry of `x` in the first copy
  have hx1 := hg.covers
  have hx2 := hx.2
  have hbyte : ∀ i, i < 4 → d'.image (fatAddr fp x + i) = blit d.image
      (512 * (fp.fatStart + 4 * c / 512)) 512 (entrySectorSet fp d c v) 0 (fatAddr fp x + i) := by
    intro i hi
    exact hin _ (by rw [fatAddr]; omega)
  by_cases hxc : x = c
  · subst hxc
    rw [if_pos rfl, fatEntry]
    have : getLE d'.image (fatAddr fp x) 4 = getLE (entrySectorSet fp d x v) (4 * x % 512) 4 := by
      apply getLE_congr_at
      intro i hi
      rw [hbyte i hi, blit_in _ _ _ (by omega)]
      congr 1
      omega
    rw [this, entrySectorSet, getLE_putLE_same]
    have hv := Nat.mod_lt v (show 0 < 2 ^ 28 by decide)
    have hlt := getLE_lt (d.sectors (fp.fatStart + 4 * x / 512)) (4 * x % 512) 4
    have hp : (256 : Nat) ^ 4 = 2 ^ 32 := by decide
    rw [hp] at hlt ⊢
    omega
  · rw [if_neg hxc]
    apply fatEntry_congr
    intro i hi
    rw [hbyte i hi]
    by_cases hs : 512 * (fp.fatStart + 4 * c / 512) ≤ fatAddr fp x + i ∧
        fatAddr fp x + i < 512 * (fp.fatStart + 4 * c / 512) + 512
    · have h7 : 4 * x / 512 = 4 * c / 512 := by
        simp only [fatAddr] at hs
        omega
      rw [blit_in _ _ _ hs, entrySectorSet, putLE_off _ _ (by simp only [fatAddr]; omega),
        sector_image _ _ (by simp only [fatAddr]; omega)]
      congr 1
      omega
    · rw [blit_off _ _ _ (by omega)]

theorem fatSetCluster_spec (hg : Geometry fp) (hd : NoFaults d)
    (hc : c < fatTotalClusters fp + 2) (v : Nat) :
    ∃ d', fatSetCluster fp d c v = (true, d') ∧ NoFaults d' ∧
      SetEntry fp d.image d'.image c (v % 2 ^ 28) := by
  obtain ⟨h1, h2, h3, h4⟩ := fat_offsets hg hc
  have h5 := hg.data_le
  have h6 : (fp.fatStart + 4 * c / 512) % 2 ^ 32 = fp.fatStart + 4 * c / 512 :=
    Nat.mod_eq_of_lt (by omega)
  obtain ⟨d', he, hd', hout, hin⟩ := fatWriteCopies_spec hg hd (entrySectorSet fp d c v) hc
    (Nat.le_of_eq (Nat.zero_add fp.bpb.fatCount))
  refine ⟨d', ?_, hd', .of_first hg hc hout fun a ha => ?_⟩
  · simp only [fatSetCluster, hg.sector, h1, h6]
    rw [ataReadSectors_eq hd (by omega)]
    exact he
  · rw [hin a ha, if_pos ⟨rfl, hg.copies⟩]

-- ---------------------------------------------------------------------------
-- The allocator
-- ---------------------------------------------------------------------------

def freeClusters (fp : FatPrivate) (m : Bytes) : Finset Nat :=
  (Finset.Ico 2 (fatTotalClusters fp + 2)).filter (fun c => fatEntry fp m c = 0)

theorem mem_freeClusters : c ∈ freeClusters fp m ↔ Valid fp c ∧ fatEntry fp m c = 0 := by
  simp [freeClusters, Valid]

/-- The search from `c` on, when `buf` holds the sector it says. -/
theorem fatAllocScan_spec (hg : Geometry fp) (hd : NoFaults d) (hc : 2 ≤ c)
    (hk : c + k = fatTotalClusters fp + 2)
    (hb : loaded = 0xFFFFFFFF ∨ (loaded < 2 ^ 28 ∧ buf = d.sectors loaded)) :
    (∃ x d', fatAllocScan fp k c buf loaded d = (x, d') ∧ c ≤ x ∧ Valid fp x ∧
      fatEntry fp d.image x = 0 ∧ NoFaults d' ∧ SetEntry fp d.image d'.image x FAT_EOC) ∨
    (fatAllocScan fp k c buf loaded d = (0, d) ∧
      ∀ x, c ≤ x → Valid fp x → fatEntry fp d.image x ≠ 0) := by
  induction k generalizing c buf loaded with
  | zero =>
    refine .inr ⟨rfl, fun x hx hv => ?_⟩
    have := hv.2
    omega
  | succ k ih =>
    obtain ⟨h1, h2, h3, h4⟩ := fat_offsets hg (show c < fatTotalClusters fp + 2 by omega)
    have h5 := hg.data_le
    have h6 : (fp.fatStart + 4 * c / 512) % 2 ^ 32 = fp.fatStart + 4 * c / 512 :=
      Nat.mod_eq_of_lt (by omega)
    -- whether it is read now or was before, `buf` is the sector of the entry
    have hr : (if fp.fatStart + 4 * c / 512 ≠ loaded then
        ataReadSectors d (fp.fatStart + 4 * c / 512) else (some buf, d)) =
        (some (d.sectors (fp.fatStart + 4 * c / 512)), d) := by
      by_cases hl : fp.fatStart + 4 * c / 512 = loaded
      · rw [if_neg (not_not.mpr hl)]
        obtain h | ⟨-, h⟩ := hb
        · omega
        · rw [h, hl]
      · rw [if_pos hl, ataReadSectors_eq hd (by omega)]
    have hv : Valid fp c := ⟨hc, by omega⟩
    have hent : getLE (d.sectors (fp.fatStart + 4 * c / 512)) (4 * c % 512) 4 % 2 ^ 28 =
        fatEntry fp d.image c := by
      rw [getLE_sector d _ h4, h3, fatEntry]
    simp only [fatAllocScan, h1, h6, hr, hent]
    by_cases h0 : fatEntry fp d.image c = 0
    · obtain ⟨d', he, hd', hset⟩ := fatSetCluster_spec hg hd hv.2 FAT_EOC
      refine .inl ⟨c, d', ?_, Nat.le_refl _, hv, h0, hd', hset⟩
      rw [if_pos h0, he]
    · rw [if_neg h0]
      obtain ⟨x, d', he, hx, hrest⟩ | ⟨he, hrest⟩ := ih (show 2 ≤ c + 1 by omega) (by omega)
        (.inr ⟨show fp.fatStart + 4 * c / 512 < 2 ^ 28 by omega, rfl⟩)
      · exact .inl ⟨x, d', he, by omega, hrest⟩
      · refine .inr ⟨he, fun x hx hvx => ?_⟩
        by_cases hxc : x = c
        · rw [hxc]
          exact h0
        · exact hrest x (by omega) hvx

theorem fatAllocCluster_spec (hg : Geometry fp) (hd : NoFaults d) :
    (∃ x d', fatAllocCluster fp d = (x, d') ∧ x ∈ freeClusters fp d.image ∧ NoFaults d' ∧
      SetEntry fp d.image d'.image x FAT_EOC) ∨
    (fatAllocCluster fp d = (0, d) ∧ freeClusters fp d.image = ∅) := by
  have h1 := hg.total_lt
  unfold FAT_EOC at h1
  have h2 : (fatTotalClusters fp + 2) % 2 ^ 32 - 2 = fatTotalClusters fp := by omega
  rw [fatAllocCluster, h2]
  obtain ⟨x, d', he, -, hv, h0, hd', hset⟩ | ⟨he, hall⟩ :=
    fatAllocScan_spec hg hd (Nat.le_refl 2) (Nat.add_comm _ _) (.inl rfl)
  · exact .inl ⟨x, d', he, mem_freeClusters.mpr ⟨hv, h0⟩, hd', hset⟩
  · refine .inr ⟨he, Finset.eq_empty_of_forall_notMem fun x hx => ?_⟩
    obtain ⟨hv, h0⟩ := mem_freeClusters.mp hx
    exact hall x hv.1 hv h0

-- ---------------------------------------------------------------------------
-- What the entries depend on
-- ---------------------------------------------------------------------------

theorem fatEntry_touches {S : Nat → Prop} (hg : Geometry fp) (h : Touches S d d')
    (hS : ∀ n, S n → fp.dataStart ≤ n) (hx : Valid fp x) :
    fatEntry fp d'.image x = fatEntry fp d.image x := by
  refine fatEntry_congr fun i hi => ?_
  have ha := fatAddr_table hg hx hi
  have hlt : (fatAddr fp x + i) / 512 < fp.dataStart := by
    rw [InTable] at ha
    omega
  rw [Disk.image, Disk.image, h _ fun hs => absurd (hS _ hs) (by omega)]

theorem freeClusters_congr (h : ∀ x, Valid fp x → fatEntry fp m' x = fatEntry fp m x) :
    freeClusters fp m' = freeClusters fp m := by
  ext x
  rw [mem_freeClusters, mem_freeClusters]
  refine and_congr_right fun hx => ?_
  rw [h x hx]

end EponaOS.Fs
