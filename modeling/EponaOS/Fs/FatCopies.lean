import EponaOS.Fs.FatTable

/-!
# The copies of the table

`fat_set_cluster` reads the first copy of the table and writes every one. When the copies
are equal before it, exactly the four bytes of one entry change, the same in each copy, and
`fat_alloc_cluster` takes the first cluster of the volume that is free.
-/

namespace EponaOS.Fs

open Bytes

/-- A table of sectors of 512 bytes that has an entry for each of fewer than `2 ^ 28`
clusters, all copies of it within what the drive can address. -/
structure TableGeometry (fp : FatPrivate) : Prop where
  sector : fp.bpb.bytesPerSector = 512
  spc_pos : 1 ≤ fp.bpb.sectorsPerCluster
  copies : 1 ≤ fp.bpb.fatCount
  clusters : fatTotalClusters fp < 2 ^ 28
  covers : 4 * (fatTotalClusters fp + 2) ≤ 512 * fp.sectorsPerFat
  fits : fp.fatStart + fp.bpb.fatCount * fp.sectorsPerFat ≤ 2 ^ 28

def copyLba (fp : FatPrivate) (i c : Nat) : Nat :=
  fp.fatStart + i * fp.sectorsPerFat + 4 * c / 512

def copyAddr (fp : FatPrivate) (i c : Nat) : Nat :=
  512 * (fp.fatStart + i * fp.sectorsPerFat) + 4 * c

def copyEntry (fp : FatPrivate) (m : Bytes) (i c : Nat) : Nat := getLE m (copyAddr fp i c) 4

def EqualCopies (fp : FatPrivate) (m : Bytes) : Prop :=
  ∀ i, i < fp.bpb.fatCount → ∀ b, b < 512 * fp.sectorsPerFat →
    m (512 * (fp.fatStart + i * fp.sectorsPerFat) + b) = m (512 * fp.fatStart + b)

structure SetCopies (fp : FatPrivate) (m m' : Bytes) (c v : Nat) : Prop where
  set : ∀ i, i < fp.bpb.fatCount → ∀ k, k < 4 →
    m' (copyAddr fp i c + k) = UInt8.ofNat (v / 256 ^ k)
  other : ∀ a, (∀ i, i < fp.bpb.fatCount → a < copyAddr fp i c ∨ copyAddr fp i c + 4 ≤ a) →
    m' a = m a

def HasEntry (fp : FatPrivate) (c : Nat) : Prop := 4 * c + 4 ≤ 512 * fp.sectorsPerFat

variable {fp : FatPrivate} {d d' : Disk} {m m' : Bytes} {c v x : Nat}

-- ---------------------------------------------------------------------------
-- Where the copies lie
-- ---------------------------------------------------------------------------

theorem copyAddr_zero (fp : FatPrivate) (c : Nat) : copyAddr fp 0 c = fatAddr fp c := by
  rw [copyAddr, fatAddr, Nat.zero_mul, Nat.add_zero]

theorem copyAddr_eq (fp : FatPrivate) (i c : Nat) :
    copyAddr fp i c = 512 * copyLba fp i c + 4 * c % 512 := by
  rw [copyAddr, copyLba]
  omega

theorem copyAddr_lt (hx : HasEntry fp x) (h : i < j) (c : Nat) :
    copyAddr fp i x + 4 ≤ copyAddr fp j c := by
  have := Nat.mul_le_mul_right fp.sectorsPerFat (Nat.succ_le_of_lt h)
  rw [Nat.succ_mul] at this
  rw [HasEntry] at hx
  rw [copyAddr, copyAddr]
  omega

theorem copyAddr_apart (hc : HasEntry fp c) (hx : HasEntry fp x) (h : x ≠ c ∨ i ≠ j) :
    copyAddr fp i x + 4 ≤ copyAddr fp j c ∨ copyAddr fp j c + 4 ≤ copyAddr fp i x := by
  rcases Nat.lt_trichotomy i j with hij | rfl | hij
  · exact .inl (copyAddr_lt hx hij c)
  · obtain hne | hne := h
    · rw [copyAddr, copyAddr]
      omega
    · exact absurd rfl hne
  · exact .inr (copyAddr_lt hc hij x)

theorem copyLba_lt (hg : TableGeometry fp) (hc : HasEntry fp c) (hi : i < fp.bpb.fatCount) :
    copyLba fp i c < 2 ^ 28 := by
  have h1 := Nat.mul_le_mul_right fp.sectorsPerFat (Nat.succ_le_of_lt hi)
  rw [Nat.succ_mul] at h1
  have h2 := hg.fits
  rw [HasEntry] at hc
  rw [copyLba]
  omega

/-- Every cluster of the volume has an entry, and its offset does not wrap around. -/
theorem TableGeometry.entry (hg : TableGeometry fp) (hc : c < fatTotalClusters fp + 2) :
    HasEntry fp c ∧ c * 4 % 2 ^ 32 = 4 * c := by
  have h1 := hg.covers
  have h2 := hg.clusters
  rw [HasEntry]
  omega

theorem TableGeometry.first_lba (hg : TableGeometry fp) (hc : HasEntry fp c) :
    (fp.fatStart + 4 * c / 512) % 2 ^ 32 = copyLba fp 0 c := by
  have h := copyLba_lt hg hc hg.copies
  rw [copyLba, Nat.zero_mul, Nat.add_zero] at h ⊢
  exact Nat.mod_eq_of_lt (by omega)

theorem fatEntry_eq_copyEntry (fp : FatPrivate) (m : Bytes) (c : Nat) :
    fatEntry fp m c = copyEntry fp m 0 c % 2 ^ 28 := by
  rw [fatEntry, copyEntry, copyAddr_zero]

/-- What `fat_set_cluster` and the search of the allocator find at the entry's offset. -/
theorem getLE_first (d : Disk) (c : Nat) :
    getLE (d.sectors (copyLba fp 0 c)) (4 * c % 512) 4 = copyEntry fp d.image 0 c := by
  rw [getLE_sector d _ (by omega), copyEntry, copyAddr_eq]

-- ---------------------------------------------------------------------------
-- What setting an entry keeps
-- ---------------------------------------------------------------------------

theorem SetCopies.entry (h : SetCopies fp m m' c v) (hi : i < fp.bpb.fatCount)
    (hv : v < 2 ^ 32) : copyEntry fp m' i c = v := by
  rw [copyEntry, getLE_digits (h.set i hi), show (256 : Nat) ^ 4 = 2 ^ 32 by decide,
    Nat.mod_eq_of_lt hv]

theorem SetCopies.entries (h : SetCopies fp m m' c v) (hc : HasEntry fp c) (hx : HasEntry fp x)
    (hxc : x ≠ c) (i : Nat) : copyEntry fp m' i x = copyEntry fp m i x := by
  apply getLE_congr
  intro k hk
  apply h.other
  intro j _
  have := copyAddr_apart (i := i) (j := j) hc hx (.inl hxc)
  omega

theorem SetCopies.copies (h : SetCopies fp m m' c v) (hc : HasEntry fp c)
    (hpos : 1 ≤ fp.bpb.fatCount) (heq : EqualCopies fp m) : EqualCopies fp m' := by
  intro i hi b hb
  by_cases hin : 4 * c ≤ b ∧ b < 4 * c + 4
  · have h1 := h.set i hi (b - 4 * c) (by omega)
    have h2 := h.set 0 hpos (b - 4 * c) (by omega)
    rw [copyAddr, show 512 * (fp.fatStart + i * fp.sectorsPerFat) + 4 * c + (b - 4 * c) =
      512 * (fp.fatStart + i * fp.sectorsPerFat) + b by omega] at h1
    rw [copyAddr_zero, fatAddr, show 512 * fp.fatStart + 4 * c + (b - 4 * c) =
      512 * fp.fatStart + b by omega] at h2
    rw [h1, h2]
  · -- the byte is one of another entry, in either copy
    have hoff : ∀ i', m' (512 * (fp.fatStart + i' * fp.sectorsPerFat) + b) =
        m (512 * (fp.fatStart + i' * fp.sectorsPerFat) + b) := by
      intro i'
      have hb' : HasEntry fp (b / 4) := by
        rw [HasEntry]
        omega
      apply h.other
      intro j _
      have := copyAddr_apart (i := i') (j := j) hc hb' (.inl (by omega))
      rw [copyAddr, copyAddr] at this
      rw [copyAddr]
      omega
    have h0 := hoff 0
    rw [Nat.zero_mul, Nat.add_zero] at h0
    rw [hoff i, h0]
    exact heq i hi b hb

-- ---------------------------------------------------------------------------
-- Setting an entry
-- ---------------------------------------------------------------------------

/-- Each sector is the buffer if one of the copies from `i` on has the entry in it. -/
theorem fatWriteCopies_sectors (fp : FatPrivate) (hd : NoFaults d) (off : Nat) (buf : Bytes)
    (k i : Nat) :
    ∃ d', fatWriteCopies fp off buf k i d = (true, d') ∧ NoFaults d' ∧
      ∀ n, (d'.sectors n = buf ∧ ∃ j, i ≤ j ∧ j < i + k ∧
          n = (fp.fatStart + j * fp.sectorsPerFat + off / fp.bpb.bytesPerSector) % 2 ^ 32 % 2 ^ 28) ∨
        (d'.sectors n = d.sectors n ∧ ∀ j, i ≤ j → j < i + k →
          n ≠ (fp.fatStart + j * fp.sectorsPerFat + off / fp.bpb.bytesPerSector) % 2 ^ 32 %
            2 ^ 28) := by
  induction k generalizing i d with
  | zero =>
    refine ⟨d, rfl, hd, fun n => .inr ⟨rfl, fun j h1 h2 => ?_⟩⟩
    omega
  | succ k ih =>
    generalize hs : (fp.fatStart + i * fp.sectorsPerFat + off / fp.bpb.bytesPerSector) % 2 ^ 32 = s
    generalize hw : Disk.mk (fun n => if n = s % 2 ^ 28 then buf else d.sectors n) d.faults = d₁
    have he : ataWriteSectors d s buf = (true, d₁) := by
      rw [ataWriteSectors, hd.fails, hd.tick, ← hw]
      rfl
    have hd₁ : NoFaults d₁ := by
      rw [← hw]
      exact hd
    have hsec : ∀ n, d₁.sectors n = if n = s % 2 ^ 28 then buf else d.sectors n := by
      intro n
      rw [← hw]
    obtain ⟨d₂, he₂, hd₂, hrest⟩ := ih hd₁ (i + 1)
    refine ⟨d₂, ?_, hd₂, fun n => ?_⟩
    · rw [fatWriteCopies, hs, he]
      exact he₂
    · obtain ⟨hbuf, j, h1, h2, h3⟩ | ⟨hsame, hne⟩ := hrest n
      · exact .inl ⟨hbuf, j, by omega, by omega, h3⟩
      · by_cases hn : n = s % 2 ^ 28
        · refine .inl ⟨?_, i, Nat.le_refl i, by omega, by rw [hs, hn]⟩
          rw [hsame, hsec, if_pos hn]
        · refine .inr ⟨?_, fun j h1 h2 => ?_⟩
          · rw [hsame, hsec, if_neg hn]
          · obtain rfl | hij := Nat.eq_or_lt_of_le h1
            · rw [hs]
              exact hn
            · exact hne j hij (by omega)

theorem fatSetCluster_copies (hg : TableGeometry fp) (hd : NoFaults d)
    (heq : EqualCopies fp d.image) (hc : c < fatTotalClusters fp + 2) (v : Nat) :
    ∃ d', fatSetCluster fp d c v = (true, d') ∧ NoFaults d' ∧
      SetCopies fp d.image d'.image c
        (copyEntry fp d.image 0 c / 2 ^ 28 * 2 ^ 28 + v % 2 ^ 28) := by
  obtain ⟨he, hoff⟩ := hg.entry hc
  generalize hent : copyEntry fp d.image 0 c / 2 ^ 28 * 2 ^ 28 + v % 2 ^ 28 = ent
  generalize hb : putLE (d.sectors (copyLba fp 0 c)) (4 * c % 512) 4 ent = buf
  obtain ⟨d', hw, hd', hsectors⟩ := fatWriteCopies_sectors fp hd (4 * c) buf fp.bpb.fatCount 0
  have hlba : ∀ i, i < fp.bpb.fatCount →
      (fp.fatStart + i * fp.sectorsPerFat + 4 * c / fp.bpb.bytesPerSector) % 2 ^ 32 % 2 ^ 28 =
        copyLba fp i c := by
    intro i hi
    have hlt := copyLba_lt hg he hi
    rw [copyLba] at hlt
    rw [hg.sector, copyLba]
    omega
  have himage : ∀ i, i < fp.bpb.fatCount → ∀ k, k < 512 →
      d'.image (512 * copyLba fp i c + k) = buf k := by
    intro i hi k hk
    rw [← sector_image d' _ hk]
    obtain ⟨hbuf, -⟩ | ⟨-, hne⟩ := hsectors (copyLba fp i c)
    · rw [hbuf]
    · exact absurd (hlba i hi).symm (hne i (Nat.zero_le i) (by omega))
  refine ⟨d', ?_, hd', fun i hi k hk => ?_, fun a ha => ?_⟩
  · simp only [fatSetCluster, hg.sector, hoff, hg.first_lba he]
    rw [ataReadSectors_eq hd (copyLba_lt hg he hg.copies)]
    dsimp only
    rw [getLE_first, hent, hb]
    exact hw
  · rw [copyAddr_eq, Nat.add_assoc, himage i hi _ (by omega), ← hb, putLE,
      if_pos (by omega), Nat.add_sub_cancel_left]
  · by_cases hs : ∃ i, i < fp.bpb.fatCount ∧ a / 512 = copyLba fp i c
    · -- another byte of a sector that is written: the copies agree on it
      obtain ⟨i, hi, hs⟩ := hs
      have hai := ha i hi
      rw [copyAddr_eq] at hai
      have hbyte := himage i hi (a % 512) (by omega)
      rw [show 512 * copyLba fp i c + a % 512 = a by omega] at hbyte
      rw [HasEntry] at he
      have h1 := heq i hi (512 * (4 * c / 512) + a % 512) (by omega)
      rw [copyLba] at hs
      rw [hbyte, ← hb, putLE_off _ _ (by rw [copyLba] at hai; omega), sector_image d _ (by omega),
        copyLba, Nat.zero_mul, Nat.add_zero, Nat.mul_add, Nat.add_assoc, ← h1]
      congr 1
      omega
    · push Not at hs
      obtain ⟨-, j, -, hj, hlast⟩ | ⟨hsame, -⟩ := hsectors (a / 512)
      · rw [Nat.zero_add] at hj
        exact absurd (hlast.trans (hlba j hj)) (hs j hj)
      · rw [Disk.image, Disk.image, hsame]

-- ---------------------------------------------------------------------------
-- The allocator
-- ---------------------------------------------------------------------------

/-- The search from `c` on stops at the first cluster whose entry is 0. -/
theorem fatAllocScan_least (hg : TableGeometry fp) (hd : NoFaults d) (hc : 2 ≤ c)
    (hk : c + k = fatTotalClusters fp + 2)
    (hb : loaded = 0xFFFFFFFF ∨ (loaded < 2 ^ 28 ∧ buf = d.sectors loaded)) :
    (∃ x, fatAllocScan fp k c buf loaded d = (x, (fatSetCluster fp d x FAT_EOC).2) ∧ c ≤ x ∧
      Valid fp x ∧ fatEntry fp d.image x = 0 ∧
      ∀ y, c ≤ y → y < x → fatEntry fp d.image y ≠ 0) ∨
    (fatAllocScan fp k c buf loaded d = (0, d) ∧
      ∀ y, c ≤ y → Valid fp y → fatEntry fp d.image y ≠ 0) := by
  induction k generalizing c buf loaded with
  | zero =>
    refine .inr ⟨rfl, fun y hy hv => ?_⟩
    have := hv.2
    omega
  | succ k ih =>
    obtain ⟨he, hoff⟩ := hg.entry (show c < fatTotalClusters fp + 2 by omega)
    have hlt := copyLba_lt hg he hg.copies
    have hr : (if copyLba fp 0 c ≠ loaded then ataReadSectors d (copyLba fp 0 c)
        else (some buf, d)) = (some (d.sectors (copyLba fp 0 c)), d) := by
      by_cases hl : copyLba fp 0 c = loaded
      · rw [if_neg (not_not.mpr hl)]
        obtain h | ⟨-, h⟩ := hb
        · omega
        · rw [h, hl]
      · rw [if_pos hl, ataReadSectors_eq hd hlt]
    have hv : Valid fp c := ⟨hc, by omega⟩
    simp only [fatAllocScan, hoff, hg.first_lba he, hr, getLE_first, ← fatEntry_eq_copyEntry]
    by_cases h0 : fatEntry fp d.image c = 0
    · refine .inl ⟨c, ?_, Nat.le_refl c, hv, h0, fun y h1 h2 => absurd h2 (by omega)⟩
      rw [if_pos h0]
    · rw [if_neg h0]
      have hne : ∀ y, c ≤ y → ¬ c + 1 ≤ y → fatEntry fp d.image y ≠ 0 := by
        intro y h1 h2
        rw [show y = c by omega]
        exact h0
      obtain ⟨x, heq, hx, hvx, hzero, hleast⟩ | ⟨heq, hall⟩ :=
        ih (show 2 ≤ c + 1 by omega) (by omega) (.inr ⟨hlt, rfl⟩)
      · refine .inl ⟨x, heq, by omega, hvx, hzero, fun y h1 h2 => ?_⟩
        by_cases hy : c + 1 ≤ y
        · exact hleast y hy h2
        · exact hne y h1 hy
      · refine .inr ⟨heq, fun y h1 hvy => ?_⟩
        by_cases hy : c + 1 ≤ y
        · exact hall y hy hvy
        · exact hne y h1 hy

theorem TableGeometry.scan_length (hg : TableGeometry fp) :
    (fatTotalClusters fp + 2) % 2 ^ 32 - 2 = fatTotalClusters fp := by
  have := hg.clusters
  omega

theorem fatAllocCluster_least (hg : TableGeometry fp) (hd : NoFaults d) :
    (∃ c, fatAllocCluster fp d = (c, (fatSetCluster fp d c FAT_EOC).2) ∧
      IsLeast {x | Valid fp x ∧ fatEntry fp d.image x = 0} c) ∨
    (fatAllocCluster fp d = (0, d) ∧ ∀ x, Valid fp x → fatEntry fp d.image x ≠ 0) := by
  rw [fatAllocCluster, hg.scan_length]
  obtain ⟨c, hscan, -, hv, h0, hleast⟩ | ⟨hscan, hall⟩ :=
    fatAllocScan_least hg hd (Nat.le_refl 2) (Nat.add_comm _ _) (.inl rfl)
  · refine .inl ⟨c, hscan, ⟨hv, h0⟩, fun x hx => ?_⟩
    by_contra hlt
    exact hleast x hx.1.1 (Nat.lt_of_not_le hlt) hx.2
  · exact .inr ⟨hscan, fun x hx => hall x hx.1 hx⟩

/-- The first free cluster of the volume, its entry now an end mark in every copy; 0 and no
change when there is none. -/
theorem fatAllocCluster_exact (hg : TableGeometry fp) (hd : NoFaults d)
    (heq : EqualCopies fp d.image) :
    (∃ c d', fatAllocCluster fp d = (c, d') ∧
      IsLeast {x | Valid fp x ∧ fatEntry fp d.image x = 0} c ∧
      (∀ i, i < fp.bpb.fatCount → copyEntry fp d'.image i c =
        copyEntry fp d.image i c / 2 ^ 28 * 2 ^ 28 + FAT_EOC) ∧
      (∀ i, i < fp.bpb.fatCount → ∀ x, HasEntry fp x → x ≠ c →
        copyEntry fp d'.image i x = copyEntry fp d.image i x) ∧
      (∀ a, (∀ i, i < fp.bpb.fatCount → a < copyAddr fp i c ∨ copyAddr fp i c + 4 ≤ a) →
        d'.image a = d.image a) ∧
      EqualCopies fp d'.image ∧ NoFaults d') ∨
    (fatAllocCluster fp d = (0, d) ∧ ∀ x, Valid fp x → fatEntry fp d.image x ≠ 0) := by
  obtain ⟨c, halloc, hleast⟩ | hnone := fatAllocCluster_least hg hd
  · have hv := hleast.1.1
    obtain ⟨he, -⟩ := hg.entry hv.2
    obtain ⟨d', hset, hd', hcopies⟩ := fatSetCluster_copies hg hd heq hv.2 FAT_EOC
    refine .inl ⟨c, d', ?_, hleast, fun i hi => ?_, fun i _ x hx hxc => ?_, hcopies.other,
      hcopies.copies he hg.copies heq, hd'⟩
    · rw [halloc, hset]
    · have hsame : copyEntry fp d.image i c = copyEntry fp d.image 0 c := by
        apply getLE_congr_at
        intro k hk
        rw [HasEntry] at he
        have := heq i hi (4 * c + k) (by omega)
        rw [copyAddr_zero, fatAddr, copyAddr, Nat.add_assoc, Nat.add_assoc, this]
      have hlt := getLE_lt d.image (copyAddr fp 0 c) 4
      rw [show (256 : Nat) ^ 4 = 2 ^ 32 by decide] at hlt
      rw [hcopies.entry hi, hsame]
      · rfl
      · rw [copyEntry, FAT_EOC]
        omega
    · exact hcopies.entries he hx hxc i
  · exact .inr hnone

-- ---------------------------------------------------------------------------
-- The sectors of an entry
-- ---------------------------------------------------------------------------

theorem Geometry.table (hg : Geometry fp) : TableGeometry fp where
  sector := hg.sector
  spc_pos := hg.spc_pos
  copies := hg.copies
  clusters := by
    have := hg.total_lt
    rw [FAT_EOC] at this
    omega
  covers := hg.covers
  fits := Nat.le_trans hg.behind hg.data_le

def EntrySector (fp : FatPrivate) (c n : Nat) : Prop :=
  ∃ i, i < fp.bpb.fatCount ∧ n = copyLba fp i c

theorem fatSetCluster_touches (hg : TableGeometry fp) (hd : NoFaults d)
    (hc : c < fatTotalClusters fp + 2) (v : Nat) :
    Touches (EntrySector fp c) d (fatSetCluster fp d c v).2 := by
  intro n hn
  obtain ⟨he, hoff⟩ := hg.entry hc
  have hlt := copyLba_lt hg he hg.copies
  simp only [fatSetCluster, hg.sector, hoff, hg.first_lba he, ataReadSectors_eq hd hlt]
  generalize putLE (d.sectors (copyLba fp 0 c)) (4 * c % 512) 4 _ = buf
  obtain ⟨d', hw, -, hsec⟩ := fatWriteCopies_sectors fp hd (4 * c) buf fp.bpb.fatCount 0
  rw [hw]
  obtain ⟨-, i, -, hi, hat⟩ | ⟨hsame, -⟩ := hsec n
  · rw [Nat.zero_add] at hi
    have hi' := copyLba_lt hg he hi
    refine absurd ⟨i, hi, ?_⟩ hn
    rw [hat, hg.sector]
    rw [copyLba] at hi' ⊢
    omega
  · exact hsame

theorem fatAllocCluster_touches (hg : TableGeometry fp) (hd : NoFaults d)
    (h : fatAllocCluster fp d = (c, d')) (h0 : c ≠ 0) : Touches (EntrySector fp c) d d' := by
  obtain ⟨x, halloc, hleast⟩ | ⟨halloc, -⟩ := fatAllocCluster_least hg hd
  · cases halloc.symm.trans h
    exact fatSetCluster_touches hg hd hleast.1.1.2 FAT_EOC
  · cases halloc.symm.trans h
    exact absurd rfl h0

def mirroredFp : FatPrivate where
  bpb := {
    bytesPerSector := 512
    sectorsPerCluster := 1
    reservedSectors := 1
    fatCount := 2
    rootMaxEntries := 0
    totalSectors16 := 0
    totalSectors32 := 10
    fatSize32 := 1
    rootCluster := 2
    sig := 0x29 }
  fatStart := 1
  dataStart := 3
  sectorsPerFat := 1
  rootCluster := 2
  bytesPerCluster := 512

/-- Cluster 2 is taken; cluster 3 is free, with a mark in the upper bits of its entry. -/
def mirroredDisk : Disk where
  sectors _ := putLE (putLE (fun _ => 0) 8 4 FAT_EOC) 12 4 0xA0000000
  faults := []

theorem mirrored_geometry : TableGeometry mirroredFp := by
  constructor <;> decide

theorem mirrored_copies : EqualCopies mirroredFp mirroredDisk.image := by
  intro i _ b _
  simp only [Disk.image, mirroredDisk]
  congr 1
  omega

theorem mirrored_alloc : ∃ d', fatAllocCluster mirroredFp mirroredDisk = (3, d') ∧
    copyEntry mirroredFp d'.image 0 3 = 0xAFFFFFF8 ∧
    copyEntry mirroredFp d'.image 1 3 = 0xAFFFFFF8 ∧ EqualCopies mirroredFp d'.image := by
  have hfree : Valid mirroredFp 3 ∧ fatEntry mirroredFp mirroredDisk.image 3 = 0 :=
    ⟨⟨by decide, by decide⟩, by decide +kernel⟩
  obtain ⟨c, d', he, hleast, hentry, -, -, hcopies, -⟩ | ⟨-, hall⟩ :=
    fatAllocCluster_exact mirrored_geometry (show NoFaults mirroredDisk from rfl) mirrored_copies
  · have hc : c = 3 := by
      have h3 : c ≤ 3 := hleast.2 hfree
      have h2 : 2 ≤ c := hleast.1.1.1
      have hne : c ≠ 2 := by
        intro h
        rw [h] at hleast
        exact absurd hleast.1.2 (by decide +kernel)
      omega
    subst hc
    exact ⟨d', he, (hentry 0 (by decide)).trans (by decide +kernel),
      (hentry 1 (by decide)).trans (by decide +kernel), hcopies⟩
  · exact absurd hfree.2 (hall 3 hfree.1)

end EponaOS.Fs
