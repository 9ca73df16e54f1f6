import EponaOS.Fs.DirEnds
import EponaOS.Fs.FatFuel

/-!
# What a mounted geometry must be

`fat_mount` looks at the sector size, the signature and the size of the table. All other
fields of the boot sector reach the arithmetic of the driver as they are; this module says
which of them make a volume that can be used.
-/

namespace EponaOS.Fs

open Bytes

-- ---------------------------------------------------------------------------
-- Reading and writing make progress
-- ---------------------------------------------------------------------------

section Progress

variable {fp : FatPrivate} {d : Disk}

theorem fatReadSkip_returns (hb : 0 < fp.bytesPerCluster) (skip c : Nat) (d : Disk) :
    ∃ fuel r, fatReadSkip fp fuel c skip d = some r ∧
      ∀ x s, r.1 = some (x, s) → s < fp.bytesPerCluster := by
  induction skip using Nat.strong_induction_on generalizing c d with
  | _ skip ih =>
    by_cases hs : skip ≥ fp.bytesPerCluster
    · by_cases hend : (fatNextCluster fp d c).1 ≥ FAT_EOC
      · refine ⟨1, (none, (fatNextCluster fp d c).2), ?_, fun x s h => by cases h⟩
        rw [fatReadSkip, if_pos hs]
        exact if_pos hend
      · obtain ⟨fuel, r, h, hr⟩ := ih (skip - fp.bytesPerCluster) (by omega)
          (fatNextCluster fp d c).1 (fatNextCluster fp d c).2
        refine ⟨fuel + 1, r, ?_, hr⟩
        rw [fatReadSkip, if_pos hs]
        dsimp only
        rw [if_neg hend]
        exact h
    · refine ⟨1, (some (c, skip), d), ?_, fun x s h => ?_⟩
      · rw [fatReadSkip, if_neg hs]
      · cases h
        omega

theorem fatReadSectors_le
    (h : fatReadSectors size lba off toRead start k s byteOff done out d = (some (n, out'), d')) :
    done ≤ n := by
  induction k generalizing s byteOff done out d with
  | zero =>
    cases h
    exact Nat.le_refl _
  | succ k ih =>
    rw [fatReadSectors] at h
    dsimp only at h
    split at h
    · cases h
    · split at h
      · cases h
        exact Nat.le_add_right _ _
      · exact Nat.le_trans (Nat.le_add_right _ _) (ih h)

theorem fatReadSectors_lt (hk : 0 < k) (hoff : byteOff < 512) (hr : 0 < toRead)
    (h : fatReadSectors size lba off toRead done k s byteOff done out d = (some (n, out'), d')) :
    done < n := by
  obtain ⟨k, rfl⟩ := Nat.exists_eq_add_of_lt hk
  rw [Nat.zero_add, fatReadSectors] at h
  dsimp only at h
  split at h
  · cases h
  · split at h
    · cases h
      omega
    · have := fatReadSectors_le h
      omega

theorem fatReadClusters_returns (hb : 0 < fp.bytesPerCluster) (size k : Nat) :
    ∀ c skip done out d, skip < fp.bytesPerCluster → size - done = k →
      ∃ fuel r, fatReadClusters fp size fuel c skip done out d = some r := by
  induction k using Nat.strong_induction_on with
  | _ k ih =>
    intro c skip done out d hskip hk
    by_cases hlt : done < size
    · generalize hr : fatReadSectors size (fatClusterToLba fp c) (skip / 512)
        (min (fp.bytesPerCluster - skip) (size - done)) done
        ((min (fp.bytesPerCluster - skip) (size - done) + 511) / 512) 0 (skip % 512) done out d = r
      obtain ⟨_ | ⟨n, out'⟩, d'⟩ := r
      · refine ⟨1, (none, d'), ?_⟩
        rw [fatReadClusters, if_pos hlt]
        dsimp only
        rw [hr]
      · have hn := fatReadSectors_lt (by omega) (Nat.mod_lt _ (by decide)) (by omega) hr
        by_cases hdone : n ≥ size
        · refine ⟨1, (some (n, out'), d'), ?_⟩
          rw [fatReadClusters, if_pos hlt]
          dsimp only
          rw [hr]
          exact if_pos hdone
        · by_cases hend : (fatNextCluster fp d' c).1 ≥ FAT_EOC
          · refine ⟨1, (some (n, out'), (fatNextCluster fp d' c).2), ?_⟩
            rw [fatReadClusters, if_pos hlt]
            dsimp only
            rw [hr]
            dsimp only
            rw [if_neg hdone]
            exact if_pos hend
          · obtain ⟨fuel, r, h⟩ := ih (size - n) (by omega) (fatNextCluster fp d' c).1 0 n out'
              (fatNextCluster fp d' c).2 hb rfl
            refine ⟨fuel + 1, r, ?_⟩
            rw [fatReadClusters, if_pos hlt]
            dsimp only
            rw [hr]
            dsimp only
            rw [if_neg hdone, if_neg hend]
            exact h
    · refine ⟨1, (some (done, out), d), ?_⟩
      rw [fatReadClusters, if_neg hlt]

theorem fatRead_returns (hb : 0 < fp.bytesPerCluster) (node : VfsNode) (offset size : Nat)
    (out : Bytes) (d : Disk) : ∃ fuel r, fatRead fp fuel node offset size out d = some r := by
  obtain ⟨fuel, ⟨r, d₁⟩, h, hlt⟩ := fatReadSkip_returns hb offset node.cluster d
  obtain _ | ⟨c, skip⟩ := r
  · refine ⟨fuel, (-1, out, d₁), ?_⟩
    rw [fatRead, h]
  · obtain ⟨fuel', r, h'⟩ := fatReadClusters_returns hb size _ c skip 0 out d₁ (hlt c skip rfl) rfl
    obtain ⟨N, hN⟩ := (fatReadSkip_mono _ _ _ _).returns h
    obtain ⟨M, hM⟩ := (fatReadClusters_mono _ _ _ _ _ _ _).returns h'
    dsimp only at hN hM
    obtain ⟨_ | ⟨done, out'⟩, d₂⟩ := r
    · refine ⟨max N M, (-1, out, d₂), ?_⟩
      rw [fatRead, hN _ (Nat.le_max_left ..)]
      dsimp only
      rw [hM _ (Nat.le_max_right ..)]
    · refine ⟨max N M, (asInt done, out', d₂), ?_⟩
      rw [fatRead, hN _ (Nat.le_max_left ..)]
      dsimp only
      rw [hM _ (Nat.le_max_right ..)]

theorem fatWriteSkip_returns (hb : 0 < fp.bytesPerCluster) (skip : Nat) (node : VfsNode)
    (c : Nat) (d : Disk) : ∃ fuel r, fatWriteSkip fp fuel node c skip d = some r ∧
      ∀ x s, r.1 = some (x, s) → s < fp.bytesPerCluster := by
  induction skip using Nat.strong_induction_on generalizing node c d with
  | _ skip ih =>
    by_cases hs : skip ≥ fp.bytesPerCluster
    · by_cases hfull : (fatNextOrNew fp d c).1 = 0
      · refine ⟨1, (none, node, (fatNextOrNew fp d c).2.2), ?_, fun x s h => by cases h⟩
        rw [fatWriteSkip, if_pos hs]
        exact if_pos hfull
      · obtain ⟨fuel, r, h, hr⟩ := ih (skip - fp.bytesPerCluster) (by omega) _
          (fatNextOrNew fp d c).1 _
        refine ⟨fuel + 1, r, ?_, hr⟩
        rw [fatWriteSkip, if_pos hs]
        dsimp only
        rw [if_neg hfull]
        exact h
    · refine ⟨1, (some (c, skip), node, d), ?_, fun x s h => ?_⟩
      · rw [fatWriteSkip, if_neg hs]
      · cases h
        omega

theorem fatWriteSectors_le (buf : Bytes) (size lba off k s byteOff : Nat) (tmp : Bytes)
    (done : Nat) (d : Disk) :
    done ≤ (fatWriteSectors buf size lba off k s byteOff tmp done d).1 := by
  induction k generalizing s byteOff tmp done d with
  | zero => exact Nat.le_refl _
  | succ k ih =>
    rw [fatWriteSectors]
    dsimp only
    split
    · exact Nat.le_add_right _ _
    · exact Nat.le_trans (Nat.le_add_right _ _) (ih ..)

theorem fatWriteSectors_lt (hk : 0 < k) (hoff : byteOff < 512) (hr : done < size) (buf : Bytes)
    (lba off s : Nat) (tmp : Bytes) (d : Disk) :
    done < (fatWriteSectors buf size lba off k s byteOff tmp done d).1 := by
  obtain ⟨k, rfl⟩ := Nat.exists_eq_add_of_lt hk
  rw [Nat.zero_add, fatWriteSectors]
  dsimp only
  split
  · omega
  · exact Nat.lt_of_lt_of_le (by omega) (fatWriteSectors_le ..)

theorem fatWriteClusters_returns (hb : 0 < fp.bytesPerCluster) (junk buf : Bytes) (size k : Nat) :
    ∀ c skip done d, skip < fp.bytesPerCluster → size - done = k →
      ∃ fuel r, fatWriteClusters fp junk buf size fuel c skip done d = some r := by
  induction k using Nat.strong_induction_on with
  | _ k ih =>
    intro c skip done d hskip hk
    by_cases hlt : done < size
    · have hn := fatWriteSectors_lt (k := (min (fp.bytesPerCluster - skip) (size - done) + 511) / 512)
        (by omega) (Nat.mod_lt skip (by decide : 0 < 512)) hlt buf
        (fatClusterToLba fp c) (skip / 512) 0 junk d
      generalize hr : fatWriteSectors buf size (fatClusterToLba fp c) (skip / 512)
        ((min (fp.bytesPerCluster - skip) (size - done) + 511) / 512) 0 (skip % 512) junk done d
        = r at hn
      by_cases hdone : r.1 ≥ size
      · refine ⟨1, (r.1, true, r.2), ?_⟩
        rw [fatWriteClusters, if_pos hlt]
        dsimp only
        rw [hr]
        exact if_pos hdone
      · by_cases hfull : (fatNextOrNew fp r.2 c).1 = 0
        · refine ⟨1, (r.1, false, (fatNextOrNew fp r.2 c).2.2), ?_⟩
          rw [fatWriteClusters, if_pos hlt]
          dsimp only
          rw [hr, if_neg hdone]
          exact if_pos hfull
        · obtain ⟨fuel, r', h⟩ := ih (size - r.1) (by omega) (fatNextOrNew fp r.2 c).1 0 r.1
            (if (fatNextOrNew fp r.2 c).2.1 then
              (fatSetCluster fp (fatNextOrNew fp r.2 c).2.2 c (fatNextOrNew fp r.2 c).1).2
            else (fatNextOrNew fp r.2 c).2.2) hb rfl
          refine ⟨fuel + 1, r', ?_⟩
          rw [fatWriteClusters, if_pos hlt]
          dsimp only
          rw [hr, if_neg hdone, if_neg hfull]
          exact h
    · refine ⟨1, (done, true, d), ?_⟩
      rw [fatWriteClusters, if_neg hlt]

theorem fatWrite_returns (hb : 0 < fp.bytesPerCluster) (junk : Bytes) (node : VfsNode)
    (offset size : Nat) (buf : Bytes) (d : Disk) :
    ∃ fuel r, fatWrite fp junk fuel node offset size buf d = some r := by
  by_cases h0 : size = 0
  · refine ⟨0, (0, node, d), ?_⟩
    rw [fatWrite, if_pos h0]
  · obtain ⟨fuel, ⟨r, node', d₁⟩, h, hlt⟩ := fatWriteSkip_returns hb offset node node.cluster d
    obtain _ | ⟨c, skip⟩ := r
    · refine ⟨fuel, (0, node', d₁), ?_⟩
      rw [fatWrite, if_neg h0, h]
    · obtain ⟨fuel', r, h'⟩ :=
        fatWriteClusters_returns hb junk buf size _ c skip 0 d₁ (hlt c skip rfl) rfl
      obtain ⟨N, hN⟩ := (fatWriteSkip_mono _ _ _ _ _).returns h
      obtain ⟨M, hM⟩ := (fatWriteClusters_mono _ _ _ _ _ _ _ _).returns h'
      dsimp only at hN hM
      refine ⟨max N M, ?_⟩
      rw [fatWrite, if_neg h0, hN _ (Nat.le_max_left ..)]
      dsimp only
      rw [hM _ (Nat.le_max_right ..)]
      obtain ⟨done, _ | _, d₂⟩ := r <;> exact ⟨_, rfl⟩

end Progress

-- ---------------------------------------------------------------------------
-- Volumes that can be used
-- ---------------------------------------------------------------------------

def totalSectors (bpb : FatBpb) : Nat :=
  let n := if bpb.totalSectors32 = 0 then bpb.totalSectors16 else bpb.totalSectors32
  if n = 0 then 8192 else n

def rootSectors (bpb : FatBpb) : Nat :=
  (bpb.rootMaxEntries * 32 + bpb.bytesPerSector - 1) / bpb.bytesPerSector

def headSectors (bpb : FatBpb) : Nat :=
  bpb.reservedSectors + bpb.fatCount * bpb.fatSize32 + rootSectors bpb

/-- What the later calls rely on. A loop over a directory ends where its clusters do; a chain
is freed to its end if the drive can have the sectors of the volume. -/
structure Usable (fp : FatPrivate) : Prop where
  divisors : fp.bpb.bytesPerSector ≠ 0 ∧ fp.bpb.sectorsPerCluster ≠ 0
  reads : ∀ node offset size out d, ∃ fuel r, fatRead fp fuel node offset size out d = some r
  writes : ∀ junk node offset size buf d,
    ∃ fuel r, fatWrite fp junk fuel node offset size buf d = some r
  readdirs : ∀ node t d, DirEnds fp d LastEntry (t.cluster node) →
    ∃ fuel r, fatReaddir fp fuel node t d = some r
  creates : ∀ parent name flags t d, DirEnds fp d FreeEntry (t.cluster parent) →
    ∃ fuel r, fatCreate fp fuel parent name flags t d = some r
  unlinks : totalSectors fp.bpb ≤ 2 ^ 28 → ∀ parent name fatName t d,
    fatNameTo83 name = some fatName → DirEnds fp d (LastOrNamed fatName) (t.cluster parent) →
      ∃ fuel r, fatUnlink fp fuel parent name t d = some r
  fatStart : fp.fatStart = fp.bpb.reservedSectors ∧ fp.fatStart < 2 ^ 32
  dataStart : fp.dataStart = headSectors fp.bpb
  bytesPerCluster : fp.bytesPerCluster = fp.bpb.bytesPerSector * fp.bpb.sectorsPerCluster ∧
    fp.bytesPerCluster < 2 ^ 32
  data_le : fp.dataStart ≤ totalSectors fp.bpb
  copies : 1 ≤ fp.bpb.fatCount
  root : Valid fp fp.rootCluster

/-- What `fat_mount` would have to check besides: clusters of a sector at least, a copy of the
table, and the cluster of the root within the sectors of the volume. -/
structure Sane (bpb : FatBpb) : Prop where
  spc : bpb.sectorsPerCluster ≠ 0
  copies : bpb.fatCount ≠ 0
  root_ge : 2 ≤ bpb.rootCluster
  root_le : headSectors bpb + (bpb.rootCluster - 1) * bpb.sectorsPerCluster ≤ totalSectors bpb

variable {bpb : FatBpb}

theorem totalSectors_lt (h16 : bpb.totalSectors16 < 2 ^ 32) (h32 : bpb.totalSectors32 < 2 ^ 32) :
    totalSectors bpb < 2 ^ 32 := by
  rw [totalSectors]
  split
  · split
    · decide
    · exact h16
  · exact h32

theorem readBpb_lt (buf : Bytes) : (readBpb buf).reservedSectors < 2 ^ 16 ∧
    (readBpb buf).sectorsPerCluster < 2 ^ 8 ∧ (readBpb buf).fatCount < 2 ^ 8 ∧
    totalSectors (readBpb buf) < 2 ^ 32 :=
  ⟨getLE_lt buf 14 2, getLE_lt buf 13 1, getLE_lt buf 16 1,
    totalSectors_lt (Nat.lt_trans (getLE_lt buf 19 2) (by decide)) (getLE_lt buf 32 4)⟩

theorem fatTotalClusters_of (bpb : FatBpb) : fatTotalClusters (fatPrivateOf bpb) =
    (totalSectors bpb + 2 ^ 32 - (fatPrivateOf bpb).dataStart) % 2 ^ 32 /
      bpb.sectorsPerCluster := by
  rw [fatTotalClusters, totalSectors]
  rfl

theorem fatTotalClusters_eq (h : (fatPrivateOf bpb).dataStart = headSectors bpb)
    (hle : headSectors bpb ≤ totalSectors bpb) (hlt : totalSectors bpb < 2 ^ 32) :
    fatTotalClusters (fatPrivateOf bpb) =
      (totalSectors bpb - headSectors bpb) / bpb.sectorsPerCluster := by
  have hsub : (totalSectors bpb + 2 ^ 32 - headSectors bpb) % 2 ^ 32 =
      totalSectors bpb - headSectors bpb := by omega
  rw [fatTotalClusters_of, h, hsub]

theorem root_valid_iff (h : (fatPrivateOf bpb).dataStart = headSectors bpb)
    (hle : headSectors bpb ≤ totalSectors bpb) (hlt : totalSectors bpb < 2 ^ 32)
    (hspc : bpb.sectorsPerCluster ≠ 0) :
    Valid (fatPrivateOf bpb) bpb.rootCluster ↔ 2 ≤ bpb.rootCluster ∧
      headSectors bpb + (bpb.rootCluster - 1) * bpb.sectorsPerCluster ≤ totalSectors bpb := by
  rw [Valid, fatTotalClusters_eq h hle hlt]
  refine and_congr_right fun h2 => ?_
  have hdiv := Nat.le_div_iff_mul_le (x := bpb.rootCluster - 1)
    (y := totalSectors bpb - headSectors bpb) (Nat.pos_of_ne_zero hspc)
  omega

theorem Sane.usable (h : Sane (readBpb buf)) (hok : Accepted (readBpb buf)) :
    Usable (fatPrivateOf (readBpb buf)) := by
  obtain ⟨hres, hspc, hcopies, htotal⟩ := readBpb_lt buf
  generalize readBpb buf = bpb at *
  have hpos := Nat.pos_of_ne_zero h.spc
  have hroom : 1 ≤ (bpb.rootCluster - 1) * bpb.sectorsPerCluster :=
    Nat.mul_pos (by have := h.root_ge; omega) hpos
  have hle := h.root_le
  have hdata : (fatPrivateOf bpb).dataStart = headSectors bpb :=
    Nat.mod_eq_of_lt (show headSectors bpb < 2 ^ 32 by omega)
  have hbytes : (fatPrivateOf bpb).bytesPerCluster = 512 * bpb.sectorsPerCluster := by
    rw [← hok.sector]
    rfl
  have hb : 0 < (fatPrivateOf bpb).bytesPerCluster := by omega
  exact {
    divisors := ⟨by rw [show (fatPrivateOf bpb).bpb.bytesPerSector = 512 from hok.sector]; decide,
      h.spc⟩
    reads := fatRead_returns hb
    writes := fatWrite_returns hb
    readdirs := fun node t d hends => (fatReaddir_ends _ node t d).mpr hends
    creates := fun parent name flags t d hends =>
      (fatCreate_ends _ parent name flags t d).mpr fun _ _ => hends
    unlinks := fun hsmall parent name fatName t d hname hends => by
      have hfits : TableFits (fatPrivateOf bpb) := by
        have h1 : bpb.reservedSectors + bpb.fatCount * bpb.fatSize32 ≤ headSectors bpb :=
          Nat.le_add_right _ _
        have h2 : totalSectors bpb ≤ 2 ^ 28 := hsmall
        have h3 := h.copies
        have h4 := hok.fat32
        constructor
        · exact hok.sector
        · exact hres
        · exact Nat.one_le_iff_ne_zero.mpr h3
        · exact hcopies
        · exact Nat.one_le_iff_ne_zero.mpr h4
        · exact show bpb.reservedSectors + bpb.fatCount * bpb.fatSize32 ≤ 2 ^ 28 by omega
        · exact show bpb.fatCount * bpb.fatSize32 < 2 ^ 28 by omega
      refine (fatUnlink_ends hfits parent name t d).mpr fun fatName' hname' => ?_
      rw [hname] at hname'
      cases hname'
      exact hends
    fatStart := ⟨rfl, Nat.lt_trans hres (by decide)⟩
    dataStart := hdata
    bytesPerCluster := ⟨rfl, by omega⟩
    data_le := by
      rw [hdata]
      exact show headSectors bpb ≤ totalSectors bpb by omega
    copies := Nat.one_le_iff_ne_zero.mpr h.copies
    root := (root_valid_iff hdata (by omega) htotal h.spc).mpr ⟨h.root_ge, hle⟩ }

theorem sane_of_usable (h : Usable (fatPrivateOf (readBpb buf))) : Sane (readBpb buf) := by
  have htotal := (readBpb_lt buf).2.2.2
  generalize readBpb buf = bpb at *
  have hle := h.data_le
  rw [h.dataStart] at hle
  obtain ⟨hge, hroot⟩ := (root_valid_iff h.dataStart hle htotal h.divisors.2).mp h.root
  exact ⟨h.divisors.2, Nat.one_le_iff_ne_zero.mp h.copies, hge, hroot⟩

/-- Which of the volumes that are mounted can be used. -/
theorem mounted_usable_iff (h : (fatMount heap d).1 = some (fp, t)) : Usable fp ↔ Sane fp.bpb := by
  obtain ⟨rfl, hok⟩ := fatMount_some h
  exact ⟨sane_of_usable, fun hs => hs.usable hok⟩

/-- A volume whose table has a circle can have a geometry that is in order. -/
theorem cyclic_usable : Usable cyclicFp :=
  (mounted_usable_iff (fatMount_accepts (show NoFaults cyclicDisk from rfl) cyclic_accepted)).mpr
    ⟨by decide +kernel, by decide +kernel, by decide +kernel, by decide +kernel⟩

def emptyClusterBoot : Bytes := putLE cyclicBoot 13 1 0

def emptyClusterDisk : Disk where
  sectors n := if n = 0 then emptyClusterBoot else cyclicDisk.sectors n
  faults := []

def emptyClusterFp : FatPrivate := fatPrivateOf (readBpb emptyClusterBoot)

theorem emptyCluster_skip (fuel : Nat) :
    fatReadSkip emptyClusterFp fuel 2 0 emptyClusterDisk = none := by
  have hnext : fatNextCluster emptyClusterFp emptyClusterDisk 2 = (2, emptyClusterDisk) := by
    have hlink : linkOf emptyClusterFp emptyClusterDisk.sectors 2 = 2 := by decide +kernel
    obtain ⟨-, hf⟩ | ⟨h, -⟩ := fatNextCluster_cases emptyClusterFp emptyClusterDisk 2
    · cases hf
    · rw [h, hlink]
      rfl
  induction fuel with
  | zero => rfl
  | succ fuel ih =>
    have hbytes : (0 : Nat) ≥ emptyClusterFp.bytesPerCluster := by decide +kernel
    rw [fatReadSkip, if_pos hbytes, hnext]
    exact ih

/-- It is mounted; the first cluster is divided by its size 0, and reading the root never
ends. -/
theorem emptyCluster_mounted : ∃ fp t root, (fatMount [] emptyClusterDisk).1 = some (fp, t) ∧
    t.nodes 0 = some root ∧ fp.bpb.sectorsPerCluster = 0 ∧
    (∀ fuel out, fatRead fp fuel root 0 1 out emptyClusterDisk = none) ∧ ¬ Usable fp := by
  have haccepted : Accepted (readBpb emptyClusterBoot) :=
    ⟨by decide +kernel, .inl (by decide +kernel), by decide +kernel⟩
  have hspc : emptyClusterFp.bpb.sectorsPerCluster = 0 := by decide +kernel
  have hroot : (readBpb emptyClusterBoot).rootCluster = 2 := by decide +kernel
  refine ⟨emptyClusterFp, rootTree (readBpb emptyClusterBoot), _, fatMount_accepts rfl haccepted,
    rfl, hspc, fun fuel out => ?_, fun h => h.divisors.2 hspc⟩
  rw [fatRead, hroot, emptyCluster_skip]

end EponaOS.Fs
