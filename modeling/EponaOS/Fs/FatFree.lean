import EponaOS.Lib.Fuel
import EponaOS.Lib.Ranked
import EponaOS.Fs.FatCopies

/-!
# Freeing a chain

`fat_free_cluster_chain` sets the entries it follows to 0, so it ends on every table, even
on one whose links run in a circle. The numbers it follows may lie behind the table, and the
copies it writes may then fall on other entries it reads; but only on those of a sector that
is ranked higher.
-/

namespace EponaOS.Fs

open Bytes

/-- The copies of the table lie within the sectors the drive can address, and do not take all
of them. -/
structure TableFits (fp : FatPrivate) : Prop where
  sector : fp.bpb.bytesPerSector = 512
  start_lt : fp.fatStart < 2 ^ 16
  copies : 1 ≤ fp.bpb.fatCount
  copies_lt : fp.bpb.fatCount < 2 ^ 8
  table : 1 ≤ fp.sectorsPerFat
  fits : fp.fatStart + fp.bpb.fatCount * fp.sectorsPerFat ≤ 2 ^ 28
  room : fp.bpb.fatCount * fp.sectorsPerFat < 2 ^ 28

/-- The number that `fat_next_cluster` finds for cluster `c`. -/
def linkOf (fp : FatPrivate) (sectors : Nat → Bytes) (c : Nat) : Nat :=
  let fatOffset := c * 4 % 2 ^ 32
  getLE (sectors ((fp.fatStart + fatOffset / fp.bpb.bytesPerSector) % 2 ^ 32 % 2 ^ 28))
    (fatOffset % fp.bpb.bytesPerSector) 4 % 2 ^ 28

def tableEntry (fp : FatPrivate) (sectors : Nat → Bytes) (p k : Nat) : Nat :=
  getLE (sectors (fp.fatStart + p)) (4 * k) 4 % 2 ^ 28

def usedEntries (fp : FatPrivate) (sectors : Nat → Bytes) (p : Nat) : Nat :=
  ((Finset.range 128).filter fun k => tableEntry fp sectors p k ≠ 0).card

def tableSectors : Finset Nat := Finset.range (2 ^ 21)

/-- A copy of sector `p` that falls on another one of `tableSectors` falls on one of higher
rank. With large tables it may lie before `p`, once the address has wrapped around. -/
def sectorRank (fp : FatPrivate) (p : Nat) : Nat :=
  if fp.sectorsPerFat ≤ 2 ^ 20 then p
  else if p < fp.sectorsPerFat then 2 * (2 ^ 21 - p)
  else 2 * (2 ^ 21 - (p - fp.sectorsPerFat)) + 1

variable {fp : FatPrivate} {d d' : Disk} {c p q : Nat}

-- ---------------------------------------------------------------------------
-- Accesses to a drive that may fail
-- ---------------------------------------------------------------------------

structure Accessed (d d' : Disk) : Prop where
  sectors : d'.sectors = d.sectors
  faults : d'.faults <:+ d.faults
  keeps : true ∈ d.faults → true ∈ d'.faults

theorem Accessed.refl (d : Disk) : Accessed d d := ⟨rfl, List.suffix_refl _, id⟩

theorem Accessed.trans {d₁ d₂ d₃ : Disk} (h : Accessed d₁ d₂) (h' : Accessed d₂ d₃) :
    Accessed d₁ d₃ :=
  ⟨h'.sectors.trans h.sectors, h'.faults.trans h.faults, h'.keeps ∘ h.keeps⟩

theorem Disk.mem_of_fails (h : d.fails = true) : true ∈ d.faults := by
  rw [Disk.fails] at h
  cases hf : d.faults with
  | nil => simp [hf] at h
  | cons f fs => simp_all

theorem Disk.tick_suffix (d : Disk) : d.tick.faults <:+ d.faults := List.tail_suffix _

theorem Accessed.tick (h : d.fails = false) : Accessed d d.tick where
  sectors := rfl
  faults := d.tick_suffix
  keeps hf := by
    rw [Disk.fails] at h
    rw [Disk.tick]
    cases hfs : d.faults with
    | nil => simp [hfs] at hf
    | cons f fs => simp_all

theorem ataReadSectors_cases (d : Disk) (lba : Nat) :
    (ataReadSectors d lba = (none, d.tick) ∧ true ∈ d.faults) ∨
      (ataReadSectors d lba = (some (d.sectors (lba % 2 ^ 28)), d.tick) ∧ Accessed d d.tick) := by
  rw [ataReadSectors]
  cases h : d.fails with
  | true => exact .inl ⟨rfl, Disk.mem_of_fails h⟩
  | false => exact .inr ⟨rfl, Accessed.tick h⟩

theorem fatNextCluster_cases (fp : FatPrivate) (d : Disk) (c : Nat) :
    (fatNextCluster fp d c = (FAT_EOC, d.tick) ∧ true ∈ d.faults) ∨
      (fatNextCluster fp d c = (linkOf fp d.sectors c, d.tick) ∧ Accessed d d.tick) := by
  simp only [fatNextCluster, linkOf]
  obtain ⟨h, hf⟩ | ⟨h, ht⟩ := ataReadSectors_cases d
    ((fp.fatStart + c * 4 % 2 ^ 32 / fp.bpb.bytesPerSector) % 2 ^ 32)
  · rw [h]
    exact .inl ⟨rfl, hf⟩
  · rw [h]
    exact .inr ⟨rfl, ht⟩

theorem fatNextCluster_link (fp : FatPrivate) (d : Disk) (c : Nat) :
    fatNextCluster fp d c = (if d.fails then FAT_EOC else linkOf fp d.sectors c, d.tick) := by
  simp only [fatNextCluster, ataReadSectors, linkOf]
  cases d.fails <;> rfl

theorem fails_iff (d : Disk) : d.fails = true ↔ d.faults[0]? = some true := by
  rw [Disk.fails]
  cases d.faults <;> simp

theorem ataWriteSectors_faults (d : Disk) (lba : Nat) (buf : Bytes) :
    (ataWriteSectors d lba buf).2.faults = d.faults.tail := by
  rw [ataWriteSectors]
  split <;> rfl

theorem fatWriteCopies_faults (fp : FatPrivate) (off : Nat) (buf : Bytes) (k i : Nat) (d : Disk) :
    (fatWriteCopies fp off buf k i d).2.faults <:+ d.faults := by
  induction k generalizing i d with
  | zero => exact List.suffix_refl _
  | succ k ih =>
    have hw := ataWriteSectors_faults d
      ((fp.fatStart + i * fp.sectorsPerFat + off / fp.bpb.bytesPerSector) % 2 ^ 32) buf
    have htail := List.tail_suffix d.faults
    rw [← hw] at htail
    rw [fatWriteCopies]
    split
    · exact (ih _ _).trans htail
    · exact htail

theorem fatSetCluster_faults (fp : FatPrivate) (d : Disk) (c v : Nat) :
    (fatSetCluster fp d c v).2.faults <:+ d.faults := by
  simp only [fatSetCluster]
  obtain ⟨h, -⟩ | ⟨h, -⟩ := ataReadSectors_cases d
    ((fp.fatStart + c * 4 % 2 ^ 32 / fp.bpb.bytesPerSector) % 2 ^ 32)
  · rw [h]
    exact d.tick_suffix
  · rw [h]
    exact (fatWriteCopies_faults ..).trans d.tick_suffix

-- ---------------------------------------------------------------------------
-- One entry set to 0
-- ---------------------------------------------------------------------------

theorem sector_of_cluster (hf : TableFits fp) (hc : c < FAT_EOC) :
    c * 4 % 2 ^ 32 = 4 * c ∧ c / 128 < 2 ^ 21 ∧ 4 * c / 512 = c / 128 ∧
      4 * c % 512 = 4 * (c % 128) ∧
      (fp.fatStart + c / 128) % 2 ^ 32 = fp.fatStart + c / 128 ∧
      (fp.fatStart + c / 128) % 2 ^ 28 = fp.fatStart + c / 128 := by
  have := hf.start_lt
  rw [FAT_EOC] at hc
  omega

theorem linkOf_eq (hf : TableFits fp) (hc : c < FAT_EOC) (sectors : Nat → Bytes) :
    linkOf fp sectors c = tableEntry fp sectors (c / 128) (c % 128) := by
  obtain ⟨h1, -, h2, h3, h4, h5⟩ := sector_of_cluster hf hc
  simp only [linkOf, tableEntry, hf.sector, h1, h2, h3, h4, h5]

theorem sectorRank_copy (hf : TableFits fp) (hi : 1 ≤ i) (hn : i < fp.bpb.fatCount)
    (hp : p < 2 ^ 21) (hq : q < 2 ^ 21)
    (h : fp.fatStart + q = (fp.fatStart + i * fp.sectorsPerFat + p) % 2 ^ 32 % 2 ^ 28) :
    sectorRank fp p < sectorRank fp q := by
  have h1 := hf.start_lt
  have h2 := hf.fits
  have h3 := hf.room
  have h4 := hf.table
  have h5 : (i + 1) * fp.sectorsPerFat ≤ fp.bpb.fatCount * fp.sectorsPerFat :=
    Nat.mul_le_mul_right _ hn
  rw [Nat.add_mul, Nat.one_mul] at h5
  have h6 : i * fp.sectorsPerFat ≤ 254 * fp.sectorsPerFat :=
    Nat.mul_le_mul_right _ (by have := hf.copies_lt; omega)
  have h7 : i = 1 ∨ 2 * fp.sectorsPerFat ≤ i * fp.sectorsPerFat := by
    obtain rfl | h := Nat.eq_or_lt_of_le hi
    · exact .inl rfl
    · exact .inr (Nat.mul_le_mul_right _ h)
  have h8 : fp.sectorsPerFat ≤ i * fp.sectorsPerFat := Nat.le_mul_of_pos_left _ hi
  have h9 : i = 1 → i * fp.sectorsPerFat = fp.sectorsPerFat := by
    rintro rfl
    exact Nat.one_mul _
  generalize i * fp.sectorsPerFat = w at *
  have hat : (fp.fatStart + w + p < 2 ^ 28 ∧ q = w + p) ∨
      (2 ^ 28 ≤ fp.fatStart + w + p ∧ fp.fatStart + q + 2 ^ 28 = fp.fatStart + w + p) := by
    omega
  clear h
  rw [sectorRank, sectorRank]
  split
  · omega
  · obtain ⟨hlt, rfl⟩ | ⟨hge, hq'⟩ := hat
    · split <;> split <;> omega
    · split <;> split <;> omega

theorem fatSetCluster_drains (hf : TableFits fp) (hd : NoFaults d) (hc : c < FAT_EOC)
    (h0 : linkOf fp d.sectors c ≠ 0) :
    NoFaults (fatSetCluster fp d c 0).2 ∧
      Drains tableSectors (sectorRank fp) (usedEntries fp) d.sectors
        (fatSetCluster fp d c 0).2.sectors := by
  obtain ⟨h1, h2, h3, h4, h5, h6⟩ := sector_of_cluster hf hc
  rw [linkOf_eq hf hc] at h0
  have hread : ataReadSectors d (fp.fatStart + c / 128) =
      (some (d.sectors (fp.fatStart + c / 128)), d) := by
    rw [ataReadSectors, hd.fails, hd.tick, h6]
    rfl
  generalize hb : putLE (d.sectors (fp.fatStart + c / 128)) (4 * (c % 128)) 4
    (getLE (d.sectors (fp.fatStart + c / 128)) (4 * (c % 128)) 4 / 2 ^ 28 * 2 ^ 28 + 0) = buf
  obtain ⟨d', he, hd', hsec⟩ := fatWriteCopies_sectors fp hd (4 * c) buf fp.bpb.fatCount 0
  rw [hf.sector, h3] at hsec
  have heq : fatSetCluster fp d c 0 = (true, d') := by
    simp only [fatSetCluster, hf.sector, h1, h3, h4, h5, hread, Nat.zero_mod]
    rw [hb]
    exact he
  rw [heq]
  -- the entries of the sector itself: that of `c` is 0 now, the others are as before
  have hown : d'.sectors (fp.fatStart + c / 128) = buf := by
    obtain ⟨hbuf, -⟩ | ⟨-, hne⟩ := hsec (fp.fatStart + c / 128)
    · exact hbuf
    · refine absurd ?_ (hne 0 (Nat.le_refl 0) (by have := hf.copies; omega))
      rw [Nat.zero_mul, Nat.add_zero, h5, h6]
  have hentry : ∀ k, tableEntry fp d'.sectors (c / 128) k ≠ 0 →
      k ≠ c % 128 ∧ tableEntry fp d.sectors (c / 128) k ≠ 0 := by
    intro k hk
    rw [tableEntry, hown, ← hb] at hk
    by_cases hkc : k = c % 128
    · subst hkc
      rw [getLE_putLE_same] at hk
      have hlt := getLE_lt (d.sectors (fp.fatStart + c / 128)) (4 * (c % 128)) 4
      have hp : (256 : Nat) ^ 4 = 2 ^ 32 := by decide
      rw [hp] at hlt hk
      omega
    · rw [getLE_putLE_off _ _ (by omega)] at hk
      exact ⟨hkc, hk⟩
  have hless : usedEntries fp d'.sectors (c / 128) < usedEntries fp d.sectors (c / 128) := by
    apply Finset.card_lt_card
    refine (Finset.ssubset_iff_of_subset fun k hk => ?_).mpr ⟨c % 128, ?_, fun hk => ?_⟩
    · obtain ⟨hr, hk⟩ := Finset.mem_filter.mp hk
      exact Finset.mem_filter.mpr ⟨hr, (hentry k hk).2⟩
    · exact Finset.mem_filter.mpr ⟨Finset.mem_range.mpr (Nat.mod_lt _ (by decide)), h0⟩
    · exact (hentry _ (Finset.mem_filter.mp hk).2).1 rfl
  refine ⟨hd', c / 128, Finset.mem_range.mpr h2, hless, fun q hq hrank => ?_⟩
  by_cases hqc : q = c / 128
  · rw [hqc]
    exact Nat.le_of_lt hless
  · have hsame : d'.sectors (fp.fatStart + q) = d.sectors (fp.fatStart + q) := by
      obtain ⟨-, j, -, hj, hat⟩ | ⟨hsame, -⟩ := hsec (fp.fatStart + q)
      · rw [Nat.zero_add] at hj
        have hq := Finset.mem_range.mp hq
        cases j with
        | zero =>
          rw [Nat.zero_mul, Nat.add_zero, h5, h6] at hat
          omega
        | succ j =>
          have := sectorRank_copy hf (Nat.succ_le_succ (Nat.zero_le j)) hj h2 hq hat
          omega
      · exact hsame
    have hk : ∀ k, tableEntry fp d'.sectors q k = tableEntry fp d.sectors q k := by
      intro k
      rw [tableEntry, tableEntry, hsame]
    exact Nat.le_of_eq (by simp only [usedEntries, hk])

-- ---------------------------------------------------------------------------
-- The whole chain
-- ---------------------------------------------------------------------------

theorem fatFreeClusterChain_mono (fp : FatPrivate) (c : Nat) (d : Disk) :
    FuelMono fun fuel => fatFreeClusterChain fp fuel c d := by
  intro fuel r h
  induction fuel generalizing c d with
  | zero => cases h
  | succ fuel ih =>
    dsimp only at h ⊢
    rw [fatFreeClusterChain] at h ⊢
    split at h
    · rename_i hc
      rw [if_pos hc]
      exact ih _ _ h
    · rename_i hc
      rw [if_neg hc]
      exact h

theorem fatFree_stops (fp : FatPrivate) (d : Disk) (h : ¬ (2 ≤ c ∧ c < FAT_EOC)) :
    fatFreeClusterChain fp 1 c d = some d := by
  rw [fatFreeClusterChain, if_neg h]

theorem fatFree_unroll (hc : 2 ≤ c ∧ c < FAT_EOC)
    (h : ∃ fuel r, fatFreeClusterChain fp fuel (fatNextCluster fp d c).1
      (fatSetCluster fp (fatNextCluster fp d c).2 c 0).2 = some r) :
    ∃ fuel r, fatFreeClusterChain fp fuel c d = some r := by
  obtain ⟨fuel, r, h⟩ := h
  refine ⟨fuel + 1, r, ?_⟩
  rw [fatFreeClusterChain, if_pos hc]
  exact h

/-- On a drive without errors: each round leaves fewer entries in use, by rank. -/
theorem fatFree_noFaults (hf : TableFits fp) (hd : NoFaults d) (c : Nat) :
    ∃ fuel r, fatFreeClusterChain fp fuel c d = some r := by
  generalize hs : d.sectors = sectors
  have hwf : WellFounded fun s' s => Drains tableSectors (sectorRank fp) (usedEntries fp) s s' :=
    drains_wellFounded
  induction sectors using hwf.induction generalizing c d with
  | _ sectors ih =>
    by_cases hc : 2 ≤ c ∧ c < FAT_EOC
    · apply fatFree_unroll hc
      have hnext : fatNextCluster fp d c = (linkOf fp d.sectors c, d) := by
        obtain ⟨-, hfault⟩ | ⟨h, -⟩ := fatNextCluster_cases fp d c
        · rw [show d.faults = [] from hd] at hfault
          cases hfault
        · rw [h, hd.tick]
      rw [hnext]
      by_cases h0 : linkOf fp d.sectors c = 0
      · refine ⟨1, _, fatFree_stops fp _ ?_⟩
        rw [h0]
        omega
      · obtain ⟨hd', hdrains⟩ := fatSetCluster_drains hf hd hc.2 h0
        rw [hs] at hdrains
        exact ih _ hdrains hd' _ rfl
    · exact ⟨1, d, fatFree_stops fp d hc⟩

/-- Freeing a chain ends, whatever the table says and whichever accesses fail. -/
theorem fatFree_returns (hf : TableFits fp) (c : Nat) (d : Disk) :
    ∃ r, Returns (fun fuel => fatFreeClusterChain fp fuel c d) r := by
  suffices h : ∃ fuel r, fatFreeClusterChain fp fuel c d = some r by
    obtain ⟨fuel, r, h⟩ := h
    exact ⟨r, (fatFreeClusterChain_mono fp c d).returns h⟩
  generalize hn : d.faults.length = n
  induction n using Nat.strong_induction_on generalizing c d with
  | _ n ih =>
    cases hfaults : d.faults with
    | nil => exact fatFree_noFaults hf hfaults c
    | cons f fs =>
      by_cases hc : 2 ≤ c ∧ c < FAT_EOC
      · apply fatFree_unroll hc
        refine ih _ ?_ _ _ rfl
        have htick : (fatNextCluster fp d c).2 = d.tick := by
          obtain ⟨h, -⟩ | ⟨h, -⟩ := fatNextCluster_cases fp d c <;> rw [h]
        have hle := (fatSetCluster_faults fp d.tick c 0).length_le
        rw [htick]
        simp only [Disk.tick, hfaults, List.tail_cons] at hle ⊢
        simp only [hfaults, List.length_cons] at hn
        omega
      · exact ⟨1, d, fatFree_stops fp d hc⟩

end EponaOS.Fs
