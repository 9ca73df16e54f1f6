import EponaOS.Lib.Erase
import EponaOS.Lib.Fuel
import EponaOS.Fs.FatCopies

/-!
# The clusters of a chain that is freed

What `fat_free_cluster_chain` does to a table whose entries are each free, reserved, an end mark
or a cluster of the volume: it ends, on a circle too, and the entries it sets to 0 are those of
the clusters on the way from the first one, in every copy.
-/

namespace EponaOS.Fs

open Bytes

def Cell (fp : FatPrivate) (c : Nat) : Prop := Valid fp c ∧ c < FAT_EOC

/-- What an entry of the table may be. -/
def LinkValue (fp : FatPrivate) (v : Nat) : Prop := v = 0 ∨ v = 1 ∨ FAT_EOC ≤ v ∨ Valid fp v

def OnWay (fp : FatPrivate) (m : Bytes) (c x : Nat) : Prop := Met (fatEntry fp m) (Cell fp) c x

/-- In every copy of `m'` the 28 bits of the entries on the way from `c` are 0, and their upper
bits and all other bytes are those of `m`. -/
structure Freed (fp : FatPrivate) (m m' : Bytes) (c : Nat) : Prop where
  free : ∀ i, i < fp.bpb.fatCount → ∀ x, OnWay fp m c x → copyEntry fp m' i x % 2 ^ 28 = 0
  upper : ∀ i, i < fp.bpb.fatCount → ∀ x, OnWay fp m c x →
    copyEntry fp m' i x / 2 ^ 28 = copyEntry fp m i x / 2 ^ 28
  entries : ∀ i, i < fp.bpb.fatCount → ∀ x, HasEntry fp x → ¬ OnWay fp m c x →
    copyEntry fp m' i x = copyEntry fp m i x
  other : ∀ a, (∀ i, i < fp.bpb.fatCount → ∀ x, OnWay fp m c x →
    a < copyAddr fp i x ∨ copyAddr fp i x + 4 ≤ a) → m' a = m a

variable {fp : FatPrivate} {d d' : Disk} {m m' m'' : Bytes} {c x : Nat}

-- ---------------------------------------------------------------------------
-- One round
-- ---------------------------------------------------------------------------

theorem fatNextCluster_table (hg : TableGeometry fp) (hd : NoFaults d)
    (hc : c < fatTotalClusters fp + 2) : fatNextCluster fp d c = (fatEntry fp d.image c, d) := by
  obtain ⟨he, hoff⟩ := hg.entry hc
  simp only [fatNextCluster, hg.sector, hoff, hg.first_lba he]
  rw [ataReadSectors_eq hd (copyLba_lt hg he hg.copies)]
  dsimp only
  rw [getLE_first, fatEntry_eq_copyEntry]

theorem EqualCopies.entry (heq : EqualCopies fp m) (hx : HasEntry fp x) (hi : i < fp.bpb.fatCount) :
    copyEntry fp m i x = copyEntry fp m 0 x := by
  apply getLE_congr_at
  intro k hk
  rw [HasEntry] at hx
  have hbyte := heq i hi (4 * x + k) (by omega)
  rw [copyAddr_zero, fatAddr, copyAddr, Nat.add_assoc, Nat.add_assoc, hbyte]

theorem copyEntry_lt (fp : FatPrivate) (m : Bytes) (i c : Nat) : copyEntry fp m i c < 2 ^ 32 :=
  getLE_lt m (copyAddr fp i c) 4

theorem SetCopies.cleared (heq : EqualCopies fp m) (hent : HasEntry fp c)
    (hset : SetCopies fp m m' c (copyEntry fp m 0 c / 2 ^ 28 * 2 ^ 28)) (hi : i < fp.bpb.fatCount) :
    copyEntry fp m' i c = copyEntry fp m i c / 2 ^ 28 * 2 ^ 28 := by
  have hlt := copyEntry_lt fp m 0 c
  rw [heq.entry hent hi]
  exact hset.entry hi (by omega)

/-- The entry of `c` set to 0: what is left of the way is freed after it. -/
theorem SetCopies.freed (hg : TableGeometry fp) (heq : EqualCopies fp m) (hc : Cell fp c)
    (hset : SetCopies fp m m' c (copyEntry fp m 0 c / 2 ^ 28 * 2 ^ 28))
    (h : Freed fp m' m'' (fatEntry fp m c)) : Freed fp m m'' c := by
  obtain ⟨hent, -⟩ := hg.entry hc.1.2
  have hnew : ∀ i, i < fp.bpb.fatCount →
      copyEntry fp m' i c = copyEntry fp m i c / 2 ^ 28 * 2 ^ 28 := fun _ hi =>
    hset.cleared heq hent hi
  have hgone : ¬ Cell fp (fatEntry fp m' c) := by
    rw [fatEntry_eq_copyEntry, hnew 0 hg.copies, Nat.mul_mod_left]
    exact fun hcell => absurd hcell.1.1 (by decide)
  have hkept : ∀ x, HasEntry fp x → x ≠ c → ∀ i, copyEntry fp m' i x = copyEntry fp m i x :=
    fun x hx hxc i => hset.entries hent hx hxc i
  have hway : ∀ x, OnWay fp m c x ↔ x = c ∨ OnWay fp m' (fatEntry fp m c) x := by
    intro x
    refine Met.erase_iff hc (fun y hy hyc => ?_) hgone
    rw [fatEntry_eq_copyEntry, fatEntry_eq_copyEntry, hkept y (hg.entry hy.1.2).1 hyc 0]
  -- a cluster on the way that the rest does not meet is `c` itself
  have hcase : ∀ x, OnWay fp m c x → OnWay fp m' (fatEntry fp m c) x ∨
      (x = c ∧ ¬ OnWay fp m' (fatEntry fp m c) x) := by
    intro x hx
    by_cases hrest : OnWay fp m' (fatEntry fp m c) x
    · exact .inl hrest
    · exact .inr ⟨((hway x).mp hx).resolve_right hrest, hrest⟩
  refine ⟨fun i hi x hx => ?_, fun i hi x hx => ?_, fun i hi x hx hout => ?_, fun a ha => ?_⟩
  · obtain hrest | ⟨rfl, hout⟩ := hcase x hx
    · exact h.free i hi x hrest
    · rw [h.entries i hi x hent hout, hnew i hi, Nat.mul_mod_left]
  · have hupper : copyEntry fp m' i x / 2 ^ 28 = copyEntry fp m i x / 2 ^ 28 := by
      by_cases hxc : x = c
      · rw [hxc, hnew i hi, Nat.mul_div_cancel _ (by decide)]
      · rw [hkept x (hg.entry hx.isCell.1.2).1 hxc]
    obtain hrest | ⟨rfl, hout⟩ := hcase x hx
    · rw [h.upper i hi x hrest, hupper]
    · rw [h.entries i hi x hent hout, hupper]
  · have hxc : x ≠ c := fun hxc => hout ((hway x).mpr (.inl hxc))
    rw [h.entries i hi x hx fun hrest => hout ((hway x).mpr (.inr hrest)), hkept x hx hxc]
  · rw [h.other a fun i hi x hx => ha i hi x ((hway x).mpr (.inr hx))]
    exact hset.other a fun i hi => ha i hi c ((hway c).mpr (.inl rfl))

-- ---------------------------------------------------------------------------
-- The loop
-- ---------------------------------------------------------------------------

theorem Freed.none (hc : ¬ Cell fp c) : Freed fp m m c where
  free _ _ _ hx := absurd hx.first hc
  upper _ _ _ _ := rfl
  entries _ _ _ _ _ := rfl
  other _ _ := rfl

theorem LinkValue.cell (h : LinkValue fp c) : (2 ≤ c ∧ c < FAT_EOC) ↔ Cell fp c := by
  constructor
  · rintro ⟨h2, hlt⟩
    obtain h0 | h1 | heoc | hv := h
    · omega
    · omega
    · omega
    · exact ⟨hv, hlt⟩
  · rintro ⟨hv, hlt⟩
    exact ⟨hv.1, hlt⟩

/-- Freeing a chain ends and frees the clusters on the way, whether it ends in an end mark, in
another chain or in a circle. -/
theorem fatFree_exact (hg : TableGeometry fp) (hd : NoFaults d) (heq : EqualCopies fp d.image)
    (hlinks : ∀ x, Valid fp x → LinkValue fp (fatEntry fp d.image x)) (hc : LinkValue fp c) :
    ∃ d', Returns (fun fuel => fatFreeClusterChain fp fuel c d) d' ∧ NoFaults d' ∧
      Freed fp d.image d'.image c := by
  -- each round takes from the clusters that have a link
  generalize hn : ((Finset.Ico 2 (fatTotalClusters fp + 2)).filter
    fun x => fatEntry fp d.image x ≠ 0).card = n
  induction n using Nat.strong_induction_on generalizing c d with
  | _ n ih =>
    by_cases hcell : Cell fp c
    · have hround := hc.cell.mpr hcell
      obtain ⟨hent, -⟩ := hg.entry hcell.1.2
      obtain ⟨d₁, hset, hd₁, hcopies⟩ := fatSetCluster_copies hg hd heq hcell.1.2 0
      rw [Nat.zero_mod, Nat.add_zero] at hcopies
      have heq₁ := hcopies.copies hent hg.copies heq
      have hstep : ∀ fuel, fatFreeClusterChain fp (fuel + 1) c d =
          fatFreeClusterChain fp fuel (fatEntry fp d.image c) d₁ := by
        intro fuel
        rw [fatFreeClusterChain, if_pos hround, fatNextCluster_table hg hd hcell.1.2]
        dsimp only
        rw [hset]
      suffices h : ∃ d', Returns (fun fuel => fatFreeClusterChain fp fuel
          (fatEntry fp d.image c) d₁) d' ∧ NoFaults d' ∧
          Freed fp d₁.image d'.image (fatEntry fp d.image c) by
        obtain ⟨d', hret, hd', hfreed⟩ := h
        exact ⟨d', hret.step hstep, hd', hcopies.freed hg heq hcell hfreed⟩
      by_cases h0 : fatEntry fp d.image c = 0
      · rw [h0]
        have hstop : ¬ Cell fp 0 := fun hcell => absurd hcell.1.1 (by decide)
        refine ⟨d₁, ⟨1, fun fuel hf => ?_⟩, hd₁, .none hstop⟩
        obtain ⟨fuel, rfl⟩ := Nat.exists_eq_succ_of_ne_zero (Nat.ne_of_gt hf)
        dsimp only
        rw [fatFreeClusterChain, if_neg (by decide)]
      · have hentry : ∀ y, y ≠ c → Valid fp y → fatEntry fp d₁.image y = fatEntry fp d.image y := by
          intro y hyc hy
          rw [fatEntry_eq_copyEntry, fatEntry_eq_copyEntry,
            hcopies.entries hent (hg.entry hy.2).1 hyc 0]
        have hgone : fatEntry fp d₁.image c = 0 := by
          rw [fatEntry_eq_copyEntry, hcopies.cleared heq hent hg.copies, Nat.mul_mod_left]
        have hless : ((Finset.Ico 2 (fatTotalClusters fp + 2)).filter
            fun x => fatEntry fp d₁.image x ≠ 0).card < n := by
          rw [← hn]
          refine card_linked_lt (Finset.mem_Ico.mpr hcell.1) h0 (by simp [hgone]) ?_
          intro y hy hyc hlink
          rwa [hentry y hyc (Finset.mem_Ico.mp hy)] at hlink
        have hlinks₁ : ∀ x, Valid fp x → LinkValue fp (fatEntry fp d₁.image x) := by
          intro x hx
          by_cases hxc : x = c
          · rw [hxc]
            exact .inl hgone
          · rw [hentry x hxc hx]
            exact hlinks x hx
        exact ih _ hless hd₁ heq₁ hlinks₁ (hlinks c hcell.1) rfl
    · refine ⟨d, ⟨1, fun fuel hf => ?_⟩, hd, .none hcell⟩
      obtain ⟨fuel, rfl⟩ := Nat.exists_eq_succ_of_ne_zero (Nat.ne_of_gt hf)
      dsimp only
      rw [fatFreeClusterChain, if_neg (mt hc.cell.mp hcell)]

/-- The links 3, 4, 5 run in a circle, and 6 leads into it; the entry of 5 has upper bits. -/
def circleDisk : Disk where
  sectors _ := putLE (putLE (putLE (putLE (putLE (fun _ => 0) 8 4 FAT_EOC) 12 4 4) 16 4 5) 20 4
    0xA0000004) 24 4 3
  faults := []

theorem circle_copies : EqualCopies mirroredFp circleDisk.image := by
  intro i _ b _
  simp only [Disk.image, circleDisk]
  congr 1
  omega

theorem circle_links (hx : Valid mirroredFp x) :
    LinkValue mirroredFp (fatEntry mirroredFp circleDisk.image x) := by
  have hall : ∀ x < 9, fatEntry mirroredFp circleDisk.image x = 0 ∨
      fatEntry mirroredFp circleDisk.image x = 1 ∨
      FAT_EOC ≤ fatEntry mirroredFp circleDisk.image x ∨
      (2 ≤ fatEntry mirroredFp circleDisk.image x ∧
        fatEntry mirroredFp circleDisk.image x < fatTotalClusters mirroredFp + 2) := by
    decide +kernel
  exact hall x hx.2

theorem circle_way : OnWay mirroredFp circleDisk.image 3 5 ∧
    ¬ OnWay mirroredFp circleDisk.image 3 6 := by
  have hcell : ∀ x, 2 ≤ x → x < 9 → Cell mirroredFp x := by
    intro x h2 h9
    refine ⟨⟨h2, Nat.lt_of_lt_of_le h9 (by decide)⟩, Nat.lt_trans h9 (by decide)⟩
  have hlink : fatEntry mirroredFp circleDisk.image 3 = 4 ∧
      fatEntry mirroredFp circleDisk.image 4 = 5 ∧ fatEntry mirroredFp circleDisk.image 5 = 4 := by
    decide +kernel
  obtain ⟨h3, h4, h5⟩ := hlink
  constructor
  · have hfour : OnWay mirroredFp circleDisk.image 3 4 := by
      rw [← h3]
      exact .link (.start (hcell 3 (by decide) (by decide)))
        (by rw [h3]; exact hcell 4 (by decide) (by decide))
    rw [← h4]
    exact .link hfour (by rw [h4]; exact hcell 5 (by decide) (by decide))
  · have hall : ∀ x, OnWay mirroredFp circleDisk.image 3 x → x = 3 ∨ x = 4 ∨ x = 5 := by
      intro x hx
      induction hx with
      | start => exact .inl rfl
      | link _ _ ih =>
        obtain rfl | rfl | rfl := ih
        · exact .inr (.inl h3)
        · exact .inr (.inr h4)
        · exact .inr (.inl h5)
    intro h6
    have := hall 6 h6
    omega

theorem circle_freed : ∃ d', Returns (fun fuel => fatFreeClusterChain mirroredFp fuel 3 circleDisk)
    d' ∧ copyEntry mirroredFp d'.image 1 5 % 2 ^ 28 = 0 ∧
    copyEntry mirroredFp d'.image 1 6 = copyEntry mirroredFp circleDisk.image 1 6 := by
  obtain ⟨d', hret, -, hfreed⟩ := fatFree_exact mirrored_geometry
    (show NoFaults circleDisk from rfl) circle_copies (fun _ => circle_links)
    (.inr (.inr (.inr (show Valid mirroredFp 3 from ⟨by decide, by decide⟩))))
  exact ⟨d', hret, hfreed.free 1 (by decide) 5 circle_way.1,
    hfreed.entries 1 (by decide) 6 (show 4 * 6 + 4 ≤ 512 * 1 by decide) circle_way.2⟩

end EponaOS.Fs
