import Mathlib.Data.List.TakeWhile
import EponaOS.Fs.Creation
import EponaOS.Fs.FatWrite
import EponaOS.Fs.FaultyTable
import EponaOS.Fs.NameCodec

/-!
# A new entry in its directory

The bytes of an entry that `fat_create` writes, and what the directory lists with it: the slot
was not listed before and is now. The sectors of the new cluster are none of the directory's.
-/

namespace EponaOS.Fs

open Bytes

variable {fp : FatPrivate} {d d' : Disk} {t : Tree} {p c x off cluster flags : Nat} {buf : Bytes}
  {name : List UInt8} {attrs : UInt8} {e : FatName} {l : List Nat}
  {slots : List (Nat × Nat)} {sectors sectors' : Nat → Bytes}

-- ---------------------------------------------------------------------------
-- The bytes of an entry
-- ---------------------------------------------------------------------------

theorem putDirent_off (h : b < off ∨ off + 32 ≤ b) : putDirent buf off name attrs cluster b = buf b := by
  rw [putDirent, setDirentCluster, putLE_off _ _ (by rw [DE_CLUSTER_LO]; omega),
    putLE_off _ _ (by rw [DE_CLUSTER_HI]; omega), setByte_ne _ _ (by rw [DE_ATTRS]; omega),
    blit_off _ _ _ (by omega), blit_off _ _ _ (by omega)]

theorem putDirent_name (hi : i < 11) : putDirent buf off name attrs cluster (off + i) = name.getD i 0 := by
  rw [putDirent, setDirentCluster, putLE_off _ _ (by rw [DE_CLUSTER_LO]; omega),
    putLE_off _ _ (by rw [DE_CLUSTER_HI]; omega), setByte_ne _ _ (by rw [DE_ATTRS]; omega),
    blit_in _ _ _ (by omega)]
  congr 1
  omega

theorem putDirent_attrs : deAttrs (putDirent buf off name attrs cluster) off = attrs := by
  rw [deAttrs, putDirent, setDirentCluster, putLE_off _ _ (by rw [DE_CLUSTER_LO, DE_ATTRS]; omega),
    putLE_off _ _ (by rw [DE_CLUSTER_HI, DE_ATTRS]; omega), setByte, if_pos rfl]

theorem setDirentCluster_cluster (buf : Bytes) (off : Nat) (h : cluster < 2 ^ 32) :
    deCluster (setDirentCluster buf off cluster) off = cluster := by
  have hp : (256 : Nat) ^ 2 = 2 ^ 16 := by decide
  rw [deCluster, setDirentCluster, getLE_putLE_same,
    getLE_putLE_off _ _ (by rw [DE_CLUSTER_LO, DE_CLUSTER_HI]; omega), getLE_putLE_same, hp]
  omega

theorem putDirent_cluster (h : cluster < 2 ^ 32) :
    deCluster (putDirent buf off name attrs cluster) off = cluster := setDirentCluster_cluster _ _ h

theorem newAttrs_shown (flags : Nat) :
    newAttrs flags ≠ FAT_ATTR_LFN ∧ newAttrs flags &&& FAT_ATTR_VOLUME = 0 := by
  rw [newAttrs]
  split <;> decide

theorem fatNameTo83_first (h : fatNameTo83 n = some e) :
    e.bytes.getD 0 0 ≠ 0 ∧ e.bytes.getD 0 0 ≠ 0xE5 := by
  obtain ⟨a, b, hgood, -, hne, -, -, -, rfl⟩ := fatNameTo83_eq_some.mp h
  obtain ⟨c, a, rfl⟩ := List.exists_cons_of_ne_nil hne
  have hc := hgood c List.mem_cons_self
  have hrange : ∀ c : UInt8, nameChar c = true → c ≠ 0 ∧ c ≠ 0xE5 := by
    intro c
    refine forall_byte (P := fun c => nameChar c = true → c ≠ 0 ∧ c ≠ 0xE5) ?_ c
    decide +kernel
  exact hrange _ hc

-- ---------------------------------------------------------------------------
-- What is listed
-- ---------------------------------------------------------------------------

def SameSlot (sectors sectors' : Nat → Bytes) (s : Nat × Nat) : Prop :=
  ∀ i < 32, sectors' s.1 (s.2 + i) = sectors s.1 (s.2 + i)

theorem SameSlot.first {s : Nat × Nat} (h : SameSlot sectors sectors' s) : sectors' s.1 s.2 = sectors s.1 s.2 :=
  h 0 (by decide)

theorem SameSlot.skipped {s : Nat × Nat} (h : SameSlot sectors sectors' s) :
    deSkipped (sectors' s.1) s.2 = deSkipped (sectors s.1) s.2 := by
  have hattrs : deAttrs (sectors' s.1) s.2 = deAttrs (sectors s.1) s.2 := h DE_ATTRS (by decide)
  rw [deSkipped, deSkipped, h.first, hattrs]

theorem liveSlots_congr (h : ∀ s ∈ slots, SameSlot sectors sectors' s) :
    liveSlots sectors' slots = liveSlots sectors slots := by
  induction slots with
  | nil => rfl
  | cons s slots ih =>
    have hs := h s List.mem_cons_self
    have hfirst := hs.first
    have hrest := ih fun x hx => h x (List.mem_cons_of_mem _ hx)
    by_cases h0 : sectors s.1 s.2 = 0
    · rw [liveSlots_end h0, liveSlots_end (hfirst.trans h0)]
    · have h0' : sectors' s.1 s.2 ≠ 0 := by
        rw [hfirst]
        exact h0
      cases hskip : deSkipped (sectors s.1) s.2 with
      | true => rw [liveSlots_skip h0 hskip, liveSlots_skip h0' (hs.skipped.trans hskip), hrest]
      | false =>
        rw [liveSlots_live h0 (by rw [hskip]; exact Bool.false_ne_true),
          liveSlots_live h0' (by rw [hs.skipped, hskip]; exact Bool.false_ne_true), hrest]

theorem mem_liveSlots {s : Nat × Nat} (h : s ∈ liveSlots sectors slots) :
    sectors s.1 s.2 ≠ 0 ∧ deSkipped (sectors s.1) s.2 = false := by
  obtain ⟨hmem, hskip⟩ := List.mem_filter.mp h
  have h0 := List.mem_takeWhile_imp hmem
  simp only [decide_eq_true_eq, Bool.not_eq_true] at h0 hskip
  exact ⟨h0, hskip⟩

theorem liveSlots_subset {s : Nat × Nat} (h : s ∈ liveSlots sectors slots) : s ∈ slots :=
  List.takeWhile_subset _ (List.mem_of_mem_filter h)

theorem free_not_listed {s : Nat × Nat} (h : freeEntry (sectors s.1) s.2 = true) :
    s ∉ liveSlots sectors slots := by
  intro hmem
  obtain ⟨h0, hskip⟩ := mem_liveSlots hmem
  rw [freeEntry, decide_eq_true_eq] at h
  obtain h | h := h
  · exact h0 h
  · rw [deSkipped, h] at hskip
    simp at hskip

theorem listed_behind {s : Nat × Nat} {pre post : List (Nat × Nat)}
    (hpre : ∀ x ∈ pre, sectors x.1 x.2 ≠ 0) (h0 : sectors s.1 s.2 ≠ 0)
    (hs : deSkipped (sectors s.1) s.2 = false) : s ∈ liveSlots sectors (pre ++ s :: post) := by
  have htake : (pre ++ s :: post).takeWhile (fun s => sectors s.1 s.2 ≠ 0) =
      pre ++ s :: post.takeWhile fun s => sectors s.1 s.2 ≠ 0 := by
    rw [List.takeWhile_append_of_pos fun x hx => decide_eq_true (hpre x hx), List.takeWhile_cons,
      if_pos (decide_eq_true h0)]
  rw [liveSlots, htake]
  refine List.mem_filter.mpr ⟨List.mem_append_right _ List.mem_cons_self, ?_⟩
  rw [hs]
  rfl

-- ---------------------------------------------------------------------------
-- Where the slots lie
-- ---------------------------------------------------------------------------

theorem ClusterSector.behind (h : ClusterSector fp c n) : fp.dataStart ≤ n := by
  have := h.1
  rw [clusterLba] at this
  omega

theorem ClusterSector.eq (hg : Geometry fp) (hc : Valid fp c) (hx : Valid fp x)
    (h : ClusterSector fp c n) (h' : ClusterSector fp x n) : c = x := by
  refine InCluster.eq (a := 512 * n) hg hc hx ?_ ?_
  · rw [InCluster, clusterAddr, hg.cluster]
    have := h.1
    have := h.2
    omega
  · rw [InCluster, clusterAddr, hg.cluster]
    have := h'.1
    have := h'.2
    omega

theorem mem_dirSlots {s : Nat × Nat} (hg : Geometry fp) (h : s ∈ dirSlots fp l) :
    ∃ c ∈ l, ClusterSector fp c s.1 ∧ s.2 % 32 = 0 ∧ s.2 < 512 := by
  obtain ⟨c, hc, hs⟩ := List.mem_flatMap.mp h
  obtain ⟨e, he, rfl⟩ := List.mem_map.mp hs
  have hlt := slot_lt hg (List.mem_range.mp he)
  exact ⟨c, hc, ⟨by omega, by omega⟩, by omega, by omega⟩

theorem FirstSlot.place (hg : Geometry fp) (hl : ∀ c ∈ l, Valid fp c)
    (h : FirstSlot P sectors (dirSlots fp l) s) : s.2.2 = sectors s.1 ∧ P s.2.2 s.2.1 = true ∧
      s.1 < 2 ^ 28 ∧ ∃ c ∈ l, ClusterSector fp c s.1 ∧ s.2.1 % 32 = 0 ∧ s.2.1 < 512 := by
  obtain ⟨pre, post, hall, hbuf, hp, -⟩ := h
  have hmem : (s.1, s.2.1) ∈ dirSlots fp l := by
    rw [hall]
    exact List.mem_append_right _ List.mem_cons_self
  obtain ⟨c, hc, hsector, hoff⟩ := mem_dirSlots hg hmem
  have hlt := clusterLba_lt hg (hl c hc)
  have hsector' := hsector.2
  exact ⟨hbuf, hp, by omega, c, hc, hsector, hoff⟩

/-- The sectors behind the table, but for those of cluster `x`, have the same bytes. -/
def DataSame (fp : FatPrivate) (x : Nat) (d d' : Disk) : Prop :=
  ∀ lba, fp.dataStart ≤ lba → ¬ ClusterSector fp x lba → ∀ i < 512, d'.sectors lba i = d.sectors lba i

theorem dataSame_of_touches {d₁ : Disk} (htable : ∀ a, ¬ InTable fp a → d₁.image a = d.image a)
    (htouch : Touches (ClusterSector fp x) d₁ d') : DataSame fp x d d' := by
  intro lba hlba hno i hi
  rw [htouch _ hno, sector_image d₁ _ hi, sector_image d _ hi, htable]
  rw [InTable]
  omega

theorem DataSame.sameSlots (h : DataSame fp x d d') (hg : Geometry fp) (hl : ∀ c ∈ l, Valid fp c)
    (hx : Valid fp x) (hxl : x ∉ l) : ∀ s ∈ dirSlots fp l, SameSlot d.sectors d'.sectors s := by
  intro s hs i hi
  obtain ⟨c, hc, hsector, hoff, hlt⟩ := mem_dirSlots hg hs
  refine h s.1 hsector.behind (fun hother => ?_) _ (by omega)
  exact hxl (hsector.eq hg (hl c hc) hx hother ▸ hc)

-- ---------------------------------------------------------------------------
-- The sectors of the new cluster
-- ---------------------------------------------------------------------------

theorem zeroSectors_touches (d : Disk) (lba s k : Nat) (hlba : lba + s + k ≤ 2 ^ 28) :
    Touches (fun n => lba + s ≤ n ∧ n < lba + s + k) d (zeroSectors lba k s d) ∧
      (zeroSectors lba k s d).faults = d.faults.drop k := by
  induction k generalizing s d with
  | zero => exact ⟨.refl _ _, rfl⟩
  | succ k ih =>
    have hmod : (lba + s) % 2 ^ 32 = lba + s := Nat.mod_eq_of_lt (by omega)
    rw [zeroSectors, hmod]
    have htouch := ataWriteSectors_touches d (show lba + s < 2 ^ 28 by omega) fun _ => 0
    have hfaults := ataWriteSectors_faults d (lba + s) fun _ => 0
    generalize (ataWriteSectors d (lba + s) fun _ => 0).2 = d₁ at htouch hfaults
    obtain ⟨hrest, hdrop⟩ := ih (s := s + 1) (d := d₁) (by omega)
    refine ⟨(htouch.mono fun n hn => ?_).trans (hrest.mono fun n hn => ?_), ?_⟩
    · omega
    · omega
    · rw [hdrop, hfaults, List.drop_tail]

theorem fillCluster_touches (hg : Geometry fp) (hx : Valid fp x) (t : Tree) (p flags : Nat) (d : Disk) :
    Touches (ClusterSector fp x) d (fillCluster fp t p flags x d) ∧
      (fillCluster fp t p flags x d).faults = d.faults.drop fp.bpb.sectorsPerCluster := by
  have hlt := clusterLba_lt hg hx
  have hpos := hg.spc_pos
  rw [fillCluster]
  dsimp only
  rw [fatClusterToLba_eq hg hx]
  split
  · generalize dotSector x _ = buf
    have htouch := ataWriteSectors_touches d (show clusterLba fp x < 2 ^ 28 by omega) buf
    have hfaults := ataWriteSectors_faults d (clusterLba fp x) buf
    generalize (ataWriteSectors d (clusterLba fp x) buf).2 = d₁ at htouch hfaults
    obtain ⟨hrest, hdrop⟩ := zeroSectors_touches d₁ (clusterLba fp x) 1
      (fp.bpb.sectorsPerCluster - 1) (by omega)
    refine ⟨(htouch.mono fun n hn => ?_).trans (hrest.mono fun n hn => ?_), ?_⟩
    · rw [ClusterSector]
      omega
    · rw [ClusterSector]
      omega
    · rw [hdrop, hfaults, ← List.drop_one, List.drop_drop]
      congr 1
      omega
  · obtain ⟨hrest, hdrop⟩ := zeroSectors_touches d (clusterLba fp x) 0
      fp.bpb.sectorsPerCluster (by omega)
    exact ⟨hrest.mono fun n hn => by rw [ClusterSector]; omega, hdrop⟩

end EponaOS.Fs
