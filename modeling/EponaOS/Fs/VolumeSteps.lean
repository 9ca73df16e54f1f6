import EponaOS.Fs.ParentLinks
import EponaOS.Fs.FatFrame
import EponaOS.Lib.VolumeOps

/-!
# The driver's calls on a volume

What `fat_create`, `fat_write` and `fat_unlink` do to the image, as operations on the volume that
it is: an entry with a new cluster, a longer chain, an entry less.
-/

namespace EponaOS.Fs

open Bytes

variable {fp : FatPrivate} {hg : Geometry fp} {d d' : Disk} {m m' : Bytes} {t t' : Tree}
  {node node' : VfsNode} {s s₀ s' : Volume.Slot} {f : FoundSlot} {st st₀ : Volume.Start}
  {l l' k : List Nat} {x c up flags fuel p : Nat} {e : FatName} {name : CStr} {ret : Int}
  {offset size : Nat} {junk buf : Bytes}

-- ---------------------------------------------------------------------------
-- Entries and their slots
-- ---------------------------------------------------------------------------

theorem direntHead_congr {a b : Nat} (h : ∀ i < 12, m' (b + i) = m (a + i)) :
    m' b = m a ∧ deSkipped m' b = deSkipped m a ∧ deName m' b = deName m a ∧
      deFlags m' b = deFlags m a := by
  have h0 : m' b = m a := h 0 (by decide)
  have hattrs : deAttrs m' b = deAttrs m a := h DE_ATTRS (by decide)
  refine ⟨h0, by rw [deSkipped, deSkipped, h0, hattrs], ?_, by rw [deFlags, deFlags, hattrs]⟩
  rw [deName, deName]
  congr 1
  · refine List.map_congr_left fun i hi => h i ?_
    have := List.mem_range.mp hi
    omega
  · refine List.map_congr_left fun i hi => ?_
    have := List.mem_range.mp hi
    rw [Nat.add_assoc, Nat.add_assoc]
    exact h (8 + i) (by omega)

theorem direntAt_congr {a b : Nat} (h : ∀ i < 32, m' (b + i) = m (a + i)) :
    direntAt m' b = direntAt m a := by
  obtain ⟨h0, hskip, hname, hflags⟩ :=
    direntHead_congr fun i hi => h i (Nat.lt_trans hi (by decide))
  have hfield : ∀ k n, k + n ≤ 32 → getLE m' (b + k) n = getLE m (a + k) n := by
    intro k n hk
    apply getLE_congr_at
    intro i hi
    rw [Nat.add_assoc, Nat.add_assoc]
    exact h _ (by omega)
  have hcluster : deCluster m' b = deCluster m a := by
    rw [deCluster, deCluster, hfield _ _ (by decide), hfield _ _ (by decide)]
  have hsize : deSize m' b = deSize m a := hfield _ _ (by decide)
  rw [direntAt, direntAt, h0, hskip, hname, hflags, hcluster, hsize]

theorem direntAt_noSize {a : Nat} (h : ∀ i < 12, m' (a + i) = m (a + i))
    (hc : deCluster m' a = deCluster m a) : (direntAt m' a).noSize = (direntAt m a).noSize := by
  obtain ⟨h0, hskip, hname, hflags⟩ := direntHead_congr h
  rw [direntAt, direntAt, h0, hskip, hname, hflags, hc]
  split
  · rfl
  · split <;> rfl

theorem slotAt_off (s : Volume.Slot) : (slotAt s).off % 32 = 0 ∧ (slotAt s).off + 32 ≤ 512 := by
  rw [Slot.off]
  omega

theorem volOf_entry (fp : FatPrivate) (d : Disk) (s : Volume.Slot) : (volOf fp d.image).entry s =
    direntAt (d.sectors ((slotAt s).lba fp)) (slotAt s).off := by
  refine direntAt_congr fun i hi => ?_
  have hoff := (slotAt_off s).2
  rw [sector_image d _ (by omega), ← Slot.addr_eq, Nat.add_assoc]

theorem dirSlots_eq (hg : Geometry fp) (l : List Nat) : dirSlots fp l =
    (Volume.slots (layout hg) l).map fun s => ((slotAt s).lba fp, (slotAt s).off) := by
  have hbytes : fp.bytesPerCluster / 32 = 16 * fp.bpb.sectorsPerCluster := by
    rw [hg.cluster]
    omega
  rw [dirSlots, Volume.slots, List.map_flatMap]
  congr 1
  funext c
  rw [clusterSlots, hbytes, List.map_map]
  refine List.map_congr_left fun i _ => ?_
  simp only [Function.comp_apply, slotAt, Slot.lba, Slot.off, Prod.mk.injEq]
  omega

theorem slotAt_sector (hs : s.2 < (layout hg).perCluster) :
    ClusterSector fp s.1 ((slotAt s).lba fp) := by
  have : s.2 < 16 * fp.bpb.sectorsPerCluster := hs
  simp only [ClusterSector, Slot.lba, slotAt]
  omega

theorem slotAt_inj (hg : Geometry fp) (hs : (layout hg).valid s.1 ∧ s.2 < (layout hg).perCluster)
    (hs' : (layout hg).valid s'.1 ∧ s'.2 < (layout hg).perCluster)
    (hlba : (slotAt s).lba fp = (slotAt s').lba fp) (hoff : (slotAt s).off = (slotAt s').off) :
    s = s' := by
  have hc : s.1 = s'.1 := ClusterSector.eq hg hs.1 hs'.1 (slotAt_sector hs.2)
    (hlba ▸ slotAt_sector hs'.2)
  simp only [Slot.lba, Slot.off, slotAt, hc] at hlba hoff
  exact Prod.ext hc (by omega)

theorem FatChain.first_valid (h : FatChain fp m c l) (hne : l ≠ []) : Valid fp c := by
  obtain ⟨- | ⟨-, -⟩, hv⟩ := h
  · exact absurd rfl hne
  · exact hv _ List.mem_cons_self

-- ---------------------------------------------------------------------------
-- A new entry
-- ---------------------------------------------------------------------------

theorem deName_putDirent (hname : fatNameTo83 name = some e) {buf : Bytes} {off : Nat}
    {attrs : UInt8} : deName (putDirent buf off e.bytes attrs c) off = e := by
  obtain ⟨a, b, -, -, -, ha, hb, -, rfl⟩ := fatNameTo83_eq_some.mp hname
  have hbyte : ∀ i < 11, putDirent buf off (FatName.bytes ⟨pad 8 (a.map upperCase),
      pad 3 (b.map upperCase)⟩) attrs c (off + i) = _ := fun i hi => putDirent_name hi
  have hlen : (pad 8 (a.map upperCase)).length = 8 := by
    rw [pad, List.length_append, List.length_replicate, List.length_map]
    omega
  have hlen' : (pad 3 (b.map upperCase)).length = 3 := by
    rw [pad, List.length_append, List.length_replicate, List.length_map]
    omega
  rw [deName]
  congr 1
  · refine List.ext_getElem (by simp [hlen]) fun i hi hi' => ?_
    rw [List.getElem_map, List.getElem_range, hbyte i (by simp at hi; omega), FatName.bytes,
      List.getD_eq_getElem?_getD, List.getElem?_append_left (by omega),
      List.getElem?_eq_getElem hi', Option.getD_some]
  · refine List.ext_getElem (by simp [hlen']) fun i hi hi' => ?_
    have hi3 : 8 + i < 11 := by
      rw [List.length_map, List.length_range] at hi
      omega
    rw [List.getElem_map, List.getElem_range, Nat.add_assoc, hbyte (8 + i) hi3, FatName.bytes,
      List.getD_eq_getElem?_getD,
      List.getElem?_append_right (hlen.le.trans (Nat.le_add_right 8 i)), hlen,
      Nat.add_sub_cancel_left, List.getElem?_eq_getElem hi', Option.getD_some]

theorem putDirent_size {buf : Bytes} {off : Nat} {n : List UInt8} {attrs : UInt8} :
    deSize (putDirent buf off n attrs c) off = 0 := by
  have hzero : ∀ i < 4, putDirent buf off n attrs c (off + DE_SIZE + i) = 0 := by
    intro i hi
    rw [putDirent, setDirentCluster, putLE_off _ _ (by rw [DE_CLUSTER_LO, DE_SIZE]; omega),
      putLE_off _ _ (by rw [DE_CLUSTER_HI, DE_SIZE]; omega),
      setByte_ne _ _ (by rw [DE_ATTRS, DE_SIZE]; omega), blit_off _ _ _ (by rw [DE_SIZE]; omega),
      blit_in _ _ _ (by rw [DE_SIZE]; omega)]
  rw [deSize, getLE_digits (v := 0) fun i hi => ?_]
  · rfl
  · rw [hzero i hi, Nat.zero_div]
    rfl

theorem fatNameTo83_not_dots (h : fatNameTo83 name = some e) : isDots e = false := by
  obtain ⟨a, b, hgood, -, hne, -, -, -, rfl⟩ := fatNameTo83_eq_some.mp h
  obtain ⟨c, a, rfl⟩ := List.exists_cons_of_ne_nil hne
  have hc := (nameChar_ne (hgood c List.mem_cons_self)).2.2
  rw [isDots, decide_eq_false_iff_not]
  rintro (h | h) <;>
    · rw [FatName.bytes, pad, List.map_cons, List.cons_append, List.cons_append] at h
      exact hc (List.cons.inj h).1

theorem direntAt_entryBuf (hname : fatNameTo83 name = some e) (hx : x < 2 ^ 32)
    (hflags : flags = VFS_FILE ∨ flags = VFS_DIR) (f : FoundSlot) :
    direntAt (entryBuf e flags f x) f.2.1 = .live e (flags = VFS_DIR) x 0 := by
  obtain ⟨hf0, hfE5⟩ := fatNameTo83_first hname
  obtain ⟨hlfn, hvolume⟩ := newAttrs_shown flags
  have hfirst : entryBuf e flags f x f.2.1 = e.bytes.getD 0 0 := by
    have hname : entryBuf e flags f x (f.2.1 + 0) = e.bytes.getD 0 0 := putDirent_name (by decide)
    rwa [Nat.add_zero] at hname
  have hattrs : deAttrs (entryBuf e flags f x) f.2.1 = newAttrs flags := putDirent_attrs
  have hskip : deSkipped (entryBuf e flags f x) f.2.1 = false := by
    rw [deSkipped, hattrs, hfirst]
    simp only [hfE5, hlfn, hvolume, ne_eq, not_true_eq_false, or_false, decide_false]
  have hdir : deFlags (entryBuf e flags f x) f.2.1 = VFS_DIR ↔ flags = VFS_DIR := by
    rw [deFlags, hattrs]
    obtain rfl | rfl := hflags <;> decide
  have hnm : deName (entryBuf e flags f x) f.2.1 = e := deName_putDirent hname
  have hcl : deCluster (entryBuf e flags f x) f.2.1 = x := putDirent_cluster hx
  have hsz : deSize (entryBuf e flags f x) f.2.1 = 0 := putDirent_size
  rw [direntAt, hfirst, if_neg hf0, hskip, hnm, fatNameTo83_not_dots hname,
    if_neg (by decide), hcl, hsz]
  congr 1
  exact decide_eq_decide.mpr hdir

theorem NewEntry.newDir_entry (hg : Geometry fp) (h : NewEntry fp l f x up flags e d d')
    (hdir : flags &&& VFS_DIR ≠ 0) (hx : s.1 = x) (hs : s.2 < (layout hg).perCluster) :
    (volOf fp d'.image).entry s = if s.2 < 2 then .skipped else .last := by
  have hsector : ClusterSector fp x ((slotAt s).lba fp) := hx ▸ slotAt_sector hs
  have hin := slotAt_sector hs
  rw [volOf_entry]
  by_cases h16 : s.2 < 16
  · -- the slot is in the first sector
    have hlba : (slotAt s).lba fp = clusterLba fp x := by
      simp only [Slot.lba, slotAt, hx]
      omega
    have hoff : (slotAt s).off = 32 * s.2 := by
      simp only [Slot.off, slotAt]
      omega
    have hdots : HasDots fp d' x up := fun i _ => congrFun (h.dots hdir) i
    rw [hlba, hoff]
    by_cases h2 : s.2 < 2
    · rw [if_pos h2, direntAt]
      obtain h0 | h1 : s.2 = 0 ∨ s.2 = 1 := by omega
      · rw [h0, Nat.mul_zero, hdots.dot.first, if_neg (by decide), hdots.dot.name,
          if_pos (.inr rfl)]
      · rw [h1, Nat.mul_one, hdots.dotdot.first, if_neg (by decide), hdots.dotdot.name,
          if_pos (.inr rfl)]
    · rw [if_neg h2, direntAt, h.dots hdir, dotSector, putDirent_off (by omega),
        putDirent_off (by omega), if_pos rfl]
  · rw [if_neg (by omega), direntAt, h.zeros hdir _ ?_ hsector, if_pos rfl]
    simp only [Slot.lba, slotAt, hx]
    omega

theorem FirstSlot.slot {P : Bytes → Nat → Bool} {sectors : Nat → Bytes} (hg : Geometry fp)
    (h : FirstSlot P sectors (dirSlots fp l) f) : ∃ s₀ pre post,
      Volume.slots (layout hg) l = pre ++ s₀ :: post ∧ (slotAt s₀).lba fp = f.1 ∧
      (slotAt s₀).off = f.2.1 ∧
      ∀ s ∈ pre, P (sectors ((slotAt s).lba fp)) (slotAt s).off = false := by
  obtain ⟨pre, post, hall, -, -, hpre⟩ := h
  rw [dirSlots_eq hg] at hall
  obtain ⟨pre', rest, hsplit, hmap, hrest⟩ := List.map_eq_append_iff.mp hall
  obtain ⟨s₀, post', rfl, hs₀, -⟩ := List.map_eq_cons_iff.mp hrest
  refine ⟨s₀, pre', post', hsplit, congrArg Prod.fst hs₀, congrArg Prod.snd hs₀, fun s hs => ?_⟩
  exact hpre _ (hmap ▸ List.mem_map_of_mem hs)

theorem NewEntry.created (h : NewEntry fp l f x up flags e d d') (hname : fatNameTo83 name = some e)
    (hflags : flags = VFS_FILE ∨ flags = VFS_DIR) (hl : FatChain fp d.image c l)
    (hs₀ : s₀ ∈ Volume.slots (layout hg) l) (hlba : (slotAt s₀).lba fp = f.1)
    (hoff : (slotAt s₀).off = f.2.1) : Volume.Created (layout hg) (volOf fp d.image)
      (volOf fp d'.image) s₀ (.live e (flags = VFS_DIR) x 0) x := by
  obtain ⟨hvalid, hfree⟩ := mem_freeClusters.mp h.free
  have hdir : flags = VFS_DIR → flags &&& VFS_DIR ≠ 0 := by
    rintro rfl
    decide
  obtain ⟨hmem, hlt⟩ := Volume.mem_slots.mp hs₀
  have hok : (layout hg).valid s₀.1 := hl.2 _ hmem
  have hx : x < 2 ^ 32 := by
    have := hvalid.lt_eoc hg
    rw [FAT_EOC] at this
    omega
  refine ⟨rfl, rfl, hvalid, hfree, ?_, fun y hy hne => ?_, ?_, fun s hs hs' hne hss => ?_,
    fun hd s hs => ?_, fun hd => ?_⟩
  · show FAT_EOC ≤ fatEntry fp d'.image x
    rw [h.entry x hvalid, if_pos rfl]
  · exact (h.entry y hy).trans (if_neg hne)
  · rw [volOf_entry, hlba, hoff, h.slot, direntAt_entryBuf hname hx hflags]
  · rw [volOf_entry, volOf_entry]
    refine direntAt_congr fun i hi => h.data _ (slotAt_sector hs').behind (fun hin => ?_) _ ?_ ?_
    · exact hne ((slotAt_sector hs').eq hg hs hvalid hin)
    · have := (slotAt_off s).2
      omega
    · intro heq
      have hne' : (slotAt s).off ≠ f.2.1 := fun ho =>
        hss (slotAt_inj hg ⟨hs, hs'⟩ ⟨hok, hlt⟩ (heq.trans hlba.symm) (ho.trans hoff.symm))
      have h1 := (slotAt_off s).1
      have h2 := (slotAt_off s₀).1
      omega
  · obtain ⟨hs, hs'⟩ := Volume.mem_slots.mp hs
    rw [h.newDir_entry hg (hdir (of_decide_eq_true hd)) (List.mem_singleton.mp hs) hs']
    split <;> rfl
  · have hlast : ∀ s ∈ Volume.slots (layout hg) [x],
        (volOf fp d'.image).entry s = if s.2 < 2 then .skipped else .last := by
      intro s hs
      obtain ⟨hs, hs'⟩ := Volume.mem_slots.mp hs
      exact h.newDir_entry hg (hdir (of_decide_eq_true hd)) (List.mem_singleton.mp hs) hs'
    have hsorted : (Volume.slots (layout hg) [x]).Pairwise fun s s' => s.2 < s'.2 := by
      rw [Volume.slots, List.flatMap_singleton, List.pairwise_map]
      exact List.pairwise_lt_range
    refine hsorted.imp_of_mem fun hs hs' hlt hl => ?_
    rw [hlast _ hs] at hl
    rw [hlast _ hs']
    split at hl
    · cases hl
    · rw [if_neg (by omega)]

theorem NewEntry.freeSlot (h : NewEntry fp l f x up flags e d d')
    (hst : Volume.Reached (layout hg) (volOf fp d.image) st)
    (hdir : (volOf fp d.image).isDir st = true)
    (hl : FatChain fp d.image ((volOf fp d.image).first (layout hg) st) l) :
    ∃ s₀, (slotAt s₀).lba fp = f.1 ∧ (slotAt s₀).off = f.2.1 ∧
      s₀ ∈ Volume.slots (layout hg) l ∧
      Volume.FreeSlot (layout hg) (volOf fp d.image) st s₀ := by
  obtain ⟨s₀, pre, post, hsplit, hlba, hoff, hpre⟩ := h.first.slot hg
  have hmem : s₀ ∈ Volume.slots (layout hg) l := by
    rw [hsplit]
    exact List.mem_append_right _ List.mem_cons_self
  obtain ⟨hbuf, hfree, -⟩ := h.first.place hg hl.2
  refine ⟨s₀, hlba, hoff, hmem, .of_chain hst hdir hl hmem, ?_, l, pre, post, hl, hsplit,
    fun s hs hlast => ?_⟩
  · rw [volOf_entry, hlba, hoff, ← hbuf, direntAt]
    rw [freeEntry, decide_eq_true_eq] at hfree
    obtain h0 | h0 := hfree
    · rw [if_pos h0]
      rfl
    · rw [if_neg (by rw [h0]; decide), if_pos (.inl (by rw [deSkipped, h0]; simp))]
      rfl
  · have hused := hpre s hs
    rw [freeEntry, decide_eq_false_iff_not] at hused
    rw [volOf_entry, direntAt, if_neg fun h0 => hused (.inl h0)] at hlast
    split at hlast <;> cases hlast

-- ---------------------------------------------------------------------------
-- An entry less
-- ---------------------------------------------------------------------------

theorem fatFree_chain (hg : Geometry fp) (hd : NoFaults d) (hl : FatChain fp d.image c l)
    (h : fatFreeClusterChain fp fuel c d = some d') : NoFaults d' ∧
      (∀ x, Valid fp x → fatEntry fp d'.image x = if x ∈ l then 0 else fatEntry fp d.image x) ∧
      ∀ a, ¬ InTable fp a → d'.image a = d.image a := by
  have hnd := hl.nodup
  induction l generalizing fuel c d with
  | nil =>
    obtain ⟨⟨hs⟩ | -, -⟩ := hl
    cases fuel with
    | zero => cases h
    | succ fuel =>
      rw [fatFreeClusterChain, if_neg fun hc => absurd hs (Nat.not_le.mpr hc.2)] at h
      cases h
      exact ⟨hd, fun x _ => (if_neg List.not_mem_nil).symm, fun _ _ => rfl⟩
  | cons y l ih =>
    obtain ⟨- | ⟨hns, hchain⟩, hvalid⟩ := hl
    cases fuel with
    | zero => cases h
    | succ fuel =>
      have hc := hvalid y List.mem_cons_self
      obtain ⟨hcl, hnd'⟩ := List.nodup_cons.mp hnd
      rw [fatFreeClusterChain, if_pos ⟨hc.1, hc.lt_eoc hg⟩] at h
      obtain ⟨d₁, hset, hd₁, hentry⟩ := fatSetCluster_spec hg hd hc.2 0
      rw [fatNextCluster_eq hg hd hc.2] at h
      dsimp only at h
      rw [hset] at h
      -- the rest of the chain does not lead through `y`
      have hrest : FatChain fp d₁.image (fatEntry fp d.image y) l := by
        refine FatChain.congr (m := d.image) ⟨hchain, fun x hx => hvalid x
          (List.mem_cons_of_mem _ hx)⟩ fun x hx => ?_
        rw [hentry.entry x (hvalid x (List.mem_cons_of_mem _ hx)),
          if_neg fun heq : x = y => hcl (heq ▸ hx)]
      obtain ⟨hd', hfree, hout⟩ := ih hd₁ hrest h hnd'
      refine ⟨hd', fun x hx => ?_, fun a ha => (hout a ha).trans (hentry.other a ha)⟩
      rw [hfree x hx, hentry.entry x hx]
      by_cases hxl : x ∈ l
      · rw [if_pos hxl, if_pos (List.mem_cons_of_mem _ hxl)]
      · by_cases hxy : x = y
        · rw [if_neg hxl, if_pos hxy, if_pos (hxy ▸ List.mem_cons_self)]
          rfl
        · rw [if_neg hxl, if_neg hxy, if_neg fun hmem => ?_]
          exact (List.mem_cons.mp hmem).elim hxy hxl

theorem unlinkVisit_endsAt (fp : FatPrivate) (fuel : Nat) (e : FatName) :
    EndsAt (fun buf off => decide (LastOrNamed e buf off)) (unlinkVisit fp fuel e)
      fun f d => unlinkAct fp fuel f.1 f.2.1 f.2.2 d where
  fits lba off buf d h := by rw [unlinkVisit_eq, if_pos (of_decide_eq_true h)]
  goesOn lba off buf d h := by rw [unlinkVisit_eq, if_neg (of_decide_eq_false h)]

/-- What `fat_unlink` makes of the end of its walk. -/
def unlinked : Option Int × Disk → Option (Int × Disk)
  | (none, _) => none
  | (some ret, d) => some (ret, d)

theorem fatUnlink_find (hname : fatNameTo83 name = some e) (fuel p : Nat) (t : Tree) (d : Disk) :
    fatUnlink fp fuel p name t d =
      ((dirFind fp (fun buf off => decide (LastOrNamed e buf off)) fuel (t.cluster p) d).map
        (afterFind (fun f d => unlinkAct fp fuel f.1 f.2.1 f.2.2 d) (some (-1)))).bind
          unlinked := by
  rw [← dirWalk_find (unlinkVisit_endsAt fp fuel e), fatUnlink, hname]
  dsimp only
  rcases dirWalk fp (fun _ => some (-1)) (unlinkVisit fp fuel e) fuel (t.cluster p) () d with
    _ | ⟨(_ | _) | _, d₁⟩ <;> rfl

theorem image_setByte (d : Disk) (lba : Nat) {off : Nat} (v : UInt8) (hoff : off < 512) :
    blit d.image (512 * lba) 512 (setByte (d.sectors lba) off v) 0 =
      setByte d.image (512 * lba + off) v := by
  funext a
  by_cases ha : 512 * lba ≤ a ∧ a < 512 * lba + 512
  · rw [blit_in _ _ _ ha]
    by_cases hv : a = 512 * lba + off
    · rw [hv, setByte_same, show 0 + (512 * lba + off - 512 * lba) = off by omega, setByte_same]
    · rw [setByte_ne _ _ hv, setByte_ne _ _ (by omega), sector_image d lba (by omega)]
      congr 1
      omega
  · rw [blit_off _ _ _ (by omega), setByte_ne _ _ (by omega)]

/-- Without errors `fat_unlink` changes nothing and fails, or marks the first entry of the name as
deleted and frees its chain. -/
theorem fatUnlink_cases (hg : Geometry fp) (hd : NoFaults d)
    (hl : FatChain fp d.image (t.cluster p) l) (h : fatUnlink fp fuel p name t d = some (ret, d')) :
    (ret = -1 ∧ NoFaults d' ∧ d'.image = d.image) ∨ ∃ e f d₁, fatNameTo83 name = some e ∧
      FirstSlot (fun buf off => decide (LastOrNamed e buf off)) d.sectors (dirSlots fp l) f ∧
      d.sectors f.1 f.2.1 ≠ 0 ∧ ret = 0 ∧ NoFaults d₁ ∧
      d₁.image = setByte d.image (512 * f.1 + f.2.1) 0xE5 ∧
      if 2 ≤ deCluster (d.sectors f.1) f.2.1 ∧ deCluster (d.sectors f.1) f.2.1 < FAT_EOC then
        fatFreeClusterChain fp fuel (deCluster (d.sectors f.1) f.2.1) d₁ = some d'
      else d' = d₁ := by
  cases hname : fatNameTo83 name with
  | none =>
    rw [fatUnlink, hname] at h
    cases h
    exact .inl ⟨rfl, hd, rfl⟩
  | some e =>
    rw [fatUnlink_find hname] at h
    obtain ⟨r, hr, hret⟩ := Option.bind_eq_some_iff.mp h
    obtain ⟨⟨o, d₀⟩, hfind, rfl⟩ := Option.map_eq_some_iff.mp hr
    obtain ⟨hreads, hfirst⟩ := dirFind_spec hg hl hfind
    obtain rfl := hreads.eq hd
    cases o with
    | none =>
      cases hret
      exact .inl ⟨rfl, hd, rfl⟩
    | some f =>
      obtain ⟨hbuf, -, hlt, -, -, -, -, hoff⟩ := (hfirst f rfl).place hg hl.2
      rw [afterFind, hbuf, unlinkAct] at hret
      by_cases h0 : d₀.sectors f.1 f.2.1 = 0
      · -- the end of the directory: its sector is written back as it is
        obtain ⟨d₁, hw, hd₁, him⟩ := ataWriteSectors_eq hd hlt (d₀.sectors f.1)
        rw [if_pos h0, hw] at hret
        cases hret
        exact .inl ⟨rfl, hd₁, him.trans (blit_sector d₀ f.1)⟩
      · obtain ⟨d₁, hw, hd₁, him⟩ := ataWriteSectors_eq hd hlt (setByte (d₀.sectors f.1) f.2.1 0xE5)
        rw [image_setByte d₀ f.1 _ hoff] at him
        rw [if_neg h0, hw] at hret
        dsimp only at hret
        refine .inr ⟨e, f, d₁, rfl, hfirst f rfl, h0, ?_⟩
        by_cases hc : 2 ≤ deCluster (d₀.sectors f.1) f.2.1 ∧
          deCluster (d₀.sectors f.1) f.2.1 < FAT_EOC
        · rw [if_pos hc] at hret ⊢
          cases hfree : fatFreeClusterChain fp fuel (deCluster (d₀.sectors f.1) f.2.1) d₁ with
          | none =>
            rw [hfree] at hret
            cases hret
          | some d₂ =>
            rw [hfree] at hret
            cases hret
            exact ⟨rfl, hd₁, him, rfl⟩
        · rw [if_neg hc] at hret ⊢
          cases hret
          exact ⟨rfl, hd₁, him, rfl⟩

theorem direntAt_named {buf : Bytes} {off : Nat} (hname : fatNameTo83 name = some e)
    (h0 : buf off ≠ 0) (h : LastOrNamed e buf off) : direntAt buf off =
      .live e (deFlags buf off = VFS_DIR) (deCluster buf off) (deSize buf off) := by
  obtain h | ⟨hskip, hnamed⟩ := h
  · exact absurd h h0
  · rw [direntAt, if_neg h0, hskip, hnamed, fatNameTo83_not_dots hname, if_neg (by decide)]

theorem unlink_removed (hs : Volume.Owned (layout hg) (volOf fp d.image))
    (hst : Volume.Reached (layout hg) (volOf fp d.image) st)
    (hdir : (volOf fp d.image).isDir st = true)
    (hl : FatChain fp d.image ((volOf fp d.image).first (layout hg) st) l)
    (hname : fatNameTo83 name = some e)
    (hfirst : FirstSlot (fun buf off => decide (LastOrNamed e buf off)) d.sectors (dirSlots fp l) f)
    (h0 : d.sectors f.1 f.2.1 ≠ 0) {d₁ : Disk} (hd₁ : NoFaults d₁)
    (him : d₁.image = setByte d.image (512 * f.1 + f.2.1) 0xE5)
    (hfree : if 2 ≤ deCluster (d.sectors f.1) f.2.1 ∧ deCluster (d.sectors f.1) f.2.1 < FAT_EOC then
        fatFreeClusterChain fp fuel (deCluster (d.sectors f.1) f.2.1) d₁ = some d'
      else d' = d₁) :
    NoFaults d' ∧ ∃ s₀ l₀, (slotAt s₀).lba fp = f.1 ∧ (slotAt s₀).off = f.2.1 ∧
      Volume.InDir (layout hg) (volOf fp d.image) st s₀ ∧
      ((volOf fp d.image).entry s₀).name = some e ∧
      Volume.Holds (layout hg) (volOf fp d.image) s₀ l₀ ∧
      Volume.Removed (layout hg) (volOf fp d.image) (volOf fp d'.image) s₀ l₀ := by
  obtain ⟨s₀, pre, post, hsplit, hlba, hoff, -⟩ := hfirst.slot hg
  obtain ⟨hbuf, hnamed, -⟩ := hfirst.place hg hl.2
  rw [hbuf, decide_eq_true_eq] at hnamed
  have hmem : s₀ ∈ Volume.slots (layout hg) l := by
    rw [hsplit]
    exact List.mem_append_right _ List.mem_cons_self
  have hin : Volume.InDir (layout hg) (volOf fp d.image) st s₀ := .of_chain hst hdir hl hmem
  have hentry : (volOf fp d.image).entry s₀ = .live e (deFlags (d.sectors f.1) f.2.1 = VFS_DIR)
      (deCluster (d.sectors f.1) f.2.1) (deSize (d.sectors f.1) f.2.1) := by
    rw [volOf_entry, hlba, hoff]
    exact direntAt_named hname h0 hnamed
  have hreached : Volume.Reached (layout hg) (volOf fp d.image) (.entry s₀) :=
    hin.entry (by rw [hentry]; rfl)
  have hcluster : (volOf fp d.image).first (layout hg) (.entry s₀) =
      deCluster (d.sectors f.1) f.2.1 := by
    rw [Volume.State.first, hentry]
    rfl
  -- the mark is a byte of a data cluster
  have haddr : 512 * f.1 + f.2.1 = (slotAt s₀).addr fp := by rw [← hlba, ← hoff, Slot.addr_eq]
  have hdata : ¬ InTable fp (512 * f.1 + f.2.1) := by
    have h := Slot.in_cluster hg (s := slotAt s₀) hin.valid (k := 0) (by decide)
    rw [haddr]
    exact h.not_table
  have htable : ∀ x, Valid fp x → fatEntry fp d₁.image x = fatEntry fp d.image x := by
    intro x hx
    refine fatEntry_congr fun i hi => ?_
    rw [him, setByte_ne]
    intro heq
    exact hdata (heq ▸ fatAddr_table hg hx hi)
  have hfreed : ∃ l₀, NoFaults d' ∧ Volume.Holds (layout hg) (volOf fp d.image) s₀ l₀ ∧
      (∀ x, Valid fp x → fatEntry fp d'.image x = if x ∈ l₀ then 0 else fatEntry fp d.image x) ∧
      ∀ a, ¬ InTable fp a → d'.image a = d₁.image a := by
    obtain ⟨-, hzero⟩ | ⟨l₀, hne, hl₀⟩ := hs.chain _ hreached
    · rw [hcluster] at hzero
      rw [hzero, if_neg (by decide)] at hfree
      subst hfree
      refine ⟨[], hd₁, ⟨hreached, fun k hk => ?_, fun x hx => absurd hx List.not_mem_nil⟩,
        fun x hx => ?_, fun a _ => rfl⟩
      · rw [hcluster, hzero] at hk
        exact absurd rfl hk.ne_zero
      · rw [if_neg List.not_mem_nil, htable x hx]
    · have hl₁ := hl₀
      rw [hcluster] at hl₁
      have hvalid : Valid fp (deCluster (d.sectors f.1) f.2.1) := FatChain.first_valid hl₁ hne
      rw [if_pos ⟨hvalid.1, hvalid.lt_eoc hg⟩] at hfree
      have hl₂ : FatChain fp d₁.image (deCluster (d.sectors f.1) f.2.1) l₀ :=
        FatChain.congr (m := d.image) hl₁ fun x hx => htable x (hl₁.2 x hx)
      obtain ⟨hd', hzero, hout⟩ := fatFree_chain hg hd₁ hl₂ hfree
      refine ⟨l₀, hd', ⟨hreached, fun k hk => hk.unique hl₀, fun _ _ => hl₀⟩, fun x hx => ?_, hout⟩
      rw [hzero x hx, htable x hx]
  obtain ⟨l₀, hd', hholds, hclear, hout⟩ := hfreed
  refine ⟨hd', s₀, l₀, hlba, hoff, hin, by rw [hentry]; rfl, hholds, ?_, fun x hx => ?_,
    fun x hx hxl => ?_, fun s hs hs' hne => ?_⟩
  · show direntAt d'.image ((slotAt s₀).addr fp) = .skipped
    have hbyte : d'.image ((slotAt s₀).addr fp) = 0xE5 := by
      rw [← haddr, hout _ hdata, him, setByte_same]
    have hskip : deSkipped d'.image ((slotAt s₀).addr fp) = true := by
      rw [deSkipped, hbyte, decide_eq_true_eq]
      exact .inl rfl
    rw [direntAt, hbyte, if_neg (by decide), if_pos (.inl hskip)]
  · exact (hclear x ((hholds.mem x hx).2 x hx)).trans (if_pos hx)
  · exact (hclear x hx).trans (if_neg hxl)
  · refine direntAt_congr fun i hi => ?_
    have hin' := Slot.in_cluster hg (s := slotAt s) ⟨hs, hs'⟩ hi
    rw [hout _ hin'.not_table, him, setByte_ne]
    rw [haddr]
    intro heq
    refine hne (slotAt_inj hg ⟨hs, hs'⟩ hin.valid ?_ ?_)
    all_goals
      have h1 := Slot.addr_eq fp (slotAt s)
      have h2 := Slot.addr_eq fp (slotAt s₀)
      have h3 := slotAt_off s
      have h4 := slotAt_off s₀
      omega

-- ---------------------------------------------------------------------------
-- A longer chain
-- ---------------------------------------------------------------------------

/-- What a write leaves: the chain of the entry `s₀` may have grown from `l` to `l'`, and outside of
it, of the table and of the entry no byte is other than before. -/
structure WriteEffect (hg : Geometry fp) (s₀ : Volume.Slot) (l l' : List Nat) (d d' : Disk) :
    Prop where
  noFaults : NoFaults d'
  written : Volume.Written (layout hg) (volOf fp d.image) (volOf fp d'.image) (.entry s₀) l l'
  other : ∀ a, ¬ InTable fp a → (∀ x ∈ l', ¬ InCluster fp x a) →
    a < (slotAt s₀).addr fp ∨ (slotAt s₀).addr fp + 32 ≤ a → d'.image a = d.image a

theorem WriteEffect.of_grown (hin : Volume.InDir (layout hg) (volOf fp d.image) st s₀)
    (hd' : NoFaults d')
    (hgrown : Grown fp ((volOf fp d.image).first (layout hg) (.entry s₀)) d.image d'.image l l')
    (hoff : s₀.1 ∉ l')
    (hout : ∀ a, ¬ InTable fp a → (∀ x ∈ l', ¬ InCluster fp x a) →
      a < (slotAt s₀).addr fp ∨ (slotAt s₀).addr fp + 32 ≤ a → d'.image a = d.image a)
    (hhead : ∀ i < 12, d'.image ((slotAt s₀).addr fp + i) = d.image ((slotAt s₀).addr fp + i))
    (hcluster : deCluster d'.image ((slotAt s₀).addr fp) =
      deCluster d.image ((slotAt s₀).addr fp)) :
    WriteEffect hg s₀ l l' d d' where
  noFaults := hd'
  other := hout
  written :=
    { chain := hgrown.chain
      pre := hgrown.pre
      fresh := hgrown.fresh
      next := hgrown.entry
      entry := fun s hs hs' hsl => by
        by_cases hss : s = s₀
        · subst hss
          exact .inr ⟨rfl, direntAt_noSize hhead hcluster⟩
        · refine .inl (direntAt_congr fun i hi => ?_)
          have hin' := Slot.in_cluster hg (s := slotAt s) ⟨hs, hs'⟩ hi
          refine hout _ hin'.not_table (fun x hx hx' => ?_) ?_
          · exact hsl (hx'.eq hg (hgrown.chain.2 x hx) hs hin' ▸ hx)
          · by_contra hno
            refine hss (slotAt_inj hg ⟨hs, hs'⟩ hin.valid ?_ ?_)
            all_goals
              have h1 := Slot.addr_eq fp (slotAt s)
              have h2 := Slot.addr_eq fp (slotAt s₀)
              have h3 := slotAt_off s
              have h4 := slotAt_off s₀
              omega }

/-- `fat_write` through a node that agrees with its entry. -/
theorem fatWrite_effect (hg : Geometry fp) (hd : NoFaults d)
    (hs : Volume.Owned (layout hg) (volOf fp d.image))
    (hin : Volume.InDir (layout hg) (volOf fp d.image) st s₀)
    (hlive : ((volOf fp d.image).entry s₀).isLive = true)
    (hfile : (volOf fp d.image).isDir (.entry s₀) = false) (hat : node.At fp (slotAt s₀))
    (hc : node.cluster = (volOf fp d.image).first (layout hg) (.entry s₀))
    (hne : size = 0 ∨ node.cluster ≠ 0)
    (h : fatWrite fp junk fuel node offset size buf d = some (ret, node', d')) :
    (∃ n, node' = { node with size := n }) ∧ (d' = d ∨ ∃ l l',
      FatChain fp d.image ((volOf fp d.image).first (layout hg) (.entry s₀)) l ∧
        WriteEffect hg s₀ l l' d d') := by
  by_cases h0 : size = 0
  · rw [fatWrite, if_pos h0] at h
    cases h
    exact ⟨⟨node.size, rfl⟩, .inl rfl⟩
  have hreached := hin.entry hlive
  obtain ⟨l, hnil, hl⟩ : ∃ l, l ≠ [] ∧
      FatChain fp d.image ((volOf fp d.image).first (layout hg) (.entry s₀)) l := by
    obtain ⟨-, hzero⟩ | hl := hs.chain _ hreached
    · rw [← hc] at hzero
      exact absurd hzero (hne.resolve_left h0)
    · exact hl
  have hl' := hl
  rw [← hc] at hl'
  -- the result does not depend on the fuel
  obtain ⟨N, hN⟩ := (fatWrite_mono fp junk node offset size buf d).returns h
  obtain ⟨done, room, d₁, l', he, hd₁, hgrown, hout, -⟩ := fatWrite_spec hg hd hl' hnil
    (Nat.pos_of_ne_zero h0) (show offset + size < N + offset + size + 1 by omega) junk buf
  have hret := he.symm.trans (hN _ (by omega))
  have hsl : s₀.1 ∉ l := by
    obtain ⟨hst, hdir, k, hk, hsk⟩ := hin
    intro hmem
    obtain rfl := hs.apart _ _ _ _ _ hst hreached hk hl (Volume.mem_slots.mp hsk).1 hmem
    rw [hfile] at hdir
    cases hdir
  have hoff : s₀.1 ∉ l' := fun hmem => hin.next_ne_zero (hgrown.fresh _ hmem hsl)
  have hgrown' := hgrown.toGrown
  rw [hc] at hgrown'
  have hslot : ∀ i < 32,
      d₁.image ((slotAt s₀).addr fp + i) = d.image ((slotAt s₀).addr fp + i) := by
    intro i hi
    have hin' := Slot.in_cluster hg (s := slotAt s₀) hin.valid hi
    exact hout _ hin'.not_table fun x hx hx' =>
      hoff (hx'.eq hg (hgrown.chain.2 x hx) hin.valid.1 hin' ▸ hx)
  have hfield : ∀ k n, k + n ≤ 32 → getLE d₁.image ((slotAt s₀).addr fp + k) n =
      getLE d.image ((slotAt s₀).addr fp + k) n := by
    intro k n hk
    apply getLE_congr_at
    intro i hi
    rw [Nat.add_assoc]
    exact hslot _ (by omega)
  have hcluster :
      deCluster d₁.image ((slotAt s₀).addr fp) = deCluster d.image ((slotAt s₀).addr fp) := by
    rw [deCluster, deCluster, hfield _ _ (by decide), hfield _ _ (by decide)]
  have hdata : WriteEffect hg s₀ l l' d d₁ :=
    .of_grown hin hd₁ hgrown' hoff (fun a ha hx _ => hout a ha hx)
      (fun i hi => hslot i (Nat.lt_trans hi (by decide))) hcluster
  cases room with
  | false =>
    cases hret
    exact ⟨⟨node.size, rfl⟩, .inr ⟨l, l', hl, hdata⟩⟩
  | true =>
    obtain ⟨d₂, hup, hd₂, him⟩ := fatUpdateDirentSize_spec hg hd₁ (s := slotAt s₀) hin.valid
      ((fatWritten_at node offset done (slotAt s₀)).mpr hat)
    rw [if_pos rfl, hup] at hret
    cases hret
    dsimp only
    have hsize : ∃ n, fatWritten node offset done = { node with size := n } := by
      rw [fatWritten]
      split
      · exact ⟨_, rfl⟩
      · exact ⟨node.size, rfl⟩
    have hput : ∀ a, a < (slotAt s₀).addr fp + 20 ∨ (slotAt s₀).addr fp + 32 ≤ a →
        d₂.image a = d₁.image a := by
      intro a ha
      rw [him, setDirent_off _ _ _ _ ha]
    refine ⟨hsize, .inr ⟨l, l', hl, .of_grown hin hd₂ ?_ hoff (fun a ha hx hsa => ?_)
      (fun i hi => ?_) ?_⟩⟩
    · refine hgrown'.of_table hg fun a ha => hput a ?_
      by_contra hno
      have hin' := Slot.in_cluster hg (s := slotAt s₀) hin.valid
        (show a - (slotAt s₀).addr fp < 32 by omega)
      rw [show (slotAt s₀).addr fp + (a - (slotAt s₀).addr fp) = a by omega] at hin'
      exact hin'.not_table ha
    · rw [hput a (by omega), hout a ha hx]
    · rw [hput _ (by omega), hslot i (by omega)]
    · have hlt : node.cluster < 2 ^ 32 := by
        have hlt := (hl'.first_valid hnil).lt_eoc hg
        rw [FAT_EOC] at hlt
        omega
      rw [him, setDirentCluster_cluster _ _ (by rwa [fatWritten_cluster]), fatWritten_cluster, hc,
        first_of_live hlive]

end EponaOS.Fs
