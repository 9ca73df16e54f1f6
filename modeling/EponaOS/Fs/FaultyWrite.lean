import EponaOS.Fs.WriteResult
import EponaOS.Fs.FaultyTable
import EponaOS.Fs.NewEntry

/-!
# Writes on a drive with errors

`fat_write` looks at no result of its accesses to data sectors. After a failed read the bytes
around the written ones are those that the buffer held before; after a failed write the sector
has its old bytes. The count goes on as if nothing had happened.
-/

namespace EponaOS.Fs

open Bytes

variable {fp : FatPrivate} {d d' d₁ d₂ : Disk} {node node' : VfsNode} {l l' : List Nat}
  {m m' m₁ m₂ buf junk tmp : Bytes} {S : Nat → Prop}
  {offset size done byteOff lba sectorOff cur s k i n a c v x y z skip fuel lo mid hi : Nat}

-- ---------------------------------------------------------------------------
-- The rounds over the sectors
-- ---------------------------------------------------------------------------

/-- The entries of the clusters in `S` lead to clusters in `S`, and every free cluster is in it. -/
structure Confined (fp : FatPrivate) (S : Nat → Prop) (m : Bytes) : Prop where
  valid : ∀ x, S x → Valid fp x
  entry : ∀ x, S x → fatEntry fp m x = 0 ∨ FAT_EOC ≤ fatEntry fp m x ∨ S (fatEntry fp m x)
  free : ∀ x ∈ freeClusters fp m, S x

theorem Confined.congr (h : Confined fp S m)
    (he : ∀ x, Valid fp x → fatEntry fp m' x = fatEntry fp m x) : Confined fp S m' := by
  refine ⟨h.valid, fun x hx => ?_, fun x hx => h.free x ?_⟩
  · rw [he x (h.valid x hx)]
    exact h.entry x hx
  · rwa [freeClusters_congr he] at hx

theorem Confined.of_table (h : Confined fp S m) (hg : Geometry fp)
    (ht : ∀ a, InTable fp a → m' a = m a) : Confined fp S m' :=
  h.congr fun _ hv => fatEntry_congr fun _ hi => ht _ (fatAddr_table hg hv hi)

theorem Confined.set (h : Confined fp S m) (hset : SetEntry fp m m' c v) (hc : S c)
    (hv : FAT_EOC ≤ v ∨ S v) : Confined fp S m' := by
  refine ⟨h.valid, fun x hx => ?_, fun x hx => ?_⟩
  · rw [hset.entry x (h.valid x hx)]
    split
    · exact .inr hv
    · exact h.entry x hx
  · obtain ⟨hvx, h0⟩ := mem_freeClusters.mp hx
    rw [hset.entry x hvx] at h0
    by_cases hxc : x = c
    · exact hxc ▸ hc
    · rw [if_neg hxc] at h0
      exact h.free x (mem_freeClusters.mpr ⟨hvx, h0⟩)

theorem Confined.chain (h : Confined fp S m) (hg : Geometry fp) (hl : FatChain fp m c l) (hc : S c) :
    ∀ x ∈ l, S x := by
  obtain ⟨hchain, hvalid⟩ := hl
  induction hchain with
  | nil => exact fun x hx => absurd hx List.not_mem_nil
  | @link c l _ hrest ih =>
    intro x hx
    rcases List.mem_cons.mp hx with rfl | hx
    · exact hc
    refine ih ?_ (fun y hy => hvalid y (List.mem_cons_of_mem _ hy)) x hx
    cases hrest with
    | nil => cases hx
    | link _ _ =>
      -- the cluster that follows is one of the chain
      have hv := hvalid _ (List.mem_cons_of_mem _ List.mem_cons_self)
      have hlt := hv.lt_eoc hg
      have hge := hv.1
      rcases h.entry c hc with h0 | hstop | hS
      · omega
      · omega
      · exact hS

theorem FileNode.confined (hn : FileNode fp m node l) :
    Confined fp (fun x => x ∈ l ∨ x ∈ freeClusters fp m) m := by
  refine ⟨fun x hx => ?_, fun x hx => ?_, fun x hx => .inr hx⟩
  · rcases hx with hx | hx
    · exact hn.chain.2 x hx
    · exact (mem_freeClusters.mp hx).1
  · rcases hx with hx | hx
    · obtain ⟨i, hi, rfl⟩ := List.getElem_of_mem hx
      by_cases hlast : i + 1 < l.length
      · rw [hn.chain.1.next_getElem hlast]
        exact .inr (.inr (.inl (List.getElem_mem hlast)))
      · exact .inr (.inl (hn.chain.1.stop_next (by omega)))
    · exact .inl (mem_freeClusters.mp hx).2

theorem fatSetCluster_confined (hg : Geometry fp) (h : Confined fp S d.image) (hc : S c)
    (hlt : v < 2 ^ 28) (hv : FAT_EOC ≤ v ∨ S v) :
    Confined fp S (fatSetCluster fp d c v).2.image ∧
      (∀ a, ¬ InTable fp a → (fatSetCluster fp d c v).2.image a = d.image a) ∧
      ∀ z, Valid fp z → z ≠ c → fatEntry fp (fatSetCluster fp d c v).2.image z = fatEntry fp d.image z := by
  obtain ⟨-, hset, hkeep⟩ := fatSetCluster_mark hg (h.valid c hc).2 v d
  by_cases hw : MarkWritten d
  · have hset := hset hw
    rw [Nat.mod_eq_of_lt hlt] at hset
    exact ⟨h.set hset hc hv, hset.other, fun z hz hne => by rw [hset.entry z hz, if_neg hne]⟩
  · rw [Disk.image_congr (hkeep hw)]
    exact ⟨h, fun _ _ => rfl, fun _ _ _ => rfl⟩

/-- The cluster that the loops of `fat_write` go on with behind `cluster`, 0 for none. A new one has
been linked, as far as the writes succeed. -/
def fatNextLinked (fp : FatPrivate) (d : Disk) (cluster : Nat) : Nat × Disk :=
  let next := fatNextOrNew fp d cluster
  (next.1, if next.1 ≠ 0 ∧ next.2.1 = true then (fatSetCluster fp next.2.2 cluster next.1).2
    else next.2.2)

structure StepsTo (fp : FatPrivate) (S : Nat → Prop) (c : Nat) (d : Disk) (y : Nat) (d' : Disk) :
    Prop where
  next : y ≠ 0 → S y
  confined : Confined fp S d'.image
  others : ∀ a, ¬ InTable fp a → d'.image a = d.image a
  entries : ∀ z, Valid fp z → z ≠ c → fatEntry fp d.image z ≠ 0 →
    fatEntry fp d'.image z = fatEntry fp d.image z
  none : y = 0 → d'.sectors = d.sectors

theorem fatNextLinked_steps (hg : Geometry fp) (h : Confined fp S d.image) (hc : S c) :
    StepsTo fp S c d (fatNextLinked fp d c).1 (fatNextLinked fp d c).2 := by
  have hv := h.valid c hc
  rw [fatNextLinked, fatNextOrNew, fatNextCluster_link, linkOf_valid hg hv]
  dsimp only
  generalize hw : (if d.fails = true then FAT_EOC else fatEntry fp d.image c) = w
  by_cases hend : w ≥ FAT_EOC ∨ w = 0
  · -- a new cluster
    rw [if_pos hend, fatAllocCluster_find]
    obtain ⟨hreads, hfound⟩ := fatFreeCluster_spec hg d.tick
    generalize fatFreeCluster fp d.tick = r at *
    obtain ⟨_ | y, d₁⟩ := r
    · rw [markCluster]
      refine ⟨fun h0 => absurd rfl h0, ?_, fun a _ => ?_, fun z _ _ _ => ?_, fun _ => hreads.sectors⟩
      · rw [if_neg (fun h0 => h0.1 rfl), Disk.image_congr hreads.sectors]
        exact h
      · rw [if_neg (fun h0 => h0.1 rfl), Disk.image_congr hreads.sectors]
        rfl
      · rw [if_neg (fun h0 => h0.1 rfl), Disk.image_congr hreads.sectors]
        rfl
    · have hfree := hfound y rfl
      obtain ⟨hvy, h0⟩ := mem_freeClusters.mp hfree
      have hSy : S y := h.free y hfree
      have hlt := hvy.lt_eoc hg
      have hge := hvy.1
      have himage : d₁.image = d.image := Disk.image_congr hreads.sectors
      obtain ⟨hmark, hmarkOff, hmarkEntry⟩ := fatSetCluster_confined (d := d₁) (v := FAT_EOC) hg
        (by rwa [himage]) hSy (by decide) (.inl (Nat.le_refl _))
      rw [markCluster]
      dsimp only
      rw [if_pos ⟨by omega, rfl⟩]
      obtain ⟨hlink, hlinkOff, hlinkEntry⟩ := fatSetCluster_confined (v := y) hg hmark hc
        (Nat.lt_trans hlt (by decide)) (.inr hSy)
      refine ⟨fun _ => hSy, hlink, fun a ha => ?_, fun z hz hzc hz0 => ?_, fun hy => by omega⟩
      · rw [hlinkOff a ha, hmarkOff a ha, himage]
      · rw [hlinkEntry z hz hzc, hmarkEntry z hz (fun hzy => hz0 (hzy ▸ h0)), himage]
  · -- the cluster that the entry names
    rw [if_neg hend, if_neg (fun h0 => Bool.noConfusion h0.2)]
    have hentry : w = fatEntry fp d.image c := by
      rw [← hw, if_neg]
      intro hf
      rw [if_pos hf] at hw
      exact hend (.inl (Nat.le_of_eq hw))
    refine ⟨fun _ => ?_, h, fun _ _ => rfl, fun _ _ _ _ => rfl, fun _ => rfl⟩
    rw [hentry] at hend ⊢
    exact ((h.entry c hc).resolve_left fun h0 => hend (.inr h0)).resolve_left fun h0 => hend (.inl h0)

-- ---------------------------------------------------------------------------
-- Looking for the cluster
-- ---------------------------------------------------------------------------

theorem fatWriteSkip_round (node : VfsNode) (hc : c ≠ 0) (hs : fp.bytesPerCluster ≤ skip) :
    fatWriteSkip fp (fuel + 1) node c skip d =
      if (fatNextLinked fp d c).1 = 0 then some (none, node, (fatNextLinked fp d c).2)
      else fatWriteSkip fp fuel node (fatNextLinked fp d c).1 (skip - fp.bytesPerCluster)
        (fatNextLinked fp d c).2 := by
  rw [fatWriteSkip, if_pos hs, fatNextLinked]
  dsimp only
  by_cases hy : (fatNextOrNew fp d c).1 = 0
  · rw [if_pos hy, if_pos hy, if_neg fun h => h.1 hy]
  · rw [if_neg hy, if_neg hy, if_pos hc]
    cases hnew : (fatNextOrNew fp d c).2.1 with
    | false => rw [if_neg Bool.false_ne_true, if_neg fun h => Bool.noConfusion h.2]
    | true => rw [if_pos rfl, if_pos ⟨hy, rfl⟩]

theorem fatWriteSkip_confined (hg : Geometry fp) (h : Confined fp S d.image) (hc : S c)
    (hfuel : skip < fuel) (node : VfsNode) :
    ∃ r d', fatWriteSkip fp fuel node c skip d = some (r, node, d') ∧ Confined fp S d'.image ∧
      (∀ a, ¬ InTable fp a → d'.image a = d.image a) ∧ ∀ p, r = some p → S p.1 := by
  induction fuel generalizing c skip d with
  | zero => omega
  | succ fuel ih =>
    have hcs := hg.bytes_pos
    by_cases hs : fp.bytesPerCluster ≤ skip
    · have hne : c ≠ 0 := by
        have := (h.valid c hc).1
        omega
      have hstep := fatNextLinked_steps hg h hc
      rw [fatWriteSkip_round node hne hs]
      generalize fatNextLinked fp d c = next at *
      by_cases hy : next.1 = 0
      · exact ⟨none, next.2, if_pos hy, hstep.confined, hstep.others, fun p hp => by cases hp⟩
      · obtain ⟨r, d', he, hconf, hoff, hr⟩ := ih hstep.confined (hstep.next hy)
          (show skip - fp.bytesPerCluster < fuel by omega)
        exact ⟨r, d', (if_neg hy).trans he, hconf, fun a ha => (hoff a ha).trans (hstep.others a ha), hr⟩
    · refine ⟨some (c, skip), d, ?_, h, fun _ _ => rfl, fun p hp => ?_⟩
      · rw [fatWriteSkip, if_neg hs]
      · cases hp
        exact hc

-- ---------------------------------------------------------------------------
-- The directory entry
-- ---------------------------------------------------------------------------

end EponaOS.Fs
