import EponaOS.Fs.FatVolume
import EponaOS.Fs.FatFuel

/-!
# The sectors a write touches

`fat_write` should write the clusters of the file, the table where it links clusters to
them, and the sector of the file's entry. It does so from any first cluster; but an empty
file can have none, and then the first round of the loop writes where a cluster of number 0
would be, in front of the first one.
-/

namespace EponaOS.Fs

open Bytes

def NodeChain (fp : FatPrivate) (m : Bytes) (node : VfsNode) (l : List Nat) : Prop :=
  (node.cluster = 0 ∧ l = []) ∨ FatChain fp m node.cluster l

/-- A sector of the node: of a cluster on its chain after the call, of the table where a
cluster was linked to the chain, or that of its directory entry. -/
def OwnSector (fp : FatPrivate) (d d' : Disk) (node node' : VfsNode) (n : Nat) : Prop :=
  (∃ l l', NodeChain fp d.image node l ∧ NodeChain fp d'.image node' l' ∧
    WriteSector fp l l' n) ∨ n = node.dirLba

/-- The call returns, whatever is written, and all sectors that differ then are the node's. -/
def WritesOwn (fp : FatPrivate) (node : VfsNode) (offset size : Nat) (d : Disk) : Prop :=
  ∀ junk buf, ∃ ret node' d',
    Returns (fun fuel => fatWrite fp junk fuel node offset size buf d) (ret, node', d') ∧
    ∀ n, (∃ i, i < 512 ∧ d'.sectors n i ≠ d.sectors n i) → OwnSector fp d d' node node' n

/-- There is a first cluster, nothing to write, or the search for the offset finds one. -/
def FirstKnown (fp : FatPrivate) (m : Bytes) (node : VfsNode) (offset size : Nat) : Prop :=
  node.cluster ≠ 0 ∨ size = 0 ∨ (fp.bytesPerCluster ≤ offset ∧
    (FAT_EOC ≤ fatEntry fp m 0 ∨ fatEntry fp m 0 = 0))

/-- `fat_write` behind the search for the cluster of the offset. -/
def fatWriteRest (fp : FatPrivate) (junk buf : Bytes) (offset size fuel : Nat) :
    Option (Option (Nat × Nat) × VfsNode × Disk) → Option (Int × VfsNode × Disk)
  | none => none
  | some (none, node, d) => some (0, node, d)
  | some (some (cluster, skip), node, d) =>
    match fatWriteClusters fp junk buf size fuel cluster skip 0 d with
    | none => none
    | some (done, false, d) => some (asInt done, node, d)
    | some (done, true, d) =>
      let node := fatWritten node offset done
      some (asInt done, node, (fatUpdateDirentSize node d).2)

variable {fp : FatPrivate} {d d' : Disk} {m : Bytes} {node : VfsNode} {l l' : List Nat} {s : Slot}

theorem fatWrite_rest (hsize : 0 < size) (junk buf : Bytes) (fuel : Nat) (node : VfsNode)
    (offset : Nat) (d : Disk) : fatWrite fp junk fuel node offset size buf d =
      fatWriteRest fp junk buf offset size fuel
        (fatWriteSkip fp fuel node node.cluster offset d) := by
  rw [fatWrite, if_neg (by omega)]
  rfl

-- ---------------------------------------------------------------------------
-- The sector of the entry
-- ---------------------------------------------------------------------------

theorem fatUpdateDirentSize_touches (hg : Geometry fp) (hd : NoFaults d) (hs : s.Ok fp)
    (hat : node.At fp s) : Touches (· = s.lba fp) d (fatUpdateDirentSize node d).2 := by
  obtain ⟨h0, hlt⟩ := Slot.lba_lt hg hs
  rw [fatUpdateDirentSize, hat.1, if_neg (by omega), ataReadSectors_eq hd hlt]
  exact ataWriteSectors_touches d hlt _

theorem Slot.lba_ge (s : Slot) : fp.dataStart ≤ s.lba fp := by
  rw [Slot.lba, clusterLba]
  omega

theorem FatChain.touches {S : Nat → Prop} (hl : FatChain fp d.image c l) (hg : Geometry fp)
    (h : Touches S d d') (hS : ∀ n, S n → fp.dataStart ≤ n) : FatChain fp d'.image c l :=
  hl.congr fun x hx => fatEntry_touches hg h hS (hl.2 x hx)

-- ---------------------------------------------------------------------------
-- From a first cluster on
-- ---------------------------------------------------------------------------

theorem fatWriteRest_touches (hg : Geometry fp) (hd : NoFaults d) (hl : FatChain fp d.image c l)
    (hne : l ≠ []) (hsize : 0 < size) (hf : skip < fuel) (hf' : size < fuel') (node : VfsNode)
    (hs : s.Ok fp) (hat : node.At fp s) (offset : Nat) (junk buf : Bytes) :
    ∃ ret node' d' l', fatWriteRest fp junk buf offset size fuel'
        (fatWriteSkip fp fuel node c skip d) = some (ret, node', d') ∧
      node'.cluster = node.cluster ∧ FatChain fp d'.image c l' ∧ l <+: l' ∧
      Touches (fun n => WriteSector fp l l' n ∨ n = s.lba fp) d d' := by
  have hpos : 0 < l.length := List.length_pos_iff.mpr hne
  have hcs := hg.bytes_pos
  have h0 : l[0] = c := hl.1.getElem_zero hpos
  obtain ⟨r, d₁, l₁, hskip, hd₁, hg₁, -, htouch₁, hfull⟩ :=
    fatWriteSkip_spec hg hd hl hpos hf node
  obtain ⟨hyes, hno⟩ := hfull _ rfl
  rw [h0] at hskip
  rw [hskip]
  by_cases hroom : 0 + skip / fp.bytesPerCluster + 1 ≤ l.length + (freeClusters fp d.image).card
  · obtain ⟨-, x, rfl, hx⟩ := hyes hroom
    obtain ⟨hi, rfl⟩ := List.getElem?_eq_some_iff.mp hx
    obtain ⟨done, room, d₂, l₂, he, hd₂, hg₂, -, htouch₂, -⟩ :=
      fatWriteClusters_spec hg hd₁ hg₁.chain hi (Nat.mod_lt skip (by omega)) hsize
        (show size - 0 < fuel' by omega) junk buf
    have htouch : Touches (WriteSector fp l l₂) d d₂ :=
      (htouch₁.mono fun n hn => .inl (hn.grow hg₂.pre)).trans
        (htouch₂.mono fun n hn => hn.imp_left fun h => h.since hg₁.pre hg₁.chain.nodup)
    have htouch' := htouch.mono (T := fun n => WriteSector fp l l₂ n ∨ n = s.lba fp)
      fun n hn => .inl hn
    rw [fatWriteRest, he]
    cases room with
    | false =>
      exact ⟨_, _, d₂, l₂, rfl, rfl, hg₂.chain, hg₁.pre.trans hg₂.pre, htouch'⟩
    | true =>
      have hup := fatUpdateDirentSize_touches hg hd₂ hs ((fatWritten_at node offset done s).mpr hat)
      refine ⟨_, _, _, l₂, rfl, fatWritten_cluster node offset done,
        hg₂.chain.touches hg hup fun n hn => ?_, hg₁.pre.trans hg₂.pre,
        htouch'.trans (hup.mono fun n hn => .inr hn)⟩
      rw [hn]
      exact Slot.lba_ge s
  · rw [(hno (by omega)).1]
    exact ⟨_, _, d₁, l₁, rfl, rfl, hg₁.chain, hg₁.pre, htouch₁.mono fun n hn => .inl (.inl hn)⟩

theorem Touches.changed {S : Nat → Prop} (h : Touches S d d') {n : Nat}
    (hn : ∃ i, i < 512 ∧ d'.sectors n i ≠ d.sectors n i) : S n := by
  by_contra hS
  obtain ⟨i, -, hi⟩ := hn
  rw [h n hS] at hi
  exact hi rfl

theorem writesOwn_of_chain (hg : Geometry fp) (hd : NoFaults d)
    (hl : FatChain fp d.image node.cluster l) (hne : l ≠ []) (hsize : 0 < size) (hs : s.Ok fp)
    (hat : node.At fp s) : WritesOwn fp node offset size d := by
  intro junk buf
  obtain ⟨ret, node', d', l', he, hc, hl', -, htouch⟩ := fatWriteRest_touches hg hd hl hne hsize
    (show offset < offset + size + 1 by omega) (show size < offset + size + 1 by omega) node hs hat
    offset junk buf
  rw [← fatWrite_rest hsize] at he
  refine ⟨ret, node', d', (fatWrite_mono fp junk node offset size buf d).returns he, fun n hn => ?_⟩
  rw [OwnSector, hat.1]
  refine (htouch.changed hn).imp_left fun h => ⟨l, l', .inr hl, .inr ?_, h⟩
  rwa [hc]

theorem writesOwn_of_new (hg : Geometry fp) (hd : NoFaults d) (h0 : node.cluster = 0)
    (hsize : 0 < size) (hoff : fp.bytesPerCluster ≤ offset)
    (hmark : FAT_EOC ≤ fatEntry fp d.image 0 ∨ fatEntry fp d.image 0 = 0) (hs : s.Ok fp)
    (hat : node.At fp s) : WritesOwn fp node offset size d := by
  intro junk buf
  have hnext : fatNextOrNew fp d 0 = ((fatAllocCluster fp d).1, true, (fatAllocCluster fp d).2) := by
    rw [fatNextOrNew, fatNextCluster_eq hg hd (by omega)]
    exact if_pos hmark
  obtain ⟨y, d₁, he, hfree, hd₁, hset⟩ | ⟨he, -⟩ := fatAllocCluster_spec hg hd
  · obtain ⟨hv, hzero⟩ := mem_freeClusters.mp hfree
    have hy : y ≠ 0 := by
      have := hv.1
      omega
    have hchain : FatChain fp d₁.image y [y] := by
      refine ⟨.link (Nat.not_le.mpr (hv.lt_eoc hg)) (.nil ?_), fun x hx => ?_⟩
      · rw [hset.entry y hv, if_pos rfl]
      · rwa [List.mem_singleton.mp hx]
    generalize hn₁ : { node with cluster := y } = node₁
    have hskip : ∀ fuel, fatWriteSkip fp (fuel + 1) node node.cluster offset d =
        fatWriteSkip fp fuel node₁ y (offset - fp.bytesPerCluster) d₁ := by
      intro fuel
      rw [fatWriteSkip, if_pos hoff, h0, hnext, he]
      dsimp only
      rw [if_neg hy, if_pos rfl, if_neg (not_not.mpr rfl), hn₁]
    have hat₁ : node₁.At fp s := by
      rw [← hn₁]
      exact hat
    obtain ⟨ret, node', d', l', hrest, hc, hl', hpre, htouch⟩ := fatWriteRest_touches hg hd₁ hchain
      (List.cons_ne_nil y []) hsize
      (show offset - fp.bytesPerCluster < offset + size by omega)
      (show size < offset + size + 1 by omega) node₁ hs hat₁ offset junk buf
    rw [← hskip, ← fatWrite_rest hsize] at hrest
    refine ⟨ret, node', d', (fatWrite_mono fp junk node offset size buf d).returns hrest,
      fun n hn => ?_⟩
    -- all of the chain is new
    have hnew : ∀ x n, x ∈ l' → EntrySector fp x n → LinkSector fp [] l' n := fun x n hx hn =>
      ⟨x, ⟨hx, .inl List.not_mem_nil⟩, hn⟩
    have hall : Touches (fun n => WriteSector fp [] l' n ∨ n = s.lba fp) d d' := by
      refine ((fatAllocCluster_touches hg.table hd he hy).mono fun n hn => ?_).trans
        (htouch.mono fun n hn => hn.imp_left fun hn => hn.imp_left fun hn => ?_)
      · exact .inl (.inl (hnew y n (hpre.subset List.mem_cons_self) hn))
      · obtain ⟨x, hx, hn⟩ := hn
        exact hnew x n hx.1 hn
    rw [OwnSector, hat.1]
    refine (hall.changed hn).imp_left fun h => ⟨[], l', .inl ⟨h0, rfl⟩, .inr ?_, h⟩
    rw [hc, ← hn₁]
    exact hl'
  · refine ⟨0, node, d, (fatWrite_mono fp junk node offset size buf d).returns (n := 1) ?_,
      fun n hn => ?_⟩
    · rw [fatWrite_rest hsize, fatWriteSkip, if_pos hoff, h0, hnext, he]
      rfl
    · obtain ⟨i, -, hi⟩ := hn
      exact absurd rfl hi

-- ---------------------------------------------------------------------------
-- Without a first cluster
-- ---------------------------------------------------------------------------

/-- Where `fat_write` puts byte 0 of a cluster of number 0. -/
def zeroAddr (fp : FatPrivate) : Nat := 512 * (fp.dataStart - 2 * fp.bpb.sectorsPerCluster)

theorem OwnSector.of_zero (hg : Geometry fp) (h : OwnSector fp d d' node node' n)
    (h0 : node'.cluster = 0) : n = node.dirLba := by
  obtain ⟨l, l', -, hl' | hl', hn⟩ | h := h
  · obtain ⟨x, ⟨hx, -⟩, -⟩ | ⟨x, hx, -⟩ := hn
    · rw [hl'.2] at hx
      cases hx
    · rw [hl'.2] at hx
      cases hx
  · exact absurd h0 (hl'.ne_zero hg)
  · exact h

theorem fatWrite_zero (h0 : node.cluster = 0) (hsize : 0 < size)
    (hoff : offset < fp.bytesPerCluster) (junk buf : Bytes) (fuel : Nat) (d : Disk) :
    fatWrite fp junk (fuel + 1) node offset size buf d =
      fatWriteRest fp junk buf offset size (fuel + 1) (some (some (0, offset), node, d)) := by
  rw [fatWrite_rest hsize, h0, fatWriteSkip, if_neg (by omega)]

def flip (v : UInt8) : UInt8 := UInt8.ofNat (v.toNat + 128)

theorem flip_ne (v : UInt8) : flip v ≠ v := by
  intro h
  have h := congrArg UInt8.toNat h
  have hv := v.toNat_lt
  rw [flip, UInt8.toNat_ofNat'] at h
  omega

theorem fatEntry_flip (fp : FatPrivate) (m : Bytes) (x : Nat) (hb : b % 4 = 3) :
    fatEntry fp (setByte m b (flip (m b))) x = fatEntry fp m x := by
  rw [fatEntry, fatEntry]
  by_cases hx : b = fatAddr fp x + 3
  · have hv := (m b).toNat_lt
    have hf : (flip (m b)).toNat = ((m b).toNat + 128) % 256 := UInt8.toNat_ofNat'
    simp only [getLE, ← hx]
    rw [setByte_ne _ _ (by omega), setByte_ne _ _ (by omega), setByte_ne _ _ (by omega)]
    simp only [setByte_same, hf]
    omega
  · rw [getLE_setByte_off]
    have : fatAddr fp x % 4 = 0 := by
      rw [fatAddr]
      omega
    omega

section Zero

variable (hg : Geometry fp) (hd : NoFaults d) (h0 : node.cluster = 0) (hsize : 0 < size)
  (hoff : offset < fp.bytesPerCluster)
include hg

theorem not_own_of_changed (hw : WritesOwn fp node offset size d) (hat : node.At fp s)
    (hret : Returns (fun fuel => fatWrite fp junk fuel node offset size buf d) (ret, node', d'))
    (hc : node'.cluster = 0) (ha : a / 512 ≠ s.lba fp) : d'.image a = d.image a := by
  by_contra hne
  obtain ⟨ret', node'', d'', hret', hown⟩ := hw junk buf
  have heq := hret'.unique hret
  simp only [Prod.mk.injEq] at heq
  obtain ⟨-, rfl, rfl⟩ := heq
  refine ha ?_
  rw [← hat.1]
  exact (hown (a / 512) ⟨a % 512, Nat.mod_lt _ (by decide), hne⟩).of_zero hg hc

include hd hsize hoff

theorem zeroRound (hroom : 2 * fp.bpb.sectorsPerCluster ≤ fp.dataStart) :
    0 < firstRun fp.bytesPerCluster offset size ∧ firstRun fp.bytesPerCluster offset size ≤ size ∧
      zeroAddr fp + offset + firstRun fp.bytesPerCluster offset size ≤ 512 * fp.dataStart ∧
      (firstRun fp.bytesPerCluster offset size < size →
        (zeroAddr fp + offset + firstRun fp.bytesPerCluster offset size) % 512 = 0) ∧
      ∀ junk buf, ∃ d₁, fatWriteSectors buf size (fatClusterToLba fp 0) (offset / 512)
          ((min (fp.bytesPerCluster - offset) (size - 0) + 511) / 512) 0 (offset % 512) junk 0 d =
          (firstRun fp.bytesPerCluster offset size, d₁) ∧ NoFaults d₁ ∧
        d₁.image = blit d.image (zeroAddr fp + offset) (firstRun fp.bytesPerCluster offset size)
          buf 0 := by
  obtain ⟨hpos, hle, hfit⟩ := firstRun_spec hg hoff hsize
  have hcl := hg.cluster
  have hdata := hg.data_le
  have hlba : fatClusterToLba fp 0 = fp.dataStart - 2 * fp.bpb.sectorsPerCluster := by
    rw [fatClusterToLba]
    omega
  refine ⟨hpos, hle, ?_, fun hlt => ?_, fun junk buf => ?_⟩
  · rw [zeroAddr]
    omega
  · rw [firstRun] at hlt ⊢
    rw [zeroAddr]
    omega
  · obtain ⟨d₁, he, hd₁, -, him⟩ := fatWriteSectors_spec hd buf
      (Nat.mod_lt offset (show 0 < 512 by decide))
      (show fp.dataStart - 2 * fp.bpb.sectorsPerCluster + offset / 512 + 0 +
        (min (fp.bytesPerCluster - offset) (size - 0) + 511) / 512 ≤ 2 ^ 28 by omega) hsize junk
    have hrun : min (512 * ((min (fp.bytesPerCluster - offset) (size - 0) + 511) / 512) -
        offset % 512) (size - 0) = firstRun fp.bytesPerCluster offset size := by
      rw [firstRun, Nat.min_comm, Nat.sub_zero]
    have hat : 512 * (fp.dataStart - 2 * fp.bpb.sectorsPerCluster + offset / 512 + 0) +
        offset % 512 = zeroAddr fp + offset := by
      rw [zeroAddr]
      omega
    rw [hrun, Nat.zero_add] at he
    rw [hrun, hat] at him
    rw [hlba]
    exact ⟨d₁, he, hd₁, him⟩

include h0
variable (hroom : 2 * fp.bpb.sectorsPerCluster ≤ fp.dataStart) (hs : s.Ok fp) (hat : node.At fp s)
include hroom hs hat

theorem not_own_of_one (hall : firstRun fp.bytesPerCluster offset size = size) :
    ¬ WritesOwn fp node offset size d := by
  intro hw
  obtain ⟨-, -, hfit, -, hround⟩ := zeroRound hg hd hsize hoff hroom
  obtain ⟨d₁, he, hd₁, him⟩ := hround (fun _ => 0) fun _ => flip (d.image (zeroAddr fp + offset))
  rw [hall] at hfit he him
  have hrest : fatWrite fp (fun _ => 0) 1 node offset size
      (fun _ => flip (d.image (zeroAddr fp + offset))) d = some (asInt size,
        fatWritten node offset size, (fatUpdateDirentSize (fatWritten node offset size) d₁).2) := by
    rw [fatWrite_zero h0 hsize hoff, fatWriteRest, fatWriteClusters, if_pos hsize]
    simp only [he]
    rw [if_pos (Nat.le_refl size)]
  have hlba : fp.dataStart ≤ s.lba fp := Slot.lba_ge s
  have hne : (zeroAddr fp + offset) / 512 ≠ s.lba fp := by omega
  have hsame := not_own_of_changed hg hw hat (FuelMono.returns (fatWrite_mono _ _ _ _ _ _ _) hrest)
    ((fatWritten_cluster ..).trans h0) hne
  have hup := fatUpdateDirentSize_touches hg hd₁ hs ((fatWritten_at node offset size s).mpr hat) _ hne
  rw [Disk.image, hup] at hsame
  rw [← Disk.image, him, blit_in _ _ _ ⟨Nat.le_refl _, by omega⟩] at hsame
  exact flip_ne _ hsame

variable (hmark : FAT_EOC ≤ fatEntry fp d.image 0)
  (hmore : firstRun fp.bytesPerCluster offset size < size)
include hmark hmore

omit hs in
/-- A write for which there is no other cluster: one bit that the table does not use tells. -/
theorem not_own_of_full (hfull : ∀ x, Valid fp x → fatEntry fp d.image x ≠ 0) :
    ¬ WritesOwn fp node offset size d := by
  intro hw
  obtain ⟨hpos, hle, hfit, hend, hround⟩ := zeroRound hg hd hsize hoff hroom
  have hend := hend hmore
  generalize hrun : firstRun fp.bytesPerCluster offset size = run at *
  generalize hb : zeroAddr fp + offset + (run - 1) = b
  generalize hbuf : (fun k => if k + 1 < run then d.image (zeroAddr fp + offset + k)
    else flip (d.image (zeroAddr fp + offset + k))) = buf
  obtain ⟨d₁, he, hd₁, him⟩ := hround (fun _ => 0) buf
  have him' : d₁.image = setByte d.image b (flip (d.image b)) := by
    rw [him, ← hb]
    funext x
    by_cases hx : zeroAddr fp + offset ≤ x ∧ x < zeroAddr fp + offset + run
    · rw [blit_in _ _ _ hx, ← hbuf, Nat.zero_add]
      dsimp only
      rw [Nat.add_sub_cancel' hx.1]
      by_cases hlast : x = zeroAddr fp + offset + (run - 1)
      · rw [if_neg (by omega), hlast, setByte_same]
      · rw [if_pos (by omega), setByte_ne _ _ hlast]
    · rw [blit_off _ _ _ (by omega), setByte_ne _ _ (by omega)]
  have hentry : ∀ x, fatEntry fp d₁.image x = fatEntry fp d.image x := by
    intro x
    rw [him']
    exact fatEntry_flip fp d.image x (by omega)
  have hnone : fatNextOrNew fp d₁ 0 = (0, true, d₁) := by
    rw [fatNextOrNew, fatNextCluster_eq hg hd₁ (by omega)]
    dsimp only
    rw [hentry, if_pos (.inl hmark)]
    obtain ⟨x, -, hleast⟩ | ⟨hnone, -⟩ := fatAllocCluster_least hg.table hd₁
    · have hx : Valid fp x ∧ fatEntry fp d₁.image x = 0 := hleast.1
      rw [hentry] at hx
      exact absurd hx.2 (hfull x hx.1)
    · rw [hnone]
  have hrest : fatWrite fp (fun _ => 0) 1 node offset size buf d = some (asInt run, node, d₁) := by
    rw [fatWrite_zero h0 hsize hoff, fatWriteRest, fatWriteClusters, if_pos hsize]
    simp only [he]
    rw [if_neg (by omega), hnone]
    rfl
  have hlba : fp.dataStart ≤ s.lba fp := Slot.lba_ge s
  have hsame := not_own_of_changed hg hw hat (FuelMono.returns (fatWrite_mono _ _ _ _ _ _ _) hrest)
    h0 (show b / 512 ≠ s.lba fp by omega)
  rw [him', setByte_same] at hsame
  exact flip_ne _ hsame

theorem not_own_of_free (hused : fatEntry fp d.image s.cluster ≠ 0)
    (hfree : Valid fp y ∧ fatEntry fp d.image y = 0) : ¬ WritesOwn fp node offset size d := by
  intro hw
  obtain ⟨hpos, hle, hfit, -, hround⟩ := zeroRound hg hd hsize hoff hroom
  generalize hrun : firstRun fp.bytesPerCluster offset size = run at *
  obtain ⟨c, hc⟩ : ∃ c, IsLeast {x | Valid fp x ∧ fatEntry fp d.image x = 0} c := by
    obtain ⟨c, -, hc⟩ | ⟨-, hnone⟩ := fatAllocCluster_least hg.table hd
    · exact ⟨c, hc⟩
    · exact absurd hfree.2 (hnone y hfree.1)
  have hv := hc.1.1
  have hc0 : c ≠ 0 := by
    have := hv.1
    omega
  -- the first round writes what is there, the next one something else
  generalize hbuf : (fun k => if k < run then d.image (zeroAddr fp + offset + k)
    else flip (d.image (clusterAddr fp c))) = buf
  obtain ⟨d₁, he, hd₁, him⟩ := hround (fun _ => 0) buf
  have him' : d₁.image = d.image := by
    rw [him]
    funext x
    by_cases hx : zeroAddr fp + offset ≤ x ∧ x < zeroAddr fp + offset + run
    · rw [blit_in _ _ _ hx, ← hbuf, Nat.zero_add]
      dsimp only
      rw [if_pos (by omega), Nat.add_sub_cancel' hx.1]
    · rw [blit_off _ _ _ (by omega)]
  have halloc : fatAllocCluster fp d₁ = (c, (fatSetCluster fp d₁ c FAT_EOC).2) := by
    obtain ⟨c', halloc, hc'⟩ | ⟨-, hnone⟩ := fatAllocCluster_least hg.table hd₁
    · rw [him'] at hc'
      rw [← hc'.unique hc]
      exact halloc
    · rw [him'] at hnone
      exact absurd hc.1.2 (hnone c hv)
  obtain ⟨d₂, he₂, hd₂, hset₂⟩ := fatSetCluster_spec hg hd₁ hv.2 FAT_EOC
  obtain ⟨d₃, he₃, hd₃, hset₃⟩ := fatSetCluster_spec hg hd₂
    (show 0 < fatTotalClusters fp + 2 by omega) c
  have hnext : fatNextOrNew fp d₁ 0 = (c, true, d₂) := by
    rw [fatNextOrNew, fatNextCluster_eq hg hd₁ (by omega), him']
    dsimp only
    rw [if_pos (.inl hmark), halloc, he₂]
  have hchain : FatChain fp d₃.image c [c] := by
    refine ⟨.link (Nat.not_le.mpr (hv.lt_eoc hg)) (.nil ?_), fun x hx => ?_⟩
    · rw [hset₃.entry c hv, if_neg hc0, hset₂.entry c hv, if_pos rfl]
      decide
    · rwa [List.mem_singleton.mp hx]
  have hcs := hg.bytes_pos
  obtain ⟨done', room, d', l', hloop, hd', hgrown, -, -, hbytes, -⟩ :=
    fatWriteClusters_spec hg hd₃ hchain (show 0 < [c].length from Nat.one_pos)
      (show 0 < fp.bytesPerCluster by omega) hmore (show size - run < size by omega)
      (fun _ => 0) buf
  have hloop' : fatWriteClusters fp (fun _ => 0) buf size (size + 1) 0 offset 0 d =
      some (done', room, d') := by
    rw [fatWriteClusters, if_pos hsize]
    simp only [he]
    rw [if_neg (by omega), hnext]
    dsimp only
    rw [if_neg hc0, if_pos rfl, he₃]
    exact hloop
  -- the first byte of the new cluster
  have hbyte : d'.image (clusterAddr fp c) = flip (d.image (clusterAddr fp c)) := by
    obtain ⟨t, rfl⟩ := hgrown.pre
    have h := hbytes 0 (Nat.mul_pos (by simp) (by omega))
    have hrest := (firstRun_spec hg (show 0 < fp.bytesPerCluster by omega)
      (show 0 < size - run by omega)).1
    rw [placed, if_pos (by omega), chainByte, chainAddr, Nat.zero_div, Nat.zero_mod] at h
    rw [show clusterAddr fp c = clusterAddr fp (([c] ++ t).getD 0 0) + 0 from rfl, h, ← hbuf]
    exact if_neg (by omega)
  have hne : clusterAddr fp c / 512 ≠ s.lba fp := by
    intro heq
    have hin : InCluster fp s.cluster (clusterAddr fp c) := by
      have h1 := hs.2
      have h2 := hg.cluster
      rw [clusterAddr] at heq ⊢
      rw [Slot.lba] at heq
      rw [InCluster, clusterAddr]
      omega
    have hin' : InCluster fp c (clusterAddr fp c) := ⟨Nat.le_refl _, by omega⟩
    rw [hin.eq hg hs.1 hv hin'] at hused
    exact hused hc.1.2
  have hlast : ∃ ret node' d'', fatWrite fp (fun _ => 0) (size + 1) node offset size buf d =
      some (ret, node', d'') ∧ node'.cluster = 0 ∧
      d''.image (clusterAddr fp c) = d'.image (clusterAddr fp c) := by
    rw [fatWrite_zero h0 hsize hoff, fatWriteRest, hloop']
    cases room with
    | false => exact ⟨_, _, _, rfl, h0, rfl⟩
    | true =>
      refine ⟨_, _, _, rfl, (fatWritten_cluster ..).trans h0, ?_⟩
      have hup := fatUpdateDirentSize_touches hg hd' hs
        ((fatWritten_at node offset done' s).mpr hat) _ hne
      rw [Disk.image, hup, Disk.image]
  obtain ⟨ret, node', d'', hcall, hzero, hsame⟩ := hlast
  have hsame' := not_own_of_changed hg hw hat
    (FuelMono.returns (fatWrite_mono _ _ _ _ _ _ _) hcall) hzero hne
  rw [hsame, hbyte] at hsame'
  exact flip_ne _ hsame'

end Zero

-- ---------------------------------------------------------------------------
-- Files of a volume
-- ---------------------------------------------------------------------------

/-- `fat_write` keeps to the sectors of the file when it has a first cluster to begin with. On
a volume with two clusters' room in front of the data and an end mark in entry 0 of the table,
as it has to have, it does so only then. -/
theorem fatWrite_frame_iff {p : Volume.Slot} (hg : Geometry fp) (hd : NoFaults d)
    (hw : WellFormed hg d.image) (hlive : LiveFile hg d.image p) (hn : NodeOf fp d.image p node)
    (offset size : Nat) :
    (FirstKnown fp d.image node offset size → WritesOwn fp node offset size d) ∧
    (2 * fp.bpb.sectorsPerCluster ≤ fp.dataStart → FAT_EOC ≤ fatEntry fp d.image 0 →
      WritesOwn fp node offset size d → FirstKnown fp d.image node offset size) := by
  obtain ⟨hs, hused⟩ := hlive.slot
  have hat := hn.place
  constructor
  · intro hknown
    by_cases hsize : size = 0
    · intro junk buf
      refine ⟨0, node, d, ⟨0, fun fuel _ => ?_⟩, fun n hn => ?_⟩
      · dsimp only
        rw [fatWrite, if_pos hsize]
      · obtain ⟨i, -, hi⟩ := hn
        exact absurd rfl hi
    · obtain h0 | ⟨l, hne, hl⟩ := hlive.chain hw hn
      · obtain h | h | ⟨hoff, hmark⟩ := hknown
        · exact absurd h0 h
        · exact absurd h hsize
        · exact writesOwn_of_new hg hd h0 (by omega) hoff hmark hs hat
      · exact writesOwn_of_chain hg hd hl hne (by omega) hs hat
  · intro hroom hmark hown
    by_contra hnot
    simp only [FirstKnown, not_or, not_and, not_not] at hnot
    obtain ⟨h0, hsize, hoff⟩ := hnot
    have hpos : 0 < size := by omega
    have hoff : offset < fp.bytesPerCluster := by
      by_contra hle
      exact (hoff (by omega)).1 hmark
    obtain ⟨-, hle, -⟩ := zeroRound hg hd hpos hoff hroom
    by_cases hall : firstRun fp.bytesPerCluster offset size = size
    · exact not_own_of_one hg hd h0 hpos hoff hroom hs hat hall hown
    · by_cases hfull : ∀ x, Valid fp x → fatEntry fp d.image x ≠ 0
      · exact not_own_of_full hg hd h0 hpos hoff hroom hat hmark (by omega) hfull hown
      · push Not at hfull
        obtain ⟨y, hy⟩ := hfull
        exact not_own_of_free hg hd h0 hpos hoff hroom hs hat hmark (by omega) hused hy hown

def twoFilesDisk : Disk where
  sectors n :=
    if n = 1 ∨ n = 2 then putLE (putLE (putLE (fun _ => 0) 0 4 FAT_EOC) 8 4 FAT_EOC) 12 4 FAT_EOC
    else if n = 3 then putDirent (putDirent (fun _ => 0) 0 (pad 11 [0x41]) 0x20 0) 32
      (pad 11 [0x42]) 0x20 3
    else fun _ => 0
  faults := []

def twoFilesNode (i cluster : Nat) : VfsNode where
  name := []
  size := 0
  flags := VFS_FILE
  cluster := cluster
  dirLba := 3
  dirOff := 32 * i
  parent := none
  children := []

theorem twoFiles_geometry : Geometry mirroredFp := by
  constructor <;> decide

theorem twoFiles_entry : fatEntry mirroredFp twoFilesDisk.image 2 = FAT_EOC ∧
    fatEntry mirroredFp twoFilesDisk.image 3 = FAT_EOC := by
  decide +kernel

theorem twoFiles_root :
    (∃ n, (volOf mirroredFp twoFilesDisk.image).entry (2, 0) = .live n false 0 0) ∧
    (∃ n, (volOf mirroredFp twoFilesDisk.image).entry (2, 1) = .live n false 3 0) ∧
    ∀ i, i < 16 → 2 ≤ i → (volOf mirroredFp twoFilesDisk.image).entry (2, i) = .last := by
  refine ⟨⟨deName twoFilesDisk.image 1536, by decide +kernel⟩,
    ⟨deName twoFilesDisk.image 1568, by decide +kernel⟩, by decide +kernel⟩

theorem twoFiles_chain {c : Nat} (h : c = 2 ∨ c = 3) :
    FatChain mirroredFp twoFilesDisk.image c [c] := by
  obtain ⟨h2, h3⟩ := twoFiles_entry
  refine Volume.isChain_single (L := layout twoFiles_geometry)
    (V := volOf mirroredFp twoFilesDisk.image) ?_ ?_
  · obtain rfl | rfl := h
    · exact ⟨by decide, by decide⟩
    · exact ⟨by decide, by decide⟩
  · obtain rfl | rfl := h
    · exact Nat.le_of_eq h2.symm
    · exact Nat.le_of_eq h3.symm

theorem twoFiles_reached (h : Volume.Reached (layout twoFiles_geometry)
    (volOf mirroredFp twoFilesDisk.image) st) :
    st = .root ∨ st = .entry (2, 0) ∨ st = .entry (2, 1) := by
  obtain ⟨⟨n, h0⟩, ⟨n', h1⟩, hlast⟩ := twoFiles_root
  induction h with
  | root => exact .inl rfl
  | @entry st l s _ hdir hl hs hlive ih =>
    obtain rfl | rfl | rfl := ih
    · rw [hl.unique (twoFiles_chain (.inl rfl))] at hs
      obtain ⟨hc, hi⟩ := Volume.mem_slots.mp hs
      obtain ⟨c, i⟩ := s
      obtain rfl := List.mem_singleton.mp hc
      have hi : i < 16 := hi
      match i with
      | 0 => exact .inr (.inl rfl)
      | 1 => exact .inr (.inr rfl)
      | i + 2 =>
        have hlive : ((volOf mirroredFp twoFilesDisk.image).entry (2, i + 2)).isLive = true := hlive
        rw [hlast _ hi (by omega)] at hlive
        cases hlive
    · rw [Volume.State.isDir, h0] at hdir
      cases hdir
    · rw [Volume.State.isDir, h1] at hdir
      cases hdir

theorem twoFiles_first : (volOf mirroredFp twoFilesDisk.image).first (layout twoFiles_geometry)
      (.entry (2, 0)) = 0 ∧
    (volOf mirroredFp twoFilesDisk.image).first (layout twoFiles_geometry) (.entry (2, 1)) = 3 := by
  obtain ⟨⟨n, h0⟩, ⟨n', h1⟩, -⟩ := twoFiles_root
  rw [Volume.State.first, Volume.State.first, h0, h1]
  exact ⟨rfl, rfl⟩

theorem twoFiles_live {i : Nat} (h : i = 0 ∨ i = 1) :
    LiveFile twoFiles_geometry twoFilesDisk.image (2, i) := by
  obtain ⟨⟨n, h0⟩, ⟨n', h1⟩, -⟩ := twoFiles_root
  have hmem : (2, i) ∈ Volume.slots (layout twoFiles_geometry) [2] :=
    Volume.mem_slots.mpr ⟨List.mem_singleton_self 2, show i < 16 by omega⟩
  have hroot : FatChain mirroredFp twoFilesDisk.image 2 [2] := twoFiles_chain (.inl rfl)
  obtain rfl | rfl := h
  · exact ⟨.entry .root rfl hroot hmem (by rw [h0]; rfl), by rw [Volume.State.isDir, h0]; rfl⟩
  · exact ⟨.entry .root rfl hroot hmem (by rw [h1]; rfl), by rw [Volume.State.isDir, h1]; rfl⟩

theorem twoFiles_wellFormed : WellFormed twoFiles_geometry twoFilesDisk.image := by
  obtain ⟨hfirst, hfirst'⟩ := twoFiles_first
  -- the chain of a start that has one
  have hchain : ∀ st l, Volume.Reached (layout twoFiles_geometry)
      (volOf mirroredFp twoFilesDisk.image) st →
      FatChain mirroredFp twoFilesDisk.image ((volOf mirroredFp twoFilesDisk.image).first
        (layout twoFiles_geometry) st) l →
      st = .root ∧ l = [2] ∨ st = .entry (2, 1) ∧ l = [3] := by
    intro st l hr hl
    obtain rfl | rfl | rfl := twoFiles_reached hr
    · exact .inl ⟨rfl, FatChain.unique hl (twoFiles_chain (.inl rfl))⟩
    · exact absurd hfirst (hl.ne_zero twoFiles_geometry)
    · rw [hfirst'] at hl
      exact .inr ⟨rfl, FatChain.unique hl (twoFiles_chain (.inr rfl))⟩
  refine ⟨fun st hr => ?_, fun st st' l l' x hr hr' hl hl' hx hx' => ?_⟩
  · obtain rfl | rfl | rfl := twoFiles_reached hr
    · exact .inr ⟨[2], List.cons_ne_nil 2 [], twoFiles_chain (.inl rfl)⟩
    · exact .inl ⟨(twoFiles_live (.inl rfl)).file, hfirst⟩
    · rw [hfirst']
      exact .inr ⟨[3], List.cons_ne_nil 3 [], twoFiles_chain (.inr rfl)⟩
  · obtain ⟨rfl, rfl⟩ | ⟨rfl, rfl⟩ := hchain st l hr hl <;>
      obtain ⟨rfl, rfl⟩ | ⟨rfl, rfl⟩ := hchain st' l' hr' hl'
    · rfl
    · rw [List.mem_singleton.mp hx] at hx'
      exact absurd hx' (by decide)
    · rw [List.mem_singleton.mp hx] at hx'
      exact absurd hx' (by decide)
    · rfl

theorem twoFiles_node : NodeOf mirroredFp twoFilesDisk.image (2, 0) (twoFilesNode 0 0) ∧
    NodeOf mirroredFp twoFilesDisk.image (2, 1) (twoFilesNode 1 3) :=
  ⟨⟨⟨by decide, by decide⟩, by decide +kernel, by decide +kernel⟩,
    ⟨⟨by decide, by decide⟩, by decide +kernel, by decide +kernel⟩⟩

theorem twoFiles_second : WritesOwn mirroredFp (twoFilesNode 1 3) 100 2000 twoFilesDisk :=
  (fatWrite_frame_iff twoFiles_geometry (show NoFaults twoFilesDisk from rfl) twoFiles_wellFormed
    (twoFiles_live (.inr rfl)) twoFiles_node.2 100 2000).1 (.inl (by decide))

/-- One byte for the file without one: it is written to sector 1, which is of the table. -/
theorem twoFiles_first_byte : WellFormed twoFiles_geometry twoFilesDisk.image ∧
    LiveFile twoFiles_geometry twoFilesDisk.image (2, 0) ∧
    NodeOf mirroredFp twoFilesDisk.image (2, 0) (twoFilesNode 0 0) ∧
    ¬ WritesOwn mirroredFp (twoFilesNode 0 0) 0 1 twoFilesDisk := by
  have hs : (slotAt (2, 0)).Ok mirroredFp := (twoFiles_live (.inl rfl)).slot.1
  exact ⟨twoFiles_wellFormed, twoFiles_live (.inl rfl), twoFiles_node.1,
    not_own_of_one twoFiles_geometry rfl rfl (by decide) (by decide) (by decide) hs
      twoFiles_node.1.place (by decide)⟩

end EponaOS.Fs
