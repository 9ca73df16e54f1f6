import EponaOS.Fs.FatWrite

/-!
# What a read does

The loops of `fat_read` on a sound chain, the counterpart of those of `fat_write`: the
chain is walked as far as it goes, and in each cluster a run of bytes is copied out. Here
too the run in the first cluster can be shorter than what is wanted of it, and what is
left is then taken from the start of the following one.
-/

namespace EponaOS.Fs

open Bytes

variable {fp : FatPrivate} {d : Disk} {m : Bytes} {node : VfsNode} {l : List Nat}

/-- Where along the chain byte `k` of the buffer comes from, when the bytes from `done` on
are read at offset `o` of cluster `i` and `run` of them are there. -/
def readPos (cs i o run done k : Nat) : Nat :=
  if k < done + run then i * cs + o + (k - done) else (i + 1) * cs + (k - done - run)

/-- How far a read gets that has `run` bytes of cluster `i` and then all of what follows. -/
def readEnd (cs clusters i run done size : Nat) : Nat :=
  min size (done + run + (clusters - (i + 1)) * cs)

-- ---------------------------------------------------------------------------
-- The loops
-- ---------------------------------------------------------------------------

theorem fatReadSkip_spec (hg : Geometry fp) (hd : NoFaults d) (hl : FatChain fp d.image c l)
    (hi : i < l.length) (hf : skip < fuel) : fatReadSkip fp fuel l[i] skip d =
      some (l[i + skip / fp.bytesPerCluster]?.map (·, skip % fp.bytesPerCluster), d) := by
  induction fuel generalizing i skip with
  | zero => omega
  | succ fuel ih =>
    have hcs := hg.bytes_pos
    by_cases hs : fp.bytesPerCluster ≤ skip
    · have hdiv : skip / fp.bytesPerCluster =
          (skip - fp.bytesPerCluster) / fp.bytesPerCluster + 1 := by
        rw [← Nat.add_div_right _ (by omega), Nat.sub_add_cancel hs]
      have hmod : (skip - fp.bytesPerCluster) % fp.bytesPerCluster = skip % fp.bytesPerCluster := by
        rw [← Nat.mod_eq_sub_mod hs]
      have hv := hl.2 _ (List.getElem_mem hi)
      simp only [fatReadSkip, ge_iff_le, if_pos hs, fatNextCluster_eq hg hd hv.2]
      by_cases hlast : i + 1 < l.length
      · have hv1 := (hl.2 _ (List.getElem_mem hlast)).lt_eoc hg
        rw [hl.1.next_getElem hlast, if_neg (by omega), ih hlast (by omega), hmod, hdiv]
        simp only [Nat.add_assoc, Nat.add_comm 1]
      · have hstop : FAT_EOC ≤ fatEntry fp d.image l[i] := hl.1.stop_next (by omega)
        have hbehind : l.length ≤ i + skip / fp.bytesPerCluster := by
          rw [hdiv]
          generalize (skip - fp.bytesPerCluster) / fp.bytesPerCluster = q
          omega
        rw [if_pos hstop, List.getElem?_eq_none hbehind]
        rfl
    · simp only [fatReadSkip, ge_iff_le, if_neg hs]
      have hz : skip / fp.bytesPerCluster = 0 := Nat.div_eq_of_lt (by omega)
      have hm : skip % fp.bytesPerCluster = skip := Nat.mod_eq_of_lt (by omega)
      rw [hz, hm, Nat.add_zero, List.getElem?_eq_getElem hi]
      rfl

/-- The sectors of a cluster: `left` of its bytes are still wanted. -/
theorem fatReadSectors_spec (hd : NoFaults d) (hb : byteOff < 512)
    (hlba : lba + sectorOff + s + k ≤ 2 ^ 28) (hleft : toRead - (done - start) = left)
    (hsize : start + toRead ≤ size) (hstart : start ≤ done) (out : Bytes) :
    fatReadSectors size lba sectorOff toRead start k s byteOff done out d =
      (some (done + min (512 * k - byteOff) left,
        blit out done (min (512 * k - byteOff) left) d.image
          (512 * (lba + sectorOff + s) + byteOff)), d) := by
  induction k generalizing s byteOff done out left with
  | zero =>
    have h0 : min (512 * 0 - byteOff) left = 0 := by omega
    rw [h0, blit_zero]
    rfl
  | succ k ih =>
    generalize hcur : lba + sectorOff + s = cur
    have hmod : cur % 2 ^ 32 = cur := Nat.mod_eq_of_lt (by omega)
    have hrest (m : Nat) : toRead - (done + m - start) = left - m := by omega
    generalize hcb : min (512 - byteOff) left = cb
    have hcb' : min (min (512 - byteOff) (toRead - (done - start))) 512 = cb := by omega
    have hcopy : blit out done cb (d.sectors cur) byteOff =
        blit out done cb d.image (512 * cur + byteOff) := by
      funext a
      by_cases ha : done ≤ a ∧ a < done + cb
      · rw [blit_in _ _ _ ha, blit_in _ _ _ ha, sector_image d cur (by omega), Nat.add_assoc]
      · rw [blit_off _ _ _ (by omega), blit_off _ _ _ (by omega)]
    simp only [fatReadSectors, hcur, hmod, ataReadSectors_eq hd (show cur < 2 ^ 28 by omega), hcb',
      hcopy]
    by_cases hend : done + cb ≥ size
    · have hn : min (512 * (k + 1) - byteOff) left = cb := by omega
      rw [if_pos hend, hn]
    · have hat : 512 * (lba + sectorOff + (s + 1)) + 0 = 512 * cur + byteOff + (512 - byteOff) := by
        omega
      rw [if_neg hend, ih (by decide) (by omega) (hrest cb) (by omega), hat, Nat.add_assoc]
      have hn : min (512 * (k + 1) - byteOff) left = cb + min (512 * k - 0) (left - cb) := by omega
      rw [hn]
      by_cases hfull : cb = 512 - byteOff
      · rw [← hfull, blit_blit]
      · -- nothing of the cluster is wanted any more
        have h0 : min (512 * k - 0) (left - cb) = 0 := by omega
        rw [h0, blit_zero, Nat.add_zero]

theorem fatReadRound (hg : Geometry fp) (hd : NoFaults d) (hx : Valid fp x)
    (ho : o < fp.bytesPerCluster) (hdone : done < size) (out : Bytes) :
    fatReadSectors size (fatClusterToLba fp x) (o / 512) (min (fp.bytesPerCluster - o) (size - done))
        done ((min (fp.bytesPerCluster - o) (size - done) + 511) / 512) 0 (o % 512) done out d =
      (some (done + firstRun fp.bytesPerCluster o (size - done),
        blit out done (firstRun fp.bytesPerCluster o (size - done)) d.image
          (clusterAddr fp x + o)), d) := by
  have hcl := hg.cluster
  have hlt := clusterLba_lt hg hx
  have hrun : min (512 * ((min (fp.bytesPerCluster - o) (size - done) + 511) / 512) - o % 512)
      (min (fp.bytesPerCluster - o) (size - done)) = firstRun fp.bytesPerCluster o (size - done) := by
    rw [firstRun]
    omega
  have hat : 512 * (clusterLba fp x + o / 512 + 0) + o % 512 = clusterAddr fp x + o := by
    rw [clusterAddr]
    omega
  rw [fatClusterToLba_eq hg hx, fatReadSectors_spec hd (Nat.mod_lt _ (by decide)) (by omega)
    (show _ = min (fp.bytesPerCluster - o) (size - done) by omega) (by omega) (Nat.le_refl _), hrun,
    hat]

/-- The loop over the clusters, from offset `o` in the one at `i`. -/
theorem fatReadClusters_spec (hg : Geometry fp) (hd : NoFaults d) (hl : FatChain fp d.image c l)
    (hi : i < l.length) (ho : o < fp.bytesPerCluster) (hdone : done ≤ size)
    (hf : size - done < fuel) (hrun : run = firstRun fp.bytesPerCluster o (size - done))
    (out : Bytes) :
    ∃ out', fatReadClusters fp size fuel l[i] o done out d =
        some (some (readEnd fp.bytesPerCluster l.length i run done size, out'), d) ∧
      (∀ k, k < done ∨ size ≤ k → out' k = out k) ∧
      ∀ k, done ≤ k → k < readEnd fp.bytesPerCluster l.length i run done size →
        out' k = chainByte fp d.image l (readPos fp.bytesPerCluster i o run done k) := by
  induction fuel generalizing i o done out run with
  | zero => omega
  | succ fuel ih =>
    by_cases hlt : done < size
    · have hx : Valid fp l[i] := hl.2 _ (List.getElem_mem hi)
      obtain ⟨hpos, hle, hfit⟩ := firstRun_spec hg ho (show 0 < size - done by omega)
      simp only [fatReadClusters, if_pos hlt, fatReadRound hg hd hx ho hlt, ← hrun]
      rw [← hrun] at hpos hle hfit
      -- the bytes of this round
      have hhere : ∀ k, done ≤ k → k < done + run →
          blit out done run d.image (clusterAddr fp l[i] + o) k =
            chainByte fp d.image l (i * fp.bytesPerCluster + o + (k - done)) := by
        intro k h1 h2
        have hdiv : (i * fp.bytesPerCluster + o + (k - done)) / fp.bytesPerCluster = i := by
          apply Nat.div_eq_of_lt_le
          · omega
          · rw [Nat.add_mul, Nat.one_mul]
            omega
        have hdm := Nat.div_add_mod (i * fp.bytesPerCluster + o + (k - done)) fp.bytesPerCluster
        rw [hdiv, Nat.mul_comm] at hdm
        rw [blit_in _ _ _ ⟨h1, h2⟩, chainByte, chainAddr, hdiv, List.getD_eq_getElem _ _ hi]
        congr 1
        omega
      by_cases hend : done + run ≥ size
      · have hlast : readEnd fp.bytesPerCluster l.length i run done size = done + run := by
          rw [readEnd]
          generalize (l.length - (i + 1)) * fp.bytesPerCluster = rest
          omega
        rw [if_pos hend, hlast]
        refine ⟨_, rfl, fun k hk => blit_off _ _ _ (by omega), fun k h1 h2 => ?_⟩
        rw [hhere k h1 h2, readPos, if_pos h2]
      · rw [if_neg hend, fatNextCluster_eq hg hd hx.2]
        dsimp only
        by_cases hlast : i + 1 < l.length
        · have hv1 := (hl.2 _ (List.getElem_mem hlast)).lt_eoc hg
          have hcs := hg.bytes_pos
          obtain ⟨out', he, hbefore, hafter⟩ := ih hlast (show 0 < fp.bytesPerCluster by omega)
            (show done + run ≤ size by omega) (by omega) rfl
            (blit out done run d.image (clusterAddr fp l[i] + o))
          rw [firstRun_zero hg] at he hafter
          have hsucc : (l.length - (i + 1)) * fp.bytesPerCluster =
              fp.bytesPerCluster + (l.length - (i + 1 + 1)) * fp.bytesPerCluster := by
            rw [show l.length - (i + 1) = l.length - (i + 1 + 1) + 1 by omega, Nat.add_mul,
              Nat.one_mul, Nat.add_comm]
          have hsame : readEnd fp.bytesPerCluster l.length (i + 1)
              (min fp.bytesPerCluster (size - (done + run))) (done + run) size =
              readEnd fp.bytesPerCluster l.length i run done size := by
            rw [readEnd, readEnd, hsucc]
            generalize (l.length - (i + 1 + 1)) * fp.bytesPerCluster = rest
            omega
          rw [hsame] at he hafter
          refine ⟨out', ?_, fun k hk => ?_, fun k h1 h2 => ?_⟩
          · rw [hl.1.next_getElem hlast, if_neg (by omega)]
            exact he
          · rw [hbefore k (by omega), blit_off _ _ _ (by omega)]
          · by_cases hk : k < done + run
            · rw [hbefore k (.inl hk), hhere k h1 hk, readPos, if_pos hk]
            · rw [hafter k (by omega) h2, readPos, readPos, if_neg hk]
              have hi2 : (i + 1 + 1) * fp.bytesPerCluster =
                  (i + 1) * fp.bytesPerCluster + fp.bytesPerCluster := by
                rw [Nat.add_mul, Nat.one_mul]
              have hks : k < size := by
                have : readEnd fp.bytesPerCluster l.length i run done size ≤ size :=
                  Nat.min_le_left ..
                omega
              split
              · congr 1
                omega
              · congr 1
                omega
        · have hstop : FAT_EOC ≤ fatEntry fp d.image l[i] := hl.1.stop_next (by omega)
          have hz : readEnd fp.bytesPerCluster l.length i run done size = done + run := by
            rw [readEnd, show l.length - (i + 1) = 0 by omega, Nat.zero_mul]
            omega
          rw [if_pos hstop, hz]
          refine ⟨_, rfl, fun k hk => blit_off _ _ _ (by omega), fun k h1 h2 => ?_⟩
          rw [hhere k h1 h2, readPos, if_pos h2]
    · have hds : done = size := by omega
      have hz : readEnd fp.bytesPerCluster l.length i run done size = done := by
        rw [readEnd, hds]
        omega
      rw [hz]
      simp only [fatReadClusters, if_neg hlt]
      exact ⟨out, rfl, fun _ _ => rfl, fun k h1 h2 => absurd h2 (by omega)⟩

-- ---------------------------------------------------------------------------
-- The whole call
-- ---------------------------------------------------------------------------

theorem fatRead_behind (hg : Geometry fp) (hd : NoFaults d)
    (hl : FatChain fp d.image node.cluster l) (hne : l ≠ []) (hf : offset + size < fuel)
    (hoff : l.length ≤ offset / fp.bytesPerCluster) (out : Bytes) :
    fatRead fp fuel node offset size out d = some (-1, out, d) := by
  have hpos : 0 < l.length := List.length_pos_iff.mpr hne
  have hskip := fatReadSkip_spec hg hd hl hpos (show offset < fuel by omega)
  rw [hl.1.getElem_zero hpos, Nat.zero_add, List.getElem?_eq_none hoff] at hskip
  rw [fatRead, hskip]
  rfl

theorem fatRead_spec (hg : Geometry fp) (hd : NoFaults d)
    (hl : FatChain fp d.image node.cluster l) (hne : l ≠ []) (hf : offset + size < fuel)
    (hoff : offset / fp.bytesPerCluster < l.length)
    (hrun : run = firstRun fp.bytesPerCluster (offset % fp.bytesPerCluster) size) (out : Bytes) :
    ∃ out', fatRead fp fuel node offset size out d =
        some (asInt (readEnd fp.bytesPerCluster l.length (offset / fp.bytesPerCluster) run 0 size),
          out', d) ∧ (∀ k, size ≤ k → out' k = out k) ∧
      ∀ k, k < readEnd fp.bytesPerCluster l.length (offset / fp.bytesPerCluster) run 0 size →
        out' k = chainByte fp d.image l (readPos fp.bytesPerCluster (offset / fp.bytesPerCluster)
          (offset % fp.bytesPerCluster) run 0 k) := by
  have hpos : 0 < l.length := List.length_pos_iff.mpr hne
  have hcs := hg.bytes_pos
  have hskip := fatReadSkip_spec hg hd hl hpos (show offset < fuel by omega)
  rw [hl.1.getElem_zero hpos, Nat.zero_add, List.getElem?_eq_getElem hoff] at hskip
  obtain ⟨out', he, hframe, hbytes⟩ := fatReadClusters_spec hg hd hl hoff
    (Nat.mod_lt offset (show 0 < fp.bytesPerCluster by omega)) (Nat.zero_le size)
    (show size - 0 < fuel by omega) hrun out
  refine ⟨out', ?_, fun k hk => hframe k (.inr hk), fun k hk => hbytes k (Nat.zero_le k) hk⟩
  rw [fatRead, hskip, Option.map_some]
  dsimp only
  rw [he]

end EponaOS.Fs
