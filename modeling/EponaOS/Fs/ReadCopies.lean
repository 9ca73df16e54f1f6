import EponaOS.Fs.Usable

/-!
# What a read stores

The copies that `fat_read` makes into the buffer of its caller, one for each sector, also
those of a call that fails in the end. None of them reaches behind the size that was asked
for, and a call that succeeds leaves the buffer that they make.
-/

namespace EponaOS.Fs

open Bytes

/-- `memcpy(out + start, src + srcOff, len)` -/
structure Copied where
  start : Nat
  len : Nat
  src : Bytes
  srcOff : Nat

def Copied.put (out : Bytes) (c : Copied) : Bytes := blit out c.start c.len c.src c.srcOff

/-- The copies of `fatReadSectors`. -/
def sectorCopies (size lba sectorOff toRead clusterStart : Nat) :
    Nat → Nat → Nat → Nat → Disk → List Copied
  | 0, _, _, _, _ => []
  | k + 1, s, byteOff, done, d =>
    let r := ataReadSectors d ((lba + sectorOff + s) % 2 ^ 32)
    match r.1 with
    | none => []
    | some tmp =>
      let cbytes := min (min (512 - byteOff) (toRead - (done - clusterStart))) 512
      ⟨done, cbytes, tmp, byteOff⟩ ::
        if done + cbytes ≥ size then []
        else sectorCopies size lba sectorOff toRead clusterStart k (s + 1) 0 (done + cbytes) r.2

/-- The copies of `fatReadClusters`; what the buffer held does not matter to it. -/
def clusterCopies (fp : FatPrivate) (size : Nat) : Nat → Nat → Nat → Nat → Disk → List Copied
  | 0, _, _, _, _ => []
  | fuel + 1, cluster, skip, done, d =>
    if done < size then
      let lba := fatClusterToLba fp cluster
      let toRead := min (fp.bytesPerCluster - skip) (size - done)
      let rounds := (toRead + 511) / 512
      let r := fatReadSectors size lba (skip / 512) toRead done rounds 0 (skip % 512) done
        (fun _ => 0) d
      sectorCopies size lba (skip / 512) toRead done rounds 0 (skip % 512) done d ++
        match r.1 with
        | none => []
        | some (done, _) =>
          if done ≥ size then []
          else
            let next := fatNextCluster fp r.2 cluster
            if next.1 ≥ FAT_EOC then [] else clusterCopies fp size fuel next.1 0 done next.2
    else []

def fatReadCopies (fp : FatPrivate) (fuel : Nat) (node : VfsNode) (offset size : Nat) (d : Disk) :
    List Copied :=
  match fatReadSkip fp fuel node.cluster offset d with
  | some (some (cluster, skip), d) => clusterCopies fp size fuel cluster skip 0 d
  | _ => []

variable {fp : FatPrivate} {d d' : Disk} {out out' out₁ : Bytes}

-- ---------------------------------------------------------------------------
-- Their bounds
-- ---------------------------------------------------------------------------

theorem sectorCopies_le (hstart : start ≤ done) (hdone : done ≤ start + toRead) :
    ∀ c ∈ sectorCopies size lba off toRead start k s byteOff done d,
      c.start + c.len ≤ start + toRead := by
  induction k generalizing s byteOff done d with
  | zero =>
    intro c hc
    cases hc
  | succ k ih =>
    intro c hc
    rw [sectorCopies] at hc
    dsimp only at hc
    split at hc
    · cases hc
    · obtain rfl | hc := List.mem_cons.mp hc
      · dsimp only
        omega
      · split at hc
        · cases hc
        · exact ih (by omega) (by omega) c hc

theorem clusterCopies_le :
    ∀ c ∈ clusterCopies fp size fuel cluster skip done d, c.start + c.len ≤ size := by
  induction fuel generalizing cluster skip done d with
  | zero =>
    intro c hc
    cases hc
  | succ fuel ih =>
    intro c hc
    rw [clusterCopies] at hc
    split at hc
    · next hlt =>
      dsimp only at hc
      obtain hc | hc := List.mem_append.mp hc
      · have := sectorCopies_le (Nat.le_refl done) (Nat.le_add_right _ _) c hc
        omega
      · split at hc
        · cases hc
        · split at hc
          · cases hc
          · split at hc
            · cases hc
            · exact ih c hc
    · cases hc

theorem fatReadCopies_le {node : VfsNode} :
    ∀ c ∈ fatReadCopies fp fuel node offset size d, c.start + c.len ≤ size := by
  intro c hc
  rw [fatReadCopies] at hc
  split at hc
  · exact clusterCopies_le c hc
  · cases hc

theorem put_of_le {copies : List Copied} (h : ∀ c ∈ copies, c.start + c.len ≤ n) (hi : n ≤ i)
    (out : Bytes) : copies.foldl Copied.put out i = out i := by
  induction copies generalizing out with
  | nil => rfl
  | cons c copies ih =>
    rw [List.foldl_cons, ih (fun c' hc' => h c' (List.mem_cons_of_mem c hc'))]
    exact blit_off _ _ _ (.inr (Nat.le_trans (h c List.mem_cons_self) hi))

-- ---------------------------------------------------------------------------
-- The buffer behind them
-- ---------------------------------------------------------------------------

theorem fatReadSectors_out (size lba off toRead start k s byteOff done : Nat) (d : Disk)
    (out out₁ : Bytes) :
    (fatReadSectors size lba off toRead start k s byteOff done out d).2 =
        (fatReadSectors size lba off toRead start k s byteOff done out₁ d).2 ∧
      (fatReadSectors size lba off toRead start k s byteOff done out d).1.map Prod.fst =
        (fatReadSectors size lba off toRead start k s byteOff done out₁ d).1.map Prod.fst := by
  induction k generalizing s byteOff done out out₁ d with
  | zero => exact ⟨rfl, rfl⟩
  | succ k ih =>
    rw [fatReadSectors, fatReadSectors]
    dsimp only
    split
    · exact ⟨rfl, rfl⟩
    · split
      · exact ⟨rfl, rfl⟩
      · exact ih ..

theorem fatReadSectors_copies
    (h : fatReadSectors size lba off toRead start k s byteOff done out d = (some (n, out'), d')) :
    out' = (sectorCopies size lba off toRead start k s byteOff done d).foldl Copied.put out := by
  induction k generalizing s byteOff done out d with
  | zero =>
    cases h
    rfl
  | succ k ih =>
    rw [fatReadSectors] at h
    rw [sectorCopies]
    dsimp only at h ⊢
    cases htmp : (ataReadSectors d ((lba + off + s) % 2 ^ 32)).1 with
    | none =>
      rw [htmp] at h
      cases h
    | some tmp =>
      rw [htmp] at h
      dsimp only at h ⊢
      rw [List.foldl_cons]
      split at h
      · next hend =>
        cases h
        rw [if_pos hend]
        rfl
      · next hend =>
        rw [if_neg hend]
        exact ih h

theorem fatReadClusters_copies
    (h : fatReadClusters fp size fuel cluster skip done out d = some (some (n, out'), d')) :
    out' = (clusterCopies fp size fuel cluster skip done d).foldl Copied.put out := by
  induction fuel generalizing cluster skip done out d with
  | zero => cases h
  | succ fuel ih =>
    rw [fatReadClusters] at h
    rw [clusterCopies]
    split at h
    · next hlt =>
      rw [if_pos hlt]
      dsimp only at h ⊢
      generalize hlba : fatClusterToLba fp cluster = lba at *
      generalize min (fp.bytesPerCluster - skip) (size - done) = toRead at *
      obtain ⟨hd, hn⟩ := fatReadSectors_out size lba (skip / 512) toRead done ((toRead + 511) / 512)
        0 (skip % 512) done d out fun _ => 0
      generalize hr : fatReadSectors size lba (skip / 512) toRead done ((toRead + 511) / 512) 0
        (skip % 512) done out d = r at *
      generalize fatReadSectors size lba (skip / 512) toRead done ((toRead + 511) / 512) 0
        (skip % 512) done (fun _ => 0) d = r' at *
      obtain ⟨_ | ⟨m, out₂⟩, d₂⟩ := r
      · cases h
      · obtain ⟨_ | ⟨m', out₃⟩, d₃⟩ := r'
        · cases hn
        · cases hd
          cases hn
          dsimp only at h ⊢
          rw [List.foldl_append, ← fatReadSectors_copies hr]
          split at h
          · next hend =>
            cases h
            rw [if_pos hend]
            rfl
          · next hend =>
            rw [if_neg hend]
            split at h
            · next heoc =>
              cases h
              rw [if_pos heoc]
              rfl
            · next heoc =>
              rw [if_neg heoc]
              exact ih h
    · next hlt =>
      cases h
      rw [if_neg hlt]
      rfl

theorem fatRead_copies {node : VfsNode} (h : fatRead fp fuel node offset size out d = some (r, out', d'))
    (hr : 0 ≤ r) : out' = (fatReadCopies fp fuel node offset size d).foldl Copied.put out := by
  rw [fatRead] at h
  rw [fatReadCopies]
  split at h
  · cases h
  · cases h
    omega
  · next hskip =>
    rw [hskip]
    dsimp only
    split at h
    · cases h
    · cases h
      omega
    · next hread =>
      cases h
      exact fatReadClusters_copies hread

end EponaOS.Fs
