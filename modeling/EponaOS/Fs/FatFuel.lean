import EponaOS.Lib.Fuel
import EponaOS.Fs.Fat

/-!
# The fuel of the FAT driver

A loop over a chain that ends with some fuel ends with more of it in the same way, and so
do reading and writing.
-/

namespace EponaOS.Fs

open Bytes

theorem fatReadSkip_mono (fp : FatPrivate) (cluster skip : Nat) (d : Disk) :
    FuelMono fun fuel => fatReadSkip fp fuel cluster skip d := by
  intro fuel r h
  induction fuel generalizing cluster skip d with
  | zero => cases h
  | succ fuel ih =>
    dsimp only at h ⊢
    rw [fatReadSkip] at h ⊢
    split at h
    · rename_i hs
      rw [if_pos hs]
      dsimp only at h ⊢
      split at h
      · rename_i hend
        rw [if_pos hend]
        exact h
      · rename_i hend
        rw [if_neg hend]
        exact ih _ _ _ h
    · rename_i hs
      rw [if_neg hs]
      exact h

theorem fatReadClusters_mono (fp : FatPrivate) (size cluster skip done : Nat) (out : Bytes)
    (d : Disk) : FuelMono fun fuel => fatReadClusters fp size fuel cluster skip done out d := by
  intro fuel r h
  induction fuel generalizing cluster skip done out d with
  | zero => cases h
  | succ fuel ih =>
    dsimp only at h ⊢
    rw [fatReadClusters] at h ⊢
    split at h
    · rename_i hlt
      rw [if_pos hlt]
      dsimp only at h ⊢
      split at h
      · exact h
      · split at h
        · rename_i hend
          rw [if_pos hend]
          exact h
        · rename_i hend
          rw [if_neg hend]
          split at h
          · rename_i hlast
            rw [if_pos hlast]
            exact h
          · rename_i hlast
            rw [if_neg hlast]
            exact ih _ _ _ _ _ h
    · rename_i hlt
      rw [if_neg hlt]
      exact h

theorem fatRead_mono (fp : FatPrivate) (node : VfsNode) (offset size : Nat) (out : Bytes)
    (d : Disk) : FuelMono fun fuel => fatRead fp fuel node offset size out d := by
  intro fuel r h
  dsimp only at h ⊢
  rw [fatRead] at h ⊢
  split at h
  · cases h
  · rename_i hskip
    have hskip := fatReadSkip_mono _ _ _ _ _ _ hskip
    dsimp only at hskip
    rw [hskip]
    exact h
  · rename_i hskip
    have hskip := fatReadSkip_mono _ _ _ _ _ _ hskip
    dsimp only at hskip
    rw [hskip]
    dsimp only
    split at h
    · cases h
    · rename_i hcl
      have hcl := fatReadClusters_mono _ _ _ _ _ _ _ _ _ hcl
      dsimp only at hcl
      rw [hcl]
      exact h
    · rename_i hcl
      have hcl := fatReadClusters_mono _ _ _ _ _ _ _ _ _ hcl
      dsimp only at hcl
      rw [hcl]
      exact h

theorem fatWriteSkip_mono (fp : FatPrivate) (node : VfsNode) (cluster skip : Nat) (d : Disk) :
    FuelMono fun fuel => fatWriteSkip fp fuel node cluster skip d := by
  intro fuel r h
  induction fuel generalizing node cluster skip d with
  | zero => cases h
  | succ fuel ih =>
    dsimp only at h ⊢
    rw [fatWriteSkip] at h ⊢
    split at h
    · rename_i hs
      rw [if_pos hs]
      dsimp only at h ⊢
      split at h
      · rename_i hfull
        rw [if_pos hfull]
        exact h
      · rename_i hfull
        rw [if_neg hfull]
        exact ih _ _ _ _ h
    · rename_i hs
      rw [if_neg hs]
      exact h

theorem fatWriteClusters_mono (fp : FatPrivate) (junk buf : Bytes) (size cluster skip done : Nat)
    (d : Disk) : FuelMono fun fuel => fatWriteClusters fp junk buf size fuel cluster skip done d := by
  intro fuel r h
  induction fuel generalizing cluster skip done d with
  | zero => cases h
  | succ fuel ih =>
    dsimp only at h ⊢
    rw [fatWriteClusters] at h ⊢
    split at h
    · rename_i hlt
      rw [if_pos hlt]
      dsimp only at h ⊢
      split at h
      · rename_i hend
        rw [if_pos hend]
        exact h
      · rename_i hend
        rw [if_neg hend]
        split at h
        · rename_i hfull
          rw [if_pos hfull]
          exact h
        · rename_i hfull
          rw [if_neg hfull]
          exact ih _ _ _ _ h
    · rename_i hlt
      rw [if_neg hlt]
      exact h

theorem fatWrite_mono (fp : FatPrivate) (junk : Bytes) (node : VfsNode) (offset size : Nat)
    (buf : Bytes) (d : Disk) :
    FuelMono fun fuel => fatWrite fp junk fuel node offset size buf d := by
  intro fuel r h
  dsimp only at h ⊢
  rw [fatWrite] at h ⊢
  split at h
  · rename_i h0
    rw [if_pos h0]
    exact h
  rename_i h0
  rw [if_neg h0]
  split at h
  · cases h
  · rename_i hskip
    have hskip := fatWriteSkip_mono _ _ _ _ _ _ _ hskip
    dsimp only at hskip
    rw [hskip]
    exact h
  · rename_i hskip
    have hskip := fatWriteSkip_mono _ _ _ _ _ _ _ hskip
    dsimp only at hskip
    rw [hskip]
    dsimp only
    split at h
    · cases h
    · rename_i hcl
      have hcl := fatWriteClusters_mono _ _ _ _ _ _ _ _ _ _ hcl
      dsimp only at hcl
      rw [hcl]
      exact h
    · rename_i hcl
      have hcl := fatWriteClusters_mono _ _ _ _ _ _ _ _ _ _ hcl
      dsimp only at hcl
      rw [hcl]
      exact h

end EponaOS.Fs
