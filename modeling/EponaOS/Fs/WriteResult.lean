import EponaOS.Fs.Truncation
import EponaOS.Fs.FatDir

/-!
# What the result of a write says

`fat_write` returns how many bytes it counted. Without errors the count is right where the bytes
of a tail are not misplaced and the count reaches the directory entry: a write that runs out of
clusters returns before the entry is updated.
-/

namespace EponaOS.Fs

open Bytes

variable {fp : FatPrivate} {d d' : Disk} {node node' : VfsNode} {l l' : List Nat} {buf junk : Bytes}
  {m : Bytes} {offset size n done a c i j x : Nat}

-- ---------------------------------------------------------------------------
-- Results that are true
-- ---------------------------------------------------------------------------

/-- From the first to the last field of the entry that `fat_update_dirent_size` writes. -/
def EntryField (node : VfsNode) (a : Nat) : Prop :=
  512 * node.dirLba + node.dirOff + 20 ≤ a ∧ a < 512 * node.dirLba + node.dirOff + 32

def clustersAsked (fp : FatPrivate) (offset size : Nat) : Nat :=
  offset / fp.bytesPerCluster + 1 + clustersFor fp.bytesPerCluster
    (size - firstRun fp.bytesPerCluster (offset % fp.bytesPerCluster) size)

def grownTo (fp : FatPrivate) (m : Bytes) (l : List Nat) (n : Nat) : List Nat :=
  l ++ (freeList fp m).take (n - l.length)

/-- The chain `l'` of the file, and the bytes, after `done` bytes are counted. -/
structure Outcome (fp : FatPrivate) (node : VfsNode) (l : List Nat) (offset size : Nat) (buf : Bytes)
    (d : Disk) (node' : VfsNode) (d' : Disk) (l' : List Nat) : Prop where
  chain : FatChain fp d'.image node'.cluster l'
  grown : l' = grownTo fp d.image l l'.length
  bytes : ∀ j, j < l'.length * fp.bytesPerCluster → chainByte fp d'.image l' j =
    placed fp.bytesPerCluster (offset / fp.bytesPerCluster) (offset % fp.bytesPerCluster)
      (firstRun fp.bytesPerCluster (offset % fp.bytesPerCluster) size) size 0 buf
      (chainByte fp d.image l') j
  others : ∀ a, ¬ InTable fp a → ¬ EntryField node a → (∀ x ∈ l', ¬ InCluster fp x a) →
    d'.image a = d.image a
  apart : ∀ x ∈ l', ∀ a, InCluster fp x a → ¬ EntryField node a

/-- After `n` bytes are counted: the bytes along the chain are the buffer's over the old ones. -/
def Overlays (fp : FatPrivate) (l : List Nat) (offset n : Nat) (buf : Bytes) (d d' : Disk) : Prop :=
  ∀ j, j < l.length * fp.bytesPerCluster → chainByte fp d'.image l j =
    if offset ≤ j ∧ j < offset + n then buf (j - offset) else chainByte fp d.image l j

theorem Outcome.short (h : Outcome fp node l offset size buf d node' d' l') (hg : Geometry fp)
    (hsize : 0 < size) (hlt : done < size) (hshort : Short fp.bytesPerCluster l'.length offset size done)
    (hfull : l'.length < clustersAsked fp offset size) : Overlays fp l' offset done buf d d' := by
  intro j hj
  rw [h.bytes j hj]
  by_cases hm : Misplaced fp offset size
  · -- the tail did not get a cluster
    obtain ⟨-, haskm⟩ := clusters_asked hg hsize offset
    have hdm := Nat.div_add_mod offset fp.bytesPerCluster
    rw [Nat.mul_comm] at hdm
    rw [clustersAsked, (haskm hm).1] at hfull
    have hj' : j < (offset / fp.bytesPerCluster + 1) * fp.bytesPerCluster :=
      Nat.lt_of_lt_of_le hj (Nat.mul_le_mul_right _ (by omega))
    rw [placed, Nat.zero_add]
    obtain ⟨rfl, hlen⟩ | ⟨hlen, hdone⟩ := hshort
    · have hle := Nat.mul_le_mul_right fp.bytesPerCluster hlen
      rw [if_neg (by omega), if_neg (by omega), if_neg (by omega)]
    · rw [show l'.length - (offset / fp.bytesPerCluster + 1) = 0 by omega, Nat.zero_mul,
        Nat.add_zero] at hdone
      rw [← hdone, hdm]
      by_cases hin : offset ≤ j ∧ j < offset + done
      · rw [if_pos hin, if_pos hin]
      · rw [if_neg hin, if_neg hin, if_neg (by omega)]
  · exact placed_overlay hg hsize (.inr ⟨hlt, hshort⟩) (fun hm' => absurd hm' hm) hj

theorem Short.le (hg : Geometry fp) (h : Short fp.bytesPerCluster c offset size done)
    (hsize : 0 < size) (hdone : 0 < done) : offset + done ≤ c * fp.bytesPerCluster := by
  obtain ⟨h0, -⟩ | ⟨hin, hrun⟩ := h
  · omega
  · have hcs := hg.bytes_pos
    have hdm := Nat.div_add_mod offset fp.bytesPerCluster
    rw [Nat.mul_comm] at hdm
    have hfit := (firstRun_spec hg (Nat.mod_lt offset (show 0 < fp.bytesPerCluster by omega)) hsize).2.2
    have hrest : (c - (offset / fp.bytesPerCluster + 1)) * fp.bytesPerCluster +
        (offset / fp.bytesPerCluster + 1) * fp.bytesPerCluster = c * fp.bytesPerCluster := by
      rw [← Nat.add_mul, Nat.sub_add_cancel hin]
    rw [Nat.add_mul (offset / fp.bytesPerCluster), Nat.one_mul] at hrest
    omega

section Call

variable (hg : Geometry fp) (hd : NoFaults d) (hn : FileNode fp d.image node l)
  (h32 : size < 2 ^ 32)
include hg hd hn h32

end Call

end EponaOS.Fs
