import EponaOS.Fs.FatDir
import EponaOS.Fs.FatOverlay
import EponaOS.Lib.Volume

/-!
# The image as a volume

The clusters, the table and the directory entries of an image, read as a volume of linked
clusters: what the root leads to are the files and directories that the driver can come to.
-/

namespace EponaOS.Fs

open Bytes

def layout (hg : Geometry fp) : Volume.Layout where
  valid := Valid fp
  stop := (FAT_EOC ≤ ·)
  perCluster := 16 * fp.bpb.sectorsPerCluster
  root := fp.rootCluster
  zero_invalid h := absurd h.1 (by decide)
  zero_goes_on h := absurd h (by decide)
  valid_goes_on _ hx := Nat.not_le.mpr (hx.lt_eoc hg)

def isDots (n : FatName) : Bool := n.bytes = dotName ∨ n.bytes = dotdotName

/-- The entry in the 32 bytes from `a` on. Those of a directory itself and of its parent lead
to nothing below. -/
def direntAt (m : Bytes) (a : Nat) : Volume.Dirent FatName :=
  if m a = 0 then .last
  else if deSkipped m a ∨ isDots (deName m a) then .skipped
  else .live (deName m a) (deFlags m a = VFS_DIR) (deCluster m a) (deSize m a)

def slotAt (s : Volume.Slot) : Slot := ⟨s.1, s.2⟩

def volOf (fp : FatPrivate) (m : Bytes) : Volume.State FatName where
  next := fatEntry fp m
  entry s := direntAt m ((slotAt s).addr fp)

/-- Every file and directory that the root leads to has a chain of its own, apart from empty
files that have none. -/
structure WellFormed (hg : Geometry fp) (m : Bytes) : Prop where
  chain : ∀ st, Volume.Reached (layout hg) (volOf fp m) st →
    ((volOf fp m).isDir st = false ∧ (volOf fp m).first (layout hg) st = 0) ∨
      ∃ l, l ≠ [] ∧ FatChain fp m ((volOf fp m).first (layout hg) st) l
  apart : ∀ st st' l l' x, Volume.Reached (layout hg) (volOf fp m) st →
    Volume.Reached (layout hg) (volOf fp m) st' →
    FatChain fp m ((volOf fp m).first (layout hg) st) l →
    FatChain fp m ((volOf fp m).first (layout hg) st') l' → x ∈ l → x ∈ l' → st = st'

/-- The node of the file that has its entry in the slot `s`, as `fat_readdir` makes it. -/
structure NodeOf (fp : FatPrivate) (m : Bytes) (s : Volume.Slot) (node : VfsNode) : Prop where
  place : node.At fp (slotAt s)
  cluster : node.cluster = deCluster m ((slotAt s).addr fp)
  size : node.size = deSize m ((slotAt s).addr fp)

/-- A live entry of a file, in a directory that the root leads to. -/
structure LiveFile (hg : Geometry fp) (m : Bytes) (s : Volume.Slot) : Prop where
  reached : Volume.Reached (layout hg) (volOf fp m) (.entry s)
  file : (volOf fp m).isDir (.entry s) = false

variable {fp : FatPrivate} {m : Bytes} {s : Volume.Slot} {node : VfsNode} {hg : Geometry fp}

theorem isChain_iff (hg : Geometry fp) :
    Volume.IsChain (layout hg) (volOf fp m) c l ↔ FatChain fp m c l := Iff.rfl

theorem FatChain.ne_zero (hg : Geometry fp) (h : FatChain fp m c l) : c ≠ 0 :=
  Volume.IsChain.ne_zero ((isChain_iff hg).mpr h)

theorem first_of_live (h : ((volOf fp m).entry s).isLive = true) :
    (volOf fp m).first (layout hg) (.entry s) = deCluster m ((slotAt s).addr fp) := by
  simp only [Volume.State.first, volOf, direntAt] at h ⊢
  split at h
  · cases h
  · rename_i hlast
    split at h
    · cases h
    · rename_i hskip
      rw [if_neg hlast, if_neg hskip]
      rfl

theorem LiveFile.slot (h : LiveFile hg m s) :
    (slotAt s).Ok fp ∧ fatEntry fp m (slotAt s).cluster ≠ 0 := by
  obtain ⟨st, hin⟩ := h.reached.inDir
  exact ⟨hin.valid, hin.next_ne_zero⟩

theorem LiveFile.chain (h : LiveFile hg m s) (hw : WellFormed hg m) (hn : NodeOf fp m s node) :
    node.cluster = 0 ∨ ∃ l, l ≠ [] ∧ FatChain fp m node.cluster l := by
  have hfirst : (volOf fp m).first (layout hg) (.entry s) = deCluster m ((slotAt s).addr fp) :=
    first_of_live h.reached.live
  rw [hn.cluster, ← hfirst]
  exact (hw.chain _ h.reached).imp_left And.right

end EponaOS.Fs
