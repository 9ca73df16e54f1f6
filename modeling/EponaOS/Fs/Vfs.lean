import EponaOS.Lib.Run
import EponaOS.Fs.FatFuel
import EponaOS.Fs.FatOverlay
import EponaOS.Fs.FatRead

/-!
# Handles of a file

`vfs_read` and `vfs_write` of `vfs.c` over the FAT driver, and `vfs_create` on a file that
exists: one node, and any number of handles open on it, each with its own offset. The
bytes stored in the file since it was last truncated are kept along, to say what a read
should return.
-/

namespace EponaOS.Fs

open Bytes

/-- `f->offset += ret` -/
def advance (offset : Nat) (ret : Int) : Nat := ((offset + ret) % 2 ^ 64).toNat

/-- `f->node->size - f->offset`, of `uint64_t`. -/
def remaining (node : VfsNode) (offset : Nat) : Nat := (node.size + 2 ^ 64 - offset) % 2 ^ 64

/-- What `vfs_read` makes of the result of `fs->read` when it asked for `size` bytes. -/
def readResult (offset size : Nat) (r : Int × Bytes × Disk) : Int × Nat × Bytes × Disk :=
  if r.1 > 0 then
    let ret := if r.1.toNat > size then asInt size else r.1
    (ret, advance offset ret, r.2)
  else (r.1, offset, r.2)

/-- The return value, the new offset of the handle, the buffer and the disk. -/
def vfsRead (fp : FatPrivate) (fuel : Nat) (node : VfsNode) (offset size : Nat) (buf : Bytes)
    (d : Disk) : Option (Int × Nat × Bytes × Disk) :=
  let size := min size (remaining node offset)
  (fatRead fp fuel node offset size buf d).map (readResult offset size)

def writeResult (offset : Nat) (r : Int × VfsNode × Disk) : Int × Nat × VfsNode × Disk :=
  (r.1, if r.1 > 0 then advance offset r.1 else offset, r.2)

def vfsWrite (fp : FatPrivate) (junk : Bytes) (fuel : Nat) (node : VfsNode) (offset size : Nat)
    (buf : Bytes) (d : Disk) : Option (Int × Nat × VfsNode × Disk) :=
  (fatWrite fp junk fuel node offset size buf d).map (writeResult offset)

/-- `vfs_create` on an existing file; both branches of the source do this. -/
def vfsCreateExisting (node : VfsNode) : VfsNode := { node with size := 0 }

-- ---------------------------------------------------------------------------
-- The system
-- ---------------------------------------------------------------------------

/-- A file, the handles that are open on it by their offsets, and for each position the byte
that was stored there since the last truncation. -/
structure FileState where
  node : VfsNode
  disk : Disk
  files : Nat → Option Nat
  stored : Nat → Option UInt8

def setFile (files : Nat → Option Nat) (h : Nat) (offset : Option Nat) : Nat → Option Nat :=
  fun k => if k = h then offset else files k

def store (stored : Nat → Option UInt8) (offset n : Nat) (buf : Bytes) : Nat → Option UInt8 :=
  fun j => if offset ≤ j ∧ j < offset + n then some (buf (j - offset)) else stored j

/-- A read carries what it returned. A `vfs_create` whose `kmalloc` fails has no handle, and
`seek` stands for the places that set `f->offset`. -/
inductive FileAct
  | vfsOpen (h : Nat)
  | vfsCreate (h : Option Nat)
  | vfsClose (h : Nat)
  | seek (h offset : Nat)
  | vfsRead (h size : Nat) (ret : Int) (buf : Bytes)
  | vfsWrite (h size : Nat) (buf : Bytes)

def fileStep (fp : FatPrivate) (s : FileState) (a : FileAct) (s' : FileState) : Prop :=
  match a with
  | .vfsOpen h => s.files h = none ∧ s' = { s with files := setFile s.files h (some 0) }
  | .vfsCreate h => (∀ k, h = some k → s.files k = none) ∧
      s' = { s with
        node := vfsCreateExisting s.node
        files := h.elim s.files fun k => setFile s.files k (some 0)
        stored := fun _ => none }
  | .vfsClose h => s' = { s with files := setFile s.files h none }
  | .seek h offset => s.files h ≠ none ∧ offset < 2 ^ 64 ∧
      s' = { s with files := setFile s.files h (some offset) }
  | .vfsRead h size ret buf => ∃ offset offset' before d, s.files h = some offset ∧
      Returns (fun fuel => vfsRead fp fuel s.node offset size before s.disk) (ret, offset', buf, d) ∧
      s' = { s with disk := d, files := setFile s.files h (some offset') }
  | .vfsWrite h size buf => ∃ offset offset' junk ret node d, s.files h = some offset ∧
      Returns (fun fuel => vfsWrite fp junk fuel s.node offset size buf s.disk)
        (ret, offset', node, d) ∧
      s' = { node, disk := d, files := setFile s.files h (some offset')
             stored := store s.stored offset ret.toNat buf }

-- ---------------------------------------------------------------------------
-- Reading within the file
-- ---------------------------------------------------------------------------

variable {fp : FatPrivate} {d : Disk} {m m' : Bytes} {node : VfsNode} {l l' : List Nat}

theorem vfsRead_returns_of (h : fatRead fp fuel node offset (min size (remaining node offset)) buf d =
    some r) : Returns (fun fuel => vfsRead fp fuel node offset size buf d)
      (readResult offset (min size (remaining node offset)) r) :=
  (FuelMono.returns (fatRead_mono fp node offset _ buf d) h).map _

theorem vfsWrite_returns_of (h : fatWrite fp junk fuel node offset size buf d = some r) :
    Returns (fun fuel => vfsWrite fp junk fuel node offset size buf d) (writeResult offset r) :=
  (FuelMono.returns (fatWrite_mono fp junk node offset size buf d) h).map _

theorem remaining_eq (hn : node.size < 2 ^ 32) (h : offset ≤ node.size) :
    remaining node offset = node.size - offset := by
  rw [remaining]
  omega

theorem readResult_eq {size : Nat} (hr : r.1 ≤ (size : Int)) :
    readResult offset size r = (r.1, if r.1 > 0 then advance offset r.1 else offset, r.2) := by
  rw [readResult]
  split
  · rw [if_neg (show ¬ r.1.toNat > size by omega)]
  · rfl

theorem readEnd_le (cs clusters i run done size : Nat) :
    readEnd cs clusters i run done size ≤ size := Nat.min_le_left ..

/-- What is returned from a position in the file comes from where it should, unless the read
ends inside its first cluster and needs a sector more than its length alone. -/
theorem readPos_eq (hg : Geometry fp) (hsize : 0 < size) (h : ¬ Misplaced fp offset size)
    (hk : k < size) : readPos fp.bytesPerCluster (offset / fp.bytesPerCluster)
      (offset % fp.bytesPerCluster)
      (firstRun fp.bytesPerCluster (offset % fp.bytesPerCluster) size) 0 k = offset + k := by
  have hdm := Nat.div_add_mod offset fp.bytesPerCluster
  rw [Nat.mul_comm] at hdm
  have hom := Nat.mod_lt offset (show 0 < fp.bytesPerCluster by have := hg.bytes_pos; omega)
  rw [firstRun_of_not_misplaced hg hsize h, readPos, Nat.add_mul, Nat.one_mul]
  split <;> omega

theorem readEnd_whole (hg : Geometry fp) (hsize : 0 < size) (hmis : ¬ Misplaced fp offset size)
    (hin : offset + size ≤ clusters * fp.bytesPerCluster) :
    readEnd fp.bytesPerCluster clusters (offset / fp.bytesPerCluster)
      (firstRun fp.bytesPerCluster (offset % fp.bytesPerCluster) size) 0 size = size := by
  have hcs := hg.bytes_pos
  have hoff : offset / fp.bytesPerCluster < clusters :=
    Nat.div_lt_of_lt_mul (by rw [Nat.mul_comm]; omega)
  have hdm := Nat.div_add_mod offset fp.bytesPerCluster
  have hsplit : clusters * fp.bytesPerCluster =
      (offset / fp.bytesPerCluster + 1) * fp.bytesPerCluster +
        (clusters - (offset / fp.bytesPerCluster + 1)) * fp.bytesPerCluster := by
    rw [← Nat.add_mul, Nat.add_sub_cancel' hoff]
  rw [Nat.mul_comm] at hdm
  rw [readEnd, firstRun_of_not_misplaced hg hsize hmis]
  rw [Nat.add_mul, Nat.one_mul] at hsplit
  omega

theorem vfsRead_mono (fp : FatPrivate) (node : VfsNode) (offset size : Nat) (buf : Bytes) (d : Disk) :
    FuelMono fun fuel => vfsRead fp fuel node offset size buf d := by
  intro n r h
  obtain ⟨r', hr', hr⟩ := Option.map_eq_some_iff.mp h
  exact Option.map_eq_some_iff.mpr ⟨r', fatRead_mono fp node offset _ buf d n r' hr', hr⟩

theorem vfsRead_whole (hg : Geometry fp) (hd : NoFaults d) (hn : FileNode fp d.image node l)
    (hpos : 0 < size) (h31 : size < 2 ^ 31) (hin : offset + size ≤ node.size)
    (hmis : ¬ Misplaced fp offset size) (h : vfsRead fp fuel node offset size before d = some r) :
    ∃ buf, r = ((size : Int), offset + size, buf, d) ∧
      ∀ k, k < size → buf k = chainByte fp d.image l (offset + k) := by
  have hcs := hg.bytes_pos
  have hlt := hn.size_lt
  have hle := hn.size_le
  have hrem : min size (remaining node offset) = size := by
    rw [remaining_eq hlt (by omega)]
    omega
  have hoff : offset / fp.bytesPerCluster < l.length :=
    Nat.div_lt_of_lt_mul (by rw [Nat.mul_comm]; omega)
  obtain ⟨buf, hread, -, hbytes⟩ := fatRead_spec hg hd hn.chain (hn.chain.ne_nil hg hn.first)
    (Nat.lt_succ_self (offset + size)) hoff rfl before
  have hend := readEnd_whole hg hpos hmis (show offset + size ≤ _ from Nat.le_trans hin hle)
  rw [hend, asInt_of_lt h31] at hread
  rw [hend] at hbytes
  rw [← hrem] at hread
  have hret := vfsRead_returns_of hread
  rw [hrem, readResult_eq (Int.le_refl _)] at hret
  refine ⟨buf, ?_, fun k hk => ?_⟩
  · have hadv : advance offset size = offset + size := by
      rw [advance]
      omega
    rw [(FuelMono.returns (vfsRead_mono fp node offset size before d) h).unique hret,
      if_pos (by simpa using hpos), hadv]
  · rw [hbytes k hk, readPos_eq hg hpos hmis hk]

end EponaOS.Fs
