import EponaOS.Fs.Disk

/-!
# The FAT driver: clusters and file data

`fat.c` below the directories: the table, the allocator, the free list, and reading and
writing the data of a node. Numbers of clusters and sectors are `uint32_t`, file offsets
`uint64_t`. A loop over a chain of clusters ends only if the chain does; its length is
bounded by a fuel, and `none` says that the loop still runs.
-/

namespace EponaOS.Fs

open Bytes

def FAT_EOC : Nat := 0x0FFFFFF8

/-- The fields of `fat_bpb_t` that the driver reads. -/
structure FatBpb where
  bytesPerSector : Nat
  sectorsPerCluster : Nat
  reservedSectors : Nat
  fatCount : Nat
  rootMaxEntries : Nat
  totalSectors16 : Nat
  totalSectors32 : Nat
  fatSize32 : Nat
  rootCluster : Nat
  sig : Nat

/-- `fat_private_t`, but for the drive it names. -/
structure FatPrivate where
  bpb : FatBpb
  fatStart : Nat
  dataStart : Nat
  sectorsPerFat : Nat
  rootCluster : Nat
  bytesPerCluster : Nat

abbrev CStr := List UInt8

def VFS_FILE : Nat := 1
def VFS_DIR : Nat := 2

/-- `vfs_node_t` with its `fat_node_data_t`; nodes are named by number, and the list that
`children` and `next` link is a list here. -/
structure VfsNode where
  name : CStr
  size : Nat
  flags : Nat
  cluster : Nat
  dirLba : Nat
  dirOff : Nat
  parent : Option Nat
  children : List Nat

-- ---------------------------------------------------------------------------
-- The table
-- ---------------------------------------------------------------------------

def fatClusterToLba (fp : FatPrivate) (cluster : Nat) : Nat :=
  (fp.dataStart + (cluster + 2 ^ 32 - 2) % 2 ^ 32 * fp.bpb.sectorsPerCluster) % 2 ^ 32

def fatNextCluster (fp : FatPrivate) (d : Disk) (cluster : Nat) : Nat × Disk :=
  let fatOffset := cluster * 4 % 2 ^ 32
  let fatSector := (fp.fatStart + fatOffset / fp.bpb.bytesPerSector) % 2 ^ 32
  let entOffset := fatOffset % fp.bpb.bytesPerSector
  let r := ataReadSectors d fatSector
  match r.1 with
  | none => (FAT_EOC, r.2)
  | some buf => (getLE buf entOffset 4 % 2 ^ 28, r.2)

/-- The loop of `fat_set_cluster` over the copies of the table, `i` the next one. -/
def fatWriteCopies (fp : FatPrivate) (fatOffset : Nat) (buf : Bytes) :
    Nat → Nat → Disk → Bool × Disk
  | 0, _, d => (true, d)
  | copies + 1, i, d =>
    let sector := (fp.fatStart + i * fp.sectorsPerFat + fatOffset / fp.bpb.bytesPerSector) % 2 ^ 32
    let w := ataWriteSectors d sector buf
    if w.1 then fatWriteCopies fp fatOffset buf copies (i + 1) w.2 else (false, w.2)

def fatSetCluster (fp : FatPrivate) (d : Disk) (cluster value : Nat) : Bool × Disk :=
  let fatOffset := cluster * 4 % 2 ^ 32
  let fatSector := (fp.fatStart + fatOffset / fp.bpb.bytesPerSector) % 2 ^ 32
  let entOffset := fatOffset % fp.bpb.bytesPerSector
  let r := ataReadSectors d fatSector
  match r.1 with
  | none => (false, r.2)
  | some buf =>
    let ent := getLE buf entOffset 4
    let buf := putLE buf entOffset 4 (ent / 2 ^ 28 * 2 ^ 28 + value % 2 ^ 28)
    fatWriteCopies fp fatOffset buf fp.bpb.fatCount 0 r.2

def fatTotalClusters (fp : FatPrivate) : Nat :=
  let totalSectors := fp.bpb.totalSectors32
  let totalSectors := if totalSectors = 0 then fp.bpb.totalSectors16 else totalSectors
  let totalSectors := if totalSectors = 0 then 8192 else totalSectors
  let dataSectors := (totalSectors + 2 ^ 32 - fp.dataStart) % 2 ^ 32
  dataSectors / fp.bpb.sectorsPerCluster

/-- The search of `fat_alloc_cluster` over `k` clusters from `c` on. `buf` holds the sector
`loaded` of the table. -/
def fatAllocScan (fp : FatPrivate) : Nat → Nat → Bytes → Nat → Disk → Nat × Disk
  | 0, _, _, _, d => (0, d)
  | k + 1, c, buf, loaded, d =>
    let fatOffset := c * 4 % 2 ^ 32
    let fatSector := (fp.fatStart + fatOffset / 512) % 2 ^ 32
    let entOff := fatOffset % 512
    let r := if fatSector ≠ loaded then ataReadSectors d fatSector else (some buf, d)
    match r.1 with
    | none => (0, r.2)
    | some buf =>
      if getLE buf entOff 4 % 2 ^ 28 = 0 then (c, (fatSetCluster fp r.2 c FAT_EOC).2)
      else fatAllocScan fp k (c + 1) buf fatSector r.2

/-- No sector is loaded at first: `0xFFFFFFFF` is none of the table's, so what `buf` holds
then does not matter. -/
def fatAllocCluster (fp : FatPrivate) (d : Disk) : Nat × Disk :=
  fatAllocScan fp ((fatTotalClusters fp + 2) % 2 ^ 32 - 2) 2 (fun _ => 0) 0xFFFFFFFF d

def fatFreeClusterChain (fp : FatPrivate) : Nat → Nat → Disk → Option Disk
  | 0, _, _ => none
  | fuel + 1, cluster, d =>
    if cluster ≥ 2 ∧ cluster < FAT_EOC then
      let next := fatNextCluster fp d cluster
      fatFreeClusterChain fp fuel next.1 (fatSetCluster fp next.2 cluster 0).2
    else some d

-- ---------------------------------------------------------------------------
-- Reading
-- ---------------------------------------------------------------------------

/-- The result of a C function that casts a `uint64_t` count to `int`. -/
def asInt (n : Nat) : Int :=
  if n % 2 ^ 32 < 2 ^ 31 then (n % 2 ^ 32 : Nat) else (n % 2 ^ 32 : Nat) - (2 ^ 32 : Nat)

/-- The loop of `fat_read` that finds the cluster of an offset; inside, `none` for -1. -/
def fatReadSkip (fp : FatPrivate) : Nat → Nat → Nat → Disk → Option (Option (Nat × Nat) × Disk)
  | 0, _, _, _ => none
  | fuel + 1, cluster, skip, d =>
    if skip ≥ fp.bytesPerCluster then
      let next := fatNextCluster fp d cluster
      if next.1 ≥ FAT_EOC then some (none, next.2)
      else fatReadSkip fp fuel next.1 (skip - fp.bytesPerCluster) next.2
    else some (some (cluster, skip), d)

/-- The sectors of one cluster: `k` rounds are left, the next one reads sector `s`. -/
def fatReadSectors (size lba sectorOff toRead clusterStart : Nat) :
    Nat → Nat → Nat → Nat → Bytes → Disk → Option (Nat × Bytes) × Disk
  | 0, _, _, done, out, d => (some (done, out), d)
  | k + 1, s, byteOff, done, out, d =>
    let r := ataReadSectors d ((lba + sectorOff + s) % 2 ^ 32)
    match r.1 with
    | none => (none, r.2)
    | some tmp =>
      let cbytes := min (min (512 - byteOff) (toRead - (done - clusterStart))) 512
      let out := blit out done cbytes tmp byteOff
      let done := done + cbytes
      if done ≥ size then (some (done, out), r.2)
      else fatReadSectors size lba sectorOff toRead clusterStart k (s + 1) 0 done out r.2

def fatReadClusters (fp : FatPrivate) (size : Nat) :
    Nat → Nat → Nat → Nat → Bytes → Disk → Option (Option (Nat × Bytes) × Disk)
  | 0, _, _, _, _, _ => none
  | fuel + 1, cluster, skip, done, out, d =>
    if done < size then
      let lba := fatClusterToLba fp cluster
      let toRead := min (fp.bytesPerCluster - skip) (size - done)
      let r := fatReadSectors size lba (skip / 512) toRead done ((toRead + 511) / 512) 0
        (skip % 512) done out d
      match r.1 with
      | none => some (none, r.2)
      | some (done, out) =>
        if done ≥ size then some (some (done, out), r.2)
        else
          let next := fatNextCluster fp r.2 cluster
          if next.1 ≥ FAT_EOC then some (some (done, out), next.2)
          else fatReadClusters fp size fuel next.1 0 done out next.2
    else some (some (done, out), d)

def fatRead (fp : FatPrivate) (fuel : Nat) (node : VfsNode) (offset size : Nat) (out : Bytes)
    (d : Disk) : Option (Int × Bytes × Disk) :=
  match fatReadSkip fp fuel node.cluster offset d with
  | none => none
  | some (none, d) => some (-1, out, d)
  | some (some (cluster, skip), d) =>
    match fatReadClusters fp size fuel cluster skip 0 out d with
    | none => none
    | some (none, d) => some (-1, out, d)
    | some (some (done, out), d) => some (asInt done, out, d)

-- ---------------------------------------------------------------------------
-- Writing
-- ---------------------------------------------------------------------------

def DE_ATTRS : Nat := 11
def DE_CLUSTER_HI : Nat := 20
def DE_CLUSTER_LO : Nat := 26
def DE_SIZE : Nat := 28

/-- `cluster_hi` and `cluster_lo` of the entry at `off`. -/
def setDirentCluster (buf : Bytes) (off cluster : Nat) : Bytes :=
  putLE (putLE buf (off + DE_CLUSTER_HI) 2 (cluster / 2 ^ 16)) (off + DE_CLUSTER_LO) 2
    (cluster % 2 ^ 16)

def fatUpdateDirentSize (node : VfsNode) (d : Disk) : Bool × Disk :=
  if node.dirLba = 0 then (true, d)
  else
    let r := ataReadSectors d node.dirLba
    match r.1 with
    | none => (false, r.2)
    | some buf =>
      let buf := putLE buf (node.dirOff + DE_SIZE) 4 node.size
      ataWriteSectors r.2 node.dirLba (setDirentCluster buf node.dirOff node.cluster)

/-- The cluster that follows, or a new one at the end of the chain: its number, 0 if the
volume is full, and whether it is new. -/
def fatNextOrNew (fp : FatPrivate) (d : Disk) (cluster : Nat) : Nat × Bool × Disk :=
  let next := fatNextCluster fp d cluster
  if next.1 ≥ FAT_EOC ∨ next.1 = 0 then
    let new := fatAllocCluster fp next.2
    (new.1, true, new.2)
  else (next.1, false, next.2)

/-- The loop of `fat_write` that finds the cluster of an offset; inside, `none` when the
volume is full. -/
def fatWriteSkip (fp : FatPrivate) :
    Nat → VfsNode → Nat → Nat → Disk → Option (Option (Nat × Nat) × VfsNode × Disk)
  | 0, _, _, _, _ => none
  | fuel + 1, node, cluster, skip, d =>
    if skip ≥ fp.bytesPerCluster then
      let next := fatNextOrNew fp d cluster
      if next.1 = 0 then some (none, node, next.2.2)
      else
        let linked := if next.2.1 then
            if cluster ≠ 0 then (node, (fatSetCluster fp next.2.2 cluster next.1).2)
            else ({ node with cluster := next.1 }, next.2.2)
          else (node, next.2.2)
        fatWriteSkip fp fuel linked.1 next.1 (skip - fp.bytesPerCluster) linked.2
    else some (some (cluster, skip), node, d)

/-- The sectors of one cluster: `k` rounds are left, the next one writes sector `s`. A
sector that is written in part is read first. -/
def fatWriteSectors (buf : Bytes) (size lba sectorOff : Nat) :
    Nat → Nat → Nat → Bytes → Nat → Disk → Nat × Disk
  | 0, _, _, _, done, d => (done, d)
  | k + 1, s, byteOff, tmp, done, d =>
    let curLba := (lba + sectorOff + s) % 2 ^ 32
    let cbytes := min (512 - byteOff) (size - done)
    let r := if byteOff > 0 ∨ cbytes < 512 then
        let r := ataReadSectors d curLba
        (r.1.getD tmp, r.2)
      else (tmp, d)
    let tmp := blit r.1 byteOff cbytes buf done
    let done := done + cbytes
    let w := ataWriteSectors r.2 curLba tmp
    if done ≥ size then (done, w.2) else fatWriteSectors buf size lba sectorOff k (s + 1) 0 tmp done w.2

/-- The clusters of a write: how much is done, and whether the volume had room. -/
def fatWriteClusters (fp : FatPrivate) (junk buf : Bytes) (size : Nat) :
    Nat → Nat → Nat → Nat → Disk → Option (Nat × Bool × Disk)
  | 0, _, _, _, _ => none
  | fuel + 1, cluster, skip, done, d =>
    if done < size then
      let lba := fatClusterToLba fp cluster
      let toWrite := min (fp.bytesPerCluster - skip) (size - done)
      let r := fatWriteSectors buf size lba (skip / 512) ((toWrite + 511) / 512) 0 (skip % 512)
        junk done d
      if r.1 ≥ size then some (r.1, true, r.2)
      else
        let next := fatNextOrNew fp r.2 cluster
        if next.1 = 0 then some (r.1, false, next.2.2)
        else
          let d := if next.2.1 then (fatSetCluster fp next.2.2 cluster next.1).2 else next.2.2
          fatWriteClusters fp junk buf size fuel next.1 0 r.1 d
    else some (done, true, d)

/-- The node after `done` bytes at `offset`. -/
def fatWritten (node : VfsNode) (offset done : Nat) : VfsNode :=
  let last := (offset + done) % 2 ^ 64
  if last > node.size then { node with size := last % 2 ^ 32 } else node

/-- `junk` is what the buffer for one sector holds before it is written to. -/
def fatWrite (fp : FatPrivate) (junk : Bytes) (fuel : Nat) (node : VfsNode) (offset size : Nat)
    (buf : Bytes) (d : Disk) : Option (Int × VfsNode × Disk) :=
  if size = 0 then some (0, node, d)
  else
    match fatWriteSkip fp fuel node node.cluster offset d with
    | none => none
    | some (none, node, d) => some (0, node, d)
    | some (some (cluster, skip), node, d) =>
      match fatWriteClusters fp junk buf size fuel cluster skip 0 d with
      | none => none
      | some (done, false, d) => some (asInt done, node, d)
      | some (done, true, d) =>
        let node := fatWritten node offset done
        some (asInt done, node, (fatUpdateDirentSize node d).2)

end EponaOS.Fs
