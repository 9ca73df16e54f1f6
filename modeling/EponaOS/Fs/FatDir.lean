import EponaOS.Fs.Fat

/-!
# The FAT driver: directories

The 8.3 names, the walk over the entries of a directory that `fat_readdir`, `fat_create` and
`fat_unlink` share, and what these do at an entry. Nodes are allocated by `kmalloc` and never
freed here; they are named by number.
-/

namespace EponaOS.Fs

open Bytes

-- ---------------------------------------------------------------------------
-- Names
-- ---------------------------------------------------------------------------

def cstr (l : List Char) : CStr := l.map Char.toUInt8

structure FatName where
  name : List UInt8
  ext : List UInt8
  deriving DecidableEq

def FatName.bytes (n : FatName) : List UInt8 := n.name ++ n.ext

def SPACE : UInt8 := 0x20
def DOT : UInt8 := 0x2E

def lowerCase (c : UInt8) : UInt8 :=
  if 'A'.toUInt8 ≤ c ∧ c ≤ 'Z'.toUInt8 then c - 'A'.toUInt8 + 'a'.toUInt8 else c

def upperCase (c : UInt8) : UInt8 :=
  if 'a'.toUInt8 ≤ c ∧ c ≤ 'z'.toUInt8 then c - 'a'.toUInt8 + 'A'.toUInt8 else c

def unpadded (l : List UInt8) : List UInt8 := l.takeWhile fun c => c ≠ 0 ∧ c ≠ SPACE

def fatTrimName (n : FatName) : CStr :=
  let ext := if unpadded n.ext = [] then [] else DOT :: unpadded n.ext
  (unpadded n.name ++ ext).map lowerCase

/-- The characters that `fat_name_to_83` lets through, after its change of case. -/
def nameChar (c : UInt8) : Bool :=
  ('A'.toUInt8 ≤ c ∧ c ≤ 'Z'.toUInt8) ∨ ('0'.toUInt8 ≤ c ∧ c ≤ '9'.toUInt8) ∨
    c = '_'.toUInt8 ∨ c = '-'.toUInt8

/-- The loop over a name: whether the dot was met, and what is taken so far. -/
def fatNameLoop : CStr → Bool → FatName → Option FatName
  | [], _, n => some n
  | c :: cs, ext, n =>
    if c = DOT then if ext then none else fatNameLoop cs true n
    else
      let c := upperCase c
      if ¬nameChar c then none
      else if ¬ext then
        if 8 ≤ n.name.length then none else fatNameLoop cs ext { n with name := n.name ++ [c] }
      else if 3 ≤ n.ext.length then none
      else fatNameLoop cs ext { n with ext := n.ext ++ [c] }

def pad (k : Nat) (l : List UInt8) : List UInt8 := l ++ List.replicate (k - l.length) SPACE

def fatNameTo83 (name : CStr) : Option FatName :=
  match fatNameLoop name false ⟨[], []⟩ with
  | none => none
  | some n => if 0 < n.name.length then some ⟨pad 8 n.name, pad 3 n.ext⟩ else none

-- ---------------------------------------------------------------------------
-- Entries
-- ---------------------------------------------------------------------------

def FAT_ATTR_VOLUME : UInt8 := 0x08
def FAT_ATTR_DIR : UInt8 := 0x10
def FAT_ATTR_ARCHIVE : UInt8 := 0x20
def FAT_ATTR_LFN : UInt8 := 0x0F

def deName (buf : Bytes) (off : Nat) : FatName where
  name := (List.range 8).map fun i => buf (off + i)
  ext := (List.range 3).map fun i => buf (off + 8 + i)

def deAttrs (buf : Bytes) (off : Nat) : UInt8 := buf (off + DE_ATTRS)

def deCluster (buf : Bytes) (off : Nat) : Nat :=
  getLE buf (off + DE_CLUSTER_HI) 2 * 2 ^ 16 + getLE buf (off + DE_CLUSTER_LO) 2

def deSize (buf : Bytes) (off : Nat) : Nat := getLE buf (off + DE_SIZE) 4

def deFlags (buf : Bytes) (off : Nat) : Nat :=
  if deAttrs buf off &&& FAT_ATTR_DIR ≠ 0 then VFS_DIR else VFS_FILE

/-- Entries that the driver passes over: deleted ones, parts of long names, labels. -/
def deSkipped (buf : Bytes) (off : Nat) : Bool :=
  buf off = 0xE5 ∨ deAttrs buf off = FAT_ATTR_LFN ∨ deAttrs buf off &&& FAT_ATTR_VOLUME ≠ 0

def putDirent (buf : Bytes) (off : Nat) (name : List UInt8) (attrs : UInt8) (cluster : Nat) : Bytes :=
  let buf := blit buf off 32 (fun _ => 0) 0
  let buf := blit buf off 11 (fun i => name.getD i 0) 0
  let buf := setByte buf (off + DE_ATTRS) attrs
  setDirentCluster buf off cluster

-- ---------------------------------------------------------------------------
-- The walk
-- ---------------------------------------------------------------------------

inductive Visit (R S : Type)
  | done (r : R) (d : Disk)
  | next (st : S)

section Walk

-- `fail` is what the function returns where a sector cannot be read
variable {R S : Type} (fp : FatPrivate) (fail : S → R) (visit : Nat → Nat → Bytes → S → Disk → Visit R S)

/-- `k` entries of a cluster from number `e` on. A result of the function ends the walk. -/
def dirWalkCluster (lba : Nat) : Nat → Nat → Bytes → S → Disk → (R ⊕ S) × Disk
  | 0, _, _, st, d => (.inr st, d)
  | k + 1, e, buf, st, d =>
    let sector := e * 32 / 512
    let off := e * 32 % 512
    let lba' := (lba + sector) % 2 ^ 32
    let r := if sector = 0 ∨ off = 0 then ataReadSectors d lba' else (some buf, d)
    match r.1 with
    | none => (.inl (fail st), r.2)
    | some buf =>
      match visit lba' off buf st r.2 with
      | .done r d => (.inl r, d)
      | .next st => dirWalkCluster lba k (e + 1) buf st r.2

def dirWalk : Nat → Nat → S → Disk → Option ((R ⊕ S) × Disk)
  | 0, _, _, _ => none
  | fuel + 1, cluster, st, d =>
    if cluster < FAT_EOC then
      match dirWalkCluster fail visit (fatClusterToLba fp cluster) (fp.bytesPerCluster / 32) 0
        (fun _ => 0) st d with
      | (.inl r, d) => some (.inl r, d)
      | (.inr st, d) =>
        let next := fatNextCluster fp d cluster
        dirWalk fuel next.1 st next.2
    else some (.inr st, d)

end Walk

-- ---------------------------------------------------------------------------
-- Nodes
-- ---------------------------------------------------------------------------

/-- The nodes of a file system. `heap` is what the calls of `kmalloc` to come do: `true` is a
failure. Past the end none fails. -/
structure Tree where
  nodes : Nat → Option VfsNode
  nextNode : Nat
  root : Option Nat
  heap : List Bool

def Tree.setNode (t : Tree) (n : Nat) (node : VfsNode) : Tree :=
  { t with nodes := fun m => if m = n then some node else t.nodes m }

/-- Whether `kmalloc` returns memory. -/
def kmalloc (heap : List Bool) : Bool × List Bool := (!heap.headD false, heap.tail)

def fatCreateNode (t : Tree) (name : CStr) (size flags cluster dirLba dirOff : Nat)
    (parent : Option Nat) : Option Nat × Tree :=
  match kmalloc t.heap with
  | (false, heap) => (none, { t with heap })
  | (true, heap) =>
    match kmalloc heap with
    | (false, heap) => (none, { t with heap })
    | (true, heap) =>
      let node := { name, size, flags, cluster, dirLba, dirOff, parent, children := [] }
      (some t.nextNode, { t.setNode t.nextNode node with heap, nextNode := t.nextNode + 1 })

def Tree.addChild (t : Tree) (parent child : Nat) : Tree :=
  match t.nodes parent with
  | none => t
  | some p => t.setNode parent { p with children := child :: p.children }

def Tree.find (t : Tree) (name : CStr) (children : List Nat) : Option Nat :=
  children.find? fun c => (t.nodes c).any fun n => n.name = name

def Tree.children (t : Tree) (n : Nat) : List Nat := ((t.nodes n).map (·.children)).getD []

/-- `fat_node_cluster`. -/
def Tree.cluster (t : Tree) (n : Nat) : Nat := ((t.nodes n).map (·.cluster)).getD 0

-- ---------------------------------------------------------------------------
-- Reading a directory
-- ---------------------------------------------------------------------------

def readdirVisit (node lba off : Nat) (buf : Bytes) (st : Int × Tree) (d : Disk) :
    Visit (Int × Tree) (Int × Tree) :=
  if buf off = 0 then .done st d
  else if deSkipped buf off then .next st
  else
    let name := fatTrimName (deName buf off)
    match st.2.find name (st.2.children node) with
    | some _ => .next (st.1 + 1, st.2)
    | none =>
      match fatCreateNode st.2 name (deSize buf off) (deFlags buf off) (deCluster buf off) lba off
        (some node) with
      | (none, t) => .next (st.1, t)
      | (some child, t) => .next (st.1 + 1, t.addChild node child)

def fatReaddir (fp : FatPrivate) (fuel node : Nat) (t : Tree) (d : Disk) :
    Option (Int × Tree × Disk) :=
  match dirWalk fp (fun st => (-1, st.2)) (readdirVisit node) fuel (t.cluster node) (0, t) d with
  | none => none
  | some (.inl (n, t), d) => some (n, t, d)
  | some (.inr (n, t), d) => some (n, t, d)

-- ---------------------------------------------------------------------------
-- Making and removing entries
-- ---------------------------------------------------------------------------

def zeroSectors (newLba : Nat) : Nat → Nat → Disk → Disk
  | 0, _, d => d
  | k + 1, s, d =>
    zeroSectors newLba k (s + 1) (ataWriteSectors d ((newLba + s) % 2 ^ 32) fun _ => 0).2

def dotName : List UInt8 := pad 11 [DOT]
def dotdotName : List UInt8 := pad 11 [DOT, DOT]

def dotSector (newCluster dotdotCluster : Nat) : Bytes :=
  putDirent (putDirent (fun _ => 0) 0 dotName FAT_ATTR_DIR newCluster) 32 dotdotName FAT_ATTR_DIR
    dotdotCluster

def createVisit (fp : FatPrivate) (t : Tree) (parent : Nat) (name : CStr) (fatName : FatName)
    (flags lba off : Nat) (buf : Bytes) (_ : Unit) (d : Disk) : Visit (Option Nat × Tree) Unit :=
  if buf off ≠ 0 ∧ buf off ≠ 0xE5 then .next ()
  else
    match fatAllocCluster fp d with
    | (newCluster, d) =>
      if newCluster = 0 then .done (none, t) d
      else
        let newLba := fatClusterToLba fp newCluster
        let dir := flags &&& VFS_DIR ≠ 0
        let d := if dir then
            let dotdot := if some parent = t.root then 0 else t.cluster parent
            let w := ataWriteSectors d newLba (dotSector newCluster dotdot)
            zeroSectors newLba (fp.bpb.sectorsPerCluster - 1) 1 w.2
          else zeroSectors newLba fp.bpb.sectorsPerCluster 0 d
        let attrs := if dir then FAT_ATTR_DIR else FAT_ATTR_ARCHIVE
        match ataWriteSectors d lba (putDirent buf off fatName.bytes attrs newCluster) with
        | (false, d) => .done (none, t) d
        | (true, d) =>
          match fatCreateNode t name 0 flags newCluster lba off (some parent) with
          | (none, t) => .done (none, t) d
          | (some child, t) => .done (some child, t.addChild parent child) d

def fatCreate (fp : FatPrivate) (fuel parent : Nat) (name : CStr) (flags : Nat) (t : Tree)
    (d : Disk) : Option (Option Nat × Tree × Disk) :=
  if flags &&& (VFS_FILE ||| VFS_DIR) = 0 then some (none, t, d)
  else
    match fatNameTo83 name with
    | none => some (none, t, d)
    | some fatName =>
      match dirWalk fp (fun _ => (none, t)) (createVisit fp t parent name fatName flags) fuel
        (t.cluster parent) () d with
      | none => none
      | some (.inl (r, t), d) => some (r, t, d)
      | some (.inr (), d) => some (none, t, d)

/-- `none` says that the chain of the entry is still being freed. -/
def unlinkVisit (fp : FatPrivate) (fuel : Nat) (fatName : FatName) (lba off : Nat) (buf : Bytes)
    (_ : Unit) (d : Disk) : Visit (Option Int) Unit :=
  if buf off = 0 then .done (some (-1)) (ataWriteSectors d lba buf).2
  else if deSkipped buf off then .next ()
  else if deName buf off ≠ fatName then .next ()
  else
    match ataWriteSectors d lba (setByte buf off 0xE5) with
    | (false, d) => .done (some (-1)) d
    | (true, d) =>
      let fileCluster := deCluster buf off
      if 2 ≤ fileCluster ∧ fileCluster < FAT_EOC then
        match fatFreeClusterChain fp fuel fileCluster d with
        | none => .done none d
        | some d => .done (some 0) d
      else .done (some 0) d

def fatUnlink (fp : FatPrivate) (fuel parent : Nat) (name : CStr) (t : Tree) (d : Disk) :
    Option (Int × Disk) :=
  match fatNameTo83 name with
  | none => some (-1, d)
  | some fatName =>
    match dirWalk fp (fun _ => some (-1)) (unlinkVisit fp fuel fatName) fuel (t.cluster parent) ()
      d with
    | none => none
    | some (.inl none, _) => none
    | some (.inl (some r), d) => some (r, d)
    | some (.inr (), d) => some (-1, d)

-- ---------------------------------------------------------------------------
-- Mounting
-- ---------------------------------------------------------------------------

def readBpb (buf : Bytes) : FatBpb where
  bytesPerSector := getLE buf 11 2
  sectorsPerCluster := getLE buf 13 1
  reservedSectors := getLE buf 14 2
  fatCount := getLE buf 16 1
  rootMaxEntries := getLE buf 17 2
  totalSectors16 := getLE buf 19 2
  totalSectors32 := getLE buf 32 4
  fatSize32 := getLE buf 36 4
  rootCluster := getLE buf 44 4
  sig := getLE buf 66 1

def fatPrivateOf (bpb : FatBpb) : FatPrivate where
  bpb
  fatStart := bpb.reservedSectors
  dataStart := (bpb.reservedSectors + bpb.fatCount * bpb.fatSize32 +
    (bpb.rootMaxEntries * 32 + bpb.bytesPerSector - 1) / bpb.bytesPerSector) % 2 ^ 32
  sectorsPerFat := bpb.fatSize32
  rootCluster := bpb.rootCluster
  bytesPerCluster := bpb.bytesPerSector * bpb.sectorsPerCluster

/-- The volume with its tree, of which there is the root only, if there is memory for it. -/
def fatMount (heap : List Bool) (d : Disk) : Option (FatPrivate × Tree) × List Bool × Disk :=
  match kmalloc heap with
  | (false, heap) => (none, heap, d)
  | (true, heap) =>
    match ataReadSectors d 0 with
    | (none, d) => (none, heap, d)
    | (some buf, d) =>
      let bpb := readBpb buf
      if bpb.bytesPerSector ≠ 512 ∨ (bpb.sig ≠ 0x29 ∧ bpb.sig ≠ 0x28) ∨ bpb.fatSize32 = 0 then
        (none, heap, d)
      else
        match kmalloc heap with
        | (false, heap) => (none, heap, d)
        | (true, heap) =>
          let t := { nodes := fun _ => none, nextNode := 0, root := none, heap }
          let r := fatCreateNode t (cstr ['/']) 0 VFS_DIR bpb.rootCluster 0 0 none
          (some (fatPrivateOf bpb, { r.2 with root := r.1 }), r.2.heap, d)

/-- What `fat_mount` checks. -/
structure Accepted (bpb : FatBpb) : Prop where
  sector : bpb.bytesPerSector = 512
  sig : bpb.sig = 0x29 ∨ bpb.sig = 0x28
  fat32 : bpb.fatSize32 ≠ 0

theorem accepted_iff (bpb : FatBpb) : Accepted bpb ↔
    ¬(bpb.bytesPerSector ≠ 512 ∨ (bpb.sig ≠ 0x29 ∧ bpb.sig ≠ 0x28) ∨ bpb.fatSize32 = 0) := by
  constructor
  · rintro ⟨h1, h2, h3⟩
    omega
  · intro h
    exact ⟨by omega, by omega, by omega⟩

def rootTree (bpb : FatBpb) : Tree where
  nodes n := if n = 0 then some {
      name := cstr ['/'], size := 0, flags := VFS_DIR, cluster := bpb.rootCluster, dirLba := 0
      dirOff := 0, parent := none, children := [] } else none
  nextNode := 1
  root := some 0
  heap := []

theorem fatMount_some (h : (fatMount heap d).1 = some (fp, t)) :
    fp = fatPrivateOf (readBpb (d.sectors 0)) ∧ Accepted (readBpb (d.sectors 0)) := by
  simp only [fatMount, kmalloc, ataReadSectors, Nat.zero_mod] at h
  split at h
  · cases h
  · split at h
    · cases h
    · rename_i hread
      split at hread
      · cases hread
      · cases hread
        split at h
        · cases h
        · rename_i hok
          split at h
          · cases h
          · cases h
            exact ⟨rfl, (accepted_iff _).mpr hok⟩

theorem fatMount_accepts (hd : NoFaults d) (h : Accepted (readBpb (d.sectors 0))) :
    (fatMount [] d).1 =
      some (fatPrivateOf (readBpb (d.sectors 0)), rootTree (readBpb (d.sectors 0))) := by
  simp only [fatMount, kmalloc, List.headD_nil, Bool.not_false, List.tail_nil]
  rw [ataReadSectors_eq hd (by decide)]
  dsimp only
  rw [if_neg ((accepted_iff _).mp h)]
  rfl

end EponaOS.Fs
