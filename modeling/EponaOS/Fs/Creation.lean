import EponaOS.Fs.DirSearch
import EponaOS.Fs.Loading

/-!
# Making an entry, step by step

`fat_create` searches its directory for a free slot, the table for a free cluster, and then
writes: the mark in the table, the sectors of the cluster, the entry. It ignores what comes of
most of the writes. Here each step is given on a drive where any access may fail.
-/

namespace EponaOS.Fs

open Bytes

variable {fp : FatPrivate} {d d' : Disk} {t t' : Tree} {p : Nat} {name : CStr} {e : FatName}
  {s : FoundSlot} {flags c x : Nat} {l : List Nat}

-- ---------------------------------------------------------------------------
-- The slot
-- ---------------------------------------------------------------------------

/-- What `fat_create` takes for a free slot: the end mark or a deleted entry. -/
def freeEntry (buf : Bytes) (off : Nat) : Bool := buf off = 0 ∨ buf off = 0xE5

def createAt (fp : FatPrivate) (t : Tree) (parent : Nat) (name : CStr) (fatName : FatName)
    (flags : Nat) (s : FoundSlot) (d : Disk) : (Option Nat × Tree) × Disk :=
  match createVisit fp t parent name fatName flags s.1 s.2.1 s.2.2 () d with
  | .done r d => (r, d)
  | .next () => ((none, t), d)

theorem not_used (h : freeEntry buf off = true) : ¬ (buf off ≠ 0 ∧ buf off ≠ 0xE5) := by
  rw [freeEntry, decide_eq_true_eq] at h
  tauto

theorem createVisit_done (h : freeEntry buf off = true) :
    ∃ r d', createVisit fp t p name e flags lba off buf () d = .done r d' := by
  rw [createVisit, if_neg (not_used h)]
  generalize fatAllocCluster fp d = a
  obtain ⟨newCluster, d₁⟩ := a
  dsimp only
  by_cases h0 : newCluster = 0
  · rw [if_pos h0]
    exact ⟨_, _, rfl⟩
  · rw [if_neg h0]
    generalize ataWriteSectors _ lba _ = w
    obtain ⟨_ | _, d₂⟩ := w
    · exact ⟨_, _, rfl⟩
    · dsimp only
      generalize fatCreateNode t name 0 flags newCluster lba off (some p) = n
      obtain ⟨_ | child, t'⟩ := n <;> exact ⟨_, _, rfl⟩

theorem createVisit_endsAt (fp : FatPrivate) (t : Tree) (p : Nat) (name : CStr) (e : FatName)
    (flags : Nat) : EndsAt freeEntry (createVisit fp t p name e flags) (createAt fp t p name e flags) where
  fits lba off buf d hp := by
    have h : ∃ r d', createVisit fp t p name e flags lba off buf () d = .done r d' :=
      createVisit_done hp
    obtain ⟨r, d', hdone⟩ := h
    rw [createAt, hdone]
  goesOn lba off buf d hp := by
    have hused : buf off ≠ 0 ∧ buf off ≠ 0xE5 := by
      rw [freeEntry, decide_eq_false_iff_not] at hp
      tauto
    rw [createVisit, if_pos hused]

/-- The result of `fat_create` in the order it is given in. -/
def created (r : (Option Nat × Tree) × Disk) : Option Nat × Tree × Disk := (r.1.1, r.1.2, r.2)

theorem fatCreate_find (hflags : flags &&& (VFS_FILE ||| VFS_DIR) ≠ 0)
    (hname : fatNameTo83 name = some e) (fuel : Nat) :
    fatCreate fp fuel p name flags t d = (dirFind fp freeEntry fuel (t.cluster p) d).map
      fun r => created (afterFind (createAt fp t p name e flags) (none, t) r) := by
  have hwalk : (dirWalk fp (fun _ => (none, t)) (createVisit fp t p name e flags) fuel (t.cluster p)
      () d).map (fun r => (r.1.elim id fun _ => (none, t), r.2)) =
      (dirFind fp freeEntry fuel (t.cluster p) d).map
        (afterFind (createAt fp t p name e flags) (none, t)) :=
    dirWalk_find (createVisit_endsAt fp t p name e flags) fuel (t.cluster p) d
  have hresult := congrArg (Option.map created) hwalk
  rw [Option.map_map, Option.map_map] at hresult
  rw [fatCreate, if_neg hflags, hname]
  refine Eq.trans ?_ hresult
  dsimp only
  generalize dirWalk fp (fun _ => (none, t)) (createVisit fp t p name e flags) fuel (t.cluster p) () d
    = r
  obtain _ | ⟨⟨r, t'⟩ | ⟨⟩, d'⟩ := r <;> rfl

-- ---------------------------------------------------------------------------
-- The cluster
-- ---------------------------------------------------------------------------

/-- The search of the allocator alone: a cluster whose entry is 0, if the accesses succeed. -/
def fatFreeScan (fp : FatPrivate) : Nat → Nat → Bytes → Nat → Disk → Option Nat × Disk
  | 0, _, _, _, d => (none, d)
  | k + 1, c, buf, loaded, d =>
    let fatOffset := c * 4 % 2 ^ 32
    let fatSector := (fp.fatStart + fatOffset / 512) % 2 ^ 32
    let entOff := fatOffset % 512
    let r := if fatSector ≠ loaded then ataReadSectors d fatSector else (some buf, d)
    match r.1 with
    | none => (none, r.2)
    | some buf =>
      if getLE buf entOff 4 % 2 ^ 28 = 0 then (some c, r.2)
      else fatFreeScan fp k (c + 1) buf fatSector r.2

def fatFreeCluster (fp : FatPrivate) (d : Disk) : Option Nat × Disk :=
  fatFreeScan fp ((fatTotalClusters fp + 2) % 2 ^ 32 - 2) 2 (fun _ => 0) 0xFFFFFFFF d

/-- The cluster that is found is marked, whether or not the mark can be written. -/
def markCluster (fp : FatPrivate) : Option Nat × Disk → Nat × Disk
  | (none, d) => (0, d)
  | (some c, d) => (c, (fatSetCluster fp d c FAT_EOC).2)

theorem fatAllocScan_find (fp : FatPrivate) (k c : Nat) (buf : Bytes) (loaded : Nat) (d : Disk) :
    fatAllocScan fp k c buf loaded d = markCluster fp (fatFreeScan fp k c buf loaded d) := by
  induction k generalizing c buf loaded d with
  | zero => rfl
  | succ k ih =>
    rw [fatAllocScan, fatFreeScan]
    generalize (if (fp.fatStart + c * 4 % 2 ^ 32 / 512) % 2 ^ 32 ≠ loaded then
      ataReadSectors d ((fp.fatStart + c * 4 % 2 ^ 32 / 512) % 2 ^ 32) else (some buf, d)) = r
    obtain ⟨_ | buf', d₁⟩ := r
    · rfl
    · dsimp only
      split
      · rfl
      · exact ih _ _ _ _

theorem fatAllocCluster_find (fp : FatPrivate) (d : Disk) :
    fatAllocCluster fp d = markCluster fp (fatFreeCluster fp d) := fatAllocScan_find ..

theorem fatFreeScan_spec (hg : Geometry fp) (hc : 2 ≤ c) (hk : c + k = fatTotalClusters fp + 2)
    (hb : loaded = 0xFFFFFFFF ∨ (loaded < 2 ^ 28 ∧ buf = d.sectors loaded)) :
    Reads d (fatFreeScan fp k c buf loaded d).2 ∧
      ∀ x, (fatFreeScan fp k c buf loaded d).1 = some x → x ∈ freeClusters fp d.image := by
  induction k generalizing c buf loaded d with
  | zero => exact ⟨.refl _, fun x hx => by cases hx⟩
  | succ k ih =>
    obtain ⟨h1, h2, h3, h4⟩ := fat_offsets hg (show c < fatTotalClusters fp + 2 by omega)
    have h5 := hg.data_le
    have h6 : (fp.fatStart + 4 * c / 512) % 2 ^ 32 = fp.fatStart + 4 * c / 512 :=
      Nat.mod_eq_of_lt (by omega)
    have h7 : (fp.fatStart + 4 * c / 512) % 2 ^ 28 = fp.fatStart + 4 * c / 512 :=
      Nat.mod_eq_of_lt (by omega)
    -- the buffer is the sector of the entry, unless reading it fails
    have hr : ∃ d₁, Reads d d₁ ∧ ((if fp.fatStart + 4 * c / 512 ≠ loaded then
          ataReadSectors d (fp.fatStart + 4 * c / 512) else (some buf, d)) = (none, d₁) ∨
        (if fp.fatStart + 4 * c / 512 ≠ loaded then
          ataReadSectors d (fp.fatStart + 4 * c / 512) else (some buf, d)) =
            (some (d.sectors (fp.fatStart + 4 * c / 512)), d₁)) := by
      by_cases hl : fp.fatStart + 4 * c / 512 = loaded
      · rw [if_neg (not_not.mpr hl)]
        obtain h | ⟨-, h⟩ := hb
        · omega
        · rw [h, hl]
          exact ⟨d, .refl d, .inr rfl⟩
      · rw [if_pos hl]
        obtain ⟨h, -⟩ | ⟨h, -⟩ := ataReadSectors_cases d (fp.fatStart + 4 * c / 512)
        · exact ⟨d.tick, .tick d, .inl h⟩
        · rw [h7] at h
          exact ⟨d.tick, .tick d, .inr h⟩
    obtain ⟨d₁, hreads, hr | hr⟩ := hr
    · simp only [fatFreeScan, h1, h6, hr]
      exact ⟨hreads, fun x hx => by cases hx⟩
    · have hent : getLE (d.sectors (fp.fatStart + 4 * c / 512)) (4 * c % 512) 4 % 2 ^ 28 =
          fatEntry fp d.image c := by
        rw [getLE_sector d _ h4, h3, fatEntry]
      simp only [fatFreeScan, h1, h6, hr, hent]
      by_cases h0 : fatEntry fp d.image c = 0
      · rw [if_pos h0]
        refine ⟨hreads, fun x hx => ?_⟩
        cases hx
        exact mem_freeClusters.mpr ⟨⟨hc, by omega⟩, h0⟩
      · rw [if_neg h0]
        have himage := Disk.image_congr hreads.sectors
        have hloaded : fp.fatStart + 4 * c / 512 < 2 ^ 28 ∧
            d.sectors (fp.fatStart + 4 * c / 512) = d₁.sectors (fp.fatStart + 4 * c / 512) :=
          ⟨by omega, by rw [hreads.sectors]⟩
        obtain ⟨hreads', hfound⟩ := ih (d := d₁) (show 2 ≤ c + 1 by omega) (by omega) (.inr hloaded)
        rw [himage] at hfound
        exact ⟨hreads.trans hreads', hfound⟩

theorem fatFreeCluster_spec (hg : Geometry fp) (d : Disk) :
    Reads d (fatFreeCluster fp d).2 ∧
      ∀ x, (fatFreeCluster fp d).1 = some x → x ∈ freeClusters fp d.image := by
  have h1 := hg.total_lt
  unfold FAT_EOC at h1
  have h2 : (fatTotalClusters fp + 2) % 2 ^ 32 - 2 = fatTotalClusters fp := by omega
  rw [fatFreeCluster, h2]
  exact fatFreeScan_spec hg (Nat.le_refl 2) (Nat.add_comm _ _) (.inl rfl)

-- ---------------------------------------------------------------------------
-- The writes
-- ---------------------------------------------------------------------------

/-- The sectors of the new cluster: zeros, with the two dot entries for a directory. -/
def fillCluster (fp : FatPrivate) (t : Tree) (parent flags newCluster : Nat) (d : Disk) : Disk :=
  let newLba := fatClusterToLba fp newCluster
  if flags &&& VFS_DIR ≠ 0 then
    let dotdot := if some parent = t.root then 0 else t.cluster parent
    let w := ataWriteSectors d newLba (dotSector newCluster dotdot)
    zeroSectors newLba (fp.bpb.sectorsPerCluster - 1) 1 w.2
  else zeroSectors newLba fp.bpb.sectorsPerCluster 0 d

def newAttrs (flags : Nat) : UInt8 :=
  if flags &&& VFS_DIR ≠ 0 then FAT_ATTR_DIR else FAT_ATTR_ARCHIVE

def entryBuf (e : FatName) (flags : Nat) (s : FoundSlot) (newCluster : Nat) : Bytes :=
  putDirent s.2.2 s.2.1 e.bytes (newAttrs flags) newCluster

def writeEntry (t : Tree) (parent : Nat) (name : CStr) (e : FatName) (flags : Nat) (s : FoundSlot)
    (newCluster : Nat) (d : Disk) : (Option Nat × Tree) × Disk :=
  match ataWriteSectors d s.1 (entryBuf e flags s newCluster) with
  | (false, d) => ((none, t), d)
  | (true, d) =>
    match fatCreateNode t name 0 flags newCluster s.1 s.2.1 (some parent) with
    | (none, t) => ((none, t), d)
    | (some child, t) => ((some child, t.addChild parent child), d)

theorem createAt_none (hs : freeEntry s.2.2 s.2.1 = true) (h : fatFreeCluster fp d = (none, d')) :
    createAt fp t p name e flags s d = ((none, t), d') := by
  rw [createAt, createVisit, if_neg (not_used hs), fatAllocCluster_find, h]
  rfl

theorem createAt_some (hs : freeEntry s.2.2 s.2.1 = true) (h : fatFreeCluster fp d = (some x, d'))
    (hx : x ≠ 0) : createAt fp t p name e flags s d = writeEntry t p name e flags s x
      (fillCluster fp t p flags x (fatSetCluster fp d' x FAT_EOC).2) := by
  rw [createAt, createVisit, if_neg (not_used hs), fatAllocCluster_find, h, markCluster]
  generalize (fatSetCluster fp d' x FAT_EOC).2 = d₁
  dsimp only
  rw [if_neg hx, writeEntry, fillCluster, entryBuf, newAttrs]
  dsimp only
  generalize ataWriteSectors _ s.1 _ = w
  obtain ⟨_ | _, d₂⟩ := w
  · rfl
  · dsimp only
    generalize fatCreateNode t name 0 flags x s.1 s.2.1 (some p) = n
    obtain ⟨_ | child, t'⟩ := n <;> rfl

end EponaOS.Fs
