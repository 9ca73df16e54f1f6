import EponaOS.Fs.Creation

/-!
# Room for an entry

`fat_create` puts an entry where it finds the end mark or a deleted one, and never gives a
directory another cluster. So with clusters left and no errors `vfs_create` and `vfs_mkdir`
succeed exactly if the directory has a free slot.
-/

namespace EponaOS.Fs

open Bytes

variable {fp : FatPrivate} {d d' : Disk} {t t' t₁ t₂ : Tree} {n p : Nat} {name path rest : CStr}
  {e : FatName} {s : FoundSlot} {flags : Nat} {l : List Nat} {node dir : VfsNode}

def HasFreeSlot (fp : FatPrivate) (d : Disk) (l : List Nat) : Prop :=
  ∃ s ∈ dirSlots fp l, d.sectors s.1 s.2 = 0 ∨ d.sectors s.1 s.2 = 0xE5

-- ---------------------------------------------------------------------------
-- The steps without errors
-- ---------------------------------------------------------------------------

theorem ataWriteSectors_noFaults (hd : NoFaults d) (lba : Nat) (buf : Bytes) :
    ∃ d', ataWriteSectors d lba buf = (true, d') ∧ NoFaults d' := by
  rw [ataWriteSectors, hd.fails, hd.tick]
  exact ⟨_, rfl, hd⟩

theorem zeroSectors_noFaults (hd : NoFaults d) (lba k s : Nat) :
    NoFaults (zeroSectors lba k s d) := by
  induction k generalizing s d with
  | zero => exact hd
  | succ k ih =>
    obtain ⟨d', h, hd'⟩ := ataWriteSectors_noFaults hd ((lba + s) % 2 ^ 32) fun _ => 0
    rw [zeroSectors, h]
    exact ih hd' (s + 1)

theorem Tree.addChild_heap (t : Tree) (p n : Nat) : (t.addChild p n).heap = t.heap := by
  rw [Tree.addChild]
  split <;> rfl

theorem fillCluster_noFaults (hd : NoFaults d) (t : Tree) (p flags x : Nat) :
    NoFaults (fillCluster fp t p flags x d) := by
  rw [fillCluster]
  dsimp only
  split
  · obtain ⟨d₂, hw, hd₂⟩ := ataWriteSectors_noFaults hd (fatClusterToLba fp x)
      (dotSector x (if some p = t.root then 0 else t.cluster p))
    rw [hw]
    exact zeroSectors_noFaults hd₂ ..
  · exact zeroSectors_noFaults hd ..

theorem fatFreeCluster_noFaults (hg : Geometry fp) (hd : NoFaults d)
    (hroom : freeClusters fp d.image ≠ ∅) :
    ∃ x, fatFreeCluster fp d = (some x, d) ∧ x ∈ freeClusters fp d.image := by
  obtain ⟨hreads, hfound⟩ := fatFreeCluster_spec hg d
  rcases hf : fatFreeCluster fp d with ⟨_ | x, d₁⟩
  · have halloc := fatAllocCluster_find fp d
    rw [hf, markCluster] at halloc
    obtain ⟨x, d', h, hx, -⟩ | ⟨-, hempty⟩ := fatAllocCluster_spec hg hd
    · rw [halloc] at h
      cases h
      exact absurd (mem_freeClusters.mp hx).1.1 (by decide)
    · exact absurd hempty hroom
  · rw [hf] at hreads hfound
    obtain rfl := hreads.eq hd
    exact ⟨x, rfl, hfound x rfl⟩

theorem createAt_succeeds (hg : Geometry fp) (hd : NoFaults d) (hheap : Plenty t.heap)
    (hroom : freeClusters fp d.image ≠ ∅) (hs : freeEntry s.2.2 s.2.1 = true) :
    ∃ t' d', createAt fp t p name e flags s d = ((some t.nextNode, t'), d') ∧
      t'.heap = t.heap.tail.tail := by
  obtain ⟨x, hf, hx⟩ := fatFreeCluster_noFaults hg hd hroom
  have hv := (mem_freeClusters.mp hx).1
  obtain ⟨d₁, hset, hd₁, -⟩ := fatSetCluster_spec hg hd hv.2 FAT_EOC
  obtain ⟨d₂, hw, -⟩ := ataWriteSectors_noFaults (fillCluster_noFaults hd₁ t p flags x) s.1
    (entryBuf e flags s x)
  refine ⟨(t.addNode ⟨name, 0, flags, x, s.1, s.2.1, some p, []⟩).addChild p t.nextNode, d₂, ?_, ?_⟩
  · rw [createAt_some hs hf (by have := hv.1; omega), hset, writeEntry, hw,
      fatCreateNode_plenty hheap]
  · rw [Tree.addChild_heap]
    rfl

/-- Without errors `fat_create` ends, and makes a node exactly if there is a free slot. -/
theorem fatCreate_returns (hg : Geometry fp) (hd : NoFaults d) (hheap : Plenty t.heap)
    (hl : FatChain fp d.image (t.cluster p) l) (hflags : flags &&& (VFS_FILE ||| VFS_DIR) ≠ 0)
    (hname : fatNameTo83 name = some e) (hroom : freeClusters fp d.image ≠ ∅) :
    ∃ r t' d', Returns (fun fuel => fatCreate fp fuel p name flags t d) (r, t', d') ∧
      Plenty t'.heap ∧ (r ≠ none ↔ HasFreeSlot fp d l) := by
  have hfind := dirFind_noFaults (P := freeEntry) hg hd hl
  simp only [fatCreate_find hflags hname]
  cases hslot : (dirSlots fp l).find? fun s => freeEntry (d.sectors s.1) s.2 with
  | none =>
    rw [hslot] at hfind
    refine ⟨none, t, d, hfind.map _, hheap, fun h => absurd rfl h, ?_⟩
    rintro ⟨s, hs, hfree⟩
    have hused := List.find?_eq_none.mp hslot s hs
    rw [freeEntry, decide_eq_true_eq] at hused
    exact absurd hfree hused
  | some s =>
    rw [hslot] at hfind
    have hs := List.find?_some hslot
    have hmade : ∃ t' d', createAt fp t p name e flags (foundAt d.sectors s) d =
        ((some t.nextNode, t'), d') ∧ t'.heap = t.heap.tail.tail :=
      createAt_succeeds hg hd hheap hroom hs
    obtain ⟨t', d', hcreate, hheap'⟩ := hmade
    have hret := hfind.map fun r => created (afterFind (createAt fp t p name e flags) (none, t) r)
    rw [Option.map_some, afterFind, hcreate] at hret
    refine ⟨some t.nextNode, t', d', hret, ?_, fun _ => ⟨s, List.mem_of_find?_eq_some hslot, ?_⟩,
      fun _ => Option.some_ne_none _⟩
    · rw [hheap']
      exact hheap.tail.tail
    · rw [freeEntry, decide_eq_true_eq] at hs
      exact hs

-- ---------------------------------------------------------------------------
-- The calls
-- ---------------------------------------------------------------------------

theorem readdir_ends (p : Nat) (d : Disk) (slots : List (Nat × Nat)) (st : Int × Tree) :
    ∃ k t', EndsWith (visitSlots (readdirVisit p) d slots st) k t' d := by
  induction slots generalizing st with
  | nil => exact ⟨st.1, st.2, .inr rfl⟩
  | cons s slots ih =>
    rw [visitSlots]
    obtain h | ⟨st', h, -⟩ := readdirVisit_step p s.1 s.2 (d.sectors s.1) st d
    · rw [h]
      exact ⟨st.1, st.2, .inl rfl⟩
    · rw [h]
      exact ih st'

theorem vfsLoad_returns (hg : Geometry fp) (hd : NoFaults d) (hp : t.nodes p = some dir)
    (hl : FatChain fp d.image dir.cluster l) :
    ∃ t', Returns (fun fuel => vfsLoad fp fuel p t d) (t', d) := by
  unfold vfsLoad
  by_cases hempty : t.children p = []
  · simp only [if_pos hempty]
    obtain ⟨k, t', hend⟩ := readdir_ends p d (dirSlots fp l) (0, t)
    exact ⟨t', (fatReaddir_returns hg hd hp hl hend).map Prod.snd⟩
  · simp only [if_neg hempty]
    exact ⟨t, .pure _⟩

section Returns

variable {r : Option Nat × Tree × Disk} {d₁ d₂ : Disk} {parentPath : CStr}

theorem vfsParent_returns (hsplit : vfsSplitParent rest = some (parentPath, name))
    (hres : Returns (fun fuel => vfsResolve fp fuel parentPath t d) (some p, t₁, d₁))
    (hdir : t₁.hasFlag p VFS_DIR = true)
    (hload : Returns (fun fuel => vfsLoad fp fuel p t₁ d₁) (t₂, d₂)) :
    Returns (fun fuel => vfsParent fp fuel rest t d) (some (p, name), t₂, d₂) := by
  obtain ⟨N, hres⟩ := hres
  obtain ⟨M, hload⟩ := hload
  refine ⟨max N M, fun fuel hfuel => ?_⟩
  have hres := hres fuel (by omega)
  have hload := hload fuel (by omega)
  dsimp only at hres hload ⊢
  rw [vfsParent, hsplit]
  dsimp only
  rw [hres]
  dsimp only
  rw [if_pos hdir, hload]
  rfl

theorem vfsMake_returns
    (hparent : Returns (fun fuel => vfsParent fp fuel rest t d) (some (p, name), t₁, d₁))
    (hcreate : Returns (fun fuel => fatCreate fp fuel p name flags t₁ d₁) r) :
    Returns (fun fuel => vfsMake fp fuel rest flags t d) r := by
  obtain ⟨N, hparent⟩ := hparent
  obtain ⟨M, hcreate⟩ := hcreate
  refine ⟨max N M, fun fuel hfuel => ?_⟩
  have hparent := hparent fuel (by omega)
  dsimp only at hparent ⊢
  rw [vfsMake, hparent]
  exact hcreate fuel (by omega)

/-- What `vfs_create` makes of the new node. -/
def openMade (r : Option Nat × Tree × Disk) : Option VfsFile × Tree × Disk :=
  match r.1 with
  | none => (none, r.2.1, r.2.2)
  | some n => ((openFile n r.2.1).1, (openFile n r.2.1).2, r.2.2)

theorem vfsCreate_returns (hrest : vfsRest path = some rest)
    (hnew : Returns (fun fuel => vfsResolve fp fuel rest t d) (none, t₁, d₁))
    (hmake : Returns (fun fuel => vfsMake fp fuel rest VFS_FILE t₁ d₁) r) :
    Returns (fun fuel => vfsCreate fp fuel path t d) (openMade r) := by
  obtain ⟨N, hnew⟩ := hnew
  obtain ⟨M, hmake⟩ := hmake
  refine ⟨max N M, fun fuel hfuel => ?_⟩
  have hnew := hnew fuel (by omega)
  have hmake := hmake fuel (by omega)
  dsimp only at hnew hmake ⊢
  rw [vfsCreate, hrest]
  dsimp only
  rw [hnew]
  dsimp only [Option.filter_none]
  rw [hmake]
  obtain ⟨_ | n, t', d'⟩ := r <;> rfl

/-- What `vfs_mkdir` makes of it. -/
def madeDir (r : Option Nat × Tree × Disk) : Int × Tree × Disk :=
  (if r.1 = none then -1 else 0, r.2)

theorem vfsMkdir_returns (hrest : vfsRest path = some rest)
    (hnew : Returns (fun fuel => vfsResolve fp fuel rest t d) (none, t₁, d₁))
    (hmake : Returns (fun fuel => vfsMake fp fuel rest VFS_DIR t₁ d₁) r) :
    Returns (fun fuel => vfsMkdir fp fuel path t d) (madeDir r) := by
  obtain ⟨N, hnew⟩ := hnew
  obtain ⟨M, hmake⟩ := hmake
  refine ⟨max N M, fun fuel hfuel => ?_⟩
  have hnew := hnew fuel (by omega)
  have hmake := hmake fuel (by omega)
  dsimp only at hnew hmake ⊢
  rw [vfsMkdir, hrest]
  dsimp only
  rw [hnew]
  dsimp only
  rw [hmake]
  obtain ⟨_ | n, t', d'⟩ := r <;> rfl

end Returns

/-- `vfs_create` returns a handle. -/
def CreatesFile (fp : FatPrivate) (path : CStr) (t : Tree) (d : Disk) : Prop :=
  ∃ f t' d', Returns (fun fuel => vfsCreate fp fuel path t d) (some f, t', d')

/-- `vfs_mkdir` returns 0. -/
def CreatesDir (fp : FatPrivate) (path : CStr) (t : Tree) (d : Disk) : Prop :=
  ∃ t' d', Returns (fun fuel => vfsMkdir fp fuel path t d) (0, t', d')

theorem vfsMake_room (hg : Geometry fp) (hd : NoFaults d) (hf : t.Fresh) (hheap : Plenty t.heap)
    (hsplit : vfsSplitParent rest = some (parentPath, name))
    (hparent : Returns (fun fuel => vfsResolve fp fuel parentPath t d) (some p, t₁, d₁))
    (hdir : t₁.hasFlag p VFS_DIR = true) (hl : FatChain fp d.image (t₁.cluster p) l)
    (hname : fatNameTo83 name = some e) (hroom : freeClusters fp d.image ≠ ∅) (flags : Nat)
    (hflags : flags &&& (VFS_FILE ||| VFS_DIR) ≠ 0) :
    ∃ r t' d', Returns (fun fuel => vfsMake fp fuel rest flags t d) (r, t', d') ∧
      Plenty t'.heap ∧ (r ≠ none ↔ HasFreeSlot fp d l) := by
  obtain ⟨M, hM⟩ := hparent
  obtain ⟨hreads, hgrows⟩ := vfsResolve_grows hf (hM M (Nat.le_refl M))
  obtain rfl := hreads.eq hd
  obtain ⟨dir, hp⟩ := Tree.exists_of_hasFlag hdir
  have hcluster : t₁.cluster p = dir.cluster := by
    rw [Tree.cluster, hp]
    rfl
  rw [hcluster] at hl
  obtain ⟨t₂, K, hK⟩ := vfsLoad_returns hg hd hp hl
  obtain ⟨-, hgrows'⟩ := vfsLoad_grows hgrows.fresh hp (hK K (Nat.le_refl K))
  rw [← hcluster, ← hgrows'.cluster hp] at hl
  have hheap' : Plenty t₂.heap := fun b hb => hheap b ((hgrows'.heap.trans hgrows.heap).subset hb)
  obtain ⟨r, t', d', hcreate, hplenty, hiff⟩ := fatCreate_returns hg hd hheap' hl hflags hname hroom
  exact ⟨r, t', d', vfsMake_returns (vfsParent_returns hsplit ⟨M, hM⟩ hdir ⟨K, hK⟩) hcreate, hplenty,
    hiff⟩

/-- For a new name in a directory, with clusters left and no errors: both calls succeed exactly
if the directory has a free slot. -/
theorem creates_iff (hg : Geometry fp) (hd : NoFaults d) (hf : t.Fresh) (hheap : Plenty t.heap)
    (hrest : vfsRest path = some rest)
    (hnew : Returns (fun fuel => vfsResolve fp fuel rest t d) (none, t₁, d₁))
    (hsplit : vfsSplitParent rest = some (parentPath, name))
    (hparent : Returns (fun fuel => vfsResolve fp fuel parentPath t₁ d₁) (some p, t₂, d₂))
    (hdir : t₂.hasFlag p VFS_DIR = true) (hl : FatChain fp d.image (t₂.cluster p) l)
    (hname : fatNameTo83 name = some e) (hroom : 2 ≤ (freeClusters fp d.image).card) :
    (CreatesFile fp path t d ↔ HasFreeSlot fp d l) ∧ (CreatesDir fp path t d ↔ HasFreeSlot fp d l) := by
  -- resolving leaves the drive as it is
  obtain ⟨N, hN⟩ := hnew
  obtain ⟨hreads, hgrows⟩ := vfsResolve_grows hf (hN N (Nat.le_refl N))
  obtain rfl := hreads.eq hd
  have hheap' : Plenty t₁.heap := fun b hb => hheap b (hgrows.heap.subset hb)
  have hroom' : freeClusters fp d₁.image ≠ ∅ := by
    intro hempty
    rw [hempty] at hroom
    exact absurd hroom (by decide)
  constructor
  · obtain ⟨r, t', d', hret, hplenty, hiff⟩ := vfsMake_room hg hd hgrows.fresh hheap'
      hsplit hparent hdir hl hname hroom' VFS_FILE (by decide)
    have hcall := vfsCreate_returns hrest ⟨N, hN⟩ hret
    rw [← hiff]
    constructor
    · rintro ⟨f, t'', d'', hmade⟩
      rintro rfl
      cases hmade.unique hcall
    · intro hr
      obtain ⟨n, rfl⟩ := Option.ne_none_iff_exists'.mp hr
      simp only [openMade, openFile, kmalloc_plenty hplenty] at hcall
      exact ⟨_, _, _, hcall⟩
  · obtain ⟨r, t', d', hret, -, hiff⟩ := vfsMake_room hg hd hgrows.fresh hheap'
      hsplit hparent hdir hl hname hroom' VFS_DIR (by decide)
    have hcall := vfsMkdir_returns hrest ⟨N, hN⟩ hret
    rw [← hiff]
    constructor
    · rintro ⟨t'', d'', hmade⟩
      rintro rfl
      cases hmade.unique hcall
    · intro hr
      rw [madeDir, if_neg hr] at hcall
      exact ⟨t', d', hcall⟩

-- ---------------------------------------------------------------------------
-- Two root directories
-- ---------------------------------------------------------------------------

theorem vfsResolve_absent (hg : Geometry fp) (hd : NoFaults d) (hf : t.Fresh)
    (hroot : t.root = some p) (hp : t.nodes p = some dir) (hflag : dir.flags &&& VFS_DIR ≠ 0)
    (hempty : dir.children = []) (hl : FatChain fp d.image dir.cluster l) (hheap : Plenty t.heap)
    (hnames : ((listing fp d l).map (slotName d.sectors)).Nodup)
    (hparts : strtok [] path = [name]) (habsent : name ∉ (listing fp d l).map (slotName d.sectors)) :
    ∃ t' cs, Returns (fun fuel => vfsResolve fp fuel path t d) (none, t', d) ∧
      t'.root = some p ∧ t'.nodes p = some { dir with children := cs } := by
  obtain ⟨t', ⟨N, hN⟩, hp', hchildren, -⟩ := fatReaddir_exact hg hd hf hp hempty hl hheap hnames
  have hne : t.nodes p ≠ none := by
    rw [hp]
    exact Option.some_ne_none _
  obtain ⟨-, hgrows⟩ := fatReaddir_growsAt hf hne (hN N (Nat.le_refl N))
  have hfind : t'.find name (t'.children p) = none := by
    rw [Tree.find_eq_none]
    rintro c hc node hnode rfl
    have hmem := List.mem_map.mpr ⟨c, hc, hnode⟩
    rw [hchildren, List.mem_reverse] at hmem
    obtain ⟨s, hs, heq⟩ := List.mem_map.mp hmem
    cases heq
    exact habsent (List.mem_map.mpr ⟨s, hs, rfl⟩)
  refine ⟨t', t'.children p, ⟨N, fun fuel hfuel => ?_⟩, hgrows.root.trans hroot, hp'⟩
  have hN := hN fuel hfuel
  dsimp only at hN ⊢
  rw [vfsResolve, hroot]
  dsimp only
  rw [hparts, vfsWalk, Tree.hasFlag_eq hp, if_pos (decide_eq_true hflag), vfsLoad,
    if_pos (by rw [Tree.children_eq hp, hempty]), hN]
  dsimp only [Option.map_some]
  rw [hfind]

def slashX : CStr := cstr ['/', 'x']

/-- The root of a volume with the directory `l`, and no entry shown as `x`. -/
theorem root_without_x (hd : NoFaults d) (hl : FatChain mirroredFp d.image 2 l)
    (hnames : ((listing mirroredFp d l).map (slotName d.sectors)).Nodup)
    (habsent : cstr ['x'] ∉ (listing mirroredFp d l).map (slotName d.sectors)) :
    ∃ t₁, Returns (fun fuel => vfsResolve mirroredFp fuel (cstr ['x']) (rootTree mirroredFp.bpb) d)
        (none, t₁, d) ∧
      Returns (fun fuel => vfsResolve mirroredFp fuel [] t₁ d) (some 0, t₁, d) ∧
      t₁.hasFlag 0 VFS_DIR = true ∧ FatChain mirroredFp d.image (t₁.cluster 0) l := by
  have hheap : Plenty (rootTree mirroredFp.bpb).heap := fun _ hb => absurd hb (by simp [rootTree])
  obtain ⟨t₁, cs, hnew, hroot, hnode⟩ := vfsResolve_absent mirrored_layout hd
    (rootTree_fresh mirroredFp.bpb) rfl rfl (by decide) rfl hl hheap hnames
    (show strtok [] (cstr ['x']) = [cstr ['x']] by decide) habsent
  refine ⟨t₁, hnew, ⟨0, fun fuel _ => ?_⟩, ?_, ?_⟩
  · dsimp only
    rw [vfsResolve, hroot]
    rfl
  · rw [Tree.hasFlag_eq hnode]
    exact decide_eq_true (show VFS_DIR &&& VFS_DIR ≠ 0 by decide)
  · rw [Tree.cluster, hnode]
    exact hl

theorem slashX_rest : vfsRest slashX = some (cstr ['x']) := by decide

theorem slashX_parent : vfsSplitParent (cstr ['x']) = some ([], cstr ['x']) := by decide

theorem slashX_name : fatNameTo83 (cstr ['x']) = some ⟨pad 8 (cstr ['X']), pad 3 []⟩ := by decide

theorem rootTree_plenty (bpb : FatBpb) : Plenty (rootTree bpb).heap :=
  fun _ hb => absurd hb (by simp [rootTree])

/-- In the directory of 31 slots with deleted entries there is room for `x`. -/
theorem listed_creates : CreatesFile mirroredFp slashX (rootTree mirroredFp.bpb) listedDisk ∧
    CreatesDir mirroredFp slashX (rootTree mirroredFp.bpb) listedDisk := by
  obtain ⟨t₁, hnew, hparent, hdir, hl⟩ := root_without_x (show NoFaults listedDisk from rfl)
    listed_chain (by rw [listed_listing]; decide +kernel) (by rw [listed_listing]; decide +kernel)
  have hfree : HasFreeSlot mirroredFp listedDisk [2, 5] :=
    ⟨(3, 0), by decide +kernel, .inr (by decide +kernel)⟩
  obtain ⟨hfile, hmkdir⟩ := creates_iff mirrored_layout (show NoFaults listedDisk from rfl)
    (rootTree_fresh mirroredFp.bpb)
    (rootTree_plenty mirroredFp.bpb) slashX_rest hnew slashX_parent hparent hdir hl slashX_name
    (by decide +kernel)
  exact ⟨hfile.mpr hfree, hmkdir.mpr hfree⟩

/-- The root directory has cluster 2 alone, with 16 empty files, `A` to `P`. -/
def fullDisk : Disk where
  sectors n :=
    if n = 1 ∨ n = 2 then putLE (fun _ => 0) 8 4 FAT_EOC
    else if n = 3 then fun i =>
      if i % 32 = 0 then UInt8.ofNat (0x41 + i / 32) else if i % 32 ≤ 11 then 0x20 else 0
    else fun _ => 0
  faults := []

theorem full_chain : FatChain mirroredFp fullDisk.image 2 [2] := by
  refine ⟨.link (by decide) (.nil (by decide +kernel)), fun x hx => ?_⟩
  rw [List.mem_singleton.mp hx]
  exact ⟨by decide, by decide⟩

theorem full_slots : ∀ s ∈ dirSlots mirroredFp [2],
    fullDisk.sectors s.1 s.2 ≠ 0 ∧ fullDisk.sectors s.1 s.2 ≠ 0xE5 := by
  decide +kernel

/-- A full directory cannot take `x`, with six of seven clusters free. -/
theorem full_refuses : ¬ ∀ (fp : FatPrivate) (d : Disk) (t t₁ t₂ : Tree) (p : Nat)
    (path rest parentPath name : CStr) (e : FatName) (l : List Nat), Geometry fp → NoFaults d →
    t.Fresh → Plenty t.heap → vfsRest path = some rest →
    Returns (fun fuel => vfsResolve fp fuel rest t d) (none, t₁, d) →
    vfsSplitParent rest = some (parentPath, name) →
    Returns (fun fuel => vfsResolve fp fuel parentPath t₁ d) (some p, t₂, d) →
    t₂.hasFlag p VFS_DIR = true → FatChain fp d.image (t₂.cluster p) l →
    fatNameTo83 name = some e → 2 ≤ (freeClusters fp d.image).card → CreatesFile fp path t d := by
  intro hall
  obtain ⟨t₁, hnew, hparent, hdir, hl⟩ := root_without_x (show NoFaults fullDisk from rfl)
    full_chain (by decide +kernel) (by decide +kernel)
  obtain ⟨f, t', d', hmade⟩ := hall _ _ _ _ _ _ _ _ _ _ _ _ mirrored_layout
    (show NoFaults fullDisk from rfl) (rootTree_fresh mirroredFp.bpb) (rootTree_plenty mirroredFp.bpb)
    slashX_rest hnew slashX_parent hparent hdir hl slashX_name (by decide +kernel)
  obtain ⟨N, hN⟩ := hnew
  obtain ⟨-, hgrows⟩ := vfsResolve_grows (rootTree_fresh mirroredFp.bpb) (hN N (Nat.le_refl N))
  have hheap : Plenty t₁.heap := fun b hb => rootTree_plenty mirroredFp.bpb b (hgrows.heap.subset hb)
  obtain ⟨r, t₂, d₂, hret, -, hiff⟩ := vfsMake_room mirrored_layout
    (show NoFaults fullDisk from rfl) hgrows.fresh hheap slashX_parent hparent hdir hl slashX_name
    (by decide +kernel) VFS_FILE (by decide)
  have hr : r = none := by
    by_contra hr
    obtain ⟨s, hs, hfree⟩ := hiff.mp hr
    obtain ⟨h0, hdel⟩ := full_slots s hs
    exact hfree.elim h0 hdel
  subst hr
  cases hmade.unique (vfsCreate_returns slashX_rest ⟨N, hN⟩ hret)

end EponaOS.Fs
