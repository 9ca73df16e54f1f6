import EponaOS.Lib.Run
import EponaOS.Fs.DotEntries
import EponaOS.Fs.DirReads
import EponaOS.Fs.DirEnds
import EponaOS.Fs.FatVolume

/-!
# The way back up

A directory that `vfs_mkdir` has made has an entry `..` with the cluster of its parent, or with 0
where the parent is the root. Reading a directory takes the number as it is: 0 is no data
cluster, and lies in front of the data area.
-/

namespace EponaOS.Fs

open Bytes

variable {fp : FatPrivate} {d d' d₁ d₂ d₃ d₄ : Disk} {t t' t₁ t₂ t₃ t₄ : Tree} {n p q r x y up fuel cp : Nat}
  {name part path rest : CStr} {m : Bytes} {s : FoundSlot} {l lp : List Nat} {node dir : VfsNode} {o : Option Nat}
  {ret : Int} {a : Nat × CStr} {as bs : List (Nat × CStr)}

-- ---------------------------------------------------------------------------
-- A new directory
-- ---------------------------------------------------------------------------

/-- The number that `fat_create` writes into the entry `..`. -/
def upCluster (t : Tree) (p : Nat) : Nat := if some p = t.root then 0 else t.cluster p

structure NewDir (fp : FatPrivate) (l : List Nat) (s : FoundSlot) (x up : Nat) (d d' : Disk) :
    Prop where
  noFaults : NoFaults d'
  free : x ∈ freeClusters fp d.image
  first : FirstSlot freeEntry d.sectors (dirSlots fp l) s
  entry : ∀ y, Valid fp y →
    fatEntry fp d'.image y = if y = x then FAT_EOC else fatEntry fp d.image y
  data : ∀ lba, fp.dataStart ≤ lba → ¬ ClusterSector fp x lba → ∀ i < 512,
    (lba = s.1 → i < s.2.1 ∨ s.2.1 + 32 ≤ i) → d'.sectors lba i = d.sectors lba i
  dots : HasDots fp d' x up

theorem fillCluster_dots (hg : Geometry fp) (hd : NoFaults d) (hx : Valid fp x) (t : Tree) (p : Nat)
    (hflags : flags &&& VFS_DIR ≠ 0) :
    (fillCluster fp t p flags x d).sectors (clusterLba fp x) = dotSector x (upCluster t p) := by
  have hlt := clusterLba_lt hg hx
  have hpos := hg.spc_pos
  have hmod : clusterLba fp x % 2 ^ 28 = clusterLba fp x := Nat.mod_eq_of_lt (by omega)
  rw [fillCluster]
  dsimp only
  rw [fatClusterToLba_eq hg hx, if_pos hflags]
  obtain ⟨hrest, -⟩ := zeroSectors_touches
    (ataWriteSectors d (clusterLba fp x) (dotSector x (upCluster t p))).2
    (clusterLba fp x) 1 (fp.bpb.sectorsPerCluster - 1) (by omega)
  rw [upCluster] at hrest ⊢
  rw [hrest _ (by omega), ataWriteSectors, hd.fails]
  exact if_pos hmod.symm

structure NewEntry (fp : FatPrivate) (l : List Nat) (s : FoundSlot) (x up flags : Nat) (e : FatName)
    (d d' : Disk) : Prop where
  noFaults : NoFaults d'
  free : x ∈ freeClusters fp d.image
  first : FirstSlot freeEntry d.sectors (dirSlots fp l) s
  entry : ∀ y, Valid fp y →
    fatEntry fp d'.image y = if y = x then FAT_EOC else fatEntry fp d.image y
  data : ∀ lba, fp.dataStart ≤ lba → ¬ ClusterSector fp x lba → ∀ i < 512,
    (lba = s.1 → i < s.2.1 ∨ s.2.1 + 32 ≤ i) → d'.sectors lba i = d.sectors lba i
  slot : d'.sectors s.1 = entryBuf e flags s x
  dots : flags &&& VFS_DIR ≠ 0 → d'.sectors (clusterLba fp x) = dotSector x up
  zeros : flags &&& VFS_DIR ≠ 0 → ∀ n, clusterLba fp x < n → ClusterSector fp x n →
    d'.sectors n = fun _ => 0

theorem zeroSectors_zero {j k lba : Nat} (hd : NoFaults d) (hlba : lba + j + k ≤ 2 ^ 28)
    (hn : lba + j ≤ n) (hlt : n < lba + j + k) : (zeroSectors lba k j d).sectors n = fun _ => 0 := by
  induction k generalizing j d with
  | zero => omega
  | succ k ih =>
    rw [zeroSectors, Nat.mod_eq_of_lt (show lba + j < 2 ^ 32 by omega)]
    obtain ⟨d₁, hw, hd₁⟩ := ataWriteSectors_noFaults hd (lba + j) fun _ => 0
    rw [hw]
    by_cases hj : n = lba + j
    · obtain ⟨htouch, -⟩ := zeroSectors_touches d₁ lba (j + 1) k (by omega)
      rw [htouch n (by omega), hj]
      rw [ataWriteSectors, hd.fails] at hw
      cases hw
      exact if_pos (Nat.mod_eq_of_lt (by omega)).symm
    · exact ih hd₁ (by omega) (by omega) (by omega)

theorem fillCluster_zeros (hg : Geometry fp) (hd : NoFaults d) (hx : Valid fp x) (t : Tree) (p : Nat)
    (hflags : flags &&& VFS_DIR ≠ 0) (hn : clusterLba fp x < n) (hin : ClusterSector fp x n) :
    (fillCluster fp t p flags x d).sectors n = fun _ => 0 := by
  have hlt := clusterLba_lt hg hx
  have hin' := hin.2
  rw [fillCluster]
  dsimp only
  rw [fatClusterToLba_eq hg hx, if_pos hflags]
  obtain ⟨d₁, hw, hd₁⟩ := ataWriteSectors_noFaults hd (clusterLba fp x) (dotSector x
    (if some p = t.root then 0 else t.cluster p))
  rw [hw]
  exact zeroSectors_zero hd₁ (by omega) hn (by omega)

/-- Without errors an entry is made, with a node for it if there is memory, or nothing is changed. -/
theorem fatCreate_entry (hg : Geometry fp) (hd : NoFaults d)
    (hl : FatChain fp d.image (t.cluster p) l) (hflags : flags &&& (VFS_FILE ||| VFS_DIR) ≠ 0)
    (h : fatCreate fp fuel p name flags t d = some (o, t', d')) :
    (o = none ∧ t' = t ∧ d' = d) ∨ ∃ s x e, fatNameTo83 name = some e ∧
      NewEntry fp l s x (upCluster t p) flags e d d' ∧
      ((o = some t.nextNode ∧ t' = t.grow p (madeNode name flags x p s)) ∨
        (o = none ∧ ¬ Memory 2 t.heap ∧ ∃ heap, t' = { t with heap })) := by
  by_cases hstart : ∃ s x d', StartsWriting fp fuel p name t d s x d'
  · obtain ⟨s, x, dw, hstart⟩ := hstart
    obtain ⟨e, hname⟩ := Option.ne_none_iff_exists'.mp hstart.1
    obtain ⟨hreads, hx, hfirst⟩ := hstart.spec hg hl
    obtain rfl := hreads.eq hd
    obtain ⟨hvalid, hfree⟩ := mem_freeClusters.mp hx
    have hxl : x ∉ l := fun hmem => hl.entry_ne_zero hmem hfree
    obtain ⟨-, hdata, hmark, -⟩ := filledDisk_spec hg hl hstart flags
    obtain ⟨d₁, hset, hd₁, -⟩ := fatSetCluster_spec hg hd hvalid.2 FAT_EOC
    have hdf : NoFaults (filledDisk fp t p flags x dw) := by
      rw [filledDisk, hset]
      exact fillCluster_noFaults hd₁ t p flags x
    have hdots : flags &&& VFS_DIR ≠ 0 →
        (filledDisk fp t p flags x dw).sectors (clusterLba fp x) = dotSector x (upCluster t p) := by
      intro hdir
      rw [filledDisk, hset]
      exact fillCluster_dots hg hd₁ hvalid t p hdir
    have hzeros : flags &&& VFS_DIR ≠ 0 → ∀ n, clusterLba fp x < n → ClusterSector fp x n →
        (filledDisk fp t p flags x dw).sectors n = fun _ => 0 := by
      intro hdir n hn hin
      rw [filledDisk, hset]
      exact fillCluster_zeros hg hd₁ hvalid t p hdir hn hin
    have hmarked : MarkWritten dw := by
      refine ⟨hd.fails, ?_⟩
      rw [hd.tick]
      exact hd.fails
    rw [fatCreate_writes hg hl hflags hname hstart] at h
    obtain ⟨hsame, -, -⟩ := written_entry hg hl.2 hvalid hname hfirst
      (hdata.sameSlots hg hl.2 hvalid hxl) flags
    obtain ⟨hbuf, -, hlt, c, hc, hsector, -⟩ := hfirst.place hg hl.2
    have hother : ¬ ClusterSector fp x s.1 := fun hin =>
      hxl (hsector.eq hg (hl.2 c hc) hvalid hin ▸ hc)
    generalize filledDisk fp t p flags x dw = df at *
    have hat := df.written_at hlt (entryBuf e flags s x)
    have htouch := df.written_touches hlt (entryBuf e flags s x)
    have hnew : NewEntry fp l s x (upCluster t p) flags e dw (df.written s.1 (entryBuf e flags s x)) := by
      refine ⟨?_, hx, hfirst, fun y hy => ?_, fun lba hlba hno i hi hoff => ?_, hat, fun hdir => ?_,
        fun hdir n hn hin => ?_⟩
      · rw [NoFaults, Disk.written, Disk.tick, show df.faults = [] from hdf]
        rfl
      · rw [hsame y hy, hmark hmarked y hy]
      · by_cases hs : lba = s.1
        · rw [hs, hat, entryBuf, putDirent_off (hoff hs), hbuf]
        · rw [htouch _ hs]
          exact hdata lba hlba hno i hi
      · have hne : clusterLba fp x ≠ s.1 := by
          rintro heq
          refine hother ⟨Nat.le_of_eq heq, ?_⟩
          have := hg.spc_pos
          omega
        rw [htouch _ hne, hdots hdir]
      · rw [htouch _ (fun heq => hother (heq ▸ hin)), hzeros hdir n hn hin]
    obtain ⟨hf, -⟩ | ⟨-, -, hw⟩ | ⟨-, hno, heap, hw⟩ := writeEntry_cases t p name e flags s x df
    · rw [hdf.fails] at hf
      cases hf
    · rw [hw] at h
      cases h
      exact .inr ⟨s, x, e, hname, hnew, .inl ⟨rfl, rfl⟩⟩
    · rw [hw] at h
      cases h
      exact .inr ⟨s, x, e, hname, hnew, .inr ⟨rfl, hno, heap, rfl⟩⟩
  · obtain ⟨rfl, rfl, hreads⟩ := fatCreate_refuses hg hl hflags hstart h
    exact .inl ⟨rfl, rfl, hreads.eq hd⟩

theorem Plenty.memory (h : Plenty heap) (k : Nat) : Memory k heap :=
  fun _ _ hfail => absurd (h true (List.mem_of_getElem? hfail)) (by decide)

theorem NewEntry.newDir (h : NewEntry fp l s x up VFS_DIR e d d') : NewDir fp l s x up d d' where
  noFaults := h.noFaults
  free := h.free
  first := h.first
  entry := h.entry
  data := h.data
  dots i _ := congrFun (h.dots (by decide)) i

theorem fatCreate_dir (hg : Geometry fp) (hd : NoFaults d) (hheap : Plenty t.heap)
    (hl : FatChain fp d.image (t.cluster p) l)
    (h : fatCreate fp fuel p name VFS_DIR t d = some (o, t', d')) :
    (o = none ∧ t' = t ∧ d' = d) ∨ ∃ s x, o = some t.nextNode ∧
      t' = t.grow p (madeNode name VFS_DIR x p s) ∧ NewDir fp l s x (upCluster t p) d d' := by
  obtain hsame | ⟨s, x, e, -, hnew, ⟨ho, ht⟩ | ⟨-, hno, -⟩⟩ := fatCreate_entry hg hd hl (by decide) h
  · exact .inl hsame
  · exact .inr ⟨s, x, ho, ht, hnew.newDir⟩
  · exact absurd (hheap.memory 2) hno

-- ---------------------------------------------------------------------------
-- A call of `vfs_mkdir`
-- ---------------------------------------------------------------------------

structure Ready (r : Nat) (t : Tree) (d : Disk) : Prop where
  noFaults : NoFaults d
  fresh : t.Fresh
  closed : t.Closed
  plenty : Plenty t.heap
  root : t.root = some r

theorem Ready.extends (h : Ready r t d) (hext : Extends t t') : Ready r t' d where
  noFaults := h.noFaults
  fresh := hext.fresh
  closed := hext.closed
  plenty b hb := h.plenty b (hext.heap.subset hb)
  root := hext.root.trans h.root

theorem ready_rule (fp : FatPrivate) (fuel r : Nat) :
    LoadRule fp fuel fun t d t' d' => Ready r t d → Extends t t' ∧ d' = d where
  refl _ _ h := ⟨.refl h.fresh h.closed, rfl⟩
  trans t d t' d' t'' d'' h h' hr := by
    obtain ⟨hext, rfl⟩ := h hr
    obtain ⟨hext', rfl⟩ := h' (hr.extends hext)
    exact ⟨hext.trans hext', rfl⟩
  read n t d k t' d' hn hempty h hr :=
    ⟨fatReaddir_extends hr.fresh hr.closed hn h, (fatReaddir_growsAt hr.fresh hn h).1.eq hr.noFaults⟩

/-- The paths fit into the buffers of `vfs.c`. -/
def PathFits (path : CStr) : Prop := ∀ rest, vfsRest path = some rest → rest.length < 256

def DataParent (fp : FatPrivate) (fuel : Nat) (path : CStr) (t : Tree) (d : Disk) : Prop :=
  ∀ p name t₂ d₂, Reaches fp fuel path t d p name t₂ d₂ →
    ∃ l, FatChain fp d.image (t₂.cluster p) l

theorem Loads.ready (h : Loads fp fuel t d t' d') (hr : Ready r t d) : Extends t t' ∧ d' = d :=
  h _ (ready_rule fp fuel r) hr

/-- The call makes the directory `name` in `p`, which it finds in the tree `t₂`. -/
structure MadeIn (fp : FatPrivate) (fuel : Nat) (path : CStr) (t : Tree) (d : Disk) (p : Nat)
    (name : CStr) (t₂ : Tree) (r : Nat) : Prop where
  loads : Loads fp fuel t d t₂ d
  dir : t₂.hasFlag p VFS_DIR = true
  absent : t₂.find name (t₂.children p) = none
  loaded : vfsLoad fp fuel p t₂ d = some (t₂, d)
  path : ∀ rest, vfsRest path = some rest →
    ∃ parts, strtok [] rest = parts ++ [name] ∧ Resolves t₂ parts r p

theorem Reaches.madeIn (h : Reaches fp fuel path t d p name t₂ d') (hr : Ready r t d)
    (hfits : PathFits path) : d' = d ∧ MadeIn fp fuel path t d p name t₂ r := by
  obtain ⟨rest, t₁, d₁, hrest, hnew, hparent⟩ := h
  obtain ⟨parentPath, t₃, d₃, hsplit, hres, hdir, hload⟩ := vfsParent_some hparent
  obtain ⟨hext, rfl⟩ := (ready_rule fp fuel r).resolve hnew hr
  have hr₁ := hr.extends hext
  obtain ⟨hext', rfl⟩ := (ready_rule fp fuel r).resolve hres hr₁
  have hr₃ := hr₁.extends hext'
  have hp := Tree.ne_none_of_hasFlag hdir
  obtain ⟨hext'', rfl⟩ := (ready_rule fp fuel r).load hp hload hr₃
  have hparts := vfsSplitParent_parts hsplit (hfits rest hrest)
  rw [vfsResolve, hr.root] at hnew
  rw [vfsResolve, hr₁.root] at hres
  dsimp only at hnew hres
  rw [hparts] at hnew
  obtain ⟨node, hn⟩ := Tree.exists_of_hasFlag hdir
  obtain ⟨-, hagain⟩ := vfsLoad_again hr₃.noFaults hr₃.fresh hr₃.closed hr₃.plenty hp hload
  refine ⟨rfl, ⟨fun R hR => ?_, ?_, ?_, hagain, fun rest' hrest' => ?_⟩⟩
  · exact hR.trans _ _ _ _ _ _ (hR.walk hnew) (hR.trans _ _ _ _ _ _ (hR.walk hres) (hR.load hp hload))
  · rw [hext''.hasFlag hn]
    exact hdir
  · exact name_absent hr.noFaults hr.fresh hr.closed hr.plenty hnew hres hdir hload
  · cases hrest.symm.trans hrest'
    exact ⟨_, hparts, (vfsWalk_resolves hr₁.fresh hr₁.closed hres).extends hext''⟩

/-- Without errors a call that comes to `fs->create` fails and only loads directories, or makes
the directory. -/
theorem Reaches.mkdir_cases (hreach : Reaches fp fuel path t d p name t₂ d₂) (hg : Geometry fp)
    (hr : Ready r t d) (hfits : PathFits path) (hdata : DataParent fp fuel path t d)
    (h : vfsMkdir fp fuel path t d = some (ret, t', d')) :
    MadeIn fp fuel path t d p name t₂ r ∧ ((ret = -1 ∧ d' = d ∧ t' = t₂) ∨ ∃ l s x, ret = 0 ∧
      FatChain fp d.image (t₂.cluster p) l ∧ t' = t₂.grow p (madeNode name VFS_DIR x p s) ∧
      NewDir fp l s x (upCluster t₂ p) d d') := by
  obtain ⟨l, hl⟩ := hdata p name t₂ d₂ hreach
  obtain ⟨rfl, hmade⟩ := hreach.madeIn hr hfits
  have hr₂ := hr.extends (hmade.loads.ready hr).1
  have hcall := hreach.mkdir
  rw [h] at hcall
  obtain ⟨⟨o, t₃, d₃⟩, hcreate, heq⟩ := Option.map_eq_some_iff.mp hcall.symm
  refine ⟨hmade, ?_⟩
  obtain ⟨rfl, rfl, rfl⟩ | ⟨s, x, rfl, rfl, hnew⟩ :=
    fatCreate_dir hg hr₂.noFaults hr₂.plenty hl hcreate
  · cases heq
    exact .inl ⟨rfl, rfl, rfl⟩
  · cases heq
    exact .inr ⟨l, s, x, rfl, hl, rfl, hnew⟩

-- ---------------------------------------------------------------------------
-- A directory and the way out of it
-- ---------------------------------------------------------------------------

structure DirAt (fp : FatPrivate) (n x up : Nat) (t : Tree) (d : Disk) : Prop where
  dir : t.hasFlag n VFS_DIR = true
  cluster : t.cluster n = x
  valid : Valid fp x
  last : fatEntry fp d.image x = FAT_EOC
  dots : HasDots fp d x up
  found : t.children n = [] ∨ FindsUp t n up

structure Track (fp : FatPrivate) (r : Nat) (rest : CStr) (n x up p cp : Nat) (t : Tree) (d : Disk) :
    Prop where
  ready : Ready r t d
  node : DirAt fp n x up t d
  path : Resolves t (strtok [] rest) r n
  parent : ∃ node, t.nodes p = some node ∧ node.cluster = cp
  valid : Valid fp cp
  chain : ∃ l, FatChain fp d.image cp l
  out : up = if p = r then 0 else cp

theorem DirAt.chain (h : DirAt fp n x up t d) (hg : Geometry fp) : FatChain fp d.image x [x] := by
  refine ⟨.link (Nat.not_le.mpr (h.valid.lt_eoc hg)) (.nil ?_), fun y hy => ?_⟩
  · rw [h.last]
  · rw [List.mem_singleton.mp hy]
    exact h.valid

theorem Track.up_lt (h : Track fp r rest n x up p cp t d) (hg : Geometry fp) : up < 2 ^ 32 := by
  have hlt := h.valid.lt_eoc hg
  have heoc : FAT_EOC < 2 ^ 32 := by decide
  rw [h.out]
  split <;> omega

/-- A directory whose children are not there yet gets the child `..` when it is read. -/
theorem Track.reads_up (h : Track fp r rest n x up p cp t d) (hg : Geometry fp)
    (hempty : t.children n = []) :
    ∃ k t', Returns (fun fuel => fatReaddir fp fuel n t d) (k, t', d) ∧ FindsUp t' n up := by
  obtain ⟨node, hn⟩ := Tree.exists_of_hasFlag h.node.dir
  have hcluster : node.cluster = x := by
    rw [← h.node.cluster, Tree.cluster, hn]
    rfl
  refine fatReaddir_up hg h.ready.noFaults h.ready.fresh h.ready.closed h.ready.plenty hn hempty ?_
    h.node.dots (h.up_lt hg)
  rw [hcluster]
  exact h.node.chain hg

/-- Where the tree only grows, and `..` is still to be found, the way out stays. -/
theorem Track.extends (h : Track fp r rest n x up p cp t d) (hext : Extends t t')
    (hfound : t'.children n = [] ∨ FindsUp t' n up) : Track fp r rest n x up p cp t' d := by
  obtain ⟨node, hn⟩ := Tree.exists_of_hasFlag h.node.dir
  obtain ⟨dir, hp, hcp⟩ := h.parent
  obtain ⟨cs, hcs⟩ := hext.nodes p dir hp
  refine ⟨h.ready.extends hext, ⟨?_, ?_, h.node.valid, h.node.last, h.node.dots, hfound⟩,
    h.path.extends hext, ⟨_, hcs, hcp⟩, h.valid, h.chain, h.out⟩
  · rw [hext.hasFlag hn]
    exact h.node.dir
  · rw [hext.cluster hn]
    exact h.node.cluster

theorem track_rule (hg : Geometry fp) (fuel : Nat) :
    LoadRule fp fuel fun t d t' d' => Track fp r rest n x up p cp t d →
      Track fp r rest n x up p cp t' d' where
  refl _ _ h := h
  trans _ _ _ _ _ _ h h' ht := h' (h ht)
  read k t d i t' d' hk hempty hread h := by
    have hr := h.ready
    have hext := fatReaddir_extends hr.fresh hr.closed hk hread
    obtain ⟨hreads, hgrows⟩ := fatReaddir_growsAt hr.fresh hk hread
    obtain rfl := hreads.eq hr.noFaults
    refine h.extends hext ?_
    obtain hnil | hfind := h.node.found
    · by_cases hkn : k = n
      · subst hkn
        obtain ⟨i', t₁, hret, hfind⟩ := h.reads_up hg hempty
        cases ((fatReaddir_mono fp k t d').returns hread).unique hret
        exact .inr hfind
      · refine .inl ?_
        have hsame := hgrows.others n (Ne.symm hkn) (Tree.ne_none_of_hasFlag h.node.dir)
        rw [Tree.children, hsame]
        exact hnil
    · exact .inr (hfind.extends hext)

-- ---------------------------------------------------------------------------
-- One more directory
-- ---------------------------------------------------------------------------

theorem NewDir.keeps_chain (h : NewDir fp l s x up d d') (hc : FatChain fp d.image cp lp) :
    FatChain fp d'.image cp lp := by
  obtain ⟨-, hfree⟩ := mem_freeClusters.mp h.free
  refine hc.congr fun y hy => ?_
  rw [h.entry y (hc.2 y hy), if_neg]
  rintro rfl
  exact hc.entry_ne_zero hy hfree

theorem NewDir.keeps_dots (h : NewDir fp l s y up' d d') (hg : Geometry fp)
    (hl : ∀ c ∈ l, Valid fp c) (hx : Valid fp x) (hne : y ≠ x) (hdots : HasDots fp d x up) :
    HasDots fp d' x up := by
  obtain ⟨hbuf, hfree, -, c, -, -, hoff, -⟩ := h.first.place hg hl
  intro i hi
  have hspc := hg.spc_pos
  have hin : ClusterSector fp x (clusterLba fp x) := ⟨Nat.le_refl _, by omega⟩
  rw [← hdots i hi]
  refine h.data _ hin.behind (fun hin' => hne ?_) i (by omega) fun hs => .inl ?_
  · exact ClusterSector.eq hg (mem_freeClusters.mp h.free).1 hx hin' hin
  · rw [hbuf, ← hs] at hfree
    exact Nat.lt_of_lt_of_le hi (hdots.free hfree hoff)

theorem Ready.grow (h : Ready r t₂ d) (hmade : MadeIn fp fuel path t d p name t₂ r)
    (hnew : NewDir fp l s x up d d') :
    Extends t₂ (t₂.grow p (madeNode name VFS_DIR x p s)) ∧
      Ready r (t₂.grow p (madeNode name VFS_DIR x p s)) d' := by
  obtain ⟨dir, hp⟩ := Tree.exists_of_hasFlag hmade.dir
  have hext : Extends t₂ (t₂.grow p (madeNode name VFS_DIR x p s)) :=
    .grow h.fresh h.closed hp hmade.absent rfl
  have hr := h.extends hext
  exact ⟨hext, hnew.noFaults, hr.fresh, hr.closed, hr.plenty, hr.root⟩

theorem Track.grow (h : Track fp r rest n x up p cp t₂ d) (hg : Geometry fp)
    (hmade : MadeIn fp fuel path t d q name t₂ r) (hl : FatChain fp d.image (t₂.cluster q) l)
    (hnew : NewDir fp l s y up' d d') :
    Track fp r rest n x up p cp (t₂.grow q (madeNode name VFS_DIR y q s)) d' := by
  obtain ⟨hext, hready⟩ := h.ready.grow hmade hnew
  obtain ⟨dir, hq⟩ := Tree.exists_of_hasFlag hmade.dir
  obtain ⟨-, hfree⟩ := mem_freeClusters.mp hnew.free
  have hne : y ≠ x := by
    rintro rfl
    rw [h.node.last] at hfree
    exact absurd hfree (by decide)
  have hfound : (t₂.grow q (madeNode name VFS_DIR y q s)).children n = [] ∨
      FindsUp (t₂.grow q (madeNode name VFS_DIR y q s)) n up := by
    obtain hnil | hfind := h.node.found
    · by_cases hqn : n = q
      · -- the parent has been read, and has the child already
        subst hqn
        obtain ⟨k, t', hret, hfind⟩ := h.reads_up hg hnil
        have hload := hmade.loaded
        rw [vfsLoad, if_pos hnil] at hload
        obtain ⟨⟨k', r'⟩, hread, heq⟩ := Option.map_eq_some_iff.mp hload
        cases heq
        cases ((fatReaddir_mono fp n _ _).returns hread).unique hret
        exact absurd hnil hfind.ne_nil
      · refine .inl ?_
        have hgrow : GrowsAt q t₂ (t₂.grow q (madeNode name VFS_DIR y q s)) :=
          .grow h.ready.fresh hq rfl
        have hsame := hgrow.others n hqn (Tree.ne_none_of_hasFlag h.node.dir)
        rw [Tree.children, hsame]
        exact hnil
    · exact .inr (hfind.extends hext)
  obtain ⟨-, hnode, hpath, hparent, hvalid, ⟨lp, hlp⟩, hout⟩ := h.extends hext hfound
  refine ⟨hready, ⟨hnode.dir, hnode.cluster, hnode.valid, ?_, ?_, hfound⟩, hpath, hparent, hvalid,
    ⟨lp, hnew.keeps_chain hlp⟩, hout⟩
  · rw [hnew.entry x hnode.valid, if_neg (Ne.symm hne)]
    exact hnode.last
  · exact hnew.keeps_dots hg hl.2 hnode.valid hne hnode.dots

theorem MadeIn.track (hmade : MadeIn fp fuel path t d p name t₂ r) (hg : Geometry fp)
    (hr : Ready r t₂ d) (hrest : vfsRest path = some rest)
    (hl : FatChain fp d.image (t₂.cluster p) l) (hnew : NewDir fp l s x (upCluster t₂ p) d d') :
    Track fp r rest t₂.nextNode x (upCluster t₂ p) p (t₂.cluster p)
      (t₂.grow p (madeNode name VFS_DIR x p s)) d' := by
  obtain ⟨hext, hready⟩ := hr.grow hmade hnew
  obtain ⟨dir, hp⟩ := Tree.exists_of_hasFlag hmade.dir
  obtain ⟨hx, -⟩ := mem_freeClusters.mp hnew.free
  obtain ⟨parts, hparts, hres⟩ := hmade.path rest hrest
  have hcp : Valid fp (t₂.cluster p) := by
    obtain ⟨-, -, -, c, hc, -⟩ := hnew.first.place hg hl.2
    obtain ⟨hchain, hvalid⟩ := hl
    cases hchain with
    | nil => cases hc
    | link => exact hvalid _ List.mem_cons_self
  have hparent := Tree.grow_parent hr.fresh hp (madeNode name VFS_DIR x p s)
  have hchild := Tree.grow_new hr.fresh hp (madeNode name VFS_DIR x p s)
  have hfind : (t₂.grow p (madeNode name VFS_DIR x p s)).find name
      ((t₂.grow p (madeNode name VFS_DIR x p s)).children p) = some t₂.nextNode := by
    rw [Tree.children_eq hparent, Tree.find, List.find?_cons, hchild, Option.any_some,
      decide_eq_true (show (madeNode name VFS_DIR x p s).name = name from rfl)]
  refine ⟨hready, ⟨?_, ?_, hx, ?_, hnew.dots, .inl ?_⟩, ?_, ?_, hcp,
    ⟨l, hnew.keeps_chain hl⟩, ?_⟩
  · rw [Tree.hasFlag_eq hchild]
    exact decide_eq_true (show VFS_DIR &&& VFS_DIR ≠ 0 by decide)
  · rw [Tree.cluster, hchild]
    rfl
  · rw [hnew.entry x hx, if_pos rfl]
  · rw [Tree.children_eq hchild]
    rfl
  · rw [hparts]
    refine (hres.extends hext).snoc ?_ hfind
    rw [hext.hasFlag hp]
    exact hmade.dir
  · refine ⟨_, hparent, ?_⟩
    rw [Tree.cluster, hp]
    rfl
  · simp only [upCluster, hr.root, Option.some_inj]

-- ---------------------------------------------------------------------------
-- Resolving `..`
-- ---------------------------------------------------------------------------

/-- The path of a directory with `/..` resolves to a directory with the listing of `p`. Resolving
it, and reading the directory it gives, takes sectors of the data area only. -/
def LeadsUp (fp : FatPrivate) (rest : CStr) (p : Nat) (t : Tree) (d : Disk) : Prop :=
  ∃ m t', Returns (fun fuel => vfsResolve fp fuel (rest ++ SLASH :: DOTDOT) t d) (some m, t', d) ∧
    t'.hasFlag m VFS_DIR = true ∧
    (∃ l lp, FatChain fp d.image (t'.cluster m) l ∧ FatChain fp d.image (t'.cluster p) lp ∧
      listing fp d l = listing fp d lp) ∧
    ∀ fuel, ∀ s ∈ resolveReads fp fuel (rest ++ SLASH :: DOTDOT) t d ++ readdirReads fp fuel m t' d,
      DataSector fp s

theorem dotdot_parts (rest : CStr) : strtok [] (rest ++ SLASH :: DOTDOT) = strtok [] rest ++ [DOTDOT] := by
  rw [strtok_slash]
  exact congrArg (strtok [] rest ++ ·) (by decide)

/-- The walk ends at the child `..`, and reads no directory but the one it is in. -/
theorem Track.resolves (h : Track fp r rest n x up p cp t d) (hg : Geometry fp) :
    (∃ m t', Returns (fun fuel => vfsResolve fp fuel (rest ++ SLASH :: DOTDOT) t d) (some m, t', d) ∧
      t'.hasFlag m VFS_DIR = true ∧ t'.cluster m = up ∧ t'.cluster p = cp) ∧
    ∀ fuel, ∀ s ∈ resolveReads fp fuel (rest ++ SLASH :: DOTDOT) t d, DataSector fp s := by
  have hwalk : ∀ fuel, vfsResolve fp fuel (rest ++ SLASH :: DOTDOT) t d =
      vfsWalk fp fuel [DOTDOT] n t d := by
    intro fuel
    rw [vfsResolve, h.ready.root]
    dsimp only
    rw [dotdot_parts, h.path.walk]
  -- the children of `n` are there, or reading it gives them
  have hload : ∃ t₁, Returns (fun fuel => vfsLoad fp fuel n t d) (t₁, d) ∧ Extends t t₁ ∧
      FindsUp t₁ n up := by
    obtain hnil | hfind := h.node.found
    · obtain ⟨k, t₁, hret, hfind⟩ := h.reads_up hg hnil
      obtain ⟨N, hN⟩ := hret
      refine ⟨t₁, ⟨N, fun fuel hfuel => ?_⟩, ?_, hfind⟩
      · have hread := hN fuel hfuel
        dsimp only at hread ⊢
        rw [vfsLoad, if_pos hnil, hread]
        rfl
      · exact fatReaddir_extends h.ready.fresh h.ready.closed (Tree.ne_none_of_hasFlag h.node.dir)
          (hN N (Nat.le_refl N))
    · refine ⟨t, ⟨0, fun fuel _ => if_neg hfind.ne_nil⟩, ?_, hfind⟩
      exact .refl h.ready.fresh h.ready.closed
  obtain ⟨t₁, ⟨N, hN⟩, hext, m, node, hfind, hm, hdir, hcluster⟩ := hload
  obtain ⟨dir, hp, hcp⟩ := h.parent
  refine ⟨⟨m, t₁, ⟨N, fun fuel hfuel => ?_⟩, ?_, ?_, ?_⟩, fun fuel s hs => ?_⟩
  · have hload := hN fuel hfuel
    dsimp only at hload ⊢
    rw [hwalk, vfsWalk, if_pos h.node.dir, hload]
    dsimp only
    rw [hfind]
    rfl
  · rw [Tree.hasFlag_eq hm]
    exact decide_eq_true hdir
  · rw [Tree.cluster, hm]
    exact hcluster
  · rw [hext.cluster hp, Tree.cluster, hp]
    exact hcp
  · rw [resolveReads, h.ready.root] at hs
    dsimp only at hs
    rw [dotdot_parts, h.path.partReads, partReads, if_pos h.node.dir] at hs
    obtain hs | hs := List.mem_append.mp hs
    · have hl : FatChain fp d.image (t.cluster n) [x] := by
        rw [h.node.cluster]
        exact h.node.chain hg
      exact loadReads_data hg h.ready.noFaults hl hs
    · -- behind the last part of the path nothing is read
      split at hs
      · cases hs
      · split at hs <;> cases hs

/-- The way out leads to the parent exactly if the entry `..` has its cluster. -/
theorem Track.leadsUp_iff (h : Track fp r rest n x up p cp t d) (hg : Geometry fp) :
    LeadsUp fp rest p t d ↔ p ≠ r := by
  obtain ⟨⟨m, t₁, hret, hdir, hm, hp⟩, hreads⟩ := h.resolves hg
  have hout := h.out
  constructor
  · rintro ⟨m', t₂, hret', -, ⟨l, -, hl, -⟩, -⟩ rfl
    cases hret.unique hret'
    rw [if_pos rfl] at hout
    rw [hm, hout] at hl
    exact hl.ne_zero hg rfl
  · intro hne
    rw [if_neg hne] at hout
    obtain ⟨lp, hlp⟩ := h.chain
    have hlm : FatChain fp d.image (t₁.cluster m) lp := by
      rw [hm, hout]
      exact hlp
    refine ⟨m, t₁, hret, hdir, ⟨lp, lp, hlm, ?_, rfl⟩, fun fuel s hs => ?_⟩
    · rw [hp]
      exact hlp
    · obtain hs | hs := List.mem_append.mp hs
      · exact hreads fuel s hs
      · exact walkReads_data hg h.ready.noFaults hlm hs

-- ---------------------------------------------------------------------------
-- Calls one after the other
-- ---------------------------------------------------------------------------

/-- A call of `vfs_mkdir`, with the rounds that its loops take. -/
def mkdirStep (fp : FatPrivate) (s : Tree × Disk) (a : Nat × CStr) (s' : Tree × Disk) : Prop :=
  ∃ ret, vfsMkdir fp a.1 a.2 s.1 s.2 = some (ret, s')

def MkdirOk (fp : FatPrivate) (s : Tree × Disk) (a : Nat × CStr) : Prop :=
  PathFits a.2 ∧ DataParent fp a.1 a.2 s.1 s.2

theorem mkdirStep_cases (hg : Geometry fp) (hr : Ready r t d) (hok : MkdirOk fp (t, d) a)
    (h : mkdirStep fp (t, d) a (t', d')) : ∃ t₂, Loads fp a.1 t d t₂ d ∧ ((t' = t₂ ∧ d' = d) ∨
      ∃ p name l s x, MadeIn fp a.1 a.2 t d p name t₂ r ∧ FatChain fp d.image (t₂.cluster p) l ∧
        t' = t₂.grow p (madeNode name VFS_DIR x p s) ∧ NewDir fp l s x (upCluster t₂ p) d d') := by
  obtain ⟨ret, h⟩ := h
  by_cases hreach : ∃ p name t₂ d₂, Reaches fp a.1 a.2 t d p name t₂ d₂
  · obtain ⟨p, name, t₂, d₂, hreach⟩ := hreach
    obtain ⟨hmade, hcases⟩ := hreach.mkdir_cases hg hr hok.1 hok.2 h
    obtain ⟨-, hd, ht⟩ | ⟨l, s, x, -, hl, ht, hnew⟩ := hcases
    · exact ⟨t₂, hmade.loads, .inl ⟨ht, hd⟩⟩
    · exact ⟨t₂, hmade.loads, .inr ⟨p, name, l, s, x, hmade, hl, ht, hnew⟩⟩
  · obtain ⟨-, hloads⟩ := vfsMkdir_unreached hreach h
    obtain ⟨-, rfl⟩ := hloads.ready hr
    exact ⟨t', hloads, .inl ⟨rfl, rfl⟩⟩

theorem mkdirStep_ready (hg : Geometry fp) (hr : Ready r t d) (hok : MkdirOk fp (t, d) a)
    (h : mkdirStep fp (t, d) a (t', d')) : Ready r t' d' := by
  obtain ⟨t₂, hloads, hcases⟩ := mkdirStep_cases hg hr hok h
  have hr₂ := hr.extends (hloads.ready hr).1
  obtain ⟨rfl, rfl⟩ | ⟨p, name, l, s, x, hmade, -, rfl, hnew⟩ := hcases
  · exact hr₂
  · exact (hr₂.grow hmade hnew).2

theorem mkdirStep_track (hg : Geometry fp) (htrack : Track fp r rest n x up p cp t d)
    (hok : MkdirOk fp (t, d) a) (h : mkdirStep fp (t, d) a (t', d')) :
    Track fp r rest n x up p cp t' d' := by
  obtain ⟨t₂, hloads, hcases⟩ := mkdirStep_cases hg htrack.ready hok h
  have htrack₂ := hloads _ (track_rule hg a.1) htrack
  obtain ⟨rfl, rfl⟩ | ⟨q, name, l, s, y, hmade, hl, rfl, hnew⟩ := hcases
  · exact htrack₂
  · exact htrack₂.grow hg hmade hl hnew

theorem Reaches.track (hreach : Reaches fp fuel path t d p name t₂ d₂) (hg : Geometry fp)
    (hr : Ready r t d) (hok : MkdirOk fp (t, d) (fuel, path)) (hrest : vfsRest path = some rest)
    (h : vfsMkdir fp fuel path t d = some (0, t', d')) :
    ∃ n x up cp, Track fp r rest n x up p cp t' d' := by
  obtain ⟨hmade, hcases⟩ := hreach.mkdir_cases hg hr hok.1 hok.2 h
  obtain ⟨hfail, -⟩ | ⟨l, s, x, -, hl, rfl, hnew⟩ := hcases
  · cases hfail
  · have hr₂ := hr.extends (hmade.loads.ready hr).1
    exact ⟨_, _, _, _, hmade.track hg hr₂ hrest hl hnew⟩

/-- After any calls, and whatever calls follow: the path of a directory that a call has made leads
with `/..` to the parent exactly if the parent is not the root. -/
theorem parent_link_iff (hg : Geometry fp) (hr : Ready r t d)
    (hbefore : Run (mkdirStep fp) (MkdirOk fp) (t, d) as (t₁, d₁))
    (hok : MkdirOk fp (t₁, d₁) (fuel, path)) (hrest : vfsRest path = some rest)
    (hreach : Reaches fp fuel path t₁ d₁ p name t₂ d₂)
    (hmkdir : vfsMkdir fp fuel path t₁ d₁ = some (0, t₃, d₃))
    (hafter : Run (mkdirStep fp) (MkdirOk fp) (t₃, d₃) bs (t₄, d₄)) :
    LeadsUp fp rest p t₄ d₄ ↔ p ≠ r := by
  have hr₁ : Ready r t₁ d₁ := hbefore.invariant (fun s => Ready r s.1 s.2) hr
    fun _ _ _ hr hok h => mkdirStep_ready hg hr hok h
  obtain ⟨n, x, up, cp, htrack⟩ := hreach.track hg hr₁ hok hrest hmkdir
  have htrack₄ : Track fp r rest n x up p cp t₄ d₄ :=
    hafter.invariant (fun s => Track fp r rest n x up p cp s.1 s.2) htrack
      fun _ _ _ htrack hok h => mkdirStep_track hg htrack hok h
  exact htrack₄.leadsUp_iff hg

-- ---------------------------------------------------------------------------
-- Two directories
-- ---------------------------------------------------------------------------

theorem Reaches.unique (h : Reaches fp fuel path t d p name t₁ d₁)
    (h' : Reaches fp fuel path t d q part t₂ d₂) : q = p ∧ part = name ∧ t₂ = t₁ ∧ d₂ = d₁ := by
  obtain ⟨rest, t₃, d₃, hrest, hnew, hparent⟩ := h
  obtain ⟨rest', t₄, d₄, hrest', hnew', hparent'⟩ := h'
  cases hrest.symm.trans hrest'
  cases hnew.symm.trans hnew'
  cases hparent.symm.trans hparent'
  exact ⟨rfl, rfl, rfl, rfl⟩

theorem oneFile_ready : Ready 0 (oneFileTree []) oneFileDisk where
  noFaults := rfl
  fresh := oneFile_fresh []
  closed n node hn c hc := by
    rw [oneFileTree] at hn
    dsimp only at hn
    split at hn
    · cases hn
      rw [List.mem_singleton.mp hc]
      exact Option.some_ne_none _
    · split at hn
      · cases hn
        cases hc
      · cases hn
  plenty b hb := by cases hb
  root := rfl

theorem oneFile_ok : MkdirOk mirroredFp (oneFileTree [], oneFileDisk) (2, slashX) := by
  refine ⟨fun rest hrest => ?_, fun p name t₂ d₂ hreach => ⟨[2], ?_⟩⟩
  · cases hrest.symm.trans slashX_rest
    decide
  · obtain ⟨rfl, -, rfl, -⟩ := (oneFile_reaches []).unique hreach
    exact oneFile_chain []

def slashXY : CStr := cstr ['/', 'x', '/', 'y']

/-- `/x` and then `/x/y`: from `/x/y/..` the way leads to `/x`. -/
theorem nested_leadsUp : ∃ t d, LeadsUp mirroredFp (cstr ['x', '/', 'y']) 2 t d := by
  have hrest : vfsRest slashXY = some (cstr ['x', '/', 'y']) := by decide
  have hrun : ((vfsMkdir mirroredFp 2 slashX (oneFileTree []) oneFileDisk).bind fun r =>
      (vfsResolve mirroredFp 2 (cstr ['x', '/', 'y']) r.2.1 r.2.2).bind fun s =>
      (vfsParent mirroredFp 2 (cstr ['x', '/', 'y']) s.2.1 s.2.2).bind fun u =>
      (vfsMkdir mirroredFp 2 slashXY r.2.1 r.2.2).map fun v =>
      (r.1, u.1, v.1, decide (s.1 = none ∧ u.2.1.cluster 2 = 3 ∧
        fatEntry mirroredFp r.2.2.image 3 = FAT_EOC))) =
      some (0, some (2, cstr ['y']), 0, true) := by decide +kernel
  obtain ⟨⟨ret, t₁, d₁⟩, hcall, hrun⟩ := Option.bind_eq_some_iff.mp hrun
  obtain ⟨⟨o, t₂, d₂⟩, hnew, hrun⟩ := Option.bind_eq_some_iff.mp hrun
  obtain ⟨⟨parent, t₃, d₃⟩, hparent, hrun⟩ := Option.bind_eq_some_iff.mp hrun
  obtain ⟨⟨ret', t₄, d₄⟩, hcall', heq⟩ := Option.map_eq_some_iff.mp hrun
  simp only [Prod.mk.injEq] at heq
  obtain ⟨rfl, rfl, rfl, hdec⟩ := heq
  obtain ⟨rfl, hcluster, hlast⟩ := of_decide_eq_true hdec
  have hreach : Reaches mirroredFp 2 slashXY t₁ d₁ 2 (cstr ['y']) t₃ d₃ :=
    ⟨_, _, _, hrest, hnew, hparent⟩
  have hok : MkdirOk mirroredFp (t₁, d₁) (2, slashXY) := by
    refine ⟨fun rest hrest' => ?_, fun p name t d hreach' => ⟨[3], ?_⟩⟩
    · cases hrest.symm.trans hrest'
      decide
    · obtain ⟨rfl, -, rfl, -⟩ := hreach.unique hreach'
      dsimp only
      rw [hcluster]
      refine ⟨.link (by decide) (.nil (Nat.le_of_eq hlast.symm)), fun x hx => ?_⟩
      rw [List.mem_singleton.mp hx]
      exact ⟨by decide, by decide⟩
  exact ⟨t₄, d₄, (parent_link_iff mirrored_layout oneFile_ready (.cons oneFile_ok ⟨0, hcall⟩ .nil) hok
    hrest hreach hcall' .nil).mpr (by decide)⟩

theorem root_leadsNowhere : ¬ ∀ (fp : FatPrivate) (fuel r p : Nat) (path rest name : CStr)
    (t t₂ t' : Tree) (d d₂ d' : Disk), Geometry fp → Ready r t d → MkdirOk fp (t, d) (fuel, path) →
    vfsRest path = some rest → Reaches fp fuel path t d p name t₂ d₂ →
    vfsMkdir fp fuel path t d = some (0, t', d') → LeadsUp fp rest p t' d' := by
  intro hall
  have hret : (vfsMkdir mirroredFp 2 slashX (oneFileTree []) oneFileDisk).map Prod.fst = some 0 := by
    decide +kernel
  obtain ⟨⟨ret, t', d'⟩, hcall, rfl⟩ := Option.map_eq_some_iff.mp hret
  have hreach := oneFile_reaches []
  have hup := hall _ _ _ _ _ _ _ _ _ _ _ _ _ mirrored_layout oneFile_ready oneFile_ok slashX_rest
    hreach hcall
  obtain ⟨n, x, up, cp, htrack⟩ := hreach.track mirrored_layout oneFile_ready oneFile_ok slashX_rest
    hcall
  exact (htrack.leadsUp_iff mirrored_layout).mp hup rfl

end EponaOS.Fs
