import EponaOS.Fs.NodeLeak
import EponaOS.Fs.TreeCache

/-!
# Calls of `vfs.c` on a volume

What each call makes of the volume and of the tree in memory, where the tree has of the volume what
it should have: a file that is written to, an entry more, an entry less, or nothing. A path that
goes through `.` or `..` comes to a second node of a directory, and is left out.
-/

namespace EponaOS.Fs

open Bytes

variable {fp : FatPrivate} {hg : Geometry fp} {d d' : Disk} {m m' : Bytes} {t t' : Tree}
  {node : VfsNode} {n p fuel flags offset size : Nat} {st : Volume.Start} {s₀ : Volume.Slot}
  {l : List Nat} {name path rest : CStr} {o : Option Nat} {f : Option VfsFile} {ret : Int}
  {e : FatName} {buf junk out : Bytes}

-- ---------------------------------------------------------------------------
-- The calls
-- ---------------------------------------------------------------------------

def Tree.vfsOpen (fp : FatPrivate) (fuel : Nat) (path : CStr) (t : Tree) (d : Disk) :
    Option (Option VfsFile × Tree × Disk) :=
  match vfsRest path with
  | none => some (none, t, d)
  | some rest =>
    match vfsResolve fp fuel rest t d with
    | none => none
    | some (node, t, d) =>
      match node.filter fun n => t.hasFlag n VFS_FILE with
      | none => some (none, t, d)
      | some n =>
        let f := openFile n t
        some (f.1, f.2, d)

/-- The calls of `VfsAct`, and those that it leaves out. -/
inductive VfsCall
  | act (a : VfsAct)
  | open' (fuel : Nat) (path : CStr)
  | mkdir (fuel : Nat) (path : CStr)
  | read (fuel h size : Nat) (buf : Bytes)

def callStep (fp : FatPrivate) (s : VfsState) (a : VfsCall) (s' : VfsState) : Prop :=
  match a with
  | .act a => vfsStep fp s a s'
  | .open' fuel path => ∃ f t d, Tree.vfsOpen fp fuel path s.tree s.disk = some (f, t, d) ∧
      s' = ⟨t, d, setHandle s.files s.nextFile f, s.nextFile + 1⟩
  | .mkdir fuel path => ∃ ret t d, vfsMkdir fp fuel path s.tree s.disk = some (ret, t, d) ∧
      s' = { s with tree := t, disk := d }
  | .read fuel h size buf => ∃ f node ret offset buf' d,
      s.files h = some f ∧ s.tree.nodes f.node = some node ∧
      vfsRead fp fuel node f.offset size buf s.disk = some (ret, offset, buf', d) ∧
      s' = { s with disk := d, files := setHandle s.files h (some { f with offset }) }

/-- No name in front of the last one is `.` or `..`, as the path is resolved or as its directory
is cut off. -/
def PlainPath (path : CStr) : Prop :=
  ∀ rest, vfsRest path = some rest → (∀ part ∈ (strtok [] rest).dropLast, ¬ DotName part) ∧
    ∀ dir name, vfsSplitParent rest = some (dir, name) → ∀ part ∈ strtok [] dir, ¬ DotName part

/-- `fs->create` is called in the directory of `st`, for a name that is `e` in an entry. -/
def MakesIn (hg : Geometry fp) (fuel : Nat) (rest : CStr) (t : Tree) (d : Disk) (st : Volume.Start)
    (e : FatName) : Prop :=
  ∃ p name t₁, vfsParent fp fuel rest t d = some (some (p, name), t₁, d) ∧
    fatNameTo83 name = some e ∧ Attached hg t₁ p st

/-- `fs->unlink` is called for `name` in `p`, with the tree `t₁`, and comes to the entry in `s₀`. -/
def UnlinksFrom (fp : FatPrivate) (fuel : Nat) (path : CStr) (t : Tree) (d : Disk) (p : Nat)
    (name : CStr) (t₁ : Tree) (s₀ : Volume.Slot) : Prop :=
  ∃ rest e l f, vfsRest path = some rest ∧
    vfsParent fp fuel rest t d = some (some (p, name), t₁, d) ∧ fatNameTo83 name = some e ∧
    FatChain fp d.image (t₁.cluster p) l ∧
    FirstSlot (fun buf off => decide (LastOrNamed e buf off)) d.sectors (dirSlots fp l) f ∧
    d.sectors f.1 f.2.1 ≠ 0 ∧ (slotAt s₀).lba fp = f.1 ∧ (slotAt s₀).off = f.2.1 ∧ (slotAt s₀).Ok fp

/-- The node of the entry that is removed, if there is one, is the one that its name finds. -/
def FindsRemoved (fp : FatPrivate) (fuel : Nat) (path : CStr) (t : Tree) (d : Disk) : Prop :=
  ∀ p name t₁ s₀, UnlinksFrom fp fuel path t d p name t₁ s₀ → ∀ c ∈ t₁.children p, ∀ node,
    t₁.nodes c = some node → node.At fp (slotAt s₀) → t₁.find name (t₁.children p) = some c

-- ---------------------------------------------------------------------------
-- Reading
-- ---------------------------------------------------------------------------

theorem fatNextCluster_reads (fp : FatPrivate) (d : Disk) (c : Nat) :
    Reads d (fatNextCluster fp d c).2 := by
  obtain ⟨h, -⟩ | ⟨h, -⟩ := fatNextCluster_cases fp d c <;> rw [h] <;> exact .tick d

theorem fatReadSkip_reads (h : fatReadSkip fp fuel c skip d = some (r, d')) : Reads d d' := by
  induction fuel generalizing c skip d with
  | zero => cases h
  | succ fuel ih =>
    rw [fatReadSkip] at h
    split at h
    · dsimp only at h
      split at h
      · cases h
        exact fatNextCluster_reads ..
      · exact (fatNextCluster_reads ..).trans (ih h)
    · cases h
      exact .refl _

theorem fatReadSectors_reads (size lba sectorOff toRead clusterStart k s byteOff done : Nat)
    (out : Bytes) (d : Disk) :
    Reads d (fatReadSectors size lba sectorOff toRead clusterStart k s byteOff done out d).2 := by
  induction k generalizing s byteOff done out d with
  | zero => exact .refl _
  | succ k ih =>
    rw [fatReadSectors]
    have hread := ataReadSectors_reads d ((lba + sectorOff + s) % 2 ^ 32)
    dsimp only
    split
    · exact hread
    · split
      · exact hread
      · exact hread.trans (ih _ _ _ _ _)

theorem fatReadClusters_reads (h : fatReadClusters fp size fuel c skip done out d = some (r, d')) :
    Reads d d' := by
  induction fuel generalizing c skip done out d with
  | zero => cases h
  | succ fuel ih =>
    rw [fatReadClusters] at h
    split at h
    · have hread := fatReadSectors_reads size (fatClusterToLba fp c) (skip / 512)
        (min (fp.bytesPerCluster - skip) (size - done)) done
        ((min (fp.bytesPerCluster - skip) (size - done) + 511) / 512) 0 (skip % 512) done out d
      dsimp only at h
      split at h
      · cases h
        exact hread
      · split at h
        · cases h
          exact hread
        · split at h
          · cases h
            exact hread.trans (fatNextCluster_reads ..)
          · exact (hread.trans (fatNextCluster_reads ..)).trans (ih h)
    · cases h
      exact .refl _

theorem fatRead_reads (h : fatRead fp fuel node offset size out d = some (ret, buf, d')) :
    Reads d d' := by
  rw [fatRead] at h
  split at h
  · cases h
  · rename_i hskip
    cases h
    exact fatReadSkip_reads hskip
  · rename_i hskip
    have hreads := fatReadSkip_reads hskip
    split at h
    · cases h
    · rename_i hcl
      cases h
      exact hreads.trans (fatReadClusters_reads hcl)
    · rename_i hcl
      cases h
      exact hreads.trans (fatReadClusters_reads hcl)

theorem vfsRead_reads (h : vfsRead fp fuel node offset size buf d = some (ret, k, out, d')) :
    Reads d d' := by
  obtain ⟨⟨r, b, d₁⟩, hread, heq⟩ := Option.map_eq_some_iff.mp h
  have hd : d₁ = d' := by
    rw [readResult] at heq
    split at heq <;> cases heq <;> rfl
  rw [← hd]
  exact fatRead_reads hread

-- ---------------------------------------------------------------------------
-- What a call keeps
-- ---------------------------------------------------------------------------

/-- The drive has no errors, its volume has chains of its own, and the tree in memory has of it
what it should. -/
structure InStep (hg : Geometry fp) (t : Tree) (d : Disk) : Prop where
  noFaults : NoFaults d
  owned : Volume.Owned (layout hg) (volOf fp d.image)
  cached : Cached hg d.image t

structure Moves (hg : Geometry fp) (makes : Volume.Start → FatName → Prop)
    (removes : Volume.Slot → Prop) (t : Tree) (d : Disk) (t' : Tree) (d' : Disk) : Prop where
  noFaults : NoFaults d'
  cached : Cached hg d'.image t'
  flags : ∀ n flag, t.hasFlag n flag = true → t'.hasFlag n flag = true
  volume : Volume.Step (layout hg) makes removes (volOf fp d.image) (volOf fp d'.image)

section

variable {makes makes' : Volume.Start → FatName → Prop} {removes removes' : Volume.Slot → Prop}
  {t₁ : Tree}

theorem InStep.load (h : InStep hg t d) (hc : Cached hg d.image t') (hsub : SubTree t t') :
    Moves hg makes removes t d t' d :=
  ⟨h.noFaults, hc, fun _ _ => hsub.hasFlag, .same⟩

theorem Moves.inStep (hm : Moves hg makes removes t d t' d') (h : InStep hg t d) :
    InStep hg t' d' :=
  ⟨hm.noFaults, h.owned.step hm.volume, hm.cached⟩

theorem Moves.mono (h : Moves hg makes removes t d t' d')
    (hm : ∀ st e, makes st e → makes' st e) (hr : ∀ s, removes s → removes' s) :
    Moves hg makes' removes' t d t' d' :=
  ⟨h.noFaults, h.cached, h.flags, h.volume.mono hm hr⟩

theorem Moves.loaded (h : Moves hg makes removes t₁ d t' d') (hsub : SubTree t t₁) :
    Moves hg makes removes t d t' d' :=
  ⟨h.noFaults, h.cached, fun n flag hn => h.flags n flag (hsub.hasFlag hn), h.volume⟩

theorem Pruned.hasFlag (h : Pruned t t') {flag : Nat} (hn : t.hasFlag n flag = true) :
    t'.hasFlag n flag = true := by
  obtain ⟨node, hnode⟩ := Tree.exists_of_hasFlag hn
  obtain ⟨size, cs, hn', -⟩ := h.nodes n node hnode
  rw [Tree.hasFlag_eq hn', ← hn, Tree.hasFlag_eq hnode]

theorem Moves.pruned (h : Moves hg makes removes t d t₁ d') (hp : Pruned t₁ t') :
    Moves hg makes removes t d t' d' :=
  ⟨h.noFaults, h.cached.pruned hp, fun n flag hn => hp.hasFlag (h.flags n flag hn), h.volume⟩

end

theorem Cached.dir_chain (hc : Cached hg d.image t)
    (hs : Volume.Owned (layout hg) (volOf fp d.image)) (hp : Attached hg t p st)
    (hflag : t.hasFlag p VFS_DIR = true) : Volume.Reached (layout hg) (volOf fp d.image) st ∧
      (volOf fp d.image).isDir st = true ∧ t.cluster p = (volOf fp d.image).first (layout hg) st ∧
      ∃ l, FatChain fp d.image ((volOf fp d.image).first (layout hg) st) l := by
  obtain ⟨hst, node, hn, hstands⟩ := hc.stands p st hp
  have hdir := (hstands.isDir hn).symm.trans hflag
  obtain ⟨l, -, hl⟩ := hs.dir_chain hst hdir
  refine ⟨hst, hdir, ?_, l, hl⟩
  rw [Tree.cluster, hn]
  exact hstands.cluster

-- ---------------------------------------------------------------------------
-- An entry more
-- ---------------------------------------------------------------------------

theorem vfsMake_moves (h : InStep hg t d) (hplain : ∀ dir name,
      vfsSplitParent rest = some (dir, name) → ∀ part ∈ strtok [] dir, ¬ DotName part)
    (hflags : flags = VFS_FILE ∨ flags = VFS_DIR)
    (hcall : vfsMake fp fuel rest flags t d = some (o, t', d')) :
    Moves hg (MakesIn hg fuel rest t d) (fun _ => False) t d t' d' ∧
      ∀ n, o = some n → t'.hasFlag n flags = true := by
  rw [vfsMake] at hcall
  rcases hp : vfsParent fp fuel rest t d with _ | ⟨_ | ⟨p, name⟩, t₁, d₁⟩
  · rw [hp] at hcall
    cases hcall
  · obtain ⟨rfl, hc, hsub, -⟩ := vfsParent_cached h.noFaults h.owned h.cached hplain hp
    rw [hp] at hcall
    cases hcall
    exact ⟨h.load hc hsub, fun _ hn => by cases hn⟩
  obtain ⟨rfl, hc, hsub, hatt⟩ := vfsParent_cached h.noFaults h.owned h.cached hplain hp
  obtain ⟨st, hatt, hflag⟩ := hatt p name rfl
  obtain ⟨hst, hdir, hcluster, l, hl⟩ := hc.dir_chain h.owned hatt hflag
  rw [hp] at hcall
  dsimp only at hcall
  have hkind : flags &&& (VFS_FILE ||| VFS_DIR) ≠ 0 := by
    obtain rfl | rfl := hflags <;> decide
  obtain ⟨rfl, rfl, rfl⟩ | ⟨s, x, e, hname, hnew, hres⟩ :=
    fatCreate_entry hg h.noFaults (hcluster ▸ hl) hkind hcall
  · exact ⟨h.load hc hsub, fun _ hn => by cases hn⟩
  obtain ⟨s₀, hlba, hoff, hmem, hfree⟩ := hnew.freeSlot hst hdir hl
  have hcreated := hnew.created hname hflags hl hmem hlba hoff
  have hchange := hcreated.change h.owned hfree
  have hstep : Volume.Step (layout hg) (MakesIn hg fuel rest t d₁) (fun _ => False)
      (volOf fp d₁.image) (volOf fp d'.image) :=
    .make ⟨p, name, t₁, hp, hname, hatt⟩ rfl hfree hcreated
  have hc' : Cached hg d'.image t₁ := hc.change hchange
  obtain ⟨rfl, rfl⟩ | ⟨rfl, -, heap, rfl⟩ := hres
  · obtain ⟨dir, hdir'⟩ := Tree.exists_of_hasFlag hflag
    have hno : ∀ n, ¬ Attached hg t₁ n (.entry s₀) := by
      intro n hn
      have hlive := (hc.stands n _ hn).1.live
      rw [hfree.free] at hlive
      cases hlive
    have hstands : Stands hg d'.image (madeNode name flags x p s) (.entry s₀) := by
      refine ⟨?_, ?_⟩
      · rw [Volume.State.isDir, hcreated.new]
        obtain rfl | rfl := hflags <;> rfl
      · rw [Volume.State.first, hcreated.new]
        rfl
    have hlive : ((volOf fp d'.image).entry s₀).isLive = true := by
      rw [hcreated.new]
      rfl
    have hgrow : Cached hg d'.image (t₁.grow p (madeNode name flags x p s)) :=
      hc'.grow hatt hflag rfl (.inr ⟨s₀, ⟨hlba.symm, hoff.symm⟩,
        hchange.inDir_kept hfree.inDir trivial, hlive, hstands, hno⟩)
    refine ⟨⟨hnew.noFaults, hgrow, fun n flag hn => ?_, hstep⟩, fun n hn => ?_⟩
    · exact (SubTree.grow hc.fresh hdir' _).hasFlag (hsub.hasFlag hn)
    · cases hn
      have hself : flags &&& flags ≠ 0 := by
        obtain rfl | rfl := hflags <;> decide
      rw [Tree.hasFlag_eq (Tree.grow_new hc.fresh hdir' _)]
      exact decide_eq_true hself
  · exact ⟨⟨hnew.noFaults, hc'.pruned (.of_heap t₁ heap),
      fun n flag hn => (Pruned.of_heap t₁ heap).hasFlag (hsub.hasFlag hn), hstep⟩,
      fun _ hn => by cases hn⟩

theorem openFile_node {file : VfsFile} (h : (openFile n t).1 = some file) : file.node = n := by
  rw [openFile] at h
  split at h
  · cases h
  · cases h
    rfl

theorem vfsCreate_moves (h : InStep hg t d) (hplain : PlainPath path)
    (hcall : vfsCreate fp fuel path t d = some (f, t', d')) :
    Moves hg (fun st e => ∃ rest o t₁, vfsRest path = some rest ∧
        vfsResolve fp fuel rest t d = some (o, t₁, d) ∧
        (o.filter fun n => t₁.hasFlag n VFS_FILE) = none ∧ MakesIn hg fuel rest t₁ d st e)
      (fun _ => False) t d t' d' ∧
      ∀ file, f = some file → t'.hasFlag file.node VFS_FILE = true := by
  rw [vfsCreate] at hcall
  rcases hrest : vfsRest path with _ | rest
  · rw [hrest] at hcall
    cases hcall
    exact ⟨h.load h.cached (.refl _), fun _ hf => by cases hf⟩
  obtain ⟨hparts, hdirs⟩ := hplain rest hrest
  rw [hrest] at hcall
  dsimp only at hcall
  rcases hres : vfsResolve fp fuel rest t d with _ | ⟨o, t₁, d₁⟩
  · rw [hres] at hcall
    cases hcall
  obtain ⟨rfl, hc, hsub, -⟩ := vfsResolve_cached h.noFaults h.owned h.cached hparts hres
  have h₁ : InStep hg t₁ d₁ := ⟨h.noFaults, h.owned, hc⟩
  rw [hres] at hcall
  dsimp only at hcall
  split at hcall
  · -- the file is there
    rename_i n hfilter
    cases hcall
    have hflag := (Option.filter_eq_some_iff.mp hfilter).2
    have hpruned := (Pruned.truncate t₁ n).trans (.openFile n (t₁.truncate n))
    refine ⟨(h.load hc hsub).pruned hpruned, fun file hf => ?_⟩
    rw [openFile_node hf]
    exact hpruned.hasFlag hflag
  · rename_i hfilter
    rcases hmake : vfsMake fp fuel rest VFS_FILE t₁ d₁ with _ | ⟨_ | n, t₂, d₂⟩
    · rw [hmake] at hcall
      cases hcall
    · obtain ⟨hm, -⟩ := vfsMake_moves h₁ hdirs (.inl rfl) hmake
      rw [hmake] at hcall
      cases hcall
      exact ⟨(hm.loaded hsub).mono (fun st e he => ⟨rest, o, t₁, rfl, hres, hfilter, he⟩)
        fun _ => id, fun _ hf => by cases hf⟩
    · obtain ⟨hm, hflag⟩ := vfsMake_moves h₁ hdirs (.inl rfl) hmake
      rw [hmake] at hcall
      cases hcall
      have hpruned := Pruned.openFile n t₂
      refine ⟨((hm.loaded hsub).pruned hpruned).mono
        (fun st e he => ⟨rest, o, t₁, rfl, hres, hfilter, he⟩) fun _ => id, fun file hf => ?_⟩
      rw [openFile_node hf]
      exact hpruned.hasFlag (hflag n rfl)

theorem vfsMkdir_moves (h : InStep hg t d) (hplain : PlainPath path)
    (hcall : vfsMkdir fp fuel path t d = some (ret, t', d')) :
    Moves hg (fun st e => ∃ rest t₁, vfsRest path = some rest ∧
        vfsResolve fp fuel rest t d = some (none, t₁, d) ∧ MakesIn hg fuel rest t₁ d st e)
      (fun _ => False) t d t' d' := by
  rw [vfsMkdir] at hcall
  rcases hrest : vfsRest path with _ | rest
  · rw [hrest] at hcall
    cases hcall
    exact h.load h.cached (.refl _)
  obtain ⟨hparts, hdirs⟩ := hplain rest hrest
  rw [hrest] at hcall
  dsimp only at hcall
  rcases hres : vfsResolve fp fuel rest t d with _ | ⟨_ | n, t₁, d₁⟩
  · rw [hres] at hcall
    cases hcall
  · obtain ⟨rfl, hc, hsub, -⟩ := vfsResolve_cached h.noFaults h.owned h.cached hparts hres
    have h₁ : InStep hg t₁ d₁ := ⟨h.noFaults, h.owned, hc⟩
    rw [hres] at hcall
    dsimp only at hcall
    rcases hmake : vfsMake fp fuel rest VFS_DIR t₁ d₁ with _ | ⟨o, t₂, d₂⟩
    · rw [hmake] at hcall
      cases hcall
    have hmoves := (vfsMake_moves h₁ hdirs (.inr rfl) hmake).1.loaded hsub
    -- the tree and the disk are those of `vfsMake`, whether or not it made a node
    obtain ⟨rfl, rfl⟩ : t₂ = t' ∧ d₂ = d' := by
      rw [hmake] at hcall
      rcases o with _ | made
      · cases hcall
        exact ⟨rfl, rfl⟩
      · cases hcall
        exact ⟨rfl, rfl⟩
    exact hmoves.mono (fun st e he => ⟨rest, t₁, rfl, hres, he⟩) fun _ => id
  · obtain ⟨rfl, hc, hsub, -⟩ := vfsResolve_cached h.noFaults h.owned h.cached hparts hres
    rw [hres] at hcall
    cases hcall
    exact h.load hc hsub

theorem vfsOpen_moves {makes : Volume.Start → FatName → Prop} {removes : Volume.Slot → Prop}
    (h : InStep hg t d) (hplain : PlainPath path)
    (hcall : Tree.vfsOpen fp fuel path t d = some (f, t', d')) :
    Moves hg makes removes t d t' d' ∧
      ∀ file, f = some file → t'.hasFlag file.node VFS_FILE = true := by
  rw [Tree.vfsOpen] at hcall
  rcases hrest : vfsRest path with _ | rest
  · rw [hrest] at hcall
    cases hcall
    exact ⟨h.load h.cached (.refl _), fun _ hf => by cases hf⟩
  obtain ⟨hparts, -⟩ := hplain rest hrest
  rw [hrest] at hcall
  dsimp only at hcall
  rcases hres : vfsResolve fp fuel rest t d with _ | ⟨o, t₁, d₁⟩
  · rw [hres] at hcall
    cases hcall
  obtain ⟨rfl, hc, hsub, -⟩ := vfsResolve_cached h.noFaults h.owned h.cached hparts hres
  rw [hres] at hcall
  dsimp only at hcall
  split at hcall
  · cases hcall
    exact ⟨h.load hc hsub, fun _ hf => by cases hf⟩
  · rename_i n hfilter
    cases hcall
    have hpruned := Pruned.openFile n t₁
    refine ⟨(h.load hc hsub).pruned hpruned, fun file hf => ?_⟩
    rw [openFile_node hf]
    exact hpruned.hasFlag (Option.filter_eq_some_iff.mp hfilter).2

-- ---------------------------------------------------------------------------
-- An entry less
-- ---------------------------------------------------------------------------

theorem Tree.dropChild_children (t : Tree) (p c : Nat) :
    (t.dropChild p c).children p = (t.children p).erase c := by
  rw [Tree.dropChild]
  cases hp : t.nodes p with
  | none =>
    dsimp only
    rw [Tree.children, hp]
    rfl
  | some node =>
    dsimp only
    have hn : (t.setNode p { node with children := node.children.erase c }).nodes p =
        some { node with children := node.children.erase c } := if_pos rfl
    rw [Tree.children_eq hp, Tree.children_eq hn]

theorem Cached.dropped (hc : Cached hg m t) (hs : Volume.Owned (layout hg) (volOf fp m))
    (hp : Attached hg t p st) (hin : Volume.InDir (layout hg) (volOf fp m) st s₀)
    (hfind : ∀ c ∈ t.children p, ∀ node, t.nodes c = some node → node.At fp (slotAt s₀) →
      t.find name (t.children p) = some c) (hpruned : Pruned t t')
    (hdrop : ∀ c, t.find name (t.children p) = some c → t' = t.dropChild p c) (n : Nat) :
    ¬ Attached hg t' n (.entry s₀) := by
  intro hn
  have hn₀ := hn.mono hpruned.subTree
  obtain ⟨node, hmem, hnode, -, hat⟩ := hc.sibling hs hp hin hn₀
  have hfound := hfind n hmem node hnode hat
  obtain rfl := hdrop n hfound
  -- it is still a child of the same directory
  obtain ⟨q, stq, -, hq, hflag, hmem', -, -, -, hin'⟩ := (hc.pruned hpruned).parent hn
  obtain rfl := hs.one_dir hin hin'
  have hq₀ := hq.mono hpruned.subTree
  obtain rfl := hc.inj p q st hp hq₀
  rw [Tree.dropChild_children] at hmem'
  exact (hc.nodup p st hp (hpruned.subTree.hasFlag hflag)).not_mem_erase hmem'

theorem vfsUnlink_moves (h : InStep hg t d) (hplain : PlainPath path)
    (hfind : FindsRemoved fp fuel path t d)
    (hcall : vfsUnlink fp fuel path t d = some (ret, t', d')) :
    Moves hg (fun _ _ => False) (fun s => ∃ p name t₁, UnlinksFrom fp fuel path t d p name t₁ s)
      t d t' d' := by
  rw [vfsUnlink] at hcall
  rcases hrest : vfsRest path with _ | rest
  · rw [hrest] at hcall
    cases hcall
    exact h.load h.cached (.refl _)
  obtain ⟨-, hdirs⟩ := hplain rest hrest
  rw [hrest] at hcall
  dsimp only at hcall
  rcases hparent : vfsParent fp fuel rest t d with _ | ⟨_ | ⟨p, name⟩, t₁, d₁⟩
  · rw [hparent] at hcall
    cases hcall
  · obtain ⟨rfl, hc, hsub, -⟩ := vfsParent_cached h.noFaults h.owned h.cached hdirs hparent
    rw [hparent] at hcall
    cases hcall
    exact h.load hc hsub
  obtain ⟨rfl, hc, hsub, hatt⟩ := vfsParent_cached h.noFaults h.owned h.cached hdirs hparent
  obtain ⟨st, hp, hflag⟩ := hatt p name rfl
  obtain ⟨hst, hdir, hcluster, l, hl⟩ := hc.dir_chain h.owned hp hflag
  rw [hparent] at hcall
  dsimp only at hcall
  rcases hunlink : fatUnlink fp fuel p name t₁ d₁ with _ | ⟨ret₁, d₂⟩
  · rw [hunlink] at hcall
    cases hcall
  rw [hunlink] at hcall
  dsimp only at hcall
  have hl' : FatChain fp d₁.image (t₁.cluster p) l := hcluster ▸ hl
  obtain ⟨rfl, hd₂, him⟩ | ⟨e, f, d₃, hname, hfirst, h0, rfl, hd₃, him, hfree⟩ :=
    fatUnlink_cases hg h.noFaults hl' hunlink
  · -- nothing is removed
    have hsame : t' = t₁ ∧ d' = d₂ := by
      split at hcall
      · cases hcall
        exact ⟨rfl, rfl⟩
      · rw [if_pos (by decide)] at hcall
        cases hcall
        exact ⟨rfl, rfl⟩
    obtain ⟨rfl, rfl⟩ := hsame
    refine ⟨hd₂, him ▸ hc, fun _ _ => hsub.hasFlag, ?_⟩
    rw [him]
    exact .same
  · obtain ⟨hd₂, s₀, l₀, hlba, hoff, hin, -, hholds, hremoved⟩ :=
      unlink_removed h.owned hst hdir hl hname hfirst h0 hd₃ him hfree
    have hunlinks : UnlinksFrom fp fuel path t d₁ p name t₁ s₀ :=
      ⟨rest, e, l, f, hrest, hparent, hname, hl', hfirst, h0, hlba, hoff, hin.valid⟩
    have hstep : Volume.Step (layout hg) (fun _ _ => False)
        (fun s => ∃ p name t₁, UnlinksFrom fp fuel path t d₁ p name t₁ s) (volOf fp d₁.image)
        (volOf fp d₂.image) := .remove ⟨p, name, t₁, hunlinks⟩ hholds hremoved
    have hdone : Pruned t₁ t' ∧ d' = d₂ ∧
        ∀ c, t₁.find name (t₁.children p) = some c → t' = t₁.dropChild p c := by
      split at hcall
      · rename_i hnone
        cases hcall
        exact ⟨.refl _, rfl, fun c hfound => by cases hnone.symm.trans hfound⟩
      · rename_i child hsome
        rw [if_neg (by decide)] at hcall
        cases hcall
        refine ⟨.dropChild _ _ _, rfl, fun c hfound => ?_⟩
        cases hsome.symm.trans hfound
        rfl
    obtain ⟨hpruned, rfl, hdrop⟩ := hdone
    have hno := hc.dropped h.owned hp hin (hfind p name t₁ s₀ hunlinks) hpruned hdrop
    exact ⟨hd₂, (hc.pruned hpruned).remove h.owned hholds hremoved hno,
      fun n flag hn => hpruned.hasFlag (hsub.hasFlag hn), hstep⟩

-- ---------------------------------------------------------------------------
-- A file that is written to
-- ---------------------------------------------------------------------------

theorem InStep.file (h : InStep hg t d) (hn : t.nodes n = some node)
    (hfile : t.hasFlag n VFS_FILE = true) (hatt : Attached hg t n st) : ∃ s₀ st₀, st = .entry s₀ ∧
      node.At fp (slotAt s₀) ∧ Volume.InDir (layout hg) (volOf fp d.image) st₀ s₀ ∧
      ((volOf fp d.image).entry s₀).isLive = true ∧
      (volOf fp d.image).isDir (.entry s₀) = false ∧
      node.cluster = (volOf fp d.image).first (layout hg) (.entry s₀) := by
  obtain ⟨hst, node', hn', hstands⟩ := h.cached.stands n st hatt
  cases hn.symm.trans hn'
  have hdir := hstands.isFile hn hfile
  cases st with
  | root => cases hdir
  | entry s₀ =>
    obtain ⟨p, st₀, node', -, -, -, hn', -, hat, hin⟩ := h.cached.parent hatt
    cases hn.symm.trans hn'
    exact ⟨s₀, st₀, rfl, hat, hin, hst.live, hdir, hstands.cluster⟩

theorem vfsWrite_effect (h : InStep hg t d) (hn : t.nodes n = some node)
    (hfile : t.hasFlag n VFS_FILE = true)
    (hok : size = 0 ∨ (∃ st, Attached hg t n st) ∧ node.cluster ≠ 0)
    (hcall : vfsWrite fp junk fuel node offset size buf d = some (ret, offset', node', d')) :
    (∃ k, node' = { node with size := k }) ∧ (d' = d ∨ ∃ s₀ st₀ l l', Attached hg t n (.entry s₀) ∧
      Volume.InDir (layout hg) (volOf fp d.image) st₀ s₀ ∧
      ((volOf fp d.image).entry s₀).isLive = true ∧
      (volOf fp d.image).isDir (.entry s₀) = false ∧
      FatChain fp d.image ((volOf fp d.image).first (layout hg) (.entry s₀)) l ∧
      WriteEffect hg s₀ l l' d d') := by
  obtain ⟨⟨r, node₁, d₁⟩, hwrite, heq⟩ := Option.map_eq_some_iff.mp hcall
  cases heq
  by_cases h0 : size = 0
  · rw [fatWrite, if_pos h0] at hwrite
    cases hwrite
    exact ⟨⟨node.size, rfl⟩, .inl rfl⟩
  obtain ⟨⟨st, hatt⟩, hne⟩ := hok.resolve_left h0
  obtain ⟨s₀, st₀, rfl, hat, hin, hlive, hdir, hcluster⟩ := h.file hn hfile hatt
  obtain ⟨hsize, hsame | ⟨l, l', hl, heffect⟩⟩ := fatWrite_effect hg h.noFaults h.owned hin hlive
    hdir hat hcluster (.inr hne) hwrite
  · exact ⟨hsize, .inl hsame⟩
  · exact ⟨hsize, .inr ⟨s₀, st₀, l, l', hatt, hin, hlive, hdir, hl, heffect⟩⟩

theorem vfsWrite_moves {makes : Volume.Start → FatName → Prop} {removes : Volume.Slot → Prop}
    (h : InStep hg t d) (hn : t.nodes n = some node) (hfile : t.hasFlag n VFS_FILE = true)
    (hok : size = 0 ∨ (∃ st, Attached hg t n st) ∧ node.cluster ≠ 0)
    (hcall : vfsWrite fp junk fuel node offset size buf d = some (ret, offset', node', d')) :
    Moves hg makes removes t d (t.setNode n node') d' := by
  obtain ⟨⟨k, rfl⟩, rfl | ⟨s₀, st₀, l, l', -, hin, hlive, hdir, hl, heffect⟩⟩ :=
    vfsWrite_effect h hn hfile hok hcall
  · exact (h.load h.cached (.refl t)).pruned (.resize hn k)
  · have hreached := hin.entry hlive
    have hchange := heffect.written.change h.owned hreached hdir hl
    refine Moves.pruned ⟨heffect.noFaults, h.cached.change hchange, fun _ _ => id, ?_⟩
      (.resize hn k)
    exact .write hreached hdir hl heffect.written

end EponaOS.Fs
