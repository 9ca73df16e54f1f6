import EponaOS.Fs.VolumeCalls

/-!
# Runs of calls on a volume

Handles are opened, files and directories made, written to and removed, in any order. Nothing of
`vfs.c` takes a handle back when its file goes, `vfs_unlink` frees the chain of a directory with
whatever it lists, and a name is looked up as it is typed, not as it is stored. Where no call comes
to one of these, the tree in memory stays in step with the volume.
-/

namespace EponaOS.Fs

open Bytes

variable {fp : FatPrivate} {hg : Geometry fp} {s s' : VfsState} {a : VfsCall} {as : List VfsCall}

-- ---------------------------------------------------------------------------
-- Conditions on a call
-- ---------------------------------------------------------------------------

/-- Paths do not lead through `.` or `..`, only files that are still there and have a cluster are
written to, and the name of an entry that is removed finds its node. -/
def Careful (hg : Geometry fp) (s : VfsState) : VfsCall → Prop
  | .open' _ path => PlainPath path
  | .mkdir _ path => PlainPath path
  | .read .. => True
  | .act (.create _ path) => PlainPath path
  | .act (.write _ h size _ _) => size = 0 ∨ ∀ f node, s.files h = some f →
      s.tree.nodes f.node = some node → (∃ st, Attached hg s.tree f.node st) ∧ node.cluster ≠ 0
  | .act (.close _) => True
  | .act (.unlink fuel path) => PlainPath path ∧ FindsRemoved fp fuel path s.tree s.disk

/-- The call comes to `fs->create`, in the directory of `st`, for a name that is `e` in an entry. -/
def CallMakes (hg : Geometry fp) (s : VfsState) (a : VfsCall) (st : Volume.Start) (e : FatName) :
    Prop :=
  ∃ fuel path rest o t, vfsRest path = some rest ∧
    vfsResolve fp fuel rest s.tree s.disk = some (o, t, s.disk) ∧
    MakesIn hg fuel rest t s.disk st e ∧ ((a = .act (.create fuel path) ∧ (o.filter fun n => t.hasFlag n VFS_FILE) = none) ∨
      (a = .mkdir fuel path ∧ o = none))

def CallRemoves (fp : FatPrivate) (s : VfsState) (a : VfsCall) (s₀ : Volume.Slot) : Prop :=
  ∃ fuel path p name t, a = .act (.unlink fuel path) ∧
    UnlinksFrom fp fuel path s.tree s.disk p name t s₀

/-- Only files and empty directories are removed. -/
def RemovesBare (hg : Geometry fp) (s : VfsState) (a : VfsCall) : Prop :=
  ∀ s₀, CallRemoves fp s a s₀ → Volume.Bare (layout hg) (volOf fp s.disk.image) s₀

/-- The directory has no entry of the name yet. -/
def MakesNew (hg : Geometry fp) (s : VfsState) (a : VfsCall) : Prop :=
  ∀ st e s₁, CallMakes hg s a st e → Volume.InDir (layout hg) (volOf fp s.disk.image) st s₁ →
    ((volOf fp s.disk.image).entry s₁).name ≠ some e

-- ---------------------------------------------------------------------------
-- What holds between the calls
-- ---------------------------------------------------------------------------

structure Running (hg : Geometry fp) (s : VfsState) : Prop where
  inStep : InStep hg s.tree s.disk
  files : ∀ h f, s.files h = some f → s.tree.hasFlag f.node VFS_FILE = true

/-- A volume that has just been mounted, on a drive without errors. -/
structure Mounted (fp : FatPrivate) (s : VfsState) : Prop where
  tree : ∃ heap, s.tree = { rootTree fp.bpb with heap }
  root : fp.rootCluster = fp.bpb.rootCluster
  noFaults : NoFaults s.disk
  files : s.files = fun _ => none

theorem Mounted.running (h : Mounted fp s)
    (hs : Volume.Owned (layout hg) (volOf fp s.disk.image)) : Running hg s := by
  obtain ⟨heap, htree⟩ := h.tree
  have hnodes : ∀ n node, s.tree.nodes n = some node → n = 0 ∧ node = {
      name := cstr ['/'], size := 0, flags := VFS_DIR, cluster := fp.bpb.rootCluster, dirLba := 0
      dirOff := 0, parent := none, children := [] } := by
    intro n node hn
    rw [htree] at hn
    simp only [rootTree] at hn
    split at hn
    · rename_i h0
      exact ⟨h0, (Option.some.inj hn).symm⟩
    · cases hn
  have hchildren : ∀ n, s.tree.children n = [] := by
    intro n
    cases hn : s.tree.nodes n with
    | none =>
      rw [Tree.children, hn]
      rfl
    | some node => rw [Tree.children_eq hn, (hnodes n node hn).2]
  have hattached : ∀ n st, Attached hg s.tree n st → n = 0 ∧ st = .root := by
    intro n st hn
    cases hn with
    | root hr =>
      rw [htree] at hr
      exact ⟨(Option.some.inj hr).symm, rfl⟩
    | child _ _ hmem =>
      rw [hchildren] at hmem
      cases hmem
  refine ⟨⟨h.noFaults, hs, ?_⟩, fun k f hf => ?_⟩
  · refine ⟨?_, fun n st hn => ?_, fun p st c _ _ hmem => ?_, fun n n' st hn hn' => ?_,
      fun n st st' hn hn' => ?_, fun p st _ _ => ?_⟩
    · have hfresh := rootTree_fresh fp.bpb
      rw [htree]
      exact ⟨hfresh.free, hfresh.children⟩
    · obtain ⟨rfl, rfl⟩ := hattached n st hn
      refine ⟨.root, _, by rw [htree]; rfl, rfl, ?_⟩
      exact h.root.symm
    · rw [hchildren] at hmem
      cases hmem
    · rw [(hattached n st hn).1, (hattached n' st hn').1]
    · rw [(hattached n st hn).2, (hattached n st' hn').2]
    · rw [hchildren]
      exact List.nodup_nil
  · rw [h.files] at hf
    cases hf

theorem setHandle_some {files : Nat → Option VfsFile} {h k : Nat} {f : Option VfsFile} {g : VfsFile}
    (hk : setHandle files h f k = some g) : f = some g ∨ files k = some g := by
  rw [setHandle] at hk
  split at hk
  · exact .inl hk
  · exact .inr hk

theorem callStep_running (h : Running hg s) (hok : Careful hg s a) (hstep : callStep fp s a s') :
    Running hg s' ∧ Volume.Step (layout hg) (CallMakes hg s a) (CallRemoves fp s a)
      (volOf fp s.disk.image) (volOf fp s'.disk.image) := by
  have hin := h.inStep
  cases a with
  | open' fuel path =>
    obtain ⟨f, t, d, hcall, rfl⟩ := hstep
    obtain ⟨hm, hfile⟩ := vfsOpen_moves hin hok hcall
    refine ⟨⟨hm.inStep hin, fun k g hk => ?_⟩, hm.volume⟩
    obtain hg' | hg' := setHandle_some hk
    · exact hfile g hg'
    · exact hm.flags _ _ (h.files k g hg')
  | mkdir fuel path =>
    obtain ⟨ret, t, d, hcall, rfl⟩ := hstep
    have hm : Moves hg (CallMakes hg s (.mkdir fuel path)) (CallRemoves fp s (.mkdir fuel path))
        s.tree s.disk t d := (vfsMkdir_moves hin hok hcall).mono
      (fun st e ⟨rest, t₁, hrest, hres, he⟩ =>
        ⟨fuel, path, rest, none, t₁, hrest, hres, he, .inr ⟨rfl, rfl⟩⟩) fun _ => False.elim
    exact ⟨⟨hm.inStep hin, fun k g hk => hm.flags _ _ (h.files k g hk)⟩, hm.volume⟩
  | read fuel k size buf =>
    obtain ⟨f, node, ret, offset, buf', d, hf, hn, hcall, rfl⟩ := hstep
    obtain rfl := (vfsRead_reads hcall).eq hin.noFaults
    refine ⟨⟨hin, fun j g hj => ?_⟩, .same⟩
    obtain hg' | hg' := setHandle_some hj
    · cases hg'
      exact h.files k f hf
    · exact h.files j g hg'
  | act a =>
    cases a with
    | create fuel path =>
      obtain ⟨f, t, d, hcall, rfl⟩ := hstep
      obtain ⟨hm, hfile⟩ := vfsCreate_moves hin hok hcall
      have hm : Moves hg (CallMakes hg s (.act (.create fuel path)))
          (CallRemoves fp s (.act (.create fuel path))) s.tree s.disk t d := hm.mono
        (fun st e ⟨rest, o, t₁, hrest, hres, hfilter, he⟩ =>
          ⟨fuel, path, rest, o, t₁, hrest, hres, he, .inl ⟨rfl, hfilter⟩⟩) fun _ => False.elim
      refine ⟨⟨hm.inStep hin, fun k g hk => ?_⟩, hm.volume⟩
      obtain hg' | hg' := setHandle_some hk
      · exact hfile g hg'
      · exact hm.flags _ _ (h.files k g hg')
    | write fuel k size junk buf =>
      obtain ⟨f, node, ret, offset, node', d, hf, hn, hcall, rfl⟩ := hstep
      have hm : Moves hg (CallMakes hg s (.act (.write fuel k size junk buf)))
          (CallRemoves fp s (.act (.write fuel k size junk buf))) s.tree s.disk
          (s.tree.setNode f.node node') d := vfsWrite_moves hin hn (h.files k f hf)
        (Or.imp_right (fun hall => hall f node hf hn) hok) hcall
      refine ⟨⟨hm.inStep hin, fun j g hj => ?_⟩, hm.volume⟩
      obtain hg' | hg' := setHandle_some hj
      · cases hg'
        exact hm.flags _ _ (h.files k f hf)
      · exact hm.flags _ _ (h.files j g hg')
    | close k =>
      obtain ⟨-, rfl⟩ := hstep
      refine ⟨⟨hin, fun j g hj => ?_⟩, .same⟩
      obtain hg' | hg' := setHandle_some hj
      · cases hg'
      · exact h.files j g hg'
    | unlink fuel path =>
      obtain ⟨ret, t, d, hcall, rfl⟩ := hstep
      have hm : Moves hg (CallMakes hg s (.act (.unlink fuel path)))
          (CallRemoves fp s (.act (.unlink fuel path))) s.tree s.disk t d :=
        (vfsUnlink_moves hin hok.1 hok.2 hcall).mono (fun _ _ => False.elim)
        fun s₀ ⟨p, name, t₁, hunlinks⟩ => ⟨fuel, path, p, name, t₁, rfl, hunlinks⟩
      exact ⟨⟨hm.inStep hin, fun k g hk => hm.flags _ _ (h.files k g hk)⟩, hm.volume⟩

theorem run_running (h : Running hg s) (hrun : Run (callStep fp) (Careful hg) s as s') :
    Running hg s' :=
  hrun.invariant (Running hg) h fun _ _ _ hs hok hstep => (callStep_running hs hok hstep).1

-- ---------------------------------------------------------------------------
-- An empty volume
-- ---------------------------------------------------------------------------

def bareDisk : Disk where
  sectors n := if n = 1 ∨ n = 2 then putLE (fun _ => 0) 8 4 FAT_EOC else fun _ => 0
  faults := []

def bareState : VfsState := ⟨rootTree mirroredFp.bpb, bareDisk, fun _ => none, 0⟩

theorem bare_mounted : Mounted mirroredFp bareState := ⟨⟨[], rfl⟩, rfl, rfl, rfl⟩

theorem rootChain {m : Bytes} (h : fatEntry mirroredFp m 2 = FAT_EOC) :
    FatChain mirroredFp m 2 [2] :=
  Volume.isChain_single (L := layout twoFiles_geometry) (V := volOf mirroredFp m)
    ⟨by decide, by decide⟩ (Nat.le_of_eq h.symm)

theorem root_inDir {m : Bytes} (h : fatEntry mirroredFp m 2 = FAT_EOC) {i : Nat} (hi : i < 16) :
    Volume.InDir (layout twoFiles_geometry) (volOf mirroredFp m) .root (2, i) :=
  .of_chain .root rfl (rootChain h) (Volume.mem_slots.mpr ⟨List.mem_singleton_self 2, hi⟩)

theorem empty_inDir {m : Bytes} (h : fatEntry mirroredFp m 2 = FAT_EOC)
    (hnone : ∀ i < 16, ((volOf mirroredFp m).entry (2, i)).isLive = false) {st : Volume.Start}
    {s : Volume.Slot} (hin : Volume.InDir (layout twoFiles_geometry) (volOf mirroredFp m) st s) :
    st = .root ∧ s.1 = 2 ∧ s.2 < 16 := by
  have hslots : ∀ l s, FatChain mirroredFp m 2 l → s ∈ Volume.slots (layout twoFiles_geometry) l →
      s.1 = 2 ∧ s.2 < 16 := by
    intro l s hl hs
    rw [hl.unique (rootChain h)] at hs
    obtain ⟨hc, hi⟩ := Volume.mem_slots.mp hs
    exact ⟨List.mem_singleton.mp hc, hi⟩
  have hreached : ∀ st, Volume.Reached (layout twoFiles_geometry) (volOf mirroredFp m) st →
      st = .root := by
    intro st hst
    induction hst with
    | root => rfl
    | @entry st l s _ _ hl hs hlive ih =>
      subst ih
      obtain ⟨c, i⟩ := s
      obtain ⟨rfl, hi⟩ := hslots l _ hl hs
      rw [hnone i hi] at hlive
      cases hlive
  obtain ⟨hst, -, l, hl, hs⟩ := hin
  obtain rfl := hreached st hst
  exact ⟨rfl, hslots l s hl hs⟩

theorem bare_entries : fatEntry mirroredFp bareDisk.image 2 = FAT_EOC ∧
    (∀ i < 16, (volOf mirroredFp bareDisk.image).entry (2, i) = .last) ∧
    ∀ x < 9, 3 ≤ x → fatEntry mirroredFp bareDisk.image x = 0 := by
  decide +kernel

theorem bare_inDir {st : Volume.Start} {s : Volume.Slot}
    (h : Volume.InDir (layout twoFiles_geometry) (volOf mirroredFp bareDisk.image) st s) :
    st = .root ∧ (volOf mirroredFp bareDisk.image).entry s = .last := by
  obtain ⟨hroot, hlast, -⟩ := bare_entries
  obtain ⟨hst, hc, hi⟩ := empty_inDir hroot (fun i hi => by rw [hlast i hi]; rfl) h
  obtain ⟨c, i⟩ := s
  obtain rfl : c = 2 := hc
  exact ⟨hst, hlast i hi⟩

theorem bare_sound :
    Volume.Sound (layout twoFiles_geometry) (volOf mirroredFp bareDisk.image) := by
  obtain ⟨hroot, hlast, hfree⟩ := bare_entries
  have hl : FatChain mirroredFp bareDisk.image 2 [2] := rootChain hroot
  have hreached : ∀ st, Volume.Reached (layout twoFiles_geometry)
      (volOf mirroredFp bareDisk.image) st → st = .root := by
    intro st hst
    cases hst with
    | root => rfl
    | entry hr hd hl hs hlive =>
      rw [(bare_inDir (.of_chain hr hd hl hs)).2] at hlive
      cases hlive
  refine ⟨⟨fun st hst => ?_, fun st st' _ _ _ hst hst' _ _ _ _ => ?_, fun st l hst hd hl => ?_⟩,
    fun x hx hne => ?_⟩
  · obtain rfl := hreached st hst
    exact .inr ⟨[2], List.cons_ne_nil _ _, hl⟩
  · rw [hreached st hst, hreached st' hst']
  · exact List.pairwise_of_forall_mem_list fun s _ s' hs' _ =>
      (bare_inDir (.of_chain hst hd hl hs')).2
  · have hx' : 2 ≤ x ∧ x < 9 := hx
    have hx2 : x = 2 := by
      by_contra h2
      exact hne (hfree x hx'.2 (by omega))
    exact ⟨.root, [2], .root, hl, List.mem_singleton.mpr hx2⟩

theorem bare_uniqueNames :
    Volume.UniqueNames (layout twoFiles_geometry) (volOf mirroredFp bareDisk.image) := by
  intro st s s' n hin _ hn
  rw [(bare_inDir hin).2] at hn
  cases hn

-- ---------------------------------------------------------------------------
-- Names in the root
-- ---------------------------------------------------------------------------

structure InRoot (path name : CStr) : Prop where
  rest : vfsRest path = some name
  parts : strtok [] name = [name]
  split : vfsSplitParent name = some ([], name)

theorem InRoot.plain {path name : CStr} (h : InRoot path name) : PlainPath path := by
  intro rest hrest
  cases h.rest.symm.trans hrest
  refine ⟨fun part hp => ?_, fun dir name' hsplit part hp => ?_⟩
  · rw [h.parts] at hp
    cases hp
  · cases h.split.symm.trans hsplit
    cases hp

theorem InRoot.findsRemoved {path name : CStr} (h : InRoot path name) {fuel r c : Nat} {t : Tree}
    {d : Disk} (hroot : t.root = some r) (hchildren : t.children r = [c])
    (hfind : t.find name [c] = some c) : FindsRemoved fp fuel path t d := by
  rintro p name' t₁ s₀ ⟨rest, e, l, f, hrest, hparent, -⟩ k hk node - -
  cases h.rest.symm.trans hrest
  have hload : vfsLoad fp fuel r t d = some (t, d) :=
    vfsLoad_resident (by rw [hchildren]; exact List.cons_ne_nil _ _)
  rw [vfsParent, h.split] at hparent
  dsimp only at hparent
  rw [vfsResolve, hroot] at hparent
  dsimp only at hparent
  rw [show strtok [] [] = [] from rfl, vfsWalk] at hparent
  dsimp only at hparent
  split at hparent
  · rw [hload] at hparent
    cases hparent
    rw [hchildren] at hk ⊢
    rw [List.mem_singleton.mp hk]
    exact hfind
  · cases hparent

def pathA : CStr := cstr ['/', 'a']
def pathB : CStr := cstr ['/', 'b']

theorem pathA_inRoot : InRoot pathA (cstr ['a']) := ⟨by decide, by decide, by decide⟩
theorem pathB_inRoot : InRoot pathB (cstr ['b']) := ⟨by decide, by decide, by decide⟩

theorem bare_create : ∃ s, callStep mirroredFp bareState (.act (.create 3 pathA)) s := by
  have h : (vfsCreate mirroredFp 3 pathA (rootTree mirroredFp.bpb) bareDisk).isSome = true := by
    decide +kernel
  obtain ⟨⟨f, t, d⟩, hcall⟩ := Option.isSome_iff_exists.mp h
  exact ⟨_, f, t, d, hcall, rfl⟩

-- ---------------------------------------------------------------------------
-- Every cluster has one owner
-- ---------------------------------------------------------------------------

/-- Where no directory is removed that has entries, every run leaves every chain with one owner, and
every cluster that is in use on a chain. -/
theorem run_sound (hg : Geometry fp) (hm : Mounted fp s)
    (hs : Volume.Sound (layout hg) (volOf fp s.disk.image))
    (hrun : Run (callStep fp) (fun s a => Careful hg s a ∧ RemovesBare hg s a) s as s') :
    Volume.Sound (layout hg) (volOf fp s'.disk.image) := by
  refine (hrun.invariant (fun s => Running hg s ∧ Volume.Sound (layout hg) (volOf fp s.disk.image))
    ⟨hm.running hs.toOwned, hs⟩ fun s a s' ⟨h, hs⟩ hok hstep => ?_).2
  obtain ⟨h', hvol⟩ := callStep_running h hok.1 hstep
  exact ⟨h', hs.step hok.2 hvol⟩

theorem created_sound : ∃ s, Run (callStep mirroredFp)
      (fun s a => Careful twoFiles_geometry s a ∧ RemovesBare twoFiles_geometry s a) bareState
      [.act (.create 3 pathA)] s ∧
    Volume.Sound (layout twoFiles_geometry) (volOf mirroredFp s.disk.image) := by
  obtain ⟨s, hstep⟩ := bare_create
  have hbare : RemovesBare twoFiles_geometry bareState (.act (.create 3 pathA)) := by
    rintro s₀ ⟨fuel, path, p, name, t, ha, -⟩
    cases ha
  have hrun : Run (callStep mirroredFp)
      (fun s a => Careful twoFiles_geometry s a ∧ RemovesBare twoFiles_geometry s a) bareState
      [.act (.create 3 pathA)] s := .cons ⟨pathA_inRoot.plain, hbare⟩ hstep .nil
  exact ⟨s, hrun, run_sound twoFiles_geometry bare_mounted bare_sound hrun⟩

def pathD : CStr := cstr ['/', 'd']
def pathDF : CStr := cstr ['/', 'd', '/', 'f']

/-- The file in a directory that is removed keeps its cluster, and no entry has it. -/
theorem removed_directory_loses : ¬ ∀ (fp : FatPrivate) (hg : Geometry fp) (s s' : VfsState)
    (as : List VfsCall), Mounted fp s → Volume.Sound (layout hg) (volOf fp s.disk.image) →
    Run (callStep fp) (fun _ _ => True) s as s' →
    Volume.Sound (layout hg) (volOf fp s'.disk.image) := by
  intro hall
  have hrun : ((vfsMkdir mirroredFp 3 pathD (rootTree mirroredFp.bpb) bareDisk).bind fun r =>
      (vfsCreate mirroredFp 3 pathDF r.2.1 r.2.2).bind fun q =>
      (vfsUnlink mirroredFp 3 pathD q.2.1 q.2.2).map fun u =>
        ([fatEntry mirroredFp u.2.2.image 2, fatEntry mirroredFp u.2.2.image 4],
          (List.range 16).map fun i => ((volOf mirroredFp u.2.2.image).entry (2, i)).isLive)) =
      some ([FAT_EOC, FAT_EOC], List.replicate 16 false) := by decide +kernel
  obtain ⟨⟨ret, t₁, d₁⟩, hmkdir, hrun⟩ := Option.bind_eq_some_iff.mp hrun
  obtain ⟨⟨f, t₂, d₂⟩, hcreate, hrun⟩ := Option.bind_eq_some_iff.mp hrun
  obtain ⟨⟨ret', t₃, d₃⟩, hunlink, heq⟩ := Option.map_eq_some_iff.mp hrun
  simp only [Prod.mk.injEq, List.cons.injEq] at heq
  obtain ⟨⟨hroot, hlost, -⟩, hdead⟩ := heq
  have hnone : ∀ i < 16, ((volOf mirroredFp d₃.image).entry (2, i)).isLive = false := by
    intro i hi
    have hmem : ((volOf mirroredFp d₃.image).entry (2, i)).isLive ∈ List.replicate 16 false := by
      rw [← hdead]
      exact List.mem_map_of_mem (List.mem_range.mpr hi)
    exact List.eq_of_mem_replicate hmem
  have hrun : Run (callStep mirroredFp) (fun _ _ => True) bareState
      [.mkdir 3 pathD, .act (.create 3 pathDF), .act (.unlink 3 pathD)]
      ⟨t₃, d₃, setHandle (fun _ => none) 0 f, 1⟩ :=
    .cons trivial ⟨ret, t₁, d₁, hmkdir, rfl⟩ (.cons trivial ⟨f, t₂, d₂, hcreate, rfl⟩
      (.cons trivial ⟨ret', t₃, d₃, hunlink, rfl⟩ .nil))
  have hsound := hall mirroredFp twoFiles_geometry _ _ _ bare_mounted bare_sound hrun
  have hused : fatEntry mirroredFp d₃.image 4 ≠ 0 := by
    rw [hlost]
    decide
  obtain ⟨st, l, hst, hl, hmem⟩ := hsound.used 4 ⟨by decide, by decide⟩ hused
  -- the root has no entry, and its chain is the cluster 2
  cases hst with
  | root =>
    rw [hl.unique (rootChain hroot)] at hmem
    exact absurd (List.mem_singleton.mp hmem) (by decide)
  | @entry st₀ l₀ s hst₀ hd hl₀ hs hlive =>
    obtain ⟨c, i⟩ := s
    obtain ⟨-, rfl, hi⟩ := empty_inDir hroot hnone (.of_chain hst₀ hd hl₀ hs)
    rw [hnone i hi] at hlive
    cases hlive

-- ---------------------------------------------------------------------------
-- Names
-- ---------------------------------------------------------------------------

/-- Where a directory gets only names that it does not have, no run gives it one name twice. -/
theorem run_uniqueNames (hg : Geometry fp) (hm : Mounted fp s)
    (hs : Volume.Owned (layout hg) (volOf fp s.disk.image))
    (hu : Volume.UniqueNames (layout hg) (volOf fp s.disk.image))
    (hrun : Run (callStep fp) (fun s a => Careful hg s a ∧ MakesNew hg s a) s as s') :
    Volume.UniqueNames (layout hg) (volOf fp s'.disk.image) := by
  refine (hrun.invariant (fun s => Running hg s ∧
    Volume.UniqueNames (layout hg) (volOf fp s.disk.image)) ⟨hm.running hs, hu⟩
    fun s a s' ⟨h, hu⟩ hok hstep => ?_).2
  obtain ⟨h', hvol⟩ := callStep_running h hok.1 hstep
  exact ⟨h', hu.step h.inStep.owned hok.2 hvol⟩

theorem created_uniqueNames : ∃ s, Run (callStep mirroredFp)
      (fun s a => Careful twoFiles_geometry s a ∧ MakesNew twoFiles_geometry s a) bareState
      [.act (.create 3 pathA)] s ∧
    Volume.UniqueNames (layout twoFiles_geometry) (volOf mirroredFp s.disk.image) := by
  obtain ⟨s, hstep⟩ := bare_create
  have hnew : MakesNew twoFiles_geometry bareState (.act (.create 3 pathA)) := by
    intro st e s₁ _ hin hname
    have hlast : (volOf mirroredFp bareState.disk.image).entry s₁ = .last := (bare_inDir hin).2
    rw [hlast] at hname
    cases hname
  have hrun : Run (callStep mirroredFp)
      (fun s a => Careful twoFiles_geometry s a ∧ MakesNew twoFiles_geometry s a) bareState
      [.act (.create 3 pathA)] s := .cons ⟨pathA_inRoot.plain, hnew⟩ hstep .nil
  exact ⟨s, hrun, run_uniqueNames twoFiles_geometry bare_mounted bare_sound.toOwned
    bare_uniqueNames hrun⟩

def pathUpperA : CStr := cstr ['/', 'A']

/-- A name in upper case is not found where it is in memory in lower case, and stored once more. -/
theorem upper_case_twice : ¬ ∀ (fp : FatPrivate) (hg : Geometry fp) (s s' : VfsState)
    (as : List VfsCall), Mounted fp s → Volume.Sound (layout hg) (volOf fp s.disk.image) →
    Volume.UniqueNames (layout hg) (volOf fp s.disk.image) →
    Run (callStep fp) (fun _ _ => True) s as s' →
    Volume.UniqueNames (layout hg) (volOf fp s'.disk.image) := by
  intro hall
  have hrun : ((vfsCreate mirroredFp 3 pathA (rootTree mirroredFp.bpb) bareDisk).bind fun r =>
      (vfsCreate mirroredFp 3 pathUpperA r.2.1 r.2.2).map fun q =>
        [decide (fatEntry mirroredFp q.2.2.image 2 = FAT_EOC),
          decide (((volOf mirroredFp q.2.2.image).entry (2, 0)).name = fatNameTo83 (cstr ['a'])),
          decide (((volOf mirroredFp q.2.2.image).entry (2, 1)).name = fatNameTo83 (cstr ['a']))]) =
      some [true, true, true] := by decide +kernel
  obtain ⟨⟨f, t₁, d₁⟩, hcreate, hrun⟩ := Option.bind_eq_some_iff.mp hrun
  obtain ⟨⟨f', t₂, d₂⟩, hcreate', heq⟩ := Option.map_eq_some_iff.mp hrun
  simp only [List.cons.injEq, decide_eq_true_eq] at heq
  obtain ⟨hroot, hfirst, hsecond, -⟩ := heq
  have hname : fatNameTo83 (cstr ['a']) = some ⟨pad 8 (cstr ['A']), pad 3 []⟩ := by decide
  have hrun : Run (callStep mirroredFp) (fun _ _ => True) bareState
      [.act (.create 3 pathA), .act (.create 3 pathUpperA)]
      ⟨t₂, d₂, setHandle (setHandle (fun _ => none) 0 f) 1 f', 2⟩ :=
    .cons trivial ⟨f, t₁, d₁, hcreate, rfl⟩ (.cons trivial ⟨f', t₂, d₂, hcreate', rfl⟩ .nil)
  have hunique := hall mirroredFp twoFiles_geometry _ _ _ bare_mounted bare_sound bare_uniqueNames
    hrun
  have heq := hunique .root (2, 0) (2, 1) _ (root_inDir hroot (by decide))
    (root_inDir hroot (by decide)) (hfirst.trans hname) (hsecond.trans hname)
  exact absurd heq (by decide)

-- ---------------------------------------------------------------------------
-- One file is written to
-- ---------------------------------------------------------------------------

structure SameFile (hg : Geometry fp) (m m' : Bytes) (o : Volume.Slot) : Prop where
  entry : (volOf fp m').entry o = (volOf fp m).entry o
  chain : ∀ l, FatChain fp m ((volOf fp m).first (layout hg) (.entry o)) l →
    FatChain fp m' ((volOf fp m).first (layout hg) (.entry o)) l
  bytes : (volOf fp m).isDir (.entry o) = false → ∀ l,
    FatChain fp m ((volOf fp m).first (layout hg) (.entry o)) l →
    ∀ j < l.length * fp.bytesPerCluster, chainByte fp m' l j = chainByte fp m l j

theorem SameFile.refl (hg : Geometry fp) (m : Bytes) (o : Volume.Slot) : SameFile hg m m o :=
  ⟨rfl, fun _ => id, fun _ _ _ _ _ => rfl⟩

/-- A write through the handle `h` leaves every entry but that of its own file as it was. -/
def WritesOwnFile (hg : Geometry fp) (s : VfsState) (h : Nat) (s' : VfsState) : Prop :=
  ∀ f, s.files h = some f → ∀ o, Volume.Reached (layout hg) (volOf fp s.disk.image) (.entry o) →
    ¬ Attached hg s.tree f.node (.entry o) → SameFile hg s.disk.image s'.disk.image o

/-- The others' chains are apart from the one that grows, and so are the slots of directories. -/
theorem WriteEffect.sameFile {d d' : Disk} {s₀ o : Volume.Slot} {st₀ : Volume.Start}
    {l l' : List Nat} (hw : WriteEffect hg s₀ l l' d d')
    (hs : Volume.Owned (layout hg) (volOf fp d.image))
    (hin : Volume.InDir (layout hg) (volOf fp d.image) st₀ s₀)
    (hlive : ((volOf fp d.image).entry s₀).isLive = true)
    (hfile : (volOf fp d.image).isDir (.entry s₀) = false)
    (hl : FatChain fp d.image ((volOf fp d.image).first (layout hg) (.entry s₀)) l)
    (ho : Volume.Reached (layout hg) (volOf fp d.image) (.entry o)) (hne : o ≠ s₀) :
    SameFile hg d.image d'.image o := by
  have h₀ := hin.entry hlive
  have hne' : Volume.Start.entry o ≠ .entry s₀ := fun h => hne (Volume.Start.entry.inj h)
  obtain ⟨p, hino⟩ := ho.inDir
  refine ⟨?_, fun k hk => (hw.written.chain_iff hs h₀ hl ho hne').mpr hk, fun hdir k hk j hj => ?_⟩
  · obtain h | ⟨h, -⟩ := hw.written.entry o hino.valid.1 hino.valid.2
      (hw.written.off hs h₀ hfile hl hino)
    · exact h
    · exact absurd h.symm hne'
  · obtain ⟨x, hx, hin'⟩ := chainAddr_in hg hj
    refine hw.other _ hin'.not_table (fun y hy hiny => ?_) ?_
    · refine hw.written.apart hs h₀ hl ho hne' hk hx ?_
      rw [InCluster.eq hg (hk.2 x hx) (hw.written.chain.2 y hy) hin' hiny]
      exact hy
    · -- the slot of the entry is in a cluster of a directory
      by_contra hno
      have hslot := Slot.in_cluster hg (s := slotAt s₀) hin.valid
        (show chainAddr fp k j - (slotAt s₀).addr fp < 32 by omega)
      rw [show (slotAt s₀).addr fp + (chainAddr fp k j - (slotAt s₀).addr fp) = chainAddr fp k j by
        omega] at hslot
      have heq : x = s₀.1 := InCluster.eq hg (hk.2 x hx) hin.valid.1 hin' hslot
      obtain ⟨hst, hd, k', hk', hmem⟩ := hin
      obtain rfl := hs.apart _ _ k k' x ho hst hk hk' hx (heq ▸ (Volume.mem_slots.mp hmem).1)
      rw [hdir] at hd
      cases hd

theorem file_eq {f : Option VfsFile} {n o : Nat} (hn : f.map VfsFile.node = some n)
    (ho : f.map VfsFile.offset = some o) : f = some ⟨n, o⟩ := by
  cases f with
  | none => cases hn
  | some f =>
    cases hn
    cases ho
    rfl

/-- The file `a` is made and removed while a handle is open, and `b` is made in its place. -/
def reuse : List VfsCall :=
  [.act (.create 3 pathA), .act (.unlink 3 pathA), .act (.create 3 pathB)]

def zeros : Bytes := fun _ => 0

/-- What `reuse` leaves: the handles 0 and 1 of the two files, which can be written to; by the
handle of `a` the entry of `b` changes. -/
structure Reused (s : VfsState) : Prop where
  run : Run (callStep mirroredFp) (Careful twoFiles_geometry) bareState reuse s
  old : s.files 0 = some ⟨1, 0⟩
  new : s.files 1 = some ⟨2, 0⟩
  root : s.tree.root = some 0
  children : s.tree.children 0 = [2]
  dir : s.tree.hasFlag 0 VFS_DIR = true
  node : ∃ node, s.tree.nodes 2 = some node ∧ node.name = cstr ['b'] ∧ node.cluster = 3
  table : fatEntry mirroredFp s.disk.image 2 = FAT_EOC
  live : ((volOf mirroredFp s.disk.image).entry (2, 0)).isLive = true
  writesOld : ∃ s', callStep mirroredFp s (.act (.write 3 0 1 zeros zeros)) s' ∧
    (volOf mirroredFp s'.disk.image).entry (2, 0) ≠ (volOf mirroredFp s.disk.image).entry (2, 0)
  writesNew : ∃ s', callStep mirroredFp s (.act (.write 3 1 1 zeros zeros)) s'

theorem reused : ∃ s, Reused s := by
  have hrun : ((vfsCreate mirroredFp 3 pathA (rootTree mirroredFp.bpb) bareDisk).bind fun r =>
      (vfsUnlink mirroredFp 3 pathA r.2.1 r.2.2).bind fun u =>
      (vfsCreate mirroredFp 3 pathB u.2.1 u.2.2).bind fun q =>
      (q.2.1.nodes 1).bind fun old => (q.2.1.nodes 2).bind fun new =>
      (vfsWrite mirroredFp zeros 3 old 0 1 zeros q.2.2).bind fun w =>
      (vfsWrite mirroredFp zeros 3 new 0 1 zeros q.2.2).map fun _ =>
        ([r.1.map VfsFile.node, r.1.map VfsFile.offset, q.1.map VfsFile.node,
            q.1.map VfsFile.offset, r.2.1.root, q.2.1.root, r.2.1.find (cstr ['a']) [1]],
          [r.2.1.children 0, q.2.1.children 0],
          [q.2.1.hasFlag 0 VFS_DIR, decide (new.name = cstr ['b']), decide (new.cluster = 3),
            decide (fatEntry mirroredFp q.2.2.image 2 = FAT_EOC),
            ((volOf mirroredFp q.2.2.image).entry (2, 0)).isLive,
            decide ((volOf mirroredFp w.2.2.2.image).entry (2, 0) ≠
              (volOf mirroredFp q.2.2.image).entry (2, 0))])) =
      some ([some 1, some 0, some 2, some 0, some 0, some 0, some 1], [[1], [2]],
        [true, true, true, true, true, true]) := by decide +kernel
  obtain ⟨⟨fa, t₁, d₁⟩, hcreate, hrun⟩ := Option.bind_eq_some_iff.mp hrun
  obtain ⟨⟨ret, t₂, d₂⟩, hunlink, hrun⟩ := Option.bind_eq_some_iff.mp hrun
  obtain ⟨⟨fb, t₃, d₃⟩, hcreate', hrun⟩ := Option.bind_eq_some_iff.mp hrun
  obtain ⟨old, hold, hrun⟩ := Option.bind_eq_some_iff.mp hrun
  obtain ⟨new, hnew, hrun⟩ := Option.bind_eq_some_iff.mp hrun
  obtain ⟨⟨k, off, old', d₄⟩, hwrite, hrun⟩ := Option.bind_eq_some_iff.mp hrun
  obtain ⟨⟨k', off', new', d₅⟩, hwrite', heq⟩ := Option.map_eq_some_iff.mp hrun
  simp only [Prod.mk.injEq, List.cons.injEq, decide_eq_true_eq] at heq
  obtain ⟨⟨hn₁, ho₁, hn₂, ho₂, hroot₁, hroot, hfind, -⟩, ⟨hchildren₁, hchildren, -⟩, hdir, hname,
    hcluster, htable, hlive, hne, -⟩ := heq
  obtain rfl := file_eq hn₁ ho₁
  obtain rfl := file_eq hn₂ ho₂
  have hstep₁ : callStep mirroredFp bareState (.act (.create 3 pathA))
      ⟨t₁, d₁, setHandle (fun _ => none) 0 (some ⟨1, 0⟩), 1⟩ := ⟨_, t₁, d₁, hcreate, rfl⟩
  have hstep₂ : callStep mirroredFp ⟨t₁, d₁, setHandle (fun _ => none) 0 (some ⟨1, 0⟩), 1⟩
      (.act (.unlink 3 pathA)) ⟨t₂, d₂, setHandle (fun _ => none) 0 (some ⟨1, 0⟩), 1⟩ :=
    ⟨ret, t₂, d₂, hunlink, rfl⟩
  have hstep₃ : callStep mirroredFp ⟨t₂, d₂, setHandle (fun _ => none) 0 (some ⟨1, 0⟩), 1⟩
      (.act (.create 3 pathB)) ⟨t₃, d₃,
        setHandle (setHandle (fun _ => none) 0 (some ⟨1, 0⟩)) 1 (some ⟨2, 0⟩), 2⟩ :=
    ⟨_, t₃, d₃, hcreate', rfl⟩
  exact ⟨_, {
    run := .cons pathA_inRoot.plain hstep₁
      (.cons ⟨pathA_inRoot.plain, pathA_inRoot.findsRemoved hroot₁ hchildren₁ hfind⟩ hstep₂
        (.cons pathB_inRoot.plain hstep₃ .nil))
    old := rfl
    new := rfl
    root := hroot
    children := hchildren
    dir := hdir
    node := ⟨new, hnew, hname, hcluster⟩
    table := htable
    live := hlive
    writesOld := ⟨_, ⟨⟨1, 0⟩, old, k, off, old', d₄, rfl, hold, hwrite, rfl⟩, hne⟩
    writesNew := ⟨_, ⟨⟨2, 0⟩, new, k', off', new', d₅, rfl, hnew, hwrite', rfl⟩⟩ }⟩

/-- A write after a run changes no other file. -/
theorem run_isolates (hg : Geometry fp) (hm : Mounted fp s)
    (hs : Volume.Owned (layout hg) (volOf fp s.disk.image))
    (hrun : Run (callStep fp) (Careful hg) s as s') {fuel h size : Nat} {junk buf : Bytes}
    {s'' : VfsState} (hok : Careful hg s' (.act (.write fuel h size junk buf)))
    (hstep : callStep fp s' (.act (.write fuel h size junk buf)) s'') :
    WritesOwnFile hg s' h s'' := by
  have hr := run_running (hm.running hs) hrun
  obtain ⟨f, node, ret, offset, node', d, hf, hn, hcall, rfl⟩ := hstep
  intro f' hf' o ho hown
  cases hf.symm.trans hf'
  obtain ⟨-, rfl | ⟨s₀, st₀, l, l', hatt, hin, hlive, hfile, hl, heffect⟩⟩ :=
    vfsWrite_effect hr.inStep hn (hr.files h f hf)
      (Or.imp_right (fun hall => hall f node hf hn) hok) hcall
  · exact .refl hg _ o
  · refine heffect.sameFile hr.inStep.owned hin hlive hfile hl ho ?_
    rintro rfl
    exact hown hatt

/-- The file `b` is written to. -/
theorem reused_isolated : ∃ s s', Run (callStep mirroredFp) (Careful twoFiles_geometry) bareState
    reuse s ∧ callStep mirroredFp s (.act (.write 3 1 1 zeros zeros)) s' ∧
    WritesOwnFile twoFiles_geometry s 1 s' := by
  obtain ⟨s, h⟩ := reused
  obtain ⟨s', hwrite⟩ := h.writesNew
  have hrunning := run_running (bare_mounted.running bare_sound.toOwned) h.run
  have hok : Careful twoFiles_geometry s (.act (.write 3 1 1 zeros zeros)) := by
    refine .inr fun f node hf hn => ?_
    cases h.new.symm.trans hf
    obtain ⟨node', hn', hname, hcluster⟩ := h.node
    cases hn'.symm.trans hn
    have hmem : 2 ∈ s.tree.children 0 := by
      rw [h.children]
      exact List.mem_singleton_self 2
    obtain ⟨s₁, hatt, -⟩ := hrunning.inStep.cached.link (.root h.root) h.dir hmem hn
      (by rw [hname]; decide)
    exact ⟨⟨_, hatt⟩, by rw [hcluster]; decide⟩
  exact ⟨s, s', h.run, hwrite,
    run_isolates twoFiles_geometry bare_mounted bare_sound.toOwned h.run hok hwrite⟩

/-- A handle that stays open writes to the file that takes the place of its own. -/
theorem stale_handle_writes : ¬ ∀ (fp : FatPrivate) (hg : Geometry fp) (s s' s'' : VfsState)
    (as : List VfsCall) (fuel h size : Nat) (junk buf : Bytes), Mounted fp s →
    Volume.Sound (layout hg) (volOf fp s.disk.image) →
    Run (callStep fp) (fun _ _ => True) s as s' →
    callStep fp s' (.act (.write fuel h size junk buf)) s'' → WritesOwnFile hg s' h s'' := by
  intro hall
  obtain ⟨s, h⟩ := reused
  obtain ⟨s', hwrite, hne⟩ := h.writesOld
  have hrunning := run_running (bare_mounted.running bare_sound.toOwned) h.run
  have hin : Volume.InDir (layout twoFiles_geometry) (volOf mirroredFp s.disk.image) .root (2, 0) :=
    root_inDir h.table (by decide)
  have hown : ¬ Attached twoFiles_geometry s.tree 1 (.entry (2, 0)) := by
    intro hatt
    obtain ⟨node, hmem, -⟩ :=
      hrunning.inStep.cached.sibling hrunning.inStep.owned (.root h.root) hin hatt
    rw [h.children] at hmem
    exact absurd (List.mem_singleton.mp hmem) (by decide)
  exact hne (hall mirroredFp twoFiles_geometry bareState s s' reuse 3 0 1 zeros zeros bare_mounted
    bare_sound (h.run.mono fun _ _ _ => trivial) hwrite ⟨1, 0⟩ h.old (2, 0) (hin.entry h.live)
    hown).entry

end EponaOS.Fs
