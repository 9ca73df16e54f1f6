import EponaOS.Fs.FailedCreation
import EponaOS.Fs.Vfs
import EponaOS.Lib.Run

/-!
# The memory of files that are gone

`vfs_unlink` takes a node out of the list of its directory, and nothing frees it: of what a run
allocates on the kernel heap only the handles go back. The memory is the same again where no file
was new to begin with.
-/

namespace EponaOS.Fs

open Bytes

variable {fp : FatPrivate} {fuel n : Nat} {path part : CStr} {parts : List CStr} {t t' : Tree}
  {d d' : Disk}

-- ---------------------------------------------------------------------------
-- Runs
-- ---------------------------------------------------------------------------

structure VfsState where
  tree : Tree
  disk : Disk
  files : Nat → Option VfsFile
  nextFile : Nat

inductive VfsAct
  | create (fuel : Nat) (path : CStr)
  | write (fuel h size : Nat) (junk buf : Bytes)
  | close (h : Nat)
  | unlink (fuel : Nat) (path : CStr)

def setHandle (files : Nat → Option VfsFile) (h : Nat) (f : Option VfsFile) :
    Nat → Option VfsFile := fun k => if k = h then f else files k

def vfsStep (fp : FatPrivate) (s : VfsState) (a : VfsAct) (s' : VfsState) : Prop :=
  match a with
  | .create fuel path => ∃ f t d, vfsCreate fp fuel path s.tree s.disk = some (f, t, d) ∧
      s' = ⟨t, d, setHandle s.files s.nextFile f, s.nextFile + 1⟩
  | .write fuel h size junk buf => ∃ f node ret offset node' d,
      s.files h = some f ∧ s.tree.nodes f.node = some node ∧
      vfsWrite fp junk fuel node f.offset size buf s.disk = some (ret, offset, node', d) ∧
      s' = { s with
        tree := s.tree.setNode f.node node'
        disk := d
        files := setHandle s.files h (some { f with offset }) }
  | .close h => s.files h ≠ none ∧ s' = { s with files := setHandle s.files h none }
  | .unlink fuel path => ∃ ret t d, vfsUnlink fp fuel path s.tree s.disk = some (ret, t, d) ∧
      s' = { s with tree := t, disk := d }

/-- `vfs_node_t`, `fat_node_data_t` and `file_t` objects, by number. -/
inductive Allocation
  | node (n : Nat)
  | data (n : Nat)
  | file (h : Nat)

/-- `fat_create_node` allocates a node with its data. The only `kfree` is that of `vfs_close`. -/
def VfsState.Live (s : VfsState) : Allocation → Prop
  | .node n => s.tree.nodes n ≠ none
  | .data n => s.tree.nodes n ≠ none
  | .file h => s.files h ≠ none

-- ---------------------------------------------------------------------------
-- Paths in memory
-- ---------------------------------------------------------------------------

/-- Every directory that a path leads through has a child in memory, so that none is read. -/
def Resident (t : Tree) : List CStr → Nat → Prop
  | [], _ => True
  | part :: parts, curr => t.hasFlag curr VFS_DIR = true → t.children curr ≠ [] ∧
      ∀ child, t.find part (t.children curr) = some child → Resident t parts child

def nodeAt (t : Tree) : List CStr → Nat → Option Nat
  | [], curr => some curr
  | part :: parts, curr =>
    if t.hasFlag curr VFS_DIR then (t.find part (t.children curr)).bind (nodeAt t parts) else none

theorem vfsLoad_resident (h : t.children n ≠ []) : vfsLoad fp fuel n t d = some (t, d) := if_neg h

theorem vfsWalk_resident (hres : Resident t parts n)
    (h : vfsWalk fp fuel parts n t d = some (r, t', d')) : t' = t ∧ r = nodeAt t parts n := by
  induction parts generalizing n with
  | nil =>
    cases h
    exact ⟨rfl, rfl⟩
  | cons part parts ih =>
    rw [vfsWalk] at h
    rw [nodeAt]
    by_cases hdir : t.hasFlag n VFS_DIR = true
    · obtain ⟨hne, hchild⟩ := hres hdir
      rw [if_pos hdir, vfsLoad_resident hne] at h
      rw [if_pos hdir]
      dsimp only at h
      rcases hfind : t.find part (t.children n) with _ | child
      · rw [hfind] at h
        cases h
        exact ⟨rfl, rfl⟩
      · rw [hfind] at h
        exact ih (hchild child hfind) h
    · rw [if_neg hdir] at h ⊢
      cases h
      exact ⟨rfl, rfl⟩

theorem resident_of_nodeAt (h : nodeAt t parts n = some k) : Resident t parts n := by
  induction parts generalizing n with
  | nil => trivial
  | cons part parts ih =>
    rw [nodeAt] at h
    intro hdir
    rw [if_pos hdir] at h
    obtain ⟨child, hfind, hchild⟩ := Option.bind_eq_some_iff.mp h
    refine ⟨fun hnil => ?_, fun child' hfind' => ?_⟩
    · rw [hnil] at hfind
      cases hfind
    · cases hfind.symm.trans hfind'
      exact ih hchild

-- ---------------------------------------------------------------------------
-- Steps that make no node
-- ---------------------------------------------------------------------------

/-- `vfs_create` names a file that is in memory; on the way to the directory of `vfs_unlink`, and in
it, no directory is without a child in memory. -/
def MakesNoNode (s : VfsState) : VfsAct → Prop
  | .create _ path => ∃ rest root n, vfsRest path = some rest ∧ s.tree.root = some root ∧
      nodeAt s.tree (strtok [] rest) root = some n ∧ s.tree.hasFlag n VFS_FILE = true
  | .unlink _ path => ∀ rest dir name root, vfsRest path = some rest →
      vfsSplitParent rest = some (dir, name) → s.tree.root = some root →
      Resident s.tree (strtok [] dir) root ∧
        ∀ n, nodeAt s.tree (strtok [] dir) root = some n → s.tree.children n ≠ []
  | .write .. => True
  | .close _ => True

def SameNodes (t t' : Tree) : Prop := ∀ n, t'.nodes n ≠ none ↔ t.nodes n ≠ none

theorem SameNodes.setNode (h : t.nodes n ≠ none) (node : VfsNode) : SameNodes t (t.setNode n node) := by
  intro m
  show (if m = n then some node else t.nodes m) ≠ none ↔ _
  by_cases hm : m = n
  · rw [if_pos hm, hm]
    exact iff_of_true (Option.some_ne_none node) h
  · rw [if_neg hm]

theorem SameNodes.truncate (t : Tree) (n : Nat) : SameNodes t (t.truncate n) := by
  rw [Tree.truncate]
  split
  · exact fun _ => Iff.rfl
  · rename_i node hn
    exact .setNode (by rw [hn]; exact Option.some_ne_none node) _

theorem SameNodes.dropChild (t : Tree) (p c : Nat) : SameNodes t (t.dropChild p c) := by
  rw [Tree.dropChild]
  split
  · exact fun _ => Iff.rfl
  · rename_i node hn
    exact .setNode (by rw [hn]; exact Option.some_ne_none node) _

theorem openFile_nodes (n : Nat) (t : Tree) : SameNodes t (openFile n t).2 := by
  rw [openFile]
  split <;> exact fun _ => Iff.rfl

theorem vfsCreate_sameNodes (hrest : vfsRest path = some rest) (hroot : t.root = some root)
    (hn : nodeAt t (strtok [] rest) root = some n) (hfile : t.hasFlag n VFS_FILE = true)
    (h : vfsCreate fp fuel path t d = some (f, t', d')) : SameNodes t t' := by
  rw [vfsCreate, hrest] at h
  dsimp only at h
  rw [vfsResolve, hroot] at h
  dsimp only at h
  rcases hw : vfsWalk fp fuel (strtok [] rest) root t d with _ | ⟨r, t₁, d₁⟩
  · rw [hw] at h
    cases h
  obtain ⟨rfl, rfl⟩ := vfsWalk_resident (resident_of_nodeAt hn) hw
  rw [hw, hn] at h
  dsimp only at h
  rw [Option.filter_some, if_pos hfile] at h
  cases h
  exact fun m => (openFile_nodes n _ m).trans (SameNodes.truncate _ n m)

theorem vfsUnlink_sameNodes
    (hres : ∀ rest dir name root, vfsRest path = some rest →
      vfsSplitParent rest = some (dir, name) → t.root = some root →
      Resident t (strtok [] dir) root ∧
        ∀ n, nodeAt t (strtok [] dir) root = some n → t.children n ≠ [])
    (h : vfsUnlink fp fuel path t d = some (ret, t', d')) : SameNodes t t' := by
  rw [vfsUnlink] at h
  rcases hrest : vfsRest path with _ | rest
  · rw [hrest] at h
    cases h
    exact fun _ => Iff.rfl
  rw [hrest] at h
  dsimp only at h
  rcases hp : vfsParent fp fuel rest t d with _ | ⟨r, t₁, d₁⟩
  · rw [hp] at h
    cases h
  -- the directory is found without reading one
  have hsame : t₁ = t := by
    rw [vfsParent] at hp
    rcases hsplit : vfsSplitParent rest with _ | ⟨dir, name⟩
    · rw [hsplit] at hp
      cases hp
      rfl
    rw [hsplit] at hp
    dsimp only at hp
    rw [vfsResolve] at hp
    rcases hroot : t.root with _ | root
    · rw [hroot] at hp
      cases hp
      rfl
    rw [hroot] at hp
    dsimp only at hp
    obtain ⟨hdir, hchild⟩ := hres rest dir name root hrest hsplit hroot
    rcases hw : vfsWalk fp fuel (strtok [] dir) root t d with _ | ⟨o, t₂, d₂⟩
    · rw [hw] at hp
      cases hp
    obtain ⟨rfl, rfl⟩ := vfsWalk_resident hdir hw
    rw [hw] at hp
    rcases hn : nodeAt t₂ (strtok [] dir) root with _ | n
    · rw [hn] at hp
      cases hp
      rfl
    rw [hn] at hp
    dsimp only at hp
    by_cases hflag : t₂.hasFlag n VFS_DIR = true
    · rw [if_pos hflag, vfsLoad_resident (hchild n hn)] at hp
      cases hp
      rfl
    · rw [if_neg hflag] at hp
      cases hp
      rfl
  subst hsame
  rw [hp] at h
  rcases r with _ | ⟨parent, name⟩
  · cases h
    exact fun _ => Iff.rfl
  dsimp only at h
  rcases hu : fatUnlink fp fuel parent name t₁ d₁ with _ | ⟨ret₁, d₂⟩
  · rw [hu] at h
    cases h
  rw [hu] at h
  dsimp only at h
  split at h
  · cases h
    exact fun _ => Iff.rfl
  · split at h
    · cases h
      exact fun _ => Iff.rfl
    · cases h
      exact .dropChild _ _ _

theorem vfsStep_sameNodes {s s' : VfsState} (hok : MakesNoNode s a) (h : vfsStep fp s a s') :
    SameNodes s.tree s'.tree := by
  cases a with
  | create fuel path =>
    obtain ⟨rest, root, n, hrest, hroot, hn, hfile⟩ := hok
    obtain ⟨f, t, d, hcall, rfl⟩ := h
    exact vfsCreate_sameNodes hrest hroot hn hfile hcall
  | write fuel h size junk buf =>
    obtain ⟨f, node, ret, offset, node', d, -, hnode, -, rfl⟩ := h
    exact .setNode (by rw [hnode]; exact Option.some_ne_none node) node'
  | close h =>
    obtain ⟨-, rfl⟩ := h
    exact fun _ => Iff.rfl
  | unlink fuel path =>
    obtain ⟨ret, t, d, hcall, rfl⟩ := h
    exact vfsUnlink_sameNodes hok hcall

/-- A run that makes no node and closes what it opened leaves the heap as it was. -/
theorem run_keeps_allocations {s s' : VfsState} (hrun : Run (vfsStep fp) MakesNoNode s acts s')
    (hclosed : s'.files = s.files) (a : Allocation) : s'.Live a ↔ s.Live a := by
  have hsame : SameNodes s.tree s'.tree :=
    hrun.invariant (fun u => SameNodes s.tree u.tree) (fun _ => Iff.rfl)
      fun _ _ _ hu hok h m => (vfsStep_sameNodes hok h m).trans (hu m)
  cases a with
  | node n => exact hsame n
  | data n => exact hsame n
  | file h =>
    show s'.files h ≠ none ↔ s.files h ≠ none
    rw [hclosed]

-- ---------------------------------------------------------------------------
-- A file that is opened, closed and unlinked
-- ---------------------------------------------------------------------------

def oneFileState : VfsState := ⟨oneFileTree [], oneFileDisk, fun _ => none, 0⟩

def createAndUnlink (path : CStr) : List VfsAct := [.create 2 path, .close 0, .unlink 2 path]

theorem createAndUnlink_run {ok : VfsState → VfsAct → Prop} {t₁ t₂ : Tree} {d₁ d₂ : Disk}
    (hcreate : vfsCreate mirroredFp 2 path (oneFileTree []) oneFileDisk = some (some f, t₁, d₁))
    (hunlink : vfsUnlink mirroredFp 2 path t₁ d₁ = some (ret, t₂, d₂))
    (hok : ok oneFileState (.create 2 path))
    (hok₁ : ok ⟨t₁, d₁, setHandle (fun _ => none) 0 (some f), 1⟩ (.close 0))
    (hok₂ : ok ⟨t₁, d₁, fun _ => none, 1⟩ (.unlink 2 path)) :
    Run (vfsStep mirroredFp) ok oneFileState (createAndUnlink path) ⟨t₂, d₂, fun _ => none, 1⟩ := by
  have hclosed : setHandle (setHandle (fun _ => none) 0 (some f)) 0 none = fun _ => none := by
    funext h
    rw [setHandle, setHandle]
    split <;> rfl
  have hclose : vfsStep mirroredFp ⟨t₁, d₁, setHandle (fun _ => none) 0 (some f), 1⟩ (.close 0)
      ⟨t₁, d₁, fun _ => none, 1⟩ :=
    ⟨Option.some_ne_none f, congrArg (fun files => VfsState.mk t₁ d₁ files 1) hclosed.symm⟩
  exact .cons hok ⟨some f, t₁, d₁, hcreate, rfl⟩
    (.cons hok₁ hclose (.cons hok₂ ⟨ret, t₂, d₂, hunlink, rfl⟩ .nil))

/-- The file `a` was on the volume before. -/
theorem old_file_unlinked : ∃ s', Run (vfsStep mirroredFp) MakesNoNode oneFileState
      (createAndUnlink (cstr ['/', 'a'])) s' ∧ s'.tree.children 0 = [] ∧
    ∀ a, s'.Live a ↔ oneFileState.Live a := by
  have hrun : ((vfsCreate mirroredFp 2 (cstr ['/', 'a']) (oneFileTree []) oneFileDisk).bind fun r =>
      (vfsUnlink mirroredFp 2 (cstr ['/', 'a']) r.2.1 r.2.2).map fun u =>
        (r.1.isSome, r.2.1.root, r.2.1.children 0, u.2.1.children 0)) =
      some (true, some 0, [1], []) := by decide +kernel
  obtain ⟨⟨f, t₁, d₁⟩, hcreate, hrun⟩ := Option.bind_eq_some_iff.mp hrun
  obtain ⟨⟨ret, t₂, d₂⟩, hunlink, heq⟩ := Option.map_eq_some_iff.mp hrun
  simp only [Prod.mk.injEq] at heq
  obtain ⟨hf, hroot, hbefore, hafter⟩ := heq
  obtain ⟨f, rfl⟩ := Option.isSome_iff_exists.mp hf
  have hok : MakesNoNode oneFileState (.create 2 (cstr ['/', 'a'])) :=
    ⟨cstr ['a'], 0, 1, by decide, rfl, by decide +kernel, by decide +kernel⟩
  have hok₂ : MakesNoNode ⟨t₁, d₁, fun _ => none, 1⟩ (.unlink 2 (cstr ['/', 'a'])) := by
    intro rest dir name root hrest hsplit hroot'
    cases hrest.symm.trans (show vfsRest (cstr ['/', 'a']) = some (cstr ['a']) by decide)
    cases hsplit.symm.trans (show vfsSplitParent (cstr ['a']) = some ([], cstr ['a']) by decide)
    refine ⟨trivial, fun n hn => ?_⟩
    cases hroot.symm.trans hroot'
    obtain rfl : 0 = n := Option.some.inj hn
    dsimp only
    rw [hbefore]
    exact List.cons_ne_nil 1 []
  have hall := createAndUnlink_run hcreate hunlink hok trivial hok₂
  exact ⟨_, hall, hafter, run_keeps_allocations hall rfl⟩

def AllUnlinked (s s' : VfsState) : Prop :=
  ∀ p < s'.tree.nextNode, ∀ c ∈ s'.tree.children p, s.tree.nodes c ≠ none

/-- A new file that is closed and unlinked leaves its node and the node's data behind. -/
theorem new_file_leaks : ¬ ∀ (fp : FatPrivate) (s s' : VfsState) (acts : List VfsAct),
    Run (vfsStep fp) (fun _ _ => True) s acts s' → s'.files = s.files → AllUnlinked s s' →
    ∀ a, s'.Live a ↔ s.Live a := by
  intro hall
  have hrun : ((vfsCreate mirroredFp 2 slashX (oneFileTree []) oneFileDisk).bind fun r =>
      (vfsUnlink mirroredFp 2 slashX r.2.1 r.2.2).map fun u =>
        (r.1.isSome, (u.2.1.nodes 2).isSome, u.2.1.nextNode,
          [u.2.1.children 0, u.2.1.children 1, u.2.1.children 2])) =
      some (true, true, 3, [[1], [], []]) := by decide +kernel
  obtain ⟨⟨f, t₁, d₁⟩, hcreate, hrun⟩ := Option.bind_eq_some_iff.mp hrun
  obtain ⟨⟨ret, t₂, d₂⟩, hunlink, heq⟩ := Option.map_eq_some_iff.mp hrun
  simp only [Prod.mk.injEq, List.cons.injEq] at heq
  obtain ⟨hf, hnode, hnext, h0, h1, h2, -⟩ := heq
  obtain ⟨f, rfl⟩ := Option.isSome_iff_exists.mp hf
  have hunlinked : AllUnlinked oneFileState ⟨t₂, d₂, fun _ => none, 1⟩ := by
    intro p hp c hc
    dsimp only at hp hc
    rw [hnext] at hp
    obtain rfl | rfl | rfl : p = 0 ∨ p = 1 ∨ p = 2 := by omega
    · rw [h0, List.mem_singleton] at hc
      rw [hc]
      exact Option.some_ne_none _
    · rw [h1] at hc
      cases hc
    · rw [h2] at hc
      cases hc
  have hrun : Run (vfsStep mirroredFp) (fun _ _ => True) oneFileState (createAndUnlink slashX) _ :=
    createAndUnlink_run hcreate hunlink trivial trivial trivial
  have hlive := (hall _ _ _ _ hrun rfl hunlinked (.node 2)).mp (Option.isSome_iff_ne_none.mp hnode)
  exact hlive rfl

end EponaOS.Fs
