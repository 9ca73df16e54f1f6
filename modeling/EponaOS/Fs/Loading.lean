import EponaOS.Fs.DirSearch
import EponaOS.Fs.Listing
import EponaOS.Fs.VfsPath

/-!
# What resolving a path changes

`vfs_resolve` reads the directories on its way whose children are not there yet. It never
writes to the drive, and of the tree it changes the lists that were empty and nothing else.
-/

namespace EponaOS.Fs

open Bytes

variable {fp : FatPrivate} {d d' : Disk} {t t' t'' : Tree} {n p : Nat} {node dir : VfsNode}

-- ---------------------------------------------------------------------------
-- Walks that only read
-- ---------------------------------------------------------------------------

section Walk

variable {R S : Type} {fail : S → R} {visit : Nat → Nat → Bytes → S → Disk → Visit R S}
  {Inv : S → Prop} {InvR : R → Prop}

/-- Each visit keeps what is known of the state, and leaves the drive alone. -/
def Keeps (visit : Nat → Nat → Bytes → S → Disk → Visit R S) (Inv : S → Prop) (InvR : R → Prop) :
    Prop :=
  ∀ lba off buf st d, Inv st → (∃ r, visit lba off buf st d = .done r d ∧ InvR r) ∨
    ∃ st', visit lba off buf st d = .next st' ∧ Inv st'

theorem dirWalkCluster_keeps (hv : Keeps visit Inv InvR) (hfail : ∀ st, Inv st → InvR (fail st))
    (h : dirWalkCluster fail visit lba k e buf st d = (r, d')) (hst : Inv st) :
    Reads d d' ∧ r.elim InvR Inv := by
  induction k generalizing e buf st d with
  | zero =>
    cases h
    exact ⟨.refl _, hst⟩
  | succ k ih =>
    rw [dirWalkCluster] at h
    have hreads : Reads d (if e * 32 / 512 = 0 ∨ e * 32 % 512 = 0 then
        ataReadSectors d ((lba + e * 32 / 512) % 2 ^ 32) else (some buf, d)).2 := by
      split
      · exact ataReadSectors_reads _ _
      · exact .refl _
    generalize (if e * 32 / 512 = 0 ∨ e * 32 % 512 = 0 then
      ataReadSectors d ((lba + e * 32 / 512) % 2 ^ 32) else (some buf, d)) = rd at h hreads
    obtain ⟨buf', d₁⟩ := rd
    cases buf' with
    | none =>
      cases h
      exact ⟨hreads, hfail st hst⟩
    | some buf' =>
      dsimp only at h
      obtain ⟨r', hvisit, hr'⟩ | ⟨st', hvisit, hst'⟩ :=
        hv ((lba + e * 32 / 512) % 2 ^ 32) (e * 32 % 512) buf' st d₁ hst
      · rw [hvisit] at h
        cases h
        exact ⟨hreads, hr'⟩
      · rw [hvisit] at h
        obtain ⟨hreads', hr⟩ := ih h hst'
        exact ⟨hreads.trans hreads', hr⟩

theorem dirWalk_keeps (hv : Keeps visit Inv InvR)
    (h : dirWalk fp fail visit fuel c st d = some (r, d')) (hfail : ∀ st, Inv st → InvR (fail st))
    (hst : Inv st) :
    Reads d d' ∧ r.elim InvR Inv := by
  induction fuel generalizing c st d with
  | zero => cases h
  | succ fuel ih =>
    rw [dirWalk] at h
    split at h
    · rcases hw : dirWalkCluster fail visit (fatClusterToLba fp c) (fp.bytesPerCluster / 32) 0
        (fun _ => 0) st d with ⟨r', d₁⟩
      obtain ⟨hreads, hr'⟩ := dirWalkCluster_keeps hv hfail hw hst
      rw [hw] at h
      cases r' with
      | inl r' =>
        cases h
        exact ⟨hreads, hr'⟩
      | inr st' =>
        have hnext : Reads d₁ (fatNextCluster fp d₁ c).2 := by
          obtain ⟨hn, -⟩ | ⟨hn, -⟩ := fatNextCluster_cases fp d₁ c <;> rw [hn] <;> exact .tick d₁
        obtain ⟨hreads', hr⟩ := ih h hr'
        exact ⟨(hreads.trans hnext).trans hreads', hr⟩
    · cases h
      exact ⟨.refl _, hst⟩

end Walk

-- ---------------------------------------------------------------------------
-- Loading the children of a node
-- ---------------------------------------------------------------------------

structure GrowsAt (p : Nat) (t t' : Tree) : Prop where
  fresh : t'.Fresh
  heap : t'.heap <:+ t.heap
  nextNode : t.nextNode ≤ t'.nextNode
  root : t'.root = t.root
  others : ∀ n, n ≠ p → t.nodes n ≠ none → t'.nodes n = t.nodes n
  dir : ∀ dir, t.nodes p = some dir → ∃ cs, t'.nodes p = some { dir with children := cs }

theorem GrowsAt.refl (hf : t.Fresh) : GrowsAt p t t where
  fresh := hf
  heap := List.suffix_refl _
  nextNode := Nat.le_refl _
  root := rfl
  others _ _ _ := rfl
  dir dir h := ⟨dir.children, h⟩

theorem GrowsAt.trans (h : GrowsAt p t t') (h' : GrowsAt p t' t'') : GrowsAt p t t'' where
  fresh := h'.fresh
  heap := h'.heap.trans h.heap
  nextNode := Nat.le_trans h.nextNode h'.nextNode
  root := h'.root.trans h.root
  others n hne hn := by
    have hsame := h.others n hne hn
    rw [h'.others n hne (by rw [hsame]; exact hn), hsame]
  dir dir hdir := by
    obtain ⟨cs, hcs⟩ := h.dir dir hdir
    obtain ⟨cs', hcs'⟩ := h'.dir _ hcs
    exact ⟨cs', hcs'⟩

/-- A call of `kmalloc` changes the rest of the heap only. -/
theorem GrowsAt.of_heap (hf : t.Fresh) (hr : rest <:+ t.heap) :
    GrowsAt p t { t with heap := rest } where
  fresh := ⟨hf.free, hf.children⟩
  heap := hr
  nextNode := Nat.le_refl _
  root := rfl
  others _ _ _ := rfl
  dir dir h := ⟨dir.children, h⟩

theorem GrowsAt.grow (hf : t.Fresh) (hp : t.nodes p = some dir) (hc : node.children = []) :
    GrowsAt p t (t.grow p node) where
  fresh := hf.grow hp hc
  heap := by
    rw [Tree.grow_heap hf hp]
    exact (List.tail_suffix _).trans (List.tail_suffix _)
  nextNode := by
    rw [Tree.grow_nextNode hf hp]
    exact Nat.le_succ _
  root := by
    rw [Tree.grow_eq hf hp]
    rfl
  others n hne hn := by
    refine Tree.grow_other hf hp node ?_ hne
    rintro rfl
    exact hn (hf.free _ (Nat.le_refl _))
  dir dir' hdir := by
    obtain rfl := Option.some.inj (hp.symm.trans hdir)
    exact ⟨_, Tree.grow_parent hf hp node⟩

theorem kmalloc_cases (heap : List Bool) :
    (kmalloc heap = (true, heap.tail) ∧ heap[0]? ≠ some true) ∨
      (kmalloc heap = (false, heap.tail) ∧ heap[0]? = some true) := by
  rw [kmalloc]
  obtain _ | ⟨_ | _, heap⟩ := heap <;> simp

theorem fatCreateNode_cases (t : Tree) (name : CStr) (size flags cluster lba off : Nat)
    (parent : Option Nat) :
    (fatCreateNode t name size flags cluster lba off parent =
        (some t.nextNode, t.addNode ⟨name, size, flags, cluster, lba, off, parent, []⟩) ∧
      t.heap[0]? ≠ some true ∧ t.heap[1]? ≠ some true) ∨
    ∃ heap, fatCreateNode t name size flags cluster lba off parent = (none, { t with heap }) ∧
      heap <:+ t.heap ∧ (t.heap[0]? = some true ∨ t.heap[1]? = some true) := by
  rw [fatCreateNode]
  obtain ⟨h, h0⟩ | ⟨h, h0⟩ := kmalloc_cases t.heap
  · rw [h]
    dsimp only
    obtain ⟨h', h1⟩ | ⟨h', h1⟩ := kmalloc_cases t.heap.tail
    · rw [h']
      rw [List.getElem?_tail] at h1
      exact .inl ⟨rfl, h0, h1⟩
    · rw [h']
      rw [List.getElem?_tail] at h1
      exact .inr ⟨_, rfl, (List.tail_suffix _).trans (List.tail_suffix _), .inr h1⟩
  · rw [h]
    exact .inr ⟨_, rfl, List.tail_suffix _, .inl h0⟩

/-- What a visit of `fat_readdir` makes of the tree: a child under a new name, or nothing. -/
def ReaddirStep (p : Nat) (t t' : Tree) : Prop :=
  t' = t ∨
    (∃ child, child.children = [] ∧ t.find child.name (t.children p) = none ∧ t' = t.grow p child) ∨
    ∃ heap, t' = { t with heap } ∧ heap <:+ t.heap ∧ (t.heap[0]? = some true ∨ t.heap[1]? = some true)

theorem readdirVisit_step (p lba off : Nat) (buf : Bytes) (st : Int × Tree) (d : Disk) :
    readdirVisit p lba off buf st d = .done st d ∨
      ∃ st', readdirVisit p lba off buf st d = .next st' ∧ ReaddirStep p st.2 st'.2 := by
  obtain ⟨k, t⟩ := st
  rw [readdirVisit]
  split
  · exact .inl rfl
  · split
    · exact .inr ⟨_, rfl, Or.inl rfl⟩
    · dsimp only
      split
      · exact .inr ⟨_, rfl, Or.inl rfl⟩
      · rename_i hfind
        obtain ⟨h, -⟩ | ⟨heap, h, hheap, hfail⟩ := fatCreateNode_cases t
          (fatTrimName (deName buf off)) (deSize buf off) (deFlags buf off) (deCluster buf off) lba off
          (some p)
        · rw [h]
          exact .inr ⟨_, rfl, Or.inr (.inl ⟨_, rfl, hfind, rfl⟩)⟩
        · rw [h]
          exact .inr ⟨_, rfl, Or.inr (.inr ⟨heap, rfl, hheap, hfail⟩)⟩

/-- What each step keeps holds of the tree that `fat_readdir` leaves. -/
theorem fatReaddir_keeps (Inv : Tree → Prop) (hstep : ∀ t t', Inv t → ReaddirStep p t t' → Inv t')
    (ht : Inv t) (h : fatReaddir fp fuel p t d = some (k, t', d')) : Reads d d' ∧ Inv t' := by
  have hkeeps : Keeps (readdirVisit p) (fun st : Int × Tree => Inv st.2) fun st => Inv st.2 := by
    intro lba off buf st d hst
    obtain hdone | ⟨st', hnext, hst'⟩ := readdirVisit_step p lba off buf st d
    · exact .inl ⟨st, hdone, hst⟩
    · exact .inr ⟨st', hnext, hstep _ _ hst hst'⟩
  rw [fatReaddir] at h
  cases hw : dirWalk fp (fun st => (-1, st.2)) (readdirVisit p) fuel (t.cluster p) (0, t) d with
  | none =>
    rw [hw] at h
    cases h
  | some r =>
    obtain ⟨r, d₁⟩ := r
    obtain ⟨hreads, hr⟩ := dirWalk_keeps hkeeps hw (fun _ hst => hst) (show Inv ((0 : Int), t).2 from ht)
    rw [hw] at h
    cases r with
    | inl r =>
      cases h
      exact ⟨hreads, hr⟩
    | inr r =>
      cases h
      exact ⟨hreads, hr⟩

theorem fatReaddir_growsAt (hf : t.Fresh) (hp : t.nodes p ≠ none)
    (h : fatReaddir fp fuel p t d = some (k, t', d')) : Reads d d' ∧ GrowsAt p t t' := by
  refine fatReaddir_keeps (GrowsAt p t) (fun t₁ t₂ hg hst => ?_) (.refl hf) h
  obtain rfl | ⟨child, hch, -, rfl⟩ | ⟨heap, rfl, hheap, -⟩ := hst
  · exact hg
  · obtain ⟨dir, hdir⟩ := Option.ne_none_iff_exists'.mp hp
    obtain ⟨cs, hcs⟩ := hg.dir dir hdir
    exact hg.trans (.grow hg.fresh hcs hch)
  · exact hg.trans (.of_heap hg.fresh hheap)

-- ---------------------------------------------------------------------------
-- Resolving
-- ---------------------------------------------------------------------------

structure Grows (t t' : Tree) : Prop where
  fresh : t'.Fresh
  heap : t'.heap <:+ t.heap
  nextNode : t.nextNode ≤ t'.nextNode
  root : t'.root = t.root
  nodes : ∀ n node, t.nodes n = some node → ∃ cs, t'.nodes n = some { node with children := cs } ∧
    (node.children ≠ [] → cs = node.children)

theorem Grows.refl (hf : t.Fresh) : Grows t t where
  fresh := hf
  heap := List.suffix_refl _
  nextNode := Nat.le_refl _
  root := rfl
  nodes _ node h := ⟨node.children, h, fun _ => rfl⟩

theorem Grows.trans (h : Grows t t') (h' : Grows t' t'') : Grows t t'' where
  fresh := h'.fresh
  heap := h'.heap.trans h.heap
  nextNode := Nat.le_trans h.nextNode h'.nextNode
  root := h'.root.trans h.root
  nodes n node hn := by
    obtain ⟨cs, hcs, hkeep⟩ := h.nodes n node hn
    obtain ⟨cs', hcs', hkeep'⟩ := h'.nodes n _ hcs
    refine ⟨cs', hcs', fun hne => ?_⟩
    obtain rfl := hkeep hne
    exact hkeep' hne

theorem GrowsAt.grows (h : GrowsAt p t t') (hempty : t.children p = []) : Grows t t' where
  fresh := h.fresh
  heap := h.heap
  nextNode := h.nextNode
  root := h.root
  nodes n node hn := by
    by_cases hnp : n = p
    · subst hnp
      obtain ⟨cs, hcs⟩ := h.dir node hn
      rw [Tree.children_eq hn] at hempty
      exact ⟨cs, hcs, fun hne => absurd hempty hne⟩
    · refine ⟨node.children, ?_, fun _ => rfl⟩
      rw [h.others n hnp (by rw [hn]; exact Option.some_ne_none _), hn]

theorem Tree.hasFlag_eq (h : t.nodes n = some node) (flag : Nat) :
    t.hasFlag n flag = decide (node.flags &&& flag ≠ 0) := by
  rw [Tree.hasFlag, h]
  rfl

theorem Tree.exists_of_hasFlag (h : t.hasFlag n flag = true) : ∃ node, t.nodes n = some node := by
  rw [Tree.hasFlag] at h
  cases hn : t.nodes n with
  | none => simp [hn] at h
  | some node => exact ⟨node, rfl⟩

theorem Grows.hasFlag (h : Grows t t') (hn : t.nodes n = some node) (flag : Nat) :
    t'.hasFlag n flag = t.hasFlag n flag := by
  obtain ⟨cs, hcs, -⟩ := h.nodes n node hn
  rw [Tree.hasFlag_eq hcs, Tree.hasFlag_eq hn]

theorem Grows.cluster (h : Grows t t') (hn : t.nodes n = some node) : t'.cluster n = t.cluster n := by
  obtain ⟨cs, hcs, -⟩ := h.nodes n node hn
  rw [Tree.cluster, Tree.cluster, hcs, hn]
  rfl

-- ---------------------------------------------------------------------------
-- The rule for resolving
-- ---------------------------------------------------------------------------

/-- What holds of reading a directory without children, and of one step after the other. -/
structure LoadRule (fp : FatPrivate) (fuel : Nat) (R : Tree → Disk → Tree → Disk → Prop) : Prop where
  refl : ∀ t d, R t d t d
  trans : ∀ t d t' d' t'' d'', R t d t' d' → R t' d' t'' d'' → R t d t'' d''
  read : ∀ n t d k t' d', t.nodes n ≠ none → t.children n = [] →
    fatReaddir fp fuel n t d = some (k, t', d') → R t d t' d'

def Loads (fp : FatPrivate) (fuel : Nat) (t : Tree) (d : Disk) (t' : Tree) (d' : Disk) : Prop :=
  ∀ R, LoadRule fp fuel R → R t d t' d'

theorem Loads.refl : Loads fp fuel t d t d := fun _ hR => hR.refl t d

theorem Loads.trans (h : Loads fp fuel t d t' d') (h' : Loads fp fuel t' d' t'' d'') :
    Loads fp fuel t d t'' d'' := fun R hR => hR.trans _ _ _ _ _ _ (h R hR) (h' R hR)

section Rule

variable {R : Tree → Disk → Tree → Disk → Prop}

theorem LoadRule.load (hR : LoadRule fp fuel R) (hn : t.nodes n ≠ none)
    (h : vfsLoad fp fuel n t d = some (t', d')) : R t d t' d' := by
  rw [vfsLoad] at h
  split at h
  · rename_i hempty
    obtain ⟨⟨k, r⟩, hr, heq⟩ := Option.map_eq_some_iff.mp h
    cases heq
    exact hR.read _ _ _ _ _ _ hn hempty hr
  · cases h
    exact hR.refl _ _

theorem Tree.ne_none_of_hasFlag (h : t.hasFlag n flag = true) : t.nodes n ≠ none := by
  obtain ⟨node, hn⟩ := Tree.exists_of_hasFlag h
  rw [hn]
  exact Option.some_ne_none _

theorem LoadRule.walk (hR : LoadRule fp fuel R)
    (h : vfsWalk fp fuel parts n t d = some (r, t', d')) : R t d t' d' := by
  induction parts generalizing n t d with
  | nil =>
    cases h
    exact hR.refl _ _
  | cons part parts ih =>
    rw [vfsWalk] at h
    split at h
    · rename_i hdir
      cases hload : vfsLoad fp fuel n t d with
      | none =>
        rw [hload] at h
        cases h
      | some r₁ =>
        obtain ⟨t₁, d₁⟩ := r₁
        have hfirst := hR.load (Tree.ne_none_of_hasFlag hdir) hload
        rw [hload] at h
        dsimp only at h
        split at h
        · cases h
          exact hfirst
        · exact hR.trans _ _ _ _ _ _ hfirst (ih h)
    · cases h
      exact hR.refl _ _

theorem LoadRule.resolve (hR : LoadRule fp fuel R)
    (h : vfsResolve fp fuel path t d = some (r, t', d')) : R t d t' d' := by
  rw [vfsResolve] at h
  split at h
  · cases h
    exact hR.refl _ _
  · exact hR.walk h

theorem vfsParent_some (h : vfsParent fp fuel rest t d = some (some (p, name), t', d')) :
    ∃ parentPath t₁ d₁, vfsSplitParent rest = some (parentPath, name) ∧
      vfsResolve fp fuel parentPath t d = some (some p, t₁, d₁) ∧ t₁.hasFlag p VFS_DIR = true ∧
      vfsLoad fp fuel p t₁ d₁ = some (t', d') := by
  rw [vfsParent] at h
  split at h
  · cases h
  · rename_i parentPath name' hsplit
    rcases hres : vfsResolve fp fuel parentPath t d with _ | ⟨_ | parent, t₁, d₁⟩
    · rw [hres] at h
      cases h
    · rw [hres] at h
      cases h
    · rw [hres] at h
      dsimp only at h
      split at h
      · rename_i hdir
        obtain ⟨⟨t₂, d₂⟩, hload, heq⟩ := Option.map_eq_some_iff.mp h
        cases heq
        exact ⟨parentPath, t₁, d₁, hsplit, hres, hdir, hload⟩
      · cases h

theorem LoadRule.parent (hR : LoadRule fp fuel R)
    (h : vfsParent fp fuel rest t d = some (r, t', d')) : R t d t' d' := by
  cases r with
  | some r =>
    obtain ⟨p, name⟩ := r
    obtain ⟨parentPath, t₁, d₁, -, hres, hdir, hload⟩ := vfsParent_some h
    exact hR.trans _ _ _ _ _ _ (hR.resolve hres) (hR.load (Tree.ne_none_of_hasFlag hdir) hload)
  | none =>
    rw [vfsParent] at h
    split at h
    · cases h
      exact hR.refl _ _
    · rename_i parentPath name _
      rcases hres : vfsResolve fp fuel parentPath t d with _ | ⟨_ | parent, t₁, d₁⟩
      · rw [hres] at h
        cases h
      · rw [hres] at h
        cases h
        exact hR.resolve hres
      · rw [hres] at h
        dsimp only at h
        split at h
        · obtain ⟨r, -, heq⟩ := Option.map_eq_some_iff.mp h
          cases heq
        · cases h
          exact hR.resolve hres

theorem vfsResolve_loads (h : vfsResolve fp fuel path t d = some (r, t', d')) :
    Loads fp fuel t d t' d' := fun _ hR => hR.resolve h

theorem vfsParent_loads (h : vfsParent fp fuel rest t d = some (r, t', d')) :
    Loads fp fuel t d t' d' := fun _ hR => hR.parent h

end Rule

-- ---------------------------------------------------------------------------
-- What stays
-- ---------------------------------------------------------------------------

theorem grows_rule (fp : FatPrivate) (fuel : Nat) :
    LoadRule fp fuel fun t d t' d' => t.Fresh → Reads d d' ∧ Grows t t' where
  refl _ _ hf := ⟨.refl _, .refl hf⟩
  trans t d t' d' t'' d'' h h' hf := by
    obtain ⟨hreads, hgrows⟩ := h hf
    obtain ⟨hreads', hgrows'⟩ := h' hgrows.fresh
    exact ⟨hreads.trans hreads', hgrows.trans hgrows'⟩
  read n t d k t' d' hn hempty h hf := by
    obtain ⟨hreads, hgrows⟩ := fatReaddir_growsAt hf hn h
    exact ⟨hreads, hgrows.grows hempty⟩

theorem vfsLoad_grows (hf : t.Fresh) (hp : t.nodes p = some dir)
    (h : vfsLoad fp fuel p t d = some (t', d')) : Reads d d' ∧ Grows t t' := by
  refine (grows_rule fp fuel).load ?_ h hf
  rw [hp]
  exact Option.some_ne_none _

theorem vfsResolve_grows (hf : t.Fresh) (h : vfsResolve fp fuel path t d = some (r, t', d')) :
    Reads d d' ∧ Grows t t' := (grows_rule fp fuel).resolve h hf

theorem vfsParent_grows (hf : t.Fresh) (h : vfsParent fp fuel rest t d = some (r, t', d')) :
    (Reads d d' ∧ Grows t t') ∧ ∀ p name, r = some (p, name) →
      ∃ dir, t'.nodes p = some dir ∧ t'.hasFlag p VFS_DIR = true := by
  refine ⟨(grows_rule fp fuel).parent h hf, fun p name hr => ?_⟩
  subst hr
  obtain ⟨parentPath, t₁, d₁, -, hres, hdir, hload⟩ := vfsParent_some h
  obtain ⟨-, hgrows⟩ := vfsResolve_grows hf hres
  obtain ⟨dir, hn⟩ := Tree.exists_of_hasFlag hdir
  obtain ⟨-, hgrows'⟩ := vfsLoad_grows hgrows.fresh hn hload
  obtain ⟨cs, hcs, -⟩ := hgrows'.nodes p dir hn
  refine ⟨_, hcs, ?_⟩
  rw [hgrows'.hasFlag hn]
  exact hdir

end EponaOS.Fs
