import EponaOS.Fs.DirSlots
import EponaOS.Fs.FatCopies

/-!
# Listing a directory

What `fat_readdir` adds to the children of a node: one node for each entry that a walk comes to
before the end mark and does not pass over. The names that the entries are shown under decide;
a second walk finds all of them and adds nothing.
-/

namespace EponaOS.Fs

open Bytes

-- ---------------------------------------------------------------------------
-- Trees that grow
-- ---------------------------------------------------------------------------

/-- Numbers from `nextNode` on are not in use. -/
structure Tree.Fresh (t : Tree) : Prop where
  free : ∀ n, t.nextNode ≤ n → t.nodes n = none
  children : ∀ n node, t.nodes n = some node → ∀ c ∈ node.children, c < t.nextNode

/-- `kmalloc` does not fail. -/
def Plenty (heap : List Bool) : Prop := ∀ f ∈ heap, f = false

/-- The tree with a new node, as `fat_create_node` leaves it. -/
def Tree.addNode (t : Tree) (node : VfsNode) : Tree :=
  { t.setNode t.nextNode node with heap := t.heap.tail.tail, nextNode := t.nextNode + 1 }

def Tree.grow (t : Tree) (parent : Nat) (child : VfsNode) : Tree :=
  (t.addNode child).addChild parent t.nextNode

variable {t t' : Tree} {node child dir : VfsNode} {n p : Nat} {name : CStr}
  {sectors : Nat → Bytes} {slots live : List (Nat × Nat)} {s : Nat × Nat}

theorem kmalloc_plenty (h : Plenty heap) : kmalloc heap = (true, heap.tail) := by
  cases heap with
  | nil => rfl
  | cons f heap =>
    rw [h f List.mem_cons_self]
    rfl

theorem Plenty.tail (h : Plenty heap) : Plenty heap.tail :=
  fun f hf => h f (List.mem_of_mem_tail hf)

theorem fatCreateNode_plenty (h : Plenty t.heap) (name : CStr) (size flags cluster lba off : Nat)
    (parent : Option Nat) :
    fatCreateNode t name size flags cluster lba off parent = (some t.nextNode,
      t.addNode ⟨name, size, flags, cluster, lba, off, parent, []⟩) := by
  rw [fatCreateNode, kmalloc_plenty h]
  dsimp only
  rw [kmalloc_plenty h.tail]
  rfl

theorem Tree.grow_eq (hf : t.Fresh) (hp : t.nodes p = some dir) (child : VfsNode) :
    t.grow p child = (t.addNode child).setNode p { dir with children := t.nextNode :: dir.children } := by
  have hne : p ≠ t.nextNode := by
    rintro rfl
    rw [hf.free _ (Nat.le_refl _)] at hp
    cases hp
  have hnode : (t.addNode child).nodes p = some dir := by
    rw [← hp]
    exact if_neg hne
  rw [Tree.grow, Tree.addChild, hnode]

theorem Tree.grow_parent (hf : t.Fresh) (hp : t.nodes p = some dir) (child : VfsNode) :
    (t.grow p child).nodes p = some { dir with children := t.nextNode :: dir.children } := by
  rw [Tree.grow_eq hf hp]
  exact if_pos rfl

theorem Tree.grow_new (hf : t.Fresh) (hp : t.nodes p = some dir) (child : VfsNode) :
    (t.grow p child).nodes t.nextNode = some child := by
  have hne : t.nextNode ≠ p := by
    rintro rfl
    rw [hf.free _ (Nat.le_refl _)] at hp
    cases hp
  rw [Tree.grow_eq hf hp]
  exact (if_neg hne).trans (if_pos rfl)

theorem Tree.grow_other (hf : t.Fresh) (hp : t.nodes p = some dir) (child : VfsNode)
    (hn : n ≠ t.nextNode) (hnp : n ≠ p) : (t.grow p child).nodes n = t.nodes n := by
  rw [Tree.grow_eq hf hp]
  exact (if_neg hnp).trans (if_neg hn)

theorem Tree.grow_nextNode (hf : t.Fresh) (hp : t.nodes p = some dir) (child : VfsNode) :
    (t.grow p child).nextNode = t.nextNode + 1 := by
  rw [Tree.grow_eq hf hp]
  rfl

theorem Tree.grow_heap (hf : t.Fresh) (hp : t.nodes p = some dir) (child : VfsNode) :
    (t.grow p child).heap = t.heap.tail.tail := by
  rw [Tree.grow_eq hf hp]
  rfl

theorem Tree.Fresh.grow (hf : t.Fresh) (hp : t.nodes p = some dir) (hc : child.children = []) :
    (t.grow p child).Fresh := by
  constructor
  · intro n hn
    rw [Tree.grow_nextNode hf hp] at hn
    have hne : n ≠ p := by
      rintro rfl
      rw [hf.free n (by omega)] at hp
      cases hp
    rw [Tree.grow_other hf hp child (by omega) hne]
    exact hf.free n (by omega)
  · intro n node hn c hcn
    rw [Tree.grow_nextNode hf hp]
    by_cases hnew : n = t.nextNode
    · subst hnew
      rw [Tree.grow_new hf hp] at hn
      cases hn
      rw [hc] at hcn
      cases hcn
    · by_cases hnp : n = p
      · subst hnp
        rw [Tree.grow_parent hf hp] at hn
        cases hn
        obtain rfl | hcn := List.mem_cons.mp hcn
        · exact Nat.lt_succ_self _
        · exact Nat.lt_succ_of_lt (hf.children n dir hp c hcn)
      · rw [Tree.grow_other hf hp child hnew hnp] at hn
        exact Nat.lt_succ_of_lt (hf.children n node hn c hcn)

theorem Tree.find_eq_none {cs : List Nat} : t.find name cs = none ↔
    ∀ c ∈ cs, ∀ node, t.nodes c = some node → node.name ≠ name := by
  rw [Tree.find, List.find?_eq_none]
  refine forall₂_congr fun c _ => ?_
  cases t.nodes c <;> simp

theorem Tree.children_eq (h : t.nodes n = some node) : t.children n = node.children := by
  rw [Tree.children, h]
  rfl

-- ---------------------------------------------------------------------------
-- The entries that are listed
-- ---------------------------------------------------------------------------

def liveSlots (sectors : Nat → Bytes) (slots : List (Nat × Nat)) : List (Nat × Nat) :=
  (slots.takeWhile fun s => sectors s.1 s.2 ≠ 0).filter fun s => ¬ deSkipped (sectors s.1) s.2

def slotName (sectors : Nat → Bytes) (s : Nat × Nat) : CStr := fatTrimName (deName (sectors s.1) s.2)

def slotNode (sectors : Nat → Bytes) (parent : Nat) (s : Nat × Nat) : VfsNode where
  name := slotName sectors s
  size := deSize (sectors s.1) s.2
  flags := deFlags (sectors s.1) s.2
  cluster := deCluster (sectors s.1) s.2
  dirLba := s.1
  dirOff := s.2
  parent := some parent
  children := []

theorem liveSlots_end (h : sectors s.1 s.2 = 0) : liveSlots sectors (s :: slots) = [] := by
  simp [liveSlots, h]

theorem liveSlots_skip (h : sectors s.1 s.2 ≠ 0) (hs : deSkipped (sectors s.1) s.2 = true) :
    liveSlots sectors (s :: slots) = liveSlots sectors slots := by
  simp [liveSlots, h, hs]

theorem liveSlots_live (h : sectors s.1 s.2 ≠ 0) (hs : ¬ deSkipped (sectors s.1) s.2 = true) :
    liveSlots sectors (s :: slots) = s :: liveSlots sectors slots := by
  simp [liveSlots, h, hs]

structure Listed (sectors : Nat → Bytes) (p : Nat) (live : List (Nat × Nat)) (t t' : Tree) : Prop where
  fresh : t'.Fresh
  plenty : Plenty t'.heap
  nextNode : t'.nextNode = t.nextNode + live.length
  root : t'.root = t.root
  dir : ∀ dir, t.nodes p = some dir → t'.nodes p = some { dir with
    children := (List.range' t.nextNode live.length).reverse ++ dir.children }
  nodes : ∀ i (h : i < live.length),
    t'.nodes (t.nextNode + i) = some (slotNode sectors p (live.get ⟨i, h⟩))
  others : ∀ n, n < t.nextNode → n ≠ p → t'.nodes n = t.nodes n

theorem Listed.refl (hf : t.Fresh) (hheap : Plenty t.heap) : Listed sectors p [] t t where
  fresh := hf
  plenty := hheap
  nextNode := rfl
  root := rfl
  dir _ h := h
  nodes i h := absurd h (Nat.not_lt_zero i)
  others _ _ _ := rfl

theorem Listed.cons (hf : t.Fresh) (hp : t.nodes p = some dir)
    (h : Listed sectors p live (t.grow p (slotNode sectors p s)) t') :
    Listed sectors p (s :: live) t t' := by
  have hlt : p < t.nextNode := by
    by_contra hle
    rw [hf.free p (Nat.le_of_not_lt hle)] at hp
    cases hp
  have hnext := Tree.grow_nextNode hf hp (slotNode sectors p s)
  refine ⟨h.fresh, h.plenty, ?_, ?_, fun dir' hdir => ?_, fun i hi => ?_, fun n hn hne => ?_⟩
  · rw [h.nextNode, hnext, List.length_cons, Nat.add_assoc, Nat.add_comm 1]
  · rw [h.root, Tree.grow_eq hf hp]
    rfl
  · obtain rfl : dir = dir' := Option.some.inj (hp.symm.trans hdir)
    rw [h.dir _ (Tree.grow_parent hf hp _), hnext]
    simp [List.range'_succ]
  · cases i with
    | zero =>
      rw [Nat.add_zero, h.others _ (by omega) (Nat.ne_of_gt hlt), Tree.grow_new hf hp]
      rfl
    | succ i =>
      have hi' : i < live.length := by simpa using hi
      rw [← Nat.add_assoc, Nat.add_right_comm, ← hnext, h.nodes i hi']
      rfl
  · rw [h.others n (by omega) hne, Tree.grow_other hf hp _ (Nat.ne_of_lt hn) hne]

-- ---------------------------------------------------------------------------
-- The walk of `fat_readdir`
-- ---------------------------------------------------------------------------

variable {d : Disk} {k : Int}

def EndsWith (r : (Int × Tree ⊕ Int × Tree) × Disk) (k : Int) (t : Tree) (d : Disk) : Prop :=
  r = (.inl (k, t), d) ∨ r = (.inr (k, t), d)

theorem count_succ (k : Int) (n : Nat) : k + ((n + 1 : Nat) : Int) = k + 1 + n := by omega

theorem readdir_skip (h : d.sectors s.1 s.2 ≠ 0) (hs : deSkipped (d.sectors s.1) s.2 = true) :
    visitSlots (readdirVisit p) d (s :: slots) (k, t) =
      visitSlots (readdirVisit p) d slots (k, t) := by
  rw [visitSlots, readdirVisit, if_neg h, if_pos hs]

theorem readdir_known (h : d.sectors s.1 s.2 ≠ 0) (hs : ¬ deSkipped (d.sectors s.1) s.2 = true)
    (hfind : t.find (slotName d.sectors s) (t.children p) ≠ none) :
    visitSlots (readdirVisit p) d (s :: slots) (k, t) =
      visitSlots (readdirVisit p) d slots (k + 1, t) := by
  obtain ⟨c, hc⟩ := Option.ne_none_iff_exists'.mp hfind
  rw [slotName] at hc
  rw [visitSlots, readdirVisit, if_neg h, if_neg hs]
  dsimp only
  rw [hc]

theorem readdir_new (h : d.sectors s.1 s.2 ≠ 0) (hs : ¬ deSkipped (d.sectors s.1) s.2 = true)
    (hfind : t.find (slotName d.sectors s) (t.children p) = none) (hheap : Plenty t.heap) :
    visitSlots (readdirVisit p) d (s :: slots) (k, t) =
      visitSlots (readdirVisit p) d slots (k + 1, t.grow p (slotNode d.sectors p s)) := by
  rw [slotName] at hfind
  rw [visitSlots, readdirVisit, if_neg h, if_neg hs]
  dsimp only
  rw [hfind, fatCreateNode_plenty hheap]
  rfl

theorem Tree.find_grow (hf : t.Fresh) (hp : t.nodes p = some dir) (hne : child.name ≠ name)
    (h : t.find name (t.children p) = none) :
    (t.grow p child).find name ((t.grow p child).children p) = none := by
  rw [Tree.children_eq (Tree.grow_parent hf hp child), Tree.find_eq_none]
  rw [Tree.children_eq hp, Tree.find_eq_none] at h
  intro c hc node hnode
  obtain rfl | hc := List.mem_cons.mp hc
  · rw [Tree.grow_new hf hp] at hnode
    cases hnode
    exact hne
  · have hlt := hf.children p dir hp c hc
    by_cases hcp : c = p
    · subst hcp
      rw [Tree.grow_parent hf hp] at hnode
      cases hnode
      exact h c hc dir hp
    · rw [Tree.grow_other hf hp child (Nat.ne_of_lt hlt) hcp] at hnode
      exact h c hc node hnode

theorem readdir_adds (hf : t.Fresh) (hp : t.nodes p = some dir) (hheap : Plenty t.heap)
    (hnames : ((liveSlots d.sectors slots).map (slotName d.sectors)).Nodup)
    (hnew : ∀ s ∈ liveSlots d.sectors slots, t.find (slotName d.sectors s) (t.children p) = none) :
    ∃ t', Listed d.sectors p (liveSlots d.sectors slots) t t' ∧
      EndsWith (visitSlots (readdirVisit p) d slots (k, t))
        (k + (liveSlots d.sectors slots).length) t' d := by
  induction slots generalizing t dir k with
  | nil => exact ⟨t, .refl hf hheap, .inr (by simp [visitSlots, liveSlots])⟩
  | cons s slots ih =>
    by_cases h0 : d.sectors s.1 s.2 = 0
    · rw [liveSlots_end h0]
      refine ⟨t, .refl hf hheap, .inl ?_⟩
      rw [visitSlots, readdirVisit, if_pos h0]
      simp
    · by_cases hs : deSkipped (d.sectors s.1) s.2 = true
      · rw [liveSlots_skip h0 hs] at hnames hnew ⊢
        rw [readdir_skip h0 hs]
        exact ih hf hp hheap hnames hnew
      · rw [liveSlots_live h0 hs] at hnames hnew ⊢
        obtain ⟨hfirst, hrest⟩ := List.nodup_cons.mp hnames
        rw [readdir_new h0 hs (hnew s List.mem_cons_self) hheap]
        have hheap' : Plenty (t.grow p (slotNode d.sectors p s)).heap := by
          rw [Tree.grow_heap hf hp]
          exact hheap.tail.tail
        obtain ⟨t', hlist, hend⟩ := ih (k := k + 1) (hf.grow hp rfl) (Tree.grow_parent hf hp _) hheap'
          hrest fun x hx => Tree.find_grow hf hp
            (fun he => hfirst (List.mem_map.mpr ⟨x, hx, he.symm⟩)) (hnew x (List.mem_cons_of_mem _ hx))
        refine ⟨t', hlist.cons hf hp, ?_⟩
        rwa [List.length_cons, count_succ]

theorem readdir_finds (hold : ∀ s ∈ liveSlots d.sectors slots,
    t.find (slotName d.sectors s) (t.children p) ≠ none) :
    EndsWith (visitSlots (readdirVisit p) d slots (k, t))
      (k + (liveSlots d.sectors slots).length) t d := by
  induction slots generalizing k with
  | nil => exact .inr (by simp [visitSlots, liveSlots])
  | cons s slots ih =>
    by_cases h0 : d.sectors s.1 s.2 = 0
    · rw [liveSlots_end h0]
      refine .inl ?_
      rw [visitSlots, readdirVisit, if_pos h0]
      simp
    · by_cases hs : deSkipped (d.sectors s.1) s.2 = true
      · rw [liveSlots_skip h0 hs] at hold ⊢
        rw [readdir_skip h0 hs]
        exact ih hold
      · rw [liveSlots_live h0 hs] at hold ⊢
        rw [readdir_known h0 hs (hold s List.mem_cons_self), List.length_cons, count_succ]
        exact ih fun x hx => hold x (List.mem_cons_of_mem _ hx)

-- ---------------------------------------------------------------------------
-- `fat_readdir`
-- ---------------------------------------------------------------------------

variable {fp : FatPrivate} {l : List Nat}

theorem fatReaddir_returns (hg : Geometry fp) (hd : NoFaults d) (hp : t.nodes p = some dir)
    (hl : FatChain fp d.image dir.cluster l) {k : Int}
    (h : EndsWith (visitSlots (readdirVisit p) d (dirSlots fp l) (0, t)) k t' d) :
    Returns (fun fuel => fatReaddir fp fuel p t d) (k, t', d) := by
  have hc : t.cluster p = dir.cluster := by
    rw [Tree.cluster, hp]
    rfl
  have hwalk : Returns (fun fuel => dirWalk fp (fun st => (-1, st.2)) (readdirVisit p) fuel
      (t.cluster p) (0, t) d) (visitSlots (readdirVisit p) d (dirSlots fp l) (0, t)) := by
    rw [hc]
    exact dirWalk_slots hg hd hl (0, t)
  obtain ⟨N, hN⟩ := hwalk
  refine ⟨N, fun fuel hfuel => ?_⟩
  have hfuel := hN fuel hfuel
  dsimp only at hfuel ⊢
  rw [fatReaddir, hfuel]
  obtain h | h := h <;> rw [h]

def listing (fp : FatPrivate) (d : Disk) (l : List Nat) : List (Nat × Nat) :=
  liveSlots d.sectors (dirSlots fp l)

theorem Listed.children (h : Listed sectors p live t t') (hp : t.nodes p = some dir)
    (hempty : dir.children = []) :
    t'.children p = (List.range' t.nextNode live.length).reverse := by
  rw [Tree.children_eq (h.dir dir hp), hempty, List.append_nil]

theorem Listed.children_nodes (h : Listed sectors p live t t') (hp : t.nodes p = some dir)
    (hempty : dir.children = []) :
    (t'.children p).map t'.nodes = (live.map fun s => some (slotNode sectors p s)).reverse := by
  rw [h.children hp hempty, List.map_reverse]
  congr 1
  apply List.ext_getElem
  · simp
  · intro i hi _
    have hlt : i < live.length := by simpa using hi
    simpa using h.nodes i hlt

theorem Listed.children_nodup (h : Listed sectors p live t t') (hp : t.nodes p = some dir)
    (hempty : dir.children = []) : (t'.children p).Nodup := by
  rw [h.children hp hempty, List.nodup_reverse]
  exact List.nodup_range'

theorem Listed.find (h : Listed sectors p live t t') (hp : t.nodes p = some dir)
    (hempty : dir.children = []) (hs : s ∈ live) :
    t'.find (slotName sectors s) (t'.children p) ≠ none := by
  intro hnone
  have hmem : some (slotNode sectors p s) ∈ (t'.children p).map t'.nodes := by
    rw [h.children_nodes hp hempty, List.mem_reverse]
    exact List.mem_map.mpr ⟨s, hs, rfl⟩
  obtain ⟨c, hc, hnode⟩ := List.mem_map.mp hmem
  exact Tree.find_eq_none.mp hnone c hc _ hnode rfl

/-- On a directory whose children are not loaded, `fat_readdir` makes one child for each entry
that is listed, out of this very slot, and when it is called again it makes none. -/
theorem fatReaddir_exact (hg : Geometry fp) (hd : NoFaults d) (hf : t.Fresh)
    (hp : t.nodes p = some dir) (hempty : dir.children = [])
    (hl : FatChain fp d.image dir.cluster l) (hheap : Plenty t.heap)
    (hnames : ((listing fp d l).map (slotName d.sectors)).Nodup) :
    ∃ t', Returns (fun fuel => fatReaddir fp fuel p t d) ((listing fp d l).length, t', d) ∧
      t'.nodes p = some { dir with children := t'.children p } ∧
      (t'.children p).map t'.nodes =
        ((listing fp d l).map fun s => some (slotNode d.sectors p s)).reverse ∧
      (t'.children p).Nodup ∧
      (∀ n, n ≠ p → t.nodes n ≠ none → t'.nodes n = t.nodes n) ∧
      Returns (fun fuel => fatReaddir fp fuel p t' d) ((listing fp d l).length, t', d) := by
  have hnew : ∀ s ∈ listing fp d l, t.find (slotName d.sectors s) (t.children p) = none := by
    intro s _
    rw [Tree.children_eq hp, hempty]
    rfl
  obtain ⟨t', hlist, hend⟩ := readdir_adds (k := 0) hf hp hheap hnames hnew
  rw [Int.zero_add] at hend
  have hp' := hlist.dir dir hp
  have hchildren := Tree.children_eq hp'
  refine ⟨t', fatReaddir_returns hg hd hp hl hend, ?_, hlist.children_nodes hp hempty,
    hlist.children_nodup hp hempty, fun n hne hn => hlist.others n ?_ hne, ?_⟩
  · rw [hchildren]
    exact hp'
  · by_contra hle
    exact hn (hf.free n (Nat.le_of_not_lt hle))
  · refine fatReaddir_returns hg hd hp' hl ?_
    rw [← Int.zero_add (List.length _ : Int)]
    exact readdir_finds fun s hs => hlist.find hp hempty hs

/-- The root directory has the clusters 2 and 5: in the first one all entries but one are
deleted, in the second one there is a directory and the end mark. -/
def listedDisk : Disk where
  sectors n :=
    if n = 1 ∨ n = 2 then putLE (putLE (fun _ => 0) 8 4 5) 20 4 FAT_EOC
    else if n = 3 then putDirent (fun _ => 0xE5) 96 (pad 11 (cstr ['A'])) FAT_ATTR_ARCHIVE 3
    else if n = 6 then putDirent (fun _ => 0) 0 (pad 11 (cstr ['B'])) FAT_ATTR_DIR 4
    else fun _ => 0
  faults := []

theorem mirrored_layout : Geometry mirroredFp := by
  constructor <;> decide

theorem rootTree_fresh (bpb : FatBpb) : (rootTree bpb).Fresh := by
  constructor
  · intro n hn
    exact if_neg (Nat.ne_of_gt hn)
  · intro n node hn c hc
    simp only [rootTree] at hn
    split at hn
    · cases hn
      cases hc
    · cases hn

theorem listed_chain : FatChain mirroredFp listedDisk.image 2 [2, 5] := by
  refine ⟨.link (by decide) ?_, fun x hx => ?_⟩
  · have h2 : fatEntry mirroredFp listedDisk.image 2 = 5 := by decide +kernel
    rw [h2]
    exact .link (by decide) (.nil (by decide +kernel))
  · simp only [List.mem_cons, List.not_mem_nil, or_false] at hx
    obtain rfl | rfl := hx <;> exact ⟨by decide, by decide⟩

theorem listed_listing : listing mirroredFp listedDisk [2, 5] = [(3, 96), (6, 0)] := by
  decide +kernel

theorem listed_root : ∃ t', Returns (fun fuel => fatReaddir mirroredFp fuel 0
    (rootTree mirroredFp.bpb) listedDisk) (2, t', listedDisk) ∧
    (t'.children 0).map t'.nodes =
      [some (slotNode listedDisk.sectors 0 (6, 0)), some (slotNode listedDisk.sectors 0 (3, 96))] := by
  obtain ⟨t', hret, -, hchildren, -⟩ := fatReaddir_exact (p := 0) mirrored_layout
    (show NoFaults listedDisk from rfl) (rootTree_fresh mirroredFp.bpb) rfl rfl listed_chain
    (fun _ hf => absurd hf (by simp [rootTree])) (by rw [listed_listing]; decide +kernel)
  rw [listed_listing] at hret hchildren
  exact ⟨t', hret, hchildren⟩

end EponaOS.Fs
