import EponaOS.Fs.VolumeSteps

/-!
# The tree in memory and the volume

The nodes that the root leads to by other names than `.` and `..`. Each stands for the root of the
volume or for one of its entries, and no two stand for the same. Reading a directory without
children keeps this, and so do changes of the volume that leave what the nodes stand for.
-/

namespace EponaOS.Fs

open Bytes

variable {fp : FatPrivate} {hg : Geometry fp} {d d' : Disk} {m m' : Bytes} {t t' : Tree}
  {node dir child : VfsNode} {n n' p c fuel : Nat} {st st' : Volume.Start} {s s₀ : Volume.Slot}
  {l : List Nat} {o : Option Nat} {name part path : CStr} {parts : List CStr}

-- ---------------------------------------------------------------------------
-- Nodes and what they stand for
-- ---------------------------------------------------------------------------

def DotName (name : CStr) : Prop := name = cstr ['.'] ∨ name = cstr ['.', '.']

instance (name : CStr) : Decidable (DotName name) := inferInstanceAs (Decidable (_ ∨ _))

/-- The nodes that the root leads to by other names, with what their places say they stand for. -/
inductive Attached (hg : Geometry fp) (t : Tree) : Nat → Volume.Start → Prop
  | root {r : Nat} : t.root = some r → Attached hg t r .root
  | child {p c : Nat} {st : Volume.Start} {s : Volume.Slot} {node : VfsNode} : Attached hg t p st →
      t.hasFlag p VFS_DIR = true → c ∈ t.children p → t.nodes c = some node →
      ¬ DotName node.name → (slotAt s).Ok fp → node.At fp (slotAt s) → Attached hg t c (.entry s)

structure Stands (hg : Geometry fp) (m : Bytes) (node : VfsNode) (st : Volume.Start) : Prop where
  flags : node.flags = if (volOf fp m).isDir st then VFS_DIR else VFS_FILE
  cluster : node.cluster = (volOf fp m).first (layout hg) st

structure Cached (hg : Geometry fp) (m : Bytes) (t : Tree) : Prop where
  fresh : t.Fresh
  stands : ∀ n st, Attached hg t n st → Volume.Reached (layout hg) (volOf fp m) st ∧
    ∃ node, t.nodes n = some node ∧ Stands hg m node st
  child : ∀ p st c, Attached hg t p st → t.hasFlag p VFS_DIR = true → c ∈ t.children p →
    ∃ node, t.nodes c = some node ∧ (DotName node.name ∨
      ∃ s, node.At fp (slotAt s) ∧ Volume.InDir (layout hg) (volOf fp m) st s)
  inj : ∀ n n' st, Attached hg t n st → Attached hg t n' st → n = n'
  one : ∀ n st st', Attached hg t n st → Attached hg t n st' → st = st'
  nodup : ∀ p st, Attached hg t p st → t.hasFlag p VFS_DIR = true → (t.children p).Nodup

theorem Stands.isDir (h : Stands hg m node st) (hn : t.nodes n = some node) :
    t.hasFlag n VFS_DIR = (volOf fp m).isDir st := by
  rw [Tree.hasFlag_eq hn, h.flags]
  cases (volOf fp m).isDir st <;> decide

theorem Stands.isFile (h : Stands hg m node st) (hn : t.nodes n = some node)
    (hfile : t.hasFlag n VFS_FILE = true) : (volOf fp m).isDir st = false := by
  rw [Tree.hasFlag_eq hn, h.flags] at hfile
  cases hdir : (volOf fp m).isDir st with
  | false => rfl
  | true =>
    rw [hdir] at hfile
    exact absurd hfile (by decide)

theorem VfsNode.At.unique (h : node.At fp (slotAt s)) (h' : node.At fp (slotAt s₀))
    (hg : Geometry fp) (hs : (slotAt s).Ok fp) (hs₀ : (slotAt s₀).Ok fp) : s = s₀ :=
  slotAt_inj hg hs hs₀ (h.1.symm.trans h'.1) (h.2.symm.trans h'.2)

/-- A child under another name than `.` and `..` has its place in the directory. -/
theorem Cached.inDir (hc : Cached hg m t) (hp : Attached hg t p st)
    (hdir : t.hasFlag p VFS_DIR = true) (hmem : c ∈ t.children p) (hn : t.nodes c = some node)
    (hdot : ¬ DotName node.name) (hok : (slotAt s).Ok fp) (hat : node.At fp (slotAt s)) :
    Volume.InDir (layout hg) (volOf fp m) st s := by
  obtain ⟨node', hn', hdot' | ⟨s', hat', hin⟩⟩ := hc.child p st c hp hdir hmem
  · cases hn.symm.trans hn'
    exact absurd hdot' hdot
  · cases hn.symm.trans hn'
    obtain rfl := hat.unique hat' hg hok hin.valid
    exact hin

/-- A node that is not the root is a child of one that is attached, and stands for an entry
there. -/
theorem Cached.parent (hc : Cached hg m t) (h : Attached hg t n (.entry s)) : ∃ p st node,
    Attached hg t p st ∧ t.hasFlag p VFS_DIR = true ∧ n ∈ t.children p ∧ t.nodes n = some node ∧
      ¬ DotName node.name ∧ node.At fp (slotAt s) ∧
      Volume.InDir (layout hg) (volOf fp m) st s := by
  cases h with
  | @child p _ st _ node hp hdir hmem hn hdot hok hat =>
    exact ⟨p, st, node, hp, hdir, hmem, hn, hdot, hat, hc.inDir hp hdir hmem hn hdot hok hat⟩

/-- A child under another name than `.` and `..` is attached. -/
theorem Cached.link (hc : Cached hg m t) (hp : Attached hg t p st)
    (hdir : t.hasFlag p VFS_DIR = true) (hmem : c ∈ t.children p) (hn : t.nodes c = some node) (hdot : ¬ DotName node.name) :
    ∃ s, Attached hg t c (.entry s) ∧ Volume.InDir (layout hg) (volOf fp m) st s := by
  obtain ⟨node', hn', hdot' | ⟨s, hat, hin⟩⟩ := hc.child p st c hp hdir hmem
  · cases hn.symm.trans hn'
    exact absurd hdot' hdot
  · cases hn.symm.trans hn'
    exact ⟨s, .child hp hdir hmem hn hdot hin.valid hat, hin⟩

theorem Cached.sibling (hc : Cached hg m t) (hs : Volume.Owned (layout hg) (volOf fp m))
    (hp : Attached hg t p st) (hin : Volume.InDir (layout hg) (volOf fp m) st s)
    (h : Attached hg t n (.entry s)) : ∃ node, n ∈ t.children p ∧ t.nodes n = some node ∧
      ¬ DotName node.name ∧ node.At fp (slotAt s) := by
  obtain ⟨q, st', node, hq, -, hmem, hn, hdot, hat, hin'⟩ := hc.parent h
  obtain rfl := hs.one_dir hin hin'
  obtain rfl := hc.inj p q st hp hq
  exact ⟨node, hmem, hn, hdot, hat⟩

-- ---------------------------------------------------------------------------
-- Other trees
-- ---------------------------------------------------------------------------

structure SubTree (t t' : Tree) : Prop where
  root : t'.root = t.root
  nodes : ∀ n node, t.nodes n = some node → ∃ size cs,
    t'.nodes n = some { node with size, children := cs } ∧ node.children ⊆ cs

theorem SubTree.hasFlag (h : SubTree t t') {flag : Nat} (hn : t.hasFlag n flag = true) :
    t'.hasFlag n flag = true := by
  obtain ⟨node, hnode⟩ := Tree.exists_of_hasFlag hn
  obtain ⟨size, cs, hn', -⟩ := h.nodes n node hnode
  rw [Tree.hasFlag_eq hn', ← hn, Tree.hasFlag_eq hnode]

theorem SubTree.children (h : SubTree t t') : t.children n ⊆ t'.children n := by
  intro c hc
  cases hnode : t.nodes n with
  | none =>
    rw [Tree.children, hnode] at hc
    cases hc
  | some node =>
    obtain ⟨size, cs, hn', hsub⟩ := h.nodes n node hnode
    rw [Tree.children_eq hnode] at hc
    rw [Tree.children_eq hn']
    exact hsub hc

theorem Attached.mono (h : Attached hg t n st) (hsub : SubTree t t') : Attached hg t' n st := by
  induction h with
  | root hr => exact .root (hsub.root.trans hr)
  | @child p c st s node _ hdir hmem hn hdot hok hat ih =>
    obtain ⟨size, cs, hn', -⟩ := hsub.nodes c node hn
    exact .child ih (hsub.hasFlag hdir) (hsub.children hmem) hn' hdot hok hat

theorem SubTree.refl (t : Tree) : SubTree t t where
  root := rfl
  nodes _ node hn := ⟨node.size, node.children, hn, List.Subset.refl _⟩

theorem SubTree.trans {t'' : Tree} (h : SubTree t t') (h' : SubTree t' t'') : SubTree t t'' where
  root := h'.root.trans h.root
  nodes n node hn := by
    obtain ⟨size, cs, hn', hsub⟩ := h.nodes n node hn
    obtain ⟨size', cs', hn'', hsub'⟩ := h'.nodes n _ hn'
    exact ⟨size', cs', hn'', fun c hc => hsub' (hsub hc)⟩

theorem SubTree.of_heap (t : Tree) (heap : List Bool) : SubTree t { t with heap } where
  root := rfl
  nodes _ node hn := ⟨node.size, node.children, hn, List.Subset.refl _⟩

theorem Grows.subTree (h : Grows t t') : SubTree t t' where
  root := h.root
  nodes n node hn := by
    obtain ⟨cs, hcs, hkeep⟩ := h.nodes n node hn
    refine ⟨node.size, cs, hcs, fun c hc => ?_⟩
    rw [hkeep (List.ne_nil_of_mem hc)]
    exact hc

structure Pruned (t t' : Tree) : Prop where
  nextNode : t'.nextNode = t.nextNode
  root : t'.root = t.root
  nodes : ∀ n node, t.nodes n = some node → ∃ size cs,
    t'.nodes n = some { node with size, children := cs } ∧ cs.Sublist node.children
  none : ∀ n, t.nodes n = none → t'.nodes n = none

theorem Pruned.subTree (h : Pruned t t') : SubTree t' t where
  root := h.root.symm
  nodes n node hn := by
    cases hnode : t.nodes n with
    | none =>
      rw [h.none n hnode] at hn
      cases hn
    | some node₁ =>
      obtain ⟨size, cs, hn', hsub⟩ := h.nodes n node₁ hnode
      cases hn'.symm.trans hn
      exact ⟨node₁.size, node₁.children, rfl, hsub.subset⟩

theorem Cached.pruned (hc : Cached hg m t) (h : Pruned t t') : Cached hg m t' where
  fresh := by
    constructor
    · intro n hn
      exact h.none n (hc.fresh.free n (h.nextNode ▸ hn))
    · intro n node hn c hcn
      obtain ⟨size, cs, hn', hsub⟩ := h.subTree.nodes n node hn
      rw [h.nextNode]
      exact hc.fresh.children n _ hn' c (hsub hcn)
  stands n st hn := by
    obtain ⟨hst, node, hnode, hstands⟩ := hc.stands n st (hn.mono h.subTree)
    obtain ⟨size, cs, hn', -⟩ := h.nodes n node hnode
    exact ⟨hst, _, hn', hstands.flags, hstands.cluster⟩
  child p st c hp hdir hmem := by
    obtain ⟨node, hnode, hch⟩ := hc.child p st c (hp.mono h.subTree) (h.subTree.hasFlag hdir)
      (h.subTree.children hmem)
    obtain ⟨size, cs, hn', -⟩ := h.nodes c node hnode
    exact ⟨_, hn', hch⟩
  inj n n' st hn hn' := hc.inj n n' st (hn.mono h.subTree) (hn'.mono h.subTree)
  one n st st' hn hn' := hc.one n st st' (hn.mono h.subTree) (hn'.mono h.subTree)
  nodup p st hp hdir := by
    have hflag := h.subTree.hasFlag hdir
    obtain ⟨node, hnode⟩ := Tree.exists_of_hasFlag hflag
    have hnd := hc.nodup p st (hp.mono h.subTree) hflag
    obtain ⟨size, cs, hn', hsub⟩ := h.nodes p node hnode
    rw [Tree.children_eq hnode] at hnd
    rw [Tree.children_eq hn']
    exact hnd.sublist hsub

theorem Pruned.of_heap (t : Tree) (heap : List Bool) : Pruned t { t with heap } where
  nextNode := rfl
  root := rfl
  nodes _ node hn := ⟨node.size, node.children, hn, List.Sublist.refl _⟩
  none _ hn := hn

theorem Pruned.setNode (hn : t.nodes n = some node) (size : Nat) {cs : List Nat}
    (hsub : cs.Sublist node.children) :
    Pruned t (t.setNode n { node with size, children := cs }) where
  nextNode := rfl
  root := rfl
  nodes k node' hk := by
    by_cases hkn : k = n
    · subst hkn
      cases hn.symm.trans hk
      exact ⟨size, cs, if_pos rfl, hsub⟩
    · exact ⟨node'.size, node'.children, (if_neg hkn).trans hk, List.Sublist.refl _⟩
  none k hk := by
    have hkn : k ≠ n := by
      rintro rfl
      rw [hn] at hk
      cases hk
    exact (if_neg hkn).trans hk

theorem Pruned.resize (hn : t.nodes n = some node) (size : Nat) :
    Pruned t (t.setNode n { node with size }) := .setNode hn size (List.Sublist.refl _)

theorem Pruned.refl (t : Tree) : Pruned t t := .of_heap t t.heap

theorem Pruned.truncate (t : Tree) (n : Nat) : Pruned t (t.truncate n) := by
  rw [Tree.truncate]
  split
  · exact .refl t
  · rename_i node hn
    exact .resize hn 0

theorem Pruned.dropChild (t : Tree) (p c : Nat) : Pruned t (t.dropChild p c) := by
  rw [Tree.dropChild]
  split
  · exact .refl t
  · rename_i node hn
    exact .setNode hn node.size List.erase_sublist

theorem Pruned.trans {t'' : Tree} (h : Pruned t t') (h' : Pruned t' t'') : Pruned t t'' where
  nextNode := h'.nextNode.trans h.nextNode
  root := h'.root.trans h.root
  nodes n node hn := by
    obtain ⟨size, cs, hn', hsub⟩ := h.nodes n node hn
    obtain ⟨size', cs', hn'', hsub'⟩ := h'.nodes n _ hn'
    exact ⟨size', cs', hn'', hsub'.trans hsub⟩
  none n hn := h'.none n (h.none n hn)

theorem Pruned.openFile (n : Nat) (t : Tree) : Pruned t (openFile n t).2 := by
  rw [Fs.openFile]
  split <;> exact .of_heap t _

-- ---------------------------------------------------------------------------
-- A new node
-- ---------------------------------------------------------------------------

theorem Attached.of_grow (hf : t.Fresh) (hp : t.nodes p = some dir) (hch : child.children = [])
    (h : Attached hg (t.grow p child) n st) : Attached hg t n st ∨
      (n = t.nextNode ∧ ¬ DotName child.name ∧ ∃ s, st = .entry s ∧ (slotAt s).Ok fp ∧
        child.At fp (slotAt s)) := by
  have hgrow : GrowsAt p t (t.grow p child) := .grow hf hp hch
  induction h with
  | root hr => exact .inl (.root (hgrow.root.symm.trans hr))
  | @child q c st s node _ hdir hmem hn hdot hok hat ih =>
    obtain hq | ⟨rfl, -⟩ := ih
    · by_cases hnew : c = t.nextNode
      · rw [hnew, Tree.grow_new hf hp] at hn
        cases hn
        exact .inr ⟨hnew, hdot, s, rfl, hok, hat⟩
      · obtain ⟨nodeq, hnodeq⟩ := Tree.exists_of_hasFlag hdir
        have hold : t.hasFlag q VFS_DIR = true ∧ c ∈ t.children q := by
          by_cases hqp : q = p
          · subst hqp
            rw [Tree.hasFlag_eq (Tree.grow_parent hf hp child)] at hdir
            rw [Tree.children_eq (Tree.grow_parent hf hp child)] at hmem
            rw [Tree.hasFlag_eq hp, Tree.children_eq hp]
            exact ⟨hdir, (List.mem_cons.mp hmem).resolve_left hnew⟩
          · have hqn : q ≠ t.nextNode := by
              rintro rfl
              rw [Tree.grow_new hf hp] at hnodeq
              cases hnodeq
              rw [Tree.children_eq (Tree.grow_new hf hp child), hch] at hmem
              cases hmem
            have hsame := Tree.grow_other hf hp child hqn hqp
            rw [Tree.hasFlag, hsame] at hdir
            rw [Tree.children, hsame] at hmem
            exact ⟨hdir, hmem⟩
        by_cases hcp : c = p
        · subst hcp
          cases (Tree.grow_parent hf hp child).symm.trans hn
          exact .inl (.child hq hold.1 hold.2 hp hdot hok hat)
        · rw [Tree.grow_other hf hp child hnew hcp] at hn
          exact .inl (.child hq hold.1 hold.2 hn hdot hok hat)
    · rw [Tree.children_eq (Tree.grow_new hf hp child), hch] at hmem
      cases hmem

theorem SubTree.grow (hf : t.Fresh) (hp : t.nodes p = some dir) (child : VfsNode) :
    SubTree t (t.grow p child) where
  root := by
    rw [Tree.grow_eq hf hp]
    rfl
  nodes n node hn := by
    by_cases hnp : n = p
    · subst hnp
      cases hp.symm.trans hn
      exact ⟨dir.size, _, Tree.grow_parent hf hp child, List.subset_cons_self _ _⟩
    · have hnew : n ≠ t.nextNode := by
        rintro rfl
        rw [hf.free _ (Nat.le_refl _)] at hn
        cases hn
      exact ⟨node.size, node.children, (Tree.grow_other hf hp child hnew hnp).trans hn,
        List.Subset.refl _⟩

theorem Cached.grow (hc : Cached hg m t) (hp : Attached hg t p st)
    (hflag : t.hasFlag p VFS_DIR = true) (hch : child.children = []) (hnew : DotName child.name ∨ ∃ s, child.At fp (slotAt s) ∧
      Volume.InDir (layout hg) (volOf fp m) st s ∧ ((volOf fp m).entry s).isLive = true ∧
      Stands hg m child (.entry s) ∧ ∀ n, ¬ Attached hg t n (.entry s)) :
    Cached hg m (t.grow p child) := by
  have hf := hc.fresh
  obtain ⟨dir, hdir⟩ := Tree.exists_of_hasFlag hflag
  have hsub := SubTree.grow hf hdir child
  have hgrow : GrowsAt p t (t.grow p child) := .grow hf hdir hch
  -- what is attached is attached before, or it is the new node
  have hlinks : ∀ n st', Attached hg (t.grow p child) n st' → Attached hg t n st' ∨
      (n = t.nextNode ∧ ∃ s, st' = .entry s ∧ child.At fp (slotAt s) ∧
        Volume.InDir (layout hg) (volOf fp m) st s ∧ ((volOf fp m).entry s).isLive = true ∧
        Stands hg m child (.entry s) ∧ ∀ n, ¬ Attached hg t n (.entry s)) := by
    intro n st' h
    obtain h | ⟨rfl, hdot, s, rfl, hok, hat⟩ := h.of_grow hf hdir hch
    · exact .inl h
    · obtain hdot' | ⟨s', hat', hin, hrest⟩ := hnew
      · exact absurd hdot' hdot
      · obtain rfl := hat.unique hat' hg hok hin.valid
        exact .inr ⟨rfl, s, rfl, hat, hin, hrest⟩
  have hold : ∀ q stq, Attached hg t q stq → (t.grow p child).hasFlag q VFS_DIR = true →
      t.hasFlag q VFS_DIR = true ∧ (t.grow p child).children q =
        if q = p then t.nextNode :: t.children p else t.children q := by
    intro q stq hq hqd
    obtain ⟨-, node, hn, -⟩ := hc.stands q stq hq
    by_cases hqp : q = p
    · subst hqp
      rw [if_pos rfl, Tree.children_eq (Tree.grow_parent hf hdir child), Tree.children_eq hdir]
      exact ⟨hflag, rfl⟩
    · have hsame := hgrow.others q hqp (by rw [hn]; exact Option.some_ne_none _)
      rw [Tree.hasFlag, hsame] at hqd
      rw [if_neg hqp, Tree.children, hsame]
      exact ⟨hqd, rfl⟩
  have hnone : (t.grow p child).children t.nextNode = [] := by
    rw [Tree.children_eq (Tree.grow_new hf hdir child), hch]
  refine ⟨hgrow.fresh, fun n st' h => ?_, fun q stq c hq hqd hmem => ?_, fun n n' st' h h' => ?_,
    fun n st₁ st₂ h h' => ?_, fun q stq hq hqd => ?_⟩
  · obtain h | ⟨rfl, s, rfl, -, hin, hlive, hst, -⟩ := hlinks n st' h
    · obtain ⟨hst, node, hn, hstands⟩ := hc.stands n st' h
      obtain ⟨size, cs, hn', -⟩ := hsub.nodes n node hn
      exact ⟨hst, _, hn', hstands.flags, hstands.cluster⟩
    · exact ⟨hin.entry hlive, child, Tree.grow_new hf hdir child, hst⟩
  · obtain hq' | ⟨rfl, -⟩ := hlinks q stq hq
    · obtain ⟨hqd', hcs⟩ := hold q stq hq' hqd
      rw [hcs] at hmem
      have hkept : c ∈ t.children q → ∃ node, (t.grow p child).nodes c = some node ∧
          (DotName node.name ∨ ∃ s, node.At fp (slotAt s) ∧
            Volume.InDir (layout hg) (volOf fp m) stq s) := by
        intro hmem
        obtain ⟨node, hn, hch⟩ := hc.child q stq c hq' hqd' hmem
        obtain ⟨size, cs, hn', -⟩ := hsub.nodes c node hn
        exact ⟨_, hn', hch⟩
      by_cases hqp : q = p
      · subst hqp
        rw [if_pos rfl] at hmem
        obtain rfl | hmem := List.mem_cons.mp hmem
        · obtain rfl := hc.one q st stq hp hq'
          refine ⟨child, Tree.grow_new hf hdir child, hnew.imp_right ?_⟩
          rintro ⟨s, hat, hin, -⟩
          exact ⟨s, hat, hin⟩
        · exact hkept hmem
      · rw [if_neg hqp] at hmem
        exact hkept hmem
    · rw [hnone] at hmem
      cases hmem
  · obtain h | ⟨rfl, s, rfl, -, -, -, -, hno⟩ := hlinks n st' h
    · obtain h' | ⟨rfl, s, rfl, -, -, -, -, hno⟩ := hlinks n' st' h'
      · exact hc.inj n n' st' h h'
      · exact absurd h (hno n)
    · obtain h' | ⟨rfl, -⟩ := hlinks n' _ h'
      · exact absurd h' (hno n')
      · rfl
  · have hfree : ∀ st', ¬ Attached hg t t.nextNode st' := by
      intro st' h
      obtain ⟨-, node, hn, -⟩ := hc.stands _ _ h
      rw [hf.free _ (Nat.le_refl _)] at hn
      cases hn
    obtain h | ⟨rfl, s₁, rfl, hat₁, hin₁, -⟩ := hlinks n st₁ h
    · obtain h' | ⟨rfl, -⟩ := hlinks n st₂ h'
      · exact hc.one n st₁ st₂ h h'
      · exact absurd h (hfree st₁)
    · obtain h' | ⟨-, s₂, rfl, hat₂, hin₂, -⟩ := hlinks _ st₂ h'
      · exact absurd h' (hfree st₂)
      · rw [hat₁.unique hat₂ hg hin₁.valid hin₂.valid]
  · obtain hq | ⟨rfl, -⟩ := hlinks q stq hq
    · obtain ⟨hqd', hcs⟩ := hold q stq hq hqd
      have hnd := hc.nodup q stq hq hqd'
      rw [hcs]
      by_cases hqp : q = p
      · subst hqp
        rw [if_pos rfl]
        refine List.nodup_cons.mpr ⟨fun hmem => ?_, hnd⟩
        rw [Tree.children_eq hdir] at hmem
        exact absurd (hf.children q dir hdir _ hmem) (Nat.lt_irrefl _)
      · rwa [if_neg hqp]
    · rw [hnone]
      exact List.nodup_nil

-- ---------------------------------------------------------------------------
-- Other volumes
-- ---------------------------------------------------------------------------

theorem Cached.volume (hc : Cached hg m t)
    (hkeep : ∀ n st, Attached hg t n st → Volume.Reached (layout hg) (volOf fp m') st ∧
      (volOf fp m').isDir st = (volOf fp m).isDir st ∧
      (volOf fp m').first (layout hg) st = (volOf fp m).first (layout hg) st)
    (hin : ∀ n st s, Attached hg t n st → Volume.InDir (layout hg) (volOf fp m) st s →
      Volume.InDir (layout hg) (volOf fp m') st s) : Cached hg m' t where
  fresh := hc.fresh
  stands n st hn := by
    obtain ⟨-, node, hnode, hstands⟩ := hc.stands n st hn
    obtain ⟨hst, hdir, hfirst⟩ := hkeep n st hn
    refine ⟨hst, node, hnode, ?_, hstands.cluster.trans hfirst.symm⟩
    rw [hdir]
    exact hstands.flags
  child p st c hp hdir hmem := by
    obtain ⟨node, hn, hch⟩ := hc.child p st c hp hdir hmem
    exact ⟨node, hn, hch.imp_right fun ⟨s, hat, h⟩ => ⟨s, hat, hin p st s hp h⟩⟩
  inj := hc.inj
  one := hc.one
  nodup := hc.nodup

theorem Cached.change {new : Volume.Start → Prop} (hc : Cached hg m t)
    (hch : Volume.Change (layout hg) (volOf fp m) (volOf fp m') (fun _ => True) new) :
    Cached hg m' t :=
  hc.volume (fun n st hn => by
      have hst := (hc.stands n st hn).1
      exact ⟨hch.kept hst trivial, hch.same st hst trivial⟩)
    fun _ _ _ _ hin => hch.inDir_kept hin trivial

theorem Cached.remove (hc : Cached hg m t) (hs : Volume.Owned (layout hg) (volOf fp m))
    (hh : Volume.Holds (layout hg) (volOf fp m) s₀ l)
    (hr : Volume.Removed (layout hg) (volOf fp m) (volOf fp m') s₀ l)
    (hno : ∀ n, ¬ Attached hg t n (.entry s₀)) : Cached hg m' t := by
  have hreached : ∀ n st, Attached hg t n st → Volume.Reached (layout hg) (volOf fp m') st := by
    intro n st hn
    induction hn with
    | root => exact .root
    | @child p c st s node hp hdir hmem hn hdot hok hat ih =>
      have hin := hc.inDir hp hdir hmem hn hdot hok hat
      have hc' : Attached hg t c (.entry s) := .child hp hdir hmem hn hdot hok hat
      have hne : s ≠ s₀ := by
        rintro rfl
        exact hno c hc'
      refine (hr.inDir_kept hs hh hin ih).entry ?_
      rw [hr.entry_eq hin hne]
      exact (hc.stands c _ hc').1.live
  have hne : ∀ n st, Attached hg t n st → st ≠ .entry s₀ := by
    rintro n st hn rfl
    exact hno n hn
  exact hc.volume
    (fun n st hn => ⟨hreached n st hn, hr.same (hc.stands n st hn).1 (hne n st hn)⟩)
    fun n st s hn hin => hr.inDir_kept hs hh hin (hreached n st hn)

-- ---------------------------------------------------------------------------
-- Reading a directory
-- ---------------------------------------------------------------------------

/-- The entries for a directory and its parent are shown as `.` and `..`. -/
theorem isDots_trim {e : FatName} (h : isDots e = true) (hlen : e.name.length = 8) :
    DotName (fatTrimName e) := by
  have heq : e = ⟨e.bytes.take 8, e.bytes.drop 8⟩ := by
    rw [FatName.bytes, ← hlen, List.take_left, List.drop_left]
  rw [isDots, decide_eq_true_eq] at h
  rw [heq]
  obtain h | h := h
  · rw [h]
    exact .inl (by decide)
  · rw [h]
    exact .inr (by decide)

/-- What a slot holds that `fat_readdir` makes a node for. -/
theorem slotNode_stands (h0 : d.sectors ((slotAt s).lba fp) (slotAt s).off ≠ 0)
    (hskip : ¬ deSkipped (d.sectors ((slotAt s).lba fp)) (slotAt s).off = true)
    (hdot : ¬ DotName (fatTrimName (deName (d.sectors ((slotAt s).lba fp)) (slotAt s).off))) :
    ((volOf fp d.image).entry s).isLive = true ∧ Stands hg d.image
      (slotNode d.sectors p ((slotAt s).lba fp, (slotAt s).off)) (.entry s) := by
  have hentry : (volOf fp d.image).entry s = .live
      (deName (d.sectors ((slotAt s).lba fp)) (slotAt s).off)
      (deFlags (d.sectors ((slotAt s).lba fp)) (slotAt s).off = VFS_DIR)
      (deCluster (d.sectors ((slotAt s).lba fp)) (slotAt s).off)
      (deSize (d.sectors ((slotAt s).lba fp)) (slotAt s).off) := by
    rw [volOf_entry, direntAt, if_neg h0, if_neg]
    rintro (h | h)
    · exact hskip h
    · exact hdot (isDots_trim h (deName_length _ _).1)
  refine ⟨by rw [hentry]; rfl, ?_, ?_⟩
  · rw [Volume.State.isDir, hentry]
    show deFlags _ _ = _
    rw [deFlags]
    split <;> rfl
  · rw [Volume.State.first, hentry]
    rfl

/-- One visit of `fat_readdir`, at a slot that no node stands for. -/
theorem readdirVisit_cached (hc : Cached hg d.image t) (hp : Attached hg t p st)
    (hflag : t.hasFlag p VFS_DIR = true)
    (hin : Volume.InDir (layout hg) (volOf fp d.image) st s)
    (hno : ∀ n, ¬ Attached hg t n (.entry s)) (k : Int) :
    readdirVisit p ((slotAt s).lba fp) (slotAt s).off (d.sectors ((slotAt s).lba fp)) (k, t) d =
        .done (k, t) d ∨
      ∃ k' t', readdirVisit p ((slotAt s).lba fp) (slotAt s).off
          (d.sectors ((slotAt s).lba fp)) (k, t) d = .next (k', t') ∧ Cached hg d.image t' ∧ SubTree t t' ∧
        ∀ n s', Attached hg t' n (.entry s') → Attached hg t n (.entry s') ∨ s' = s := by
  rw [readdirVisit]
  by_cases h0 : d.sectors ((slotAt s).lba fp) (slotAt s).off = 0
  · exact .inl (if_pos h0)
  rw [if_neg h0]
  have hsame : Cached hg d.image t ∧ SubTree t t ∧
      ∀ n s', Attached hg t n (.entry s') → Attached hg t n (.entry s') ∨ s' = s :=
    ⟨hc, SubTree.refl t, fun _ _ h => .inl h⟩
  by_cases hskip : deSkipped (d.sectors ((slotAt s).lba fp)) (slotAt s).off = true
  · rw [if_pos hskip]
    exact .inr ⟨_, _, rfl, hsame⟩
  rw [if_neg hskip]
  dsimp only
  split
  · exact .inr ⟨_, _, rfl, hsame⟩
  · obtain ⟨h, -⟩ | ⟨heap, h, -, -⟩ := fatCreateNode_cases t
      (fatTrimName (deName (d.sectors ((slotAt s).lba fp)) (slotAt s).off))
      (deSize (d.sectors ((slotAt s).lba fp)) (slotAt s).off)
      (deFlags (d.sectors ((slotAt s).lba fp)) (slotAt s).off)
      (deCluster (d.sectors ((slotAt s).lba fp)) (slotAt s).off) ((slotAt s).lba fp) (slotAt s).off
      (some p)
    · rw [h]
      obtain ⟨dir, hdir⟩ := Tree.exists_of_hasFlag hflag
      have hat : (slotNode d.sectors p ((slotAt s).lba fp, (slotAt s).off)).At fp (slotAt s) :=
        ⟨rfl, rfl⟩
      refine .inr ⟨_, t.grow p (slotNode d.sectors p ((slotAt s).lba fp, (slotAt s).off)), rfl,
        hc.grow hp hflag rfl ?_, .grow hc.fresh hdir _, fun n s' hn => ?_⟩
      · by_cases hdot : DotName
          (fatTrimName (deName (d.sectors ((slotAt s).lba fp)) (slotAt s).off))
        · exact .inl hdot
        · obtain ⟨hlive, hst⟩ := slotNode_stands h0 hskip hdot
          exact .inr ⟨s, hat, hin, hlive, hst, hno⟩
      · obtain hn | ⟨-, -, s'', heq, hok, hat'⟩ := hn.of_grow hc.fresh hdir rfl
        · exact .inl hn
        · cases heq
          exact .inr (hat'.unique hat hg hok hin.valid)
    · rw [h]
      exact .inr ⟨_, _, rfl, hc.pruned (.of_heap t heap), SubTree.of_heap t heap,
        fun n s' hn => .inl (hn.mono (Pruned.of_heap t heap).subTree)⟩

/-- The visits of `fat_readdir` at slots that no node stands for. -/
theorem visitSlots_cached {slots : List Volume.Slot} (hc : Cached hg d.image t)
    (hp : Attached hg t p st) (hflag : t.hasFlag p VFS_DIR = true) (hnd : slots.Nodup)
    (hin : ∀ s ∈ slots, Volume.InDir (layout hg) (volOf fp d.image) st s)
    (hno : ∀ s ∈ slots, ∀ n, ¬ Attached hg t n (.entry s)) (k : Int) :
    ∃ r, visitSlots (readdirVisit p) d (slots.map fun s => ((slotAt s).lba fp, (slotAt s).off))
        (k, t) = (r, d) ∧ Cached hg d.image (r.elim id id).2 := by
  induction slots generalizing t k with
  | nil => exact ⟨_, rfl, hc⟩
  | cons s slots ih =>
    obtain ⟨hs, hnd⟩ := List.nodup_cons.mp hnd
    rw [List.map_cons, visitSlots]
    obtain hdone | ⟨k', t', hnext, hc', hsub, hlinks⟩ := readdirVisit_cached hc hp hflag
      (hin s List.mem_cons_self) (hno s List.mem_cons_self) k
    · rw [hdone]
      exact ⟨_, rfl, hc⟩
    · rw [hnext]
      refine ih hc' (hp.mono hsub) (hsub.hasFlag hflag) hnd
        (fun s' hs' => hin s' (List.mem_cons_of_mem _ hs')) (fun s' hs' n hn => ?_) k'
      obtain hn | rfl := hlinks n s' hn
      · exact hno s' (List.mem_cons_of_mem _ hs') n hn
      · exact hs hs'

theorem fatReaddir_cached (hc : Cached hg d.image t) (hd : NoFaults d)
    (hs : Volume.Owned (layout hg) (volOf fp d.image)) (hp : Attached hg t p st)
    (hflag : t.hasFlag p VFS_DIR = true) (hempty : t.children p = [])
    (h : fatReaddir fp fuel p t d = some (k', t', d')) : Cached hg d.image t' := by
  obtain ⟨hst, node, hn, hstands⟩ := hc.stands p st hp
  have hdir := (hstands.isDir hn).symm.trans hflag
  obtain ⟨l, -, hl⟩ := hs.dir_chain hst hdir
  have hcluster : t.cluster p = (volOf fp d.image).first (layout hg) st := by
    rw [Tree.cluster, hn]
    exact hstands.cluster
  have hin : ∀ s ∈ Volume.slots (layout hg) l,
      Volume.InDir (layout hg) (volOf fp d.image) st s := fun s hsl => .of_chain hst hdir hl hsl
  obtain ⟨r, hvisit, hr⟩ := visitSlots_cached hc hp hflag (Volume.slots_nodup hl.1.nodup) hin
    (fun s hsl n hn' => by
      obtain ⟨-, hmem, -⟩ := hc.sibling hs hp (hin s hsl) hn'
      rw [hempty] at hmem
      cases hmem) 0
  rw [← dirSlots_eq hg] at hvisit
  rw [fatReaddir] at h
  cases hw : dirWalk fp (fun st => (-1, st.2)) (readdirVisit p) fuel (t.cluster p) (0, t) d with
  | none =>
    rw [hw] at h
    cases h
  | some w =>
    rw [hw] at h
    rw [hcluster] at hw
    have hwalk : Returns (fun fuel => dirWalk fp (fun st => (-1, st.2)) (readdirVisit p) fuel
        ((volOf fp d.image).first (layout hg) st) (0, t) d) _ := dirWalk_slots hg hd hl (0, t)
    obtain rfl := ((dirWalk_mono fp _ _ _ _ _).returns hw).unique hwalk
    rw [hvisit] at h
    cases r with
    | inl r =>
      cases h
      exact hr
    | inr r =>
      cases h
      exact hr

-- ---------------------------------------------------------------------------
-- Paths
-- ---------------------------------------------------------------------------

theorem Tree.find_some {cs : List Nat} (h : t.find part cs = some c) :
    c ∈ cs ∧ ∃ node, t.nodes c = some node ∧ node.name = part := by
  refine ⟨List.mem_of_find?_eq_some h, ?_⟩
  have hname := List.find?_some h
  cases hn : t.nodes c with
  | none =>
    rw [hn] at hname
    cases hname
  | some node =>
    rw [hn] at hname
    exact ⟨node, rfl, of_decide_eq_true hname⟩

theorem vfsLoad_cached (hc : Cached hg d.image t) (hd : NoFaults d)
    (hs : Volume.Owned (layout hg) (volOf fp d.image)) (hp : Attached hg t p st)
    (hflag : t.hasFlag p VFS_DIR = true) (h : vfsLoad fp fuel p t d = some (t', d')) :
    d' = d ∧ Cached hg d.image t' ∧ SubTree t t' := by
  obtain ⟨node, hn⟩ := Tree.exists_of_hasFlag hflag
  obtain ⟨hreads, hgrows⟩ := vfsLoad_grows hc.fresh hn h
  refine ⟨hreads.eq hd, ?_, hgrows.subTree⟩
  rw [vfsLoad] at h
  split at h
  · rename_i hempty
    obtain ⟨⟨k, r⟩, hr, heq⟩ := Option.map_eq_some_iff.mp h
    cases heq
    exact fatReaddir_cached hc hd hs hp hflag hempty hr
  · cases h
    exact hc

/-- Names other than `.` and `..` lead along nodes that are attached. -/
theorem vfsWalk_cached (hd : NoFaults d) (hs : Volume.Owned (layout hg) (volOf fp d.image))
    (hc : Cached hg d.image t) (hn : Attached hg t n st)
    (hparts : ∀ part ∈ parts.dropLast, ¬ DotName part)
    (h : vfsWalk fp fuel parts n t d = some (o, t', d')) :
    d' = d ∧ Cached hg d.image t' ∧ SubTree t t' ∧
      ((∀ part ∈ parts, ¬ DotName part) → ∀ k, o = some k → ∃ st', Attached hg t' k st') := by
  induction parts generalizing n st t with
  | nil =>
    cases h
    refine ⟨rfl, hc, SubTree.refl _, fun _ k hk => ?_⟩
    cases hk
    exact ⟨st, hn⟩
  | cons part parts ih =>
    rw [vfsWalk] at h
    split at h
    · rename_i hflag
      rcases hload : vfsLoad fp fuel n t d with _ | ⟨t₁, d₁⟩
      · rw [hload] at h
        cases h
      obtain ⟨rfl, hc₁, hsub⟩ := vfsLoad_cached hc hd hs hn hflag hload
      rw [hload] at h
      dsimp only at h
      split at h
      · cases h
        exact ⟨rfl, hc₁, hsub, fun _ k hk => by cases hk⟩
      · rename_i child hfind
        by_cases hdot : DotName part
        · -- it is the last name
          cases parts with
          | cons part' parts => exact absurd hdot (hparts part List.mem_cons_self)
          | nil =>
            cases h
            exact ⟨rfl, hc₁, hsub, fun hall => absurd hdot (hall part List.mem_cons_self)⟩
        · obtain ⟨hmem, node, hnode, rfl⟩ := Tree.find_some hfind
          obtain ⟨s, hchild, -⟩ := hc₁.link (hn.mono hsub) (hsub.hasFlag hflag) hmem hnode hdot
          have hrest : ∀ part ∈ parts.dropLast, ¬ DotName part := by
            intro p hp
            cases parts with
            | nil => cases hp
            | cons part' parts => exact hparts p (List.mem_cons_of_mem _ hp)
          obtain ⟨hd', hc', hsub', hres⟩ := ih hc₁ hchild hrest h
          exact ⟨hd', hc', hsub.trans hsub', fun hall =>
            hres fun p hp => hall p (List.mem_cons_of_mem _ hp)⟩
    · cases h
      exact ⟨rfl, hc, SubTree.refl _, fun _ k hk => by cases hk⟩

theorem vfsResolve_cached (hd : NoFaults d) (hs : Volume.Owned (layout hg) (volOf fp d.image))
    (hc : Cached hg d.image t) (hparts : ∀ part ∈ (strtok [] path).dropLast, ¬ DotName part)
    (h : vfsResolve fp fuel path t d = some (o, t', d')) :
    d' = d ∧ Cached hg d.image t' ∧ SubTree t t' ∧
      ((∀ part ∈ strtok [] path, ¬ DotName part) →
        ∀ k, o = some k → ∃ st', Attached hg t' k st') := by
  rw [vfsResolve] at h
  split at h
  · cases h
    exact ⟨rfl, hc, SubTree.refl _, fun _ k hk => by cases hk⟩
  · rename_i root hroot
    exact vfsWalk_cached hd hs hc (.root hroot) hparts h

theorem vfsParent_cached (hd : NoFaults d) (hs : Volume.Owned (layout hg) (volOf fp d.image))
    (hc : Cached hg d.image t) (hplain : ∀ dir name, vfsSplitParent path = some (dir, name) →
      ∀ part ∈ strtok [] dir, ¬ DotName part)
    (h : vfsParent fp fuel path t d = some (r, t', d')) :
    d' = d ∧ Cached hg d.image t' ∧ SubTree t t' ∧
      ∀ p name, r = some (p, name) → ∃ st', Attached hg t' p st' ∧ t'.hasFlag p VFS_DIR = true := by
  rw [vfsParent] at h
  split at h
  · cases h
    exact ⟨rfl, hc, SubTree.refl _, fun _ _ hk => by cases hk⟩
  · rename_i dir name hsplit
    have hparts := hplain dir name hsplit
    rcases hres : vfsResolve fp fuel dir t d with _ | ⟨o₁, t₁, d₁⟩
    · rw [hres] at h
      cases h
    obtain ⟨rfl, hc₁, hsub, hatt⟩ := vfsResolve_cached hd hs hc
      (fun part hp => hparts part (List.mem_of_mem_dropLast hp)) hres
    rw [hres] at h
    cases o₁ with
    | none =>
      cases h
      exact ⟨rfl, hc₁, hsub, fun _ _ hk => by cases hk⟩
    | some parent =>
      obtain ⟨st', hp⟩ := hatt hparts parent rfl
      dsimp only at h
      split at h
      · rename_i hflag
        obtain ⟨⟨t₂, d₂⟩, hload, heq⟩ := Option.map_eq_some_iff.mp h
        obtain ⟨rfl, hc₂, hsub'⟩ := vfsLoad_cached hc₁ hd hs hp hflag hload
        cases heq
        refine ⟨rfl, hc₂, hsub.trans hsub', fun p name hk => ?_⟩
        cases hk
        exact ⟨st', hp.mono hsub', hsub'.hasFlag hflag⟩
      · cases h
        exact ⟨rfl, hc₁, hsub, fun _ _ hk => by cases hk⟩

end EponaOS.Fs
