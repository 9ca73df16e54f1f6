import Mathlib.Data.List.TakeWhile
import Mathlib.Data.List.Find
import EponaOS.Fs.Loading

/-!
# Names that are found

What a path is split into, and lookups in the tree. A lookup that succeeds keeps its result:
new nodes are put in front of a list only under names that it did not have.
-/

namespace EponaOS.Fs

open Bytes

variable {fp : FatPrivate} {d d' : Disk} {t t' t'' : Tree} {n m p c : Nat} {node dir child : VfsNode}
  {name part path rest parentPath : CStr} {parts : List CStr}

-- ---------------------------------------------------------------------------
-- The parts of a path
-- ---------------------------------------------------------------------------

theorem strtok_slash (part a b : CStr) :
    strtok part (a ++ SLASH :: b) = strtok part a ++ strtok [] b := by
  induction a generalizing part with
  | nil =>
    have hslash : strtok part (SLASH :: b) = if part = [] then strtok [] b else part :: strtok [] b := by
      rw [strtok, if_pos rfl]
    rw [List.nil_append, hslash, strtok]
    split <;> rfl
  | cons c a ih =>
    rw [List.cons_append, strtok, strtok]
    split
    · split
      · exact ih []
      · rw [ih [], List.cons_append]
    · exact ih _

theorem strtok_name (part : CStr) (h : SLASH ∉ name) (hne : part ++ name ≠ []) :
    strtok part name = [part ++ name] := by
  induction name generalizing part with
  | nil =>
    rw [List.append_nil] at hne ⊢
    rw [strtok, if_neg hne]
  | cons c name ih =>
    obtain ⟨hc, hname⟩ := not_or.mp (List.mem_cons.not.mp h)
    rw [strtok, if_neg (Ne.symm hc), ih _ hname (by simp), List.append_assoc]
    rfl

/-- The name has no `/`, and what stands in front of it is nothing or ends with one. -/
theorem cutLast_spec (path : CStr) : SLASH ∉ (cutLast path).2 ∧
    (cutLast path = ([], path) ∨ ∃ front, cutLast path = (front ++ [SLASH], (cutLast path).2) ∧
      path = front ++ SLASH :: (cutLast path).2) := by
  have hname : (cutLast path).2 = (path.reverse.takeWhile fun c => c ≠ SLASH).reverse := rfl
  have hsplit : path = (path.reverse.dropWhile fun c => c ≠ SLASH).reverse ++ (cutLast path).2 := by
    rw [hname, ← List.reverse_append, List.takeWhile_append_dropWhile, List.reverse_reverse]
  have hfront : (cutLast path).1 = (path.reverse.dropWhile fun c => c ≠ SLASH).reverse := by
    have htake : ∀ a b : CStr, path = a ++ b → path.take (path.length - b.length) = a := by
      rintro a b rfl
      rw [List.length_append, Nat.add_sub_cancel]
      exact List.take_left
    exact htake _ _ hsplit
  refine ⟨fun hmem => ?_, ?_⟩
  · rw [hname, List.mem_reverse] at hmem
    have hne := List.mem_takeWhile_imp hmem
    simp at hne
  · cases hdrop : path.reverse.dropWhile fun c => c ≠ SLASH with
    | nil =>
      rw [hdrop] at hsplit hfront
      exact .inl (Prod.ext hfront hsplit.symm)
    | cons c cs =>
      have hc := List.head?_dropWhile_not (fun c => decide (c ≠ SLASH)) path.reverse
      rw [hdrop] at hc
      obtain rfl : c = SLASH := by simpa using hc
      rw [hdrop, List.reverse_cons] at hsplit hfront
      refine .inr ⟨cs.reverse, Prod.ext hfront rfl, ?_⟩
      rw [List.append_assoc] at hsplit
      exact hsplit

theorem vfsSplitParent_parts (h : vfsSplitParent rest = some (parentPath, name))
    (hlen : rest.length < 256) : strtok [] rest = strtok [] parentPath ++ [name] := by
  obtain ⟨hslash, hcut⟩ := cutLast_spec rest
  rw [vfsSplitParent] at h
  split at h
  · cases h
  · rename_i hempty
    split at h
    · cases h
    · rename_i hne
      have hname : ∀ {l : CStr}, SLASH ∉ l → l ≠ [] → strtok [] l = [l] :=
        fun hs hl => strtok_name [] hs hl
      obtain hcut | ⟨front, hcut, hrest⟩ := hcut
      · rw [hcut] at h hslash
        cases h
        have hl : name ≠ [] := fun hl => hempty (congrArg List.length hl)
        rw [hname hslash hl]
        rfl
      · have hlen' := congrArg List.length hrest
        rw [List.length_append, List.length_cons] at hlen'
        have hfront : (cutLast rest).1 = front ++ [SLASH] := congrArg Prod.fst hcut
        rw [hfront, List.length_append, List.length_singleton, if_neg (Nat.succ_ne_zero _)] at h
        cases h
        rw [show min (front.length + 1 - 1) 255 = front.length by omega]
        conv_lhs => rw [hrest]
        rw [strtok_slash, hname hslash hne, show rest.take front.length = front by
          conv_lhs => rw [hrest]
          exact List.take_left]

-- ---------------------------------------------------------------------------
-- Trees in which lookups stay
-- ---------------------------------------------------------------------------

def Tree.Closed (t : Tree) : Prop :=
  ∀ n node, t.nodes n = some node → ∀ c ∈ node.children, t.nodes c ≠ none

structure Extends (t t' : Tree) : Prop where
  fresh : t'.Fresh
  closed : t'.Closed
  root : t'.root = t.root
  heap : t'.heap <:+ t.heap
  nodes : ∀ n node, t.nodes n = some node → ∃ cs, t'.nodes n = some { node with children := cs }
  finds : ∀ n part c, t.find part (t.children n) = some c → t'.find part (t'.children n) = some c

theorem Extends.refl (hf : t.Fresh) (hc : t.Closed) : Extends t t where
  fresh := hf
  closed := hc
  root := rfl
  heap := List.suffix_refl _
  nodes _ node h := ⟨node.children, h⟩
  finds _ _ _ h := h

theorem Extends.trans (h : Extends t t') (h' : Extends t' t'') : Extends t t'' where
  fresh := h'.fresh
  closed := h'.closed
  root := h'.root.trans h.root
  heap := h'.heap.trans h.heap
  nodes _ node hn := by
    obtain ⟨cs, hcs⟩ := h.nodes _ node hn
    obtain ⟨cs', hcs'⟩ := h'.nodes _ _ hcs
    exact ⟨cs', hcs'⟩
  finds n part c hfind := h'.finds n part c (h.finds n part c hfind)

theorem Extends.hasFlag (h : Extends t t') (hn : t.nodes n = some node) (flag : Nat) :
    t'.hasFlag n flag = t.hasFlag n flag := by
  obtain ⟨cs, hcs⟩ := h.nodes n node hn
  rw [Tree.hasFlag_eq hcs, Tree.hasFlag_eq hn]

theorem Extends.cluster (h : Extends t t') (hn : t.nodes n = some node) :
    t'.cluster n = t.cluster n := by
  obtain ⟨cs, hcs⟩ := h.nodes n node hn
  rw [Tree.cluster, Tree.cluster, hcs, hn]
  rfl

theorem Extends.of_heap {heap : List Bool} (hf : t.Fresh) (hc : t.Closed) (hr : heap <:+ t.heap) :
    Extends t { t with heap } where
  fresh := ⟨hf.free, hf.children⟩
  closed := hc
  root := rfl
  heap := hr
  nodes _ node h := ⟨node.children, h⟩
  finds _ _ _ h := h

theorem Tree.find_same {cs : List Nat}
    (hnodes : ∀ n node, t.nodes n = some node → ∃ ks, t'.nodes n = some { node with children := ks })
    (hcs : ∀ c ∈ cs, t.nodes c ≠ none) (part : CStr) : t'.find part cs = t.find part cs := by
  refine List.find?_congr fun c hc => ?_
  obtain ⟨node, hn⟩ := Option.ne_none_iff_exists'.mp (hcs c hc)
  obtain ⟨ks, hks⟩ := hnodes c node hn
  rw [hks, hn]
  rfl

theorem Extends.grow (hf : t.Fresh) (hc : t.Closed) (hp : t.nodes p = some dir)
    (hnew : t.find child.name (t.children p) = none) (hch : child.children = []) :
    Extends t (t.grow p child) := by
  have hgrow : GrowsAt p t (t.grow p child) := .grow hf hp hch
  have hnodes : ∀ n node, t.nodes n = some node →
      ∃ cs, (t.grow p child).nodes n = some { node with children := cs } := by
    intro n node hn
    by_cases hnp : n = p
    · subst hnp
      exact hgrow.dir node hn
    · refine ⟨node.children, ?_⟩
      rw [hgrow.others n hnp (by rw [hn]; exact Option.some_ne_none _), hn]
  have hkept : ∀ n, t.nodes n ≠ none → (t.grow p child).nodes n ≠ none := by
    intro n hn
    obtain ⟨node, hn⟩ := Option.ne_none_iff_exists'.mp hn
    obtain ⟨cs, hcs⟩ := hnodes n node hn
    rw [hcs]
    exact Option.some_ne_none _
  have hparent := Tree.grow_parent hf hp child
  have hchild := Tree.grow_new hf hp child
  refine ⟨hgrow.fresh, fun n node hn c hcn => ?_, hgrow.root, hgrow.heap, hnodes, fun n part c h => ?_⟩
  · by_cases hnp : n = p
    · subst hnp
      obtain rfl := Option.some.inj (hparent.symm.trans hn)
      obtain rfl | hcn := List.mem_cons.mp hcn
      · rw [hchild]
        exact Option.some_ne_none _
      · exact hkept c (hc n dir hp c hcn)
    · by_cases hnew' : n = t.nextNode
      · subst hnew'
        obtain rfl := Option.some.inj (hchild.symm.trans hn)
        rw [hch] at hcn
        cases hcn
      · rw [Tree.grow_other hf hp child hnew' hnp] at hn
        exact hkept c (hc n node hn c hcn)
  · by_cases hnp : n = p
    · subst hnp
      rw [Tree.children_eq hp] at h hnew
      have hne : child.name ≠ part := by
        rintro rfl
        rw [h] at hnew
        cases hnew
      rw [Tree.children_eq hparent, Tree.find, List.find?_cons, hchild, Option.any_some,
        decide_eq_false hne]
      exact (Tree.find_same hnodes (hc n dir hp) part).trans h
    · cases hn : t.nodes n with
      | none =>
        rw [Tree.children, hn] at h
        cases h
      | some node =>
        have hn' := hgrow.others n hnp (by rw [hn]; exact Option.some_ne_none _)
        rw [Tree.children_eq (hn'.trans hn)]
        rw [Tree.children_eq hn] at h
        exact (Tree.find_same hnodes (hc n node hn) part).trans h

-- ---------------------------------------------------------------------------
-- Loading extends the tree
-- ---------------------------------------------------------------------------

theorem Extends.step (h : Extends t t') (hp : t.nodes p ≠ none) (hst : ReaddirStep p t' t'') :
    Extends t t'' := by
  obtain rfl | ⟨child, hch, hnew, rfl⟩ | ⟨heap, rfl, hheap, -⟩ := hst
  · exact h
  · obtain ⟨dir, hdir⟩ := Option.ne_none_iff_exists'.mp hp
    obtain ⟨cs, hcs⟩ := h.nodes p dir hdir
    exact h.trans (.grow h.fresh h.closed hcs hnew hch)
  · exact h.trans (.of_heap h.fresh h.closed hheap)

theorem fatReaddir_extends (hf : t.Fresh) (hc : t.Closed) (hp : t.nodes p ≠ none)
    (h : fatReaddir fp fuel p t d = some (k, t', d')) : Extends t t' :=
  (fatReaddir_keeps (Extends t) (fun _ _ hext hst => hext.step hp hst) (.refl hf hc) h).2

theorem extends_rule (fp : FatPrivate) (fuel : Nat) :
    LoadRule fp fuel fun t _ t' _ => t.Fresh → t.Closed → Extends t t' where
  refl _ _ hf hc := .refl hf hc
  trans _ _ _ _ _ _ h h' hf hc := (h hf hc).trans (h' (h hf hc).fresh (h hf hc).closed)
  read _ _ _ _ _ _ hn _ h hf hc := fatReaddir_extends hf hc hn h

-- ---------------------------------------------------------------------------
-- Paths that resolve
-- ---------------------------------------------------------------------------

inductive Resolves (t : Tree) : List CStr → Nat → Nat → Prop
  | nil {n : Nat} : Resolves t [] n n
  | cons {n c m : Nat} {part : CStr} {parts : List CStr} : t.hasFlag n VFS_DIR = true →
    t.find part (t.children n) = some c → Resolves t parts c m → Resolves t (part :: parts) n m

theorem Resolves.extends (h : Resolves t parts n m) (hext : Extends t t') : Resolves t' parts n m := by
  induction h with
  | nil => exact .nil
  | cons hdir hfind _ ih =>
    obtain ⟨node, hn⟩ := Tree.exists_of_hasFlag hdir
    refine .cons ?_ (hext.finds _ _ _ hfind) ih
    rw [hext.hasFlag hn]
    exact hdir

theorem Resolves.snoc (h : Resolves t parts n p) (hdir : t.hasFlag p VFS_DIR = true)
    (hfind : t.find name (t.children p) = some c) : Resolves t (parts ++ [name]) n c := by
  induction h with
  | nil => exact .cons hdir hfind .nil
  | cons hdir' hfind' _ ih => exact .cons hdir' hfind' (ih hdir hfind)

theorem Tree.children_ne_nil (h : t.find part (t.children n) = some c) : t.children n ≠ [] := by
  intro hempty
  rw [hempty] at h
  cases h

theorem vfsLoad_of_find (h : t.find part (t.children n) = some c) :
    vfsLoad fp fuel n t d = some (t, d) := if_neg (Tree.children_ne_nil h)

theorem Resolves.walk (h : Resolves t parts n m) (more : List CStr) (d : Disk) :
    vfsWalk fp fuel (parts ++ more) n t d = vfsWalk fp fuel more m t d := by
  induction h with
  | nil => rfl
  | cons hdir hfind _ ih =>
    rw [List.cons_append, vfsWalk, if_pos hdir, vfsLoad_of_find hfind]
    dsimp only
    rw [hfind]
    exact ih

theorem vfsWalk_resolves (hf : t.Fresh) (hc : t.Closed)
    (h : vfsWalk fp fuel parts n t d = some (some m, t', d')) : Resolves t' parts n m := by
  induction parts generalizing n t d with
  | nil =>
    cases h
    exact .nil
  | cons part parts ih =>
    rw [vfsWalk] at h
    split at h
    · rename_i hdir
      rcases hload : vfsLoad fp fuel n t d with _ | ⟨t₁, d₁⟩
      · rw [hload] at h
        cases h
      · have hext := (extends_rule fp fuel).load (Tree.ne_none_of_hasFlag hdir) hload hf hc
        rw [hload] at h
        dsimp only at h
        split at h
        · cases h
        · rename_i child hfind
          have hext' := (extends_rule fp fuel).walk h hext.fresh hext.closed
          obtain ⟨node, hn⟩ := Tree.exists_of_hasFlag hdir
          refine .cons ?_ (hext'.finds _ _ _ hfind) (ih hext.fresh hext.closed h)
          rw [(hext.trans hext').hasFlag hn]
          exact hdir
    · cases h

-- ---------------------------------------------------------------------------
-- Without errors
-- ---------------------------------------------------------------------------

theorem fatReaddir_fills (hf : t.Fresh) (hc : t.Closed) (hheap : Plenty t.heap)
    (hp : t.nodes p ≠ none) (h : fatReaddir fp fuel p t d = some (k, t', d')) :
    t' = t ∨ t'.children p ≠ [] := by
  refine (fatReaddir_keeps (fun t' => Extends t t' ∧ (t' = t ∨ t'.children p ≠ []))
    (fun t₁ t₂ hinv hst => ⟨hinv.1.step hp hst, ?_⟩) ⟨.refl hf hc, .inl rfl⟩ h).2.2
  obtain ⟨hext, hfill⟩ := hinv
  obtain rfl | ⟨child, -, -, rfl⟩ | ⟨heap, rfl, -, hfail⟩ := hst
  · exact hfill
  · obtain ⟨dir, hdir⟩ := Option.ne_none_iff_exists'.mp hp
    obtain ⟨cs, hcs⟩ := hext.nodes p dir hdir
    rw [Tree.children_eq (Tree.grow_parent hext.fresh hcs _)]
    exact .inr (List.cons_ne_nil _ _)
  · -- no call fails
    have hplenty : Plenty t₁.heap := fun b hb => hheap b (hext.heap.subset hb)
    obtain hfail | hfail := hfail <;>
      exact absurd (hplenty true (List.mem_of_getElem? hfail)) (by decide)

theorem vfsLoad_again (hd : NoFaults d) (hf : t.Fresh) (hc : t.Closed) (hheap : Plenty t.heap)
    (hp : t.nodes p ≠ none) (h : vfsLoad fp fuel p t d = some (t', d')) :
    d' = d ∧ vfsLoad fp fuel p t' d = some (t', d) := by
  have hload := h
  rw [vfsLoad] at h
  split at h
  · obtain ⟨⟨k, r⟩, hr, heq⟩ := Option.map_eq_some_iff.mp h
    cases heq
    obtain rfl := (fatReaddir_growsAt hf hp hr).1.eq hd
    refine ⟨rfl, ?_⟩
    obtain rfl | hne := fatReaddir_fills hf hc hheap hp hr
    · exact hload
    · exact if_neg hne
  · rename_i hne
    cases h
    exact ⟨rfl, if_neg hne⟩

theorem name_absent {t₁ t₂ : Tree} (hd : NoFaults d) (hf : t.Fresh) (hc : t.Closed) (hheap : Plenty t.heap)
    (hnew : vfsWalk fp fuel (parts ++ [name]) n t d = some (none, t', d))
    (hwalk : vfsWalk fp fuel parts n t' d = some (some p, t₁, d))
    (hdir : t₁.hasFlag p VFS_DIR = true) (hload : vfsLoad fp fuel p t₁ d = some (t₂, d)) :
    t₂.find name (t₂.children p) = none := by
  induction parts generalizing n t with
  | nil =>
    cases hwalk
    rw [List.nil_append, vfsWalk] at hnew
    split at hnew
    · rename_i hflag
      rcases hfirst : vfsLoad fp fuel p t d with _ | ⟨ta, da⟩
      · rw [hfirst] at hnew
        cases hnew
      · obtain ⟨rfl, hagain⟩ := vfsLoad_again hd hf hc hheap (Tree.ne_none_of_hasFlag hflag) hfirst
        rw [hfirst] at hnew
        dsimp only at hnew
        split at hnew
        · rename_i hfind
          cases hnew
          cases hload.symm.trans hagain
          exact hfind
        · cases hnew
    · rename_i hflag
      cases hnew
      exact absurd hdir hflag
  | cons part parts ih =>
    rw [List.cons_append, vfsWalk] at hnew
    rw [vfsWalk] at hwalk
    split at hnew
    · rename_i hflag
      obtain ⟨node, hn⟩ := Tree.exists_of_hasFlag hflag
      rcases hfirst : vfsLoad fp fuel n t d with _ | ⟨ta, da⟩
      · rw [hfirst] at hnew
        cases hnew
      · obtain ⟨rfl, hagain⟩ := vfsLoad_again hd hf hc hheap (Tree.ne_none_of_hasFlag hflag) hfirst
        have hext := (extends_rule fp fuel).load (Tree.ne_none_of_hasFlag hflag) hfirst hf hc
        rw [hfirst] at hnew
        dsimp only at hnew
        split at hnew
        · rename_i hfind
          cases hnew
          rw [hext.hasFlag hn, if_pos hflag, hagain] at hwalk
          dsimp only at hwalk
          rw [hfind] at hwalk
          cases hwalk
        · rename_i child hfind
          have hext' := (extends_rule fp fuel).walk hnew hext.fresh hext.closed
          have hfind' := hext'.finds _ _ _ hfind
          rw [(hext.trans hext').hasFlag hn, if_pos hflag, vfsLoad_of_find hfind'] at hwalk
          dsimp only at hwalk
          rw [hfind'] at hwalk
          exact ih hext.fresh hext.closed (fun b hb => hheap b (hext.heap.subset hb)) hnew hwalk
    · rename_i hflag
      cases hnew
      rw [if_neg hflag] at hwalk
      cases hwalk

end EponaOS.Fs
