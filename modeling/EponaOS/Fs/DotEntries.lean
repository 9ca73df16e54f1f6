import EponaOS.Fs.FailedCreation
import EponaOS.Fs.Lookup

/-!
# The entries `.` and `..`

`fat_create` puts them into the first two slots of a new directory. Whatever is created there
later, reading the directory gives a child `..` with the cluster that is written in the second.
-/

namespace EponaOS.Fs

open Bytes

variable {fp : FatPrivate} {d : Disk} {t t' : Tree} {n p x up c off : Nat}
  {entry : List UInt8} {node : VfsNode} {buf : Bytes}

def DOTDOT : CStr := cstr ['.', '.']

def HasDots (fp : FatPrivate) (d : Disk) (x up : Nat) : Prop :=
  ∀ i < 64, d.sectors (clusterLba fp x) i = dotSector x up i

def FindsUp (t : Tree) (n up : Nat) : Prop :=
  ∃ m node, t.find DOTDOT (t.children n) = some m ∧ t.nodes m = some node ∧
    node.flags &&& VFS_DIR ≠ 0 ∧ node.cluster = up

theorem FindsUp.extends (h : FindsUp t n up) (hext : Extends t t') : FindsUp t' n up := by
  obtain ⟨m, node, hfind, hm, hdir, hup⟩ := h
  obtain ⟨cs, hcs⟩ := hext.nodes m node hm
  exact ⟨m, _, hext.finds _ _ _ hfind, hcs, hdir, hup⟩

theorem FindsUp.ne_nil (h : FindsUp t n up) : t.children n ≠ [] := by
  obtain ⟨m, node, hfind, -⟩ := h
  exact Tree.children_ne_nil hfind

-- ---------------------------------------------------------------------------
-- An entry for a directory
-- ---------------------------------------------------------------------------

def IsEntry (buf : Bytes) (off : Nat) (entry : List UInt8) (cluster : Nat) : Prop :=
  ∃ before, ∀ i < 32, buf (off + i) = putDirent before off entry FAT_ATTR_DIR cluster (off + i)

theorem IsEntry.first (h : IsEntry buf off entry c) : buf off = entry.getD 0 0 := by
  obtain ⟨before, h⟩ := h
  have hfirst := h 0 (by decide)
  rw [putDirent_name (by decide)] at hfirst
  exact hfirst

theorem IsEntry.attrs (h : IsEntry buf off entry c) : deAttrs buf off = FAT_ATTR_DIR := by
  obtain ⟨before, h⟩ := h
  exact (h DE_ATTRS (by decide)).trans putDirent_attrs

theorem IsEntry.flags (h : IsEntry buf off entry c) : deFlags buf off = VFS_DIR := by
  rw [deFlags, h.attrs]
  exact if_pos (by decide)

theorem IsEntry.cluster (h : IsEntry buf off entry c) (hc : c < 2 ^ 32) : deCluster buf off = c := by
  obtain ⟨before, h⟩ := h
  have hfield : ∀ k, k + 2 ≤ 32 → getLE buf (off + k) 2 =
      getLE (putDirent before off entry FAT_ATTR_DIR c) (off + k) 2 := by
    intro k hk
    apply getLE_congr
    intro i hi
    rw [Nat.add_assoc]
    exact h _ (by omega)
  rw [deCluster, hfield _ (by decide), hfield _ (by decide)]
  exact putDirent_cluster hc

theorem IsEntry.name (h : IsEntry buf off entry c) : deName buf off =
    ⟨(List.range 8).map fun i => entry.getD i 0, (List.range 3).map fun i => entry.getD (8 + i) 0⟩ := by
  obtain ⟨before, h⟩ := h
  have hbyte : ∀ i < 11, buf (off + i) = entry.getD i 0 := by
    intro i hi
    rw [h i (by omega), putDirent_name hi]
  rw [deName]
  congr 1
  · refine List.map_congr_left fun i hi => hbyte i ?_
    have := List.mem_range.mp hi
    omega
  · refine List.map_congr_left fun i hi => ?_
    have := List.mem_range.mp hi
    rw [Nat.add_assoc]
    exact hbyte (8 + i) (by omega)

theorem IsEntry.shown (h : IsEntry buf off entry c) (h0 : entry.getD 0 0 ≠ 0xE5) :
    deSkipped buf off = false := by
  rw [deSkipped, h.attrs, h.first, decide_eq_false_iff_not]
  rintro (hdel | hlfn | hlabel)
  · exact h0 hdel
  · exact absurd hlfn (by decide)
  · exact absurd hlabel (by decide)

-- ---------------------------------------------------------------------------
-- The two slots
-- ---------------------------------------------------------------------------

theorem HasDots.dot (h : HasDots fp d x up) : IsEntry (d.sectors (clusterLba fp x)) 0 dotName x := by
  refine ⟨fun _ => 0, fun i hi => ?_⟩
  rw [h (0 + i) (by omega), dotSector, putDirent_off (by omega)]

theorem HasDots.dotdot (h : HasDots fp d x up) :
    IsEntry (d.sectors (clusterLba fp x)) 32 dotdotName up :=
  ⟨_, fun i hi => h (32 + i) (by omega)⟩

theorem HasDots.names (h : HasDots fp d x up) : slotName d.sectors (clusterLba fp x, 0) = cstr ['.'] ∧
    slotName d.sectors (clusterLba fp x, 32) = DOTDOT := by
  constructor
  · rw [slotName, h.dot.name]
    decide
  · rw [slotName, h.dotdot.name]
    decide

theorem HasDots.free (h : HasDots fp d x up) (hs : freeEntry (d.sectors (clusterLba fp x)) off = true)
    (hoff : off % 32 = 0) : 64 ≤ off := by
  by_contra hlt
  rw [freeEntry, decide_eq_true_eq] at hs
  obtain rfl | rfl : off = 0 ∨ off = 32 := by omega
  · rw [h.dot.first] at hs
    exact absurd hs (by decide)
  · rw [h.dotdot.first] at hs
    exact absurd hs (by decide)

theorem clusterSlots_cons (hg : Geometry fp) (x : Nat) : ∃ rest, clusterSlots fp x =
    (clusterLba fp x, 0) :: (clusterLba fp x, 32) :: rest := by
  have hspc := hg.spc_pos
  obtain ⟨k, hk⟩ : ∃ k, fp.bytesPerCluster / 32 = k + 2 := by
    refine ⟨fp.bytesPerCluster / 32 - 2, ?_⟩
    rw [hg.cluster]
    omega
  refine ⟨(List.range' 2 k).map fun e => (clusterLba fp x + e * 32 / 512, e * 32 % 512), ?_⟩
  rw [clusterSlots, hk, List.range_eq_range', List.range'_succ, List.range'_succ]
  rfl

-- ---------------------------------------------------------------------------
-- Reading them
-- ---------------------------------------------------------------------------

theorem visitSlots_keeps (Inv : Tree → Prop) (hstep : ∀ t t', Inv t → ReaddirStep p t t' → Inv t')
    (slots : List (Nat × Nat)) (st : Int × Tree) (hst : Inv st.2) :
    ∃ k t', EndsWith (visitSlots (readdirVisit p) d slots st) k t' d ∧ Inv t' := by
  induction slots generalizing st with
  | nil => exact ⟨st.1, st.2, .inr rfl, hst⟩
  | cons s slots ih =>
    rw [visitSlots]
    obtain h | ⟨st', h, hst'⟩ := readdirVisit_step p s.1 s.2 (d.sectors s.1) st d
    · rw [h]
      exact ⟨st.1, st.2, .inl rfl, hst⟩
    · rw [h]
      exact ih st' (hstep _ _ hst hst')

/-- Reading a directory with the two entries gives it the child `..`. -/
theorem fatReaddir_up (hg : Geometry fp) (hd : NoFaults d) (hf : t.Fresh) (hc : t.Closed)
    (hheap : Plenty t.heap) (hn : t.nodes n = some node) (hempty : t.children n = [])
    (hl : FatChain fp d.image node.cluster [x]) (hdots : HasDots fp d x up) (hup : up < 2 ^ 32) :
    ∃ k t', Returns (fun fuel => fatReaddir fp fuel n t d) (k, t', d) ∧ FindsUp t' n up := by
  obtain ⟨rest, hslots⟩ := clusterSlots_cons hg x
  obtain ⟨hname, hname'⟩ := hdots.names
  have hslots' : dirSlots fp [x] = (clusterLba fp x, 0) :: (clusterLba fp x, 32) :: rest := by
    rw [dirSlots, List.flatMap_cons, hslots]
    simp
  -- the child for `.`
  have hfind : t.find (slotName d.sectors (clusterLba fp x, 0)) (t.children n) = none := by
    rw [hempty]
    rfl
  have hext : Extends t (t.grow n (slotNode d.sectors n (clusterLba fp x, 0))) :=
    .grow hf hc hn hfind rfl
  have hn₁ := Tree.grow_parent hf hn (slotNode d.sectors n (clusterLba fp x, 0))
  -- the child for `..`
  have hfind' : (t.grow n (slotNode d.sectors n (clusterLba fp x, 0))).find
      (slotName d.sectors (clusterLba fp x, 32))
      ((t.grow n (slotNode d.sectors n (clusterLba fp x, 0))).children n) = none := by
    refine Tree.find_grow hf hn ?_ ?_
    · rw [hname', show (slotNode d.sectors n (clusterLba fp x, 0)).name = cstr ['.'] from hname]
      decide
    · rw [hempty]
      rfl
  have hheap₁ : Plenty (t.grow n (slotNode d.sectors n (clusterLba fp x, 0))).heap :=
    fun b hb => hheap b (hext.heap.subset hb)
  have hvisit : ∀ slots, visitSlots (readdirVisit n) d
      ((clusterLba fp x, 0) :: (clusterLba fp x, 32) :: slots) (0, t) =
      visitSlots (readdirVisit n) d slots (0 + 1 + 1,
        (t.grow n (slotNode d.sectors n (clusterLba fp x, 0))).grow n
          (slotNode d.sectors n (clusterLba fp x, 32))) := by
    intro slots
    rw [readdir_new (by rw [hdots.dot.first]; decide)
        (by rw [hdots.dot.shown (by decide)]; exact Bool.false_ne_true) hfind hheap,
      readdir_new (by rw [hdots.dotdot.first]; decide)
        (by rw [hdots.dotdot.shown (by decide)]; exact Bool.false_ne_true) hfind' hheap₁]
  generalize t.grow n (slotNode d.sectors n (clusterLba fp x, 0)) = t₁ at *
  have hext₂ : Extends t₁ (t₁.grow n (slotNode d.sectors n (clusterLba fp x, 32))) :=
    .grow hext.fresh hext.closed hn₁ hfind' rfl
  have hfound : FindsUp (t₁.grow n (slotNode d.sectors n (clusterLba fp x, 32))) n up := by
    refine ⟨t₁.nextNode, _, ?_, Tree.grow_new hext.fresh hn₁ _, ?_, hdots.dotdot.cluster hup⟩
    · rw [Tree.children_eq (Tree.grow_parent hext.fresh hn₁ _), Tree.find, List.find?_cons,
        Tree.grow_new hext.fresh hn₁, Option.any_some,
        decide_eq_true (show (slotNode d.sectors n (clusterLba fp x, 32)).name = DOTDOT from hname')]
    · rw [show (slotNode d.sectors n (clusterLba fp x, 32)).flags = VFS_DIR from hdots.dotdot.flags]
      decide
  -- the entries behind them change nothing of this
  have hnode : (t₁.grow n (slotNode d.sectors n (clusterLba fp x, 32))).nodes n ≠ none := by
    rw [Tree.grow_parent hext.fresh hn₁]
    exact Option.some_ne_none _
  generalize t₁.grow n (slotNode d.sectors n (clusterLba fp x, 32)) = t₂ at *
  have hstep : ∀ t t', Extends t₂ t → ReaddirStep n t t' → Extends t₂ t' :=
    fun _ _ h hst => h.step hnode hst
  obtain ⟨k, t', hend, hext'⟩ := visitSlots_keeps (d := d) (Extends t₂) hstep rest (0 + 1 + 1, t₂)
    (.refl hext₂.fresh hext₂.closed)
  rw [← hvisit, ← hslots'] at hend
  exact ⟨k, t', fatReaddir_returns hg hd hn hl hend, hfound.extends hext'⟩

end EponaOS.Fs
