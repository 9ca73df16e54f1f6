import EponaOS.Fs.CreateRoom
import EponaOS.Fs.NewEntry

/-!
# Creations that fail

Once it has found a slot and a cluster, `fat_create` marks the cluster, fills it, writes the entry
and makes the node. It takes no step back when a later one fails, and does not look at what the
first ones return: what is left behind depends on which of them fail.
-/

namespace EponaOS.Fs

open Bytes

/-- What a call that fails should leave: the clusters in use, the entries of the directory with
the clusters `l` and the children of its node `p`. -/
structure LeavesNothing (fp : FatPrivate) (l : List Nat) (p : Nat) (t : Tree) (d : Disk) (t' : Tree)
    (d' : Disk) : Prop where
  clusters : freeClusters fp d'.image = freeClusters fp d.image
  listed : listing fp d' l = listing fp d l
  entries : ∀ s ∈ listing fp d l, SameSlot d.sectors d'.sectors s
  children : t'.children p = t.children p

def NewMarked (fp : FatPrivate) (p : Nat) (t : Tree) (d : Disk) : Prop :=
  ∃ n node, (t.children p).head? = some n ∧ t.nodes n = some node ∧
    fatEntry fp d.image (deCluster (d.sectors node.dirLba) node.dirOff) ≠ 0

/-- What is claimed of a call, whether it fails or not. -/
def CleanCall (fp : FatPrivate) (l : List Nat) (p : Nat) (t : Tree) (d : Disk) (failed : Prop)
    (t' : Tree) (d' : Disk) : Prop :=
  (failed → LeavesNothing fp l p t d t' d') ∧ (¬ failed → NewMarked fp p t' d')

/-- `fat_create` finds the slot `s` and the cluster `x`, and `d'` is the drive that it starts to
write to. -/
def StartsWriting (fp : FatPrivate) (fuel p : Nat) (name : CStr) (t : Tree) (d : Disk) (s : FoundSlot)
    (x : Nat) (d' : Disk) : Prop :=
  fatNameTo83 name ≠ none ∧ ∃ d₁, dirFind fp freeEntry fuel (t.cluster p) d = some (some s, d₁) ∧
    fatFreeCluster fp d₁ = (some x, d')

def EntryWritten (fp : FatPrivate) (d : Disk) : Prop :=
  d.faults[markAccesses fp d.faults + fp.bpb.sectorsPerCluster]? ≠ some true

/-- The first `k` calls of `kmalloc` succeed. -/
def Memory (k : Nat) (heap : List Bool) : Prop := ∀ i < k, heap[i]? ≠ some true

/-- Mark, entry and the memory for `k` objects, or neither mark nor entry; and where the call
fails the children of the directory were there before. -/
def CleanWhen (fp : FatPrivate) (fuel p : Nat) (name : CStr) (k : Nat) (t t₂ : Tree) (d₂ : Disk) : Prop :=
  (∀ s x d', StartsWriting fp fuel p name t₂ d₂ s x d' →
    (MarkWritten d' ∧ EntryWritten fp d' ∧ Memory k t₂.heap) ∨
      (¬ MarkWritten d' ∧ ¬ EntryWritten fp d' ∧ t₂.children p = t.children p)) ∧
  ((¬ ∃ s x d', StartsWriting fp fuel p name t₂ d₂ s x d') → t₂.children p = t.children p)

variable {fp : FatPrivate} {d d' d₂ d₃ : Disk} {t t' t₂ : Tree} {p x fuel flags k : Nat}
  {name : CStr} {e : FatName} {s : FoundSlot} {l : List Nat} {r : Option Nat} {dir : VfsNode}

-- ---------------------------------------------------------------------------
-- Before the first write
-- ---------------------------------------------------------------------------

theorem StartsWriting.spec (h : StartsWriting fp fuel p name t d s x d') (hg : Geometry fp)
    (hl : FatChain fp d.image (t.cluster p) l) : Reads d d' ∧
      x ∈ freeClusters fp d.image ∧ FirstSlot freeEntry d.sectors (dirSlots fp l) s := by
  obtain ⟨-, d₁, hfind, hfree⟩ := h
  obtain ⟨hreads, hfirst⟩ := dirFind_spec hg hl hfind
  obtain ⟨hreads', hcluster⟩ := fatFreeCluster_spec hg d₁
  rw [hfree] at hreads' hcluster
  have hx := hcluster x rfl
  rw [Disk.image_congr hreads.sectors] at hx
  exact ⟨hreads.trans hreads', hx, hfirst s rfl⟩

theorem fatCreate_refuses (hg : Geometry fp) (hl : FatChain fp d.image (t.cluster p) l)
    (hflags : flags &&& (VFS_FILE ||| VFS_DIR) ≠ 0)
    (hno : ¬ ∃ s x d', StartsWriting fp fuel p name t d s x d')
    (h : fatCreate fp fuel p name flags t d = some (r, t', d')) :
    r = none ∧ t' = t ∧ Reads d d' := by
  cases hname : fatNameTo83 name with
  | none =>
    rw [fatCreate, if_neg hflags, hname] at h
    cases h
    exact ⟨rfl, rfl, .refl d⟩
  | some e =>
    rw [fatCreate_find hflags hname] at h
    obtain ⟨⟨o, d₁⟩, hfind, heq⟩ := Option.map_eq_some_iff.mp h
    obtain ⟨hreads, hfirst⟩ := dirFind_spec hg hl hfind
    cases o with
    | none =>
      cases heq
      exact ⟨rfl, rfl, hreads⟩
    | some s =>
      obtain ⟨hreads', -⟩ := fatFreeCluster_spec hg d₁
      rcases hfree : fatFreeCluster fp d₁ with ⟨_ | x, d₂⟩
      · rw [hfree] at hreads'
        rw [afterFind, createAt_none ((hfirst s rfl).place hg hl.2).2.1 hfree] at heq
        cases heq
        exact ⟨rfl, rfl, hreads.trans hreads'⟩
      · refine absurd ⟨s, x, d₂, ?_, d₁, hfind, hfree⟩ hno
        rw [hname]
        exact Option.some_ne_none e

def filledDisk (fp : FatPrivate) (t : Tree) (p flags x : Nat) (d : Disk) : Disk :=
  fillCluster fp t p flags x (fatSetCluster fp d x FAT_EOC).2

theorem fatCreate_writes (hg : Geometry fp) (hl : FatChain fp d.image (t.cluster p) l)
    (hflags : flags &&& (VFS_FILE ||| VFS_DIR) ≠ 0) (hname : fatNameTo83 name = some e)
    (h : StartsWriting fp fuel p name t d s x d') :
    fatCreate fp fuel p name flags t d =
      some (created (writeEntry t p name e flags s x (filledDisk fp t p flags x d'))) := by
  obtain ⟨-, hx, hfirst⟩ := h.spec hg hl
  obtain ⟨-, d₁, hfind, hfree⟩ := h
  have h2 := (mem_freeClusters.mp hx).1.1
  rw [fatCreate_find hflags hname, hfind, Option.map_some, afterFind,
    createAt_some (hfirst.place hg hl.2).2.1 hfree (by omega), filledDisk]

-- ---------------------------------------------------------------------------
-- Mark and cluster
-- ---------------------------------------------------------------------------

/-- The entry of the cluster is set if the mark was written; of the data no more than the cluster
is written. -/
theorem filledDisk_spec (hg : Geometry fp) (hl : FatChain fp d.image (t.cluster p) l)
    (h : StartsWriting fp fuel p name t d s x d') (flags : Nat) :
    ((filledDisk fp t p flags x d').fails = true ↔ ¬ EntryWritten fp d') ∧
      DataSame fp x d (filledDisk fp t p flags x d') ∧
      (MarkWritten d' → ∀ y, Valid fp y → fatEntry fp (filledDisk fp t p flags x d').image y =
        if y = x then FAT_EOC else fatEntry fp d.image y) ∧
      (¬ MarkWritten d' → ∀ y, Valid fp y → fatEntry fp (filledDisk fp t p flags x d').image y =
        fatEntry fp d.image y) := by
  obtain ⟨hreads, hx, -⟩ := h.spec hg hl
  obtain ⟨hvalid, hfree⟩ := mem_freeClusters.mp hx
  have himage := Disk.image_congr hreads.sectors
  obtain ⟨hfaults, hmark, hnomark⟩ := fatSetCluster_mark hg hvalid.2 FAT_EOC d'
  rw [himage, show FAT_EOC % 2 ^ 28 = FAT_EOC by decide] at hmark
  rw [filledDisk]
  generalize (fatSetCluster fp d' x FAT_EOC).2 = d₁ at hfaults hmark hnomark
  obtain ⟨htouch, hdrop⟩ := fillCluster_touches hg hvalid t p flags d₁
  have htable : ∀ a, ¬ InTable fp a → d₁.image a = d.image a := by
    intro a ha
    by_cases hm : MarkWritten d'
    · exact (hmark hm).other a ha
    · rw [Disk.image_congr (hnomark hm), himage]
  have hbehind : ∀ n, ClusterSector fp x n → fp.dataStart ≤ n := fun _ => ClusterSector.behind
  have hentry : ∀ y, Valid fp y → fatEntry fp (fillCluster fp t p flags x d₁).image y =
      fatEntry fp d₁.image y := fun y hy => fatEntry_touches hg htouch hbehind hy
  refine ⟨?_, dataSame_of_touches htable htouch, fun hm y hy => ?_, fun hm y hy => ?_⟩
  · rw [fails_iff, hdrop, hfaults, EntryWritten, List.drop_drop, List.getElem?_drop, Nat.add_zero,
      not_not]
  · rw [hentry y hy, (hmark hm).entry y hy]
  · rw [hentry y hy, Disk.image_congr (hnomark hm), himage]

-- ---------------------------------------------------------------------------
-- The entry
-- ---------------------------------------------------------------------------

theorem written_entry (hg : Geometry fp) (hl : ∀ c ∈ l, Valid fp c) (hx : Valid fp x)
    (hname : fatNameTo83 name = some e)
    (hfirst : FirstSlot freeEntry d.sectors (dirSlots fp l) s)
    (hslots : ∀ s ∈ dirSlots fp l, SameSlot d.sectors d₂.sectors s) (flags : Nat) :
    (∀ y, Valid fp y → fatEntry fp (d₂.written s.1 (entryBuf e flags s x)).image y =
        fatEntry fp d₂.image y) ∧
      listing fp (d₂.written s.1 (entryBuf e flags s x)) l ≠ listing fp d l ∧
      deCluster ((d₂.written s.1 (entryBuf e flags s x)).sectors s.1) s.2.1 = x := by
  obtain ⟨hbuf, hfree, hlt, c, hc, hsector, hoff, -⟩ := hfirst.place hg hl
  obtain ⟨pre, post, hall, -, -, hpre⟩ := hfirst
  have hat := d₂.written_at hlt (entryBuf e flags s x)
  have htouch := d₂.written_touches hlt (entryBuf e flags s x)
  generalize d₂.written s.1 (entryBuf e flags s x) = d₃ at hat htouch
  refine ⟨fun y hy => fatEntry_touches hg htouch (fun n hn => ?_) hy, fun hsame => ?_, ?_⟩
  · rw [show n = s.1 from hn]
    exact hsector.behind
  · refine (free_not_listed ?_ : (s.1, s.2.1) ∉ liveSlots d.sectors (dirSlots fp l)) ?_
    · rw [← hbuf]
      exact hfree
    · change (s.1, s.2.1) ∈ listing fp d l
      obtain ⟨hf0, hfE5⟩ := fatNameTo83_first hname
      obtain ⟨hlfn, hvolume⟩ := newAttrs_shown flags
      have hbyte : entryBuf e flags s x (s.2.1 + 0) = e.bytes.getD 0 0 := putDirent_name (by decide)
      rw [Nat.add_zero] at hbyte
      rw [← hsame, listing, hall]
      refine listed_behind (fun y hy => ?_) ?_ ?_
      · -- the slots in front keep their first bytes
        have hused : d.sectors y.1 y.2 ≠ 0 := by
          have hno := hpre y hy
          rw [freeEntry, decide_eq_false_iff_not] at hno
          tauto
        have hy' : y ∈ dirSlots fp l := by
          rw [hall]
          exact List.mem_append_left _ hy
        by_cases hsec : y.1 = s.1
        · obtain ⟨-, -, -, hoff', -⟩ := mem_dirSlots hg hy'
          have hne : y.2 ≠ s.2.1 := by
            intro heq
            have hno := hpre y hy
            rw [hsec, heq, ← hbuf, hfree] at hno
            cases hno
          rw [hsec, hat, entryBuf, putDirent_off (by omega), hbuf, ← hsec]
          exact hused
        · rw [htouch _ hsec, (hslots y hy').first]
          exact hused
      · rw [hat, hbyte]
        exact hf0
      · have hattrs : deAttrs (entryBuf e flags s x) s.2.1 = newAttrs flags := putDirent_attrs
        rw [hat, deSkipped, hattrs, hbyte]
        simp only [hfE5, hlfn, hvolume, ne_eq, not_true_eq_false, or_false, decide_false]
  · rw [hat, entryBuf, putDirent_cluster]
    have := hx.lt_eoc hg
    rw [FAT_EOC] at this
    omega

theorem memory_succ (k : Nat) (heap : List Bool) :
    Memory (k + 1) heap ↔ heap[0]? ≠ some true ∧ Memory k heap.tail := by
  simp only [Memory, Nat.forall_lt_succ_left, List.getElem?_tail]

def madeNode (name : CStr) (flags x p : Nat) (s : FoundSlot) : VfsNode :=
  ⟨name, 0, flags, x, s.1, s.2.1, some p, []⟩

theorem writeEntry_cases (t : Tree) (p : Nat) (name : CStr) (e : FatName) (flags : Nat)
    (s : FoundSlot) (x : Nat) (d : Disk) :
    (d.fails = true ∧ writeEntry t p name e flags s x d = ((none, t), d.tick)) ∨
    (d.fails = false ∧ Memory 2 t.heap ∧ writeEntry t p name e flags s x d =
      ((some t.nextNode, t.grow p (madeNode name flags x p s)),
        d.written s.1 (entryBuf e flags s x))) ∨
    (d.fails = false ∧ ¬ Memory 2 t.heap ∧ ∃ heap, writeEntry t p name e flags s x d =
      ((none, { t with heap }), d.written s.1 (entryBuf e flags s x))) := by
  rw [writeEntry]
  obtain ⟨hf, hw⟩ | ⟨hf, hw⟩ := ataWriteSectors_cases d s.1 (entryBuf e flags s x)
  · rw [hw]
    exact .inl ⟨hf, rfl⟩
  · rw [hw, memory_succ, memory_succ, List.getElem?_tail]
    dsimp only
    obtain ⟨hn, h0, h1⟩ | ⟨heap, hn, -, hfail⟩ := fatCreateNode_cases t name 0 flags x s.1 s.2.1 (some p)
    · rw [hn]
      exact .inr (.inl ⟨hf, ⟨h0, h1, fun i hi => absurd hi (Nat.not_lt_zero i)⟩, rfl⟩)
    · rw [hn]
      refine .inr (.inr ⟨hf, ?_, heap, rfl⟩)
      rintro ⟨h0, h1, -⟩
      exact hfail.elim h0 h1

theorem writeEntry_disk (t : Tree) (p : Nat) (name : CStr) (e : FatName) (flags : Nat)
    (s : FoundSlot) (x : Nat) (d : Disk) : (writeEntry t p name e flags s x d).2 =
      if d.fails then d.tick else d.written s.1 (entryBuf e flags s x) := by
  obtain ⟨hf, hw⟩ | ⟨hf, -, hw⟩ | ⟨hf, -, heap, hw⟩ := writeEntry_cases t p name e flags s x d <;>
    · rw [hw, hf]
      rfl

-- ---------------------------------------------------------------------------
-- The outcome
-- ---------------------------------------------------------------------------

theorem newMarked_iff {n : Nat} (hhead : (t.children p).head? = some n)
    (hn : t.nodes n = some (madeNode name flags x p s))
    (hcluster : deCluster (d.sectors s.1) s.2.1 = x) :
    NewMarked fp p t d ↔ fatEntry fp d.image x ≠ 0 := by
  constructor
  · rintro ⟨n', node, hhead', hn', hne⟩
    obtain rfl := Option.some.inj (hhead.symm.trans hhead')
    obtain rfl := Option.some.inj (hn.symm.trans hn')
    rw [← hcluster]
    exact hne
  · intro hne
    refine ⟨n, _, hhead, hn, ?_⟩
    rw [← hcluster] at hne
    exact hne

theorem leavesNothing_of_unwritten (hsame : d₂.sectors = d.sectors)
    (hentry : ∀ y, Valid fp y → fatEntry fp d₃.image y = fatEntry fp d₂.image y)
    (hslots : ∀ s ∈ dirSlots fp l, SameSlot d₂.sectors d₃.sectors s)
    (hchildren : t'.children p = t.children p) : LeavesNothing fp l p t d t' d₃ where
  clusters := by
    rw [← Disk.image_congr hsame]
    exact freeClusters_congr hentry
  listed := by
    rw [listing, listing, ← hsame]
    exact liveSlots_congr hslots
  entries s hs := by
    rw [← hsame]
    exact hslots s (liveSlots_subset hs)
  children := hchildren

theorem cleanCall_iff (hg : Geometry fp) (hsame : d₂.sectors = d.sectors)
    (hl : FatChain fp d₂.image (t₂.cluster p) l) (hname : fatNameTo83 name = some e)
    (hstart : StartsWriting fp fuel p name t₂ d₂ s x d') (flags : Nat) {failed : Prop}
    (hfailed : failed ↔ ¬ (EntryWritten fp d' ∧ Memory k t₂.heap))
    (hdisk : d₃ = (writeEntry t₂ p name e flags s x (filledDisk fp t₂ p flags x d')).2)
    (hchildren : ¬ EntryWritten fp d' → t'.children p = t₂.children p)
    (hnode : ¬ failed → ∃ n, (t'.children p).head? = some n ∧
      t'.nodes n = some (madeNode name flags x p s)) :
    CleanCall fp l p t d failed t' d₃ ↔
      (MarkWritten d' ∧ EntryWritten fp d' ∧ Memory k t₂.heap) ∨
        (¬ MarkWritten d' ∧ ¬ EntryWritten fp d' ∧ t₂.children p = t.children p) := by
  obtain ⟨-, hx, hfirst⟩ := hstart.spec hg hl
  obtain ⟨hvalid, hfree⟩ := mem_freeClusters.mp hx
  obtain ⟨hfails, hdata, hmark, hnomark⟩ := filledDisk_spec hg hl hstart flags
  have hslots := hdata.sameSlots hg hl.2 hvalid fun hmem => hl.entry_ne_zero hmem hfree
  have himage := Disk.image_congr hsame
  generalize filledDisk fp t₂ p flags x d' = df at hdisk hfails hdata hslots hmark hnomark
  rw [writeEntry_disk] at hdisk
  by_cases hentry : EntryWritten fp d'
  · rw [if_neg fun h => hfails.mp h hentry] at hdisk
    obtain ⟨hsameEntry, hlisted, hcluster⟩ :=
      written_entry hg hl.2 hvalid hname hfirst hslots flags
    rw [← hdisk] at hsameEntry hlisted hcluster
    by_cases hmem : Memory k t₂.heap
    · have hnot : ¬ failed := fun h => hfailed.mp h ⟨hentry, hmem⟩
      obtain ⟨n, hhead, hn⟩ := hnode hnot
      have hmarked : fatEntry fp d₃.image x ≠ 0 ↔ MarkWritten d' := by
        rw [hsameEntry x hvalid]
        by_cases hm : MarkWritten d'
        · rw [hmark hm x hvalid, if_pos rfl]
          exact ⟨fun _ => hm, fun _ => by decide⟩
        · rw [hnomark hm x hvalid, hfree]
          exact ⟨fun h => absurd rfl h, fun h => absurd h hm⟩
      rw [CleanCall, newMarked_iff hhead hn hcluster, hmarked]
      constructor
      · rintro ⟨-, hm⟩
        exact .inl ⟨hm hnot, hentry, hmem⟩
      · rintro (⟨hm, -, -⟩ | ⟨-, hno, -⟩)
        · exact ⟨fun h => absurd h hnot, fun _ => hm⟩
        · exact absurd hentry hno
    · have hyes : failed := hfailed.mpr fun h => hmem h.2
      constructor
      · intro h
        refine absurd ((h.1 hyes).listed.trans ?_) hlisted
        rw [listing, listing, hsame]
      · rintro (⟨-, -, h⟩ | ⟨-, h, -⟩)
        · exact absurd h hmem
        · exact absurd hentry h
  · have hyes : failed := hfailed.mpr fun h => hentry h.1
    rw [if_pos (hfails.mpr hentry)] at hdisk
    have hticked : d₃.sectors = df.sectors := by
      rw [hdisk]
      rfl
    by_cases hm : MarkWritten d'
    · constructor
      · intro h
        have hclusters := (h.1 hyes).clusters
        rw [← himage] at hclusters
        rw [← hclusters, Disk.image_congr hticked, mem_freeClusters, hmark hm x hvalid, if_pos rfl]
          at hx
        exact absurd hx.2 (by decide)
      · rintro (⟨-, h, -⟩ | ⟨h, -, -⟩)
        · exact absurd h hentry
        · exact absurd hm h
    · constructor
      · intro h
        refine .inr ⟨hm, hentry, ?_⟩
        rw [← hchildren hentry]
        exact (h.1 hyes).children
      · rintro (⟨h, -, -⟩ | ⟨-, -, h⟩)
        · exact absurd h hm
        · rw [← hticked] at hslots
          rw [← Disk.image_congr hticked] at hnomark
          exact ⟨fun _ => leavesNothing_of_unwritten hsame (hnomark hm) hslots
            ((hchildren hentry).trans h), fun hno => absurd hyes hno⟩

theorem CleanWhen.iff_of_starts (hstart : StartsWriting fp fuel p name t₂ d₂ s x d') :
    CleanWhen fp fuel p name k t t₂ d₂ ↔ (MarkWritten d' ∧ EntryWritten fp d' ∧ Memory k t₂.heap) ∨
      (¬ MarkWritten d' ∧ ¬ EntryWritten fp d' ∧ t₂.children p = t.children p) := by
  constructor
  · intro h
    exact h.1 s x d' hstart
  · intro h
    refine ⟨fun s' x' d'' hstart' => ?_, fun hno => absurd ⟨s, x, d', hstart⟩ hno⟩
    obtain ⟨-, d₁, hfind, hfree⟩ := hstart
    obtain ⟨-, d₁', hfind', hfree'⟩ := hstart'
    cases hfind.symm.trans hfind'
    cases hfree.symm.trans hfree'
    exact h

theorem refused_iff (hsame : d₂.sectors = d.sectors) (hsame' : d₃.sectors = d₂.sectors)
    (hno : ¬ ∃ s x d', StartsWriting fp fuel p name t₂ d₂ s x d') {failed : Prop} (hfailed : failed) :
    CleanCall fp l p t d failed t₂ d₃ ↔ CleanWhen fp fuel p name k t t₂ d₂ := by
  have hall := hsame'.trans hsame
  constructor
  · intro h
    exact ⟨fun s x d' hstart => absurd ⟨s, x, d', hstart⟩ hno, fun _ => (h.1 hfailed).children⟩
  · intro h
    refine ⟨fun _ => ⟨?_, ?_, fun s _ i _ => ?_, h.2 hno⟩, fun hnot => absurd hfailed hnot⟩
    · rw [Disk.image_congr hall]
    · rw [listing, listing, hall]
    · rw [hall]

/-- How a call passes on what `fat_create` returns: it needs memory for `k` more objects, and
changes nothing but the heap. -/
structure PassesOn (wrap : Option Nat × Tree × Disk → α × Tree × Disk) (Failed : α → Prop) (k : Nat) :
    Prop where
  disk : ∀ r, (wrap r).2.2 = r.2.2
  refused : ∀ t d, Failed (wrap (none, t, d)).1 ∧ (wrap (none, t, d)).2.1 = t
  made : ∀ n t d, (Failed (wrap (some n, t, d)).1 ↔ ¬ Memory k t.heap) ∧
    (wrap (some n, t, d)).2.1.nodes = t.nodes

theorem Tree.children_congr (h : t'.nodes = t.nodes) (p : Nat) : t'.children p = t.children p := by
  rw [Tree.children, Tree.children, h]

theorem Tree.grow_head {dir node : VfsNode} (hf : t.Fresh) (hp : t.nodes p = some dir) :
    ((t.grow p node).children p).head? = some t.nextNode := by
  rw [Tree.children_eq (Tree.grow_parent hf hp node)]
  rfl

theorem memory_add_two (k : Nat) (heap : List Bool) :
    Memory (k + 2) heap ↔ Memory 2 heap ∧ Memory k heap.tail.tail := by
  have h0 : Memory 0 heap.tail.tail := fun i hi => absurd hi (Nat.not_lt_zero i)
  rw [memory_succ, memory_succ, memory_succ, memory_succ]
  tauto

/-- A call of `fs->create` is clean exactly under the condition. -/
theorem call_clean_iff {wrap : Option Nat × Tree × Disk → α × Tree × Disk} {Failed : α → Prop}
    (hwrap : PassesOn wrap Failed k) (hg : Geometry fp) (hf : t₂.Fresh) (hp : t₂.nodes p = some dir)
    (hsame : d₂.sectors = d.sectors) (hl : FatChain fp d₂.image (t₂.cluster p) l)
    (hflags : flags &&& (VFS_FILE ||| VFS_DIR) ≠ 0) {ret : α}
    (h : (fatCreate fp fuel p name flags t₂ d₂).map wrap = some (ret, t', d')) :
    CleanCall fp l p t d (Failed ret) t' d' ↔ CleanWhen fp fuel p name (k + 2) t t₂ d₂ := by
  obtain ⟨r, hcreate, heq⟩ := Option.map_eq_some_iff.mp h
  obtain rfl : (wrap r).1 = ret := by rw [heq]
  obtain rfl : (wrap r).2.1 = t' := by rw [heq]
  obtain rfl : (wrap r).2.2 = d' := by rw [heq]
  by_cases hstart : ∃ s x d', StartsWriting fp fuel p name t₂ d₂ s x d'
  · obtain ⟨s, x, dw, hstart⟩ := hstart
    obtain ⟨e, hname⟩ := Option.ne_none_iff_exists'.mp hstart.1
    rw [fatCreate_writes hg hl hflags hname hstart] at hcreate
    obtain rfl := Option.some.inj hcreate
    rw [CleanWhen.iff_of_starts hstart]
    obtain ⟨hfails, -⟩ := filledDisk_spec hg hl hstart flags
    have hok : (filledDisk fp t₂ p flags x dw).fails = false ↔ EntryWritten fp dw := by
      rw [← Bool.not_eq_true, hfails, not_not]
    have hdisk := hwrap.disk (created (writeEntry t₂ p name e flags s x
      (filledDisk fp t₂ p flags x dw)))
    obtain ⟨hf', hw⟩ | ⟨hf', hmem, hw⟩ | ⟨hf', hmem, heap, hw⟩ :=
      writeEntry_cases t₂ p name e flags s x (filledDisk fp t₂ p flags x dw)
    · obtain ⟨hfailed, htree⟩ := hwrap.refused t₂ (filledDisk fp t₂ p flags x dw).tick
      refine cleanCall_iff hg hsame hl hname hstart flags ?_ hdisk (fun _ => ?_) fun hno => ?_
      · rw [hw]
        exact ⟨fun _ h => hfails.mp hf' h.1, fun _ => hfailed⟩
      · rw [hw]
        exact Tree.children_congr (congrArg Tree.nodes htree) p
      · rw [hw] at hno
        exact absurd hfailed hno
    · obtain ⟨hfailed, htree⟩ := hwrap.made t₂.nextNode (t₂.grow p (madeNode name flags x p s))
        ((filledDisk fp t₂ p flags x dw).written s.1 (entryBuf e flags s x))
      rw [Tree.grow_heap hf hp] at hfailed
      refine cleanCall_iff hg hsame hl hname hstart flags ?_ hdisk (fun hno => ?_) fun _ => ?_
      · rw [hw, memory_add_two]
        exact hfailed.trans (not_congr ⟨fun h => ⟨hok.mp hf', hmem, h⟩, fun h => h.2.2⟩)
      · exact absurd (hok.mp hf') hno
      · rw [hw]
        refine ⟨t₂.nextNode, ?_, ?_⟩
        · exact (congrArg List.head? (Tree.children_congr htree p)).trans (Tree.grow_head hf hp)
        · exact (congrFun htree _).trans (Tree.grow_new hf hp _)
    · obtain ⟨hfailed, htree⟩ := hwrap.refused { t₂ with heap }
        ((filledDisk fp t₂ p flags x dw).written s.1 (entryBuf e flags s x))
      refine cleanCall_iff hg hsame hl hname hstart flags ?_ hdisk (fun _ => ?_) fun hno => ?_
      · rw [hw, memory_add_two]
        exact ⟨fun _ h => hmem h.2.1, fun _ => hfailed⟩
      · rw [hw]
        exact Tree.children_congr (congrArg Tree.nodes htree) p
      · rw [hw] at hno
        exact absurd hfailed hno
  · obtain ⟨r, t₃, d₃⟩ := r
    obtain ⟨rfl, rfl, hsame'⟩ := fatCreate_refuses hg hl hflags hstart hcreate
    obtain ⟨hfailed, htree⟩ := hwrap.refused t₃ d₃
    rw [htree, hwrap.disk]
    exact refused_iff hsame hsame'.sectors hstart hfailed

-- ---------------------------------------------------------------------------
-- The calls
-- ---------------------------------------------------------------------------

/-- The path names nothing yet, and the call comes to `fs->create` for `name` in the directory
`p`, with the tree `t₂` and the drive `d₂`. -/
def Reaches (fp : FatPrivate) (fuel : Nat) (path : CStr) (t : Tree) (d : Disk) (p : Nat) (name : CStr)
    (t₂ : Tree) (d₂ : Disk) : Prop :=
  ∃ rest t₁ d₁, vfsRest path = some rest ∧ vfsResolve fp fuel rest t d = some (none, t₁, d₁) ∧
    vfsParent fp fuel rest t₁ d₁ = some (some (p, name), t₂, d₂)

variable {path rest : CStr} {t₁ : Tree} {d₁ : Disk} {ret : Int} {f : Option VfsFile}

theorem Reaches.grows (h : Reaches fp fuel path t d p name t₂ d₂) (hf : t.Fresh) :
    d₂.sectors = d.sectors ∧ t₂.Fresh ∧ ∃ dir, t₂.nodes p = some dir := by
  obtain ⟨rest, t₁, d₁, -, hnew, hparent⟩ := h
  obtain ⟨hreads, hgrows⟩ := vfsResolve_grows hf hnew
  obtain ⟨⟨hreads', hgrows'⟩, hdir⟩ := vfsParent_grows hgrows.fresh hparent
  obtain ⟨dir, hp, -⟩ := hdir p name rfl
  exact ⟨(hreads.trans hreads').sectors, hgrows'.fresh, dir, hp⟩

theorem Reaches.create (h : Reaches fp fuel path t d p name t₂ d₂) :
    vfsCreate fp fuel path t d = (fatCreate fp fuel p name VFS_FILE t₂ d₂).map openMade := by
  obtain ⟨rest, t₁, d₁, hrest, hnew, hparent⟩ := h
  rw [vfsCreate, hrest]
  dsimp only
  rw [hnew]
  dsimp only [Option.filter_none]
  rw [vfsMake, hparent]
  dsimp only
  generalize fatCreate fp fuel p name VFS_FILE t₂ d₂ = r
  obtain _ | ⟨_ | n, t', d'⟩ := r <;> rfl

theorem Reaches.mkdir (h : Reaches fp fuel path t d p name t₂ d₂) :
    vfsMkdir fp fuel path t d = (fatCreate fp fuel p name VFS_DIR t₂ d₂).map madeDir := by
  obtain ⟨rest, t₁, d₁, hrest, hnew, hparent⟩ := h
  rw [vfsMkdir, hrest]
  dsimp only
  rw [hnew]
  dsimp only
  rw [vfsMake, hparent]
  dsimp only
  generalize fatCreate fp fuel p name VFS_DIR t₂ d₂ = r
  obtain _ | ⟨_ | n, t', d'⟩ := r <;> rfl

theorem madeDir_passesOn : PassesOn madeDir (· = -1) 0 where
  disk _ := rfl
  refused _ _ := ⟨rfl, rfl⟩
  made n t d := by
    refine ⟨⟨fun h => absurd h (show ¬ ((0 : Int) = -1) by decide), fun h => ?_⟩, rfl⟩
    exact absurd (fun i hi => absurd hi (Nat.not_lt_zero i)) h

theorem openMade_passesOn : PassesOn openMade (· = none) 1 where
  disk r := by
    obtain ⟨_ | n, t, d⟩ := r <;> rfl
  refused _ _ := ⟨rfl, rfl⟩
  made n t d := by
    have h0 : Memory 0 t.heap.tail := fun i hi => absurd hi (Nat.not_lt_zero i)
    rw [memory_succ, openMade]
    dsimp only
    rw [openFile]
    obtain ⟨hk, h⟩ | ⟨hk, h⟩ := kmalloc_cases t.heap
    · rw [hk]
      exact ⟨⟨fun hno => absurd hno (Option.some_ne_none _), fun hno => absurd ⟨h, h0⟩ hno⟩, rfl⟩
    · rw [hk]
      exact ⟨⟨fun _ hno => hno.1 h, fun _ => rfl⟩, rfl⟩

/-- The drive and the lists of children are the same, but for lists that had not been read. -/
def Untouched (t : Tree) (d : Disk) (t' : Tree) (d' : Disk) : Prop :=
  d'.sectors = d.sectors ∧ ∀ n, t.children n ≠ [] → t'.children n = t.children n

theorem Grows.untouched (h : Grows t t') (hreads : Reads d d') : Untouched t d t' d' := by
  refine ⟨hreads.sectors, fun n hne => ?_⟩
  cases hn : t.nodes n with
  | none =>
    rw [Tree.children, hn] at hne
    exact absurd rfl hne
  | some node =>
    obtain ⟨cs, hcs, hkeep⟩ := h.nodes n node hn
    rw [Tree.children_eq hn] at hne ⊢
    rw [Tree.children_eq hcs, hkeep hne]

theorem Loads.untouched (h : Loads fp fuel t d t' d') (hf : t.Fresh) : Untouched t d t' d' := by
  obtain ⟨hreads, hgrows⟩ := h _ (grows_rule fp fuel) hf
  exact hgrows.untouched hreads

/-- A call that does not come to `fs->create` fails and loads directories at most. -/
theorem vfsMake_unreached (hrest : vfsRest path = some rest)
    (hnew : vfsResolve fp fuel rest t d = some (none, t₁, d₁))
    (hno : ¬ ∃ p name t₂ d₂, Reaches fp fuel path t d p name t₂ d₂)
    (h : vfsMake fp fuel rest flags t₁ d₁ = some (r, t', d')) : r = none ∧ Loads fp fuel t d t' d' := by
  rw [vfsMake] at h
  rcases hparent : vfsParent fp fuel rest t₁ d₁ with _ | ⟨_ | ⟨p, name⟩, t₂, d₂⟩
  · rw [hparent] at h
    cases h
  · rw [hparent] at h
    cases h
    exact ⟨rfl, (vfsResolve_loads hnew).trans (vfsParent_loads hparent)⟩
  · exact absurd ⟨p, name, t₂, d₂, rest, t₁, d₁, hrest, hnew, hparent⟩ hno

theorem vfsMkdir_unreached (hno : ¬ ∃ p name t₂ d₂, Reaches fp fuel path t d p name t₂ d₂)
    (h : vfsMkdir fp fuel path t d = some (ret, t', d')) : ret = -1 ∧ Loads fp fuel t d t' d' := by
  rw [vfsMkdir] at h
  cases hrest : vfsRest path with
  | none =>
    rw [hrest] at h
    cases h
    exact ⟨rfl, .refl⟩
  | some rest =>
    rw [hrest] at h
    dsimp only at h
    rcases hnew : vfsResolve fp fuel rest t d with _ | ⟨_ | n, t₁, d₁⟩
    · rw [hnew] at h
      cases h
    · rw [hnew] at h
      dsimp only at h
      rcases hmake : vfsMake fp fuel rest VFS_DIR t₁ d₁ with _ | ⟨r, t₂, d₂⟩
      · rw [hmake] at h
        cases h
      · obtain ⟨rfl, hloads⟩ := vfsMake_unreached hrest hnew hno hmake
        rw [hmake] at h
        cases h
        exact ⟨rfl, hloads⟩
    · rw [hnew] at h
      cases h
      exact ⟨rfl, vfsResolve_loads hnew⟩

def NewPath (fp : FatPrivate) (fuel : Nat) (path : CStr) (t : Tree) (d : Disk) : Prop :=
  ∀ rest, vfsRest path = some rest → ∀ n t₁ d₁, vfsResolve fp fuel rest t d ≠ some (some n, t₁, d₁)

theorem vfsCreate_unreached (hpath : NewPath fp fuel path t d)
    (hno : ¬ ∃ p name t₂ d₂, Reaches fp fuel path t d p name t₂ d₂)
    (h : vfsCreate fp fuel path t d = some (f, t', d')) : f = none ∧ Loads fp fuel t d t' d' := by
  rw [vfsCreate] at h
  cases hrest : vfsRest path with
  | none =>
    rw [hrest] at h
    cases h
    exact ⟨rfl, .refl⟩
  | some rest =>
    rw [hrest] at h
    dsimp only at h
    rcases hnew : vfsResolve fp fuel rest t d with _ | ⟨_ | n, t₁, d₁⟩
    · rw [hnew] at h
      cases h
    · rw [hnew] at h
      dsimp only [Option.filter_none] at h
      rcases hmake : vfsMake fp fuel rest VFS_FILE t₁ d₁ with _ | ⟨r, t₂, d₂⟩
      · rw [hmake] at h
        cases h
      · obtain ⟨rfl, hloads⟩ := vfsMake_unreached hrest hnew hno hmake
        rw [hmake] at h
        cases h
        exact ⟨rfl, hloads⟩
    · exact absurd hnew (hpath rest hrest n t₁ d₁)

/-- Both calls, for a path that names nothing: where they come to `fs->create` they are clean
exactly under the condition, with memory for the node, its data and the handle; elsewhere they
fail and change nothing. -/
theorem creation_clean_iff (hg : Geometry fp) (hf : t.Fresh) (fuel : Nat) (path : CStr) (d : Disk) :
    (∀ p name t₂ d₂ l, Reaches fp fuel path t d p name t₂ d₂ →
      FatChain fp d.image (t₂.cluster p) l →
      (∀ f t' d', vfsCreate fp fuel path t d = some (f, t', d') →
        (CleanCall fp l p t d (f = none) t' d' ↔ CleanWhen fp fuel p name 3 t t₂ d₂)) ∧
      ∀ ret t' d', vfsMkdir fp fuel path t d = some (ret, t', d') →
        (CleanCall fp l p t d (ret = -1) t' d' ↔ CleanWhen fp fuel p name 2 t t₂ d₂)) ∧
    ((¬ ∃ p name t₂ d₂, Reaches fp fuel path t d p name t₂ d₂) →
      (∀ f t' d', NewPath fp fuel path t d → vfsCreate fp fuel path t d = some (f, t', d') →
        f = none ∧ Untouched t d t' d') ∧
      ∀ ret t' d', vfsMkdir fp fuel path t d = some (ret, t', d') →
        ret = -1 ∧ Untouched t d t' d') := by
  refine ⟨fun p name t₂ d₂ l hat hl => ?_, fun hno => ⟨fun f t' d' hpath h => ?_, fun ret t' d' h => ?_⟩⟩
  · obtain ⟨hsame, hfresh, dir, hp⟩ := hat.grows hf
    rw [← Disk.image_congr hsame] at hl
    refine ⟨fun f t' d' h => ?_, fun ret t' d' h => ?_⟩
    · rw [hat.create] at h
      exact call_clean_iff openMade_passesOn hg hfresh hp hsame hl (by decide) h
    · rw [hat.mkdir] at h
      exact call_clean_iff madeDir_passesOn hg hfresh hp hsame hl (by decide) h
  · obtain ⟨hfail, hloads⟩ := vfsCreate_unreached hpath hno h
    exact ⟨hfail, hloads.untouched hf⟩
  · obtain ⟨hfail, hloads⟩ := vfsMkdir_unreached hno h
    exact ⟨hfail, hloads.untouched hf⟩

-- ---------------------------------------------------------------------------
-- A directory with one file
-- ---------------------------------------------------------------------------

def oneFileDisk : Disk where
  sectors n :=
    if n = 1 ∨ n = 2 then putLE (fun _ => 0) 8 4 FAT_EOC
    else if n = 3 then putDirent (fun _ => 0) 0 (pad 11 (cstr ['A'])) FAT_ATTR_ARCHIVE 0
    else fun _ => 0
  faults := []

def oneFileTree (heap : List Bool) : Tree where
  nodes n :=
    if n = 0 then some {
      name := cstr ['/'], size := 0, flags := VFS_DIR, cluster := 2, dirLba := 0, dirOff := 0
      parent := none, children := [1] }
    else if n = 1 then some (slotNode oneFileDisk.sectors 0 (3, 0))
    else none
  nextNode := 2
  root := some 0
  heap := heap

theorem oneFile_fresh (heap : List Bool) : (oneFileTree heap).Fresh := by
  constructor
  · intro n hn
    rw [oneFileTree] at hn ⊢
    dsimp only at hn ⊢
    rw [if_neg (by omega), if_neg (by omega)]
  · intro n node hn c hc
    rw [oneFileTree] at hn ⊢
    dsimp only at hn ⊢
    split at hn
    · cases hn
      rw [List.mem_singleton.mp hc]
      decide
    · split at hn
      · cases hn
        cases hc
      · cases hn

theorem oneFile_chain (heap : List Bool) :
    FatChain mirroredFp oneFileDisk.image ((oneFileTree heap).cluster 0) [2] := by
  rw [show (oneFileTree heap).cluster 0 = 2 from rfl]
  refine ⟨.link (by decide) (.nil (by decide +kernel)), fun x hx => ?_⟩
  rw [List.mem_singleton.mp hx]
  exact ⟨by decide, by decide⟩

theorem oneFile_reaches (heap : List Bool) : Reaches mirroredFp 2 slashX (oneFileTree heap) oneFileDisk
    0 (cstr ['x']) (oneFileTree heap) oneFileDisk := by
  have hname : slotName oneFileDisk.sectors (3, 0) ≠ cstr ['x'] := by decide +kernel
  have hfind : (oneFileTree heap).find (cstr ['x']) ((oneFileTree heap).children 0) = none := by
    rw [Tree.find_eq_none]
    intro c hc node hn
    rw [List.mem_singleton.mp hc] at hn
    cases hn
    exact hname
  have hload : vfsLoad mirroredFp 2 0 (oneFileTree heap) oneFileDisk =
      some (oneFileTree heap, oneFileDisk) := if_neg (List.cons_ne_nil 1 [])
  have hdir : (oneFileTree heap).hasFlag 0 VFS_DIR = true :=
    decide_eq_true (show VFS_DIR &&& VFS_DIR ≠ 0 by decide)
  have hroot : (oneFileTree heap).root = some 0 := rfl
  refine ⟨cstr ['x'], oneFileTree heap, oneFileDisk, slashX_rest, ?_, ?_⟩
  · rw [vfsResolve, hroot]
    dsimp only
    rw [show strtok [] (cstr ['x']) = [cstr ['x']] by decide, vfsWalk, if_pos hdir, hload]
    dsimp only
    rw [hfind]
  · rw [vfsParent, slashX_parent]
    dsimp only
    rw [vfsResolve, hroot, show strtok [] [] = [] from rfl]
    dsimp only [vfsWalk]
    rw [if_pos hdir, hload]
    rfl

/-- With memory and without errors the new directory is clean. -/
theorem oneFile_made : ∃ t' d', vfsMkdir mirroredFp 2 slashX (oneFileTree []) oneFileDisk = some (0, t', d') ∧
    CleanCall mirroredFp [2] 0 (oneFileTree []) oneFileDisk ((0 : Int) = -1) t' d' := by
  have hret : (vfsMkdir mirroredFp 2 slashX (oneFileTree []) oneFileDisk).map Prod.fst = some 0 := by
    decide +kernel
  obtain ⟨⟨ret, t', d'⟩, hcall, rfl⟩ := Option.map_eq_some_iff.mp hret
  have hiff := ((creation_clean_iff mirrored_layout (oneFile_fresh []) 2 slashX oneFileDisk).1 _ _ _ _
    _ (oneFile_reaches []) (oneFile_chain [])).2 _ _ _ hcall
  refine ⟨t', d', hcall, hiff.mpr ⟨fun s x d₂ hstart => .inl ?_, fun _ => rfl⟩⟩
  have hfaults : d₂.faults = [] :=
    List.suffix_nil.mp (hstart.spec mirrored_layout (oneFile_chain [])).1.faults
  refine ⟨⟨?_, ?_⟩, ?_, fun i _ => ?_⟩
  · rw [Disk.fails, hfaults]
    rfl
  · rw [Disk.fails, Disk.tick, hfaults]
    rfl
  · rw [EntryWritten, hfaults, List.getElem?_nil]
    exact (Option.some_ne_none true).symm
  · rw [show (oneFileTree []).heap = [] from rfl, List.getElem?_nil]
    exact (Option.some_ne_none true).symm

/-- Without memory for the node the call fails, and a cluster is marked for good. -/
theorem starved_mkdir : ¬ ∀ (fp : FatPrivate) (fuel : Nat) (path name : CStr) (t t₂ t' : Tree)
    (d d₂ d' : Disk) (p : Nat) (l : List Nat) (ret : Int), Geometry fp → t.Fresh →
    Reaches fp fuel path t d p name t₂ d₂ → FatChain fp d.image (t₂.cluster p) l →
    vfsMkdir fp fuel path t d = some (ret, t', d') → CleanCall fp l p t d (ret = -1) t' d' := by
  intro hall
  have hret : (vfsMkdir mirroredFp 2 slashX (oneFileTree [true]) oneFileDisk).map (fun r =>
      (r.1, decide (3 ∈ freeClusters mirroredFp r.2.2.image))) = some (-1, false) := by
    decide +kernel
  obtain ⟨⟨ret, t', d'⟩, hcall, heq⟩ := Option.map_eq_some_iff.mp hret
  obtain ⟨rfl, hused⟩ := Prod.mk.inj heq
  have hclean := hall _ _ _ _ _ _ _ _ _ _ _ _ _ mirrored_layout (oneFile_fresh [true])
    (oneFile_reaches [true]) (oneFile_chain [true]) hcall
  have hfree : 3 ∈ freeClusters mirroredFp oneFileDisk.image := by decide +kernel
  rw [← (hclean.1 rfl).clusters] at hfree
  exact of_decide_eq_false hused hfree

end EponaOS.Fs
