import EponaOS.Mm.HeapRun

/-!
# Free neighbours in the kernel heap

`kfree` merges the block with the one before it or else with the one after it, in one step
either way. A block that is freed between two free ones is taken in by the one before it, and the
one after it is left alone: two free blocks are neighbours then.
-/

namespace EponaOS.Mm

open Bytes BlockList

variable {s s' : Heap} {a b c : Blk} {bs bs' pre post : List Blk} {live : List Nat}
  {H : Nat → Header} {mem : Bytes} {machine : Machine} {calls : List AreaCall}
  {prev prev' size ptr p fuel : Nat}

-- ---------------------------------------------------------------------------
-- Calls that do not grow the heap
-- ---------------------------------------------------------------------------

/-- The request is served from the list, or there are no frames to grow with. -/
def InArea (s : Heap) (size : Nat) : Prop :=
  size = 0 ∨ (∃ fuel curr, firstFit s.mem (allocTotal size) fuel s.gHeapStart = some curr ∧ curr ≠ 0) ∨
    (growPages s.machine (BitVec.ofNat 64 s.gHeapVirtTop) (growCount (allocTotal size))).1 = false

inductive AreaCall
  | kmalloc (size : Nat)
  | kfree (ptr : Nat)

def areaStep (x : Heap × List Nat) : AreaCall → Heap × List Nat → Prop
  | .kmalloc size, x' => InArea x.1 size ∧ ∃ fuel p s', Mm.kmalloc fuel x.1 size = some (p, s') ∧
      x' = (s', if p = 0 then x.2 else p :: x.2)
  | .kfree ptr, x' => (ptr = 0 ∨ ptr ∈ x.2) ∧ x' = (Mm.kfree x.1 ptr, x.2.filter (· != ptr))

/-- The blocks before and after the one of `ptr` are both free. -/
def BothFree (s : Heap) (ptr : Nat) : Prop :=
  let h := ptr - HEADER_SIZE
  (hdrPrev s.mem h ≠ 0 ∧ hdrFree s.mem (hdrPrev s.mem h) ≠ 0) ∧
    (hdrNext s.mem h ≠ 0 ∧ hdrFree s.mem (hdrNext s.mem h) ≠ 0)

def mergeOk (x : Heap × List Nat) : AreaCall → Prop
  | .kmalloc _ => True
  | .kfree ptr => ptr = 0 ∨ ¬ BothFree x.1 ptr

/-- The blocks of the list, over the area that `heap_init` set up. -/
structure AreaList (s : Heap) (bs : List Blk) : Prop where
  tiles : Tiles MIN_BLOCK HEAP_START bs (HEAP_START + 256 * pageSize)
  linked : Linked (header s.mem) 0 bs 0
  start : s.gHeapStart = headAddr bs 0

/-- No two neighbours are free, and with nothing live the heap is one free block. -/
def AreaMerged (s : Heap) (live : List Nat) : Prop :=
  ∀ bs, AreaList s bs → Merged bs ∧ (live = [] → bs = [⟨HEAP_START, 256 * pageSize, true⟩])

theorem AreaList.pos (h : AreaList s bs) (hb : b ∈ bs) : 0 < b.addr :=
  Nat.lt_of_lt_of_le (by decide) (h.tiles.mem hb).1

theorem linked_unique (h : Linked H prev bs 0) (h' : Linked H prev' bs' 0)
    (hhead : headAddr bs 0 = headAddr bs' 0) (hpos : ∀ b ∈ bs, 0 < b.addr)
    (hpos' : ∀ b ∈ bs', 0 < b.addr) : bs = bs' := by
  induction bs generalizing bs' prev prev' with
  | nil =>
    rcases bs' with _ | ⟨c, cs⟩
    · rfl
    · have hc := hpos' c List.mem_cons_self
      rw [headAddr_nil, headAddr_cons] at hhead
      omega
  | cons b bs ih =>
    rcases bs' with _ | ⟨c, cs⟩
    · have hb := hpos b List.mem_cons_self
      rw [headAddr_nil, headAddr_cons] at hhead
      omega
    · obtain ⟨hb, hbs⟩ := h
      obtain ⟨hc, hcs⟩ := h'
      obtain ⟨x, n, f⟩ := b
      obtain ⟨y, k, g⟩ := c
      dsimp only [headAddr_cons] at hhead hb hc
      subst hhead
      obtain ⟨rfl, rfl, hnext, rfl⟩ := Header.mk.inj (hb.symm.trans hc)
      rw [ih hbs hcs hnext (fun d hd => hpos d (List.mem_cons_of_mem _ hd))
        fun d hd => hpos' d (List.mem_cons_of_mem _ hd)]

theorem AreaList.unique (h : AreaList s bs) (h' : AreaList s bs') : bs = bs' :=
  linked_unique h.linked h'.linked (h.start.symm.trans h'.start) (fun _ hb => h.pos hb)
    fun _ hb => h'.pos hb

-- ---------------------------------------------------------------------------
-- What the calls do to the list
-- ---------------------------------------------------------------------------

theorem allocTotal_min (size : Nat) : MIN_BLOCK ≤ allocTotal size := by
  unfold allocTotal
  dsimp only
  generalize (if size % HEAP_ALIGN ≠ 0 then
    (size + HEAP_ALIGN - 1) % 2 ^ 64 / HEAP_ALIGN * HEAP_ALIGN else size) = r
  split
  · exact Nat.le_refl _
  · rename_i h
    exact Nat.not_lt.mp h

/-- A request without growth: nothing happens to the blocks, or the first that fits is taken. -/
theorem kmalloc_area (hr : HeapRep s bs) (harea : InArea s size)
    (h : kmalloc fuel s size = some (p, s')) :
    s'.gHeapVirtTop = s.gHeapVirtTop ∧
      ((p = 0 ∧ (size = 0 ∨ ∀ x ∈ bs, ¬ Fits (allocTotal size) x) ∧ HeapRep s' bs) ∨
      ∃ pre b post, bs = pre ++ [b] ++ post ∧ Fits (allocTotal size) b ∧
        (∀ x ∈ pre, ¬ Fits (allocTotal size) x) ∧ p = b.addr + HEADER_SIZE ∧
        HeapRep s' (pre ++ takeBlk b (allocTotal size) ++ post)) := by
  unfold kmalloc at h
  split at h
  · rename_i h0
    cases h
    exact ⟨rfl, .inl ⟨rfl, .inl h0, hr⟩⟩
  rename_i h0
  dsimp only at h
  split at h
  · cases h
  rename_i curr hcurr
  have hfirst := hcurr
  rw [hr.start] at hfirst
  obtain ⟨rfl, hall⟩ | ⟨pre, b, post, rfl, hfit, rfl, hbefore⟩ :=
    firstFit_linked hr.linked (fun b hb => (hr.block hb).1) hfirst
  · -- with no fit in the list there are no frames to grow with
    have hfail : (growPages s.machine (BitVec.ofNat 64 s.gHeapVirtTop)
        (growCount (allocTotal size))).1 = false := by
      obtain rfl | ⟨fuel', curr, hcurr', hne⟩ | hfail := harea
      · exact absurd rfl h0
      · rw [hr.start] at hcurr'
        obtain ⟨rfl, -⟩ | ⟨pre, b, post, rfl, hfit, -⟩ :=
          firstFit_linked hr.linked (fun b hb => (hr.block hb).1) hcurr'
        · exact absurd rfl hne
        · exact absurd hfit (hall b (by simp))
      · exact hfail
    rw [if_neg (not_not.mpr rfl), growHeap] at h
    dsimp only at h
    rcases hg : growPages s.machine (BitVec.ofNat 64 s.gHeapVirtTop) (growCount (allocTotal size))
      with ⟨ok, machine⟩
    rw [hg] at h hfail
    have hframes := growPages_freeFrames hg
    subst hfail
    cases h
    have hfr := hr.frames
    refine ⟨rfl, .inl ⟨rfl, .inr hall, hr.tiles, hr.linked, hr.start, hr.nonempty, ?_⟩⟩
    simp only [pageSize, Bool.false_eq_true, if_false] at *
    omega
  · have hb := (hr.block (b := b) (by simp)).1
    rw [if_pos (by omega)] at h
    cases h
    exact ⟨rfl, .inr ⟨pre, b, post, rfl, hfit, hbefore, rfl,
      hr.takeFit (allocTotal_min size) hfit.2⟩⟩

theorem kfree_gHeapVirtTop (s : Heap) (p : Nat) : (kfree s p).gHeapVirtTop = s.gHeapVirtTop := by
  unfold kfree
  split
  · rfl
  · dsimp only
    split <;> rfl

theorem HeapRep.next_free (hr : HeapRep s (pre ++ [b] ++ post)) :
    (hdrNext s.mem b.addr ≠ 0 ∧ hdrFree s.mem (hdrNext s.mem b.addr) ≠ 0) ↔
      ∃ c cs, post = c :: cs ∧ c.free = true := by
  have hn : hdrNext s.mem b.addr = headAddr post 0 := by rw [hdrNext_eq, hr.header]
  rw [hn]
  rcases post with _ | ⟨c, cs⟩
  · simp
  · have hrc : HeapRep s ((pre ++ [b]) ++ [c] ++ cs) := by simpa using hr
    have hc := (hrc.block (b := c) (by simp)).1
    rw [headAddr_cons, hdrFree_ne_zero, hrc.header]
    constructor
    · rintro ⟨-, hfree⟩
      exact ⟨c, cs, rfl, hfree⟩
    · rintro ⟨c', cs', heq, hfree⟩
      cases heq
      exact ⟨by omega, hfree⟩

theorem HeapRep.bothFree_iff (pre : List Blk) (hr : HeapRep s (pre ++ [b] ++ post)) :
    BothFree s (b.addr + HEADER_SIZE) ↔ (∃ a as, pre = as ++ [a] ∧ a.free = true) ∧
      ∃ c cs, post = c :: cs ∧ c.free = true := by
  have hsub : b.addr + HEADER_SIZE - HEADER_SIZE = b.addr := Nat.add_sub_cancel ..
  unfold BothFree
  dsimp only
  rw [hsub, hr.prev_free, hr.next_free]

-- ---------------------------------------------------------------------------
-- Free neighbours
-- ---------------------------------------------------------------------------

theorem merged_append : Merged (pre ++ post) ↔ Merged pre ∧ Merged post ∧
    ∀ a ∈ pre.getLast?, ∀ c ∈ post.head?, ¬ (a.free = true ∧ c.free = true) := List.isChain_append

theorem Freed.merged_iff (h : Freed pre b post bs') (hm : Merged (pre ++ [b] ++ post)) :
    Merged bs' ↔ ¬ ((∃ a as, pre = as ++ [a] ∧ a.free = true) ∧
      ∃ c cs, post = c :: cs ∧ c.free = true) := by
  obtain ⟨hleft, hpost, -⟩ := merged_append.mp hm
  obtain ⟨hpre, -, -⟩ := merged_append.mp hleft
  cases h with
  | @prev as a hpre' ha =>
    subst hpre'
    have hgrown : Merged (as ++ [{ a with size := a.size + b.size }]) := hpre.resize _
    rw [merged_append]
    constructor
    · rintro ⟨-, -, hends⟩ ⟨-, c, cs, rfl, hc⟩
      exact hends { a with size := a.size + b.size } (by simp) c (by simp) ⟨ha, hc⟩
    · intro hnot
      refine ⟨hgrown, hpost, fun x _ c hc hfree => hnot ⟨⟨a, as, rfl, ha⟩, ?_⟩⟩
      rcases post with _ | ⟨d, ds⟩
      · cases hc
      · obtain rfl := Option.some.inj hc
        exact ⟨d, ds, rfl, hfree.2⟩
  | @next d ds hused hpost' hd =>
    subst hpost'
    have hno : ¬ ∃ a as, pre = as ++ [a] ∧ a.free = true := by
      rintro ⟨a, as, heq, ha⟩
      rw [hused a as heq] at ha
      cases ha
    refine iff_of_true ?_ fun hboth => hno hboth.1
    have hsplit : Merged ([d] ++ ds) := hpost
    obtain ⟨-, hds, hjoin⟩ := merged_append.mp hsplit
    refine merged_append.mpr ⟨merged_append.mpr ⟨hpre, List.isChain_singleton _, ?_⟩, hds, ?_⟩
    · intro a ha c _ hfree
      obtain ⟨as, rfl⟩ := List.getLast?_eq_some_iff.mp ha
      exact hno ⟨a, as, rfl, hfree.1⟩
    · intro x _ c hc hfree
      exact hjoin d (by simp) c hc ⟨hd, hfree.2⟩
  | alone hused hnone =>
    have hno : ¬ ∃ a as, pre = as ++ [a] ∧ a.free = true := by
      rintro ⟨a, as, heq, ha⟩
      rw [hused a as heq] at ha
      cases ha
    refine iff_of_true ?_ fun hboth => hno hboth.1
    refine merged_append.mpr ⟨merged_append.mpr ⟨hpre, List.isChain_singleton _, ?_⟩, hpost, ?_⟩
    · intro a ha c _ hfree
      obtain ⟨as, rfl⟩ := List.getLast?_eq_some_iff.mp ha
      exact hno ⟨a, as, rfl, hfree.1⟩
    · intro x _ c hc hfree
      rcases post with _ | ⟨d, ds⟩
      · cases hc
      · obtain rfl := Option.some.inj hc
        rw [hnone d ds rfl] at hfree
        exact Bool.noConfusion hfree.2

theorem merged_single (hm : Merged bs) (ht : Tiles MIN_BLOCK lo bs hi) (hne : bs ≠ [])
    (hfree : ∀ b ∈ bs, b.free = true) : bs = [⟨lo, hi - lo, true⟩] := by
  rcases bs with _ | ⟨b, _ | ⟨c, cs⟩⟩
  · exact absurd rfl hne
  · obtain ⟨x, n, f⟩ := b
    obtain ⟨rfl, -, hhi⟩ := ht
    have hf : f = true := hfree ⟨x, n, f⟩ List.mem_cons_self
    subst hf
    simp only [Tiles, Blk.fin] at hhi
    rw [← hhi, Nat.add_sub_cancel_left]
  · exact absurd ⟨hfree b (by simp), hfree c (by simp)⟩ (List.isChain_cons_cons.mp hm).1

-- ---------------------------------------------------------------------------
-- Any number of calls
-- ---------------------------------------------------------------------------

def liveBlocks (live : List Nat) : List (Nat × Nat) := live.map fun p => (p, 0)

theorem liveBlocks_fst (live : List Nat) : (liveBlocks live).map Prod.fst = live := by
  rw [liveBlocks, List.map_map]
  exact List.map_id live

theorem liveBlocks_release (live : List Nat) (p : Nat) :
    release (liveBlocks live) p = liveBlocks (live.filter (· != p)) := by
  rw [release, liveBlocks, liveBlocks, List.filter_map]
  rfl

structure AreaInv (s : Heap) (live : List Nat) (bs : List Blk) : Prop where
  rep : HeapRep s bs
  top : s.gHeapVirtTop = HEAP_START + 256 * pageSize
  uses : Uses HEADER_SIZE bs (liveBlocks live)

theorem AreaInv.list (h : AreaInv s live bs) : AreaList s bs where
  tiles := h.top ▸ h.rep.tiles
  linked := h.rep.linked
  start := h.rep.start

theorem AreaInv.zero_not_live (h : AreaInv s live bs) : 0 ∉ live := by
  intro h0
  rw [← liveBlocks_fst live] at h0
  obtain ⟨pre, b, post, rfl, -, hb⟩ := h.uses.split h0
  simp only [HEADER_SIZE] at hb
  omega

theorem AreaInv.merged (h : AreaInv s live bs) (hm : Merged bs) : AreaMerged s live := by
  intro bs' hlist
  obtain rfl := hlist.unique h.list
  refine ⟨hm, fun hnone => ?_⟩
  subst hnone
  have hfree : ∀ b ∈ bs', b.free = true := by
    intro b hb
    by_contra hused
    obtain ⟨n, hn⟩ := h.uses.used b hb (Bool.not_eq_true _ ▸ hused)
    cases hn
  have hone := merged_single hm hlist.tiles h.rep.nonempty hfree
  rwa [Nat.add_sub_cancel_left] at hone

theorem heapInit_area (mem : Bytes) (machine : Machine) :
    AreaInv (heapInit mem machine) [] [⟨HEAP_START, 256 * pageSize, true⟩] := by
  have hheader : header (heapCreateBlock mem HEAP_START (256 * pageSize)) HEAP_START =
      ⟨256 * pageSize, true, 0, 0⟩ := by
    rw [header_heapCreateBlock, Nat.mod_eq_of_lt (by decide)]
  refine ⟨⟨⟨rfl, by decide, rfl⟩, ⟨hheader, trivial⟩, rfl, by simp, ?_⟩, rfl, by simp [liveBlocks],
    by simp [liveBlocks], by simp⟩
  have := (heapInit mem machine).machine.pmm.freeFrames_le
  simp only [pageSize, maxFrames] at this ⊢
  have htop : (heapInit mem machine).gHeapVirtTop = HEAP_START + 256 * 4096 := rfl
  omega

theorem AreaInv.kmalloc (hI : AreaInv s live bs) (harea : InArea s size)
    (h : Mm.kmalloc fuel s size = some (p, s')) :
    (p = 0 ∧ (size = 0 ∨ ∀ x ∈ bs, ¬ Fits (allocTotal size) x) ∧ AreaInv s' live bs) ∨
      ∃ pre b post, bs = pre ++ [b] ++ post ∧ Fits (allocTotal size) b ∧
        (∀ x ∈ pre, ¬ Fits (allocTotal size) x) ∧ p = b.addr + HEADER_SIZE ∧
        AreaInv s' (p :: live) (pre ++ takeBlk b (allocTotal size) ++ post) := by
  obtain ⟨htop, ⟨hp, hnone, hr⟩ | ⟨pre, b, post, rfl, hfit, hbefore, hp, hr⟩⟩ :=
    kmalloc_area hI.rep harea h
  · exact .inl ⟨hp, hnone, hr, htop.trans hI.top, hI.uses⟩
  · refine .inr ⟨pre, b, post, rfl, hfit, hbefore, hp, hr, htop.trans hI.top, ?_⟩
    have hmin := allocTotal_min size
    rw [hp]
    exact hI.uses.take hI.rep.tiles (by decide) hfit.1
      (show 0 + HEADER_SIZE ≤ allocTotal size from Nat.le_trans (by decide) hmin) hfit.2

theorem AreaInv.kfree (pre : List Blk) (hI : AreaInv s live (pre ++ [b] ++ post)) :
    ∃ bs', Freed pre b post bs' ∧
      AreaInv (Mm.kfree s (b.addr + HEADER_SIZE)) (live.filter (· != b.addr + HEADER_SIZE)) bs' := by
  obtain ⟨bs', hf, hr⟩ := kfree_spec hI.rep
  refine ⟨bs', hf, hr, (kfree_gHeapVirtTop _ _).trans hI.top, ?_⟩
  rw [← liveBlocks_release]
  exact hI.uses.drop hI.rep.tiles (by decide) fun _ hc => hf.used hc

theorem areaStep_inv {x x' : Heap × List Nat} {call : AreaCall}
    (hI : ∃ bs, AreaInv x.1 x.2 bs ∧ Merged bs) (hok : mergeOk x call) (h : areaStep x call x') :
    ∃ bs, AreaInv x'.1 x'.2 bs ∧ Merged bs := by
  obtain ⟨bs, hI, hm⟩ := hI
  cases call with
  | kmalloc size =>
    obtain ⟨harea, fuel, p, s', hp, rfl⟩ := h
    obtain ⟨rfl, -, hI'⟩ | ⟨pre, b, post, rfl, hfit, -, hpb, hI'⟩ := hI.kmalloc harea hp
    · exact ⟨bs, hI', hm⟩
    · refine ⟨pre ++ takeBlk b (allocTotal size) ++ post, ?_, hm.cut hfit.1⟩
      dsimp only
      rw [if_neg (by rw [hpb]; simp only [HEADER_SIZE]; omega)]
      exact hI'
  | kfree ptr =>
    obtain ⟨hlive, rfl⟩ := h
    obtain rfl | hlive := hlive
    · refine ⟨bs, ?_, hm⟩
      have hsame : x.2.filter (· != 0) = x.2 := by
        rw [List.filter_eq_self]
        intro p hp
        rw [bne_iff_ne]
        rintro rfl
        exact hI.zero_not_live hp
      dsimp only
      rw [Mm.kfree, if_pos rfl, hsame]
      exact hI
    · rw [← liveBlocks_fst x.2] at hlive
      obtain ⟨pre, b, post, rfl, -, rfl⟩ := hI.uses.split hlive
      obtain ⟨bs', hf, hI'⟩ := hI.kfree
      dsimp only
      refine ⟨bs', hI', (hf.merged_iff hm).mpr ?_⟩
      rw [← hI.rep.bothFree_iff]
      refine hok.resolve_left ?_
      simp only [HEADER_SIZE]
      omega

/-- In a run that frees no block between two free ones, no two neighbours are both free in any
state, and with nothing live the heap is one free block. -/
theorem heap_stays_merged
    (h : Run areaStep mergeOk (heapInit mem machine, []) calls (s, live)) :
    (∃ bs, AreaList s bs) ∧ AreaMerged s live := by
  obtain ⟨bs, hI, hm⟩ : ∃ bs, AreaInv s live bs ∧ Merged bs :=
    h.invariant (fun x => ∃ bs, AreaInv x.1 x.2 bs ∧ Merged bs)
      ⟨_, heapInit_area mem machine, List.isChain_singleton _⟩ fun _ _ _ => areaStep_inv
  exact ⟨⟨bs, hI.list⟩, hI.merged hm⟩

-- ---------------------------------------------------------------------------
-- Two blocks and what is left
-- ---------------------------------------------------------------------------

theorem split_unique {P : Blk → Prop} {pre' post' : List Blk} (h : pre ++ [b] ++ post = pre' ++ [c] ++ post')
    (hb : P b) (hc : P c) (hpre : ∀ x ∈ pre, ¬ P x) (hpre' : ∀ x ∈ pre', ¬ P x) :
    pre = pre' ∧ b = c ∧ post = post' := by
  induction pre generalizing pre' with
  | nil =>
    rcases pre' with _ | ⟨x, xs⟩
    · exact ⟨rfl, List.cons.inj h⟩
    · obtain ⟨rfl, -⟩ := List.cons.inj h
      exact absurd hb (hpre' b List.mem_cons_self)
  | cons x xs ih =>
    rcases pre' with _ | ⟨y, ys⟩
    · obtain ⟨rfl, -⟩ := List.cons.inj h
      exact absurd hc (hpre x List.mem_cons_self)
    · obtain ⟨rfl, hrest⟩ := List.cons.inj h
      obtain ⟨rfl, rfl, rfl⟩ := ih hrest (fun z hz => hpre z (List.mem_cons_of_mem _ hz))
        fun z hz => hpre' z (List.mem_cons_of_mem _ hz)
      exact ⟨rfl, rfl, rfl⟩

/-- The last block is free and large enough, the others are in use: a request takes its first part. -/
theorem AreaInv.serve (pre : List Blk) (size : Nat) (hI : AreaInv s live (pre ++ [b]))
    (hused : ∀ x ∈ pre, x.free = false) (hfree : b.free = true) (hsize : size ≠ 0) (hfit : allocTotal size + MIN_BLOCK ≤ b.size) :
    ∃ s', areaStep (s, live) (.kmalloc size) (s', (b.addr + HEADER_SIZE) :: live) ∧
      AreaInv s' ((b.addr + HEADER_SIZE) :: live) (pre ++ [⟨b.addr, allocTotal size, false⟩] ++
        [⟨b.addr + allocTotal size, b.size - allocTotal size, true⟩]) := by
  have hb : Fits (allocTotal size) b := ⟨hfree, by omega⟩
  have hpos := (hI.rep.block (b := b) (by simp)).1
  have hpre : ∀ x ∈ pre, ¬ Fits (allocTotal size) x := by
    rintro x hx ⟨hxfree, -⟩
    rw [hused x hx] at hxfree
    cases hxfree
  have harea : InArea s size := by
    obtain ⟨curr, hcurr⟩ := firstFit_returns (allocTotal size) hI.rep.linked
      (fun b hb => (hI.rep.block hb).1) (Nat.lt_succ_self _)
    obtain ⟨rfl, hnone⟩ | ⟨pre', c, post', heq, -, rfl, -⟩ :=
      firstFit_linked hI.rep.linked (fun b hb => (hI.rep.block hb).1) hcurr
    · exact absurd hb (hnone b (by simp))
    · rw [← hI.rep.start] at hcurr
      refine .inr (.inl ⟨_, _, hcurr, ?_⟩)
      have := (hI.rep.block (b := c) (by rw [heq]; simp)).1
      omega
  obtain ⟨p, s', hp⟩ : ∃ p s', Mm.kmalloc ((pre ++ [b]).length + 1) s size = some (p, s') :=
    kmalloc_returns hI.rep (Nat.lt_succ_self _)
  obtain ⟨-, hnone | hnone, -⟩ | ⟨pre', c, post', heq, hc, hpre', rfl, hI'⟩ := hI.kmalloc harea hp
  · exact absurd hnone hsize
  · exact absurd hb (hnone b (by simp))
  · rw [← List.append_nil (pre ++ [b])] at heq
    obtain ⟨rfl, rfl, rfl⟩ := split_unique heq hb hc hpre hpre'
    refine ⟨s', ⟨harea, _, _, s', hp, ?_⟩, ?_⟩
    · rw [if_neg (by simp only [HEADER_SIZE]; omega)]
    · rw [takeBlk, if_pos hfit] at hI'
      simpa using hI'

/-- A request of 100 bytes served and freed again: one free block. -/
theorem served_and_freed : ∃ s, Run areaStep mergeOk (heapInit (fun _ => 0) bootMachine, [])
    [.kmalloc 100, .kfree (HEAP_START + HEADER_SIZE)] (s, []) ∧ AreaMerged s [] := by
  have hI := heapInit_area (fun _ => 0) bootMachine
  obtain ⟨s₁, hstep₁, hI₁⟩ := AreaInv.serve [] 100 hI (by simp) rfl (by decide)
    (by decide)
  have hstep₂ : areaStep (s₁, [HEAP_START + HEADER_SIZE]) (.kfree (HEAP_START + HEADER_SIZE))
      (kfree s₁ (HEAP_START + HEADER_SIZE), []) := by
    refine ⟨.inr List.mem_cons_self, ?_⟩
    rw [List.filter_cons_of_neg (by simp)]
    rfl
  have hok : mergeOk (s₁, [HEAP_START + HEADER_SIZE]) (.kfree (HEAP_START + HEADER_SIZE)) := by
    refine .inr fun hboth => ?_
    obtain ⟨⟨a, as, hpre, -⟩, -⟩ := (HeapRep.bothFree_iff [] hI₁.rep).mp hboth
    exact absurd hpre (by simp)
  have hrun : Run areaStep mergeOk (heapInit (fun _ => 0) bootMachine, [])
      [.kmalloc 100, .kfree (HEAP_START + HEADER_SIZE)] (kfree s₁ (HEAP_START + HEADER_SIZE), []) :=
    .cons trivial hstep₁ (.cons hok hstep₂ .nil)
  exact ⟨_, hrun, (heap_stays_merged hrun).2⟩

/-- Two blocks of 100 bytes, the first freed and then the second: it is merged into the first,
and what is left of the heap stays a block of its own. -/
theorem free_neighbours_left : ¬ ∀ (mem : Bytes) (machine : Machine) (calls : List AreaCall) (s : Heap)
    (live : List Nat), Run areaStep (fun _ _ => True) (heapInit mem machine, []) calls (s, live) →
      AreaMerged s live := by
  intro hall
  obtain ⟨s₁, hstep₁, hI₁⟩ := AreaInv.serve [] 100
    (heapInit_area (fun _ => 0) bootMachine) (by simp) rfl (by decide) (by decide)
  obtain ⟨s₂, hstep₂, hI₂⟩ := AreaInv.serve _ 100 hI₁ (by simp) rfl (by decide) (by decide)
  dsimp only at hstep₁ hstep₂ hI₂
  -- the first block is freed
  obtain ⟨bs₃, hf₃, hI₃⟩ := AreaInv.kfree [] hI₂
  have hbs₃ : bs₃ = [⟨HEAP_START, allocTotal 100, true⟩] ++
      [⟨HEAP_START + allocTotal 100, allocTotal 100, false⟩] ++
      [⟨HEAP_START + allocTotal 100 + allocTotal 100,
        256 * pageSize - allocTotal 100 - allocTotal 100, true⟩] := by
    cases hf₃ with
    | prev hpre _ => exact absurd hpre (by simp)
    | next _ hpost hd =>
      obtain ⟨rfl, -⟩ := List.cons.inj hpost
      cases hd
    | alone _ _ => rfl
  subst hbs₃
  have hstep₃ : areaStep (s₂, [HEAP_START + allocTotal 100 + HEADER_SIZE, HEAP_START + HEADER_SIZE])
      (.kfree (HEAP_START + HEADER_SIZE)) (kfree s₂ (HEAP_START + HEADER_SIZE),
        [HEAP_START + allocTotal 100 + HEADER_SIZE, HEAP_START + HEADER_SIZE].filter
          (· != HEAP_START + HEADER_SIZE)) := ⟨.inr (by simp), rfl⟩
  -- and then the second, between two free ones
  obtain ⟨bs₄, hf₄, hI₄⟩ := hI₃.kfree
  dsimp only at hf₄ hI₄
  generalize kfree s₂ (HEAP_START + HEADER_SIZE) = s₃ at hstep₃ hI₄
  have hlive₃ : [HEAP_START + allocTotal 100 + HEADER_SIZE, HEAP_START + HEADER_SIZE].filter
      (· != HEAP_START + HEADER_SIZE) = [HEAP_START + allocTotal 100 + HEADER_SIZE] := by decide
  rw [hlive₃] at hstep₃ hI₄
  have hstep₄ : areaStep (s₃, [HEAP_START + allocTotal 100 + HEADER_SIZE])
      (.kfree (HEAP_START + allocTotal 100 + HEADER_SIZE))
      (kfree s₃ (HEAP_START + allocTotal 100 + HEADER_SIZE),
        [HEAP_START + allocTotal 100 + HEADER_SIZE].filter
          (· != HEAP_START + allocTotal 100 + HEADER_SIZE)) := ⟨.inr (by simp), rfl⟩
  have hrun : Run areaStep (fun _ _ => True) (heapInit (fun _ => 0) bootMachine, []) _ _ :=
    .cons trivial hstep₁ (.cons trivial hstep₂ (.cons trivial hstep₃ (.cons trivial hstep₄ .nil)))
  have hmerged := (hall _ _ _ _ _ hrun _ hI₄.list).1
  refine (hf₄.merged_iff ?_).mp hmerged ⟨⟨_, [], rfl, rfl⟩, _, [], rfl, rfl⟩
  simp [Merged]

end EponaOS.Mm
