import EponaOS.Lib.Run
import EponaOS.User.MallocBlocks

/-!
# Runs of a user heap

`malloc`, `calloc` and `free` in any order, and writes of the program to what it has
allocated, with the list of live allocations next to the heap. Before the first request
there is no block, and the break is where the program started.
-/

namespace EponaOS.User

open Bytes BlockList

variable {m : Bytes} {s s' : UserHeap} {first n p ptr : Nat} {bs : List Blk} {live : List (Nat × Nat)}

-- ---------------------------------------------------------------------------
-- One request
-- ---------------------------------------------------------------------------

/-- From the first break to `heap_end` there are less than 2 ^ 32 bytes; in particular the
end of the heap does not wrap. -/
def HeapStays (first : Nat) (s : UserHeap) : Prop :=
  s.heapInited = true → first < s.heapEnd ∧ s.heapEnd < first + 2 ^ 32

def HeapInv (first : Nat) (s : UserHeap) (live : List (Nat × Nat)) : Prop :=
  (s.heapInited = false ∧ s.heapBase = 0 ∧ s.brk = first ∧ live = []) ∨
    ∃ bs, UserRep first s bs ∧ Merged bs ∧ Uses BLOCK_SIZE bs live

/-- What a request for `size` bytes gives: a free block of the list, or one with the bytes
that the heap grows by. -/
inductive Allocates (s : UserHeap) (bs : List Blk) (size : Nat) : Nat × UserHeap → Prop
  | found {pre b post} : bs = pre ++ [b] ++ post → b.free = true → size + BLOCK_SIZE ≤ b.size →
      Allocates s bs size (takeBlock s b.addr size)
  | grown {r} : r = addBytes (raiseBreak sysBrkSets s (growSize size)).2 s.brk (growSize size) (lastAddr 0 bs) →
      Allocates s bs size (takeBlock r.2 r.1 size)

theorem growSize_bounds (size : Nat) : size + BLOCK_SIZE ≤ growSize size ∧ HEAP_SIZE ≤ growSize size ∧
    growSize size ≤ size + HEAP_SIZE := by
  unfold growSize BLOCK_SIZE HEAP_SIZE
  simp only
  split <;> omega

theorem raiseBreak_eq (s : UserHeap) (grow : Nat) : raiseBreak sysBrkSets s grow =
    (s.brk, { s with
      brk := if (s.brk + grow) % 2 ^ 64 = 0 then s.brk else (s.brk + grow) % 2 ^ 64
      heapEnd := (s.brk + grow) % 2 ^ 64 }) := by
  simp only [raiseBreak, sysBrk, sysBrkSets, if_true]
  split <;> rfl

theorem addBytes_statics (s : UserHeap) (curBreak grow last : Nat) :
    (addBytes s curBreak grow last).2.heapInited = s.heapInited ∧
      (addBytes s curBreak grow last).2.heapEnd = s.heapEnd := by
  unfold addBytes
  split
  · exact ⟨rfl, rfl⟩
  · dsimp only
    split <;> exact ⟨rfl, rfl⟩

theorem allocate_found {call : BrkCall}
    (hfind : Returns (fun fuel => findFree s.mem size fuel s.heapBase) blk)
    (hblk : blk ≠ 0) : Returns (fun fuel => allocate call fuel s size) (takeBlock s blk size) := by
  have htake : Returns (fun fuel => (if blk ≠ 0 then some (blk, s) else growHeap call fuel s size).map
      fun r => takeBlock r.2 r.1 size) (takeBlock s blk size) := by
    simp only [if_pos hblk]
    exact .pure _
  exact hfind.bind htake

theorem allocate_returns (hc : Chained (cell s.mem) bs 0) (hbase : s.heapBase = headAddr bs 0)
    (hpos : ∀ b ∈ bs, 0 < b.addr) (size : Nat) :
    ∃ r, Returns (fun fuel => allocate sysBrkSets fuel s size) r ∧ Allocates s bs size r := by
  obtain ⟨blk, hfind, hblk⟩ := findFree_returns hc hpos size
  rw [← hbase] at hfind
  rcases hblk with rfl | ⟨pre, b, post, rfl, hfree, hfit, rfl⟩
  · have hlast := lastBlock_returns hc hpos
    rw [← hbase] at hlast
    have hgrow : Returns (fun fuel => growHeap sysBrkSets fuel s size)
        (addBytes (raiseBreak sysBrkSets s (growSize size)).2 s.brk (growSize size) (lastAddr 0 bs)) := by
      unfold growHeap
      simp only [raiseBreak_eq]
      exact hlast.map _
    exact ⟨_, hfind.bind (hgrow.map _), .grown rfl⟩
  · have hb := hpos b (by simp)
    exact ⟨_, allocate_found hfind (Nat.ne_of_gt hb), .found rfl hfree hfit⟩

theorem Allocates.statics {r : Nat × UserHeap} (h : Allocates s bs size r) :
    r.2.heapInited = s.heapInited ∧
      (r.2.heapEnd = s.heapEnd ∨ r.2.heapEnd = (s.brk + growSize size) % 2 ^ 64) := by
  cases h with
  | found _ _ _ => exact ⟨rfl, .inl rfl⟩
  | grown hr =>
    subst hr
    obtain ⟨hinited, hend⟩ := addBytes_statics (raiseBreak sysBrkSets s (growSize size)).2 s.brk
      (growSize size) (lastAddr 0 bs)
    rw [raiseBreak_eq] at hinited hend ⊢
    exact ⟨hinited, .inr hend⟩

/-- The block that a request takes is live, unless the heap grows too far. -/
theorem UserRep.allocates {r : Nat × UserHeap} (hr : UserRep first s bs) (hm : Merged bs)
    (hu : Uses BLOCK_SIZE bs live) (hsize : size < 2 ^ 32) (h : Allocates s bs size r)
    (hstays : HeapStays first r.2) : r.1 ≠ 0 ∧ HeapInv first r.2 ((r.1, size) :: live) := by
  cases h with
  | @found pre b post hbs hfree hfit =>
    subst hbs
    have hpos := hr.addr_pos b (by simp)
    refine ⟨Nat.ne_of_gt (Nat.lt_of_lt_of_le hpos (Nat.le_add_right ..)), .inr
      ⟨_, hr.takeBlock hfit hsize, hm.cut hfree, ?_⟩⟩
    exact hu.take hr.tiles (by decide) hfree (Nat.le_refl _) hfit
  | @grown g hg =>
    obtain ⟨hfit, hgrow, hmax⟩ := growSize_bounds size
    have hle := hr.tiles.le
    have hbrk := hr.stays
    obtain ⟨hinited, hend⟩ := addBytes_statics (raiseBreak sysBrkSets s (growSize size)).2 s.brk
      (growSize size) (lastAddr 0 bs)
    rw [← hg, raiseBreak_eq] at hinited hend
    -- the sum does not wrap: it would end below the first break
    have hnew := hstays (hinited.trans hr.inited)
    have hend' : (User.takeBlock g.2 g.1 size).2.heapEnd = (s.brk + growSize size) % 2 ^ 64 := hend
    rw [hend'] at hnew
    unfold HEAP_SIZE at hgrow hmax
    have hsum : (s.brk + growSize size) % 2 ^ 64 = s.brk + growSize size := by omega
    rw [hsum] at hnew
    obtain ⟨pre, b, haddr, hrep, hmerged, hfree, hroom, hused⟩ := hr.addBytes hm
      (Nat.le_trans (Nat.le_add_left ..) hfit) hnew.2 (by omega) (s.brk + growSize size)
    have hgeq : g = User.addBytes { s with brk := s.brk + growSize size, heapEnd := s.brk + growSize size }
        s.brk (growSize size) (lastAddr 0 bs) := by
      rw [hg, raiseBreak_eq, hsum, if_neg (by omega)]
    rw [← hgeq] at haddr hrep
    have hrep' : UserRep first g.2 (pre ++ [b] ++ []) := by simpa using hrep
    have hpos := hrep.addr_pos b (by simp)
    rw [haddr]
    refine ⟨Nat.ne_of_gt (Nat.lt_of_lt_of_le hpos (Nat.le_add_right ..)), .inr
      ⟨_, hrep'.takeBlock (Nat.le_trans hfit hroom) hsize, ?_, ?_⟩⟩
    · have hcut : Merged (pre ++ cut (BLOCK_SIZE + 16) b (size + BLOCK_SIZE) ++ []) :=
        Merged.cut (by simpa using hmerged) hfree
      exact hcut
    · refine Uses.take ?_ hrep'.tiles (by decide) hfree (Nat.le_refl _) (Nat.le_trans hfit hroom)
      exact (hu.congr hused).congr fun c _ => by simp

theorem heapInit_eq (hnew : s.heapInited = false) : heapInit sysBrkSets s =
    { mem := newBlock s.mem s.brk (HEAP_SIZE - BLOCK_SIZE)
      brk := if (s.brk + HEAP_SIZE) % 2 ^ 64 = 0 then s.brk else (s.brk + HEAP_SIZE) % 2 ^ 64
      heapBase := s.brk
      heapEnd := (s.brk + HEAP_SIZE) % 2 ^ 64
      heapInited := true } := by
  unfold heapInit
  rw [if_neg (by simp [hnew]), raiseBreak_eq]

theorem heapInit_spec (hnew : s.heapInited = false) (hbrk : s.brk = first) :
    (heapInit sysBrkSets s).heapInited = true ∧ (heapInit sysBrkSets s).heapBase = first ∧
      (heapInit sysBrkSets s).heapEnd = (first + HEAP_SIZE) % 2 ^ 64 ∧
      (heapInit sysBrkSets s).brk = (if (first + HEAP_SIZE) % 2 ^ 64 = 0 then first
        else (first + HEAP_SIZE) % 2 ^ 64) ∧
      Chained (cell (heapInit sysBrkSets s).mem) [⟨first, HEAP_SIZE, true⟩] 0 := by
  subst hbrk
  rw [heapInit_eq hnew]
  exact ⟨rfl, rfl, rfl, by dsimp only, cell_newBlock _ _ _, trivial⟩

theorem heapInit_rep {r : Nat × UserHeap} (hnew : s.heapInited = false) (hbrk : s.brk = first)
    (hfirst : 0 < first) (hsize : size < 2 ^ 32)
    (h : Allocates (heapInit sysBrkSets s) [⟨first, HEAP_SIZE, true⟩] size r) (hstays : HeapStays first r.2) :
    UserRep first (heapInit sysBrkSets s) [⟨first, HEAP_SIZE, true⟩] := by
  obtain ⟨hinited, hbase, hend, hbrk', hchained⟩ := heapInit_spec hnew hbrk
  obtain ⟨hinited', hend'⟩ := h.statics
  obtain ⟨hlo, hhi⟩ := hstays (hinited'.trans hinited)
  obtain ⟨-, hgrow, hmax⟩ := growSize_bounds size
  have hnowrap : (first + HEAP_SIZE) % 2 ^ 64 = first + HEAP_SIZE := by
    rw [hend, hbrk'] at hend'
    unfold HEAP_SIZE at *
    rcases hend' with hend' | hend'
    · omega
    · split at hend' <;> omega
  have htop : (heapInit sysBrkSets s).brk = first + HEAP_SIZE := by
    rw [hbrk', hnowrap, if_neg (by omega)]
  refine ⟨⟨rfl, (by decide : BLOCK_SIZE ≤ HEAP_SIZE), ?_⟩, hchained, hbase, by simp, hinited, hfirst, ?_, ?_⟩
  · exact htop.symm
  · rw [htop]
    unfold HEAP_SIZE
    omega
  · rw [htop]
    omega

theorem HeapInv.release_zero (hI : HeapInv first s live) : release live 0 = live := by
  apply release_of_not_mem
  rintro hzero
  obtain ⟨-, -, -, rfl⟩ | ⟨bs, -, -, hu⟩ := hI
  · simp at hzero
  · obtain ⟨x, hx, heq⟩ := List.mem_map.mp hzero
    obtain ⟨b, -, -, hb, -⟩ := hu.block x.1 x.2 hx
    unfold BLOCK_SIZE at hb
    omega

-- ---------------------------------------------------------------------------
-- The calls
-- ---------------------------------------------------------------------------

/-- `malloc` returns, and what it returns is live unless the heap grows too far. -/
theorem malloc_returns (hI : HeapInv first s live) (hfirst : 0 < first) {size : UInt32}
    (hsize : size ≠ 0) : ∃ p s', Returns (fun fuel => malloc sysBrkSets fuel s size) (p, s') ∧
      (HeapStays first s' → p ≠ 0 ∧ HeapInv first s' ((p, size.toNat) :: live)) := by
  have hlt : size.toNat < 2 ^ 32 := size.toNat_lt
  simp only [malloc, if_neg hsize]
  obtain ⟨hnew, -, hbrk, rfl⟩ | ⟨bs, hr, hm, hu⟩ := hI
  · obtain ⟨hinited, hbase, -, -, hchained⟩ := heapInit_spec hnew hbrk
    obtain ⟨r, hret, halloc⟩ := allocate_returns hchained hbase (by simpa using hfirst) size.toNat
    refine ⟨r.1, r.2, hret, fun hstays => ?_⟩
    have hr := heapInit_rep hnew hbrk hfirst hlt halloc hstays
    exact hr.allocates (List.isChain_singleton _) ⟨by simp, by simp, by simp⟩ hlt halloc hstays
  · have hinit : heapInit sysBrkSets s = s := by rw [heapInit, if_pos hr.inited]
    rw [hinit]
    obtain ⟨r, hret, halloc⟩ := allocate_returns hr.chained hr.base hr.addr_pos size.toNat
    exact ⟨r.1, r.2, hret, hr.allocates hm hu hlt halloc⟩

theorem HeapInv.data (hI : HeapInv first s live) (hp : (p, n) ∈ live)
    (hm : ∀ x, x < p ∨ p + n ≤ x → m x = s.mem x) : HeapInv first { s with mem := m } live := by
  obtain ⟨-, -, -, rfl⟩ | ⟨bs, hr, hmerged, hu⟩ := hI
  · simp at hp
  · refine .inr ⟨bs, ⟨hr.tiles, hr.chained.congr fun c hc => cell_congr fun i hi => hm _ ?_, hr.base,
      hr.nonempty, hr.inited, hr.pos, hr.stays, hr.word⟩, hmerged, hu⟩
    obtain ⟨b, hb, -, rfl, hn⟩ := hu.block p n hp
    have hcs := (hr.tiles.mem hc).2.2
    obtain rfl | hlt | hlt := hr.tiles.apart hb hc
    · omega
    · unfold Blk.fin at hlt
      omega
    · unfold Blk.fin at hlt
      omega

def grant (live : List (Nat × Nat)) (p n : Nat) : List (Nat × Nat) := if p = 0 then live else (p, n) :: live

theorem calloc_returns (hI : HeapInv first s live) (hfirst : 0 < first) (count size : UInt32) :
    ∃ p s', Returns (fun fuel => calloc sysBrkSets fuel s count size) (p, s') ∧
      (HeapStays first s' → HeapInv first s' (grant live p (count * size).toNat)) := by
  unfold calloc
  by_cases hzero : count * size = 0
  · refine ⟨0, s, ?_, fun _ => by simpa [grant] using hI⟩
    simpa [hzero, malloc] using Returns.pure ((0, s) : Nat × UserHeap)
  · obtain ⟨p, s1, hret, hinv⟩ := malloc_returns hI hfirst hzero
    have hmap := hret.map fun r : Nat × UserHeap =>
      if r.1 ≠ 0 then (r.1, { r.2 with mem := putLE r.2.mem r.1 (count * size).toNat 0 }) else r
    by_cases hp : p = 0
    · rw [if_neg (by simpa using hp)] at hmap
      exact ⟨p, s1, hmap, fun hstays => absurd hp (hinv hstays).1⟩
    · rw [if_pos hp] at hmap
      refine ⟨_, _, hmap, fun hstays => ?_⟩
      rw [grant, if_neg hp]
      exact (hinv hstays).2.data (List.mem_cons_self ..) fun x hx => putLE_off _ _ hx

/-- `free` of a live pointer returns: one pass merges all free neighbours. -/
theorem free_returns (hI : HeapInv first s live) (hp : ptr = 0 ∨ ptr ∈ live.map Prod.fst) :
    ∃ s', Returns (fun fuel => free fuel s ptr) s' ∧ s'.heapInited = s.heapInited ∧
      s'.heapEnd = s.heapEnd ∧ HeapInv first s' (release live ptr) := by
  by_cases hzero : ptr = 0
  · subst hzero
    refine ⟨s, .pure s, rfl, rfl, ?_⟩
    rwa [hI.release_zero]
  have hp := hp.resolve_left hzero
  obtain ⟨-, -, -, rfl⟩ | ⟨bs, hr, -, hu⟩ := hI
  · simp at hp
  obtain ⟨pre, b, post, rfl, hused, rfl⟩ := hu.split hp
  -- the block is marked free
  have hfreed : UserRep first { s with mem := setBlkFree s.mem b.addr 1 }
      (pre ++ [{ b with free := true }] ++ post) := by
    have hcell := hr.chained.cell
    refine hr.splice (by simp) (fun _ => rfl) fun y z hmid hy hz => ⟨hmid, ⟨?_, trivial⟩, ?_⟩
    · rw [cell_setBlkFree, hcell]
      rfl
    · obtain ⟨hyb, hsize, hzb⟩ := hmid
      intro x hx
      apply cell_setBlkFree_off
      simp only [Tiles, Blk.fin] at hzb
      unfold Apart
      omega
  -- and the whole list is merged
  obtain ⟨a, as, has⟩ := List.exists_cons_of_ne_nil hfreed.nonempty
  rw [has] at hfreed
  have hbase : s.heapBase = a.addr := hfreed.base
  obtain ⟨m', hret, hchained, -⟩ := coalesce_returns hfreed.chained hfreed.tiles hfreed.pos
    hfreed.stays hfreed.word
  refine ⟨{ s with mem := m' }, ?_, rfl, rfl, .inr ⟨mergeFrom a as, ⟨hfreed.tiles.mergeFrom, hchained,
    ?_, ?_, hr.inited, hr.pos, hr.stays, hr.word⟩, merged_mergeFrom a as, ?_⟩⟩
  · unfold free
    simp only [if_neg hzero, Nat.add_sub_cancel]
    rw [← hbase] at hret
    exact hret.map fun mem => { s with mem }
  · simpa using hbase
  · obtain ⟨k, t, ht⟩ := mergeFrom_head a as
    simp [ht]
  · refine hu.drop hr.tiles (by decide) fun c hc => ?_
    have hcb : c ≠ { b with free := true } := by
      intro heq
      rw [heq] at hc
      cases hc
    rw [mem_mergeFrom hc, ← has]
    simp [hcb]

-- ---------------------------------------------------------------------------
-- Any number of calls
-- ---------------------------------------------------------------------------

inductive HeapAct
  | malloc (size : UInt32)
  | calloc (count size : UInt32)
  | free (ptr : Nat)
  | store (addr : Nat) (v : UInt8)

def actAllowed (x : UserHeap × List (Nat × Nat)) : HeapAct → Prop
  | .malloc _ | .calloc _ _ => True
  | .free ptr => ptr = 0 ∨ ptr ∈ x.2.map Prod.fst
  | .store a _ => ∃ p n, (p, n) ∈ x.2 ∧ p ≤ a ∧ a < p + n

def actStep (x : UserHeap × List (Nat × Nat)) : HeapAct → UserHeap × List (Nat × Nat) → Prop
  | .malloc size, x' => ∃ p s', Returns (fun fuel => User.malloc sysBrkSets fuel x.1 size) (p, s') ∧
      x' = (s', grant x.2 p size.toNat)
  | .calloc count size, x' => ∃ p s', Returns (fun fuel => User.calloc sysBrkSets fuel x.1 count size) (p, s') ∧
      x' = (s', grant x.2 p (count * size).toNat)
  | .free ptr, x' => ∃ s', Returns (fun fuel => User.free fuel x.1 ptr) s' ∧
      x' = (s', release x.2 ptr)
  | .store a v, x' => x' = ({ x.1 with mem := setByte x.1.mem a v }, x.2)

def heapStep (first : Nat) (x : UserHeap × List (Nat × Nat)) (a : HeapAct)
    (x' : UserHeap × List (Nat × Nat)) : Prop := actStep x a x' ∧ HeapStays first x'.1

/-- The block list as it should be: in address order from the first break to the current one
without gap or overlap, no two neighbours free, the blocks in use live. -/
def HeapOk (first : Nat) (s : UserHeap) (live : List (Nat × Nat)) : Prop :=
  ∃ bs, Tiles BLOCK_SIZE first bs s.brk ∧ Chained (cell s.mem) bs 0 ∧ s.heapBase = headAddr bs 0 ∧
    Merged bs ∧ Uses BLOCK_SIZE bs live

theorem HeapInv.ok (h : HeapInv first s live) : HeapOk first s live := by
  obtain ⟨-, hbase, hbrk, rfl⟩ | ⟨bs, hr, hm, hu⟩ := h
  · exact ⟨[], hbrk.symm, trivial, hbase, List.isChain_nil, by simp, by simp, by simp⟩
  · exact ⟨bs, hr.tiles, hr.chained, hr.base, hm, hu⟩

theorem HeapOk.room (h : HeapOk first s live) (hp : (p, n) ∈ live) :
    n ≤ blkSize s.mem (p - BLOCK_SIZE) := by
  obtain ⟨bs, -, hchained, -, -, hu⟩ := h
  obtain ⟨b, hb, -, rfl, hn⟩ := hu.block p n hp
  obtain ⟨pre, post, rfl⟩ := List.append_of_mem hb
  have hcell : cell s.mem b.addr = ⟨b.size, b.free, headAddr post 0⟩ :=
    Chained.cell (by simpa using hchained)
  rw [Nat.add_sub_cancel, blkSize_eq, hcell]
  simp only
  omega

theorem act_returns (hI : HeapInv first s live) (hfirst : 0 < first) {a : HeapAct}
    (ha : actAllowed (s, live) a) : ∃ x', actStep (s, live) a x' := by
  cases a with
  | malloc size =>
    by_cases hsize : size = 0
    · exact ⟨_, 0, s, by simpa [malloc, hsize] using Returns.pure ((0, s) : Nat × UserHeap), rfl⟩
    · obtain ⟨p, s', hret, -⟩ := malloc_returns hI hfirst hsize
      exact ⟨_, p, s', hret, rfl⟩
  | calloc count size =>
    obtain ⟨p, s', hret, -⟩ := calloc_returns hI hfirst count size
    exact ⟨_, p, s', hret, rfl⟩
  | free ptr =>
    obtain ⟨s', hret, -⟩ := free_returns hI ha
    exact ⟨_, s', hret, rfl⟩
  | store a v => exact ⟨_, rfl⟩

theorem heapStep_inv {x x' : UserHeap × List (Nat × Nat)} {a : HeapAct} (hfirst : 0 < first)
    (hI : HeapInv first x.1 x.2) (ha : actAllowed x a) (h : heapStep first x a x') :
    HeapInv first x'.1 x'.2 := by
  obtain ⟨hstep, hstays⟩ := h
  cases a with
  | malloc size =>
    obtain ⟨p, s', hret, rfl⟩ := hstep
    by_cases hsize : size = 0
    · have hnone : Returns (fun fuel => malloc sysBrkSets fuel x.1 size) (0, x.1) := by
        simpa [malloc, hsize] using Returns.pure ((0, x.1) : Nat × UserHeap)
      cases hret.unique hnone
      exact hI
    · obtain ⟨q, s1, hret', hinv⟩ := malloc_returns hI hfirst hsize
      cases hret.unique hret'
      obtain ⟨hne, hinv⟩ := hinv hstays
      rw [grant, if_neg hne]
      exact hinv
  | calloc count size =>
    obtain ⟨p, s', hret, rfl⟩ := hstep
    obtain ⟨q, s1, hret', hinv⟩ := calloc_returns hI hfirst count size
    cases hret.unique hret'
    exact hinv hstays
  | free ptr =>
    obtain ⟨s', hret, rfl⟩ := hstep
    obtain ⟨s1, hret', -, -, hinv⟩ := free_returns hI ha
    cases hret.unique hret'
    exact hinv
  | store a v =>
    obtain rfl := hstep
    obtain ⟨p, n, hp, hlo, hhi⟩ := ha
    exact hI.data hp fun y hy => setByte_ne _ _ (by omega)

/-- In every run that keeps the heap short, the blocks are as they should be in every state, no
two live allocations overlap, every request for some bytes returns a block that has them,
and no call hangs. -/
theorem malloc_run (hfirst : 0 < first)
    (h : Run (heapStep first) actAllowed (startHeap mem first, []) acts (s, live)) :
    HeapOk first s live ∧
      (∀ p n q k, (p, n) ∈ live → (q, k) ∈ live → p ≠ q → p + n ≤ q ∨ q + k ≤ p) ∧
      (∀ size : UInt32, size ≠ 0 → ∃ p s', Returns (fun fuel => malloc sysBrkSets fuel s size) (p, s') ∧
        (HeapStays first s' → size.toNat ≤ blkSize s'.mem (p - BLOCK_SIZE) ∧
          HeapOk first s' ((p, size.toNat) :: live))) ∧
      ∀ a, actAllowed (s, live) a → ∃ x', actStep (s, live) a x' := by
  have hI : HeapInv first s live :=
    h.invariant (fun x => HeapInv first x.1 x.2) (.inl ⟨rfl, rfl, rfl, rfl⟩)
      fun _ _ _ hI ha hstep => heapStep_inv hfirst hI ha hstep
  refine ⟨hI.ok, fun p n q k hp hq hne => ?_, fun size hsize => ?_, fun a ha => act_returns hI hfirst ha⟩
  · obtain ⟨bs, htiles, -, -, -, hu⟩ := hI.ok
    exact hu.disjoint htiles hp hq hne
  · obtain ⟨p, s', hret, hinv⟩ := malloc_returns hI hfirst hsize
    refine ⟨p, s', hret, fun hstays => ?_⟩
    have hok := (hinv hstays).2.ok
    exact ⟨hok.room (List.mem_cons_self ..), hok⟩

/-- The first two requests of a program whose break starts at 0x401000. -/
theorem malloc_run_two : ∃ s, Run (heapStep 0x401000) actAllowed
      (startHeap (fun _ => 0) 0x401000, []) [.malloc 100, .malloc 50]
      (s, [(0x401084, 50), (0x401010, 100)]) ∧
    HeapOk 0x401000 s [(0x401084, 50), (0x401010, 100)] := by
  generalize hs0 : heapInit sysBrkSets (startHeap (fun _ => 0) 0x401000) = s0
  generalize hs1 : (takeBlock s0 0x401000 100).2 = s1
  have hr0 : UserRep 0x401000 s0 ([] ++ [⟨0x401000, 0x10000, true⟩] ++ []) := by
    rw [← hs0]
    exact ⟨⟨rfl, by decide, rfl⟩, (heapInit_spec rfl rfl).2.2.2.2, rfl, by simp, rfl, by decide,
      by decide, by decide⟩
  have hr1 := hr0.takeBlock (n := 100) (by decide) (by decide)
  rw [hs1] at hr1
  obtain ⟨hcell0, -⟩ := hr0.chained
  obtain ⟨hcell1, hcell2, -⟩ := hr1.chained
  have hfree : blkFree s0.mem 0x401000 ≠ 0 ∧ 100 ≤ blkSize s0.mem 0x401000 := by
    rw [blkFree_ne_zero, blkSize_eq, hcell0]
    decide
  have hcut : (¬ (blkFree s1.mem 0x401000 ≠ 0 ∧ 50 ≤ blkSize s1.mem 0x401000)) ∧
      blkNext s1.mem 0x401000 = 0x401074 ∧
      blkFree s1.mem 0x401074 ≠ 0 ∧ 50 ≤ blkSize s1.mem 0x401074 := by
    have hfirst : cell s1.mem 0x401000 = ⟨116, false, 0x401074⟩ := hcell1
    have hrest : cell s1.mem 0x401074 = ⟨65420, true, 0⟩ := hcell2
    rw [blkFree_ne_zero, blkFree_ne_zero, blkSize_eq, blkSize_eq, blkNext_eq, hfirst, hrest]
    decide
  have hbase0 : s0.heapBase = 0x401000 := by rw [← hs0]; rfl
  have hbase1 : s1.heapBase = 0x401000 := by rw [← hs1]; exact hbase0
  have hend0 : s0.heapEnd = 0x411000 := by rw [← hs0]; rfl
  have hend1 : s1.heapEnd = 0x411000 := by rw [← hs1]; exact hend0
  have hinit1 : heapInit sysBrkSets s1 = s1 := by
    rw [heapInit, if_pos]
    rw [← hs1, ← hs0]
    rfl
  have hfind0 : Returns (fun fuel => findFree s0.mem 100 fuel s0.heapBase) 0x401000 := by
    rw [hbase0]
    refine .step (fun fuel => ?_) (.pure _)
    rw [findFree, if_neg (by decide), if_pos hfree]
  have hfind1 : Returns (fun fuel => findFree s1.mem 50 fuel s1.heapBase) 0x401074 := by
    rw [hbase1]
    have hnext : Returns (fun fuel => findFree s1.mem 50 fuel 0x401074) 0x401074 := by
      refine .step (fun fuel => ?_) (.pure _)
      rw [findFree, if_neg (by decide), if_pos hcut.2.2]
    refine .step (fun fuel => ?_) hnext
    rw [findFree, if_neg (by decide), if_neg hcut.1, hcut.2.1]
  have hcall0 : Returns (fun fuel => malloc sysBrkSets fuel (startHeap (fun _ => 0) 0x401000) 100)
      (0x401010, s1) := by
    simp only [malloc, hs0]
    rw [← hs1]
    exact allocate_found hfind0 (by decide)
  have hcall1 : Returns (fun fuel => malloc sysBrkSets fuel s1 50) (0x401084, (takeBlock s1 0x401074 50).2) := by
    simp only [malloc, hinit1]
    exact allocate_found hfind1 (by decide)
  have hrun : Run (heapStep 0x401000) actAllowed (startHeap (fun _ => 0) 0x401000, [])
      [.malloc 100, .malloc 50]
      ((takeBlock s1 0x401074 50).2, [(0x401084, 50), (0x401010, 100)]) := by
    refine .cons trivial ⟨⟨_, _, hcall0, rfl⟩, fun _ => ?_⟩
      (.cons trivial ⟨⟨_, _, hcall1, rfl⟩, fun _ => ?_⟩ .nil)
    · rw [hend1]
      decide
    · have hend : (takeBlock s1 0x401074 50).2.heapEnd = 0x411000 := hend1
      rw [hend]
      decide
  exact ⟨_, hrun, (malloc_run (by decide) hrun).1⟩

end EponaOS.User
