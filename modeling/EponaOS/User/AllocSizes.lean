import EponaOS.Mm.HeapSizes
import EponaOS.User.MallocRun

/-!
# How large the blocks of a user heap are

`calloc` multiplies modulo 2 ^ 32. When the heap grows and its last block is free, the size of that
block is raised modulo 2 ^ 32 too; if it is not free, its link is set to the new block, wherever
`sys_brk` has put that. Nothing is assumed of what `sys_brk` answers.
-/

namespace EponaOS.User

open Bytes

variable {call : BrkCall} {m : Bytes} {s s' : UserHeap} {blk cur last c size n : Nat}

/-- What is left of the size of a header at `c` behind the write of `c` to the link of `last`. -/
def sizeLeft (last c size : Nat) : Nat :=
  blkSize (setBlkNext (setBlkSize (fun _ => 0) c size) last c) c

/-- The search for a free block ends. -/
def Searched (s : UserHeap) (size : Nat) : Prop :=
  Ends fun fuel => findFree s.mem size fuel s.heapBase

/-- If the heap has to grow behind a last block, the size of the block that is taken then does not
wrap, and is not written over, below the size asked for. -/
def LastGrows (call : BrkCall) (s : UserHeap) (size : Nat) : Prop :=
  ∀ last, Returns (fun fuel => findFree s.mem size fuel s.heapBase) 0 →
    Returns (fun fuel => lastBlock s.mem fuel s.heapBase) last → last ≠ 0 →
    if blkFree s.mem last ≠ 0 then size ≤ (blkSize s.mem last + growSize size) % 2 ^ 32
    else size ≤ sizeLeft last (sysBrk call s 0).1 (growSize size - BLOCK_SIZE)

/-- What `calloc` returns is null, or zeros over the whole product. -/
def CallocAmple (call : BrkCall) (s : UserHeap) (count size : UInt32) : Prop :=
  ∀ p s', Returns (fun fuel => calloc call fuel s count size) (p, s') →
    p = 0 ∨ (count.toNat * size.toNat ≤ blkSize s'.mem (p - BLOCK_SIZE) ∧
      ∀ k < count.toNat * size.toNat, s'.mem (p + k) = 0)

-- ---------------------------------------------------------------------------
-- The loops over the list
-- ---------------------------------------------------------------------------

theorem findFree_mono (m : Bytes) (size cur : Nat) :
    FuelMono fun fuel => findFree m size fuel cur := by
  intro fuel r h
  induction fuel generalizing cur with
  | zero => cases h
  | succ fuel ih =>
    dsimp only at h ⊢
    rw [findFree] at h ⊢
    split
    · rwa [if_pos ‹_›] at h
    · rw [if_neg ‹_›] at h
      split
      · rwa [if_pos ‹_›] at h
      · rw [if_neg ‹_›] at h
        exact ih _ h

theorem findFree_found (h : findFree m size n cur = some blk) :
    (blk = 0 ∧ Ends fun fuel => lastBlock m fuel cur) ∨ (blk ≠ 0 ∧ size ≤ blkSize m blk) := by
  induction n generalizing cur with
  | zero => cases h
  | succ n ih =>
    rw [findFree] at h
    split at h
    · rename_i hnull
      refine .inl ⟨(Option.some.inj h).symm, 0, .step (fun fuel => ?_) (.pure 0)⟩
      rw [lastBlock, hnull, if_neg (fun hand => hand.1 rfl)]
    · rename_i hcur
      split at h
      · rename_i hfit
        obtain rfl := Option.some.inj h
        exact .inr ⟨hcur, hfit.2⟩
      · obtain ⟨hblk, last, hlast⟩ | hblk := ih h
        · refine .inl ⟨hblk, ?_⟩
          by_cases hnext : blkNext m cur = 0
          · refine ⟨cur, .step (fun fuel => ?_) (.pure cur)⟩
            rw [lastBlock, if_neg (fun hand => hand.2 hnext)]
          · refine ⟨last, .step (fun fuel => ?_) hlast⟩
            rw [lastBlock, if_pos ⟨hcur, hnext⟩]
        · exact .inr hblk

-- ---------------------------------------------------------------------------
-- The block that is returned
-- ---------------------------------------------------------------------------

theorem blkSize_takeBlock (s : UserHeap) (blk : Nat) (hsize : size < 2 ^ 32) :
    size ≤ blkSize (takeBlock s blk size).2.mem blk ↔ size ≤ blkSize s.mem blk := by
  have htake : blkSize (takeBlock s blk size).2.mem blk = blkSize (splitBlock s.mem blk size) blk := by
    dsimp only [takeBlock]
    rw [blkSize_eq, cell_setBlkFree, blkSize_eq]
  rw [htake, splitBlock]
  split
  · dsimp only
    rw [blkSize_eq, cell_setBlkSize, Nat.mod_eq_of_lt hsize]
    dsimp only
    omega
  · rfl

theorem takeBlock_fst (s : UserHeap) (blk size : Nat) :
    BLOCK_SIZE ≤ (takeBlock s blk size).1 ∧ (takeBlock s blk size).1 ≠ 0 ∧
      (takeBlock s blk size).1 - BLOCK_SIZE = blk := by
  simp only [takeBlock, BLOCK_SIZE]
  omega

theorem blkSize_congr {m m' : Bytes} (h : ∀ i < 4, m (c + i) = m' (c + i)) :
    blkSize m c = blkSize m' c := getLE_congr_at h

theorem blkSize_linked (m : Bytes) (last c size : Nat) :
    blkSize (setBlkNext (newBlock m c size) last c) c = sizeLeft last c size := by
  refine blkSize_congr fun i hi => ?_
  unfold setBlkNext
  by_cases hlink : last + 8 ≤ c + i ∧ c + i < last + 8 + 8
  · rw [putLE, if_pos hlink, putLE, if_pos hlink]
  · rw [putLE, if_neg hlink, putLE, if_neg hlink]
    unfold newBlock setBlkNext setBlkFree setBlkSize
    rw [putLE_off _ _ (.inl (by omega)), putLE_off _ _ (.inl (by omega)),
      putLE, if_pos (by omega), putLE, if_pos (by omega)]

theorem growSize_room (hsize : size < 2 ^ 32) : size ≤ (growSize size - BLOCK_SIZE) % 2 ^ 32 := by
  unfold growSize BLOCK_SIZE HEAP_SIZE
  dsimp only
  split <;> omega

/-- The block with the bytes that the heap grows by has room for the request unless the size of
the last one wraps, or the link to the new one is written over its size. -/
theorem addBytes_room (hsize : size < 2 ^ 32)
    (hfind : Returns (fun fuel => findFree s.mem size fuel s.heapBase) 0)
    (hlast : Returns (fun fuel => lastBlock s.mem fuel s.heapBase) last) :
    size ≤ blkSize (addBytes (raiseBreak call s (growSize size)).2 (sysBrk call s 0).1
        (growSize size) last).2.mem (addBytes (raiseBreak call s (growSize size)).2
        (sysBrk call s 0).1 (growSize size) last).1 ↔ LastGrows call s size := by
  have hmem : (raiseBreak call s (growSize size)).2.mem = s.mem := rfl
  generalize (raiseBreak call s (growSize size)).2 = r at hmem
  -- there is one last block
  have hone : LastGrows call s size ↔ (last ≠ 0 →
      if blkFree s.mem last ≠ 0 then size ≤ (blkSize s.mem last + growSize size) % 2 ^ 32
      else size ≤ sizeLeft last (sysBrk call s 0).1 (growSize size - BLOCK_SIZE)) := by
    refine ⟨fun h => h last hfind hlast, fun h last' _ hlast' => ?_⟩
    obtain rfl := hlast'.unique hlast
    exact h
  rw [hone, addBytes, hmem]
  by_cases hnone : last = 0
  · rw [if_neg (fun h => h.1 hnone), if_neg (fun h => h hnone)]
    dsimp only
    rw [blkSize_eq, cell_newBlock]
    exact ⟨fun _ h => absurd hnone h, fun _ => growSize_room hsize⟩
  · by_cases hfree : blkFree s.mem last ≠ 0
    · rw [if_pos ⟨hnone, hfree⟩, if_pos hfree]
      dsimp only
      rw [blkSize_eq, cell_setBlkSize]
      exact ⟨fun h _ => h, fun h => h hnone⟩
    · rw [if_neg (fun h => hfree h.2), if_neg hfree, if_pos hnone]
      dsimp only
      rw [blkSize_linked]
      exact ⟨fun h _ => h, fun h => h hnone⟩

/-- A request whose search ends returns a block, with room for it unless the last block grew too
large or the new one is written over. -/
theorem allocate_room (call : BrkCall) (hs : Searched s size) (hsize : size < 2 ^ 32) :
    ∃ r, Returns (fun fuel => allocate call fuel s size) r ∧ BLOCK_SIZE ≤ r.1 ∧ r.1 ≠ 0 ∧
      (size ≤ blkSize r.2.mem (r.1 - BLOCK_SIZE) ↔ LastGrows call s size) := by
  obtain ⟨blk, hfind⟩ := hs
  have hfound := hfind
  obtain ⟨fuel, hfuel⟩ := hfound
  rcases findFree_found (hfuel fuel (Nat.le_refl _)) with ⟨rfl, last, hlast⟩ | ⟨hblk, hroom⟩
  · have hgrow : Returns (fun fuel => growHeap call fuel s size)
        (addBytes (raiseBreak call s (growSize size)).2 (sysBrk call s 0).1 (growSize size) last) :=
      hlast.map _
    obtain ⟨hle, hne, hsub⟩ := takeBlock_fst
      (addBytes (raiseBreak call s (growSize size)).2 (sysBrk call s 0).1 (growSize size) last).2
      (addBytes (raiseBreak call s (growSize size)).2 (sysBrk call s 0).1 (growSize size) last).1 size
    refine ⟨_, hfind.bind (hgrow.map _), hle, hne, ?_⟩
    rw [hsub, blkSize_takeBlock _ _ hsize]
    exact addBytes_room hsize hfind hlast
  · obtain ⟨hle, hne, hsub⟩ := takeBlock_fst s blk size
    refine ⟨_, allocate_found hfind hblk, hle, hne, ?_⟩
    rw [hsub, blkSize_takeBlock _ _ hsize]
    exact ⟨fun _ last hnone => absurd (hnone.unique hfind).symm hblk, fun _ => hroom⟩

theorem searched_of_allocate {r : Nat × UserHeap} (h : allocate call n s size = some r) :
    Searched s size := by
  obtain ⟨blk, hfind, -⟩ := Option.bind_eq_some_iff.mp h
  exact ⟨blk, (findFree_mono s.mem size s.heapBase).returns hfind⟩

theorem putLE_zero (m : Bytes) (p n k : Nat) (hk : k < n) : putLE m p n 0 (p + k) = 0 := by
  rw [putLE, if_pos (by omega), Nat.zero_div]
  rfl

/-- What is asked of `malloc` is the product modulo 2 ^ 32. -/
theorem callocAmple_iff (call : BrkCall) (s : UserHeap) (count size : UInt32) :
    CallocAmple call s count size ↔ count * size = 0 ∨
      ¬ Searched (heapInit call s) (count * size).toNat ∨
      (count.toNat * size.toNat < 2 ^ 32 ∧
        LastGrows call (heapInit call s) (count * size).toNat) := by
  have hprod : (count * size).toNat = count.toNat * size.toNat % 2 ^ 32 := UInt32.toNat_mul ..
  by_cases hzero : count * size = 0
  · have hnull : Returns (fun fuel => calloc call fuel s count size) (0, s) := by
      simpa [calloc, hzero, malloc] using Returns.pure ((0, s) : Nat × UserHeap)
    refine ⟨fun _ => .inl hzero, fun _ p s' h => .inl ?_⟩
    exact (Prod.mk.inj (h.unique hnull)).1
  by_cases hsearch : Searched (heapInit call s) (count * size).toNat
  · obtain ⟨⟨p, s'⟩, hret, hp, hne, hroom⟩ :=
      allocate_room call hsearch (count * size).toNat_lt
    have hcall : Returns (fun fuel => calloc call fuel s count size)
        (p, { s' with mem := putLE s'.mem p (count * size).toNat 0 }) := by
      have hmap := hret.map fun r : Nat × UserHeap =>
        if r.1 ≠ 0 then (r.1, { r.2 with mem := putLE r.2.mem r.1 (count * size).toNat 0 }) else r
      rw [if_pos hne] at hmap
      simp only [calloc, malloc, if_neg hzero]
      exact hmap
    have hsize : blkSize (putLE s'.mem p (count * size).toNat 0) (p - BLOCK_SIZE) =
        blkSize s'.mem (p - BLOCK_SIZE) := by
      rw [blkSize_eq, cell_congr fun i hi => putLE_off _ _ (.inl (by omega)), blkSize_eq]
    rw [← hroom]
    have hlt : blkSize s'.mem (p - BLOCK_SIZE) < 2 ^ 32 := by
      have := getLE_lt s'.mem (p - BLOCK_SIZE) 4
      norm_num at this
      exact this
    constructor
    · intro hample
      obtain ⟨hle, -⟩ := (hample p _ hcall).resolve_left hne
      rw [hsize] at hle
      refine .inr (.inr ⟨by omega, ?_⟩)
      rw [hprod, Nat.mod_eq_of_lt (by omega)]
      exact hle
    · intro hcond q t hq
      obtain ⟨hlt', hle⟩ := (hcond.resolve_left hzero).resolve_left (not_not_intro hsearch)
      obtain ⟨rfl, rfl⟩ := Prod.mk.inj (hq.unique hcall)
      rw [hprod, Nat.mod_eq_of_lt hlt'] at hle hsize ⊢
      refine .inr ⟨?_, fun k hk => putLE_zero _ _ _ _ hk⟩
      rw [hsize]
      exact hle
  · -- the loop of `find_free` runs for ever
    refine ⟨fun _ => .inr (.inl hsearch), fun _ p s' h => absurd ?_ hsearch⟩
    obtain ⟨fuel, hfuel⟩ := h
    obtain ⟨r, hr, -⟩ := Option.map_eq_some_iff.mp (hfuel fuel (Nat.le_refl _))
    rw [malloc, if_neg hzero] at hr
    exact searched_of_allocate hr

theorem empty_grows (call : BrkCall) (hbase : s.heapBase = 0) (size : Nat) :
    Searched s size ∧ LastGrows call s size := by
  refine ⟨⟨0, .step (fun fuel => ?_) (.pure 0)⟩, fun last _ hlast hne => absurd ?_ hne⟩
  · rw [hbase, findFree, if_pos rfl]
  · refine hlast.unique (.step (fun fuel => ?_) (.pure 0))
    rw [hbase, lastBlock, if_neg (fun hand => hand.1 rfl)]

/-- With the `SYS_BRK` of the kernel the first block lies at 0, which the loops take for none. -/
theorem heapInit_stub (hbase : s.heapBase = 0) : (heapInit sysBrkStub s).heapBase = 0 := by
  unfold heapInit
  split
  · exact hbase
  · rfl

/-- So a program whose heap holds no other answer meets no list, and only the product can wrap. -/
theorem callocAmple_stub (hbase : s.heapBase = 0) (count size : UInt32) :
    CallocAmple sysBrkStub s count size ↔ count * size = 0 ∨ count.toNat * size.toNat < 2 ^ 32 := by
  obtain ⟨hsearch, hgrows⟩ := empty_grows sysBrkStub (heapInit_stub hbase)
    (count * size).toNat
  rw [callocAmple_iff]
  refine or_congr_right ⟨fun h => (h.resolve_left (not_not_intro hsearch)).1, fun h => .inr ⟨h, hgrows⟩⟩

-- ---------------------------------------------------------------------------
-- Both heaps
-- ---------------------------------------------------------------------------

/-- Allocations are as large as asked exactly where the arithmetic does not wrap, or there is none,
whatever `sys_brk` answers. -/
theorem allocs_ample_iff (k : Mm.Heap) (hend : k.gHeapEnd + Mm.HEADER_SIZE ≤ k.gHeapVirtTop)
    (call : BrkCall) (u : UserHeap) :
    (∀ size : Nat, Mm.KmallocAmple k size ↔ size ≤ Mm.MAX_EXACT ∨ ¬ Mm.Served k size) ∧
      (∀ count size : Nat, Mm.KcallocAmple k count size ↔
        count * size ≤ Mm.MAX_EXACT ∨ ¬ Mm.Served k (count * size % 2 ^ 64)) ∧
      ∀ count size : UInt32, CallocAmple call u count size ↔ count * size = 0 ∨
        ¬ Searched (heapInit call u) (count * size).toNat ∨
        (count.toNat * size.toNat < 2 ^ 32 ∧
          LastGrows call (heapInit call u) (count * size).toNat) :=
  ⟨Mm.kmallocAmple_iff hend, Mm.kcallocAmple_iff hend, callocAmple_iff call u⟩

theorem small_allocs_ample :
    Mm.KmallocAmple (Mm.heapInit (fun _ => 0) Mm.bootMachine) 100 ∧
      Mm.KcallocAmple (Mm.heapInit (fun _ => 0) Mm.bootMachine) 10 30 ∧
      CallocAmple sysBrkStub (startHeap (fun _ => 0) 0) 10 30 := by
  obtain ⟨hmalloc, hcalloc, huser⟩ := allocs_ample_iff (Mm.heapInit (fun _ => 0) Mm.bootMachine)
    (by decide) sysBrkStub (startHeap (fun _ => 0) 0)
  refine ⟨(hmalloc 100).mpr (.inl (by decide)), (hcalloc 10 30).mpr (.inl (by decide)),
    (huser 10 30).mpr (.inr (.inr ⟨by decide, ?_⟩))⟩
  exact (empty_grows sysBrkStub (heapInit_stub rfl) _).2

/-- Each of the three can return a small block for a huge request; the last one does with the
`SYS_BRK` of the kernel and with one that sets the break. -/
theorem huge_allocs_short :
    ¬ Mm.KmallocAmple (Mm.heapInit (fun _ => 0) Mm.bootMachine) (2 ^ 64 - 1) ∧
      ¬ Mm.KcallocAmple (Mm.heapInit (fun _ => 0) Mm.bootMachine) (2 ^ 62 + 1) 4 ∧
      ¬ CallocAmple sysBrkStub (startHeap (fun _ => 0) 0) 0x40000001 4 ∧
      ¬ CallocAmple sysBrkSets (startHeap (fun _ => 0) 0x400000) 0x40000001 4 := by
  have hend : (Mm.heapInit (fun _ => 0) Mm.bootMachine).gHeapEnd + Mm.HEADER_SIZE ≤
      (Mm.heapInit (fun _ => 0) Mm.bootMachine).gHeapVirtTop := by decide
  refine ⟨fun h => ?_, fun h => ?_, fun h => ?_, fun h => ?_⟩
  · obtain hle | hno := (Mm.kmallocAmple_iff hend _).mp h
    · exact absurd hle (by decide)
    · exact hno (Mm.heapInit_served _ _ (by decide) (by decide))
  · obtain hle | hno := (Mm.kcallocAmple_iff hend _ _).mp h
    · exact absurd hle (by decide)
    · exact hno (Mm.heapInit_served _ _ (by decide) (by decide))
  · obtain hzero | hlt := (callocAmple_stub rfl _ _).mp h
    · exact absurd hzero (by decide)
    · exact absurd hlt (by decide)
  · -- the search stops at the first block
    have hsearch : Searched (heapInit sysBrkSets (startHeap (fun _ => 0) 0x400000))
        (0x40000001 * 4 : UInt32).toNat :=
      ⟨0x400000, (findFree_mono _ _ _).returns (n := 1) (by decide +kernel)⟩
    obtain hzero | hnone | ⟨hlt, -⟩ := (callocAmple_iff _ _ _ _).mp h
    · exact absurd hzero (by decide)
    · exact hnone hsearch
    · exact absurd hlt (by decide)

end EponaOS.User
