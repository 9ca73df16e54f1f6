import EponaOS.Lib.BlockChain
import EponaOS.Mm.HeapBlocks

/-!
# What the calls of the kernel heap do

`kmalloc` and `kfree` on the list of blocks, and on the list of live allocations kept next
to it. Growing relies on `g_heap_end` being the last block; nothing else does.
-/

namespace EponaOS.Mm

open Bytes BlockList

variable {s s' : Heap} {b c : Blk} {bs bs' pre post : List Blk} {live : List (Nat × Nat)}

def MAX_ALLOC : Nat := 2 ^ 64 - 4128

theorem allocTotal_spec (h : size ≤ MAX_ALLOC) :
    MIN_BLOCK ≤ allocTotal size ∧ size + HEADER_SIZE ≤ allocTotal size ∧
      allocTotal size + pageSize ≤ 2 ^ 64 := by
  unfold MAX_ALLOC at h
  unfold allocTotal
  dsimp only
  generalize hr : (if size % HEAP_ALIGN ≠ 0 then
    (size + HEAP_ALIGN - 1) % 2 ^ 64 / HEAP_ALIGN * HEAP_ALIGN else size) = r
  have hround : size ≤ r ∧ r ≤ 2 ^ 64 - 4128 := by
    rw [← hr]
    unfold HEAP_ALIGN
    split <;> omega
  by_cases hmin : (r + HEADER_SIZE) % 2 ^ 64 < MIN_BLOCK
  · rw [if_pos hmin]
    simp only [MIN_BLOCK, HEADER_SIZE, pageSize] at *
    omega
  · rw [if_neg hmin]
    simp only [MIN_BLOCK, HEADER_SIZE, pageSize] at *
    omega

theorem growCount_spec (h : total + pageSize ≤ 2 ^ 64) : total ≤ growCount total * pageSize := by
  simp only [pageSize] at h
  simp only [growCount, pageSize]
  split <;> omega

theorem growCount_min (h : total + pageSize ≤ 2 ^ 64) : MIN_BLOCK ≤ growCount total * pageSize := by
  simp only [pageSize] at h
  simp only [growCount, pageSize, MIN_BLOCK]
  split <;> omega

-- ---------------------------------------------------------------------------
-- What each call does to the blocks
-- ---------------------------------------------------------------------------

theorem HeapRep.append (hr : HeapRep s bs) (hend : s.gHeapEnd = lastAddr 0 bs)
    (hsize : MIN_BLOCK ≤ pages * pageSize)
    (hframes : machine.pmm.freeFrames + pages ≤ s.machine.pmm.freeFrames) :
    HeapRep { s with
      mem := setNext (setPrev (heapCreateBlock s.mem s.gHeapVirtTop (pages * pageSize))
        s.gHeapVirtTop s.gHeapEnd) s.gHeapEnd s.gHeapVirtTop
      machine
      gHeapEnd := s.gHeapVirtTop
      gHeapVirtTop := (s.gHeapVirtTop + pages * pageSize) % 2 ^ 64 }
      (bs ++ [⟨s.gHeapVirtTop, pages * pageSize, true⟩]) := by
  have htop := hr.top_lt
  have hfr := hr.frames
  have hbound : s.gHeapVirtTop + pages * pageSize < 2 ^ 64 := by
    simp only [HEAP_START, pageSize, maxFrames] at *
    omega
  obtain ⟨pre, e, rfl⟩ : ∃ pre e, bs = pre ++ [e] :=
    ⟨_, _, (List.dropLast_concat_getLast hr.nonempty).symm⟩
  have he : s.gHeapEnd = e.addr := by simpa using hend
  have hlast : Mm.header s.mem e.addr = ⟨e.size, e.free, 0, lastAddr 0 pre⟩ := by
    have hr' : HeapRep s (pre ++ [e] ++ []) := by simpa using hr
    exact hr'.header
  have hfin := (hr.block (b := e) (by simp)).2
  have hbefore : ∀ x ∈ pre, x.addr + MIN_BLOCK ≤ e.addr := by
    have hr' : HeapRep s (pre ++ [e] ++ []) := by simpa using hr
    obtain ⟨y, z, ⟨hy, -⟩, -, hpre, -⟩ := hr'.around
    intro x hx
    exact hy ▸ hpre x hx
  rw [Nat.mod_eq_of_lt hbound, he]
  generalize hm : setNext (setPrev (heapCreateBlock s.mem s.gHeapVirtTop (pages * pageSize))
    s.gHeapVirtTop e.addr) e.addr s.gHeapVirtTop = m
  have hae : Apart e.addr s.gHeapVirtTop := by
    unfold Apart Blk.fin MIN_BLOCK HEADER_SIZE at *
    omega
  have hoff : ∀ x, Apart x s.gHeapVirtTop → Apart x e.addr → Mm.header m x = Mm.header s.mem x := by
    intro x h1 h2
    rw [← hm, header_setNext_off h2, header_setPrev_off h1, header_heapCreateBlock_off h1]
  refine ⟨?_, ?_, ?_, by simp, ?_⟩
  · rw [tiles_append]
    exact ⟨s.gHeapVirtTop, hr.tiles, rfl, hsize, rfl⟩
  · have hl := hr.linked
    rw [← List.append_nil (pre ++ [e])] at hl
    suffices Linked (Mm.header m) 0 (pre ++ [e, ⟨s.gHeapVirtTop, pages * pageSize, true⟩] ++ []) 0 by
      simpa using this
    refine hl.splice rfl (fun x hx => ?_) ⟨?_, ?_, trivial⟩ (by simp)
    · have := hbefore x hx
      apply hoff <;> unfold Apart Blk.fin MIN_BLOCK HEADER_SIZE at * <;> omega
    · rw [← hm, header_setNext, header_setPrev_off hae, header_heapCreateBlock_off hae, hlast,
        Nat.mod_eq_of_lt (by omega)]
      rfl
    · have hea : Apart s.gHeapVirtTop e.addr := by
        unfold Apart at *
        omega
      simp only
      rw [← hm, header_setNext_off hea, header_setPrev, header_heapCreateBlock,
        Nat.mod_eq_of_lt (by omega), Nat.mod_eq_of_lt (by unfold Blk.fin at hfin; omega)]
      rfl
  · rw [hr.start]
    simp
  · simp only [pageSize] at *
    omega

theorem growHeap_spec (hr : HeapRep s bs) (hend : s.gHeapEnd = lastAddr 0 bs)
    (ht : MIN_BLOCK ≤ total) (htotal : total + pageSize ≤ 2 ^ 64) (h : growHeap s total = (p, s')) :
    (p = 0 ∧ s'.mem = s.mem ∧ s'.gHeapEnd = s.gHeapEnd ∧ HeapRep s' bs) ∨
      (p = s.gHeapVirtTop + HEADER_SIZE ∧ s'.gHeapEnd = s.gHeapVirtTop ∧
        HeapRep s' (bs ++ takeBlk ⟨s.gHeapVirtTop, growCount total * pageSize, true⟩ total)) := by
  unfold growHeap at h
  dsimp only at h
  rcases hg : growPages s.machine (BitVec.ofNat 64 s.gHeapVirtTop) (growCount total) with ⟨ok, machine⟩
  rw [hg] at h
  have hframes := growPages_freeFrames hg
  cases ok with
  | false =>
    cases h
    have hfr := hr.frames
    refine .inl ⟨rfl, rfl, rfl, hr.tiles, hr.linked, hr.start, hr.nonempty, ?_⟩
    simp only [pageSize, Bool.false_eq_true, if_false] at *
    omega
  | true =>
    have hfit := growCount_spec htotal
    have hnew := hr.append hend (growCount_min htotal) (by simpa using hframes)
    rw [← List.append_nil (bs ++ _)] at hnew
    have htake := hnew.takeFit ht hfit
    have hhdr := hnew.header
    generalize hm : setNext (setPrev (heapCreateBlock s.mem s.gHeapVirtTop (growCount total * pageSize))
      s.gHeapVirtTop s.gHeapEnd) s.gHeapEnd s.gHeapVirtTop = m at *
    simp only at hhdr
    have hsz : hdrSize m s.gHeapVirtTop = growCount total * pageSize := by rw [hdrSize_eq, hhdr]
    dsimp only at h
    rw [hsz, if_pos hfit] at h
    have hnone : hdrNext (remainder m s.gHeapVirtTop total) (s.gHeapVirtTop + total) = 0 := by
      have htop := hr.top_lt
      have := hnew.top_lt
      have hfin := (hnew.block (b := ⟨s.gHeapVirtTop, growCount total * pageSize, true⟩) (by simp)).2.1
      simp only [Blk.fin] at *
      rw [hdrNext_eq, header_remainder _ (b := ⟨s.gHeapVirtTop, growCount total * pageSize, true⟩) hhdr
        (Nat.le_trans (by decide) ht) (by simp only; omega) (by simp) (by omega)]
      rfl
    rw [takeNew_eq hnone] at h
    cases h
    exact .inr ⟨rfl, rfl, by simpa using htake⟩

theorem kmalloc_spec (hr : HeapRep s bs) (hend : s.gHeapEnd = lastAddr 0 bs)
    (hsize : size ≤ MAX_ALLOC) (h : kmalloc fuel s size = some (p, s')) :
    (p = 0 ∧ s'.mem = s.mem ∧ s'.gHeapEnd = s.gHeapEnd ∧ HeapRep s' bs) ∨
      (∃ pre b post, bs = pre ++ [b] ++ post ∧ Fits (allocTotal size) b ∧
        (∀ x ∈ pre, ¬ Fits (allocTotal size) x) ∧
        firstFit s.mem (allocTotal size) fuel s.gHeapStart = some b.addr ∧ p = b.addr + HEADER_SIZE ∧
        s'.gHeapEnd = s.gHeapEnd ∧ HeapRep s' (pre ++ takeBlk b (allocTotal size) ++ post)) ∨
      ((∀ x ∈ bs, ¬ Fits (allocTotal size) x) ∧
        firstFit s.mem (allocTotal size) fuel s.gHeapStart = some 0 ∧
        p = s.gHeapVirtTop + HEADER_SIZE ∧ s'.gHeapEnd = s.gHeapVirtTop ∧ HeapRep s' (bs ++
          takeBlk ⟨s.gHeapVirtTop, growCount (allocTotal size) * pageSize, true⟩ (allocTotal size))) := by
  unfold kmalloc at h
  split at h
  · cases h
    exact .inl ⟨rfl, rfl, rfl, hr⟩
  dsimp only at h
  split at h
  · cases h
  rename_i curr hcurr
  have hcurr' := hcurr
  rw [hr.start] at hcurr
  obtain ⟨ht, -, htotal⟩ := allocTotal_spec hsize
  obtain ⟨rfl, hall⟩ | ⟨pre, b, post, rfl, hfit, rfl, hbefore⟩ :=
    firstFit_linked hr.linked (fun b hb => (hr.block hb).1) hcurr
  · obtain hfail | hgrow := growHeap_spec hr hend ht htotal (Option.some.inj (by simpa using h))
    · exact .inl hfail
    · exact .inr (.inr ⟨hall, hcurr', hgrow⟩)
  · have hb := (hr.block (b := b) (by simp)).1
    rw [if_pos (by omega)] at h
    cases h
    exact .inr (.inl ⟨pre, b, post, rfl, hfit, hbefore, hcurr', rfl, rfl, hr.takeFit ht hfit.2⟩)

theorem kmalloc_returns (hr : HeapRep s bs) (hfuel : bs.length < fuel) :
    ∃ p s', kmalloc fuel s size = some (p, s') := by
  unfold kmalloc
  split
  · exact ⟨_, _, rfl⟩
  obtain ⟨curr, hcurr⟩ := firstFit_returns (allocTotal size) hr.linked
    (fun b hb => (hr.block hb).1) hfuel
  rw [← hr.start] at hcurr
  simp only [hcurr]
  split
  · exact ⟨_, _, rfl⟩
  · exact ⟨_, _, rfl⟩

/-- The blocks after block `b`, between `pre` and `post`, was freed: it is merged into a free
block before it, or else with a free block after it. -/
inductive Freed (pre : List Blk) (b : Blk) (post : List Blk) : List Blk → Prop
  | prev {as a} : pre = as ++ [a] → a.free = true →
      Freed pre b post (as ++ [{ a with size := a.size + b.size }] ++ post)
  | next {d ds} : (∀ a as, pre = as ++ [a] → a.free = false) → post = d :: ds → d.free = true →
      Freed pre b post (pre ++ [⟨b.addr, b.size + d.size, true⟩] ++ ds)
  | alone : (∀ a as, pre = as ++ [a] → a.free = false) → (∀ c cs, post = c :: cs → c.free = false) →
      Freed pre b post (pre ++ [⟨b.addr, b.size, true⟩] ++ post)

theorem HeapRep.prev_free (hr : HeapRep s (pre ++ [b] ++ post)) :
    (hdrPrev s.mem b.addr ≠ 0 ∧ hdrFree s.mem (hdrPrev s.mem b.addr) ≠ 0) ↔
      ∃ a as, pre = as ++ [a] ∧ a.free = true := by
  have hp : hdrPrev s.mem b.addr = lastAddr 0 pre := by rw [hdrPrev_eq, hr.header]
  rw [hp]
  rcases List.eq_nil_or_concat pre with rfl | ⟨as, a, rfl⟩
  · simp
  · have hra : HeapRep s (as ++ [a] ++ ([b] ++ post)) := by simpa using hr
    have ha := (hra.block (b := a) (by simp)).1
    have hlast : lastAddr 0 (as ++ [a]) = a.addr := by simp
    rw [List.concat_eq_append, hlast, hdrFree_ne_zero, hra.header]
    constructor
    · rintro ⟨-, hfree⟩
      exact ⟨a, as, rfl, hfree⟩
    · rintro ⟨a', as', heq, hfree⟩
      obtain ⟨-, rfl⟩ := by simpa using heq
      exact ⟨by omega, hfree⟩

theorem kfree_spec (hr : HeapRep s (pre ++ [b] ++ post)) :
    ∃ bs', Freed pre b post bs' ∧ HeapRep (kfree s (b.addr + HEADER_SIZE)) bs' := by
  have hpos := (hr.block (b := b) (by simp)).1
  have hr1 := hr.setFree 1
  have hsub : b.addr + HEADER_SIZE - HEADER_SIZE = b.addr := Nat.add_sub_cancel ..
  unfold kfree
  rw [if_neg (by omega)]
  dsimp only
  rw [hsub]
  generalize Mm.setFree s.mem b.addr 1 = m1 at hr1 ⊢
  split
  · rename_i hprev
    obtain ⟨a, as, rfl, hfree⟩ := hr1.prev_free.mp hprev
    have hra : HeapRep { s with mem := m1 } (as ++ [a, { b with free := true }] ++ post) := by
      simpa using hr1
    have hp : hdrPrev m1 b.addr = a.addr := by
      have := hr1.header
      simp only at this
      rw [hdrPrev_eq, this]
      simp
    rw [hp]
    exact ⟨_, .prev rfl hfree, hra.heapCoalesce rfl⟩
  · rename_i hprev
    have hused : ∀ a as, pre = as ++ [a] → a.free = false := by
      intro a as heq
      by_contra hne
      exact hprev (hr1.prev_free.mpr ⟨a, as, heq, by simpa using hne⟩)
    by_cases hnext : ∃ c cs, post = c :: cs ∧ c.free = true
    · obtain ⟨c, cs, rfl, hfree⟩ := hnext
      have hrc : HeapRep { s with mem := m1 } (pre ++ [{ b with free := true }, c] ++ cs) := by
        simpa using hr1
      exact ⟨_, .next hused rfl hfree, hrc.heapCoalesce hfree⟩
    · have hnone : ∀ c cs, post = c :: cs → c.free = false := by
        intro c cs heq
        by_contra hne
        exact hnext ⟨c, cs, heq, by simpa using hne⟩
      have hsame := hr1.heapCoalesce_used hnone
      simp only at hsame
      rw [hsame]
      exact ⟨_, .alone hused hnone, hr1⟩

theorem Freed.used (h : Freed pre b post bs') (hc : c.free = false) :
    c ∈ bs' ↔ c ∈ pre ∨ c ∈ post := by
  cases h with
  | @prev as a hpre ha =>
    subst hpre
    have h1 : c ≠ { a with size := a.size + b.size } := by
      rintro rfl
      simp [ha] at hc
    have h2 : c ≠ a := by
      rintro rfl
      simp [ha] at hc
    simp [h1, h2]
  | @next d ds _ hpost hd =>
    subst hpost
    have h1 : c ≠ ⟨b.addr, b.size + d.size, true⟩ := by
      rintro rfl
      simp at hc
    have h2 : c ≠ d := by
      rintro rfl
      simp [hd] at hc
    simp [h1, h2]
  | alone _ _ =>
    have h1 : c ≠ ⟨b.addr, b.size, true⟩ := by
      rintro rfl
      simp at hc
    simp [h1]

-- ---------------------------------------------------------------------------
-- Live allocations
-- ---------------------------------------------------------------------------

structure LiveIn (bs : List Blk) (live : List (Nat × Nat)) : Prop where
  nodup : (live.map Prod.fst).Nodup
  block : ∀ p n, (p, n) ∈ live → ∃ b ∈ bs, b.free = false ∧ p = b.addr + HEADER_SIZE ∧
    n + HEADER_SIZE ≤ b.size
  used : ∀ b ∈ bs, b.free = false → ∃ n, (b.addr + HEADER_SIZE, n) ∈ live

def dropLive (live : List (Nat × Nat)) (p : Nat) : List (Nat × Nat) := live.filter fun x => x.1 != p

theorem liveIn_iff : LiveIn bs live ↔ Uses HEADER_SIZE bs live :=
  ⟨fun h => ⟨h.nodup, h.block, h.used⟩, fun h => ⟨h.nodup, h.block, h.used⟩⟩

theorem LiveIn.congr (h : LiveIn bs live) (hbs : ∀ b, b.free = false → (b ∈ bs' ↔ b ∈ bs)) :
    LiveIn bs' live :=
  liveIn_iff.mpr ((liveIn_iff.mp h).congr hbs)

theorem LiveIn.take (h : LiveIn (pre ++ [b] ++ post) live)
    (htiles : Tiles MIN_BLOCK lo (pre ++ [b] ++ post) hi) (hfree : b.free = true)
    (hn : n + HEADER_SIZE ≤ total) (hfit : total ≤ b.size) :
    LiveIn (pre ++ takeBlk b total ++ post) ((b.addr + HEADER_SIZE, n) :: live) :=
  liveIn_iff.mpr ((liveIn_iff.mp h).take htiles (by decide) hfree hn hfit)

theorem LiveIn.grow (h : LiveIn bs live) (hr : HeapRep s bs) (hsize : size ≤ MAX_ALLOC) :
    LiveIn (bs ++ takeBlk ⟨s.gHeapVirtTop, growCount (allocTotal size) * pageSize, true⟩
      (allocTotal size)) ((s.gHeapVirtTop + HEADER_SIZE, size) :: live) := by
  obtain ⟨-, hn, htotal⟩ := allocTotal_spec hsize
  have hnew : LiveIn (bs ++ [⟨s.gHeapVirtTop, growCount (allocTotal size) * pageSize, true⟩] ++ [])
      live := by
    refine h.congr fun c hcf => ?_
    have : c ≠ ⟨s.gHeapVirtTop, growCount (allocTotal size) * pageSize, true⟩ := by
      rintro rfl
      cases hcf
    simp [this]
  have htiles : Tiles MIN_BLOCK HEAP_START
      (bs ++ [⟨s.gHeapVirtTop, growCount (allocTotal size) * pageSize, true⟩] ++ [])
      (s.gHeapVirtTop + growCount (allocTotal size) * pageSize) := by
    rw [List.append_nil]
    exact tiles_append.mpr ⟨s.gHeapVirtTop, hr.tiles, rfl, growCount_min htotal, rfl⟩
  simpa using hnew.take htiles rfl hn (growCount_spec htotal)

theorem LiveIn.freed (h : LiveIn (pre ++ [b] ++ post) live) (hr : HeapRep s (pre ++ [b] ++ post))
    (hf : Freed pre b post bs') : LiveIn bs' (dropLive live (b.addr + HEADER_SIZE)) :=
  liveIn_iff.mpr ((liveIn_iff.mp h).drop hr.tiles (by decide) fun _ hc => hf.used hc)

end EponaOS.Mm
