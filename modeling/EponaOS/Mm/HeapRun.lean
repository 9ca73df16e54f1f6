import EponaOS.Lib.Run
import EponaOS.Mm.HeapCalls
import EponaOS.Mm.BootTables

/-!
# Runs of the kernel heap

`kmalloc`, `kcalloc`, `krealloc` and `kfree` in any order, with the list of live
allocations next to the heap. `g_heap_end` is set when the heap grows and nowhere else:
when the last block is cut in two, or is merged into the one before it, `g_heap_end` is
no longer the last block, and the next growth hangs its block behind the wrong one.
`MallocOk` and `FreeOk` say when a call leaves `g_heap_end` right.
-/

namespace EponaOS.Mm

open Bytes BlockList

variable {s s' : Heap} {b c : Blk} {bs bs' pre post : List Blk} {live : List (Nat × Nat)}

-- ---------------------------------------------------------------------------
-- When a call leaves `g_heap_end` right
-- ---------------------------------------------------------------------------

/-- The size does not wrap, and neither the last block of the list nor the block of new
pages would be cut in two. -/
def MallocOk (s : Heap) (size : Nat) : Prop :=
  size = 0 ∨ size ≤ MAX_ALLOC ∧ ∀ fuel curr,
    firstFit s.mem (allocTotal size) fuel s.gHeapStart = some curr →
      if curr = 0 then growCount (allocTotal size) * pageSize < allocTotal size + MIN_BLOCK
      else curr = s.gHeapEnd → hdrSize s.mem curr < allocTotal size + MIN_BLOCK

def FreeOk (s : Heap) (ptr : Nat) : Prop :=
  ptr = 0 ∨
    let h := ptr - HEADER_SIZE
    if hdrPrev s.mem h ≠ 0 ∧ hdrFree s.mem (hdrPrev s.mem h) ≠ 0 then h ≠ s.gHeapEnd
    else ¬ (hdrNext s.mem h = s.gHeapEnd ∧ hdrFree s.mem (hdrNext s.mem h) ≠ 0)

/-- The block list as it should be: in address order from the start of the heap to its top,
linked both ways, ending in `g_heap_end`, with the live allocations its blocks in use. -/
def HeapOk (s : Heap) (live : List (Nat × Nat)) : Prop :=
  ∃ bs, bs ≠ [] ∧ Tiles MIN_BLOCK HEAP_START bs s.gHeapVirtTop ∧ Linked (header s.mem) 0 bs 0 ∧
    s.gHeapStart = headAddr bs 0 ∧ s.gHeapEnd = lastAddr 0 bs ∧ LiveIn bs live

/-- `HeapOk`, and the frames that further growth needs are not spent. -/
def HeapInv (s : Heap) (live : List (Nat × Nat)) : Prop :=
  ∃ bs, HeapRep s bs ∧ s.gHeapEnd = lastAddr 0 bs ∧ LiveIn bs live

theorem HeapInv.ok (h : HeapInv s live) : HeapOk s live := by
  obtain ⟨bs, hr, hend, hlive⟩ := h
  exact ⟨bs, hr.nonempty, hr.tiles, hr.linked, hr.start, hend, hlive⟩

theorem HeapOk.disjoint (h : HeapOk s live) (hp : (p, n) ∈ live) (hq : (q, k) ∈ live) (hne : p ≠ q) :
    p + n ≤ q ∨ q + k ≤ p := by
  obtain ⟨bs, -, htiles, -, -, -, hlive⟩ := h
  exact (liveIn_iff.mp hlive).disjoint htiles hp hq hne

theorem lastAddr_of_ne_nil (hne : post ≠ []) (p q : Nat) : lastAddr p post = lastAddr q post := by
  rcases post with _ | ⟨c, cs⟩
  · exact absurd rfl hne
  · rfl

/-- A block is the last exactly when its header is `g_heap_end`. -/
theorem HeapRep.last_iff (hr : HeapRep s (pre ++ [b] ++ post)) :
    b.addr = lastAddr 0 (pre ++ [b] ++ post) ↔ post = [] := by
  constructor
  · intro h
    by_contra hne
    rw [lastAddr_append, lastAddr_of_ne_nil hne _ 0] at h
    obtain ⟨c, hc, heq⟩ := lastAddr_mem 0 hne
    obtain ⟨y, z, ⟨hy, hs, hz⟩, -, -, hpost, -⟩ := hr.around
    have := hpost c hc
    simp only [Tiles, Blk.fin, MIN_BLOCK] at hs hz
    omega
  · rintro rfl
    simp

theorem takeBlk_whole (h : b.size < total + MIN_BLOCK) : takeBlk b total = [{ b with free := false }] := by
  rw [takeBlk, if_neg (by omega)]

/-- A request that is `MallocOk` keeps the invariant, with the block it returns live. -/
theorem kmalloc_inv (hI : HeapInv s live) (hok : MallocOk s size)
    (h : kmalloc fuel s size = some (p, s')) :
    HeapInv s' (if p = 0 then live else (p, size) :: live) := by
  obtain ⟨bs, hr, hend, hlive⟩ := hI
  obtain rfl | ⟨hsize, hfit⟩ := hok
  · unfold kmalloc at h
    cases h
    exact ⟨bs, hr, hend, hlive⟩
  have hn := (allocTotal_spec hsize).2.1
  have hheader : 0 < HEADER_SIZE := by decide
  obtain ⟨rfl, -, hend', hr'⟩ | ⟨pre, b, post, rfl, ⟨hfree, hbs⟩, -, hff, rfl, hend', hr'⟩ |
    ⟨-, hff, rfl, hend', hr'⟩ := kmalloc_spec hr hend hsize h
  · exact ⟨bs, hr', hend'.trans hend, by simpa using hlive⟩
  · have hb := (hr.block (b := b) (by simp)).1
    have hcond := hfit fuel _ hff
    rw [if_neg (by omega)] at hcond
    have hsz : hdrSize s.mem b.addr = b.size := by rw [hdrSize_eq, hr.header]
    refine ⟨_, hr', ?_, ?_⟩
    · rw [hend', hend, lastAddr_append _ post, lastAddr_append (pre ++ takeBlk b _)]
      by_cases hpost : post = []
      · have hlast := hcond (by rw [hend, hr.last_iff, hpost])
        rw [hsz] at hlast
        rw [takeBlk_whole hlast, hpost]
        simp
      · exact lastAddr_of_ne_nil hpost _ _
    · rw [if_neg (by omega)]
      exact hlive.take hr.tiles hfree hn hbs
  · have hcond := hfit fuel _ hff
    rw [if_pos rfl] at hcond
    refine ⟨_, hr', ?_, ?_⟩
    · rw [hend', takeBlk_whole hcond, lastAddr_append]
      rfl
    · rw [if_neg (by omega)]
      exact hlive.grow hr hsize

/-- `FreeOk` on the list: the last block is neither freed next to a free one, nor free after the
one freed. -/
theorem HeapRep.freeOk_iff (hr : HeapRep s (pre ++ [b] ++ post))
    (hend : s.gHeapEnd = lastAddr 0 (pre ++ [b] ++ post)) :
    FreeOk s (b.addr + HEADER_SIZE) ↔
      ((∃ a as, pre = as ++ [a] ∧ a.free = true) → post ≠ []) ∧
        ((∀ a as, pre = as ++ [a] → a.free = false) → ∀ d, post = [d] → d.free = false) := by
  have hpos := (hr.block (b := b) (by simp)).1
  have hsub : b.addr + HEADER_SIZE - HEADER_SIZE = b.addr := Nat.add_sub_cancel ..
  have hlast : hdrNext s.mem b.addr = s.gHeapEnd ∧ hdrFree s.mem (hdrNext s.mem b.addr) ≠ 0 ↔
      ∃ d, post = [d] ∧ d.free = true := by
    have hn : hdrNext s.mem b.addr = headAddr post 0 := by rw [hdrNext_eq, hr.header]
    rw [hn, hend]
    rcases post with _ | ⟨d, ds⟩
    · simp only [headAddr_nil, List.append_nil, lastAddr_append, lastAddr_cons, lastAddr_nil]
      constructor
      · rintro ⟨h0, -⟩
        omega
      · rintro ⟨d, hd, -⟩
        cases hd
    · have hrd : HeapRep s ((pre ++ [b]) ++ [d] ++ ds) := by simpa using hr
      have hd := hrd.last_iff
      rw [List.append_assoc _ [d], List.singleton_append] at hd
      rw [headAddr_cons, hd, hdrFree_ne_zero, hrd.header]
      constructor
      · rintro ⟨rfl, hfree⟩
        exact ⟨d, rfl, hfree⟩
      · rintro ⟨d', heq, hfree⟩
        cases heq
        exact ⟨rfl, hfree⟩
  unfold FreeOk
  dsimp only
  rw [hsub]
  by_cases hprev : ∃ a as, pre = as ++ [a] ∧ a.free = true
  · obtain ⟨a, as, heq, ha⟩ := id hprev
    rw [if_pos (hr.prev_free.mpr hprev), hend, Ne, hr.last_iff]
    constructor
    · rintro (h0 | hne)
      · omega
      · refine ⟨fun _ => hne, fun hall => ?_⟩
        rw [hall a as heq] at ha
        cases ha
    · exact fun h => .inr (h.1 hprev)
  · rw [if_neg (hr.prev_free.not.mpr hprev), hlast]
    constructor
    · rintro (h0 | hne)
      · omega
      · refine ⟨fun h => absurd h hprev, fun _ d hd => ?_⟩
        by_contra hf
        exact hne ⟨d, hd, by simpa using hf⟩
    · rintro ⟨-, h⟩
      refine .inr ?_
      rintro ⟨d, hd, hf⟩
      rw [h (fun a as heq => ?_) d hd] at hf
      · cases hf
      · by_contra hne
        exact hprev ⟨a, as, heq, by simpa using hne⟩

theorem kfree_gHeapEnd (s : Heap) (p : Nat) : (kfree s p).gHeapEnd = s.gHeapEnd := by
  unfold kfree
  split
  · rfl
  · dsimp only
    split <;> rfl

theorem dropLive_of_not_mem (h : p ∉ live.map Prod.fst) : dropLive live p = live :=
  release_of_not_mem h

theorem HeapInv.zero_not_live (hI : HeapInv s live) : 0 ∉ live.map Prod.fst := by
  obtain ⟨bs, -, -, hlive⟩ := hI
  intro h
  obtain ⟨⟨q, n⟩, hq, h0⟩ := List.mem_map.mp h
  obtain ⟨b, -, -, hqb, -⟩ := hlive.block q n hq
  simp only [HEADER_SIZE] at h0 hqb
  omega

/-- Freeing a live allocation, where that is `FreeOk`, keeps the invariant. -/
theorem kfree_inv (hI : HeapInv s live) (hok : FreeOk s p) (hp : p = 0 ∨ p ∈ live.map Prod.fst) :
    HeapInv (kfree s p) (dropLive live p) := by
  obtain rfl | hp := hp
  · rw [dropLive_of_not_mem hI.zero_not_live, kfree, if_pos rfl]
    exact hI
  obtain ⟨bs, hr, hend, hlive⟩ := hI
  obtain ⟨pre, b, post, rfl, -, rfl⟩ := (liveIn_iff.mp hlive).split hp
  obtain ⟨bs', hf, hr'⟩ := kfree_spec hr
  refine ⟨bs', hr', ?_, hlive.freed hr hf⟩
  rw [kfree_gHeapEnd, hend]
  rw [hr.freeOk_iff hend] at hok
  cases hf with
  | @prev as a hpre ha =>
    rw [lastAddr_append, lastAddr_append _ post]
    exact lastAddr_of_ne_nil (hok.1 ⟨a, as, hpre, ha⟩) _ _
  | @next d ds hpre hpost hd =>
    subst hpost
    have hds : ds ≠ [] := by
      rintro rfl
      rw [hok.2 hpre d rfl] at hd
      cases hd
    simp only [lastAddr_append, lastAddr_cons, lastAddr_nil]
    exact lastAddr_of_ne_nil hds _ _
  | alone _ _ => simp

-- ---------------------------------------------------------------------------
-- Writing the bytes of an allocation
-- ---------------------------------------------------------------------------

theorem zeroBytes_off (m : Bytes) {p n x : Nat} (hx : x < p ∨ p + n ≤ x) :
    zeroBytes m p n x = m x := by
  induction n with
  | zero => rfl
  | succ n ih => rw [zeroBytes, setByte_ne _ _ (by omega), ih (by omega)]

theorem copyBytes_off (m : Bytes) {dst src n x : Nat} (hx : x < dst ∨ dst + n ≤ x) :
    copyBytes m dst src n x = m x := by
  induction n with
  | zero => rfl
  | succ n ih => rw [copyBytes, setByte_ne _ _ (by omega), ih (by omega)]

theorem HeapRep.data (hr : HeapRep s bs) (hlive : LiveIn bs live) (hp : (p, n) ∈ live) (hk : k ≤ n)
    {m : Bytes} (hm : ∀ x, x < p ∨ p + k ≤ x → m x = s.mem x) : HeapRep { s with mem := m } bs := by
  obtain ⟨b, hb, -, rfl, hn⟩ := hlive.block p n hp
  refine ⟨hr.tiles, hr.linked.congr fun c hc => header_congr fun i hi => hm _ ?_, hr.start,
    hr.nonempty, hr.frames⟩
  have hcs := (hr.block hc).2.2
  simp only [HEADER_SIZE, MIN_BLOCK] at *
  obtain rfl | hlt | hlt := hr.tiles.apart hb hc
  · omega
  · unfold Blk.fin at hlt
    omega
  · unfold Blk.fin at hlt
    omega

theorem kcalloc_inv (hI : HeapInv s live) (hok : MallocOk s (count * size % 2 ^ 64))
    (h : kcalloc fuel s count size = some (p, s')) :
    HeapInv s' (if p = 0 then live else (p, count * size % 2 ^ 64) :: live) := by
  unfold kcalloc at h
  dsimp only at h
  split at h
  · cases h
  rename_i q s1 hq
  have hI1 := kmalloc_inv hI hok hq
  split at h
  · rename_i hne
    cases h
    rw [if_neg hne] at hI1 ⊢
    obtain ⟨bs, hr, hend, hlive⟩ := hI1
    exact ⟨bs, hr.data hlive (List.mem_cons_self ..) (Nat.le_refl _) fun x hx => zeroBytes_off _ hx,
      hend, hlive⟩
  · cases h
    exact hI1

theorem krealloc_inv (hI : HeapInv s live) (hp : p ∈ live.map Prod.fst) (hn : n ≠ 0)
    (hok : MallocOk s n)
    (hfree : ∀ fuel q s1, kmalloc fuel s n = some (q, s1) → q ≠ 0 → FreeOk s1 p)
    (h : krealloc fuel s p n = some (q, s')) :
    HeapInv s' (if q = 0 then live else (q, n) :: dropLive live p) := by
  have hp0 : p ≠ 0 := by
    rintro rfl
    exact hI.zero_not_live hp
  unfold krealloc at h
  rw [if_neg hp0, if_neg hn] at h
  dsimp only at h
  generalize hold : hdrSize s.mem (p - HEADER_SIZE) - HEADER_SIZE = old at h
  split at h
  · cases h
  rename_i r s1 hr1
  have hI1 := kmalloc_inv hI hok hr1
  split at h
  · rename_i hne
    cases h
    rw [if_neg hne] at hI1 ⊢
    have hpq : p ≠ q := by
      obtain ⟨bs, -, -, hlive⟩ := hI1
      have := hlive.nodup
      rw [List.map_cons, List.nodup_cons] at this
      rintro rfl
      exact this.1 hp
    have hdrop : dropLive ((q, n) :: live) p = (q, n) :: dropLive live p := by
      simp [dropLive, Ne.symm hpq]
    rw [← hdrop]
    have hok1 := hfree fuel q s1 hr1 hne
    obtain ⟨bs, hr, hend, hlive⟩ := hI1
    have hp1 : p ∈ ((q, n) :: live).map Prod.fst := List.mem_cons_of_mem _ hp
    have hrc := hr.data (m := copyBytes s1.mem q p (if old > n then n else old)) hlive
      (List.mem_cons_self ..) (by split <;> omega) fun x hx => copyBytes_off _ hx
    refine kfree_inv ⟨bs, hrc, hend, hlive⟩ ?_ (.inr hp1)
    -- the copy changes no header, so the block is as free to go as before it
    obtain ⟨pre, b, post, rfl, -, rfl⟩ := (liveIn_iff.mp hlive).split hp1
    rw [hrc.freeOk_iff hend]
    exact (hr.freeOk_iff hend).mp hok1
  · cases h
    simp_all

theorem heapInit_inv (mem : Bytes) (machine : Machine) : HeapInv (heapInit mem machine) [] := by
  have hheader : header (heapCreateBlock mem HEAP_START (256 * pageSize)) HEAP_START =
      ⟨256 * pageSize, true, 0, 0⟩ := by
    rw [header_heapCreateBlock, Nat.mod_eq_of_lt (by decide)]
  refine ⟨[⟨HEAP_START, 256 * pageSize, true⟩], ⟨?_, ⟨hheader, trivial⟩, rfl, by simp, ?_⟩, rfl,
    by simp, by simp, by simp⟩
  · exact ⟨rfl, by decide, rfl⟩
  · have := (heapInit mem machine).machine.pmm.freeFrames_le
    simp only [pageSize, maxFrames] at this ⊢
    have htop : (heapInit mem machine).gHeapVirtTop = HEAP_START + 256 * 4096 := rfl
    omega

-- ---------------------------------------------------------------------------
-- Any number of calls
-- ---------------------------------------------------------------------------

inductive HeapCall
  | kmalloc (size : Nat)
  | kcalloc (count size : Nat)
  | krealloc (ptr newSize : Nat)
  | kfree (ptr : Nat)

/-- A call on the heap and its live allocations. Only live pointers are freed or resized. -/
def heapStep (x : Heap × List (Nat × Nat)) : HeapCall → Heap × List (Nat × Nat) → Prop
  | .kmalloc size, x' => ∃ fuel p s', Mm.kmalloc fuel x.1 size = some (p, s') ∧
      x' = (s', if p = 0 then x.2 else (p, size) :: x.2)
  | .kcalloc count size, x' => ∃ fuel p s', Mm.kcalloc fuel x.1 count size = some (p, s') ∧
      x' = (s', if p = 0 then x.2 else (p, count * size % 2 ^ 64) :: x.2)
  | .krealloc ptr newSize, x' => (ptr = 0 ∨ ptr ∈ x.2.map Prod.fst) ∧
      ∃ fuel q s', Mm.krealloc fuel x.1 ptr newSize = some (q, s') ∧
        x' = (s', if ptr ≠ 0 ∧ newSize = 0 then dropLive x.2 ptr
          else if q = 0 then x.2 else (q, newSize) :: dropLive x.2 ptr)
  | .kfree ptr, x' => (ptr = 0 ∨ ptr ∈ x.2.map Prod.fst) ∧
      x' = (Mm.kfree x.1 ptr, dropLive x.2 ptr)

/-- The call leaves `g_heap_end` right. `krealloc` is a request, then the old block freed. -/
def heapCallOk (x : Heap × List (Nat × Nat)) : HeapCall → Prop
  | .kmalloc size => MallocOk x.1 size
  | .kcalloc count size => MallocOk x.1 (count * size % 2 ^ 64)
  | .krealloc ptr newSize =>
    if ptr ≠ 0 ∧ newSize = 0 then FreeOk x.1 ptr
    else MallocOk x.1 newSize ∧ (ptr ≠ 0 → ∀ fuel q s1,
      Mm.kmalloc fuel x.1 newSize = some (q, s1) → q ≠ 0 → FreeOk s1 ptr)
  | .kfree ptr => FreeOk x.1 ptr

theorem heapStep_inv {x x' : Heap × List (Nat × Nat)} {call : HeapCall} (hI : HeapInv x.1 x.2)
    (hok : heapCallOk x call) (h : heapStep x call x') : HeapInv x'.1 x'.2 := by
  cases call with
  | kmalloc size =>
    obtain ⟨fuel, p, s', hp, rfl⟩ := h
    exact kmalloc_inv hI hok hp
  | kcalloc count size =>
    obtain ⟨fuel, p, s', hp, rfl⟩ := h
    exact kcalloc_inv hI hok hp
  | krealloc ptr newSize =>
    obtain ⟨hlive, fuel, q, s', hq, rfl⟩ := h
    simp only [heapCallOk] at hok
    by_cases hptr : ptr = 0
    · subst hptr
      rw [if_neg (by simp)] at hok
      unfold krealloc at hq
      rw [if_pos rfl] at hq
      have := kmalloc_inv hI hok.1 hq
      simpa [dropLive_of_not_mem hI.zero_not_live] using this
    · have hlive := hlive.resolve_left hptr
      by_cases hn : newSize = 0
      · rw [if_pos ⟨hptr, hn⟩] at hok
        unfold krealloc at hq
        rw [if_neg hptr, if_pos hn] at hq
        cases hq
        simpa [hptr, hn] using kfree_inv hI hok (.inr hlive)
      · rw [if_neg (by simp [hn])] at hok
        simpa [hn] using krealloc_inv hI hlive hn hok.1 (hok.2 hptr) hq
  | kfree ptr =>
    obtain ⟨hlive, rfl⟩ := h
    exact kfree_inv hI hok hlive

/-- In a run of calls that leave `g_heap_end` right, the block list is as it should be in every
state, and no two live allocations overlap. -/
theorem heap_run (h : Run heapStep heapCallOk (heapInit mem machine, []) calls (s, live)) :
    HeapOk s live ∧ ∀ p n q k, (p, n) ∈ live → (q, k) ∈ live → p ≠ q → p + n ≤ q ∨ q + k ≤ p := by
  have hI : HeapInv s live :=
    h.invariant (fun x => HeapInv x.1 x.2) (heapInit_inv mem machine) fun _ _ _ => heapStep_inv
  exact ⟨hI.ok, fun _ _ _ _ hp hq hne => hI.ok.disjoint hp hq hne⟩

theorem heapInit_whole :
    MallocOk (heapInit (fun _ => 0) bootMachine) 1048544 ∧
      kmalloc 2 (heapInit (fun _ => 0) bootMachine) 1048544 = some (HEAP_START + HEADER_SIZE,
        { heapInit (fun _ => 0) bootMachine with
          mem := takeFit (heapInit (fun _ => 0) bootMachine).mem HEAP_START 1048569 }) := by
  have hff : ∀ fuel, firstFit (heapInit (fun _ => 0) bootMachine).mem 1048569 (fuel + 1) HEAP_START =
      some HEAP_START := by
    intro fuel
    have hfit : hdrFree (heapInit (fun _ => 0) bootMachine).mem HEAP_START ≠ 0 ∧
        1048569 ≤ hdrSize (heapInit (fun _ => 0) bootMachine).mem HEAP_START := by decide +kernel
    rw [firstFit, if_neg (by decide), if_pos hfit]
  have htotal : allocTotal 1048544 = 1048569 := by decide
  have hstart : (heapInit (fun _ => 0) bootMachine).gHeapStart = HEAP_START := rfl
  constructor
  · refine .inr ⟨by decide, fun fuel curr hcurr => ?_⟩
    rw [htotal, hstart] at hcurr
    rcases fuel with _ | fuel
    · cases hcurr
    rw [hff] at hcurr
    cases hcurr
    rw [if_neg (by decide), htotal]
    intro _
    decide +kernel
  · unfold kmalloc
    rw [if_neg (by decide)]
    dsimp only
    rw [htotal, hstart, hff 1]
    dsimp only
    rw [if_pos (by decide)]

theorem heap_run_whole :
    ∃ s, kmalloc 2 (heapInit (fun _ => 0) bootMachine) 1048544 = some (HEAP_START + HEADER_SIZE, s) ∧
      HeapOk s [(HEAP_START + HEADER_SIZE, 1048544)] := by
  obtain ⟨hok, hcall⟩ := heapInit_whole
  have hrun : Run heapStep heapCallOk (heapInit (fun _ => 0) bootMachine, []) [.kmalloc 1048544]
      (_, [(HEAP_START + HEADER_SIZE, 1048544)]) := .cons hok ⟨2, _, _, hcall, rfl⟩ .nil
  exact ⟨_, hcall, (heap_run hrun).1⟩

/-- In a list that is as it should be, no block comes after `g_heap_end`. -/
theorem HeapOk.next_end (h : HeapOk s live) : hdrNext s.mem s.gHeapEnd = 0 := by
  obtain ⟨bs, hne, -, hlinked, -, hend, -⟩ := h
  obtain ⟨pre, e, rfl⟩ : ∃ pre e, bs = pre ++ [e] := ⟨_, _, (List.dropLast_concat_getLast hne).symm⟩
  rw [hend, lastAddr_append, lastAddr_cons, lastAddr_nil, hdrNext_eq, hlinked.header]
  rfl

/-- The first small request after `heap_init` cuts the only block in two, and `g_heap_end` stays
at the first part. -/
theorem heap_end_left_behind :
    ¬ ∀ (mem : Bytes) (machine : Machine) (calls : List HeapCall) (s : Heap) (live : List (Nat × Nat)),
      (pmmAllocContiguous machine.pmm 256).1 ≠ 0 →
      Run heapStep (fun _ _ => True) (heapInit mem machine, []) calls (s, live) → HeapOk s live := by
  intro hall
  have hmem : (pmmAllocContiguous bootMachine.pmm 256).1 ≠ 0 := by decide +kernel
  have hnext : (kmalloc 2 (heapInit (fun _ => 0) bootMachine) 100).map
      (fun r => hdrNext r.2.mem r.2.gHeapEnd) = some (HEAP_START + 137) := by decide +kernel
  rcases h : kmalloc 2 (heapInit (fun _ => 0) bootMachine) 100 with _ | ⟨p, s⟩
  · rw [h] at hnext
    cases hnext
  rw [h] at hnext
  have hok := hall _ _ [.kmalloc 100] s _ hmem (.cons trivial ⟨2, p, s, h, rfl⟩ .nil)
  have := hok.next_end
  simp only [Option.map_some, Option.some.injEq, this] at hnext
  exact absurd hnext (by decide)

end EponaOS.Mm
