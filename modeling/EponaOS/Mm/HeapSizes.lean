import EponaOS.Mm.HeapMerge

/-!
# How large the blocks of the kernel heap are

`kmalloc` rounds the size up and adds a header modulo 2 ^ 64. From 2 ^ 64 - 31 on the sum wraps,
and a block of the least size serves the request. `kcalloc` multiplies modulo 2 ^ 64 before that.
-/

namespace EponaOS.Mm

open Bytes BlockList

variable {s s' : Heap} {m : Bytes} {size count p q curr virt e fuel n k total : Nat}

def ksize (s : Heap) (ptr : Nat) : Nat :=
  if ptr = 0 then 0 else (hdrSize s.mem (ptr - HEADER_SIZE) + 2 ^ 64 - HEADER_SIZE) % 2 ^ 64

/-- The largest size for which the arithmetic on it does not wrap. -/
def MAX_EXACT : Nat := 2 ^ 64 - 32

/-- A block of the list fits, or the heap can grow by one that does. -/
def Served (s : Heap) (size : Nat) : Prop :=
  size ≠ 0 ∧ ∃ fuel curr, firstFit s.mem (allocTotal size) fuel s.gHeapStart = some curr ∧
    (curr ≠ 0 ∨ (allocTotal size + pageSize ≤ 2 ^ 64 ∧
      (growPages s.machine (BitVec.ofNat 64 s.gHeapVirtTop) (growCount (allocTotal size))).1 = true))

/-- What `kmalloc` returns is null or as large as asked. -/
def KmallocAmple (s : Heap) (size : Nat) : Prop :=
  ∀ fuel p s', kmalloc fuel s size = some (p, s') → p = 0 ∨ size ≤ ksize s' p

/-- What `kcalloc` returns is null, or zeros over the whole product. -/
def KcallocAmple (s : Heap) (count size : Nat) : Prop :=
  ∀ fuel p s', kcalloc fuel s count size = some (p, s') →
    p = 0 ∨ (count * size ≤ ksize s' p ∧ ∀ k < count * size, s'.mem (p + k) = 0)

-- ---------------------------------------------------------------------------
-- The arithmetic
-- ---------------------------------------------------------------------------

theorem allocTotal_exact (h : size ≤ MAX_EXACT) : size + HEADER_SIZE ≤ allocTotal size := by
  unfold MAX_EXACT at h
  unfold allocTotal
  dsimp only
  generalize hr : (if size % HEAP_ALIGN ≠ 0 then
    (size + HEAP_ALIGN - 1) % 2 ^ 64 / HEAP_ALIGN * HEAP_ALIGN else size) = r
  have hround : size ≤ r ∧ r ≤ 2 ^ 64 - 32 := by
    rw [← hr]
    unfold HEAP_ALIGN
    split <;> omega
  by_cases hmin : (r + HEADER_SIZE) % 2 ^ 64 < MIN_BLOCK
  · rw [if_pos hmin]
    simp only [MIN_BLOCK, HEADER_SIZE] at *
    omega
  · rw [if_neg hmin]
    simp only [MIN_BLOCK, HEADER_SIZE] at *
    omega

theorem allocTotal_lt (size : Nat) : allocTotal size < 2 ^ 64 := by
  unfold allocTotal
  dsimp only
  generalize (if size % HEAP_ALIGN ≠ 0 then
    (size + HEAP_ALIGN - 1) % 2 ^ 64 / HEAP_ALIGN * HEAP_ALIGN else size) = r
  split
  · decide
  · exact Nat.mod_lt _ (by decide)

theorem growCount_wraps (h : 2 ^ 64 < total + pageSize) (hlt : total < 2 ^ 64) :
    growCount total = 0 := by
  simp only [pageSize] at h
  simp only [growCount, pageSize]
  rw [if_pos (by omega)]
  omega

-- ---------------------------------------------------------------------------
-- The block that is returned
-- ---------------------------------------------------------------------------

theorem firstFit_unique (h : firstFit m total fuel curr = some p) (h' : firstFit m total n curr = some q) :
    p = q := by
  induction fuel generalizing curr n with
  | zero => cases h
  | succ fuel ih =>
    cases n with
    | zero => cases h'
    | succ n =>
      rw [firstFit] at h h'
      split at h
      · rename_i h0
        rw [if_pos h0] at h'
        exact Option.some.inj (h.symm.trans h')
      · rename_i h0
        rw [if_neg h0] at h'
        split at h
        · rename_i hfit
          rw [if_pos hfit] at h'
          exact Option.some.inj (h.symm.trans h')
        · rename_i hfit
          rw [if_neg hfit] at h'
          exact ih h h'

theorem firstFit_fits (h : firstFit m total fuel curr = some p) (hp : p ≠ 0) : total ≤ hdrSize m p := by
  induction fuel generalizing curr with
  | zero => cases h
  | succ fuel ih =>
    rw [firstFit] at h
    split at h
    · cases h
      exact absurd rfl hp
    · split at h
      · rename_i hfit
        cases h
        exact hfit.2
      · exact ih h

/-- The size of a block of `size` bytes once `total` bytes of it are taken. -/
def takenSize (total size : Nat) : Nat := if (total + MIN_BLOCK) % 2 ^ 64 ≤ size then total else size

theorem takenSize_bounds (hfit : total ≤ size) : total ≤ takenSize total size ∧
    takenSize total size ≤ size ∧
    (total + MIN_BLOCK < 2 ^ 64 → takenSize total size < total + MIN_BLOCK) := by
  unfold takenSize
  by_cases hcut : (total + MIN_BLOCK) % 2 ^ 64 ≤ size
  · rw [if_pos hcut]
    simp only [MIN_BLOCK] at hcut ⊢
    omega
  · rw [if_neg hcut]
    simp only [MIN_BLOCK] at hcut ⊢
    omega

theorem hdrSize_takeFit (m : Bytes) (h : Nat) (ht : total < 2 ^ 64) :
    hdrSize (takeFit m h total) h = takenSize total (hdrSize m h) := by
  unfold takeFit takenSize
  split
  · dsimp only
    rw [hdrSize_eq, header_setFree, header_setSize, Nat.mod_eq_of_lt ht]
  · rw [hdrSize_eq, header_setFree, hdrSize_eq]

theorem hdrSize_takeNew (m : Bytes) (h : Nat) (ht : total < 2 ^ 64) :
    hdrSize (takeNew m h total) h = takenSize total (hdrSize m h) := by
  unfold takeNew takenSize
  split
  · rw [hdrSize_eq, header_setFree, header_setSize, Nat.mod_eq_of_lt ht]
  · rw [hdrSize_eq, header_setFree, hdrSize_eq]

theorem hdrSize_new (m : Bytes) (hend : e + HEADER_SIZE ≤ virt) (size : Nat) :
    hdrSize (setNext (setPrev (heapCreateBlock m virt size) virt e) e virt) virt = size % 2 ^ 64 := by
  rw [hdrSize_eq, header_setNext_off (.inr hend), header_setPrev, header_heapCreateBlock]

theorem kmalloc_grows {h : Heap} (h0 : size ≠ 0)
    (hcurr : firstFit h.mem (allocTotal size) fuel h.gHeapStart = some 0) :
    kmalloc fuel h size = some (growHeap h (allocTotal size)) := by
  unfold kmalloc
  rw [if_neg h0]
  dsimp only
  rw [hcurr]
  exact if_neg (not_not.mpr rfl)

theorem growHeap_returns {h : Heap} (hend : h.gHeapEnd + HEADER_SIZE ≤ h.gHeapVirtTop)
    {machine : Machine} (ht : total < 2 ^ 64)
    (hg : growPages h.machine (BitVec.ofNat 64 h.gHeapVirtTop) (growCount total) = (ok, machine)) :
    (ok = false ∧ growHeap h total = (0, { h with machine })) ∨
      (ok = true ∧ total + pageSize ≤ 2 ^ 64 ∧ ∃ h', growHeap h total = (h.gHeapVirtTop + HEADER_SIZE, h') ∧
        h'.machine = machine ∧
        hdrSize h'.mem h.gHeapVirtTop = takenSize total (growCount total * pageSize)) ∨
      (ok = true ∧ 2 ^ 64 < total + pageSize ∧ (total ≠ 0 → ∃ h', growHeap h total = (0, h') ∧
        h'.gHeapEnd = h.gHeapVirtTop)) := by
  rw [growHeap]
  dsimp only
  rw [hg]
  cases ok with
  | false => exact .inl ⟨rfl, rfl⟩
  | true =>
    dsimp only
    have hsize := hdrSize_new h.mem hend (growCount total * pageSize)
    have hpages : growCount total * pageSize < 2 ^ 64 := by
      simp only [growCount, pageSize]
      omega
    rw [Nat.mod_eq_of_lt hpages] at hsize
    rw [hsize]
    by_cases hwrap : total + pageSize ≤ 2 ^ 64
    · rw [if_pos (growCount_spec hwrap)]
      refine .inr (.inl ⟨rfl, hwrap, _, rfl, rfl, ?_⟩)
      dsimp only
      rw [hdrSize_takeNew _ _ ht, hsize]
    · rw [growCount_wraps (Nat.not_le.mp hwrap) ht]
      refine .inr (.inr ⟨rfl, Nat.not_le.mp hwrap, fun hne => ?_⟩)
      rw [if_neg (by omega)]
      exact ⟨_, rfl, rfl⟩

theorem kmalloc_served (hend : s.gHeapEnd + HEADER_SIZE ≤ s.gHeapVirtTop)
    (h : kmalloc fuel s size = some (p, s')) :
    (¬ Served s size ∧ p = 0) ∨ (Served s size ∧ HEADER_SIZE ≤ p ∧ p ≠ 0 ∧
      allocTotal size ≤ hdrSize s'.mem (p - HEADER_SIZE) ∧ (allocTotal size + MIN_BLOCK < 2 ^ 64 →
        hdrSize s'.mem (p - HEADER_SIZE) < allocTotal size + MIN_BLOCK)) := by
  have hlt := allocTotal_lt size
  have hmin := allocTotal_min size
  unfold kmalloc at h
  split at h
  · rename_i h0
    cases h
    exact .inl ⟨fun hs => hs.1 h0, rfl⟩
  rename_i h0
  dsimp only at h
  split at h
  · cases h
  rename_i curr hcurr
  by_cases hc : curr ≠ 0
  · rw [if_pos hc] at h
    cases h
    obtain ⟨hlo, -, hhi⟩ := takenSize_bounds (firstFit_fits hcurr hc)
    refine .inr ⟨⟨h0, _, _, hcurr, .inl hc⟩, Nat.le_add_left .., by omega, ?_⟩
    rw [Nat.add_sub_cancel]
    dsimp only
    rw [hdrSize_takeFit _ _ hlt]
    exact ⟨hlo, hhi⟩
  · rw [if_neg hc] at h
    obtain rfl := not_not.mp hc
    -- no block of the list fits, so the heap has to grow
    have hgrows : Served s size ↔ allocTotal size + pageSize ≤ 2 ^ 64 ∧
        (growPages s.machine (BitVec.ofNat 64 s.gHeapVirtTop) (growCount (allocTotal size))).1 = true := by
      constructor
      · rintro ⟨-, fuel', curr, hcurr', hne | hgrow⟩
        · exact absurd (firstFit_unique hcurr' hcurr) hne
        · exact hgrow
      · exact fun hgrow => ⟨h0, _, _, hcurr, .inr hgrow⟩
    have hgrow := Option.some.inj h
    rcases hg : growPages s.machine (BitVec.ofNat 64 s.gHeapVirtTop) (growCount (allocTotal size))
      with ⟨ok, machine⟩
    rw [hg] at hgrows
    have hout := growHeap_returns hend hlt hg
    rw [hgrow] at hout
    obtain ⟨rfl, hret⟩ | ⟨rfl, hwrap, h', hret, -, hsize⟩ | ⟨rfl, hwrap, hnull⟩ := hout
    · cases hret
      exact .inl ⟨fun hs => Bool.noConfusion (hgrows.mp hs).2, rfl⟩
    · cases hret
      obtain ⟨hlo, -, hhi⟩ := takenSize_bounds (growCount_spec hwrap)
      refine .inr ⟨hgrows.mpr ⟨hwrap, rfl⟩, Nat.le_add_left .., ?_, ?_⟩
      · simp only [HEADER_SIZE]
        omega
      · rw [Nat.add_sub_cancel, hsize]
        exact ⟨hlo, hhi⟩
    · -- the number of pages wraps to 0, and nothing fits into an empty block
      obtain ⟨h', hret, -⟩ := hnull (by simp only [MIN_BLOCK] at hmin; omega)
      cases hret
      exact .inl ⟨fun hs => absurd (hgrows.mp hs).1 (Nat.not_le.mpr hwrap), rfl⟩

theorem ksize_eq (s : Heap) (hp : p ≠ 0) (hmin : HEADER_SIZE ≤ hdrSize s.mem (p - HEADER_SIZE)) :
    ksize s p = hdrSize s.mem (p - HEADER_SIZE) - HEADER_SIZE := by
  have hlt : hdrSize s.mem (p - HEADER_SIZE) < 256 ^ 8 := getLE_lt ..
  rw [field_size] at hlt
  rw [ksize, if_neg hp]
  simp only [HEADER_SIZE] at *
  omega

theorem ksize_lt (s : Heap) (p : Nat) : ksize s p < 2 ^ 64 := by
  unfold ksize
  split
  · decide
  · exact Nat.mod_lt _ (by decide)

-- ---------------------------------------------------------------------------
-- As large as asked
-- ---------------------------------------------------------------------------

theorem Served.returns (h : Served s size) : ∃ fuel p s', kmalloc fuel s size = some (p, s') := by
  obtain ⟨h0, fuel, curr, hcurr, -⟩ := h
  refine ⟨fuel, ?_⟩
  unfold kmalloc
  simp only [if_neg h0, hcurr]
  split
  · exact ⟨_, _, rfl⟩
  · exact ⟨_, _, rfl⟩

theorem allocTotal_wraps (h : MAX_EXACT < size) (hlt : size < 2 ^ 64) : allocTotal size = MIN_BLOCK := by
  unfold MAX_EXACT at h
  unfold allocTotal
  dsimp only
  generalize hr : (if size % HEAP_ALIGN ≠ 0 then
    (size + HEAP_ALIGN - 1) % 2 ^ 64 / HEAP_ALIGN * HEAP_ALIGN else size) = r
  have hround : r = 0 ∨ r = 2 ^ 64 - 16 := by
    rw [← hr]
    unfold HEAP_ALIGN
    split <;> omega
  rw [if_pos]
  simp only [MIN_BLOCK, HEADER_SIZE]
  omega

/-- A block is as large as asked exactly if the arithmetic does not wrap, or there is no block. -/
theorem kmallocAmple_iff (hend : s.gHeapEnd + HEADER_SIZE ≤ s.gHeapVirtTop) (size : Nat) :
    KmallocAmple s size ↔ size ≤ MAX_EXACT ∨ ¬ Served s size := by
  have hmin := allocTotal_min size
  simp only [MIN_BLOCK] at hmin
  constructor
  · intro hample
    by_contra hno
    push Not at hno
    obtain ⟨hbig, hserved⟩ := hno
    obtain ⟨fuel, p, s', h⟩ := hserved.returns
    obtain ⟨hnot, -⟩ | ⟨-, hp, hne, hroom, hsmall⟩ := kmalloc_served hend h
    · exact hnot hserved
    · have hsize := (hample fuel p s' h).resolve_left hne
      have hk := ksize_lt s' p
      rw [allocTotal_wraps hbig (by omega)] at hsmall hroom
      rw [ksize_eq s' hne (Nat.le_trans (by decide) hroom)] at hsize
      simp only [MAX_EXACT, MIN_BLOCK, HEADER_SIZE] at *
      omega
  · intro hcond fuel p s' h
    obtain ⟨-, h0⟩ | ⟨hserved, hp, hne, hroom, -⟩ := kmalloc_served hend h
    · exact .inl h0
    · have hexact := allocTotal_exact (hcond.resolve_right (not_not.mpr hserved))
      refine .inr ?_
      rw [ksize_eq s' hne (by simp only [HEADER_SIZE] at *; omega)]
      omega

theorem zeroBytes_in (m : Bytes) (p : Nat) (hk : k < n) : zeroBytes m p n (p + k) = 0 := by
  induction n with
  | zero => omega
  | succ n ih =>
    rw [zeroBytes]
    by_cases heq : k = n
    · rw [heq, setByte_same]
    · rw [setByte_ne _ _ (by omega), ih (by omega)]

theorem hdrSize_zeroBytes (m : Bytes) (hp : HEADER_SIZE ≤ p) (n : Nat) :
    hdrSize (zeroBytes m p n) (p - HEADER_SIZE) = hdrSize m (p - HEADER_SIZE) := by
  have hhdr : header (zeroBytes m p n) (p - HEADER_SIZE) = header m (p - HEADER_SIZE) :=
    header_congr fun i hi => zeroBytes_off _ (.inl (by omega))
  rw [hdrSize_eq, hdrSize_eq, hhdr]

/-- What is asked of `kmalloc` is the product modulo 2 ^ 64. -/
theorem kcallocAmple_iff (hend : s.gHeapEnd + HEADER_SIZE ≤ s.gHeapVirtTop) (count size : Nat) :
    KcallocAmple s count size ↔
      count * size ≤ MAX_EXACT ∨ ¬ Served s (count * size % 2 ^ 64) := by
  have hmin := allocTotal_min (count * size % 2 ^ 64)
  simp only [MIN_BLOCK] at hmin
  constructor
  · intro hample
    by_contra hno
    push Not at hno
    obtain ⟨hbig, hserved⟩ := hno
    obtain ⟨fuel, p, s', h⟩ := hserved.returns
    obtain ⟨hnot, -⟩ | ⟨-, hp, hne, hroom, hsmall⟩ := kmalloc_served hend h
    · exact hnot hserved
    · have hcall : kcalloc fuel s count size =
          some (p, { s' with mem := zeroBytes s'.mem p (count * size % 2 ^ 64) }) := by
        unfold kcalloc
        dsimp only
        rw [h]
        dsimp only
        rw [if_pos hne]
      obtain ⟨hsize, -⟩ := (hample _ _ _ hcall).resolve_left hne
      have hk := ksize_lt { s' with mem := zeroBytes s'.mem p (count * size % 2 ^ 64) } p
      have hmod : count * size % 2 ^ 64 = count * size := Nat.mod_eq_of_lt (by omega)
      have hroom' : hdrSize (zeroBytes s'.mem p (count * size % 2 ^ 64)) (p - HEADER_SIZE) =
          hdrSize s'.mem (p - HEADER_SIZE) := hdrSize_zeroBytes _ hp _
      rw [hmod, allocTotal_wraps hbig (by omega)] at hsmall hroom
      rw [ksize_eq _ hne (by rw [hroom']; exact Nat.le_trans (by decide) hroom), hroom'] at hsize
      simp only [MAX_EXACT, MIN_BLOCK, HEADER_SIZE] at *
      omega
  · intro hcond fuel p s' h
    unfold kcalloc at h
    dsimp only at h
    split at h
    · cases h
    rename_i q s₁ hq
    obtain ⟨-, rfl⟩ | ⟨hserved, hp, hne, hroom, -⟩ := kmalloc_served hend hq
    · rw [if_neg (not_not.mpr rfl)] at h
      cases h
      exact .inl rfl
    · have hprod := hcond.resolve_right (not_not.mpr hserved)
      have hmod : count * size % 2 ^ 64 = count * size :=
        Nat.mod_eq_of_lt (by simp only [MAX_EXACT] at hprod; omega)
      rw [hmod] at h hroom
      have hexact := allocTotal_exact hprod
      rw [if_pos hne] at h
      cases h
      refine .inr ⟨?_, fun k hk => zeroBytes_in _ _ hk⟩
      have hroom' : hdrSize (zeroBytes s₁.mem p (count * size)) (p - HEADER_SIZE) =
          hdrSize s₁.mem (p - HEADER_SIZE) := hdrSize_zeroBytes _ hp _
      rw [ksize_eq _ hne (by simp only [HEADER_SIZE] at *; rw [hroom']; omega), hroom']
      omega

theorem heapInit_served (mem : Bytes) (machine : Machine) (h0 : size ≠ 0)
    (hfit : allocTotal size ≤ 256 * pageSize) : Served (heapInit mem machine) size := by
  have hhdr : header (heapInit mem machine).mem HEAP_START = ⟨256 * pageSize % 2 ^ 64, true, 0, 0⟩ :=
    header_heapCreateBlock ..
  refine ⟨h0, 1, HEAP_START, ?_, .inl (by decide)⟩
  have hstart : (heapInit mem machine).gHeapStart = HEAP_START := rfl
  rw [hstart, firstFit, if_neg (by decide), if_pos]
  rw [hdrFree_ne_zero, hdrSize_eq, hhdr]
  exact ⟨rfl, hfit⟩

end EponaOS.Mm
