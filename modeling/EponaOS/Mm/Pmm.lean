import Mathlib.Tactic.Ring

/-!
# The physical frame allocator

`pmm.c`: a bitmap with one bit a frame (0 free, 1 used), scanned from frame 0. A
frame is handed out as its physical address, and a null address says that no frame
is left; so frame 0, were it ever free, would be marked used and reported as a
failure.
-/

namespace EponaOS.Mm

/-- `uint64_t`, and the pointers of the kernel. -/
abbrev Word := BitVec 64

abbrev pageSize : Nat := 4096
/-- `MAX_FRAMES`: 4 GiB of frames. -/
abbrev maxFrames : Nat := 1024 * 1024

/-- `g_bitmap` -/
abbrev Bitmap := Nat → BitVec 8

structure Pmm where
  bitmap : Bitmap
  totalFrames : Nat
  usedFrames : Word
  totalFrames_le : totalFrames ≤ maxFrames

def bmSet (b : Bitmap) (f : Nat) : Bitmap :=
  fun k => if k = f >>> 3 then b k ||| (1#8 <<< (f &&& 7)) else b k

def bmTest (b : Bitmap) (f : Nat) : Bool := b (f >>> 3) &&& (1#8 <<< (f &&& 7)) != 0#8

theorem and_bit_ne_zero {x : BitVec 8} {k : Nat} (hk : k < 8) :
    x &&& (1#8 <<< k) ≠ 0#8 ↔ x.getLsbD k = true := by
  constructor
  · intro h
    rcases hx : x.getLsbD k with _ | _
    · refine absurd (BitVec.eq_of_getLsbD_eq fun i hi => ?_) h
      by_cases hik : i = k
      · simp [hik, hx]
      · simp only [BitVec.getLsbD_and, BitVec.getLsbD_shiftLeft, BitVec.getLsbD_one,
          BitVec.getLsbD_zero]
        simp
        omega
    · rfl
  · intro h h0
    have hbit := congrArg (fun y => y.getLsbD k) h0
    simp only [BitVec.getLsbD_and, h, BitVec.getLsbD_shiftLeft, BitVec.getLsbD_one] at hbit
    simp [hk] at hbit

theorem bmTest_eq (b : Bitmap) (f : Nat) : bmTest b f = (b (f / 8)).getLsbD (f % 8) := by
  have hmod : f &&& 7 = f % 8 := Nat.and_two_pow_sub_one_eq_mod f 3
  have hdiv : f >>> 3 = f / 8 := Nat.shiftRight_eq_div_pow f 3
  rw [bmTest, hmod, hdiv, Bool.eq_iff_iff, bne_iff_ne, and_bit_ne_zero (Nat.mod_lt _ (by decide))]

theorem bmTest_bmSet (b : Bitmap) (f g : Nat) :
    bmTest (bmSet b f) g = (decide (g = f) || bmTest b g) := by
  have hmod : f &&& 7 = f % 8 := Nat.and_two_pow_sub_one_eq_mod f 3
  have hdiv : f >>> 3 = f / 8 := Nat.shiftRight_eq_div_pow f 3
  have hlt : g % 8 < 8 := Nat.mod_lt _ (by decide)
  rw [bmTest_eq, bmTest_eq, bmSet, hmod, hdiv]
  by_cases hq : g / 8 = f / 8
  · simp only [hq, if_true, BitVec.getLsbD_or, BitVec.getLsbD_shiftLeft, hlt, decide_true,
      BitVec.getLsbD_one, Bool.true_and]
    rw [Bool.or_comm]
    congr 1
    rw [Bool.eq_iff_iff]
    simp
    omega
  · have hgf : g ≠ f := by
      rintro rfl
      exact hq rfl
    simp [hq, hgf]

/-- The first free frame among `f, …, f + n - 1`. -/
def firstFree (b : Bitmap) : Nat → Nat → Option Nat
  | 0, _ => none
  | n + 1, f => if bmTest b f then firstFree b n (f + 1) else some f

theorem firstFree_some (h : firstFree b n f = some g) :
    f ≤ g ∧ g < f + n ∧ bmTest b g = false := by
  induction n generalizing f with
  | zero => cases h
  | succ n ih =>
    simp only [firstFree] at h
    split at h
    · obtain ⟨hle, hlt, hfree⟩ := ih h
      exact ⟨by omega, by omega, hfree⟩
    · rename_i hfree
      cases h
      exact ⟨Nat.le_refl _, by omega, by simpa using hfree⟩

theorem firstFree_least (h : firstFree b n f = some g) (hf : f ≤ x) (hx : x < g) :
    bmTest b x = true := by
  induction n generalizing f with
  | zero => cases h
  | succ n ih =>
    rw [firstFree] at h
    split at h
    · rename_i hset
      obtain rfl | hlt := Nat.eq_or_lt_of_le hf
      · exact hset
      · exact ih h hlt
    · cases h
      omega

def pmmAlloc (p : Pmm) : Word × Pmm :=
  match firstFree p.bitmap p.totalFrames 0 with
  | some f => (BitVec.ofNat 64 (f * pageSize),
      { p with bitmap := bmSet p.bitmap f, usedFrames := p.usedFrames + 1 })
  | none => (0, p)

/-- The inner loop of `pmm_alloc_contiguous`: frames `f, …, f + count - 1` are free. -/
def runFree (b : Bitmap) (f count : Nat) : Bool := (List.range count).all fun i => !bmTest b (f + i)

def firstRun (b : Bitmap) (count : Nat) : Nat → Nat → Option Nat
  | 0, _ => none
  | n + 1, f => if runFree b f count then some f else firstRun b count n (f + 1)

/-- The bound `g_total_frames - count` of the loop is unsigned and wraps. -/
def pmmAllocContiguous (p : Pmm) (count : Nat) : Word × Pmm :=
  if count = 0 then (0, p) else
  if count = 1 then pmmAlloc p else
  match firstRun p.bitmap count ((p.totalFrames + 2 ^ 64 - count) % 2 ^ 64) 0 with
  | some f => (BitVec.ofNat 64 (f * pageSize),
      { p with
        bitmap := (List.range count).foldl (fun b i => bmSet b (f + i)) p.bitmap
        usedFrames := p.usedFrames + BitVec.ofNat 64 count })
  | none => (0, p)

def bmClear (b : Bitmap) (f : Nat) : Bitmap :=
  fun k => if k = f >>> 3 then b k &&& ~~~(1#8 <<< (f &&& 7)) else b k

def pmmFree (p : Pmm) (frame : Word) : Pmm :=
  let f := frame.toNat / pageSize
  if f < p.totalFrames ∧ bmTest p.bitmap f then
    { p with bitmap := bmClear p.bitmap f, usedFrames := p.usedFrames - 1 }
  else p

/-- Address `a` will not be handed out: no free frame of the allocator starts there. -/
def Pmm.Held (p : Pmm) (a : Word) : Prop :=
  ∀ f, f < p.totalFrames → a = BitVec.ofNat 64 (f * pageSize) → bmTest p.bitmap f = true

theorem frame_inj (hf : f < maxFrames) (hg : g < maxFrames)
    (h : BitVec.ofNat 64 (f * pageSize) = BitVec.ofNat 64 (g * pageSize)) : f = g := by
  have := congrArg BitVec.toNat h
  simp only [BitVec.toNat_ofNat, maxFrames, pageSize] at this hf hg
  omega

theorem pmmAlloc_cases (h : pmmAlloc p = (a, p')) :
    (a = 0 ∧ p' = p) ∨
    ∃ f, f < p.totalFrames ∧ bmTest p.bitmap f = false ∧ a = BitVec.ofNat 64 (f * pageSize) ∧
      p' = { p with bitmap := bmSet p.bitmap f, usedFrames := p.usedFrames + 1 } := by
  unfold pmmAlloc at h
  split at h
  · rename_i f hf
    obtain ⟨-, hlt, hfree⟩ := firstFree_some hf
    cases h
    exact .inr ⟨f, by omega, hfree, rfl, rfl⟩
  · cases h
    exact .inl ⟨rfl, rfl⟩

theorem pmmAlloc_held (h : pmmAlloc p = (a, p')) (hx : p.Held x) : p'.Held x := by
  obtain ⟨-, rfl⟩ | ⟨f, -, -, -, rfl⟩ := pmmAlloc_cases h
  · exact hx
  · intro g hg hxg
    simp [bmTest_bmSet, hx g hg hxg]

theorem pmmAlloc_fresh (h : pmmAlloc p = (a, p')) (ha : a ≠ 0) : ¬ p.Held a ∧ p'.Held a := by
  obtain ⟨rfl, -⟩ | ⟨f, hf, hfree, rfl, rfl⟩ := pmmAlloc_cases h
  · exact absurd rfl ha
  · refine ⟨fun hheld => ?_, fun g hg hfg => ?_⟩
    · have := hheld f hf rfl
      simp [hfree] at this
    · have := frame_inj (Nat.lt_of_lt_of_le hf p.totalFrames_le)
        (Nat.lt_of_lt_of_le hg p.totalFrames_le) hfg
      simp [bmTest_bmSet, this]

theorem pmmAlloc_lt (h : pmmAlloc p = (a, p')) (h' : pmmAlloc p' = (a', p'')) (ha' : a' ≠ 0) :
    a.toNat < a'.toNat := by
  rw [pmmAlloc] at h
  split at h
  · rename_i f hf
    cases h
    rw [pmmAlloc] at h'
    split at h'
    · rename_i g hg
      cases h'
      obtain ⟨-, hf_lt, -⟩ := firstFree_some hf
      obtain ⟨-, hg_lt, hfree⟩ := firstFree_some hg
      rw [bmTest_bmSet] at hfree
      have hne : g ≠ f := by
        rintro rfl
        simp at hfree
      have hlt : f < g := by
        by_contra hle
        have := firstFree_least hf (Nat.zero_le g) (show g < f by omega)
        simp [this] at hfree
      have := p.totalFrames_le
      simp only [BitVec.toNat_ofNat, maxFrames, pageSize] at *
      omega
    · cases h'
      exact absurd rfl ha'
  · rename_i hnone
    cases h
    rw [pmmAlloc, hnone] at h'
    cases h'
    exact absurd rfl ha'

theorem pmmAlloc_only (h : pmmAlloc p = (a, p')) (hx : p'.Held x) (hn : ¬ p.Held x) : x = a := by
  obtain ⟨-, rfl⟩ | ⟨f, -, -, rfl, rfl⟩ := pmmAlloc_cases h
  · exact absurd hx hn
  · by_contra hne
    refine hn fun g hg hxg => ?_
    have hgf : g ≠ f := by
      rintro rfl
      exact hne hxg
    simpa [bmTest_bmSet, hgf] using hx g hg hxg

theorem bmTest_bmClear_of_ne (b : Bitmap) (h : g ≠ f) : bmTest (bmClear b f) g = bmTest b g := by
  have hmod : f &&& 7 = f % 8 := Nat.and_two_pow_sub_one_eq_mod f 3
  have hdiv : f >>> 3 = f / 8 := Nat.shiftRight_eq_div_pow f 3
  have hlt : g % 8 < 8 := Nat.mod_lt _ (by decide)
  rw [bmTest_eq, bmTest_eq, bmClear, hmod, hdiv]
  by_cases hq : g / 8 = f / 8
  · have hbit : g % 8 ≠ f % 8 := by omega
    simp only [hq, if_true, BitVec.getLsbD_and, BitVec.getLsbD_not, BitVec.getLsbD_shiftLeft,
      hlt, decide_true, BitVec.getLsbD_one, Bool.true_and]
    simp
    omega
  · simp [hq]

theorem pmmFree_held (hx : p.Held x) (hne : x.toNat / pageSize ≠ a.toNat / pageSize) :
    (pmmFree p a).Held x := by
  rw [pmmFree]
  split
  · intro g hg hxg
    have hgx : g = x.toNat / pageSize := by
      have hlt := Nat.lt_of_lt_of_le hg p.totalFrames_le
      rw [hxg, BitVec.toNat_ofNat]
      simp only [maxFrames, pageSize] at hlt ⊢
      omega
    exact (bmTest_bmClear_of_ne _ (hgx ▸ hne)).trans (hx g hg hxg)
  · exact hx

-- ---------------------------------------------------------------------------
-- How many frames are left
-- ---------------------------------------------------------------------------

def freeBelow (b : Bitmap) : Nat → Nat
  | 0 => 0
  | n + 1 => freeBelow b n + if bmTest b n then 0 else 1

def Pmm.freeFrames (p : Pmm) : Nat := freeBelow p.bitmap p.totalFrames

theorem freeBelow_le (b : Bitmap) (n : Nat) : freeBelow b n ≤ n := by
  induction n with
  | zero => exact Nat.le_refl _
  | succ n ih =>
    rw [freeBelow]
    split <;> omega

theorem freeBelow_bmSet (hfree : bmTest b f = false) (n : Nat) :
    freeBelow (bmSet b f) n + (if f < n then 1 else 0) = freeBelow b n := by
  induction n with
  | zero => rfl
  | succ n ih =>
    rw [freeBelow, freeBelow, bmTest_bmSet]
    rcases Nat.lt_trichotomy f n with h | rfl | h
    · have hne : n ≠ f := by omega
      have hlt : f < n + 1 := by omega
      simp only [h, if_true] at ih
      simp only [hne, hlt, decide_false, Bool.false_or, if_true]
      omega
    · simp only [Nat.lt_irrefl, if_false] at ih
      simp [hfree, ih]
    · have hne : n ≠ f := by omega
      have hlt : ¬ f < n + 1 := by omega
      have hlt' : ¬ f < n := by omega
      simp only [hlt', if_false] at ih
      simp only [hne, hlt, decide_false, Bool.false_or, if_false]
      omega

theorem pmmAlloc_freeFrames (h : pmmAlloc p = (a, p')) :
    p'.freeFrames + (if a = 0 then 0 else 1) ≤ p.freeFrames := by
  obtain ⟨rfl, rfl⟩ | ⟨f, hf, hfree, -, rfl⟩ := pmmAlloc_cases h
  · simp
  · have := freeBelow_bmSet hfree p.totalFrames
    rw [if_pos hf] at this
    simp only [Pmm.freeFrames]
    split <;> omega

theorem Pmm.freeFrames_le (p : Pmm) : p.freeFrames ≤ maxFrames :=
  Nat.le_trans (freeBelow_le ..) p.totalFrames_le

end EponaOS.Mm
