import EponaOS.Mm.FrameReach
import Mathlib.Order.Bounds.Basic

/-!
# Contiguous frames

`pmm_alloc_contiguous` tries the frames below `g_total_frames - count`, so a run that ends at
the last frame is never tried, and where more frames are asked for than there are the bound
wraps and bits are examined that belong to no frame.
-/

namespace EponaOS.Mm

variable {p p' : Pmm} {b : Bitmap} {count f g n T : Nat}

-- ---------------------------------------------------------------------------
-- The bits that are examined
-- ---------------------------------------------------------------------------

def runReads (b : Bitmap) : Nat → Nat → List Nat
  | 0, _ => []
  | n + 1, f => f :: if bmTest b f then [] else runReads b n (f + 1)

def firstRunReads (b : Bitmap) (count : Nat) : Nat → Nat → List Nat
  | 0, _ => []
  | n + 1, f => runReads b count f ++ if runFree b f count then [] else firstRunReads b count n (f + 1)

/-- The frames whose bits `pmm_alloc_contiguous` examines, for a count from 2 on. -/
def contiguousReads (p : Pmm) (count : Nat) : List Nat :=
  firstRunReads p.bitmap count ((p.totalFrames + 2 ^ 64 - count) % 2 ^ 64) 0

/-- The frames `f, …, f + count - 1` exist and are free. -/
def FreeRun (p : Pmm) (count f : Nat) : Prop :=
  f + count ≤ p.totalFrames ∧ runFree p.bitmap f count = true

/-- `p'` is `p` with the frames `f, …, f + count - 1` used. -/
structure TakesRun (p p' : Pmm) (count f : Nat) : Prop where
  total : p'.totalFrames = p.totalFrames
  used : p'.usedFrames = p.usedFrames + BitVec.ofNat 64 count
  bits : ∀ g, bmTest p'.bitmap g = (decide (f ≤ g ∧ g < f + count) || bmTest p.bitmap g)

/-- Only bits of frames are examined, the lowest run is taken, and null with no change says that
there is none. -/
structure TakesLowest (p : Pmm) (count : Nat) : Prop where
  examined : ∀ f ∈ contiguousReads p count, f < p.totalFrames
  lowest : ∀ f, IsLeast {f | FreeRun p count f} f →
    (pmmAllocContiguous p count).1 = BitVec.ofNat 64 (f * pageSize) ∧
      TakesRun p (pmmAllocContiguous p count).2 count f
  none_iff : pmmAllocContiguous p count = (0, p) ↔ ∀ f, ¬ FreeRun p count f

theorem runReads_bounds (h : g ∈ runReads b n f) : f ≤ g ∧ g < f + n := by
  induction n generalizing f with
  | zero => cases h
  | succ n ih =>
    rw [runReads, List.mem_cons] at h
    obtain rfl | h := h
    · omega
    · split at h
      · cases h
      · have := ih h
        omega

theorem runFree_iff : runFree b f count = true ↔ ∀ i < count, bmTest b (f + i) = false := by
  simp [runFree]

theorem runReads_free (h : ∀ i < n, bmTest b (f + i) = false) {i : Nat} (hi : i < n) :
    f + i ∈ runReads b n f := by
  induction n generalizing f i with
  | zero => omega
  | succ n ih =>
    rw [runReads, List.mem_cons]
    cases i with
    | zero => exact .inl rfl
    | succ i =>
      have h0 := h 0 (by omega)
      rw [Nat.add_zero] at h0
      have hrest := ih (f := f + 1) (i := i) (fun j hj => by
        rw [Nat.add_right_comm, Nat.add_assoc]
        exact h (j + 1) (by omega)) (by omega)
      rw [if_neg (Bool.eq_false_iff.mp h0), Nat.add_comm i, ← Nat.add_assoc]
      exact .inr hrest

theorem firstRunReads_lt (h : g ∈ firstRunReads b count n f) : g < f + n + count := by
  induction n generalizing f with
  | zero => cases h
  | succ n ih =>
    rw [firstRunReads, List.mem_append] at h
    obtain h | h := h
    · have := runReads_bounds h
      omega
    · split at h
      · cases h
      · have := ih h
        omega

/-- With more frames asked for than there are the search does not stop at the last one. -/
theorem firstRunReads_past (hcount : T < count) (hf : f ≤ T) (hn : T < f + n) :
    ∃ g ∈ firstRunReads b count n f, T ≤ g := by
  induction n generalizing f with
  | zero => omega
  | succ n ih =>
    rw [firstRunReads]
    by_cases hfree : runFree b f count = true
    · have hlast := runReads_free (runFree_iff.mp hfree) (show count - 1 < count by omega)
      exact ⟨f + (count - 1), List.mem_append_left _ hlast, by omega⟩
    · rw [if_neg hfree]
      by_cases hlast : f = T
      · obtain ⟨k, rfl⟩ := Nat.exists_eq_succ_of_ne_zero (show count ≠ 0 by omega)
        refine ⟨f, List.mem_append_left _ ?_, Nat.le_of_eq hlast.symm⟩
        rw [runReads]
        exact List.mem_cons_self
      · obtain ⟨g, hg, hle⟩ := ih (show f + 1 ≤ T by omega) (by omega)
        exact ⟨g, List.mem_append_right _ hg, hle⟩

-- ---------------------------------------------------------------------------
-- The run that is taken
-- ---------------------------------------------------------------------------

theorem bmTest_foldl_run (b : Bitmap) (f count : Nat) :
    bmTest ((List.range count).foldl (fun b i => bmSet b (f + i)) b) g =
      (decide (f ≤ g ∧ g < f + count) || bmTest b g) := by
  induction count with
  | zero =>
    rw [decide_eq_false (by omega), Bool.false_or]
    rfl
  | succ n ih =>
    rw [List.range_succ, List.foldl_append, List.foldl_cons, List.foldl_nil, bmTest_bmSet, ih,
      ← Bool.or_assoc, ← Bool.decide_or]
    congr 2
    rw [eq_iff_iff]
    omega

theorem pmmAllocContiguous_search (p : Pmm) (hcount : 1 < count) (hle : count ≤ p.totalFrames) :
    (pmmAllocContiguous p count = (0, p) ∧
      ∀ f < p.totalFrames - count, runFree p.bitmap f count = false) ∨
    ∃ f < p.totalFrames - count, runFree p.bitmap f count = true ∧
      (∀ g < f, runFree p.bitmap g count = false) ∧
      (pmmAllocContiguous p count).1 = BitVec.ofNat 64 (f * pageSize) ∧
      TakesRun p (pmmAllocContiguous p count).2 count f := by
  have hmax := p.totalFrames_le
  have hbound : (p.totalFrames + 2 ^ 64 - count) % 2 ^ 64 = p.totalFrames - count := by
    simp only [maxFrames] at hmax
    omega
  rw [pmmAllocContiguous, if_neg (by omega), if_neg (by omega), hbound]
  rcases hrun : firstRun p.bitmap count (p.totalFrames - count) 0 with _ | f
  · exact .inl ⟨rfl, fun f hf => firstRun_none hrun (Nat.zero_le _) (by omega)⟩
  · obtain ⟨-, hlt, hfree, hleast⟩ := firstRun_least hrun
    exact .inr ⟨f, by omega, hfree, fun g hg => hleast g (Nat.zero_le _) hg, rfl, rfl, rfl,
      fun g => bmTest_foldl_run _ _ _⟩

theorem TakesRun.ne (h : TakesRun p p' count f) (hcount : 0 < count)
    (hfree : runFree p.bitmap f count = true) : p' ≠ p := by
  rintro rfl
  have hbit := h.bits f
  have h0 := runFree_iff.mp hfree 0 hcount
  rw [Nat.add_zero] at h0
  rw [decide_eq_true (by omega), h0] at hbit
  cases hbit

/-- The call is sound and complete exactly if no more frames are asked for than there are, and a
run that ends at the last frame is not the only one. -/
theorem pmmAllocContiguous_lowest_iff (p : Pmm) (count : Word) (hcount : 2 ≤ count.toNat) :
    TakesLowest p count.toNat ↔ count.toNat ≤ p.totalFrames ∧
      (FreeRun p count.toNat (p.totalFrames - count.toNat) →
        ∃ f < p.totalFrames - count.toNat, FreeRun p count.toNat f) := by
  have hlt := count.isLt
  have hmax := p.totalFrames_le
  simp only [maxFrames] at hmax
  generalize count.toNat = k at *
  constructor
  · intro h
    have hle : k ≤ p.totalFrames := by
      by_contra hgt
      obtain ⟨g, hg, hge⟩ := firstRunReads_past (b := p.bitmap) (n := (p.totalFrames + 2 ^ 64 - k) % 2 ^ 64)
        (Nat.not_le.mp hgt) (Nat.zero_le p.totalFrames) (by omega)
      exact absurd (h.examined g hg) (Nat.not_lt.mpr hge)
    refine ⟨hle, fun hlast => ?_⟩
    obtain ⟨hnone, -⟩ | ⟨f, hf, hfree, -⟩ := pmmAllocContiguous_search p hcount hle
    · exact absurd hlast (h.none_iff.mp hnone _)
    · exact ⟨f, hf, by omega, hfree⟩
  · rintro ⟨hle, hlast⟩
    -- a run is one that the loop tries
    have htried : ∀ f, FreeRun p k f → ∃ g < p.totalFrames - k, g ≤ f ∧ FreeRun p k g := by
      intro f hf
      by_cases hend : f < p.totalFrames - k
      · exact ⟨f, hend, Nat.le_refl f, hf⟩
      · have hat : f = p.totalFrames - k := by
          have := hf.1
          omega
        obtain ⟨g, hg, hrun⟩ := hlast (hat ▸ hf)
        exact ⟨g, hg, by omega, hrun⟩
    have hreads : ∀ f ∈ contiguousReads p k, f < p.totalFrames := by
      intro f hf
      have hbound : (p.totalFrames + 2 ^ 64 - k) % 2 ^ 64 = p.totalFrames - k := by omega
      rw [contiguousReads, hbound] at hf
      have := firstRunReads_lt hf
      omega
    obtain ⟨hnone, hall⟩ | ⟨f, hf, hfree, hleast, haddr, htakes⟩ :=
      pmmAllocContiguous_search p hcount hle
    · have hno : ∀ f, ¬ FreeRun p k f := by
        intro f hf
        obtain ⟨g, hg, -, hrun⟩ := htried f hf
        have hfree := hrun.2
        rw [hall g hg] at hfree
        cases hfree
      exact ⟨hreads, fun f hf => absurd hf.1 (hno f), fun _ => hno, fun _ => hnone⟩
    · have hrun : FreeRun p k f := ⟨by omega, hfree⟩
      refine ⟨hreads, fun g hg => ?_, fun hnull => ?_, fun hno => absurd hrun (hno f)⟩
      · have hgf : g = f := by
          refine Nat.le_antisymm (hg.2 hrun) ?_
          by_contra hlt
          have hfull := hleast g (Nat.not_le.mp hlt)
          rw [hg.1.2] at hfull
          cases hfull
        subst hgf
        exact ⟨haddr, htakes⟩
      · exact absurd (congrArg Prod.snd hnull) (htakes.ne (by omega) hfree)

def tailFree : Pmm := ⟨fun _ => 0x03#8, 4, 2, by decide⟩

def threeFree : Pmm := ⟨fun _ => 0x00#8, 3, 0, by decide⟩

theorem two_of_three : TakesLowest threeFree 2 :=
  (pmmAllocContiguous_lowest_iff threeFree 2 (by decide)).mpr
    ⟨by decide, fun _ => ⟨0, by decide, by decide, by decide⟩⟩

theorem tail_missed : pmmAllocContiguous tailFree 2 = (0, tailFree) ∧ FreeRun tailFree 2 2 ∧
    ¬ TakesLowest tailFree 2 := by
  have hnull : pmmAllocContiguous tailFree 2 = (0, tailFree) := by
    obtain ⟨h, -⟩ | ⟨f, hf, hfree, -⟩ :=
      pmmAllocContiguous_search tailFree (show 1 < 2 by decide) (by decide)
    · exact h
    · have hnone : ∀ f < 2, runFree tailFree.bitmap f 2 = false := by decide
      rw [hnone f hf] at hfree
      cases hfree
  have hrun : FreeRun tailFree 2 2 := ⟨by decide, by decide⟩
  exact ⟨hnull, hrun, fun h => h.none_iff.mp hnull 2 hrun⟩

end EponaOS.Mm
