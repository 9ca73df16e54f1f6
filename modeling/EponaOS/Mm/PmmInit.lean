import EponaOS.Mm.Pmm

/-!
# The allocator at boot

`pmm_init` reads the memory map of the firmware. Everything starts out reserved; the
frames that lie whole in a usable range are released, and the first 2 MiB are reserved
again.
-/

namespace EponaOS.Mm

/-- `struct e820_entry` -/
structure E820Entry where
  base : Word
  len : Word
  type : BitVec 32

/-- `RESERVE_LOW / PAGE_SIZE` -/
abbrev reserveLow : Nat := 2 * 1024 * 1024 / pageSize

def E820Entry.start (e : E820Entry) : Nat := (e.base + 4096 - 1).toNat / pageSize
def E820Entry.stop (e : E820Entry) : Nat := (e.base + e.len).toNat / pageSize

/-- `bm_clear` for the frames `f, …, f + n - 1`. -/
def clearFrames (b : Bitmap) (f n : Nat) : Bitmap := (List.range' f n).foldl bmClear b

/-- One round of the loop over the table: the bitmap and `g_total_frames`. -/
def releaseEntry (s : Bitmap × Nat) (e : E820Entry) : Bitmap × Nat :=
  if e.type ≠ 1 then s
  else (clearFrames s.1 e.start (min e.stop maxFrames - e.start), max s.2 e.stop)

/-- The loop that counts `g_used_frames`. -/
def countUsed (b : Bitmap) : Nat → Word
  | 0 => 0
  | n + 1 => if bmTest b n then countUsed b n + 1 else countUsed b n

def pmmInit (table : List E820Entry) : Pmm :=
  let released := table.foldl releaseEntry (fun _ => 0xFF, 0)
  let total := min released.2 maxFrames
  let bitmap := (List.range reserveLow).foldl bmSet released.1
  ⟨bitmap, total, countUsed bitmap total, Nat.min_le_right ..⟩

def pmmTotalBytes (p : Pmm) : Word := BitVec.ofNat 64 p.totalFrames * 4096
def pmmFreeBytes (p : Pmm) : Word := (BitVec.ofNat 64 p.totalFrames - p.usedFrames) * 4096

theorem bmTest_bmClear (b : Bitmap) (f g : Nat) :
    bmTest (bmClear b f) g = (decide (g ≠ f) && bmTest b g) := by
  by_cases hgf : g = f
  · subst hgf
    have hmod : g &&& 7 = g % 8 := Nat.and_two_pow_sub_one_eq_mod g 3
    have hdiv : g >>> 3 = g / 8 := Nat.shiftRight_eq_div_pow g 3
    have hlt : g % 8 < 8 := Nat.mod_lt _ (by decide)
    rw [bmTest_eq, bmClear, hmod, hdiv]
    simp [hlt]
  · simp [bmTest_bmClear_of_ne b hgf, hgf]

theorem bmTest_foldl_bmSet (fs : List Nat) (b : Bitmap) :
    bmTest (fs.foldl bmSet b) g = (decide (g ∈ fs) || bmTest b g) := by
  induction fs generalizing b with
  | nil => simp
  | cons f fs ih =>
    rw [List.foldl_cons, ih, bmTest_bmSet]
    by_cases hgf : g = f <;> simp [hgf]

theorem bmTest_clearFrames (b : Bitmap) (f n : Nat) :
    bmTest (clearFrames b f n) g = (decide (¬ (f ≤ g ∧ g < f + n)) && bmTest b g) := by
  have hall : ∀ (fs : List Nat) (b : Bitmap),
      bmTest (fs.foldl bmClear b) g = (decide (g ∉ fs) && bmTest b g) := by
    intro fs
    induction fs with
    | nil => simp
    | cons f fs ih =>
      intro b
      rw [List.foldl_cons, ih, bmTest_bmClear]
      by_cases hgf : g = f <;> simp [hgf]
  rw [clearFrames, hall]
  simp [List.mem_range'_1]

def E820Entry.Releases (e : E820Entry) (f : Nat) : Prop := e.type = 1 ∧ e.start ≤ f ∧ f < e.stop

theorem bmTest_releaseEntry (s : Bitmap × Nat) (e : E820Entry) (hf : f < maxFrames) :
    bmTest (releaseEntry s e).1 f = true ↔ ¬ e.Releases f ∧ bmTest s.1 f = true := by
  rw [releaseEntry, E820Entry.Releases]
  split
  · rename_i htype
    exact ⟨fun h => ⟨fun hrel => htype hrel.1, h⟩, And.right⟩
  · rename_i htype
    have hrange : e.start ≤ f ∧ f < e.start + (min e.stop maxFrames - e.start) ↔
        e.start ≤ f ∧ f < e.stop := by
      omega
    rw [bmTest_clearFrames, Bool.and_eq_true, decide_eq_true_iff, hrange]
    simp [not_not.mp htype]

theorem bmTest_released (table : List E820Entry) (s : Bitmap × Nat) (hf : f < maxFrames) :
    bmTest (table.foldl releaseEntry s).1 f = true ↔
      (∀ e ∈ table, ¬ e.Releases f) ∧ bmTest s.1 f = true := by
  induction table generalizing s with
  | nil => simp
  | cons e table ih =>
    rw [List.foldl_cons, ih, bmTest_releaseEntry s e hf, List.forall_mem_cons]
    tauto

theorem le_released (table : List E820Entry) (s : Bitmap × Nat) :
    s.2 ≤ (table.foldl releaseEntry s).2 := by
  induction table generalizing s with
  | nil => exact Nat.le_refl _
  | cons e table ih =>
    have hstep : s.2 ≤ (releaseEntry s e).2 := by
      rw [releaseEntry]
      split
      · exact Nat.le_refl _
      · exact Nat.le_max_left ..
    exact Nat.le_trans hstep (ih _)

theorem lt_released (table : List E820Entry) (s : Bitmap × Nat) (he : e ∈ table)
    (h : e.Releases f) : f < (table.foldl releaseEntry s).2 := by
  induction table generalizing s with
  | nil => cases he
  | cons d table ih =>
    rcases List.mem_cons.mp he with rfl | he
    · have hstep : f < (releaseEntry s e).2 := by
        rw [releaseEntry, if_neg (not_not.mpr h.1)]
        exact Nat.lt_of_lt_of_le h.2.2 (Nat.le_max_right ..)
      exact Nat.lt_of_lt_of_le hstep (le_released table _)
    · exact ih _ he

/-- What `pmm_init` leaves free: the frames of the usable ranges above the first 2 MiB. -/
theorem pmmInit_free_iff (table : List E820Entry) :
    f < (pmmInit table).totalFrames ∧ bmTest (pmmInit table).bitmap f = false ↔
      reserveLow ≤ f ∧ f < maxFrames ∧ ∃ e ∈ table, e.Releases f := by
  have hbit : f < maxFrames → (bmTest (pmmInit table).bitmap f = true ↔
      f < reserveLow ∨ ∀ e ∈ table, ¬ e.Releases f) := by
    intro hf
    have hall : bmTest (fun _ => 0xFF#8) f = true := by
      have hones : 0xFF#8 = BitVec.allOnes 8 := rfl
      rw [bmTest_eq, hones, BitVec.getLsbD_allOnes]
      exact decide_eq_true (Nat.mod_lt _ (by decide))
    rw [pmmInit, bmTest_foldl_bmSet, Bool.or_eq_true, bmTest_released table _ hf,
      decide_eq_true_iff, List.mem_range]
    exact or_congr Iff.rfl (and_iff_left hall)
  constructor
  · rintro ⟨hlt, hfree⟩
    have hmax := Nat.lt_of_lt_of_le hlt (pmmInit table).totalFrames_le
    have := (not_congr (hbit hmax)).mp (by simp [hfree])
    push Not at this
    exact ⟨this.1, hmax, this.2⟩
  · rintro ⟨hlow, hmax, e, he, hrel⟩
    refine ⟨Nat.lt_min.mpr ⟨lt_released table _ he hrel, hmax⟩, ?_⟩
    rw [← Bool.not_eq_true, hbit hmax]
    push Not
    exact ⟨hlow, e, he, hrel⟩

theorem pmmInit_low (table : List E820Entry) (hf : f < reserveLow) :
    bmTest (pmmInit table).bitmap f = true := by
  rw [pmmInit, bmTest_foldl_bmSet]
  simp [hf]

-- ---------------------------------------------------------------------------
-- The counter of used frames
-- ---------------------------------------------------------------------------

def usedBelow (b : Bitmap) : Nat → Nat
  | 0 => 0
  | n + 1 => usedBelow b n + if bmTest b n then 1 else 0

theorem usedBelow_add_freeBelow (b : Bitmap) (n : Nat) : usedBelow b n + freeBelow b n = n := by
  induction n with
  | zero => rfl
  | succ n ih =>
    rw [usedBelow, freeBelow]
    split <;> omega

theorem toNat_countUsed (b : Bitmap) (hn : n < 2 ^ 64) : (countUsed b n).toNat = usedBelow b n := by
  induction n with
  | zero => rfl
  | succ n ih =>
    have hlt := usedBelow_add_freeBelow b n
    rw [countUsed, usedBelow]
    split
    · rw [BitVec.toNat_add, ih (by omega)]
      exact Nat.mod_eq_of_lt (by change usedBelow b n + 1 < 2 ^ 64; omega)
    · exact ih (by omega)

theorem pmmInit_usedFrames (table : List E820Entry) :
    (pmmInit table).usedFrames.toNat =
      usedBelow (pmmInit table).bitmap (pmmInit table).totalFrames := by
  have hlt : (pmmInit table).totalFrames < 2 ^ 64 :=
    Nat.lt_of_le_of_lt (pmmInit table).totalFrames_le (by simp only [maxFrames]; omega)
  have hcount : (pmmInit table).usedFrames =
      countUsed (pmmInit table).bitmap (pmmInit table).totalFrames := by rw [pmmInit]
  rw [hcount, toNat_countUsed _ hlt]

end EponaOS.Mm
