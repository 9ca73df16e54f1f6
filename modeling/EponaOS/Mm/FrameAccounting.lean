import EponaOS.Lib.Run
import EponaOS.Mm.PmmInit
import Mathlib.Data.List.Nodup

/-!
# Every frame is accounted for

Callers of `pmm_alloc` hold the frames it returned until they give them to `pmm_free`.
Over any such run the bitmap marks exactly the frames that `pmm_init` left reserved and
the frames that are held, and `g_used_frames` is the number of marked frames.
-/

namespace EponaOS.Mm

inductive FrameCall where
  | alloc
  | free (frame : Word)

structure FrameUse where
  pmm : Pmm
  held : List Word

def frameCall (s : FrameUse) : FrameCall → FrameUse
  | .alloc =>
    match pmmAlloc s.pmm with
    | (a, pmm) => ⟨pmm, if a = 0 then s.held else a :: s.held⟩
  | .free a => ⟨pmmFree s.pmm a, s.held.erase a⟩

/-- Only frames that are held are given back. -/
def FreesHeld (s : FrameUse) : FrameCall → Prop
  | .alloc => True
  | .free a => a ∈ s.held

/-- `frames` calls of `pmm_alloc`. -/
def pmmAllocs (p : Pmm) : Nat → Pmm
  | 0 => p
  | n + 1 => pmmAllocs (pmmAlloc p).2 n

theorem mem_frameCall_alloc (h : (pmmAlloc s.pmm).1 = a) (ha : a ≠ 0) :
    a ∈ (frameCall s .alloc).held := by
  rcases hcall : pmmAlloc s.pmm with ⟨x, p⟩
  rw [hcall] at h
  simp only [frameCall, hcall, h, if_neg ha]
  exact List.mem_cons_self

-- ---------------------------------------------------------------------------
-- The lowest free frame
-- ---------------------------------------------------------------------------

theorem firstFree_none (h : firstFree b n f = none) (hx : f ≤ x) (hxn : x < f + n) :
    bmTest b x = true := by
  induction n generalizing f with
  | zero => omega
  | succ n ih =>
    simp only [firstFree] at h
    split at h
    · rename_i hf
      rcases Nat.eq_or_lt_of_le hx with rfl | hlt
      · exact hf
      · exact ih h hlt (by omega)
    · cases h

/-- `pmm_alloc` takes the lowest free frame, or finds none. -/
theorem pmmAlloc_lowest (p : Pmm) :
    (pmmAlloc p = (0, p) ∧ ∀ f < p.totalFrames, bmTest p.bitmap f = true) ∨
    ∃ f < p.totalFrames, bmTest p.bitmap f = false ∧ (∀ g < f, bmTest p.bitmap g = true) ∧
      pmmAlloc p = (BitVec.ofNat 64 (f * pageSize),
        { p with bitmap := bmSet p.bitmap f, usedFrames := p.usedFrames + 1 }) := by
  unfold pmmAlloc
  rcases hf : firstFree p.bitmap p.totalFrames 0 with _ | f
  · exact .inl ⟨rfl, fun f hlt => firstFree_none hf (Nat.zero_le _) (by omega)⟩
  · obtain ⟨-, hlt, hfree⟩ := firstFree_some hf
    exact .inr ⟨f, by omega, hfree, fun g hg => firstFree_least hf (Nat.zero_le _) hg, rfl⟩

/-- The first frame after boot is the lowest one that `pmm_init` released. -/
theorem pmmAlloc_pmmInit (hlow : reserveLow ≤ f) (hmax : f < maxFrames)
    (hrel : ∃ e ∈ table, e.Releases f)
    (hleast : ∀ g < f, reserveLow ≤ g → ∀ e ∈ table, ¬ e.Releases g) :
    (pmmAlloc (pmmInit table)).1 = BitVec.ofNat 64 (f * pageSize) := by
  obtain ⟨hf, hfree⟩ := (pmmInit_free_iff table).mpr ⟨hlow, hmax, hrel⟩
  obtain ⟨-, hall⟩ | ⟨g, hg, hgfree, hgleast, hcall⟩ := pmmAlloc_lowest (pmmInit table)
  · simp [hall f hf] at hfree
  obtain ⟨hglow, -, e, he, hgrel⟩ := (pmmInit_free_iff table).mp ⟨hg, hgfree⟩
  have hgf : ¬ g < f := fun hlt => hleast g hlt hglow e he hgrel
  have hfg : ¬ f < g := fun hlt => by simp [hgleast f hlt] at hfree
  have : g = f := by omega
  rw [hcall, this]

theorem frame_ne_zero (hlow : bmTest b 0 = true) (hfree : bmTest b f = false)
    (hf : f < maxFrames) : BitVec.ofNat 64 (f * pageSize) ≠ (0 : Word) := by
  intro h
  have : f = 0 := frame_inj hf (by decide) (h.trans (by rfl))
  subst this
  simp [hlow] at hfree

-- ---------------------------------------------------------------------------
-- The number of set bits
-- ---------------------------------------------------------------------------

theorem usedBelow_bmSet (hfree : bmTest b f = false) (hf : f < n) :
    usedBelow (bmSet b f) n = usedBelow b n + 1 := by
  have h := freeBelow_bmSet hfree n
  have h1 := usedBelow_add_freeBelow (bmSet b f) n
  have h2 := usedBelow_add_freeBelow b n
  rw [if_pos hf] at h
  omega

theorem bmTest_bmSet_bmClear (hset : bmTest b f = true) (g : Nat) :
    bmTest (bmSet (bmClear b f) f) g = bmTest b g := by
  rw [bmTest_bmSet, bmTest_bmClear]
  by_cases hgf : g = f
  · simp [hgf, hset]
  · simp [hgf]

theorem usedBelow_congr (h : ∀ f, bmTest b f = bmTest b' f) (n : Nat) :
    usedBelow b n = usedBelow b' n := by
  induction n with
  | zero => rfl
  | succ n ih => rw [usedBelow, usedBelow, ih, h]

theorem usedBelow_bmClear (hset : bmTest b f = true) (hf : f < n) :
    usedBelow (bmClear b f) n + 1 = usedBelow b n := by
  have hclear : bmTest (bmClear b f) f = false := by simp [bmTest_bmClear]
  rw [← usedBelow_bmSet hclear hf]
  exact usedBelow_congr (bmTest_bmSet_bmClear hset) n

-- ---------------------------------------------------------------------------
-- The invariant
-- ---------------------------------------------------------------------------

/-- The books of the allocator that started from `table`. -/
structure Accounted (table : List E820Entry) (s : FrameUse) : Prop where
  total : s.pmm.totalFrames = (pmmInit table).totalFrames
  used : s.pmm.usedFrames.toNat = usedBelow s.pmm.bitmap s.pmm.totalFrames
  marked : ∀ f < s.pmm.totalFrames, bmTest s.pmm.bitmap f = true ↔
    bmTest (pmmInit table).bitmap f = true ∨ BitVec.ofNat 64 (f * pageSize) ∈ s.held
  frames : ∀ a ∈ s.held, ∃ f < s.pmm.totalFrames, a = BitVec.ofNat 64 (f * pageSize) ∧
    bmTest (pmmInit table).bitmap f = false
  nodup : s.held.Nodup
  low : bmTest s.pmm.bitmap 0 = true

theorem pmmInit_accounted (table : List E820Entry) : Accounted table ⟨pmmInit table, []⟩ where
  total := rfl
  used := pmmInit_usedFrames table
  marked := by simp
  frames := by simp
  nodup := List.nodup_nil
  low := pmmInit_low table (by decide)

theorem Accounted.alloc (h : Accounted table s) : Accounted table (frameCall s .alloc) := by
  obtain ⟨hcall, -⟩ | ⟨f, hf, hfree, -, hcall⟩ := pmmAlloc_lowest s.pmm
  · rw [frameCall, hcall]
    exact h
  have hmax := Nat.lt_of_lt_of_le hf s.pmm.totalFrames_le
  have hne := frame_ne_zero h.low hfree hmax
  have hnot := (not_congr (h.marked f hf)).mp (by simp [hfree])
  rw [not_or, Bool.not_eq_true] at hnot
  rw [frameCall, hcall]
  dsimp only
  rw [if_neg hne]
  refine ⟨h.total, ?_, ?_, ?_, List.nodup_cons.mpr ⟨hnot.2, h.nodup⟩, ?_⟩
  · have hle := usedBelow_add_freeBelow s.pmm.bitmap s.pmm.totalFrames
    have hbound := s.pmm.totalFrames_le
    have hone : (1 : Word).toNat = 1 := rfl
    have hlt : s.pmm.usedFrames.toNat + 1 < 2 ^ 64 := by
      rw [h.used]
      simp only [maxFrames] at hbound
      omega
    rw [usedBelow_bmSet hfree hf, ← h.used, BitVec.toNat_add, hone, Nat.mod_eq_of_lt hlt]
  · intro g hg
    have hgf : BitVec.ofNat 64 (g * pageSize) = BitVec.ofNat 64 (f * pageSize) ↔ g = f :=
      ⟨frame_inj (Nat.lt_of_lt_of_le hg s.pmm.totalFrames_le) hmax, fun h => by rw [h]⟩
    rw [bmTest_bmSet, Bool.or_eq_true, decide_eq_true_iff, h.marked g hg, List.mem_cons, hgf]
    exact or_left_comm
  · intro a ha
    rcases List.mem_cons.mp ha with rfl | ha
    · exact ⟨f, hf, rfl, hnot.1⟩
    · exact h.frames a ha
  · rw [bmTest_bmSet, h.low, Bool.or_true]

/-- A frame that is held passes both checks of `pmm_free`. -/
theorem Accounted.pmmFree_held (h : Accounted table s) (ha : a ∈ s.held) :
    ∃ f < s.pmm.totalFrames, a = BitVec.ofNat 64 (f * pageSize) ∧
      bmTest (pmmInit table).bitmap f = false ∧ bmTest s.pmm.bitmap f = true ∧
      pmmFree s.pmm a =
        { s.pmm with bitmap := bmClear s.pmm.bitmap f, usedFrames := s.pmm.usedFrames - 1 } := by
  obtain ⟨f, hf, rfl, hinit⟩ := h.frames a ha
  have hmax := Nat.lt_of_lt_of_le hf s.pmm.totalFrames_le
  have hset := (h.marked f hf).mpr (.inr ha)
  have hdiv : (BitVec.ofNat 64 (f * pageSize)).toNat / pageSize = f := by
    rw [BitVec.toNat_ofNat]
    simp only [maxFrames, pageSize] at hmax ⊢
    omega
  refine ⟨f, hf, rfl, hinit, hset, ?_⟩
  rw [pmmFree, hdiv, if_pos ⟨hf, hset⟩]

theorem Accounted.usedFrames_free (h : Accounted table s) (ha : a ∈ s.held) :
    (pmmFree s.pmm a).usedFrames.toNat + 1 = s.pmm.usedFrames.toNat := by
  obtain ⟨f, hf, -, -, hset, hfree⟩ := h.pmmFree_held ha
  have hcount := usedBelow_bmClear hset hf
  rw [← h.used] at hcount
  have hlt := s.pmm.usedFrames.isLt
  rw [hfree, BitVec.toNat_sub]
  simp only [BitVec.reduceToNat]
  omega

theorem Accounted.free (h : Accounted table s) (ha : a ∈ s.held) :
    Accounted table (frameCall s (.free a)) := by
  have hused := h.usedFrames_free ha
  obtain ⟨f, hf, rfl, hinit, hset, hfree⟩ := h.pmmFree_held ha
  have hmax := Nat.lt_of_lt_of_le hf s.pmm.totalFrames_le
  rw [hfree] at hused
  rw [frameCall, hfree]
  refine ⟨h.total, ?_, ?_, ?_, h.nodup.erase _, ?_⟩
  · have hcount := usedBelow_bmClear hset hf
    rw [← h.used] at hcount
    dsimp only at hused ⊢
    omega
  · intro g hg
    have hgf : BitVec.ofNat 64 (g * pageSize) = BitVec.ofNat 64 (f * pageSize) ↔ g = f :=
      ⟨frame_inj (Nat.lt_of_lt_of_le hg s.pmm.totalFrames_le) hmax, fun h => by rw [h]⟩
    rw [bmTest_bmClear, Bool.and_eq_true, decide_eq_true_iff, h.marked g hg,
      h.nodup.mem_erase_iff, ne_eq, ne_eq, hgf]
    by_cases hg' : g = f
    · simp [hg', hinit]
    · simp [hg']
  · intro x hx
    exact h.frames x (List.mem_of_mem_erase hx)
  · have h0 : 0 ≠ f := by
      rintro rfl
      simp [pmmInit_low table (f := 0) (by decide)] at hinit
    rw [bmTest_bmClear, h.low]
    simp [h0]

theorem run_accounted (h : Run (fun s c s' => s' = frameCall s c) FreesHeld
    ⟨pmmInit table, []⟩ calls s) : Accounted table s := by
  refine h.invariant _ (pmmInit_accounted table) ?_
  rintro s c _ hs hok rfl
  cases c with
  | alloc => exact hs.alloc
  | free a => exact hs.free hok

-- ---------------------------------------------------------------------------
-- A free frame is handed out
-- ---------------------------------------------------------------------------

theorem freeBelow_pos (hfree : bmTest b g = false) (hg : g < n) : 0 < freeBelow b n := by
  have := freeBelow_bmSet hfree n
  rw [if_pos hg] at this
  omega

theorem freeBelow_of_used (h : ∀ f < n, bmTest b f = true) : freeBelow b n = 0 := by
  induction n with
  | zero => rfl
  | succ n ih =>
    rw [freeBelow, ih fun f hf => h f (Nat.lt_succ_of_lt hf), h n (Nat.lt_succ_self n)]
    rfl

theorem pmmAlloc_takes (h : p.freeFrames ≠ 0) : (pmmAlloc p).2.freeFrames < p.freeFrames := by
  obtain ⟨-, hall⟩ | ⟨f, hf, hfree, -, hcall⟩ := pmmAlloc_lowest p
  · exact absurd (freeBelow_of_used hall) h
  · have hone := freeBelow_bmSet hfree p.totalFrames
    rw [if_pos hf] at hone
    rw [hcall]
    exact Nat.lt_of_succ_le (Nat.le_of_eq hone)

theorem pmmAlloc_full (h : p.freeFrames = 0) : pmmAlloc p = (0, p) := by
  obtain ⟨hcall, -⟩ | ⟨f, hf, hfree, -, -⟩ := pmmAlloc_lowest p
  · exact hcall
  · exact absurd h (Nat.ne_of_gt (freeBelow_pos hfree hf))

theorem pmmAllocs_hands_out (hf : f < p.totalFrames) (hfree : bmTest p.bitmap f = false) :
    (pmmAlloc (pmmAllocs p (freeBelow p.bitmap f))).1 = BitVec.ofNat 64 (f * pageSize) := by
  induction hn : freeBelow p.bitmap f generalizing p with
  | zero =>
    obtain ⟨-, hall⟩ | ⟨g, -, hgfree, hleast, hcall⟩ := pmmAlloc_lowest p
    · simp [hall f hf] at hfree
    have hgf : ¬ g < f := fun hlt => by
      have := freeBelow_pos hgfree hlt
      omega
    have hfg : ¬ f < g := fun hlt => by simp [hleast f hlt] at hfree
    have : g = f := by omega
    rw [pmmAllocs, hcall, this]
  | succ n ih =>
    obtain ⟨-, hall⟩ | ⟨g, -, hgfree, hleast, hcall⟩ := pmmAlloc_lowest p
    · simp [hall f hf] at hfree
    -- the frame taken is below `f`: some frame there is free
    have hlt : g < f := by
      by_contra hge
      rw [freeBelow_of_used fun m hm => hleast m (by omega)] at hn
      cases hn
    have hcount := freeBelow_bmSet hgfree f
    rw [if_pos hlt] at hcount
    rw [pmmAllocs, hcall]
    refine ih (p := { p with bitmap := bmSet p.bitmap g, usedFrames := p.usedFrames + 1 }) hf ?_ ?_
    · have : f ≠ g := by omega
      simp [bmTest_bmSet, this, hfree]
    · dsimp only
      omega

-- ---------------------------------------------------------------------------
-- The whole run
-- ---------------------------------------------------------------------------

theorem pmmFreeBytes_exact (h : p.usedFrames.toNat = usedBelow p.bitmap p.totalFrames) :
    (pmmFreeBytes p).toNat = p.freeFrames * pageSize := by
  have hsum := usedBelow_add_freeBelow p.bitmap p.totalFrames
  have hmax := p.totalFrames_le
  have hused := p.usedFrames.isLt
  rw [pmmFreeBytes, Pmm.freeFrames, BitVec.toNat_mul, BitVec.toNat_sub, BitVec.toNat_ofNat, h]
  simp only [BitVec.reduceToNat, maxFrames, pageSize] at *
  omega

theorem Accounted.pmmAlloc_iff (h : Accounted table s) :
    ((pmmAlloc s.pmm).1 ≠ 0 → (pmmAlloc s.pmm).1 ∉ s.held ∧
      ∃ f < s.pmm.totalFrames, (pmmAlloc s.pmm).1 = BitVec.ofNat 64 (f * pageSize) ∧
        bmTest (pmmInit table).bitmap f = false) ∧
    ((pmmAlloc s.pmm).1 = 0 ↔ ∀ f < s.pmm.totalFrames,
      bmTest (pmmInit table).bitmap f = true ∨ BitVec.ofNat 64 (f * pageSize) ∈ s.held) := by
  obtain ⟨hcall, hall⟩ | ⟨f, hf, hfree, -, hcall⟩ := pmmAlloc_lowest s.pmm <;> rw [hcall]
  · refine ⟨fun hne => absurd rfl hne, fun _ f hf => ?_, fun _ => rfl⟩
    exact (h.marked f hf).mp (hall f hf)
  · have hnot := (not_congr (h.marked f hf)).mp (by simp [hfree])
    have hne := frame_ne_zero h.low hfree (Nat.lt_of_lt_of_le hf s.pmm.totalFrames_le)
    rw [not_or, Bool.not_eq_true] at hnot
    refine ⟨fun _ => ⟨hnot.2, f, hf, rfl, hnot.1⟩, fun h0 => absurd h0 hne, fun hall => ?_⟩
    exact absurd (hall f hf) (by simp [hnot])

/-- In every run from `pmm_init` the counter is exact, a frame handed out was neither held nor
reserved, none is refused while one is left, and a frame given back is handed out again. -/
theorem pmm_accounting (h : Run (fun s c s' => s' = frameCall s c) FreesHeld
    ⟨pmmInit table, []⟩ calls s) :
    (s.pmm.usedFrames.toNat = usedBelow s.pmm.bitmap s.pmm.totalFrames ∧
      (pmmFreeBytes s.pmm).toNat = s.pmm.freeFrames * pageSize ∧
      ∀ a ∈ s.held, (pmmFree s.pmm a).usedFrames.toNat + 1 = s.pmm.usedFrames.toNat) ∧
    ((pmmAlloc s.pmm).1 ≠ 0 → (pmmAlloc s.pmm).1 ∉ s.held ∧
      ∃ f < (pmmInit table).totalFrames, (pmmAlloc s.pmm).1 = BitVec.ofNat 64 (f * pageSize) ∧
        bmTest (pmmInit table).bitmap f = false) ∧
    ((pmmAlloc s.pmm).1 = 0 ↔ ∀ f < (pmmInit table).totalFrames,
      bmTest (pmmInit table).bitmap f = true ∨ BitVec.ofNat 64 (f * pageSize) ∈ s.held) ∧
    ∀ a ∈ s.held, ∃ n, (pmmAlloc (pmmAllocs (pmmFree s.pmm a) n)).1 = a := by
  have hs := run_accounted h
  obtain ⟨hfresh, hnull⟩ := hs.pmmAlloc_iff
  rw [← hs.total]
  refine ⟨⟨hs.used, pmmFreeBytes_exact hs.used, fun a ha => hs.usedFrames_free ha⟩,
    hfresh, hnull, fun a ha => ?_⟩
  obtain ⟨f, hf, rfl, -, hset, hfree⟩ := hs.pmmFree_held ha
  refine ⟨_, pmmAllocs_hands_out ?_ ?_⟩
  · rw [hfree]
    exact hf
  · rw [hfree]
    simp [bmTest_bmClear]

def twoFrames : List E820Entry := [⟨0x200000, 0x2000, 1⟩]

theorem twoFrames_alloc : (pmmAlloc (pmmInit twoFrames)).1 = 0x200000#64 := by
  refine pmmAlloc_pmmInit (f := 512) (by decide) (by decide) ?_ ?_
  · exact ⟨_, List.mem_singleton.mpr rfl, by decide, by decide, by decide⟩
  · intro g hg hlow
    simp only [reserveLow, pageSize] at hlow
    omega

theorem twoFrames_held :
    FreesHeld (frameCall ⟨pmmInit twoFrames, []⟩ .alloc) (.free 0x200000#64) :=
  mem_frameCall_alloc twoFrames_alloc (by decide)

theorem pmm_accounting_twoFrames :
    let s := frameCall (frameCall ⟨pmmInit twoFrames, []⟩ .alloc) (.free 0x200000#64)
    s.pmm.usedFrames.toNat = usedBelow s.pmm.bitmap s.pmm.totalFrames := by
  have hrun : Run (fun s c s' => s' = frameCall s c) FreesHeld ⟨pmmInit twoFrames, []⟩
      [.alloc, .free 0x200000#64]
      (frameCall (frameCall ⟨pmmInit twoFrames, []⟩ .alloc) (.free 0x200000#64)) :=
    .cons True.intro rfl (.cons twoFrames_held rfl .nil)
  exact (pmm_accounting hrun).1.1

end EponaOS.Mm
