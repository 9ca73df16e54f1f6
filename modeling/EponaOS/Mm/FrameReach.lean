import EponaOS.Mm.BootTables
import EponaOS.Mm.FrameAccounting

/-!
# Which frames the kernel can reach

The kernel reads and writes a frame through its physical address. The boot page tables
identity-map the first GiB; `MAX_FRAMES` lets the allocator hand out the first four.
-/

namespace EponaOS.Mm

open TableTrie

/-- The boot page tables map address `a` to itself. -/
def IdentityMapped (a : Word) : Prop := pagingGetPhysOn setupPaging 0x1000#64 a = a

abbrev mappedFrames : Nat := 0x40000000 / pageSize

inductive AllocCall where
  | alloc
  | allocContiguous (count : Word)
  | free (frame : Word)

structure AllocUse where
  pmm : Pmm
  returned : List Word

def allocCall (s : AllocUse) : AllocCall → AllocUse
  | .alloc => match pmmAlloc s.pmm with | (a, pmm) => ⟨pmm, a :: s.returned⟩
  | .allocContiguous count =>
    match pmmAllocContiguous s.pmm count.toNat with | (a, pmm) => ⟨pmm, a :: s.returned⟩
  | .free a => { s with pmm := pmmFree s.pmm a }

/-- With more frames than there are in all, the loop bound of `pmm_alloc_contiguous` wraps
and the loop leaves `g_bitmap`. -/
def InBitmap (s : AllocUse) : AllocCall → Prop
  | .allocContiguous count => count.toNat ≤ 1 ∨ count.toNat ≤ s.pmm.totalFrames
  | _ => True

def AllocReach (p : Pmm) : Prop :=
  (∃ f < p.totalFrames, f < mappedFrames ∧ bmTest p.bitmap f = false) ∨
    ∀ f < p.totalFrames, bmTest p.bitmap f = true

/-- `count` frames that start in the first GiB are free, or no `count` frames in a row are. -/
def RunReach (p : Pmm) (count : Nat) : Prop :=
  (∃ f < p.totalFrames - count, f < mappedFrames ∧ runFree p.bitmap f count = true) ∨
    ∀ f < p.totalFrames - count, runFree p.bitmap f count = false

def InReach (s : AllocUse) : AllocCall → Prop
  | .alloc => AllocReach s.pmm
  | .allocContiguous count =>
    count.toNat = 0 ∨ (count.toNat = 1 ∧ AllocReach s.pmm) ∨
      (1 < count.toNat ∧ count.toNat ≤ s.pmm.totalFrames ∧ RunReach s.pmm count.toNat)
  | .free _ => True

-- ---------------------------------------------------------------------------
-- What the boot tables map
-- ---------------------------------------------------------------------------

theorem boot_phys (a : Word) :
    pagingGetPhysOn setupPaging 0x1000#64 a =
      if idxPml4 a = 0 ∧ idxPdpt a = 0 then
        BitVec.ofNat 64 (idxPd a * 0x200000) ||| (a &&& 0x1FFFFF)
      else 0 := by
  by_cases h4 : idxPml4 a = 0
  · have he4 : setupPaging 0x1000#64 (idxPml4 a) = 0x2003#64 := by rw [h4]; rfl
    by_cases h3 : idxPdpt a = 0
    · have he3 : setupPaging (addr 0x2003#64) (idxPdpt a) = 0x3003#64 := by rw [h3]; rfl
      have he2 : setupPaging (addr 0x3003#64) (idxPd a) = bootPdEntry (idxPd a) := rfl
      have hp4 : has 0x2003#64 PAGE_PRESENT = true := rfl
      have hp3 : has 0x3003#64 PAGE_PRESENT = true := rfl
      rw [if_pos ⟨h4, h3⟩, pagingGetPhysOn]
      simp [he4, he3, he2, hp4, hp3, bootPdEntry_huge, addr_bootPdEntry]
    · have he3 : setupPaging (addr 0x2003#64) (idxPdpt a) = 0 := by
        have : (idxPdpt a).val ≠ 0 := fun h => h3 (Fin.ext h)
        have ha : addr 0x2003#64 = 0x2000#64 := rfl
        rw [ha]
        simp [setupPaging, this]
      have hp4 : has 0x2003#64 PAGE_PRESENT = true := rfl
      rw [if_neg (by tauto), pagingGetPhysOn]
      simp [he4, he3, hp4]
  · have he4 : setupPaging 0x1000#64 (idxPml4 a) = 0 := by
      have : (idxPml4 a).val ≠ 0 := fun h => h4 (Fin.ext h)
      simp [setupPaging, this]
    rw [if_neg (by tauto), pagingGetPhysOn]
    simp [he4]

theorem index_val (virt : Word) (shift : Nat) :
    (index virt shift).val = virt.toNat / 2 ^ shift % 512 := by
  simp only [index, BitVec.toNat_ushiftRight, Nat.shiftRight_eq_div_pow]

theorem boot_phys_toNat (a : Word) :
    (BitVec.ofNat 64 (idxPd a * 0x200000) ||| (a &&& 0x1FFFFF)).toNat =
      a.toNat / 2 ^ 21 % 512 * 2 ^ 21 + a.toNat % 2 ^ 21 := by
  have hidx : (idxPd a).val = a.toNat / 2 ^ 21 % 512 := index_val a 21
  have hlow : (a &&& 0x1FFFFF).toNat = a.toNat % 2 ^ 21 := by
    have hmask : (0x1FFFFF : Word).toNat = 2 ^ 21 - 1 := by decide
    rw [BitVec.toNat_and, hmask, Nat.and_two_pow_sub_one_eq_mod]
  have hlt : a.toNat / 2 ^ 21 % 512 * 0x200000 < 2 ^ 64 := by omega
  have hmul : a.toNat / 2 ^ 21 % 512 * 0x200000 = 2 ^ 21 * (a.toNat / 2 ^ 21 % 512) :=
    Nat.mul_comm ..
  rw [BitVec.toNat_or, BitVec.toNat_ofNat, hidx, hlow, Nat.mod_eq_of_lt hlt, hmul,
    ← Nat.two_pow_add_eq_or_of_lt (Nat.mod_lt _ (by decide)), Nat.mul_comm]

theorem identityMapped_iff (a : Word) : IdentityMapped a ↔ a.toNat < 0x40000000 := by
  rw [IdentityMapped, boot_phys]
  have hsum := boot_phys_toNat a
  constructor
  · intro h
    split at h
    · rw [h] at hsum
      omega
    · rw [← h]
      decide
  · intro h
    have hzero : (0 : Index).val = 0 := rfl
    have h4 : idxPml4 a = 0 := by
      apply Fin.ext
      rw [idxPml4, index_val, hzero]
      omega
    have h3 : idxPdpt a = 0 := by
      apply Fin.ext
      rw [idxPdpt, index_val, hzero]
      omega
    rw [if_pos ⟨h4, h3⟩]
    apply BitVec.eq_of_toNat_eq
    rw [hsum]
    omega

theorem frame_mapped_iff (hf : f < maxFrames) :
    IdentityMapped (BitVec.ofNat 64 (f * pageSize)) ↔ f < mappedFrames := by
  rw [identityMapped_iff, BitVec.toNat_ofNat]
  simp only [maxFrames, mappedFrames, pageSize] at *
  omega

theorem null_mapped : IdentityMapped 0 := (identityMapped_iff 0).mpr (by decide)

-- ---------------------------------------------------------------------------
-- The lowest run of free frames
-- ---------------------------------------------------------------------------

theorem firstRun_least (h : firstRun b count n f = some g) :
    f ≤ g ∧ g < f + n ∧ runFree b g count = true ∧ ∀ x, f ≤ x → x < g → runFree b x count = false := by
  induction n generalizing f with
  | zero => cases h
  | succ n ih =>
    simp only [firstRun] at h
    split at h
    · rename_i hfree
      cases h
      exact ⟨Nat.le_refl _, by omega, hfree, fun x hx hxg => by omega⟩
    · rename_i hfull
      obtain ⟨hle, hlt, hfree, hleast⟩ := ih h
      refine ⟨by omega, by omega, hfree, fun x hx hxg => ?_⟩
      rcases Nat.eq_or_lt_of_le hx with rfl | hlt
      · exact Bool.not_eq_true _ ▸ hfull
      · exact hleast x hlt hxg

theorem firstRun_none (h : firstRun b count n f = none) (hx : f ≤ x) (hxn : x < f + n) :
    runFree b x count = false := by
  induction n generalizing f with
  | zero => omega
  | succ n ih =>
    simp only [firstRun] at h
    split at h
    · cases h
    · rename_i hfull
      rcases Nat.eq_or_lt_of_le hx with rfl | hlt
      · exact Bool.not_eq_true _ ▸ hfull
      · exact ih h hlt (by omega)

theorem pmmAllocContiguous_one (p : Pmm) : pmmAllocContiguous p 1 = pmmAlloc p := rfl

/-- `pmm_alloc_contiguous` takes the lowest fit, or finds none. -/
theorem pmmAllocContiguous_lowest (p : Pmm) (hcount : 1 < count) (hle : count ≤ p.totalFrames) :
    ((pmmAllocContiguous p count).1 = 0 ∧
      ∀ f < p.totalFrames - count, runFree p.bitmap f count = false) ∨
    ∃ f < p.totalFrames - count, runFree p.bitmap f count = true ∧
      (∀ g < f, runFree p.bitmap g count = false) ∧
      (pmmAllocContiguous p count).1 = BitVec.ofNat 64 (f * pageSize) := by
  have hmax := p.totalFrames_le
  have hbound : (p.totalFrames + 2 ^ 64 - count) % 2 ^ 64 = p.totalFrames - count := by
    simp only [maxFrames] at hmax
    omega
  have h0 : count ≠ 0 := by omega
  have h1 : count ≠ 1 := by omega
  rw [pmmAllocContiguous, if_neg h0, if_neg h1, hbound]
  rcases hrun : firstRun p.bitmap count (p.totalFrames - count) 0 with _ | f
  · exact .inl ⟨rfl, fun f hf => firstRun_none hrun (Nat.zero_le _) (by omega)⟩
  · obtain ⟨-, hlt, hfree, hleast⟩ := firstRun_least hrun
    exact .inr ⟨f, by omega, hfree, fun g hg => hleast g (Nat.zero_le _) hg, rfl⟩

-- ---------------------------------------------------------------------------
-- When the frame is mapped
-- ---------------------------------------------------------------------------

theorem pmmAlloc_mapped_iff (p : Pmm) : IdentityMapped (pmmAlloc p).1 ↔ AllocReach p := by
  obtain ⟨hcall, hall⟩ | ⟨f, hf, hfree, hleast, hcall⟩ := pmmAlloc_lowest p <;> rw [hcall]
  · exact iff_of_true null_mapped (.inr hall)
  · rw [frame_mapped_iff (Nat.lt_of_lt_of_le hf p.totalFrames_le)]
    constructor
    · exact fun hmap => .inl ⟨f, hf, hmap, hfree⟩
    · rintro (⟨g, -, hmap, hgfree⟩ | hall)
      · refine Nat.lt_of_le_of_lt ?_ hmap
        by_contra hlt
        simp [hleast g (by omega)] at hgfree
      · simp [hall f hf] at hfree

theorem pmmAllocContiguous_mapped_iff (p : Pmm) (hcount : 1 < count) (hle : count ≤ p.totalFrames) :
    IdentityMapped (pmmAllocContiguous p count).1 ↔ RunReach p count := by
  obtain ⟨hcall, hall⟩ | ⟨f, hf, hfree, hleast, hcall⟩ :=
    pmmAllocContiguous_lowest p hcount hle <;> rw [hcall]
  · exact iff_of_true null_mapped (.inr hall)
  · have hmax := p.totalFrames_le
    rw [frame_mapped_iff (by omega)]
    constructor
    · exact fun hmap => .inl ⟨f, hf, hmap, hfree⟩
    · rintro (⟨g, -, hmap, hgfree⟩ | hall)
      · refine Nat.lt_of_le_of_lt ?_ hmap
        by_contra hlt
        simp [hleast g (by omega)] at hgfree
      · simp [hall f hf] at hfree

def Reachable (s : AllocUse) : Prop := ∀ a ∈ s.returned, IdentityMapped a

theorem InReach.inBitmap (h : InReach s c) : InBitmap s c := by
  cases c with
  | alloc => trivial
  | free a => trivial
  | allocContiguous count =>
    obtain h0 | ⟨h1, -⟩ | ⟨-, hle, -⟩ := h
    · exact .inl (by omega)
    · exact .inl (by omega)
    · exact .inr hle

theorem reachable_cons (p : Pmm) (a : Word) (as : List Word) :
    Reachable ⟨p, a :: as⟩ ↔ Reachable ⟨q, as⟩ ∧ IdentityMapped a :=
  List.forall_mem_cons.trans and_comm

theorem allocCall_reachable_iff (hok : InBitmap s c) :
    Reachable (allocCall s c) ↔ Reachable s ∧ InReach s c := by
  cases c with
  | alloc =>
    rw [allocCall, InReach, ← pmmAlloc_mapped_iff]
    exact reachable_cons _ _ s.returned
  | free a => exact (and_iff_left trivial).symm
  | allocContiguous count =>
    have hcall : Reachable (allocCall s (.allocContiguous count)) ↔
        Reachable s ∧ IdentityMapped (pmmAllocContiguous s.pmm count.toNat).1 :=
      reachable_cons _ _ s.returned
    rw [hcall]
    refine and_congr_right fun _ => ?_
    by_cases h0 : count.toNat = 0
    · exact iff_of_true (by rw [h0]; exact null_mapped) (.inl h0)
    by_cases h1 : count.toNat = 1
    · rw [h1, pmmAllocContiguous_one, pmmAlloc_mapped_iff]
      simp [InReach, h1]
    have hle : count.toNat ≤ s.pmm.totalFrames := hok.resolve_left (by omega)
    rw [pmmAllocContiguous_mapped_iff s.pmm (by omega) hle]
    simp only [InReach, h0, h1, false_and, false_or]
    exact ⟨fun h => ⟨by omega, hle, h⟩, fun h => h.2.2⟩

theorem Run.inReach_inBitmap {s : AllocUse}
    (h : Run (fun s c s' => s' = allocCall s c) InReach s calls s') :
    Run (fun s c s' => s' = allocCall s c) InBitmap s calls s' := by
  induction h with
  | nil => exact .nil
  | cons hok hf _ ih => exact .cons hok.inBitmap hf ih

/-- A run keeps to addresses that the boot tables map exactly when each of its calls finds
what it looks for in the first GiB or nowhere. -/
theorem returned_mapped_iff (table : List E820Entry) (calls : List AllocCall) (s : AllocUse) :
    (Run (fun s c s' => s' = allocCall s c) InReach ⟨pmmInit table, []⟩ calls s →
      ∀ a ∈ s.returned, IdentityMapped a) ∧
    (Run (fun s c s' => s' = allocCall s c) InBitmap ⟨pmmInit table, []⟩ calls s →
      (∀ a ∈ s.returned, IdentityMapped a) →
        Run (fun s c s' => s' = allocCall s c) InReach ⟨pmmInit table, []⟩ calls s) := by
  have hiff : Run (fun s c s' => s' = allocCall s c) InBitmap ⟨pmmInit table, []⟩ calls s →
      (Reachable s ↔
        Run (fun s c s' => s' = allocCall s c) InReach ⟨pmmInit table, []⟩ calls s) := by
    intro h
    refine h.good_iff (fun _ => True) Reachable trivial (fun a ha => by cases ha) ?_ ?_
    · rintro s c t t' rfl rfl
      rfl
    · rintro s c t - hok rfl
      exact ⟨trivial, allocCall_reachable_iff hok⟩
  exact ⟨fun h => (hiff (Run.inReach_inBitmap h)).mpr h, fun h => (hiff h).mp⟩

def twoGiB : List E820Entry := [⟨0, 0x80000000, 1⟩]

theorem run_allocs (n : Nat) (s : AllocUse) :
    ∃ s', Run (fun s c s' => s' = allocCall s c) (fun _ _ => True) s (List.replicate n .alloc) s' ∧
      s'.pmm = pmmAllocs s.pmm n := by
  induction n generalizing s with
  | zero => exact ⟨s, .nil, rfl⟩
  | succ n ih =>
    obtain ⟨s', hrun, hpmm⟩ := ih (allocCall s .alloc)
    exact ⟨s', .cons trivial rfl hrun, hpmm⟩

/-- The frame at 1 GiB is handed out once the frames below it are gone. -/
theorem returned_not_mapped : ∃ calls s a,
    Run (fun s c s' => s' = allocCall s c) (fun _ _ => True) ⟨pmmInit twoGiB, []⟩ calls s ∧
      a ∈ s.returned ∧ a ≠ 0 ∧ ¬ IdentityMapped a := by
  have hrel : ∃ e ∈ twoGiB, e.Releases mappedFrames :=
    ⟨_, List.mem_singleton.mpr rfl, by decide, by decide, by decide⟩
  obtain ⟨hf, hfree⟩ := (pmmInit_free_iff twoGiB).mpr ⟨by decide, by decide, hrel⟩
  have hlast := pmmAllocs_hands_out hf hfree
  obtain ⟨s, hrun, hpmm⟩ := run_allocs (freeBelow (pmmInit twoGiB).bitmap mappedFrames)
    ⟨pmmInit twoGiB, []⟩
  rw [← hpmm] at hlast
  have hmem : (pmmAlloc s.pmm).1 ∈ (allocCall s .alloc).returned := List.mem_cons_self
  rw [hlast] at hmem
  refine ⟨_, _, _, hrun.append (.cons trivial rfl .nil), hmem, by decide, ?_⟩
  rw [frame_mapped_iff (by decide)]
  exact Nat.lt_irrefl _

end EponaOS.Mm
