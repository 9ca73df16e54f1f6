import EponaOS.Mm.PageClone

/-!
# Checking the pointers of ring 3

`validate_user_ptr` of `syscall.c` stands between a system call and the memory a program
names: the range must lie below the user limit, and `paging_get_phys` must find every
page of it. That walk starts at `g_pml4`, the tables of the kernel, and looks at
presence only. Which accesses the processor allows the program is decided by the tables
in CR3, by `PAGE_USER` and `PAGE_RW` at every level.
-/

namespace EponaOS.Kernel

open Mm

-- ---------------------------------------------------------------------------
-- The check
-- ---------------------------------------------------------------------------

/-- The loop over the pages from `page` up to `stop`; `none` while it still runs. -/
def pagesMapped (s : Machine) (stop : Word) : Nat → Word → Option Bool
  | 0, _ => none
  | fuel + 1, page =>
    if page < stop then
      if pagingGetPhys s page = 0 then some false else pagesMapped s stop fuel (page + 0x1000)
    else some true

def pagesFuel : Nat := 134217729

def validateUserPtr (s : Machine) (ptr size : Word) : Option Bool :=
  if ptr < 0x1000 then some false else
  if ptr + size < ptr then some false else
  if ptr + size > 0x7FFFFFFFFF then some false else
  pagesMapped s ((ptr + size + 0xFFF) &&& ~~~0xFFF) pagesFuel (ptr &&& ~~~0xFFF)

inductive PtrUse
  | writeBuf
  | path
  | readBuf
  | readdirBuf
  | statSize
  | statFlags
  | pipeFds
  | getcwdBuf
  deriving DecidableEq, Repr

/-- `SYS_WRITE` and the path arguments only read; the others store results. -/
def PtrUse.writesThrough : PtrUse → Bool
  | writeBuf | path => false
  | readBuf | readdirBuf | statSize | statFlags | pipeFds | getcwdBuf => true

-- ---------------------------------------------------------------------------
-- What the processor allows
-- ---------------------------------------------------------------------------

/-- The page of `virt` is mapped in the tables at `cr3`, with `flag` set at every level. A
page directory pointer may map a page of 1 GiB, a page directory entry one of 2 MiB. -/
def walkHas (m : PhysMem) (cr3 virt flag : Word) : Bool :=
  let pml4E := m cr3 (idxPml4 virt)
  let pdptE := m (addr pml4E) (idxPdpt virt)
  let pdE := m (addr pdptE) (idxPd virt)
  let ptE := m (addr pdE) (idxPt virt)
  let passes := fun e => has e PAGE_PRESENT && has e flag
  passes pml4E && passes pdptE &&
    (has pdptE PAGE_HUGE || passes pdE && (has pdE PAGE_HUGE || passes ptE))

/-- The program may use the page at `page` the way the system call does. -/
def Accessible (m : PhysMem) (cr3 : Word) (u : PtrUse) (page : Word) : Prop :=
  walkHas m cr3 page PAGE_USER = true ∧
    (u.writesThrough = true → walkHas m cr3 page PAGE_RW = true)

def PageAligned (page : Word) : Prop := page.toNat % 4096 = 0

/-- Some byte of `[ptr, ptr + size)` lies in the page at `page`. -/
def Overlaps (page ptr size : Word) : Prop :=
  PageAligned page ∧ ∃ b, ptr.toNat ≤ b ∧ b < ptr.toNat + size.toNat ∧ b / 4096 * 4096 = page.toNat

-- ---------------------------------------------------------------------------
-- What the check establishes
-- ---------------------------------------------------------------------------

theorem pageMask_bit (i : Nat) : (~~~0xFFF#64).getLsbD i = (decide (i < 64) && !decide (i < 12)) := by
  have h : 0xFFF#64 = BitVec.ofNat 64 (2 ^ 12 - 1) := rfl
  rw [h, BitVec.getLsbD_not, BitVec.getLsbD_ofNat, Nat.testBit_two_pow_sub_one]
  by_cases hi : i < 64 <;> simp [hi]

theorem toNat_pageMask (x : Word) : (x &&& ~~~0xFFF#64).toNat = x.toNat / 4096 * 4096 := by
  have h : x &&& ~~~0xFFF#64 = (x >>> 12) <<< 12 := by
    apply BitVec.eq_of_getLsbD_eq
    intro i hi
    rw [BitVec.getLsbD_and, pageMask_bit, BitVec.getLsbD_shiftLeft, BitVec.getLsbD_ushiftRight]
    by_cases h12 : i < 12
    · simp [h12]
    · have : 12 + (i - 12) = i := by omega
      simp [h12, hi, this]
  have hx := x.isLt
  rw [h, BitVec.toNat_shiftLeft, BitVec.toNat_ushiftRight, Nat.shiftRight_eq_div_pow,
    Nat.shiftLeft_eq]
  omega

/-- The loop ends, and says whether the kernel maps every page from `page` up to `stop`. -/
theorem pagesMapped_spec (s : Machine) (page stop : Word) (fuel : Nat) (hp : PageAligned page) (hs : PageAligned stop)
    (hle : page.toNat ≤ stop.toNat) (hlt : stop.toNat ≤ 2 ^ 39)
    (hfuel : stop.toNat < page.toNat + fuel * 4096) :
    ∃ b, pagesMapped s stop fuel page = some b ∧
      (b = true ↔ ∀ q, PageAligned q → page.toNat ≤ q.toNat → q.toNat < stop.toNat →
        pagingGetPhys s q ≠ 0) := by
  unfold PageAligned at *
  induction fuel generalizing page with
  | zero => omega
  | succ fuel ih =>
    rw [pagesMapped]
    by_cases h : page < stop
    · have h' : page.toNat < stop.toNat := h
      have hnext : (page + 0x1000).toNat = page.toNat + 4096 := by
        rw [BitVec.toNat_add]
        simp only [BitVec.reduceToNat]
        omega
      rw [if_pos h]
      split
      · rename_i h0
        exact ⟨false, rfl, by simpa using ⟨page, hp, Nat.le_refl _, h', h0⟩⟩
      · rename_i h0
        obtain ⟨b, hb, hiff⟩ := @ih (page + 0x1000) (by omega) (by omega) (by omega)
        refine ⟨b, hb, hiff.trans ⟨fun hall q hq hqp hqs => ?_, fun hall q hq hqp hqs => ?_⟩⟩
        · by_cases heq : q.toNat = page.toNat
          · rwa [BitVec.eq_of_toNat_eq heq]
          · exact hall q hq (by omega) hqs
        · exact hall q hq (by omega) hqs
    · have h' : ¬ page.toNat < stop.toNat := h
      rw [if_neg h]
      exact ⟨true, rfl, by simpa using fun q _ _ _ => by omega⟩

/-- `validate_user_ptr` returns, and returns 1 exactly when the range lies between the first
page and the user limit and the kernel maps every page of it. -/
theorem validateUserPtr_spec (s : Machine) (ptr size : Word) :
    ∃ b, validateUserPtr s ptr size = some b ∧
      (b = true ↔ 0x1000 ≤ ptr.toNat ∧ ptr.toNat + size.toNat ≤ 0x7FFFFFFFFF ∧
        ∀ q, PageAligned q → ptr.toNat / 4096 * 4096 ≤ q.toNat →
          q.toNat < (ptr.toNat + size.toNat + 4095) / 4096 * 4096 → pagingGetPhys s q ≠ 0) := by
  have hptr := ptr.isLt
  have hsize := size.isLt
  have hsum : (ptr + size).toNat = (ptr.toNat + size.toNat) % 2 ^ 64 := BitVec.toNat_add ..
  rw [validateUserPtr]
  by_cases hnull : ptr < 0x1000
  · have hnull' : ptr.toNat < 0x1000 := hnull
    rw [if_pos hnull]
    exact ⟨false, rfl, by simp; omega⟩
  have hnull' : ¬ ptr.toNat < 0x1000 := hnull
  rw [if_neg hnull]
  by_cases hover : ptr + size < ptr
  · have hover' : (ptr + size).toNat < ptr.toNat := hover
    rw [if_pos hover]
    exact ⟨false, rfl, by simp; omega⟩
  have hover' : ¬ (ptr + size).toNat < ptr.toNat := hover
  rw [if_neg hover]
  by_cases habove : ptr + size > 0x7FFFFFFFFF
  · have habove' : 0x7FFFFFFFFF < (ptr + size).toNat := habove
    rw [if_pos habove]
    exact ⟨false, rfl, by simp; omega⟩
  have habove' : ¬ 0x7FFFFFFFFF < (ptr + size).toNat := habove
  rw [if_neg habove]
  have hstop : ((ptr + size + 0xFFF) &&& ~~~0xFFF#64).toNat =
      (ptr.toNat + size.toNat + 4095) / 4096 * 4096 := by
    rw [toNat_pageMask, BitVec.toNat_add, hsum]
    simp only [BitVec.reduceToNat]
    omega
  have hpage := toNat_pageMask ptr
  obtain ⟨b, hb, hiff⟩ := pagesMapped_spec s (ptr &&& ~~~0xFFF#64)
    ((ptr + size + 0xFFF) &&& ~~~0xFFF#64) pagesFuel
    (by unfold PageAligned; omega) (by unfold PageAligned; omega) (by omega) (by omega)
    (by unfold pagesFuel; omega)
  rw [hpage, hstop] at hiff
  refine ⟨b, hb, hiff.trans ⟨fun h => ⟨by omega, by omega, h⟩, fun h => h.2.2⟩⟩

/-- The check is sound for a kind of use exactly when every page below the user limit that
the kernel's tables map is one the program may use so itself. -/
theorem validateUserPtr_sound_iff (s : Machine) (cr3 : Word) (u : PtrUse) :
    (∀ ptr size, validateUserPtr s ptr size = some true →
      ∀ page, Overlaps page ptr size → Accessible s.mem cr3 u page) ↔
    ∀ page, PageAligned page → 0x1000 ≤ page.toNat → page.toNat < 2 ^ 39 →
      pagingGetPhys s page ≠ 0 → Accessible s.mem cr3 u page := by
  constructor
  · intro h page hal hlo hhi hmapped
    obtain ⟨b, hb, hiff⟩ := validateUserPtr_spec s page 1
    have hone : (1 : Word).toNat = 1 := rfl
    have hpage : page.toNat / 4096 * 4096 = page.toNat := by
      unfold PageAligned at hal
      omega
    refine h page 1 ?_ page ⟨hal, page.toNat, by omega, by omega, hpage⟩
    rw [hb, hiff.mpr ⟨hlo, ?_, fun q hq hqp hqs => ?_⟩]
    · unfold PageAligned at hal
      omega
    · -- one byte at the start of a page: the loop looks at that page only
      have heq : q = page := by
        apply BitVec.eq_of_toNat_eq
        unfold PageAligned at hq
        omega
      rwa [heq]
  · rintro h ptr size hval page ⟨hal, b, hlo, hhi, hb⟩
    obtain ⟨v, hv, hiff⟩ := validateUserPtr_spec s ptr size
    rw [hval] at hv
    cases hv
    obtain ⟨hnull, hlimit, hall⟩ := hiff.mp rfl
    exact h page hal (by omega) (by omega) (hall page hal (by omega) (by omega))

-- ---------------------------------------------------------------------------
-- A program that names a page of the kernel
-- ---------------------------------------------------------------------------

/-- The machine with a program in a clone of the boot tables, its code page at 0x400000. -/
def bootProgram : Word × Machine :=
  match pagingCloneCurrent bootMachine with
  | (cr3, s) => (cr3, (pagingMapPageOn s cr3 0x400000 0x300000 0x7).2)

/-- The program may have the kernel store the bytes it reads at 0x100000, a page that only the
kernel may use. -/
theorem validateUserPtr_unsound :
    ¬ ∀ (s : Machine) (cr3 : Word) (u : PtrUse) (ptr size : Word),
      validateUserPtr s ptr size = some true →
        ∀ page, Overlaps page ptr size → Accessible s.mem cr3 u page := by
  intro hall
  have hval : validateUserPtr bootProgram.2 0x100000#64 1#64 = some true := by decide +kernel
  have huser : walkHas bootProgram.2.mem bootProgram.1 0x100000#64 PAGE_USER = false := by
    decide +kernel
  have := (hall bootProgram.2 bootProgram.1 .readBuf 0x100000#64 1#64 hval 0x100000#64
    ⟨rfl, 0x100000, by decide, by decide, by decide⟩).1
  rw [huser] at this
  cases this

end EponaOS.Kernel
