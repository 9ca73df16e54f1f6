import EponaOS.Mm.Paging
import Mathlib.Data.List.Basic

/-!
# Walking the page tables

The walk of `paging_get_phys_on` as a walk of the table trie, what a well-formed tree
of tables is, and what each of the four writes of `paging_map_page_on` does to the
entries that the walks to mapped pages read.
-/

namespace EponaOS.Mm

open TableTrie

-- ---------------------------------------------------------------------------
-- Bits of an entry
-- ---------------------------------------------------------------------------

def Aligned (a : Word) : Prop := addr a = a

@[simp] theorem has_or (a b f : Word) : has (a ||| b) f = (has a f || has b f) := by
  have h : (a ||| b) &&& f = (a &&& f) ||| (b &&& f) := BitVec.and_or_distrib_right
  have h0 : (a &&& f) ||| (b &&& f) = 0#64 ↔ a &&& f = 0#64 ∧ b &&& f = 0#64 :=
    BitVec.or_eq_zero_iff
  rw [has, h, Bool.eq_iff_iff]
  simp only [has, bne_iff_ne, Bool.or_eq_true, ne_eq]
  exact h0.not.trans Classical.not_and_iff_not_or_not

@[simp] theorem has_and_user (x f : Word) :
    has (x &&& PAGE_USER) f = (has x PAGE_USER && has PAGE_USER f) := by
  have h : PAGE_USER = BitVec.twoPow 64 2 := rfl
  have h0 : BitVec.twoPow 64 2 ≠ 0#64 := by decide
  simp only [has, h, BitVec.and_twoPow]
  cases x.getLsbD 2 <;> simp [h0]

theorem addr_or (a b : Word) : addr (a ||| b) = addr a ||| addr b := BitVec.and_or_distrib_right

theorem addr_and_user (x : Word) : addr (x &&& PAGE_USER) = 0#64 := by
  rw [addr, BitVec.and_assoc]
  exact BitVec.and_zero

theorem addr_or_of_low (hx : addr x = 0#64) : addr (a ||| x) = addr a := by
  rw [addr_or, hx, BitVec.or_zero]

theorem addr_idem (e : Word) : Aligned (addr e) := by
  rw [Aligned, addr, addr, BitVec.and_assoc, BitVec.and_self]

theorem Aligned.has (h : Aligned a) (hf : addr f = 0#64) : has a f = false := by
  have : a &&& f = 0#64 := by
    rw [← h, addr, BitVec.and_assoc, BitVec.and_comm PAGE_ADDR_MASK, ← addr, hf, BitVec.and_zero]
  simp [Mm.has, this]

section
/-! The flags have one bit each, and none of them is an address bit. -/

@[simp] theorem present_present : has PAGE_PRESENT PAGE_PRESENT = true := rfl
@[simp] theorem present_rw : has PAGE_PRESENT PAGE_RW = false := rfl
@[simp] theorem present_user : has PAGE_PRESENT PAGE_USER = false := rfl
@[simp] theorem present_huge : has PAGE_PRESENT PAGE_HUGE = false := rfl
@[simp] theorem rw_present : has PAGE_RW PAGE_PRESENT = false := rfl
@[simp] theorem rw_rw : has PAGE_RW PAGE_RW = true := rfl
@[simp] theorem rw_user : has PAGE_RW PAGE_USER = false := rfl
@[simp] theorem rw_huge : has PAGE_RW PAGE_HUGE = false := rfl
@[simp] theorem user_present : has PAGE_USER PAGE_PRESENT = false := rfl
@[simp] theorem user_rw : has PAGE_USER PAGE_RW = false := rfl
@[simp] theorem user_user : has PAGE_USER PAGE_USER = true := rfl
@[simp] theorem user_huge : has PAGE_USER PAGE_HUGE = false := rfl
@[simp] theorem zero_has (f : Word) : has 0#64 f = false := by simp [has]

theorem addr_present : addr PAGE_PRESENT = 0#64 := rfl
theorem addr_rw : addr PAGE_RW = 0#64 := rfl
theorem addr_user : addr PAGE_USER = 0#64 := rfl
theorem addr_huge : addr PAGE_HUGE = 0#64 := rfl
end

def linkEntry (a flags : Word) : Word := a ||| PAGE_PRESENT ||| PAGE_RW ||| (flags &&& PAGE_USER)

theorem addr_linkEntry (h : Aligned a) : addr (linkEntry a flags) = a := by
  rw [linkEntry, addr_or_of_low (addr_and_user _), addr_or_of_low addr_rw,
    addr_or_of_low addr_present]
  exact h

@[simp] theorem linkEntry_present : has (linkEntry a flags) PAGE_PRESENT = true := by
  simp [linkEntry]

@[simp] theorem linkEntry_rw : has (linkEntry a flags) PAGE_RW = true := by simp [linkEntry]

theorem linkEntry_user (h : Aligned a) :
    has (linkEntry a flags) PAGE_USER = has flags PAGE_USER := by
  simp [linkEntry, h.has addr_user]

theorem linkEntry_huge (h : Aligned a) : has (linkEntry a flags) PAGE_HUGE = false := by
  simp [linkEntry, h.has addr_huge]

theorem addrMask_bit (i : Nat) : PAGE_ADDR_MASK.getLsbD i = (decide (12 ≤ i) && decide (i < 52)) := by
  have h : PAGE_ADDR_MASK = BitVec.allOnes 64 <<< 12 &&& BitVec.ofNat 64 (2 ^ 52 - 1) := rfl
  rw [h, BitVec.getLsbD_and, BitVec.getLsbD_shiftLeft, BitVec.getLsbD_ofNat,
    Nat.testBit_two_pow_sub_one, BitVec.getLsbD_allOnes, Bool.eq_iff_iff]
  simp
  omega

theorem aligned_iff {a : Word} : Aligned a ↔ ∀ i, a.getLsbD i = true → 12 ≤ i ∧ i < 52 := by
  constructor
  · intro h i hi
    rw [← h, addr, BitVec.getLsbD_and, addrMask_bit] at hi
    simpa using (Bool.and_eq_true_iff.mp hi).2
  · intro h
    apply BitVec.eq_of_getLsbD_eq
    intro i _
    rw [addr, BitVec.getLsbD_and, addrMask_bit]
    cases hi : a.getLsbD i
    · rfl
    · simp [h i hi]

theorem aligned_ofNat (hn : n * pageSize < 2 ^ 52) : Aligned (BitVec.ofNat 64 (n * pageSize)) := by
  rw [aligned_iff]
  intro i hi
  rw [BitVec.getLsbD_ofNat, Bool.and_eq_true, decide_eq_true_eq] at hi
  have hp : n * pageSize = 2 ^ 12 * n := Nat.mul_comm _ _
  refine ⟨?_, ?_⟩
  · by_contra hlt
    rw [hp, Nat.testBit_two_pow_mul] at hi
    simp [hlt] at hi
  · by_contra hge
    rw [Nat.testBit_lt_two_pow (Nat.lt_of_lt_of_le hn (Nat.pow_le_pow_right (by decide) (by omega)))] at hi
    simp at hi

theorem Aligned.lt (h : Aligned a) : a.toNat < 2 ^ 52 := by
  rw [← h, addr, BitVec.toNat_and]
  exact Nat.lt_of_le_of_lt Nat.and_le_right (by decide)

/-- The pages of a 2 MiB page are page aligned, and the addition does not wrap. -/
theorem aligned_sub (ha : Aligned a) (h2m : a.toNat % 0x200000 = 0) (j : Index) :
    Aligned (a + BitVec.ofNat 64 j * 4096) ∧
      (a + BitVec.ofNat 64 j * 4096).toNat = a.toNat + j * 4096 := by
  have hlt := ha.lt
  have hj := j.isLt
  have hsum : (a + BitVec.ofNat 64 j * 4096).toNat = a.toNat + j * 4096 := by
    rw [BitVec.toNat_add, BitVec.toNat_mul, BitVec.toNat_ofNat]
    simp only [BitVec.reduceToNat]
    omega
  refine ⟨?_, hsum⟩
  have : a + BitVec.ofNat 64 j * 4096 =
      BitVec.ofNat 64 ((a.toNat / 4096 + j) * pageSize) := by
    apply BitVec.eq_of_toNat_eq
    rw [hsum, BitVec.toNat_ofNat]
    simp only [pageSize]
    omega
  rw [this]
  apply aligned_ofNat
  simp only [pageSize]
  omega

-- ---------------------------------------------------------------------------
-- The walk and the well-formed tree
-- ---------------------------------------------------------------------------

/-- The table an entry of a table at depth `n` points to: 0 is the PML4, 3 a page table. -/
def tableOf : Nat → Word → Option Word
  | 0, e => if has e PAGE_PRESENT then some (addr e) else none
  | 1, e => if has e PAGE_PRESENT then some (addr e) else none
  | 2, e => if has e PAGE_HUGE then none else if has e PAGE_PRESENT then some (addr e) else none
  | _, _ => none

theorem index_toNat (v : Word) (k : Nat) : (index v k).val = v.toNat / 2 ^ k % 512 := by
  simp [index, Nat.shiftRight_eq_div_pow]

def pathOf (virt : Word) : List Index := [idxPml4 virt, idxPdpt virt, idxPd virt, idxPt virt]

def mapped : List Word → Bool
  | [_, _, pdE] => has pdE PAGE_HUGE
  | [_, _, _, ptE] => has ptE PAGE_PRESENT
  | _ => false

def pageEntries (m : PhysMem) (pml4 : Word) (q : List Index) : Option (List Word) :=
  let es := trace tableOf m 0 pml4 q
  if mapped es then some es else none

/-- The physical address of `virt` in the page these entries end in. -/
def physOf (virt : Word) : List Word → Word
  | [_, _, pdE] => addr pdE ||| (virt &&& 0x1FFFFF)
  | [_, _, _, ptE] => addr ptE ||| (virt &&& 0xFFF)
  | _ => 0

/-- `paging_get_phys_on` reads the entries of the walk and nothing else. -/
theorem pagingGetPhysOn_eq (m : PhysMem) (pml4 virt : Word) :
    pagingGetPhysOn m pml4 virt = ((pageEntries m pml4 (pathOf virt)).map (physOf virt)).getD 0 := by
  simp only [pagingGetPhysOn, pageEntries, pathOf, trace, tableOf]
  cases h4 : has (m pml4 (idxPml4 virt)) PAGE_PRESENT
  · simp [mapped]
  simp only [Bool.not_true, Bool.false_eq_true, if_false, if_true, Option.elim_some]
  cases h3 : has (m (addr (m pml4 (idxPml4 virt))) (idxPdpt virt)) PAGE_PRESENT
  · simp [mapped]
  simp only [Bool.not_true, Bool.false_eq_true, if_false, if_true, Option.elim_some]
  generalize m (addr (m (addr (m pml4 (idxPml4 virt))) (idxPdpt virt))) (idxPd virt) = pdE
  cases h2 : has pdE PAGE_HUGE
  · cases h2' : has pdE PAGE_PRESENT
    · simp [mapped, h2]
    · simp only [Bool.not_true, Bool.false_eq_true, if_false, if_true, Option.elim_some,
        Option.elim_none, mapped]
      cases has (m (addr pdE) (idxPt virt)) PAGE_PRESENT <;> simp [physOf]
  · simp [mapped, h2, physOf]

/-- 2 MiB pages sit at the PD level only, and are present and 2 MiB aligned. -/
def EntryOk : Nat → Word → Prop
  | 0, e | 1, e => has e PAGE_PRESENT → has e PAGE_HUGE = false
  | 2, e => has e PAGE_HUGE → has e PAGE_PRESENT = true ∧ (addr e).toNat % 0x200000 = 0
  | _, _ => True

/-- A tree of page tables below `pml4`: every table is reached along one path only and
keeps its frame, and the entries met on the way are of the right kind. -/
structure WellFormed (s : Machine) (pml4 : Word) : Prop where
  tree : Tree tableOf s.mem pml4
  held : ∀ q a, reach tableOf s.mem 0 pml4 q = some a → s.pmm.Held a
  entries : ∀ q k e, q.length = 4 → (trace tableOf s.mem 0 pml4 q)[k]? = some e → EntryOk k e

theorem pageEntries_some (h : pageEntries m pml4 q = some es) :
    es = trace tableOf m 0 pml4 q ∧ mapped es = true := by
  simp only [pageEntries] at h
  split at h
  · cases h
    exact ⟨rfl, ‹_›⟩
  · cases h

theorem pageEntries_congr (h : trace tableOf m' 0 pml4 q = trace tableOf m 0 pml4 q) :
    pageEntries m' pml4 q = pageEntries m pml4 q := by
  simp only [pageEntries, h]

theorem mapped_length (h : mapped es = true) : es.length = 3 ∨ es.length = 4 := by
  unfold mapped at h
  split at h <;> simp at h ⊢

end EponaOS.Mm
