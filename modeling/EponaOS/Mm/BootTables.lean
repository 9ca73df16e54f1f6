import EponaOS.Mm.PageWalk

/-!
# The page tables of the boot loader

`setup_paging` of `stage2.asm` clears the three tables at 0x1000, 0x2000 and 0x3000 and
identity-maps the first GiB with 2 MiB kernel pages. They are the tables the kernel
starts from, `g_pml4` is set from CR3, and the frame allocator keeps the first 2 MiB.
-/

namespace EponaOS.Mm

open TableTrie

def bootPdEntry (i : Index) : Word := BitVec.ofNat 64 (i * 0x200000) ||| 0x83#64

def setupPaging : PhysMem := fun t i =>
  if t = 0x1000#64 then if i.val = 0 then 0x2000#64 ||| 0x3#64 else 0
  else if t = 0x2000#64 then if i.val = 0 then 0x3000#64 ||| 0x3#64 else 0
  else if t = 0x3000#64 then bootPdEntry i
  else 0

/-- The machine after `paging_init`, with 4 MiB of usable memory. -/
def bootMachine : Machine where
  mem := setupPaging
  pmm := ⟨fun k => if k < 64 then 0xFF else 0, 1024, 512, by decide⟩
  gPml4 := 0x1000#64

theorem bootPdEntry_huge (i : Index) : has (bootPdEntry i) PAGE_HUGE = true := by
  rw [bootPdEntry, has_or]
  have h : has 0x83#64 PAGE_HUGE = true := rfl
  rw [h, Bool.or_true]

theorem bootPdEntry_present (i : Index) : has (bootPdEntry i) PAGE_PRESENT = true := by
  rw [bootPdEntry, has_or]
  have h : has 0x83#64 PAGE_PRESENT = true := rfl
  rw [h, Bool.or_true]

theorem addr_bootPdEntry (i : Index) : addr (bootPdEntry i) = BitVec.ofNat 64 (i * 0x200000) := by
  have hp : i.val * 0x200000 = i * 512 * pageSize := by simp only [pageSize]; omega
  rw [bootPdEntry, addr_or_of_low rfl, hp]
  exact aligned_ofNat (by have := i.isLt; simp only [pageSize]; omega)

theorem boot_pml4 (i : Index) :
    tableOf 0 (setupPaging 0x1000#64 i) = if i = 0 then some 0x2000#64 else none := by
  by_cases h : i = 0
  · subst h
    rfl
  · simp [setupPaging, h, tableOf]

theorem boot_pdpt (i : Index) :
    tableOf 1 (setupPaging 0x2000#64 i) = if i = 0 then some 0x3000#64 else none := by
  by_cases h : i = 0
  · subst h
    rfl
  · simp [setupPaging, h, tableOf]

theorem boot_pd (i : Index) : tableOf 2 (setupPaging 0x3000#64 i) = none := by
  have : setupPaging 0x3000#64 i = bootPdEntry i := rfl
  rw [this]
  simp [tableOf, bootPdEntry_huge]

theorem boot_reach (h : reach tableOf setupPaging 0 0x1000#64 q = some a) :
    (q = [] ∧ a = 0x1000#64) ∨ (q = [0] ∧ a = 0x2000#64) ∨ (q = [0, 0] ∧ a = 0x3000#64) := by
  rcases q with _ | ⟨i, q⟩
  · exact .inl ⟨rfl, (Option.some.inj h).symm⟩
  rw [reach, boot_pml4] at h
  by_cases hi : i = 0
  · rw [if_pos hi, Option.bind_some] at h
    rcases q with _ | ⟨j, q⟩
    · exact .inr (.inl ⟨by rw [hi], (Option.some.inj h).symm⟩)
    rw [reach, boot_pdpt] at h
    by_cases hj : j = 0
    · rw [if_pos hj, Option.bind_some] at h
      rcases q with _ | ⟨k, q⟩
      · exact .inr (.inr ⟨by rw [hi, hj], (Option.some.inj h).symm⟩)
      · rw [reach, boot_pd] at h
        cases h
    · rw [if_neg hj] at h
      cases h
  · rw [if_neg hi] at h
    cases h

theorem boot_held (h : f < 512) : bmTest bootMachine.pmm.bitmap f = true := by
  have hb : bootMachine.pmm.bitmap (f / 8) = BitVec.allOnes 8 := by
    have : f / 8 < 64 := by omega
    simp [bootMachine, this]
  rw [bmTest_eq, hb, BitVec.getLsbD_allOnes]
  exact decide_eq_true (Nat.mod_lt _ (by decide))

/-- The tables that `paging_init` sets up, under any allocator that has them in use. -/
theorem setupPaging_wellFormed (s : Machine) (hmem : s.mem = setupPaging)
    (hheld : ∀ t ∈ [0x1000#64, 0x2000#64, 0x3000#64], s.pmm.Held t) : WellFormed s 0x1000#64 := by
  obtain ⟨mem, pmm, gPml4⟩ := s
  obtain rfl : mem = setupPaging := hmem
  refine ⟨?_, ?_, ?_⟩
  · intro p q a hp hq
    obtain ⟨rfl, rfl⟩ | ⟨rfl, rfl⟩ | ⟨rfl, rfl⟩ := boot_reach hp <;>
      obtain ⟨rfl, h⟩ | ⟨rfl, h⟩ | ⟨rfl, h⟩ := boot_reach hq <;> first | rfl | (revert h; decide)
  · intro q a hq
    apply hheld
    obtain ⟨-, rfl⟩ | ⟨-, rfl⟩ | ⟨-, rfl⟩ := boot_reach hq <;> simp
  · intro q k e hlen he
    match q, hlen with
    | [i4, i3, i2, i1], _ =>
      have he' : (trace tableOf setupPaging 0 0x1000#64 [i4, i3, i2, i1])[k]? = some e := he
      simp only [trace, Nat.zero_add, Nat.reduceAdd, boot_pml4] at he'
      by_cases h4 : i4 = 0
      · by_cases h3 : i3 = 0
        · subst h4 h3
          simp only [if_true, Option.elim_some, boot_pdpt, boot_pd, Option.elim_none] at he'
          rcases k with _ | _ | _ | k <;> simp at he'
          · subst he'
            exact fun _ => rfl
          · subst he'
            exact fun _ => rfl
          · subst he'
            have hpd : setupPaging 0x3000#64 i2 = bootPdEntry i2 := rfl
            refine fun _ => ⟨by rw [hpd, bootPdEntry_present], ?_⟩
            rw [hpd, addr_bootPdEntry, BitVec.toNat_ofNat]
            have := i2.isLt
            omega
        · simp only [h4, if_true, Option.elim_some, boot_pdpt, h3, if_false, Option.elim_none] at he'
          rcases k with _ | _ | k <;> simp at he'
          · subst he'
            exact fun _ => rfl
          · subst he'
            simp [EntryOk, setupPaging, h3]
      · simp only [h4, if_false, Option.elim_none] at he'
        rcases k with _ | k <;> simp at he'
        subst he'
        simp [EntryOk, setupPaging, h4]

theorem boot_wellFormed : WellFormed bootMachine 0x1000#64 := by
  refine setupPaging_wellFormed _ rfl fun t ht f hf hft => ?_
  have hmax := Nat.lt_of_lt_of_le hf bootMachine.pmm.totalFrames_le
  have hn := congrArg BitVec.toNat hft
  rw [BitVec.toNat_ofNat] at hn
  apply boot_held
  simp only [List.mem_cons, List.not_mem_nil, or_false] at ht
  obtain rfl | rfl | rfl := ht <;>
    simp only [BitVec.reduceToNat, pageSize, maxFrames] at hn hmax <;> omega

end EponaOS.Mm
