import EponaOS.Mm.PageData
import EponaOS.Mm.PageRights

/-!
# What unmapping a page undoes

`paging_unmap_page` walks as `paging_get_phys` does, but does not look for `PAGE_HUGE`. For an
address in a 2 MiB page it takes the first page of data for a table.
-/

namespace EponaOS.Mm

open TableTrie

variable {s s' : Machine} {m m' : PhysMem} {pml4 virt v e4 e3 e2 e1 : Word} {es : List Word} {ret : Int}

/-- A call that returns 0 takes away the page and its frame and writes one entry of a table; one
that returns -1 does nothing. -/
structure Unmaps (s : Machine) (virt : Word) (ret : Int) (s' : Machine) : Prop where
  returns : ret = 0 ∨ ret = -1
  page : ret = 0 → ∀ v, pageNo v = pageNo virt → translation s'.mem s'.gPml4 v = none
  frame : ret = 0 → ∃ p, translation s.mem s.gPml4 virt = some p ∧ s'.pmm = pmmFree s.pmm (addr p)
  others : ret = 0 → ∀ v, pageNo v ≠ pageNo virt →
    translation s'.mem s'.gPml4 v = translation s.mem s.gPml4 v
  entry : ret = 0 → s'.gPml4 = s.gPml4 ∧ ∃ q t i e, reach tableOf s.mem 0 s.gPml4 q = some t ∧
    s'.mem = setEntry s.mem t i e
  nothing : ret = -1 → s' = s

/-- The address is in no 2 MiB page whose first page of data has a 1 in the lowest bit of the entry
for the address, and is not mapped to frame 0 while that is in use. -/
structure UnmapOk (s : Machine) (virt : Word) : Prop where
  huge : ∀ e4 e3 e2, pageEntries s.mem s.gPml4 (pathOf virt) = some [e4, e3, e2] →
    has (s.mem (addr e2) (idxPt virt)) PAGE_PRESENT = false
  frame : ∀ e4 e3 e2 e1, pageEntries s.mem s.gPml4 (pathOf virt) = some [e4, e3, e2, e1] →
    addr e1 = 0 → pmmFree s.pmm 0 = s.pmm

-- ---------------------------------------------------------------------------
-- The walk
-- ---------------------------------------------------------------------------

theorem pagingUnmapPage_cases (hw : WellFormed s s.gPml4) (virt : Word) :
    (pagingUnmapPage s virt = (-1, s) ∧ (∀ e4 e3 e2,
      pageEntries s.mem s.gPml4 (pathOf virt) = some [e4, e3, e2] →
        has (s.mem (addr e2) (idxPt virt)) PAGE_PRESENT = false) ∧
      ∀ e4 e3 e2 e1, pageEntries s.mem s.gPml4 (pathOf virt) ≠ some [e4, e3, e2, e1]) ∨
    ∃ e4 e3 e2 e1, e1 = s.mem (addr e2) (idxPt virt) ∧ has e1 PAGE_PRESENT = true ∧
      pagingUnmapPage s virt = (0, { s with
        mem := setEntry s.mem (addr e2) (idxPt virt) 0
        pmm := if addr e1 ≠ 0 then pmmFree s.pmm (addr e1) else s.pmm }) ∧
      ((pageEntries s.mem s.gPml4 (pathOf virt) = some [e4, e3, e2] ∧ has e2 PAGE_HUGE = true) ∨
        (pageEntries s.mem s.gPml4 (pathOf virt) = some [e4, e3, e2, e1] ∧
          reach tableOf s.mem 0 s.gPml4 (tablePath virt) = some (addr e2))) := by
  have hok := hw.entries (pathOf virt) 2
  unfold pagingUnmapPage
  simp only [pageEntries, pathOf, tablePath, trace, reach, tableOf] at hok ⊢
  generalize s.mem s.gPml4 (idxPml4 virt) = e4 at hok ⊢
  cases h4 : has e4 PAGE_PRESENT
  · simp [mapped]
  simp only [h4, Bool.not_true, Bool.false_eq_true, if_false, if_true, Option.elim_some,
    Option.bind_some] at hok ⊢
  generalize s.mem (addr e4) (idxPdpt virt) = e3 at hok ⊢
  cases h3 : has e3 PAGE_PRESENT
  · simp [mapped]
  simp only [h3, Bool.not_true, Bool.false_eq_true, if_false, if_true, Option.elim_some,
    Option.bind_some] at hok ⊢
  generalize s.mem (addr e3) (idxPd virt) = e2 at hok ⊢
  have hpresent : has e2 PAGE_HUGE = true → has e2 PAGE_PRESENT = true :=
    fun hh => (hok e2 rfl (by simp) hh).1
  clear hok
  cases h2 : has e2 PAGE_PRESENT
  · cases hh : has e2 PAGE_HUGE
    · simp [mapped, hh]
    · rw [hpresent hh] at h2
      cases h2
  simp only [Bool.not_true, Bool.false_eq_true, if_false]
  cases h1 : has (s.mem (addr e2) (idxPt virt)) PAGE_PRESENT
  · refine .inl ⟨by simp, fun f4 f3 f2 hf => ?_, fun f4 f3 f2 f1 hf => ?_⟩
    · cases hh : has e2 PAGE_HUGE
      · simp [mapped, hh, h1] at hf
      · simp only [hh, if_true, Option.elim_none, mapped] at hf
        cases hf
        exact h1
    · cases hh : has e2 PAGE_HUGE <;> simp [mapped, hh, h1] at hf
  · refine .inr ⟨e4, e3, e2, _, rfl, h1, by simp, ?_⟩
    cases hh : has e2 PAGE_HUGE
    · exact .inr ⟨by simp [mapped, h1], by simp⟩
    · exact .inl ⟨by simp [mapped, hh], rfl⟩

-- ---------------------------------------------------------------------------
-- A page of 4 KiB
-- ---------------------------------------------------------------------------

theorem clearPage_spec {p : List Index} {t : Word} {i : Index} (hw : WellFormed s pml4)
    (hp : reach tableOf s.mem 0 pml4 p = some t) (h3 : p.length = 3) :
    pageEntries (setEntry s.mem t i 0) pml4 (p ++ [i]) = none ∧
      ∀ q, q.length = 4 → q ≠ p ++ [i] →
        pageEntries (setEntry s.mem t i 0) pml4 q = pageEntries s.mem pml4 q := by
  have hl := length_trace hp
  have hpage : trace tableOf (setEntry s.mem t i 0) 0 pml4 (p ++ [i]) =
      trace tableOf s.mem 0 pml4 p ++ [0] := by
    rw [trace_append (reach_setEntry_self hw.tree hp), trace_setEntry_self hw.tree hp]
    simp [trace, h3]
  constructor
  · rw [h3] at hl
    obtain ⟨e4, e3, e2, htr⟩ := List.length_eq_three.mp hl
    simp only [pageEntries, hpage, htr]
    exact if_neg fun h : has 0 PAGE_PRESENT = true => absurd h (by decide)
  · intro q hlen hne
    refine pageEntries_congr (walk_setEntry_off hw.tree hp fun hq => ?_).2
    exact hne (hq.eq_of_length (by simp [h3, hlen])).symm

theorem addr_inFrame (e v : Word) : addr (addr e ||| (v &&& 0xFFF)) = addr e := by
  have hlow : (v &&& 0xFFF : Word).toNat < 4096 := by
    rw [BitVec.toNat_and]
    exact Nat.lt_of_le_of_lt Nat.and_le_right (by decide)
  rw [addr_or_of_low (addr_of_low hlow), addr_idem]

theorem unmaps_page (hw : WellFormed s s.gPml4)
    (hes : pageEntries s.mem s.gPml4 (pathOf virt) = some [e4, e3, e2, e1])
    (hpt : reach tableOf s.mem 0 s.gPml4 (tablePath virt) = some (addr e2))
    (hs' : s' = { s with
      mem := setEntry s.mem (addr e2) (idxPt virt) 0
      pmm := if addr e1 ≠ 0 then pmmFree s.pmm (addr e1) else s.pmm }) :
    Unmaps s virt 0 s' ↔ (addr e1 = 0 → pmmFree s.pmm 0 = s.pmm) := by
  subst hs'
  obtain ⟨hgone, hrest⟩ := clearPage_spec (i := idxPt virt) hw hpt rfl
  have hphys : translation s.mem s.gPml4 virt = some (addr e1 ||| (virt &&& 0xFFF)) := by
    rw [translation, hes]
    rfl
  constructor
  · intro hu h0
    obtain ⟨p, hp, hpmm⟩ := hu.frame rfl
    obtain rfl := Option.some.inj (hphys.symm.trans hp)
    rw [addr_inFrame, h0] at hpmm
    dsimp only at hpmm
    rw [if_neg (not_not.mpr rfl)] at hpmm
    exact hpmm.symm
  · intro h0
    refine ⟨.inl rfl, fun _ v hv => ?_, fun _ => ⟨_, hphys, ?_⟩, fun _ v hv => ?_,
      fun _ => ⟨rfl, _, _, _, _, hpt, rfl⟩, fun h => absurd h (by decide)⟩
    · rw [translation, pathOf_eq_iff.mpr hv]
      exact congrArg (Option.map _) hgone
    · rw [addr_inFrame]
      dsimp only
      by_cases hne : addr e1 = 0
      · rw [if_neg (not_not.mpr hne), hne, h0 hne]
      · rw [if_pos hne]
    · have hpath : pathOf v ≠ tablePath virt ++ [idxPt virt] := fun h => hv (pathOf_eq_iff.mp h)
      exact congrArg (Option.map _) (hrest _ rfl hpath)

-- ---------------------------------------------------------------------------
-- A page of 2 MiB
-- ---------------------------------------------------------------------------

theorem pageEntries_cleared (hset : ∀ t i, m' t i = m t i ∨ m' t i = 0)
    (h : pageEntries m' pml4 (pathOf v) = some es) : pageEntries m pml4 (pathOf v) = some es := by
  have hpresent : has 0 PAGE_PRESENT = false := rfl
  have hhuge : has 0 PAGE_HUGE = false := rfl
  simp only [pageEntries, pathOf, trace, tableOf] at h ⊢
  obtain h4 | h4 := hset pml4 (idxPml4 v)
  · rw [h4] at h
    generalize m pml4 (idxPml4 v) = e4 at h ⊢
    cases h4 : has e4 PAGE_PRESENT
    · simp [h4, mapped] at h
    simp only [h4, if_true, Option.elim_some] at h ⊢
    obtain h3 | h3 := hset (addr e4) (idxPdpt v)
    · rw [h3] at h
      generalize m (addr e4) (idxPdpt v) = e3 at h ⊢
      cases h3 : has e3 PAGE_PRESENT
      · simp [h3, mapped] at h
      simp only [h3, if_true, Option.elim_some] at h ⊢
      obtain h2 | h2 := hset (addr e3) (idxPd v)
      · rw [h2] at h
        generalize m (addr e3) (idxPd v) = e2 at h ⊢
        cases hh : has e2 PAGE_HUGE
        · cases h2 : has e2 PAGE_PRESENT
          · simp [hh, h2, mapped] at h
          · simp only [hh, h2, if_true, Option.elim_some, Bool.false_eq_true, if_false] at h ⊢
            obtain h1 | h1 := hset (addr e2) (idxPt v)
            · rwa [h1] at h
            · rw [h1] at h
              cases h
        · simpa [hh] using h
      · rw [h2] at h
        simp only [hpresent, hhuge, mapped, Bool.false_eq_true, if_false, Option.elim_none] at h
        cases h
    · rw [h3] at h
      simp only [hpresent, mapped, Bool.false_eq_true, if_false, Option.elim_none] at h
      cases h
  · rw [h4] at h
    simp only [hpresent, mapped, Bool.false_eq_true, if_false, Option.elim_none] at h
    cases h

theorem not_unmaps_huge {t : Word} {i : Index}
    (hes : pageEntries s.mem s.gPml4 (pathOf virt) = some [e4, e3, e2])
    (hpml4 : s'.gPml4 = s.gPml4) (hmem : s'.mem = setEntry s.mem t i 0) : ¬ Unmaps s virt 0 s' := by
  intro hu
  obtain ⟨w, hne, hshared⟩ := exists_neighbour virt
  have hback : sharedLevels virt w = 3 := by
    obtain ⟨h4, h3, h2⟩ := sharedLevels_eq_three hshared
    simp [sharedLevels, h4, h3, h2]
  -- the page next to it stays mapped, so the entry of both is still there
  have hw : pageEntries s.mem s.gPml4 (pathOf w) = some [e4, e3, e2] := pageEntries_huge hback hes rfl
  have hkept := hu.others rfl w fun h => hne (pathOf_eq_iff.mpr h)
  have hset : ∀ u j, s'.mem u j = s.mem u j ∨ s'.mem u j = 0 := by
    intro u j
    rw [hmem, setEntry]
    split
    · exact .inr rfl
    · exact .inl rfl
  rw [translation, translation, hw, hpml4] at hkept
  rcases hw' : pageEntries s'.mem s.gPml4 (pathOf w) with _ | es
  · rw [hw'] at hkept
    cases hkept
  · have hsame := pageEntries_cleared hset hw'
    rw [hw] at hsame
    cases hsame
    have hgone := hu.page rfl virt rfl
    rw [translation, hpml4, pageEntries_huge hshared hw' rfl] at hgone
    cases hgone

/-- Unmapping is exact just when it reads no data as a table entry and meets no frame 0 in use. -/
theorem pagingUnmapPage_iff (hw : WellFormed s s.gPml4) (h : pagingUnmapPage s virt = (ret, s')) :
    Unmaps s virt ret s' ↔ UnmapOk s virt := by
  obtain ⟨hcall, hhuge, hnone⟩ | ⟨e4, e3, e2, e1, he1, hpresent, hcall, ⟨hes, -⟩ | ⟨hes, hpt⟩⟩ :=
    pagingUnmapPage_cases hw virt
  · obtain ⟨rfl, rfl⟩ := Prod.mk.inj (h.symm.trans hcall)
    refine iff_of_true ?_ ⟨hhuge, fun _ _ _ _ hes => absurd hes (hnone _ _ _ _)⟩
    exact ⟨.inr rfl, fun h => absurd h (by decide), fun h => absurd h (by decide),
      fun h => absurd h (by decide), fun h => absurd h (by decide), fun _ => rfl⟩
  · obtain ⟨rfl, rfl⟩ := Prod.mk.inj (h.symm.trans hcall)
    refine iff_of_false (not_unmaps_huge hes rfl rfl) fun hok => ?_
    rw [he1, hok.huge _ _ _ hes] at hpresent
    cases hpresent
  · obtain ⟨rfl, hs'⟩ := Prod.mk.inj (h.symm.trans hcall)
    rw [unmaps_page hw hes hpt hs']
    constructor
    · intro hframe
      refine ⟨fun f4 f3 f2 hf => ?_, fun f4 f3 f2 f1 hf h0 => ?_⟩
      · rw [hes] at hf
        cases hf
      · rw [hes] at hf
        cases hf
        exact hframe h0
    · exact fun hok => hok.frame _ _ _ _ hes

/-- A page mapped under the boot tables, and taken away again. -/
theorem mapped_and_unmapped :
    ∃ s s', pagingMapPageOn bootMachine 0x1000 0x40000000 0x300000 PAGE_RW = (0, s) ∧
      pagingUnmapPage s 0x40000000 = (0, s') ∧ Unmaps s 0x40000000 0 s' := by
  have hmap : (pagingMapPageOn bootMachine 0x1000 0x40000000 0x300000 PAGE_RW).1 = 0 := by
    decide +kernel
  have hroot : (pagingMapPageOn bootMachine 0x1000 0x40000000 0x300000 PAGE_RW).2.gPml4 = 0x1000 := by
    decide +kernel
  have hes : (pageEntries (pagingMapPageOn bootMachine 0x1000 0x40000000 0x300000 PAGE_RW).2.mem 0x1000
      (pathOf 0x40000000)).map (fun es => (es.length, addr (es.getD 3 0))) = some (4, 0x300000) := by
    decide +kernel
  have hret : (pagingUnmapPage (pagingMapPageOn bootMachine 0x1000 0x40000000 0x300000 PAGE_RW).2
      0x40000000).1 = 0 := by decide +kernel
  rcases hs : pagingMapPageOn bootMachine 0x1000 0x40000000 0x300000 PAGE_RW with ⟨r, s⟩
  rw [hs] at hmap hroot hes hret
  rcases h : pagingUnmapPage s 0x40000000 with ⟨ret, s'⟩
  rw [h] at hret
  dsimp only at hmap hroot hes hret
  subst hmap hret
  have hw : WellFormed s s.gPml4 := by
    rw [hroot]
    exact (pagingMapPageOn_spec boot_wellFormed hs).1
  rw [← hroot] at hes
  refine ⟨s, s', rfl, h, (pagingUnmapPage_iff hw h).mpr ⟨fun e4 e3 e2 hlen => ?_,
    fun e4 e3 e2 e1 hlen h0 => ?_⟩⟩
  · rw [hlen] at hes
    cases hes
  · rw [hlen] at hes
    simp only [Option.map_some, List.getD_cons_succ, List.getD_cons_zero, h0] at hes
    cases hes

/-- The boot tables, with data in the second 2 MiB that look like an entry for their PML4. -/
def dataMachine : Machine := { bootMachine with mem := fillTable setupPaging 0x200000 fun _ => 0x1003 }

theorem dataMachine_wellFormed : WellFormed dataMachine dataMachine.gPml4 := by
  have hnone : ∀ q, reach tableOf setupPaging 0 0x1000 q ≠ some 0x200000 := by
    intro q hq
    obtain ⟨-, h⟩ | ⟨-, h⟩ | ⟨-, h⟩ := boot_reach hq <;> revert h <;> decide
  have hwalk := fun q => walk_fillTable (f := fun _ => 0x1003) hnone q
  refine ⟨boot_wellFormed.tree.fillTable hnone, fun q a hq => ?_, fun q k e hlen he => ?_⟩
  · exact boot_wellFormed.held q a ((hwalk q).1.symm.trans hq)
  · exact boot_wellFormed.entries q k e hlen (((congrArg (·[k]?) (hwalk q).2).symm.trans he))

/-- The data are cleared and the frame of the PML4 is freed, for a page that stays mapped. -/
theorem data_taken_for_table : ¬ ∀ (s : Machine) (virt : Word), WellFormed s s.gPml4 →
    Unmaps s virt (pagingUnmapPage s virt).1 (pagingUnmapPage s virt).2 := by
  intro hall
  have hok := (pagingUnmapPage_iff dataMachine_wellFormed rfl).mp
    (hall _ 0x200000 dataMachine_wellFormed)
  have hes : pageEntries dataMachine.mem dataMachine.gPml4 (pathOf 0x200000) =
      some [0x2003, 0x3003, 0x200083] := by decide +kernel
  have hclear := hok.huge _ _ _ hes
  revert hclear
  decide +kernel

end EponaOS.Mm
