import EponaOS.Mm.PageStep
import EponaOS.Mm.BootTables

/-!
# The rights a mapping grants

A page may be used from ring 3, or written, when `PAGE_USER`, or `PAGE_RW`, is set in
every entry of the walk to it. `paging_map_page_on` adds `PAGE_USER` to entries that other
pages share and gives all 512 parts of a split 2 MiB page the rights of the new one, so
it can grant rights to pages it was not asked about. `GrantsOnly` is the exact condition
on the tables under which it does not.
-/

namespace EponaOS.Mm

open TableTrie

/-- `flag` is set in every entry of a walk to a mapped page. -/
def allHave (flag : Word) (es : List Word) : Bool := es.all (has · flag)

/-- The page of `v` is mapped, and `flag` is set at all levels. -/
def pageHas (m : PhysMem) (pml4 v flag : Word) : Bool :=
  (pageEntries m pml4 (pathOf v)).elim false (allHave flag)

def sharedLevels (v w : Word) : Nat :=
  if idxPml4 v ≠ idxPml4 w then 0
  else if idxPdpt v ≠ idxPdpt w then 1
  else if idxPd v ≠ idxPd w then 2
  else 3

/-- No page but that of `virt` is one step from ring 3, its own entries all marked
`PAGE_USER` and one that it shares with `virt` not; and where `virt` lies in a 2 MiB
page, that page is writable, or one of the entries above it is read-only. -/
structure GrantsOnly (m : PhysMem) (pml4 virt flags : Word) : Prop where
  user : has flags PAGE_USER = true → ∀ v, pathOf v ≠ pathOf virt →
    ∀ es, pageEntries m pml4 (pathOf v) = some es →
      allHave PAGE_USER (es.drop (sharedLevels v virt)) = true →
      allHave PAGE_USER (es.take (sharedLevels v virt)) = true
  writable : ∀ es, pageEntries m pml4 (pathOf virt) = some es → es.length = 3 →
    allHave PAGE_RW (es.take 2) = true → allHave PAGE_RW es = true

-- ---------------------------------------------------------------------------
-- What mapping a page does to the rights of another
-- ---------------------------------------------------------------------------

theorem mapOther_cases (flags ptNew v virt : Word) (hlen : es.length = 3 ∨ es.length = 4) :
    (sharedLevels v virt = 0 ∧ mapOther flags ptNew virt (pathOf v) es = es) ∨
    (sharedLevels v virt = 1 ∧ mapOther flags ptNew virt (pathOf v) es =
      es.modify 0 (grant flags)) ∨
    (sharedLevels v virt = 2 ∧ mapOther flags ptNew virt (pathOf v) es =
      (es.modify 0 (grant flags)).modify 1 (grant flags)) ∨
    (∃ e4 e3 e2 e1, es = [e4, e3, e2, e1] ∧ sharedLevels v virt = 3 ∧
      mapOther flags ptNew virt (pathOf v) es = [grant flags e4, grant flags e3, grant flags e2, e1]) ∨
    (∃ e4 e3 e2, es = [e4, e3, e2] ∧ sharedLevels v virt = 3 ∧
      mapOther flags ptNew virt (pathOf v) es =
        [grant flags e4, grant flags e3, grant flags (linkEntry ptNew flags),
          splitEntry (addr e2) (flags &&& PAGE_USER) (idxPt v)]) := by
  unfold sharedLevels mapOther grantAt
  by_cases h4 : idxPml4 v = idxPml4 virt
  · by_cases h3 : idxPdpt v = idxPdpt virt
    · by_cases h2 : idxPd v = idxPd virt
      · rcases es with _ | ⟨e4, _ | ⟨e3, _ | ⟨e2, _ | ⟨e1, _ | ⟨e0, es⟩⟩⟩⟩⟩ <;>
          simp at hlen <;> simp [pathOf, h4, h3, h2, splitAt]
      · simp [pathOf, h4, h3, h2, splitAt_off, Ne.symm h2]
    · simp [pathOf, h4, h3, splitAt_off, Ne.symm h3]
  · simp [pathOf, h4, splitAt_off, Ne.symm h4]

section
variable {es : List Word} (hlen : es.length = 3 ∨ es.length = 4)

include hlen in
/-- With `PAGE_USER` in the flags, the shared entries are user entries afterwards. -/
theorem mapOther_user (hu : has flags PAGE_USER = true) :
    allHave PAGE_USER (mapOther flags ptNew virt (pathOf v) es) =
      allHave PAGE_USER (es.drop (sharedLevels v virt)) := by
  obtain ⟨h, hm⟩ | ⟨h, hm⟩ | ⟨h, hm⟩ | ⟨e4, e3, e2, e1, rfl, h, hm⟩ | ⟨e4, e3, e2, rfl, h, hm⟩ :=
    mapOther_cases flags ptNew v virt hlen
  · rw [h, hm, List.drop_zero]
  · rcases es with _ | ⟨e4, es⟩ <;> simp [h, hm, allHave, hu]
  · rcases es with _ | ⟨e4, _ | ⟨e3, es⟩⟩ <;> simp [h, hm, allHave, hu]
  · simp [h, hm, allHave, hu]
  · simp [h, hm, allHave, hu, splitEntry_eq, linkEntry]

include hlen in
theorem user_of_mapOther (hal : Aligned ptNew) (hu : has flags PAGE_USER = false)
    (ha : allHave PAGE_USER (mapOther flags ptNew virt (pathOf v) es) = true) :
    allHave PAGE_USER es = true := by
  obtain ⟨-, hm⟩ | ⟨-, hm⟩ | ⟨-, hm⟩ | ⟨e4, e3, e2, e1, rfl, -, hm⟩ | ⟨e4, e3, e2, rfl, -, hm⟩ :=
    mapOther_cases flags ptNew v virt hlen
  · rwa [hm] at ha
  · rcases es with _ | ⟨e4, es⟩
    · rfl
    · simpa [hm, allHave, hu] using ha
  · rcases es with _ | ⟨e4, _ | ⟨e3, es⟩⟩
    · rfl
    · simpa [hm, allHave, hu] using ha
    · simpa [hm, allHave, hu] using ha
  · simpa [hm, allHave, hu] using ha
  · simp [hm, allHave, hu, linkEntry_user hal] at ha

include hlen in
theorem mapOther_rw :
    allHave PAGE_RW (mapOther flags ptNew virt (pathOf v) es) =
      if sharedLevels v virt = 3 ∧ es.length = 3 then allHave PAGE_RW (es.take 2)
      else allHave PAGE_RW es := by
  obtain ⟨h, hm⟩ | ⟨h, hm⟩ | ⟨h, hm⟩ | ⟨e4, e3, e2, e1, rfl, h, hm⟩ | ⟨e4, e3, e2, rfl, h, hm⟩ :=
    mapOther_cases flags ptNew v virt hlen
  · simp [h, hm]
  · rcases es with _ | ⟨e4, es⟩ <;> simp [h, hm, allHave]
  · rcases es with _ | ⟨e4, _ | ⟨e3, es⟩⟩ <;> simp [h, hm, allHave]
  · simp [h, hm, allHave]
  · simp [h, hm, allHave, splitEntry_eq]

end

-- ---------------------------------------------------------------------------
-- The pages next to each other in a 2 MiB page
-- ---------------------------------------------------------------------------

theorem sharedLevels_eq_three (h : sharedLevels v w = 3) :
    idxPml4 v = idxPml4 w ∧ idxPdpt v = idxPdpt w ∧ idxPd v = idxPd w := by
  unfold sharedLevels at h
  grind

theorem pageEntries_huge (h : sharedLevels v w = 3)
    (he : pageEntries m pml4 (pathOf v) = some es) (h3 : es.length = 3) :
    pageEntries m pml4 (pathOf w) = some es := by
  obtain ⟨h4, h3', h2⟩ := sharedLevels_eq_three h
  obtain ⟨htr, hm⟩ := pageEntries_some he
  have hw : trace tableOf m 0 pml4 (pathOf w) = es := by
    rw [htr] at h3 ⊢
    simp only [pathOf, trace, ← h4, ← h3', ← h2] at h3 ⊢
    generalize tableOf 0 (m pml4 (idxPml4 v)) = o4 at h3 ⊢
    rcases o4 with _ | pdpt
    · rfl
    simp only [Option.elim_some] at h3 ⊢
    generalize tableOf (0 + 1) (m pdpt (idxPdpt v)) = o3 at h3 ⊢
    rcases o3 with _ | pd
    · rfl
    simp only [Option.elim_some] at h3 ⊢
    generalize tableOf (0 + 1 + 1) (m pd (idxPd v)) = o2 at h3 ⊢
    rcases o2 with _ | pt
    · rfl
    · simp at h3
  simp [pageEntries, hw, hm]

theorem xor_one_mod_two (n : Nat) : (n ^^^ 1) % 2 = (n % 2 + 1) % 2 := by
  have h := Nat.testBit_xor n 1 0
  simp only [Nat.testBit_zero] at h
  rcases Nat.mod_two_eq_zero_or_one n with h0 | h0 <;>
    rcases Nat.mod_two_eq_zero_or_one (n ^^^ 1) with h1 | h1 <;> simp [h0, h1] at h ⊢

theorem exists_neighbour (w : Word) : ∃ v, pathOf v ≠ pathOf w ∧ sharedLevels v w = 3 := by
  have hi : ∀ k, 13 ≤ k → index (w ^^^ 0x1000#64) k = index w k := by
    intro k hk
    have h0 : 0x1000#64 >>> k = 0#64 := by
      apply BitVec.eq_of_toNat_eq
      rw [BitVec.toNat_ushiftRight, Nat.shiftRight_eq_div_pow]
      exact Nat.div_eq_of_lt (Nat.lt_of_lt_of_le (m := 2 ^ 13) (by decide)
        (Nat.pow_le_pow_right (by decide) hk))
    simp only [index, BitVec.ushiftRight_xor_distrib, h0, BitVec.xor_zero]
  refine ⟨w ^^^ 0x1000#64, fun h => ?_, ?_⟩
  · have hpt : idxPt (w ^^^ 0x1000#64) = idxPt w := by
      simp only [pathOf, List.cons.injEq] at h
      exact h.2.2.2.1
    have hbit := congrArg (·.val % 2) hpt
    simp only [idxPt, index_toNat, BitVec.toNat_xor] at hbit
    have hx : (w.toNat ^^^ (0x1000#64).toNat) / 2 ^ 12 = (w.toNat / 2 ^ 12) ^^^ 1 := by
      rw [← Nat.shiftRight_eq_div_pow, Nat.shiftRight_xor_distrib, Nat.shiftRight_eq_div_pow]
      rfl
    rw [hx] at hbit
    have h2 := xor_one_mod_two (w.toNat / 2 ^ 12)
    omega
  · simp [sharedLevels, idxPml4, idxPdpt, idxPd, hi]

-- ---------------------------------------------------------------------------
-- The condition is exact
-- ---------------------------------------------------------------------------

/-- A mapping leaves the rights of every other page as they were, or less, exactly when the
tables meet `GrantsOnly`. -/
theorem pagingMapPageOn_rights_iff (hw : WellFormed s pml4)
    (h : pagingMapPageOn s pml4 virt phys flags = (0, s')) :
    (∀ v, pathOf v ≠ pathOf virt →
      (pageHas s'.mem pml4 v PAGE_USER = true → pageHas s.mem pml4 v PAGE_USER = true) ∧
      (pageHas s'.mem pml4 v PAGE_RW = true → pageHas s.mem pml4 v PAGE_RW = true)) ↔
      GrantsOnly s.mem pml4 virt flags := by
  obtain ⟨-, ⟨hret, -⟩ | ⟨-, -, ptNew, hal, hother⟩⟩ := pagingMapPageOn_spec hw h
  · cases hret
  have hpage : ∀ v, pathOf v ≠ pathOf virt → ∀ flag, pageHas s'.mem pml4 v flag =
      (pageEntries s.mem pml4 (pathOf v)).elim false
        (fun es => allHave flag (mapOther flags ptNew virt (pathOf v) es)) := by
    intro v hv flag
    rw [pageHas, hother (pathOf v) rfl hv]
    cases pageEntries s.mem pml4 (pathOf v) <;> rfl
  constructor
  · intro hall
    refine ⟨fun hu v hv es hes hdrop => ?_, fun es hes h3 htake => ?_⟩
    · have hafter : pageHas s'.mem pml4 v PAGE_USER = true := by
        rw [hpage v hv, hes, Option.elim_some,
          mapOther_user (mapped_length (pageEntries_some hes).2) hu, hdrop]
      have hbefore := (hall v hv).1 hafter
      rw [pageHas, hes, Option.elim_some, allHave,
        ← List.take_append_drop (sharedLevels v virt) es, List.all_append, Bool.and_eq_true] at hbefore
      exact hbefore.1
    · obtain ⟨v, hv, hshared⟩ := exists_neighbour virt
      have hes' : pageEntries s.mem pml4 (pathOf v) = some es := by
        have hback : sharedLevels virt v = 3 := by
          obtain ⟨h4, h3, h2⟩ := sharedLevels_eq_three hshared
          simp [sharedLevels, h4, h3, h2]
        exact pageEntries_huge hback hes h3
      have hafter : pageHas s'.mem pml4 v PAGE_RW = true := by
        rw [hpage v hv, hes', Option.elim_some, mapOther_rw (.inl h3), if_pos ⟨hshared, h3⟩, htake]
      have hbefore := (hall v hv).2 hafter
      rwa [pageHas, hes', Option.elim_some] at hbefore
  · intro hc v hv
    rw [hpage v hv, hpage v hv]
    cases hes : pageEntries s.mem pml4 (pathOf v) with
    | none => simp
    | some es =>
      have hlen := mapped_length (pageEntries_some hes).2
      simp only [Option.elim_some, pageHas, hes]
      refine ⟨fun ha => ?_, fun ha => ?_⟩
      · cases hu : has flags PAGE_USER with
        | false => exact user_of_mapOther hlen hal hu ha
        | true =>
          rw [mapOther_user hlen hu] at ha
          rw [allHave, ← List.take_append_drop (sharedLevels v virt) es, List.all_append,
            Bool.and_eq_true]
          exact ⟨hc.user hu v hv es hes ha, ha⟩
      · rw [mapOther_rw hlen] at ha
        split at ha
        · rename_i h3
          exact hc.writable es (pageEntries_huge h3.1 hes h3.2) h3.2 ha
        · exact ha

/-- A kernel page in the second GiB, where the boot tables map nothing. -/
theorem boot_rights_kept :
    GrantsOnly bootMachine.mem 0x1000#64 0x40000000#64 PAGE_RW ∧
    ∀ v, pathOf v ≠ pathOf 0x40000000#64 →
      let s' := (pagingMapPageOn bootMachine 0x1000#64 0x40000000#64 0x300000#64 PAGE_RW).2
      (pageHas s'.mem 0x1000#64 v PAGE_USER = true →
        pageHas bootMachine.mem 0x1000#64 v PAGE_USER = true) ∧
      (pageHas s'.mem 0x1000#64 v PAGE_RW = true →
        pageHas bootMachine.mem 0x1000#64 v PAGE_RW = true) := by
  have hret : (pagingMapPageOn bootMachine 0x1000#64 0x40000000#64 0x300000#64 PAGE_RW).1 = 0 := by
    decide +kernel
  have hnone : pageEntries bootMachine.mem 0x1000#64 (pathOf 0x40000000#64) = none := by
    decide +kernel
  have hc : GrantsOnly bootMachine.mem 0x1000#64 0x40000000#64 PAGE_RW :=
    ⟨nofun, fun es hes => by simp [hnone] at hes⟩
  rcases h : pagingMapPageOn bootMachine 0x1000#64 0x40000000#64 0x300000#64 PAGE_RW with ⟨r, s'⟩
  rw [h] at hret
  cases hret
  exact ⟨hc, (pagingMapPageOn_rights_iff boot_wellFormed h).mpr hc⟩

/-- The boot tables map 0x401000 for the kernel only; mapping the page before it for ring 3
opens it, and the 510 pages after it. -/
theorem pagingMapPageOn_grants_others :
    ¬ ∀ (s : Machine) (pml4 virt phys flags : Word) (s' : Machine), WellFormed s pml4 →
      pagingMapPageOn s pml4 virt phys flags = (0, s') → ∀ v, pathOf v ≠ pathOf virt →
        (pageHas s'.mem pml4 v PAGE_USER = true → pageHas s.mem pml4 v PAGE_USER = true) ∧
        (pageHas s'.mem pml4 v PAGE_RW = true → pageHas s.mem pml4 v PAGE_RW = true) := by
  intro hall
  have hret : (pagingMapPageOn bootMachine 0x1000#64 0x400000#64 0x300000#64 0x6#64).1 = 0 := by
    decide +kernel
  have hafter : pageHas (pagingMapPageOn bootMachine 0x1000#64 0x400000#64 0x300000#64 0x6#64).2.mem
      0x1000#64 0x401000#64 PAGE_USER = true := by decide +kernel
  have hbefore : pageHas bootMachine.mem 0x1000#64 0x401000#64 PAGE_USER = false := by
    decide +kernel
  have hne : pathOf 0x401000#64 ≠ pathOf 0x400000#64 := by decide
  rcases h : pagingMapPageOn bootMachine 0x1000#64 0x400000#64 0x300000#64 0x6#64 with ⟨r, s'⟩
  rw [h] at hret hafter
  cases hret
  have := (hall _ _ _ _ _ _ boot_wellFormed h _ hne).1 hafter
  rw [hbefore] at this
  cases this

end EponaOS.Mm
