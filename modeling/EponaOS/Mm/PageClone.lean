import EponaOS.Lib.Run
import EponaOS.Mm.PageRights

/-!
# A clone next to the address space it was made from

`paging_clone_current` copies the PML4 only, so the two address spaces share every table
below the slots that were in use. Mapping a page of the clone writes the tables on the
way to that page and fresh frames. Behind a slot that was free in the original these
tables are the clone's own; behind a slot in use they are the original's tables.
-/

namespace EponaOS.Mm

open TableTrie

variable {s s' s'' : Machine} {pml4 orig t : Word} {p q path : List Index} {i j : Index}

-- ---------------------------------------------------------------------------
-- What mapping a page can write
-- ---------------------------------------------------------------------------

/-- From `s` to `s'` only entries on the walk along `path` and tables of fresh frames were
written: no frame was given back, and no table known before moved. -/
structure WritesOn (pml4 : Word) (path : List Index) (s s' : Machine) : Prop where
  held : ∀ a, s.pmm.Held a → s'.pmm.Held a
  tables : ∀ q a, s.pmm.Held a → reach tableOf s'.mem 0 pml4 q = some a →
    reach tableOf s.mem 0 pml4 q = some a
  writes : ∀ t j, s.pmm.Held t →
    (∀ p, p ++ [j] <+: path → reach tableOf s.mem 0 pml4 p ≠ some t) →
    s'.mem t j = s.mem t j

theorem WritesOn.refl : WritesOn pml4 path s s := ⟨fun _ h => h, fun _ _ _ h => h, fun _ _ _ _ => rfl⟩

theorem WritesOn.trans (h1 : WritesOn pml4 path s s') (h2 : WritesOn pml4 path s' s'') :
    WritesOn pml4 path s s'' := by
  refine ⟨fun a ha => h2.held a (h1.held a ha), fun q a ha hq => ?_, fun t j ht hoff => ?_⟩
  · exact h1.tables q a ha (h2.tables q a (h1.held a ha) hq)
  · rw [h2.writes t j (h1.held t ht) fun p hp hr => hoff p hp (h1.tables p t ht hr), h1.writes t j ht hoff]

theorem WritesOn.setEntry (hw : WellFormed s pml4) (hp : reach tableOf s.mem 0 pml4 p = some t)
    (hon : p ++ [i] <+: path) (he : tableOf p.length e = tableOf p.length (s.mem t i))
    (hmem : s'.mem = TableTrie.setEntry s.mem t i e) (hpmm : s'.pmm = s.pmm) :
    WritesOn pml4 path s s' := by
  refine ⟨fun a ha => hpmm ▸ ha, fun q a _ hq => ?_, fun t' j _ hoff => ?_⟩
  · rwa [hmem, reach_setEntry_keep hw.tree hp he] at hq
  · rw [hmem]
    apply setEntry_ne
    rintro ⟨rfl, rfl⟩
    exact hoff p hon hp

theorem WritesOn.linkTable (hw : WellFormed s pml4) (hp : reach tableOf s.mem 0 pml4 p = some t)
    (hon : p ++ [i] <+: path) (ht' : ¬ s.pmm.Held t') (he : tableOf p.length e = some t')
    (hf : ∀ j, tableOf (p.length + 1) (f j) = none)
    (hmem : s'.mem = TableTrie.linkTable s.mem t i e t' f)
    (hheld : ∀ a, s.pmm.Held a → s'.pmm.Held a) : WritesOn pml4 path s s' := by
  have hnew : ∀ q, reach tableOf s.mem 0 pml4 q ≠ some t' := fun q hq => ht' (hw.held q t' hq)
  refine ⟨hheld, fun q a ha hq => ?_, fun t'' j ht'' hoff => ?_⟩
  · rw [hmem] at hq
    obtain ⟨-, rfl⟩ | ⟨-, hq⟩ := reach_linkTable_cases hw.tree hp hnew he hf hq
    · exact absurd ha ht'
    · exact hq
  · have hne : t'' ≠ t' := by
      rintro rfl
      exact ht' ht''
    rw [hmem, TableTrie.linkTable, setEntry_ne, fillTable_ne _ _ hne]
    rintro ⟨rfl, rfl⟩
    exact hoff p hon hp

theorem grantUser_writesOn (flags : Word) (hw : WellFormed s pml4) (hp : reach tableOf s.mem 0 pml4 p = some t)
    (hon : p ++ [i] <+: path) : WritesOn pml4 path s (grantUser s t i flags) :=
  .setEntry hw hp hon (tableOf_grant ..) (grantUser_mem ..) (grantUser_pmm ..)

theorem pagingGetOrCreateTable_writesOn (hw : WellFormed s pml4)
    (hp : reach tableOf s.mem 0 pml4 p = some t) (hn : p.length < 3) (hon : p ++ [i] <+: path)
    (h : pagingGetOrCreateTable s t i flags = (c, s')) : WritesOn pml4 path s s' := by
  unfold pagingGetOrCreateTable at h
  split at h
  · cases h
    exact .refl
  split at h
  rename_i a pmm halloc
  split at h
  · cases h
    exact ⟨fun x => pmmAlloc_held halloc, fun _ _ _ hq => hq, fun _ _ _ _ => rfl⟩
  rename_i ha
  cases h
  obtain ⟨hal, -⟩ := pmmAlloc_table hw halloc ha
  have he : tableOf p.length (linkEntry c flags) = some c := by
    rw [tableOf_present hn (linkEntry_huge hal) linkEntry_present, addr_linkEntry hal]
  exact .linkTable hw hp hon (pmmAlloc_fresh halloc ha).1 he (fun _ => tableOf_absent (zero_has _))
    rfl fun x => pmmAlloc_held halloc

theorem splitHuge_writesOn (hw : WellFormed s pml4) (hp : reach tableOf s.mem 0 pml4 p = some t)
    (h2 : p.length = 2) (hon : p ++ [i] <+: path)
    (h : splitHuge s t i (flags &&& PAGE_USER) = (ok, s')) : WritesOn pml4 path s s' := by
  unfold splitHuge at h
  split at h
  · split at h
    rename_i a pmm halloc
    split at h
    · cases h
      exact ⟨fun x => pmmAlloc_held halloc, fun _ _ _ hq => hq, fun _ _ _ _ => rfl⟩
    rename_i ha
    cases h
    obtain ⟨hal, -⟩ := pmmAlloc_table hw halloc ha
    have he : tableOf p.length (linkEntry a flags) = some a := by
      rw [tableOf_present (by omega) (linkEntry_huge hal) linkEntry_present, addr_linkEntry hal]
    have hf : ∀ j, tableOf (p.length + 1) (splitEntry (addr (s.mem t i)) (flags &&& PAGE_USER) j) =
        none := by
      rw [h2]
      exact fun _ => rfl
    exact .linkTable hw hp hon (pmmAlloc_fresh halloc ha).1 he hf rfl fun x => pmmAlloc_held halloc
  · cases h
    exact .refl

/-- A relation that each step of `paging_map_page_on` keeps, at any table on the walk to `virt`. -/
structure MapSteps (pml4 virt flags : Word) (R : Machine → Machine → Prop) : Prop where
  trans : ∀ s s' s'', R s s' → R s' s'' → R s s''
  create : ∀ s p t i c s', WellFormed s pml4 → reach tableOf s.mem 0 pml4 p = some t → p.length < 3 →
    p ++ [i] <+: pathOf virt → pagingGetOrCreateTable s t i (flags &&& PAGE_USER) = (c, s') → R s s'
  grant : ∀ s p t i, WellFormed s pml4 → reach tableOf s.mem 0 pml4 p = some t →
    p ++ [i] <+: pathOf virt → R s (grantUser s t i flags)
  split : ∀ s p t i ok s', WellFormed s pml4 → reach tableOf s.mem 0 pml4 p = some t → p.length = 2 →
    p ++ [i] <+: pathOf virt → splitHuge s t i (flags &&& PAGE_USER) = (ok, s') → R s s'
  page : ∀ s p t i e, WellFormed s pml4 → reach tableOf s.mem 0 pml4 p = some t → p.length = 3 →
    p ++ [i] <+: pathOf virt → R s { s with mem := TableTrie.setEntry s.mem t i e }

theorem pagingMapPageOn_steps (hR : MapSteps pml4 virt flags R) (hw : WellFormed s pml4)
    (h : pagingMapPageOn s pml4 virt phys flags = (ret, s')) : R s s' := by
  have hon4 : [] ++ [idxPml4 virt] <+: pathOf virt := ⟨_, rfl⟩
  have hon3 : [idxPml4 virt] ++ [idxPdpt virt] <+: pathOf virt := ⟨_, rfl⟩
  have hon2 : [idxPml4 virt, idxPdpt virt] ++ [idxPd virt] <+: pathOf virt := ⟨_, rfl⟩
  have hon1 : [idxPml4 virt, idxPdpt virt, idxPd virt] ++ [idxPt virt] <+: pathOf virt := ⟨_, rfl⟩
  unfold pagingMapPageOn at h
  dsimp only at h
  rcases h1 : pagingGetOrCreateTable s pml4 (idxPml4 virt) (flags &&& PAGE_USER) with ⟨pdpt, s1⟩
  rw [h1] at h
  dsimp only at h
  obtain ⟨hw1, hp1, -, hc1⟩ := pagingGetOrCreateTable_spec hw (p := []) rfl (by simp) (by simp) h1
  have hon := hR.create s [] _ _ _ _ hw rfl (by simp) hon4 h1
  split at h
  · cases h
    exact hon
  rename_i hpdpt
  have hw2 := grantUser_wellFormed flags (i := idxPml4 virt) hw1 hp1
  have hp2 := (grantUser_reach flags (i := idxPml4 virt) hw1 hp1 _).trans (hc1 hpdpt)
  replace hon := hR.trans _ _ _ hon (hR.grant _ _ _ _ hw1 hp1 hon4)
  rcases h3 : pagingGetOrCreateTable (grantUser s1 pml4 (idxPml4 virt) flags) pdpt (idxPdpt virt)
    (flags &&& PAGE_USER) with ⟨pd, s3⟩
  rw [h3] at h
  dsimp only at h
  obtain ⟨hw3, hp3, -, hc3⟩ := pagingGetOrCreateTable_spec hw2 hp2 (by simp) (by simp) h3
  replace hon := hR.trans _ _ _ hon (hR.create _ _ _ _ _ _ hw2 hp2 (by simp) hon3 h3)
  split at h
  · cases h
    exact hon
  rename_i hpd
  have hw4 := grantUser_wellFormed flags (i := idxPdpt virt) hw3 hp3
  have hp4 := (grantUser_reach flags (i := idxPdpt virt) hw3 hp3 _).trans (hc3 hpd)
  replace hon := hR.trans _ _ _ hon (hR.grant _ _ _ _ hw3 hp3 hon3)
  rcases h5 : splitHuge (grantUser s3 pdpt (idxPdpt virt) flags) pd (idxPd virt)
    (flags &&& PAGE_USER) with ⟨ok, s5⟩
  rw [h5] at h
  dsimp only at h
  obtain ⟨hw5, hp5, -, hok5⟩ := splitHuge_spec hw4 hp4 rfl h5
  replace hon := hR.trans _ _ _ hon (hR.split _ _ _ _ _ _ hw4 hp4 rfl hon2 h5)
  split at h
  · cases h
    exact hon
  rename_i hok
  obtain ⟨hh5, -⟩ := hok5 (by simpa using hok)
  have hw6 := grantUser_wellFormed flags (i := idxPd virt) hw5 hp5
  have hp6 := (grantUser_reach flags (i := idxPd virt) hw5 hp5 _).trans hp5
  have hh6 : has ((grantUser s5 pd (idxPd virt) flags).mem pd (idxPd virt)) PAGE_HUGE = false := by
    rw [grantUser_mem, setEntry_same, grant_huge, hh5]
  replace hon := hR.trans _ _ _ hon (hR.grant _ _ _ _ hw5 hp5 hon2)
  rcases h7 : pagingGetOrCreateTable (grantUser s5 pd (idxPd virt) flags) pd (idxPd virt)
    (flags &&& PAGE_USER) with ⟨pt, s7⟩
  rw [h7] at h
  dsimp only at h
  obtain ⟨hw7, -, -, hc7⟩ := pagingGetOrCreateTable_spec hw6 hp6 (by simp) (fun _ => hh6) h7
  replace hon := hR.trans _ _ _ hon (hR.create _ _ _ _ _ _ hw6 hp6 (by simp) hon2 h7)
  split at h
  · cases h
    exact hon
  rename_i hpt
  cases h
  exact hR.trans _ _ _ hon (hR.page _ _ _ _ _ hw7 (hc7 hpt) rfl hon1)

/-- `paging_map_page_on` writes on the walk to `virt` only. -/
theorem pagingMapPageOn_writesOn (hw : WellFormed s pml4)
    (h : pagingMapPageOn s pml4 virt phys flags = (ret, s')) :
    WritesOn pml4 (pathOf virt) s s' := by
  refine pagingMapPageOn_steps ⟨fun _ _ _ => .trans, ?_, ?_, ?_, ?_⟩ hw h
  · exact fun s p t i c s' hw hp hn hon => pagingGetOrCreateTable_writesOn hw hp hn hon
  · exact fun s p t i hw hp hon => grantUser_writesOn flags hw hp hon
  · exact fun s p t i ok s' hw hp h2 hon => splitHuge_writesOn hw hp h2 hon
  · intro s p t i e hw hp h3 hon
    refine .setEntry (e := e) hw hp hon ?_ rfl rfl
    rw [h3, tableOf_three, tableOf_three]

structure WritesHeld (s s' : Machine) : Prop where
  held : ∀ a, s.pmm.Held a → s'.pmm.Held a
  writes : ∀ t, ¬ s'.pmm.Held t → s'.mem t = s.mem t

theorem WritesHeld.trans (h1 : WritesHeld s s') (h2 : WritesHeld s' s'') : WritesHeld s s'' :=
  ⟨fun a ha => h2.held a (h1.held a ha), fun t ht =>
    (h2.writes t ht).trans (h1.writes t fun h => ht (h2.held t h))⟩

theorem WritesHeld.setEntry (ht : s.pmm.Held t) (hmem : s'.mem = TableTrie.setEntry s.mem t i e)
    (hpmm : s'.pmm = s.pmm) : WritesHeld s s' := by
  refine ⟨fun a ha => hpmm ▸ ha, fun t' ht' => ?_⟩
  rw [hmem, setEntry_table_ne]
  rintro rfl
  exact ht' (hpmm ▸ ht)

theorem WritesHeld.linkTable (ht : s.pmm.Held t) (halloc : pmmAlloc s.pmm = (a, pmm)) (ha : a ≠ 0) :
    WritesHeld s { s with mem := TableTrie.linkTable s.mem t i e a f, pmm } := by
  refine ⟨fun _ => pmmAlloc_held halloc, fun t' ht' => ?_⟩
  have hne : t' ≠ a := by
    rintro rfl
    exact ht' (pmmAlloc_fresh halloc ha).2
  have hne' : t' ≠ t := by
    rintro rfl
    exact ht' (pmmAlloc_held halloc ht)
  show TableTrie.linkTable s.mem t i e a f t' = s.mem t'
  rw [TableTrie.linkTable, setEntry_table_ne _ _ _ hne', fillTable_ne _ _ hne]

theorem pagingMapPageOn_writesHeld (hw : WellFormed s pml4)
    (h : pagingMapPageOn s pml4 virt phys flags = (ret, s')) : WritesHeld s s' := by
  refine pagingMapPageOn_steps ⟨fun _ _ _ => .trans, ?_, ?_, ?_, ?_⟩ hw h
  · intro s p t i c s' hw hp _ _ h
    unfold pagingGetOrCreateTable at h
    split at h
    · cases h
      exact ⟨fun _ ha => ha, fun _ _ => rfl⟩
    split at h
    rename_i a pmm halloc
    split at h
    · cases h
      exact ⟨fun _ => pmmAlloc_held halloc, fun _ _ => rfl⟩
    · rename_i ha
      cases h
      exact .linkTable (hw.held p t hp) halloc ha
  · exact fun s p t i hw hp _ => .setEntry (hw.held p t hp) (grantUser_mem ..) (grantUser_pmm ..)
  · intro s p t i ok s' hw hp _ _ h
    unfold splitHuge at h
    split at h
    · split at h
      rename_i a pmm halloc
      split at h
      · cases h
        exact ⟨fun _ => pmmAlloc_held halloc, fun _ _ => rfl⟩
      · rename_i ha
        cases h
        exact .linkTable (hw.held p t hp) halloc ha
    · cases h
      exact ⟨fun _ ha => ha, fun _ _ => rfl⟩
  · exact fun s p t i e hw hp _ _ => .setEntry (hw.held p t hp) rfl rfl

-- ---------------------------------------------------------------------------
-- Mapping a page again
-- ---------------------------------------------------------------------------

/-- The page of `virt` is mapped just as the call would map it: below the PML4 the call
finds every bit that it writes. -/
def AlreadyMapped (m : PhysMem) (pml4 virt phys flags : Word) : Prop :=
  ∃ e4 e3 e2, pageEntries m pml4 (pathOf virt) = some [e4, e3, e2, addr phys ||| (flags ||| PAGE_PRESENT)] ∧
    grant flags e3 = e3 ∧ grant flags e2 = e2

theorem setEntry_id (m : PhysMem) (t : Word) (i : Index) : setEntry m t i (m t i) = m := by
  funext t' i'
  unfold setEntry
  split
  · rename_i h
    rw [h.1, h.2]
  · rfl

theorem grantUser_same (h : grant flags (s.mem t i) = s.mem t i) : grantUser s t i flags = s := by
  have hmem := grantUser_mem s t i flags
  rw [h, setEntry_id] at hmem
  unfold grantUser at hmem ⊢
  split
  · rename_i hu
    rw [if_pos hu] at hmem
    change { s with mem := _ } = s
    rw [show setEntry s.mem t i (s.mem t i ||| PAGE_USER) = s.mem from hmem]
  · rfl

theorem trace_four (h : trace tableOf m 0 pml4 (pathOf virt) = [e4, e3, e2, e1]) :
    e4 = m pml4 (idxPml4 virt) ∧ e3 = m (addr e4) (idxPdpt virt) ∧ e2 = m (addr e3) (idxPd virt) ∧
      e1 = m (addr e2) (idxPt virt) ∧ has e4 PAGE_PRESENT = true ∧ has e3 PAGE_PRESENT = true ∧
      has e2 PAGE_PRESENT = true ∧ has e2 PAGE_HUGE = false := by
  simp only [pathOf, trace, Nat.zero_add, Nat.reduceAdd, List.cons.injEq] at h
  obtain ⟨rfl, h⟩ := h
  rcases h4 : tableOf 0 (m pml4 (idxPml4 virt)) with _ | pdpt
  · simp [h4] at h
  obtain ⟨hp4, rfl, -⟩ := tableOf_cases h4
  simp only [h4, Option.elim_some, List.cons.injEq] at h
  obtain ⟨rfl, h⟩ := h
  rcases h3 : tableOf 1 (m (addr (m pml4 (idxPml4 virt))) (idxPdpt virt)) with _ | pd
  · simp [h3] at h
  obtain ⟨hp3, rfl, -⟩ := tableOf_cases h3
  simp only [h3, Option.elim_some, List.cons.injEq] at h
  obtain ⟨rfl, h⟩ := h
  rcases h2 : tableOf 2 (m (addr (m (addr (m pml4 (idxPml4 virt))) (idxPdpt virt))) (idxPd virt))
    with _ | pt
  · simp [h2] at h
  obtain ⟨hp2, rfl, hh2⟩ := tableOf_cases h2
  simp only [h2, Option.elim_some, List.cons.injEq] at h
  exact ⟨rfl, rfl, rfl, h.1.symm, hp4, hp3, hp2, hh2 rfl⟩

theorem grantUser_mem_ne (ht : t' ≠ t) : (grantUser s t i flags).mem t' = s.mem t' := by
  rw [grantUser_mem, setEntry_table_ne _ _ _ ht]

theorem pagingMapPageOn_again (hw : WellFormed s pml4)
    (h : AlreadyMapped s.mem pml4 virt phys flags) :
    (pagingMapPageOn s pml4 virt phys flags).2 = s ∨
      (pagingMapPageOn s pml4 virt phys flags).2 = grantUser s pml4 (idxPml4 virt) flags := by
  obtain ⟨e4, e3, e2, hes, hg3, hg2⟩ := h
  obtain ⟨h4, h3, h2, h1, hp4, hp3, hp2, hh2⟩ := trace_four (pageEntries_some hes).1.symm
  have hr4 : reach tableOf s.mem 0 pml4 [idxPml4 virt] = some (addr e4) := by
    simp [reach, ← h4, tableOf, hp4]
  have hr3 : reach tableOf s.mem 0 pml4 [idxPml4 virt, idxPdpt virt] = some (addr e3) := by
    simp [reach, ← h4, ← h3, tableOf, hp4, hp3]
  have hr2 : reach tableOf s.mem 0 pml4 [idxPml4 virt, idxPdpt virt, idxPd virt] =
      some (addr e2) := by
    simp [reach, ← h4, ← h3, ← h2, tableOf, hp4, hp3, hp2, hh2]
  -- the tables below are not the PML4, so granting there does not touch them
  have hbelow : ∀ q t, q ≠ [] → reach tableOf s.mem 0 pml4 q = some t →
      (grantUser s pml4 (idxPml4 virt) flags).mem t = s.mem t := by
    intro q t hq ht
    apply grantUser_mem_ne
    rintro rfl
    exact hq (hw.tree q [] t ht rfl)
  have hm4 := hbelow _ _ (by simp) hr4
  have hm3 := hbelow _ _ (by simp) hr3
  have hm2 := hbelow _ _ (by simp) hr2
  unfold pagingMapPageOn
  have hget4 : pagingGetOrCreateTable s pml4 (idxPml4 virt) (flags &&& PAGE_USER) =
      (addr e4, s) := by
    simp [pagingGetOrCreateTable, ← h4, hp4]
  simp only [hget4]
  split
  · exact .inl rfl
  generalize grantUser s pml4 (idxPml4 virt) flags = s1 at hm4 hm3 hm2 ⊢
  right
  have hget3 : pagingGetOrCreateTable s1 (addr e4) (idxPdpt virt) (flags &&& PAGE_USER) =
      (addr e3, s1) := by
    simp [pagingGetOrCreateTable, hm4, ← h3, hp3]
  have hgrant3 : grantUser s1 (addr e4) (idxPdpt virt) flags = s1 := by
    apply grantUser_same
    rw [hm4, ← h3, hg3]
  have hsplit : splitHuge s1 (addr e3) (idxPd virt) (flags &&& PAGE_USER) = (true, s1) := by
    simp [splitHuge, hm3, ← h2, hh2]
  have hget2 : pagingGetOrCreateTable s1 (addr e3) (idxPd virt) (flags &&& PAGE_USER) =
      (addr e2, s1) := by
    simp [pagingGetOrCreateTable, hm3, ← h2, hp2]
  have hgrant2 : grantUser s1 (addr e3) (idxPd virt) flags = s1 := by
    apply grantUser_same
    rw [hm3, ← h2, hg2]
  have hset : setEntry s1.mem (addr e2) (idxPt virt) (addr phys ||| (flags ||| PAGE_PRESENT)) =
      s1.mem := by
    rw [h1, ← hm2, setEntry_id]
  simp only [hget3, hgrant3, hsplit, hgrant2, hget2, hset, Bool.not_true, Bool.false_eq_true,
    if_false]
  split
  · rfl
  split <;> rfl

-- ---------------------------------------------------------------------------
-- The clone
-- ---------------------------------------------------------------------------

/-- `m0` is the memory before the clone was made: its tables below `orig` are as they were,
and the clone shares them below the slots in use and no others. -/
structure Isolated (m0 : PhysMem) (orig clone : Word) (s : Machine) : Prop where
  wellFormed : WellFormed s clone
  held : s.pmm.Held orig
  apart : ∀ q, reach tableOf s.mem 0 clone q ≠ some orig
  same : ∀ q t, reach tableOf m0 0 orig q = some t → s.mem t = m0 t
  shared : ∀ i, has (m0 orig i) PAGE_PRESENT = true → tableOf 0 (s.mem clone i) = tableOf 0 (m0 orig i)

section
variable {m0 : PhysMem} {clone : Word}

theorem Isolated.reach_shared (hI : Isolated m0 orig clone s)
    (h : reach tableOf m0 0 orig (i :: q) = some t) :
    has (m0 orig i) PAGE_PRESENT = true ∧ reach tableOf s.mem 0 clone (i :: q) = some t := by
  rcases h0 : tableOf 0 (m0 orig i) with _ | t0
  · simp [reach, h0] at h
  have hi := (tableOf_cases h0).1
  refine ⟨hi, ?_⟩
  rw [← h]
  simp only [reach, hI.shared i hi, h0, Option.bind_some]
  refine (walk_congr fun r j u a _ ha => congrFun (hI.same (i :: r) a ?_) j).1
  simp [reach, h0, ha]

theorem Isolated.trace (hI : Isolated m0 orig clone s) (q : List Index) :
    trace tableOf s.mem 0 orig q = TableTrie.trace tableOf m0 0 orig q :=
  (walk_congr fun r j _ a _ ha => congrFun (hI.same r a ha) j).2

theorem Isolated.entry (hI : Isolated m0 orig clone s) (i : Index) : s.mem orig i = m0 orig i :=
  congrFun (hI.same [] orig rfl) i

theorem Isolated.step_free (hI : Isolated m0 orig clone s)
    (hfree : has (s.mem orig (idxPml4 virt)) PAGE_PRESENT = false)
    (h : pagingMapPageOn s clone virt phys flags = (ret, s')) : Isolated m0 orig clone s' := by
  rw [hI.entry] at hfree
  have hon := pagingMapPageOn_writesOn hI.wellFormed h
  refine ⟨(pagingMapPageOn_spec hI.wellFormed h).1, hon.held _ hI.held,
    fun q hq => hI.apart q (hon.tables q orig hI.held hq), fun q t ht => ?_, fun i hi => ?_⟩
  · rw [← hI.same q t ht]
    funext j
    rcases q with _ | ⟨i, q⟩
    · cases ht
      exact hon.writes orig j hI.held fun p _ => hI.apart p
    · obtain ⟨hi, hr⟩ := hI.reach_shared ht
      refine hon.writes t j (hI.wellFormed.held _ t hr) fun p hp hpt => ?_
      obtain rfl := hI.wellFormed.tree _ _ t hpt hr
      have hidx : i = idxPml4 virt := by
        obtain ⟨r, hr⟩ := hp
        simp only [pathOf, List.cons_append, List.cons.injEq] at hr
        exact hr.1
      rw [hidx, hfree] at hi
      cases hi
  · rw [← hI.shared i hi, hon.writes clone i (hI.wellFormed.held [] clone rfl)]
    intro p hp hpt
    obtain rfl := hI.wellFormed.tree _ [] clone hpt rfl
    have hidx : i = idxPml4 virt := by
      obtain ⟨r, hr⟩ := hp
      simp only [pathOf, List.nil_append, List.cons_append, List.cons.injEq] at hr
      exact hr.1
    rw [hidx, hfree] at hi
    cases hi

theorem Isolated.step_again (hI : Isolated m0 orig clone s)
    (hm : AlreadyMapped s.mem clone virt phys flags) :
    Isolated m0 orig clone (pagingMapPageOn s clone virt phys flags).2 := by
  obtain heq | heq := pagingMapPageOn_again hI.wellFormed hm
  · rwa [heq]
  rw [heq]
  refine ⟨grantUser_wellFormed _ hI.wellFormed (p := []) rfl, ?_, fun q => ?_, fun q t ht => ?_,
    fun i hi => ?_⟩
  · rw [grantUser_pmm]
    exact hI.held
  · rw [grantUser_reach _ hI.wellFormed (p := []) rfl]
    exact hI.apart q
  · rw [← hI.same q t ht]
    apply grantUser_mem_ne
    rintro rfl
    rcases q with _ | ⟨i, q⟩
    · cases ht
      exact hI.apart [] rfl
    · have := hI.wellFormed.tree _ [] t (hI.reach_shared ht).2 rfl
      cases this
  · rw [← hI.shared i hi, grantUser_mem]
    unfold setEntry
    split
    · rename_i heq
      rw [tableOf_grant, heq.2]
    · rfl

end

theorem clone_walk (hnew : ∀ q, reach tableOf s.mem 0 pml4 q ≠ some clone) (i : Index)
    (q : List Index) :
    reach tableOf (fillTable s.mem clone (s.mem pml4)) 0 clone (i :: q) =
        reach tableOf s.mem 0 pml4 (i :: q) ∧
      trace tableOf (fillTable s.mem clone (s.mem pml4)) 0 clone (i :: q) =
        trace tableOf s.mem 0 pml4 (i :: q) := by
  simp only [reach, trace, fillTable_same]
  rcases h0 : tableOf 0 (s.mem pml4 i) with _ | t0
  · exact ⟨rfl, rfl⟩
  have hsame : ∀ r j u a, q = r ++ j :: u → reach tableOf s.mem (0 + 1) t0 r = some a →
      fillTable s.mem clone (s.mem pml4) a j = s.mem a j := by
    intro r j u a _ ha
    refine congrFun (fillTable_ne _ _ ?_) j
    rintro rfl
    exact hnew (i :: r) (by simp [reach, h0, ha])
  have hwalk := walk_congr hsame
  simp [hwalk.1, hwalk.2]

theorem clone_reach (hnew : ∀ q, reach tableOf s.mem 0 pml4 q ≠ some clone)
    (h : reach tableOf (fillTable s.mem clone (s.mem pml4)) 0 clone q = some t) :
    (q = [] ∧ t = clone) ∨ (q ≠ [] ∧ reach tableOf s.mem 0 pml4 q = some t) := by
  rcases q with _ | ⟨i, q⟩
  · cases h
    exact .inl ⟨rfl, rfl⟩
  · rw [(clone_walk hnew i q).1] at h
    exact .inr ⟨List.cons_ne_nil i q, h⟩

theorem pagingCloneCurrent_ok (h : pagingCloneCurrent s = (clone, s')) (hc : clone ≠ 0) :
    ∃ pmm, pmmAlloc s.pmm = (clone, pmm) ∧
      s' = { s with mem := fillTable s.mem clone (s.mem s.gPml4), pmm } := by
  rcases halloc : pmmAlloc s.pmm with ⟨a, pmm⟩
  simp only [pagingCloneCurrent, halloc] at h
  split at h
  · cases h
    exact absurd rfl hc
  · cases h
    exact ⟨pmm, rfl, rfl⟩

/-- Right after the call the clone is a tree of its own PML4 and the tables of the original. -/
theorem pagingCloneCurrent_isolated (hw : WellFormed s s.gPml4)
    (h : pagingCloneCurrent s = (clone, s')) (hc : clone ≠ 0) :
    Isolated s.mem s.gPml4 clone s' := by
  obtain ⟨pmm, halloc, rfl⟩ := pagingCloneCurrent_ok h hc
  obtain ⟨-, hnew, hheld, hmono⟩ := pmmAlloc_table hw halloc hc
  have hroot : reach tableOf s.mem 0 s.gPml4 [] = some s.gPml4 := rfl
  have hsame : ∀ q t, reach tableOf s.mem 0 s.gPml4 q = some t →
      fillTable s.mem clone (s.mem s.gPml4) t = s.mem t := by
    intro q t ht
    apply fillTable_ne
    rintro rfl
    exact hnew q ht
  refine ⟨⟨?_, ?_, ?_⟩, hmono _ (hw.held [] _ hroot), ?_, hsame,
    fun i _ => congrArg (tableOf 0) (congrFun (fillTable_same ..) i)⟩
  · intro p q a hp hq
    obtain ⟨rfl, rfl⟩ | ⟨-, hp'⟩ := clone_reach hnew hp
    · obtain ⟨rfl, -⟩ | ⟨-, hq'⟩ := clone_reach hnew hq
      · rfl
      · exact absurd hq' (hnew q)
    · obtain ⟨rfl, rfl⟩ | ⟨-, hq'⟩ := clone_reach hnew hq
      · exact absurd hp' (hnew p)
      · exact hw.tree p q a hp' hq'
  · intro q a hq
    obtain ⟨-, rfl⟩ | ⟨-, hq⟩ := clone_reach hnew hq
    · exact hheld
    · exact hmono a (hw.held q a hq)
  · intro q k e hlen hk
    rcases q with _ | ⟨i, q⟩
    · cases hlen
    · rw [(clone_walk hnew i q).2] at hk
      exact hw.entries (i :: q) k e hlen hk
  · intro q hq
    obtain ⟨-, ha⟩ | ⟨hne, hq⟩ := clone_reach hnew hq
    · exact hnew [] (ha ▸ rfl)
    · exact hne (hw.tree q [] _ hq hroot)

-- ---------------------------------------------------------------------------
-- Any number of calls
-- ---------------------------------------------------------------------------

/-- A call of `paging_map_page_on` on the clone. -/
structure MapCall where
  virt : Word
  phys : Word
  flags : Word

def mapOnClone (clone : Word) (s : Machine) (k : MapCall) (s' : Machine) : Prop :=
  (pagingMapPageOn s clone k.virt k.phys k.flags).2 = s'

/-- The call goes through a PML4 slot that is free in the original, or finds the page mapped
as it would map it. -/
def StaysApart (orig clone : Word) (s : Machine) (k : MapCall) : Prop :=
  has (s.mem orig (idxPml4 k.virt)) PAGE_PRESENT = false ∨
    AlreadyMapped s.mem clone k.virt k.phys k.flags

/-- As long as each call stays apart, the original keeps every translation and every right. -/
theorem clone_isolated (hw : WellFormed s s.gPml4) (h : pagingCloneCurrent s = (clone, s1))
    (hc : clone ≠ 0) (hrun : Run (mapOnClone clone) (StaysApart s.gPml4 clone) s1 calls s')
    (v : Word) :
    pagingGetPhysOn s'.mem s.gPml4 v = pagingGetPhysOn s.mem s.gPml4 v ∧
      ∀ flag, pageHas s'.mem s.gPml4 v flag = pageHas s.mem s.gPml4 v flag := by
  have hI : Isolated s.mem s.gPml4 clone s' := by
    apply hrun.invariant _ (pagingCloneCurrent_isolated hw h hc)
    rintro s k s' hI (hfree | hagain) rfl
    · exact hI.step_free hfree rfl
    · exact hI.step_again hagain
  have hpe := pageEntries_congr (hI.trace (pathOf v))
  refine ⟨?_, fun flag => ?_⟩
  · rw [pagingGetPhysOn_eq, pagingGetPhysOn_eq, hpe]
  · rw [pageHas, pageHas, hpe]

/-- The second PML4 slot is free in the boot tables: a page mapped there is the clone's own. -/
theorem boot_clone_isolated :
    (pagingMapPageOn (pagingCloneCurrent bootMachine).2 (pagingCloneCurrent bootMachine).1
      0x8000000000#64 0x300000#64 0x7#64).1 = 0 ∧
    ∀ v, pagingGetPhysOn (pagingMapPageOn (pagingCloneCurrent bootMachine).2
        (pagingCloneCurrent bootMachine).1 0x8000000000#64 0x300000#64 0x7#64).2.mem 0x1000#64 v =
      pagingGetPhysOn bootMachine.mem 0x1000#64 v := by
  refine ⟨by decide +kernel, fun v => ?_⟩
  have hc : (pagingCloneCurrent bootMachine).1 ≠ 0 := by decide +kernel
  rcases h : pagingCloneCurrent bootMachine with ⟨clone, s1⟩
  rw [h] at hc
  have hfree : has (s1.mem 0x1000#64 (idxPml4 0x8000000000#64)) PAGE_PRESENT = false := by
    have : has ((pagingCloneCurrent bootMachine).2.mem 0x1000#64 (idxPml4 0x8000000000#64))
        PAGE_PRESENT = false := by decide +kernel
    rwa [h] at this
  have hrun : Run (mapOnClone clone) (StaysApart bootMachine.gPml4 clone) s1
      [⟨0x8000000000#64, 0x300000#64, 0x7#64⟩] _ := .cons (.inl hfree) rfl .nil
  exact (clone_isolated boot_wellFormed h hc hrun v).1

/-- Loading a program at 0x400000 into a clone of the boot tables moves 0x400000 in both. -/
theorem clone_shares_tables :
    ¬ ∀ (s : Machine) (clone : Word) (s1 : Machine) (calls : List MapCall) (s' : Machine),
      WellFormed s s.gPml4 → pagingCloneCurrent s = (clone, s1) → clone ≠ 0 →
      Run (mapOnClone clone) (fun _ _ => True) s1 calls s' → ∀ v,
        pagingGetPhysOn s'.mem s.gPml4 v = pagingGetPhysOn s.mem s.gPml4 v ∧
          ∀ flag, pageHas s'.mem s.gPml4 v flag = pageHas s.mem s.gPml4 v flag := by
  intro hall
  have hc : (pagingCloneCurrent bootMachine).1 ≠ 0 := by decide +kernel
  have hbefore : pagingGetPhysOn bootMachine.mem 0x1000#64 0x400000#64 = 0x400000#64 := by
    decide +kernel
  have hafter : pagingGetPhysOn (pagingMapPageOn (pagingCloneCurrent bootMachine).2
      (pagingCloneCurrent bootMachine).1 0x400000#64 0x300000#64 0x7#64).2.mem
      0x1000#64 0x400000#64 = 0x300000#64 := by decide +kernel
  rcases h : pagingCloneCurrent bootMachine with ⟨clone, s1⟩
  rw [h] at hc hafter
  have := (hall bootMachine clone s1 [⟨0x400000#64, 0x300000#64, 0x7#64⟩] _ boot_wellFormed h hc
    (.cons trivial rfl .nil) 0x400000#64).1
  exact absurd (hafter.symm.trans (this.trans hbefore)) (by decide)

end EponaOS.Mm
