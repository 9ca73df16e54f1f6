import EponaOS.Mm.FrameAccounting
import EponaOS.Mm.PageStep

/-!
# The frames that mapping takes

Page tables come from the frame allocator, and `paging_map_page_on` does nothing else with
it: what every allocation keeps is kept by mapping a page. So the number of free frames
only goes down, and behind every frame taken there is one in use already.
-/

namespace EponaOS.Mm

open TableTrie

variable {P : Pmm → Prop} {s s' : Machine} {p p' : Pmm}

-- ---------------------------------------------------------------------------
-- What allocations keep
-- ---------------------------------------------------------------------------

theorem pagingGetOrCreateTable_keeps (hP : ∀ p, P p → P (pmmAlloc p).2) (h0 : P s.pmm)
    (h : pagingGetOrCreateTable s t i flags = (c, s')) : P s'.pmm := by
  unfold pagingGetOrCreateTable at h
  split at h
  · cases h
    exact h0
  split at h
  rename_i a pmm halloc
  have h1 := hP _ h0
  rw [halloc] at h1
  split at h <;> cases h <;> exact h1

theorem splitHuge_keeps (hP : ∀ p, P p → P (pmmAlloc p).2) (h0 : P s.pmm)
    (h : splitHuge s t i flags = (ok, s')) : P s'.pmm := by
  unfold splitHuge at h
  split at h
  · split at h
    rename_i a pmm halloc
    have h1 := hP _ h0
    rw [halloc] at h1
    split at h <;> cases h <;> exact h1
  · cases h
    exact h0

theorem grantUser_keeps (h0 : P s.pmm) : P (grantUser s t i flags).pmm := by
  rw [grantUser_pmm]
  exact h0

theorem pagingMapPageOn_keeps (hP : ∀ p, P p → P (pmmAlloc p).2) (h0 : P s.pmm)
    (h : pagingMapPageOn s pml4 virt phys flags = (ret, s')) : P s'.pmm := by
  unfold pagingMapPageOn at h
  dsimp only at h
  rcases h1 : pagingGetOrCreateTable s pml4 (idxPml4 virt) (flags &&& PAGE_USER) with ⟨pdpt, s1⟩
  rw [h1] at h
  dsimp only at h
  have f1 := pagingGetOrCreateTable_keeps hP h0 h1
  split at h
  · cases h
    exact f1
  rcases h3 : pagingGetOrCreateTable (grantUser s1 pml4 (idxPml4 virt) flags) pdpt (idxPdpt virt)
    (flags &&& PAGE_USER) with ⟨pd, s3⟩
  rw [h3] at h
  dsimp only at h
  have f3 := pagingGetOrCreateTable_keeps hP (grantUser_keeps f1) h3
  split at h
  · cases h
    exact f3
  rcases h5 : splitHuge (grantUser s3 pdpt (idxPdpt virt) flags) pd (idxPd virt)
    (flags &&& PAGE_USER) with ⟨ok, s5⟩
  rw [h5] at h
  dsimp only at h
  have f5 := splitHuge_keeps hP (grantUser_keeps f3) h5
  split at h
  · cases h
    exact f5
  rcases h7 : pagingGetOrCreateTable (grantUser s5 pd (idxPd virt) flags) pd (idxPd virt)
    (flags &&& PAGE_USER) with ⟨pt, s7⟩
  rw [h7] at h
  dsimp only at h
  have f7 := pagingGetOrCreateTable_keeps hP (grantUser_keeps f5) h7
  split at h <;> cases h <;> exact f7

theorem pagingMapPageOn_freeFrames (h : pagingMapPageOn s pml4 virt phys flags = (ret, s')) :
    s'.pmm.freeFrames ≤ s.pmm.freeFrames :=
  pagingMapPageOn_keeps (P := fun p => p.freeFrames ≤ s.pmm.freeFrames)
    (fun _ hp => Nat.le_trans (Nat.le_of_add_right_le (pmmAlloc_freeFrames rfl)) hp)
    (Nat.le_refl _) h

-- ---------------------------------------------------------------------------
-- The frame below
-- ---------------------------------------------------------------------------

/-- From `p` to `p'` no frame was given back, and behind each frame taken there is one that
is in use. -/
structure Pmm.Grows (p p' : Pmm) : Prop where
  held : ∀ a, p.Held a → p'.Held a
  behind : ∀ a, p'.Held a → ¬ p.Held a → p'.Held (a - 4096)

theorem Pmm.Grows.refl (p : Pmm) : p.Grows p := ⟨fun _ h => h, fun _ h hn => absurd h hn⟩

theorem Pmm.Grows.alloc (h : Pmm.Grows p p') : p.Grows (pmmAlloc p').2 := by
  rcases hcall : pmmAlloc p' with ⟨a, p''⟩
  have hmono : ∀ x, p'.Held x → p''.Held x := fun x => pmmAlloc_held hcall
  refine ⟨fun x hx => hmono x (h.held x hx), fun x hx hn => ?_⟩
  by_cases hx' : p'.Held x
  · exact hmono _ (h.behind x hx' hn)
  -- this allocation took it, and all lower frames were in use
  obtain ⟨hnone, -⟩ | ⟨f, hf, -, hleast, hsome⟩ := pmmAlloc_lowest p'
  · rw [hnone] at hcall
    cases hcall
    exact absurd hx hx'
  have hxf := pmmAlloc_only hcall hx hx'
  rw [hsome] at hcall
  cases hcall
  apply hmono
  intro k hk hxk
  apply hleast
  have hkmax := Nat.lt_of_lt_of_le hk p'.totalFrames_le
  have hfmax := Nat.lt_of_lt_of_le hf p'.totalFrames_le
  have hn := congrArg BitVec.toNat hxk
  rw [hxf, BitVec.toNat_sub, BitVec.toNat_ofNat, BitVec.toNat_ofNat] at hn
  simp only [maxFrames, pageSize, BitVec.reduceToNat] at hn hkmax hfmax
  omega

theorem pagingMapPageOn_grows (hp : p.Grows s.pmm)
    (h : pagingMapPageOn s pml4 virt phys flags = (ret, s')) : p.Grows s'.pmm :=
  pagingMapPageOn_keeps (P := p.Grows) (fun _ hq => hq.alloc) hp h

-- ---------------------------------------------------------------------------
-- A page whose tables are there
-- ---------------------------------------------------------------------------

/-- The path to the page table of `virt`. -/
def tablePath (virt : Word) : List Index := [idxPml4 virt, idxPdpt virt, idxPd virt]

theorem grantUser_tableOf (s : Machine) (t : Word) (i : Index) (flags : Word) (n : Nat) (u : Word)
    (j : Index) : tableOf n ((grantUser s t i flags).mem u j) = tableOf n (s.mem u j) := by
  rw [grantUser_mem, setEntry]
  split
  · rename_i h
    rw [tableOf_grant, h.1, h.2]
  · rfl

theorem pagingGetOrCreateTable_there (h : tableOf n (s.mem t i) = some a) :
    pagingGetOrCreateTable s t i flags = (a, s) := by
  obtain ⟨hpresent, rfl, -⟩ := tableOf_cases h
  rw [pagingGetOrCreateTable, if_pos hpresent]

theorem splitHuge_there (h : tableOf 2 (s.mem t i) = some a) :
    splitHuge s t i flags = (true, s) := by
  rw [splitHuge, (tableOf_cases h).2.2 rfl, if_neg Bool.false_ne_true]

theorem pagingMapPageOn_pmm (hreach : reach tableOf s.mem 0 pml4 (tablePath virt) = some pt) :
    (pagingMapPageOn s pml4 virt phys flags).2.pmm = s.pmm := by
  rcases h4 : tableOf 0 (s.mem pml4 (idxPml4 virt)) with _ | pdpt
  · simp [tablePath, reach, h4] at hreach
  rcases h3 : tableOf 1 (s.mem pdpt (idxPdpt virt)) with _ | pd
  · simp [tablePath, reach, h4, h3] at hreach
  have h2 : tableOf 2 (s.mem pd (idxPd virt)) = some pt := by
    simpa [tablePath, reach, h4, h3] using hreach
  rw [pagingMapPageOn]
  simp only [pagingGetOrCreateTable_there h4]
  split
  · rfl
  simp only [pagingGetOrCreateTable_there ((grantUser_tableOf ..).trans h3)]
  split
  · exact grantUser_pmm ..
  have h2' := ((grantUser_tableOf (grantUser s pml4 (idxPml4 virt) flags) pdpt (idxPdpt virt) flags
    ..).trans (grantUser_tableOf ..)).trans h2
  simp only [splitHuge_there h2', pagingGetOrCreateTable_there ((grantUser_tableOf ..).trans h2'),
    Bool.not_true, Bool.false_eq_true, if_false]
  split <;> simp only [grantUser_pmm]

theorem pagingMapPageOn_table (hw : WellFormed s pml4)
    (h : pagingMapPageOn s pml4 virt phys flags = (0, s')) :
    ∃ pt, reach tableOf s'.mem 0 pml4 (tablePath virt) = some pt := by
  obtain ⟨-, ⟨h0, -⟩ | ⟨-, ⟨es, hes, hpage⟩, -⟩⟩ := pagingMapPageOn_spec hw h
  · cases h0
  have hlen := congrArg List.length (pageEntries_some hpage).1
  rw [List.length_append, hes] at hlen
  simp only [pathOf, trace, tablePath, reach] at hlen ⊢
  rcases h4 : tableOf 0 (s'.mem pml4 (idxPml4 virt)) with _ | pdpt
  · simp [h4] at hlen
  rcases h3 : tableOf 1 (s'.mem pdpt (idxPdpt virt)) with _ | pd
  · simp [h4, h3] at hlen
  rcases h2 : tableOf 2 (s'.mem pd (idxPd virt)) with _ | pt
  · simp [h4, h3, h2] at hlen
  exact ⟨pt, by simp [h3, h2]⟩

end EponaOS.Mm
