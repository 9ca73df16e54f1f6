import EponaOS.Mm.HeapSizes
import EponaOS.Mm.PageData

/-!
# What growing the heap leaves behind

`kmalloc` takes a frame for each new page and maps it before it takes the next, and does not look at
what `paging_map_page` returns. Frames taken before one is missing are not given back, and a page
that could not be mapped is handed out all the same.
-/

namespace EponaOS.Mm

open Bytes BlockList TableTrie

variable {s s' s₁ : Machine} {virt v a : Word} {pmm : Pmm} {ret : Int} {ok : Bool} {n k j : Nat}

-- ---------------------------------------------------------------------------
-- One page
-- ---------------------------------------------------------------------------

structure Grew (s s' : Machine) : Prop where
  root : s'.gPml4 = s.gPml4
  wellFormed : WellFormed s' s'.gPml4
  held : ∀ a, s.pmm.Held a → s'.pmm.Held a
  tables : ∀ q a, s.pmm.Held a → reach tableOf s'.mem 0 s'.gPml4 q = some a →
    reach tableOf s.mem 0 s.gPml4 q = some a

theorem Grew.trans (h : Grew s s₁) (h' : Grew s₁ s') : Grew s s' where
  root := h'.root.trans h.root
  wellFormed := h'.wellFormed
  held a ha := h'.held a (h.held a ha)
  tables q a ha hq := h.tables q a ha (h'.tables q a (h.held a ha) hq)

theorem pagingGetOrCreateTable_gPml4 (s : Machine) (t : Word) (i : Index) (flags : Word) :
    (pagingGetOrCreateTable s t i flags).2.gPml4 = s.gPml4 := by
  unfold pagingGetOrCreateTable
  split
  · rfl
  · dsimp only
    split <;> rfl

theorem splitHuge_gPml4 (s : Machine) (pd : Word) (i : Index) (flags : Word) :
    (splitHuge s pd i flags).2.gPml4 = s.gPml4 := by
  unfold splitHuge
  split
  · dsimp only
    split <;> rfl
  · rfl

theorem grantUser_gPml4 (s : Machine) (t : Word) (i : Index) (flags : Word) :
    (grantUser s t i flags).gPml4 = s.gPml4 := by
  unfold grantUser
  split <;> rfl

theorem pagingMapPageOn_gPml4 (s : Machine) (pml4 virt phys flags : Word) :
    (pagingMapPageOn s pml4 virt phys flags).2.gPml4 = s.gPml4 := by
  unfold pagingMapPageOn
  dsimp only
  split
  · exact pagingGetOrCreateTable_gPml4 ..
  split
  · rw [pagingGetOrCreateTable_gPml4, grantUser_gPml4, pagingGetOrCreateTable_gPml4]
  split
  · rw [splitHuge_gPml4, grantUser_gPml4, pagingGetOrCreateTable_gPml4, grantUser_gPml4,
      pagingGetOrCreateTable_gPml4]
  split
  all_goals
    simp only [pagingGetOrCreateTable_gPml4, grantUser_gPml4, splitHuge_gPml4]

theorem pagingMapPageOn_there {pml4 phys flags : Word} {pt : Word}
    (hzero : ∀ q, reach tableOf s.mem 0 pml4 q ≠ some 0)
    (hreach : reach tableOf s.mem 0 pml4 (tablePath virt) = some pt) :
    (pagingMapPageOn s pml4 virt phys flags).1 = 0 := by
  have hpt := hzero (tablePath virt)
  have hpd := hzero [idxPml4 virt, idxPdpt virt]
  have hpdpt := hzero [idxPml4 virt]
  rcases h4 : tableOf 0 (s.mem pml4 (idxPml4 virt)) with _ | pdpt
  · simp [tablePath, reach, h4] at hreach
  rcases h3 : tableOf 1 (s.mem pdpt (idxPdpt virt)) with _ | pd
  · simp [tablePath, reach, h4, h3] at hreach
  have h2 : tableOf 2 (s.mem pd (idxPd virt)) = some pt := by
    simpa [tablePath, reach, h4, h3] using hreach
  rw [hreach] at hpt
  simp only [reach, h4, h3, Option.bind_some, ne_eq, Option.some.injEq] at hpt hpd hpdpt
  rw [pagingMapPageOn]
  simp only [pagingGetOrCreateTable_there h4]
  rw [if_neg hpdpt]
  simp only [pagingGetOrCreateTable_there ((grantUser_tableOf ..).trans h3)]
  rw [if_neg hpd]
  have h2' := ((grantUser_tableOf (grantUser s pml4 (idxPml4 virt) flags) pdpt (idxPdpt virt) flags
    ..).trans (grantUser_tableOf ..)).trans h2
  simp only [splitHuge_there h2', pagingGetOrCreateTable_there ((grantUser_tableOf ..).trans h2'),
    Bool.not_true, Bool.false_eq_true, if_false]
  rw [if_neg hpt]

def Small (s : Machine) (v : Word) : Prop :=
  ∀ es, pageEntries s.mem s.gPml4 (pathOf v) = some es → es.length = 4

theorem unmapped_of_failed {phys flags : Word} (hzero : ∀ q, reach tableOf s.mem 0 s.gPml4 q ≠ some 0)
    (hsmall : Small s virt) (h : (pagingMapPage s virt phys flags).1 ≠ 0) :
    translation s.mem s.gPml4 virt = none := by
  rcases hes : pageEntries s.mem s.gPml4 (pathOf virt) with _ | es
  · rw [translation, hes]
    rfl
  · exfalso
    have hlen := hsmall es hes
    rw [(pageEntries_some hes).1] at hlen
    have hpt : ∃ pt, reach tableOf s.mem 0 s.gPml4 (tablePath virt) = some pt := by
      simp only [pathOf, trace, tablePath, reach] at hlen ⊢
      rcases h4 : tableOf 0 (s.mem s.gPml4 (idxPml4 virt)) with _ | pdpt
      · simp [h4] at hlen
      rcases h3 : tableOf 1 (s.mem pdpt (idxPdpt virt)) with _ | pd
      · simp [h4, h3] at hlen
      rcases h2 : tableOf 2 (s.mem pd (idxPd virt)) with _ | pt
      · simp [h4, h3, h2] at hlen
      exact ⟨pt, by simp [h3, h2]⟩
    obtain ⟨pt, hpt⟩ := hpt
    exact h (pagingMapPageOn_there hzero hpt)

theorem Partway.length_eq {flags : Word} {q : List Index} {es es' : List Word}
    (h : Partway flags virt q es es') (h4 : es.length = 4) : es'.length = 4 := by
  cases h with
  | start => exact h4
  | pml4 => rw [length_grantAt, h4]
  | pdpt => rw [length_grantAt, length_grantAt, h4]
  | pd ptNew hal =>
    rw [mapOther, length_grantAt, splitAt_off, length_grantAt, length_grantAt, h4]
    rintro ⟨-, h3⟩
    rw [length_grantAt, length_grantAt] at h3
    omega

section
variable (hw : WellFormed s s.gPml4) (halloc : pmmAlloc s.pmm = (a, pmm)) (ha : a ≠ 0)
  (h : pagingMapPage { s with pmm } virt a PAGE_RW = (ret, s'))
include hw halloc

theorem WellFormed.alloc : WellFormed { s with pmm } s.gPml4 :=
  ⟨hw.tree, fun q t ht => pmmAlloc_held halloc (hw.held q t ht), hw.entries⟩

include h

theorem mapFrame_grew : Grew s s' ∧ (a ≠ 0 → ¬ s.pmm.Held a ∧ s'.pmm.Held a ∧
    ∀ q, reach tableOf s'.mem 0 s'.gPml4 q ≠ some a) := by
  have hw1 := hw.alloc halloc
  have hroot : s'.gPml4 = s.gPml4 := by
    have := pagingMapPageOn_gPml4 { s with pmm } s.gPml4 virt a PAGE_RW
    rw [← this]
    exact (congrArg (fun r => r.2.gPml4) h).symm
  have hon := pagingMapPageOn_writesOn hw1 h
  have hspec := (pagingMapPageOn_spec hw1 h).1
  refine ⟨⟨hroot, by rw [hroot]; exact hspec, fun x hx => hon.held x (pmmAlloc_held halloc hx),
    fun q x hx hq => hon.tables q x (pmmAlloc_held halloc hx) (by rwa [hroot] at hq)⟩, fun ha => ?_⟩
  obtain ⟨-, hnew, hheld, -⟩ := pmmAlloc_table hw halloc ha
  refine ⟨(pmmAlloc_fresh halloc ha).1, hon.held a hheld, fun q hq => ?_⟩
  rw [hroot] at hq
  exact hnew q (hon.tables q a hheld hq)

theorem mapFrame_translation (ha : a ≠ 0) (v : Word) : translation s'.mem s'.gPml4 v =
    if ret = 0 ∧ pageNo v = pageNo virt then some (a ||| (v &&& 0xFFF))
    else translation s.mem s.gPml4 v := by
  have hal : addr a = a := (pmmAlloc_table hw halloc ha).1
  have hmap := pagingMapPageOn_translation (hw.alloc halloc) (by decide) h v
  rw [hal] at hmap
  rw [(mapFrame_grew hw halloc h).1.root]
  exact hmap

theorem mapFrame_small (hsmall : Small s v) : Small s' v := by
  intro es hes
  rw [(mapFrame_grew hw halloc h).1.root] at hes
  obtain ⟨-, ⟨-, hpart⟩ | ⟨-, ⟨es', hes', hpage⟩, ptNew, hal, hother⟩⟩ :=
    pagingMapPageOn_spec (hw.alloc halloc) h
  · obtain ⟨f, hf, hmap⟩ := hpart (pathOf v) rfl
    have hes2 := hmap.symm.trans hes
    obtain ⟨es₀, hes₀, rfl⟩ := Option.map_eq_some_iff.mp hes2
    exact (hf es₀).length_eq (hsmall es₀ hes₀)
  · by_cases hsame : pathOf v = pathOf virt
    · have hes2 := hpage.symm.trans (hsame ▸ hes)
      cases hes2
      simp [hes']
    · have hes2 := (hother (pathOf v) rfl hsame).symm.trans hes
      obtain ⟨es₀, hes₀, rfl⟩ := Option.map_eq_some_iff.mp hes2
      exact (Partway.pd ptNew hal).length_eq (hsmall es₀ hes₀)
end

-- ---------------------------------------------------------------------------
-- All pages
-- ---------------------------------------------------------------------------

/-- The first `pages` pages can be mapped, each to the frame that is free then. -/
def MapsAll (s : Machine) (virt : Word) : Nat → Prop
  | 0 => True
  | pages + 1 =>
    let r := pagingMapPage { s with pmm := (pmmAlloc s.pmm).2 } virt (pmmAlloc s.pmm).1 PAGE_RW
    r.1 = 0 ∧ MapsAll r.2 (virt + 4096) pages

/-- Page `j` from `virt` on. -/
def pageAt (virt : Word) (j : Nat) : Nat := (pageNo virt + j) % 2 ^ 36

theorem pageAt_zero (virt : Word) : pageAt virt 0 = pageNo virt := by
  unfold pageAt pageNo
  omega

theorem pageAt_next (virt : Word) (j : Nat) : pageAt (virt + 4096) j = pageAt virt (j + 1) := by
  have hnext : (virt + 4096).toNat = (virt.toNat + 4096) % 2 ^ 64 := BitVec.toNat_add ..
  unfold pageAt pageNo
  rw [hnext]
  omega

theorem pageAt_inj (hk : k < 2 ^ 36) (hj : j < 2 ^ 36) (h : pageAt virt k = pageAt virt j) : k = j := by
  unfold pageAt at h
  omega

theorem growPages_succ (h : growPages s virt (n + 1) = (ok, s')) :
    ((pmmAlloc s.pmm).1 = 0 ∧ ok = false ∧ s' = { s with pmm := (pmmAlloc s.pmm).2 }) ∨
      ∃ a pmm ret s₁, pmmAlloc s.pmm = (a, pmm) ∧ a ≠ 0 ∧
        pagingMapPage { s with pmm } virt a PAGE_RW = (ret, s₁) ∧
        growPages s₁ (virt + 4096) n = (ok, s') := by
  rw [growPages] at h
  split at h
  rename_i a pmm halloc
  split at h
  · rename_i h0
    obtain ⟨rfl, rfl⟩ := Prod.mk.inj h
    rw [halloc]
    exact .inl ⟨h0, rfl, rfl⟩
  · rename_i h0
    exact .inr ⟨a, pmm, _, _, halloc, h0, rfl, h⟩

theorem growPages_grew (hw : WellFormed s s.gPml4) (h : growPages s virt n = (ok, s')) : Grew s s' := by
  induction n generalizing s virt with
  | zero =>
    cases h
    exact ⟨rfl, hw, fun _ h => h, fun _ _ _ h => h⟩
  | succ n ih =>
    obtain ⟨-, -, rfl⟩ | ⟨a, pmm, ret, s₁, halloc, -, hmap, hrest⟩ := growPages_succ h
    · exact ⟨rfl, hw.alloc rfl, fun x hx => pmmAlloc_held rfl hx, fun _ _ _ h => h⟩
    · have hgrew := (mapFrame_grew hw halloc hmap).1
      exact hgrew.trans (ih hgrew.wellFormed hrest)

theorem growPages_others (hw : WellFormed s s.gPml4) (h : growPages s virt n = (ok, s'))
    (hv : ∀ j < n, pageNo v ≠ pageAt virt j) :
    translation s'.mem s'.gPml4 v = translation s.mem s.gPml4 v := by
  induction n generalizing s virt with
  | zero =>
    cases h
    rfl
  | succ n ih =>
    obtain ⟨-, -, rfl⟩ | ⟨a, pmm, ret, s₁, halloc, ha, hmap, hrest⟩ := growPages_succ h
    · rfl
    · have hgrew := (mapFrame_grew hw halloc hmap).1
      have hfirst := hv 0 (by omega)
      rw [pageAt_zero] at hfirst
      rw [ih hgrew.wellFormed hrest fun j hj => by rw [pageAt_next]; exact hv (j + 1) (by omega),
        mapFrame_translation hw halloc hmap ha, if_neg fun h => hfirst h.2]

/-- The pages for which mapping succeeds lie in frames that were free, and are no tables now. -/
theorem growPages_mapped (hw : WellFormed s s.gPml4) (h : growPages s virt n = (true, s'))
    (hn : n ≤ 2 ^ 36) (hk : k ≤ n) (hall : MapsAll s virt k) (hj : j < k)
    (hv : pageNo v = pageAt virt j) :
    ∃ a, ¬ s.pmm.Held a ∧ s'.pmm.Held a ∧ (∀ q, reach tableOf s'.mem 0 s'.gPml4 q ≠ some a) ∧
      translation s'.mem s'.gPml4 v = some (a ||| (v &&& 0xFFF)) := by
  induction n generalizing s virt k j with
  | zero => omega
  | succ n ih =>
    obtain ⟨-, h0, -⟩ | ⟨a, pmm, ret, s₁, halloc, ha, hmap, hrest⟩ := growPages_succ h
    · cases h0
    obtain ⟨k, rfl⟩ : ∃ k', k = k' + 1 := ⟨k - 1, by omega⟩
    obtain ⟨hgrew, hframe⟩ := mapFrame_grew hw halloc hmap
    have hgrew' := growPages_grew hgrew.wellFormed hrest
    dsimp only [MapsAll] at hall
    rw [halloc] at hall
    dsimp only at hall
    rw [hmap] at hall
    obtain ⟨rfl, hall⟩ := hall
    rcases j with _ | j
    · obtain ⟨hnew, hheld, htable⟩ := hframe ha
      rw [pageAt_zero] at hv
      refine ⟨a, hnew, hgrew'.held a hheld, fun q hq => htable q (hgrew'.tables q a hheld hq), ?_⟩
      rw [growPages_others hgrew.wellFormed hrest fun i hi heq => ?_,
        mapFrame_translation hw halloc hmap ha, if_pos ⟨rfl, hv⟩]
      rw [hv, ← pageAt_zero, pageAt_next] at heq
      have := pageAt_inj (by omega) (by omega) heq
      omega
    · rw [← pageAt_next] at hv
      obtain ⟨b, hnew, hb⟩ := ih hgrew.wellFormed hrest (by omega) (by omega) hall (by omega) hv
      exact ⟨b, fun hold => hnew (hgrew.held b hold), hb⟩

theorem growPages_unmapped (hw : WellFormed s s.gPml4) (hheld : s.pmm.Held 0)
    (hzero : ∀ q, reach tableOf s.mem 0 s.gPml4 q ≠ some 0) (h : growPages s virt n = (true, s'))
    (hn : n ≤ 2 ^ 36) (hk : k ≤ n) (hsmall : ∀ j < n, ∀ v, pageNo v = pageAt virt j → Small s v)
    (hall : ¬ MapsAll s virt k) :
    ∃ j < k, ∀ v, pageNo v = pageAt virt j → translation s'.mem s'.gPml4 v = none := by
  induction n generalizing s virt k with
  | zero =>
    obtain rfl : k = 0 := by omega
    exact absurd trivial hall
  | succ n ih =>
    obtain ⟨-, h0, -⟩ | ⟨a, pmm, ret, s₁, halloc, ha, hmap, hrest⟩ := growPages_succ h
    · cases h0
    rcases k with _ | k
    · exact absurd trivial hall
    obtain ⟨hgrew, -⟩ := mapFrame_grew hw halloc hmap
    dsimp only [MapsAll] at hall
    rw [halloc] at hall
    dsimp only at hall
    rw [hmap] at hall
    by_cases hret : ret = 0
    · have hall' : ¬ MapsAll s₁ (virt + 4096) k := fun hrest => hall ⟨hret, hrest⟩
      obtain ⟨j, hj, hnone⟩ := ih hgrew.wellFormed (hgrew.held 0 hheld)
        (fun q hq => hzero q (hgrew.tables q 0 hheld hq)) hrest (by omega) (by omega)
        (fun j hj v hv => mapFrame_small hw halloc hmap
          (hsmall (j + 1) (by omega) v (by rw [← pageAt_next]; exact hv))) hall'
      exact ⟨j + 1, by omega, fun v hv => hnone v (by rw [pageAt_next]; exact hv)⟩
    · refine ⟨0, by omega, fun v hv => ?_⟩
      rw [pageAt_zero] at hv
      have hbefore : translation s.mem s.gPml4 virt = none :=
        unmapped_of_failed (s := { s with pmm }) hzero (hsmall 0 (by omega) virt (pageAt_zero virt).symm)
          (by rw [hmap]; exact hret)
      rw [growPages_others hgrew.wellFormed hrest fun i hi heq => ?_,
        mapFrame_translation hw halloc hmap ha, if_neg fun h => hret h.1, translation,
        pathOf_eq_iff.mpr hv]
      · rw [translation] at hbefore
        rw [Option.map_eq_none_iff] at hbefore ⊢
        exact hbefore
      · rw [hv, ← pageAt_zero, pageAt_next] at heq
        have := pageAt_inj (by omega) (by omega) heq
        omega

-- ---------------------------------------------------------------------------
-- The heap
-- ---------------------------------------------------------------------------

/-- The byte is mapped to a frame of `own`. -/
def Backed (s : Machine) (own : Word → Prop) (x : Nat) : Prop :=
  ∃ a, own a ∧ translation s.mem s.gPml4 (BitVec.ofNat 64 x) = some (a ||| (BitVec.ofNat 64 x &&& 0xFFF))

/-- The frames that only the heap holds: those it had, and any that was free before and is no
table now. -/
def HeapFrame (own : Word → Prop) (s s' : Machine) (a : Word) : Prop :=
  own a ∨ (¬ s.pmm.Held a ∧ s'.pmm.Held a ∧ ∀ q, reach tableOf s'.mem 0 s'.gPml4 q ≠ some a)

/-- The heap is mapped to the frames of `own`, whole pages of it. Frame 0 is neither free nor a
table, and what may be mapped above the heap already is no 2 MiB page. -/
structure HeapPages (own : Word → Prop) (h : Heap) : Prop where
  tables : WellFormed h.machine h.machine.gPml4
  zero_held : h.machine.pmm.Held 0
  zero_table : ∀ q, reach tableOf h.machine.mem 0 h.machine.gPml4 q ≠ some 0
  whole : h.gHeapVirtTop % 4096 = 0
  held : ∀ a, own a → h.machine.pmm.Held a
  backed : ∀ x, HEAP_START ≤ x → x < h.gHeapVirtTop → Backed h.machine own x
  small : ∀ x, h.gHeapVirtTop ≤ x → x < HEAP_START + pageSize * (256 + maxFrames) →
    Small h.machine (BitVec.ofNat 64 x)

structure HeapSame (h h' : Heap) : Prop where
  mem : h'.mem = h.mem
  first : h'.gHeapStart = h.gHeapStart
  last : h'.gHeapEnd = h.gHeapEnd
  top : h'.gHeapVirtTop = h.gHeapVirtTop
  mappings : ∀ v : Word, h.gHeapVirtTop ≤ v.toNat →
    translation h'.machine.mem h'.machine.gPml4 v = translation h.machine.mem h.machine.gPml4 v
  freeFrames : h'.machine.pmm.freeFrames = h.machine.pmm.freeFrames

/-- A call that returns null changes nothing, one that returns a block returns one that is there. -/
def AllOrNothing (own : Word → Prop) (h : Heap) (size : Nat) : Prop :=
  ∀ fuel p h', kmalloc fuel h size = some (p, h') →
    (p = 0 → HeapSame h h') ∧
      (p ≠ 0 → ∀ x, p - HEADER_SIZE ≤ x →
        x < p - HEADER_SIZE + hdrSize h'.mem (p - HEADER_SIZE) →
        Backed h'.machine (HeapFrame own h.machine h'.machine) x)

def blockPages (total : Nat) : Nat :=
  (takenSize total (growCount total * pageSize) + pageSize - 1) / pageSize

/-- Nothing is asked for, or a block of the list fits, or the number of new pages does not wrap and
either there is no frame for the first or there is one for each, and mapping fails for none that
the block reaches into. -/
def GrowthOk (h : Heap) (size : Nat) : Prop :=
  size = 0 ∨
    (∃ fuel curr, firstFit h.mem (allocTotal size) fuel h.gHeapStart = some curr ∧ curr ≠ 0) ∨
    (allocTotal size + pageSize ≤ 2 ^ 64 ∧ ((pmmAlloc h.machine.pmm).1 = 0 ∨
      (growPages h.machine (BitVec.ofNat 64 h.gHeapVirtTop) (growCount (allocTotal size))).1 = true ∧
        MapsAll h.machine (BitVec.ofNat 64 h.gHeapVirtTop) (blockPages (allocTotal size))))

variable {h h' : Heap} {bs : List Blk} {own : Word → Prop} {p x top total size fuel curr : Nat}

theorem pageNo_above (htop : top % 4096 = 0) (hx : top ≤ x) (hlt : x < 2 ^ 64) :
    pageNo (BitVec.ofNat 64 x) = pageAt (BitVec.ofNat 64 top) ((x - top) / 4096) := by
  unfold pageAt pageNo
  rw [BitVec.toNat_ofNat, BitVec.toNat_ofNat]
  omega

theorem pmmAlloc_none {p : Pmm} (hheld : p.Held 0) (h : (pmmAlloc p).1 = 0) : (pmmAlloc p).2 = p := by
  rcases halloc : pmmAlloc p with ⟨a, p'⟩
  rw [halloc] at h
  obtain ⟨-, rfl⟩ | ⟨f, hf, hfree, ha, -⟩ := pmmAlloc_cases halloc
  · rfl
  · have hset := hheld f hf (h.symm.trans ha)
    rw [hfree] at hset
    cases hset

theorem HeapPages.fit (hp : HeapPages own h) (hr : HeapRep h bs)
    (hcurr : firstFit h.mem total fuel h.gHeapStart = some curr) (hne : curr ≠ 0)
    (ht : total < 2 ^ 64) (hlo : curr ≤ x) (hhi : x < curr + hdrSize (takeFit h.mem curr total) curr) :
    Backed h.machine own x := by
  have hfit := firstFit_fits hcurr hne
  rw [hdrSize_takeFit _ _ ht] at hhi
  have hsize := (takenSize_bounds hfit).2.1
  rw [hr.start] at hcurr
  obtain ⟨rfl, -⟩ | ⟨pre, b, post, rfl, -, rfl, -⟩ :=
    firstFit_linked hr.linked (fun b hb => (hr.block hb).1) hcurr
  · exact absurd rfl hne
  · have hstart := (hr.tiles.mem (b := b) (by simp)).1
    have hfin := (hr.block (b := b) (by simp)).2.1
    rw [hdrSize_eq, hr.header] at hsize hhi
    unfold Blk.fin at hfin
    dsimp only at hsize hhi
    exact hp.backed x (by omega) (by omega)

theorem growCount_pos (h : total + pageSize ≤ 2 ^ 64) : ∃ n, growCount total = n + 1 := by
  have hcount := growCount_min h
  refine ⟨growCount total - 1, ?_⟩
  simp only [MIN_BLOCK, pageSize] at hcount
  omega

theorem HeapPages.grown_iff (hp : HeapPages own h) (hr : HeapRep h bs) {machine : Machine}
    (hwrap : total + pageSize ≤ 2 ^ 64)
    (hg : growPages h.machine (BitVec.ofNat 64 h.gHeapVirtTop) (growCount total) = (true, machine)) :
    (∀ x, h.gHeapVirtTop ≤ x →
        x < h.gHeapVirtTop + takenSize total (growCount total * pageSize) →
        Backed machine (HeapFrame own h.machine machine) x) ↔
      MapsAll h.machine (BitVec.ofNat 64 h.gHeapVirtTop) (blockPages total) := by
  have hframes := growPages_freeFrames hg
  have hmax := h.machine.pmm.freeFrames_le
  have hfr := hr.frames
  have hwhole := hp.whole
  have htaken := (takenSize_bounds (growCount_spec hwrap)).2.1
  generalize hn : growCount total = n at *
  generalize hB : takenSize total (n * pageSize) = B at *
  have hk : blockPages total = (B + pageSize - 1) / pageSize := by rw [blockPages, hn, hB]
  simp only [if_true, HEAP_START, pageSize, maxFrames] at *
  have habove : ∀ x, h.gHeapVirtTop ≤ x → x < h.gHeapVirtTop + n * 4096 →
      pageNo (BitVec.ofNat 64 x) =
        pageAt (BitVec.ofNat 64 h.gHeapVirtTop) ((x - h.gHeapVirtTop) / 4096) :=
    fun x hlo hhi => pageNo_above hwhole hlo (by omega)
  rw [hk]
  constructor
  · intro hall
    by_contra hfail
    have hsmall : ∀ j < n, ∀ v, pageNo v = pageAt (BitVec.ofNat 64 h.gHeapVirtTop) j →
        Small h.machine v := by
      intro j hj v hv
      have hpage := habove (h.gHeapVirtTop + 4096 * j) (by omega) (by omega)
      have hj' : (h.gHeapVirtTop + 4096 * j - h.gHeapVirtTop) / 4096 = j := by omega
      rw [hj', ← hv] at hpage
      have hs := hp.small (h.gHeapVirtTop + 4096 * j) (by omega)
        (by simp only [HEAP_START, pageSize, maxFrames]; omega)
      unfold Small at hs ⊢
      rwa [pathOf_eq_iff.mpr hpage] at hs
    obtain ⟨j, hj, hnone⟩ := growPages_unmapped hp.tables hp.zero_held hp.zero_table hg (by omega)
      (by omega) hsmall hfail
    have hpage := habove (h.gHeapVirtTop + 4096 * j) (by omega) (by omega)
    have hj' : (h.gHeapVirtTop + 4096 * j - h.gHeapVirtTop) / 4096 = j := by omega
    rw [hj'] at hpage
    obtain ⟨a, -, ha⟩ := hall (h.gHeapVirtTop + 4096 * j) (by omega) (by omega)
    rw [hnone _ hpage] at ha
    cases ha
  · intro hall x hlo hhi
    obtain ⟨a, hnew, hheld, htable, ha⟩ := growPages_mapped hp.tables hg (by omega) (by omega) hall
      (by omega) (habove x hlo (by omega))
    exact ⟨a, .inr ⟨hnew, hheld, htable⟩, ha⟩

/-- What `AllOrNothing` asks of a call that returns `p` and leaves `h'`. -/
def WholeOrSame (own : Word → Prop) (h : Heap) (p : Nat) (h' : Heap) : Prop :=
  (p = 0 → HeapSame h h') ∧
    (p ≠ 0 → ∀ x, p - HEADER_SIZE ≤ x → x < p - HEADER_SIZE + hdrSize h'.mem (p - HEADER_SIZE) →
      Backed h'.machine (HeapFrame own h.machine h'.machine) x)

theorem HeapPages.allOrNothing_of_fit (hp : HeapPages own h) (hr : HeapRep h bs) (h0 : size ≠ 0)
    (hcurr : firstFit h.mem (allocTotal size) fuel h.gHeapStart = some curr) (hne : curr ≠ 0) :
    AllOrNothing own h size := by
  intro fuel p h' hcall
  unfold kmalloc at hcall
  rw [if_neg h0] at hcall
  dsimp only at hcall
  split at hcall
  · cases hcall
  rename_i curr' hcurr'
  obtain rfl := firstFit_unique hcurr' hcurr
  rw [if_pos hne] at hcall
  cases hcall
  refine ⟨fun hnull => by omega, fun _ x hlo hhi => ?_⟩
  rw [Nat.add_sub_cancel] at hlo hhi
  dsimp only at hlo hhi
  obtain ⟨a, ha, hmap⟩ := hp.fit hr hcurr hne (allocTotal_lt size) hlo hhi
  exact ⟨a, .inl ha, hmap⟩

/-- Where no block of the list fits, whatever the fuel, the heap has to grow. -/
theorem allOrNothing_iff_grown (hr : HeapRep h bs) (h0 : size ≠ 0)
    (hnone : ∀ {fuel curr}, firstFit h.mem (allocTotal size) fuel h.gHeapStart = some curr → curr = 0) :
    AllOrNothing own h size ↔
      WholeOrSame own h (growHeap h (allocTotal size)).1 (growHeap h (allocTotal size)).2 := by
  constructor
  · intro hall
    obtain ⟨curr, hcurr⟩ := firstFit_returns (allocTotal size) hr.linked
      (fun b hb => (hr.block hb).1) (Nat.lt_succ_self _)
    rw [← hr.start] at hcurr
    obtain rfl := hnone hcurr
    exact hall _ _ _ (kmalloc_grows h0 hcurr)
  · intro hgrown fuel p h' hcall
    have hcall' := hcall
    unfold kmalloc at hcall'
    rw [if_neg h0] at hcall'
    dsimp only at hcall'
    split at hcall'
    · cases hcall'
    rename_i curr hcurr
    obtain rfl := hnone hcurr
    rw [kmalloc_grows h0 hcurr] at hcall
    rw [Option.some.inj hcall] at hgrown
    exact hgrown

/-- Growing that stops at a missing frame leaves nothing behind if it is the first that is missing. -/
theorem HeapPages.same_iff_of_missing (hp : HeapPages own h) (hwrap : total + pageSize ≤ 2 ^ 64)
    {machine : Machine}
    (hg : growPages h.machine (BitVec.ofNat 64 h.gHeapVirtTop) (growCount total) = (false, machine)) :
    WholeOrSame own h 0 { h with machine } ↔ (pmmAlloc h.machine.pmm).1 = 0 := by
  obtain ⟨n, hn⟩ := growCount_pos hwrap
  rw [hn] at hg
  obtain ⟨hzero, -, rfl⟩ | ⟨a, pmm, ret, s₁, halloc, ha, hmap, hrest⟩ := growPages_succ hg
  · refine iff_of_true ⟨fun _ => ⟨rfl, rfl, rfl, rfl, fun _ _ => rfl, ?_⟩, fun h => absurd rfl h⟩ hzero
    dsimp only
    rw [pmmAlloc_none hp.zero_held hzero]
  · refine iff_of_false (fun hsame => ?_) ?_
    · have hfree := (hsame.1 rfl).freeFrames
      dsimp only at hfree
      have h1 := pmmAlloc_freeFrames halloc
      have h2 : s₁.pmm.freeFrames ≤ pmm.freeFrames := pagingMapPageOn_freeFrames hmap
      have h3 := growPages_freeFrames hrest
      rw [if_neg ha] at h1
      omega
    · rw [halloc]
      exact ha

theorem pmmAlloc_of_growPages (hwrap : total + pageSize ≤ 2 ^ 64) {machine : Machine}
    (hg : growPages h.machine virt (growCount total) = (true, machine)) :
    (pmmAlloc h.machine.pmm).1 ≠ 0 := by
  obtain ⟨n, hn⟩ := growCount_pos hwrap
  rw [hn] at hg
  obtain ⟨-, hok, -⟩ | ⟨a, pmm, ret, s₁, halloc, ha, -, -⟩ := growPages_succ hg
  · cases hok
  · rw [halloc]
    exact ha

theorem HeapPages.whole_iff_mapped (hp : HeapPages own h) (hr : HeapRep h bs)
    (hwrap : total + pageSize ≤ 2 ^ 64)
    (hg : growPages h.machine (BitVec.ofNat 64 h.gHeapVirtTop) (growCount total) = (true, h'.machine))
    (hsize : hdrSize h'.mem h.gHeapVirtTop = takenSize total (growCount total * pageSize)) :
    WholeOrSame own h (h.gHeapVirtTop + HEADER_SIZE) h' ↔
      MapsAll h.machine (BitVec.ofNat 64 h.gHeapVirtTop) (blockPages total) := by
  have hne : h.gHeapVirtTop + HEADER_SIZE ≠ 0 := by
    simp only [HEADER_SIZE]
    omega
  rw [WholeOrSame, Nat.add_sub_cancel, hsize, ← hp.grown_iff hr hwrap hg]
  exact ⟨fun h => h.2 hne, fun h => ⟨fun hnull => absurd hnull hne, fun _ => h⟩⟩

/-- Growing is all or nothing exactly if no frame is missing, or the first, and no mapping fails
that the block needs. -/
theorem growth_all_or_nothing_iff (hp : HeapPages own h) (hr : HeapRep h bs)
    (hend : h.gHeapEnd + HEADER_SIZE ≤ h.gHeapVirtTop) (size : Nat) :
    AllOrNothing own h size ↔ GrowthOk h size := by
  have hlt := allocTotal_lt size
  have hmin := allocTotal_min size
  simp only [MIN_BLOCK] at hmin
  by_cases h0 : size = 0
  · refine iff_of_true (fun fuel p h' hcall => ?_) (.inl h0)
    unfold kmalloc at hcall
    rw [if_pos h0] at hcall
    cases hcall
    exact ⟨fun _ => ⟨rfl, rfl, rfl, rfl, fun _ _ => rfl, rfl⟩, fun h => absurd rfl h⟩
  by_cases hfit : ∃ fuel curr, firstFit h.mem (allocTotal size) fuel h.gHeapStart = some curr ∧ curr ≠ 0
  · obtain ⟨n, curr, hcurr, hne⟩ := hfit
    exact iff_of_true (hp.allOrNothing_of_fit hr h0 hcurr hne) (.inr (.inl ⟨n, curr, hcurr, hne⟩))
  have hcond : GrowthOk h size ↔ allocTotal size + pageSize ≤ 2 ^ 64 ∧ ((pmmAlloc h.machine.pmm).1 = 0 ∨
      (growPages h.machine (BitVec.ofNat 64 h.gHeapVirtTop) (growCount (allocTotal size))).1 = true ∧
        MapsAll h.machine (BitVec.ofNat 64 h.gHeapVirtTop) (blockPages (allocTotal size))) :=
    ⟨fun h => (h.resolve_left h0).resolve_left hfit, fun h => .inr (.inr h)⟩
  rw [hcond, allOrNothing_iff_grown hr h0 fun hcurr => by_contra fun hne => hfit ⟨_, _, hcurr, hne⟩]
  rcases hg : growPages h.machine (BitVec.ofNat 64 h.gHeapVirtTop) (growCount (allocTotal size))
    with ⟨ok, machine⟩
  have hout := growHeap_returns hend hlt hg
  generalize growHeap h (allocTotal size) = out at hout ⊢
  obtain ⟨rfl, rfl⟩ | ⟨rfl, hwrap, h', rfl, rfl, hsize⟩ | ⟨rfl, hwrap, hnull⟩ := hout
  · -- a frame is missing
    have hwrap : allocTotal size + pageSize ≤ 2 ^ 64 := by
      by_contra hwrap
      rw [growCount_wraps (Nat.not_le.mp hwrap) hlt] at hg
      cases hg
    rw [hp.same_iff_of_missing hwrap hg]
    exact ⟨fun hzero => ⟨hwrap, .inl hzero⟩, fun h => h.2.resolve_right fun h => Bool.noConfusion h.1⟩
  · -- every frame is there
    rw [hp.whole_iff_mapped hr hwrap hg hsize]
    exact ⟨fun hmaps => ⟨hwrap, .inr ⟨rfl, hmaps⟩⟩,
      fun h => (h.2.resolve_left (pmmAlloc_of_growPages hwrap hg)).2⟩
  · -- the number of pages wraps: an empty block is hung into the list, and null returned
    obtain ⟨h', rfl, hlast⟩ := hnull (by omega)
    refine iff_of_false (fun hall => ?_) fun hok => absurd hok.1 (Nat.not_le.mpr hwrap)
    have hsame := (hall.1 rfl).last
    rw [hlast] at hsame
    simp only [HEADER_SIZE] at hend
    omega

-- ---------------------------------------------------------------------------
-- A heap of one page
-- ---------------------------------------------------------------------------

def eightFrames : Machine := { bootMachine with pmm := ⟨bootMachine.pmm.bitmap, 520, 512, by decide⟩ }

def onePage : Int × Machine :=
  pagingMapPage { eightFrames with pmm := (pmmAlloc eightFrames.pmm).2 } (BitVec.ofNat 64 HEAP_START)
    (pmmAlloc eightFrames.pmm).1 PAGE_RW

def oneBlock : Heap where
  mem := heapCreateBlock (fun _ => 0) HEAP_START 4096
  machine := onePage.2
  gHeapStart := HEAP_START
  gHeapEnd := HEAP_START
  gHeapVirtTop := HEAP_START + 4096

theorem eightFrames_held (hf : a.toNat / 4096 < 512) : eightFrames.pmm.Held a := by
  intro f hlt hfa
  have hn := congrArg BitVec.toNat hfa
  rw [BitVec.toNat_ofNat] at hn
  have hlt' : f < 520 := hlt
  simp only [pageSize] at hn
  exact boot_held (by omega)

theorem eightFrames_wellFormed : WellFormed eightFrames eightFrames.gPml4 :=
  setupPaging_wellFormed _ rfl fun t ht => eightFrames_held (by
    simp only [List.mem_cons, List.not_mem_nil, or_false] at ht
    obtain rfl | rfl | rfl := ht <;> decide)

theorem eightFrames_alloc : (pmmAlloc eightFrames.pmm).1 = 0x200000 := by decide +kernel

theorem oneBlock_machine : oneBlock.machine = onePage.2 := by
  rw [oneBlock]

theorem oneBlock_map : ∃ pmm, pmmAlloc eightFrames.pmm = (0x200000, pmm) ∧
    pagingMapPage { eightFrames with pmm } (BitVec.ofNat 64 HEAP_START) 0x200000 PAGE_RW =
      (onePage.1, oneBlock.machine) := by
  have hfirst := eightFrames_alloc
  rw [oneBlock_machine]
  unfold onePage
  rcases halloc : pmmAlloc eightFrames.pmm with ⟨a, pmm⟩
  rw [halloc] at hfirst
  obtain rfl : a = 0x200000 := hfirst
  exact ⟨pmm, rfl, rfl⟩

theorem oneBlock_header : header oneBlock.mem HEAP_START = ⟨4096, true, 0, 0⟩ := by
  have hmem : oneBlock.mem = heapCreateBlock (fun _ => 0) HEAP_START 4096 := by rw [oneBlock]
  rw [hmem, header_heapCreateBlock, Nat.mod_eq_of_lt (by decide)]

theorem oneBlock_rep : HeapRep oneBlock [⟨HEAP_START, 4096, true⟩] := by
  have hmax := onePage.2.pmm.freeFrames_le
  refine ⟨⟨rfl, by decide, rfl⟩, ⟨?_, trivial⟩, rfl, by simp, ?_⟩
  · rw [oneBlock_header]
    rfl
  · have htop : oneBlock.gHeapVirtTop = HEAP_START + 4096 := rfl
    rw [htop, oneBlock_machine]
    generalize onePage.2.pmm.freeFrames = n at hmax ⊢
    simp only [pageSize, maxFrames] at hmax ⊢
    omega

theorem oneBlock_pages : HeapPages (· = 0x200000) oneBlock := by
  obtain ⟨pmm, halloc, hmap⟩ := oneBlock_map
  have hret : onePage.1 = 0 := by decide +kernel
  obtain ⟨hgrew, hframe⟩ := mapFrame_grew eightFrames_wellFormed halloc hmap
  have htrans := mapFrame_translation eightFrames_wellFormed halloc hmap (by decide)
  have hheld : eightFrames.pmm.Held 0 := eightFrames_held (by decide)
  refine ⟨hgrew.wellFormed, hgrew.held 0 hheld, fun q hq => ?_, by decide, ?_, fun x hlo hhi => ?_,
    fun x hlo hhi => ?_⟩
  · obtain ⟨-, h⟩ | ⟨-, h⟩ | ⟨-, h⟩ := boot_reach (hgrew.tables q 0 hheld hq) <;> revert h <;> decide
  · rintro a rfl
    exact (hframe (by decide)).2.1
  · refine ⟨0x200000, rfl, ?_⟩
    have htop : oneBlock.gHeapVirtTop = HEAP_START + 4096 := rfl
    have hpage : pageNo (BitVec.ofNat 64 x) = pageNo (BitVec.ofNat 64 HEAP_START) := by
      simp only [pageNo, BitVec.toNat_ofNat, htop, HEAP_START] at hlo hhi ⊢
      omega
    rw [htrans, if_pos ⟨hret, hpage⟩]
  · refine mapFrame_small eightFrames_wellFormed halloc hmap fun es hes => ?_
    -- the boot tables map nothing there
    exfalso
    have hroot : idxPml4 (BitVec.ofNat 64 x) ≠ 0 := by
      have htop : oneBlock.gHeapVirtTop = HEAP_START + 4096 := rfl
      simp only [htop, HEAP_START, pageSize, maxFrames] at hlo hhi
      intro h
      have hi := congrArg Fin.val h
      simp only [idxPml4, index_toNat, BitVec.toNat_ofNat] at hi
      have hzero : (0 : Index).val = 0 := rfl
      omega
    obtain ⟨htr, hm⟩ := pageEntries_some hes
    have hnone : tableOf 0 (setupPaging 0x1000 (idxPml4 (BitVec.ofNat 64 x))) = none :=
      (boot_pml4 _).trans (if_neg hroot)
    have hshort : es = [setupPaging 0x1000 (idxPml4 (BitVec.ofNat 64 x))] := by
      rw [htr]
      show trace tableOf setupPaging 0 0x1000 _ = _
      simp only [pathOf, trace, hnone, Option.elim_none]
    rw [hshort] at hm
    cases hm

theorem small_request_whole : AllOrNothing (· = 0x200000) oneBlock 100 := by
  refine (growth_all_or_nothing_iff oneBlock_pages oneBlock_rep (by decide) 100).mpr
    (.inr (.inl ⟨1, HEAP_START, ?_, by decide⟩))
  have hstart : oneBlock.gHeapStart = HEAP_START := rfl
  rw [hstart, firstFit, if_neg (by decide), if_pos]
  rw [hdrFree_ne_zero, hdrSize_eq, oneBlock_header]
  decide

/-- A request for 5000 bytes takes the frames that are left, fails, and gives none of them back. -/
theorem frames_lost : ¬ ∀ (own : Word → Prop) (h : Heap) (bs : List Blk) (size : Nat),
    HeapPages own h → HeapRep h bs → h.gHeapEnd + HEADER_SIZE ≤ h.gHeapVirtTop →
      AllOrNothing own h size := by
  intro hall
  have hok := (growth_all_or_nothing_iff oneBlock_pages oneBlock_rep (by decide) 5000).mp
    (hall _ _ _ 5000 oneBlock_pages oneBlock_rep (by decide))
  obtain h0 | ⟨fuel, curr, hcurr, hne⟩ | ⟨-, hfirst | ⟨hgrow, -⟩⟩ := hok
  · cases h0
  · have hfit := firstFit_linked oneBlock_rep.linked (fun b hb => (oneBlock_rep.block hb).1) hcurr
    obtain ⟨rfl, -⟩ | ⟨pre, b, post, hbs, hfit, -⟩ := hfit
    · exact hne rfl
    · have hb : b ∈ [⟨HEAP_START, 4096, true⟩] := by
        rw [hbs]
        simp
      obtain rfl := List.mem_singleton.mp hb
      exact absurd hfit.2 (by decide)
  · revert hfirst
    decide +kernel
  · rcases hg : growPages oneBlock.machine (BitVec.ofNat 64 oneBlock.gHeapVirtTop)
      (growCount (allocTotal 5000)) with ⟨ok, machine⟩
    rw [hg] at hgrow
    dsimp only at hgrow
    subst hgrow
    have hframes := growPages_freeFrames hg
    obtain ⟨pmm, halloc, hmap⟩ := oneBlock_map
    have hfew : oneBlock.machine.pmm.freeFrames ≤ pmm.freeFrames := pagingMapPageOn_freeFrames hmap
    have hrest := pmmAlloc_freeFrames halloc
    have height : eightFrames.pmm.freeFrames = 8 := by decide +kernel
    have hpages : growCount (allocTotal 5000) = 16 := by decide
    rw [if_pos rfl, hpages] at hframes
    omega

end EponaOS.Mm
