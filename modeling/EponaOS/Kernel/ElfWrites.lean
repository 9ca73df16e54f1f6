import EponaOS.Kernel.ElfImage

/-!
# Where loading stores

A clone shares every table below a PML4 slot that is in use, and the pages in it. What `elf_load`
maps there goes into tables of the caller, and what it copies there into the caller's frames.
Behind a free slot the tables and the pages are its own. Only what the loading gets to counts: it
ends at the first page that cannot be mapped.
-/

namespace EponaOS.Kernel.Elf

open Bytes Fs Mm TableTrie

variable {fp : FatPrivate} {fuel : Nat} {node : VfsNode} {s₀ s s' : Machine} {d d' : Disk}
  {clone page a p v w : Word} {m' : PhysMem}

def Obtained (s₀ s : Machine) (a : Word) : Prop := ¬ s₀.pmm.Held a ∧ s.pmm.Held a

def FreeSlot (s₀ : Machine) (v : Word) : Prop :=
  has (s₀.mem s₀.gPml4 (idxPml4 v)) PAGE_PRESENT = false

/-- Each of the bytes `x.2` from `x.1` on is in an obtained frame. -/
def InObtained (s₀ s : Machine) (x : Word × Nat) : Prop :=
  ∀ j < x.2, Obtained s₀ s (frameOf (x.1 + BitVec.ofNat 64 j))

-- ---------------------------------------------------------------------------
-- The bytes that are stored
-- ---------------------------------------------------------------------------

/-- Where `copyChunks` stores, and how many bytes. -/
def copyStores (fp : FatPrivate) (fuel : Nat) (node : VfsNode) (pml4 : Word) :
    Nat → Nat → Word → Bytes → Nat → Machine → Disk → List (Word × Nat)
  | 0, _, _, _, _, _, _ => []
  | rounds + 1, remaining, writeAddr, tmp, offset, s, d =>
    if remaining > 0 then
      match vfsRead fp fuel node offset (min remaining 512) tmp d with
      | none => []
      | some (nr, offset, tmp, d) =>
        if nr ≤ 0 then []
        else
          let phys := pagingGetPhysOn s.mem pml4 writeAddr
          let s := if phys ≠ 0 then { s with mem := storeBytes s.mem phys tmp nr.toNat } else s
          (if phys ≠ 0 then [(phys, nr.toNat)] else []) ++
            copyStores fp fuel node pml4 rounds (remaining - nr.toNat)
              (writeAddr + BitVec.ofNat 64 nr.toNat) tmp offset s d
    else []

/-- Where `zeroTail` stores. -/
def zeroStores (pml4 : Word) : Nat → Word → PhysMem → List (Word × Nat)
  | 0, _, _ => []
  | n + 1, addr, m =>
    let phys := pagingGetPhysOn m pml4 addr
    (if phys ≠ 0 then [(phys, 1)] else []) ++
      zeroStores pml4 n (addr + 1) (if phys ≠ 0 then storeByte m phys 0 else m)

def segmentStores (fp : FatPrivate) (fuel : Nat) (node : VfsNode) (junk : Bytes) (pml4 : Word)
    (ph : Elf64Phdr) (s : Machine) (d : Disk) : List (Word × Nat) :=
  if ph.pType ≠ PT_LOAD then []
  else
    let r := mapPages pml4 (pageCount ph) (startPage ph) s
    if !r.1 then []
    else
      copyStores fp fuel node pml4 ph.pFilesz ph.pFilesz ph.pVaddr junk ph.pOffset r.2 d ++
        (copyChunks fp fuel node pml4 ph.pFilesz ph.pFilesz ph.pVaddr junk ph.pOffset r.2 d).elim []
          fun r => zeroStores pml4 (ph.pMemsz - ph.pFilesz)
            (ph.pVaddr + BitVec.ofNat 64 ph.pFilesz) r.1.mem

/-- Every store of the loaded bytes, the page tables and the cleared frames left out. -/
def loadStores (fp : FatPrivate) (fuel : Nat) (node : VfsNode) (junk : Bytes) (pml4 : Word) :
    List Elf64Phdr → Machine → Disk → List (Word × Nat)
  | [], _, _ => []
  | ph :: phs, s, d =>
    segmentStores fp fuel node junk pml4 ph s d ++
      match loadSegment fp fuel node junk pml4 ph s d with
      | some (true, s, d) => loadStores fp fuel node junk pml4 phs s d
      | _ => []

-- ---------------------------------------------------------------------------
-- Segments that are apart from the caller
-- ---------------------------------------------------------------------------

/-- No page directory is found for `page`, and none can be made. -/
def NoDirectory (s : Machine) (pml4 page : Word) : Prop :=
  let pdpt := addr (s.mem pml4 (idxPml4 page))
  pdpt = 0 ∨ (pagingGetOrCreateTable s pdpt (idxPdpt page) PAGE_USER).1 = 0

/-- Mapping `page` writes to no table of the caller: there is no frame for it, it is behind a free
slot, or the mapping gives up in front of the page directory. -/
def PageApart (s₀ : Machine) (pml4 : Word) (s : Machine) (page : Word) : Prop :=
  (pmmAlloc s.pmm).1 = 0 ∨ FreeSlot s₀ page ∨
    NoDirectory { s with pmm := (pmmAlloc s.pmm).2 } pml4 page

/-- Of the chunks that the file gives none starts in a page of the caller, and none that starts in a
page at all, by the tables in `m`, leaves it. -/
def ChunksApart (fp : FatPrivate) (fuel : Nat) (node : VfsNode) (s₀ : Machine) (m : PhysMem)
    (pml4 : Word) : Nat → Nat → Word → Bytes → Nat → Disk → Prop
  | 0, _, _, _, _, _ => True
  | rounds + 1, remaining, writeAddr, tmp, offset, d =>
    remaining > 0 → ∀ nr offset' tmp' d',
      vfsRead fp fuel node offset (min remaining 512) tmp d = some (nr, offset', tmp', d') →
      0 < nr → pagingGetPhysOn s₀.mem s₀.gPml4 writeAddr = 0 ∧
        (pagingGetPhysOn m pml4 writeAddr ≠ 0 → writeAddr.toNat % 4096 + nr.toNat ≤ 4096) ∧
        ChunksApart fp fuel node s₀ m pml4 rounds (remaining - nr.toNat)
          (writeAddr + BitVec.ofNat 64 nr.toNat) tmp' offset' d'

/-- The pages of the segment that the loading gets to are apart from the caller and, if all are
mapped, its bytes are in no page of the caller. -/
structure SegmentApart (fp : FatPrivate) (fuel : Nat) (node : VfsNode) (junk : Bytes) (s₀ : Machine)
    (pml4 : Word) (ph : Elf64Phdr) (s : Machine) (d : Disk) : Prop where
  pages : ∀ k < pageCount ph, ∀ t, mapPages pml4 k (startPage ph) s = (true, t) →
    PageApart s₀ pml4 t (startPage ph + BitVec.ofNat 64 (4096 * k))
  chunks : ∀ t, mapPages pml4 (pageCount ph) (startPage ph) s = (true, t) →
    ChunksApart fp fuel node s₀ t.mem pml4 ph.pFilesz ph.pFilesz ph.pVaddr junk ph.pOffset d
  tail : ∀ t, mapPages pml4 (pageCount ph) (startPage ph) s = (true, t) →
    ∀ j, ph.pFilesz ≤ j → j < ph.pMemsz →
      pagingGetPhysOn s₀.mem s₀.gPml4 (ph.pVaddr + BitVec.ofNat 64 j) = 0

/-- So is every segment that the loading gets to. -/
def LoadApart (fp : FatPrivate) (fuel : Nat) (node : VfsNode) (junk : Bytes) (s₀ : Machine)
    (pml4 : Word) : List Elf64Phdr → Machine → Disk → Prop
  | [], _, _ => True
  | ph :: phs, s, d =>
    (ph.pType = PT_LOAD → SegmentApart fp fuel node junk s₀ pml4 ph s d) ∧
      ∀ s' d', loadSegment fp fuel node junk pml4 ph s d = some (true, s', d') →
        LoadApart fp fuel node junk s₀ pml4 phs s' d'

-- ---------------------------------------------------------------------------
-- Translations
-- ---------------------------------------------------------------------------

theorem translation_of_phys (h : pagingGetPhysOn s.mem clone v ≠ 0) :
    translation s.mem clone v = some (pagingGetPhysOn s.mem clone v) := by
  rw [pagingGetPhysOn_eq] at h ⊢
  show translation s.mem clone v = some ((translation s.mem clone v).getD 0)
  rcases ht : translation s.mem clone v with _ | p
  · exact absurd (congrArg (fun o : Option Word => o.getD 0) ht) h
  · rfl

theorem translation_offset (h : translation s.mem clone v = some p) :
    p.toNat % 4096 = v.toNat % 4096 := by
  have hoff : ∀ e w : Word, w.toNat % 4096 = v.toNat % 4096 →
      (addr e ||| w).toNat % 4096 = v.toNat % 4096 := by
    intro e w hw
    have hmod := (addr_idem e : Aligned (addr e)).mod
    have h12 : (4096 : Nat) = 2 ^ 12 := rfl
    rw [BitVec.toNat_or, h12, Nat.or_mod_two_pow, ← h12, hmod, Nat.zero_or, hw]
  obtain ⟨es, hes, rfl⟩ := Option.map_eq_some_iff.mp h
  have hmapped := (pageEntries_some hes).2
  unfold mapped at hmapped
  split at hmapped
  · refine hoff _ _ ?_
    rw [BitVec.toNat_and, show (0x1FFFFF : Word).toNat = 2 ^ 21 - 1 from rfl,
      Nat.and_two_pow_sub_one_eq_mod]
    omega
  · refine hoff _ _ ?_
    rw [BitVec.toNat_and, show (0xFFF : Word).toNat = 2 ^ 12 - 1 from rfl,
      Nat.and_two_pow_sub_one_eq_mod]
    omega
  · cases hmapped

-- ---------------------------------------------------------------------------
-- The clone while it is filled
-- ---------------------------------------------------------------------------

structure OwnFrames (s₀ s : Machine) : Prop where
  held : ∀ a, s₀.pmm.Held a → s.pmm.Held a
  kept : ∀ t, ¬ Obtained s₀ s t → s.mem t = s₀.mem t

/-- Behind a slot in use the clone is the caller's address space, behind a free one its tables and
its pages are obtained. -/
structure Loading (s₀ : Machine) (clone : Word) (s : Machine) : Prop extends OwnFrames s₀ s where
  wellFormed : WellFormed s clone
  root : ¬ s₀.pmm.Held clone
  entry : ∀ i, has (s₀.mem s₀.gPml4 i) PAGE_PRESENT = true → s.mem clone i = s₀.mem s₀.gPml4 i
  tables : ∀ i q t, has (s₀.mem s₀.gPml4 i) PAGE_PRESENT = false →
    reach tableOf s.mem 0 clone (i :: q) = some t → ¬ s₀.pmm.Held t
  pages : ∀ v p, FreeSlot s₀ v → translation s.mem clone v = some p →
    Obtained s₀ s (frameOf p) ∧ ∀ q, reach tableOf s.mem 0 clone q ≠ some (frameOf p)

theorem not_freeSlot (h : ¬ FreeSlot s₀ v) : has (s₀.mem s₀.gPml4 (idxPml4 v)) PAGE_PRESENT = true := by
  cases hp : has (s₀.mem s₀.gPml4 (idxPml4 v)) PAGE_PRESENT
  · exact absurd hp h
  · rfl

theorem Loading.translation_shared (hl : Loading s₀ clone s) (hw : WellFormed s₀ s₀.gPml4)
    (hslot : ¬ FreeSlot s₀ v) : translation s.mem clone v = translation s₀.mem s₀.gPml4 v := by
  have hsame : trace tableOf s.mem 0 clone (pathOf v) =
      trace tableOf s₀.mem 0 s₀.gPml4 (pathOf v) := by
    simp only [pathOf, trace, hl.entry _ (not_freeSlot hslot)]
    rcases h0 : tableOf 0 (s₀.mem s₀.gPml4 (idxPml4 v)) with _ | t
    · rfl
    simp only [Option.elim_some]
    congr 1
    refine (walk_congr (q := [idxPdpt v, idxPd v, idxPt v]) fun r j u a _ ha => ?_).2
    refine congrFun (hl.kept a fun hobt => hobt.1 (hw.held (idxPml4 v :: r) a ?_)) j
    simp [reach, h0, ha]
  simp only [translation, pageEntries, hsame]

theorem Loading.freeSlot (hl : Loading s₀ clone s) (hw : WellFormed s₀ s₀.gPml4)
    (hnone : pagingGetPhysOn s₀.mem s₀.gPml4 v = 0) (h : pagingGetPhysOn s.mem clone v ≠ 0) :
    FreeSlot s₀ v := by
  by_contra hslot
  have hshared := hl.translation_shared hw hslot
  rw [translation_of_phys h] at hshared
  have hphys : pagingGetPhysOn s₀.mem s₀.gPml4 v = pagingGetPhysOn s.mem clone v := by
    rw [pagingGetPhysOn_eq, ← translation, ← hshared, Option.getD_some]
  exact h (hphys.symm.trans hnone)

theorem Loading.of_data (hl : Loading s₀ clone s) (hf : Obtained s₀ s a)
    (ha : ∀ q, reach tableOf s.mem 0 clone q ≠ some a) (hm : ∀ t, t ≠ a → m' t = s.mem t) :
    Loading s₀ clone { s with mem := m' } := by
  have htables : ∀ q t, reach tableOf s.mem 0 clone q = some t → m' t = s.mem t := by
    intro q t ht
    refine hm t ?_
    rintro rfl
    exact ha q ht
  have hwalk : ∀ q, reach tableOf m' 0 clone q = reach tableOf s.mem 0 clone q ∧
      trace tableOf m' 0 clone q = trace tableOf s.mem 0 clone q := fun q =>
    walk_congr fun r j _ b _ hb => congrFun (htables r b hb) j
  refine ⟨⟨hl.held, fun t ht => ?_⟩, (hl.wellFormed.of_data htables).1, hl.root, fun i hi => ?_,
    fun i q t hi ht => ?_, fun v p hv hp => ?_⟩
  · refine (hm t ?_).trans (hl.kept t ht)
    rintro rfl
    exact ht hf
  · exact (congrFun (htables [] clone rfl) i).trans (hl.entry i hi)
  · exact hl.tables i q t hi ((hwalk _).1.symm.trans ht)
  · rw [translation, pageEntries_congr (hwalk _).2] at hp
    refine ⟨(hl.pages v p hv hp).1, fun q hq => ?_⟩
    exact (hl.pages v p hv hp).2 q ((hwalk q).1.symm.trans hq)

theorem phys_of_data (ha : ∀ q, reach tableOf s.mem 0 clone q ≠ some a)
    (hm : ∀ t, t ≠ a → m' t = s.mem t) (v : Word) :
    pagingGetPhysOn m' clone v = pagingGetPhysOn s.mem clone v := by
  have hwalk : trace tableOf m' 0 clone (pathOf v) = trace tableOf s.mem 0 clone (pathOf v) :=
    (walk_congr fun r j _ b _ hb => congrFun (hm b fun heq => ha r (heq ▸ hb)) j).2
  rw [pagingGetPhysOn_eq, pagingGetPhysOn_eq, pageEntries_congr hwalk]

theorem Loading.store (hl : Loading s₀ clone s) (hv : FreeSlot s₀ v)
    (hp : translation s.mem clone v = some p) (hin : v.toNat % 4096 + n ≤ 4096) (src : Bytes) :
    Loading s₀ clone { s with mem := storeBytes s.mem p src n } ∧
      ∀ w, pagingGetPhysOn (storeBytes s.mem p src n) clone w = pagingGetPhysOn s.mem clone w := by
  obtain ⟨hobt, hnew⟩ := hl.pages v p hv hp
  have hout : ∀ t, t ≠ frameOf p → storeBytes s.mem p src n t = s.mem t := by
    intro t ht
    refine storeBytes_table_ne src ?_ ht
    rwa [translation_offset hp]
  exact ⟨hl.of_data hobt hnew hout, phys_of_data hnew hout⟩

-- ---------------------------------------------------------------------------
-- Mapping
-- ---------------------------------------------------------------------------

theorem Obtained.mono (h : Obtained s₀ s a) (hs : ∀ a, s.pmm.Held a → s'.pmm.Held a) :
    Obtained s₀ s' a := ⟨h.1, hs a h.2⟩

theorem Loading.alloc (hl : Loading s₀ clone s) (halloc : pmmAlloc s.pmm = (a, pmm)) :
    Loading s₀ clone { s with pmm } := by
  obtain ⟨htree, hheld, hentries⟩ := hl.wellFormed
  have hmono : ∀ x, s.pmm.Held x → pmm.Held x := fun _ => pmmAlloc_held halloc
  exact ⟨⟨fun x hx => hmono x (hl.held x hx), fun t ht => hl.kept t fun h => ht (h.mono hmono)⟩,
    ⟨htree, fun q t ht => hmono t (hheld q t ht), hentries⟩, hl.root, hl.entry, hl.tables,
    fun v p hv hp => ⟨(hl.pages v p hv hp).1.mono hmono, (hl.pages v p hv hp).2⟩⟩

theorem Loading.map (hl : Loading s₀ clone s) (hv : FreeSlot s₀ page) (ha : Obtained s₀ s a)
    (hal : Aligned a) (hnew : ∀ q, reach tableOf s.mem 0 clone q ≠ some a)
    (hflags : flags.toNat < 4096) (h : pagingMapPageOn s clone page a flags = (ret, s')) :
    Loading s₀ clone s' := by
  have hon := pagingMapPageOn_writesOn hl.wellFormed h
  have hin := pagingMapPageOn_writesHeld hl.wellFormed h
  have htr := pagingMapPageOn_translation hl.wellFormed hflags h
  have hfirst : ∀ {j k : Index} {q : List Index},
      (k :: q) ++ [j] <+: pathOf page → k = idxPml4 page := by
    rintro j k q ⟨r, hr⟩
    simp only [pathOf, List.cons_append, List.cons.injEq] at hr
    exact hr.1
  have hclone := hl.wellFormed.held [] clone rfl
  refine ⟨⟨fun x hx => hon.held x (hl.held x hx), fun t ht => ?_⟩,
    (pagingMapPageOn_spec hl.wellFormed h).1, hl.root, fun i hi => ?_,
    fun i q t hi ht hheld => ?_, fun v p hfree hp => ?_⟩
  · -- a frame that was in use before the call, or is free still
    by_cases hold : s₀.pmm.Held t
    · rw [← hl.kept t fun h => h.1 hold]
      funext j
      refine hon.writes t j (hl.held t hold) fun p hp hreach => ?_
      rcases p with _ | ⟨k, q⟩
      · cases hreach
        exact hl.root hold
      · obtain rfl := hfirst hp
        exact hl.tables _ q t hv hreach hold
    · have hout : ¬ s'.pmm.Held t := fun h => ht ⟨hold, h⟩
      rw [hin.writes t hout]
      exact hl.kept t fun h => hout (hon.held t h.2)
  · rw [← hl.entry i hi]
    refine hon.writes clone i hclone fun p hp hreach => ?_
    obtain rfl := hl.wellFormed.tree p [] clone hreach rfl
    have hi' : i = idxPml4 page := by
      obtain ⟨r, hr⟩ := hp
      simp only [pathOf, List.nil_append, List.cons_append, List.cons.injEq] at hr
      exact hr.1
    rw [hi', hv] at hi
    cases hi
  · exact hl.tables i q t hi (hon.tables _ t (hl.held t hheld) ht) hheld
  · rw [htr] at hp
    split at hp
    · -- the new page
      obtain rfl := Option.some.inj hp
      rw [hal, frameOf_inFrame hal]
      exact ⟨ha.mono hon.held, fun q hq => hnew q (hon.tables q a ha.2 hq)⟩
    · obtain ⟨hobt, hno⟩ := hl.pages v p hfree hp
      exact ⟨hobt.mono hon.held, fun q hq => hno q (hon.tables q _ hobt.2 hq)⟩

theorem getOrCreate_zero (h : pagingGetOrCreateTable s t i flags = (0, s')) :
    s'.mem = s.mem ∧ ∀ x, s.pmm.Held x → s'.pmm.Held x := by
  unfold pagingGetOrCreateTable at h
  split at h
  · obtain rfl := congrArg Prod.snd h
    exact ⟨rfl, fun _ hx => hx⟩
  · rcases halloc : pmmAlloc s.pmm with ⟨a, pmm⟩
    rw [halloc] at h
    dsimp only at h
    split at h
    · cases h
      exact ⟨rfl, fun _ => pmmAlloc_held halloc⟩
    · rename_i ha
      exact absurd (congrArg Prod.fst h) ha

theorem getOrCreate_congr (flags : Word) (hmem : s'.mem t i = s.mem t i) (hpmm : s'.pmm = s.pmm) :
    (pagingGetOrCreateTable s' t i flags).1 = (pagingGetOrCreateTable s t i flags).1 := by
  unfold pagingGetOrCreateTable
  rw [hmem, hpmm]
  split
  · rfl
  · rcases pmmAlloc s.pmm with ⟨a, pmm⟩
    dsimp only
    split <;> rfl

/-- A mapping that gives up in front of the page directory has marked the PML4 entry, and nothing
else. -/
theorem pagingMapPageOn_giveUp (hw : WellFormed s clone)
    (hpresent : has (s.mem clone (idxPml4 page)) PAGE_PRESENT = true) (hno : NoDirectory s clone page)
    (h : pagingMapPageOn s clone page a (PAGE_USER ||| PAGE_RW) = (ret, s')) :
    ret = -1 ∧ (∀ t, t ≠ clone → s'.mem t = s.mem t) ∧ ∀ x, s.pmm.Held x → s'.pmm.Held x := by
  have hreach : reach tableOf s.mem 0 clone [idxPml4 page] =
      some (addr (s.mem clone (idxPml4 page))) := by
    simp [reach, tableOf, hpresent]
  have hpdpt : addr (s.mem clone (idxPml4 page)) ≠ clone := by
    intro heq
    rw [heq] at hreach
    exact List.cons_ne_nil _ _ (hw.tree _ [] clone hreach rfl)
  have hflags : (PAGE_USER ||| PAGE_RW) &&& PAGE_USER = PAGE_USER := by decide
  have htop : pagingGetOrCreateTable s clone (idxPml4 page) PAGE_USER =
      (addr (s.mem clone (idxPml4 page)), s) := by
    rw [pagingGetOrCreateTable, if_pos hpresent]
  simp only [pagingMapPageOn, hflags, htop] at h
  unfold NoDirectory at hno
  split at h
  · cases h
    exact ⟨rfl, fun _ _ => rfl, fun _ hx => hx⟩
  · rename_i hzero
    have hnone := hno.resolve_left hzero
    rcases hpd : pagingGetOrCreateTable (grantUser s clone (idxPml4 page) (PAGE_USER ||| PAGE_RW))
      (addr (s.mem clone (idxPml4 page))) (idxPdpt page) PAGE_USER with ⟨pd, s₁⟩
    have hpd0 : pd = 0 := by
      rw [← hnone, ← getOrCreate_congr PAGE_USER
        (congrFun (grantUser_mem_ne hpdpt) (idxPdpt page)) (grantUser_pmm ..), hpd]
    subst hpd0
    obtain ⟨hmem, hheld⟩ := getOrCreate_zero hpd
    simp only [hpd, if_true] at h
    cases h
    refine ⟨rfl, fun t ht => ?_, fun x hx => hheld x ?_⟩
    · rw [hmem, grantUser_mem_ne ht]
    · rwa [grantUser_pmm]

theorem Loading.giveUp (hl : Loading s₀ clone s) (hslot : ¬ FreeSlot s₀ page)
    (hno : NoDirectory s clone page)
    (h : pagingMapPageOn s clone page a (PAGE_USER ||| PAGE_RW) = (ret, s')) :
    ret = -1 ∧ OwnFrames s₀ s' ∧ ∀ x, s.pmm.Held x → s'.pmm.Held x := by
  have hused := not_freeSlot hslot
  obtain ⟨hret, hmem, hmono⟩ :=
    pagingMapPageOn_giveUp hl.wellFormed (by rw [hl.entry _ hused]; exact hused) hno h
  refine ⟨hret, ⟨fun x hx => hmono x (hl.held x hx), fun t ht => ?_⟩, hmono⟩
  rw [hmem t ?_]
  · exact hl.kept t fun hobt => ht (hobt.mono hmono)
  · rintro rfl
    exact ht ⟨hl.root, hmono _ (hl.wellFormed.held [] _ rfl)⟩

theorem Loading.mapFresh (hl : Loading s₀ clone s) (hv : PageApart s₀ clone s page)
    (h : mapFresh s clone page = (ok, s')) :
    OwnFrames s₀ s' ∧ (∀ a, s.pmm.Held a → s'.pmm.Held a) ∧ (ok = true → Loading s₀ clone s') := by
  rcases halloc : pmmAlloc s.pmm with ⟨a, pmm⟩
  have hmono : ∀ x, s.pmm.Held x → pmm.Held x := fun _ => pmmAlloc_held halloc
  simp only [Elf.mapFresh, halloc] at h
  by_cases ha : a = 0
  · rw [if_pos ha] at h
    cases h
    exact ⟨(hl.alloc halloc).toOwnFrames, hmono, fun hno => Bool.noConfusion hno⟩
  rw [if_neg ha] at h
  obtain ⟨hal, hnew, hheld, -⟩ := pmmAlloc_table hl.wellFormed halloc ha
  have hobt : Obtained s₀ { s with pmm } a :=
    ⟨fun hold => (pmmAlloc_fresh halloc ha).1 (hl.held a hold), hheld⟩
  have hclear : ∀ t, t ≠ a → fillTable s.mem a (fun _ => 0) t = s.mem t :=
    fun t ht => fillTable_ne _ _ ht
  have hl' := (hl.alloc halloc).of_data hobt hnew hclear
  have hnew' : ∀ q, reach tableOf (fillTable s.mem a fun _ => 0) 0 clone q ≠ some a := fun q => by
    rw [(walk_fillTable hnew q).1]
    exact hnew q
  rcases hm : pagingMapPageOn { s with mem := fillTable s.mem a fun _ => 0, pmm } clone page a
    (PAGE_USER ||| PAGE_RW) with ⟨ret, s₁⟩
  simp only [hm] at h
  cases h
  by_cases hslot : FreeSlot s₀ page
  · have hl₁ := hl'.map hslot hobt hal hnew' userFlags_lt hm
    exact ⟨hl₁.toOwnFrames, fun x hx => (pagingMapPageOn_writesHeld hl'.wellFormed hm).held x (hmono x hx),
      fun _ => hl₁⟩
  · unfold PageApart at hv
    rw [halloc] at hv
    have hused := not_freeSlot hslot
    have hno : NoDirectory { s with mem := fillTable s.mem a fun _ => 0, pmm } clone page := by
      -- the cleared frame is no table of the walk
      have hpml4 : fillTable s.mem a (fun _ => 0) clone = s.mem clone :=
        hclear clone fun heq => hnew [] (congrArg some heq)
      have hpdpt : addr (s.mem clone (idxPml4 page)) ≠ a := by
        intro heq
        refine hnew [idxPml4 page] ?_
        simp [reach, tableOf, hl.entry _ hused, hused, ← heq]
      have hsame : (pagingGetOrCreateTable { s with mem := fillTable s.mem a fun _ => 0, pmm }
            (addr (s.mem clone (idxPml4 page))) (idxPdpt page) PAGE_USER).1 =
          (pagingGetOrCreateTable { s with pmm } (addr (s.mem clone (idxPml4 page))) (idxPdpt page)
            PAGE_USER).1 :=
        getOrCreate_congr PAGE_USER (congrFun (hclear _ hpdpt) (idxPdpt page)) rfl
      unfold NoDirectory
      dsimp only
      rw [hpml4, hsame]
      exact (hv.resolve_left ha).resolve_left hslot
    obtain ⟨rfl, hown, hmono'⟩ := hl'.giveUp hslot hno hm
    exact ⟨hown, fun x hx => hmono' x (hmono x hx), fun hok => by simp at hok⟩

theorem Loading.mapPages (hl : Loading s₀ clone s)
    (hpages : ∀ k < n, ∀ t, mapPages clone k page s = (true, t) →
      PageApart s₀ clone t (page + BitVec.ofNat 64 (4096 * k)))
    (h : mapPages clone n page s = (ok, s')) :
    OwnFrames s₀ s' ∧ (∀ a, s.pmm.Held a → s'.pmm.Held a) ∧ (ok = true → Loading s₀ clone s') := by
  induction n generalizing s page with
  | zero =>
    cases h
    exact ⟨hl.toOwnFrames, fun _ ha => ha, fun _ => hl⟩
  | succ n ih =>
    rcases hf : Elf.mapFresh s clone page with ⟨ok₁, s₁⟩
    have hfirst : PageApart s₀ clone s page := by simpa using hpages 0 (Nat.succ_pos n) s rfl
    obtain ⟨hown, hmono, hl₁⟩ := hl.mapFresh hfirst hf
    rw [Elf.mapPages] at h
    simp only [hf] at h
    cases ok₁ with
    | false =>
      cases h
      exact ⟨hown, hmono, fun hok => Bool.noConfusion hok⟩
    | true =>
      have hrest : ∀ k < n, ∀ t, Elf.mapPages clone k (page + 4096) s₁ = (true, t) →
          PageApart s₀ clone t (page + 4096 + BitVec.ofNat 64 (4096 * k)) := by
        intro k hk t ht
        have hat : page + 4096 + BitVec.ofNat 64 (4096 * k) =
            page + BitVec.ofNat 64 (4096 * (k + 1)) := by
          rw [BitVec.add_assoc, Nat.mul_succ, Nat.add_comm, BitVec.ofNat_add]
          rfl
        rw [hat]
        refine hpages (k + 1) (Nat.succ_lt_succ hk) t ?_
        rw [Elf.mapPages]
        simp only [hf]
        exact ht
      obtain ⟨hown₂, hmono', hl₂⟩ := ih (hl₁ rfl) hrest h
      exact ⟨hown₂, fun a ha => hmono' a (hmono a ha), hl₂⟩

-- ---------------------------------------------------------------------------
-- Loading
-- ---------------------------------------------------------------------------

theorem Loading.storeAt (hl : Loading s₀ clone s) (hw : WellFormed s₀ s₀.gPml4)
    (hnone : pagingGetPhysOn s₀.mem s₀.gPml4 w = 0) (hin : w.toNat % 4096 + n ≤ 4096)
    (hphys : pagingGetPhysOn s.mem clone w ≠ 0) (src : Bytes) :
    Loading s₀ clone { s with mem := storeBytes s.mem (pagingGetPhysOn s.mem clone w) src n } ∧
      (∀ v, pagingGetPhysOn (storeBytes s.mem (pagingGetPhysOn s.mem clone w) src n) clone v =
        pagingGetPhysOn s.mem clone v) ∧
      InObtained s₀ s (pagingGetPhysOn s.mem clone w, n) := by
  have htr := translation_of_phys hphys
  have hfree := hl.freeSlot hw hnone hphys
  obtain ⟨hl', hsame⟩ := hl.store hfree htr hin src
  refine ⟨hl', hsame, fun j hj => ?_⟩
  have hoff := translation_offset htr
  dsimp only at hj ⊢
  rw [frameOf_add (by omega)]
  exact (hl.pages w _ hfree htr).1

theorem Loading.copyChunks (hl : Loading s₀ clone s) (hw : WellFormed s₀ s₀.gPml4)
    (hsame : ∀ v, pagingGetPhysOn s.mem clone v = pagingGetPhysOn m' clone v)
    (hok : ChunksApart fp fuel node s₀ m' clone rounds rest w tmp offset d)
    (h : copyChunks fp fuel node clone rounds rest w tmp offset s d = some (s', d')) :
    Loading s₀ clone s' ∧ s'.pmm = s.pmm ∧
      ∀ x ∈ copyStores fp fuel node clone rounds rest w tmp offset s d, InObtained s₀ s x := by
  induction rounds generalizing rest w tmp offset s d with
  | zero =>
    cases h
    exact ⟨hl, rfl, fun x hx => absurd hx List.not_mem_nil⟩
  | succ rounds ih =>
    rw [Elf.copyChunks] at h
    rw [copyStores]
    by_cases hrest : rest > 0
    · rw [if_pos hrest] at h ⊢
      rcases hread : vfsRead fp fuel node offset (min rest 512) tmp d with _ | ⟨nr, offset', tmp', d₁⟩
      · rw [hread] at h
        cases h
      rw [hread] at h
      dsimp only at h ⊢
      by_cases hnr : nr ≤ 0
      · rw [if_pos hnr] at h ⊢
        cases h
        exact ⟨hl, rfl, fun x hx => absurd hx List.not_mem_nil⟩
      rw [if_neg hnr] at h ⊢
      obtain ⟨hnone, hin, hnext⟩ := hok hrest nr offset' tmp' d₁ hread (by omega)
      by_cases hphys : pagingGetPhysOn s.mem clone w ≠ 0
      · rw [if_pos hphys] at h ⊢
        rw [if_pos hphys]
        obtain ⟨hl₁, hkeep, hstore⟩ := hl.storeAt hw hnone (hin (hsame w ▸ hphys)) hphys tmp'
        obtain ⟨hl', hpmm, hall⟩ := ih hl₁ (fun v => (hkeep v).trans (hsame v)) hnext h
        refine ⟨hl', hpmm, fun x hx => ?_⟩
        rcases List.mem_cons.mp hx with rfl | hx
        · exact hstore
        · exact hall x hx
      · rw [if_neg hphys] at h ⊢
        rw [if_neg hphys]
        exact ih hl hsame hnext h
    · rw [if_neg hrest] at h ⊢
      cases h
      exact ⟨hl, rfl, fun x hx => absurd hx List.not_mem_nil⟩

theorem Loading.zeroTail (hl : Loading s₀ clone s) (hw : WellFormed s₀ s₀.gPml4)
    (hnone : ∀ j < n, pagingGetPhysOn s₀.mem s₀.gPml4 (w + BitVec.ofNat 64 j) = 0) :
    Loading s₀ clone { s with mem := zeroTail clone n w s.mem } ∧
      ∀ x ∈ zeroStores clone n w s.mem, InObtained s₀ s x := by
  induction n generalizing s w with
  | zero => exact ⟨hl, fun x hx => absurd hx List.not_mem_nil⟩
  | succ n ih =>
    rw [Elf.zeroTail, zeroStores]
    have hfirst : pagingGetPhysOn s₀.mem s₀.gPml4 w = 0 := by simpa using hnone 0 (Nat.succ_pos n)
    have hrest : ∀ j < n, pagingGetPhysOn s₀.mem s₀.gPml4 (w + 1 + BitVec.ofNat 64 j) = 0 := by
      intro j hj
      have hat : w + 1 + BitVec.ofNat 64 j = w + BitVec.ofNat 64 (j + 1) := by
        rw [BitVec.add_assoc, Nat.add_comm, BitVec.ofNat_add]
        rfl
      rw [hat]
      exact hnone (j + 1) (Nat.succ_lt_succ hj)
    by_cases hphys : pagingGetPhysOn s.mem clone w ≠ 0
    · rw [if_pos hphys, if_pos hphys]
      have hone : storeByte s.mem (pagingGetPhysOn s.mem clone w) 0 =
          storeBytes s.mem (pagingGetPhysOn s.mem clone w) (fun _ => 0) 1 := by
        rw [storeBytes, storeBytes]
        exact congrArg (fun p => storeByte s.mem p 0) (BitVec.add_zero _).symm
      obtain ⟨hl₁, -, hstore⟩ := hl.storeAt (n := 1) hw hfirst
        (by have := Nat.mod_lt w.toNat (y := 4096); omega) hphys fun _ => 0
      rw [hone]
      obtain ⟨hl', hall⟩ := ih hl₁ hrest
      refine ⟨hl', fun x hx => ?_⟩
      rcases List.mem_cons.mp hx with rfl | hx
      · exact hstore
      · exact hall x hx
    · rw [if_neg hphys, if_neg hphys]
      exact ih hl hrest

theorem InObtained.mono {x : Word × Nat} (h : InObtained s₀ s x)
    (hs : ∀ a, s.pmm.Held a → s'.pmm.Held a) : InObtained s₀ s' x :=
  fun j hj => (h j hj).mono hs

theorem Loading.loadSegment (hl : Loading s₀ clone s) (hw : WellFormed s₀ s₀.gPml4)
    (hok : ph.pType = PT_LOAD → SegmentApart fp fuel node junk s₀ clone ph s d)
    (h : loadSegment fp fuel node junk clone ph s d = some (ok, s', d')) :
    OwnFrames s₀ s' ∧ (∀ a, s.pmm.Held a → s'.pmm.Held a) ∧ (ok = true → Loading s₀ clone s') ∧
      ∀ x ∈ segmentStores fp fuel node junk clone ph s d, InObtained s₀ s' x := by
  rw [Elf.loadSegment] at h
  rw [segmentStores]
  by_cases htype : ph.pType = PT_LOAD
  swap
  · rw [if_pos htype] at h ⊢
    cases h
    exact ⟨hl.toOwnFrames, fun _ ha => ha, fun _ => hl, fun x hx => absurd hx List.not_mem_nil⟩
  rw [if_neg (not_not_intro htype)] at h ⊢
  obtain ⟨hpages, hchunks, htail⟩ := hok htype
  rcases hm : Elf.mapPages clone (pageCount ph) (startPage ph) s with ⟨ok₁, s₁⟩
  obtain ⟨hown, hmono, hl₁⟩ := hl.mapPages hpages hm
  rw [hm] at h
  dsimp only at h ⊢
  cases ok₁ with
  | false =>
    cases h
    exact ⟨hown, hmono, fun hno => Bool.noConfusion hno, fun x hx => absurd hx List.not_mem_nil⟩
  | true =>
    obtain ⟨⟨s₂, d₂⟩, hcopy, he⟩ := Option.map_eq_some_iff.mp h
    cases he
    obtain ⟨hl₂, hpmm, hcopies⟩ :=
      (hl₁ rfl).copyChunks hw (fun _ => rfl) (hchunks s₁ hm) hcopy
    obtain ⟨hl₃, hzeros⟩ := hl₂.zeroTail hw (w := ph.pVaddr + BitVec.ofNat 64 ph.pFilesz)
      (n := ph.pMemsz - ph.pFilesz) fun j hj => by
        rw [BitVec.add_assoc, ← BitVec.ofNat_add]
        exact htail s₁ hm _ (Nat.le_add_right ..) (by omega)
    have hheld : ∀ a, s₁.pmm.Held a → s₂.pmm.Held a := fun a ha => hpmm ▸ ha
    refine ⟨hl₃.toOwnFrames, fun a ha => hheld a (hmono a ha), fun _ => hl₃, fun x hx => ?_⟩
    simp only [Bool.not_true, Bool.false_eq_true, if_false, hcopy, Option.elim_some,
      List.mem_append] at hx
    rcases hx with hx | hx
    · exact (hcopies x hx).mono hheld
    · exact hzeros x hx

theorem Loading.loadSegments (hl : Loading s₀ clone s) (hw : WellFormed s₀ s₀.gPml4)
    (hok : LoadApart fp fuel node junk s₀ clone phs s d)
    (h : loadSegments fp fuel node junk clone phs s d = some (ok, s', d')) :
    OwnFrames s₀ s' ∧ (∀ a, s.pmm.Held a → s'.pmm.Held a) ∧
      ∀ x ∈ loadStores fp fuel node junk clone phs s d, InObtained s₀ s' x := by
  induction phs generalizing s d with
  | nil =>
    cases h
    exact ⟨hl.toOwnFrames, fun _ ha => ha, fun x hx => absurd hx List.not_mem_nil⟩
  | cons ph phs ih =>
    obtain ⟨hseg, hrest⟩ := hok
    rw [Elf.loadSegments] at h
    rw [loadStores]
    rcases hs : Elf.loadSegment fp fuel node junk clone ph s d with _ | ⟨ok₁, s₁, d₁⟩
    · rw [hs] at h
      cases h
    obtain ⟨hown, hmono, hl₁, hstores⟩ := hl.loadSegment hw hseg hs
    rw [hs] at h
    cases ok₁ with
    | false =>
      cases h
      refine ⟨hown, hmono, fun x hx => ?_⟩
      rw [List.append_nil] at hx
      exact hstores x hx
    | true =>
      obtain ⟨hown₂, hmono', hstores'⟩ := ih (hl₁ rfl) (hrest s₁ d₁ hs) h
      refine ⟨hown₂, fun a ha => hmono' a (hmono a ha), fun x hx => ?_⟩
      rcases List.mem_append.mp hx with hx | hx
      · exact (hstores x hx).mono hmono'
      · exact hstores' x hx

end EponaOS.Kernel.Elf
