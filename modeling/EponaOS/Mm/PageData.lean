import EponaOS.Mm.PageClone
import EponaOS.Mm.PageFrames
import EponaOS.Mm.PageMapping
import EponaOS.Mm.PhysBytes

/-!
# Pages that hold data

An address space next to the frames that some of its pages are known to lie in, each a
frame of its own that is no table. Mapping one more page, and storing bytes into such a
page, leaves the bytes of all others alone.
-/

namespace EponaOS.Mm

open TableTrie Function

variable {s s' : Machine} {pml4 v w a b : Word} {F : Nat → Option Word}

def pageNo (v : Word) : Nat := v.toNat % 2 ^ 48 / 4096

theorem pathOf_eq_iff : pathOf v = pathOf w ↔ pageNo v = pageNo w := by
  simp only [pathOf, idxPml4, idxPdpt, idxPd, idxPt, List.cons.injEq, Fin.ext_iff, index_toNat,
    and_true, pageNo]
  omega

def byteAt (m : PhysMem) (pml4 v : Word) : UInt8 := loadByte m (pagingGetPhysOn m pml4 v)

/-- Page number `n` lies in the frame `F n`, where it is known. No table and no known page
lies directly behind a free frame. -/
structure Owned (s : Machine) (pml4 : Word) (F : Nat → Option Word) : Prop where
  wellFormed : WellFormed s pml4
  aligned : ∀ n a, F n = some a → Aligned a
  ne_zero : ∀ n a, F n = some a → a ≠ 0
  held : ∀ n a, F n = some a → s.pmm.Held a
  no_table : ∀ n a, F n = some a → ∀ q, reach tableOf s.mem 0 pml4 q ≠ some a
  phys : ∀ v a, F (pageNo v) = some a → pagingGetPhysOn s.mem pml4 v = a ||| (v &&& 0xFFF)
  inj : ∀ n k a, F n = some a → F k = some a → n = k
  table_behind : ∀ q t, reach tableOf s.mem 0 pml4 q = some t → s.pmm.Held (t - 4096)
  page_behind : ∀ n a, F n = some a → s.pmm.Held (a - 4096)

theorem Owned.none (hw : WellFormed s pml4)
    (hb : ∀ q t, reach tableOf s.mem 0 pml4 q = some t → s.pmm.Held (t - 4096)) :
    Owned s pml4 fun _ => none where
  wellFormed := hw
  aligned _ _ h := absurd h (Option.some_ne_none _).symm
  ne_zero _ _ h := absurd h (Option.some_ne_none _).symm
  held _ _ h := absurd h (Option.some_ne_none _).symm
  no_table _ _ h := absurd h (Option.some_ne_none _).symm
  phys _ _ h := absurd h (Option.some_ne_none _).symm
  inj _ _ _ h := absurd h (Option.some_ne_none _).symm
  table_behind := hb
  page_behind _ _ h := absurd h (Option.some_ne_none _).symm

-- ---------------------------------------------------------------------------
-- Mapping a page
-- ---------------------------------------------------------------------------

/-- A successful call sets the one page, whether or not the addresses are canonical; one that
fails sets none. -/
theorem pagingMapPageOn_translation (hw : WellFormed s pml4) (hflags : flags.toNat < 4096)
    (h : pagingMapPageOn s pml4 virt phys flags = (ret, s')) (v : Word) :
    translation s'.mem pml4 v =
      if ret = 0 ∧ pageNo v = pageNo virt then some (addr phys ||| (v &&& 0xFFF))
      else translation s.mem pml4 v := by
  obtain ⟨-, ⟨rfl, hpart⟩ | ⟨rfl, ⟨es, hes, hpage⟩, ptNew, hal, hother⟩⟩ := pagingMapPageOn_spec hw h
  · obtain ⟨f, hf, hmap⟩ := hpart (pathOf v) rfl
    rw [if_neg fun h => absurd h.1 (by decide)]
    exact hw.partway_translation hf hmap
  by_cases hsame : pageNo v = pageNo virt
  · rw [if_pos ⟨rfl, hsame⟩, translation, pathOf_eq_iff.mpr hsame, hpage]
    obtain ⟨e4, e3, e2, rfl⟩ := List.length_eq_three.mp hes
    simp only [Option.map_some, List.cons_append, List.nil_append, physOf]
    rw [addr_or_of_low, addr_idem]
    rw [addr_or, addr_of_low hflags, addr_present]
    rfl
  · rw [if_neg fun h => hsame h.2]
    exact hw.partway_translation (fun _ => .pd ptNew hal)
      (hother (pathOf v) rfl fun hp => hsame (pathOf_eq_iff.mp hp))

theorem pagingMapPageOn_phys (hw : WellFormed s pml4) (hflags : flags.toNat < 4096)
    (h : pagingMapPageOn s pml4 virt phys flags = (0, s')) (v : Word) :
    pagingGetPhysOn s'.mem pml4 v =
      if pageNo v = pageNo virt then addr phys ||| (v &&& 0xFFF)
      else pagingGetPhysOn s.mem pml4 v := by
  have hphys : ∀ m, pagingGetPhysOn m pml4 v = (translation m pml4 v).getD 0 :=
    fun m => pagingGetPhysOn_eq m pml4 v
  rw [hphys, hphys, pagingMapPageOn_translation hw hflags h]
  by_cases hsame : pageNo v = pageNo virt
  · rw [if_pos ⟨rfl, hsame⟩, if_pos hsame, Option.getD_some]
  · rw [if_neg fun h => hsame h.2, if_neg hsame]

theorem WellFormed.cleared (hw : WellFormed s pml4) (halloc : pmmAlloc s.pmm = (a, pmm))
    (ha : a ≠ 0) :
    WellFormed { s with mem := fillTable s.mem a fun _ => 0, pmm } pml4 ∧
      ∀ q, reach tableOf (fillTable s.mem a fun _ => 0) 0 pml4 q = reach tableOf s.mem 0 pml4 q ∧
        trace tableOf (fillTable s.mem a fun _ => 0) 0 pml4 q = trace tableOf s.mem 0 pml4 q := by
  obtain ⟨-, hnew, -, hmono⟩ := pmmAlloc_table hw halloc ha
  have hm : ∀ q t, reach tableOf s.mem 0 pml4 q = some t →
      fillTable s.mem a (fun _ => 0) t = s.mem t := by
    intro q t ht
    apply fillTable_ne
    rintro rfl
    exact hnew q ht
  obtain ⟨htree, hheld, hentries⟩ := (hw.of_data hm).1
  exact ⟨⟨htree, fun q t ht => hmono t (hheld q t ht), hentries⟩, walk_fillTable hnew⟩

section
variable (ho : Owned s pml4 F) (halloc : pmmAlloc s.pmm = (a, pmm)) (ha : a ≠ 0)
  (h : pagingMapPageOn { s with mem := fillTable s.mem a fun _ => 0, pmm } pml4 virt a flags =
    (0, s'))
include ho halloc ha h

theorem Owned.map_keeps (hb : pmm.Held b) (hq : ∀ q, reach tableOf s.mem 0 pml4 q ≠ some b) :
    s'.pmm.Held b ∧ s'.mem b = fillTable s.mem a (fun _ => 0) b ∧
      ∀ q, reach tableOf s'.mem 0 pml4 q ≠ some b := by
  obtain ⟨hw, hwalk⟩ := ho.wellFormed.cleared halloc ha
  have hon := pagingMapPageOn_writesOn hw h
  have hq1 : ∀ q, reach tableOf (fillTable s.mem a fun _ => 0) 0 pml4 q ≠ some b := fun q => by
    rw [(hwalk q).1]
    exact hq q
  exact ⟨hon.held b hb, funext fun j => hon.writes b j hb fun p _ => hq1 p,
    fun q ht => hq1 q (hon.tables q b hb ht)⟩

theorem Owned.map_tables (hold : s.pmm.Held t) (ht : reach tableOf s'.mem 0 pml4 q = some t) :
    reach tableOf s.mem 0 pml4 q = some t := by
  obtain ⟨hw, hwalk⟩ := ho.wellFormed.cleared halloc ha
  rw [← (hwalk q).1]
  exact (pagingMapPageOn_writesOn hw h).tables q t (pmmAlloc_held halloc hold) ht

theorem Owned.map (hflags : flags.toNat < 4096) :
    Owned s' pml4 (update F (pageNo virt) (some a)) ∧ s'.mem a = (fun _ => 0) ∧
      ∀ n b, F n = some b → s'.mem b = s.mem b := by
  obtain ⟨hal, hnew, hheld, hmono⟩ := pmmAlloc_table ho.wellFormed halloc ha
  obtain ⟨hw1, hwalk⟩ := ho.wellFormed.cleared halloc ha
  have hfresh := (pmmAlloc_fresh halloc ha).1
  have hne : ∀ n b, F n = some b → b ≠ a := by
    rintro n b hb rfl
    exact hfresh (ho.held n b hb)
  have hgrows : s.pmm.Grows s'.pmm := by
    refine pagingMapPageOn_grows ?_ h
    have := (Pmm.Grows.refl s.pmm).alloc
    rwa [halloc] at this
  obtain ⟨hheld', hzero, hnew'⟩ := ho.map_keeps halloc ha h hheld hnew
  have hkept := fun n b (hb : F n = some b) =>
    ho.map_keeps halloc ha h (hmono b (ho.held n b hb)) (ho.no_table n b hb)
  have hphys := pagingMapPageOn_phys hw1 hflags h
  have hcases : ∀ n b, update F (pageNo virt) (some a) n = some b →
      (n = pageNo virt ∧ b = a) ∨ (n ≠ pageNo virt ∧ F n = some b) := by
    intro n b hb
    rw [update_apply] at hb
    split at hb
    · rename_i hn
      exact .inl ⟨hn, (Option.some.inj hb).symm⟩
    · rename_i hn
      exact .inr ⟨hn, hb⟩
  have hw' := (pagingMapPageOn_spec hw1 h).1
  refine ⟨⟨hw', fun n b hb => ?_, fun n b hb => ?_, fun n b hb => ?_, fun n b hb => ?_,
    fun v b hb => ?_, fun n k b hn hk => ?_, fun q t ht => ?_, fun n b hb => ?_⟩, ?_,
    fun n b hb => ?_⟩
  · obtain ⟨-, rfl⟩ | ⟨-, hb⟩ := hcases n b hb
    · exact hal
    · exact ho.aligned n b hb
  · obtain ⟨-, rfl⟩ | ⟨-, hb⟩ := hcases n b hb
    · exact ha
    · exact ho.ne_zero n b hb
  · obtain ⟨-, rfl⟩ | ⟨-, hb⟩ := hcases n b hb
    · exact hheld'
    · exact (hkept n b hb).1
  · obtain ⟨-, rfl⟩ | ⟨-, hb⟩ := hcases n b hb
    · exact hnew'
    · exact (hkept n b hb).2.2
  · rw [hphys]
    obtain ⟨hv, rfl⟩ | ⟨hv, hb⟩ := hcases _ b hb
    · rw [if_pos hv, hal]
    · rw [if_neg hv, pagingGetPhysOn_eq, pageEntries_congr (hwalk _).2, ← pagingGetPhysOn_eq]
      exact ho.phys v b hb
  · obtain ⟨h1, h1'⟩ | ⟨-, h1⟩ := hcases n b hn
    · obtain ⟨h2, -⟩ | ⟨-, h2⟩ := hcases k b hk
      · rw [h1, h2]
      · exact absurd h1' (hne k b h2)
    · obtain ⟨-, h2⟩ | ⟨-, h2⟩ := hcases k b hk
      · exact absurd h2 (hne n b h1)
      · exact ho.inj n k b h1 h2
  · by_cases hold : s.pmm.Held t
    · exact hgrows.held _ (ho.table_behind q t (ho.map_tables halloc ha h hold ht))
    · exact hgrows.behind t (hw'.held q t ht) hold
  · obtain ⟨-, rfl⟩ | ⟨-, hb⟩ := hcases n b hb
    · exact hgrows.behind b hheld' hfresh
    · exact hgrows.held _ (ho.page_behind n b hb)
  · rw [hzero, fillTable_same]
  · rw [(hkept n b hb).2.1, fillTable_ne _ _ (hne n b hb)]

theorem Owned.map_behind (hpt : reach tableOf s.mem 0 pml4 (tablePath virt) = some pt) :
    (∀ q, reach tableOf s'.mem 0 pml4 q ≠ some (a + 4096)) ∧
      ∀ n, update F (pageNo virt) (some a) n ≠ some (a + 4096) := by
  obtain ⟨hw1, hwalk⟩ := ho.wellFormed.cleared halloc ha
  have hfresh := (pmmAlloc_fresh halloc ha).1
  have hpmm : s'.pmm = pmm := by
    generalize hs : { s with mem := fillTable s.mem a fun _ => 0, pmm } = s₁ at h
    have hreach : reach tableOf s₁.mem 0 pml4 (tablePath virt) = some pt := by
      rw [← hs]
      exact ((hwalk _).1).trans hpt
    have hsame : (pagingMapPageOn s₁ pml4 virt a flags).2.pmm = s₁.pmm := pagingMapPageOn_pmm hreach
    rw [h, ← hs] at hsame
    exact hsame
  have hne : a + 4096 ≠ a := by
    intro he
    have := congrArg BitVec.toNat he
    rw [BitVec.toNat_add] at this
    simp only [BitVec.reduceToNat] at this
    omega
  refine ⟨fun q hq => ?_, fun n hn => ?_⟩
  · by_cases hold : s.pmm.Held (a + 4096)
    · have hheld := ho.table_behind q _ (ho.map_tables halloc ha h hold hq)
      rw [BitVec.add_sub_cancel] at hheld
      exact hfresh hheld
    · have hheld := (pagingMapPageOn_spec hw1 h).1.held q _ hq
      rw [hpmm] at hheld
      exact hne (pmmAlloc_only halloc hheld hold)
  · rw [update_apply] at hn
    split at hn
    · exact hne (Option.some.inj hn).symm
    · have hheld := ho.page_behind n _ hn
      rw [BitVec.add_sub_cancel] at hheld
      exact hfresh hheld

end

-- ---------------------------------------------------------------------------
-- Storing bytes
-- ---------------------------------------------------------------------------

theorem Owned.phys_toNat (ho : Owned s pml4 F) (hv : F (pageNo v) = some a) :
    (pagingGetPhysOn s.mem pml4 v).toNat = a.toNat + v.toNat % 4096 := by
  rw [ho.phys v a hv, inFrame_toNat (ho.aligned _ a hv)]

theorem Owned.phys_ne_zero (ho : Owned s pml4 F) (hv : F (pageNo v) = some a) :
    pagingGetPhysOn s.mem pml4 v ≠ 0 := by
  intro h
  have hn := congrArg BitVec.toNat h
  rw [ho.phys_toNat hv] at hn
  apply ho.ne_zero _ a hv
  apply BitVec.eq_of_toNat_eq
  exact Nat.eq_zero_of_add_eq_zero_right hn

theorem Owned.byteAt_eq (ho : Owned s pml4 F) (hv : F (pageNo v) = some a)
    (hm : s'.mem a = s.mem a) (ho' : Owned s' pml4 F') (hv' : F' (pageNo v) = some a) :
    byteAt s'.mem pml4 v = byteAt s.mem pml4 v := by
  rw [byteAt, byteAt, ho.phys v a hv, ho'.phys v a hv']
  exact loadByte_congr (by rw [frameOf_inFrame (ho.aligned _ a hv), hm])

theorem Owned.of_data (ho : Owned s pml4 F)
    (hm : ∀ q t, reach tableOf s.mem 0 pml4 q = some t → m' t = s.mem t) :
    Owned { s with mem := m' } pml4 F := by
  obtain ⟨hw', hreach, hphys⟩ := ho.wellFormed.of_data hm
  exact ⟨hw', ho.aligned, ho.ne_zero, ho.held, fun n a ha q => by
    rw [hreach q]; exact ho.no_table n a ha q, fun v a ha => by
    rw [hphys v]; exact ho.phys v a ha, ho.inj, fun q t ht => by
    rw [hreach q] at ht; exact ho.table_behind q t ht, ho.page_behind⟩

/-- Bytes stored at `w`, within its page, are at `w` and behind, and nowhere else. -/
theorem Owned.store (ho : Owned s pml4 F) (hw : F (pageNo w) = some a)
    (hin : w.toNat % 4096 + n ≤ 4096) (src : Bytes) :
    Owned { s with mem := storeBytes s.mem (pagingGetPhysOn s.mem pml4 w) src n } pml4 F ∧
      ∀ v b, F (pageNo v) = some b →
        byteAt (storeBytes s.mem (pagingGetPhysOn s.mem pml4 w) src n) pml4 v =
          if (v - w).toNat % 2 ^ 48 < n then src ((v - w).toNat % 2 ^ 48)
          else byteAt s.mem pml4 v := by
  have hal := ho.aligned _ a hw
  have hpw := ho.phys_toNat hw
  have hlt := hal.lt
  have hmul := hal.mod
  have hframe : frameOf (pagingGetPhysOn s.mem pml4 w) = a := by
    rw [ho.phys w a hw, frameOf_inFrame hal]
  have hoff : ∀ t, t ≠ a → storeBytes s.mem (pagingGetPhysOn s.mem pml4 w) src n t = s.mem t :=
    fun t ht => storeBytes_table_ne src (by omega) (by rwa [hframe])
  have ho' : Owned { s with mem := storeBytes s.mem (pagingGetPhysOn s.mem pml4 w) src n } pml4
      F := by
    refine ho.of_data fun q t ht => hoff t ?_
    rintro rfl
    exact ho.no_table _ _ hw q ht
  refine ⟨ho', fun v b hv => ?_⟩
  have hpv := ho.phys_toNat hv
  have hsub : (v - w).toNat = (v.toNat + 2 ^ 64 - w.toNat) % 2 ^ 64 := by
    have := w.isLt
    rw [BitVec.toNat_sub]
    congr 1
    omega
  have hv64 := v.isLt
  have hw64 := w.isLt
  have hphys : pagingGetPhysOn (storeBytes s.mem (pagingGetPhysOn s.mem pml4 w) src n) pml4 v =
      pagingGetPhysOn s.mem pml4 v := by
    rw [ho.phys v b hv]
    exact ho'.phys v b hv
  rw [byteAt, hphys, loadByte_storeBytes _ _ (by omega), hpw, hpv]
  by_cases hab : pageNo v = pageNo w
  · -- the same page: the same frame
    obtain rfl : a = b := Option.some.inj (hw.symm.trans (hab ▸ hv))
    rw [pageNo, pageNo] at hab
    by_cases hk : (v - w).toNat % 2 ^ 48 < n
    · rw [if_pos hk, if_pos (by omega)]
      congr 1
      omega
    · rw [if_neg hk, if_neg (by omega), byteAt]
  · have hne : a ≠ b := by
      rintro rfl
      exact hab (ho.inj _ _ a hv hw)
    have hne' : a.toNat ≠ b.toNat := fun h => hne (BitVec.eq_of_toNat_eq h)
    have hmul' := (ho.aligned _ b hv).mod
    have hk : ¬ (v - w).toNat % 2 ^ 48 < n := by
      rw [pageNo, pageNo] at hab
      omega
    rw [if_neg (by omega), if_neg hk, byteAt]

end EponaOS.Mm
