import EponaOS.Mm.PageStep
import EponaOS.Mm.BootTables

/-!
# Page tables implement a map

Seen through `paging_get_phys_on`, a well-formed tree is a map from pages to frames:
`paging_map_page_on` sets one page of the map and leaves every other page alone,
whether it had to create tables or to split a 2 MiB page, and it changes nothing where
a table could not be allocated.
-/

namespace EponaOS.Mm

open TableTrie

def Canonical (v : Word) : Prop := v.toNat < 2 ^ 47 ∨ 2 ^ 64 - 2 ^ 47 ≤ v.toNat

instance (v : Word) : Decidable (Canonical v) := by
  unfold Canonical
  infer_instance

theorem pathOf_congr {v w : Word} (h : v >>> 12 = w >>> 12) : pathOf v = pathOf w := by
  have hq := congrArg BitVec.toNat h
  simp only [BitVec.toNat_ushiftRight, Nat.shiftRight_eq_div_pow] at hq
  have hi : ∀ k, 12 ≤ k → index v k = index w k := by
    intro k hk
    obtain ⟨d, rfl⟩ := Nat.exists_eq_add_of_le hk
    apply Fin.ext
    rw [index_toNat, index_toNat, Nat.pow_add, ← Nat.div_div_eq_div_mul,
      ← Nat.div_div_eq_div_mul, hq]
  simp [pathOf, idxPml4, idxPdpt, idxPd, idxPt, hi]

theorem pathOf_inj (hv : Canonical v) (hw : Canonical w) (h : pathOf v = pathOf w) :
    v >>> 12 = w >>> 12 := by
  simp only [pathOf, idxPml4, idxPdpt, idxPd, idxPt, List.cons.injEq, Fin.ext_iff, index_toNat,
    and_true] at h
  obtain ⟨h4, h3, h2, h1⟩ := h
  apply BitVec.eq_of_toNat_eq
  rw [BitVec.toNat_ushiftRight, BitVec.toNat_ushiftRight, Nat.shiftRight_eq_div_pow,
    Nat.shiftRight_eq_div_pow]
  unfold Canonical at hv hw
  have hv' := v.isLt
  have hw' := w.isLt
  omega

-- ---------------------------------------------------------------------------
-- The address read from the entries of a walk
-- ---------------------------------------------------------------------------

theorem physOf_grantAt (v : Word) : physOf v (grantAt flags p i q es) = physOf v es := by
  unfold grantAt
  split
  · rcases es with _ | ⟨e4, _ | ⟨e3, _ | ⟨e2, _ | ⟨e1, _ | ⟨e0, es⟩⟩⟩⟩⟩ <;>
      rcases p with _ | ⟨a, _ | ⟨b, _ | ⟨c, _ | ⟨d, _ | ⟨e, p⟩⟩⟩⟩⟩ <;> simp [physOf]
  · rfl

theorem addr_splitEntry (ha : (addr e).toNat % 0x200000 = 0) (v flags : Word) :
    addr (splitEntry (addr e) (flags &&& PAGE_USER) (idxPt v)) ||| (v &&& 0xFFF) =
      addr e ||| (v &&& 0x1FFFFF) := by
  obtain ⟨hal, hsum⟩ := aligned_sub (addr_idem e) ha (idxPt v)
  rw [splitEntry_eq, addr_linkEntry hal]
  apply BitVec.eq_of_toNat_eq
  have h12 : (v &&& 0xFFF).toNat = v.toNat % 2 ^ 12 := by
    rw [BitVec.toNat_and]
    exact Nat.and_two_pow_sub_one_eq_mod v.toNat 12
  have h21 : (v &&& 0x1FFFFF).toNat = v.toNat % 2 ^ 21 := by
    rw [BitVec.toNat_and]
    exact Nat.and_two_pow_sub_one_eq_mod v.toNat 21
  have hidx : (idxPt v).val = v.toNat / 2 ^ 12 % 512 := index_toNat v 12
  rw [BitVec.toNat_or, BitVec.toNat_or, h12, h21, hsum]
  -- both sides add an offset below the alignment of the base
  have hl : (addr e).toNat + idxPt v * 4096 = 2 ^ 12 * ((addr e).toNat / 2 ^ 12 + idxPt v) := by
    omega
  have hr : (addr e).toNat = 2 ^ 21 * ((addr e).toNat / 2 ^ 21) := by omega
  rw [hl, ← Nat.two_pow_add_eq_or_of_lt (Nat.mod_lt _ (by decide))]
  conv => rhs; rw [hr, ← Nat.two_pow_add_eq_or_of_lt (Nat.mod_lt _ (by decide))]
  omega

theorem physOf_splitAt (hok : ∀ e, es[2]? = some e → es.length = 3 → (addr e).toNat % 0x200000 = 0)
    (v : Word) : physOf v (splitAt flags ptNew p i (pathOf v) es) = physOf v es := by
  unfold splitAt
  split
  · rename_i e4 e3 e2
    split
    · exact addr_splitEntry (hok e2 rfl rfl) v flags
    · rfl
  · rfl

theorem getElem?_grantAt {k : Nat} {es : List Word} {e : Word}
    (h : (grantAt flags p i q es)[k]? = some e) :
    ∃ e' : Word, es[k]? = some e' ∧ addr e = addr e' := by
  unfold grantAt at h
  split at h
  · rw [List.getElem?_modify] at h
    obtain ⟨e', he', rfl⟩ := Option.map_eq_some_iff.mp h
    refine ⟨e', he', ?_⟩
    split <;> simp
  · exact ⟨e, h, rfl⟩

@[simp] theorem length_grantAt : (grantAt flags p i q es).length = es.length := by
  unfold grantAt
  split <;> simp

theorem Partway.physOf (h : Partway flags virt (pathOf v) es es')
    (hok : ∀ e, es[2]? = some e → es.length = 3 → (addr e).toNat % 0x200000 = 0) :
    Mm.physOf v es' = Mm.physOf v es := by
  cases h with
  | start => rfl
  | pml4 => exact physOf_grantAt v
  | pdpt => rw [physOf_grantAt, physOf_grantAt]
  | pd ptNew hal =>
    rw [mapOther, physOf_grantAt, physOf_splitAt, physOf_grantAt, physOf_grantAt]
    intro e he hlen
    obtain ⟨e', he', h1⟩ := getElem?_grantAt he
    obtain ⟨e'', he'', h2⟩ := getElem?_grantAt he'
    rw [h1, h2]
    exact hok e'' he'' (by simpa using hlen)

theorem WellFormed.huge_aligned (hw : WellFormed s pml4) (hq : q.length = 4)
    (h : pageEntries s.mem pml4 q = some es) (he : es[2]? = some e) (h3 : es.length = 3) :
    (addr e).toNat % 0x200000 = 0 := by
  obtain ⟨rfl, hm⟩ := pageEntries_some h
  have hok := hw.entries q 2 e hq he
  match htr : trace tableOf s.mem 0 pml4 q, h3 with
  | [e4, e3, e2], _ =>
    rw [htr] at hm he
    cases he
    exact (hok hm).2

def translation (m : PhysMem) (pml4 v : Word) : Option Word :=
  (pageEntries m pml4 (pathOf v)).map (Mm.physOf v)

theorem WellFormed.partway_translation (hw : WellFormed s pml4)
    (hf : ∀ es, Partway flags virt (pathOf v) es (f es))
    (h : pageEntries m pml4 (pathOf v) = (pageEntries s.mem pml4 (pathOf v)).map f) :
    translation m pml4 v = translation s.mem pml4 v := by
  rw [translation, translation, h]
  cases hes : pageEntries s.mem pml4 (pathOf v) with
  | none => rfl
  | some es =>
    simp only [Option.map_some, Option.some.injEq]
    exact (hf es).physOf fun e he h3 => hw.huge_aligned rfl hes he h3

theorem WellFormed.partway_phys (hw : WellFormed s pml4)
    (hf : ∀ es, Partway flags virt (pathOf v) es (f es))
    (h : pageEntries m pml4 (pathOf v) = (pageEntries s.mem pml4 (pathOf v)).map f) :
    pagingGetPhysOn m pml4 v = pagingGetPhysOn s.mem pml4 v := by
  rw [pagingGetPhysOn_eq, pagingGetPhysOn_eq]
  exact congrArg (Option.getD · 0) (hw.partway_translation hf h)

-- ---------------------------------------------------------------------------
-- The map
-- ---------------------------------------------------------------------------

theorem addr_of_low {flags : Word} (h : flags.toNat < 4096) : addr flags = 0#64 := by
  apply BitVec.eq_of_getLsbD_eq
  intro i _
  rw [addr, BitVec.getLsbD_and, addrMask_bit, BitVec.getLsbD_zero]
  by_cases hi : 12 ≤ i
  · have : flags.getLsbD i = false := by
      rw [BitVec.getLsbD]
      exact Nat.testBit_lt_two_pow
        (Nat.lt_of_lt_of_le (m := 2 ^ 12) h (Nat.pow_le_pow_right (by decide) hi))
    simp [this]
  · simp [hi]

/-- `paging_map_page_on` sets the page of `virt` in the map and nothing else; where it fails
the map is as before. -/
theorem pagingMapPageOn_map (hw : WellFormed s pml4) (hv : Canonical virt)
    (hflags : flags.toNat < 4096) (h : pagingMapPageOn s pml4 virt phys flags = (ret, s')) :
    WellFormed s' pml4 ∧ (ret = 0 ∨ ret = -1) ∧
      (ret = 0 → ∀ v, Canonical v → pagingGetPhysOn s'.mem pml4 v =
        if v >>> 12 = virt >>> 12 then (phys &&& PAGE_ADDR_MASK) ||| (v &&& 0xFFF)
        else pagingGetPhysOn s.mem pml4 v) ∧
      (ret = -1 → ∀ v, pagingGetPhysOn s'.mem pml4 v = pagingGetPhysOn s.mem pml4 v) := by
  obtain ⟨hw', ⟨rfl, hsame⟩ | ⟨rfl, ⟨es, hes, hpage⟩, ptNew, hal, hother⟩⟩ :=
    pagingMapPageOn_spec hw h
  · refine ⟨hw', .inr rfl, by simp, fun _ v => ?_⟩
    obtain ⟨f, hf, hmap⟩ := hsame (pathOf v) rfl
    exact hw.partway_phys hf hmap
  · refine ⟨hw', .inl rfl, fun _ v hcv => ?_, by simp⟩
    split
    · rename_i hsame
      rw [pagingGetPhysOn_eq, pathOf_congr hsame, hpage]
      match es, hes with
      | [e4, e3, e2], _ =>
        simp only [Option.map_some, Option.getD_some, List.cons_append, List.nil_append, physOf]
        rw [addr_or_of_low, addr_idem]
        · rfl
        · rw [addr_or, addr_of_low hflags, addr_present]
          rfl
    · rename_i hne
      exact hw.partway_phys (fun _ => .pd ptNew hal)
        (hother (pathOf v) rfl fun hp => hne (pathOf_inj hcv hv hp))

/-- A page in the third 2 MiB page of the boot tables, which is split for it. -/
theorem boot_map_split :
    (pagingMapPageOn bootMachine 0x1000#64 0x400000#64 0x300000#64 0x7#64).1 = 0 ∧
    ∀ v, Canonical v →
      pagingGetPhysOn (pagingMapPageOn bootMachine 0x1000#64 0x400000#64 0x300000#64 0x7#64).2.mem
        0x1000#64 v = if v >>> 12 = 0x400000#64 >>> 12 then
          (0x300000#64 &&& PAGE_ADDR_MASK) ||| (v &&& 0xFFF)
        else pagingGetPhysOn bootMachine.mem 0x1000#64 v := by
  have hret : (pagingMapPageOn bootMachine 0x1000#64 0x400000#64 0x300000#64 0x7#64).1 = 0 := by
    decide +kernel
  rcases h : pagingMapPageOn bootMachine 0x1000#64 0x400000#64 0x300000#64 0x7#64 with ⟨r, s'⟩
  rw [h] at hret
  exact ⟨hret, (pagingMapPageOn_map boot_wellFormed (by decide) (by decide) h).2.2.1 hret⟩

end EponaOS.Mm
