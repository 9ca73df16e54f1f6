import EponaOS.Lib.Bytes
import EponaOS.Mm.PageWalk

/-!
# Bytes of physical memory

The memory of the tables is all of physical memory, in words of eight bytes; a byte is
found in the frame, the word of the frame and the byte of the word that its address names.
Data stored in a frame that is no table moves no page.
-/

namespace EponaOS.Mm

open TableTrie

def frameOf (p : Word) : Word := BitVec.ofNat 64 (p.toNat / 4096 * 4096)

def wordOf (p : Word) : Index := ⟨p.toNat / 8 % 512, Nat.mod_lt _ (by decide)⟩

def byteOf (e : Word) (k : Nat) : UInt8 := ⟨(e >>> (8 * k)).setWidth 8⟩

def withByte (e : Word) (k : Nat) (b : UInt8) : Word :=
  (e &&& ~~~(0xFF#64 <<< (8 * k))) ||| (b.toBitVec.setWidth 64 <<< (8 * k))

def loadByte (m : PhysMem) (p : Word) : UInt8 := byteOf (m (frameOf p) (wordOf p)) (p.toNat % 8)

def storeByte (m : PhysMem) (p : Word) (b : UInt8) : PhysMem :=
  setEntry m (frameOf p) (wordOf p) (withByte (m (frameOf p) (wordOf p)) (p.toNat % 8) b)

/-- `for (j = 0; j < n; j++) p[j] = src[j]` -/
def storeBytes (m : PhysMem) (p : Word) (src : Bytes) : Nat → PhysMem
  | 0 => m
  | n + 1 => storeByte (storeBytes m p src n) (p + BitVec.ofNat 64 n) (src n)

variable {m m' : PhysMem} {p q t : Word}

-- ---------------------------------------------------------------------------
-- Addresses
-- ---------------------------------------------------------------------------

theorem frameOf_toNat (p : Word) : (frameOf p).toNat = p.toNat / 4096 * 4096 := by
  have := p.isLt
  rw [frameOf, BitVec.toNat_ofNat]
  omega

theorem eq_of_place (hf : frameOf p = frameOf q) (hw : wordOf p = wordOf q)
    (hb : p.toNat % 8 = q.toNat % 8) : p = q := by
  have h1 := congrArg BitVec.toNat hf
  rw [frameOf_toNat, frameOf_toNat] at h1
  have h2 : p.toNat / 8 % 512 = q.toNat / 8 % 512 := congrArg Fin.val hw
  apply BitVec.eq_of_toNat_eq
  omega

theorem Aligned.mod {a : Word} (h : Aligned a) : a.toNat % 4096 = 0 := by
  rw [← h, addr, BitVec.toNat_and]
  have h2 : (4096 : Nat) = 2 ^ 12 := rfl
  rw [h2, Nat.and_mod_two_pow]
  have : PAGE_ADDR_MASK.toNat % 2 ^ 12 = 0 := by decide
  rw [this, Nat.and_zero]
theorem inFrame_toNat (ha : Aligned a) (v : Word) :
    (a ||| (v &&& 0xFFF)).toNat = a.toNat + v.toNat % 4096 := by
  have h12 : (v &&& 0xFFF).toNat = v.toNat % 2 ^ 12 := by
    rw [BitVec.toNat_and]
    exact Nat.and_two_pow_sub_one_eq_mod v.toNat 12
  have hmul : a.toNat % 4096 = 0 := ha.mod
  have hl : a.toNat = 2 ^ 12 * (a.toNat / 2 ^ 12) := by omega
  rw [BitVec.toNat_or, h12]
  conv => lhs; rw [hl, ← Nat.two_pow_add_eq_or_of_lt (Nat.mod_lt _ (by decide))]
  omega

theorem frameOf_inFrame (ha : Aligned a) (v : Word) : frameOf (a ||| (v &&& 0xFFF)) = a := by
  have hmul : a.toNat % 4096 = 0 := ha.mod
  apply BitVec.eq_of_toNat_eq
  rw [frameOf_toNat, inFrame_toNat ha]
  omega

theorem frameOf_add (h : p.toNat % 4096 + k < 4096) : frameOf (p + BitVec.ofNat 64 k) = frameOf p := by
  have := p.isLt
  apply BitVec.eq_of_toNat_eq
  rw [frameOf_toNat, frameOf_toNat, BitVec.toNat_add, BitVec.toNat_ofNat]
  omega

-- ---------------------------------------------------------------------------
-- Loads and stores
-- ---------------------------------------------------------------------------

theorem byteMask_bit (i : Nat) : (0xFF#64 : Word).getLsbD i = decide (i < 8) := by
  have h : (0xFF#64 : Word) = BitVec.ofNat 64 (2 ^ 8 - 1) := rfl
  rw [h, BitVec.getLsbD_ofNat, Nat.testBit_two_pow_sub_one, Bool.eq_iff_iff]
  simp
  omega

theorem byteOf_withByte (e : Word) (b : UInt8) (hk : k < 8) (hj : j < 8) :
    byteOf (withByte e k b) j = if j = k then b else byteOf e j := by
  by_cases h : j = k
  · subst h
    rw [if_pos rfl]
    apply UInt8.toBitVec_inj.mp
    apply BitVec.eq_of_getLsbD_eq
    intro i hi
    have h1 : 8 * j + i < 64 := by omega
    simp [byteOf, withByte, byteMask_bit, hi, h1]
  · rw [if_neg h]
    apply UInt8.toBitVec_inj.mp
    apply BitVec.eq_of_getLsbD_eq
    intro i hi
    have h1 : 8 * j + i < 64 := by omega
    rcases Nat.lt_or_gt_of_ne h with hlt | hgt
    · have h2 : 8 * j + i < 8 * k := by omega
      simp [byteOf, withByte, hi, h1, h2]
    · have h2 : ¬ 8 * j + i < 8 * k := by omega
      have h4 : 8 ≤ 8 * j + i - 8 * k := by omega
      simp [byteOf, withByte, hi, h1, h2, h4]
      intro _
      rw [← BitVec.getLsbD_eq_getElem (by omega), byteMask_bit]
      exact decide_eq_false (by omega)

theorem loadByte_storeByte (m : PhysMem) (p q : Word) (b : UInt8) :
    loadByte (storeByte m p b) q = if q = p then b else loadByte m q := by
  have hk : p.toNat % 8 < 8 := Nat.mod_lt _ (by decide)
  have hj : q.toNat % 8 < 8 := Nat.mod_lt _ (by decide)
  rw [loadByte, storeByte]
  by_cases h : frameOf q = frameOf p ∧ wordOf q = wordOf p
  · rw [h.1, h.2, setEntry_same, byteOf_withByte _ _ hk hj]
    by_cases hb : q.toNat % 8 = p.toNat % 8
    · rw [if_pos hb, if_pos (eq_of_place h.1 h.2 hb)]
    · rw [if_neg hb, if_neg (fun he => hb (by rw [he])), loadByte, h.1, h.2]
  · rw [setEntry_ne _ _ h, if_neg (fun he => h (by rw [he]; exact ⟨rfl, rfl⟩)), loadByte]

theorem storeByte_table_ne (b : UInt8) (h : t ≠ frameOf p) : storeByte m p b t = m t :=
  setEntry_table_ne m _ _ h

theorem loadByte_congr (h : m' (frameOf p) = m (frameOf p)) : loadByte m' p = loadByte m p := by
  rw [loadByte, loadByte, h]

theorem loadByte_storeBytes (m : PhysMem) (src : Bytes) (h : p.toNat + n ≤ 2 ^ 64) (q : Word) :
    loadByte (storeBytes m p src n) q =
      if p.toNat ≤ q.toNat ∧ q.toNat < p.toNat + n then src (q.toNat - p.toNat)
      else loadByte m q := by
  induction n with
  | zero => rw [if_neg (by omega), storeBytes]
  | succ n ih =>
    have hat : (p + BitVec.ofNat 64 n).toNat = p.toNat + n := by
      rw [BitVec.toNat_add, BitVec.toNat_ofNat]
      omega
    rw [storeBytes, loadByte_storeByte, ih (by omega)]
    by_cases hq : q = p + BitVec.ofNat 64 n
    · have hn : q.toNat = p.toNat + n := by rw [hq, hat]
      rw [if_pos hq, if_pos (by omega), hn, Nat.add_sub_cancel_left]
    · have hne : q.toNat ≠ p.toNat + n := fun he => hq (BitVec.eq_of_toNat_eq (he.trans hat.symm))
      rw [if_neg hq]
      by_cases hin : p.toNat ≤ q.toNat ∧ q.toNat < p.toNat + n
      · rw [if_pos hin, if_pos (by omega)]
      · rw [if_neg hin, if_neg (by omega)]

theorem storeBytes_table_ne (src : Bytes) (h : p.toNat % 4096 + n ≤ 4096) (ht : t ≠ frameOf p) :
    storeBytes m p src n t = m t := by
  induction n with
  | zero => rfl
  | succ n ih =>
    rw [storeBytes, storeByte_table_ne _ (by rwa [frameOf_add (by omega)]), ih (by omega)]

-- ---------------------------------------------------------------------------
-- Data in frames that are no tables
-- ---------------------------------------------------------------------------

theorem WellFormed.of_data (hw : WellFormed s pml4)
    (hm : ∀ q t, reach tableOf s.mem 0 pml4 q = some t → m' t = s.mem t) :
    WellFormed { s with mem := m' } pml4 ∧
      (∀ q, reach tableOf m' 0 pml4 q = reach tableOf s.mem 0 pml4 q) ∧
      ∀ v, pagingGetPhysOn m' pml4 v = pagingGetPhysOn s.mem pml4 v := by
  have hwalk : ∀ q, reach tableOf m' 0 pml4 q = reach tableOf s.mem 0 pml4 q ∧
      trace tableOf m' 0 pml4 q = trace tableOf s.mem 0 pml4 q := fun q =>
    walk_congr fun r j _ a _ ha => congrFun (hm r a ha) j
  refine ⟨⟨fun q r a hq hr => ?_, fun q a hq => ?_, fun q k e hlen hk => ?_⟩,
    fun q => (hwalk q).1, fun v => ?_⟩
  · exact hw.tree q r a ((hwalk q).1.symm.trans hq) ((hwalk r).1.symm.trans hr)
  · exact hw.held q a ((hwalk q).1.symm.trans hq)
  · exact hw.entries q k e hlen ((congrArg (·[k]?) (hwalk q).2).symm.trans hk)
  · rw [pagingGetPhysOn_eq, pagingGetPhysOn_eq, pageEntries_congr (hwalk _).2]

end EponaOS.Mm
