import EponaOS.Mm.PmmInit

/-!
# What the firmware's map makes free

`pmm_init` releases the frames that lie whole in a usable range. It rounds and adds without a
check, and takes nothing back for a range of another type: the frames that are left free are the
right ones if no sum wraps and no other range reaches into a page of a usable one.
-/

namespace EponaOS.Mm

variable {e : E820Entry} {f a : Nat} {table : List E820Entry}

def E820Entry.Spans (e : E820Entry) (a : Nat) : Prop :=
  e.base.toNat ≤ a ∧ a < e.base.toNat + e.len.toNat

def InFrame (f a : Nat) : Prop := f * pageSize ≤ a ∧ a < (f + 1) * pageSize

/-- No computation on the fields of the entry wraps. -/
def E820Entry.NoWrap (e : E820Entry) : Prop :=
  e.base.toNat + pageSize < 2 ^ 64 ∧ e.base.toNat + e.len.toNat < 2 ^ 64

/-- The entry is usable and spans frame `f`. -/
def E820Entry.Holds (e : E820Entry) (f : Nat) : Prop := e.type = 1 ∧ ∀ a, InFrame f a → e.Spans a

def E820Entry.Reaches (e : E820Entry) (f : Nat) : Prop := ∃ a, InFrame f a ∧ e.Spans a

/-- Only usable memory becomes free, nothing wraps, and the reserved frames are counted. -/
structure FreesUsable (table : List E820Entry) : Prop where
  noWrap : ∀ e ∈ table, e.type = 1 → e.NoWrap
  high : ∀ f < (pmmInit table).totalFrames, bmTest (pmmInit table).bitmap f = false →
    2 * 1024 * 1024 ≤ f * pageSize
  covered : ∀ f < (pmmInit table).totalFrames, bmTest (pmmInit table).bitmap f = false →
    ∀ a, InFrame f a → ∃ e ∈ table, e.type = 1 ∧ e.Spans a
  apart : ∀ f < (pmmInit table).totalFrames, bmTest (pmmInit table).bitmap f = false →
    ∀ e ∈ table, e.type ≠ 1 → ¬ e.Reaches f
  counted : (pmmInit table).usedFrames.toNat =
    usedBelow (pmmInit table).bitmap (pmmInit table).totalFrames

theorem E820Entry.NoWrap.releases_iff (h : e.NoWrap) (f : Nat) : e.Releases f ↔ e.Holds f := by
  obtain ⟨hbase, hlen⟩ := h
  have hstart : (e.base + 4096 - 1).toNat = e.base.toNat + pageSize - 1 := by
    have hround : e.base + 4096 - 1 = e.base + 4095 := by
      rw [BitVec.sub_eq_add_neg, BitVec.add_assoc]
      rfl
    have h4095 : (4095 : Word).toNat = 4095 := rfl
    rw [hround, BitVec.toNat_add, h4095]
    simp only [pageSize] at hbase ⊢
    omega
  have hstop : (e.base + e.len).toNat = e.base.toNat + e.len.toNat := by
    rw [BitVec.toNat_add, Nat.mod_eq_of_lt hlen]
  rw [E820Entry.Releases, E820Entry.Holds, E820Entry.start, E820Entry.stop, hstart, hstop]
  refine and_congr_right fun _ => ?_
  simp only [E820Entry.Spans, InFrame, pageSize]
  constructor
  · rintro ⟨hlo, hhi⟩ a ha
    omega
  · intro h
    have hlo := h (f * 4096) (by omega)
    have hhi := h (f * 4096 + 4095) (by omega)
    omega

theorem reserveLow_le (f : Nat) : reserveLow ≤ f ↔ 2 * 1024 * 1024 ≤ f * pageSize := by
  simp only [reserveLow, pageSize]
  omega

/-- What is left free is usable exactly if no sum of a usable entry wraps, and no entry of another
type reaches into a page that a usable one spans, between 2 MiB and 4 GiB. -/
theorem pmmInit_usable_iff (table : List E820Entry) :
    FreesUsable table ↔ (∀ e ∈ table, e.type = 1 → e.NoWrap) ∧
      ∀ f, reserveLow ≤ f → f < maxFrames → ∀ e ∈ table, e.Holds f →
        ∀ e' ∈ table, e'.type ≠ 1 → ¬ e'.Reaches f := by
  -- with no wrap, a free frame is one that a usable entry spans
  have hfree : (∀ e ∈ table, e.type = 1 → e.NoWrap) → ∀ f,
      (f < (pmmInit table).totalFrames ∧ bmTest (pmmInit table).bitmap f = false ↔
        reserveLow ≤ f ∧ f < maxFrames ∧ ∃ e ∈ table, e.Holds f) := by
    intro hwrap f
    rw [pmmInit_free_iff]
    refine and_congr_right fun _ => and_congr_right fun _ => exists_congr fun e =>
      and_congr_right fun he => ?_
    constructor
    · exact fun h => ((hwrap e he h.1).releases_iff f).mp h
    · exact fun h => ((hwrap e he h.1).releases_iff f).mpr h
  constructor
  · intro h
    refine ⟨h.noWrap, fun f hlow hmax e he hold e' he' htype => ?_⟩
    obtain ⟨hlt, hbit⟩ := (hfree h.noWrap f).mpr ⟨hlow, hmax, e, he, hold⟩
    exact h.apart f hlt hbit e' he' htype
  · rintro ⟨hwrap, hapart⟩
    refine ⟨hwrap, fun f hlt hbit => ?_, fun f hlt hbit a ha => ?_, fun f hlt hbit e' he' htype => ?_,
      pmmInit_usedFrames table⟩
    · exact (reserveLow_le f).mp ((hfree hwrap f).mp ⟨hlt, hbit⟩).1
    · obtain ⟨-, -, e, he, htype, hspan⟩ := (hfree hwrap f).mp ⟨hlt, hbit⟩
      exact ⟨e, he, htype, hspan a ha⟩
    · obtain ⟨hlow, hmax, e, he, hold⟩ := (hfree hwrap f).mp ⟨hlt, hbit⟩
      exact hapart f hlow hmax e he hold e' he' htype

def overlapTable : List E820Entry := [⟨0, 0x1000000, 1⟩, ⟨0x400000, 0x100000, 2⟩]

/-- The first frame of the reserved range is left free. -/
theorem overlap_left_free : 1024 < (pmmInit overlapTable).totalFrames ∧
    bmTest (pmmInit overlapTable).bitmap 1024 = false ∧ ¬ FreesUsable overlapTable := by
  have hwrap : ∀ e ∈ overlapTable, e.type = 1 → e.NoWrap := by
    intro e he _
    simp only [overlapTable, List.mem_cons, List.not_mem_nil, or_false] at he
    obtain rfl | rfl := he <;> exact ⟨by decide, by decide⟩
  have hrel : (⟨0, 0x1000000, 1⟩ : E820Entry).Releases 1024 := ⟨rfl, by decide, by decide⟩
  obtain ⟨hlt, hbit⟩ := (pmmInit_free_iff overlapTable (f := 1024)).mpr
    ⟨by decide, by decide, _, List.mem_cons_self, hrel⟩
  refine ⟨hlt, hbit, fun h => ?_⟩
  refine h.apart 1024 hlt hbit ⟨0x400000, 0x100000, 2⟩ (by simp [overlapTable]) (by decide) ?_
  exact ⟨0x400000, ⟨by decide, by decide⟩, by decide, by decide⟩

end EponaOS.Mm
