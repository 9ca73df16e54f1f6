import EponaOS.Fs.FatFree

/-!
# The table on a drive with errors

`fat_set_cluster` reads the sector of an entry and writes it into the copies of the table, one
after the other, until a write fails. The driver only ever reads the first copy: the entry is set
if the read and the first of the writes succeed, and otherwise nothing has changed.
-/

namespace EponaOS.Fs

open Bytes

variable {fp : FatPrivate} {d d' : Disk} {c v x : Nat}

def copiesWritten : Nat → List Bool → Nat
  | 0, _ => 0
  | k + 1, faults => if faults.headD false then 0 else copiesWritten k faults.tail + 1

/-- The accesses that `fat_set_cluster` makes. -/
def markAccesses (fp : FatPrivate) (faults : List Bool) : Nat :=
  if faults.headD false then 1
  else 1 + min fp.bpb.fatCount (copiesWritten fp.bpb.fatCount faults.tail + 1)

def Disk.written (d : Disk) (lba : Nat) (buf : Bytes) : Disk :=
  { d.tick with sectors := fun n => if n = lba % 2 ^ 28 then buf else d.sectors n }

def MarkWritten (d : Disk) : Prop := d.fails = false ∧ d.tick.fails = false

-- ---------------------------------------------------------------------------
-- The copies
-- ---------------------------------------------------------------------------

theorem copiesWritten_le (k : Nat) (faults : List Bool) : copiesWritten k faults ≤ k := by
  induction k generalizing faults with
  | zero => exact Nat.le_refl 0
  | succ k ih =>
    rw [copiesWritten]
    split
    · exact Nat.zero_le _
    · exact Nat.succ_le_succ (ih _)

theorem ataWriteSectors_cases (d : Disk) (lba : Nat) (buf : Bytes) :
    (d.fails = true ∧ ataWriteSectors d lba buf = (false, d.tick)) ∨
      (d.fails = false ∧ ataWriteSectors d lba buf = (true, d.written lba buf)) := by
  rw [ataWriteSectors]
  cases d.fails with
  | true => exact .inl ⟨rfl, rfl⟩
  | false => exact .inr ⟨rfl, rfl⟩

theorem Disk.written_at (d : Disk) (hl : lba < 2 ^ 28) (buf : Bytes) :
    (d.written lba buf).sectors lba = buf := if_pos (Nat.mod_eq_of_lt hl).symm

theorem Disk.written_touches (d : Disk) (hl : lba < 2 ^ 28) (buf : Bytes) :
    Touches (· = lba) d (d.written lba buf) := by
  intro n hn
  rw [← Nat.mod_eq_of_lt hl] at hn
  exact if_neg hn

theorem fatWriteCopies_written (fp : FatPrivate) (off : Nat) (buf : Bytes) (k i : Nat) (d : Disk) :
    (fatWriteCopies fp off buf k i d).2.sectors =
        (fatWriteCopies fp off buf (copiesWritten k d.faults) i ⟨d.sectors, []⟩).2.sectors ∧
      (fatWriteCopies fp off buf k i d).2.faults =
        d.faults.drop (min k (copiesWritten k d.faults + 1)) := by
  induction k generalizing i d with
  | zero =>
    rw [Nat.zero_min]
    exact ⟨rfl, rfl⟩
  | succ k ih =>
    rw [fatWriteCopies, copiesWritten]
    obtain ⟨hf, hw⟩ | ⟨hf, hw⟩ := ataWriteSectors_cases d
      ((fp.fatStart + i * fp.sectorsPerFat + off / fp.bpb.bytesPerSector) % 2 ^ 32) buf
    · rw [Disk.fails] at hf
      rw [hw, hf]
      dsimp only
      rw [if_neg Bool.false_ne_true, if_pos rfl, Nat.zero_add, Nat.min_eq_right (Nat.le_add_left 1 k),
        List.drop_one]
      exact ⟨rfl, rfl⟩
    · rw [Disk.fails] at hf
      rw [hw, hf]
      dsimp only
      rw [if_pos rfl, if_neg Bool.false_ne_true, fatWriteCopies, Nat.succ_min_succ,
        ← List.drop_tail]
      have hrest := ih (i + 1) (d.written
        ((fp.fatStart + i * fp.sectorsPerFat + off / fp.bpb.bytesPerSector) % 2 ^ 32) buf)
      exact hrest

-- ---------------------------------------------------------------------------
-- The mark
-- ---------------------------------------------------------------------------

theorem fatSetCluster_mark (hg : Geometry fp) (hc : c < fatTotalClusters fp + 2) (v : Nat) (d : Disk) :
    (fatSetCluster fp d c v).2.faults = d.faults.drop (markAccesses fp d.faults) ∧
      (MarkWritten d → SetEntry fp d.image (fatSetCluster fp d c v).2.image c (v % 2 ^ 28)) ∧
      (¬ MarkWritten d → (fatSetCluster fp d c v).2.sectors = d.sectors) := by
  obtain ⟨h1, h2, h3, h4⟩ := fat_offsets hg hc
  have h5 := hg.data_le
  have h6 : (fp.fatStart + 4 * c / 512) % 2 ^ 32 = fp.fatStart + 4 * c / 512 :=
    Nat.mod_eq_of_lt (by omega)
  have h7 : (fp.fatStart + 4 * c / 512) % 2 ^ 28 = fp.fatStart + 4 * c / 512 :=
    Nat.mod_eq_of_lt (by omega)
  rw [MarkWritten, markAccesses, ← Disk.fails]
  cases hf : d.fails with
  | true =>
    have hread : fatSetCluster fp d c v = (false, d.tick) := by
      simp only [fatSetCluster, ataReadSectors, hf, if_pos]
    rw [hread, if_pos rfl]
    exact ⟨List.drop_one.symm, fun h => absurd h.1 Bool.noConfusion, fun _ => rfl⟩
  | false =>
    have hread : fatSetCluster fp d c v =
        fatWriteCopies fp (4 * c) (entrySectorSet fp d c v) fp.bpb.fatCount 0 d.tick := by
      simp only [fatSetCluster, ataReadSectors, hf, hg.sector, h1, h6, h7, Bool.false_eq_true, if_neg,
        not_false_eq_true]
      rfl
    obtain ⟨hsectors, hfaults⟩ := fatWriteCopies_written fp (4 * c) (entrySectorSet fp d c v)
      fp.bpb.fatCount 0 d.tick
    rw [hread, if_neg Bool.false_ne_true]
    refine ⟨?_, fun h => ?_, fun h => ?_⟩
    · rw [hfaults, ← List.drop_drop, List.drop_one]
      rfl
    · -- some copies are written, the first one among them
      have hpos : 0 < copiesWritten fp.bpb.fatCount d.tick.faults := by
        obtain ⟨k, hk⟩ := Nat.exists_eq_succ_of_ne_zero (Nat.ne_of_gt hg.copies)
        rw [hk, copiesWritten, if_neg (by rw [← Disk.fails, h.2]; exact Bool.false_ne_true)]
        exact Nat.succ_pos _
      obtain ⟨d', hw, -, hout, hin⟩ := fatWriteCopies_spec hg (d := ⟨d.sectors, []⟩) rfl
        (entrySectorSet fp d c v) hc (show 0 + copiesWritten fp.bpb.fatCount d.tick.faults ≤
          fp.bpb.fatCount by have := copiesWritten_le fp.bpb.fatCount d.tick.faults; omega)
      have himage : (fatWriteCopies fp (4 * c) (entrySectorSet fp d c v) fp.bpb.fatCount 0
          d.tick).2.image = d'.image := by
        refine Disk.image_congr (hsectors.trans ?_)
        rw [show d.tick.sectors = d.sectors from rfl, hw]
      rw [himage]
      refine .of_first hg hc hout fun a ha => ?_
      rw [hin a ha, if_pos ⟨rfl, hpos⟩]
      rfl
    · have hfail : d.tick.fails = true := by
        by_contra hno
        exact h ⟨rfl, Bool.eq_false_iff.mpr hno⟩
      have hnone : copiesWritten fp.bpb.fatCount d.tick.faults = 0 := by
        obtain ⟨k, hk⟩ := Nat.exists_eq_succ_of_ne_zero (Nat.ne_of_gt hg.copies)
        rw [hk, copiesWritten, ← Disk.fails, if_pos hfail]
      rw [hsectors, hnone]
      rfl

end EponaOS.Fs
