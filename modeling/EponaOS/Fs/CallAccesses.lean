import EponaOS.Fs.FatFree
import EponaOS.Fs.FatFuel

/-!
# The accesses of a call

A call makes a number of accesses to the drive that depends on what is on it. If none of them
fails the call does what it does on a drive without errors.
-/

namespace EponaOS.Fs

open Bytes

variable {fp : FatPrivate} {node node' : VfsNode} {buf junk tmp : Bytes} {s s' s₁ s₂ : Nat → Bytes}
  {faults : List Bool} {fuel offset size done c v x i k m n q lba sectorOff skip byteOff : Nat}

def Clear (n : Nat) (faults : List Bool) : Prop := ∀ k < n, faults[k]? ≠ some true

/-- Without errors the call makes `n` accesses, gives `out`, and leaves `s'` on the drive. -/
def Takes (F : Disk → γ) (s : Nat → Bytes) (n : Nat) (out : Disk → γ) (s' : Nat → Bytes) : Prop :=
  ∀ faults, Clear n faults → F ⟨s, faults⟩ = out ⟨s', faults.drop n⟩

theorem Clear.mono (h : Clear n faults) (hm : m ≤ n) : Clear m faults :=
  fun k hk => h k (Nat.lt_of_lt_of_le hk hm)

theorem Clear.drop (h : Clear (n + m) faults) : Clear m (faults.drop n) := by
  intro k hk
  rw [List.getElem?_drop]
  exact h (n + k) (Nat.add_lt_add_left hk n)

theorem Clear.fails (h : Clear 1 faults) : (Disk.mk s faults).fails = false := by
  have h0 := h 0 Nat.zero_lt_one
  rw [Disk.fails]
  cases faults with
  | nil => rfl
  | cons b faults =>
    rw [List.getElem?_cons_zero, Ne, Option.some.injEq, Bool.not_eq_true] at h0
    exact h0

theorem Takes.after {F out : Disk → γ} (h : Takes F s m out s') (hc : Clear (n + m) faults) :
    F ⟨s, faults.drop n⟩ = out ⟨s', faults.drop (n + m)⟩ := by
  rw [h _ hc.drop, List.drop_drop]

theorem Takes.none (F : Disk → γ) (s : Nat → Bytes) : Takes F s 0 F s := fun _ _ => rfl

-- ---------------------------------------------------------------------------
-- The table
-- ---------------------------------------------------------------------------

def WriteTakes (fp : FatPrivate) (junk : Bytes) (node : VfsNode) (offset size : Nat) (buf : Bytes)
    (s : Nat → Bytes) (n : Nat) : Prop :=
  ∀ rest, ∃ ret node' s', Returns (fun fuel => fatWrite fp junk fuel node offset size buf
    ⟨s, List.replicate n false ++ rest⟩) (ret, node', ⟨s', rest⟩)

theorem WriteTakes.unique (h : WriteTakes fp junk node offset size buf s n)
    (h' : WriteTakes fp junk node offset size buf s m) : n = m := by
  have hle : ∀ {a b : Nat}, WriteTakes fp junk node offset size buf s a →
      WriteTakes fp junk node offset size buf s b → a ≤ b → a = b := by
    intro a b ha hb hab
    obtain ⟨_, _, _, hra⟩ := ha (List.replicate (b - a) false)
    obtain ⟨_, _, _, hrb⟩ := hb []
    rw [List.replicate_append_replicate, Nat.add_sub_cancel' hab] at hra
    rw [List.append_nil] at hrb
    have hrest := congrArg (fun r => r.2.2.faults.length) (hra.unique hrb)
    dsimp only at hrest
    rw [List.length_replicate, List.length_nil] at hrest
    omega
  rcases Nat.le_total n m with hnm | hmn
  · exact hle h h' hnm
  · exact (hle h' h hmn).symm

end EponaOS.Fs
