import Mathlib.Algebra.BigOperators.Group.Finset.Basic
import Mathlib.Algebra.Order.BigOperators.Group.Finset
import Mathlib.Data.DFinsupp.WellFounded

/-!
# Amounts at ranked places

A state has an amount at each of finitely many places, and each place has a rank. A step
that takes from one place may add to places of higher rank as much as it likes: there is no
endless sequence of such steps.
-/

namespace EponaOS

section Ranked

variable {ι σ : Type} (places : Finset ι) (rank : ι → Nat) (amount : σ → ι → Nat)

def Drains (s s' : σ) : Prop :=
  ∃ x ∈ places, amount s' x < amount s x ∧
    ∀ y ∈ places, rank y ≤ rank x → amount s' y ≤ amount s y

def level (s : σ) (j : Nat) : Nat := ∑ y ∈ places with rank y = j, amount s y

variable {places rank amount} {s s' : σ}

theorem level_le (h : ∀ y ∈ places, rank y = j → amount s' y ≤ amount s y) :
    level places rank amount s' j ≤ level places rank amount s j := by
  apply Finset.sum_le_sum
  intro y hy
  obtain ⟨hy, hj⟩ := Finset.mem_filter.mp hy
  exact h y hy hj

theorem level_lt {x : ι} (hx : x ∈ places) (hlt : amount s' x < amount s x)
    (h : ∀ y ∈ places, rank y = rank x → amount s' y ≤ amount s y) :
    level places rank amount s' (rank x) < level places rank amount s (rank x) := by
  apply Finset.sum_lt_sum
  · intro y hy
    obtain ⟨hy, hj⟩ := Finset.mem_filter.mp hy
    exact h y hy hj
  · exact ⟨x, Finset.mem_filter.mpr ⟨hx, rfl⟩, hlt⟩

theorem Drains.lowest (h : Drains places rank amount s s') :
    ∃ j, j ≤ places.sup rank ∧
      (∀ i, i < j → level places rank amount s' i = level places rank amount s i) ∧
      level places rank amount s' j < level places rank amount s j := by
  classical
  obtain ⟨x, hx, hlt, hle⟩ := h
  have hx' := level_lt hx hlt fun y hy hj => hle y hy (Nat.le_of_eq hj)
  have hex : ∃ j, level places rank amount s' j ≠ level places rank amount s j :=
    ⟨rank x, Nat.ne_of_lt hx'⟩
  have hfind : Nat.find hex ≤ rank x := Nat.find_min' hex (Nat.ne_of_lt hx')
  refine ⟨Nat.find hex, Nat.le_trans hfind (Finset.le_sup hx), fun i hi => ?_, ?_⟩
  · exact not_not.mp (Nat.find_min hex hi)
  · apply Nat.lt_of_le_of_ne _ (Nat.find_spec hex)
    exact level_le fun y hy hj => hle y hy (by omega)

theorem drains_wellFounded :
    WellFounded fun s' s : σ => Drains places rank amount s s' := by
  have hlex : WellFoundedLT (Lex (Fin (places.sup rank + 1) → Nat)) := inferInstance
  refine Subrelation.wf ?_
    (InvImage.wf (fun s => toLex fun j => level places rank amount s j.val) hlex.wf)
  intro s' s h
  obtain ⟨j, hj, hlow, hlt⟩ := h.lowest
  exact ⟨⟨j, Nat.lt_succ_of_le hj⟩, fun i hi => hlow i hi, hlt⟩

end Ranked

end EponaOS
