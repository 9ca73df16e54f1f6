import Mathlib.Data.Nat.ModEq

/-!
# One's complement sums

A sum whose carries are added again at its low end keeps its residue modulo `M`, the largest number
of the width. Unless it is the sum of zeros it ends up between 1 and `M`, so that zero has two
representations and only one of them is the end of a sum.
-/

namespace EponaOS

def onesSum (M n : Nat) : Nat := if n = 0 then 0 else (n - 1) % M + 1

variable {M m n w w' : Nat}

theorem onesSum_le (hM : 0 < M) (n : Nat) : onesSum M n ≤ M := by
  rw [onesSum]
  split
  · exact Nat.zero_le M
  · exact Nat.mod_lt _ hM

theorem onesSum_of_le (h : n ≤ M) : onesSum M n = n := by
  rw [onesSum]
  split
  next h0 => exact h0.symm
  next h0 =>
    rw [Nat.mod_eq_of_lt (by omega)]
    omega

theorem onesSum_modEq (M n : Nat) : onesSum M n ≡ n [MOD M] := by
  rw [onesSum]
  split
  next h0 => rw [h0]
  next h0 =>
    have h : n - 1 + 1 = n := Nat.sub_add_cancel (Nat.pos_of_ne_zero h0)
    calc (n - 1) % M + 1 ≡ n - 1 + 1 [MOD M] := (Nat.mod_modEq _ _).add_right 1
      _ = n := h

theorem onesSum_congr (hm : 0 < m) (hn : 0 < n) (h : m ≡ n [MOD M]) : onesSum M m = onesSum M n := by
  rw [onesSum, onesSum, if_neg (Nat.ne_of_gt hm), if_neg (Nat.ne_of_gt hn)]
  have h' : m - 1 + 1 ≡ n - 1 + 1 [MOD M] := by
    rwa [Nat.sub_add_cancel hm, Nat.sub_add_cancel hn]
  exact congrArg (· + 1) (Nat.ModEq.add_right_cancel' 1 h')

theorem onesSum_eq_top (hM : 0 < M) : onesSum M n = M ↔ 0 < n ∧ M ∣ n := by
  constructor
  · intro h
    have hn : 0 < n := by
      rcases Nat.eq_zero_or_pos n with rfl | hn
      · rw [onesSum, if_pos rfl] at h
        omega
      · exact hn
    refine ⟨hn, (Nat.modEq_zero_iff_dvd).mp ?_⟩
    have hmod := onesSum_modEq M n
    rw [h] at hmod
    exact hmod.symm.trans ((Nat.modEq_zero_iff_dvd).mpr (dvd_refl M))
  · rintro ⟨hn, k, rfl⟩
    have h : M * k ≡ M [MOD M] :=
      ((Nat.modEq_zero_iff_dvd).mpr (Dvd.intro k rfl)).trans
        ((Nat.modEq_zero_iff_dvd).mpr (dvd_refl M)).symm
    rw [onesSum_congr hn hM h, onesSum_of_le (Nat.le_refl M)]

theorem onesSum_complement (hM : 0 < M) (hn : 0 < n) : onesSum M (n + (M - onesSum M n)) = M := by
  rw [onesSum_eq_top hM]
  refine ⟨by omega, (Nat.modEq_zero_iff_dvd).mp ?_⟩
  have hle := onesSum_le hM n
  calc n + (M - onesSum M n) ≡ onesSum M n + (M - onesSum M n) [MOD M] :=
        (onesSum_modEq M n).symm.add_right _
    _ = M := by omega
    _ ≡ 0 [MOD M] := (Nat.modEq_zero_iff_dvd).mpr (dvd_refl M)

theorem eq_or_zeros (hw : w ≤ M) (hw' : w' ≤ M) (h : w ≡ w' [MOD M]) :
    w = w' ∨ (w = 0 ∧ w' = M) ∨ (w = M ∧ w' = 0) := by
  rcases Nat.lt_or_ge w M with hlt | hge
  · rcases Nat.lt_or_ge w' M with hlt' | hge'
    · exact .inl (h.eq_of_lt_of_lt hlt hlt')
    · obtain rfl := Nat.le_antisymm hw' hge'
      have h0 := (Nat.modEq_zero_iff_dvd).mp (h.trans ((Nat.modEq_zero_iff_dvd).mpr (dvd_refl w')))
      exact .inr (.inl ⟨Nat.eq_zero_of_dvd_of_lt h0 hlt, rfl⟩)
  · obtain rfl := Nat.le_antisymm hw hge
    rcases Nat.lt_or_ge w' w with hlt' | hge'
    · have h0 := (Nat.modEq_zero_iff_dvd).mp
        (h.symm.trans ((Nat.modEq_zero_iff_dvd).mpr (dvd_refl w)))
      exact .inr (.inr ⟨rfl, Nat.eq_zero_of_dvd_of_lt h0 hlt'⟩)
    · exact .inl (Nat.le_antisymm hge' hw')

/-- Another word in the place of `w` is seen, the other zero apart. -/
theorem onesSum_replace (hM : 0 < M) (hw : w ≤ M) (hw' : w' ≤ M) (hne : w ≠ w')
    (hzero : ¬ (w = 0 ∧ w' = M)) (hzero' : ¬ (w = M ∧ w' = 0)) (h : onesSum M (n + w) = M) :
    onesSum M (n + w') ≠ M := by
  intro h'
  obtain ⟨-, hd⟩ := (onesSum_eq_top hM).mp h
  obtain ⟨-, hd'⟩ := (onesSum_eq_top hM).mp h'
  have hmod : n + w ≡ n + w' [MOD M] :=
    ((Nat.modEq_zero_iff_dvd).mpr hd).trans ((Nat.modEq_zero_iff_dvd).mpr hd').symm
  obtain h | h | h := eq_or_zeros hw hw' (Nat.ModEq.add_left_cancel' n hmod)
  · exact hne h
  · exact hzero h
  · exact hzero' h

end EponaOS
