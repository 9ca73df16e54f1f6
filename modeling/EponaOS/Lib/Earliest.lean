import Mathlib.Data.List.Perm.Subperm

/-!
# The first of a sorted list

Where a list is sorted, an element is among the first `k` exactly when fewer than `k`
elements come before it.
-/

namespace EponaOS

def FewBelow (r : α → α → Prop) (S : α → Prop) (k : Nat) (x : α) : Prop :=
  ∀ M : List α, M.Nodup → (∀ m ∈ M, S m ∧ r m x) → M.length < k

variable {r : α → α → Prop} {L A B : List α} {x : α}

theorem nodup_of_sorted (hasymm : ∀ a b, r a b → ¬ r b a) (h : L.Pairwise r) : L.Nodup :=
  h.imp fun {a b} hab heq => by
    subst heq
    exact hasymm _ _ hab hab

theorem mem_front (hasymm : ∀ a b, r a b → ¬ r b a) (h : (A ++ x :: B).Pairwise r)
    (hm : m ∈ A ++ x :: B) (hlt : r m x) : m ∈ A := by
  rcases List.mem_append.mp hm with hm | hm
  · exact hm
  rcases List.mem_cons.mp hm with rfl | hm
  · exact absurd hlt (hasymm _ _ hlt)
  · have hbehind := (List.pairwise_cons.mp (List.pairwise_append.mp h).2.1).1 m hm
    exact absurd hlt (hasymm _ _ hbehind)

theorem mem_take_iff_fewBelow (hasymm : ∀ a b, r a b → ¬ r b a) (h : L.Pairwise r) :
    x ∈ L.take k ↔ x ∈ L ∧ FewBelow r (· ∈ L) k x := by
  constructor
  · intro hx
    obtain ⟨A, B, hsplit⟩ := List.append_of_mem hx
    have hL : L = A ++ x :: (B ++ L.drop k) := by
      have hwhole := (List.take_append_drop k L).symm
      rwa [hsplit, List.append_assoc, List.cons_append] at hwhole
    have hshort : A.length < k := by
      have hlen := congrArg List.length hsplit
      rw [List.length_take, List.length_append, List.length_cons] at hlen
      omega
    refine ⟨List.mem_of_mem_take hx, fun M hnodup hM => ?_⟩
    have hsub : M ⊆ A := by
      intro m hm
      obtain ⟨hmem, hlt⟩ := hM m hm
      rw [hL] at h hmem
      exact mem_front hasymm h hmem hlt
    exact Nat.lt_of_le_of_lt (List.subperm_of_subset hnodup hsub).length_le hshort
  · rintro ⟨hx, hfew⟩
    obtain ⟨A, B, rfl⟩ := List.append_of_mem hx
    have hfront := (List.pairwise_append.mp h).2.2
    have hshort : A.length < k := by
      refine hfew A (nodup_of_sorted hasymm (List.pairwise_append.mp h).1) fun m hm => ?_
      exact ⟨List.mem_append_left _ hm, hfront m hm x List.mem_cons_self⟩
    rw [List.take_append, List.take_of_length_le (Nat.le_of_lt hshort)]
    obtain ⟨j, hj⟩ : ∃ j, k - A.length = j + 1 := ⟨k - A.length - 1, by omega⟩
    rw [hj, List.take_succ_cons]
    exact List.mem_append_right _ List.mem_cons_self

end EponaOS
