import Mathlib.Data.Finset.Card
import Mathlib.Data.Finset.Range
import Mathlib.Logic.Function.Iterate

/-!
# Chains through a function

`next` leads from one cell to the following one, as the entries of a file allocation table
do. `Chain next stop c l` says that the walk from `c` meets the cells `l`, in this order,
and then a value at which it stops. The list is finite, so the walk has no cycle.
-/

namespace EponaOS

inductive Chain {α : Type} (next : α → α) (stop : α → Prop) : α → List α → Prop
  | nil : stop c → Chain next stop c []
  | link : ¬ stop c → Chain next stop (next c) l → Chain next stop c (c :: l)

namespace Chain

variable {α : Type} {next next' : α → α} {stop : α → Prop} {c x y : α} {l l' : List α}

theorem ne_nil (h : Chain next stop c l) (hc : ¬ stop c) : l ≠ [] := by
  rintro rfl
  cases h with
  | nil hs => exact hc hs

theorem unique (h : Chain next stop c l) (h' : Chain next stop c l') : l = l' := by
  induction h generalizing l' with
  | nil hs =>
    cases h' with
    | nil => rfl
    | link hns => exact absurd hs hns
  | link hns _ ih =>
    cases h' with
    | nil hs => exact absurd hs hns
    | link _ h' => rw [ih h']

theorem of_append (h : Chain next stop c (l ++ x :: l')) : Chain next stop x (x :: l') := by
  induction l generalizing c with
  | nil =>
    cases h with
    | link hns h => exact .link hns h
  | cons a l ih =>
    cases h with
    | link _ h => exact ih h

theorem nodup (h : Chain next stop c l) : l.Nodup := by
  induction h with
  | nil => exact List.nodup_nil
  | link hns h ih =>
    refine List.nodup_cons.mpr ⟨fun hm => ?_, ih⟩
    obtain ⟨l₁, l₂, rfl⟩ := List.append_of_mem hm
    have he := unique (.link hns h) (of_append h)
    have hlen := congrArg List.length he
    simp at hlen
    omega

theorem not_stop (h : Chain next stop c l) (hx : x ∈ l) : ¬ stop x := by
  induction h with
  | nil => cases hx
  | link hns _ ih =>
    obtain _ | ⟨_, hx⟩ := hx
    · exact hns
    · exact ih hx

theorem stop_iterate (h : Chain next stop c l) : stop (next^[l.length] c) := by
  induction h with
  | nil hs => exact hs
  | link _ _ ih =>
    rw [List.length_cons, Function.iterate_succ_apply]
    exact ih

theorem of_iterate {k : Nat} (h : stop (next^[k] c)) : ∃ l, Chain next stop c l := by
  induction k generalizing c with
  | zero => exact ⟨[], .nil h⟩
  | succ k ih =>
    by_cases hc : stop c
    · exact ⟨[], .nil hc⟩
    · rw [Function.iterate_succ_apply] at h
      obtain ⟨l, hl⟩ := ih h
      exact ⟨c :: l, .link hc hl⟩

/-- Cells that are numbers below `n` make a chain of at most `n`. -/
theorem length_le {next : Nat → Nat} {stop : Nat → Prop} {c n : Nat} {l : List Nat}
    (h : Chain next stop c l) (hn : ∀ x, ¬ stop x → x < n) : l.length ≤ n := by
  have hsub : l.toFinset ⊆ Finset.range n := by
    intro x hx
    exact Finset.mem_range.mpr (hn x (h.not_stop (List.mem_toFinset.mp hx)))
  have hcard := Finset.card_le_card hsub
  rwa [List.toFinset_card_of_nodup h.nodup, Finset.card_range] at hcard

theorem congr (h : Chain next stop c l) (hn : ∀ x ∈ l, next' x = next x) :
    Chain next' stop c l := by
  induction h with
  | nil hs => exact .nil hs
  | link hns _ ih =>
    refine .link hns ?_
    rw [hn _ List.mem_cons_self]
    exact ih fun x hx => hn x (List.mem_cons_of_mem _ hx)

theorem next_getElem (h : Chain next stop c l) {i : Nat} (hi : i + 1 < l.length) :
    next l[i] = l[i + 1] := by
  induction h generalizing i with
  | nil => simp at hi
  | link _ h ih =>
    cases i with
    | zero =>
      cases h with
      | nil => simp at hi
      | link => rfl
    | succ i =>
      simp only [List.getElem_cons_succ]
      exact ih (by simpa using hi)

theorem getElem_zero (h : Chain next stop c l) (h0 : 0 < l.length) : l[0] = c := by
  cases h with
  | nil => simp at h0
  | link => rfl

theorem stop_next (h : Chain next stop c l) {i : Nat} (hi : i + 1 = l.length) :
    stop (next l[i]) := by
  induction h generalizing i with
  | nil => simp at hi
  | link _ h ih =>
    cases i with
    | zero =>
      cases h with
      | nil hs => exact hs
      | link => simp at hi
    | succ i =>
      simp only [List.getElem_cons_succ]
      exact ih (by simpa using hi)

theorem extend (h : Chain next stop c l) {i : Nat} (hi : i + 1 = l.length)
    (hn : ∀ x ∈ l, x ≠ l[i] → next' x = next x) (hl : next' l[i] = y) (hy : ¬ stop y)
    (hs : stop (next' y)) : Chain next' stop c (l ++ [y]) := by
  have hnd := h.nodup
  induction h generalizing i with
  | nil => simp at hi
  | @link c l hns h ih =>
    refine .link hns ?_
    cases i with
    | zero =>
      have : l = [] := by simpa using hi
      subst this
      simp only [List.getElem_cons_zero] at hl
      rw [hl]
      exact .link hy (.nil hs)
    | succ i =>
      simp only [List.getElem_cons_succ] at hl hn
      have hi' : i + 1 = l.length := by simpa using hi
      have hc : c ≠ l[i] := by
        intro hc
        have hm := List.getElem_mem (show i < l.length by omega)
        rw [← hc] at hm
        exact (List.nodup_cons.mp hnd).1 hm
      rw [hn c List.mem_cons_self hc]
      exact ih hi' (fun x hx => hn x (List.mem_cons_of_mem _ hx)) hl (List.nodup_cons.mp hnd).2

end Chain
end EponaOS
