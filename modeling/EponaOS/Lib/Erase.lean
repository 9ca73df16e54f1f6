import Mathlib.Data.Finset.Card
import Mathlib.Data.Finset.Filter

/-!
# Walks that erase their links

A walk over the cells of a table follows the link of a cell and erases it. `Met next ok c x`
says that `x` is a cell on the way from `c`, where `ok` holds of cells and of nothing else. The
way may lead into a circle: the walk ends there because the link it comes back to is gone.
-/

namespace EponaOS

inductive Met {α : Type} (next : α → α) (ok : α → Prop) (c : α) : α → Prop
  | start : ok c → Met next ok c c
  | link : Met next ok c x → ok (next x) → Met next ok c (next x)

namespace Met

variable {α : Type} {next next' : α → α} {ok : α → Prop} {c x : α}

theorem isCell (h : Met next ok c x) : ok x := by
  cases h with
  | start hc => exact hc
  | link _ hx => exact hx

theorem first (h : Met next ok c x) : ok c := by
  induction h with
  | start hc => exact hc
  | link _ _ ih => exact ih

theorem cons (hc : ok c) (h : Met next ok (next c) x) : Met next ok c x := by
  induction h with
  | start hn => exact .link (.start hc) hn
  | link _ hx ih => exact .link ih hx

/-- Once the link of `c` leads to no cell, the walk that goes on meets the rest of the way. -/
theorem erase_iff (hc : ok c) (hother : ∀ y, ok y → y ≠ c → next' y = next y)
    (hgone : ¬ ok (next' c)) : Met next ok c x ↔ x = c ∨ Met next' ok (next c) x := by
  constructor
  · intro h
    induction h with
    | start => exact .inl rfl
    | @link y hy hx ih =>
      by_cases hyc : y = c
      · subst hyc
        exact .inr (.start hx)
      · rw [← hother y hy.isCell hyc] at hx ⊢
        exact .inr (.link (ih.resolve_left hyc) hx)
  · rintro (rfl | h)
    · exact .start hc
    · refine cons hc ?_
      induction h with
      | start hn => exact .start hn
      | @link y hy hx ih =>
        have hyc : y ≠ c := by
          rintro rfl
          exact hgone hx
        rw [hother y hy.isCell hyc] at hx ⊢
        exact .link ih hx

end Met

theorem card_linked_lt {α : Type} [DecidableEq α] {linked linked' : α → Prop} [DecidablePred linked]
    [DecidablePred linked'] {cells : Finset α} {c : α} (hc : c ∈ cells) (hlinked : linked c)
    (hgone : ¬ linked' c) (hother : ∀ y ∈ cells, y ≠ c → linked' y → linked y) :
    (cells.filter linked').card < (cells.filter linked).card := by
  apply Finset.card_lt_card
  have hsub : cells.filter linked' ⊆ cells.filter linked := by
    intro y hy
    obtain ⟨hcell, hy⟩ := Finset.mem_filter.mp hy
    have hyc : y ≠ c := by
      rintro rfl
      exact hgone hy
    exact Finset.mem_filter.mpr ⟨hcell, hother y hcell hyc hy⟩
  refine (Finset.ssubset_iff_of_subset hsub).mpr ⟨c, Finset.mem_filter.mpr ⟨hc, hlinked⟩, fun h => ?_⟩
  exact hgone (Finset.mem_filter.mp h).2

end EponaOS
