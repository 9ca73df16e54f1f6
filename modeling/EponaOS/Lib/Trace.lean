/-!
# Properties of a trace

`Each P ev`: every event of `ev` is right for the events before it. What is appended has
only to be right for what is there already.
-/

namespace EponaOS

variable {E : Type} {P : List E → E → Prop} {ev ev' : List E}

def Each (P : List E → E → Prop) (ev : List E) : Prop :=
  ∀ before e after, ev = before ++ e :: after → P before e

theorem each_nil : Each P [] := fun before e after h => by
  cases before <;> cases h

theorem Each.append (h : Each P ev)
    (h' : ∀ before e after, ev' = before ++ e :: after → P (ev ++ before) e) :
    Each P (ev ++ ev') := by
  intro before e after he
  obtain ⟨mid, hb, he⟩ | ⟨mid, hb, he⟩ := List.append_eq_append_iff.mp he
  · rw [hb]
    exact h' mid e after he
  · cases mid with
    | nil =>
      rw [List.append_nil] at hb
      have := h' [] e after he.symm
      rwa [List.append_nil, hb] at this
    | cons x mid =>
      cases he
      exact h before e mid hb

theorem Each.append_of_forall (h : Each P ev) (h' : ∀ e ∈ ev', ∀ before, P before e) :
    Each P (ev ++ ev') := by
  refine h.append fun before e after he => h' e ?_ _
  rw [he]
  exact List.mem_append_right _ List.mem_cons_self

theorem Each.append_one (h : Each P ev) (he : P ev e) : Each P (ev ++ [e]) := by
  refine h.append fun before e' after heq => ?_
  cases before with
  | nil =>
    cases heq
    rwa [List.append_nil]
  | cons x before =>
    cases before <;> cases heq

end EponaOS
