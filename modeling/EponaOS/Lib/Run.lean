import Mathlib.Algebra.GroupWithZero.Nat

/-!
# Runs under a condition on each step

A system takes one action after another. `Run step ok s as s'` says that the actions `as`
lead from `s` to `s'`, each one taken in a state where `ok` allows it. What one allowed
step preserves holds in every state a run reaches.
-/

namespace EponaOS

variable {S A : Type}

inductive Run (step : S → A → S → Prop) (ok : S → A → Prop) : S → List A → S → Prop
  | nil : Run step ok s [] s
  | cons : ok s a → step s a s' → Run step ok s' as s'' → Run step ok s (a :: as) s''

variable {step : S → A → S → Prop} {ok ok' : S → A → Prop} {s s' s'' : S} {a : A} {as bs : List A}

theorem Run.invariant (h : Run step ok s as s') (Inv : S → Prop) (hs : Inv s)
    (hstep : ∀ s a s', Inv s → ok s a → step s a s' → Inv s') : Inv s' := by
  induction h with
  | nil => exact hs
  | cons hok h _ ih => exact ih (hstep _ _ _ hs hok h)

theorem Run.mono (h : Run step ok s as s') (hok : ∀ s a, ok s a → ok' s a) :
    Run step ok' s as s' := by
  induction h with
  | nil => exact .nil
  | cons ha hstep _ ih => exact .cons (hok _ _ ha) hstep ih

theorem Run.append (h : Run step ok s as s') (h' : Run step ok s' bs s'') :
    Run step ok s (as ++ bs) s'' := by
  induction h with
  | nil => exact h'
  | cons hok hstep _ ih => exact .cons hok hstep (ih h')

/-- Where each step keeps `Good` exactly when `ok'` allows it, a run that starts good ends
good exactly when `ok'` allows every step of it. -/
theorem Run.good_iff (h : Run step ok s as s') (Inv Good : S → Prop) (hinv : Inv s) (hs : Good s)
    (hdet : ∀ s a t t', step s a t → step s a t' → t = t')
    (hstep : ∀ s a t, Inv s → ok s a → step s a t → Inv t ∧ (Good t ↔ Good s ∧ ok' s a)) :
    Good s' ↔ Run step ok' s as s' := by
  constructor
  · intro hs'
    -- read backwards: a good state has only good states before it
    have hback : Good s' → Good s ∧ Run step ok' s as s' := by
      clear hs hs'
      induction h with
      | nil => exact fun hgood => ⟨hgood, .nil⟩
      | cons hok ht _ ih =>
        intro hgood
        obtain ⟨hinv, hiff⟩ := hstep _ _ _ hinv hok ht
        obtain ⟨hnext, hrun⟩ := ih hinv hgood
        obtain ⟨hgood, hok'⟩ := hiff.mp hnext
        exact ⟨hgood, .cons hok' ht hrun⟩
    exact (hback hs').2
  · intro hrun
    induction h with
    | nil => exact hs
    | cons hok ht _ ih =>
      rcases hrun with _ | ⟨hok', ht', hrun⟩
      cases hdet _ _ _ _ ht ht'
      obtain ⟨hinv, hiff⟩ := hstep _ _ _ hinv hok ht
      exact ih hinv (hiff.mpr ⟨hs, hok'⟩) hrun

/-- Where each step is `Done`, or lowers the rank by its `use` and raises it by its `add` at most,
one step is done in a run that uses more than there is. -/
theorem Run.progress (h : Run step ok s as s') (Rank : S → Nat → Prop) (Done : S → Prop)
    (use add : A → Nat) (hstep : ∀ s a s' n, Rank s n → ok s a → step s a s' →
      Done s' ∨ ∃ m, Rank s' m ∧ m + use a ≤ n + add a) (hs : Rank s n)
    (hn : n + (as.map add).sum < (as.map use).sum) :
    ∃ as₁ a as₂ s₁ s₂, as = as₁ ++ a :: as₂ ∧ Run step ok s as₁ s₁ ∧ step s₁ a s₂ ∧ Done s₂ ∧
      Run step ok s₂ as₂ s' := by
  induction h generalizing n with
  | nil => exact absurd hn (Nat.not_lt_zero _)
  | @cons s a s₁ as s' hok hst hrun ih =>
    rw [List.map_cons, List.map_cons, List.sum_cons, List.sum_cons] at hn
    obtain hdone | ⟨m, hm, hle⟩ := hstep s a s₁ n hs hok hst
    · exact ⟨[], a, as, s, s₁, rfl, .nil, hst, hdone, hrun⟩
    · obtain ⟨as₁, b, as₂, t, t', rfl, hbefore, hb, hdone, hafter⟩ := ih hm (by omega)
      exact ⟨a :: as₁, b, as₂, t, t', rfl, .cons hok hst hbefore, hb, hdone, hafter⟩

-- ---------------------------------------------------------------------------
-- Runs of a function
-- ---------------------------------------------------------------------------

variable {f : S → A → S}

/-- Where a step that `ok` does not allow spoils what the invariant gives, all states of a run are
good exactly when `ok` allows every step of it. -/
theorem foldl_always_iff (Inv Good : S → Prop) (ok : S → A → Prop) (as : List A) (hs : Inv s)
    (hgood : ∀ s, Inv s → Good s)
    (hkeep : ∀ s a, Inv s → ok s a → Inv (f s a))
    (hspoil : ∀ s a, Inv s → ¬ ok s a → ¬ Good (f s a)) :
    (∀ bs, bs <+: as → Good (bs.foldl f s)) ↔
      ∀ bs a, bs ++ [a] <+: as → ok (bs.foldl f s) a := by
  induction as generalizing s with
  | nil =>
    refine ⟨fun _ bs a h => ?_, fun _ bs h => ?_⟩
    · have hne := List.append_ne_nil_of_right_ne_nil bs (List.cons_ne_nil a [])
      exact absurd (List.prefix_nil.mp h) hne
    · rw [List.prefix_nil.mp h]
      exact hgood s hs
  | cons a as ih =>
    constructor
    · intro hall
      have hok : ok s a := Classical.byContradiction fun hno =>
        hspoil s a hs hno (hall [a] ⟨as, rfl⟩)
      have hlater := (ih (hkeep s a hs hok)).mp fun bs h =>
        hall (a :: bs) (List.cons_prefix_cons.mpr ⟨rfl, h⟩)
      intro bs b h
      cases bs with
      | nil =>
        obtain ⟨rfl, -⟩ := List.cons_prefix_cons.mp h
        exact hok
      | cons c bs =>
        obtain ⟨rfl, hbs⟩ := List.cons_prefix_cons.mp h
        exact hlater bs b hbs
    · intro hall bs h
      cases bs with
      | nil => exact hgood s hs
      | cons c bs =>
        obtain ⟨rfl, hbs⟩ := List.cons_prefix_cons.mp h
        have hok : ok s c := hall [] c ⟨as, rfl⟩
        refine (ih (hkeep s c hs hok)).mpr (fun bs b h => ?_) bs hbs
        exact hall (c :: bs) b (List.cons_prefix_cons.mpr ⟨rfl, h⟩)

end EponaOS
