/-!
# Walks of a cursor

A parser goes from position to position. `Walk r n x y`: `n` moves of `r` lead from `x` to
`y`. What a loop with `k` rounds needs is what a round needs at each position that fewer
than `k` moves reach.
-/

namespace EponaOS

inductive Walk (r : α → α → Prop) : Nat → α → α → Prop
  | here : Walk r 0 x x
  | move : r x y → Walk r n y z → Walk r (n + 1) x z

def Rounds (r : α → α → Prop) (Needs : α → Prop) : Nat → α → Prop
  | 0, _ => True
  | k + 1, x => Needs x ∧ ∀ y, r x y → Rounds r Needs k y

theorem rounds_iff {r : α → α → Prop} {Needs : α → Prop} :
    Rounds r Needs k x ↔ ∀ n < k, ∀ y, Walk r n x y → Needs y := by
  induction k generalizing x with
  | zero => exact ⟨fun _ n hn => absurd hn (Nat.not_lt_zero n), fun _ => trivial⟩
  | succ k ih =>
    constructor
    · rintro ⟨hx, hnext⟩ n hn y hw
      cases hw with
      | here => exact hx
      | move hr hw => exact ih.mp (hnext _ hr) _ (Nat.lt_of_succ_lt_succ hn) _ hw
    · intro h
      refine ⟨h 0 (Nat.succ_pos k) x .here, fun y hr => ih.mpr fun n hn z hw => ?_⟩
      exact h (n + 1) (Nat.succ_lt_succ hn) z (.move hr hw)

theorem Walk.le {r : Nat → Nat → Prop} (hr : ∀ x y, r x y → x < y) (h : Walk r n x y) :
    x + n ≤ y := by
  induction h with
  | here => exact Nat.le_refl _
  | move hm _ ih =>
    have := hr _ _ hm
    omega

end EponaOS
