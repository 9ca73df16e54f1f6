import Mathlib.Data.Nat.Digits.Lemmas

/-!
# Numbers as digits

The canonical digits of a number, the most significant one first: no zero stands in front, and
the number 0 is one digit.
-/

namespace EponaOS

variable {b n k : Nat} {ds es : List Nat}

structure Canonical (b : Nat) (ds : List Nat) (n : Nat) : Prop where
  lt : ∀ d ∈ ds, d < b
  value : Nat.ofDigits b ds.reverse = n
  ne : ds ≠ []
  lead : ds.head? = some 0 → ds = [0]

def digitsOf (b n : Nat) : List Nat := if n = 0 then [0] else (Nat.digits b n).reverse

theorem digitsOf_zero (b : Nat) : digitsOf b 0 = [0] := if_pos rfl

theorem digitsOf_of_ne (hn : n ≠ 0) : digitsOf b n = (Nat.digits b n).reverse := if_neg hn

theorem canonical_digitsOf (hb : 1 < b) (n : Nat) : Canonical b (digitsOf b n) n := by
  by_cases hn : n = 0
  · subst hn
    rw [digitsOf_zero]
    refine ⟨fun d hd => ?_, rfl, List.cons_ne_nil _ _, fun _ => rfl⟩
    rw [List.mem_singleton.mp hd]
    omega
  · rw [digitsOf_of_ne hn]
    refine ⟨fun d hd => Nat.digits_lt_base hb (List.mem_reverse.mp hd), ?_, ?_, fun hlead => ?_⟩
    · rw [List.reverse_reverse, Nat.ofDigits_digits]
    · exact List.reverse_ne_nil_iff.mpr (Nat.digits_ne_nil_iff_ne_zero.mpr hn)
    · -- the digit in front is the last one of `Nat.digits`
      rw [List.head?_reverse, List.getLast?_eq_some_getLast (Nat.digits_ne_nil_iff_ne_zero.mpr hn)]
        at hlead
      exact absurd (Option.some.inj hlead) (Nat.getLast_digit_ne_zero b hn)

theorem digitsOf_length_le (hb : 1 < b) (hk : 0 < k) (hn : n < b ^ k) :
    (digitsOf b n).length ≤ k := by
  by_cases h0 : n = 0
  · rw [h0, digitsOf_zero]
    exact hk
  · rw [digitsOf_of_ne h0, List.length_reverse]
    exact (Nat.digits_length_le_iff hb n).mpr hn

theorem digitsOf_lt (hb : 1 < b) : ∀ d ∈ digitsOf b n, d < b := (canonical_digitsOf hb n).lt

theorem foldl_digitsOf (hb : 1 < b) (n : Nat) :
    (digitsOf b n).foldl (fun v d => v * b + d) 0 = n := by
  have hvalue := (canonical_digitsOf hb n).value
  rw [Nat.ofDigits_eq_foldr, List.foldr_reverse] at hvalue
  refine Eq.trans ?_ hvalue
  congr 1
  funext v d
  rw [Nat.cast_id, Nat.mul_comm, Nat.add_comm]

end EponaOS
