import Mathlib.Tactic.Ring

/-!
# Bytes and little-endian fields

A store of bytes, and the fields of `n` bytes that a packed record of it has: `getLE`
reads one, `putLE` writes one. A field reads back what was written into it, and a write
is seen by the fields that overlap it only.
-/

namespace EponaOS

abbrev Bytes := Nat → UInt8

namespace Bytes

def setByte (m : Bytes) (a : Nat) (v : UInt8) : Bytes := fun x => if x = a then v else m x

def getLE (m : Bytes) (a : Nat) : Nat → Nat
  | 0 => 0
  | n + 1 => (m a).toNat + 256 * getLE m (a + 1) n

/-- `v` stored in the `n` bytes from `a` on; what does not fit is cut off. -/
def putLE (m : Bytes) (a n v : Nat) : Bytes :=
  fun x => if a ≤ x ∧ x < a + n then UInt8.ofNat (v / 256 ^ (x - a)) else m x

/-- The `n` bytes of `src` from `s` on, copied to `a`. -/
def blit (m : Bytes) (a n : Nat) (src : Bytes) (s : Nat) : Bytes :=
  fun x => if a ≤ x ∧ x < a + n then src (s + (x - a)) else m x

theorem shiftLeft_or {i n : Nat} (m : Nat) (h : n < 2 ^ i) : m <<< i ||| n = m * 2 ^ i + n := by
  rw [← Nat.shiftLeft_add_eq_or_of_lt h, Nat.shiftLeft_eq]

variable {m m' : Bytes} {a b n k v : Nat}

@[simp] theorem setByte_same (m : Bytes) (a : Nat) (v : UInt8) : setByte m a v a = v := by
  simp [setByte]

theorem setByte_ne (m : Bytes) (v : UInt8) (h : b ≠ a) : setByte m a v b = m b := by
  simp [setByte, h]

theorem putLE_off (m : Bytes) (v : Nat) (h : b < a ∨ a + n ≤ b) : putLE m a n v b = m b := by
  have : ¬ (a ≤ b ∧ b < a + n) := by omega
  simp [putLE, this]

theorem getLE_congr_at (h : ∀ i, i < n → m (a + i) = m' (b + i)) : getLE m a n = getLE m' b n := by
  induction n generalizing a b with
  | zero => rfl
  | succ n ih =>
    have h0 : m a = m' b := h 0 (by omega)
    have ht : getLE m (a + 1) n = getLE m' (b + 1) n := by
      apply ih
      intro i hi
      have := h (i + 1) (by omega)
      rwa [show a + (i + 1) = a + 1 + i by omega, show b + (i + 1) = b + 1 + i by omega] at this
    simp only [getLE, h0, ht]

theorem getLE_congr (h : ∀ i, i < n → m (a + i) = m' (a + i)) : getLE m a n = getLE m' a n :=
  getLE_congr_at h

theorem getLE_lt (m : Bytes) (a n : Nat) : getLE m a n < 256 ^ n := by
  induction n generalizing a with
  | zero => simp [getLE]
  | succ n ih =>
    have hb := (m a).toNat_lt
    have ht := ih (a + 1)
    rw [getLE, Nat.pow_succ]
    omega

/-- The digits of `v` read as a number are `v`, cut to the size of the field. -/
theorem getLE_digits (h : ∀ i, i < n → m (a + i) = UInt8.ofNat (v / 256 ^ i)) :
    getLE m a n = v % 256 ^ n := by
  induction n generalizing a v with
  | zero => simp [getLE, Nat.mod_one]
  | succ n ih =>
    have h0 : (m a).toNat = v % 256 := by
      rw [show m a = _ from h 0 (by omega)]
      simp
    have ht : getLE m (a + 1) n = v / 256 % 256 ^ n := by
      apply ih
      intro i hi
      have := h (i + 1) (by omega)
      rwa [show a + (i + 1) = a + 1 + i by omega, Nat.pow_succ', ← Nat.div_div_eq_div_mul] at this
    rw [getLE, h0, ht, Nat.pow_succ', Nat.mod_mul]

@[simp] theorem getLE_putLE_same (m : Bytes) (a n v : Nat) :
    getLE (putLE m a n v) a n = v % 256 ^ n := by
  apply getLE_digits
  intro i hi
  have : a ≤ a + i ∧ a + i < a + n := by omega
  rw [putLE, if_pos this, Nat.add_sub_cancel_left]

theorem getLE_putLE_off (m : Bytes) (v : Nat) (h : b + k ≤ a ∨ a + n ≤ b) :
    getLE (putLE m a n v) b k = getLE m b k :=
  getLE_congr fun i hi => putLE_off m v (by omega)

theorem getLE_setByte_off (m : Bytes) (v : UInt8) (h : b + k ≤ a ∨ a < b) :
    getLE (setByte m a v) b k = getLE m b k :=
  getLE_congr fun i hi => setByte_ne m v (by omega)

theorem blit_in (m src : Bytes) (s : Nat) (h : a ≤ b ∧ b < a + n) :
    blit m a n src s b = src (s + (b - a)) := by
  rw [blit, if_pos h]

theorem blit_off (m src : Bytes) (s : Nat) (h : b < a ∨ a + n ≤ b) : blit m a n src s b = m b := by
  have : ¬ (a ≤ b ∧ b < a + n) := by omega
  rw [blit, if_neg this]

@[simp] theorem blit_zero (m : Bytes) (a : Nat) (src : Bytes) (s : Nat) : blit m a 0 src s = m := by
  funext b
  exact blit_off _ _ _ (by omega)

theorem blit_blit (m src : Bytes) (a n n' s : Nat) :
    blit (blit m a n src s) (a + n) n' src (s + n) = blit m a (n + n') src s := by
  funext b
  by_cases h2 : a + n ≤ b ∧ b < a + n + n'
  · rw [blit_in _ _ _ h2, blit_in _ _ _ (by omega)]
    congr 1
    omega
  · rw [blit_off _ _ _ (by omega)]
    by_cases h1 : a ≤ b ∧ b < a + n
    · rw [blit_in _ _ _ h1, blit_in _ _ _ (by omega)]
    · rw [blit_off _ _ _ (by omega), blit_off _ _ _ (by omega)]

theorem blit_putLE (m src : Bytes) (a v : Nat) (h : b + n ≤ k) :
    blit m a k (putLE src b n v) 0 = putLE (blit m a k src 0) (a + b) n v := by
  funext x
  by_cases hin : a ≤ x ∧ x < a + k
  · rw [blit_in _ _ _ hin]
    by_cases hf : a + b ≤ x ∧ x < a + b + n
    · have h1 : b ≤ 0 + (x - a) ∧ 0 + (x - a) < b + n := by omega
      have h2 : 0 + (x - a) - b = x - (a + b) := by omega
      rw [putLE, putLE, if_pos h1, if_pos hf, h2]
    · rw [putLE_off _ _ (by omega), putLE_off _ _ (by omega), blit_in _ _ _ hin]
  · rw [blit_off _ _ _ (by omega), putLE_off _ _ (by omega), blit_off _ _ _ (by omega)]

end Bytes
end EponaOS
