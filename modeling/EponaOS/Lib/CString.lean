import EponaOS.Lib.Bytes

/-!
# Strings in memory

`HasBytes m a s` says that the bytes `s` are at `a`. A string is its bytes and a NUL behind them.
-/

namespace EponaOS

variable {m m' : Bytes} {a b i n : Nat} {s t : List UInt8} {c v : UInt8}

def HasBytes (m : Bytes) : Nat → List UInt8 → Prop
  | _, [] => True
  | a, c :: s => m a = c ∧ HasBytes m (a + 1) s

def HasStr (m : Bytes) (a : Nat) (s : List UInt8) : Prop := HasBytes m a (s ++ [0])

theorem hasBytes_append : HasBytes m a (s ++ t) ↔ HasBytes m a s ∧ HasBytes m (a + s.length) t := by
  induction s generalizing a with
  | nil => simp [HasBytes]
  | cons c s ih =>
    have hlen : a + (c :: s).length = a + 1 + s.length := by
      rw [List.length_cons]
      omega
    rw [List.cons_append, HasBytes, HasBytes, ih, hlen, and_assoc]

theorem hasBytes_iff : HasBytes m a s ↔ ∀ i, (h : i < s.length) → m (a + i) = s[i] := by
  induction s generalizing a with
  | nil => exact ⟨fun _ i h => absurd h (Nat.not_lt_zero i), fun _ => trivial⟩
  | cons c s ih =>
    rw [HasBytes, ih]
    constructor
    · rintro ⟨hc, hrest⟩ i hi
      cases i with
      | zero => exact hc
      | succ i =>
        rw [List.getElem_cons_succ, ← hrest i (by simpa using hi)]
        congr 1
        omega
    · intro hall
      refine ⟨hall 0 (by simp), fun i hi => ?_⟩
      have h := hall (i + 1) (by simpa using hi)
      rw [List.getElem_cons_succ] at h
      rw [← h]
      congr 1
      omega

theorem HasBytes.congr (h : HasBytes m a s) (heq : ∀ x, a ≤ x → x < a + s.length → m' x = m x) :
    HasBytes m' a s := by
  rw [hasBytes_iff] at h ⊢
  intro i hi
  rw [heq (a + i) (Nat.le_add_right ..) (by omega), h i hi]

theorem hasStr_iff : HasStr m a s ↔ HasBytes m a s ∧ m (a + s.length) = 0 := by
  rw [HasStr, hasBytes_append, HasBytes, HasBytes, and_true]

theorem exists_succ {n k : Nat} (h : k < n) : ∃ m, n = m + 1 := ⟨n - 1, by omega⟩

def readStr (m : Bytes) : Nat → Nat → Option (List UInt8)
  | 0, _ => none
  | n + 1, a => if m a = 0 then some [] else (readStr m n (a + 1)).map (m a :: ·)

theorem readStr_eq (h : HasStr m a s) (hs : 0 ∉ s) (hn : s.length < n) :
    readStr m n a = some s := by
  induction s generalizing a n with
  | nil =>
    obtain ⟨n, rfl⟩ := exists_succ hn
    have h0 : m a = 0 := h.1
    rw [readStr, if_pos h0]
  | cons c s ih =>
    obtain ⟨n, rfl⟩ := exists_succ hn
    obtain ⟨hc, hrest⟩ := h
    rw [List.mem_cons, not_or] at hs
    have hne : m a ≠ 0 := fun h0 => hs.1 (h0 ▸ hc)
    rw [readStr, if_neg hne, ih hrest hs.2 (by simpa using hn), Option.map_some, hc]

-- ---------------------------------------------------------------------------
-- Writing
-- ---------------------------------------------------------------------------

def putBytes : Bytes → Nat → List UInt8 → Bytes
  | m, _, [] => m
  | m, a, c :: s => putBytes (m.setByte a c) (a + 1) s

theorem putBytes_append (m : Bytes) (a : Nat) (s t : List UInt8) :
    putBytes m a (s ++ t) = putBytes (putBytes m a s) (a + s.length) t := by
  induction s generalizing m a with
  | nil => rfl
  | cons c s ih =>
    rw [List.cons_append, putBytes, putBytes, ih, List.length_cons]
    congr 1
    omega

theorem putBytes_off (m : Bytes) (s : List UInt8) (h : b < a ∨ a + s.length ≤ b) :
    putBytes m a s b = m b := by
  induction s generalizing m a with
  | nil => rfl
  | cons c s ih =>
    rw [List.length_cons] at h
    rw [putBytes, ih (m.setByte a c) (by omega), Bytes.setByte_ne _ _ (by omega)]

theorem putBytes_has (m : Bytes) (a : Nat) (s : List UInt8) : HasBytes (putBytes m a s) a s := by
  induction s generalizing m a with
  | nil => trivial
  | cons c s ih =>
    refine ⟨?_, ih (m.setByte a c) (a + 1)⟩
    rw [putBytes, putBytes_off _ _ (by omega), Bytes.setByte_same]

theorem putBytes_eq (h : HasBytes m' a s) (hoff : ∀ x, x < a ∨ a + s.length ≤ x → m' x = m x) :
    putBytes m a s = m' := by
  funext x
  by_cases hx : x < a ∨ a + s.length ≤ x
  · rw [putBytes_off m s hx, hoff x hx]
  · have hi : x - a < s.length := by omega
    have hx' : x = a + (x - a) := by omega
    rw [hx', hasBytes_iff.mp h (x - a) hi, hasBytes_iff.mp (putBytes_has m a s) (x - a) hi]

theorem putBytes_nul (m : Bytes) (a : Nat) (s : List UInt8) :
    HasStr (putBytes m a (s ++ [0])) a s := putBytes_has m a (s ++ [0])

end EponaOS
