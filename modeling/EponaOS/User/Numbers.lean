import EponaOS.Lib.CString
import EponaOS.Lib.Digits
import EponaOS.Lib.Fuel

/-!
# Numbers as text

`itoa`, `utoa`, `itox` and `atoi` of the user programs' `stdlib.c`: the digits are written from
the last one on, and turned round in place. Each loop has a fuel. The arithmetic of `atoi` wraps.
-/

namespace EponaOS.User

open Bytes

-- ---------------------------------------------------------------------------
-- The functions
-- ---------------------------------------------------------------------------

def strlen (m : Bytes) : Nat → Nat → Option Nat
  | 0, _ => none
  | n + 1, s => if m s ≠ 0 then (strlen m n (s + 1)).map (· + 1) else some 0

/-- The loop of `reverse_str` -/
def reverseLoop (s : Nat) : Nat → Nat → Nat → Bytes → Option Bytes
  | 0, _, _, _ => none
  | n + 1, i, j, m =>
    if i < j then
      let tmp := m (s + i)
      let m := setByte m (s + i) (m (s + j))
      reverseLoop s n (i + 1) (j - 1) (setByte m (s + j) tmp)
    else some m

def reverseStr (n s : Nat) (m : Bytes) : Option Bytes :=
  match strlen m n s with
  | none => none
  | some len => reverseLoop s n 0 (len - 1) m

/-- `while (val) { buf[i++] = digit(val); val = next(val); }` -/
def digitLoop (digit : Nat → UInt8) (next : Nat → Nat) (buf : Nat) :
    Nat → Nat → Nat → Bytes → Option (Nat × Bytes)
  | 0, _, _, _ => none
  | n + 1, val, i, m =>
    if val ≠ 0 then
      digitLoop digit next buf n (next val) (i + 1) (setByte m (buf + i) (digit val))
    else some (i, m)

/-- `'0' + val % 10` -/
def decDigit (val : Nat) : UInt8 := UInt8.ofNat (48 + val % 10)

def HEX : List UInt8 := [48, 49, 50, 51, 52, 53, 54, 55, 56, 57, 97, 98, 99, 100, 101, 102]

/-- `hex[val & 0xf]` -/
def hexDigit (val : Nat) : UInt8 := HEX.getD (val &&& 0xF) 0

/-- The digits of `val`, `'0'` for 0 -/
def putDigits (digit : Nat → UInt8) (next : Nat → Nat) (n val buf : Nat) (m : Bytes) :
    Option (Nat × Bytes) :=
  if val = 0 then some (1, setByte m buf 48) else digitLoop digit next buf n val 0 m

def itoa (n : Nat) (val : BitVec 32) (buf : Nat) (m : Bytes) : Option Bytes :=
  let neg := decide (val.toInt < 0)
  let uval := if neg then -(val + 1) + 1 else val
  match putDigits decDigit (· / 10) n uval.toNat buf m with
  | none => none
  | some (i, m) =>
    let (i, m) := if neg then (i + 1, setByte m (buf + i) 45) else (i, m)
    reverseStr n buf (setByte m (buf + i) 0)

def utoa (n : Nat) (val : BitVec 32) (buf : Nat) (m : Bytes) : Option Bytes :=
  match putDigits decDigit (· / 10) n val.toNat buf m with
  | none => none
  | some (i, m) => reverseStr n buf (setByte m (buf + i) 0)

def itox (n : Nat) (val : BitVec 32) (buf : Nat) (m : Bytes) : Option Bytes :=
  match putDigits hexDigit (· >>> 4) n val.toNat buf m with
  | none => none
  | some (i, m) => reverseStr n buf (setByte m (buf + i) 0)

/-- `while (*s == ' ') s++` -/
def skipSpaces (m : Bytes) : Nat → Nat → Option Nat
  | 0, _ => none
  | n + 1, s => if m s = 32 then skipSpaces m n (s + 1) else some s

/-- `while (*s >= '0' && *s <= '9') { val = val * 10 + (*s - '0'); s++; }` -/
def atoiLoop (m : Bytes) : Nat → Nat → BitVec 32 → Option (BitVec 32)
  | 0, _, _ => none
  | n + 1, s, val =>
    if m s ≥ 48 ∧ m s ≤ 57 then atoiLoop m n (s + 1) (val * 10 + BitVec.ofNat 32 ((m s).toNat - 48))
    else some val

def atoi (n : Nat) (m : Bytes) (s : Nat) : Option (BitVec 32) :=
  match skipSpaces m n s with
  | none => none
  | some s =>
    let neg := decide (m s = 45)
    let s := if m s = 45 then s + 1 else if m s = 43 then s + 1 else s
    (atoiLoop m n s 0).map fun val => if neg then -val else val

-- ---------------------------------------------------------------------------
-- Turning round
-- ---------------------------------------------------------------------------

variable {m m' : Bytes} {n s i j k val buf : Nat} {w digits : List UInt8} {c : UInt8}

theorem strlen_eq (h : HasStr m s w) (h0 : 0 ∉ w) (hn : w.length < n) :
    strlen m n s = some w.length := by
  induction w generalizing s n with
  | nil =>
    obtain ⟨n, rfl⟩ := exists_succ hn
    have hnul : m s = 0 := h.1
    rw [strlen, if_neg (not_not.mpr hnul)]
    rfl
  | cons c w ih =>
    obtain ⟨n, rfl⟩ := exists_succ hn
    obtain ⟨hc, hrest⟩ := h
    rw [List.mem_cons, not_or] at h0
    rw [strlen, hc, if_pos (Ne.symm h0.1), ih hrest h0.2 (by simpa using hn)]
    rfl

theorem reverseLoop_eq (hn : j - i < n) :
    ∃ m', reverseLoop s n i j m = some m' ∧
      ∀ x, m' x = if s + i ≤ x ∧ x ≤ s + j then m (s + i + (s + j) - x) else m x := by
  induction n generalizing i j m with
  | zero => omega
  | succ n ih =>
    rw [reverseLoop]
    by_cases hij : i < j
    · rw [if_pos hij]
      obtain ⟨m', hloop, hm'⟩ := ih (i := i + 1) (j := j - 1)
        (m := setByte (setByte m (s + i) (m (s + j))) (s + j) (m (s + i))) (by omega)
      refine ⟨m', hloop, fun x => ?_⟩
      rw [hm']
      by_cases hin : s + (i + 1) ≤ x ∧ x ≤ s + (j - 1)
      · have hat : s + (i + 1) + (s + (j - 1)) - x = s + i + (s + j) - x := by omega
        rw [if_pos hin, if_pos (by omega), hat, setByte_ne _ _ (by omega),
          setByte_ne _ _ (by omega)]
      · rw [if_neg hin]
        by_cases hxi : x = s + i
        · have hat : s + i + (s + j) - x = s + j := by omega
          rw [if_pos (by omega), hat, hxi, setByte_ne _ _ (by omega), setByte_same]
        · by_cases hxj : x = s + j
          · have hat : s + i + (s + j) - x = s + i := by omega
            rw [if_pos (by omega), hat, hxj, setByte_same]
          · rw [setByte_ne _ _ hxj, setByte_ne _ _ hxi, if_neg (by omega)]
    · rw [if_neg hij]
      refine ⟨m, rfl, fun x => ?_⟩
      split
      · congr 1
        omega
      · rfl

theorem reverseStr_eq (h0 : 0 ∉ w) (hn : w.length < n) :
    reverseStr n buf (putBytes m buf (w ++ [0])) =
      some (putBytes m buf (w.reverse ++ [0])) := by
  have hw : HasStr (putBytes m buf (w ++ [0])) buf w := putBytes_nul m buf w
  obtain ⟨m', hloop, hm'⟩ := reverseLoop_eq (m := putBytes m buf (w ++ [0])) (n := n)
    (s := buf) (i := 0) (j := w.length - 1) (by omega)
  rw [reverseStr, strlen_eq hw h0 hn]
  simp only [hloop, Option.some_inj]
  obtain ⟨hbytes, hnul⟩ := hasStr_iff.mp hw
  refine (putBytes_eq ?_ fun x hx => ?_).symm
  · rw [← HasStr, hasStr_iff, List.length_reverse]
    refine ⟨hasBytes_iff.mpr fun k hk => ?_, ?_⟩
    · rw [List.length_reverse] at hk
      have hat : buf + 0 + (buf + (w.length - 1)) - (buf + k) = buf + (w.length - 1 - k) := by omega
      rw [hm', if_pos (by omega), hat, hasBytes_iff.mp hbytes _ (by omega), List.getElem_reverse]
    · rw [hm']
      split
      · -- the string is empty
        have hat : buf + 0 + (buf + (w.length - 1)) - (buf + w.length) = buf + w.length := by omega
        rw [hat, hnul]
      · exact hnul
  · rw [List.length_append, List.length_reverse, List.length_singleton] at hx
    have hin : ¬ (buf + 0 ≤ x ∧ x ≤ buf + (w.length - 1)) := by omega
    rw [hm', if_neg hin, putBytes_off _ _ (by simpa using hx)]

-- ---------------------------------------------------------------------------
-- Digits
-- ---------------------------------------------------------------------------

/-- `digit` and `next` take the digits of base `b`, which are written as `sym` says. -/
structure IsBase (digit : Nat → UInt8) (next : Nat → Nat) (b : Nat) (sym : Nat → UInt8) : Prop where
  one_lt : 1 < b
  digit : ∀ val, digit val = sym (val % b)
  next : ∀ val, next val = val / b
  zero : sym 0 = 48
  ne : ∀ d < b, sym d ≠ 0

def decChar (d : Nat) : UInt8 := UInt8.ofNat (48 + d)

def hexChar (d : Nat) : UInt8 := HEX.getD d 0

theorem isBase_dec : IsBase decDigit (· / 10) 10 decChar where
  one_lt := by decide
  digit _ := rfl
  next _ := rfl
  zero := rfl
  ne := by decide

theorem isBase_hex : IsBase hexDigit (· >>> 4) 16 hexChar where
  one_lt := by decide
  digit val := by
    have hand : val &&& 0xF = val % 16 := Nat.and_two_pow_sub_one_eq_mod val 4
    rw [hexDigit, hand, hexChar]
  next val := Nat.shiftRight_eq_div_pow val 4
  zero := rfl
  ne := by decide

variable {digit sym : Nat → UInt8} {next : Nat → Nat} {b : Nat}

theorem digitLoop_eq (h : IsBase digit next b sym) (hn : (Nat.digits b val).length < n) :
    digitLoop digit next buf n val i m =
      some (i + (Nat.digits b val).length, putBytes m (buf + i) ((Nat.digits b val).map sym)) := by
  induction n generalizing val i m with
  | zero => omega
  | succ n ih =>
    rw [digitLoop]
    by_cases hval : val = 0
    · rw [if_neg (not_not.mpr hval), hval, Nat.digits_zero]
      rfl
    · rw [Nat.digits_def' h.one_lt (Nat.pos_of_ne_zero hval)] at hn ⊢
      rw [List.length_cons] at hn
      rw [if_pos hval, h.next, ih (by omega), List.map_cons, List.length_cons, putBytes, h.digit]
      congr 2
      omega

theorem putDigits_eq (h : IsBase digit next b sym) (hn : (digitsOf b val).length < n) :
    putDigits digit next n val buf m =
      some ((digitsOf b val).length, putBytes m buf ((digitsOf b val).reverse.map sym)) := by
  rw [putDigits]
  by_cases hval : val = 0
  · rw [if_pos hval, hval, digitsOf_zero, ← h.zero]
    rfl
  · rw [digitsOf_of_ne hval, List.length_reverse] at hn ⊢
    rw [if_neg hval, digitLoop_eq h hn, List.reverse_reverse, Nat.zero_add]
    rfl

theorem putBytes_snoc (m : Bytes) (a : Nat) (w : List UInt8) (c : UInt8) (hi : i = w.length) :
    setByte (putBytes m a w) (a + i) c = putBytes m a (w ++ [c]) := by
  rw [putBytes_append, hi]
  rfl

theorem sym_ne (h : IsBase digit next b sym) (val : Nat) : 0 ∉ (digitsOf b val).map sym := by
  rw [List.mem_map]
  rintro ⟨d, hd, hzero⟩
  exact h.ne d (digitsOf_lt h.one_lt d hd) hzero

theorem finish_eq (h : IsBase digit next b sym) (val : Nat)
    (hn : (digitsOf b val).length < n) :
    reverseStr n buf (setByte (putBytes m buf ((digitsOf b val).reverse.map sym))
        (buf + (digitsOf b val).length) 0) =
      some (putBytes m buf ((digitsOf b val).map sym ++ [0])) := by
  have h0 : 0 ∉ (digitsOf b val).reverse.map sym := by
    rw [List.map_reverse, List.mem_reverse]
    exact sym_ne h val
  rw [putBytes_snoc _ _ _ _ (by simp), reverseStr_eq h0 (by simpa using hn), List.map_reverse,
    List.reverse_reverse]

theorem utoa_eq (v : BitVec 32) (hn : (digitsOf 10 v.toNat).length < n) :
    utoa n v buf m = some (putBytes m buf ((digitsOf 10 v.toNat).map decChar ++ [0])) := by
  rw [utoa, putDigits_eq isBase_dec hn]
  exact finish_eq isBase_dec v.toNat hn

theorem itox_eq (v : BitVec 32) (hn : (digitsOf 16 v.toNat).length < n) :
    itox n v buf m = some (putBytes m buf ((digitsOf 16 v.toNat).map hexChar ++ [0])) := by
  rw [itox, putDigits_eq isBase_hex hn]
  exact finish_eq isBase_hex v.toNat hn

-- ---------------------------------------------------------------------------
-- Signs
-- ---------------------------------------------------------------------------

theorem uval_eq (v : BitVec 32) :
    (if decide (v.toInt < 0) = true then -(v + 1) + 1 else v).toNat = v.toInt.natAbs := by
  have hlt := v.isLt
  rw [BitVec.toInt_eq_toNat_cond]
  by_cases hneg : 2 * v.toNat < 2 ^ 32
  · rw [if_pos hneg, if_neg (by simp)]
    rfl
  · rw [if_neg hneg, if_pos (by simp; omega)]
    simp only [BitVec.toNat_add, BitVec.toNat_neg]
    omega

def intText (v : BitVec 32) : List UInt8 :=
  (if v.toInt < 0 then [45] else []) ++ (digitsOf 10 v.toInt.natAbs).map decChar

theorem itoa_eq (v : BitVec 32) (hn : (intText v).length < n) :
    itoa n v buf m = some (putBytes m buf (intText v ++ [0])) := by
  rw [intText, List.length_append, List.length_map] at hn
  rw [itoa]
  dsimp only
  rw [uval_eq, putDigits_eq isBase_dec (by omega), intText]
  by_cases hneg : v.toInt < 0
  · simp only [decide_eq_true hneg, if_true, if_pos hneg]
    rw [if_pos hneg, List.length_singleton] at hn
    have h0 : 0 ∉ (digitsOf 10 v.toInt.natAbs).reverse.map decChar ++ [45] := by
      rw [List.map_reverse, List.mem_append, List.mem_reverse, List.mem_singleton]
      exact not_or.mpr ⟨sym_ne isBase_dec _, by decide⟩
    rw [putBytes_snoc _ _ _ _ (by simp), putBytes_snoc _ _ _ _ (by simp),
      reverseStr_eq h0 (by simp; omega)]
    simp
  · simp only [decide_eq_false hneg, if_neg hneg, List.nil_append]
    exact finish_eq isBase_dec _ (by omega)

theorem atoiLoop_eq {ds : List Nat} (hm : HasStr m s (ds.map decChar)) (hds : ∀ d ∈ ds, d < 10)
    (v : BitVec 32) (hn : ds.length < n) :
    atoiLoop m n s v = some (ds.foldl (fun v d => v * 10 + BitVec.ofNat 32 d) v) := by
  induction ds generalizing s n v with
  | nil =>
    obtain ⟨n, rfl⟩ := exists_succ hn
    have hnul : m s = 0 := hm.1
    rw [atoiLoop, hnul, if_neg (by decide)]
    rfl
  | cons d ds ih =>
    obtain ⟨n, rfl⟩ := exists_succ hn
    obtain ⟨hd, hrest⟩ := hm
    obtain ⟨hlt, hds⟩ := List.forall_mem_cons.mp hds
    have hdigit : ∀ d < 10, decChar d ≥ 48 ∧ decChar d ≤ 57 ∧ (decChar d).toNat - 48 = d := by
      decide
    obtain ⟨hge, hle, hval⟩ := hdigit d hlt
    rw [atoiLoop, hd, if_pos ⟨hge, hle⟩, hval, ih hrest hds _ (by simpa using hn)]
    rfl

theorem foldl_ofNat (ds : List Nat) (v : Nat) :
    ds.foldl (fun v d => v * 10 + BitVec.ofNat 32 d) (BitVec.ofNat 32 v) =
      BitVec.ofNat 32 (ds.foldl (fun v d => v * 10 + d) v) := by
  induction ds generalizing v with
  | nil => rfl
  | cons d ds ih =>
    rw [List.foldl_cons, List.foldl_cons, ← ih]
    congr 1
    apply BitVec.eq_of_toNat_eq
    simp [BitVec.toNat_add, BitVec.toNat_mul]

theorem neg_ofNat_natAbs (v : BitVec 32) :
    (if decide (v.toInt < 0) = true then -(BitVec.ofNat 32 v.toInt.natAbs)
      else BitVec.ofNat 32 v.toInt.natAbs) = v := by
  have hlt := v.isLt
  apply BitVec.eq_of_toNat_eq
  rw [BitVec.toInt_eq_toNat_cond]
  by_cases hneg : 2 * v.toNat < 2 ^ 32
  · rw [if_pos hneg, if_neg (by simp), BitVec.toNat_ofNat]
    omega
  · rw [if_neg hneg, if_pos (by simp; omega), BitVec.toNat_neg, BitVec.toNat_ofNat]
    omega

/-- The digits of an absolute value are read from `s` on. -/
theorem atoiLoop_digits (v : BitVec 32)
    (hm : HasStr m s ((digitsOf 10 v.toInt.natAbs).map decChar))
    (hn : (digitsOf 10 v.toInt.natAbs).length < n) :
    atoiLoop m n s 0 = some (BitVec.ofNat 32 v.toInt.natAbs) := by
  rw [atoiLoop_eq hm (digitsOf_lt (by decide)) 0 hn]
  refine congrArg some ((foldl_ofNat _ 0).trans ?_)
  rw [foldl_digitsOf (by decide)]

theorem atoi_intText (v : BitVec 32) (hm : HasStr m s (intText v)) (hn : (intText v).length < n) :
    atoi n m s = some v := by
  obtain ⟨k, rfl⟩ := exists_succ hn
  rw [intText, List.length_append, List.length_map] at hn
  rw [intText] at hm
  rw [← congrArg some (neg_ofNat_natAbs v), atoi]
  by_cases hneg : v.toInt < 0
  · rw [if_pos hneg] at hm hn
    obtain ⟨hminus, hdigits⟩ := hm
    have hskip : skipSpaces m (k + 1) s = some s := by
      rw [skipSpaces, hminus, if_neg (by decide)]
    have hloop := atoiLoop_digits (n := k + 1) v hdigits (by omega)
    simp only [hskip, hminus, if_true, hloop, decide_true, Option.map_some, decide_eq_true hneg]
  · rw [if_neg hneg] at hm hn
    rw [List.nil_append] at hm
    obtain ⟨d, ds, hds⟩ := List.exists_cons_of_ne_nil (canonical_digitsOf (by decide)
      v.toInt.natAbs : Canonical 10 _ _).ne
    have hfirst : m s = decChar d := by
      rw [hds] at hm
      exact hm.1
    have hdigit : ∀ d < 10, decChar d ≠ 32 ∧ decChar d ≠ 45 ∧ decChar d ≠ 43 := by decide
    have hlt : d < 10 := digitsOf_lt (by decide) d (hds ▸ List.mem_cons_self ..)
    obtain ⟨hspace, hminus, hplus⟩ := hdigit d hlt
    have hskip : skipSpaces m (k + 1) s = some s := by
      rw [skipSpaces, hfirst, if_neg hspace]
    have hloop := atoiLoop_digits (n := k + 1) v hm (by omega)
    simp only [hskip, hfirst, if_neg hminus, if_neg hplus, hloop, decide_eq_false hminus,
      Option.map_some, decide_eq_false hneg]

-- ---------------------------------------------------------------------------
-- All numbers
-- ---------------------------------------------------------------------------

theorem decimal_length (h : val < 2 ^ 32) : (digitsOf 10 val).length ≤ 10 :=
  digitsOf_length_le (by decide) (by decide) (by omega)

theorem hex_length (h : val < 2 ^ 32) : (digitsOf 16 val).length ≤ 8 :=
  digitsOf_length_le (by decide) (by decide) (by omega)

theorem intText_length (v : BitVec 32) : (intText v).length ≤ 11 := by
  have hlt : v.toInt.natAbs < 2 ^ 32 := by
    have hv := v.isLt
    rw [BitVec.toInt_eq_toNat_cond]
    split <;> omega
  have hlen := decimal_length hlt
  rw [intText, List.length_append, List.length_map]
  split <;> simp <;> omega

structure Puts (m : Bytes) (buf : Nat) (w : List UInt8) (m' : Bytes) : Prop where
  text : HasStr m' buf w
  length : w.length + 1 ≤ 12
  frame : ∀ x, x < buf ∨ buf + w.length + 1 ≤ x → m' x = m x

theorem puts_putBytes (m : Bytes) (buf : Nat) (h : w.length ≤ 11) :
    Puts m buf w (putBytes m buf (w ++ [0])) :=
  ⟨putBytes_nul m buf w, by omega, fun x hx => putBytes_off m _ (by
    rw [List.length_append, List.length_singleton]
    omega)⟩

/-- The three functions write the canonical forms, and `atoi` reads back what `itoa` wrote. -/
theorem numbers_canonical (m : Bytes) (buf : Nat) :
    (∀ v : BitVec 32, ∃ ds m', Canonical 10 ds v.toInt.natAbs ∧
      Returns (fun n => itoa n v buf m) m' ∧
      Puts m buf ((if v.toInt < 0 then [45] else []) ++ ds.map decChar) m' ∧
      Returns (fun n => atoi n m' buf) v) ∧
    (∀ v : BitVec 32, ∃ ds m', Canonical 10 ds v.toNat ∧
      Returns (fun n => utoa n v buf m) m' ∧ Puts m buf (ds.map decChar) m') ∧
    (∀ v : BitVec 32, ∃ ds m', Canonical 16 ds v.toNat ∧
      Returns (fun n => itox n v buf m) m' ∧ Puts m buf (ds.map hexChar) m') := by
  refine ⟨fun v => ?_, fun v => ?_, fun v => ?_⟩
  · have hlen := intText_length v
    refine ⟨digitsOf 10 v.toInt.natAbs, putBytes m buf (intText v ++ [0]),
      canonical_digitsOf (by decide) _, ⟨12, fun n hn => itoa_eq v (by omega)⟩,
      puts_putBytes m buf hlen, ⟨12, fun n hn => ?_⟩⟩
    exact atoi_intText v (putBytes_nul m buf _) (by omega)
  · have hlen := decimal_length v.isLt
    refine ⟨digitsOf 10 v.toNat, _, canonical_digitsOf (by decide) _,
      ⟨12, fun n hn => utoa_eq v (by omega)⟩, puts_putBytes m buf ?_⟩
    rw [List.length_map]
    omega
  · have hlen := hex_length v.isLt
    refine ⟨digitsOf 16 v.toNat, _, canonical_digitsOf (by decide) _,
      ⟨12, fun n hn => itox_eq v (by omega)⟩, puts_putBytes m buf ?_⟩
    rw [List.length_map]
    omega

/-- The least number, with its 11 characters -/
example : (itoa 12 (-2147483648) 0 fun _ => 0).bind (fun m => readStr m 12 0) =
    some (intText (-2147483648)) := by decide

end EponaOS.User
