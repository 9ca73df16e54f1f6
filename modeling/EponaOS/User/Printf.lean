import EponaOS.User.Numbers

/-!
# printf and sprintf

`_vprintf` of the user programs' `stdlib.c`, with its output in memory or on the standard output.
The arguments are the words that `__builtin_va_arg` takes one after another; each loop has a fuel,
and `junk` is what a local buffer holds. The addresses at which the format is read are recorded.
-/

namespace EponaOS.User

open Bytes

/-- `out` is where the next character goes, `none` for the standard output. -/
structure Sink where
  out : Option Nat
  m : Bytes
  stdout : List UInt8

def putCharTo (s : Sink) (c : UInt8) : Sink :=
  match s.out with
  | some p => { s with out := some (p + 1), m := setByte s.m p c }
  | none => { s with stdout := s.stdout ++ [c] }

/-- `_put_str_to`; `src` is the memory that the string is in. -/
def putStrTo (src : Sink → Bytes) : Nat → Nat → Sink → Option Sink
  | 0, _, _ => none
  | n + 1, p, s => if src s p ≠ 0 then putStrTo src n (p + 1) (putCharTo s (src s p)) else some s

def Sink.puts (s : Sink) (w : List UInt8) : Sink := w.foldl putCharTo s

def putLocalTo (n : Nat) (buf : Option Bytes) (s : Sink) : Option Sink :=
  match buf with
  | none => none
  | some b => putStrTo (fun _ => b) n 0 s

def putIntTo (n : Nat) (junk : Bytes) (val : BitVec 32) (s : Sink) : Option Sink :=
  putLocalTo n (itoa n val 0 junk) s

def putUintTo (n : Nat) (junk : Bytes) (val : BitVec 32) (s : Sink) : Option Sink :=
  putLocalTo n (utoa n val 0 junk) s

def putHexTo (n : Nat) (junk : Bytes) (val : BitVec 32) (s : Sink) : Option Sink :=
  putLocalTo n (itox n val 0 junk) s

def ptrBuf (n : Nat) (junk : Bytes) (val : BitVec 64) : Option Bytes :=
  match digitLoop hexDigit (· >>> 4) 0 n val.toNat 0 junk with
  | none => none
  | some (i, b) => reverseStr n 0 (setByte b (0 + i) 0)

def putPtrTo (n : Nat) (junk : Bytes) (val : BitVec 64) (s : Sink) : Option Sink :=
  if val = 0 then some (s.puts [48, 120, 48])
  else putLocalTo n (ptrBuf n junk val) (s.puts [48, 120])

/-- The conversion `f`, which is at `fmt`, with the next argument `w`, and how many it takes -/
def putConv (n : Nat) (junk : Bytes) (f : UInt8) (w : BitVec 64) (fmt : Nat) (s : Sink) :
    Option (Sink × Nat) :=
  if f = 100 then (putIntTo n junk (w.setWidth 32) s).map (·, 1)
  else if f = 117 then (putUintTo n junk (w.setWidth 32) s).map (·, 1)
  else if f = 120 ∨ f = 88 then (putHexTo n junk (w.setWidth 32) s).map (·, 1)
  else if f = 115 then (putStrTo Sink.m n w.toNat s).map (·, 1)
  else if f = 99 then some (putCharTo s (UInt8.ofNat w.toNat), 1)
  else if f = 112 then (putPtrTo n junk w s).map (·, 1)
  else if f = 37 then some (putCharTo s 37, 0)
  else
    let s := putCharTo s 37
    some (putCharTo s (s.m fmt), 0)

/-- `_vprintf` from `fmt` on, with the argument `i` the next one -/
def vprintf (n : Nat) (junk : Bytes) (args : Nat → BitVec 64) :
    Nat → Nat → Nat → Sink → List Nat → Option (Sink × List Nat)
  | 0, _, _, _, _ => none
  | k + 1, fmt, i, s, reads =>
    if s.m fmt = 0 then some (s, reads ++ [fmt])
    else if s.m fmt = 37 then
      match putConv n junk (s.m (fmt + 1)) (args i) (fmt + 1) s with
      | none => none
      | some (s, used) => vprintf n junk args k (fmt + 2) (i + used) s (reads ++ [fmt, fmt + 1])
    else vprintf n junk args k (fmt + 1) i (putCharTo s (s.m fmt)) (reads ++ [fmt])

/-- `sprintf` with the memory `m`; the memory after it, and where the format was read -/
def sprintf (n : Nat) (junk : Bytes) (buf fmt : Nat) (args : Nat → BitVec 64) (m : Bytes) :
    Option (Bytes × List Nat) :=
  match vprintf n junk args n fmt 0 ⟨some buf, m, []⟩ [] with
  | none => none
  | some (s, reads) => some (setByte s.m (s.out.getD buf) 0, reads)

-- ---------------------------------------------------------------------------
-- What a format stands for
-- ---------------------------------------------------------------------------

inductive Piece
  | lit (c : UInt8)
  | conv (f : UInt8)
  deriving DecidableEq

/-- The pieces of a format, `none` when its last `%` has nothing behind it. -/
def pieces : List UInt8 → Option (List Piece)
  | [] => some []
  | [c] => if c = 37 then none else some [.lit c]
  | c :: f :: fmt =>
    if c = 37 then (pieces fmt).map (.conv f :: ·) else (pieces (f :: fmt)).map (.lit c :: ·)

def takesArg (f : UInt8) : Bool := [100, 117, 120, 88, 115, 99, 112].contains f

/-- The text of a conversion; `str` is the string that a word points to. -/
def convText (str : BitVec 64 → List UInt8) (f : UInt8) (w : BitVec 64) : List UInt8 :=
  if f = 100 then intText (w.setWidth 32)
  else if f = 117 then (digitsOf 10 (w.setWidth 32).toNat).map decChar
  else if f = 120 ∨ f = 88 then (digitsOf 16 (w.setWidth 32).toNat).map hexChar
  else if f = 115 then str w
  else if f = 99 then [UInt8.ofNat w.toNat]
  else if f = 112 then [48, 120] ++ (digitsOf 16 w.toNat).map hexChar
  else if f = 37 then [37]
  else [37, f]

def nextArg (f : UInt8) (i : Nat) : Nat := if takesArg f then i + 1 else i

def expand (str : BitVec 64 → List UInt8) (args : Nat → BitVec 64) :
    Nat → List Piece → List UInt8
  | _, [] => []
  | i, .lit c :: ps => c :: expand str args i ps
  | i, .conv f :: ps => convText str f (args i) ++ expand str args (nextArg f i) ps

def stringArgs (args : Nat → BitVec 64) : Nat → List Piece → List (BitVec 64)
  | _, [] => []
  | i, .lit _ :: ps => stringArgs args i ps
  | i, .conv f :: ps =>
    (if f = 115 then [args i] else []) ++ stringArgs args (nextArg f i) ps

-- ---------------------------------------------------------------------------
-- Output
-- ---------------------------------------------------------------------------

variable {s : Sink} {m junk : Bytes} {n p k i len : Nat} {v w : List UInt8} {c f : UInt8}

theorem puts_append (s : Sink) (v w : List UInt8) : s.puts (v ++ w) = (s.puts v).puts w :=
  List.foldl_append ..

theorem puts_out (hout : s.out = some p) :
    (s.puts w).out = some (p + w.length) ∧ (s.puts w).m = putBytes s.m p w := by
  induction w generalizing s p with
  | nil => exact ⟨hout, rfl⟩
  | cons c w ih =>
    have hput : putCharTo s c = { s with out := some (p + 1), m := setByte s.m p c } := by
      rw [putCharTo, hout]
    obtain ⟨hout', hm'⟩ := @ih (putCharTo s c) (p + 1) (by rw [hput])
    refine ⟨?_, ?_⟩
    · refine hout'.trans (congrArg some ?_)
      rw [List.length_cons]
      omega
    · refine hm'.trans ?_
      rw [hput]
      rfl

theorem puts_stdout (hout : s.out = none) :
    s.puts w = { s with stdout := s.stdout ++ w } := by
  induction w generalizing s with
  | nil => rw [List.append_nil]; rfl
  | cons c w ih =>
    have hput : putCharTo s c = { s with stdout := s.stdout ++ [c] } := by rw [putCharTo, hout]
    refine (@ih (putCharTo s c) (by rw [hput]; exact hout)).trans ?_
    rw [hput, List.append_assoc]
    rfl

/-- The next `len` characters do not go to the `n` bytes from `a` on. -/
def Sink.Clear (s : Sink) (len a n : Nat) : Prop :=
  ∀ p, s.out = some p → p + len ≤ a ∨ a + n ≤ p

theorem Sink.Clear.m_eq {a : Nat} (h : s.Clear len a n) (hlen : w.length ≤ len) (x : Nat)
    (hx : a ≤ x ∧ x < a + n) : (s.puts w).m x = s.m x := by
  cases hout : s.out with
  | none => rw [puts_stdout hout]
  | some p =>
    have hp := h p hout
    rw [(puts_out hout).2, putBytes_off _ _ (by omega)]

theorem Sink.Clear.puts {a : Nat} (h : s.Clear (w.length + len) a n) :
    (s.puts w).Clear len a n := by
  intro p hp
  cases hout : s.out with
  | none =>
    rw [puts_stdout hout] at hp
    rw [hout] at hp
    cases hp
  | some q =>
    rw [(puts_out hout).1] at hp
    cases hp
    have hq := h q hout
    omega

theorem Sink.Clear.keeps {a : Nat} (h : s.Clear len a (w.length + 1)) (hlen : v.length ≤ len)
    (hs : HasStr s.m a w) : HasStr (s.puts v).m a w :=
  HasBytes.congr hs fun x hx hlt => h.m_eq hlen x ⟨hx, by simpa using hlt⟩

theorem Sink.Clear.mono {a a' len' n' : Nat} (h : s.Clear len a n) (hlen : len' ≤ len)
    (ha : a ≤ a') (hn : a' + n' ≤ a + n) : s.Clear len' a' n' := by
  intro p hp
  have hp' := h p hp
  omega

theorem putStrTo_eq (src : Sink → Bytes) (hs : HasStr (src s) p w) (h0 : 0 ∉ w)
    (hn : w.length < n)
    (hkeep : ∀ v : List UInt8, v.length ≤ w.length → ∀ x, p ≤ x → x ≤ p + w.length →
      src (s.puts v) x = src s x) : putStrTo src n p s = some (s.puts w) := by
  induction w generalizing s p n with
  | nil =>
    obtain ⟨n, rfl⟩ := exists_succ hn
    have hnul : src s p = 0 := hs.1
    rw [putStrTo, if_neg (not_not.mpr hnul)]
    rfl
  | cons c w ih =>
    obtain ⟨n, rfl⟩ := exists_succ hn
    obtain ⟨hc, hrest⟩ := hs
    rw [List.mem_cons, not_or] at h0
    rw [List.length_cons] at hn hkeep
    have hone : ∀ x, p ≤ x → x ≤ p + (w.length + 1) → src (putCharTo s c) x = src s x :=
      fun x hx hle => hkeep [c] (by simp) x hx hle
    rw [putStrTo, hc, if_pos (Ne.symm h0.1)]
    refine ih (s := putCharTo s c) ?_ h0.2 (by omega) fun v hv x hx hle => ?_
    · exact hrest.congr fun x hx hlt => hone x (by omega) (by simp at hlt; omega)
    · rw [hone x (by omega) (by omega)]
      exact hkeep (c :: v) (by simpa using hv) x (by omega) (by omega)

theorem putLocalTo_eq (junk : Bytes) {buf : Option Bytes}
    (hbuf : buf = some (putBytes junk 0 (w ++ [0]))) (h0 : 0 ∉ w) (hn : w.length < n) :
    putLocalTo n buf s = some (s.puts w) := by
  rw [hbuf, putLocalTo]
  exact putStrTo_eq _ (putBytes_nul junk 0 w) h0 hn fun _ _ _ _ _ => rfl

theorem intText_ne (v : BitVec 32) : 0 ∉ intText v := by
  rw [intText, List.mem_append]
  refine not_or.mpr ⟨?_, sym_ne isBase_dec _⟩
  split <;> simp

theorem putPtrTo_eq (val : BitVec 64) (hn : 17 ≤ n) :
    putPtrTo n junk val s = some (s.puts ([48, 120] ++ (digitsOf 16 val.toNat).map hexChar)) := by
  have hlen : (digitsOf 16 val.toNat).length ≤ 16 :=
    digitsOf_length_le (by decide) (by decide) val.isLt
  rw [putPtrTo]
  by_cases hval : val = 0
  · rw [if_pos hval, hval]
    rfl
  · have hne : val.toNat ≠ 0 := fun h => hval (BitVec.eq_of_toNat_eq h)
    have hdigits : putDigits hexDigit (· >>> 4) n val.toNat 0 junk = some _ :=
      putDigits_eq isBase_hex (by omega)
    rw [putDigits, if_neg hne] at hdigits
    rw [if_neg hval, puts_append]
    refine putLocalTo_eq junk ?_ (sym_ne isBase_hex _) (by rw [List.length_map]; omega)
    rw [ptrBuf, hdigits]
    exact finish_eq isBase_hex val.toNat (by omega)

-- ---------------------------------------------------------------------------
-- A conversion
-- ---------------------------------------------------------------------------

variable {str : BitVec 64 → List UInt8} {args : Nat → BitVec 64} {fmt : List UInt8}
  {ps : List Piece} {a : Nat} {reads : List Nat}

/-- `str w` is at `w`, and the next `len` characters do not go there. -/
def StringArg (s : Sink) (str : BitVec 64 → List UInt8) (len : Nat) (w : BitVec 64) : Prop :=
  HasStr s.m w.toNat (str w) ∧ 0 ∉ str w ∧ s.Clear len w.toNat ((str w).length + 1)

theorem StringArg.puts {x : BitVec 64} (h : StringArg s str (v.length + len) x) :
    StringArg (s.puts v) str len x :=
  ⟨h.2.2.keeps (Nat.le_add_right ..) h.1, h.2.1, h.2.2.puts⟩

theorem putConv_returns (x : BitVec 64) (hf : s.m a = f)
    (hstr : f = 115 → StringArg s str (convText str f x).length x)
    (hclear : s.Clear (convText str f x).length a 1) :
    Returns (fun n => putConv n junk f x a s)
      (s.puts (convText str f x), if takesArg f then 1 else 0) := by
  refine ⟨(convText str f x).length + 17, fun n hn => ?_⟩
  change putConv n junk f x a s = _
  rw [putConv]
  by_cases hd : f = 100
  · subst hd
    have htext : convText str 100 x = intText (x.setWidth 32) := rfl
    rw [htext] at hn ⊢
    rw [if_pos rfl, putIntTo, putLocalTo_eq junk (itoa_eq _ (by omega)) (intText_ne _) (by omega)]
    rfl
  rw [if_neg hd]
  by_cases hu : f = 117
  · subst hu
    have htext : convText str 117 x = (digitsOf 10 (x.setWidth 32).toNat).map decChar := rfl
    rw [htext] at hn ⊢
    rw [List.length_map] at hn
    rw [if_pos rfl, putUintTo, putLocalTo_eq junk (utoa_eq _ (by omega)) (sym_ne isBase_dec _)
      (by rw [List.length_map]; omega)]
    rfl
  rw [if_neg hu]
  by_cases hx : f = 120 ∨ f = 88
  · have htext : convText str f x = (digitsOf 16 (x.setWidth 32).toNat).map hexChar := by
      rw [convText, if_neg hd, if_neg hu, if_pos hx]
    have htakes : takesArg f = true := by rcases hx with rfl | rfl <;> rfl
    rw [htext] at hn ⊢
    rw [List.length_map] at hn
    rw [if_pos hx, putHexTo, putLocalTo_eq junk (itox_eq _ (by omega)) (sym_ne isBase_hex _)
      (by rw [List.length_map]; omega), htakes]
    rfl
  rw [if_neg hx]
  by_cases hs : f = 115
  · subst hs
    have htext : convText str 115 x = str x := rfl
    obtain ⟨hat, h0, hfree⟩ := hstr rfl
    rw [htext] at hn hfree ⊢
    rw [if_pos rfl, putStrTo_eq Sink.m hat h0 (by omega) fun v hv y hy hle =>
      hfree.m_eq hv y ⟨hy, by omega⟩]
    rfl
  rw [if_neg hs]
  by_cases hc : f = 99
  · subst hc
    rfl
  rw [if_neg hc]
  by_cases hp : f = 112
  · subst hp
    rw [if_pos rfl, putPtrTo_eq x (by omega)]
    rfl
  rw [if_neg hp]
  by_cases hpct : f = 37
  · subst hpct
    rfl
  · have htext : convText str f x = [37, f] := by
      rw [convText, if_neg hd, if_neg hu, if_neg hx, if_neg hs, if_neg hc, if_neg hp, if_neg hpct]
    have htakes : takesArg f = false := by
      rw [not_or] at hx
      simp [takesArg, hd, hu, hx, hs, hc, hp]
    rw [htext] at hclear ⊢
    have hat : (putCharTo s 37).m a = f :=
      (hclear.m_eq (w := [37]) (by simp) a (by omega)).trans hf
    rw [if_neg hpct, htakes]
    simp only [hat]
    rfl

-- ---------------------------------------------------------------------------
-- A format
-- ---------------------------------------------------------------------------

/-- The format is at `a`, its `%s` arguments are strings, and the output goes to none of these. -/
structure Matching (s : Sink) (str : BitVec 64 → List UInt8) (args : Nat → BitVec 64) (i a : Nat)
    (fmt : List UInt8) (ps : List Piece) : Prop where
  text : HasStr s.m a fmt
  nul : 0 ∉ fmt
  clear : s.Clear (expand str args i ps).length a (fmt.length + 1)
  strs : ∀ x ∈ stringArgs args i ps, StringArg s str (expand str args i ps).length x

theorem Matching.lit (h : Matching s str args i a (c :: fmt) (.lit c :: ps)) :
    Matching (s.puts [c]) str args i (a + 1) fmt ps := by
  have hlen : (expand str args i (.lit c :: ps)).length =
      [c].length + (expand str args i ps).length := by
    rw [expand, List.length_cons, List.length_singleton, Nat.add_comm]
  have hclear := h.clear
  have hstrs := h.strs
  rw [hlen] at hclear hstrs
  obtain ⟨-, hrest⟩ := h.text
  have hbehind : s.Clear ([c].length + (expand str args i ps).length) (a + 1) (fmt.length + 1) :=
    hclear.mono (Nat.le_refl _) (by omega) (by rw [List.length_cons]; omega)
  refine ⟨hbehind.keeps (Nat.le_add_right ..) hrest, ?_, hbehind.puts, fun x hx => ?_⟩
  · exact fun h0 => h.nul (List.mem_cons_of_mem _ h0)
  · exact (hstrs x hx).puts

theorem Matching.conv (h : Matching s str args i a (37 :: f :: fmt) (.conv f :: ps)) :
    Matching (s.puts (convText str f (args i))) str args (nextArg f i) (a + 2) fmt ps := by
  have hlen : (expand str args i (.conv f :: ps)).length =
      (convText str f (args i)).length + (expand str args (nextArg f i) ps).length := by
    rw [expand, List.length_append]
  have hclear := h.clear
  have hstrs := h.strs
  rw [hlen] at hclear hstrs
  obtain ⟨-, -, hrest⟩ := h.text
  have hbehind : s.Clear ((convText str f (args i)).length +
      (expand str args (nextArg f i) ps).length) (a + 2) (fmt.length + 1) :=
    hclear.mono (Nat.le_refl _) (by omega) (by rw [List.length_cons, List.length_cons]; omega)
  refine ⟨hbehind.keeps (Nat.le_add_right ..) hrest, ?_, hbehind.puts, fun x hx => ?_⟩
  · exact fun h0 => h.nul (List.mem_cons_of_mem _ (List.mem_cons_of_mem _ h0))
  · exact (hstrs x (List.mem_append_right _ hx)).puts

theorem Matching.putConv (h : Matching s str args i a (37 :: f :: fmt) (.conv f :: ps))
    (junk : Bytes) :
    Returns (fun n => putConv n junk f (args i) (a + 1) s)
      (s.puts (convText str f (args i)), if takesArg f then 1 else 0) := by
  have hle : (convText str f (args i)).length ≤ (expand str args i (.conv f :: ps)).length := by
    rw [expand, List.length_append]
    exact Nat.le_add_right ..
  refine putConv_returns (args i) h.text.2.1 (fun hf => ?_) ?_
  · have hmem : args i ∈ stringArgs args i (.conv f :: ps) := by
      rw [stringArgs, if_pos hf]
      exact List.mem_cons_self ..
    obtain ⟨hat, h0, hfree⟩ := h.strs (args i) hmem
    exact ⟨hat, h0, hfree.mono hle (Nat.le_refl _) (Nat.le_refl _)⟩
  · exact h.clear.mono hle (by omega) (by rw [List.length_cons, List.length_cons]; omega)

/-- `fmt` from `a` on is expanded, and read up to its NUL. -/
def Expands (str : BitVec 64 → List UInt8) (args : Nat → BitVec 64) (junk : Bytes) (i a : Nat)
    (fmt : List UInt8) (ps : List Piece) (s : Sink) (reads : List Nat) : Prop :=
  ∃ more, (∀ r ∈ more, a ≤ r ∧ r ≤ a + fmt.length) ∧
    ∃ N, ∀ n k, N ≤ n → fmt.length < k →
      vprintf n junk args k a i s reads = some (s.puts (expand str args i ps), reads ++ more)

theorem expands_nil (h : Matching s str args i a [] []) :
    Expands str args junk i a [] [] s reads := by
  refine ⟨[a], fun r hr => ?_, 0, fun n k _ hk => ?_⟩
  · rw [List.mem_singleton.mp hr]
    exact ⟨Nat.le_refl _, Nat.le_add_right ..⟩
  · obtain ⟨k, rfl⟩ := exists_succ hk
    have hnul : s.m a = 0 := h.text.1
    rw [vprintf, if_pos hnul]
    rfl

theorem expands_lit (h : Matching s str args i a (c :: fmt) (.lit c :: ps)) (hc : c ≠ 37)
    (hrest : ∀ reads, Expands str args junk i (a + 1) fmt ps (s.puts [c]) reads) :
    Expands str args junk i a (c :: fmt) (.lit c :: ps) s reads := by
  obtain ⟨more, hmore, N, hrun⟩ := hrest (reads ++ [a])
  refine ⟨a :: more, fun r hr => ?_, N, fun n k hn hk => ?_⟩
  · rw [List.length_cons]
    rcases List.mem_cons.mp hr with rfl | hr
    · omega
    · have hle := hmore r hr
      omega
  · rw [List.length_cons] at hk
    obtain ⟨k, rfl⟩ := exists_succ hk
    have hat : s.m a = c := h.text.1
    have hc0 : c ≠ 0 := fun h0 => h.nul (h0 ▸ List.mem_cons_self ..)
    have hnext := hrun n k hn (by omega)
    rw [vprintf, hat, if_neg hc0, if_neg hc]
    refine hnext.trans ?_
    rw [expand, List.append_assoc]
    rfl

theorem expands_conv (h : Matching s str args i a (37 :: f :: fmt) (.conv f :: ps))
    (hrest : ∀ reads, Expands str args junk (nextArg f i) (a + 2) fmt ps
      (s.puts (convText str f (args i))) reads) :
    Expands str args junk i a (37 :: f :: fmt) (.conv f :: ps) s reads := by
  obtain ⟨more, hmore, N, hrun⟩ := hrest (reads ++ [a, a + 1])
  obtain ⟨N', hconv⟩ := h.putConv junk
  refine ⟨a :: (a + 1) :: more, fun r hr => ?_, max N N', fun n k hn hk => ?_⟩
  · rw [List.length_cons, List.length_cons]
    rcases List.mem_cons.mp hr with rfl | hr
    · omega
    · rcases List.mem_cons.mp hr with rfl | hr
      · omega
      · have hle := hmore r hr
        omega
  · rw [List.length_cons, List.length_cons] at hk
    obtain ⟨k, rfl⟩ := exists_succ hk
    have hat : s.m a = 37 := h.text.1
    have hf : s.m (a + 1) = f := h.text.2.1
    have hused : i + (if takesArg f then 1 else 0) = nextArg f i := by
      rw [nextArg]
      split <;> rfl
    have hnext := hrun n k (by omega) (by omega)
    have hput : putConv n junk f (args i) (a + 1) s = _ := hconv n (by omega)
    rw [vprintf, hat, if_neg (by decide), if_pos rfl, hf, hput]
    dsimp only
    rw [hused, hnext, expand, puts_append, List.append_assoc]
    rfl

theorem vprintf_run (hps : pieces fmt = some ps) (h : Matching s str args i a fmt ps)
    (junk : Bytes) (reads : List Nat) :
    Expands str args junk i a fmt ps s reads := by
  induction fmt using pieces.induct generalizing i a s ps reads with
  | case1 =>
    cases hps
    exact expands_nil h
  | case2 =>
    rw [pieces, if_pos rfl] at hps
    cases hps
  | case3 c hc =>
    rw [pieces, if_neg hc] at hps
    cases hps
    exact expands_lit h hc fun reads => expands_nil h.lit
  | case4 f fmt ih =>
    rw [pieces, if_pos rfl] at hps
    obtain ⟨ps, hrest, rfl⟩ := Option.map_eq_some_iff.mp hps
    exact expands_conv h fun reads => ih hrest h.conv reads
  | case5 c f fmt hc ih =>
    rw [pieces, if_neg hc] at hps
    obtain ⟨ps, hrest, rfl⟩ := Option.map_eq_some_iff.mp hps
    exact expands_lit h hc fun reads => ih hrest h.lit reads

/-- A format that does not end with a lone `%` is expanded, and read up to its NUL. -/
theorem vprintf_expands (hps : pieces fmt = some ps) (h : Matching s str args 0 a fmt ps) :
    (∃ reads, Returns (fun n => vprintf n junk args n a 0 s [])
      (s.puts (expand str args 0 ps), reads) ∧ ∀ r ∈ reads, a ≤ r ∧ r ≤ a + fmt.length) ∧
    ∀ buf m, s = ⟨some buf, m, []⟩ → ∃ reads,
      Returns (fun n => sprintf n junk buf a args m)
        (putBytes m buf (expand str args 0 ps ++ [0]), reads) ∧
      ∀ r ∈ reads, a ≤ r ∧ r ≤ a + fmt.length := by
  obtain ⟨reads, hreads, N, hrun⟩ := vprintf_run hps h junk []
  have hreturns : ∀ n, N + fmt.length + 1 ≤ n → vprintf n junk args n a 0 s [] =
      some (s.puts (expand str args 0 ps), reads) := fun n hn => hrun n n (by omega) (by omega)
  refine ⟨⟨reads, ⟨_, hreturns⟩, hreads⟩, ?_⟩
  rintro buf m rfl
  refine ⟨reads, ⟨N + fmt.length + 1, fun n hn => ?_⟩, hreads⟩
  obtain ⟨hout, hm⟩ := puts_out (s := ⟨some buf, m, []⟩) (w := expand str args 0 ps) rfl
  change sprintf n junk buf a args m = _
  rw [sprintf, hreturns n hn]
  dsimp only
  rw [hout, hm, putBytes_append]
  rfl

/-- `a%s`, with `hi` as the argument -/
def hiMem : Bytes := putBytes (putBytes (fun _ => 0) 0 [97, 37, 115, 0]) 50 [104, 105, 0]

theorem hi_matching : Matching ⟨some 100, hiMem, []⟩ (fun _ => [104, 105]) (fun _ => 50) 0 0
    [97, 37, 115] [.lit 97, .conv 115] where
  text := ⟨by decide, by decide, by decide, by decide, trivial⟩
  nul := by decide
  clear p hp := by
    cases hp
    decide
  strs x hx := by
    obtain rfl : x = 50 := by simpa [stringArgs] using hx
    refine ⟨⟨by decide, by decide, by decide, trivial⟩, by decide, fun p hp => ?_⟩
    cases hp
    decide

theorem vprintf_expands_hi :
    ∃ reads, Returns (fun n => sprintf n (fun _ => 0) 100 0 (fun _ => 50) hiMem)
      (putBytes hiMem 100 [97, 104, 105, 0], reads) ∧ ∀ r ∈ reads, 0 ≤ r ∧ r ≤ 0 + 3 :=
  (vprintf_expands rfl hi_matching).2 100 hiMem rfl

/-- The NUL behind a lone `%` is taken for a conversion, and the format is read on behind it; and
`%X` is a conversion. -/
theorem percent_is_last :
    (sprintf 20 (fun _ => 0) 16 0 (fun _ => 255) (putBytes (fun _ => 0) 0 [37, 0, 65, 0])).map
        (fun r => (r.1 16, r.1 17, r.1 18, r.2)) = some (37, 0, 65, [0, 1, 2, 3]) ∧
      (sprintf 20 (fun _ => 0) 16 0 (fun _ => 255) (putBytes (fun _ => 0) 0 [37, 88, 0])).map
        (fun r => readStr r.1 4 16) = some (some [102, 102]) := by
  decide

end EponaOS.User
