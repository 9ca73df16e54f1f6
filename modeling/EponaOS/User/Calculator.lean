import EponaOS.Kernel.WindowContents
import EponaOS.User.Numbers
import Mathlib.Data.List.TakeWhile

/-!
# The calculator

`calculator.c`: a line is a number, an operator and a number. `parse_number` reads a sign in front
of the first number, but `main` goes on behind its digits only where there is none: the sign is then
taken for the operator, and the number for the second one.
-/

namespace EponaOS.User.Calculator

open Bytes
open Kernel (asciiBytes)

def LINE_MAX : Nat := 256

-- ---------------------------------------------------------------------------
-- A line
-- ---------------------------------------------------------------------------

def IsDigit (c : UInt8) : Bool := c ≥ 0x30 ∧ c ≤ 0x39

def IsSpace (c : UInt8) : Bool := c == 0x20

/-- `val` behind the digits -/
def digitsInt (w : List UInt8) : BitVec 32 :=
  w.foldl (fun val c => val * 10 + BitVec.ofNat 32 (c.toNat - 0x30)) 0

def parseNumber (s : List UInt8) : Option (BitVec 32) :=
  let s := s.dropWhile IsSpace
  let neg := s.head? = some 0x2D
  let s := if s.head? = some 0x2D ∨ s.head? = some 0x2B then s.drop 1 else s
  let digits := s.takeWhile IsDigit
  if digits = [] then none else some (if neg then -digitsInt digits else digitsInt digits)

inductive Reply
  | text (s : List UInt8)
  | quit
  /-- the processor cannot divide -/
  | fault
  deriving DecidableEq

/-- What `itoa` writes to `buf`, and a new line -/
def intLine (result : BitVec 32) : List UInt8 :=
  ((itoa 32 result 0 fun _ => 0).bind fun m => readStr m 32 0).getD [] ++ [0x0A]

def divide (f : BitVec 32 → BitVec 32 → BitVec 32) (a b : BitVec 32) : Reply :=
  if b = 0 then .text (asciiBytes "Error: division by zero\n")
  else if a = BitVec.intMin 32 ∧ b = -1 then .fault
  else .text (intLine (f a b))

/-- The `switch` of `main` -/
def calculate (a : BitVec 32) (op : UInt8) (b : BitVec 32) : Reply :=
  if op = 0x2B then .text (intLine (a + b))
  else if op = 0x2D then .text (intLine (a - b))
  else if op = 0x2A then .text (intLine (a * b))
  else if op = 0x2F then divide BitVec.sdiv a b
  else if op = 0x25 then divide BitVec.srem a b
  else .text (asciiBytes "Error: unknown operator '" ++ [op] ++ asciiBytes "'\n")

/-- The loop of `main` with a line that is not empty -/
def evalLine (line : List UInt8) : Reply :=
  let p := line.dropWhile IsSpace
  if (asciiBytes "quit").isPrefixOf p ∨ (asciiBytes "exit").isPrefixOf p then .quit
  else
    match parseNumber p with
    | none => .text (asciiBytes "Error: invalid first number\n")
    | some a =>
      match (p.dropWhile IsDigit).dropWhile IsSpace with
      | [] => .text (asciiBytes "Error: expected operator (+, -, *, /, %%)\n")
      | op :: p =>
        match parseNumber p with
        | none => .text (asciiBytes "Error: invalid second number\n")
        | some b => calculate a op b

-- ---------------------------------------------------------------------------
-- The session
-- ---------------------------------------------------------------------------

inductive Status
  | running
  | left
  | faulted
  deriving DecidableEq

structure Calc where
  line : List UInt8
  out : List UInt8
  status : Status

def banner : List UInt8 :=
  asciiBytes "EponaOS Calculator v1.0\nEnter expressions like: 2 + 3\n" ++
    asciiBytes "Operations: +, -, *, /, %%, quit\n\n"

def prompt : List UInt8 := asciiBytes "calc> "

def goodbye : List UInt8 := asciiBytes "Goodbye!\n"

def Calc.puts (s : Calc) (text : List UInt8) : Calc := { s with out := s.out ++ text }

/-- The next round of the loop of `main` -/
def Calc.again (s : Calc) : Calc := { s.puts prompt with line := [] }

def Calc.leave (s : Calc) : Calc := { s.puts goodbye with status := .left }

/-- `readline` has returned; a line ends at its first NUL. -/
def Calc.enter (s : Calc) : Calc :=
  let line := s.line.takeWhile (· != 0)
  if line = [] then s.again
  else
    match evalLine line with
    | .text t => (s.puts t).again
    | .quit => s.leave
    | .fault => { s with status := .faulted }

/-- A byte that `sys_read` gives -/
def calcKey (s : Calc) (c : UInt8) : Calc :=
  if s.status ≠ .running then s
  else if c = 0x0A then (s.puts [0x0A]).enter
  else if c = 0x08 ∨ c = 0x7F then
    if s.line = [] then s else { s.puts [0x08] with line := s.line.dropLast }
  else if c = 0x03 ∨ c = 0x04 then (s.puts [0x0A]).leave
  else if s.line.length < LINE_MAX - 1 then { s.puts [c] with line := s.line ++ [c] }
  else s

def calcRun (input : List UInt8) : Calc := input.foldl calcKey ⟨[], banner ++ prompt, .running⟩

-- ---------------------------------------------------------------------------
-- Expressions
-- ---------------------------------------------------------------------------

inductive Sign
  | plus
  | minus

def Sign.char : Sign → UInt8
  | .plus => 0x2B
  | .minus => 0x2D

structure Numeral where
  sign : Option Sign
  digits : List Nat
  ne : digits ≠ []
  lt : ∀ d ∈ digits, d < 10
  fits : digits.foldl (fun v d => v * 10 + d) 0 < 2 ^ 31

def Numeral.magnitude (n : Numeral) : Nat := n.digits.foldl (fun v d => v * 10 + d) 0

def Numeral.value (n : Numeral) : Int :=
  match n.sign with
  | some .minus => -n.magnitude
  | _ => n.magnitude

def Numeral.signText (n : Numeral) : List UInt8 := (n.sign.map Sign.char).toList

def Numeral.text (n : Numeral) : List UInt8 := n.signText ++ n.digits.map decChar

inductive Op
  | add
  | sub
  | mul
  | div
  | rem

def Op.char : Op → UInt8
  | .add => 0x2B
  | .sub => 0x2D
  | .mul => 0x2A
  | .div => 0x2F
  | .rem => 0x25

def Op.eval : Op → Int → Int → Option Int
  | .add, a, b => some (a + b)
  | .sub, a, b => some (a - b)
  | .mul, a, b => some (a * b)
  | .div, a, b => if b = 0 then none else some (a.tdiv b)
  | .rem, a, b => if b = 0 then none else some (a.tmod b)

structure Expression where
  first : Numeral
  op : Op
  second : Numeral
  indent : Nat
  beforeOp : Nat
  afterOp : Nat

def spaces (k : Nat) : List UInt8 := List.replicate k 0x20

def Expression.text (e : Expression) : List UInt8 :=
  spaces e.indent ++ (e.first.text ++ (spaces e.beforeOp ++
    e.op.char :: (spaces e.afterOp ++ e.second.text)))

/-- What is printed for an integer: the `int` that it is stored in -/
def resultLine (z : Int) : List UInt8 := intText (BitVec.ofInt 32 z) ++ [0x0A]

def Expression.answer (e : Expression) : List UInt8 :=
  if e.first.sign.isSome then resultLine (2 * e.first.value)
  else (e.op.eval e.first.value e.second.value).elim (asciiBytes "Error: division by zero\n")
    resultLine

-- ---------------------------------------------------------------------------
-- Numbers
-- ---------------------------------------------------------------------------

variable {n : Numeral} {rest w : List UInt8} {ds : List Nat} {a b : Int}

theorem intLine_eq (v : BitVec 32) : intLine v = intText v ++ [0x0A] := by
  have hlen := intText_length v
  have hclean : 0 ∉ intText v := by
    rw [intText, List.mem_append, not_or]
    refine ⟨?_, sym_ne isBase_dec _⟩
    split <;> simp
  have hread : readStr (putBytes (fun _ => 0) 0 (intText v ++ [0])) 32 0 =
      some (intText v) := readStr_eq (putBytes_nul _ _ _) hclean (by omega)
  rw [intLine, itoa_eq v (by omega), Option.bind_some, hread]
  rfl

theorem decChar_facts : ∀ d < 10, IsDigit (decChar d) = true ∧ decChar d ≠ 0x20 ∧
    decChar d ≠ 0x2D ∧ decChar d ≠ 0x2B ∧ decChar d ≠ 0x71 ∧ decChar d ≠ 0x65 ∧
    (decChar d).toNat - 0x30 = d := by decide

theorem digits_cut (hds : ∀ d ∈ ds, d < 10) (hrest : rest.head?.any IsDigit = false) :
    (ds.map decChar ++ rest).takeWhile IsDigit = ds.map decChar ∧
      (ds.map decChar ++ rest).dropWhile IsDigit = rest := by
  have hall : ∀ c ∈ ds.map decChar, IsDigit c = true := by
    rw [List.forall_mem_map]
    exact fun d hd => (decChar_facts d (hds d hd)).1
  rw [List.takeWhile_append_of_pos hall, List.dropWhile_append_of_pos hall]
  cases rest with
  | nil => exact ⟨List.append_nil _, rfl⟩
  | cons c rest =>
    have hc : ¬ IsDigit c = true := by simpa using hrest
    rw [List.takeWhile_cons_of_neg hc, List.dropWhile_cons_of_neg hc]
    exact ⟨List.append_nil _, rfl⟩

theorem spaces_cut (k : Nat) (hw : w.head? ≠ some 0x20) :
    (spaces k ++ w).dropWhile IsSpace = w := by
  have hall : ∀ c ∈ spaces k, IsSpace c = true := fun c hc =>
    beq_iff_eq.mpr (List.eq_of_mem_replicate hc)
  rw [List.dropWhile_append_of_pos hall]
  cases w with
  | nil => rfl
  | cons c w =>
    refine List.dropWhile_cons_of_neg fun hc => hw ?_
    rw [List.head?_cons, beq_iff_eq.mp hc]

theorem digitsInt_eq (hds : ∀ d ∈ ds, d < 10) :
    digitsInt (ds.map decChar) = BitVec.ofNat 32 (ds.foldl (fun v d => v * 10 + d) 0) := by
  rw [← foldl_ofNat, digitsInt, List.foldl_map]
  refine List.foldl_ext _ _ _ fun v d hd => ?_
  rw [(decChar_facts d (hds d hd)).2.2.2.2.2.2]

theorem Numeral.parse_digits (n : Numeral) (k : Nat) (hrest : rest.head?.any IsDigit = false) :
    parseNumber (spaces k ++ (n.digits.map decChar ++ rest)) =
      some (BitVec.ofNat 32 n.magnitude) := by
  obtain ⟨d, ds, hds⟩ := List.exists_cons_of_ne_nil n.ne
  obtain ⟨-, hspace, hminus, hplus, -⟩ := decChar_facts d (n.lt d (hds ▸ List.mem_cons_self ..))
  have hhead : (n.digits.map decChar ++ rest).head? = some (decChar d) := by rw [hds]; rfl
  have hcut := spaces_cut k (w := n.digits.map decChar ++ rest)
    (hhead ▸ fun h => hspace (Option.some.inj h))
  have hdigits := (digits_cut n.lt hrest).1
  have hne : n.digits.map decChar ≠ [] := by simpa using n.ne
  rw [parseNumber]
  simp only [hcut, hhead, Option.some_inj, hminus, hplus, or_self, if_false, hdigits, hne]
  rw [digitsInt_eq n.lt]
  rfl

theorem Numeral.parse (n : Numeral) (k : Nat) (hrest : rest.head?.any IsDigit = false) :
    parseNumber (spaces k ++ (n.text ++ rest)) = some (BitVec.ofInt 32 n.value) := by
  have hne : n.digits.map decChar ≠ [] := by simpa using n.ne
  have hdigits := (digits_cut n.lt hrest).1
  rw [Numeral.text, Numeral.signText, Numeral.value]
  cases hsign : n.sign with
  | none =>
    refine (n.parse_digits k hrest).trans (congrArg some ?_)
    exact (BitVec.ofInt_natCast 32 n.magnitude).symm
  | some s =>
    have hread : ∀ c : UInt8, c ≠ 0x20 → (spaces k ++ ([c] ++ n.digits.map decChar ++ rest)).dropWhile
        IsSpace = c :: (n.digits.map decChar ++ rest) := fun c hc =>
      spaces_cut k fun h => hc (Option.some.inj h)
    cases s with
    | plus =>
      rw [parseNumber]
      simp only [Option.map_some, Option.toList_some, Sign.char, hread 0x2B (by decide),
        List.head?_cons, List.drop_succ_cons, List.drop_zero, or_true, if_true, hdigits, hne,
        if_false, digitsInt_eq n.lt]
      rw [if_neg (by decide)]
      exact congrArg some (BitVec.ofInt_natCast 32 n.magnitude).symm
    | minus =>
      rw [parseNumber]
      simp only [Option.map_some, Option.toList_some, Sign.char, hread 0x2D (by decide),
        List.head?_cons, List.drop_succ_cons, List.drop_zero, true_or, if_true, hdigits, hne,
        if_false, digitsInt_eq n.lt]
      rw [BitVec.ofInt_neg]
      exact congrArg (some <| - ·) (BitVec.ofInt_natCast 32 n.magnitude).symm

-- ---------------------------------------------------------------------------
-- Lines
-- ---------------------------------------------------------------------------

theorem Numeral.value_bounds (n : Numeral) : -2 ^ 31 < n.value ∧ n.value < 2 ^ 31 := by
  have hfits : n.magnitude < 2 ^ 31 := n.fits
  rw [Numeral.value]
  split <;> omega

theorem toInt_ofInt (ha : -2 ^ 31 < a ∧ a < 2 ^ 31) : (BitVec.ofInt 32 a).toInt = a := by
  rw [BitVec.toInt_ofInt]
  exact Int.bmod_eq_of_le (by omega) (by omega)

theorem ofInt_sub (a b : Int) :
    BitVec.ofInt 32 (a - b) = BitVec.ofInt 32 a - BitVec.ofInt 32 b := by
  rw [Int.sub_eq_add_neg, BitVec.ofInt_add, BitVec.ofInt_neg, BitVec.sub_eq_add_neg]

theorem divide_eq {f : BitVec 32 → BitVec 32 → BitVec 32} {g : Int → Int → Int}
    (hf : ∀ x y, f x y = BitVec.ofInt 32 (g x.toInt y.toInt))
    (ha : -2 ^ 31 < a ∧ a < 2 ^ 31) (hb : -2 ^ 31 < b ∧ b < 2 ^ 31) :
    divide f (BitVec.ofInt 32 a) (BitVec.ofInt 32 b) =
      .text ((if b = 0 then none else some (g a b)).elim (asciiBytes "Error: division by zero\n")
        resultLine) := by
  have hzero : BitVec.ofInt 32 b = 0 ↔ b = 0 := by
    refine ⟨fun h => ?_, fun h => by rw [h]; rfl⟩
    rw [← toInt_ofInt hb, h]
    rfl
  have hmin : BitVec.ofInt 32 a ≠ BitVec.intMin 32 := by
    intro h
    have hint := toInt_ofInt ha
    rw [h] at hint
    exact absurd (hint ▸ ha.1) (by decide)
  rw [divide]
  by_cases h0 : b = 0
  · rw [if_pos (hzero.mpr h0), if_pos h0]
    rfl
  · rw [if_neg (mt hzero.mp h0), if_neg fun h => hmin h.1, if_neg h0, intLine_eq, hf,
      toInt_ofInt ha, toInt_ofInt hb]
    rfl

theorem calculate_eq (op : Op) (ha : -2 ^ 31 < a ∧ a < 2 ^ 31) (hb : -2 ^ 31 < b ∧ b < 2 ^ 31) :
    calculate (BitVec.ofInt 32 a) op.char (BitVec.ofInt 32 b) =
      .text ((op.eval a b).elim (asciiBytes "Error: division by zero\n") resultLine) := by
  cases op with
  | add => exact congrArg Reply.text ((intLine_eq _).trans (by rw [← BitVec.ofInt_add]; rfl))
  | sub => exact congrArg Reply.text ((intLine_eq _).trans (by rw [← ofInt_sub]; rfl))
  | mul => exact congrArg Reply.text ((intLine_eq _).trans (by rw [← BitVec.ofInt_mul]; rfl))
  | div =>
    refine divide_eq (fun x y => BitVec.eq_of_toInt_eq ?_) ha hb
    rw [BitVec.toInt_sdiv, BitVec.toInt_ofInt]
  | rem =>
    refine divide_eq (fun x y => ?_) ha hb
    rw [← BitVec.toInt_srem, BitVec.ofInt_toInt]

theorem sign_facts : ∀ s : Sign, IsDigit s.char = false ∧ s.char ≠ 0x20 ∧ s.char ≠ 0x71 ∧
    s.char ≠ 0x65
  | .plus => by decide
  | .minus => by decide

theorem op_facts : ∀ op : Op, IsDigit op.char = false ∧ op.char ≠ 0x20
  | .add => by decide
  | .sub => by decide
  | .mul => by decide
  | .div => by decide
  | .rem => by decide

theorem Numeral.text_head (n : Numeral) :
    ∃ c w, n.text = c :: w ∧ c ≠ 0x20 ∧ c ≠ 0x71 ∧ c ≠ 0x65 := by
  rw [Numeral.text, Numeral.signText]
  cases n.sign with
  | none =>
    obtain ⟨d, ds, hds⟩ := List.exists_cons_of_ne_nil n.ne
    obtain ⟨-, hspace, -, -, hq, he, -⟩ := decChar_facts d (n.lt d (hds ▸ List.mem_cons_self ..))
    exact ⟨decChar d, ds.map decChar, by rw [hds]; rfl, hspace, hq, he⟩
  | some s => exact ⟨s.char, n.digits.map decChar, rfl, (sign_facts s).2⟩

def Expression.tail (e : Expression) : List UInt8 :=
  spaces e.beforeOp ++ e.op.char :: (spaces e.afterOp ++ e.second.text)

theorem Expression.tail_head (e : Expression) : e.tail.head?.any IsDigit = false := by
  rw [Expression.tail]
  cases e.beforeOp with
  | zero => exact (op_facts e.op).1
  | succ k => rfl

theorem Expression.tail_cut (e : Expression) :
    e.tail.dropWhile IsSpace = e.op.char :: (spaces e.afterOp ++ e.second.text) :=
  spaces_cut _ fun h => (op_facts e.op).2 (Option.some.inj h)

/-- The operator and the second number that `main` finds -/
theorem evalLine_text (e : Expression) : evalLine e.text = .text e.answer := by
  obtain ⟨c, w, htext, hspace, hq, he⟩ := e.first.text_head
  have hp : e.text.dropWhile IsSpace = e.first.text ++ e.tail := by
    refine spaces_cut _ ?_
    rw [htext]
    exact fun h => hspace (Option.some.inj h)
  have hquit : (asciiBytes "quit").isPrefixOf (e.first.text ++ e.tail) = false := by
    rw [show asciiBytes "quit" = [0x71, 0x75, 0x69, 0x74] by decide, htext]
    simp [List.isPrefixOf, Ne.symm hq]
  have hexit : (asciiBytes "exit").isPrefixOf (e.first.text ++ e.tail) = false := by
    rw [show asciiBytes "exit" = [0x65, 0x78, 0x69, 0x74] by decide, htext]
    simp [List.isPrefixOf, Ne.symm he]
  have hfirst := e.first.parse 0 e.tail_head
  have hbounds := e.first.value_bounds
  rw [show spaces 0 = [] from rfl, List.nil_append] at hfirst
  rw [evalLine]
  simp only [hp, hquit, hexit, Bool.false_eq_true, or_self, if_false, hfirst]
  rw [Expression.answer, Numeral.text, Numeral.signText]
  cases hsign : e.first.sign with
  | none =>
    have hnone : ([] : List UInt8).head?.any IsDigit = false := rfl
    have hsecond := e.second.parse e.afterOp hnone
    rw [List.append_nil] at hsecond
    simp only [Option.map_none, Option.toList_none, List.nil_append,
      (digits_cut e.first.lt e.tail_head).2, e.tail_cut, hsecond]
    exact calculate_eq e.op hbounds e.second.value_bounds
  | some s =>
    have hdigits := e.first.parse_digits 0 e.tail_head
    rw [show spaces 0 = [] from rfl, List.nil_append] at hdigits
    obtain ⟨hdigit, hspace, -⟩ := sign_facts s
    have hstay : ((s.char :: (e.first.digits.map decChar ++ e.tail)).dropWhile IsDigit).dropWhile
        IsSpace = s.char :: (e.first.digits.map decChar ++ e.tail) := by
      rw [List.dropWhile_cons_of_neg (by rw [hdigit]; decide),
        List.dropWhile_cons_of_neg (p := IsSpace) fun h => hspace (beq_iff_eq.mp h)]
    simp only [Option.map_some, Option.toList_some, List.cons_append, List.nil_append, hstay,
      hdigits, Option.isSome_some, if_true]
    rw [resultLine, Numeral.value, hsign, ← BitVec.ofInt_natCast]
    cases s with
    | plus =>
      refine congrArg Reply.text ((intLine_eq _).trans ?_)
      rw [← BitVec.ofInt_add, Int.two_mul]
    | minus =>
      refine congrArg Reply.text ((intLine_eq _).trans ?_)
      rw [← ofInt_sub, Int.two_mul]
      rfl

-- ---------------------------------------------------------------------------
-- Sessions
-- ---------------------------------------------------------------------------

open Kernel (IsPrintable)

variable {s : Calc} {out : List UInt8} {es : List Expression}

theorem printable_plain {c : UInt8} (hc : IsPrintable c) :
    c ≠ 0x0A ∧ ¬ (c = 0x08 ∨ c = 0x7F) ∧ ¬ (c = 0x03 ∨ c = 0x04) ∧ c ≠ 0 := by
  obtain ⟨hlow, hhigh⟩ := hc
  refine ⟨?_, ?_, ?_, ?_⟩
  · rintro rfl; exact absurd hlow (by decide)
  · rintro (rfl | rfl)
    · exact absurd hlow (by decide)
    · exact absurd hhigh (by decide)
  · rintro (rfl | rfl) <;> exact absurd hlow (by decide)
  · rintro rfl; exact absurd hlow (by decide)

theorem type_text (hrun : s.status = .running) (hw : ∀ c ∈ w, IsPrintable c)
    (hshort : s.line.length + w.length < LINE_MAX) :
    w.foldl calcKey s = ⟨s.line ++ w, s.out ++ w, s.status⟩ := by
  induction w generalizing s with
  | nil => simp
  | cons c w ih =>
    rw [List.forall_mem_cons] at hw
    rw [List.length_cons] at hshort
    obtain ⟨hnl, hback, hcut, -⟩ := printable_plain hw.1
    have hkey : calcKey s c = ⟨s.line ++ [c], s.out ++ [c], s.status⟩ := by
      rw [calcKey, if_neg (not_not.mpr hrun), if_neg hnl, if_neg hback, if_neg hcut,
        if_pos (by omega)]
      rfl
    have hrest := ih (s := ⟨s.line ++ [c], s.out ++ [c], s.status⟩) hrun hw.2 (by simp; omega)
    rw [List.foldl_cons, hkey, hrest]
    simp

/-- A line is typed in a running session, and goes to `evalLine`. -/
theorem type_line (hw : ∀ c ∈ w, IsPrintable c) (hshort : w.length < LINE_MAX) (hne : w ≠ []) :
    (w ++ [0x0A]).foldl calcKey ⟨[], out, .running⟩ =
      match evalLine w with
      | .text t => ⟨[], out ++ (w ++ [0x0A] ++ t ++ prompt), .running⟩
      | .quit => ⟨w, out ++ (w ++ [0x0A] ++ goodbye), .left⟩
      | .fault => ⟨w, out ++ (w ++ [0x0A]), .faulted⟩ := by
  have hclean : w.takeWhile (· != 0) = w := List.takeWhile_eq_self_iff.mpr fun c hc =>
    bne_iff_ne.mpr (printable_plain (hw c hc)).2.2.2
  rw [List.foldl_append, type_text rfl hw (by simpa using hshort)]
  change Calc.enter _ = _
  simp only [Calc.enter, Calc.puts, List.nil_append, hclean, hne, if_false]
  cases evalLine w <;> simp [Calc.again, Calc.leave, Calc.puts]

theorem Expression.text_printable (e : Expression) : ∀ c ∈ e.text, IsPrintable c := by
  have hspaces : ∀ k, ∀ c ∈ spaces k, IsPrintable c := fun k c hc => by
    rw [List.eq_of_mem_replicate hc]
    decide
  have hdigit : ∀ d < 10, IsPrintable (decChar d) := by decide
  have hsign : ∀ s : Sign, IsPrintable s.char
    | .plus => by decide
    | .minus => by decide
  have hop : ∀ op : Op, IsPrintable op.char
    | .add => by decide
    | .sub => by decide
    | .mul => by decide
    | .div => by decide
    | .rem => by decide
  have hnumeral : ∀ n : Numeral, ∀ c ∈ n.text, IsPrintable c := by
    intro n c hc
    obtain hc | hc := List.mem_append.mp hc
    · obtain ⟨s, -, rfl⟩ := Option.map_eq_some_iff.mp (Option.mem_toList.mp hc)
      exact hsign s
    · obtain ⟨d, hd, rfl⟩ := List.mem_map.mp hc
      exact hdigit d (n.lt d hd)
  simp only [Expression.text, List.forall_mem_append, List.forall_mem_cons]
  exact ⟨hspaces _, hnumeral _, hspaces _, hop _, hspaces _, hnumeral _⟩

theorem Expression.text_ne (e : Expression) : e.text ≠ [] := by
  simp [Expression.text]

theorem type_expressions (hes : ∀ e ∈ es, e.text.length < LINE_MAX) :
    (es.flatMap fun e => e.text ++ [0x0A]).foldl calcKey ⟨[], out, .running⟩ =
      ⟨[], out ++ es.flatMap fun e => e.text ++ [0x0A] ++ e.answer ++ prompt, .running⟩ := by
  induction es generalizing out with
  | nil => simp
  | cons e es ih =>
    rw [List.forall_mem_cons] at hes
    rw [List.flatMap_cons, List.foldl_append, type_line e.text_printable hes.1 e.text_ne,
      evalLine_text, ih hes.2, List.flatMap_cons, List.append_assoc]

/-- Expressions that are typed one after the other are answered in order, and `quit` ends the
program. -/
theorem calculator_session (hes : ∀ e ∈ es, e.text.length < LINE_MAX) :
    (calcRun ((es.flatMap fun e => e.text ++ [0x0A]) ++ asciiBytes "quit\n")).status = .left ∧
      (calcRun ((es.flatMap fun e => e.text ++ [0x0A]) ++ asciiBytes "quit\n")).out =
        banner ++ prompt ++ (es.flatMap fun e => e.text ++ [0x0A] ++ e.answer ++ prompt) ++
          asciiBytes "quit\n" ++ goodbye := by
  have hprintable : (asciiBytes "quit").all (fun c => decide (IsPrintable c)) = true := by decide
  have hword : ∀ c ∈ asciiBytes "quit", IsPrintable c := fun c hc =>
    of_decide_eq_true (List.all_eq_true.mp hprintable c hc)
  have hquit : ∀ out, (asciiBytes "quit" ++ [0x0A]).foldl calcKey ⟨[], out, .running⟩ =
      ⟨asciiBytes "quit", out ++ (asciiBytes "quit" ++ [0x0A] ++ goodbye), .left⟩ := by
    intro out
    rw [type_line hword (by decide) (by decide)]
    rfl
  have htext : asciiBytes "quit\n" = asciiBytes "quit" ++ [0x0A] := by decide
  rw [calcRun, List.foldl_append, type_expressions hes, htext, hquit]
  simp

/-- `2 + 3` and `-2 + 3` -/
def twoLines : List Expression :=
  [⟨⟨none, [2], by decide, by decide, by decide⟩, .add,
      ⟨none, [3], by decide, by decide, by decide⟩, 0, 1, 1⟩,
    ⟨⟨some .minus, [2], by decide, by decide, by decide⟩, .add,
      ⟨none, [3], by decide, by decide, by decide⟩, 0, 1, 1⟩]

theorem calculator_session_two :
    (calcRun (asciiBytes "2 + 3\n-2 + 3\nquit\n")).out = banner ++ prompt ++
      asciiBytes "2 + 3\n5\ncalc> -2 + 3\n-4\ncalc> quit\nGoodbye!\n" := by
  have hes : ∀ e ∈ twoLines, e.text.length < LINE_MAX := by decide
  exact (calculator_session hes).2

end EponaOS.User.Calculator
