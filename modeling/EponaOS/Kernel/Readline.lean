import EponaOS.Drivers.Console
import EponaOS.Drivers.Keyboard
import EponaOS.Kernel.Term

/-!
# The line editor of the shell

`shell.c`: `readline` changes the line at each key and shows it again with `shell_redraw_line`.
The lines that were dispatched are in a ring of 8 slots, which the arrow keys walk. A string is
the list of its bytes in front of the end.
-/

namespace EponaOS.Kernel

open Drivers
open Function (update)

def HIST_MAX : Nat := 8
def SHELL_LINE_MAX : Nat := 256

-- ---------------------------------------------------------------------------
-- The history
-- ---------------------------------------------------------------------------

/-- `g_history`, `g_hist_count` and `g_hist_idx`; the array is read and written at any `int`. -/
structure History where
  lines : Int → List UInt8
  count : Int
  idx : Int

def History.boot : History := ⟨fun _ => [], 0, 0⟩

def historyAdd (h : History) (line : List UInt8) : History :=
  if line = [] then h
  else if h.count > 0 ∧ h.lines ((h.count - 1).tmod HIST_MAX) = line then h
  else
    let count := wrapInt (h.count + 1)
    { lines := update h.lines (h.count.tmod HIST_MAX) (line.take (SHELL_LINE_MAX - 1))
      count
      idx := count }

def historyGet (h : History) (idx : Int) : List UInt8 :=
  if idx < 0 ∨ idx ≥ h.count then [] else h.lines (idx.tmod HIST_MAX)

-- ---------------------------------------------------------------------------
-- The line
-- ---------------------------------------------------------------------------

/-- What `readline` works on: `buf` up to `pos`, which is its length, and `cpos`. -/
structure Shell where
  hist : History
  buf : List UInt8
  cpos : Nat
  con : Console

/-- `ch` is put in at `cpos`. -/
def shellInsertChar (s : Shell) (ch : UInt8) : Shell :=
  if s.buf.length ≥ SHELL_LINE_MAX - 1 then s
  else { s with buf := s.buf.take s.cpos ++ ch :: s.buf.drop s.cpos, cpos := s.cpos + 1 }

/-- The character in front of `cpos` is taken out. -/
def shellBackspaceChar (s : Shell) : Shell :=
  if s.cpos = 0 then s
  else { s with buf := s.buf.take (s.cpos - 1) ++ s.buf.drop s.cpos, cpos := s.cpos - 1 }

/-- The character at `cpos` is taken out. -/
def shellDeleteChar (s : Shell) : Shell :=
  if s.cpos ≥ s.buf.length then s
  else { s with buf := s.buf.take s.cpos ++ s.buf.drop (s.cpos + 1) }

-- ---------------------------------------------------------------------------
-- The screen
-- ---------------------------------------------------------------------------

/-- `epona@epona:~$ ` -/
def promptUser : List UInt8 :=
  [0x65, 0x70, 0x6F, 0x6E, 0x61, 0x40, 0x65, 0x70, 0x6F, 0x6E, 0x61]

def shellPrintPrompt (con : Console) : Console :=
  let con := gpuPrint (gpuSetColor con 0x0A 0x00) promptUser
  let con := gpuPrint (gpuSetColor con 0x0F 0x00) [0x3A]
  let con := gpuPrint (gpuSetColor con 0x0B 0x00) [0x7E]
  gpuPrint (gpuSetColor con 0x0F 0x00) [0x24, 0x20]

def shellRedrawLine (con : Console) (buf : List UInt8) (cpos : Nat) : Console :=
  let plen := buf.length
  let pcols := 15
  let cols : Int := gpuConsoleCols con - 1
  let con := shellPrintPrompt (gpuPrint con [0x0D])
  let con := buf.foldl gpuPutc con
  let con := (List.replicate (cols - (pcols + plen)).toNat 0x20).foldl gpuPutc con
  let con := shellPrintPrompt (gpuPrint con [0x0D])
  (buf.take cpos).foldl gpuPutc con

-- ---------------------------------------------------------------------------
-- The keys
-- ---------------------------------------------------------------------------

def Shell.recall (s : Shell) (idx : Int) : Shell :=
  let h := historyGet s.hist idx
  let hl := if h.length ≥ SHELL_LINE_MAX then SHELL_LINE_MAX - 1 else h.length
  { s with hist := { s.hist with idx }, buf := h.take hl, cpos := hl }

/-- What `readline` does at a key before it calls `shell_redraw_line`; `none` where it does not call
it. A newline, at which it returns, is none of these keys. -/
def readlineEdit (s : Shell) (c : Nat) : Option Shell :=
  if c = 0x08 then if s.cpos > 0 then some (shellBackspaceChar s) else none
  else if c = KEY_DEL then some (shellDeleteChar s)
  else if c = 0x09 then none
  else if c = 3 then
    some { s with con := gpuPrint s.con [0x5E, 0x43, 0x0A], buf := [], cpos := 0 }
  else if c = KEY_LEFT then if s.cpos > 0 then some { s with cpos := s.cpos - 1 } else none
  else if c = KEY_RIGHT then
    if s.cpos < s.buf.length then some { s with cpos := s.cpos + 1 } else none
  else if c = KEY_HOME then some { s with cpos := 0 }
  else if c = KEY_END then some { s with cpos := s.buf.length }
  else if c = KEY_UP then if s.hist.idx > 0 then some (s.recall (s.hist.idx - 1)) else none
  else if c = KEY_DOWN then
    if s.hist.idx < s.hist.count then some (s.recall (s.hist.idx + 1)) else none
  else if c ≥ 32 ∧ c < 127 ∧ s.buf.length < SHELL_LINE_MAX - 1 then
    some (shellInsertChar s (UInt8.ofNat c))
  else none

def readlineKey (s : Shell) (c : Nat) : Shell :=
  match readlineEdit s c with
  | some s' => { s' with con := shellRedrawLine s'.con s'.buf s'.cpos }
  | none => s

/-- `readline` returns the line, and `shell_run` dispatches it unless it is empty. -/
def readlineEnter (s : Shell) : Shell :=
  let s := { s with con := gpuPutc s.con 0x0A }
  if s.buf = [] then s else { s with hist := historyAdd s.hist s.buf }

/-- `shell_run` prints the prompt and calls `readline` again. -/
def readlineStart (s : Shell) : Shell :=
  { s with con := shellPrintPrompt s.con, buf := [], cpos := 0 }

-- ---------------------------------------------------------------------------
-- What a key can do
-- ---------------------------------------------------------------------------

/-- `gpu_putc` prints it. -/
def IsPrintable (b : UInt8) : Prop := 0x20 ≤ b ∧ b < 0x7F

instance (b : UInt8) : Decidable (IsPrintable b) := inferInstanceAs (Decidable (_ ∧ _))

structure Shell.InBuffer (s : Shell) : Prop where
  short : s.buf.length < SHELL_LINE_MAX
  cpos : s.cpos ≤ s.buf.length

structure Edited (s s' : Shell) : Prop where
  hist : s'.hist = s.hist
  con : s'.con = s.con
  inBuffer : s.InBuffer → s'.InBuffer
  bytes : ∀ b ∈ s'.buf, b ∈ s.buf ∨ IsPrintable b

variable {s s' : Shell} {c : Nat}

theorem Edited.cursor (hcpos : s.InBuffer → cpos ≤ s.buf.length) : Edited s { s with cpos } :=
  ⟨rfl, rfl, fun h => ⟨h.short, hcpos h⟩, fun _ hb => .inl hb⟩

theorem Edited.insert (hch : IsPrintable ch) (hroom : s.buf.length < SHELL_LINE_MAX - 1) :
    Edited s (shellInsertChar s ch) := by
  rw [shellInsertChar, if_neg (by omega)]
  refine ⟨rfl, rfl, fun h => ⟨?_, ?_⟩, fun b hb => ?_⟩
  · have := h.cpos
    simp only [List.length_append, List.length_take, List.length_cons, List.length_drop]
    omega
  · have := h.cpos
    simp only [List.length_append, List.length_take, List.length_cons, List.length_drop]
    omega
  · simp only [List.mem_append, List.mem_cons] at hb
    obtain hb | rfl | hb := hb
    · exact .inl (List.mem_of_mem_take hb)
    · exact .inr hch
    · exact .inl (List.mem_of_mem_drop hb)

theorem Edited.backspace (hpos : s.cpos > 0) : Edited s (shellBackspaceChar s) := by
  rw [shellBackspaceChar, if_neg (by omega)]
  refine ⟨rfl, rfl, fun h => ⟨?_, ?_⟩, fun b hb => ?_⟩
  · have hshort := h.short
    have := h.cpos
    simp only [List.length_append, List.length_take, List.length_drop]
    omega
  · have := h.cpos
    simp only [List.length_append, List.length_take, List.length_drop]
    omega
  · obtain hb | hb := List.mem_append.mp hb
    · exact .inl (List.mem_of_mem_take hb)
    · exact .inl (List.mem_of_mem_drop hb)

theorem Edited.delete (s : Shell) : Edited s (shellDeleteChar s) := by
  rw [shellDeleteChar]
  split
  · exact ⟨rfl, rfl, fun h => h, fun b hb => .inl hb⟩
  · next hin =>
    refine ⟨rfl, rfl, fun h => ⟨?_, ?_⟩, fun b hb => ?_⟩
    · have := h.short
      simp only [List.length_append, List.length_take, List.length_drop]
      omega
    · simp only [List.length_append, List.length_take, List.length_drop]
      omega
    · obtain hb | hb := List.mem_append.mp hb
      · exact .inl (List.mem_of_mem_take hb)
      · exact .inl (List.mem_of_mem_drop hb)

/-- What `readline` can do before it shows the line again. -/
theorem readlineEdit_cases (h : readlineEdit s c = some s') :
    (c = KEY_UP ∧ 0 < s.hist.idx ∧ s' = s.recall (s.hist.idx - 1)) ∨
    (c = KEY_DOWN ∧ s.hist.idx < s.hist.count ∧ s' = s.recall (s.hist.idx + 1)) ∨
    (c = 3 ∧ s' = { s with con := gpuPrint s.con [0x5E, 0x43, 0x0A], buf := [], cpos := 0 }) ∨
    (c ≠ KEY_UP ∧ c ≠ KEY_DOWN ∧ c ≠ 3 ∧ Edited s s') := by
  rw [readlineEdit] at h
  by_cases hback : c = 0x08
  · subst hback
    obtain ⟨hpos, rfl⟩ : s.cpos > 0 ∧ shellBackspaceChar s = s' := by simpa using h
    exact .inr (.inr (.inr ⟨by decide, by decide, by decide, .backspace hpos⟩))
  rw [if_neg hback] at h
  by_cases hdel : c = KEY_DEL
  · subst hdel
    obtain rfl : shellDeleteChar s = s' := by simpa using h
    exact .inr (.inr (.inr ⟨by decide, by decide, by decide, .delete s⟩))
  rw [if_neg hdel] at h
  by_cases htab : c = 0x09
  · rw [if_pos htab] at h
    cases h
  rw [if_neg htab] at h
  by_cases hctrl : c = 3
  · rw [if_pos hctrl] at h
    exact .inr (.inr (.inl ⟨hctrl, (Option.some.inj h).symm⟩))
  rw [if_neg hctrl] at h
  by_cases hleft : c = KEY_LEFT
  · subst hleft
    obtain ⟨hpos, rfl⟩ : s.cpos > 0 ∧ { s with cpos := s.cpos - 1 } = s' := by simpa using h
    exact .inr (.inr (.inr ⟨by decide, by decide, by decide,
      .cursor fun h => Nat.le_trans (Nat.sub_le ..) h.cpos⟩))
  rw [if_neg hleft] at h
  by_cases hright : c = KEY_RIGHT
  · subst hright
    obtain ⟨hpos, rfl⟩ : s.cpos < s.buf.length ∧ { s with cpos := s.cpos + 1 } = s' := by
      simpa using h
    exact .inr (.inr (.inr ⟨by decide, by decide, by decide, .cursor fun _ => hpos⟩))
  rw [if_neg hright] at h
  by_cases hhome : c = KEY_HOME
  · subst hhome
    obtain rfl : { s with cpos := 0 } = s' := by simpa using h
    exact .inr (.inr (.inr ⟨by decide, by decide, by decide, .cursor fun _ => Nat.zero_le _⟩))
  rw [if_neg hhome] at h
  by_cases hend : c = KEY_END
  · subst hend
    obtain rfl : { s with cpos := s.buf.length } = s' := by simpa using h
    exact .inr (.inr (.inr ⟨by decide, by decide, by decide, .cursor fun _ => Nat.le_refl _⟩))
  rw [if_neg hend] at h
  by_cases hup : c = KEY_UP
  · rw [if_pos hup] at h
    obtain ⟨hidx, rfl⟩ : 0 < s.hist.idx ∧ s.recall (s.hist.idx - 1) = s' := by simpa using h
    exact .inl ⟨hup, hidx, rfl⟩
  rw [if_neg hup] at h
  by_cases hdown : c = KEY_DOWN
  · rw [if_pos hdown] at h
    obtain ⟨hidx, rfl⟩ : s.hist.idx < s.hist.count ∧ s.recall (s.hist.idx + 1) = s' := by
      simpa using h
    exact .inr (.inl ⟨hdown, hidx, rfl⟩)
  rw [if_neg hdown] at h
  split at h
  · next hprint =>
    obtain ⟨hlo, hhi, hroom⟩ := hprint
    cases h
    refine .inr (.inr (.inr ⟨hup, hdown, hctrl, .insert ⟨?_, ?_⟩ hroom⟩))
    · rw [UInt8.le_iff_toNat_le, UInt8.toNat_ofNat_of_lt' (Nat.lt_trans hhi (by decide))]
      exact hlo
    · rw [UInt8.lt_iff_toNat_lt, UInt8.toNat_ofNat_of_lt' (Nat.lt_trans hhi (by decide))]
      exact hhi
  · cases h

theorem Shell.recall_inBuffer (s : Shell) (idx : Int) : (s.recall idx).InBuffer := by
  have hmin : (if (historyGet s.hist idx).length ≥ SHELL_LINE_MAX then SHELL_LINE_MAX - 1
      else (historyGet s.hist idx).length) =
      min (historyGet s.hist idx).length (SHELL_LINE_MAX - 1) := by
    split <;> omega
  rw [Shell.recall, hmin]
  constructor
  · simp only [List.length_take, SHELL_LINE_MAX]
    omega
  · simp only [List.length_take]
    omega

theorem readlineKey_inBuffer (hin : s.InBuffer) (c : Nat) : (readlineKey s c).InBuffer := by
  rw [readlineKey]
  split
  · next s' hedit =>
    have hs' : s'.InBuffer := by
      obtain ⟨-, -, rfl⟩ | ⟨-, -, rfl⟩ | ⟨-, rfl⟩ | ⟨-, -, -, hedited⟩ := readlineEdit_cases hedit
      · exact s.recall_inBuffer _
      · exact s.recall_inBuffer _
      · exact ⟨Nat.zero_lt_of_lt hin.short, Nat.le_refl _⟩
      · exact hedited.inBuffer hin
    exact ⟨hs'.short, hs'.cpos⟩
  · exact hin

end EponaOS.Kernel
