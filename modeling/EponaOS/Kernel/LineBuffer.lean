import EponaOS.Kernel.Desktop

/-!
# The line in its buffer

`shell_insert_char`, `shell_backspace_char` and `shell_delete_char` on the bytes of the buffer, and
the two front ends: `readline` of `shell.c` and `win_terminal_feed` of `gui.c`. The indices that are
written to are recorded. `Line` is what the buffer stands for.
-/

namespace EponaOS.Kernel

open Drivers
open Function (update)

structure LineBuf where
  buf : Int → UInt8
  pos : Int
  cpos : Int
  writes : List Int

namespace LineBuf

def store (s : LineBuf) (i : Int) (c : UInt8) : LineBuf :=
  { s with buf := update s.buf i c, writes := s.writes ++ [i] }

/-- `buf[i] = buf[i - 1]` for `n` indices from `i` down -/
def shiftUp : Nat → Int → LineBuf → LineBuf
  | 0, _, s => s
  | n + 1, i, s => shiftUp n (i - 1) (s.store i (s.buf (i - 1)))

/-- `buf[i] = buf[i + 1]` for `n` indices from `i` up -/
def shiftDown : Nat → Int → LineBuf → LineBuf
  | 0, _, s => s
  | n + 1, i, s => shiftDown n (i + 1) (s.store i (s.buf (i + 1)))

def shellInsertChar (s : LineBuf) (ch : UInt8) (max : Int) : LineBuf :=
  if s.pos ≥ max - 1 then s
  else
    let s := shiftUp (s.pos - s.cpos).toNat s.pos s
    let s := s.store s.cpos ch
    let s := { s with pos := s.pos + 1, cpos := s.cpos + 1 }
    s.store s.pos 0

def shellBackspaceChar (s : LineBuf) : LineBuf :=
  if s.cpos ≤ 0 then s
  else
    let s := shiftDown (s.pos - 1 - (s.cpos - 1)).toNat (s.cpos - 1) s
    let s := { s with pos := s.pos - 1, cpos := s.cpos - 1 }
    s.store s.pos 0

def shellDeleteChar (s : LineBuf) : LineBuf :=
  if s.cpos ≥ s.pos then s
  else
    let s := shiftDown (s.pos - 1 - s.cpos).toNat s.cpos s
    let s := { s with pos := s.pos - 1 }
    s.store s.pos 0

/-- `pos = 0; cpos = 0; buf[0] = 0` -/
def clear (s : LineBuf) : LineBuf := { s with pos := 0, cpos := 0 }.store 0 0

/-- `memcpy` of `h` to the buffer from index `i` on -/
def copy (s : LineBuf) (i : Int) : List UInt8 → LineBuf
  | [] => s
  | c :: h => (s.store i c).copy (i + 1) h

def loadLine (s : LineBuf) (h : List UInt8) (max : Int) : LineBuf :=
  let hl : Int := if (h.length : Int) ≥ max then max - 1 else h.length
  let s := s.copy 0 (h.take hl.toNat)
  { s.store hl 0 with pos := hl, cpos := hl }

end LineBuf

/-- `g_hist_idx` behind a key of `readline` -/
def readlineHist (hist : History) (c : Nat) : History :=
  if c = KEY_UP ∧ hist.idx > 0 then { hist with idx := hist.idx - 1 }
  else if c = KEY_DOWN ∧ hist.idx < hist.count then { hist with idx := hist.idx + 1 }
  else hist

/-- A key of `readline` that is no newline -/
def readlineBuf (max : Int) (hist : History) (s : LineBuf) (c : Nat) : LineBuf :=
  if c = 0x08 then if s.cpos > 0 then s.shellBackspaceChar else s
  else if c = KEY_DEL then s.shellDeleteChar
  else if c = 0x09 then s
  else if c = 3 then s.clear
  else if c = KEY_LEFT then if s.cpos > 0 then { s with cpos := s.cpos - 1 } else s
  else if c = KEY_RIGHT then if s.cpos < s.pos then { s with cpos := s.cpos + 1 } else s
  else if c = KEY_HOME then { s with cpos := 0 }
  else if c = KEY_END then { s with cpos := s.pos }
  else if c = KEY_UP then
    if hist.idx > 0 then s.loadLine (historyGet hist (hist.idx - 1)) max else s
  else if c = KEY_DOWN then
    if hist.idx < hist.count then s.loadLine (historyGet hist (hist.idx + 1)) max else s
  else if c ≥ 32 ∧ c < 127 ∧ s.pos < max - 1 then s.shellInsertChar (UInt8.ofNat c) max
  else s

/-- The loop of `readline` for the keys it gets; at a newline it returns. -/
def readlineRun (max : Int) : History → LineBuf → List Nat → LineBuf
  | _, s, [] => s
  | hist, s, c :: cs =>
    if c = 0x0A then s.store s.pos 0
    else readlineRun max (readlineHist hist c) (readlineBuf max hist s c) cs

/-- A key of `win_terminal_feed`; `left` is the buffer behind `shell_dispatch_line`. -/
def feedBuf (s : LineBuf) (c : Nat) (left : Int → UInt8) : LineBuf :=
  if c = 0x0A then { s with buf := left }.clear
  else if c = 0x08 then if s.cpos > 0 then s.shellBackspaceChar else s
  else if c = KEY_DEL then s.shellDeleteChar
  else if c = 0x09 then s
  else if c = KEY_LEFT then if s.cpos > 0 then { s with cpos := s.cpos - 1 } else s
  else if c = KEY_RIGHT then if s.cpos < s.pos then { s with cpos := s.cpos + 1 } else s
  else if c = KEY_HOME then { s with cpos := 0 }
  else if c = KEY_END then { s with cpos := s.pos }
  else if c ≥ 32 ∧ c < 127 ∧ s.pos < (SHELL_LINE_MAX : Int) - 1 then
    s.shellInsertChar (UInt8.ofNat c) SHELL_LINE_MAX
  else s

-- ---------------------------------------------------------------------------
-- A list with a cursor
-- ---------------------------------------------------------------------------

structure Line where
  text : List UInt8
  cursor : Nat

namespace Line

/-- In front of the cursor, when the line has fewer than `max - 1` characters -/
def insert (l : Line) (c : UInt8) (max : Int) : Line :=
  if (l.text.length : Int) < max - 1 then ⟨l.text.insertIdx l.cursor c, l.cursor + 1⟩ else l

def deleteBefore (l : Line) : Line :=
  if l.cursor = 0 then l else ⟨l.text.eraseIdx (l.cursor - 1), l.cursor - 1⟩

def deleteUnder (l : Line) : Line := { l with text := l.text.eraseIdx l.cursor }

def left (l : Line) : Line := { l with cursor := l.cursor - 1 }

def right (l : Line) : Line := { l with cursor := min (l.cursor + 1) l.text.length }

def home (l : Line) : Line := { l with cursor := 0 }

def toEnd (l : Line) : Line := { l with cursor := l.text.length }

def clear (_ : Line) : Line := ⟨[], 0⟩

def load (_ : Line) (h : List UInt8) (max : Int) : Line :=
  ⟨h.take (max - 1).toNat, (h.take (max - 1).toNat).length⟩

end Line

/-- What a key of `readline` does to the line. -/
def readlineLine (max : Int) (hist : History) (l : Line) (c : Nat) : Line :=
  if c = 0x08 then l.deleteBefore
  else if c = KEY_DEL then l.deleteUnder
  else if c = 0x09 then l
  else if c = 3 then l.clear
  else if c = KEY_LEFT then l.left
  else if c = KEY_RIGHT then l.right
  else if c = KEY_HOME then l.home
  else if c = KEY_END then l.toEnd
  else if c = KEY_UP then
    if hist.idx > 0 then l.load (historyGet hist (hist.idx - 1)) max else l
  else if c = KEY_DOWN then
    if hist.idx < hist.count then l.load (historyGet hist (hist.idx + 1)) max else l
  else if c ≥ 32 ∧ c < 127 then l.insert (UInt8.ofNat c) max
  else l

def readlineLines (max : Int) : History → Line → List Nat → Line
  | _, l, [] => l
  | hist, l, c :: cs =>
    if c = 0x0A then l
    else readlineLines max (readlineHist hist c) (readlineLine max hist l c) cs

/-- What a key of `win_terminal_feed` does to the line. -/
def feedLine (l : Line) (c : Nat) : Line :=
  if c = 0x0A then l.clear
  else if c = 0x08 then l.deleteBefore
  else if c = KEY_DEL then l.deleteUnder
  else if c = 0x09 then l
  else if c = KEY_LEFT then l.left
  else if c = KEY_RIGHT then l.right
  else if c = KEY_HOME then l.home
  else if c = KEY_END then l.toEnd
  else if c ≥ 32 ∧ c < 127 then l.insert (UInt8.ofNat c) SHELL_LINE_MAX
  else l

-- ---------------------------------------------------------------------------
-- Shifts
-- ---------------------------------------------------------------------------

variable {s : LineBuf} {l : Line} {max : Int} {k : Nat} {c : UInt8}

@[simp] theorem store_pos (s : LineBuf) (i : Int) (c : UInt8) : (s.store i c).pos = s.pos := rfl
@[simp] theorem store_cpos (s : LineBuf) (i : Int) (c : UInt8) : (s.store i c).cpos = s.cpos := rfl
@[simp] theorem store_writes (s : LineBuf) (i : Int) (c : UInt8) :
    (s.store i c).writes = s.writes ++ [i] := rfl

theorem store_buf (s : LineBuf) (i : Int) (c : UInt8) (j : Int) :
    (s.store i c).buf j = if j = i then c else s.buf j := by
  simp [LineBuf.store, Function.update_apply]

/-- The indices that are written to are the `n` ones up to `i`, and each gets the byte below it. -/
structure ShiftedUp (n : Nat) (i : Int) (s t : LineBuf) : Prop where
  pos : t.pos = s.pos
  cpos : t.cpos = s.cpos
  buf : ∀ j, t.buf j = if i - n < j ∧ j ≤ i then s.buf (j - 1) else s.buf j
  writes : ∀ j ∈ t.writes, j ∈ s.writes ∨ i - n < j ∧ j ≤ i

theorem shiftUp_spec (n : Nat) (i : Int) (s : LineBuf) : ShiftedUp n i s (s.shiftUp n i) := by
  induction n generalizing i s with
  | zero =>
    refine ⟨rfl, rfl, fun j => ?_, fun j hj => .inl hj⟩
    rw [if_neg (by omega)]
    rfl
  | succ n ih =>
    obtain ⟨hpos, hcpos, hbuf, hwrites⟩ := ih (i - 1) (s.store i (s.buf (i - 1)))
    refine ⟨hpos, hcpos, fun j => ?_, fun j hj => ?_⟩
    · rw [LineBuf.shiftUp, hbuf, store_buf, store_buf]
      by_cases hin : i - 1 - n < j ∧ j ≤ i - 1
      · rw [if_pos hin, if_neg (by omega), if_pos (by omega)]
      · rw [if_neg hin]
        by_cases hj : j = i
        · rw [if_pos hj, if_pos (by omega), hj]
        · rw [if_neg hj, if_neg (by omega)]
    · rcases hwrites j hj with hold | hnew
      · rw [store_writes, List.mem_append, List.mem_singleton] at hold
        exact hold.imp_right fun h => by omega
      · exact .inr (by omega)

structure ShiftedDown (n : Nat) (i : Int) (s t : LineBuf) : Prop where
  pos : t.pos = s.pos
  cpos : t.cpos = s.cpos
  buf : ∀ j, t.buf j = if i ≤ j ∧ j < i + n then s.buf (j + 1) else s.buf j
  writes : ∀ j ∈ t.writes, j ∈ s.writes ∨ i ≤ j ∧ j < i + n

theorem shiftDown_spec (n : Nat) (i : Int) (s : LineBuf) : ShiftedDown n i s (s.shiftDown n i) := by
  induction n generalizing i s with
  | zero =>
    refine ⟨rfl, rfl, fun j => ?_, fun j hj => .inl hj⟩
    rw [if_neg (by omega)]
    rfl
  | succ n ih =>
    obtain ⟨hpos, hcpos, hbuf, hwrites⟩ := ih (i + 1) (s.store i (s.buf (i + 1)))
    refine ⟨hpos, hcpos, fun j => ?_, fun j hj => ?_⟩
    · rw [LineBuf.shiftDown, hbuf, store_buf, store_buf]
      by_cases hin : i + 1 ≤ j ∧ j < i + 1 + n
      · rw [if_pos hin, if_neg (by omega), if_pos (by omega)]
      · rw [if_neg hin]
        by_cases hj : j = i
        · rw [if_pos hj, if_pos (by omega), hj]
        · rw [if_neg hj, if_neg (by omega)]
    · rcases hwrites j hj with hold | hnew
      · rw [store_writes, List.mem_append, List.mem_singleton] at hold
        exact hold.imp_right fun h => by omega
      · exact .inr (by omega)

-- ---------------------------------------------------------------------------
-- The refinement
-- ---------------------------------------------------------------------------

structure LineBuf.Refines (max : Int) (s : LineBuf) (l : Line) : Prop where
  pos : s.pos = l.text.length
  cpos : s.cpos = l.cursor
  cursor : l.cursor ≤ l.text.length
  room : s.pos ≤ max - 1
  nul : s.buf s.pos = 0
  text : ∀ i : Nat, i < l.text.length → l.text[i]? = some (s.buf i)
  writes : ∀ i ∈ s.writes, 0 ≤ i ∧ i ≤ max - 1

theorem LineBuf.Refines.insert (h : s.Refines max l) (ch : UInt8) :
    (s.shellInsertChar ch max).Refines max (l.insert ch max) := by
  have hpos := h.pos
  have hcpos := h.cpos
  have hcur := h.cursor
  have hroom := h.room
  by_cases hfull : s.pos ≥ max - 1
  · rw [LineBuf.shellInsertChar, if_pos hfull, Line.insert, if_neg (by omega)]
    exact h
  · rw [LineBuf.shellInsertChar, if_neg hfull, Line.insert, if_pos (by omega)]
    obtain ⟨tpos, tcpos, tbuf, twrites⟩ := shiftUp_spec (s.pos - s.cpos).toNat s.pos s
    dsimp only
    have hlen : (l.text.insertIdx l.cursor ch).length = l.text.length + 1 :=
      List.length_insertIdx_of_le_length hcur ch
    refine ⟨?_, ?_, ?_, ?_, ?_, fun i hi => ?_, fun j hj => ?_⟩
    · simp only [store_pos, tpos, hlen]
      omega
    · simp only [store_cpos, tcpos]
      omega
    · simp only [hlen]
      omega
    · simp only [store_pos, tpos]
      omega
    · simp only [store_pos, store_buf, if_true]
    · have hi' : i < l.text.length + 1 := hlen ▸ hi
      simp only [store_buf, store_pos, store_cpos, tpos, tcpos, tbuf, List.getElem?_insertIdx]
      rw [if_neg (show ¬ (i : Int) = s.pos + 1 by omega)]
      by_cases hlt : i < l.cursor
      · rw [if_pos hlt, if_neg (by omega), if_neg (by omega)]
        exact h.text i (by omega)
      · rw [if_neg hlt]
        by_cases heq : i = l.cursor
        · rw [if_pos heq, if_pos (by omega), if_pos (by omega)]
        · have hat : ((i - 1 : Nat) : Int) = (i : Int) - 1 := by omega
          rw [if_neg heq, if_neg (by omega), if_pos (by omega), ← hat]
          exact h.text (i - 1) (by omega)
    · simp only [store_writes, store_pos, store_cpos, tpos, tcpos, List.mem_append,
        List.mem_singleton] at hj
      rcases hj with (hj | hj) | hj
      · rcases twrites j hj with hold | hnew
        · exact h.writes j hold
        · omega
      · omega
      · omega

/-- The character at `i` is taken out, and the cursor is put to `k`. -/
theorem LineBuf.Refines.erase {i : Nat} (h : s.Refines max l) (hi : i < l.text.length)
    (hk : k < l.text.length) (n : Nat) (hn : (n : Int) = s.pos - 1 - i) :
    LineBuf.Refines max
      (({ s.shiftDown n i with pos := s.pos - 1, cpos := k } : LineBuf).store (s.pos - 1) 0)
      ⟨l.text.eraseIdx i, k⟩ := by
  have hpos := h.pos
  have hroom := h.room
  obtain ⟨tpos, tcpos, tbuf, twrites⟩ := shiftDown_spec n i s
  have hlen : (l.text.eraseIdx i).length = l.text.length - 1 := List.length_eraseIdx_of_lt hi
  refine ⟨?_, rfl, ?_, ?_, ?_, fun j hj => ?_, fun j hj => ?_⟩
  · simp only [store_pos, hlen]
    omega
  · simp only [hlen]
    omega
  · simp only [store_pos]
    omega
  · simp only [store_pos, store_buf, if_true]
  · have hj' : j < l.text.length - 1 := hlen ▸ hj
    simp only [store_buf, tbuf, List.getElem?_eraseIdx]
    rw [if_neg (show ¬ (j : Int) = s.pos - 1 by omega)]
    by_cases hlt : j < i
    · rw [if_pos hlt, if_neg (by omega)]
      exact h.text j (by omega)
    · rw [if_neg hlt, if_pos (by omega)]
      exact h.text (j + 1) (by omega)
  · simp only [store_writes, List.mem_append, List.mem_singleton] at hj
    rcases hj with hj | hj
    · rcases twrites j hj with hold | hnew
      · exact h.writes j hold
      · omega
    · omega

theorem LineBuf.Refines.backspace (h : s.Refines max l) :
    s.shellBackspaceChar.Refines max l.deleteBefore := by
  have hpos := h.pos
  have hcpos := h.cpos
  have hcur := h.cursor
  by_cases hzero : l.cursor = 0
  · rw [LineBuf.shellBackspaceChar, if_pos (by omega), Line.deleteBefore, if_pos hzero]
    exact h
  · have hat : s.cpos - 1 = ((l.cursor - 1 : Nat) : Int) := by omega
    obtain ⟨tpos, tcpos, -, -⟩ :=
      shiftDown_spec (s.pos - 1 - (s.cpos - 1)).toNat (s.cpos - 1) s
    have herase := h.erase (i := l.cursor - 1) (k := l.cursor - 1) (by omega) (by omega)
      (s.pos - 1 - (s.cpos - 1)).toNat (by omega)
    rw [← hat] at herase
    rw [LineBuf.shellBackspaceChar, if_neg (by omega), Line.deleteBefore, if_neg hzero]
    dsimp only
    rw [tpos, tcpos]
    exact herase

theorem LineBuf.Refines.delete (h : s.Refines max l) :
    s.shellDeleteChar.Refines max l.deleteUnder := by
  have hpos := h.pos
  have hcpos := h.cpos
  have hcur := h.cursor
  by_cases hend : s.cpos ≥ s.pos
  · rw [LineBuf.shellDeleteChar, if_pos hend, Line.deleteUnder,
      List.eraseIdx_of_length_le (by omega)]
    exact h
  · obtain ⟨tpos, tcpos, -, -⟩ := shiftDown_spec (s.pos - 1 - s.cpos).toNat s.cpos s
    have herase := h.erase (i := l.cursor) (k := l.cursor) (by omega) (by omega)
      (s.pos - 1 - s.cpos).toNat (by omega)
    rw [← hcpos] at herase
    rw [LineBuf.shellDeleteChar, if_neg hend, Line.deleteUnder]
    dsimp only
    rw [tpos, tcpos]
    exact herase

theorem LineBuf.Refines.move {i : Int} (h : s.Refines max l) (hi : i = k) (hk : k ≤ l.text.length) :
    LineBuf.Refines max { s with cpos := i } { l with cursor := k } :=
  ⟨h.pos, hi, hk, h.room, h.nul, h.text, h.writes⟩

theorem refines_clear (hmax : 2 ≤ max) (hw : ∀ i ∈ s.writes, 0 ≤ i ∧ i ≤ max - 1) :
    s.clear.Refines max ⟨[], 0⟩ := by
  refine ⟨rfl, rfl, Nat.le_refl 0, ?_, ?_, fun i hi => ?_, fun j hj => ?_⟩
  · change (0 : Int) ≤ max - 1
    omega
  · simp only [LineBuf.clear, store_pos, store_buf, if_true]
  · exact absurd hi (Nat.not_lt_zero i)
  · simp only [LineBuf.clear, store_writes, List.mem_append, List.mem_singleton] at hj
    rcases hj with hj | hj
    · exact hw j hj
    · omega

structure Copied (i : Int) (h : List UInt8) (s t : LineBuf) : Prop where
  buf : ∀ k : Nat, k < h.length → h[k]? = some (t.buf (i + k))
  writes : ∀ j ∈ t.writes, j ∈ s.writes ∨ i ≤ j ∧ j < i + h.length
  off : ∀ j, j < i → t.buf j = s.buf j

theorem copy_spec (s : LineBuf) (i : Int) (h : List UInt8) : Copied i h s (s.copy i h) := by
  induction h generalizing i s with
  | nil => exact ⟨fun k hk => absurd hk (Nat.not_lt_zero k), fun j hj => .inl hj, fun _ _ => rfl⟩
  | cons c h ih =>
    obtain ⟨hbuf, hwrites, hoff⟩ := ih (s.store i c) (i + 1)
    refine ⟨fun k hk => ?_, fun j hj => ?_, fun j hj => ?_⟩
    · rw [LineBuf.copy]
      cases k with
      | zero =>
        have hat : i + ((0 : Nat) : Int) = i := by omega
        rw [hat, hoff i (by omega), store_buf, if_pos rfl]
        rfl
      | succ k =>
        have hat : i + ((k + 1 : Nat) : Int) = i + 1 + k := by omega
        rw [hat, List.getElem?_cons_succ]
        exact hbuf k (by simpa using hk)
    · rw [List.length_cons]
      rcases hwrites j hj with hold | hnew
      · rw [store_writes, List.mem_append, List.mem_singleton] at hold
        exact hold.imp_right fun h => by omega
      · exact .inr (by omega)
    · rw [LineBuf.copy, hoff j (by omega), store_buf, if_neg (by omega)]

theorem LineBuf.Refines.loadLine (hs : s.Refines max l) (hmax : 2 ≤ max) (h : List UInt8) :
    (s.loadLine h max).Refines max (l.load h max) := by
  have hlen : (if (h.length : Int) ≥ max then max - 1 else (h.length : Int)) =
      ((h.take (max - 1).toNat).length : Int) := by
    rw [List.length_take]
    split <;> omega
  have htake : h.take (h.take (max - 1).toNat).length = h.take (max - 1).toNat := by
    rw [List.length_take, ← List.take_take, List.take_length]
  obtain ⟨hbuf, hwrites, -⟩ := copy_spec s 0 (h.take (max - 1).toNat)
  have hfits : (h.take (max - 1).toNat).length ≤ (max - 1).toNat := List.length_take_le ..
  rw [LineBuf.loadLine, Line.load, hlen, Int.toNat_natCast, htake]
  refine ⟨rfl, rfl, Nat.le_refl _, ?_, ?_, fun i hi => ?_, fun j hj => ?_⟩
  · change ((h.take (max - 1).toNat).length : Int) ≤ max - 1
    omega
  · simp only [store_buf, if_true]
  · change i < (h.take (max - 1).toNat).length at hi
    simp only [store_buf]
    rw [if_neg (by omega)]
    have hat := hbuf i hi
    rwa [Int.zero_add] at hat
  · simp only [store_writes, List.mem_append, List.mem_singleton] at hj
    rcases hj with hj | hj
    · rcases hwrites j hj with hold | hnew
      · exact hs.writes j hold
      · omega
    · omega

-- ---------------------------------------------------------------------------
-- The front ends
-- ---------------------------------------------------------------------------

theorem LineBuf.Refines.left (h : s.Refines max l) :
    (if s.cpos > 0 then { s with cpos := s.cpos - 1 } else s).Refines max l.left := by
  have hcpos := h.cpos
  have hcur := h.cursor
  split
  · exact h.move (by omega) (by omega)
  · have hzero : l.cursor - 1 = l.cursor := by omega
    rw [Line.left, hzero]
    exact h

theorem LineBuf.Refines.right (h : s.Refines max l) :
    (if s.cpos < s.pos then { s with cpos := s.cpos + 1 } else s).Refines max l.right := by
  have hcpos := h.cpos
  have hpos := h.pos
  have hcur := h.cursor
  split
  · exact h.move (by omega) (by omega)
  · have hend : min (l.cursor + 1) l.text.length = l.cursor := by omega
    rw [Line.right, hend]
    exact h

theorem LineBuf.Refines.backspaceKey (h : s.Refines max l) :
    (if s.cpos > 0 then s.shellBackspaceChar else s).Refines max l.deleteBefore := by
  have hback := h.backspace
  split
  · exact hback
  · next hno => rwa [LineBuf.shellBackspaceChar, if_pos (by omega)] at hback

theorem LineBuf.Refines.insertKey (h : s.Refines max l) (c : Nat) :
    (if c ≥ 32 ∧ c < 127 ∧ s.pos < max - 1 then s.shellInsertChar (UInt8.ofNat c) max
      else s).Refines max (if c ≥ 32 ∧ c < 127 then l.insert (UInt8.ofNat c) max else l) := by
  by_cases hc : c ≥ 32 ∧ c < 127
  · have hins := h.insert (UInt8.ofNat c)
    rw [if_pos hc]
    split
    · exact hins
    · next hno => rwa [LineBuf.shellInsertChar, if_pos (by omega)] at hins
  · rw [if_neg hc, if_neg fun h => hc ⟨h.1, h.2.1⟩]
    exact h

theorem LineBuf.Refines.ite {p : Prop} [Decidable p] (hp : p → s.Refines max l)
    (hno : ¬ p → s'.Refines max l') :
    LineBuf.Refines max (if p then s else s') (if p then l else l') := by
  by_cases h : p
  · rw [if_pos h, if_pos h]
    exact hp h
  · rw [if_neg h, if_neg h]
    exact hno h

theorem readlineBuf_refines (h : s.Refines max l) (hmax : 2 ≤ max) (hist : History) (c : Nat) :
    (readlineBuf max hist s c).Refines max (readlineLine max hist l c) := by
  rw [readlineBuf, readlineLine]
  refine .ite (fun hback => h.backspaceKey) fun _ => ?_
  refine .ite (fun hdel => h.delete) fun _ => ?_
  refine .ite (fun htab => h) fun _ => ?_
  refine .ite (fun hbreak => refines_clear hmax h.writes) fun _ => ?_
  refine .ite (fun hleft => h.left) fun _ => ?_
  refine .ite (fun hright => h.right) fun _ => ?_
  refine .ite (fun hhome => h.move rfl (Nat.zero_le _)) fun _ => ?_
  refine .ite (fun hend => h.move h.pos (Nat.le_refl _)) fun _ => ?_
  refine .ite (fun hup => .ite (fun _ => h.loadLine hmax _) fun _ => h) fun _ => ?_
  refine .ite (fun hdown => .ite (fun _ => h.loadLine hmax _) fun _ => h) fun _ => ?_
  exact h.insertKey c

theorem feedBuf_refines (h : s.Refines SHELL_LINE_MAX l) (c : Nat) (left : Int → UInt8) :
    (feedBuf s c left).Refines SHELL_LINE_MAX (feedLine l c) := by
  rw [feedBuf, feedLine]
  refine .ite (fun henter => refines_clear (by decide) h.writes) fun _ => ?_
  refine .ite (fun hback => h.backspaceKey) fun _ => ?_
  refine .ite (fun hdel => h.delete) fun _ => ?_
  refine .ite (fun htab => h) fun _ => ?_
  refine .ite (fun hleft => h.left) fun _ => ?_
  refine .ite (fun hright => h.right) fun _ => ?_
  refine .ite (fun hhome => h.move rfl (Nat.zero_le _)) fun _ => ?_
  refine .ite (fun hend => h.move h.pos (Nat.le_refl _)) fun _ => ?_
  exact h.insertKey c

theorem LineBuf.Refines.newline (h : s.Refines max l) :
    (s.store s.pos 0).Refines max l := by
  have hpos := h.pos
  have hroom := h.room
  refine ⟨h.pos, h.cpos, h.cursor, h.room, ?_, fun i hi => ?_, fun j hj => ?_⟩
  · rw [store_pos, store_buf, if_pos rfl]
  · rw [store_buf, if_neg (by omega)]
    exact h.text i hi
  · rw [store_writes, List.mem_append, List.mem_singleton] at hj
    rcases hj with hj | hj
    · exact h.writes j hj
    · omega

theorem readlineRun_refines (h : s.Refines max l) (hmax : 2 ≤ max) (hist : History)
    (cs : List Nat) : (readlineRun max hist s cs).Refines max (readlineLines max hist l cs) := by
  induction cs generalizing hist s l with
  | nil => exact h
  | cons c cs ih =>
    rw [readlineRun, readlineLines]
    split
    · exact h.newline
    · exact ih (readlineBuf_refines h hmax hist c) (readlineHist hist c)

/-- A key, and the buffer behind `shell_dispatch_line` -/
def feedRun (s : LineBuf) (cs : List (Nat × (Int → UInt8))) : LineBuf :=
  cs.foldl (fun s c => feedBuf s c.1 c.2) s

theorem feedRun_refines (h : s.Refines SHELL_LINE_MAX l) (cs : List (Nat × (Int → UInt8))) :
    (feedRun s cs).Refines SHELL_LINE_MAX ((cs.map Prod.fst).foldl feedLine l) := by
  induction cs generalizing s l with
  | nil => exact h
  | cons c cs ih => exact ih (feedBuf_refines h c.1 c.2)

-- ---------------------------------------------------------------------------
-- All sequences
-- ---------------------------------------------------------------------------

inductive LineOp
  | insert (ch : UInt8)
  | backspace
  | delete
  | left
  | right
  | home
  | toEnd

def LineBuf.op (max : Int) (s : LineBuf) : LineOp → LineBuf
  | .insert ch => s.shellInsertChar ch max
  | .backspace => s.shellBackspaceChar
  | .delete => s.shellDeleteChar
  | .left => if s.cpos > 0 then { s with cpos := s.cpos - 1 } else s
  | .right => if s.cpos < s.pos then { s with cpos := s.cpos + 1 } else s
  | .home => { s with cpos := 0 }
  | .toEnd => { s with cpos := s.pos }

def Line.op (max : Int) (l : Line) : LineOp → Line
  | .insert ch => l.insert ch max
  | .backspace => l.deleteBefore
  | .delete => l.deleteUnder
  | .left => l.left
  | .right => l.right
  | .home => l.home
  | .toEnd => l.toEnd

theorem LineBuf.Refines.op (h : s.Refines max l) (o : LineOp) :
    (s.op max o).Refines max (l.op max o) := by
  cases o with
  | insert ch => exact h.insert ch
  | backspace => exact h.backspace
  | delete => exact h.delete
  | left => exact h.left
  | right => exact h.right
  | home => exact h.move rfl (Nat.zero_le _)
  | toEnd => exact h.move h.pos (Nat.le_refl _)

theorem ops_refine (h : s.Refines max l) (ops : List LineOp) :
    (ops.foldl (LineBuf.op max) s).Refines max (ops.foldl (Line.op max) l) := by
  induction ops generalizing s l with
  | nil => exact h
  | cons o ops ih => exact ih (h.op o)

def LineBuf.start (buf : Int → UInt8) : LineBuf := LineBuf.store ⟨buf, 0, 0, []⟩ 0 0

theorem start_refines (hmax : 2 ≤ max) (buf : Int → UInt8) :
    (LineBuf.start buf).Refines max ⟨[], 0⟩ :=
  refines_clear (s := ⟨buf, 0, 0, []⟩) hmax fun _ hj => absurd hj List.not_mem_nil

/-- Any sequence of operations, any keys of `readline` with any history, and any keys of
`win_terminal_feed` keep a line with a cursor in the buffer. -/
theorem lineEditing_refines (hmax : 2 ≤ max) (buf : Int → UInt8) :
    (∀ ops : List LineOp,
      (ops.foldl (LineBuf.op max) (.start buf)).Refines max (ops.foldl (Line.op max) ⟨[], 0⟩)) ∧
    (∀ hist cs,
      (readlineRun max hist (.start buf) cs).Refines max (readlineLines max hist ⟨[], 0⟩ cs)) ∧
    (∀ cs : List (Nat × (Int → UInt8)),
      (feedRun (.start buf) cs).Refines SHELL_LINE_MAX
        ((cs.map Prod.fst).foldl feedLine ⟨[], 0⟩)) :=
  ⟨fun ops => ops_refine (start_refines hmax buf) ops,
    fun hist cs => readlineRun_refines (start_refines hmax buf) hmax hist cs,
    fun cs => feedRun_refines (start_refines (by decide) buf) cs⟩

theorem lineEditing_refines_two :
    ([.insert 97, .insert 98, .left, .delete].foldl (LineBuf.op 2) (.start fun _ => 0)).Refines 2
      ⟨[], 0⟩ :=
  (lineEditing_refines (by decide) fun _ => 0).1 [.insert 97, .insert 98, .left, .delete]

-- ---------------------------------------------------------------------------
-- The line editor on lists
-- ---------------------------------------------------------------------------

def Shell.line (s : Shell) : Line := ⟨s.buf, s.cpos⟩

theorem insertIdx_eq (t : List UInt8) (ch : UInt8) (hk : k ≤ t.length) :
    t.insertIdx k ch = t.take k ++ ch :: t.drop k := by
  induction t generalizing k with
  | nil =>
    obtain rfl : k = 0 := by simpa using hk
    rfl
  | cons c t ih =>
    cases k with
    | zero => rfl
    | succ k => rw [List.insertIdx_succ_cons, ih (by simpa using hk)]; rfl

theorem shellInsertChar_line {s : Shell} (h : s.cpos ≤ s.buf.length) (ch : UInt8) :
    (shellInsertChar s ch).line = s.line.insert ch SHELL_LINE_MAX := by
  rw [shellInsertChar, Line.insert]
  by_cases hfull : s.buf.length ≥ SHELL_LINE_MAX - 1
  · rw [if_pos hfull, if_neg]
    change ¬ (s.buf.length : Int) < (SHELL_LINE_MAX : Int) - 1
    rw [SHELL_LINE_MAX] at *
    omega
  · rw [if_neg hfull, if_pos]
    · exact congrArg (Line.mk · (s.cpos + 1)) (insertIdx_eq s.buf ch h).symm
    · change (s.buf.length : Int) < (SHELL_LINE_MAX : Int) - 1
      rw [SHELL_LINE_MAX] at *
      omega

theorem shellBackspaceChar_line (s : Shell) :
    (shellBackspaceChar s).line = s.line.deleteBefore := by
  by_cases hzero : s.cpos = 0
  · rw [shellBackspaceChar, if_pos hzero]
    exact (if_pos hzero).symm
  · have hback : s.cpos - 1 + 1 = s.cpos := by omega
    have herase := List.eraseIdx_eq_take_drop_succ s.buf (s.cpos - 1)
    rw [hback] at herase
    rw [shellBackspaceChar, if_neg hzero]
    exact (congrArg (Line.mk · (s.cpos - 1)) herase.symm).trans (if_neg hzero).symm

theorem shellDeleteChar_line (s : Shell) : (shellDeleteChar s).line = s.line.deleteUnder := by
  rw [shellDeleteChar, Line.deleteUnder]
  split
  · next hend =>
    exact congrArg (Line.mk · s.cpos) (List.eraseIdx_of_length_le hend).symm
  · exact congrArg (Line.mk · s.cpos) (List.eraseIdx_eq_take_drop_succ s.buf s.cpos).symm

theorem insertKey_line {s : Shell} (h : s.cpos ≤ s.buf.length) (c : Nat) :
    ((if c ≥ 32 ∧ c < 127 ∧ s.buf.length < SHELL_LINE_MAX - 1 then
        some (shellInsertChar s (UInt8.ofNat c)) else none).getD s).line =
      if c ≥ 32 ∧ c < 127 then s.line.insert (UInt8.ofNat c) SHELL_LINE_MAX else s.line := by
  by_cases hc : c ≥ 32 ∧ c < 127
  · rw [if_pos hc, ← shellInsertChar_line h]
    split
    · rfl
    · next hno =>
      have hfull : s.buf.length ≥ SHELL_LINE_MAX - 1 := by
        by_contra hlt
        exact hno ⟨hc.1, hc.2, by omega⟩
      rw [shellInsertChar, if_pos hfull]
      rfl
  · rw [if_neg hc, if_neg fun h => hc ⟨h.1, h.2.1⟩]
    rfl

theorem left_line (s : Shell) :
    ((if s.cpos > 0 then some { s with cpos := s.cpos - 1 } else none).getD s).line =
      s.line.left := by
  split
  · rfl
  · next hzero =>
    have hcur : s.cpos - 1 = s.cpos := by omega
    exact congrArg (Line.mk s.buf) hcur.symm

theorem right_line {s : Shell} (h : s.cpos ≤ s.buf.length) :
    ((if s.cpos < s.buf.length then some { s with cpos := s.cpos + 1 } else none).getD s).line =
      s.line.right := by
  split
  · next hlt =>
    have hcur : min (s.cpos + 1) s.buf.length = s.cpos + 1 := by omega
    exact congrArg (Line.mk s.buf) hcur.symm
  · next hend =>
    have hcur : min (s.cpos + 1) s.buf.length = s.cpos := by omega
    exact congrArg (Line.mk s.buf) hcur.symm

theorem backspaceKey_line (s : Shell) :
    ((if s.cpos > 0 then some (shellBackspaceChar s) else none).getD s).line =
      s.line.deleteBefore := by
  rw [← shellBackspaceChar_line]
  split
  · rfl
  · next hzero =>
    rw [shellBackspaceChar, if_pos (by omega)]
    rfl

theorem recall_line (s : Shell) (idx : Int) :
    (s.recall idx).line = s.line.load (historyGet s.hist idx) SHELL_LINE_MAX := by
  have hhl : (if (historyGet s.hist idx).length ≥ SHELL_LINE_MAX then SHELL_LINE_MAX - 1
      else (historyGet s.hist idx).length) =
      ((historyGet s.hist idx).take (SHELL_LINE_MAX - 1)).length := by
    rw [List.length_take, SHELL_LINE_MAX]
    split <;> omega
  have htext : (s.recall idx).buf = (historyGet s.hist idx).take (SHELL_LINE_MAX - 1) := by
    refine (congrArg (List.take · (historyGet s.hist idx)) hhl).trans ?_
    rw [List.length_take, ← List.take_take, List.take_length]
  exact congrArg₂ Line.mk htext hhl

theorem line_ite {p : Prop} [Decidable p] {o o' : Option Shell} {s : Shell}
    (hp : p → (o.getD s).line = l) (hno : ¬ p → (o'.getD s).line = l') :
    ((if p then o else o').getD s).line = if p then l else l' := by
  by_cases h : p
  · rw [if_pos h, if_pos h]
    exact hp h
  · rw [if_neg h, if_neg h]
    exact hno h

/-- What `readline` does on lists is what it does to the line. -/
theorem readlineEdit_line {s : Shell} (h : s.cpos ≤ s.buf.length) (c : Nat) :
    ((readlineEdit s c).getD s).line = readlineLine SHELL_LINE_MAX s.hist s.line c := by
  rw [readlineEdit, readlineLine]
  refine line_ite (fun hback => backspaceKey_line s) fun _ => ?_
  refine line_ite (fun hdel => shellDeleteChar_line s) fun _ => ?_
  refine line_ite (fun htab => rfl) fun _ => ?_
  refine line_ite (fun hbreak => rfl) fun _ => ?_
  refine line_ite (fun hleft => left_line s) fun _ => ?_
  refine line_ite (fun hright => right_line h) fun _ => ?_
  refine line_ite (fun hhome => rfl) fun _ => ?_
  refine line_ite (fun hend => rfl) fun _ => ?_
  refine line_ite (fun hup => line_ite (fun _ => recall_line s _) fun _ => rfl) fun _ => ?_
  refine line_ite (fun hdown => line_ite (fun _ => recall_line s _) fun _ => rfl) fun _ => ?_
  exact insertKey_line h c

theorem feedEdit_line {s : Shell} {c : Nat} (h : s.cpos ≤ s.buf.length) (hc : c ≠ 0x0A) :
    ((feedEdit s c).getD s).line = feedLine s.line c := by
  rw [feedEdit, feedLine, if_neg hc]
  refine line_ite (fun hback => backspaceKey_line s) fun _ => ?_
  refine line_ite (fun hdel => shellDeleteChar_line s) fun _ => ?_
  refine line_ite (fun htab => rfl) fun _ => ?_
  refine line_ite (fun hleft => left_line s) fun _ => ?_
  refine line_ite (fun hright => right_line h) fun _ => ?_
  refine line_ite (fun hhome => rfl) fun _ => ?_
  refine line_ite (fun hend => rfl) fun _ => ?_
  exact insertKey_line h c

end EponaOS.Kernel
