import EponaOS.Kernel.WindowContents
import EponaOS.Lib.Slots
import EponaOS.User.Edit
import Mathlib.Data.List.GetD
import Mathlib.Data.List.TakeWhile

/-!
# The editor at work

The loop of `edit.c`. The commands do to `g_lines` what they do to a list of lines: `strcpy` moves
the lines behind a place one by one. The loop is written once, over the lines as memory and over the
lines as a list; what is typed has the same effect on both.
-/

namespace EponaOS.User.Edit

open Bytes Lines
open Kernel (asciiBytes wrapInt)

-- ---------------------------------------------------------------------------
-- What is typed
-- ---------------------------------------------------------------------------

/-- `buf` up to `pos` of `readline`, and what it has printed -/
structure Input where
  buf : List UInt8
  echo : List UInt8

/-- A character in `readline` that is no newline -/
def Input.char (max : Nat) (s : Input) (c : UInt8) : Input :=
  if c = 0x08 then if s.buf.length > 0 then ⟨s.buf.dropLast, s.echo ++ [c]⟩ else s
  else if s.buf.length < max - 1 then ⟨s.buf ++ [c], s.echo ++ [c]⟩
  else s

/-- A line as a string, what `readline` has printed, and whether `sys_create` succeeds if the line
asks for it -/
structure Typed where
  line : List UInt8
  echo : List UInt8
  canCreate : Bool

/-- `readline`, again and again; the last line is not ended. `canCreate` is about the time when so
many bytes are still to come. -/
def readLines (max : Nat) (canCreate : Nat → Bool) : Input → List UInt8 → List Typed
  | _, [] => []
  | s, c :: input =>
    if c = NEWLINE then
      ⟨s.buf.takeWhile (· ≠ 0), s.echo ++ [NEWLINE], canCreate input.length⟩ ::
        readLines max canCreate ⟨[], []⟩ input
    else readLines max canCreate (s.char max c) input

-- ---------------------------------------------------------------------------
-- Commands
-- ---------------------------------------------------------------------------

inductive Command
  | print
  | quit
  | forceQuit
  | write
  | help
  | insert (n : Int)
  | append (n : Option Int)
  | delete (v : Int)
  | line (n : Int)
  | range (m n : Int)
  | unknown
  deriving DecidableEq

def IsDigit (c : UInt8) : Bool := c ≥ 0x30 ∧ c ≤ 0x39

/-- The digits at the start of a string, as an `int` -/
def number (s : List UInt8) : Int :=
  (s.takeWhile IsDigit).foldl (fun v c => wrapInt (v * 10 + (c.toNat - 0x30))) 0

/-- `v - 1` behind a letter and a blank -/
def place (cmd : List UInt8) : Option Int :=
  if cmd[1]? = some 0x20 then some (wrapInt (number (cmd.drop 2) - 1)) else none

def parseRange (line : List UInt8) : Command :=
  let rest := line.dropWhile IsDigit
  if rest.head? = some 0x2C then
    let behind := ((rest.drop 1).dropWhile IsDigit).dropWhile (· = 0x20)
    if behind.head? = some 0x70 then .range (number line) (number (rest.drop 1)) else .unknown
  else if rest = [] then .line (number line)
  else .unknown

def parse (line : List UInt8) : Command :=
  if line = [] then .print
  else if line = asciiBytes "q" then .quit
  else if line = asciiBytes "Q" then .forceQuit
  else if line = asciiBytes "w" then .write
  else if line = asciiBytes "p" then .print
  else if line = asciiBytes "h" then .help
  else if line.head? = some 0x69 then .insert ((place line).getD 0)
  else if line.head? = some 0x61 then .append (place line)
  else if line.head? = some 0x64 then .delete (number ((line.drop 1).dropWhile (· = 0x20)))
  else parseRange line

-- ---------------------------------------------------------------------------
-- The loop
-- ---------------------------------------------------------------------------

/-- Lines, and what the commands do with `g_num` of them -/
structure Store (σ : Type) where
  line : σ → Nat → Option (List UInt8)
  /-- the lines, `g_num`, `after` and the new line -/
  insert : σ → Nat → Nat → List UInt8 → Option σ
  delete : σ → Nat → Nat → Option σ
  save : σ → Nat → Option (List UInt8)

/-- Where the next line is read: in `main`, in `insert_lines`, or nowhere. -/
inductive Prompt
  | command
  | insert (after : Nat)
  | left
  deriving DecidableEq

/-- The lines, `g_num`, `g_dirty`, the file, and what was printed -/
structure Editor (σ : Type) where
  lines : σ
  num : Nat
  dirty : Bool
  file : Option (List UInt8)
  out : List UInt8
  prompt : Prompt

variable {σ τ : Type}

def Editor.puts (e : Editor σ) (s : List UInt8) : Editor σ := { e with out := e.out ++ s }

theorem Editor.puts_puts (e : Editor σ) (s t : List UInt8) : (e.puts s).puts t = e.puts (s ++ t) := by
  simp only [Editor.puts, List.append_assoc]

def Editor.toCommand (e : Editor σ) : Editor σ :=
  { e.puts (asciiBytes "edit> ") with prompt := .command }

def Editor.answer (e : Editor σ) (s : String) : Editor σ := (e.puts (asciiBytes s)).toCommand

/-- The loops over `num`: a digit, or a blank where the number has ended -/
def lineNumber : Nat → Nat → List UInt8
  | 0, _ => []
  | ni + 1, n => lineNumber ni (n / 10) ++ [if n > 0 then .ofNat (0x30 + n % 10) else 0x20]

section Commands

variable (S : Store σ)

def printLine (e : Editor σ) (i : Nat) : Option (Editor σ) :=
  (S.line e.lines i).map fun w =>
    e.puts (lineNumber 6 (i + 1) ++ asciiBytes "  " ++ w ++ [NEWLINE])

def printLines (e : Editor σ) : Option (Editor σ) := (List.range e.num).foldlM (printLine S) e

def listRange (e : Editor σ) (start last : Int) : Option (Editor σ) :=
  let num : Int := e.num
  let start := if start < 0 then 0 else start
  let last := if last ≥ num then num - 1 else last
  (List.range' start.toNat (last + 1 - start).toNat).foldlM (printLine S) e

/-- `insert_lines` up to its first `readline` -/
def startInsert (e : Editor σ) (after : Nat) : Editor σ :=
  { e.puts (asciiBytes "(enter lines, '.' alone to end)\n> ") with prompt := .insert after }

/-- A line in `insert_lines` -/
def insertTyped (e : Editor σ) (after : Nat) (line : List UInt8) : Option (Editor σ) :=
  if line = asciiBytes "." then some { e with dirty := true }.toCommand
  else if e.num ≥ MAX_LINES then some ({ e with dirty := true }.answer "Buffer full\n")
  else (S.insert e.lines e.num after line).map fun lines =>
    { e.puts (asciiBytes "> ") with lines, num := e.num + 1, prompt := .insert (after + 1) }

def deleteLine (e : Editor σ) (n : Int) : Option (Editor σ) :=
  if n < 0 ∨ n ≥ e.num then some (e.answer "Invalid line\n")
  else (S.delete e.lines e.num n.toNat).map fun lines =>
    { e with lines, num := e.num - 1, dirty := true }.toCommand

def helpText : String :=
  "Editor commands:\n  p        print all lines\n  n        print line n\n" ++
    "  i [n]    insert after line n (default: 0)\n  a [n]    append after line n (default: end)\n" ++
    "  d n      delete line n\n  w        save (write) file\n" ++
    "  q        quit (discards if unsaved)\n  Q        force quit without saving\n" ++
    "  h        this help\n  n,m p    print range n through m\n"

def execute (e : Editor σ) (canCreate : Bool) : Command → Option (Editor σ)
  | .print => (printLines S e).map Editor.toCommand
  | .quit =>
    if e.dirty then some (e.answer "Unsaved changes. Use Q to force quit.\n")
    else some { e with prompt := .left }
  | .forceQuit => some { e with prompt := .left }
  | .write =>
    if canCreate then (S.save e.lines e.num).map fun text =>
      { e with file := some text, dirty := false }.answer "Saved.\n"
    else some (e.answer "Save failed\n")
  | .help => some (e.answer helpText)
  | .insert n =>
    let num : Int := e.num
    let n := if n < 0 then 0 else n
    let n := if n > num then num else n
    some (startInsert e n.toNat)
  | .append n =>
    let num : Int := e.num
    let n := n.getD (num - 1)
    let n := if n < 0 then 0 else n
    let n := if n ≥ num then num - 1 else n
    some (startInsert e (n + 1).toNat)
  | .delete v =>
    if v < 1 ∨ v > e.num then some (e.answer "Invalid line\n") else deleteLine S e (v - 1)
  | .line n =>
    if n ≥ 1 ∧ n ≤ e.num then (listRange S e (n - 1) (n - 1)).map Editor.toCommand
    else some (e.answer "?\n")
  | .range m n =>
    if m < 1 ∨ n > e.num ∨ m > n then some (e.answer "Invalid range\n")
    else (listRange S e (m - 1) (n - 1)).map Editor.toCommand
  | .unknown => some (e.answer "?\n")

def lineStep (e : Editor σ) (t : Typed) : Option (Editor σ) :=
  match e.prompt with
  | .command => execute S (e.puts t.echo) t.canCreate (parse t.line)
  | .insert after => insertTyped S (e.puts t.echo) after t.line
  | .left => some e

def editRun (e : Editor σ) (typed : List Typed) : Option (Editor σ) := typed.foldlM (lineStep S) e

end Commands

/-- `main` up to its loop, for a file that was read -/
def openedEditor (path text : List UInt8) (lines : σ) (num : Nat) : Editor σ :=
  ⟨lines, num, false, some text, asciiBytes "--- " ++ path ++ asciiBytes " ---\nedit> ", .command⟩

/-- `main` up to its loop, for one that cannot be opened -/
def newEditor (lines : σ) : Editor σ :=
  ⟨lines, 0, false, none, asciiBytes "(new file)\nedit> ", .command⟩

-- ---------------------------------------------------------------------------
-- Lines in memory
-- ---------------------------------------------------------------------------

/-- `g_lines`, and the addresses in it that were written to -/
structure Rows where
  mem : Bytes
  writes : List Nat

/-- `strcpy` to address `d` of the table; `src` is the memory that address `s` is in, which may be
the table. -/
def strcpy (src : Bytes → Bytes) : Nat → Rows → Nat → Nat → Option Rows
  | 0, _, _, _ => none
  | k + 1, r, d, s =>
    let c := src r.mem s
    let r' := ⟨setByte r.mem d c, r.writes ++ [d]⟩
    if c = 0 then some r' else strcpy src k r' (d + 1) (s + 1)

/-- `strcpy(g_lines[dst], g_lines[src])` -/
def copyRow (fuel : Nat) (r : Rows) (dst src : Nat) : Option Rows :=
  strcpy id fuel r (dst * LINE_MAX) (src * LINE_MAX)

/-- The `for` loop of `insert_lines`, and the copy behind it -/
def insertRow (fuel : Nat) (r : Rows) (num after : Nat) (line : List UInt8) : Option Rows :=
  ((List.range' (after + 1) (num - after)).reverse.foldlM (fun r i => copyRow fuel r i (i - 1)) r).bind
    fun r => strcpy (fun _ i => line.getD i 0) fuel r (after * LINE_MAX) 0

/-- The `for` loop of `delete_line` -/
def deleteRow (fuel : Nat) (r : Rows) (num n : Nat) : Option Rows :=
  (List.range' n (num - 1 - n)).foldlM (fun r i => copyRow fuel r i (i + 1)) r

def memoryStore (fuel : Nat) : Store Rows where
  line r i := readStr r.mem fuel (i * LINE_MAX)
  insert := insertRow fuel
  delete := deleteRow fuel
  save r num := saveLoop fuel r.mem num 0

def listStore : Store (List (List UInt8)) where
  line rows i := rows[i]?
  insert rows _ after line := some (rows.insertIdx after line)
  delete rows _ n := some (rows.eraseIdx n)
  save rows _ := some (joined NEWLINE rows)

variable {fuel d a n after src dst k : Nat} {r r' : Rows} {l : List (List UInt8)}
  {w t line : List UInt8} {from_ : Bytes → Bytes}

structure HasRow (r : Rows) (k : Nat) (w : List UInt8) : Prop where
  str : HasStr r.mem (k * LINE_MAX) w
  short : w.length < LINE_MAX
  noNul : 0 ∉ w

def Rows.Inside (r : Rows) : Prop := ∀ a ∈ r.writes, a < MAX_LINES * LINE_MAX

theorem strcpy_eq (h0 : 0 ∉ t) (hfuel : t.length < fuel)
    (hsrc : ∀ m, (∀ x, x < d ∨ d + t.length < x → m x = r.mem x) → HasStr (from_ m) a t) :
    strcpy from_ fuel r d a = some ⟨putBytes r.mem d (t ++ [0]),
      r.writes ++ List.range' d (t.length + 1)⟩ := by
  induction t generalizing r d a fuel with
  | nil =>
    obtain ⟨fuel, rfl⟩ := exists_succ hfuel
    have hend : from_ r.mem a = 0 := (hsrc r.mem fun _ _ => rfl).1
    simp [strcpy, hend, putBytes]
  | cons c t ih =>
    obtain ⟨fuel, rfl⟩ := exists_succ hfuel
    rw [List.mem_cons, not_or] at h0
    have hc : from_ r.mem a = c := (hsrc r.mem fun _ _ => rfl).1
    have hshort : t.length < fuel := by simpa using hfuel
    have hrest := ih (r := ⟨setByte r.mem d c, r.writes ++ [d]⟩) (d := d + 1) (a := a + 1)
      h0.2 hshort fun m hm => (hsrc m fun x hx => ?_).2
    · rw [strcpy]
      simp only [hc, Ne.symm h0.1, if_false]
      rw [hrest]
      simp [putBytes, List.range'_succ]
    · rw [List.length_cons] at hx
      rw [hm x (by omega)]
      exact setByte_ne _ _ (by omega)

theorem written_row (h0 : 0 ∉ w) (hshort : w.length < LINE_MAX) (hdst : dst < MAX_LINES)
    (hin : r.Inside) :
    let r' : Rows := ⟨putBytes r.mem (dst * LINE_MAX) (w ++ [0]),
      r.writes ++ List.range' (dst * LINE_MAX) (w.length + 1)⟩
    HasRow r' dst w ∧ (∀ k v, k ≠ dst → HasRow r k v → HasRow r' k v) ∧ r'.Inside := by
  refine ⟨⟨putBytes_has .., hshort, h0⟩, fun k v hk hv => ⟨?_, hv.short, hv.noNul⟩, fun a ha => ?_⟩
  · have hv' := hv.short
    refine hv.str.congr fun x hle hlt => putBytes_off _ _ ?_
    rw [List.length_append, List.length_singleton] at hlt ⊢
    rw [LINE_MAX] at *
    omega
  · obtain ha | ha := List.mem_append.mp ha
    · exact hin a ha
    · have hend := row_end_le hdst
      have ha := List.mem_range'_1.mp ha
      omega

theorem HasRow.unique (h : HasRow r k w) (h' : HasRow r k t) : w = t := by
  have hread := readStr_eq h.str h.noNul h.short
  have hread' := readStr_eq h'.str h'.noNul h'.short
  exact Option.some.inj (hread.symm.trans hread')

def Enough (f : Nat → Option σ) (s : σ) : Prop := ∀ fuel, LINE_MAX ≤ fuel → f fuel = some s

theorem Enough.bind {f : Nat → Option σ} {g : Nat → σ → Option τ} {s : σ} {s' : τ}
    (h : Enough f s) (h' : Enough (fun fuel => g fuel s) s') :
    Enough (fun fuel => (f fuel).bind (g fuel)) s' := fun fuel hfuel =>
  Option.bind_eq_some_iff.mpr ⟨s, h fuel hfuel, h' fuel hfuel⟩

theorem copyRow_copies (hsrc : HasRow r src w) (hne : src ≠ dst) (hdst : dst < MAX_LINES)
    (hin : r.Inside) :
    ∃ r', Enough (fun fuel => copyRow fuel r dst src) r' ∧ Copies HasRow r r' src dst ∧
      r'.Inside := by
  have hshort := hsrc.short
  obtain ⟨hrow, hkept, hinside⟩ := written_row hsrc.noNul hshort hdst hin
  refine ⟨_, fun fuel hfuel => strcpy_eq hsrc.noNul (by omega) fun m hm => ?_,
    ⟨fun v hv => ?_, hkept⟩, hinside⟩
  · refine hsrc.str.congr fun x hle hlt => hm x ?_
    rw [List.length_append, List.length_singleton] at hlt
    rw [LINE_MAX] at *
    omega
  · rwa [hv.unique hsrc]

theorem copyLine_fills (h0 : 0 ∉ line) (hshort : line.length < LINE_MAX) (hdst : dst < MAX_LINES)
    (hin : r.Inside) :
    ∃ r', Enough (fun fuel => strcpy (fun _ i => line.getD i 0) fuel r (dst * LINE_MAX) 0) r' ∧
      HasRow r' dst line ∧ (∀ k v, k ≠ dst → HasRow r k v → HasRow r' k v) ∧ r'.Inside := by
  refine ⟨_, fun fuel hfuel => strcpy_eq h0 (by omega) fun m _ => ?_,
    written_row h0 hshort hdst hin⟩
  refine hasStr_iff.mpr ⟨hasBytes_iff.mpr fun i hi => ?_, ?_⟩
  · simp [hi]
  · simp

-- ---------------------------------------------------------------------------
-- Lines that move
-- ---------------------------------------------------------------------------

/-- The lines behind `after` move down, the last one first. -/
theorem shift_down (hgap : Gap HasRow r (after + n) l) (hlen : after + n ≤ l.length)
    (hroom : l.length < MAX_LINES) (hin : r.Inside) :
    ∃ r', Enough (fun fuel => (List.range' (after + 1) n).reverse.foldlM
        (fun r i => copyRow fuel r i (i - 1)) r) r' ∧ Gap HasRow r' after l ∧ r'.Inside := by
  induction n generalizing r with
  | zero => exact ⟨r, fun _ _ => rfl, hgap, hin⟩
  | succ n ih =>
    have hitem := hgap (after + n) (by omega)
    rw [if_pos (by omega)] at hitem
    have hat : after + 1 + 1 * n = after + n + 1 := by omega
    have hdst : after + n + 1 < MAX_LINES := by omega
    obtain ⟨r₁, hrun, hcopy, hin₁⟩ := copyRow_copies hitem (Nat.ne_of_lt (Nat.lt_succ_self _)) hdst
      hin
    obtain ⟨r₂, hrest, hgap₂, hin₂⟩ := ih (hgap.down hcopy) (by omega) hin₁
    refine ⟨r₂, ?_, hgap₂, hin₂⟩
    simp only [List.range'_concat, List.reverse_append, List.reverse_singleton,
      List.singleton_append, List.foldlM_cons, hat, Nat.add_sub_cancel]
    exact hrun.bind hrest

/-- The lines behind line `n` move up, the first one first. -/
theorem shift_up (hgap : Gap HasRow r n l) (hlen : n + k = l.length)
    (hroom : l.length < MAX_LINES) (hin : r.Inside) :
    ∃ r', Enough (fun fuel => (List.range' n k).foldlM (fun r i => copyRow fuel r i (i + 1)) r) r' ∧
      Gap HasRow r' l.length l ∧ r'.Inside := by
  induction k generalizing r n with
  | zero =>
    obtain rfl : n = l.length := hlen
    exact ⟨r, fun _ _ => rfl, hgap, hin⟩
  | succ k ih =>
    have hitem := hgap n (by omega)
    rw [if_neg (Nat.lt_irrefl n)] at hitem
    have hdst : n < MAX_LINES := by omega
    obtain ⟨r₁, hrun, hcopy, hin₁⟩ := copyRow_copies hitem (Nat.succ_ne_self n) hdst hin
    obtain ⟨r₂, hrest, hgap₂, hin₂⟩ := ih (hgap.up hcopy) (by omega) hin₁
    refine ⟨r₂, ?_, hgap₂, hin₂⟩
    simp only [List.range'_succ, List.foldlM_cons]
    exact hrun.bind hrest

structure Rows.Shows (r : Rows) (l : List (List UInt8)) : Prop where
  rows : Row HasRow r l
  count : l.length ≤ MAX_LINES
  inside : r.Inside

structure IsLine (line : List UInt8) : Prop where
  noNul : 0 ∉ line
  short : line.length < LINE_MAX

theorem insertRow_shows (h : r.Shows l) (hafter : after ≤ l.length) (hroom : l.length < MAX_LINES)
    (hline : IsLine line) :
    ∃ r', Enough (fun fuel => insertRow fuel r l.length after line) r' ∧
      r'.Shows (l.insertIdx after line) := by
  have hgap : Gap HasRow r (after + (l.length - after)) l := by
    rw [Nat.add_sub_cancel' hafter]
    exact gap_length.mpr h.rows
  obtain ⟨r₁, hrun, hgap₁, hin₁⟩ := shift_down hgap (by omega) hroom h.inside
  obtain ⟨r₂, hcopy, hfilled, hkept, hin₂⟩ := copyLine_fills hline.noNul hline.short
    (Nat.lt_of_le_of_lt hafter hroom) hin₁
  refine ⟨r₂, hrun.bind hcopy, hgap₁.fill hafter hkept hfilled, ?_, hin₂⟩
  · rw [List.length_insertIdx_of_le_length hafter]
    exact hroom

theorem deleteRow_shows (h : r.Shows l) (hn : n < l.length) :
    ∃ r', Enough (fun fuel => deleteRow fuel r l.length n) r' ∧ r'.Shows (l.eraseIdx n) := by
  have hcount := h.count
  have hlen := List.length_eraseIdx_of_lt hn
  have hcut : n + (l.length - 1 - n) = (l.eraseIdx n).length := by omega
  obtain ⟨r₁, hrun, hgap, hin⟩ := shift_up (h.rows.gap_eraseIdx n) hcut (by omega) h.inside
  exact ⟨r₁, hrun, gap_length.mp hgap, by omega, hin⟩

theorem readRow_eq (h : r.Shows l) (hn : n < l.length) (hfuel : LINE_MAX ≤ fuel) :
    readStr r.mem fuel (n * LINE_MAX) = l[n]? := by
  obtain ⟨hstr, hshort, h0⟩ := h.rows n hn
  rw [List.getElem?_eq_getElem hn]
  exact readStr_eq hstr h0 (hshort.trans_le hfuel)

theorem saveRows_eq (h : r.Shows l) (hfuel : LINE_MAX ≤ fuel) :
    saveLoop fuel r.mem l.length 0 = some (joined NEWLINE l) := by
  refine saveLoop_eq (fun k hk => ?_) (fun w hw => ?_) (fun w hw => ?_)
  · rw [Nat.zero_add]
    exact (h.rows k hk).str
  · obtain ⟨k, hk, rfl⟩ := List.mem_iff_getElem.mp hw
    exact (h.rows k hk).noNul
  · obtain ⟨k, hk, rfl⟩ := List.mem_iff_getElem.mp hw
    exact (h.rows k hk).short.trans_le hfuel

-- ---------------------------------------------------------------------------
-- Commands on memory and on the list
-- ---------------------------------------------------------------------------

def Editor.on (e : Editor σ) (lines : τ) : Editor τ :=
  ⟨lines, e.num, e.dirty, e.file, e.out, e.prompt⟩

structure Refines (r : Rows) (e : Editor (List (List UInt8))) : Prop where
  shows : r.Shows e.lines
  num : e.num = e.lines.length
  place : ∀ after, e.prompt = .insert after → after ≤ e.num

variable {e : Editor (List (List UInt8))} {is : List Nat} {typed : List Typed} {text : List UInt8}

def Agree (f : Nat → Option (Editor Rows)) (f' : Option (Editor (List (List UInt8)))) : Prop :=
  ∃ r' e', Enough f (e'.on r') ∧ f' = some e' ∧ Refines r' e'

theorem Refines.puts (h : Refines r e) (text : List UInt8) : Refines r (e.puts text) :=
  ⟨h.shows, h.num, h.place⟩

theorem Refines.toCommand (h : Refines r e) : Refines r e.toCommand := ⟨h.shows, h.num, nofun⟩

theorem Refines.left (h : Refines r e) : Refines r { e with prompt := .left } :=
  ⟨h.shows, h.num, nofun⟩

theorem Refines.setDirty (h : Refines r e) (dirty : Bool) : Refines r { e with dirty } :=
  ⟨h.shows, h.num, h.place⟩

theorem Refines.startInsert (h : Refines r e) (hafter : after ≤ e.num) :
    Refines r (startInsert e after) :=
  ⟨h.shows, h.num, fun _ hat => Prompt.insert.inj hat ▸ hafter⟩

theorem Refines.agree (h : Refines r e) : Agree (fun _ => some (e.on r)) (some e) :=
  ⟨r, e, fun _ _ => rfl, rfl, h⟩

theorem Refines.answer (h : Refines r e) (s : String) :
    Agree (fun _ => some ((e.on r).answer s)) (some (e.answer s)) := (h.puts _).toCommand.agree

section Agree

variable {f f₂ : Nat → Option (Editor Rows)} {f' f₂' : Option (Editor (List (List UInt8)))}

theorem Agree.toCommand (h : Agree f f') :
    Agree (fun fuel => (f fuel).map Editor.toCommand) (f'.map Editor.toCommand) := by
  obtain ⟨r', e', hrun, rfl, h⟩ := h
  refine ⟨r', e'.toCommand, fun fuel hfuel => ?_, rfl, h.toCommand⟩
  dsimp only
  rw [hrun fuel hfuel]
  rfl

theorem Agree.ite {c : Prop} [Decidable c] (h : c → Agree f f') (h₂ : ¬ c → Agree f₂ f₂') :
    Agree (fun fuel => if c then f fuel else f₂ fuel) (if c then f' else f₂') := by
  by_cases hc : c
  · simpa [hc] using h hc
  · simpa [hc] using h₂ hc

theorem Agree.bind {step : Nat → Editor Rows → Option (Editor Rows)}
    {step' : Editor (List (List UInt8)) → Option (Editor (List (List UInt8)))} (h : Agree f f')
    (hstep : ∀ r' e', f' = some e' → Refines r' e' →
      Agree (fun fuel => step fuel (e'.on r')) (step' e')) :
    Agree (fun fuel => (f fuel).bind (step fuel)) (f'.bind step') := by
  obtain ⟨r', e', hrun, hlist, h'⟩ := h
  obtain ⟨r₂, e₂, hrun₂, hlist₂, h₂⟩ := hstep r' e' hlist h'
  exact ⟨r₂, e₂, hrun.bind hrun₂, Option.bind_eq_some_iff.mpr ⟨_, hlist, hlist₂⟩, h₂⟩

end Agree

theorem printLine_agree (h : Refines r e) (hk : k < e.num) :
    Agree (fun fuel => printLine (memoryStore fuel) (e.on r) k) (printLine listStore e k) := by
  have hlt : k < e.lines.length := h.num ▸ hk
  have hline : e.lines[k]? = some e.lines[k] := List.getElem?_eq_getElem hlt
  have hprinted := h.puts (lineNumber 6 (k + 1) ++ asciiBytes "  " ++ e.lines[k] ++ [NEWLINE])
  refine ⟨r, _, fun fuel hfuel => ?_, congrArg (Option.map _) hline, hprinted⟩
  exact congrArg (Option.map _) ((readRow_eq h.shows hlt hfuel).trans hline)

theorem printLines_agree (h : Refines r e) (his : ∀ i ∈ is, i < e.num) :
    Agree (fun fuel => is.foldlM (printLine (memoryStore fuel)) (e.on r))
      (is.foldlM (printLine listStore) e) := by
  induction is generalizing r e with
  | nil => exact h.agree
  | cons i is ih =>
    obtain ⟨hi, his⟩ := List.forall_mem_cons.mp his
    simp only [List.foldlM_cons]
    refine (printLine_agree h hi).bind fun r' e' hline h' => ih h' ?_
    obtain ⟨w, -, rfl⟩ := Option.map_eq_some_iff.mp hline
    exact his

theorem listRange_agree (h : Refines r e) (start last : Int) :
    Agree (fun fuel => listRange (memoryStore fuel) (e.on r) start last)
      (listRange listStore e start last) := by
  refine printLines_agree h fun i hi => ?_
  have hi := List.mem_range'_1.mp hi
  dsimp only [Editor.on] at hi
  omega

theorem save_agree (h : Refines r e) (canCreate : Bool) :
    Agree (fun fuel => execute (memoryStore fuel) (e.on r) canCreate .write)
      (execute listStore e canCreate .write) := by
  refine .ite (fun _ => ?_) fun _ => h.answer _
  have hsaved : Refines r ({ e with file := some (joined NEWLINE e.lines), dirty := false }.answer
      "Saved.\n") := ⟨h.shows, h.num, nofun⟩
  refine ⟨r, _, fun fuel hfuel => ?_, rfl, hsaved⟩
  have hsave := saveRows_eq h.shows hfuel
  rw [← h.num] at hsave
  exact congrArg (Option.map _) hsave

theorem deleteLine_agree (h : Refines r e) (n : Int) :
    Agree (fun fuel => deleteLine (memoryStore fuel) (e.on r) n) (deleteLine listStore e n) := by
  refine .ite (fun _ => h.answer _) fun hgood => ?_
  have hnum := h.num
  have hlt : n.toNat < e.lines.length := by
    dsimp only [Editor.on] at hgood
    omega
  obtain ⟨r', hrun, hshows⟩ := deleteRow_shows h.shows hlt
  rw [← hnum] at hrun
  have hcount : e.num - 1 = (e.lines.eraseIdx n.toNat).length := by
    rw [List.length_eraseIdx_of_lt hlt, hnum]
  have hdeleted : Refines r' { e with
      lines := e.lines.eraseIdx n.toNat, num := e.num - 1, dirty := true }.toCommand :=
    ⟨hshows, hcount, nofun⟩
  exact ⟨r', _, fun fuel hfuel => congrArg (Option.map _) (hrun fuel hfuel), rfl, hdeleted⟩

theorem insertTyped_agree (h : Refines r e) (hafter : after ≤ e.num) (hline : IsLine line) :
    Agree (fun fuel => insertTyped (memoryStore fuel) (e.on r) after line)
      (insertTyped listStore e after line) := by
  refine .ite (fun _ => (h.setDirty true).toCommand.agree) fun _ =>
    .ite (fun _ => (h.setDirty true).answer _) fun hroom => ?_
  have hnum := h.num
  rw [hnum] at hafter
  have hlt : e.lines.length < MAX_LINES := hnum ▸ Nat.lt_of_not_ge hroom
  obtain ⟨r', hrun, hshows⟩ := insertRow_shows h.shows hafter hlt hline
  rw [← hnum] at hrun
  have hcount : e.num + 1 = (e.lines.insertIdx after line).length := by
    rw [List.length_insertIdx_of_le_length hafter, hnum]
  have hinserted : Refines r' { e.puts (asciiBytes "> ") with
      lines := e.lines.insertIdx after line, num := e.num + 1, prompt := .insert (after + 1) } :=
    ⟨hshows, hcount, fun _ hat => Prompt.insert.inj hat ▸ Nat.succ_le_succ (hnum ▸ hafter)⟩
  exact ⟨r', _, fun fuel hfuel => congrArg (Option.map _) (hrun fuel hfuel), rfl, hinserted⟩

theorem startInsert_agree (h : Refines r e) (hafter : after ≤ e.num) :
    Agree (fun _ => some (startInsert (e.on r) after)) (some (startInsert e after)) :=
  (h.startInsert hafter).agree

theorem execute_agree (h : Refines r e) (canCreate : Bool) (c : Command) :
    Agree (fun fuel => execute (memoryStore fuel) (e.on r) canCreate c)
      (execute listStore e canCreate c) := by
  cases c with
  | print => exact (printLines_agree h fun i hi => List.mem_range.mp hi).toCommand
  | quit => exact .ite (fun _ => h.answer _) fun _ => h.left.agree
  | forceQuit => exact h.left.agree
  | write => exact save_agree h canCreate
  | help => exact h.answer helpText
  | insert n =>
    refine startInsert_agree h ?_
    dsimp only [Editor.on]
    omega
  | append n =>
    refine startInsert_agree h ?_
    dsimp only [Editor.on]
    omega
  | delete v => exact .ite (fun _ => h.answer _) fun _ => deleteLine_agree h (v - 1)
  | line n => exact .ite (fun _ => (listRange_agree h _ _).toCommand) fun _ => h.answer _
  | range m n => exact .ite (fun _ => h.answer _) fun _ => (listRange_agree h _ _).toCommand
  | unknown => exact h.answer _

theorem lineStep_agree {t : Typed} (h : Refines r e) (hline : IsLine t.line) :
    Agree (fun fuel => lineStep (memoryStore fuel) (e.on r) t) (lineStep listStore e t) := by
  have hecho := h.puts t.echo
  have hplace := h.place
  obtain ⟨lines, num, dirty, file, out, prompt⟩ := e
  cases prompt with
  | command => exact execute_agree hecho t.canCreate (parse t.line)
  | insert after => exact insertTyped_agree hecho (hplace after rfl) hline
  | left => exact h.agree

/-- Whatever is typed, the editor with its lines in memory does what the one with a list does. -/
theorem editRun_agree (h : Refines r e) (htyped : ∀ t ∈ typed, IsLine t.line) :
    Agree (fun fuel => editRun (memoryStore fuel) (e.on r) typed) (editRun listStore e typed) := by
  induction typed generalizing r e with
  | nil => exact h.agree
  | cons t typed ih =>
    obtain ⟨ht, htyped⟩ := List.forall_mem_cons.mp htyped
    simp only [editRun, List.foldlM_cons]
    exact (lineStep_agree h ht).bind fun _ _ _ h' => ih h' htyped

-- ---------------------------------------------------------------------------
-- What is not saved
-- ---------------------------------------------------------------------------

/-- With `g_dirty` clear the lines are those of the file, or neither has changed since `lines` were
read of `file`. -/
def Editor.Settled (e : Editor (List (List UInt8))) (lines : List (List UInt8))
    (file : Option (List UInt8)) : Prop :=
  e.dirty = true ∨ e.file = some (joined NEWLINE e.lines) ∨ e.lines = lines ∧ e.file = file

/-- While lines are inserted, `g_dirty` is not set yet. -/
def Editor.Inserting (e : Editor σ) : Prop := ∃ after, e.prompt = .insert after

section Settled

variable {e' : Editor (List (List UInt8))} {lines : List (List UInt8)} {file : Option (List UInt8)}

theorem printLines_same (h : is.foldlM (printLine listStore) e = some e') :
    ∃ text, e' = e.puts text := by
  induction is generalizing e with
  | nil =>
    cases h
    exact ⟨[], by rw [Editor.puts, List.append_nil]⟩
  | cons i is ih =>
    rw [List.foldlM_cons] at h
    obtain ⟨e₁, hline, hrest⟩ := Option.bind_eq_some_iff.mp h
    obtain ⟨w, -, rfl⟩ := Option.map_eq_some_iff.mp hline
    obtain ⟨text, rfl⟩ := ih hrest
    exact ⟨_, Editor.puts_puts ..⟩

theorem printed_settled (hs : e.Settled lines file)
    (h : (is.foldlM (printLine listStore) e).map Editor.toCommand = some e') :
    e'.Settled lines file := by
  obtain ⟨e₁, hrun, rfl⟩ := Option.map_eq_some_iff.mp h
  obtain ⟨text, rfl⟩ := printLines_same hrun
  exact hs

theorem deleteLine_settled {n : Int} (hs : e.Settled lines file)
    (h : deleteLine listStore e n = some e') : e'.Settled lines file := by
  rw [deleteLine] at h
  split at h
  · cases h
    exact hs
  · cases h
    exact .inl rfl

theorem insertTyped_settled (h : insertTyped listStore e after line = some e') :
    e'.Inserting ∨ e'.Settled lines file := by
  rw [insertTyped] at h
  split at h
  · cases h
    exact .inr (.inl rfl)
  · split at h
    · cases h
      exact .inr (.inl rfl)
    · cases h
      exact .inl ⟨after + 1, rfl⟩

theorem execute_settled {canCreate : Bool} {c : Command} (hs : e.Settled lines file)
    (h : execute listStore e canCreate c = some e') :
    e'.Inserting ∨ e'.Settled lines file := by
  cases c with
  | print => exact .inr (printed_settled hs h)
  | quit =>
    rw [execute] at h
    split at h <;> cases h
    · exact .inr hs
    · exact .inr hs
  | write =>
    rw [execute] at h
    split at h <;> cases h
    · exact .inr (.inr (.inl rfl))
    · exact .inr hs
  | insert n =>
    cases h
    exact .inl ⟨_, rfl⟩
  | append n =>
    cases h
    exact .inl ⟨_, rfl⟩
  | delete v =>
    rw [execute] at h
    split at h
    · cases h
      exact .inr hs
    · exact .inr (deleteLine_settled hs h)
  | line n =>
    rw [execute] at h
    split at h
    · exact .inr (printed_settled hs h)
    · cases h
      exact .inr hs
  | range m n =>
    rw [execute] at h
    split at h
    · cases h
      exact .inr hs
    · exact .inr (printed_settled hs h)
  | forceQuit | help | unknown =>
    cases h
    exact .inr hs

theorem editRun_settled (hs : e.Inserting ∨ e.Settled lines file)
    (h : editRun listStore e typed = some e') : e'.Inserting ∨ e'.Settled lines file := by
  induction typed generalizing e with
  | nil =>
    cases h
    exact hs
  | cons t typed ih =>
    rw [editRun, List.foldlM_cons] at h
    obtain ⟨e₁, hstep, hrest⟩ := Option.bind_eq_some_iff.mp h
    refine ih ?_ hrest
    rw [lineStep] at hstep
    split at hstep
    · next hprompt =>
      have hs := hs.resolve_left fun ⟨after, hat⟩ => nomatch hprompt.symm.trans hat
      exact execute_settled (e := e.puts t.echo) hs hstep
    · exact insertTyped_settled hstep
    · cases hstep
      exact hs

end Settled

-- ---------------------------------------------------------------------------
-- The program
-- ---------------------------------------------------------------------------

/-- `main` with the name of a file that can be opened; `typed` is what is read at the prompts. -/
def edit (fuel : Nat) (path : List UInt8) (f : TextFile) (r : Reads f) (buf lines : Bytes)
    (typed : List Typed) : Option (Editor Rows) :=
  (readFile fuel f r buf lines).bind fun s =>
    editRun (memoryStore fuel) (openedEditor path f.bytes ⟨s.mem, s.writes⟩ s.num) typed

theorem char_short {max : Nat} {s : Input} {c : UInt8} (h : s.buf.length < max) :
    (s.char max c).buf.length < max := by
  rw [Input.char]
  split
  · split
    · rw [List.length_dropLast]
      omega
    · exact h
  · split
    · rw [List.length_append, List.length_singleton]
      omega
    · exact h

theorem readLines_isLine (canCreate : Nat → Bool) {s : Input} (hs : s.buf.length < LINE_MAX)
    (input : List UInt8) : ∀ t ∈ readLines LINE_MAX canCreate s input, IsLine t.line := by
  induction input generalizing s with
  | nil => exact fun t ht => absurd ht List.not_mem_nil
  | cons c input ih =>
    rw [readLines]
    split
    · refine List.forall_mem_cons.mpr ⟨⟨fun h0 => ?_, ?_⟩, ih (by decide)⟩
      · simpa using List.mem_takeWhile_imp h0
      · exact (List.takeWhile_prefix _).length_le.trans_lt hs
    · exact ih (char_short hs)

/-- `read_file` has a row for the end of the text: behind 512 newlines it writes to one more. -/
def TextFile.Fits (f : TextFile) : Prop :=
  f.bytes.count NEWLINE < MAX_LINES ∨ f.bytes.getLast? ≠ some NEWLINE

theorem TextFile.Fits.hasRoom {f : TextFile} {rows : List (List UInt8)} {cur : List UInt8}
    (hfits : f.Fits) (h : Split NEWLINE f.bytes rows cur)
    (hcount : f.bytes.count NEWLINE = rows.length) : HasRoom rows cur := by
  by_cases hlt : rows.length < MAX_LINES
  · exact .inl hlt
  · have hrows : rows ≠ [] := by
      rintro rfl
      exact hlt (by decide)
    have hlast := hfits.resolve_left (hcount ▸ hlt)
    exact .inr fun hcur => hlast ((last_newline h).mpr ⟨hrows, hcur⟩)

theorem readFile_refines {f : TextFile} {rows : List (List UInt8)} {cur : List UInt8} (re : Reads f)
    (buf lines : Bytes) (h : Split NEWLINE f.bytes rows cur) (hroom : HasRoom rows cur)
    (path : List UInt8) :
    ∃ s, Returns (fun fuel => readFile fuel f re buf lines) s ∧ s.num = (kept rows cur).length ∧
      Refines ⟨s.mem, s.writes⟩
        (openedEditor path f.bytes (kept rows cur) (kept rows cur).length) := by
  obtain ⟨s, hread, hsaves, hin⟩ := readFile_saves re buf lines h
  refine ⟨s, hread, hsaves.num, ⟨fun k hk => ?_, ?_, hin.mpr hroom⟩, rfl, nofun⟩
  · have hmem := List.getElem_mem hk
    exact ⟨hsaves.row k hk, kept_short hmem, kept_noNul h hmem⟩
  · change (kept rows cur).length ≤ MAX_LINES
    rw [kept, List.length_append, List.length_map, List.length_take]
    split
    · rw [List.length_singleton]
      omega
    · rw [List.length_nil]
      omega

/-- The lines of a text as they come to `g_lines` -/
def keptLines (text : List UInt8) : List (List UInt8) :=
  let lines := text.splitOn NEWLINE
  kept lines.dropLast (lines.getLast?.getD [])

/-- Whatever is typed, the program comes to where the editor of a list is and, `read_file` included,
has only written to `g_lines`. When it ends with `g_dirty` clear, the lines are saved or nothing has
changed. -/
theorem edit_settled (path : List UInt8) {f : TextFile} (hfits : f.Fits) (re : Reads f)
    (buf lines : Bytes) (canCreate : Nat → Bool) (input : List UInt8) :
    ∃ r e, Returns (fun fuel => edit fuel path f re buf lines
        (readLines LINE_MAX canCreate ⟨[], []⟩ input)) (e.on r) ∧
      editRun listStore (openedEditor path f.bytes (keptLines f.bytes) (keptLines f.bytes).length)
        (readLines LINE_MAX canCreate ⟨[], []⟩ input) = some e ∧
      r.Shows e.lines ∧
      (e.prompt = .left → e.dirty = false →
        e.file = some (joined NEWLINE e.lines) ∨
          e.lines = keptLines f.bytes ∧ e.file = some f.bytes) := by
  obtain ⟨rows, cur, hsplit, hlines, hcount⟩ := exists_split NEWLINE f.bytes
  have hkept : keptLines f.bytes = kept rows cur := by simp [keptLines, hlines]
  have htyped := readLines_isLine canCreate (s := ⟨[], []⟩) (by decide) input
  obtain ⟨s, ⟨N, hread⟩, hnum, hstart⟩ := readFile_refines re buf lines hsplit
    (hfits.hasRoom hsplit hcount) path
  rw [← hkept] at hnum hstart
  obtain ⟨r, e, hrun, hlist, hend⟩ := editRun_agree hstart htyped
  refine ⟨r, e, ⟨max N LINE_MAX, fun fuel hfuel => ?_⟩, hlist, hend.shows, fun hleft hclean => ?_⟩
  · refine Option.bind_eq_some_iff.mpr ⟨s, hread fuel (by omega), ?_⟩
    rw [hnum]
    exact hrun fuel (by omega)
  · have hsettled := editRun_settled (.inr (.inr (.inr ⟨rfl, rfl⟩))) hlist
    obtain ⟨after, hat⟩ | hdirty | hsaved := hsettled
    · cases hleft.symm.trans hat
    · cases hclean.symm.trans hdirty
    · exact hsaved

def canAlways : Nat → Bool := fun _ => true

def smallFile : TextFile where
  bytes := [97, NEWLINE]
  noNul := by decide
  short := by decide

theorem edit_settled_small :
    ∃ (r : Rows) (e : Editor (List (List UInt8))), Returns (fun fuel => edit fuel (asciiBytes "f")
        smallFile (readAll smallFile) (fun _ => 0) (fun _ => 0)
        (readLines LINE_MAX canAlways ⟨[], []⟩ (asciiBytes "d 1\nw\nq\n"))) (e.on r) ∧
      r.Shows e.lines := by
  obtain ⟨r, e, hrun, -, hshows, -⟩ := edit_settled (asciiBytes "f") (f := smallFile)
    (.inl (by decide)) (readAll smallFile) (fun _ => 0) (fun _ => 0) canAlways
    (asciiBytes "d 1\nw\nq\n")
  exact ⟨r, e, hrun, hshows⟩

-- ---------------------------------------------------------------------------
-- A text that is typed
-- ---------------------------------------------------------------------------

/-- A line without characters that `readline` does not keep -/
structure Typable (w : List UInt8) : Prop extends IsLine w where
  noNewline : NEWLINE ∉ w
  noBackspace : 0x08 ∉ w

def typedLine (w : List UInt8) : Typed := ⟨w, w ++ [NEWLINE], true⟩

theorem char_kept {c : UInt8} {s : Input} (hc : c ≠ 0x08) (hroom : s.buf.length + 1 < LINE_MAX) :
    s.char LINE_MAX c = ⟨s.buf ++ [c], s.echo ++ [c]⟩ := by
  rw [Input.char, if_neg hc, if_pos (by omega)]

theorem readLines_rest (s : Input) (hbuf : 0 ∉ s.buf) (h0 : 0 ∉ w) (hnl : NEWLINE ∉ w)
    (hback : 0x08 ∉ w) (hroom : s.buf.length + w.length < LINE_MAX) (input : List UInt8) :
    readLines LINE_MAX canAlways s (w ++ NEWLINE :: input) =
      ⟨s.buf ++ w, s.echo ++ w ++ [NEWLINE], true⟩ ::
        readLines LINE_MAX canAlways ⟨[], []⟩ input := by
  induction w generalizing s with
  | nil =>
    have hkept : s.buf.takeWhile (· ≠ 0) = s.buf :=
      List.takeWhile_eq_self_iff.mpr fun c hc => by simpa using fun h : c = 0 => hbuf (h ▸ hc)
    rw [List.nil_append, readLines, if_pos rfl, hkept, List.append_nil, List.append_nil]
    rfl
  | cons c w ih =>
    rw [List.mem_cons, not_or] at h0 hnl hback
    rw [List.length_cons] at hroom
    have hchar := char_kept (Ne.symm hback.1) (s := s) (by omega)
    have hrest := ih ⟨s.buf ++ [c], s.echo ++ [c]⟩ (by simp [hbuf, h0.1]) h0.2 hnl.2 hback.2
      (by simp only [List.length_append, List.length_singleton]; omega)
    rw [List.cons_append, readLines, if_neg (Ne.symm hnl.1), hchar, hrest]
    simp

theorem readLines_line (hw : Typable w) (input : List UInt8) :
    readLines LINE_MAX canAlways ⟨[], []⟩ (w ++ NEWLINE :: input) =
      typedLine w :: readLines LINE_MAX canAlways ⟨[], []⟩ input :=
  readLines_rest ⟨[], []⟩ List.not_mem_nil hw.noNul hw.noNewline hw.noBackspace
    (by simpa using hw.short) input

theorem readLines_joined (hl : ∀ w ∈ l, Typable w) (input : List UInt8) :
    readLines LINE_MAX canAlways ⟨[], []⟩ (joined NEWLINE l ++ input) =
      l.map typedLine ++ readLines LINE_MAX canAlways ⟨[], []⟩ input := by
  induction l with
  | nil => rfl
  | cons w l ih =>
    obtain ⟨hw, hl⟩ := List.forall_mem_cons.mp hl
    rw [joined_cons, List.append_assoc, List.cons_append, readLines_line hw, ih hl, List.map_cons,
      List.cons_append]

theorem insert_lines (hat : e.prompt = .insert e.lines.length) (hnum : e.num = e.lines.length)
    (hdot : asciiBytes "." ∉ l) (hroom : e.lines.length + l.length ≤ MAX_LINES) :
    ∃ e', editRun listStore e (l.map typedLine) = some e' ∧ e'.lines = e.lines ++ l ∧
      e'.num = e'.lines.length ∧ e'.prompt = .insert e'.lines.length := by
  induction l generalizing e with
  | nil => exact ⟨e, rfl, (List.append_nil _).symm, hnum, hat⟩
  | cons w l ih =>
    rw [List.mem_cons, not_or] at hdot
    rw [List.length_cons] at hroom
    obtain ⟨e', hrun, hlines, hend⟩ := ih (e := { (e.puts (w ++ [NEWLINE])).puts (asciiBytes "> ") with
        lines := e.lines ++ [w], num := e.num + 1, prompt := .insert (e.lines.length + 1) })
      (by simp) (by simp [hnum]) hdot.2 (by simp only [List.length_append, List.length_singleton]; omega)
    refine ⟨e', ?_, ?_, hend⟩
    · rw [List.map_cons, editRun, List.foldlM_cons]
      refine Option.bind_eq_some_iff.mpr ⟨_, ?_, hrun⟩
      have hfull : ¬ e.num ≥ MAX_LINES := by omega
      simp [lineStep, hat, typedLine, insertTyped, Ne.symm hdot.1, Editor.puts, hfull, listStore]
    · rw [hlines, List.append_assoc, List.singleton_append]

def typeAndSave (l : List (List UInt8)) : List UInt8 :=
  joined NEWLINE ([asciiBytes "i"] ++ l ++ [asciiBytes ".", asciiBytes "w", asciiBytes "q"])

theorem typable_char {c : UInt8} (h0 : c ≠ 0) (hnl : c ≠ NEWLINE) (hback : c ≠ 0x08) :
    Typable [c] := by
  refine ⟨⟨?_, Nat.lt_of_sub_eq_succ rfl⟩, ?_, ?_⟩
  · exact fun h => h0 (List.mem_singleton.mp h).symm
  · exact fun h => hnl (List.mem_singleton.mp h).symm
  · exact fun h => hback (List.mem_singleton.mp h).symm

theorem save_and_quit (hat : e.prompt = .insert after) :
    ∃ e', editRun listStore e ([asciiBytes ".", asciiBytes "w", asciiBytes "q"].map typedLine) =
      some e' ∧ e'.prompt = .left ∧ e'.file = some (joined NEWLINE e.lines) := by
  obtain ⟨lines, num, dirty, file, out, prompt⟩ := e
  cases hat
  exact ⟨_, rfl, rfl, rfl⟩

theorem typeAndSave_run (hl : ∀ w ∈ l, Typable w) (hdot : asciiBytes "." ∉ l)
    (hroom : l.length ≤ MAX_LINES) :
    ∃ e', editRun listStore (newEditor [])
        (readLines LINE_MAX canAlways ⟨[], []⟩ (typeAndSave l)) = some e' ∧
      e'.prompt = .left ∧ e'.file = some (joined NEWLINE l) := by
  have htypable : ∀ w ∈ [asciiBytes "i"] ++ l ++ [asciiBytes ".", asciiBytes "w", asciiBytes "q"],
      Typable w := by
    intro w hw
    simp only [List.mem_append, List.mem_cons, List.not_mem_nil, or_false] at hw
    obtain (rfl | hw) | rfl | rfl | rfl := hw
    · exact typable_char (by decide) (by decide) (by decide)
    · exact hl w hw
    · exact typable_char (by decide) (by decide) (by decide)
    · exact typable_char (by decide) (by decide) (by decide)
    · exact typable_char (by decide) (by decide) (by decide)
  have hread := readLines_joined htypable []
  rw [List.append_nil, ← typeAndSave] at hread
  obtain ⟨e₁, hinsert, hlines, -, hprompt⟩ := insert_lines (l := l)
    (e := startInsert ((newEditor ([] : List (List UInt8))).puts (asciiBytes "i\n")) 0) rfl rfl hdot
    (by simpa [startInsert, newEditor, Editor.puts] using hroom)
  obtain ⟨e₂, hend, hleft, hfile⟩ := save_and_quit hprompt
  refine ⟨e₂, ?_, hleft, by rw [hfile, hlines]; rfl⟩
  have hfirst : lineStep listStore (newEditor []) (typedLine (asciiBytes "i")) =
      some (startInsert ((newEditor []).puts (asciiBytes "i\n")) 0) := rfl
  rw [hread, editRun, List.map_append, List.map_append, readLines, List.append_nil,
    List.append_assoc, List.foldlM_append, List.map_singleton, List.foldlM_cons, hfirst]
  refine Option.bind_eq_some_iff.mpr ⟨_, rfl, ?_⟩
  rw [List.foldlM_append]
  exact Option.bind_eq_some_iff.mpr ⟨e₁, hinsert, hend⟩

/-- The file has the lines that were typed, and when it is opened again they are in `g_lines`. -/
theorem typed_lines_saved (mem : Bytes) (hl : ∀ w ∈ l, Typable w) (hdot : asciiBytes "." ∉ l)
    (hroom : l.length ≤ MAX_LINES) :
    ∃ (r : Rows) (e : Editor (List (List UInt8))), Enough (fun fuel =>
        editRun (memoryStore fuel) (newEditor ⟨mem, []⟩)
          (readLines LINE_MAX canAlways ⟨[], []⟩ (typeAndSave l))) (e.on r) ∧
      e.prompt = .left ∧ e.file = some (joined NEWLINE l) ∧ r.Inside ∧
      ∀ f : TextFile, f.bytes = joined NEWLINE l → ∀ (re : Reads f) (buf lines : Bytes),
        ∃ s, Returns (fun fuel => readFile fuel f re buf lines) s ∧ s.Saves l ∧
          (s.InTable ↔ l.length < MAX_LINES) := by
  have hstart : Refines ⟨mem, []⟩ (newEditor []) := by
    refine ⟨⟨fun k hk => absurd hk (Nat.not_lt_zero k), Nat.zero_le _, ?_⟩, rfl, nofun⟩
    exact fun a ha => absurd ha List.not_mem_nil
  have htyped := readLines_isLine canAlways (s := ⟨[], []⟩) (by decide) (typeAndSave l)
  obtain ⟨r, e, hrun, hlist, hend⟩ := editRun_agree hstart htyped
  obtain ⟨e', hlist', hleft, hfile⟩ := typeAndSave_run hl hdot hroom
  cases hlist.symm.trans hlist'
  refine ⟨r, e, hrun, hleft, hfile, hend.shows.inside, fun f hf re buf lines => ?_⟩
  have hsplit : Split NEWLINE f.bytes l [] :=
    ⟨by rw [hf, List.append_nil], fun w hw => (hl w hw).noNewline, List.not_mem_nil⟩
  obtain ⟨s, hread, hsaves, hin⟩ := readFile_saves re buf lines hsplit
  have hcut : l.map cutLine = l :=
    map_take_of_short fun w hw => Nat.le_sub_one_of_lt (hl w hw).short
  have hkept : kept l [] = l := by
    rw [kept, List.take_of_length_le hroom, hcut, if_neg fun h => h.2 rfl, List.append_nil]
  exact ⟨s, hread, hkept ▸ hsaves, hin.trans (or_iff_left fun h => h rfl)⟩

theorem typed_lines_saved_two :
    ∃ (r : Rows) (e : Editor (List (List UInt8))), Enough (fun fuel =>
        editRun (memoryStore fuel) (newEditor ⟨fun _ => 0, []⟩)
          (readLines LINE_MAX canAlways ⟨[], []⟩ (asciiBytes "i\nab\n\n.\nw\nq\n"))) (e.on r) ∧
      e.file = some (asciiBytes "ab\n\n") := by
  have htypable : ∀ w ∈ [asciiBytes "ab", []], Typable w := by
    intro w hw
    simp only [List.mem_cons, List.not_mem_nil, or_false] at hw
    obtain rfl | rfl := hw
    · exact ⟨⟨by decide, by decide⟩, by decide, by decide⟩
    · exact ⟨⟨by decide, by decide⟩, by decide, by decide⟩
  obtain ⟨r, e, hrun, -, hfile, -⟩ :=
    typed_lines_saved (fun _ => 0) htypable (by decide) (by decide)
  exact ⟨r, e, hrun, hfile⟩

end EponaOS.User.Edit
