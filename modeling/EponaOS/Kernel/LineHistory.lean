import EponaOS.Kernel.Readline
import EponaOS.Lib.Run
import Mathlib.Data.List.GetD

/-!
# The history behind the arrow keys

What the user may expect of UP and DOWN: the recorded lines, the most recent first, and how deep
the line is that is shown. `g_hist_idx` is only set when a line is recorded and not when a line
begins, and it goes down to lines whose slots were used again.
-/

namespace EponaOS.Kernel

open Drivers
open Function (update)

-- ---------------------------------------------------------------------------
-- What is expected
-- ---------------------------------------------------------------------------

/-- The lines that are recorded, the most recent first, and the one that is shown; 0 is the new
line. -/
structure Recall where
  recorded : List (List UInt8)
  depth : Nat

def Recall.stored (r : Recall) : Nat := min HIST_MAX r.recorded.length

def Recall.lineAt (r : Recall) (k : Nat) : List UInt8 :=
  if k = 0 then [] else r.recorded.getD (k - 1) []

def Recall.record (r : Recall) (line : List UInt8) : Recall :=
  if line = [] ∨ r.recorded.head? = some line then r else ⟨line :: r.recorded, 0⟩

def Recall.key (r : Recall) (c : Nat) : Recall :=
  if c = KEY_UP then { r with depth := min (r.depth + 1) r.stored }
  else if c = KEY_DOWN then { r with depth := r.depth - 1 }
  -- Ctrl+C begins a new line
  else if c = 3 then { r with depth := 0 }
  else r

-- ---------------------------------------------------------------------------
-- Runs of the shell
-- ---------------------------------------------------------------------------

inductive LineAct
  /-- `keyboard_getc` returns a key that is no newline. -/
  | key (c : Nat)
  | enter
  /-- A command writes to the console. -/
  | output (con : Console)
  /-- A terminal of the desktop, which is a command too, dispatches a line. -/
  | dispatch (line : List UInt8)
  /-- `readline` is called again. -/
  | start

structure LineState where
  sh : Shell
  reading : Bool
  expected : Recall

def LineState.boot (con : Console) : LineState :=
  ⟨⟨.boot, [], 0, con⟩, false, ⟨[], 0⟩⟩

def lineAct (s : LineState) : LineAct → Option LineState
  | .key c =>
    if s.reading ∧ c ≠ 0x0A then
      some { s with sh := readlineKey s.sh c, expected := s.expected.key c }
    else none
  | .enter =>
    if s.reading then
      some ⟨readlineEnter s.sh, false, s.expected.record s.sh.buf⟩
    else none
  | .output con => if s.reading then none else some { s with sh := { s.sh with con } }
  | .dispatch line =>
    if s.reading ∨ line.length ≥ SHELL_LINE_MAX then none
    else some
      { s with
        sh := { s.sh with hist := historyAdd s.sh.hist line }
        expected := s.expected.record line }
  | .start =>
    if s.reading then none
    else some ⟨readlineStart s.sh, true, { s.expected with depth := 0 }⟩

def lineStep (s : LineState) (a : LineAct) (s' : LineState) : Prop := lineAct s a = some s'

/-- `readline` shows the line instead of the one in `sh`. -/
structure ShowsLine (sh sh' : Shell) (line : List UInt8) : Prop where
  buf : sh'.buf = line
  cpos : sh'.cpos = line.length
  con : sh'.con = shellRedrawLine sh.con line line.length

/-- UP shows the next older line as long as one is stored, DOWN the next newer one, and where
there is none nothing changes. -/
def Faithful (s : LineState) (a : LineAct) (s' : LineState) : Prop :=
  match a with
  | .key c =>
    (c = KEY_UP →
      if s.expected.depth < s.expected.stored then
        ShowsLine s.sh s'.sh (s.expected.lineAt (s.expected.depth + 1))
      else s'.sh = s.sh) ∧
    (c = KEY_DOWN →
      if 0 < s.expected.depth then ShowsLine s.sh s'.sh (s.expected.lineAt (s.expected.depth - 1))
      else s'.sh = s.sh)
  | _ => True

/-- A new line begins only where the last one was recorded or no other line is shown, UP is not
pressed at the oldest stored line when older ones were recorded, and an `int` counts the lines. -/
def Undisturbed (s : LineState) : LineAct → Prop
  | .key c =>
    (c = KEY_UP → s.expected.depth = HIST_MAX → s.expected.recorded.length ≤ HIST_MAX) ∧
    (c = 3 → s.expected.depth = 0)
  | .enter => s.expected.recorded.length + 1 < 2 ^ 31
  | .output _ => True
  | .dispatch _ => s.expected.recorded.length + 1 < 2 ^ 31
  | .start => s.expected.depth = 0

-- ---------------------------------------------------------------------------
-- The ring
-- ---------------------------------------------------------------------------

variable {h : History} {r : Recall}

/-- The slots have the recorded lines, and `g_hist_idx` stands at the one that is shown. -/
structure Tracks (h : History) (r : Recall) : Prop where
  count : h.count = r.recorded.length
  small : r.recorded.length < 2 ^ 31
  idx : h.idx = r.recorded.length - r.depth
  depth : r.depth ≤ r.stored
  slot : ∀ k < r.stored,
    h.lines (((r.recorded.length - 1 - k) % HIST_MAX : Nat) : Int) = r.recorded.getD k []
  short : ∀ l ∈ r.recorded, l.length < SHELL_LINE_MAX

theorem tmod_slot (n : Nat) : (n : Int).tmod HIST_MAX = ((n % HIST_MAX : Nat) : Int) :=
  (Int.ofNat_tmod n HIST_MAX).symm

theorem tracks_boot : Tracks .boot ⟨[], 0⟩ where
  count := rfl
  small := Nat.two_pow_pos 31
  idx := rfl
  depth := Nat.zero_le _
  slot k hk := absurd hk (Nat.not_lt_zero k)
  short _ hl := by cases hl

theorem Tracks.get (ht : Tracks h r) (hk : k < r.stored) :
    historyGet h ((r.recorded.length - 1 - k : Nat) : Int) = r.recorded.getD k [] := by
  have hlen : k < r.recorded.length := by
    rw [Recall.stored] at hk
    omega
  rw [historyGet, ht.count, if_neg (by omega), tmod_slot, ht.slot k hk]

theorem Tracks.last (ht : Tracks h r) (line : List UInt8) :
    (h.count > 0 ∧ h.lines ((h.count - 1).tmod HIST_MAX) = line) ↔
      r.recorded.head? = some line := by
  have hcount := ht.count
  cases hrec : r.recorded with
  | nil =>
    rw [hrec] at hcount
    simp [hcount]
  | cons l ls =>
    have hslot := ht.slot 0 (by rw [Recall.stored, hrec]; exact Nat.lt_min.mpr ⟨by decide, by simp⟩)
    rw [hrec] at hcount hslot
    have hpred : h.count - 1 = ((ls.length : Nat) : Int) := by
      rw [hcount, List.length_cons]
      omega
    rw [hpred, tmod_slot, List.head?_cons, Option.some.injEq]
    have hslot' : h.lines ((ls.length % HIST_MAX : Nat) : Int) = l := hslot
    rw [hslot']
    constructor
    · exact fun h => h.2
    · intro heq
      refine ⟨?_, heq⟩
      rw [hcount, List.length_cons]
      omega

theorem wrapInt_small {n : Nat} (hn : n < 2 ^ 31) : wrapInt n = n := by
  rw [wrapInt, Int.bmod_eq_of_le_mul_two]
  · omega
  · omega

theorem Tracks.record (ht : Tracks h r) (hline : line.length < SHELL_LINE_MAX)
    (hsmall : r.recorded.length + 1 < 2 ^ 31) : Tracks (historyAdd h line) (r.record line) := by
  rw [historyAdd, Recall.record]
  by_cases hempty : line = []
  · rw [if_pos hempty, if_pos (.inl hempty)]
    exact ht
  by_cases hlast : r.recorded.head? = some line
  · rw [if_neg hempty, if_pos ((ht.last line).mpr hlast), if_pos (.inr hlast)]
    exact ht
  rw [if_neg hempty, if_neg (mt (ht.last line).mp hlast), if_neg (by simp [hempty, hlast])]
  have hcount : wrapInt (h.count + 1) = ((r.recorded.length + 1 : Nat) : Int) := by
    rw [ht.count, ← wrapInt_small hsmall]
    rfl
  have hwhole : line.take (SHELL_LINE_MAX - 1) = line := List.take_of_length_le (by omega)
  refine ⟨hcount, hsmall, ?_, Nat.zero_le _, fun k hk => ?_, fun l hl => ?_⟩
  · rw [hcount]
    exact (Int.sub_zero _).symm
  · rw [Recall.stored] at hk
    simp only [List.length_cons, Nat.lt_min] at hk
    simp only [List.length_cons, Nat.add_sub_cancel]
    rw [ht.count, tmod_slot, hwhole]
    cases k with
    | zero => exact Function.update_self ..
    | succ k =>
      have hk8 : k + 1 < 8 := hk.1
      have hne : ((r.recorded.length - (k + 1)) % HIST_MAX : Nat) ≠
          r.recorded.length % HIST_MAX := by
        rw [HIST_MAX]
        omega
      rw [Function.update_of_ne (fun heq => hne (Int.ofNat_inj.mp heq)), List.getD_cons_succ,
        ← ht.slot k (Nat.lt_min.mpr ⟨by omega, by omega⟩),
        show r.recorded.length - (k + 1) = r.recorded.length - 1 - k by omega]
  · obtain rfl | hl := List.mem_cons.mp hl
    · exact hline
    · exact ht.short l hl

-- ---------------------------------------------------------------------------
-- The arrow keys
-- ---------------------------------------------------------------------------

theorem Tracks.recall_at {sh : Shell} (ht : Tracks sh.hist r) (hk : k ≤ r.stored) :
    Tracks (sh.recall ((r.recorded.length : Int) - k)).hist { r with depth := k } ∧
    (sh.recall ((r.recorded.length : Int) - k)).buf = r.lineAt k ∧
    (sh.recall ((r.recorded.length : Int) - k)).cpos = (r.lineAt k).length ∧
    (sh.recall ((r.recorded.length : Int) - k)).con = sh.con := by
  have hline : historyGet sh.hist ((r.recorded.length : Int) - k) = r.lineAt k := by
    rw [Recall.lineAt]
    split
    · next hzero =>
      rw [historyGet, ht.count, if_pos (.inr (by omega))]
    · next hpos =>
      have hlen : k ≤ r.recorded.length := Nat.le_trans hk (Nat.min_le_right ..)
      rw [← ht.get (k := k - 1) (by omega)]
      congr 1
      omega
  have hshort : (r.lineAt k).length < SHELL_LINE_MAX := by
    rw [Recall.lineAt]
    split
    · decide
    · next hpos =>
      have hlen : k ≤ r.recorded.length := Nat.le_trans hk (Nat.min_le_right ..)
      rw [List.getD_eq_getElem _ _ (by omega)]
      exact ht.short _ (List.getElem_mem _)
  refine ⟨⟨ht.count, ht.small, rfl, hk, ht.slot, ht.short⟩, ?_, ?_, rfl⟩
  · rw [Shell.recall, hline, if_neg (by omega)]
    exact List.take_length
  · rw [Shell.recall, hline, if_neg (by omega)]

theorem readlineKey_up (sh : Shell) : readlineKey sh KEY_UP =
    if sh.hist.idx > 0 then
      let sh' := sh.recall (sh.hist.idx - 1)
      { sh' with con := shellRedrawLine sh'.con sh'.buf sh'.cpos }
    else sh := by
  have hedit : readlineEdit sh KEY_UP =
      if sh.hist.idx > 0 then some (sh.recall (sh.hist.idx - 1)) else none := rfl
  by_cases hidx : sh.hist.idx > 0
  · rw [readlineKey, hedit, if_pos hidx, if_pos hidx]
  · rw [readlineKey, hedit, if_neg hidx, if_neg hidx]

theorem readlineKey_down (sh : Shell) : readlineKey sh KEY_DOWN =
    if sh.hist.idx < sh.hist.count then
      let sh' := sh.recall (sh.hist.idx + 1)
      { sh' with con := shellRedrawLine sh'.con sh'.buf sh'.cpos }
    else sh := by
  have hedit : readlineEdit sh KEY_DOWN =
      if sh.hist.idx < sh.hist.count then some (sh.recall (sh.hist.idx + 1)) else none := rfl
  by_cases hidx : sh.hist.idx < sh.hist.count
  · rw [readlineKey, hedit, if_pos hidx, if_pos hidx]
  · rw [readlineKey, hedit, if_neg hidx, if_neg hidx]

theorem Tracks.up {sh : Shell} (ht : Tracks sh.hist r)
    (hold : r.depth = HIST_MAX → r.recorded.length ≤ HIST_MAX) :
    Tracks (readlineKey sh KEY_UP).hist (r.key KEY_UP) ∧
    if r.depth < r.stored then ShowsLine sh (readlineKey sh KEY_UP) (r.lineAt (r.depth + 1))
    else readlineKey sh KEY_UP = sh := by
  have hidx := ht.idx
  have hdepth := ht.depth
  have hkey : r.key KEY_UP = { r with depth := min (r.depth + 1) r.stored } := rfl
  have hstored : r.stored = min HIST_MAX r.recorded.length := rfl
  rw [readlineKey_up, hkey]
  by_cases hlt : r.depth < r.stored
  · have hpos : sh.hist.idx > 0 := by omega
    have hpred : sh.hist.idx - 1 = (r.recorded.length : Int) - (r.depth + 1 : Nat) := by omega
    obtain ⟨htrack, hbuf, hcpos, hcon⟩ := ht.recall_at (k := r.depth + 1) hlt
    rw [if_pos hpos, if_pos hlt, hpred, Nat.min_eq_left hlt]
    exact ⟨htrack, hbuf, hcpos, by simp only [hbuf, hcpos, hcon]⟩
  · have heq : r.depth = r.stored := by omega
    have hmin : min (r.depth + 1) r.stored = r.depth := by omega
    have hzero : ¬ sh.hist.idx > 0 := by omega
    rw [if_neg hzero, if_neg hlt, hmin]
    exact ⟨ht, rfl⟩

theorem Tracks.down {sh : Shell} (ht : Tracks sh.hist r) :
    Tracks (readlineKey sh KEY_DOWN).hist (r.key KEY_DOWN) ∧
    if 0 < r.depth then ShowsLine sh (readlineKey sh KEY_DOWN) (r.lineAt (r.depth - 1))
    else readlineKey sh KEY_DOWN = sh := by
  have hidx := ht.idx
  have hcount := ht.count
  have hdepth := ht.depth
  have hkey : r.key KEY_DOWN = { r with depth := r.depth - 1 } := rfl
  rw [readlineKey_down, hkey]
  by_cases hpos : 0 < r.depth
  · have hlt : sh.hist.idx < sh.hist.count := by omega
    have hnext : sh.hist.idx + 1 = (r.recorded.length : Int) - (r.depth - 1 : Nat) := by omega
    obtain ⟨htrack, hbuf, hcpos, hcon⟩ := ht.recall_at (k := r.depth - 1) (by omega)
    rw [if_pos hlt, if_pos hpos, hnext]
    exact ⟨htrack, hbuf, hcpos, by simp only [hbuf, hcpos, hcon]⟩
  · have hzero : r.depth = 0 := by omega
    have hend : ¬ sh.hist.idx < sh.hist.count := by omega
    rw [if_neg hend, if_neg hpos, show r.depth - 1 = r.depth by omega]
    exact ⟨ht, rfl⟩

theorem readlineKey_hist (sh : Shell) (hup : c ≠ KEY_UP) (hdown : c ≠ KEY_DOWN) :
    (readlineKey sh c).hist = sh.hist := by
  rw [readlineKey]
  split
  · next sh' hedit =>
    obtain ⟨h, -, -⟩ | ⟨h, -, -⟩ | ⟨-, rfl⟩ | ⟨-, -, -, hedited⟩ := readlineEdit_cases hedit
    · exact absurd h hup
    · exact absurd h hdown
    · rfl
    · exact hedited.hist
  · rfl

-- ---------------------------------------------------------------------------
-- Every run
-- ---------------------------------------------------------------------------

structure LineState.Ok (s : LineState) : Prop where
  tracks : Tracks s.sh.hist s.expected
  inBuffer : s.sh.InBuffer

theorem LineState.boot_ok (con : Console) : (LineState.boot con).Ok :=
  ⟨tracks_boot, Nat.two_pow_pos 8, Nat.le_refl _⟩

theorem Tracks.reset (ht : Tracks h r) (hzero : r.depth = 0) : Tracks h { r with depth := 0 } := by
  rw [← hzero]
  exact ht

variable {s s' : LineState}

theorem LineState.Ok.key (hs : s.Ok) (hok : Undisturbed s (.key c)) :
    Tracks (readlineKey s.sh c).hist (s.expected.key c) := by
  by_cases hup : c = KEY_UP
  · rw [hup]
    exact (hs.tracks.up (hok.1 hup)).1
  by_cases hdown : c = KEY_DOWN
  · rw [hdown]
    exact hs.tracks.down.1
  rw [readlineKey_hist s.sh hup hdown, Recall.key, if_neg hup, if_neg hdown]
  split
  · next hctrl => exact hs.tracks.reset (hok.2 hctrl)
  · exact hs.tracks

theorem lineStep_cases (h : lineStep s a s') :
    match a with
    | .key c =>
      (s.reading = true ∧ c ≠ 0x0A) ∧
        s' = { s with sh := readlineKey s.sh c, expected := s.expected.key c }
    | .enter => s.reading = true ∧ s' = ⟨readlineEnter s.sh, false, s.expected.record s.sh.buf⟩
    | .output con => s.reading ≠ true ∧ s' = { s with sh := { s.sh with con } }
    | .dispatch line =>
      (s.reading ≠ true ∧ line.length < SHELL_LINE_MAX) ∧
        s' =
          { s with
            sh := { s.sh with hist := historyAdd s.sh.hist line }
            expected := s.expected.record line }
    | .start =>
      s.reading ≠ true ∧ s' = ⟨readlineStart s.sh, true, { s.expected with depth := 0 }⟩ := by
  cases a with
  | key c =>
    obtain ⟨hguard, heq⟩ := Option.ite_none_right_eq_some.mp h
    exact ⟨hguard, (Option.some.inj heq).symm⟩
  | enter =>
    obtain ⟨hguard, heq⟩ := Option.ite_none_right_eq_some.mp h
    exact ⟨hguard, (Option.some.inj heq).symm⟩
  | output con =>
    obtain ⟨hguard, heq⟩ := Option.ite_none_left_eq_some.mp h
    exact ⟨hguard, (Option.some.inj heq).symm⟩
  | dispatch line =>
    obtain ⟨hguard, heq⟩ := Option.ite_none_left_eq_some.mp h
    rw [not_or, Nat.not_le] at hguard
    exact ⟨hguard, (Option.some.inj heq).symm⟩
  | start =>
    obtain ⟨hguard, heq⟩ := Option.ite_none_left_eq_some.mp h
    exact ⟨hguard, (Option.some.inj heq).symm⟩

theorem readlineEnter_hist (sh : Shell) :
    (readlineEnter sh).hist = historyAdd sh.hist sh.buf := by
  rw [readlineEnter]
  split
  · next hempty =>
    have hbuf : sh.buf = [] := hempty
    rw [historyAdd, if_pos hbuf]
  · rfl

theorem readlineEnter_line (sh : Shell) :
    (readlineEnter sh).buf = sh.buf ∧ (readlineEnter sh).cpos = sh.cpos := by
  rw [readlineEnter]
  split <;> exact ⟨rfl, rfl⟩

theorem LineState.Ok.step (hs : s.Ok) (hok : Undisturbed s a) (h : lineStep s a s') : s'.Ok := by
  cases a with
  | key c =>
    obtain ⟨-, rfl⟩ := lineStep_cases h
    exact ⟨hs.key hok, readlineKey_inBuffer hs.inBuffer c⟩
  | enter =>
    obtain ⟨-, rfl⟩ := lineStep_cases h
    obtain ⟨hbuf, hcpos⟩ := readlineEnter_line s.sh
    refine ⟨?_, ?_, ?_⟩
    · rw [readlineEnter_hist]
      exact hs.tracks.record hs.inBuffer.short hok
    · rw [hbuf]
      exact hs.inBuffer.short
    · rw [hbuf, hcpos]
      exact hs.inBuffer.cpos
  | output con =>
    obtain ⟨-, rfl⟩ := lineStep_cases h
    exact ⟨hs.tracks, hs.inBuffer.short, hs.inBuffer.cpos⟩
  | dispatch line =>
    obtain ⟨⟨-, hshort⟩, rfl⟩ := lineStep_cases h
    exact ⟨hs.tracks.record hshort hok, hs.inBuffer.short, hs.inBuffer.cpos⟩
  | start =>
    obtain ⟨-, rfl⟩ := lineStep_cases h
    exact ⟨hs.tracks.reset hok, Nat.zero_lt_of_lt hs.inBuffer.short, Nat.le_refl _⟩

theorem LineState.Ok.faithful (hs : s.Ok) (hok : Undisturbed s a) (h : lineStep s a s') :
    Faithful s a s' := by
  cases a with
  | key c =>
    obtain ⟨-, rfl⟩ := lineStep_cases h
    refine ⟨fun hup => ?_, fun hdown => ?_⟩
    · rw [hup]
      exact (hs.tracks.up (hok.1 hup)).2
    · rw [hdown]
      exact hs.tracks.down.2
  | enter => trivial
  | output _ => trivial
  | dispatch _ => trivial
  | start => trivial

/-- In an undisturbed run every arrow key shows the line that is expected. -/
theorem history_faithful (hrun : Run lineStep Undisturbed (.boot con) acts s)
    (hok : Undisturbed s a) (hstep : lineStep s a s') : Faithful s a s' := by
  have hs : s.Ok := hrun.invariant LineState.Ok (LineState.boot_ok con)
    fun _ _ _ hs hok hstep => hs.step hok hstep
  exact hs.faithful hok hstep

def LineState.after (s : LineState) (a : LineAct) : LineState := (lineAct s a).getD s

theorem run_after (hok : ok s a) (h : (lineAct s a).isSome = true)
    (hrun : Run lineStep ok (s.after a) acts s') : Run lineStep ok s (a :: acts) s' := by
  refine .cons hok ?_ hrun
  obtain ⟨t, ht⟩ := Option.isSome_iff_exists.mp h
  rw [lineStep, LineState.after, ht]
  rfl

def afterOneLine : LineState :=
  [LineAct.start, .key 0x61, .enter, .start].foldl LineState.after (.boot textConsole)

/-- UP shows `a`. -/
theorem history_faithful_one :
    (∃ acts, Run lineStep Undisturbed (.boot textConsole) acts afterOneLine) ∧
    Undisturbed afterOneLine (.key KEY_UP) ∧
    lineStep afterOneLine (.key KEY_UP) (afterOneLine.after (.key KEY_UP)) ∧
    Faithful afterOneLine (.key KEY_UP) (afterOneLine.after (.key KEY_UP)) := by
  have hrun : Run lineStep Undisturbed (.boot textConsole) [.start, .key 0x61, .enter, .start]
      afterOneLine := by
    refine run_after rfl rfl (run_after ⟨by decide, by decide⟩ rfl (run_after ?_ rfl
      (run_after ?_ rfl .nil)))
    · exact (by decide : 0 + 1 < 2 ^ 31)
    · rfl
  have hok : Undisturbed afterOneLine (.key KEY_UP) := by
    refine ⟨fun _ => ?_, fun h => absurd h (by decide)⟩
    decide +kernel
  have hstep : lineStep afterOneLine (.key KEY_UP) (afterOneLine.after (.key KEY_UP)) := rfl
  exact ⟨⟨_, hrun⟩, hok, hstep, history_faithful hrun hok hstep⟩

/-- A new line behind the lines `a` and `b`, and `b` again by UP and Enter. -/
def afterRepeat : LineState :=
  [LineAct.start, .key 0x61, .enter, .start, .key 0x62, .enter, .start, .key KEY_UP, .enter,
    .start].foldl LineState.after (.boot textConsole)

/-- UP shows `a` there, which is not the most recent line. -/
theorem repeated_line_skipped :
    ¬ ∀ acts s a s', Run lineStep (fun _ _ => True) (.boot textConsole) acts s →
      lineStep s a s' → Faithful s a s' := by
  intro h
  have hrun : Run lineStep (fun _ _ => True) (.boot textConsole)
      [.start, .key 0x61, .enter, .start, .key 0x62, .enter, .start, .key KEY_UP, .enter, .start]
      afterRepeat := by
    repeat refine run_after trivial rfl ?_
    exact .nil
  have hfaithful := (h _ _ (.key KEY_UP) (afterRepeat.after (.key KEY_UP)) hrun rfl).1 rfl
  rw [if_pos (by decide +kernel)] at hfaithful
  have := hfaithful.buf
  revert this
  decide +kernel

end EponaOS.Kernel
