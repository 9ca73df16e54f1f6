import EponaOS.Kernel.LineHistory
import Mathlib.Tactic.Ring

/-!
# The line on the screen

`shell_redraw_line` goes back to the start of the row with a carriage return. This is the start of
the prompt as long as the prompt and the line end in front of the last column; a longer line is
wrapped, and the next prompt is printed in a row below.
-/

namespace EponaOS.Kernel

open Drivers

/-- `epona@epona:~$ ` -/
def promptText : List UInt8 := promptUser ++ ([0x3A] ++ ([0x7E] ++ [0x24, 0x20]))

/-- The cursor, counted in cells from the top of everything that was ever shown. -/
def cursorOffset (con : Console) : Nat := (con.row + con.scrolled) * con.cols + con.col

-- ---------------------------------------------------------------------------
-- What is to be seen
-- ---------------------------------------------------------------------------

def cellFrom (con : Console) (start i : Nat) : Nat × Nat :=
  ((start + i) / con.cols - con.scrolled, (start + i) % con.cols)

/-- From `start` on there are the prompt, the buffer and a blank, and the cursor is at `cpos`. -/
structure ShownAs (start : Nat) (con : Console) (buf : List UInt8) (cpos : Nat) : Prop where
  first : con.scrolled * con.cols ≤ start
  last : (start + 15 + buf.length) / con.cols < con.rows + con.scrolled
  text : ∀ i < 15 + buf.length,
    (con.cells (cellFrom con start i)).ch = (promptText ++ buf).getD i 0
  blank : (con.cells (cellFrom con start (15 + buf.length))).ch = 0x20
  cursor : cursorOffset con = start + 15 + cpos

/-- The cursor is in the row that the prompt starts, and the line ends in front of the last
column, or there is a blank already in that one. -/
def FitsRow (start : Nat) (con : Console) (buf : List UInt8) : Prop :=
  start = (con.row + con.scrolled) * con.cols ∧
  (15 + buf.length + 1 < con.cols ∨
    15 + buf.length + 1 = con.cols ∧ (con.cells (con.row, con.cols - 1)).ch = 0x20)

variable {v : Viewport} {es : List ConsoleEvent} {con con' con'' : Console} {text : List UInt8}

-- ---------------------------------------------------------------------------
-- Where the cursor goes
-- ---------------------------------------------------------------------------

theorem gpuPutc_printable (con : Console) (hb : IsPrintable b) :
    gpuPutc con b = scrollIfBelow (advance (drawCell con con.row con.col b)) := by
  have hne (k : UInt8) (hk : ¬ IsPrintable k) : b ≠ k := fun heq => hk (heq ▸ hb)
  rw [gpuPutc, if_neg (hne _ (by decide)), if_neg (hne _ (by decide)), if_neg (hne _ (by decide)),
    if_neg (hne _ (by decide))]

theorem scrollIfBelow_of_lt (con : Console) (h : con.row < con.rows) : scrollIfBelow con = con :=
  if_neg (Nat.not_le_of_lt h)

theorem gpuPutc_return (hrow : con.row < con.rows) : gpuPutc con 0x0D = { con with col := 0 } :=
  scrollIfBelow_of_lt { con with col := 0 } hrow

theorem consoleScroll_cursor (hrow : con.row = con.rows) (hpos : 0 < con.rows) :
    (consoleScroll con).row + (consoleScroll con).scrolled = con.row + con.scrolled ∧
    (consoleScroll con).col = con.col := by
  have hlt := con.rows_lt
  rw [consoleScroll]
  rw [Viewport.rows] at hrow hpos hlt
  split
  · next hfb =>
    rw [if_pos hfb] at hrow hpos hlt
    rw [fbScroll, sizePred_eq hpos hlt]
    refine ⟨?_, ?_⟩
    · simp only
      omega
    · simp only
      split <;> rfl
  · next hfb =>
    rw [if_neg hfb] at hrow
    refine ⟨?_, rfl⟩
    simp only [hrow, VGA_ROWS]
    omega

theorem scrollIfBelow_offset (hrow : con.row ≤ con.rows) (hpos : 0 < con.rows)
    (hview : (scrollIfBelow con).toViewport = con.toViewport) :
    cursorOffset (scrollIfBelow con) = cursorOffset con := by
  rw [cursorOffset, cursorOffset, hview, scrollIfBelow]
  split
  · obtain ⟨habs, hcol⟩ := consoleScroll_cursor (Nat.le_antisymm hrow (by assumption)) hpos
    rw [habs, hcol]
  · rfl

theorem offset_putc (h : Inside v es con) (hb : IsPrintable b) :
    cursorOffset (gpuPutc con b) = cursorOffset con + 1 := by
  have hview : (gpuPutc con b).toViewport = con.toViewport := by rw [(h.gpuPutc b).view, h.view]
  have hrow := h.row
  have hcol := h.col
  rw [← h.view] at hrow hcol
  have hadvance : (advance (drawCell con con.row con.col b)).toViewport = con.toViewport ∧
      (advance (drawCell con con.row con.col b)).row ≤ con.rows ∧
      cursorOffset (advance (drawCell con con.row con.col b)) = cursorOffset con + 1 := by
    rw [advance]
    have hcols : (drawCell con con.row con.col b).cols = con.cols := rfl
    have hdcol : (drawCell con con.row con.col b).col = con.col := rfl
    rw [hcols, hdcol]
    split
    · next hend =>
      refine ⟨rfl, hrow, ?_⟩
      have heq : con.cols = con.col + 1 := by omega
      change (con.row + 1 + con.scrolled) * con.cols + 0 =
        (con.row + con.scrolled) * con.cols + con.col + 1
      rw [show con.row + 1 + con.scrolled = con.row + con.scrolled + 1 by omega, Nat.succ_mul]
      omega
    · exact ⟨rfl, Nat.le_of_lt hrow, rfl⟩
  obtain ⟨hview', hrow', hoffset⟩ := hadvance
  rw [gpuPutc_printable con hb] at hview ⊢
  rw [scrollIfBelow_offset _ _ (hview.trans hview'.symm), hoffset]
  · rw [hview']
    exact hrow'
  · rw [hview']
    omega

theorem offset_print (text : List UInt8) (h : Inside v es con)
    (htext : ∀ b ∈ text, IsPrintable b) :
    Inside v es (gpuPrint con text) ∧
    cursorOffset (gpuPrint con text) = cursorOffset con + text.length := by
  rw [gpuPrint]
  induction text generalizing con with
  | nil => exact ⟨h, rfl⟩
  | cons b text ih =>
    obtain ⟨hin, hoffset⟩ := ih (h.gpuPutc b) fun b' hb' => htext b' (List.mem_cons_of_mem _ hb')
    refine ⟨hin, ?_⟩
    rw [List.foldl_cons, hoffset, offset_putc h (htext b (List.mem_cons_self ..)), List.length_cons]
    omega

theorem printable_of_all (h : text.all (fun b => decide (IsPrintable b)) = true) :
    ∀ b ∈ text, IsPrintable b := fun b hb => of_decide_eq_true (List.all_eq_true.mp h b hb)

theorem offset_prompt (h : Inside v es con) :
    Inside v es (shellPrintPrompt con) ∧
    cursorOffset (shellPrintPrompt con) = cursorOffset con + 15 := by
  obtain ⟨h1, e1⟩ := offset_print promptUser (h.gpuSetColor 0x0A 0x00) (printable_of_all rfl)
  obtain ⟨h2, e2⟩ := offset_print [0x3A] (h1.gpuSetColor 0x0F 0x00) (printable_of_all rfl)
  obtain ⟨h3, e3⟩ := offset_print [0x7E] (h2.gpuSetColor 0x0B 0x00) (printable_of_all rfl)
  obtain ⟨h4, e4⟩ := offset_print [0x24, 0x20] (h3.gpuSetColor 0x0F 0x00) (printable_of_all rfl)
  refine ⟨h4, ?_⟩
  have hcolor (con : Console) (fg bg : UInt8) :
      cursorOffset (gpuSetColor con fg bg) = cursorOffset con := rfl
  rw [hcolor] at e1 e2 e3 e4
  rw [shellPrintPrompt, e4, e3, e2, e1]
  rfl

-- ---------------------------------------------------------------------------
-- Within a row
-- ---------------------------------------------------------------------------

/-- `text` was printed in the cursor's row, and nothing else was changed. -/
structure Wrote (con con' : Console) (text : List UInt8) : Prop where
  view : con'.toViewport = con.toViewport
  scrolled : con'.scrolled = con.scrolled
  row : con'.row = con.row
  col : con'.col = con.col + text.length
  here : ∀ i < text.length, (con'.cells (con.row, con.col + i)).ch = text.getD i 0
  other : ∀ p : Nat × Nat, ¬ (p.1 = con.row ∧ con.col ≤ p.2 ∧ p.2 < con.col + text.length) →
    con'.cells p = con.cells p

theorem Wrote.nil (con : Console) : Wrote con con [] :=
  ⟨rfl, rfl, rfl, rfl, fun i hi => absurd hi (Nat.not_lt_zero i), fun _ _ => rfl⟩

theorem Wrote.color (con : Console) (fg bg : UInt8) : Wrote con (gpuSetColor con fg bg) [] :=
  ⟨rfl, rfl, rfl, rfl, fun i hi => absurd hi (Nat.not_lt_zero i), fun _ _ => rfl⟩

theorem Wrote.append (h : Wrote con con' text) (h' : Wrote con' con'' text') :
    Wrote con con'' (text ++ text') := by
  have hcol := h'.col
  rw [h.col] at hcol
  refine ⟨h'.view.trans h.view, h'.scrolled.trans h.scrolled, h'.row.trans h.row, ?_,
    fun i hi => ?_, fun p hp => ?_⟩
  · rw [hcol, List.length_append, Nat.add_assoc]
  · rw [List.length_append] at hi
    by_cases hlt : i < text.length
    · rw [h'.other _ (by rw [h.col]; simp only; omega), h.here i hlt, List.getD_append _ _ _ _ hlt]
    · have hhere := h'.here (i - text.length) (by omega)
      rw [h.row, h.col, show con.col + text.length + (i - text.length) = con.col + i by omega]
        at hhere
      rw [hhere, List.getD_append_right _ _ _ _ (by omega)]
  · rw [List.length_append] at hp
    rw [h'.other p (by rw [h.row, h.col]; omega), h.other p (by omega)]

theorem Wrote.putc (hb : IsPrintable b) (hrow : con.row < con.rows)
    (hcol : con.col + 1 < con.cols) :
    Wrote con (gpuPutc con b) [b] := by
  have hplace : con.place con.row con.col = (con.row, con.col) := con.place_eq (by omega)
  have hadvance : advance (drawCell con con.row con.col b) =
      { drawCell con con.row con.col b with col := con.col + 1 } := if_neg (by
    change ¬ con.col + 1 ≥ con.cols
    omega)
  rw [gpuPutc_printable con hb, hadvance,
    scrollIfBelow_of_lt { drawCell con con.row con.col b with col := con.col + 1 } hrow]
  refine ⟨rfl, rfl, rfl, rfl, fun i hi => ?_, fun p hp => ?_⟩
  · obtain rfl : i = 0 := by
      rw [List.length_singleton] at hi
      omega
    simp [drawCell, hplace]
  · rw [List.length_singleton] at hp
    simp only [drawCell, hplace]
    refine Function.update_of_ne ?_ _ _
    rintro rfl
    exact hp ⟨rfl, Nat.le_refl _, Nat.lt_succ_self _⟩

theorem Wrote.print (text : List UInt8) (htext : ∀ b ∈ text, IsPrintable b)
    (hrow : con.row < con.rows) (hcol : con.col + text.length < con.cols) :
    Wrote con (gpuPrint con text) text := by
  induction text generalizing con with
  | nil => exact .nil con
  | cons b text ih =>
    rw [List.length_cons] at hcol
    have hone : Wrote con (gpuPutc con b) [b] :=
      .putc (htext b (List.mem_cons_self ..)) hrow (by omega)
    have hrest : Wrote (gpuPutc con b) (gpuPrint (gpuPutc con b) text) text := by
      refine ih (fun b' hb' => htext b' (List.mem_cons_of_mem _ hb')) ?_ ?_
      · rw [hone.row, hone.view]
        exact hrow
      · rw [hone.col, hone.view, List.length_singleton]
        omega
    exact hone.append hrest

theorem Wrote.prompt (hrow : con.row < con.rows) (hcol : con.col + 15 < con.cols) :
    Wrote con (shellPrintPrompt con) promptText := by
  have hpart (text : List UInt8) (htext : ∀ b ∈ text, IsPrintable b) {con' done}
      (h : Wrote con con' done) (hlen : done.length + text.length ≤ 15) (fg bg : UInt8) :
      Wrote con (gpuPrint (gpuSetColor con' fg bg) text) (done ++ text) := by
    have hcolor := h.append (.color con' fg bg)
    rw [List.append_nil] at hcolor
    refine hcolor.append (.print text htext ?_ ?_)
    · rw [hcolor.row, hcolor.view]
      exact hrow
    · rw [hcolor.col, hcolor.view]
      omega
  have h1 := hpart promptUser (printable_of_all rfl) (.nil con) (by decide) 0x0A 0x00
  have h2 := hpart [0x3A] (printable_of_all rfl) h1 (by decide) 0x0F 0x00
  have h3 := hpart [0x7E] (printable_of_all rfl) h2 (by decide) 0x0B 0x00
  exact hpart [0x24, 0x20] (printable_of_all rfl) h3 (by decide) 0x0F 0x00

-- ---------------------------------------------------------------------------
-- The redraw
-- ---------------------------------------------------------------------------

def padding (con : Console) (buf : List UInt8) : List UInt8 :=
  List.replicate (con.cols - 1 - (15 + buf.length)) 0x20

theorem padding_eq (con : Console) (buf : List UInt8) :
    List.replicate ((gpuConsoleCols con : Int) - 1 - ((15 : Nat) + buf.length : Int)).toNat 0x20 =
      padding con buf := by
  rw [padding, gpuConsoleCols, Nat.mod_eq_of_lt con.cols_lt]
  congr 1
  omega

theorem padding_printable (con : Console) (buf : List UInt8) :
    ∀ b ∈ padding con buf, IsPrintable b := by
  intro b hb
  rw [List.eq_of_mem_replicate hb]
  decide

/-- The console behind the first carriage return, the text, the second one, and the text up to the
cursor. -/
theorem shellRedrawLine_eq (con : Console) (buf : List UInt8) (cpos : Nat) :
    shellRedrawLine con buf cpos =
      gpuPrint (shellPrintPrompt (gpuPutc (gpuPrint (gpuPrint (shellPrintPrompt (gpuPutc con 0x0D))
        buf) (padding con buf)) 0x0D)) (buf.take cpos) := by
  rw [shellRedrawLine, ← padding_eq]
  rfl

variable {buf : List UInt8} {cpos : Nat}

theorem redraw_offset (h : Inside v es con) (hbuf : ∀ b ∈ buf, IsPrintable b)
    (hcpos : cpos ≤ buf.length) :
    Inside v es (shellRedrawLine con buf cpos) ∧
    cursorOffset (shellRedrawLine con buf cpos) =
      (con.row + con.scrolled + (15 + buf.length + (padding con buf).length) / con.cols) *
        con.cols + 15 + cpos := by
  have hreturn (con : Console) (h : Inside v es con) :
      Inside v es (gpuPutc con 0x0D) ∧
      cursorOffset (gpuPutc con 0x0D) = cursorOffset con / v.cols * v.cols := by
    refine ⟨h.gpuPutc _, ?_⟩
    have hrow := h.row
    have hcol := h.col
    rw [← h.view] at hrow
    rw [gpuPutc_return hrow, cursorOffset, cursorOffset, h.view, Nat.mul_comm _ v.cols,
      Nat.mul_add_div (by omega), Nat.div_eq_of_lt hcol, Nat.mul_comm v.cols]
    rfl
  have hcols : con.cols = v.cols := by rw [h.view]
  have hpos : 0 < v.cols := Nat.zero_lt_of_lt h.col
  have hstart : cursorOffset con / v.cols = con.row + con.scrolled := by
    rw [cursorOffset, hcols, Nat.mul_comm, Nat.mul_add_div hpos, Nat.div_eq_of_lt h.col,
      Nat.add_zero]
  have htake : ∀ b ∈ buf.take cpos, IsPrintable b := fun b hb => hbuf b (List.mem_of_mem_take hb)
  obtain ⟨h1, e1⟩ := hreturn con h
  obtain ⟨h2, e2⟩ := offset_prompt h1
  obtain ⟨h3, e3⟩ := offset_print buf h2 hbuf
  obtain ⟨h4, e4⟩ := offset_print (padding con buf) h3 (padding_printable con buf)
  obtain ⟨h5, e5⟩ := hreturn _ h4
  obtain ⟨h6, e6⟩ := offset_prompt h5
  obtain ⟨h7, e7⟩ := offset_print (buf.take cpos) h6 htake
  rw [shellRedrawLine_eq]
  refine ⟨h7, ?_⟩
  have hend : (cursorOffset con / v.cols * v.cols + 15 + buf.length + (padding con buf).length) /
      v.cols = con.row + con.scrolled + (15 + buf.length + (padding con buf).length) / v.cols := by
    rw [hstart, Nat.add_assoc, Nat.add_assoc, Nat.mul_comm, Nat.mul_add_div hpos, ← Nat.add_assoc]
  rw [e7, e6, e5, e4, e3, e2, e1, hend, List.length_take_of_le hcpos, hcols]

theorem padding_length (con : Console) (buf : List UInt8) :
    (padding con buf).length = con.cols - 1 - (15 + buf.length) := List.length_replicate

/-- A carriage return, the prompt and `text`, within the row. -/
structure LinePass (con con' : Console) (text : List UInt8) : Prop where
  view : con'.toViewport = con.toViewport
  scrolled : con'.scrolled = con.scrolled
  row : con'.row = con.row
  col : con'.col = 15 + text.length
  here : ∀ i < 15 + text.length, (con'.cells (con.row, i)).ch = (promptText ++ text).getD i 0
  other : ∀ i, 15 + text.length ≤ i → con'.cells (con.row, i) = con.cells (con.row, i)

theorem linePass (con : Console) (text : List UInt8) (htext : ∀ b ∈ text, IsPrintable b)
    (hrow : con.row < con.rows) (hcols : 15 + text.length < con.cols) :
    LinePass con (gpuPrint (shellPrintPrompt (gpuPutc con 0x0D)) text) text := by
  have hlength : (promptText ++ text).length = 15 + text.length := List.length_append
  have hprompt : Wrote { con with col := 0 } (shellPrintPrompt { con with col := 0 }) promptText :=
    .prompt hrow (by change 0 + 15 < con.cols; omega)
  have hwrote := hprompt.append (.print text htext
    (by rw [hprompt.row, hprompt.view]; exact hrow)
    (by rw [hprompt.col, hprompt.view]; change 0 + 15 + text.length < con.cols; omega))
  rw [gpuPutc_return hrow]
  refine ⟨hwrote.view, hwrote.scrolled, hwrote.row, ?_, fun i hi => ?_, fun i hi => ?_⟩
  · rw [hwrote.col, hlength, Nat.zero_add]
  · have hhere := hwrote.here i (by rw [hlength]; exact hi)
    rwa [Nat.zero_add] at hhere
  · refine hwrote.other (con.row, i) ?_
    rw [hlength]
    simp only
    omega

structure RowShown (con con' : Console) (buf : List UInt8) (cpos : Nat) : Prop where
  view : con'.toViewport = con.toViewport
  scrolled : con'.scrolled = con.scrolled
  row : con'.row = con.row
  col : con'.col = 15 + cpos
  cells : ∀ i < con.cols - 1,
    (con'.cells (con.row, i)).ch = (promptText ++ (buf ++ padding con buf)).getD i 0
  last : con'.cells (con.row, con.cols - 1) = con.cells (con.row, con.cols - 1)

theorem redraw_row (hrow : con.row < con.rows) (hbuf : ∀ b ∈ buf, IsPrintable b)
    (hcpos : cpos ≤ buf.length) (hcols : 15 + buf.length + 1 ≤ con.cols) :
    RowShown con (shellRedrawLine con buf cpos) buf cpos := by
  have hpad := padding_length con buf
  have hline : 15 + (buf ++ padding con buf).length = con.cols - 1 := by
    rw [List.length_append, hpad]
    omega
  have hprintable : ∀ b ∈ buf ++ padding con buf, IsPrintable b := by
    rw [List.forall_mem_append]
    exact ⟨hbuf, padding_printable con buf⟩
  have htake := List.length_take_of_le hcpos
  -- the first pass ends in front of the last column, the second one at the cursor
  have hfirst := linePass con (buf ++ padding con buf) hprintable hrow (by omega)
  obtain ⟨con1, hcon1⟩ : ∃ con1, con1 =
      gpuPrint (shellPrintPrompt (gpuPutc con 0x0D)) (buf ++ padding con buf) := ⟨_, rfl⟩
  rw [← hcon1] at hfirst
  have hsecond := linePass con1 (buf.take cpos)
    (fun b hb => hbuf b (List.mem_of_mem_take hb)) (by rw [hfirst.row, hfirst.view]; exact hrow)
    (by rw [hfirst.view]; omega)
  have hredraw : shellRedrawLine con buf cpos =
      gpuPrint (shellPrintPrompt (gpuPutc con1 0x0D)) (buf.take cpos) := by
    rw [shellRedrawLine_eq, hcon1]
    simp only [gpuPrint, List.foldl_append]
  rw [hredraw]
  refine ⟨hsecond.view.trans hfirst.view, hsecond.scrolled.trans hfirst.scrolled,
    hsecond.row.trans hfirst.row, ?_, fun i hi => ?_, ?_⟩
  · rw [hsecond.col, htake]
  · by_cases hlt : i < 15 + cpos
    · have hhere := hsecond.here i (by omega)
      have hsplit : promptText ++ (buf ++ padding con buf) =
          promptText ++ buf.take cpos ++ (buf.drop cpos ++ padding con buf) := by
        rw [List.append_assoc, ← List.append_assoc (buf.take cpos), List.take_append_drop]
      have hlength : (promptText ++ buf.take cpos).length = 15 + cpos := by
        rw [List.length_append, htake]
        rfl
      rw [hfirst.row] at hhere
      rw [hhere, hsplit, List.getD_append (promptText ++ buf.take cpos) _ 0 i (by omega)]
    · have hother := hsecond.other i (by omega)
      rw [hfirst.row] at hother
      rw [hother, hfirst.here i (by omega)]
  · have hother := hsecond.other (con.cols - 1) (by omega)
    rw [hfirst.row] at hother
    rw [hother, hfirst.other _ (by omega)]

theorem cellFrom_row (con : Console) (hi : i < con.cols) :
    cellFrom con ((con.row + con.scrolled) * con.cols) i = (con.row, i) := by
  rw [cellFrom, Nat.mul_comm, Nat.mul_add_div (by omega), Nat.div_eq_of_lt hi, Nat.mul_add_mod,
    Nat.mod_eq_of_lt hi, Nat.add_zero, Nat.add_sub_cancel]

theorem RowShown.cellFrom (hshown : RowShown con con' buf cpos)
    (hstart : start = (con.row + con.scrolled) * con.cols) (hi : i < con.cols) :
    cellFrom con' start i = (con.row, i) := by
  have hcols : con'.cols = con.cols := by rw [hshown.view]
  rw [hstart, ← hshown.row, ← hshown.scrolled, ← hcols]
  exact cellFrom_row con' (by rw [hcols]; exact hi)

theorem RowShown.blank (hshown : RowShown con con' buf cpos)
    (hroom : 15 + buf.length + 1 < con.cols ∨
      15 + buf.length + 1 = con.cols ∧ (con.cells (con.row, con.cols - 1)).ch = 0x20) :
    (con'.cells (con.row, 15 + buf.length)).ch = 0x20 := by
  have hpad := padding_length con buf
  obtain hroom | ⟨hend, hlast⟩ := hroom
  · have hlength : (promptText ++ buf).length = 15 + buf.length := List.length_append
    rw [hshown.cells _ (by omega), ← List.append_assoc,
      List.getD_append_right _ _ _ _ (by omega), List.getD_eq_getElem _ _ (by omega)]
    exact List.getElem_replicate _
  · rw [show 15 + buf.length = con.cols - 1 by omega, hshown.last]
    exact hlast

theorem RowShown.shownAs (hshown : RowShown con con' buf cpos) (hrow : con.row < con.rows)
    (hfits : FitsRow start con buf) : ShownAs start con' buf cpos := by
  obtain ⟨hstart, hroom⟩ := hfits
  have hcols : con'.cols = con.cols := by rw [hshown.view]
  refine ⟨?_, ?_, fun i hi => ?_, ?_, ?_⟩
  · rw [hcols, hshown.scrolled, hstart]
    exact Nat.mul_le_mul_right _ (Nat.le_add_left ..)
  · rw [hcols, hshown.view, hshown.scrolled, hstart, Nat.add_assoc, Nat.mul_comm,
      Nat.mul_add_div (by omega), Nat.div_eq_of_lt (by omega)]
    omega
  · have hlength : (promptText ++ buf).length = 15 + buf.length := List.length_append
    rw [hshown.cellFrom hstart (by omega), hshown.cells i (by omega), ← List.append_assoc,
      List.getD_append _ _ _ _ (by omega)]
  · rw [hshown.cellFrom hstart (by omega)]
    exact hshown.blank hroom
  · rw [cursorOffset, hshown.row, hshown.scrolled, hcols, hshown.col, hstart]
    omega

theorem ShownAs.fitsRow (h : Inside v es con) (hcols : 16 ≤ con.cols)
    (hbuf : ∀ b ∈ buf, IsPrintable b) (hcpos : cpos ≤ buf.length)
    (hstart : start < (con.row + con.scrolled + 1) * con.cols)
    (hshown : ShownAs start (shellRedrawLine con buf cpos) buf cpos) : FitsRow start con buf := by
  have hrow := h.row
  rw [← h.view] at hrow
  obtain ⟨-, hoffset⟩ := redraw_offset h hbuf hcpos
  rw [hshown.cursor] at hoffset
  have heq : start = (con.row + con.scrolled +
      (15 + buf.length + (padding con buf).length) / con.cols) * con.cols := by omega
  -- a wrapped line would end below the row of the cursor, which is not above the start
  have hdiv : (15 + buf.length + (padding con buf).length) / con.cols = 0 := by
    rw [heq] at hstart
    exact Nat.lt_one_iff.mp (Nat.lt_of_add_lt_add_left (Nat.lt_of_mul_lt_mul_right hstart))
  have hlt := (Nat.div_eq_zero_iff_lt (by omega)).mp hdiv
  rw [hdiv, Nat.add_zero] at heq
  refine ⟨heq, ?_⟩
  obtain hroom | hend : 15 + buf.length + 1 < con.cols ∨ 15 + buf.length + 1 = con.cols := by
    omega
  · exact .inl hroom
  · refine .inr ⟨hend, ?_⟩
    have hrowShown := redraw_row hrow hbuf hcpos (Nat.le_of_eq hend)
    have hblank := hshown.blank
    rw [hrowShown.cellFrom heq (by omega), show 15 + buf.length = con.cols - 1 by omega,
      hrowShown.last] at hblank
    exact hblank

theorem redraw_shown_iff (h : Inside v es con) (hcols : 16 ≤ con.cols)
    (hbuf : ∀ b ∈ buf, IsPrintable b) (hcpos : cpos ≤ buf.length)
    (hstart : start < (con.row + con.scrolled + 1) * con.cols) :
    ShownAs start (shellRedrawLine con buf cpos) buf cpos ↔ FitsRow start con buf := by
  have hrow := h.row
  rw [← h.view] at hrow
  refine ⟨fun hshown => hshown.fitsRow h hcols hbuf hcpos hstart, fun hfits => ?_⟩
  have hroom : 15 + buf.length + 1 ≤ con.cols := by
    have := hfits.2
    omega
  exact (redraw_row hrow hbuf hcpos hroom).shownAs hrow hfits

-- ---------------------------------------------------------------------------
-- Every sequence of keys
-- ---------------------------------------------------------------------------

/-- `readline`, and the cell in which the prompt of the line starts. -/
structure ReadState where
  sh : Shell
  start : Nat

/-- `readline` begins behind a prompt. -/
def readBegin (hist : History) (con : Console) : ReadState :=
  ⟨readlineStart ⟨hist, [], 0, con⟩, cursorOffset con⟩

def readKey (s : ReadState) (c : Nat) : ReadState :=
  { sh := readlineKey s.sh c
    start := if c = 3 then cursorOffset (gpuPrint s.sh.con [0x5E, 0x43, 0x0A]) else s.start }

def AtReadKeys (P : ReadState → Nat → Prop) : ReadState → List Nat → Prop
  | _, [] => True
  | s, c :: cs => P s c ∧ AtReadKeys P (readKey s c) cs

/-- If the line is shown again at this key, it is shown as it is. -/
def ShownBy (s : ReadState) (c : Nat) : Prop :=
  ∀ s', readlineEdit s.sh c = some s' →
    ShownAs (readKey s c).start (readKey s c).sh.con s'.buf s'.cpos

def FitsAt (s : ReadState) (c : Nat) : Prop :=
  ∀ s', readlineEdit s.sh c = some s' → FitsRow (readKey s c).start s'.con s'.buf

/-- `readline` and the terminals of the desktop only take printable characters. -/
def History.Printable (h : History) : Prop := ∀ i, ∀ b ∈ h.lines i, IsPrintable b

structure ReadState.Ok (v : Viewport) (es : List ConsoleEvent) (s : ReadState) : Prop where
  inside : Inside v es s.sh.con
  inBuffer : s.sh.InBuffer
  hist : s.sh.hist.Printable
  buf : ∀ b ∈ s.sh.buf, IsPrintable b
  start : s.start < (s.sh.con.row + s.sh.con.scrolled + 1) * s.sh.con.cols

variable {s : ReadState} {c : Nat}

theorem Shell.recall_printable {sh : Shell} (hhist : sh.hist.Printable) (idx : Int) :
    ∀ b ∈ (sh.recall idx).buf, IsPrintable b := by
  intro b hb
  have hget := List.mem_of_mem_take hb
  rw [historyGet] at hget
  split at hget
  · cases hget
  · exact hhist _ b hget

theorem cursorOffset_lt (h : Inside v es con) :
    cursorOffset con < (con.row + con.scrolled + 1) * con.cols := by
  have hcol := h.col
  rw [← h.view] at hcol
  rw [cursorOffset, Nat.succ_mul]
  omega

theorem ReadState.Ok.edit (hs : s.Ok v es) (hedit : readlineEdit s.sh c = some sh') :
    ReadState.Ok v es ⟨sh', (readKey s c).start⟩ := by
  obtain ⟨hc, -, rfl⟩ | ⟨hc, -, rfl⟩ | ⟨hc, rfl⟩ | ⟨-, -, hc, hedited⟩ := readlineEdit_cases hedit
  · rw [readKey, if_neg (by rw [hc]; decide)]
    exact ⟨hs.inside, s.sh.recall_inBuffer _, hs.hist, s.sh.recall_printable hs.hist _, hs.start⟩
  · rw [readKey, if_neg (by rw [hc]; decide)]
    exact ⟨hs.inside, s.sh.recall_inBuffer _, hs.hist, s.sh.recall_printable hs.hist _, hs.start⟩
  · rw [readKey, if_pos hc]
    have hin : Inside v es (gpuPrint s.sh.con [0x5E, 0x43, 0x0A]) :=
      ((hs.inside.gpuPutc 0x5E).gpuPutc 0x43).gpuPutc 0x0A
    exact ⟨hin, ⟨Nat.zero_lt_of_lt hs.inBuffer.short, Nat.le_refl _⟩, hs.hist,
      List.forall_mem_nil _, cursorOffset_lt hin⟩
  · rw [readKey, if_neg hc]
    refine ⟨?_, hedited.inBuffer hs.inBuffer, ?_, fun b hb => ?_, ?_⟩
    · rw [hedited.con]
      exact hs.inside
    · rw [hedited.hist]
      exact hs.hist
    · exact (hedited.bytes b hb).elim (hs.buf b) id
    · rw [hedited.con]
      exact hs.start

theorem readKey_edit (hedit : readlineEdit s.sh c = some sh') :
    (readKey s c).sh = { sh' with con := shellRedrawLine sh'.con sh'.buf sh'.cpos } := by
  rw [readKey, readlineKey, hedit]

theorem ReadState.Ok.shown_iff (hs : s.Ok v es) (hcols : 16 ≤ v.cols) (c : Nat) :
    ShownBy s c ↔ FitsAt s c := by
  refine forall₂_congr fun sh' hedit => ?_
  have hs' := hs.edit hedit
  have hwide : 16 ≤ sh'.con.cols := by
    rw [hs'.inside.view]
    exact hcols
  rw [readKey_edit hedit]
  exact redraw_shown_iff hs'.inside hwide hs'.buf hs'.inBuffer.cpos hs'.start

theorem ReadState.Ok.key (hs : s.Ok v es) (hfits : FitsAt s c) : (readKey s c).Ok v es := by
  cases hedit : readlineEdit s.sh c with
  | none =>
    have hc : c ≠ 3 := by
      rintro rfl
      cases hedit
    have hkey : readKey s c = s := by
      rw [readKey, if_neg hc, readlineKey, hedit]
    rw [hkey]
    exact hs
  | some sh' =>
    have hs' := hs.edit hedit
    obtain ⟨heq, hroom⟩ := hfits sh' hedit
    have hin := (redraw_offset hs'.inside hs'.buf hs'.inBuffer.cpos).1
    have hrow : sh'.con.row < sh'.con.rows := by
      rw [hs'.inside.view]
      exact hs'.inside.row
    have hwidth : 15 + sh'.buf.length + 1 ≤ sh'.con.cols := by
      change 15 + sh'.buf.length + 1 < sh'.con.cols ∨ 15 + sh'.buf.length + 1 = sh'.con.cols ∧ _
        at hroom
      omega
    have hshown := redraw_row hrow hs'.buf hs'.inBuffer.cpos hwidth
    have hstart := hs'.start
    have hsh := readKey_edit hedit
    refine ⟨?_, ?_, ?_, ?_, ?_⟩
    · rw [hsh]
      exact hin
    · rw [hsh]
      exact ⟨hs'.inBuffer.short, hs'.inBuffer.cpos⟩
    · rw [hsh]
      exact hs'.hist
    · rw [hsh]
      exact hs'.buf
    · rw [hsh]
      simp only
      rw [hshown.row, hshown.scrolled, hshown.view]
      exact hstart

def DispatchesTyped (_ : LineState) : LineAct → Prop
  | .dispatch line => ∀ b ∈ line, IsPrintable b
  | _ => True

theorem History.Printable.add {h : History} (hh : h.Printable) (hline : ∀ b ∈ line, IsPrintable b) :
    (historyAdd h line).Printable := by
  rw [historyAdd]
  split_ifs
  · exact hh
  · exact hh
  · intro i b hb
    simp only at hb
    by_cases hi : i = h.count.tmod HIST_MAX
    · rw [hi, Function.update_self] at hb
      exact hline b (List.mem_of_mem_take hb)
    · rw [Function.update_of_ne hi] at hb
      exact hh i b hb

theorem readlineKey_printable {sh : Shell} (hhist : sh.hist.Printable)
    (hbuf : ∀ b ∈ sh.buf, IsPrintable b) (c : Nat) :
    (readlineKey sh c).hist.Printable ∧ ∀ b ∈ (readlineKey sh c).buf, IsPrintable b := by
  rw [readlineKey]
  split
  · next sh' hedit =>
    obtain ⟨-, -, rfl⟩ | ⟨-, -, rfl⟩ | ⟨-, rfl⟩ | ⟨-, -, -, hedited⟩ := readlineEdit_cases hedit
    · exact ⟨hhist, sh.recall_printable hhist _⟩
    · exact ⟨hhist, sh.recall_printable hhist _⟩
    · exact ⟨hhist, List.forall_mem_nil _⟩
    · refine ⟨?_, fun b hb => (hedited.bytes b hb).elim (hbuf b) id⟩
      simp only [hedited.hist]
      exact hhist
  · exact ⟨hhist, hbuf⟩

theorem history_printable (hrun : Run lineStep DispatchesTyped (.boot con) acts ls) :
    ls.sh.hist.Printable := by
  have hinv := hrun.invariant
    (fun ls => ls.sh.hist.Printable ∧ ∀ b ∈ ls.sh.buf, IsPrintable b)
    ⟨fun _ b hb => (by cases hb), fun b hb => (by cases hb)⟩ ?_
  · exact hinv.1
  · intro ls a ls' ⟨hhist, hbuf⟩ hok hstep
    cases a with
    | key c =>
      obtain ⟨-, rfl⟩ := lineStep_cases hstep
      exact readlineKey_printable hhist hbuf c
    | enter =>
      obtain ⟨-, rfl⟩ := lineStep_cases hstep
      dsimp only
      rw [readlineEnter_hist, (readlineEnter_line ls.sh).1]
      exact ⟨hhist.add hbuf, hbuf⟩
    | output con =>
      obtain ⟨-, rfl⟩ := lineStep_cases hstep
      exact ⟨hhist, hbuf⟩
    | dispatch line =>
      obtain ⟨-, rfl⟩ := lineStep_cases hstep
      exact ⟨hhist.add hok, hbuf⟩
    | start =>
      obtain ⟨-, rfl⟩ := lineStep_cases hstep
      exact ⟨hhist, List.forall_mem_nil _⟩

theorem ReadState.Ok.begin (hist : History) (con : Console) (hhist : hist.Printable)
    (h : Inside v es con) : (readBegin hist con).Ok v es := by
  obtain ⟨hin, hoffset⟩ := offset_prompt h
  have hlt := cursorOffset_lt hin
  have hstart := Nat.lt_of_le_of_lt (Nat.le_add_right (cursorOffset con) 15)
    (Nat.lt_of_le_of_lt (Nat.le_of_eq hoffset.symm) hlt)
  have hcon : (readBegin hist con).sh.con = shellPrintPrompt con := by
    rw [readBegin, readlineStart]
  have hbuf : (readBegin hist con).sh.buf = [] := rfl
  refine ⟨?_, ⟨Nat.two_pow_pos 8, Nat.le_refl _⟩, hhist, ?_, ?_⟩
  · rw [hcon]
    exact hin
  · rw [hbuf]
    exact List.forall_mem_nil _
  · rw [hcon]
    exact hstart

theorem ReadState.Ok.keys_iff (hs : s.Ok v es) (hcols : 16 ≤ v.cols) (keys : List Nat) :
    AtReadKeys ShownBy s keys ↔ AtReadKeys FitsAt s keys := by
  induction keys generalizing s with
  | nil => exact Iff.rfl
  | cons c keys ih =>
    rw [AtReadKeys, AtReadKeys, hs.shown_iff hcols c]
    exact and_congr_right fun hfits => ih (hs.key hfits)

/-- Every redraw of a line shows it as it is exactly when the line fits at every key. -/
theorem redraws_iff (hist : History) (con : Console) (keys : List Nat) (hhist : hist.Printable)
    (hrow : con.row < con.rows) (hcol : con.col < con.cols) (hcols : 16 ≤ con.cols) :
    AtReadKeys ShownBy (readBegin hist con) keys ↔ AtReadKeys FitsAt (readBegin hist con) keys := by
  have hin : Inside con.toViewport con.events con := ⟨⟨rfl, fun _ he => .inl he⟩, hrow, hcol⟩
  exact (ReadState.Ok.begin hist con hhist hin).keys_iff hcols keys

/-- The key `a` on a console of 80 columns -/
theorem redraws_iff_key :
    History.boot.Printable ∧ textConsole.row < textConsole.rows ∧
    textConsole.col < textConsole.cols ∧ 16 ≤ textConsole.cols ∧
    AtReadKeys ShownBy (readBegin .boot textConsole) [0x61] := by
  have hhist : History.boot.Printable := fun _ b hb => by cases hb
  have hedit : readlineEdit (readBegin .boot textConsole).sh 0x61 =
      some (shellInsertChar (readBegin .boot textConsole).sh 0x61) := rfl
  have hfits : AtReadKeys FitsAt (readBegin .boot textConsole) [0x61] := by
    refine ⟨fun s' hs' => ?_, trivial⟩
    rw [hedit] at hs'
    cases hs'
    exact ⟨by decide +kernel, .inl (by decide +kernel)⟩
  exact ⟨hhist, by decide, by decide, by decide,
    (redraws_iff .boot textConsole [0x61] hhist (by decide) (by decide) (by decide)).mpr hfits⟩

def narrowConsole : Console :=
  { textConsole with
    fbEnabled := true
    vpCols := 16
    vpRows := 4
    vpCols_lt := by decide
    vpRows_lt := by decide }

/-- The key `a` there: the prompt and the `a` fill the row, so that the second prompt is printed
in the next one, and the cursor is a row too low. -/
theorem full_row_not_shown : ¬ AtReadKeys ShownBy (readBegin .boot narrowConsole) [0x61] := by
  intro h
  have hedit : readlineEdit (readBegin .boot narrowConsole).sh 0x61 =
      some (shellInsertChar (readBegin .boot narrowConsole).sh 0x61) := rfl
  have hcursor := (h.1 _ hedit).cursor
  revert hcursor
  decide +kernel

end EponaOS.Kernel
