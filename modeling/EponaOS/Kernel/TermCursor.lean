import EponaOS.Drivers.Console
import EponaOS.Kernel.Term

/-!
# The cursor of the terminal

A terminal on the text console. Whatever comes, the cursor and the cells that change stay inside
the viewport. The sequences that move the cursor compute its new place in 16 bits before it is
held inside.
-/

namespace EponaOS.Kernel

open Drivers

/-- The terminal writes to `gpu.c`. -/
def gpuConsole : Gpu Console where
  putc := gpuPutc
  getCursor := gpuGetCursor
  setCursor := gpuSetCursor
  eraseDisplay := gpuEraseDisplay
  eraseLine := gpuEraseLine
  setColor := gpuSetColor

-- ---------------------------------------------------------------------------
-- Every byte
-- ---------------------------------------------------------------------------

structure Gpu.Keeps (dev : Gpu G) (P : G → Prop) : Prop where
  putc : P g → P (dev.putc g c)
  setCursor : P g → P (dev.setCursor g row col)
  eraseDisplay : P g → P (dev.eraseDisplay g mode)
  eraseLine : P g → P (dev.eraseLine g mode)
  setColor : P g → P (dev.setColor g fg bg)

variable {dev : Gpu G} {P : G → Prop}

theorem keeps_ite [Decidable c] {x y : TermCtx × G} (hx : P x.2) (hy : P y.2) :
    P (if c then x else y).2 := by
  split
  · exact hx
  · exact hy

theorem Gpu.Keeps.csiDispatch (hk : dev.Keeps P) (ctx : TermCtx) (hg : P g) (final : UInt8) :
    P (csiDispatch dev ctx g final).2 := by
  rw [Kernel.csiDispatch]
  refine keeps_ite (hk.setCursor hg) ?_
  refine keeps_ite (hk.setCursor hg) ?_
  refine keeps_ite (hk.setCursor hg) ?_
  refine keeps_ite (hk.setCursor hg) ?_
  refine keeps_ite (hk.setCursor hg) ?_
  refine keeps_ite (hk.eraseDisplay hg) ?_
  refine keeps_ite (hk.eraseLine hg) ?_
  refine keeps_ite (hk.setColor hg) ?_
  refine keeps_ite hg ?_
  exact keeps_ite (hk.setCursor hg) hg

theorem Gpu.Keeps.termCtxPutc (hk : dev.Keeps P) {t : Terminal G} (hg : P t.gpu) (b : UInt8) :
    P (termCtxPutc dev t b).gpu := by
  rw [Kernel.termCtxPutc]
  split
  · split
    · exact hg
    · exact hk.putc hg
  · split_ifs <;> exact hg
  · split_ifs
    · exact hg
    · exact hg
    · exact hk.csiDispatch t.ctx hg b
    · exact hg
  · split <;> exact hg

theorem Gpu.Keeps.run (hk : dev.Keeps P) {t : Terminal G} (hg : P t.gpu) (bytes : List UInt8) :
    P (bytes.foldl (Kernel.termCtxPutc dev) t).gpu := by
  induction bytes generalizing t with
  | nil => exact hg
  | cons b bytes ih => exact ih (hk.termCtxPutc hg b)

theorem gpuConsole_keeps (v : Viewport) (es : List ConsoleEvent) :
    gpuConsole.Keeps (Inside v es) where
  putc h := h.gpuPutc _
  setCursor h := h.gpuSetCursor _ _
  eraseDisplay h := h.gpuEraseDisplay _
  eraseLine h := h.gpuEraseLine _
  setColor h := h.gpuSetColor _ _

/-- After any bytes the cursor is inside, and so is every cell that was drawn or erased. -/
theorem cursor_inside (t : Terminal Console) (hrow : t.gpu.row < t.gpu.rows)
    (hcol : t.gpu.col < t.gpu.cols) (bytes : List UInt8) :
    Inside t.gpu.toViewport t.gpu.events (bytes.foldl (termCtxPutc gpuConsole) t).gpu :=
  (gpuConsole_keeps t.gpu.toViewport t.gpu.events).run
    ⟨⟨rfl, fun _ he => .inl he⟩, hrow, hcol⟩ bytes

def consoleTerminal (con : Console) : Terminal Console where
  ctx := termCtxInit
    { state := .ground, params := fun _ => 0, nparams := 0, paramActive := false
      fg := 0x0F, bg := 0x00, savedRow := 0, savedCol := 0 }
  gpu := con
  events := []

/-- `a`, `CSI 99 B`, and a new line, which scrolls -/
theorem cursor_inside_text :
    (consoleTerminal textConsole).gpu.row < (consoleTerminal textConsole).gpu.rows ∧
    (consoleTerminal textConsole).gpu.col < (consoleTerminal textConsole).gpu.cols ∧
    Inside textConsole.toViewport []
      ([0x61, ESC, 0x5B, 0x39, 0x39, 0x42, 0x0A].foldl (termCtxPutc gpuConsole)
        (consoleTerminal textConsole)).gpu :=
  ⟨by decide, by decide, cursor_inside (consoleTerminal textConsole) (by decide) (by decide) _⟩

-- ---------------------------------------------------------------------------
-- Motion
-- ---------------------------------------------------------------------------

/-- `max(1, n)` for the parameter `n`, 1 where there is none. -/
def TermCtx.count (ctx : TermCtx) (i : Nat) : Nat :=
  if ctx.nparams > i then (max 1 (ctx.params i)).toNat else 1

def motionTarget (ctx : TermCtx) (row col : Nat) (final : UInt8) : Nat × Nat :=
  if final = 0x41 then (row - ctx.count 0, col)
  else if final = 0x42 then (row + ctx.count 0, col)
  else if final = 0x43 then (row, col + ctx.count 0)
  else if final = 0x44 then (row, col - ctx.count 0)
  else (ctx.count 0 - 1, ctx.count 1 - 1)

def IsMotion (final : UInt8) : Prop :=
  final = 0x41 ∨ final = 0x42 ∨ final = 0x43 ∨ final = 0x44 ∨ final = 0x48 ∨ final = 0x66

instance (final : UInt8) : Decidable (IsMotion final) := inferInstanceAs (Decidable (_ ∨ _))

/-- The cursor is at its target, or at the edge that the target is behind. -/
structure MotionSaturates (con : Console) (ctx : TermCtx) (final : UInt8) : Prop where
  row : (csiDispatch gpuConsole ctx con final).2.row =
    min (motionTarget ctx con.row con.col final).1 (con.rows - 1)
  col : (csiDispatch gpuConsole ctx con final).2.col =
    min (motionTarget ctx con.row con.col final).2 (con.cols - 1)
  row_lt : (csiDispatch gpuConsole ctx con final).2.row < con.rows
  col_lt : (csiDispatch gpuConsole ctx con final).2.col < con.cols

/-- 16 bits are enough for `x`, or what they leave of it is not in front of the edge either. -/
def LandsIn16 (x bound : Nat) : Prop := x < 2 ^ 16 ∨ bound ≤ x % 2 ^ 16 + 1

instance (x bound : Nat) : Decidable (LandsIn16 x bound) := inferInstanceAs (Decidable (_ ∨ _))

def MotionFits (con : Console) (ctx : TermCtx) (final : UInt8) : Prop :=
  0 < con.rows ∧ 0 < con.cols ∧
  LandsIn16 (motionTarget ctx con.row con.col final).1 con.rows ∧
  LandsIn16 (motionTarget ctx con.row con.col final).2 con.cols

instance (con : Console) (ctx : TermCtx) (final : UInt8) : Decidable (MotionFits con ctx final) :=
  inferInstanceAs (Decidable (_ ∧ _))

theorem TermCtx.paramOr_eq (ctx : TermCtx) (i : Nat) : ctx.paramOr i 1 = ctx.count i := by
  rw [TermCtx.paramOr, TermCtx.count]
  split_ifs <;> omega

theorem TermCtx.count_pos (ctx : TermCtx) (i : Nat) : 0 < ctx.count i := by
  rw [TermCtx.count]
  split <;> omega

theorem toU16_natCast (x : Nat) : toU16 x = x % 2 ^ 16 := by
  rw [toU16]
  omega

theorem toU16_sub (x n : Nat) :
    toU16 (if (x : Int) ≥ n then x - n else 0) = (x - n) % 2 ^ 16 := by
  rw [← toU16_natCast]
  congr 1
  split <;> omega

theorem csiDispatch_motion (con : Console) (ctx : TermCtx) (hfinal : IsMotion final)
    (hrow : con.row < 2 ^ 16) (hcol : con.col < 2 ^ 16) :
    (csiDispatch gpuConsole ctx con final).2 =
      gpuSetCursor con ((motionTarget ctx con.row con.col final).1 % 2 ^ 16)
        ((motionTarget ctx con.row con.col final).2 % 2 ^ 16) := by
  have hget : gpuConsole.getCursor con = (con.row, con.col) :=
    Prod.ext (Nat.mod_eq_of_lt hrow) (Nat.mod_eq_of_lt hcol)
  have hhome (i : Nat) : toU16 (ctx.paramOr i 1 - 1) = (ctx.count i - 1) % 2 ^ 16 := by
    have hpos := ctx.count_pos i
    rw [ctx.paramOr_eq, ← toU16_natCast]
    congr 1
    omega
  have hrow' := Nat.mod_eq_of_lt hrow
  have hcol' := Nat.mod_eq_of_lt hcol
  rw [csiDispatch, hget]
  obtain rfl | rfl | rfl | rfl | rfl | rfl := hfinal
  · simp only [ctx.paramOr_eq, toU16_sub, motionTarget, hcol', gpuConsole, if_true]
  · change gpuSetCursor con (toU16 (con.row + ctx.paramOr 0 1)) con.col =
      gpuSetCursor con ((con.row + ctx.count 0) % 2 ^ 16) (con.col % 2 ^ 16)
    rw [ctx.paramOr_eq, ← Int.natCast_add, toU16_natCast, hcol']
  · change gpuSetCursor con con.row (toU16 (con.col + ctx.paramOr 0 1)) =
      gpuSetCursor con (con.row % 2 ^ 16) ((con.col + ctx.count 0) % 2 ^ 16)
    rw [ctx.paramOr_eq, ← Int.natCast_add, toU16_natCast, hrow']
  · change gpuSetCursor con con.row
        (toU16 (if (con.col : Int) ≥ ctx.paramOr 0 1 then con.col - ctx.paramOr 0 1 else 0)) =
      gpuSetCursor con (con.row % 2 ^ 16) ((con.col - ctx.count 0) % 2 ^ 16)
    rw [ctx.paramOr_eq, toU16_sub, hrow']
  · exact congrArg₂ (gpuSetCursor con) (hhome 0) (hhome 1)
  · exact congrArg₂ (gpuSetCursor con) (hhome 0) (hhome 1)

theorem landsIn16_iff (hpos : 0 < bound) (hlt : bound < 2 ^ 16) :
    (if x % 2 ^ 16 ≥ bound then lastBelow bound else x % 2 ^ 16) = min x (bound - 1) ↔
      LandsIn16 x bound := by
  rw [lastBelow_eq hpos hlt, LandsIn16]
  split <;> omega

theorem motion_iff (con : Console) (ctx : TermCtx) (final : UInt8) (hfinal : IsMotion final)
    (hrow : con.row < 2 ^ 16) (hcol : con.col < 2 ^ 16) :
    MotionSaturates con ctx final ↔ MotionFits con ctx final := by
  have hdispatch := csiDispatch_motion con ctx hfinal hrow hcol
  have hrows := con.rows_lt
  have hcols := con.cols_lt
  constructor
  · intro h
    have hpos : 0 < con.rows := Nat.zero_lt_of_lt h.row_lt
    have hpos' : 0 < con.cols := Nat.zero_lt_of_lt h.col_lt
    have hrow := h.row
    have hcol := h.col
    rw [hdispatch] at hrow hcol
    exact ⟨hpos, hpos', (landsIn16_iff hpos hrows).mp hrow, (landsIn16_iff hpos' hcols).mp hcol⟩
  · intro ⟨hpos, hpos', hfit, hfit'⟩
    have hrow := (landsIn16_iff hpos hrows).mpr hfit
    have hcol := (landsIn16_iff hpos' hcols).mpr hfit'
    refine ⟨?_, ?_, ?_, ?_⟩
    · rw [hdispatch]
      exact hrow
    · rw [hdispatch]
      exact hcol
    · rw [hdispatch]
      refine Nat.lt_of_le_of_lt (Nat.le_of_eq hrow) ?_
      omega
    · rw [hdispatch]
      refine Nat.lt_of_le_of_lt (Nat.le_of_eq hcol) ?_
      omega

def oneParam (n : Int) : TermCtx where
  state := .csi
  params i := if i = 0 then n else 0
  nparams := 1
  paramActive := true
  fg := 0x0F
  bg := 0x00
  savedRow := 0
  savedCol := 0

/-- `CSI 99 B` from the first row of 25 -/
theorem motion_iff_down :
    IsMotion 0x42 ∧ textConsole.row < 2 ^ 16 ∧ textConsole.col < 2 ^ 16 ∧
    MotionSaturates textConsole (oneParam 99) 0x42 :=
  ⟨by decide, by decide, by decide,
    (motion_iff textConsole (oneParam 99) 0x42 (by decide) (by decide) (by decide)).mpr
      (by decide)⟩

/-- `CSI 65535 B` from the second row moves the cursor up. -/
theorem down_moves_up : ¬ MotionSaturates { textConsole with row := 1 } (oneParam 65535) 0x42 := by
  intro h
  have := h.row
  revert this
  decide

end EponaOS.Kernel
