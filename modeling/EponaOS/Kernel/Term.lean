import Mathlib.Tactic.Ring

/-!
# The terminal

`term.c`: `term_ctx_putc` takes one byte after the other, passes characters on to
`gpu_putc` and does what control sequences ask for. What `gpu.c` does is a parameter. The
calls of `gpu_putc` and of `csi_dispatch` are recorded.
-/

namespace EponaOS.Kernel

open Function (update)

/-- What the terminal uses of `gpu.c`; `G` is the state of the console. -/
structure Gpu (G : Type) where
  putc : G → UInt8 → G
  getCursor : G → Nat × Nat
  setCursor : G → Nat → Nat → G
  eraseDisplay : G → Int → G
  eraseLine : G → Int → G
  setColor : G → UInt8 → UInt8 → G

inductive TermState
  | ground
  | escape
  | csi
  | osc
  deriving DecidableEq

/-- `term_ctx_t` -/
structure TermCtx where
  state : TermState
  params : Nat → Int
  nparams : Nat
  paramActive : Bool
  fg : UInt8
  bg : UInt8
  savedRow : Nat
  savedCol : Nat

inductive TermEvent
  | putc (c : UInt8)
  | dispatch (final : UInt8)
  deriving DecidableEq

structure Terminal (G : Type) where
  ctx : TermCtx
  gpu : G
  events : List TermEvent

def ESC : UInt8 := 0x1B
def BEL : UInt8 := 0x07

-- ---------------------------------------------------------------------------
-- Parameters
-- ---------------------------------------------------------------------------

/-- Arithmetic of `int`. -/
def wrapInt (x : Int) : Int := x.bmod (2 ^ 32)

def paramsReset (ctx : TermCtx) : TermCtx :=
  { ctx with
    params := fun i => if i < 16 then 0 else ctx.params i
    nparams := 0
    paramActive := false }

def paramDigit (ctx : TermCtx) (d : Int) : TermCtx :=
  let ctx := if ctx.nparams = 0 then { ctx with nparams := 1, paramActive := false } else ctx
  let ctx := if !ctx.paramActive then
      { ctx with params := update ctx.params (ctx.nparams - 1) 0, paramActive := true }
    else ctx
  if ctx.nparams ≤ 16 then
    let p := wrapInt (ctx.params (ctx.nparams - 1) * 10 + d)
    { ctx with params := update ctx.params (ctx.nparams - 1) p }
  else ctx

def paramSep (ctx : TermCtx) : TermCtx :=
  if ctx.nparams < 16 then
    let n := ctx.nparams + 1
    { ctx with nparams := n, paramActive := false, params := update ctx.params (n - 1) 0 }
  else ctx

-- ---------------------------------------------------------------------------
-- Control sequences
-- ---------------------------------------------------------------------------

/-- What one parameter of `CSI m` does. -/
def sgrParam (ctx : TermCtx) (p : Int) : TermCtx :=
  let low (x : Int) : UInt8 := UInt8.ofNat x.toNat
  if p = 0 then { ctx with fg := 0x0F, bg := 0x00 }
  else if p = 1 then { ctx with fg := ctx.fg ||| 0x08 }
  else if p ≥ 30 ∧ p ≤ 37 then { ctx with fg := (ctx.fg &&& 0x08) ||| low (p - 30) }
  else if p = 39 then { ctx with fg := (ctx.fg &&& 0x08) ||| 0x07 }
  else if p ≥ 40 ∧ p ≤ 47 then { ctx with bg := low (p - 40) }
  else if p = 49 then { ctx with bg := 0x00 }
  else if p ≥ 90 ∧ p ≤ 97 then { ctx with fg := low (8 + (p - 90)) }
  else if p ≥ 100 ∧ p ≤ 107 then { ctx with bg := low (8 + (p - 100)) }
  else ctx

def applySgr (dev : Gpu G) (ctx : TermCtx) (g : G) : TermCtx × G :=
  let ctx := if ctx.nparams = 0 then { ctx with fg := 0x0F, bg := 0x00 } else ctx
  let ctx := (List.range ctx.nparams).foldl (fun c i => sgrParam c (c.params i)) ctx
  (ctx, dev.setColor g ctx.fg ctx.bg)

/-- `(uint16_t)` -/
def toU16 (x : Int) : Nat := (x % 2 ^ 16).toNat

def TermCtx.paramOr (ctx : TermCtx) (i : Nat) (default : Int) : Int :=
  if ctx.nparams > i ∧ ctx.params i > 0 then ctx.params i else default

def csiDispatch (dev : Gpu G) (ctx : TermCtx) (g : G) (final : UInt8) : TermCtx × G :=
  let n0 := ctx.paramOr 0 1
  let (row, col) := dev.getCursor g
  if final = 0x41 then
    (ctx, dev.setCursor g (toU16 (if (row : Int) ≥ n0 then row - n0 else 0)) col)
  else if final = 0x42 then (ctx, dev.setCursor g (toU16 (row + n0)) col)
  else if final = 0x43 then (ctx, dev.setCursor g row (toU16 (col + n0)))
  else if final = 0x44 then
    (ctx, dev.setCursor g row (toU16 (if (col : Int) ≥ n0 then col - n0 else 0)))
  else if final = 0x48 ∨ final = 0x66 then
    (ctx, dev.setCursor g (toU16 (ctx.paramOr 0 1 - 1)) (toU16 (ctx.paramOr 1 1 - 1)))
  else if final = 0x4A then (ctx, dev.eraseDisplay g (if ctx.nparams > 0 then ctx.params 0 else 0))
  else if final = 0x4B then (ctx, dev.eraseLine g (if ctx.nparams > 0 then ctx.params 0 else 0))
  else if final = 0x6D then applySgr dev ctx g
  else if final = 0x73 then ({ ctx with savedRow := row, savedCol := col }, g)
  else if final = 0x75 then (ctx, dev.setCursor g ctx.savedRow ctx.savedCol)
  else (ctx, g)

-- ---------------------------------------------------------------------------
-- The parser
-- ---------------------------------------------------------------------------

def IsFinal (b : UInt8) : Prop := 0x40 ≤ b ∧ b ≤ 0x7E

instance (b : UInt8) : Decidable (IsFinal b) := inferInstanceAs (Decidable (_ ∧ _))

def IsDigit (b : UInt8) : Prop := 0x30 ≤ b ∧ b ≤ 0x39

instance (b : UInt8) : Decidable (IsDigit b) := inferInstanceAs (Decidable (_ ∧ _))

/-- The parameters are not reset; `params_reset` does this at the start of a sequence. -/
def termCtxInit (ctx : TermCtx) : TermCtx :=
  { ctx with
    state := .ground, nparams := 0, paramActive := false, fg := 0x0F, bg := 0x00
    savedRow := 0, savedCol := 0 }

def Terminal.setCtx (t : Terminal G) (ctx : TermCtx) : Terminal G := { t with ctx }

def Terminal.setState (t : Terminal G) (state : TermState) : Terminal G :=
  t.setCtx { t.ctx with state }

def termCtxPutc (dev : Gpu G) (t : Terminal G) (b : UInt8) : Terminal G :=
  match t.ctx.state with
  | .ground =>
    if b = ESC then t.setState .escape
    else { t with gpu := dev.putc t.gpu b, events := t.events ++ [.putc b] }
  | .escape =>
    if b = 0x5B then (t.setCtx (paramsReset t.ctx)).setState .csi
    else if b = 0x5D then t.setState .osc
    else t.setState .ground
  | .csi =>
    if IsDigit b then t.setCtx (paramDigit t.ctx (b.toNat - 0x30))
    else if b = 0x3B then t.setCtx (paramSep t.ctx)
    else if IsFinal b then
      let r := csiDispatch dev t.ctx t.gpu b
      { ctx := { r.1 with state := .ground }, gpu := r.2, events := t.events ++ [.dispatch b] }
    -- intermediate bytes and rubbish are ignored
    else t
  | .osc => if b = BEL ∨ b = ESC then t.setState .ground else t

def termCtxPrint (dev : Gpu G) (t : Terminal G) (s : List UInt8) : Terminal G :=
  (s.takeWhile (· ≠ 0)).foldl (termCtxPutc dev) t

end EponaOS.Kernel
