import EponaOS.Kernel.WindowContents
import EponaOS.Lib.Run

/-!
# The desktop

`gui_run_desktop`: the loop reads the pointer, then a key, again and again. A command that is
entered in a terminal may be `gui`; then another loop runs in the middle of this one, on the same
windows.
-/

namespace EponaOS.Kernel

open Drivers
open Function (update)

def TASKBAR_H : Int := 26

/-- `gpu_width` and `gpu_height` -/
structure Screen where
  w : UInt16
  h : UInt16

structure Caller where
  lastButtons : UInt8
  slot : Nat

/-- The globals of `gui.c` and the loops that run; `dragged` is the slot of the window that was
taken by its title bar and is not let go. -/
structure Desktop (B : Type) extends Windows B where
  dragZpos : Int
  dragDx : Int
  dragDy : Int
  focusZpos : Int
  menuOpen : Bool
  lastButtons : UInt8
  callers : List Caller
  running : Bool
  dragged : Option Nat

variable {B G : Type}

def Desktop.setWindows (s : Desktop B) (ws : Windows B) : Desktop B := { s with toWindows := ws }

/-- `g_focus_zpos = g_win_count > 0 ? g_win_count - 1 : -1` -/
def Desktop.focusTop (s : Desktop B) : Desktop B :=
  { s with focusZpos := if s.winCount > 0 then s.winCount - 1 else -1 }

-- ---------------------------------------------------------------------------
-- The pointer
-- ---------------------------------------------------------------------------

structure Pointer where
  x : Int
  y : Int

/-- `mouse_get_state`, whether the clock shows another time, what `kmalloc` returns if it is
called, and what is in the root directory. -/
structure PointerRead (B : Type) where
  mx : Int
  my : Int
  buttons : UInt8
  clock : Bool
  buf : Option (Buffer B)
  root : List DirItem

def clampTo (v hi : Int) : Int :=
  let v := if v < 0 then 0 else v
  if v > hi then hi else v

def readPointer (scr : Screen) (mx my : Int) : Pointer where
  x := clampTo (scr.w.toNat / 2 + mx) (scr.w.toNat - 12)
  y := clampTo (scr.h.toNat / 2 - my) (scr.h.toNat - 16)

def menuItemFrom (p : Pointer) : List Nat → Int → Option Nat
  | [], _ => none
  | i :: items, iy =>
    if i = 5 then menuItemFrom p items (iy + 6)
    else if pointIn p.x p.y 4 iy 176 24 then some i
    else menuItemFrom p items (iy + 24)

def menuItemAt (scr : Screen) (p : Pointer) : Option Nat :=
  menuItemFrom p [0, 1, 2, 3, 4, 5, 6] (scr.h.toNat - TASKBAR_H - 200 + 24)

def iconPlaces : List (Int × Int) :=
  [(20, 20), (90, 20), (160, 20), (230, 20), (300, 20),
    (20, 90), (90, 90), (160, 90), (230, 90), (300, 90)]

def iconAt (p : Pointer) : Option Nat :=
  iconPlaces.findIdx? fun at_ => pointIn p.x p.y at_.1 at_.2 40 60

inductive Click
  | menuButton
  | menuItem (i : Nat)
  | besideMenu
  | closeButton (zpos : Nat)
  | titleBar (zpos : Nat)
  | window (zpos : Nat)
  | icon (i : Nat)
  | nothing
  deriving DecidableEq

def clickWindow (s : Windows B) (p : Pointer) (zpos : Nat) : Click :=
  let w := s.win (s.zorder zpos)
  if pointIn p.x p.y (w.x + winTotalW w - 18) (w.y + 4) 14 14 then .closeButton zpos
  else if pointIn p.x p.y w.x w.y (winTotalW w) TITLEBAR_H then .titleBar zpos
  else .window zpos

def clickIcon (p : Pointer) (clock : Bool) : Click :=
  if clock then .nothing
  else
    match iconAt p with
    | some i => .icon i
    | none => .nothing

def clickAt (scr : Screen) (s : Desktop B) (p : Pointer) (clock : Bool) : Click :=
  if pointIn p.x p.y 2 (scr.h.toNat - TASKBAR_H + 3) 50 20 then .menuButton
  else if s.menuOpen then
    match menuItemAt scr p with
    | some i => .menuItem i
    | none => .besideMenu
  else
    match winHitTest s.toWindows p.x p.y with
    | some zpos => clickWindow s.toWindows p zpos
    | none => clickIcon p clock

def newTerminal : NewWindow := ⟨.terminal, asciiBytes "Terminal", 200, 60, 520, 300⟩
def newFileman : NewWindow := ⟨.fileman, asciiBytes "File Manager", 150, 50, 480, 320⟩
def newAbout : NewWindow := ⟨.about, asciiBytes "About EponaOS", 350, 100, 380, 240⟩

/-- The windows that the first items of the menu and the first icons ask for -/
def itemWindow (i : Nat) : Option NewWindow := [newTerminal, newFileman, newAbout][i]?

def Click.asks : Click → Option NewWindow
  | .menuItem i => itemWindow i
  | .icon i => itemWindow i
  | _ => none

/-- `win_create`, and then a renderer for whatever window is on top -/
def openWindow (C : Canvas B G) (s : Windows B) (n : NewWindow) (buf : Option (Buffer B))
    (root : List DirItem) : Windows B :=
  let s := (winCreate s n buf).2
  if s.winCount > 0 then renderSlot C s root n.kind (s.zorder (s.winCount - 1)) else s

def openAsked (C : Canvas B G) (s : Desktop B) (r : PointerRead B) (c : Click) : Desktop B :=
  match c.asks with
  | some n => s.setWindows (openWindow C s.toWindows n r.buf r.root)
  | none => s

def startDrag (s : Desktop B) (i : Nat) (p : Pointer) : Desktop B :=
  { s with
    dragZpos := s.focusZpos
    dragDx := p.x - (s.win i).x
    dragDy := p.y - (s.win i).y
    dragged := some i }

def raiseAt (s : Desktop B) (zpos : Nat) : Desktop B :=
  let s := s.setWindows (winRaise s.toWindows zpos)
  { s with focusZpos := s.winCount - 1 }

def onClick (C : Canvas B G) (s : Desktop B) (p : Pointer) (r : PointerRead B) :
    Click → Desktop B
  | .menuButton => { s with menuOpen := !s.menuOpen }
  | .menuItem i => openAsked C { s with menuOpen := false } r (.menuItem i)
  | .besideMenu => { s with menuOpen := false }
  | .closeButton zpos => (s.setWindows (winClose s.toWindows zpos)).focusTop
  | .titleBar zpos => startDrag (raiseAt s zpos) (s.zorder zpos) p
  | .window zpos => raiseAt s zpos
  | .icon i => openAsked C s r (.icon i)
  | .nothing => s

def dragWindow (scr : Screen) (s : Desktop B) (p : Pointer) : Desktop B :=
  let i := s.zorder s.dragZpos.toNat
  let w := s.win i
  s.setWindows (s.setWin i { w with
    x := clampTo (p.x - s.dragDx) (scr.w.toNat - winTotalW w)
    y := clampTo (p.y - s.dragDy) (scr.h.toNat - winTotalH w - TASKBAR_H) })

def Pressed (buttons : UInt8) : Prop := buttons &&& 1 ≠ 0

instance (buttons : UInt8) : Decidable (Pressed buttons) := inferInstanceAs (Decidable (_ ≠ _))

def pointerStep (C : Canvas B G) (scr : Screen) (s : Desktop B) (r : PointerRead B) : Desktop B :=
  let p := readPointer scr r.mx r.my
  let last := s.lastButtons
  let s := { s with lastButtons := r.buttons }
  if Pressed r.buttons ∧ ¬ Pressed last then onClick C s p r (clickAt scr s p r.clock)
  else if ¬ Pressed r.buttons ∧ Pressed last then { s with dragZpos := -1, dragged := none }
  else if Pressed r.buttons ∧ s.dragZpos ≥ 0 then dragWindow scr s p
  else s

-- ---------------------------------------------------------------------------
-- Keys
-- ---------------------------------------------------------------------------

structure Shown (B : Type) where
  pixels : B
  term : TermCtx
  row : Nat
  col : Nat

/-- A key, what the terminal shows after it, and what `kmalloc` returns to a desktop that
starts. -/
structure KeyRead (B : Type) where
  c : Nat
  shown : Shown B
  terminalBuf : Option (Buffer B)
  aboutBuf : Option (Buffer B)

def Window.shows (w : Window B) (d : Shown B) : Window B :=
  { w with
    buf := w.buf.map fun b => { b with pixels := d.pixels }
    term := d.term
    curRow := d.row
    curCol := d.col }

/-- The line as the line editor has it, which looks neither at a history nor at a console here -/
def Window.editor (w : Window B) : Shell := ⟨.boot, w.lineBuf, w.lineCpos, textConsole⟩

/-- A key of the line editor in `win_terminal_feed`; `none` where the line is not drawn again. -/
def feedEdit (ed : Shell) (c : Nat) : Option Shell :=
  if c = 0x08 then if ed.cpos > 0 then some (shellBackspaceChar ed) else none
  else if c = KEY_DEL then some (shellDeleteChar ed)
  else if c = 0x09 then none
  else if c = KEY_LEFT then if ed.cpos > 0 then some { ed with cpos := ed.cpos - 1 } else none
  else if c = KEY_RIGHT then
    if ed.cpos < ed.buf.length then some { ed with cpos := ed.cpos + 1 } else none
  else if c = KEY_HOME then some { ed with cpos := 0 }
  else if c = KEY_END then some { ed with cpos := ed.buf.length }
  else if c ≥ 32 ∧ c < 127 ∧ ed.buf.length < SHELL_LINE_MAX - 1 then
    some (shellInsertChar ed (UInt8.ofNat c))
  else none

def IsBlank (b : UInt8) : Bool := b == 0x20 || b == 0x09

/-- `tokens[0]` of `tokenize` -/
def firstToken (line : List UInt8) : List UInt8 :=
  (line.dropWhile IsBlank).takeWhile fun b => !IsBlank b

/-- `shell_dispatch_line` calls `gui_run_desktop`. -/
def RunsGui (line : List UInt8) : Prop := firstToken line = asciiBytes "gui"

instance (line : List UInt8) : Decidable (RunsGui line) := inferInstanceAs (Decidable (_ = _))

def aboutAtStart : NewWindow := ⟨.about, asciiBytes "About EponaOS", 400, 120, 380, 240⟩

def renderCreated (C : Canvas B G) (s : Windows B) (kind : WinKind) (i : Option Nat) : Windows B :=
  match i with
  | some i => renderSlot C s [] kind i
  | none => s

/-- `gui_run_desktop` up to its loop, on a framebuffer -/
def guiStart (C : Canvas B G) (s : Desktop B) (terminalBuf aboutBuf : Option (Buffer B)) :
    Desktop B :=
  let unused : Windows B :=
    { s.toWindows with
      win := fun i => if i < MAX_WINDOWS then { s.win i with used := false } else s.win i
      winCount := 0 }
  let (ti, ws) := winCreate unused newTerminal terminalBuf
  let (ai, ws) := winCreate ws aboutAtStart aboutBuf
  let ws := renderCreated C (renderCreated C ws .terminal ti) .about ai
  Desktop.focusTop { s.setWindows ws with
    dragZpos := -1, dragged := none, lastButtons := 0, running := true }

/-- The end of `gui_dispatch_command` -/
def endCommand (s : Desktop B) (i : Nat) (d : Shown B) : Desktop B :=
  s.setWindows (s.setWin i { (s.win i).shows d with lineBuf := [], lineCpos := 0 })

def feedEnter (C : Canvas B G) (s : Desktop B) (i : Nat) (k : KeyRead B) : Desktop B :=
  if RunsGui (s.win i).lineBuf then
    let s := s.setWindows (s.setWin i ((s.win i).shows k.shown))
    guiStart C { s with callers := ⟨s.lastButtons, i⟩ :: s.callers } k.terminalBuf k.aboutBuf
  else endCommand s i k.shown

def winTerminalFeed (C : Canvas B G) (s : Desktop B) (i : Nat) (k : KeyRead B) : Desktop B :=
  if k.c = 0x0A then feedEnter C s i k
  else
    match feedEdit (s.win i).editor k.c with
    | some ed =>
      s.setWindows (s.setWin i
        { (s.win i).shows k.shown with lineBuf := ed.buf, lineCpos := ed.cpos })
    | none => s

/-- The loop behind `break`, from the top down -/
def closeAll (s : Windows B) : Windows B :=
  (List.range s.winCount).reverse.foldl winClose s

def leaveDesktop (s : Desktop B) (d : Shown B) : Desktop B :=
  let s := s.setWindows (closeAll s.toWindows)
  match s.callers with
  | [] => { s with running := false }
  | caller :: callers =>
    endCommand { s with callers, lastButtons := caller.lastButtons } caller.slot d

def keyStep (C : Canvas B G) (s : Desktop B) (k : KeyRead B) : Desktop B :=
  if k.c = 27 then leaveDesktop s k.shown
  else if k.c ≠ 0 ∧ s.focusZpos ≥ 0 then
    let i := s.zorder s.focusZpos.toNat
    if (s.win i).kind = .terminal then winTerminalFeed C s i k else s
  else s

-- ---------------------------------------------------------------------------
-- Runs
-- ---------------------------------------------------------------------------

inductive LoopStep (B : Type)
  | pointer (r : PointerRead B)
  | key (k : KeyRead B)

def desktopStep (C : Canvas B G) (scr : Screen) (s : Desktop B) (a : LoopStep B) : Desktop B :=
  if s.running then
    match a with
    | .pointer r => pointerStep C scr s r
    | .key k => keyStep C s k
  else s

def desktopRun (C : Canvas B G) (scr : Screen) (s : Desktop B) (steps : List (LoopStep B)) :
    Desktop B :=
  steps.foldl (desktopStep C scr) s

def Desktop.boot : Desktop B where
  win _ :=
    { used := false, x := 0, y := 0, cw := 0, ch := 0, title := [], kind := .terminal, buf := none
      term := ⟨.ground, fun _ => 0, 0, false, 0, 0, 0, 0⟩, curRow := 0, curCol := 0
      lineBuf := [], lineCpos := 0 }
  zorder _ := 0
  winCount := 0
  events := []
  dragZpos := -1
  dragDx := 0
  dragDy := 0
  focusZpos := -1
  menuOpen := false
  lastButtons := 0
  callers := []
  running := false
  dragged := none

end EponaOS.Kernel
