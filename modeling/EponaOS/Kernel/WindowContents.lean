import EponaOS.Kernel.Readline
import EponaOS.Kernel.TermCursor
import EponaOS.Kernel.Windows

/-!
# What windows show

`gui.c`: a renderer fills the buffer of a window with one color and prints to it as to a console.
How `gpu.c` draws is a parameter. What comes of it depends on the size of the window only, and in
the file manager on the directory.
-/

namespace EponaOS.Kernel

open Drivers

/-- What the renderers use of `gpu.c`. `B` is what a buffer holds, `G` the state of the console. -/
structure Canvas (B G : Type) extends Gpu G where
  /-- A buffer of that many pixels of one color -/
  fill : UInt32 → Nat → B
  /-- `gpu_begin_target` with a width and a height, `gpu_set_console_viewport` with columns and rows
  at 0, 0. Without a buffer the target is the screen. -/
  beginTarget : Option B → Nat → Nat → Nat → Nat → G
  /-- What the target holds at `gpu_end_target` -/
  endTarget : G → B

def asciiBytes (s : String) : List UInt8 := s.toList.map fun c => UInt8.ofNat c.toNat

def Gpu.print (dev : Gpu G) (g : G) (s : List UInt8) : G := s.foldl dev.putc g

/-- `shell_print_prompt` -/
def Gpu.printPrompt (dev : Gpu G) (g : G) : G :=
  let g := dev.print (dev.setColor g 0x0A 0x00) promptUser
  let g := dev.print (dev.setColor g 0x0F 0x00) [0x3A]
  let g := dev.print (dev.setColor g 0x0B 0x00) [0x7E]
  dev.print (dev.setColor g 0x0F 0x00) [0x24, 0x20]

def Gpu.beside (S : Type) (dev : Gpu G) : Gpu (S × G) where
  putc g c := (g.1, dev.putc g.2 c)
  getCursor g := dev.getCursor g.2
  setCursor g row col := (g.1, dev.setCursor g.2 row col)
  eraseDisplay g mode := (g.1, dev.eraseDisplay g.2 mode)
  eraseLine g mode := (g.1, dev.eraseLine g.2 mode)
  setColor g fg bg := (g.1, dev.setColor g.2 fg bg)

/-- Buffers as the color that they were filled with and the cells that were drawn since. -/
def cellCanvas : Canvas (UInt32 × (Nat × Nat → Cell)) (UInt32 × Console) where
  toGpu := gpuConsole.beside UInt32
  fill color _ := (color, fun _ => ⟨0, 0⟩)
  beginTarget pixels _ _ cols rows :=
    let pixels := pixels.getD (0, fun _ => ⟨0, 0⟩)
    (pixels.1,
      { fbEnabled := true
        vpCols := cols % 2 ^ 16
        vpRows := rows % 2 ^ 16
        vpCols_lt := Nat.mod_lt _ (by decide)
        vpRows_lt := Nat.mod_lt _ (by decide)
        row := 0
        col := 0
        color := 0
        cells := pixels.2
        events := []
        scrolled := 0 })
  endTarget g := (g.1, g.2.cells)

-- ---------------------------------------------------------------------------
-- The renderers
-- ---------------------------------------------------------------------------

def CLR_WINDOWBG : UInt32 := 0xBBBBBB

/-- An entry that `vfs_readdir` passes to `fm_readdir_cb` -/
structure DirItem where
  name : List UInt8
  size : UInt32
  dir : Bool

variable {B G : Type} (C : Canvas B G)

/-- The start of each renderer: all pixels, the target, the viewport, the color and the cursor. -/
def beginWindow (w : Window B) (color : UInt32) (fg bg : UInt8) : G :=
  let pixels := w.buf.map fun _ => C.fill color (w.cw * w.ch).toNat
  let g := C.beginTarget pixels (toU16 w.cw) (toU16 w.ch) (toU16 (w.cw.tdiv 8))
    (toU16 (w.ch.tdiv 16))
  C.setCursor (C.setColor g fg bg) 0 0

def endWindow (w : Window B) (g : G) : Window B :=
  { w with buf := w.buf.map fun b => { b with pixels := C.endTarget g } }

def terminalGreeting (w : Window B) : Terminal G :=
  let t : Terminal G := ⟨termCtxInit w.term, beginWindow C w 0x000000 0x0F 0x00, []⟩
  let t := termCtxPrint C.toGpu t (asciiBytes "EponaOS Terminal\r\n")
  termCtxPrint C.toGpu t (asciiBytes "Type 'help' for commands.\r\n\r\n")

def winRenderTerminalInit (w : Window B) : Window B :=
  let t := terminalGreeting C w
  let g := C.printPrompt t.gpu
  let (row, col) := C.getCursor g
  { endWindow C w g with term := t.ctx, curRow := row, curCol := col }

def aboutText : List String :=
  ["  A hobby operating system written\n", "  from scratch in C and x86 ASM.\n\n",
    "  Kernel: x86_64 long mode\n", "  Memory: PMM + paging 4-level\n", "  Filesystem: FAT32\n",
    "  Network: ARP, TCP, HTTP\n", "  GUI: KolibriOS-style\n\n", "  (c) 2025 EponaOS Project\n"]

def drawAbout (w : Window B) : G :=
  let g := C.print (beginWindow C w CLR_WINDOWBG 0x01 0x07) (asciiBytes "         EponaOS\n\n")
  aboutText.foldl (fun g s => C.print g (asciiBytes s)) (C.setColor g 0x00 0x07)

def winRenderAbout (w : Window B) : Window B := endWindow C w (drawAbout C w)

def fmReaddirCb (g : G) (item : DirItem) : G :=
  let g := C.print g (asciiBytes "  ")
  let g := if item.dir then C.setColor g 0x01 0x07 else g
  let g := C.print g item.name
  let g := if item.dir then C.print g (asciiBytes "/") else g
  let g := C.setColor g 0x00 0x07
  let g := if item.dir then g
    else
      let g := C.print g (asciiBytes "  (")
      let g := C.print g (asciiBytes (toString item.size.toNat))
      C.print g (asciiBytes " bytes)")
  C.print g (asciiBytes "\n")

def drawFileman (root : List DirItem) (w : Window B) : G :=
  let g := beginWindow C w CLR_WINDOWBG 0x00 0x07
  let g := C.print g (asciiBytes "  EponaOS File Manager\n")
  let g := C.print g (asciiBytes "  --------------------\n\n")
  let g := C.print g (asciiBytes "  /\n")
  root.foldl (fmReaddirCb C) g

def winRenderFileman (root : List DirItem) (w : Window B) : Window B :=
  endWindow C w (drawFileman C root w)

/-- The renderer of a kind; `root` is the root directory. -/
def winRender (root : List DirItem) : WinKind → Window B → Window B
  | .terminal => winRenderTerminalInit C
  | .about => winRenderAbout C
  | .fileman => winRenderFileman C root

def renderSlot (s : Windows B) (root : List DirItem) (kind : WinKind) (i : Nat) : Windows B :=
  { s.setWin i (winRender C root kind (s.win i)) with
    events := s.events ++ [.render ((s.win i).buf.map Buffer.addr)] }

-- ---------------------------------------------------------------------------
-- What a renderer changes
-- ---------------------------------------------------------------------------

variable {C} {w : Window B} {b : Buffer B} {root : List DirItem} {kind : WinKind}

theorem termCtxPrint_plain (dev : Gpu G) {t : Terminal G} {s : List UInt8}
    (hground : t.ctx.state = .ground) (hplain : ESC ∉ s) : (termCtxPrint dev t s).ctx = t.ctx := by
  have hbytes : ESC ∉ s.takeWhile (· ≠ 0) := fun h => hplain ((List.takeWhile_sublist _).subset h)
  rw [termCtxPrint]
  generalize s.takeWhile (· ≠ 0) = bytes at hbytes
  induction bytes generalizing t with
  | nil => rfl
  | cons c cs ih =>
    rw [List.mem_cons, not_or] at hbytes
    obtain ⟨hc, hcs⟩ := hbytes
    have hstep : (termCtxPutc dev t c).ctx = t.ctx := by
      rw [termCtxPutc, hground]
      dsimp only
      rw [if_neg (Ne.symm hc)]
    rw [List.foldl_cons, ih (by rw [hstep, hground]) hcs, hstep]

theorem terminalGreeting_ctx (C : Canvas B G) (w : Window B) :
    (terminalGreeting C w).ctx = termCtxInit w.term := by
  have hfirst := termCtxPrint_plain C.toGpu
    (t := ⟨termCtxInit w.term, beginWindow C w 0x000000 0x0F 0x00, []⟩)
    (s := asciiBytes "EponaOS Terminal\r\n") rfl (by decide)
  rw [terminalGreeting, termCtxPrint_plain _ (by rw [hfirst]; rfl) (by decide), hfirst]

def LooksNew (C : Canvas B G) (root : List DirItem) (w : Window B) (b : Buffer B) : WinKind → Prop
  | .terminal =>
    let g := C.printPrompt (terminalGreeting C w).gpu
    b.pixels = C.endTarget g ∧ w.term = termCtxInit w.term ∧ (w.curRow, w.curCol) = C.getCursor g
  | .about => b.pixels = C.endTarget (drawAbout C w)
  | .fileman => b.pixels = C.endTarget (drawFileman C root w)

theorem endWindow_eq_iff (g : G) (hbuf : w.buf = some b) :
    endWindow C w g = w ↔ b.pixels = C.endTarget g := by
  obtain ⟨addr, pixels⟩ := b
  cases w
  cases hbuf
  simp only [endWindow, Option.map_some, Window.mk.injEq, Option.some.injEq, Buffer.mk.injEq,
    true_and, and_true]
  exact eq_comm

theorem endTerminal_eq_iff (g : G) (ctx : TermCtx) (p : Nat × Nat) (hbuf : w.buf = some b) :
    { endWindow C w g with term := ctx, curRow := p.1, curCol := p.2 } = w ↔
      b.pixels = C.endTarget g ∧ w.term = ctx ∧ (w.curRow, w.curCol) = p := by
  obtain ⟨addr, pixels⟩ := b
  obtain ⟨row, col⟩ := p
  cases w
  cases hbuf
  simp only [endWindow, Option.map_some, Window.mk.injEq, Option.some.injEq, Buffer.mk.injEq,
    Prod.mk.injEq, true_and, and_true]
  grind

theorem winRender_eq_iff (hbuf : w.buf = some b) :
    winRender C root kind w = w ↔ LooksNew C root w b kind := by
  cases kind with
  | terminal =>
    rw [LooksNew, ← terminalGreeting_ctx C w]
    exact endTerminal_eq_iff _ _ _ hbuf
  | about => exact endWindow_eq_iff _ hbuf
  | fileman => exact endWindow_eq_iff _ hbuf

@[simp] theorem winRender_used (w : Window B) : (winRender C root kind w).used = w.used := by
  cases kind <;> rfl

end EponaOS.Kernel
