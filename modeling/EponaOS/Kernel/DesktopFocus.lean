import EponaOS.Kernel.Desktop

/-!
# Where keys go

The window on top is drawn as the one that has the focus. A click on a window gives it the focus,
and a window that is closed passes it on. The menu and the icons put a new window on top and leave
the focus, and the drag, where they were.
-/

namespace EponaOS.Kernel

open Drivers
open Function (update)

variable {B G : Type} {C : Canvas B G} {scr : Screen} {s : Desktop B} {a : LoopStep B}

/-- Keys go to the window on top. A window that is dragged is at `g_drag_zpos`. -/
structure FocusOnTop (s : Desktop B) : Prop where
  top : 0 < s.winCount → s.focusZpos = s.winCount - 1
  none : s.winCount = 0 → s.focusZpos = -1
  drag : s.dragZpos = -1 ∨
    ∃ z : Nat, s.dragZpos = z ∧ z < s.winCount ∧ s.dragged = some (s.zorder z)

def requested (scr : Screen) (s : Desktop B) (r : PointerRead B) : Option NewWindow :=
  if Pressed r.buttons ∧ ¬ Pressed s.lastButtons then
    (clickAt scr s (readPointer scr r.mx r.my) r.clock).asks
  else none

/-- No window is opened, and no desktop is left to the one that it was started from while it has
windows. -/
def KeepsTop (scr : Screen) (s : Desktop B) : LoopStep B → Prop
  | .pointer r => requested scr s r = none ∨ freeSlot s.toWindows = none
  | .key k => k.c = 27 → s.callers = [] ∨ s.winCount = 0

-- ---------------------------------------------------------------------------
-- The focus
-- ---------------------------------------------------------------------------

structure Settled (s : Desktop B) : Prop where
  focus : s.focusZpos = (s.winCount : Int) - 1
  drag : s.dragZpos = -1 ∨
    ∃ z : Nat, s.dragZpos = z ∧ z < s.winCount ∧ s.dragged = some (s.zorder z)
  released : ¬ Pressed s.lastButtons → s.dragZpos = -1

theorem FocusOnTop.focus (h : FocusOnTop s) : s.focusZpos = (s.winCount : Int) - 1 := by
  obtain hzero | hpos := Nat.eq_zero_or_pos s.winCount
  · rw [h.none hzero, hzero]
    rfl
  · exact h.top hpos

theorem Settled.focusOnTop (h : Settled s) : FocusOnTop s where
  top _ := h.focus
  none hzero := by rw [h.focus, hzero]; rfl
  drag := h.drag

theorem focusTop_focus (s : Desktop B) : s.focusTop.focusZpos = (s.winCount : Int) - 1 := by
  rw [Desktop.focusTop]
  dsimp only
  split <;> omega

theorem guiStart_settled (C : Canvas B G) (s : Desktop B) (tb ab : Option (Buffer B)) :
    Settled (guiStart C s tb ab) :=
  ⟨focusTop_focus _, .inl rfl, fun _ => rfl⟩

theorem openWindow_full (h : freeSlot s.toWindows = none) (n : NewWindow)
    (buf : Option (Buffer B)) (root : List DirItem) :
    (openWindow C s.toWindows n buf root).winCount = s.winCount := by
  rw [openWindow, winCreate_of_full h]
  dsimp only
  split <;> rfl

theorem openWindow_free (h : freeSlot s.toWindows ≠ none) (n : NewWindow)
    (buf : Option (Buffer B)) (root : List DirItem) :
    (openWindow C s.toWindows n buf root).winCount = s.winCount + 1 := by
  obtain ⟨i, hi⟩ := Option.ne_none_iff_exists'.mp h
  rw [openWindow, winCreate_of_free hi]
  dsimp only
  split <;> rfl

theorem closeAll_winCount (s : Windows B) : (closeAll s).winCount = 0 := by
  have hrun : ∀ zs : List Nat, (zs.foldl winClose s).winCount = s.winCount - zs.length := by
    intro zs
    induction zs generalizing s with
    | nil => rfl
    | cons z zs ih => rw [List.foldl_cons, ih, winClose_winCount, List.length_cons]; omega
  rw [closeAll, hrun, List.length_reverse, List.length_range, Nat.sub_self]

theorem closeAll_nil {s : Windows B} (h : s.winCount = 0) : closeAll s = s := by
  rw [closeAll, h]
  rfl

-- ---------------------------------------------------------------------------
-- Clicks
-- ---------------------------------------------------------------------------

variable {p : Pointer} {r : PointerRead B} {c : Click} {n : NewWindow} {clock : Bool}

def Click.zpos : Click → Option Nat
  | .closeButton zpos => some zpos
  | .titleBar zpos => some zpos
  | .window zpos => some zpos
  | _ => none

theorem clickWindow_zpos (s : Windows B) (p : Pointer) (zpos : Nat) :
    (clickWindow s p zpos).zpos = some zpos := by
  rw [clickWindow]
  split
  · rfl
  · split <;> rfl

theorem clickIcon_zpos (p : Pointer) (clock : Bool) : (clickIcon p clock).zpos = none := by
  rw [clickIcon]
  split
  · rfl
  · split <;> rfl

theorem clickAt_zpos (h : (clickAt scr s p clock).zpos = some z) : z < s.winCount := by
  rw [clickAt] at h
  split at h
  · cases h
  split at h
  · split at h <;> cases h
  split at h
  · next hhit =>
    rw [clickWindow_zpos] at h
    cases h
    exact winHitTest_lt hhit
  · rw [clickIcon_zpos] at h
    cases h

theorem openAsked_settled (hfocus : s.focusZpos = (s.winCount : Int) - 1)
    (hdrag : s.dragZpos = -1) (hfull : c.asks = none ∨ freeSlot s.toWindows = none) :
    Settled (openAsked C s r c) := by
  rw [openAsked]
  split
  · next n hasks =>
    have hfull := hfull.resolve_left (by rw [hasks]; nofun)
    have hcount := openWindow_full (C := C) hfull n r.buf r.root
    refine ⟨?_, .inl hdrag, fun _ => hdrag⟩
    change s.focusZpos = ((openWindow C s.toWindows n r.buf r.root).winCount : Int) - 1
    rw [hcount, hfocus]
  · exact ⟨hfocus, .inl hdrag, fun _ => hdrag⟩

theorem raiseAt_focus (s : Desktop B) (zpos : Nat) :
    (raiseAt s zpos).focusZpos = (s.winCount : Int) - 1 := by
  change ((winRaise s.toWindows zpos).winCount : Int) - 1 = _
  rw [winRaise_winCount]

theorem startDrag_settled (hz : z < s.winCount) (hpressed : Pressed s.lastButtons) :
    Settled (startDrag (raiseAt s z) (s.zorder z) p) := by
  have hcount : (raiseAt s z).winCount = s.winCount := winRaise_winCount s.toWindows z
  have hfocus := raiseAt_focus s z
  refine ⟨?_, .inr ⟨s.winCount - 1, ?_, ?_, ?_⟩, fun hup => absurd hpressed hup⟩
  · exact hfocus.trans (by rw [← hcount]; rfl)
  · change (raiseAt s z).focusZpos = _
    rw [hfocus]
    omega
  · change s.winCount - 1 < (raiseAt s z).winCount
    rw [hcount]
    omega
  · exact congrArg some (winRaise_top s.toWindows z).symm

theorem onClick_settled (hfocus : s.focusZpos = (s.winCount : Int) - 1) (hdrag : s.dragZpos = -1)
    (hpressed : Pressed s.lastButtons) (hz : ∀ z, c.zpos = some z → z < s.winCount)
    (hfull : c.asks = none ∨ freeSlot s.toWindows = none) : Settled (onClick C s p r c) := by
  have hsame : Settled s := ⟨hfocus, .inl hdrag, fun _ => hdrag⟩
  cases c with
  | menuButton => exact ⟨hfocus, .inl hdrag, fun _ => hdrag⟩
  | menuItem i => exact openAsked_settled (s := { s with menuOpen := false }) hfocus hdrag hfull
  | besideMenu => exact ⟨hfocus, .inl hdrag, fun _ => hdrag⟩
  | closeButton zpos => exact ⟨focusTop_focus _, .inl hdrag, fun _ => hdrag⟩
  | titleBar zpos => exact startDrag_settled (hz zpos rfl) hpressed
  | window zpos =>
    refine ⟨?_, .inl hdrag, fun _ => hdrag⟩
    exact (raiseAt_focus s zpos).trans (by rw [← winRaise_winCount s.toWindows zpos]; rfl)
  | icon i => exact openAsked_settled hfocus hdrag hfull
  | nothing => exact hsame

theorem openAsked_eq (hasks : c.asks = some n) :
    openAsked C s r c = s.setWindows (openWindow C s.toWindows n r.buf r.root) := by
  rw [openAsked, hasks]

theorem onClick_asks (hasks : c.asks = some n) :
    ∃ menuOpen, onClick C s p r c =
      { s with menuOpen, toWindows := openWindow C s.toWindows n r.buf r.root } := by
  cases c with
  | menuItem i => exact ⟨false, openAsked_eq hasks⟩
  | icon i => exact ⟨s.menuOpen, openAsked_eq hasks⟩
  | menuButton => cases hasks
  | besideMenu => cases hasks
  | closeButton zpos => cases hasks
  | titleBar zpos => cases hasks
  | window zpos => cases hasks
  | nothing => cases hasks

theorem requested_step (C : Canvas B G) (hasks : requested scr s r = some n) :
    ∃ menuOpen, pointerStep C scr s r =
      { s with
        lastButtons := r.buttons
        menuOpen
        toWindows := openWindow C s.toWindows n r.buf r.root } := by
  rw [requested] at hasks
  split at hasks
  · next hclick =>
    have hstep : pointerStep C scr s r = onClick C { s with lastButtons := r.buttons }
        (readPointer scr r.mx r.my) r
        (clickAt scr s (readPointer scr r.mx r.my) r.clock) := if_pos hclick
    rw [hstep]
    exact onClick_asks (s := { s with lastButtons := r.buttons }) hasks
  · cases hasks

theorem pointerStep_settled (h : Settled s) (hkeeps : KeepsTop scr s (.pointer r)) :
    Settled (pointerStep C scr s r) := by
  rw [pointerStep]
  dsimp only
  split
  · next hclick =>
    refine onClick_settled h.focus (h.released hclick.2) hclick.1 (fun z => clickAt_zpos) ?_
    refine hkeeps.imp_left fun hno => ?_
    rwa [requested, if_pos hclick] at hno
  split
  · exact ⟨h.focus, .inl rfl, fun _ => rfl⟩
  · next hclick hrelease =>
    -- the button is as it was, or nothing is dragged
    have hup : ¬ Pressed r.buttons → s.dragZpos = -1 := fun hup =>
      h.released fun hdown => hrelease ⟨hup, hdown⟩
    split
    · exact ⟨h.focus, h.drag, hup⟩
    · exact ⟨h.focus, h.drag, hup⟩

theorem pointerStep_spoils (h : Settled s) (hrunning : s.running = true)
    (hno : ¬ KeepsTop scr s (.pointer r)) :
    (pointerStep C scr s r).running = true ∧ ¬ FocusOnTop (pointerStep C scr s r) := by
  obtain ⟨hasked, hfree⟩ := not_or.mp hno
  obtain ⟨n, hasks⟩ := Option.ne_none_iff_exists'.mp hasked
  obtain ⟨menuOpen, hstep⟩ := requested_step C hasks
  rw [hstep]
  refine ⟨hrunning, fun hafter => ?_⟩
  -- one window more, and the focus is where it was
  have htop := hafter.focus
  change s.focusZpos = ((openWindow C s.toWindows n r.buf r.root).winCount : Int) - 1 at htop
  rw [openWindow_free hfree, h.focus] at htop
  omega

-- ---------------------------------------------------------------------------
-- Keys
-- ---------------------------------------------------------------------------

variable {k : KeyRead B}

theorem winTerminalFeed_settled (h : Settled s) (i : Nat) :
    Settled (winTerminalFeed C s i k) := by
  rw [winTerminalFeed]
  split
  · rw [feedEnter]
    split
    · exact guiStart_settled C _ _ _
    · exact ⟨h.focus, h.drag, h.released⟩
  · split
    · exact ⟨h.focus, h.drag, h.released⟩
    · exact h

theorem Settled.not_dragging (h : Settled s) (hzero : s.winCount = 0) : s.dragZpos = -1 := by
  obtain hdrag | ⟨z, -, hz, -⟩ := h.drag
  · exact hdrag
  · omega

theorem leaveDesktop_settled (h : Settled s) (hleave : s.callers = [] ∨ s.winCount = 0)
    (d : Shown B) (hrunning : (leaveDesktop s d).running = true) :
    Settled (leaveDesktop s d) := by
  rw [leaveDesktop] at hrunning ⊢
  cases hcallers : s.callers with
  | nil =>
    simp only [Desktop.setWindows, hcallers] at hrunning
    cases hrunning
  | cons caller callers =>
    have hzero := hleave.resolve_left (by rw [hcallers]; exact List.cons_ne_nil _ _)
    have hdrag := h.not_dragging hzero
    simp only [Desktop.setWindows, hcallers, closeAll_nil hzero]
    exact ⟨h.focus, .inl hdrag, fun _ => hdrag⟩

theorem leaveDesktop_spoils (h : Settled s) (hcallers : s.callers ≠ []) (hopen : s.winCount ≠ 0)
    (hrunning : s.running = true) (d : Shown B) :
    (leaveDesktop s d).running = true ∧ ¬ FocusOnTop (leaveDesktop s d) := by
  obtain ⟨caller, callers, hc⟩ := List.exists_cons_of_ne_nil hcallers
  have hstep : leaveDesktop s d =
      endCommand { s.setWindows (closeAll s.toWindows) with
        callers, lastButtons := caller.lastButtons } caller.slot d := by
    simp only [leaveDesktop, Desktop.setWindows, hc]
  rw [hstep]
  refine ⟨hrunning, fun hafter => ?_⟩
  -- the windows are closed, and the focus is still on the one that was on top
  have hnone := hafter.none (closeAll_winCount s.toWindows)
  change s.focusZpos = -1 at hnone
  rw [h.focus] at hnone
  omega

theorem keyStep_settled (h : Settled s) (hkeeps : KeepsTop scr s (.key k))
    (hrunning : (keyStep C s k).running = true) : Settled (keyStep C s k) := by
  rw [keyStep] at hrunning ⊢
  split at hrunning
  · next hesc =>
    rw [if_pos hesc]
    exact leaveDesktop_settled h (hkeeps hesc) k.shown hrunning
  · next hesc =>
    rw [if_neg hesc]
    split
    · dsimp only
      split
      · exact winTerminalFeed_settled h _
      · exact h
    · exact h

theorem keyStep_spoils (h : Settled s) (hrunning : s.running = true)
    (hno : ¬ KeepsTop scr s (.key k)) :
    (keyStep C s k).running = true ∧ ¬ FocusOnTop (keyStep C s k) := by
  rw [KeepsTop, Classical.not_imp, not_or] at hno
  obtain ⟨hesc, hcallers, hopen⟩ := hno
  rw [keyStep, if_pos hesc]
  exact leaveDesktop_spoils h hcallers hopen hrunning k.shown

-- ---------------------------------------------------------------------------
-- Every run
-- ---------------------------------------------------------------------------

theorem desktopStep_settled (h : s.running = true → Settled s)
    (hkeeps : s.running = true → KeepsTop scr s a) :
    (desktopStep C scr s a).running = true → Settled (desktopStep C scr s a) := by
  unfold desktopStep
  split
  · next hrunning =>
    cases a with
    | pointer r => exact fun _ => pointerStep_settled (h hrunning) (hkeeps hrunning)
    | key k => exact keyStep_settled (h hrunning) (hkeeps hrunning)
  · exact h

theorem desktopStep_spoils (h : s.running = true → Settled s)
    (hno : ¬ (s.running = true → KeepsTop scr s a)) :
    ¬ ((desktopStep C scr s a).running = true → FocusOnTop (desktopStep C scr s a)) := by
  obtain ⟨hrunning, hno⟩ := Classical.not_imp.mp hno
  unfold desktopStep
  rw [if_pos hrunning, Classical.not_imp]
  cases a with
  | pointer r => exact pointerStep_spoils (h hrunning) hrunning hno
  | key k => exact keyStep_spoils (h hrunning) hrunning hno

/-- In every state of the loop keys go to the window on top exactly when no step opens a window and
none leaves a desktop with windows to the one that it was started from. -/
theorem focusOnTop_iff (C : Canvas B G) (scr : Screen) (s : Desktop B)
    (terminalBuf aboutBuf : Option (Buffer B)) (steps : List (LoopStep B)) :
    (∀ before, before <+: steps →
      let t := desktopRun C scr (guiStart C s terminalBuf aboutBuf) before
      t.running = true → FocusOnTop t) ↔
    ∀ before a, before ++ [a] <+: steps →
      let t := desktopRun C scr (guiStart C s terminalBuf aboutBuf) before
      t.running = true → KeepsTop scr t a :=
  foldl_always_iff (fun t => t.running = true → Settled t)
    (fun t => t.running = true → FocusOnTop t)
    (fun t a => t.running = true → KeepsTop scr t a) steps
    (fun _ => guiStart_settled C s terminalBuf aboutBuf)
    (fun _ h hrunning => (h hrunning).focusOnTop) (fun _ _ => desktopStep_settled)
    fun _ _ => desktopStep_spoils

def clickTerminalIcon (buf : Option (Buffer B)) : PointerRead B := ⟨-360, 250, 1, false, buf, []⟩

def cellBuffer (addr : Nat) : Buffer (UInt32 × (Nat × Nat → Cell)) := ⟨addr, 0, fun _ => ⟨0, 0⟩⟩

def freshDesktop : Desktop (UInt32 × (Nat × Nat → Cell)) :=
  guiStart cellCanvas .boot (some (cellBuffer 0x200000)) (some (cellBuffer 0x300000))

/-- The new terminal is the third window, and keys go to the second. -/
theorem new_window_unfocused :
    ¬ ∀ steps,
      let t := desktopRun cellCanvas ⟨800, 600⟩ freshDesktop steps
      t.running = true → FocusOnTop t := by
  intro hall
  have htop := (hall [.pointer (clickTerminalIcon (some (cellBuffer 0x400000)))] (by decide)).top
    (by decide)
  revert htop
  decide

end EponaOS.Kernel
