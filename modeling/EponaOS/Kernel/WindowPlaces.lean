import EponaOS.Kernel.WindowRequests

/-!
# Where windows are

Windows are made with one of four sizes, and a window that is dragged stops at the edges of the
screen and at the taskbar. On a screen with room for each of them, no window goes over an edge of
the coordinates.
-/

namespace EponaOS.Kernel

open Drivers
open Function (update)

/-- On coordinates of 16 bits, with room for the title and the buttons -/
structure Window.Placed (w : Window B) : Prop where
  x_nonneg : 0 ≤ w.x
  y_nonneg : 0 ≤ w.y
  right : w.x + winTotalW w < 2 ^ 16
  bottom : w.y + winTotalH w < 2 ^ 16
  width : 34 ≤ winTotalW w
  height : 0 ≤ w.ch
  title : 6 + 8 * (w.title.length : Int) ≤ winTotalW w

/-- The window can be dragged over the screen, and the taskbar stays free. -/
structure Window.Fits (scr : Screen) (w : Window B) : Prop extends w.Placed where
  wide : winTotalW w ≤ scr.w.toNat
  tall : winTotalH w + TASKBAR_H ≤ scr.h.toNat

def Window.frame (w : Window B) : (Int × Int) × (Int × Int) × List UInt8 :=
  ((w.x, w.y), (w.cw, w.ch), w.title)

def Windows.AllFit (scr : Screen) (s : Windows B) : Prop :=
  ∀ i < MAX_WINDOWS, (s.win i).used = true → (s.win i).Fits scr

/-- There is room for a terminal, and for the file manager. -/
structure Screen.Roomy (scr : Screen) : Prop where
  wide : 522 ≤ scr.w.toNat
  tall : 369 ≤ scr.h.toNat

variable {B G : Type} {C : Canvas B G} {scr : Screen} {w w' : Window B} {s t : Windows B}
  {n : NewWindow} {buf : Option (Buffer B)} {root : List DirItem} {kind : WinKind} {i zpos : Nat}

theorem Window.Fits.of_frame (h : w.Fits scr) (hframe : w'.frame = w.frame) : w'.Fits scr := by
  simp only [Window.frame, Prod.mk.injEq] at hframe
  obtain ⟨⟨hx, hy⟩, ⟨hcw, hch⟩, htitle⟩ := hframe
  have hwidth : winTotalW w' = winTotalW w := by rw [winTotalW, winTotalW, hcw]
  have hheight : winTotalH w' = winTotalH w := by rw [winTotalH, winTotalH, hch]
  constructor
  · constructor <;> simp only [hx, hy, hch, htitle, hwidth, hheight]
    · exact h.x_nonneg
    · exact h.y_nonneg
    · exact h.right
    · exact h.bottom
    · exact h.width
    · exact h.height
    · exact h.title
  · exact hwidth ▸ h.wide
  · exact hheight ▸ h.tall

-- ---------------------------------------------------------------------------
-- One window
-- ---------------------------------------------------------------------------

theorem Windows.AllFit.setWin (h : s.AllFit scr)
    (hw : i < MAX_WINDOWS → w.used = true → w.Fits scr) : (s.setWin i w).AllFit scr := by
  intro j hj hused
  change (update s.win i w j).used = true at hused
  change (update s.win i w j).Fits scr
  obtain rfl | hji := eq_or_ne j i
  · rw [Function.update_self] at hused ⊢
    exact hw hj hused
  · rw [Function.update_of_ne hji] at hused ⊢
    exact h j hj hused

theorem Windows.AllFit.change (h : s.AllFit scr) (hused : w.used = (s.win i).used)
    (hframe : w.frame = (s.win i).frame) : (s.setWin i w).AllFit scr :=
  h.setWin fun hi hw => (h i hi (hused ▸ hw)).of_frame hframe

theorem Windows.AllFit.renderSlot (h : s.AllFit scr) (C : Canvas B G) (root : List DirItem)
    (kind : WinKind) (i : Nat) : (renderSlot C s root kind i).AllFit scr :=
  h.change (winRender_used (s.win i)) (by cases kind <;> rfl)

theorem Windows.AllFit.renderCreated (h : s.AllFit scr) (C : Canvas B G) (kind : WinKind)
    (i : Option Nat) : (renderCreated C s kind i).AllFit scr := by
  cases i with
  | none => exact h
  | some i => exact h.renderSlot C [] kind i

/-- The windows that `gui.c` asks for -/
def newWindows : List NewWindow := [newTerminal, newFileman, newAbout, aboutAtStart]

theorem newWindows_sizes : ∀ n ∈ newWindows,
    (0 ≤ n.x ∧ n.x < 2 ^ 15) ∧ (0 ≤ n.y ∧ n.y < 2 ^ 15) ∧ (32 ≤ n.cw ∧ n.cw ≤ 520) ∧
      (0 ≤ n.ch ∧ n.ch ≤ 320) ∧ 6 + 8 * (n.title.length : Int) ≤ n.cw := by
  decide

theorem created_fits (hscr : scr.Roomy) (w : Window B) (buf : Option (Buffer B))
    (hn : n ∈ newWindows) : (w.created n buf).Fits scr := by
  have hwide := hscr.wide
  have htall := hscr.tall
  obtain ⟨⟨hx, hx'⟩, ⟨hy, hy'⟩, ⟨hcw, hcw'⟩, ⟨hch, hch'⟩, htitle⟩ := newWindows_sizes n hn
  have hwidth : winTotalW (w.created n buf) = n.cw + 2 := rfl
  have hheight : winTotalH (w.created n buf) = n.ch + 22 + 1 := rfl
  have hbar : TASKBAR_H = 26 := rfl
  have htake : (n.title.take 31).length ≤ n.title.length := List.length_take_le' ..
  refine ⟨⟨hx, hy, ?_, ?_, ?_, hch, ?_⟩, ?_, ?_⟩
  · change n.x + _ < _
    omega
  · change n.y + _ < _
    omega
  · omega
  · change 6 + 8 * ((n.title.take 31).length : Int) ≤ _
    omega
  · omega
  · omega

theorem Windows.AllFit.winCreate (h : s.AllFit scr) (hscr : scr.Roomy)
    (hn : n ∈ newWindows) (buf : Option (Buffer B)) :
    (winCreate s n buf).2.AllFit scr := by
  cases hslot : freeSlot s with
  | none => rwa [winCreate_of_full hslot]
  | some i =>
    rw [winCreate_of_free hslot]
    exact h.setWin (i := i) fun _ _ => created_fits hscr (s.win i) buf hn

theorem Windows.AllFit.winClose (h : s.AllFit scr) (zpos : Nat) : (winClose s zpos).AllFit scr := by
  rw [Windows.AllFit, winClose_win]
  exact h.setWin (w := { s.win (s.zorder zpos) with used := false }) fun _ hused => nomatch hused

theorem Windows.AllFit.winRaise (h : s.AllFit scr) (zpos : Nat) : (winRaise s zpos).AllFit scr := by
  rwa [Windows.AllFit, winRaise_win]

theorem Windows.AllFit.closeAll (h : s.AllFit scr) : (closeAll s).AllFit scr :=
  List.foldlRecOn _ _ h fun _ hs zpos _ => hs.winClose zpos

theorem Windows.AllFit.openWindow (h : s.AllFit scr) (C : Canvas B G) (hscr : scr.Roomy)
    (hn : n ∈ newWindows) (buf : Option (Buffer B))
    (root : List DirItem) : (openWindow C s n buf root).AllFit scr := by
  have hcreated := h.winCreate hscr hn buf
  rw [Kernel.openWindow]
  split
  · exact hcreated.renderSlot C root n.kind _
  · exact hcreated

-- ---------------------------------------------------------------------------
-- The desktop
-- ---------------------------------------------------------------------------

variable {d : Desktop B} {p : Pointer} {r : PointerRead B} {c : Click}

theorem guiStart_allFit (C : Canvas B G) (hscr : scr.Roomy) (d : Desktop B)
    (tb ab : Option (Buffer B)) : (guiStart C d tb ab).AllFit scr := by
  let unused : Windows B :=
    { d.toWindows with
      win := fun i => if i < MAX_WINDOWS then { d.win i with used := false } else d.win i
      winCount := 0 }
  have hunused : unused.AllFit scr := by
    intro i hi hused
    change (if i < MAX_WINDOWS then { d.win i with used := false } else d.win i).used = true at hused
    rw [if_pos hi] at hused
    cases hused
  have hterminal := hunused.winCreate hscr (n := newTerminal) (by decide) tb
  have habout := hterminal.winCreate hscr (n := aboutAtStart) (by decide) ab
  have hti := habout.renderCreated C .terminal (winCreate unused newTerminal tb).1
  exact hti.renderCreated C .about
    (winCreate (winCreate unused newTerminal tb).2 aboutAtStart ab).1

theorem asks_mem (hasks : c.asks = some n) :
    n ∈ newWindows := by
  have hitem : ∀ {i}, itemWindow i = some n → n ∈ newWindows :=
    fun h => List.mem_append_left [aboutAtStart] (List.mem_of_getElem? h)
  cases c with
  | menuItem i => exact hitem hasks
  | icon i => exact hitem hasks
  | menuButton | besideMenu | closeButton | titleBar | window | nothing => cases hasks

theorem openAsked_allFit (h : d.AllFit scr) (hscr : scr.Roomy) (c : Click) :
    (openAsked C d r c).AllFit scr := by
  rw [openAsked]
  split
  · next hasks => exact h.openWindow C hscr (asks_mem hasks) r.buf r.root
  · exact h

theorem onClick_allFit (h : d.AllFit scr) (hscr : scr.Roomy) :
    (onClick C d p r c).AllFit scr := by
  cases c with
  | menuButton => exact h
  | menuItem i => exact openAsked_allFit (d := { d with menuOpen := false }) h hscr _
  | besideMenu => exact h
  | closeButton zpos => exact h.winClose zpos
  | titleBar zpos => exact h.winRaise zpos
  | window zpos => exact h.winRaise zpos
  | icon i => exact openAsked_allFit h hscr _
  | nothing => exact h

theorem clampTo_bounds (h : 0 ≤ hi) : 0 ≤ clampTo v hi ∧ clampTo v hi ≤ hi := by
  simp only [clampTo]
  split <;> split <;> omega

theorem dragWindow_allFit (h : d.AllFit scr) (p : Pointer) : (dragWindow scr d p).AllFit scr := by
  refine h.setWin (i := d.zorder d.dragZpos.toNat) fun hi hused => ?_
  have hfits := h _ hi hused
  have hscrw := scr.w.toNat_lt
  have hscrh := scr.h.toNat_lt
  have hwide := hfits.wide
  have htall := hfits.tall
  obtain ⟨hx, hx'⟩ := clampTo_bounds (v := p.x - d.dragDx) (Int.sub_nonneg_of_le hwide)
  have hroom : 0 ≤ scr.h.toNat - winTotalH (d.win (d.zorder d.dragZpos.toNat)) - TASKBAR_H := by
    omega
  obtain ⟨hy, hy'⟩ := clampTo_bounds (v := p.y - d.dragDy) hroom
  have hbar : TASKBAR_H = 26 := rfl
  refine ⟨⟨hx, hy, ?_, ?_, hfits.width, hfits.height, hfits.title⟩, hwide, htall⟩
  · change clampTo _ _ + winTotalW (d.win (d.zorder d.dragZpos.toNat)) < _
    omega
  · change clampTo _ _ + winTotalH (d.win (d.zorder d.dragZpos.toNat)) < _
    omega

theorem pointerStep_allFit (h : d.AllFit scr) (hscr : scr.Roomy) :
    (pointerStep C scr d r).AllFit scr := by
  rw [pointerStep]
  split
  · exact onClick_allFit (d := { d with lastButtons := r.buttons }) h hscr
  split
  · exact h
  split
  · exact dragWindow_allFit (d := { d with lastButtons := r.buttons }) h _
  · exact h

theorem leaveDesktop_allFit (h : d.AllFit scr) (shown : Shown B) :
    (leaveDesktop d shown).AllFit scr := by
  rw [leaveDesktop]
  split
  · exact h.closeAll
  · exact h.closeAll.change rfl rfl

theorem winTerminalFeed_allFit (h : d.AllFit scr) (hscr : scr.Roomy) (i : Nat) (k : KeyRead B) :
    (winTerminalFeed C d i k).AllFit scr := by
  rw [winTerminalFeed]
  split
  · rw [feedEnter]
    split
    · exact guiStart_allFit C hscr _ _ _
    · exact h.change rfl rfl
  · split
    · exact h.change rfl rfl
    · exact h

theorem keyStep_allFit (h : d.AllFit scr) (hscr : scr.Roomy) (k : KeyRead B) :
    (keyStep C d k).AllFit scr := by
  rw [keyStep]
  split
  · exact leaveDesktop_allFit h k.shown
  split
  · dsimp only
    split
    · exact winTerminalFeed_allFit h hscr _ k
    · exact h
  · exact h

theorem desktopRun_allFit (C : Canvas B G) (hscr : scr.Roomy) (h : d.AllFit scr)
    (steps : List (LoopStep B)) : (desktopRun C scr d steps).AllFit scr := by
  refine List.foldlRecOn (motive := fun d : Desktop B => d.AllFit scr) _ _ h fun d hd a _ => ?_
  unfold desktopStep
  split
  · cases a with
    | pointer r => exact pointerStep_allFit hd hscr
    | key k => exact keyStep_allFit hd hscr k
  · exact hd

end EponaOS.Kernel
