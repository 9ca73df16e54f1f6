import EponaOS.Kernel.DesktopFocus

/-!
# Windows that cannot be opened

The menu and the icons do not look at what `win_create` returns. Whatever window is on top
afterwards is drawn: the new one, with or without a buffer, or one that was there before.
-/

namespace EponaOS.Kernel

open Drivers
open Function (update)

variable {B G : Type} {C : Canvas B G} {scr : Screen} {s t : Windows B} {n : NewWindow}
  {buf : Option (Buffer B)} {root : List DirItem} {kind : WinKind} {i zpos : Nat}

-- ---------------------------------------------------------------------------
-- The order of the windows
-- ---------------------------------------------------------------------------

theorem Windows.Ordered.setWin (h : s.Ordered) (hused : w.used = (s.win i).used) :
    (s.setWin i w).Ordered := by
  refine h.of_used rfl fun j => ?_
  change (update s.win i w j).used = _
  by_cases hj : j = i
  · rw [hj, Function.update_self, hused]
  · rw [Function.update_of_ne hj]

theorem Windows.Ordered.renderSlot (h : s.Ordered) (C : Canvas B G) (root : List DirItem)
    (kind : WinKind) (i : Nat) : (renderSlot C s root kind i).Ordered :=
  (h.setWin (winRender_used (s.win i))).of_used rfl fun _ => rfl

theorem Windows.Ordered.openWindow (h : s.Ordered) (C : Canvas B G) (n : NewWindow)
    (buf : Option (Buffer B)) (root : List DirItem) : (openWindow C s n buf root).Ordered := by
  have hcreated := h.winCreate n buf
  rw [Kernel.openWindow]
  split
  · exact hcreated.renderSlot C root n.kind _
  · exact hcreated

theorem closeAll_succ (h : s.winCount = m + 1) : closeAll s = closeAll (winClose s m) := by
  have hcount : (winClose s m).winCount = m := by rw [winClose_winCount, h, Nat.add_sub_cancel]
  rw [closeAll, closeAll, h, hcount, List.range_succ, List.reverse_append]
  rfl

theorem Windows.Ordered.closeAll (h : s.Ordered) : (closeAll s).Ordered := by
  generalize hm : s.winCount = m
  induction m generalizing s with
  | zero => rwa [closeAll_nil hm]
  | succ m ih =>
    rw [closeAll_succ hm]
    refine ih (h.winClose (by omega)) ?_
    rw [winClose_winCount, hm, Nat.add_sub_cancel]

theorem Windows.Ordered.renderCreated (h : s.Ordered) (C : Canvas B G) (kind : WinKind)
    (i : Option Nat) : (renderCreated C s kind i).Ordered := by
  cases i with
  | none => exact h
  | some i => exact h.renderSlot C [] kind i

variable {d : Desktop B} {p : Pointer} {r : PointerRead B} {c : Click} {clock : Bool}

theorem guiStart_ordered (C : Canvas B G) (d : Desktop B) (tb ab : Option (Buffer B)) :
    (guiStart C d tb ab).Ordered := by
  let unused : Windows B :=
    { d.toWindows with
      win := fun i => if i < MAX_WINDOWS then { d.win i with used := false } else d.win i
      winCount := 0 }
  have hunused : unused.Ordered := by
    refine ⟨List.nodup_nil, fun i => ?_⟩
    change i ∈ [] ↔ i < MAX_WINDOWS ∧
      (if i < MAX_WINDOWS then { d.win i with used := false } else d.win i).used = true
    by_cases hi : i < MAX_WINDOWS
    · simp [hi]
    · simp [hi]
  have hcreated := (hunused.winCreate newTerminal tb).winCreate aboutAtStart ab
  have hti := hcreated.renderCreated C .terminal (winCreate unused newTerminal tb).1
  exact hti.renderCreated C .about
    (winCreate (winCreate unused newTerminal tb).2 aboutAtStart ab).1

theorem openAsked_ordered (h : d.Ordered) (c : Click) : (openAsked C d r c).Ordered := by
  rw [openAsked]
  split
  · exact h.openWindow C _ r.buf r.root
  · exact h

theorem onClick_ordered (h : d.Ordered) (hz : ∀ z, c.zpos = some z → z < d.winCount) :
    (onClick C d p r c).Ordered := by
  cases c with
  | menuButton => exact h
  | menuItem i => exact openAsked_ordered (d := { d with menuOpen := false }) h _
  | besideMenu => exact h
  | closeButton zpos => exact h.winClose (hz zpos rfl)
  | titleBar zpos => exact h.winRaise (hz zpos rfl)
  | window zpos => exact h.winRaise (hz zpos rfl)
  | icon i => exact openAsked_ordered h _
  | nothing => exact h

theorem pointerStep_ordered (h : d.Ordered) : (pointerStep C scr d r).Ordered := by
  rw [pointerStep]
  dsimp only
  split
  · exact onClick_ordered (d := { d with lastButtons := r.buttons }) h fun z => clickAt_zpos
  split
  · exact h
  split
  · exact h.setWin rfl
  · exact h

theorem leaveDesktop_ordered (h : d.Ordered) (shown : Shown B) :
    (leaveDesktop d shown).Ordered := by
  rw [leaveDesktop]
  split
  · exact h.closeAll
  · exact h.closeAll.setWin rfl

theorem winTerminalFeed_ordered (h : d.Ordered) (i : Nat) (k : KeyRead B) :
    (winTerminalFeed C d i k).Ordered := by
  rw [winTerminalFeed]
  split
  · rw [feedEnter]
    split
    · exact guiStart_ordered C _ _ _
    · exact h.setWin rfl
  · split
    · exact h.setWin rfl
    · exact h

theorem keyStep_ordered (h : d.Ordered) (k : KeyRead B) : (keyStep C d k).Ordered := by
  rw [keyStep]
  split
  · exact leaveDesktop_ordered h k.shown
  split
  · dsimp only
    split
    · exact winTerminalFeed_ordered h _ k
    · exact h
  · exact h

/-- However the desktop is used, `g_zorder` has the windows that are used, each once. -/
theorem desktopRun_ordered (C : Canvas B G) (scr : Screen) (h : d.Ordered)
    (steps : List (LoopStep B)) : (desktopRun C scr d steps).Ordered := by
  induction steps generalizing d with
  | nil => exact h
  | cons a steps ih =>
    refine ih ?_
    unfold desktopStep
    split
    · cases a with
      | pointer r => exact pointerStep_ordered h
      | key k => exact keyStep_ordered h k
    · exact h

-- ---------------------------------------------------------------------------
-- Requests that fail
-- ---------------------------------------------------------------------------

/-- What was there before is as it was, and nothing was drawn without a buffer. -/
structure Untouched (s t : Windows B) : Prop where
  windows : ∀ i ∈ s.order, t.win i = s.win i
  order : s.order <+: t.order
  rendered : .render none ∉ t.events.drop s.events.length

theorem renderSlot_untouched_iff (hz : zpos < s.winCount) :
    Untouched s (renderSlot C s root kind (s.zorder zpos)) ↔
      ∃ b, (s.win (s.zorder zpos)).buf = some b ∧
        LooksNew C root (s.win (s.zorder zpos)) b kind := by
  have hlen : zpos < s.order.length := by rwa [order_length]
  have hmem : s.zorder zpos ∈ s.order := order_getElem hlen ▸ List.getElem_mem hlen
  have hnew : (renderSlot C s root kind (s.zorder zpos)).events.drop s.events.length =
      [.render ((s.win (s.zorder zpos)).buf.map Buffer.addr)] := List.drop_left ..
  constructor
  · intro h
    have hsame := h.windows _ hmem
    change update s.win _ _ _ = _ at hsame
    rw [Function.update_self] at hsame
    have hdrawn := h.rendered
    rw [hnew] at hdrawn
    cases hbuf : (s.win (s.zorder zpos)).buf with
    | none =>
      rw [hbuf] at hdrawn
      exact absurd (List.mem_singleton_self _) hdrawn
    | some b => exact ⟨b, rfl, (winRender_eq_iff hbuf).mp hsame⟩
  · rintro ⟨b, hbuf, hlooks⟩
    refine ⟨fun i _ => ?_, List.prefix_rfl, ?_⟩
    · change update s.win _ _ _ = _
      rw [(winRender_eq_iff hbuf).mpr hlooks, Function.update_eq_self]
    · rw [hnew, hbuf]
      simp

theorem openWindow_of_full (h : freeSlot s = none) (hpos : 0 < s.winCount) :
    openWindow C s n buf root = renderSlot C s root n.kind (s.zorder (s.winCount - 1)) := by
  rw [openWindow, winCreate_of_full h, if_pos hpos]

theorem openWindow_of_free (h : freeSlot s = some i) :
    openWindow C s n buf root = renderSlot C (winCreate s n buf).2 root n.kind i := by
  have htop : update s.zorder s.winCount i s.winCount = i := Function.update_self ..
  rw [openWindow, winCreate_of_free h, if_pos (Nat.succ_pos _)]
  exact congrArg (renderSlot C _ root n.kind) htop

/-- The window that is on top is drawn when no other can be created, and a new one without a
buffer is drawn, too. -/
theorem openWindow_untouched_iff (h : s.Ordered) (hfails : freeSlot s = none ∨ buf = none) :
    Untouched s (openWindow C s n buf root) ↔
      freeSlot s = none ∧ ∃ b, (s.win (s.zorder (s.winCount - 1))).buf = some b ∧
        LooksNew C root (s.win (s.zorder (s.winCount - 1))) b n.kind := by
  cases hslot : freeSlot s with
  | none =>
    have hpos : 0 < s.winCount := by
      rw [h.full_iff.mp hslot]
      decide
    rw [openWindow_of_full hslot hpos, renderSlot_untouched_iff (Nat.sub_lt hpos Nat.one_pos),
      eq_self_iff_true, true_and]
  | some i =>
    obtain rfl := hfails.resolve_left (by rw [hslot]; nofun)
    refine iff_of_false (fun hu => ?_) (fun hno => nomatch hno.1)
    -- the slot that was free is drawn
    apply hu.rendered
    have hnone : ((winCreate s n none).2.win i).buf = none := by
      rw [winCreate_of_free hslot]
      change (update s.win i _ i).buf = none
      rw [Function.update_self]
      rfl
    have hevents : (winCreate s n (none : Option (Buffer B))).2.events = s.events := by
      rw [winCreate_of_free hslot]
      rfl
    rw [openWindow_of_free hslot, renderSlot, hnone, hevents]
    simp

/-- A request that fails leaves the windows alone exactly when no slot is free and the window on top
has a buffer and looks as a new one of the kind that was asked for. -/
theorem failed_request_iff (C : Canvas B G) (scr : Screen) (d : Desktop B)
    (terminalBuf aboutBuf : Option (Buffer B)) (steps : List (LoopStep B)) (r : PointerRead B)
    (n : NewWindow) :
    let t := desktopRun C scr (guiStart C d terminalBuf aboutBuf) steps
    let top := t.win (t.zorder (t.winCount - 1))
    t.running = true → requested scr t r = some n →
      freeSlot t.toWindows = none ∨ r.buf = none →
      (Untouched t.toWindows (desktopStep C scr t (.pointer r)).toWindows ↔
        freeSlot t.toWindows = none ∧ ∃ b, top.buf = some b ∧ LooksNew C r.root top b n.kind) := by
  intro t top hrunning hasks hfails
  have hordered : t.Ordered :=
    desktopRun_ordered C scr (guiStart_ordered C d terminalBuf aboutBuf) steps
  have hstep : desktopStep C scr t (.pointer r) = pointerStep C scr t r := if_pos hrunning
  obtain ⟨menuOpen, hwindows⟩ := requested_step C hasks
  rw [hstep, hwindows]
  exact openWindow_untouched_iff hordered hfails

theorem failed_request_iff_terminal :
    let click := LoopStep.pointer (clickTerminalIcon none)
    Untouched freshDesktop.toWindows
        (desktopStep cellCanvas ⟨800, 600⟩ freshDesktop click).toWindows ↔
      freeSlot freshDesktop.toWindows = none ∧
        ∃ b, (freshDesktop.win 1).buf = some b ∧
          LooksNew cellCanvas [] (freshDesktop.win 1) b .terminal :=
  failed_request_iff cellCanvas ⟨800, 600⟩ .boot (some (cellBuffer 0x200000))
    (some (cellBuffer 0x300000)) [] (clickTerminalIcon none) newTerminal (by decide) (by decide)
    (.inr rfl)

/-- `kmalloc` fails, and the new terminal is drawn without a buffer. -/
theorem terminal_drawn_without_buffer :
    ¬ ∀ (steps : List (LoopStep (UInt32 × (Nat × Nat → Cell)))) (r : PointerRead _)
      (n : NewWindow),
      let t := desktopRun cellCanvas ⟨800, 600⟩ freshDesktop steps
      t.running = true → requested ⟨800, 600⟩ t r = some n →
        freeSlot t.toWindows = none ∨ r.buf = none →
        Untouched t.toWindows (desktopStep cellCanvas ⟨800, 600⟩ t (.pointer r)).toWindows := by
  intro hall
  have hsame := hall [] (clickTerminalIcon none) newTerminal (by decide) (by decide) (.inr rfl)
  refine hsame.rendered ?_
  decide

end EponaOS.Kernel
