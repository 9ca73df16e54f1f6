import EponaOS.Kernel.Desktop
import EponaOS.Lib.Run

/-!
# Windows over a run

`win_create`, `win_raise` and `win_close` in any order. A run starts with no window open; what
`kmalloc` returns comes with the call.
-/

namespace EponaOS.Kernel

open Function (update)

variable {B : Type} {s t start : Windows B} {zpos : Nat}

inductive WindowCall (B : Type)
  | create (n : NewWindow) (buf : Option (Buffer B))
  | raise (zpos : Nat)
  | close (zpos : Nat)

def WindowCall.Valid (s : Windows B) : WindowCall B → Prop
  | .create .. => True
  | .raise zpos => zpos < s.winCount
  | .close zpos => zpos < s.winCount

def windowCall (s : Windows B) : WindowCall B → Windows B
  | .create n buf => (winCreate s n buf).2
  | .raise zpos => winRaise s zpos
  | .close zpos => winClose s zpos

def windowStep (s : Windows B) (c : WindowCall B) (t : Windows B) : Prop := windowCall s c = t

structure Windows.NoneOpen (s : Windows B) : Prop where
  winCount : s.winCount = 0
  unused : ∀ i, (s.win i).used = false
  events : s.events = []

-- ---------------------------------------------------------------------------
-- Buffers
-- ---------------------------------------------------------------------------

def bufAddr (buf : Option (Buffer B)) : Option Nat := buf.map Buffer.addr

/-- Without a free slot `kmalloc` is not called. -/
def WindowCall.allocates (s : Windows B) : WindowCall B → List Nat
  | .create _ buf => if (freeSlot s).isSome then (bufAddr buf).toList else []
  | .raise _ => []
  | .close _ => []

/-- What `kmalloc` returned in a run -/
def allocated : Windows B → List (WindowCall B) → List Nat
  | _, [] => []
  | s, c :: cs => c.allocates s ++ allocated (windowCall s c) cs

def WinEvent.freed : WinEvent → Option Nat
  | .render _ => none
  | .free addr => some addr

/-- The addresses that `kfree` was called with -/
def Windows.freed (s : Windows B) : List Nat := s.events.filterMap WinEvent.freed

def Windows.held (s : Windows B) : List Nat := s.order.filterMap fun i => bufAddr (s.win i).buf

theorem winCreate_events (s : Windows B) (n : NewWindow) (buf : Option (Buffer B)) :
    (winCreate s n buf).2.events = s.events := by
  rw [winCreate]
  split <;> rfl

theorem winRaise_events (s : Windows B) (zpos : Nat) : (winRaise s zpos).events = s.events := by
  rw [winRaise]
  split <;> rfl

theorem freeBuf_events (s : Windows B) (buf : Option (Buffer B)) :
    (freeBuf s buf).events = s.events ++ (bufAddr buf).toList.map WinEvent.free := by
  cases buf with
  | none => exact (List.append_nil _).symm
  | some b => rfl

theorem winClose_events (s : Windows B) (zpos : Nat) :
    (winClose s zpos).events =
      s.events ++ (bufAddr (s.win (s.zorder zpos)).buf).toList.map WinEvent.free :=
  freeBuf_events s _

theorem freed_winClose (s : Windows B) (zpos : Nat) :
    (winClose s zpos).freed = s.freed ++ (bufAddr (s.win (s.zorder zpos)).buf).toList := by
  rw [Windows.freed, winClose_events, List.filterMap_append]
  cases bufAddr (s.win (s.zorder zpos)).buf <;> rfl

theorem held_winCreate (h : s.Ordered) (hslot : freeSlot s = some i) (n : NewWindow)
    (buf : Option (Buffer B)) :
    (winCreate s n buf).2.held = s.held ++ (bufAddr buf).toList := by
  have hothers : ∀ j ∈ s.order,
      bufAddr ((winCreate s n buf).2.win j).buf = bufAddr (s.win j).buf := by
    intro j hj
    have hji : j ≠ i := by
      rintro rfl
      have hused := ((h.mem j).mp hj).2
      rw [(freeSlot_spec hslot).2] at hused
      cases hused
    rw [winCreate_of_free hslot]
    exact congrArg (fun w => bufAddr w.buf) (Function.update_of_ne hji _ s.win)
  have hnew : bufAddr ((winCreate s n buf).2.win i).buf = bufAddr buf := by
    rw [winCreate_of_free hslot]
    have hw : update s.win i ((s.win i).created n buf) i = (s.win i).created n buf :=
      Function.update_self ..
    exact congrArg (fun w => bufAddr w.buf) hw
  rw [Windows.held, order_winCreate hslot, List.filterMap_append, List.filterMap_congr hothers]
  congr 1
  rw [List.filterMap_cons, List.filterMap_nil, hnew]
  cases bufAddr buf <;> rfl

theorem held_winRaise (hz : zpos < s.winCount) : (winRaise s zpos).held.Perm s.held := by
  rw [Windows.held, order_winRaise hz, winRaise_win]
  exact ((List.perm_append_singleton _ _).trans (order_perm hz)).filterMap _

theorem held_winClose (h : s.Ordered) (hz : zpos < s.winCount) :
    ((bufAddr (s.win (s.zorder zpos)).buf).toList ++ (winClose s zpos).held).Perm s.held := by
  have hgone : s.zorder zpos ∉ s.order.eraseIdx zpos :=
    (List.nodup_cons.mp ((order_perm hz).nodup_iff.mpr h.nodup)).1
  have hothers : ∀ j ∈ s.order.eraseIdx zpos,
      bufAddr ((winClose s zpos).win j).buf = bufAddr (s.win j).buf := by
    intro j hj
    have hji : j ≠ s.zorder zpos := by
      rintro rfl
      exact hgone hj
    rw [winClose_win, Function.update_of_ne hji]
  rw [Windows.held, order_winClose hz, List.filterMap_congr hothers]
  refine List.Perm.trans (List.Perm.of_eq ?_) ((order_perm hz).filterMap _)
  rw [List.filterMap_cons]
  cases bufAddr (s.win (s.zorder zpos)).buf <;> rfl

-- ---------------------------------------------------------------------------
-- One call
-- ---------------------------------------------------------------------------

theorem Windows.NoneOpen.ordered (h : s.NoneOpen) : s.Ordered := by
  have horder : s.order = [] := by rw [Windows.order, h.winCount]; rfl
  refine ⟨horder ▸ List.nodup_nil, fun i => ?_⟩
  rw [horder, h.unused i]
  simp

theorem Windows.Ordered.windowCall (h : s.Ordered) (c : WindowCall B) (hc : c.Valid s) :
    (windowCall s c).Ordered := by
  cases c with
  | create n buf => exact h.winCreate n buf
  | raise zpos => exact h.winRaise hc
  | close zpos => exact h.winClose hc

/-- A buffer goes from `kmalloc` to a window, and from there to `kfree`. -/
theorem windowCall_buffers (h : s.Ordered) (c : WindowCall B) (hc : c.Valid s) :
    (s.freed ++ s.held ++ c.allocates s).Perm
      ((windowCall s c).freed ++ (windowCall s c).held) := by
  cases c with
  | create n buf =>
    have hfreed : (winCreate s n buf).2.freed = s.freed :=
      congrArg (List.filterMap WinEvent.freed) (winCreate_events s n buf)
    rw [Kernel.windowCall, hfreed, WindowCall.allocates]
    cases hslot : freeSlot s with
    | none =>
      rw [winCreate_of_full hslot]
      exact List.Perm.of_eq (List.append_nil _)
    | some i =>
      rw [held_winCreate h hslot, ← List.append_assoc]
      exact List.Perm.refl _
  | raise zpos =>
    have hfreed : (winRaise s zpos).freed = s.freed :=
      congrArg (List.filterMap WinEvent.freed) (winRaise_events s zpos)
    rw [Kernel.windowCall, hfreed, WindowCall.allocates, List.append_nil]
    exact ((held_winRaise hc).symm).append_left _
  | close zpos =>
    rw [Kernel.windowCall, freed_winClose, WindowCall.allocates, List.append_nil,
      List.append_assoc]
    exact ((held_winClose h hc).symm).append_left _

-- ---------------------------------------------------------------------------
-- A run
-- ---------------------------------------------------------------------------

theorem windowRun_ordered (hrun : Run windowStep (fun s c => c.Valid s) s cs t)
    (h : s.Ordered) : t.Ordered := by
  refine hrun.invariant Windows.Ordered h ?_
  rintro s c _ h hc rfl
  exact h.windowCall c hc

theorem windowRun_buffers (hrun : Run windowStep (fun s c => c.Valid s) s cs t)
    (h : s.Ordered) : (s.freed ++ s.held ++ allocated s cs).Perm (t.freed ++ t.held) := by
  induction hrun with
  | nil => exact List.Perm.of_eq (List.append_nil _)
  | @cons s _ t _ cs hc hstep hrest ih =>
    cases hstep
    rw [allocated, ← List.append_assoc]
    exact ((windowCall_buffers h _ hc).append_right _).trans (ih (h.windowCall _ hc))

/-- The order is one of the open windows in every state of a run; raising moves one window to
the top, closing takes one out, and each buffer of `kmalloc` is with one open window or was
given to `kfree` once. -/
theorem windowRun_permutation (hnew : start.NoneOpen) (cs : List (WindowCall B))
    (hrun : Run windowStep (fun s c => c.Valid s) start cs s) :
    (s.order.Nodup ∧ ∀ i, i ∈ s.order ↔ i < MAX_WINDOWS ∧ (s.win i).used = true) ∧
    (∀ z < s.winCount,
      (winRaise s z).order = s.order.eraseIdx z ++ [s.zorder z] ∧
      (winRaise s z).win = s.win ∧ (winRaise s z).events = s.events) ∧
    (∀ z < s.winCount,
      (winClose s z).order = s.order.eraseIdx z ∧
      (winClose s z).win =
        update s.win (s.zorder z) { s.win (s.zorder z) with used := false } ∧
      (winClose s z).freed = s.freed ++ (bufAddr (s.win (s.zorder z)).buf).toList) ∧
    (allocated start cs).Perm (s.freed ++ s.held) := by
  have hordered := windowRun_ordered hrun hnew.ordered
  refine ⟨⟨hordered.nodup, hordered.mem⟩, ?_, ?_, ?_⟩
  · intro z hz
    exact ⟨order_winRaise hz, winRaise_win s z, winRaise_events s z⟩
  · intro z hz
    exact ⟨order_winClose hz, winClose_win s z, freed_winClose s z⟩
  · have hbuffers := windowRun_buffers hrun hnew.ordered
    have hfreed : start.freed = [] := by rw [Windows.freed, hnew.events]; rfl
    have hheld : start.held = [] := by rw [Windows.held, Windows.order, hnew.winCount]; rfl
    rwa [hfreed, hheld] at hbuffers

/-- Two windows are made, the lower one is raised, and the other one is closed. -/
def fewWindowCalls : List (WindowCall Unit) :=
  [.create ⟨.terminal, [], 200, 60, 520, 300⟩ (some ⟨0x200000, ()⟩),
    .create ⟨.about, [], 400, 120, 380, 240⟩ (some ⟨0x300000, ()⟩), .raise 0, .close 0]

theorem noneOpen_boot : (Desktop.boot : Desktop Unit).toWindows.NoneOpen := ⟨rfl, fun _ => rfl, rfl⟩

theorem fewWindowCalls_run :
    Run windowStep (fun s c => c.Valid s) (Desktop.boot : Desktop Unit).toWindows fewWindowCalls
      (fewWindowCalls.foldl windowCall (Desktop.boot : Desktop Unit).toWindows) :=
  .cons trivial rfl <| .cons trivial rfl <|
    .cons (by decide : (0 : Nat) < 2) rfl <| .cons (by decide : (0 : Nat) < 2) rfl .nil

theorem windowRun_permutation_few :
    (allocated (Desktop.boot : Desktop Unit).toWindows fewWindowCalls).Perm
      ((fewWindowCalls.foldl windowCall (Desktop.boot : Desktop Unit).toWindows).freed ++
        (fewWindowCalls.foldl windowCall (Desktop.boot : Desktop Unit).toWindows).held) :=
  (windowRun_permutation noneOpen_boot fewWindowCalls fewWindowCalls_run).2.2.2

end EponaOS.Kernel
