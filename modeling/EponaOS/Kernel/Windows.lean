import EponaOS.Kernel.Term
import Mathlib.Data.List.Perm.Basic
import Mathlib.Data.List.Nodup

/-!
# The windows

`gui.c`: a window is a slot of `g_win`, and `g_zorder` has the slots that are used from the bottom
to the top. `B` is what a buffer holds. Renderings and calls of `kfree` are recorded.
-/

namespace EponaOS.Kernel

open Function (update)

def MAX_WINDOWS : Nat := 8
def TITLEBAR_H : Int := 22
def BORDER_W : Int := 1

inductive WinKind
  | terminal
  | about
  | fileman
  deriving DecidableEq

/-- What `kmalloc` returned, and what it holds -/
structure Buffer (B : Type) where
  addr : Nat
  pixels : B

/-- `window_t`; `line_buf` up to `line_pos` -/
structure Window (B : Type) where
  used : Bool
  x : Int
  y : Int
  cw : Int
  ch : Int
  title : List UInt8
  kind : WinKind
  buf : Option (Buffer B)
  term : TermCtx
  curRow : Nat
  curCol : Nat
  lineBuf : List UInt8
  lineCpos : Nat

inductive WinEvent
  /-- A renderer writes to the buffer of a window, or to none. -/
  | render (buf : Option Nat)
  | free (addr : Nat)
  deriving DecidableEq

structure Windows (B : Type) where
  win : Nat → Window B
  zorder : Nat → Nat
  winCount : Nat
  events : List WinEvent

variable {B : Type}

def winTotalW (w : Window B) : Int := w.cw + BORDER_W * 2
def winTotalH (w : Window B) : Int := w.ch + TITLEBAR_H + BORDER_W

def pointIn (px py x y w h : Int) : Bool := px ≥ x ∧ px < x + w ∧ py ≥ y ∧ py < y + h

def Windows.setWin (s : Windows B) (i : Nat) (w : Window B) : Windows B :=
  { s with win := update s.win i w }

def Windows.order (s : Windows B) : List Nat := (List.range s.winCount).map s.zorder

-- ---------------------------------------------------------------------------
-- Creating, raising and closing
-- ---------------------------------------------------------------------------

def freeSlot (s : Windows B) : Option Nat :=
  (List.range MAX_WINDOWS).find? fun i => !(s.win i).used

structure NewWindow where
  kind : WinKind
  title : List UInt8
  x : Int
  y : Int
  cw : Int
  ch : Int
  deriving DecidableEq

/-- What `win_create` makes of a slot; `term`, `cur_row` and `cur_col` stay. -/
def Window.created (w : Window B) (n : NewWindow) (buf : Option (Buffer B)) : Window B :=
  { w with
    used := true, x := n.x, y := n.y, cw := n.cw, ch := n.ch
    title := n.title.take 31, kind := n.kind, buf, lineBuf := [], lineCpos := 0 }

/-- `buf` is what `kmalloc` returns, if it is called. -/
def winCreate (s : Windows B) (n : NewWindow) (buf : Option (Buffer B)) :
    Option Nat × Windows B :=
  match freeSlot s with
  | some i =>
    (some i,
      { s.setWin i ((s.win i).created n buf) with
        zorder := update s.zorder s.winCount i
        winCount := s.winCount + 1 })
  | none => (none, s)

/-- `zorder[i] = zorder[i + 1]` for `n` indices from `lo` -/
def shiftDown (zorder : Nat → Nat) (lo n : Nat) : Nat → Nat :=
  (List.range' lo n).foldl (fun z i => update z i (z (i + 1))) zorder

def winRaise (s : Windows B) (zpos : Nat) : Windows B :=
  if zpos = s.winCount - 1 then s
  else
    let idx := s.zorder zpos
    { s with
      zorder := update (shiftDown s.zorder zpos (s.winCount - 1 - zpos)) (s.winCount - 1) idx }

/-- `kfree` of the buffer, if there is one -/
def freeBuf (s : Windows B) (buf : Option (Buffer B)) : Windows B :=
  match buf with
  | some b => { s with events := s.events ++ [.free b.addr] }
  | none => s

def winClose (s : Windows B) (zpos : Nat) : Windows B :=
  let idx := s.zorder zpos
  let s := freeBuf s (s.win idx).buf
  { s.setWin idx { s.win idx with used := false } with
    zorder := shiftDown s.zorder zpos (s.winCount - 1 - zpos)
    winCount := s.winCount - 1 }

def winHitTest (s : Windows B) (px py : Int) : Option Nat :=
  (List.range s.winCount).reverse.find? fun z =>
    let w := s.win (s.zorder z)
    w.used && pointIn px py w.x w.y (winTotalW w) (winTotalH w)

-- ---------------------------------------------------------------------------
-- The order
-- ---------------------------------------------------------------------------

variable {s : Windows B} {n : NewWindow} {buf : Option (Buffer B)} {zpos i : Nat}

@[simp] theorem order_length (s : Windows B) : s.order.length = s.winCount := by
  simp [Windows.order]

theorem order_getElem (h : zpos < s.order.length) : s.order[zpos] = s.zorder zpos := by
  simp [Windows.order]

theorem shiftDown_apply (zorder : Nat → Nat) (lo n j : Nat) :
    shiftDown zorder lo n j = if lo ≤ j ∧ j < lo + n then zorder (j + 1) else zorder j := by
  induction n generalizing j with
  | zero =>
    rw [if_neg (by omega)]
    rfl
  | succ n ih =>
    have hsucc : shiftDown zorder lo (n + 1) =
        update (shiftDown zorder lo n) (lo + n) (shiftDown zorder lo n (lo + n + 1)) := by
      rw [shiftDown, List.range'_1_concat, List.foldl_append]
      rfl
    rw [hsucc]
    by_cases hj : j = lo + n
    · -- the entry behind is still as it was
      rw [hj, Function.update_self, ih, if_neg (by omega), if_pos (by omega)]
    · rw [Function.update_of_ne hj, ih]
      have hiff : lo ≤ j ∧ j < lo + n ↔ lo ≤ j ∧ j < lo + (n + 1) := by omega
      rw [if_congr hiff rfl rfl]

/-- A loop of `win_raise` or `win_close` takes one entry out. -/
theorem map_shiftDown (zorder : Nat → Nat) (hz : zpos < count) :
    (List.range (count - 1)).map (shiftDown zorder zpos (count - 1 - zpos)) =
      ((List.range count).map zorder).eraseIdx zpos := by
  apply List.ext_getElem
  · rw [List.length_eraseIdx_of_lt (by simpa using hz)]
    simp
  · intro j hj _
    simp only [List.length_map, List.length_range] at hj
    rw [List.getElem_eraseIdx]
    simp only [List.getElem_map, List.getElem_range, shiftDown_apply]
    by_cases hjz : j < zpos
    · rw [if_neg (by omega), dif_pos hjz]
    · rw [if_pos (by omega), dif_neg hjz]

theorem winCreate_of_free (h : freeSlot s = some i) :
    winCreate s n buf =
      (some i,
        { s.setWin i ((s.win i).created n buf) with
          zorder := update s.zorder s.winCount i
          winCount := s.winCount + 1 }) := by
  rw [winCreate, h]

theorem winCreate_of_full (h : freeSlot s = none) : winCreate s n buf = (none, s) := by
  rw [winCreate, h]

theorem order_winCreate (h : freeSlot s = some i) (n : NewWindow) (buf : Option (Buffer B)) :
    (winCreate s n buf).2.order = s.order ++ [i] := by
  rw [winCreate_of_free h]
  simp only [Windows.order, List.range_succ, List.map_append, List.map_singleton,
    Function.update_self]
  congr 1
  refine List.map_congr_left fun z hz => Function.update_of_ne ?_ _ _
  exact (List.mem_range.mp hz).ne

theorem order_concat (zorder : Nat → Nat) (hz : zpos < count) (idx : Nat) :
    (List.range count).map (update (shiftDown zorder zpos (count - 1 - zpos)) (count - 1) idx) =
      ((List.range count).map zorder).eraseIdx zpos ++ [idx] := by
  obtain ⟨m, rfl⟩ : ∃ m, count = m + 1 := ⟨count - 1, by omega⟩
  rw [← map_shiftDown zorder hz, Nat.add_sub_cancel, List.range_succ, List.map_append,
    List.map_singleton, Function.update_self]
  congr 1
  refine List.map_congr_left fun j hj => Function.update_of_ne ?_ _ _
  exact (List.mem_range.mp hj).ne

theorem order_winRaise (h : zpos < s.winCount) :
    (winRaise s zpos).order = s.order.eraseIdx zpos ++ [s.zorder zpos] := by
  refine Eq.trans ?_ (order_concat s.zorder h (s.zorder zpos))
  rw [winRaise]
  split
  · next hlast =>
    rw [← hlast, Nat.sub_self]
    exact congrArg (fun z => (List.range s.winCount).map z) (Function.update_eq_self _ _).symm
  · rfl

@[simp] theorem freeBuf_win (s : Windows B) (buf : Option (Buffer B)) :
    (freeBuf s buf).win = s.win := by cases buf <;> rfl

@[simp] theorem freeBuf_zorder (s : Windows B) (buf : Option (Buffer B)) :
    (freeBuf s buf).zorder = s.zorder := by cases buf <;> rfl

@[simp] theorem freeBuf_winCount (s : Windows B) (buf : Option (Buffer B)) :
    (freeBuf s buf).winCount = s.winCount := by cases buf <;> rfl

theorem order_winClose (h : zpos < s.winCount) :
    (winClose s zpos).order = s.order.eraseIdx zpos := by
  simp only [winClose, Windows.order, Windows.setWin, freeBuf_zorder, freeBuf_winCount]
  exact map_shiftDown s.zorder h

theorem winRaise_win (s : Windows B) (zpos : Nat) : (winRaise s zpos).win = s.win := by
  rw [winRaise]
  split <;> rfl

theorem winRaise_winCount (s : Windows B) (zpos : Nat) :
    (winRaise s zpos).winCount = s.winCount := by
  rw [winRaise]
  split <;> rfl

theorem winRaise_top (s : Windows B) (zpos : Nat) :
    (winRaise s zpos).zorder (s.winCount - 1) = s.zorder zpos := by
  rw [winRaise]
  split
  · next hlast => rw [← hlast]
  · exact Function.update_self ..

theorem winClose_win (s : Windows B) (zpos : Nat) :
    (winClose s zpos).win =
      update s.win (s.zorder zpos) { s.win (s.zorder zpos) with used := false } := by
  simp [winClose, Windows.setWin]

theorem winClose_winCount (s : Windows B) (zpos : Nat) :
    (winClose s zpos).winCount = s.winCount - 1 := by
  simp [winClose]

theorem winHitTest_lt (h : winHitTest s px py = some zpos) : zpos < s.winCount := by
  have hmem := List.mem_of_find?_eq_some h
  rwa [List.mem_reverse, List.mem_range] at hmem

-- ---------------------------------------------------------------------------
-- Slots and order
-- ---------------------------------------------------------------------------

/-- `g_zorder` has each slot that is used, once. -/
structure Windows.Ordered (s : Windows B) : Prop where
  nodup : s.order.Nodup
  mem : ∀ i, i ∈ s.order ↔ i < MAX_WINDOWS ∧ (s.win i).used = true

theorem freeSlot_spec (h : freeSlot s = some i) : i < MAX_WINDOWS ∧ (s.win i).used = false := by
  refine ⟨List.mem_range.mp (List.mem_of_find?_eq_some h), ?_⟩
  simpa using List.find?_some h

theorem freeSlot_eq_none : freeSlot s = none ↔ ∀ i < MAX_WINDOWS, (s.win i).used = true := by
  simp [freeSlot]

/-- With no slot left the next window would not fit in `g_zorder`. -/
theorem Windows.Ordered.full_iff (h : s.Ordered) :
    freeSlot s = none ↔ s.winCount = MAX_WINDOWS := by
  have hsub : s.order ⊆ List.range MAX_WINDOWS := fun i hi =>
    List.mem_range.mpr ((h.mem i).mp hi).1
  have hle := (List.subperm_of_subset h.nodup hsub).length_le
  rw [order_length, List.length_range] at hle
  rw [freeSlot_eq_none]
  constructor
  · intro hall
    have hsup : List.range MAX_WINDOWS ⊆ s.order := fun i hi =>
      (h.mem i).mpr ⟨List.mem_range.mp hi, hall i (List.mem_range.mp hi)⟩
    have hge := (List.subperm_of_subset List.nodup_range hsup).length_le
    rw [order_length, List.length_range] at hge
    omega
  · intro hcount i hi
    have hperm := (List.subperm_of_subset h.nodup hsub).perm_of_length_le
      (by rw [order_length, List.length_range, hcount])
    exact ((h.mem i).mp (hperm.mem_iff.mpr (List.mem_range.mpr hi))).2

theorem order_perm (h : zpos < s.winCount) :
    (s.zorder zpos :: s.order.eraseIdx zpos).Perm s.order := by
  have hz : zpos < s.order.length := by rwa [order_length]
  rw [← order_getElem hz]
  exact List.getElem_cons_eraseIdx_perm hz

theorem Windows.Ordered.winCreate (h : s.Ordered) (n : NewWindow) (buf : Option (Buffer B)) :
    (winCreate s n buf).2.Ordered := by
  cases hslot : freeSlot s with
  | none => rwa [winCreate_of_full hslot]
  | some i =>
    obtain ⟨hi, hunused⟩ := freeSlot_spec hslot
    have hnew : i ∉ s.order := fun hmem => by
      rw [((h.mem i).mp hmem).2] at hunused
      cases hunused
    have horder := order_winCreate hslot n buf
    refine ⟨?_, fun j => ?_⟩
    · rw [horder, List.nodup_append]
      exact ⟨h.nodup, List.nodup_singleton i, fun a ha b hb => by
        rw [List.mem_singleton.mp hb]
        rintro rfl
        exact hnew ha⟩
    · rw [horder, List.mem_append, List.mem_singleton, winCreate_of_free hslot]
      change _ ↔ j < MAX_WINDOWS ∧ (update s.win i ((s.win i).created n buf) j).used = true
      by_cases hj : j = i
      · subst hj
        simp [Window.created, hi]
      · rw [Function.update_of_ne hj, ← h.mem j, or_iff_left hj]

theorem Windows.Ordered.winRaise (h : s.Ordered) (hz : zpos < s.winCount) :
    (winRaise s zpos).Ordered := by
  have hperm : (Kernel.winRaise s zpos).order.Perm s.order := by
    rw [order_winRaise hz]
    exact (List.perm_append_singleton _ _).trans (order_perm hz)
  refine ⟨hperm.nodup_iff.mpr h.nodup, fun i => ?_⟩
  rw [hperm.mem_iff, h.mem, winRaise_win]

theorem Windows.Ordered.winClose (h : s.Ordered) (hz : zpos < s.winCount) :
    (winClose s zpos).Ordered := by
  have hnodup := (order_perm hz).nodup_iff.mpr h.nodup
  obtain ⟨hgone, hnodup⟩ := List.nodup_cons.mp hnodup
  refine ⟨by rwa [order_winClose hz], fun i => ?_⟩
  rw [order_winClose hz, winClose_win]
  by_cases hi : i = s.zorder zpos
  · subst hi
    simp [hgone]
  · rw [Function.update_of_ne hi, ← h.mem i, ← (order_perm hz).mem_iff, List.mem_cons,
      or_iff_right hi]

theorem Windows.Ordered.of_used {t : Windows B} (h : s.Ordered) (horder : t.order = s.order)
    (hused : ∀ i, (t.win i).used = (s.win i).used) : t.Ordered :=
  ⟨horder ▸ h.nodup, fun i => by rw [horder, h.mem, hused]⟩

end EponaOS.Kernel
