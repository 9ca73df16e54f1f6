import EponaOS.Drivers.Keyboard

/-!
# Keys that are held

What the bytes of the keyboard say of each key, next to `g_pressed`, which has one place for a
plain key and for the one behind 0xE0 with the same scan code.
-/

namespace EponaOS.Drivers

structure Key where
  ext : Bool
  base : BitVec 8
  deriving DecidableEq

structure KeyEvent where
  key : Key
  down : Bool
  deriving DecidableEq

inductive KeyAct
  /-- An interrupt, with the status and the byte that `inb` returns. -/
  | irq (status sc : BitVec 8)
  | getc

structure KeyRun where
  kb : Keyboard
  /-- The last byte was 0xE0. -/
  behindE0 : Bool
  /-- The last event of the key was its make code. -/
  held : Key → Bool
  /-- The last event of the keys with this scan code was a make code. -/
  lastMake : BitVec 8 → Bool

def KeyRun.boot : KeyRun := ⟨.boot, false, fun _ => false, fun _ => false⟩

/-- The status says that there is a byte, and that it is one of the keyboard. -/
def FromKeyboard (status : BitVec 8) : Prop := status &&& 0x01 ≠ 0 ∧ status &&& 0x20 = 0

instance (status : BitVec 8) : Decidable (FromKeyboard status) :=
  inferInstanceAs (Decidable (_ ∧ _))

def KeyRun.event (s : KeyRun) : KeyAct → Option KeyEvent
  | .irq status sc =>
    if FromKeyboard status ∧ sc ≠ 0xE0 then
      some ⟨⟨s.behindE0, sc &&& 0x7F⟩, decide (sc &&& 0x80 = 0)⟩
    else none
  | .getc => none

/-- The shift keys do not come to `g_pressed`. -/
def Key.IsShift (key : Key) : Prop := key.ext = false ∧ (key.base = 0x2A ∨ key.base = 0x36)

instance (key : Key) : Decidable key.IsShift := inferInstanceAs (Decidable (_ ∧ _))

def KeyRun.hear (s : KeyRun) (e : KeyEvent) : KeyRun :=
  { s with
    held := fun key => if key = e.key then e.down else s.held key
    lastMake := fun base =>
      if base = e.key.base ∧ ¬ e.key.IsShift then e.down else s.lastMake base }

def keyStep (s : KeyRun) (a : KeyAct) : KeyRun :=
  let heard := match s.event a with
    | some e => s.hear e
    | none => s
  match a with
  | .irq status sc =>
    { heard with
      kb := keyboardIrq s.kb status sc
      behindE0 := if FromKeyboard status then decide (sc = 0xE0) else s.behindE0 }
  | .getc => { heard with kb := (keyboardGetc s.kb).2 }

-- ---------------------------------------------------------------------------
-- What is expected
-- ---------------------------------------------------------------------------

def keyCode (shift : Bool) (key : Key) : Nat :=
  if key.ext then gExtMap key.base
  else (if shift then gMapShift else gMap).getD key.base.toNat 0

def Key.repeats (key : Key) : Bool :=
  if key.ext then isRepeatableExtScancode key.base else isRepeatableScancode key.base

/-- A make code of a key that is not held puts its code into the ring once, if it has one and
there is room; that of a held key that does not repeat puts in nothing. -/
def MakeHeard (s : KeyRun) (a : KeyAct) : Prop :=
  ∀ e, s.event a = some e → e.down = true →
    (s.held e.key = false → (keyStep s a).kb.keys =
      if keyCode s.kb.gShift e.key ≠ 0 ∧ ¬ s.kb.Full then
        s.kb.keys ++ [keyCode s.kb.gShift e.key]
      else s.kb.keys) ∧
    (s.held e.key = true → e.key.repeats = false → (keyStep s a).kb.keys = s.kb.keys)

/-- Nothing is to be put in, or the key repeats, or the last event of the keys with the same scan
code was a make code exactly if the key is held. -/
def OwnPlace (s : KeyRun) (a : KeyAct) : Prop :=
  ∀ e, s.event a = some e → e.down = true →
    e.key.repeats = true ∨ keyCode s.kb.gShift e.key = 0 ∨ s.kb.Full ∨
      s.lastMake e.key.base = s.held e.key

-- ---------------------------------------------------------------------------
-- Make codes
-- ---------------------------------------------------------------------------

variable {s : KeyRun} {k : Keyboard}

/-- What both halves of `keyboard_irq` do at a make code. -/
def makeKey (k : Keyboard) (base : BitVec 8) (repeats : Bool) (code : Nat) : Keyboard :=
  if k.gPressed base && !repeats then k
  else if code ≠ 0 then putKey (k.press base true) code else k.press base true

theorem putKey_same (k : Keyboard) (code : Nat) :
    (putKey k code).gPressed = k.gPressed ∧ (putKey k code).gExtended = k.gExtended := by
  rw [putKey]
  split <;> exact ⟨rfl, rfl⟩

theorem makeKey_keys (k : Keyboard) (base : BitVec 8) (repeats : Bool) (code : Nat) :
    (makeKey k base repeats code).keys =
      if (k.gPressed base = true ∧ repeats = false) ∨ code = 0 ∨ k.Full then k.keys
      else k.keys ++ [code] := by
  rw [makeKey]
  by_cases hheld : k.gPressed base = true ∧ repeats = false
  · rw [if_pos (by simp [hheld]), if_pos (.inl hheld)]
  rw [if_neg (by simpa using hheld)]
  by_cases hcode : code = 0
  · rw [if_neg (not_not.mpr hcode), if_pos (.inr (.inl hcode))]
    rfl
  rw [if_pos hcode, putKey_keys_eq]
  have hroom : (k.press base true).Full ↔ k.Full := Iff.rfl
  by_cases hfull : k.Full
  · rw [if_pos (hroom.mpr hfull), if_pos (.inr (.inr hfull))]
    rfl
  · rw [if_neg (mt hroom.mp hfull), if_neg (by simp only [not_or]; exact ⟨hheld, hcode, hfull⟩)]
    rfl

theorem makeKey_pressed (k : Keyboard) (base : BitVec 8) (repeats : Bool) (code : Nat) :
    (makeKey k base repeats code).gPressed = (k.press base true).gPressed ∧
    (makeKey k base repeats code).gExtended = k.gExtended := by
  rw [makeKey]
  split
  · next hheld =>
    rw [Bool.and_eq_true] at hheld
    refine ⟨funext fun i => ?_, rfl⟩
    by_cases hi : i = base
    · rw [hi, hheld.1]
      exact (if_pos rfl).symm
    · exact (if_neg hi).symm
  · split
    · exact putKey_same (k.press base true) code
    · exact ⟨rfl, rfl⟩

-- ---------------------------------------------------------------------------
-- One byte
-- ---------------------------------------------------------------------------

theorem shift_byte (sc : BitVec 8) :
    (sc &&& 0x7F = 0x2A ∨ sc &&& 0x7F = 0x36) ↔
      (sc = 0x2A ∨ sc = 0x36) ∨ sc = 0xAA ∨ sc = 0xB6 := by
  revert sc
  decide

theorem shift_down (sc : BitVec 8) (h : sc &&& 0x7F = 0x2A ∨ sc &&& 0x7F = 0x36) :
    (sc = 0x2A ∨ sc = 0x36) ↔ sc &&& 0x80 = 0 := by
  revert sc
  decide

theorem keyboardIrq_key (k : Keyboard) (h : FromKeyboard status) (hsc : sc ≠ 0xE0) :
    keyboardIrq k status sc =
      if Key.IsShift ⟨k.gExtended, sc &&& 0x7F⟩ then
        { k with gShift := decide (sc &&& 0x80 = 0) }
      else if sc &&& 0x80 = 0 then
        makeKey { k with gExtended := false } (sc &&& 0x7F) (Key.repeats ⟨k.gExtended, sc &&& 0x7F⟩)
          (keyCode k.gShift ⟨k.gExtended, sc &&& 0x7F⟩)
      else Keyboard.press { k with gExtended := false } (sc &&& 0x7F) false := by
  rw [keyboardIrq, if_neg h.1, if_neg (not_not.mpr h.2), if_neg hsc]
  cases hext : k.gExtended with
  | true =>
    have hshift : ¬ Key.IsShift ⟨true, sc &&& 0x7F⟩ := fun h => by cases h.1
    rw [if_pos rfl, if_neg hshift, keyboardExtended]
    by_cases hup : sc &&& 0x80 = 0
    · rw [if_pos hup]
      exact if_neg (not_not.mpr hup)
    · rw [if_neg hup]
      exact if_pos hup
  | false =>
    have hk : { k with gExtended := false } = k := by rw [← hext]
    have hiff : Key.IsShift ⟨false, sc &&& 0x7F⟩ ↔
        (sc = 0x2A ∨ sc = 0x36) ∨ sc = 0xAA ∨ sc = 0xB6 :=
      (and_iff_right rfl).trans (shift_byte sc)
    rw [if_neg (by decide), hk, keyboardPlain]
    by_cases hmake : sc = 0x2A ∨ sc = 0x36
    · have hdown := (shift_down sc ((shift_byte sc).mpr (.inl hmake))).mp hmake
      rw [if_pos hmake, if_pos (hiff.mpr (.inl hmake)), decide_eq_true hdown, hext]
    by_cases hbreak : sc = 0xAA ∨ sc = 0xB6
    · have hup := mt (shift_down sc ((shift_byte sc).mpr (.inr hbreak))).mpr hmake
      rw [if_neg hmake, if_pos hbreak, if_pos (hiff.mpr (.inr hbreak)), decide_eq_false hup,
        hext]
    rw [if_neg hmake, if_neg hbreak, if_neg (mt hiff.mp (not_or.mpr ⟨hmake, hbreak⟩))]
    by_cases hup : sc &&& 0x80 = 0
    · rw [if_pos hup]
      exact if_neg (not_not.mpr hup)
    · rw [if_neg hup]
      exact if_pos hup

/-- The place of a scan code has the last event of all keys with it. -/
structure KeyRun.Ok (s : KeyRun) : Prop where
  behindE0 : s.behindE0 = s.kb.gExtended
  pressed : ∀ base, s.lastMake base = s.kb.gPressed base

theorem event_irq (status sc : BitVec 8) (h : FromKeyboard status) (hsc : sc ≠ 0xE0) :
    s.event (.irq status sc) = some ⟨⟨s.behindE0, sc &&& 0x7F⟩, decide (sc &&& 0x80 = 0)⟩ :=
  if_pos ⟨h, hsc⟩

theorem keyboardIrq_silent (k : Keyboard) (h : ¬ FromKeyboard status) :
    keyboardIrq k status sc = k := by
  rw [keyboardIrq]
  by_cases hdata : status &&& 0x01 = 0
  · rw [if_pos hdata]
  · rw [if_neg hdata, if_pos fun haux => h ⟨hdata, haux⟩]

theorem keyboardGetc_same (k : Keyboard) :
    (keyboardGetc k).2.gPressed = k.gPressed ∧ (keyboardGetc k).2.gExtended = k.gExtended := by
  rw [keyboardGetc]
  split <;> exact ⟨rfl, rfl⟩

theorem keyStep_silent (s : KeyRun) (h : ¬ FromKeyboard status) :
    keyStep s (.irq status sc) = s := by
  have hevent : s.event (.irq status sc) = none := if_neg fun hboth => h hboth.1
  rw [keyStep, hevent]
  simp only
  rw [keyboardIrq_silent s.kb h, if_neg h]

theorem keyStep_E0 (s : KeyRun) (h : FromKeyboard status) :
    keyStep s (.irq status 0xE0) =
      { s with kb := { s.kb with gExtended := true }, behindE0 := true } := by
  have hevent : s.event (.irq status 0xE0) = none := if_neg fun hboth => hboth.2 rfl
  rw [keyStep, hevent]
  simp only
  rw [if_pos h, keyboardIrq, if_neg h.1, if_neg (not_not.mpr h.2), if_pos rfl]
  rfl

theorem keyStep_key (s : KeyRun) (h : FromKeyboard status) (hsc : sc ≠ 0xE0) :
    keyStep s (.irq status sc) =
      { s.hear ⟨⟨s.behindE0, sc &&& 0x7F⟩, decide (sc &&& 0x80 = 0)⟩ with
        kb := keyboardIrq s.kb status sc
        behindE0 := false } := by
  rw [keyStep, event_irq status sc h hsc]
  simp only
  rw [if_pos h, decide_eq_false hsc]

theorem KeyRun.Ok.step (hs : s.Ok) (a : KeyAct) : (keyStep s a).Ok := by
  cases a with
  | getc =>
    obtain ⟨hpressed, hext⟩ := keyboardGetc_same s.kb
    refine ⟨?_, fun base => ?_⟩
    · exact hs.behindE0.trans hext.symm
    · exact (hs.pressed base).trans (congrFun hpressed base).symm
  | irq status sc =>
    by_cases h : FromKeyboard status
    · by_cases hsc : sc = 0xE0
      · rw [hsc, keyStep_E0 s h]
        exact ⟨rfl, hs.pressed⟩
      · rw [keyStep_key s h hsc, keyboardIrq_key s.kb h hsc, ← hs.behindE0]
        by_cases hshift : Key.IsShift ⟨s.behindE0, sc &&& 0x7F⟩
        · rw [if_pos hshift]
          refine ⟨hshift.1.symm, fun base => ?_⟩
          exact (if_neg fun hboth => hboth.2 hshift).trans (hs.pressed base)
        · rw [if_neg hshift]
          have hplace (down : Bool) (base : BitVec 8) :
              (s.hear ⟨⟨s.behindE0, sc &&& 0x7F⟩, down⟩).lastMake base =
                (s.kb.press (sc &&& 0x7F) down).gPressed base := by
            by_cases hbase : base = sc &&& 0x7F
            · exact (if_pos ⟨hbase, hshift⟩).trans (if_pos hbase).symm
            · exact (if_neg fun hboth => hbase hboth.1).trans
                ((hs.pressed base).trans (if_neg hbase).symm)
          by_cases hup : sc &&& 0x80 = 0
          · rw [if_pos hup, decide_eq_true hup]
            obtain ⟨hpressed, hext⟩ := makeKey_pressed { s.kb with gExtended := false }
              (sc &&& 0x7F) (Key.repeats ⟨s.behindE0, sc &&& 0x7F⟩)
              (keyCode s.kb.gShift ⟨s.behindE0, sc &&& 0x7F⟩)
            exact ⟨hext.symm, fun base => (hplace true base).trans (congrFun hpressed base).symm⟩
          · rw [if_neg hup, decide_eq_false hup]
            exact ⟨rfl, hplace false⟩
    · rw [keyStep_silent s h]
      exact hs

theorem keyRun_ok (acts : List KeyAct) : (acts.foldl keyStep .boot).Ok := by
  have hboot : KeyRun.boot.Ok := ⟨rfl, fun _ => rfl⟩
  generalize KeyRun.boot = s at hboot
  induction acts generalizing s with
  | nil => exact hboot
  | cons a acts ih => exact ih _ (hboot.step a)

-- ---------------------------------------------------------------------------
-- Every make code
-- ---------------------------------------------------------------------------

theorem keyCode_shift (shift : Bool) (h : key.IsShift) : keyCode shift key = 0 := by
  obtain ⟨hext, hbase⟩ := h
  rw [keyCode, hext]
  obtain hbase | hbase := hbase
  · rw [hbase]
    cases shift <;> decide
  · rw [hbase]
    cases shift <;> decide

theorem KeyRun.Ok.make_keys (hs : s.Ok) (h : s.event a = some e) (hdown : e.down = true) :
    (keyStep s a).kb.keys =
      if (s.lastMake e.key.base = true ∧ e.key.repeats = false) ∨ keyCode s.kb.gShift e.key = 0 ∨
        s.kb.Full then s.kb.keys
      else s.kb.keys ++ [keyCode s.kb.gShift e.key] := by
  cases a with
  | getc => cases h
  | irq status sc =>
    rw [KeyRun.event] at h
    split at h
    · next hboth =>
      cases h
      have hup : sc &&& 0x80 = 0 := of_decide_eq_true hdown
      rw [keyStep_key s hboth.1 hboth.2, keyboardIrq_key s.kb hboth.1 hboth.2, ← hs.behindE0]
      by_cases hshift : Key.IsShift ⟨s.behindE0, sc &&& 0x7F⟩
      · rw [if_pos hshift, if_pos (.inr (.inl (keyCode_shift _ hshift)))]
        rfl
      · rw [if_neg hshift, if_pos hup, hs.pressed]
        exact makeKey_keys { s.kb with gExtended := false } _ _ _
    · cases h

/-- After any bytes, a make code does what is expected exactly when the place of its scan code is
that of its own key. -/
theorem make_heard_iff (acts : List KeyAct) (a : KeyAct) :
    MakeHeard (acts.foldl keyStep .boot) a ↔ OwnPlace (acts.foldl keyStep .boot) a := by
  have hs := keyRun_ok acts
  generalize acts.foldl keyStep KeyRun.boot = s at hs
  refine forall₃_congr fun e he hdown => ?_
  rw [hs.make_keys he hdown]
  have hlonger : s.kb.keys ++ [keyCode s.kb.gShift e.key] ≠ s.kb.keys := by simp
  by_cases hnothing : keyCode s.kb.gShift e.key = 0 ∨ s.kb.Full
  · have hroom : ¬ (keyCode s.kb.gShift e.key ≠ 0 ∧ ¬ s.kb.Full) := by
      rwa [← not_or, not_not]
    rw [if_pos (.inr hnothing), if_neg hroom]
    exact ⟨fun _ => .inr (hnothing.imp_right .inl), fun _ => ⟨fun _ => rfl, fun _ _ => rfl⟩⟩
  have hroom : keyCode s.kb.gShift e.key ≠ 0 ∧ ¬ s.kb.Full := not_or.mp hnothing
  rw [if_pos hroom]
  cases hrepeats : e.key.repeats with
  | true =>
    rw [if_neg (by simp [hnothing])]
    exact ⟨fun _ => .inl rfl, fun _ => ⟨fun _ => rfl, fun _ h => by cases h⟩⟩
  | false =>
    cases hlast : s.lastMake e.key.base with
    | true =>
      rw [if_pos (.inl ⟨rfl, rfl⟩)]
      cases s.held e.key with
      | true => simp
      | false => simp [hroom.1, hroom.2]
    | false =>
      rw [if_neg (by simp [hnothing])]
      cases s.held e.key with
      | true => simp [hroom.1, hroom.2]
      | false => simp

/-- The 8 of the keypad is held, and the UP key with the same scan code is pressed. -/
def keypadHeld : KeyRun := [KeyAct.irq 0x01 0x48, .irq 0x01 0xE0].foldl keyStep .boot

theorem up_swallowed : ¬ MakeHeard keypadHeld (.irq 0x01 0x48) := by
  intro h
  have hup := (h ⟨⟨true, 0x48⟩, true⟩ (by decide) rfl).1 (by decide)
  have hlength := congrArg List.length hup
  revert hlength
  decide

end EponaOS.Drivers
