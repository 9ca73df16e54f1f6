import EponaOS.Lib.Ring

/-!
# The keyboard

`keyboard.c`: `keyboard_irq` reads a scan code from the port and puts the key it stands
for into a ring of 256 slots; `keyboard_getc` takes one out, and never waits. The two
bytes that `inb` returns are arguments here.
-/

namespace EponaOS.Drivers

abbrev keybufSize : Nat := 256

def KEY_UP : Nat := 256
def KEY_DOWN : Nat := 257
def KEY_LEFT : Nat := 258
def KEY_RIGHT : Nat := 259
def KEY_HOME : Nat := 260
def KEY_END : Nat := 261
def KEY_DEL : Nat := 262
def KEY_PGUP : Nat := 263
def KEY_PGDN : Nat := 264
def KEY_INS : Nat := 265

/-- `g_map`; the codes behind the list stand for no key. -/
def gMap : List Nat :=
  [0, 27, 49, 50, 51, 52, 53, 54, 55, 56, 57, 48, 45, 61, 8, 9, 113, 119, 101, 114, 116, 121, 117,
    105, 111, 112, 91, 93, 10, 0, 97, 115, 100, 102, 103, 104, 106, 107, 108, 59, 39, 96, 0, 92,
    122, 120, 99, 118, 98, 110, 109, 44, 46, 47, 0, 42, 0, 32]

def gMapShift : List Nat :=
  [0, 27, 33, 64, 35, 36, 37, 94, 38, 42, 40, 41, 95, 43, 8, 9, 81, 87, 69, 82, 84, 89, 85,
    73, 79, 80, 123, 125, 10, 0, 65, 83, 68, 70, 71, 72, 74, 75, 76, 58, 34, 126, 0, 124,
    90, 88, 67, 86, 66, 78, 77, 60, 62, 63, 0, 42, 0, 32]

def gExtMap (sc : BitVec 8) : Nat :=
  if sc = 0x47 then KEY_HOME else if sc = 0x48 then KEY_UP else if sc = 0x49 then KEY_PGUP
  else if sc = 0x4B then KEY_LEFT else if sc = 0x4D then KEY_RIGHT
  else if sc = 0x4F then KEY_END else if sc = 0x50 then KEY_DOWN else if sc = 0x51 then KEY_PGDN
  else if sc = 0x52 then KEY_INS else if sc = 0x53 then KEY_DEL
  else 0

structure Keyboard where
  gBuf : Nat → Nat
  gHead : Nat
  gTail : Nat
  gShift : Bool
  gExtended : Bool
  gPressed : BitVec 8 → Bool
  head_lt : gHead < keybufSize
  tail_lt : gTail < keybufSize

def Keyboard.boot : Keyboard :=
  ⟨fun _ => 0, 0, 0, false, false, fun _ => false, by decide, by decide⟩

def putKey (k : Keyboard) (code : Nat) : Keyboard :=
  let next := (k.gTail + 1) % keybufSize
  if next ≠ k.gHead then
    { k with
      gBuf := fun i => if i = k.gTail then code else k.gBuf i
      gTail := next
      tail_lt := Nat.mod_lt _ (by decide) }
  else k

def isRepeatableScancode (sc : BitVec 8) : Bool := sc == 0x0E

def isRepeatableExtScancode (sc : BitVec 8) : Bool :=
  sc == 0x4B || sc == 0x4D || sc == 0x47 || sc == 0x4F || sc == 0x53

def Keyboard.press (k : Keyboard) (sc : BitVec 8) (down : Bool) : Keyboard :=
  { k with gPressed := fun i => if i = sc then down else k.gPressed i }

def keyboardExtended (k : Keyboard) (sc : BitVec 8) : Keyboard :=
  let k := { k with gExtended := false }
  let codeSc := sc &&& 0x7F
  if sc &&& 0x80 ≠ 0 then k.press codeSc false
  else if k.gPressed codeSc && !isRepeatableExtScancode codeSc then k
  else
    let k := k.press codeSc true
    let code := gExtMap codeSc
    if code ≠ 0 then putKey k code else k

def keyboardPlain (k : Keyboard) (sc : BitVec 8) : Keyboard :=
  if sc = 0x2A ∨ sc = 0x36 then { k with gShift := true }
  else if sc = 0xAA ∨ sc = 0xB6 then { k with gShift := false }
  else
    let codeSc := sc &&& 0x7F
    if sc &&& 0x80 ≠ 0 then k.press codeSc false
    else if k.gPressed codeSc && !isRepeatableScancode codeSc then k
    else
      let k := k.press codeSc true
      let c := (if k.gShift then gMapShift else gMap).getD codeSc.toNat 0
      if c ≠ 0 then putKey k c else k

def keyboardIrq (k : Keyboard) (status sc : BitVec 8) : Keyboard :=
  if status &&& 0x01 = 0 then k
  else if status &&& 0x20 ≠ 0 then k
  else if sc = 0xE0 then { k with gExtended := true }
  else if k.gExtended then keyboardExtended k sc
  else keyboardPlain k sc

def keyboardGetc (k : Keyboard) : Nat × Keyboard :=
  if k.gHead = k.gTail then (0, k)
  else
    (k.gBuf k.gHead,
      { k with gHead := (k.gHead + 1) % keybufSize, head_lt := Nat.mod_lt _ (by decide) })

-- ---------------------------------------------------------------------------
-- The keys that wait
-- ---------------------------------------------------------------------------

def Keyboard.keys (k : Keyboard) : List Nat := Ring.contents keybufSize k.gBuf k.gHead k.gTail

theorem Keyboard.keys_eq_nil (k : Keyboard) : k.keys = [] ↔ k.gHead = k.gTail := by
  constructor
  · intro h
    by_contra hne
    rw [Keyboard.keys, Ring.contents_take k.head_lt k.tail_lt hne] at h
    cases h
  · intro h
    rw [Keyboard.keys, h]
    exact Ring.contents_self

theorem keyboardGetc_nil (h : k.keys = []) : keyboardGetc k = (0, k) := by
  rw [keyboardGetc, if_pos (k.keys_eq_nil.mp h)]

theorem keyboardGetc_cons (h : k.keys = c :: keys) :
    (keyboardGetc k).1 = c ∧ (keyboardGetc k).2.keys = keys := by
  have hne : k.gHead ≠ k.gTail := fun heq => by
    rw [k.keys_eq_nil.mpr heq] at h
    cases h
  have htake := @Ring.contents_take _ _ _ _ k.gBuf k.head_lt k.tail_lt hne
  obtain ⟨hc, hkeys⟩ := List.cons.inj (htake.symm.trans h)
  rw [keyboardGetc, if_neg hne]
  exact ⟨hc, hkeys⟩

def Keyboard.Full (k : Keyboard) : Prop := (k.gTail + 1) % keybufSize = k.gHead

instance (k : Keyboard) : Decidable k.Full := inferInstanceAs (Decidable (_ = _))

theorem putKey_keys_eq (k : Keyboard) (code : Nat) :
    (putKey k code).keys = if k.Full then k.keys else k.keys ++ [code] := by
  by_cases hfull : k.Full
  · rw [if_pos hfull, putKey]
    exact congrArg Keyboard.keys (if_neg (not_not.mpr hfull))
  · rw [if_neg hfull, putKey]
    exact (congrArg Keyboard.keys (if_pos hfull)).trans
      (Ring.contents_put k.head_lt k.tail_lt hfull code)

end EponaOS.Drivers
