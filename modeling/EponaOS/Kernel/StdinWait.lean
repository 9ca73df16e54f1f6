import EponaOS.Lib.Run
import EponaOS.Drivers.Keyboard

/-!
# Waiting for a key

SYS_READ on stdin polls `keyboard_getc` until it has what it was asked for. `idt_init`
installs `int 0x80` as an interrupt gate, so the processor runs the handler with
interrupts disabled, nothing in it enables them, and no key comes in while it polls.
-/

namespace EponaOS.Kernel.StdinWait

open Drivers

/-- `type_attr` of the gates that `idt_init` sets: exceptions, IRQs and `int 0x80`. -/
def idtTypeAttr (vec : Nat) : BitVec 8 :=
  if vec < 32 then 0x8E else if vec < 48 then 0x8E else if vec = 128 then 0xEE else 0

/-- IF behind an entry through a gate: an interrupt gate clears it, a trap gate does not. -/
def enterGate (typeAttr : BitVec 8) (ifl : Bool) : Bool :=
  if typeAttr &&& 0x0F = 0x0E then false else ifl

/-- A call of SYS_READ on stdin: `r->rdx`, what has been stored in `buf`, and IF of the caller. -/
structure StdinRead where
  want : Nat
  buf : List (BitVec 8)
  savedIf : Bool

structure StdinState where
  kbd : Keyboard
  ifl : Bool
  call : Option StdinRead

/-- `int 0x80` with a valid buffer. -/
def sysRead (s : StdinState) (want : Nat) : StdinState :=
  { s with ifl := enterGate (idtTypeAttr 128) s.ifl, call := some ⟨want, [], s.ifl⟩ }

/-- `iretq` -/
def sysReturn (s : StdinState) (r : StdinRead) : StdinState :=
  { s with ifl := r.savedIf, call := none }

def readRound (s : StdinState) (r : StdinRead) : StdinState :=
  if r.buf.length < r.want then
    match keyboardGetc s.kbd with
    | (c, kbd) =>
      let s := { s with kbd }
      if c = 0 then s
      else if c > 255 then s
      else
        let r := { r with buf := r.buf ++ [BitVec.ofNat 8 c] }
        if c = 10 then sysReturn s r else { s with call := some r }
  else sysReturn s r

inductive StdinAct
  /-- IRQ1, with what the two ports hold -/
  | irq (status sc : BitVec 8)
  /-- Other code of the kernel takes a key: the shell and the windows do. -/
  | getc
  /-- Other code enables or disables interrupts. -/
  | setIf (ifl : Bool)
  | read (want : Nat)
  | round

def stdinStep (s : StdinState) : StdinAct → StdinState → Prop
  | .irq status sc, s' => s.ifl = true ∧ s' = { s with kbd := keyboardIrq s.kbd status sc }
  | .getc, s' => s.call = none ∧ s' = { s with kbd := (keyboardGetc s.kbd).2 }
  | .setIf ifl, s' => s.call = none ∧ s' = { s with ifl }
  | .read want, s' => s.call = none ∧ s' = sysRead s want
  | .round, s' => ∃ r, s.call = some r ∧ s' = readRound s r

/-- The call polls an empty ring with interrupts disabled. -/
def Stuck (s : StdinState) : Prop :=
  (∃ r, s.call = some r ∧ r.buf.length < r.want) ∧ s.kbd.gHead = s.kbd.gTail ∧ s.ifl = false

/-- These keys are enough for `want` more bytes, or end with a new line before. -/
def Fills : List Nat → Nat → Prop
  | _, 0 => True
  | [], _ + 1 => False
  | c :: keys, n + 1 =>
    if c = 0 ∨ c > 255 then Fills keys (n + 1) else c = 10 ∨ Fills keys n

/-- A read finds in the ring all that it waits for. -/
def ReadFilled (s : StdinState) : StdinAct → Prop
  | .read want => Fills s.kbd.keys want
  | _ => True

-- ---------------------------------------------------------------------------
-- One round
-- ---------------------------------------------------------------------------

variable {s s' : StdinState} {r : StdinRead}

theorem fills_zero (keys : List Nat) : Fills keys 0 := by
  cases keys <;> trivial

theorem fills_nil_succ (n : Nat) : ¬ Fills [] (n + 1) := id

theorem readRound_skip (hkeys : s.kbd.keys = c :: keys) (hmore : r.buf.length < r.want)
    (hc : c = 0 ∨ c > 255) : ∃ kbd, kbd.keys = keys ∧ readRound s r = { s with kbd } := by
  obtain ⟨hget, hrest⟩ := keyboardGetc_cons hkeys
  refine ⟨_, hrest, ?_⟩
  rw [readRound, if_pos hmore]
  dsimp only
  rw [hget]
  obtain h0 | hbig := hc
  · rw [if_pos h0]
  · rw [if_neg (by omega), if_pos hbig]

theorem readRound_newline (hkeys : s.kbd.keys = 10 :: keys) (hmore : r.buf.length < r.want) :
    (readRound s r).call = none := by
  obtain ⟨hget, -⟩ := keyboardGetc_cons hkeys
  rw [readRound, if_pos hmore]
  dsimp only
  rw [hget]
  rfl

theorem readRound_store (hkeys : s.kbd.keys = c :: keys) (hmore : r.buf.length < r.want)
    (hc : ¬ (c = 0 ∨ c > 255)) (hnl : c ≠ 10) : ∃ kbd, kbd.keys = keys ∧ readRound s r =
      { s with kbd, call := some { r with buf := r.buf ++ [BitVec.ofNat 8 c] } } := by
  obtain ⟨hget, hrest⟩ := keyboardGetc_cons hkeys
  refine ⟨_, hrest, ?_⟩
  rw [readRound, if_pos hmore]
  dsimp only
  rw [hget, if_neg (fun h => hc (.inl h)), if_neg (fun h => hc (.inr h)), if_neg hnl]

theorem readRound_done (hdone : ¬ r.buf.length < r.want) : readRound s r = sysReturn s r := by
  rw [readRound, if_neg hdone]

theorem Stuck.step (h : Stuck s) (hs : stdinStep s a s') : s' = s := by
  obtain ⟨⟨r, hr, hmore⟩, hempty, hif⟩ := h
  cases a with
  | irq status sc => simp [hs.1] at hif
  | getc => simp [hs.1] at hr
  | setIf ifl => simp [hs.1] at hr
  | read want => simp [hs.1] at hr
  | round =>
    obtain ⟨r', hr', rfl⟩ := hs
    cases hr.symm.trans hr'
    have hnil := keyboardGetc_nil (s.kbd.keys_eq_nil.mpr hempty)
    rw [readRound, if_pos hmore, hnil]
    rfl

-- ---------------------------------------------------------------------------
-- Whether a call ends
-- ---------------------------------------------------------------------------

def Masked (s : StdinState) : Prop := s.call ≠ none → s.ifl = false

theorem Masked.step (h : Masked s) (hs : stdinStep s a s') : Masked s' := by
  cases a with
  | irq status sc =>
    obtain ⟨-, rfl⟩ := hs
    exact h
  | getc =>
    obtain ⟨-, rfl⟩ := hs
    exact h
  | setIf ifl =>
    obtain ⟨hidle, rfl⟩ := hs
    exact fun hcall => absurd hidle hcall
  | read want =>
    obtain ⟨-, rfl⟩ := hs
    exact fun _ => rfl
  | round =>
    obtain ⟨r, hr, rfl⟩ := hs
    have hif := h (by simp [hr])
    rw [readRound]
    split
    · dsimp only
      split
      · exact fun _ => hif
      split
      · exact fun _ => hif
      split
      · exact fun hcall => absurd rfl hcall
      · exact fun _ => hif
    · exact fun hcall => absurd rfl hcall

/-- The call that runs finds what it still waits for. -/
def Served (s : StdinState) : Prop :=
  ∀ r, s.call = some r → Fills s.kbd.keys (r.want - r.buf.length)

theorem Served.not_stuck (h : Served s) : ¬ Stuck s := by
  rintro ⟨⟨r, hr, hmore⟩, hempty, -⟩
  have hfills := h r hr
  obtain ⟨n, hn⟩ : ∃ n, r.want - r.buf.length = n + 1 := ⟨r.want - r.buf.length - 1, by omega⟩
  rw [s.kbd.keys_eq_nil.mpr hempty, hn] at hfills
  exact fills_nil_succ n hfills

theorem Served.round (h : Served s) (hr : s.call = some r) : Served (readRound s r) := by
  by_cases hmore : r.buf.length < r.want
  case neg =>
    rw [readRound_done hmore]
    exact fun r' hr' => by cases hr'
  have hfills := h r hr
  obtain ⟨n, hn⟩ : ∃ n, r.want - r.buf.length = n + 1 := ⟨r.want - r.buf.length - 1, by omega⟩
  rw [hn] at hfills
  rcases hkeys : s.kbd.keys with _ | ⟨c, keys⟩
  · rw [hkeys] at hfills
    exact absurd hfills (fills_nil_succ n)
  rw [hkeys, Fills] at hfills
  by_cases hc : c = 0 ∨ c > 255
  · obtain ⟨kbd, hkbd, hround⟩ := readRound_skip hkeys hmore hc
    rw [if_pos hc] at hfills
    rw [hround]
    intro r' hr'
    cases hr.symm.trans hr'
    rw [hn]
    exact hkbd ▸ hfills
  rw [if_neg hc] at hfills
  by_cases hnl : c = 10
  · subst hnl
    intro r' hr'
    rw [readRound_newline hkeys hmore] at hr'
    cases hr'
  · obtain ⟨kbd, hkbd, hround⟩ := readRound_store hkeys hmore hc hnl
    rw [hround]
    intro r' hr'
    cases hr'
    have hless : r.want - (r.buf ++ [BitVec.ofNat 8 c]).length = n := by
      rw [List.length_append, List.length_singleton]
      omega
    dsimp only
    rw [hless, hkbd]
    exact hfills.resolve_left hnl

theorem Served.step (h : Served s) (hmask : Masked s) (hok : ReadFilled s a)
    (hs : stdinStep s a s') : Served s' := by
  cases a with
  | irq status sc =>
    obtain ⟨hif, rfl⟩ := hs
    intro r hr
    have := hmask (by simp [show s.call = some r from hr])
    simp [this] at hif
  | getc =>
    obtain ⟨hidle, rfl⟩ := hs
    exact fun r hr => by simp [hidle] at hr
  | setIf ifl =>
    obtain ⟨hidle, rfl⟩ := hs
    exact fun r hr => by simp [hidle] at hr
  | read want =>
    obtain ⟨-, rfl⟩ := hs
    intro r hr
    cases hr
    exact hok
  | round =>
    obtain ⟨r, hr, rfl⟩ := hs
    exact h.round hr

theorem sticks_of_not_fills (hr : s.call = some r) (hmask : s.ifl = false)
    (hfills : ¬ Fills s.kbd.keys (r.want - r.buf.length)) :
    ∃ n s', Run stdinStep (fun _ _ => True) s (List.replicate n .round) s' ∧ Stuck s' := by
  induction hkeys : s.kbd.keys generalizing s r with
  | nil =>
    have hmore : r.buf.length < r.want := by
      by_contra hdone
      rw [Nat.sub_eq_zero_of_le (by omega)] at hfills
      exact hfills (fills_zero _)
    exact ⟨0, s, .nil, ⟨r, hr, hmore⟩, s.kbd.keys_eq_nil.mp hkeys, hmask⟩
  | cons c keys ih =>
    have hmore : r.buf.length < r.want := by
      by_contra hdone
      rw [Nat.sub_eq_zero_of_le (by omega)] at hfills
      exact hfills (fills_zero _)
    obtain ⟨n, hn⟩ : ∃ n, r.want - r.buf.length = n + 1 :=
      ⟨r.want - r.buf.length - 1, by omega⟩
    rw [hkeys, hn, Fills] at hfills
    by_cases hc : c = 0 ∨ c > 255
    · obtain ⟨kbd, hkbd, hround⟩ := readRound_skip hkeys hmore hc
      rw [if_pos hc] at hfills
      obtain ⟨m, s', hrun, hstuck⟩ := ih (s := { s with kbd }) (r := r) hr hmask
        (by rw [hn]; exact hkbd ▸ hfills) hkbd
      refine ⟨m + 1, s', .cons trivial ⟨r, hr, ?_⟩ hrun, hstuck⟩
      exact hround.symm
    rw [if_neg hc, not_or] at hfills
    obtain ⟨kbd, hkbd, hround⟩ := readRound_store hkeys hmore hc hfills.1
    have hless : r.want - (r.buf ++ [BitVec.ofNat 8 c]).length = n := by
      rw [List.length_append, List.length_singleton]
      omega
    obtain ⟨m, s', hrun, hstuck⟩ := ih
      (s := { s with kbd, call := some { r with buf := r.buf ++ [BitVec.ofNat 8 c] } }) rfl hmask
      (by dsimp only; rw [hless, hkbd]; exact hfills.2) hkbd
    refine ⟨m + 1, s', .cons trivial ⟨r, hr, ?_⟩ hrun, hstuck⟩
    exact hround.symm

def StdinState.boot : StdinState := ⟨.boot, false, none⟩

/-- No call ever polls an empty ring with interrupts disabled, exactly if every call finds in
the ring what it waits for; one that does not polls for ever. -/
theorem stdin_wait (acts : List StdinAct) (s : StdinState) :
    (Run stdinStep ReadFilled .boot acts s → ¬ Stuck s) ∧
    (∀ want, Run stdinStep (fun _ _ => True) .boot acts s → s.call = none →
      ¬ Fills s.kbd.keys want →
      ∃ n s', Run stdinStep (fun _ _ => True) s (.read want :: List.replicate n .round) s' ∧
        Stuck s' ∧ ∀ acts' s'', Run stdinStep (fun _ _ => True) s' acts' s'' → Stuck s'') := by
  constructor
  · intro hrun
    have hinv : Masked s ∧ Served s := by
      refine hrun.invariant (fun s => Masked s ∧ Served s) ⟨fun h => absurd rfl h, ?_⟩ ?_
      · exact fun r hr => by cases hr
      · exact fun s a s' h hok hs => ⟨h.1.step hs, h.2.step h.1 hok hs⟩
    exact hinv.2.not_stuck
  · intro want hrun hidle hfills
    obtain ⟨n, s', hrounds, hstuck⟩ := sticks_of_not_fills (s := sysRead s want)
      (r := ⟨want, [], s.ifl⟩) rfl rfl hfills
    refine ⟨n, s', .cons trivial ⟨hidle, rfl⟩ hrounds, hstuck, fun acts' s'' h => ?_⟩
    exact h.invariant Stuck hstuck fun s a t hs _ hstep => hs.step hstep ▸ hs

/-- A program asks for one byte before any key was pressed. -/
theorem first_read_sticks : ∃ acts s, Run stdinStep (fun _ _ => True) .boot acts s ∧ Stuck s := by
  refine ⟨[.setIf true, .read 1], sysRead { StdinState.boot with ifl := true } 1,
    .cons trivial ⟨rfl, rfl⟩ (.cons trivial ⟨rfl, rfl⟩ .nil), ?_⟩
  exact ⟨⟨_, rfl, by decide⟩, rfl, rfl⟩

end EponaOS.Kernel.StdinWait
