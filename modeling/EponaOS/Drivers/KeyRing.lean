import EponaOS.Drivers.Keyboard

/-!
# The key ring under interrupts

`keyboard_getc` runs one statement at a time, and an interrupt can put a key before each of them.
`results` has what the calls returned; `accepted` has the codes that `put_key` stored.
-/

namespace EponaOS.Drivers

-- ---------------------------------------------------------------------------
-- The ring
-- ---------------------------------------------------------------------------

theorem Keyboard.keys_length (k : Keyboard) :
    k.keys.length = Ring.count keybufSize k.gHead k.gTail := by
  simp [Keyboard.keys, Ring.contents]

theorem Keyboard.full_iff (k : Keyboard) : k.Full ↔ k.keys.length = 255 := by
  have hhead := k.head_lt
  have htail := k.tail_lt
  rw [Keyboard.Full, k.keys_length, Ring.count_eq hhead htail, Ring.succ_mod_eq htail]
  dsimp only [keybufSize] at *
  split <;> split <;> omega

theorem putKey_of_full (h : k.Full) (code : Nat) : putKey k code = k := by
  rw [putKey]
  exact if_neg (not_not.mpr h)

-- ---------------------------------------------------------------------------
-- Statements of keyboard_getc
-- ---------------------------------------------------------------------------

/-- The statement that is next; `code` is the local variable. -/
inductive GetcAt
  /-- `if (g_head == g_tail) return 0` -/
  | check
  /-- `code = g_buf[g_head]` -/
  | read
  /-- `g_head = (g_head + 1) % KEYBUF_SIZE` -/
  | advance (code : Nat)
  /-- `return code` -/
  | ret (code : Nat)
  deriving DecidableEq

structure GetcRun where
  kb : Keyboard
  next : GetcAt
  accepted : List Nat
  /-- `none` is the `return 0` of the check. -/
  results : List (Option Nat)

inductive GetcAct
  /-- An interrupt calls `put_key`. -/
  | put (code : Nat)
  /-- `keyboard_getc` goes on by a statement; behind a return it is called again. -/
  | getc

def GetcRun.boot : GetcRun := ⟨.boot, .check, [], []⟩

theorem Keyboard.advance_lt (k : Keyboard) : (k.gHead + 1) % keybufSize < keybufSize :=
  Nat.mod_lt _ (Nat.succ_pos 255)

def Keyboard.advance (k : Keyboard) : Keyboard :=
  { k with gHead := (k.gHead + 1) % keybufSize, head_lt := k.advance_lt }

def GetcRun.put (s : GetcRun) (code : Nat) : GetcRun :=
  { s with
    kb := putKey s.kb code
    accepted := if (s.kb.gTail + 1) % keybufSize ≠ s.kb.gHead then s.accepted ++ [code]
      else s.accepted }

def GetcRun.getc (s : GetcRun) : GetcRun :=
  match s.next with
  | .check =>
    if s.kb.gHead = s.kb.gTail then { s with results := s.results ++ [none] }
    else { s with next := .read }
  | .read => { s with next := .advance (s.kb.gBuf s.kb.gHead) }
  | .advance code => { s with kb := s.kb.advance, next := .ret code }
  | .ret code => { s with next := .check, results := s.results ++ [some code] }

def GetcRun.step (s : GetcRun) : GetcAct → GetcRun
  | .put code => s.put code
  | .getc => s.getc

def GetcRun.run (s : GetcRun) (acts : List GetcAct) : GetcRun := acts.foldl GetcRun.step s

/-- The codes of `return code` -/
def GetcRun.returned (s : GetcRun) : List Nat := s.results.filterMap id

def GetcRun.inHand (s : GetcRun) : List Nat :=
  match s.next with
  | .ret code => [code]
  | .check | .read | .advance _ => []

def GetcRun.returns (s : GetcRun) : Option Nat :=
  match s.next with
  | .check => if s.kb.gHead = s.kb.gTail then some 0 else none
  | .read => none
  | .advance _ => none
  | .ret code => some code

theorem run_getc (k : Keyboard) (accepted : List Nat) (results : List (Option Nat)) :
    ∃ n r, (GetcRun.mk k .check accepted results).run (List.replicate n .getc) =
        ⟨(keyboardGetc k).2, .check, accepted, results ++ [r]⟩ ∧ r.getD 0 = (keyboardGetc k).1 := by
  by_cases hempty : k.gHead = k.gTail
  · refine ⟨1, none, ?_, ?_⟩
    · rw [keyboardGetc, if_pos hempty]
      exact if_pos hempty
    · rw [keyboardGetc, if_pos hempty]
      rfl
  · refine ⟨4, some (k.gBuf k.gHead), ?_, ?_⟩
    · have hcheck : (GetcRun.mk k .check accepted results).getc =
          ⟨k, .read, accepted, results⟩ := if_neg hempty
      rw [keyboardGetc, if_neg hempty]
      simp only [GetcRun.run, List.replicate, List.foldl, GetcRun.step, hcheck]
      rfl
    · rw [keyboardGetc, if_neg hempty]
      rfl

-- ---------------------------------------------------------------------------
-- The invariant
-- ---------------------------------------------------------------------------

variable {s : GetcRun}

/-- What is accepted was returned, is in hand or waits, in this order; `keyboard_getc` is at the
first key of the ring. -/
structure GetcRun.Fifo (s : GetcRun) : Prop where
  accepted : s.accepted = s.returned ++ s.inHand ++ s.kb.keys
  read : s.next = .read → s.kb.keys ≠ []
  advance : ∀ code, s.next = .advance code → ∃ keys, s.kb.keys = code :: keys

theorem GetcRun.Fifo.boot : GetcRun.boot.Fifo := by
  refine ⟨?_, ?_, ?_⟩
  · have hempty : Ring.contents keybufSize (fun _ => (0 : Nat)) 0 0 = [] := Ring.contents_self
    exact hempty.symm
  · rintro ⟨⟩
  · rintro code ⟨⟩

theorem GetcRun.Fifo.put (h : s.Fifo) (code : Nat) : (s.put code).Fifo := by
  by_cases hfull : s.kb.Full
  · have hsame : s.put code = s := by
      have haccepted : (if (s.kb.gTail + 1) % keybufSize ≠ s.kb.gHead then s.accepted ++ [code]
          else s.accepted) = s.accepted := if_neg (not_not.mpr hfull)
      rw [GetcRun.put, putKey_of_full hfull, haccepted]
    rwa [hsame]
  · have hkeys : (s.put code).kb.keys = s.kb.keys ++ [code] := by
      refine (putKey_keys_eq s.kb code).trans (if_neg hfull)
    refine ⟨?_, ?_, ?_⟩
    · have haccepted : (s.put code).accepted = s.accepted ++ [code] := if_pos hfull
      rw [haccepted, hkeys, h.accepted, List.append_assoc _ _ [code]]
      rfl
    · intro hread
      rw [hkeys]
      exact List.append_ne_nil_of_left_ne_nil (h.read hread) _
    · intro c hadvance
      obtain ⟨keys, hhead⟩ := h.advance c hadvance
      exact ⟨keys ++ [code], by rw [hkeys, hhead, List.cons_append]⟩

theorem Keyboard.keys_of_ne (k : Keyboard) (hne : k.gHead ≠ k.gTail) :
    k.keys = k.gBuf k.gHead :: k.advance.keys :=
  Ring.contents_take k.head_lt k.tail_lt hne

theorem GetcRun.Fifo.getc (h : s.Fifo) : s.getc.Fifo := by
  obtain ⟨k, next, accepted, results⟩ := s
  cases next with
  | check =>
    by_cases hempty : k.gHead = k.gTail
    · have hget : (GetcRun.mk k .check accepted results).getc =
          ⟨k, .check, accepted, results ++ [none]⟩ := if_pos hempty
      rw [hget]
      refine ⟨?_, ?_, ?_⟩
      · refine h.accepted.trans ?_
        simp [GetcRun.returned, GetcRun.inHand]
      · rintro ⟨⟩
      · rintro code ⟨⟩
    · have hget : (GetcRun.mk k .check accepted results).getc =
          ⟨k, .read, accepted, results⟩ := if_neg hempty
      rw [hget]
      refine ⟨h.accepted, fun _ hnil => hempty ((k.keys_eq_nil).mp hnil), ?_⟩
      rintro code ⟨⟩
  | read =>
    have hne : k.gHead ≠ k.gTail := fun heq => h.read rfl ((k.keys_eq_nil).mpr heq)
    refine ⟨h.accepted, ?_, ?_⟩
    · rintro ⟨⟩
    · rintro code ⟨⟩
      exact ⟨k.advance.keys, k.keys_of_ne hne⟩
  | advance code =>
    obtain ⟨keys, hkeys⟩ := h.advance code rfl
    change k.keys = code :: keys at hkeys
    have hne : k.gHead ≠ k.gTail := fun heq => by
      rw [(k.keys_eq_nil).mpr heq] at hkeys
      cases hkeys
    obtain ⟨hcode, -⟩ := List.cons.inj ((k.keys_of_ne hne).symm.trans hkeys)
    refine ⟨?_, ?_, ?_⟩
    · refine h.accepted.trans ?_
      change results.filterMap id ++ [] ++ k.keys = results.filterMap id ++ [code] ++ k.advance.keys
      rw [k.keys_of_ne hne, hcode, List.append_nil, List.append_assoc]
      rfl
    · rintro ⟨⟩
    · rintro c ⟨⟩
  | ret code =>
    refine ⟨?_, ?_, ?_⟩
    · refine h.accepted.trans ?_
      simp [GetcRun.returned, GetcRun.inHand, GetcRun.getc]
    · rintro ⟨⟩
    · rintro c ⟨⟩

theorem GetcRun.Fifo.run (h : s.Fifo) (acts : List GetcAct) : (s.run acts).Fifo := by
  induction acts generalizing s with
  | nil => exact h
  | cons act acts ih =>
    cases act with
    | put code => exact ih (h.put code)
    | getc => exact ih h.getc

end EponaOS.Drivers
