/-!
# Frames on a stack

A stack is a piece of memory that is filled downwards. The functions of a program take
bytes of it, and so does each trap, which notes where the stack pointer was.
-/

namespace EponaOS

structure Range where
  start : Nat
  size : Nat
  deriving DecidableEq

namespace Range

def stop (r : Range) : Nat := r.start + r.size

def Apart (r r' : Range) : Prop := r.stop ≤ r'.start ∨ r'.stop ≤ r.start

def In (r r' : Range) : Prop := r'.start ≤ r.start ∧ r.stop ≤ r'.stop

instance : Decidable (Apart r r') := inferInstanceAs (Decidable (_ ∨ _))

instance : Decidable (In r r') := inferInstanceAs (Decidable (_ ∧ _))

theorem In.refl : In r r := ⟨Nat.le_refl _, Nat.le_refl _⟩

theorem in_last {a n m : Nat} (hn : n ≤ m) : In ⟨a + m - n, n⟩ ⟨a, m⟩ := by
  refine ⟨?_, ?_⟩ <;> simp only [stop] <;> omega

theorem Apart.symm (h : Apart r r') : Apart r' r := Or.symm h

theorem Apart.mono (h : Apart r r') (hr : In q r) (hr' : In q' r') : Apart q q' :=
  h.imp (fun h => Nat.le_trans hr.2 (Nat.le_trans h hr'.1))
    fun h => Nat.le_trans hr'.2 (Nat.le_trans h hr.1)

end Range

/-- `call n` are the `n` bytes of a function. `trap (some sp)` is the frame of a trap that
came on this stack, when its pointer was `sp`. A trap from elsewhere is the first on it. -/
inductive Frame
  | call (n : Nat)
  | trap (sp : Option Nat)
  deriving DecidableEq

namespace Frame

def isCall : Frame → Bool
  | .call _ => true
  | .trap _ => false

variable {size : Nat} {stack r : Range} {p sp n : Nat} {fs : List Frame}

/-- The frames of traps are `size` bytes long. From the pointer `p` on the frames fill the
stack. -/
def Placed (size : Nat) (stack : Range) : Nat → List Frame → Prop
  | p, [] => stack.start ≤ p ∧ p ≤ stack.stop
  | p, .call n :: fs => stack.start ≤ p ∧ Placed size stack (p + n) fs
  | p, .trap none :: _ => stack.start ≤ p ∧ p + size ≤ stack.stop
  | p, .trap (some sp) :: fs => stack.start ≤ p ∧ p + size ≤ sp ∧ Placed size stack sp fs

def trapFrames (size : Nat) : Nat → List Frame → List Range
  | _, [] => []
  | p, .call n :: fs => trapFrames size (p + n) fs
  | p, .trap none :: _ => [⟨p, size⟩]
  | p, .trap (some sp) :: fs => ⟨p, size⟩ :: trapFrames size sp fs

theorem Placed.start_le (h : Placed size stack p fs) : stack.start ≤ p := by
  cases fs with
  | nil => exact h.1
  | cons f fs =>
    cases f with
    | call n => exact h.1
    | trap sp => cases sp <;> exact h.1

theorem Placed.le_stop (h : Placed size stack p fs) : p ≤ stack.stop := by
  induction fs generalizing p with
  | nil => exact h.2
  | cons f fs ih =>
    cases f with
    | call n => exact Nat.le_trans (Nat.le_add_right p n) (ih h.2)
    | trap sp =>
      cases sp with
      | none => exact Nat.le_trans (Nat.le_add_right p size) h.2
      | some sp => exact Nat.le_trans (Nat.le_add_right p size) (Nat.le_trans h.2.1 (ih h.2.2))

theorem Placed.trapFrames_in (h : Placed size stack p fs) (hr : r ∈ trapFrames size p fs) :
    r.In stack := by
  induction fs generalizing p with
  | nil => cases hr
  | cons f fs ih =>
    cases f with
    | call n => exact ih h.2 hr
    | trap sp =>
      cases sp with
      | none =>
        rw [List.mem_singleton.mp hr]
        exact h
      | some sp =>
        obtain rfl | hr := List.mem_cons.mp hr
        · exact ⟨h.1, Nat.le_trans h.2.1 h.2.2.le_stop⟩
        · exact ih h.2.2 hr

theorem Placed.push (h : Placed size stack p fs) (hn : stack.start + n ≤ p) :
    Placed size stack (p - n) (.call n :: fs) := by
  refine ⟨by omega, ?_⟩
  rwa [Nat.sub_add_cancel (by omega)]

theorem Placed.trap (h : Placed size stack sp fs) (hp : stack.start ≤ p) (hsp : p + size ≤ sp) :
    Placed size stack p (.trap (some sp) :: fs) :=
  ⟨hp, hsp, h⟩

end Frame

end EponaOS
