import Mathlib.Logic.Function.Basic
import EponaOS.Lib.CallStack
import EponaOS.Lib.Run
import EponaOS.Lib.Slots
import EponaOS.Kernel.TaskMemory

/-!
# The stacks that tasks are left on

A trap from ring 3 starts at the `rsp0` of the TSS, for every task the top of the one
`g_kernel_stack`. What a task has there when `context_switch` leaves it stays there until
it goes on. The next trap from ring 3 writes over it, whichever task it comes from. Where
no trap comes from ring 3 in the meantime, a task finds all as it left it.
-/

namespace EponaOS.Kernel.TrapStack

open Function (update)

-- ---------------------------------------------------------------------------
-- The state
-- ---------------------------------------------------------------------------

/-- `struct regs`: 22 words. -/
def trapSize : Nat := 22 * 8

/-- What `context_switch` pushes: six registers, below the address it returns to. -/
def switchSize : Nat := 7 * 8

/-- `sizeof(g_kernel_stack)`. -/
def kernelStackSize : Nat := 16384

/-- The stack of a task is the one at `kernel_stack_base`, but for the first task, which is
left on the stack that the kernel was started on. `frames` are what lies above the frame of
`context_switch` at `rsp`. -/
structure StackTask where
  stack : Range
  kernelStackBase : Nat
  rsp : Nat
  frames : List Frame

inductive Stack
  | own
  | rsp0

/-- Some bytes are written while `gCurrent` runs and the tasks are `tasks`. -/
structure Store where
  range : Range
  gCurrent : Nat
  tasks : Nat → Option StackTask

/-- `user` says that the current task is in ring 3, `elfRet` is where the next exit goes to,
with what was on the stack then. -/
structure StackState where
  gKernelStack : Nat
  tasks : Nat → Option StackTask
  gCurrent : Nat
  user : Bool
  on : Stack
  rsp : Nat
  frames : List Frame
  elfRet : Option (Nat × List Frame)
  stores : List Store

namespace StackState

def kernelStack (s : StackState) : Range := ⟨s.gKernelStack, kernelStackSize⟩

def LeftOnRsp0 (s : StackState) (t : StackTask) : Prop :=
  s.gKernelStack ≤ t.rsp ∧ t.rsp < s.gKernelStack + kernelStackSize

instance : Decidable (LeftOnRsp0 s t) := inferInstanceAs (Decidable (_ ∧ _))

def stack (s : StackState) : Range :=
  match s.on, s.tasks s.gCurrent with
  | .own, some t => t.stack
  | _, _ => s.kernelStack

def store (s : StackState) (start size : Nat) : StackState :=
  { s with stores := s.stores ++ [⟨⟨start, size⟩, s.gCurrent, s.tasks⟩] }

end StackState

-- ---------------------------------------------------------------------------
-- The steps
-- ---------------------------------------------------------------------------

inductive StackAct
  /-- An interrupt or a system call in ring 3. -/
  | trap
  /-- An interrupt in ring 0. -/
  | irq
  | iretq
  /-- A function takes bytes of the stack and gives them back. -/
  | call (n : Nat)
  | ret
  /-- The running code writes somewhere else. -/
  | write (start size : Nat)
  | contextSwitch (next : Nat)
  | enterUsermode
  /-- The path of `int80_stub` to `return_to_kernel`. -/
  | exit
  | taskCreate (task stack : Nat)
  | fork (child stack : Nat)
  | taskDestroy (task : Nat)

/-- The `rsp` of a child, in 64 bits. -/
def childRsp (parent : StackTask) (stack : Nat) : Nat :=
  (stack + parent.rsp + (2 ^ 64 - parent.kernelStackBase)) % 2 ^ 64

def stackStep (s : StackState) : StackAct → Option StackState
  | .trap =>
    let rsp := s.gKernelStack + kernelStackSize - trapSize
    if s.user then
      some { s.store rsp trapSize with user := false, on := .rsp0, rsp, frames := [.trap none] }
    else none
  | .irq =>
    let rsp := s.rsp - s.rsp % 16 - trapSize
    if s.user then none
    else some { s.store rsp trapSize with rsp, frames := .trap (some s.rsp) :: s.frames }
  | .iretq =>
    match s.user, s.frames with
    | false, .trap none :: _ => some { s with user := true, frames := [] }
    | false, .trap (some rsp) :: frames => some { s with rsp, frames }
    | _, _ => none
  | .call n =>
    if s.user then none
    else some { s.store (s.rsp - n) n with rsp := s.rsp - n, frames := .call n :: s.frames }
  | .ret =>
    match s.user, s.frames with
    | false, .call n :: frames => some { s with rsp := s.rsp + n, frames }
    | _, _ => none
  | .write start size => some (s.store start size)
  | .contextSwitch next =>
    match s.user, s.tasks s.gCurrent, s.tasks next with
    | false, some old, some new =>
      if next = s.gCurrent then none
      else
        let rsp := s.rsp - switchSize
        some { s.store rsp switchSize with
          tasks := update s.tasks s.gCurrent (some { old with rsp, frames := s.frames })
          gCurrent := next
          on := if s.LeftOnRsp0 new then .rsp0 else .own
          rsp := new.rsp + switchSize
          frames := new.frames }
    | _, _, _ => none
  | .enterUsermode =>
    -- only the shell runs programs, and not from a trap
    if s.user ∨ ¬s.frames.all Frame.isCall then none
    else some { s.store (s.rsp - 6 * 8) (6 * 8) with
      user := true, frames := [], elfRet := some (s.rsp, s.frames) }
  | .exit =>
    match s.user, s.frames, s.elfRet with
    | false, .trap none :: _, some (rsp, frames) =>
      some { s with elfRet := none, on := .own, rsp, frames }
    | _, _, _ => none
  | .taskCreate task stack =>
    if s.user ∨ (s.tasks task).isSome then none
    else
      let rsp := stack + TASK_STACK_SIZE - switchSize
      some { s.store rsp switchSize with
        tasks := update s.tasks task (some ⟨⟨stack, TASK_STACK_SIZE⟩, stack, rsp, []⟩) }
  | .fork child stack =>
    match s.user, s.tasks s.gCurrent, s.tasks child with
    | false, some parent, none =>
      some { s.store stack TASK_STACK_SIZE with
        tasks := update s.tasks child
          (some ⟨⟨stack, TASK_STACK_SIZE⟩, stack, childRsp parent stack, parent.frames⟩) }
    | _, _, _ => none
  | .taskDestroy task =>
    if s.user ∨ task = s.gCurrent then none else some { s with tasks := update s.tasks task none }

-- ---------------------------------------------------------------------------
-- What is to survive, and when it does
-- ---------------------------------------------------------------------------

def StackTask.saved (t : StackTask) : List Range :=
  ⟨t.rsp, switchSize⟩ :: Frame.trapFrames trapSize (t.rsp + switchSize) t.frames

/-- Nothing that a task was left with has been written to while another task ran. -/
def ContextsSurvive (s : StackState) : Prop :=
  ∀ w ∈ s.stores, ∀ a t, a ≠ w.gCurrent → w.tasks a = some t → ∀ r ∈ t.saved, w.range.Apart r

def StackState.Unused (s : StackState) (r : Range) : Prop :=
  r.Apart s.kernelStack ∧ ∀ a t, s.tasks a = some t → r.Apart t.stack

/-- The first condition is that of `gdt_init`, where one `rsp0` serves all tasks. The others
are that no stack overflows, that a new stack lies on no other, that the context that
`SYS_FORK` makes up is inside the copied stack, and that an exit returns to the stack of its
own task. -/
def StackOk (s : StackState) : StackAct → Prop
  | .trap => ∀ a t, a ≠ s.gCurrent → s.tasks a = some t → ¬s.LeftOnRsp0 t
  | .irq => s.stack.start + trapSize + s.rsp % 16 ≤ s.rsp
  | .call n => s.stack.start + n ≤ s.rsp
  | .contextSwitch _ => s.stack.start + switchSize ≤ s.rsp
  | .enterUsermode => s.stack.start + 6 * 8 ≤ s.rsp
  | .write start size =>
    s.Unused ⟨start, size⟩ ∨ (s.user = false ∧ s.rsp ≤ start ∧ start + size ≤ s.stack.stop)
  | .exit => ∀ t rsp frames, s.tasks s.gCurrent = some t → s.elfRet = some (rsp, frames) →
    Frame.Placed trapSize t.stack rsp frames
  | .taskCreate _ stack => s.Unused ⟨stack, TASK_STACK_SIZE⟩
  | .fork _ stack => s.Unused ⟨stack, TASK_STACK_SIZE⟩ ∧
    ∀ parent, s.tasks s.gCurrent = some parent →
      stack ≤ childRsp parent stack ∧ Frame.Placed trapSize ⟨stack, TASK_STACK_SIZE⟩
        (childRsp parent stack + switchSize) parent.frames
  | .iretq | .ret | .taskDestroy _ => True

structure Booted (s : StackState) : Prop where
  sole : ∃ t, ∀ a, s.tasks a = if a = s.gCurrent then some t else none
  apart : ∀ t, s.tasks s.gCurrent = some t → t.stack.Apart s.kernelStack
  user : s.user = false
  on : s.on = .own
  placed : Frame.Placed trapSize s.stack s.rsp s.frames
  stores : s.stores = []

-- ---------------------------------------------------------------------------
-- Where everything is
-- ---------------------------------------------------------------------------

variable {s s' : StackState} {t u : StackTask} {r : Range} {a b : Nat}

def StackState.stackOf (s : StackState) (t : StackTask) : Range :=
  if s.LeftOnRsp0 t then s.kernelStack else t.stack

def StackState.Left (s : StackState) (t : StackTask) : Prop :=
  (s.stackOf t).start ≤ t.rsp ∧
    Frame.Placed trapSize (s.stackOf t) (t.rsp + switchSize) t.frames

/-- At most one task has something on the stack of the TSS. -/
structure Sane (s : StackState) : Prop where
  current : ∃ t, s.tasks s.gCurrent = some t
  kernel : ∀ a t, s.tasks a = some t → t.stack.Apart s.kernelStack
  apart : ∀ a b t u, a ≠ b → s.tasks a = some t → s.tasks b = some u → t.stack.Apart u.stack
  left : ∀ a t, a ≠ s.gCurrent → s.tasks a = some t → s.Left t
  one : ∀ a b t u, a ≠ s.gCurrent → b ≠ s.gCurrent → s.tasks a = some t → s.tasks b = some u →
    s.LeftOnRsp0 t → s.LeftOnRsp0 u → a = b
  running : s.user = false → Frame.Placed trapSize s.stack s.rsp s.frames
  sole : s.user = false → s.on = .rsp0 → ∀ a t, a ≠ s.gCurrent → s.tasks a = some t →
    ¬s.LeftOnRsp0 t

theorem stack_own (hon : s.on = .own) (ht : s.tasks s.gCurrent = some t) : s.stack = t.stack := by
  simp only [StackState.stack, hon, ht]

theorem stack_rsp0 (hon : s.on = .rsp0) : s.stack = s.kernelStack := by
  simp only [StackState.stack, hon]

theorem stackOf_left (h : s.LeftOnRsp0 t) : s.stackOf t = s.kernelStack := if_pos h

theorem stackOf_own (h : ¬s.LeftOnRsp0 t) : s.stackOf t = t.stack := if_neg h

theorem not_leftOnRsp0 (hr : Range.In ⟨t.rsp, switchSize⟩ r) (hk : r.Apart s.kernelStack) :
    ¬s.LeftOnRsp0 t := by
  simp only [StackState.LeftOnRsp0, Range.In, Range.Apart, Range.stop, StackState.kernelStack,
    switchSize] at *
  omega

theorem StackState.Left.saved_in (h : s.Left t) (hr : r ∈ t.saved) : r.In (s.stackOf t) := by
  obtain rfl | hr := List.mem_cons.mp hr
  · exact ⟨h.1, h.2.le_stop⟩
  · exact h.2.trapFrames_in hr

theorem StackState.Unused.apart (h : s.Unused r) (ht : s.tasks a = some t) :
    r.Apart (s.stackOf t) := by
  rw [StackState.stackOf]
  split
  · exact h.1
  · exact h.2 a t ht

theorem StackState.Unused.mono (h : s.Unused r) (hq : q.In r) : s.Unused q :=
  ⟨h.1.mono hq .refl, fun a t ht => (h.2 a t ht).mono hq .refl⟩

theorem Sane.stack_apart (h : Sane s) (hu : s.user = false) (ha : a ≠ s.gCurrent)
    (ht : s.tasks a = some t) : s.stack.Apart (s.stackOf t) := by
  obtain ⟨c, hc⟩ := h.current
  cases hon : s.on with
  | own =>
    rw [stack_own hon hc, StackState.stackOf]
    split
    · exact h.kernel _ c hc
    · exact h.apart _ a c t ha.symm hc ht
  | rsp0 =>
    rw [stack_rsp0 hon, stackOf_own (h.sole hu hon a t ha ht)]
    exact (h.kernel a t ht).symm

-- ---------------------------------------------------------------------------
-- What a step writes
-- ---------------------------------------------------------------------------

def StackState.Untouched (s : StackState) (r : Range) : Prop :=
  ∀ a t, a ≠ s.gCurrent → s.tasks a = some t → ∀ q ∈ t.saved, r.Apart q

theorem Sane.untouched (h : Sane s) (hr : s.Unused r) : s.Untouched r := by
  intro a t ha ht q hq
  exact (hr.apart ht).mono .refl ((h.left a t ha ht).saved_in hq)

theorem Sane.untouched_stack (h : Sane s) (hu : s.user = false) (hr : r.In s.stack) :
    s.Untouched r := by
  intro a t ha ht q hq
  exact (h.stack_apart hu ha ht).mono hr ((h.left a t ha ht).saved_in hq)

theorem Sane.untouched_push (h : Sane s) (hu : s.user = false) (hn : s.stack.start + n ≤ s.rsp) :
    s.Untouched ⟨s.rsp - n, n⟩ := by
  refine h.untouched_stack hu ⟨Nat.le_sub_of_add_le hn, ?_⟩
  have hstop := (h.running hu).le_stop
  have hle : n ≤ s.rsp := Nat.le_trans (Nat.le_add_left ..) hn
  exact (Nat.sub_add_cancel hle).trans_le hstop

theorem Sane.untouched_trap (h : Sane s) (hok : StackOk s .trap) :
    s.Untouched ⟨s.gKernelStack + kernelStackSize - trapSize, trapSize⟩ := by
  intro a t ha ht q hq
  have hown := hok a t ha ht
  exact (h.kernel a t ht).symm.mono (Range.in_last (by decide))
    (stackOf_own hown ▸ (h.left a t ha ht).saved_in hq)

theorem stackStep_stores (hs : Sane s) (hok : StackOk s act) (h : stackStep s act = some s') :
    s'.stores = s.stores ∨
      ∃ r, s.Untouched r ∧ s'.stores = s.stores ++ [⟨r, s.gCurrent, s.tasks⟩] := by
  cases act <;> simp only [stackStep] at h
  case trap =>
    split at h <;> cases h
    exact .inr ⟨_, hs.untouched_trap hok, rfl⟩
  case irq =>
    split at h <;> cases h
    rename_i hu
    have hu : s.user = false := Bool.eq_false_iff.mpr hu
    refine .inr ⟨_, hs.untouched_stack hu ⟨?_, ?_⟩, rfl⟩
    · exact Nat.le_sub_of_add_le (Nat.le_sub_of_add_le hok)
    · have hstop := (hs.running hu).le_stop
      simp only [Range.stop, StackOk] at hstop hok ⊢
      omega
  case iretq =>
    split at h <;> cases h
    all_goals exact .inl rfl
  case call n =>
    split at h <;> cases h
    rename_i hu
    exact .inr ⟨_, hs.untouched_push (Bool.eq_false_iff.mpr hu) hok, rfl⟩
  case ret =>
    split at h <;> cases h
    exact .inl rfl
  case write start size =>
    cases h
    refine .inr ⟨_, ?_, rfl⟩
    obtain hr | ⟨hu, hstart, hstop⟩ := hok
    · exact hs.untouched hr
    · exact hs.untouched_stack hu ⟨Nat.le_trans (hs.running hu).start_le hstart, hstop⟩
  case contextSwitch next =>
    split at h
    · rename_i hu _ _
      split at h <;> cases h
      exact .inr ⟨_, hs.untouched_push hu hok, rfl⟩
    · cases h
  case enterUsermode =>
    split at h <;> cases h
    rename_i hu
    exact .inr ⟨_, hs.untouched_push (Bool.eq_false_iff.mpr (not_or.mp hu).1) hok, rfl⟩
  case exit =>
    split at h <;> cases h
    exact .inl rfl
  case taskCreate task stack =>
    split at h <;> cases h
    exact .inr ⟨_, hs.untouched (hok.mono (Range.in_last (by decide))), rfl⟩
  case fork child stack =>
    split at h <;> cases h
    exact .inr ⟨_, hs.untouched hok.1, rfl⟩
  case taskDestroy task =>
    split at h <;> cases h
    exact .inl rfl

theorem stackStep_survive (hs : Sane s) (hok : StackOk s act) (h : stackStep s act = some s')
    (hc : ContextsSurvive s) : ContextsSurvive s' := by
  intro w hw a t ha ht r hr
  obtain hsame | ⟨q, hq, hstores⟩ := stackStep_stores hs hok h
  · exact hc w (hsame ▸ hw) a t ha ht r hr
  · rw [hstores] at hw
    obtain hw | hw := List.mem_append.mp hw
    · exact hc w hw a t ha ht r hr
    · rw [List.mem_singleton.mp hw] at ha ht ⊢
      exact hq a t ha ht r hr

-- ---------------------------------------------------------------------------
-- How the stacks stay apart
-- ---------------------------------------------------------------------------

theorem Sane.move (h : Sane s) (hrsp : Frame.Placed trapSize s.stack rsp frames) :
    Sane { s with rsp, frames } :=
  { h with running := fun _ => hrsp }

theorem Sane.toUser (h : Sane s) : Sane { s with user := true, frames, elfRet } where
  __ := h
  running hu := by cases hu
  sole hu := by cases hu

theorem Sane.stores (h : Sane s) {stores : List Store} : Sane { s with stores } := { h with }

theorem Sane.trap (h : Sane s) (hok : StackOk s .trap) :
    Sane { s with
      user := false, on := .rsp0, rsp := s.gKernelStack + kernelStackSize - trapSize,
      frames := [.trap none] } where
  __ := h
  running _ := Range.in_last (by decide)
  sole _ _ := hok

theorem Sane.exit (h : Sane s) (ht : s.tasks s.gCurrent = some t)
    (hrsp : Frame.Placed trapSize t.stack rsp frames) :
    Sane { s with elfRet := none, on := .own, rsp, frames } where
  __ := h
  running _ := by
    have hstack := stack_own (s := { s with elfRet := none, on := .own, rsp, frames }) rfl ht
    rw [hstack]
    exact hrsp
  sole _ hon := by cases hon

theorem stack_update (hb : b ≠ s.gCurrent) :
    { s with tasks := update s.tasks b v }.stack = s.stack := by
  simp only [StackState.stack, StackState.kernelStack, Function.update_of_ne hb.symm]

theorem Sane.addTask (h : Sane s) (hb : s.tasks b = none) (hu : s.Unused u.stack)
    (hrsp : u.stack.start ≤ u.rsp)
    (hframes : Frame.Placed trapSize u.stack (u.rsp + switchSize) u.frames) :
    Sane { s with tasks := update s.tasks b (some u) } := by
  obtain ⟨c, hc⟩ := h.current
  have hbc : b ≠ s.gCurrent := by
    intro heq
    rw [← heq, hb] at hc
    cases hc
  have hnot : ¬s.LeftOnRsp0 u := not_leftOnRsp0 ⟨hrsp, hframes.le_stop⟩ hu.1
  have hleft : s.Left u := by
    rw [StackState.Left, stackOf_own hnot]
    exact ⟨hrsp, hframes⟩
  refine ⟨⟨c, ?_⟩, ?_, ?_, ?_, ?_, ?_, ?_⟩
  · exact (Function.update_of_ne hbc.symm ..).trans hc
  · intro a t ht
    obtain ⟨-, ht⟩ | ⟨-, ht⟩ := update_eq_some ht
    · cases ht
      exact hu.1
    · exact h.kernel a t ht
  · intro a a' t t' hne ht ht'
    obtain ⟨ha, ht⟩ | ⟨-, ht⟩ := update_eq_some ht <;>
      obtain ⟨ha', ht'⟩ | ⟨-, ht'⟩ := update_eq_some ht'
    · exact absurd (ha.trans ha'.symm) hne
    · cases ht
      exact hu.2 a' t' ht'
    · cases ht'
      exact (hu.2 a t ht).symm
    · exact h.apart a a' t t' hne ht ht'
  · intro a t ha ht
    obtain ⟨-, ht⟩ | ⟨-, ht⟩ := update_eq_some ht
    · cases ht
      exact hleft
    · exact h.left a t ha ht
  · intro a a' t t' ha ha' ht ht' hl hl'
    obtain ⟨-, ht⟩ | ⟨-, ht⟩ := update_eq_some ht
    · cases ht
      exact absurd hl hnot
    obtain ⟨-, ht'⟩ | ⟨-, ht'⟩ := update_eq_some ht'
    · cases ht'
      exact absurd hl' hnot
    exact h.one a a' t t' ha ha' ht ht' hl hl'
  · intro hu
    rw [stack_update hbc]
    exact h.running hu
  · intro hu hon a t ha ht
    obtain ⟨-, ht⟩ | ⟨-, ht⟩ := update_eq_some ht
    · cases ht
      exact hnot
    · exact h.sole hu hon a t ha ht

theorem Sane.taskDestroy (h : Sane s) (hb : b ≠ s.gCurrent) :
    Sane { s with tasks := update s.tasks b none } := by
  have hold : ∀ a t, update s.tasks b none a = some t → s.tasks a = some t := by
    intro a t ht
    obtain ⟨-, ht⟩ | ⟨-, ht⟩ := update_eq_some ht
    · cases ht
    · exact ht
  obtain ⟨c, hc⟩ := h.current
  refine ⟨⟨c, ?_⟩, ?_, ?_, ?_, ?_, ?_, ?_⟩
  · exact (Function.update_of_ne hb.symm ..).trans hc
  · exact fun a t ht => h.kernel a t (hold a t ht)
  · exact fun a a' t t' hne ht ht' => h.apart a a' t t' hne (hold a t ht) (hold a' t' ht')
  · exact fun a t ha ht => h.left a t ha (hold a t ht)
  · exact fun a a' t t' ha ha' ht ht' => h.one a a' t t' ha ha' (hold a t ht) (hold a' t' ht')
  · intro hu
    rw [stack_update hb]
    exact h.running hu
  · exact fun hu hon a t ha ht => h.sole hu hon a t ha (hold a t ht)

/-- The task that is left has its context where its code ran, and was the only one on the
stack of the TSS if that is there. -/
theorem Sane.leave (h : Sane s) (hok : s.stack.start + switchSize ≤ s.rsp)
    (hu : s.user = false) (ht : s.tasks s.gCurrent = some t) :
    s.Left { t with rsp := s.rsp - switchSize, frames := s.frames } ∧
      (s.LeftOnRsp0 { t with rsp := s.rsp - switchSize, frames := s.frames } →
        ∀ a t, a ≠ s.gCurrent → s.tasks a = some t → ¬s.LeftOnRsp0 t) := by
  have hplaced := h.running hu
  have hle : switchSize ≤ s.rsp := Nat.le_trans (Nat.le_add_left ..) hok
  have hstart := Nat.le_sub_of_add_le hok
  have hstop : s.rsp - switchSize + switchSize ≤ s.stack.stop :=
    (Nat.sub_add_cancel hle).trans_le hplaced.le_stop
  rw [← Nat.sub_add_cancel hle] at hplaced
  cases hon : s.on with
  | own =>
    rw [stack_own hon ht] at hplaced hstart hstop
    have hnot : ¬s.LeftOnRsp0 { t with rsp := s.rsp - switchSize, frames := s.frames } :=
      not_leftOnRsp0 ⟨hstart, hstop⟩ (h.kernel _ t ht)
    rw [StackState.Left, stackOf_own hnot]
    exact ⟨⟨hstart, hplaced⟩, fun hl => absurd hl hnot⟩
  | rsp0 =>
    rw [stack_rsp0 hon] at hplaced hstart hstop
    have hleft : s.LeftOnRsp0 { t with rsp := s.rsp - switchSize, frames := s.frames } := by
      refine ⟨hstart, Nat.lt_of_lt_of_le ?_ hstop⟩
      exact Nat.lt_add_of_pos_right (by decide)
    rw [StackState.Left, stackOf_left hleft]
    exact ⟨⟨hstart, hplaced⟩, fun _ => h.sole hu hon⟩

theorem Sane.contextSwitch (h : Sane s) (hok : StackOk s (.contextSwitch b))
    (hu : s.user = false) (ht : s.tasks s.gCurrent = some t) (hb : s.tasks b = some u)
    (hne : b ≠ s.gCurrent) : Sane { s with
      tasks := update s.tasks s.gCurrent
        (some { t with rsp := s.rsp - switchSize, frames := s.frames })
      gCurrent := b
      on := if s.LeftOnRsp0 u then .rsp0 else .own
      rsp := u.rsp + switchSize
      frames := u.frames } := by
  obtain ⟨hleft, hsole⟩ := h.leave hok hu ht
  have hub := h.left b u hne hb
  have hnew : update s.tasks s.gCurrent
      (some { t with rsp := s.rsp - switchSize, frames := s.frames }) b = some u :=
    (Function.update_of_ne hne ..).trans hb
  refine ⟨⟨u, hnew⟩, ?_, ?_, ?_, ?_, ?_, ?_⟩
  · intro a t' ha
    obtain ⟨-, ha⟩ | ⟨-, ha⟩ := update_eq_some ha
    · cases ha
      exact h.kernel _ t ht
    · exact h.kernel a t' ha
  · intro a a' t₁ t₂ hne' h₁ h₂
    obtain ⟨ha, h₁⟩ | ⟨ha, h₁⟩ := update_eq_some h₁ <;>
      obtain ⟨ha', h₂⟩ | ⟨ha', h₂⟩ := update_eq_some h₂
    · exact absurd (ha.trans ha'.symm) hne'
    · cases h₁
      exact h.apart _ a' t t₂ ha'.symm ht h₂
    · cases h₂
      exact h.apart a _ t₁ t ha h₁ ht
    · exact h.apart a a' t₁ t₂ hne' h₁ h₂
  · intro a t' _ ha
    obtain ⟨-, ha⟩ | ⟨hac, ha⟩ := update_eq_some ha
    · cases ha
      exact hleft
    · exact h.left a t' hac ha
  · intro a a' t₁ t₂ _ _ h₁ h₂ hl₁ hl₂
    obtain ⟨ha, h₁⟩ | ⟨ha, h₁⟩ := update_eq_some h₁ <;>
      obtain ⟨ha', h₂⟩ | ⟨ha', h₂⟩ := update_eq_some h₂
    · exact ha.trans ha'.symm
    · cases h₁
      exact absurd hl₂ (hsole hl₁ a' t₂ ha' h₂)
    · cases h₂
      exact absurd hl₁ (hsole hl₂ a t₁ ha h₁)
    · exact h.one a a' t₁ t₂ ha ha' h₁ h₂ hl₁ hl₂
  · intro _
    by_cases hl : s.LeftOnRsp0 u
    · rw [stack_rsp0 (if_pos hl)]
      exact stackOf_left hl ▸ hub.2
    · rw [stack_own (if_neg hl) hnew]
      exact stackOf_own hl ▸ hub.2
  · intro _ hon a t' hab ha hl'
    have hl : s.LeftOnRsp0 u := by
      by_contra hl
      cases (if_neg hl).symm.trans hon
    obtain ⟨-, ha⟩ | ⟨hac, ha⟩ := update_eq_some ha
    · cases ha
      exact hsole hl' b u hne hb hl
    · exact hab (h.one a b t' u hac hne ha hb hl' hl)

theorem stackStep_sane (hs : Sane s) (hok : StackOk s act) (h : stackStep s act = some s') :
    Sane s' := by
  cases act <;> simp only [stackStep] at h
  case trap =>
    split at h <;> cases h
    exact (hs.trap hok).stores
  case irq =>
    split at h <;> cases h
    rename_i hu
    have hplaced := hs.running (Bool.eq_false_iff.mpr hu)
    have hstart := Nat.le_sub_of_add_le (Nat.le_sub_of_add_le hok)
    have hle : s.rsp - s.rsp % 16 - trapSize + trapSize ≤ s.rsp := by
      simp only [StackOk] at hok
      omega
    exact (hs.move (hplaced.trap hstart hle)).stores
  case iretq =>
    split at h <;> cases h
    · exact hs.toUser
    · rename_i rsp frames hu hframes
      have hplaced := hs.running hu
      rw [hframes] at hplaced
      exact hs.move hplaced.2.2
  case call n =>
    split at h <;> cases h
    rename_i hu
    exact (hs.move ((hs.running (Bool.eq_false_iff.mpr hu)).push hok)).stores
  case ret =>
    split at h <;> cases h
    rename_i n frames hu hframes
    have hplaced := hs.running hu
    rw [hframes] at hplaced
    exact hs.move hplaced.2
  case write start size =>
    cases h
    exact hs.stores
  case contextSwitch next =>
    split at h
    · rename_i hu ht hb
      split at h <;> cases h
      rename_i hne
      exact (hs.contextSwitch hok hu ht hb hne).stores
    · cases h
  case enterUsermode =>
    split at h <;> cases h
    exact hs.toUser.stores
  case exit =>
    split at h <;> cases h
    rename_i helf
    obtain ⟨t, ht⟩ := hs.current
    exact hs.exit ht (hok t _ _ ht helf)
  case taskCreate task stack =>
    split at h <;> cases h
    rename_i hu
    have htask : s.tasks task = none := by
      simpa using (not_or.mp hu).2
    have hin : Range.In ⟨stack + TASK_STACK_SIZE - switchSize, switchSize⟩
        ⟨stack, TASK_STACK_SIZE⟩ := Range.in_last (by decide)
    have hplaced : Frame.Placed trapSize ⟨stack, TASK_STACK_SIZE⟩
        (stack + TASK_STACK_SIZE - switchSize + switchSize) [] :=
      ⟨Nat.le_add_right_of_le hin.1, hin.2⟩
    exact (hs.addTask (u := ⟨_, stack, _, []⟩) htask hok hin.1 hplaced).stores
  case fork child stack =>
    split at h <;> cases h
    rename_i hu hparent hchild
    obtain ⟨hrsp, hframes⟩ := hok.2 _ hparent
    exact (hs.addTask (u := ⟨_, stack, _, _⟩) hchild hok.1 hrsp hframes).stores
  case taskDestroy task =>
    split at h <;> cases h
    rename_i hu
    exact hs.taskDestroy (not_or.mp hu).2

theorem Booted.sane (h : Booted s) : Sane s := by
  obtain ⟨t, ht⟩ := h.sole
  have hcur : s.tasks s.gCurrent = some t := (ht _).trans (if_pos rfl)
  have hsole : ∀ a t', s.tasks a = some t' → a = s.gCurrent ∧ t' = t := by
    intro a t' ha
    rw [ht] at ha
    split at ha <;> cases ha
    rename_i heq
    exact ⟨heq, rfl⟩
  refine ⟨⟨t, hcur⟩, ?_, ?_, ?_, ?_, fun _ => h.placed, ?_⟩
  · intro a t' ha
    rw [(hsole a t' ha).2]
    exact h.apart t hcur
  · intro a b t' u hne ha hb
    exact absurd ((hsole a t' ha).1.trans (hsole b u hb).1.symm) hne
  · exact fun a t' ha ht' => absurd (hsole a t' ht').1 ha
  · exact fun a b t' u ha _ ht' _ => absurd (hsole a t' ht').1 ha
  · exact fun _ _ a t' ha ht' => absurd (hsole a t' ht').1 ha

-- ---------------------------------------------------------------------------
-- Runs
-- ---------------------------------------------------------------------------

/-- In a run where no trap comes from ring 3 while another task's context is on the stack of
the TSS, every context survives. -/
theorem contexts_survive (hs : Booted s)
    (hrun : Run (fun s act s' => stackStep s act = some s') StackOk s acts s') :
    ContextsSurvive s' := by
  refine (hrun.invariant (fun s => Sane s ∧ ContextsSurvive s) ⟨hs.sane, ?_⟩ ?_).2
  · intro w hw
    rw [hs.stores] at hw
    cases hw
  · rintro s act s' ⟨hs, hc⟩ hok h
    exact ⟨stackStep_sane hs hok h, stackStep_survive hs hok h hc⟩

def shellState : StackState where
  gKernelStack := 0x110000
  tasks a := if a = 0x200000 then some ⟨⟨0x114000, 16384⟩, 0x201000, 0x204FC8, []⟩ else none
  gCurrent := 0x200000
  user := false
  on := .own
  rsp := 0x117F00
  frames := []
  elfRet := none
  stores := []

theorem shellState_booted : Booted shellState where
  sole := ⟨_, fun _ => rfl⟩
  apart t ht := by
    cases ht
    decide
  user := rfl
  on := rfl
  placed := by
    refine ⟨?_, ?_⟩ <;> decide
  stores := rfl

theorem shellState_tasks (h : shellState.tasks a = some t) : a = 0x200000 := by
  by_contra ha
  cases (if_neg ha).symm.trans h

theorem shellState_unused : shellState.Unused ⟨0x211000, TASK_STACK_SIZE⟩ := by
  refine ⟨by decide, fun a t ht => ?_⟩
  cases shellState_tasks ht
  cases ht
  decide

theorem contexts_survive_shellState : ContextsSurvive { shellState with
    on := .rsp0
    rsp := 0x113F50
    frames := [.trap none]
    elfRet := some (0x117F00, [])
    stores := [⟨⟨0x117ED0, 48⟩, 0x200000, shellState.tasks⟩,
      ⟨⟨0x113F50, trapSize⟩, 0x200000, shellState.tasks⟩] } := by
  have hrun : Run (fun s act s' => stackStep s act = some s') StackOk shellState
      [.enterUsermode, .trap] _ :=
    .cons (Nat.le_of_ble_eq_true rfl) rfl
      (.cons (fun _ _ ha ht => absurd (shellState_tasks ht) ha) rfl .nil)
  exact contexts_survive shellState_booted hrun

/-- Two programs run. The timer stops the first one, and a trap from the second overwrites
its frame. -/
theorem trap_overwrites : ¬∀ s acts s', Booted s → Run (fun s act s' => stackStep s act = some s')
    (fun s act => act ≠ .trap → StackOk s act) s acts s' → ContextsSurvive s' := by
  intro h
  have hsurvive := h shellState [.taskCreate 0x210000 0x211000, .enterUsermode, .trap,
    .contextSwitch 0x210000, .enterUsermode, .trap] _ shellState_booted
    (.cons (fun _ => shellState_unused) rfl
      (.cons (fun _ => Nat.le_of_ble_eq_true rfl) rfl
      (.cons (fun hne => absurd rfl hne) rfl
      (.cons (fun _ => Nat.le_of_ble_eq_true rfl) rfl
      (.cons (fun _ => Nat.le_of_ble_eq_true rfl) rfl
      (.cons (fun hne => absurd rfl hne) rfl .nil))))))
  have hapart := hsurvive _ (List.mem_append_right _ List.mem_cons_self) 0x200000 _
    (Nat.ne_of_beq_eq_false rfl) rfl _ (List.mem_cons_of_mem _ List.mem_cons_self)
  obtain hapart | hapart := hapart
  · exact Nat.not_le_of_lt (Nat.le_of_ble_eq_true rfl) hapart
  · exact Nat.not_le_of_lt (Nat.le_of_ble_eq_true rfl) hapart

end EponaOS.Kernel.TrapStack
