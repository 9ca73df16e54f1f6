import Mathlib.Logic.Function.Basic
import Mathlib.Tactic.Ring

/-!
# Tasks

The state that `scheduler.c` and the process calls of `syscall.c` work on. A task struct
and a `file_t` go by a number that is never given out again, so that a pointer to a freed
one is a number without an object; 0 is `NULL`. What happens to them is recorded as events.
-/

namespace EponaOS.Kernel

open Function (update)

def TASK_MAX_FD : Nat := 32
def TASK_MAX_SIGNALS : Nat := 32
def MAX_PIPES : Nat := 16

def FD_STDIN : Nat := 0
def FD_STDOUT : Nat := 1
def FD_STDERR : Nat := 2
def FD_TYPE_FILE : Nat := 1
def FD_TYPE_PIPE_R : Nat := 2
def FD_TYPE_PIPE_W : Nat := 3

def SIGINT : Nat := 2
def SIGKILL : Nat := 9
def SIGTERM : Nat := 15

inductive TaskState
  | ready
  | running
  | blocked
  | terminated
  | sleeping
  deriving DecidableEq

/-- `task_fd_entry_t`; a pipe goes by its index in `g_pipes` and 1. -/
structure FdEntry where
  ptr : Nat
  type : Nat
  used : Bool
  deriving DecidableEq

def FdEntry.free : FdEntry := ⟨0, 0, false⟩

/-- `task_signal_t` -/
structure Signal where
  handler : Nat
  pending : Nat
  mask : Nat
  deriving DecidableEq

/-- `task_struct_t`, without its memory: stack, page tables and saved registers. -/
structure Task where
  pid : Nat
  ppid : Nat
  state : TaskState
  wakeTick : Nat
  exitCode : Int
  fd : Nat → FdEntry
  signals : Nat → Signal
  next : Nat

/-- `file_t` -/
structure OpenFile where
  node : Nat
  offset : Nat
  deriving DecidableEq

/-- `pipe_t`, without its bytes. -/
structure Pipe where
  head : Nat
  count : Nat
  readers : Int
  writers : Int
  used : Bool
  deriving DecidableEq

inductive KernelEvent
  /-- the state of the task becomes `TASK_TERMINATED` -/
  | terminated (task ppid : Nat) (code : Int)
  /-- `task_sleep` -/
  | slept (task wake : Nat)
  /-- `schedule` goes on with the task -/
  | runs (task now : Nat)
  /-- `SYS_WAIT` of the process returns the code of the task -/
  | waited (pid task : Nat) (code : Int)
  | freed (task : Nat)
  | opened (file : Nat)
  /-- `vfs_close` -/
  | closed (file : Nat)
  deriving DecidableEq

structure KernelState where
  tasks : Nat → Option Task
  nextTask : Nat
  gCurrent : Nat
  gNextPid : Nat
  gTicks : Nat
  gElfRetRip : Nat
  /-- after `cli; hlt` -/
  halted : Bool
  files : Nat → Option OpenFile
  nextFile : Nat
  gPipes : Nat → Pipe
  events : List KernelEvent

def KernelState.emit (k : KernelState) (e : KernelEvent) : KernelState := { k with events := k.events ++ [e] }

def KernelState.setTask (k : KernelState) (a : Nat) (t : Task) : KernelState :=
  { k with tasks := update k.tasks a (some t) }

/-- `pmm_free` of a task struct and its stack. -/
def KernelState.freeTask (k : KernelState) (a : Nat) : KernelState :=
  { k with tasks := update k.tasks a none }.emit (.freed a)

@[simp] theorem KernelState.setTask_self (k : KernelState) (a : Nat) (t : Task) :
    (k.setTask a t).tasks a = some t := Function.update_self ..

theorem KernelState.setTask_of_ne (k : KernelState) (t : Task) (h : b ≠ a) :
    (k.setTask a t).tasks b = k.tasks b := Function.update_of_ne h ..

theorem KernelState.setTask_setTask (k : KernelState) (a : Nat) (t t' : Task) :
    (k.setTask a t).setTask a t' = k.setTask a t' := by
  rw [setTask, setTask, Function.update_idem, setTask]

@[simp] theorem KernelState.freeTask_self (k : KernelState) (a : Nat) :
    (k.freeTask a).tasks a = none := Function.update_self ..

theorem KernelState.freeTask_of_ne (k : KernelState) (h : b ≠ a) :
    (k.freeTask a).tasks b = k.tasks b := Function.update_of_ne h ..

-- ---------------------------------------------------------------------------
-- Descriptors
-- ---------------------------------------------------------------------------

/-- The slots that `task_fd_alloc` and `task_fd_close_all` go over. -/
def fdSlots : List Nat := List.range' 3 (TASK_MAX_FD - 3)

/-- `none` is -1. -/
def taskFdAlloc (t : Task) (ptr type : Nat) : Option (Nat × Task) :=
  (fdSlots.find? fun i => !(t.fd i).used).map
    fun i => (i, { t with fd := update t.fd i ⟨ptr, type, true⟩ })

def taskFdFree (t : Task) (fd : Nat) : Task :=
  if fd ≥ TASK_MAX_FD then t else { t with fd := update t.fd fd .free }

/-- `vfs_open` or `vfs_create` made a handle. -/
def newFile (k : KernelState) (f : OpenFile) : KernelState :=
  { k with files := update k.files k.nextFile (some f), nextFile := k.nextFile + 1 }.emit
    (.opened k.nextFile)

def vfsClose (k : KernelState) (f : Nat) : KernelState :=
  if f = 0 then k else { k with files := update k.files f none }.emit (.closed f)

def closeFile (k : KernelState) (e : FdEntry) : KernelState :=
  if e.used ∧ e.type = FD_TYPE_FILE then vfsClose k e.ptr else k

/-- One round of `task_fd_close_all`. -/
def closeSlot (a : Nat) (k : KernelState) (i : Nat) : KernelState :=
  match k.tasks a with
  | none => k
  | some t =>
    if !(t.fd i).used then k
    else (closeFile k (t.fd i)).setTask a { t with fd := update t.fd i .free }

def taskFdCloseAll (k : KernelState) (a : Nat) : KernelState := fdSlots.foldl (closeSlot a) k

end EponaOS.Kernel
