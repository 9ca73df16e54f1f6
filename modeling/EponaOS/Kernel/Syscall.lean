import EponaOS.Kernel.Scheduler

/-!
# Process system calls

The calls of `syscall_handler_c` that work on tasks and descriptors, for the current task.
Each gives the value for `rax` and the state behind it. What other parts of the kernel
decide comes as an argument: whether frames and memory could be had, what `vfs_open` found,
how `elf_load` ended, whether the buffer of the user is valid. A descriptor below 0 is one
out of range.
-/

namespace EponaOS.Kernel

open Function (update)

/-- `if (cur) { .. }` in `SYS_EXIT`. -/
def exitTask (k : KernelState) (code : Int) : Option KernelState :=
  if k.gCurrent = 0 then some k
  else do
    let k := taskFdCloseAll k k.gCurrent
    let t ← k.tasks k.gCurrent
    let k := k.setTask k.gCurrent { t with exitCode := code, state := .terminated }
    return k.emit (.terminated k.gCurrent t.ppid code)

def sysExit (k : KernelState) (code : Int) : Option KernelState := do
  let k ← exitTask k code
  -- back into the kernel behind `enter_usermode_save_ret`, once
  return if k.gElfRetRip ≠ 0 then { k with gElfRetRip := 0 } else { k with halted := true }

-- ---------------------------------------------------------------------------
-- Descriptors
-- ---------------------------------------------------------------------------

/-- `found` is what `vfs_open` or `vfs_create` made; both calls treat it the same. -/
def sysOpen (k : KernelState) (found : Option OpenFile) : Option (Int × KernelState) :=
  match found with
  | none => some (-1, k)
  | some file => do
    let f := k.nextFile
    let k := newFile k file
    if k.gCurrent = 0 then return (-1, vfsClose k f)
    let cur ← k.tasks k.gCurrent
    match taskFdAlloc cur f FD_TYPE_FILE with
    | none => return (-1, vfsClose k f)
    | some (fd, cur) => return (fd, k.setTask k.gCurrent cur)

def sysCreate (k : KernelState) (found : Option OpenFile) : Option (Int × KernelState) :=
  sysOpen k found

/-- What `SYS_READ` and `SYS_WRITE` do with a file: `n` bytes are moved, -1 for an error.
What they do with a pipe does not concern descriptors. -/
def sysFileIo (k : KernelState) (fd : Nat) (n : Int) : Option (Int × KernelState) :=
  if k.gCurrent = 0 then some (-1, k)
  else do
    let cur ← k.tasks k.gCurrent
    if fd ≥ TASK_MAX_FD ∨ (cur.fd fd).used = false ∨ (cur.fd fd).type ≠ FD_TYPE_FILE then
      return (-1, k)
    let f ← k.files (cur.fd fd).ptr
    if n < 0 then return (-1, k)
    let file := { f with offset := (f.offset + n.toNat) % 2 ^ 64 }
    return (n, { k with files := update k.files (cur.fd fd).ptr (some file) })

def sysRead (k : KernelState) (fd : Nat) (n : Int) : Option (Int × KernelState) :=
  if fd = FD_STDIN then some (n, k) else sysFileIo k fd n

def sysWrite (k : KernelState) (fd : Nat) (n : Int) : Option (Int × KernelState) :=
  if fd = FD_STDOUT ∨ fd = FD_STDERR then some (n, k) else sysFileIo k fd n

def Pipe.dropEnd (p : Pipe) (type : Nat) : Pipe :=
  let p := if type = FD_TYPE_PIPE_R then { p with readers := p.readers - 1 }
    else { p with writers := p.writers - 1 }
  if p.readers = 0 ∧ p.writers = 0 then { p with used := false } else p

/-- What `SYS_CLOSE` does by the type of the entry. -/
def dropEntry (k : KernelState) (e : FdEntry) : KernelState :=
  if e.type = FD_TYPE_PIPE_R ∨ e.type = FD_TYPE_PIPE_W then
    { k with gPipes := update k.gPipes (e.ptr - 1) ((k.gPipes (e.ptr - 1)).dropEnd e.type) }
  else if e.type = FD_TYPE_FILE then vfsClose k e.ptr
  else k

def sysClose (k : KernelState) (fd : Nat) : Option (Int × KernelState) :=
  if k.gCurrent = 0 then some (-1, k)
  else do
    let cur ← k.tasks k.gCurrent
    if fd ≥ TASK_MAX_FD ∨ (cur.fd fd).used = false then return (-1, k)
    let k := dropEntry k (cur.fd fd)
    return (0, k.setTask k.gCurrent (taskFdFree cur fd))

def sysDup2 (k : KernelState) (oldfd newfd : Nat) : Option (Int × KernelState) :=
  if k.gCurrent = 0 then some (-1, k)
  else do
    let cur ← k.tasks k.gCurrent
    if oldfd ≥ TASK_MAX_FD ∨ (cur.fd oldfd).used = false then return (-1, k)
    if newfd ≥ TASK_MAX_FD then return (-1, k)
    let k := closeFile k (cur.fd newfd)
    return (newfd, k.setTask k.gCurrent { cur with fd := update cur.fd newfd (cur.fd oldfd) })

/-- How `elf_load` ended. -/
inductive ElfLoad
  | notFound
  /-- `paging_clone_current` failed: it returns without closing the file -/
  | noClone (file : OpenFile)
  /-- any other failure behind `vfs_open` -/
  | failed (file : OpenFile)
  | loaded (file : OpenFile)

def elfLoad (k : KernelState) : ElfLoad → Bool × KernelState
  | .notFound => (false, k)
  | .noClone file => (false, newFile k file)
  | .failed file => (false, vfsClose (newFile k file) k.nextFile)
  | .loaded file => (true, vfsClose (newFile k file) k.nextFile)

def sysExec (k : KernelState) (load : ElfLoad) : Int × KernelState :=
  match elfLoad k load with
  | (false, k) => (-1, k)
  | (true, k) => (0, if k.gCurrent = 0 then k else taskFdCloseAll k k.gCurrent)

-- ---------------------------------------------------------------------------
-- Pipes
-- ---------------------------------------------------------------------------

def pipeAlloc (k : KernelState) : Option (Nat × KernelState) :=
  ((List.range MAX_PIPES).find? fun i => !(k.gPipes i).used).map
    fun i => (i, { k with gPipes := update k.gPipes i ⟨0, 0, 1, 1, true⟩ })

def pipeRelease (k : KernelState) (i : Nat) : KernelState :=
  { k with gPipes := update k.gPipes i { k.gPipes i with used := false } }

def sysPipe (k : KernelState) (bufOk : Bool) : Option (Int × KernelState) :=
  if !bufOk then some (-1, k)
  else
    match pipeAlloc k with
    | none => some (-1, k)
    | some (i, k) =>
      if k.gCurrent = 0 then some (-1, pipeRelease k i)
      else do
        let cur ← k.tasks k.gCurrent
        match taskFdAlloc cur (i + 1) FD_TYPE_PIPE_R with
        | none =>
          -- the second `task_fd_alloc` fails as well
          return (-1, pipeRelease k i)
        | some (rfd, t) =>
          match taskFdAlloc t (i + 1) FD_TYPE_PIPE_W with
          | none => return (-1, pipeRelease (k.setTask k.gCurrent (taskFdFree t rfd)) i)
          | some (_, t) => return (0, k.setTask k.gCurrent t)

-- ---------------------------------------------------------------------------
-- Processes
-- ---------------------------------------------------------------------------

/-- One round of the copy of the descriptors; `mem i` says whether `kmalloc` gave memory. -/
def forkSlot (fd : Nat → FdEntry) (mem : Nat → Bool) (k : KernelState) (child : Nat → FdEntry)
    (i : Nat) : Option (KernelState × (Nat → FdEntry)) :=
  if (fd i).used ∧ (fd i).type = FD_TYPE_FILE then
    if mem i then do
      let f ← k.files (fd i).ptr
      return (newFile k f, update child i { child i with ptr := k.nextFile })
    else some (k, update child i { child i with used := false })
  else some (k, child)

def forkSlots (fd : Nat → FdEntry) (mem : Nat → Bool) :
    List Nat → KernelState → (Nat → FdEntry) → Option (KernelState × (Nat → FdEntry))
  | [], k, child => some (k, child)
  | i :: rest, k, child => do
    let (k, child) ← forkSlot fd mem k child i
    forkSlots fd mem rest k child

def addChild (k : KernelState) (cur : Task) (fd : Nat → FdEntry) : KernelState :=
  let child := k.nextTask
  let k := { k with nextTask := child + 1 }
  let k := k.setTask child { cur with pid := 0, ppid := cur.pid, fd := fd }
  let k := if cur.state = .terminated then k.emit (.terminated child cur.pid cur.exitCode) else k
  k.setTask k.gCurrent { cur with next := child }

/-- `frames` says whether page tables, task struct and stack could be had. -/
def sysFork (k : KernelState) (frames : Bool) (mem : Nat → Bool) : Option (Int × KernelState) :=
  if k.gCurrent = 0 ∨ frames = false then some (-1, k)
  else do
    let cur ← k.tasks k.gCurrent
    let (k, fd) ← forkSlots cur.fd mem (List.range TASK_MAX_FD) k cur.fd
    return (0, addChild k cur fd)

/-- The search of `SYS_WAIT` from `scan` on; the inner result is 0 if there is no child. -/
def findZombie (k : KernelState) (pid : Nat) : Nat → Nat → Option Nat
  | 0, _ => none
  | n + 1, scan =>
    if scan = k.gCurrent then some 0
    else do
      let t ← k.tasks scan
      if t.ppid = pid ∧ t.state = .terminated then return scan
      findZombie k pid n t.next

def sysWait (k : KernelState) : Option (Int × KernelState) :=
  if k.gCurrent = 0 then some (-1, k)
  else do
    let cur ← k.tasks k.gCurrent
    let child ← findZombie k cur.pid k.rounds cur.next
    if child = 0 then return (-1, k)
    let t ← k.tasks child
    let k ← taskDestroy (k.emit (.waited cur.pid child t.exitCode)) child
    return (t.exitCode, k)

def sysKill (k : KernelState) (pid : Nat) (sig : Int) : Option (Int × KernelState) := do
  let target ← taskFind k pid
  if target = 0 then return (-1, k)
  let t ← k.tasks target
  if sig = SIGKILL then
    let k := k.setTask target { t with state := .terminated, exitCode := -SIGKILL }
    return (0, k.emit (.terminated target t.ppid (-SIGKILL)))
  else if 0 ≤ sig ∧ sig < TASK_MAX_SIGNALS then
    let s := { t.signals sig.toNat with pending := 1 }
    return (0, k.setTask target { t with signals := update t.signals sig.toNat s })
  else return (0, k)

def sysSignal (k : KernelState) (sig : Int) (handler : Nat) : Option (Int × KernelState) :=
  if k.gCurrent = 0 ∨ sig < 0 ∨ sig ≥ TASK_MAX_SIGNALS then some (-1, k)
  else do
    let t ← k.tasks k.gCurrent
    let s := { t.signals sig.toNat with handler := handler }
    return (0, k.setTask k.gCurrent { t with signals := update t.signals sig.toNat s })

-- ---------------------------------------------------------------------------
-- Steps
-- ---------------------------------------------------------------------------

inductive SchedAct
  /-- `frames` says whether both frames could be had. -/
  | create (frames : Bool)
  | fork (frames : Bool) (mem : Nat → Bool)
  /-- a timer interrupt, up to its call of `schedule` -/
  | tick
  | schedule
  | sleep (ms : Nat)
  | exit (code : Int)
  | kill (pid : Nat) (sig : Int)
  | wait
  | signal (sig : Int) (handler : Nat)

def schedAct (k : KernelState) : SchedAct → Option KernelState
  | .create frames => if frames then (taskCreate k).map Prod.snd else some k
  | .fork frames mem => (sysFork k frames mem).map Prod.snd
  | .tick => schedulerTick k
  | .schedule => Kernel.schedule k
  | .sleep ms => taskSleep k ms
  | .exit code => sysExit k code
  | .kill pid sig => (sysKill k pid sig).map Prod.snd
  | .wait => (sysWait k).map Prod.snd
  | .signal sig handler => (sysSignal k sig handler).map Prod.snd

def schedStep (k : KernelState) (a : SchedAct) (k' : KernelState) : Prop :=
  k.halted = false ∧ schedAct k a = some k'

end EponaOS.Kernel
