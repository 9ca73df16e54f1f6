import EponaOS.Kernel.Task

/-!
# The scheduler

`scheduler.c`. The tasks form a ring over `next`, and the searches along it have no result
where they meet a freed struct or do not come to an end.
-/

namespace EponaOS.Kernel

open Function (update)

def KernelState.rounds (k : KernelState) : Nat := k.nextTask + 1

-- ---------------------------------------------------------------------------
-- The ring
-- ---------------------------------------------------------------------------

/-- `while (prev && prev->next != task) prev = prev->next;` -/
def findPrev (tasks : Nat → Option Task) (task : Nat) : Nat → Nat → Option Nat
  | 0, _ => none
  | n + 1, prev =>
    if prev = 0 then some 0
    else do
      let p ← tasks prev
      if p.next ≠ task then findPrev tasks task n p.next else return prev

/-- Take a task, whose `next` is `next`, off the ring. -/
def unlink (k : KernelState) (task next : Nat) : Option KernelState := do
  let prev ← findPrev k.tasks task k.rounds k.gCurrent
  if prev = 0 then return k
  let p ← k.tasks prev
  return if p.next = task then k.setTask prev { p with next := next } else k

/-- The loop of `task_find` from `t` on. -/
def taskFindFrom (k : KernelState) (pid : Nat) : Nat → Nat → Option Nat
  | 0, _ => none
  | n + 1, a => do
    let t ← k.tasks a
    if t.pid = pid then return a
    if t.next = k.gCurrent then return 0
    taskFindFrom k pid n t.next

/-- The inner result is 0 for `NULL`. -/
def taskFind (k : KernelState) (pid : Nat) : Option Nat :=
  if k.gCurrent = 0 then some 0 else taskFindFrom k pid k.rounds k.gCurrent

def taskDestroy (k : KernelState) (task : Nat) : Option KernelState := do
  let t ← k.tasks task
  let prev ← findPrev k.tasks task k.rounds k.gCurrent
  if prev = 0 then return k.freeTask task
  let p ← k.tasks prev
  let k := if p.next = task then
      let k := k.setTask prev { p with next := t.next }
      if k.gCurrent = task then { k with gCurrent := t.next } else k
    else k
  return k.freeTask task

/-- `task_create`, where both frames could be had. -/
def taskCreate (k : KernelState) : Option (Nat × KernelState) := do
  let task := k.nextTask
  let pid := k.gNextPid
  let cur ← if k.gCurrent = 0 then some none else (k.tasks k.gCurrent).map some
  let t : Task := {
    pid := pid
    ppid := (cur.map Task.pid).getD 0
    state := .ready
    wakeTick := 0
    exitCode := 0
    fd := fun _ => .free
    signals := fun _ => ⟨0, 0, 0⟩
    next := (cur.map Task.next).getD task }
  let k := { k with nextTask := task + 1, gNextPid := (pid + 1) % 2 ^ 32 }
  let k := match cur with
    | none => { k with gCurrent := task }
    | some c => k.setTask k.gCurrent { c with next := task }
  return (pid, k.setTask task t)

-- ---------------------------------------------------------------------------
-- schedule
-- ---------------------------------------------------------------------------

/-- The state is skipped by `schedule`. -/
def TaskState.Idle (s : TaskState) : Prop := s = .terminated ∨ s = .sleeping

instance (s : TaskState) : Decidable s.Idle := by
  unfold TaskState.Idle
  infer_instance

def skipIdle (tasks : Nat → Option Task) (start : Nat) : Nat → Nat → Option Nat
  | 0, _ => none
  | n + 1, next =>
    if next = start then some next
    else do
      let t ← tasks next
      if t.state.Idle then skipIdle tasks start n t.next else return next

/-- Clean up terminated tasks, from `scan` on. -/
def cleanUp (start : Nat) : Nat → KernelState → Nat → Option KernelState
  | 0, _, _ => none
  | n + 1, k, scan =>
    if scan = start then some k
    else do
      let t ← k.tasks scan
      if t.state = .terminated then do
        let k ← unlink (taskFdCloseAll k scan) scan t.next
        cleanUp start n (k.freeTask scan) t.next
      else cleanUp start n k t.next

/-- The switch from `prev` to `next`. -/
def switchTo (k : KernelState) (prev next : Nat) : Option KernelState := do
  let p ← k.tasks prev
  let k := k.setTask prev { p with state := .ready }
  let n ← k.tasks next
  let k := { k.setTask next { n with state := .running } with gCurrent := next }
  return k.emit (.runs next k.gTicks)

def schedule (k : KernelState) : Option KernelState :=
  if k.gCurrent = 0 then some k
  else do
    let start := k.gCurrent
    let s ← k.tasks start
    let next ← skipIdle k.tasks start k.rounds s.next
    let k ← cleanUp start k.rounds k next
    if next = start then do
      let s ← k.tasks start
      return if s.state = .terminated then { k with halted := true }
        else k.emit (.runs start k.gTicks)
    else switchTo k start next

def taskSleep (k : KernelState) (ms : Nat) : Option KernelState :=
  if k.gCurrent = 0 then some k
  else do
    let t ← k.tasks k.gCurrent
    let ticksToSleep := if ms / 10 = 0 then 1 else ms / 10
    let wake := k.gTicks + ticksToSleep
    let k := k.setTask k.gCurrent { t with wakeTick := wake, state := .sleeping }
    schedule (k.emit (.slept k.gCurrent wake))

-- ---------------------------------------------------------------------------
-- scheduler_tick
-- ---------------------------------------------------------------------------

def deliver (t : Task) : List Nat → Task
  | [] => t
  | s :: rest =>
    if (t.signals s).pending ≠ 0 ∧ (t.signals s).mask = 0 then
      let handler := (t.signals s).handler
      let t := { t with signals := update t.signals s { t.signals s with pending := 0 } }
      if s = SIGKILL then { t with state := .terminated, exitCode := -9 }
      else if handler ≠ 0 ∧ (s = SIGINT ∨ s = SIGTERM) then
        { t with state := .terminated, exitCode := -s }
      else deliver t rest
    else deliver t rest

def wakeUp (now : Nat) (t : Task) : Task :=
  if t.state = .sleeping ∧ now ≥ t.wakeTick then { t with state := .ready } else t

/-- One task in the loop of `scheduler_tick`. -/
def tickTask (k : KernelState) (a : Nat) (t : Task) : KernelState :=
  let t := wakeUp k.gTicks t
  if t.state = .terminated then k.setTask a t
  else
    let t := deliver t (List.range TASK_MAX_SIGNALS)
    let k := k.setTask a t
    if t.state = .terminated then k.emit (.terminated a t.ppid t.exitCode) else k

def tickFrom : Nat → KernelState → Nat → Option KernelState
  | 0, _, _ => none
  | n + 1, k, a => do
    let t ← k.tasks a
    let k := tickTask k a t
    if t.next = k.gCurrent then return k
    tickFrom n k t.next

/-- `pit_tick` and `scheduler_tick`. -/
def schedulerTick (k : KernelState) : Option KernelState :=
  let k := { k with gTicks := k.gTicks + 1 }
  if k.gCurrent = 0 then some k else tickFrom k.rounds k k.gCurrent

end EponaOS.Kernel
