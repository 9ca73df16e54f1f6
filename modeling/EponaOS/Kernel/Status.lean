import Mathlib.Logic.Relation
import EponaOS.Kernel.Syscall

/-!
# The status of tasks

What the parts of the scheduler leave alone: to close descriptors, to mend the ring and to
free a terminated task changes the status of no other task.
-/

namespace EponaOS.Kernel

open Function (update)
open Relation (ReflTransGen)

structure SameStatus (t t' : Task) : Prop where
  pid : t'.pid = t.pid
  ppid : t'.ppid = t.ppid
  state : t'.state = t.state
  wakeTick : t'.wakeTick = t.wakeTick
  exitCode : t'.exitCode = t.exitCode

theorem SameStatus.refl (t : Task) : SameStatus t t := ⟨rfl, rfl, rfl, rfl, rfl⟩

theorem SameStatus.trans (h : SameStatus t t') (h' : SameStatus t' t'') : SameStatus t t'' :=
  ⟨h'.pid.trans h.pid, h'.ppid.trans h.ppid, h'.state.trans h.state, h'.wakeTick.trans h.wakeTick,
    h'.exitCode.trans h.exitCode⟩

structure Quiet (k k' : KernelState) : Prop where
  tasks : ∀ a t', k'.tasks a = some t' → ∃ t, k.tasks a = some t ∧ SameStatus t t'
  kept : ∀ a t, k.tasks a = some t → ∃ t', k'.tasks a = some t'
  ticks : k'.gTicks = k.gTicks
  next : k'.nextTask = k.nextTask
  events : ∃ ev, k'.events = k.events ++ ev ∧
    ∀ e ∈ ev, (∃ f, e = .opened f) ∨ ∃ f, e = .closed f

variable {k k' k'' : KernelState}

theorem Quiet.refl (k : KernelState) : Quiet k k :=
  ⟨fun _ t h => ⟨t, h, .refl t⟩, fun _ t h => ⟨t, h⟩, rfl, rfl, [], by simp, by simp⟩

theorem Quiet.trans (h : Quiet k k') (h' : Quiet k' k'') : Quiet k k'' := by
  obtain ⟨ev, he, hev⟩ := h.events
  obtain ⟨ev', he', hev'⟩ := h'.events
  refine ⟨fun a t'' ht => ?_, fun a t ht => ?_, h'.ticks.trans h.ticks, h'.next.trans h.next,
    ev ++ ev', ?_, fun e hm => ?_⟩
  · obtain ⟨t', ht', hs'⟩ := h'.tasks a t'' ht
    obtain ⟨t, ht, hs⟩ := h.tasks a t' ht'
    exact ⟨t, ht, hs.trans hs'⟩
  · obtain ⟨t', ht'⟩ := h.kept a t ht
    exact h'.kept a t' ht'
  · rw [he', he, List.append_assoc]
  · exact (List.mem_append.mp hm).elim (hev e) (hev' e)

theorem Quiet.setTask (ht : k.tasks a = some t) (hs : SameStatus t t') :
    Quiet k (k.setTask a t') := by
  refine ⟨fun b u hu => ?_, fun b u hu => ?_, rfl, rfl, [], (List.append_nil _).symm, by simp⟩
  · by_cases hb : b = a
    · subst hb
      rw [KernelState.setTask_self] at hu
      cases hu
      exact ⟨t, ht, hs⟩
    · rw [KernelState.setTask_of_ne _ _ hb] at hu
      exact ⟨u, hu, .refl u⟩
  · by_cases hb : b = a
    · subst hb
      exact ⟨t', Function.update_self ..⟩
    · exact ⟨u, (Function.update_of_ne hb ..).trans hu⟩

theorem Quiet.vfsClose (k : KernelState) (f : Nat) : Quiet k (vfsClose k f) := by
  rw [Kernel.vfsClose]
  split
  · exact .refl k
  · exact ⟨fun _ t h => ⟨t, h, .refl t⟩, fun _ t h => ⟨t, h⟩, rfl, rfl, [.closed f], rfl, by simp⟩

theorem Quiet.newFile (k : KernelState) (f : OpenFile) : Quiet k (newFile k f) :=
  ⟨fun _ t h => ⟨t, h, .refl t⟩, fun _ t h => ⟨t, h⟩, rfl, rfl, [.opened k.nextFile], rfl, by simp⟩

theorem closeFile_tasks (k : KernelState) (e : FdEntry) : (closeFile k e).tasks = k.tasks := by
  rw [closeFile, vfsClose]
  split
  · split <;> rfl
  · rfl

theorem closeFile_quiet (k : KernelState) (e : FdEntry) : Quiet k (closeFile k e) := by
  rw [closeFile]
  split
  · exact .vfsClose k _
  · exact .refl k

theorem closeSlot_quiet (a : Nat) (k : KernelState) (i : Nat) : Quiet k (closeSlot a k i) := by
  rw [closeSlot]
  split
  · exact .refl k
  · rename_i t ht
    split
    · exact .refl k
    · refine (closeFile_quiet k _).trans (.setTask (t := t) ?_ ⟨rfl, rfl, rfl, rfl, rfl⟩)
      rw [closeFile_tasks]
      exact ht

theorem taskFdCloseAll_quiet (k : KernelState) (a : Nat) : Quiet k (taskFdCloseAll k a) := by
  rw [taskFdCloseAll]
  generalize fdSlots = slots
  induction slots generalizing k with
  | nil => exact .refl k
  | cons i slots ih => exact (closeSlot_quiet a k i).trans (ih _)

theorem unlink_quiet (h : unlink k task next = some k') : Quiet k k' := by
  rw [unlink] at h
  obtain ⟨prev, -, h⟩ := Option.bind_eq_some_iff.mp h
  split at h
  · cases h
    exact .refl k
  obtain ⟨p, hp, h⟩ := Option.bind_eq_some_iff.mp h
  cases h
  split
  · exact .setTask hp ⟨rfl, rfl, rfl, rfl, rfl⟩
  · exact .refl k

theorem taskDestroy_spec (h : taskDestroy k task = some k') :
    ∃ k₁, Quiet k k₁ ∧ k' = k₁.freeTask task := by
  rw [taskDestroy] at h
  obtain ⟨t, ht, h⟩ := Option.bind_eq_some_iff.mp h
  obtain ⟨prev, -, h⟩ := Option.bind_eq_some_iff.mp h
  split at h
  · cases h
    exact ⟨k, .refl k, rfl⟩
  obtain ⟨p, hp, h⟩ := Option.bind_eq_some_iff.mp h
  cases h
  refine ⟨_, ?_, rfl⟩
  split
  · have hset : Quiet k (k.setTask prev { p with next := t.next }) :=
      .setTask hp ⟨rfl, rfl, rfl, rfl, rfl⟩
    dsimp only
    split
    · exact ⟨hset.tasks, hset.kept, hset.ticks, hset.next, hset.events⟩
    · exact hset
  · exact .refl k

theorem forkSlots_quiet (h : forkSlots fd mem slots k child = some (k', child')) :
    Quiet k k' ∧ k'.tasks = k.tasks ∧ k'.gCurrent = k.gCurrent ∧ k'.gPipes = k.gPipes := by
  induction slots generalizing k child with
  | nil =>
    cases h
    exact ⟨.refl _, rfl, rfl, rfl⟩
  | cons i slots ih =>
    rw [forkSlots] at h
    obtain ⟨⟨k₁, child₁⟩, h₁, h⟩ := Option.bind_eq_some_iff.mp h
    obtain ⟨hq, hsame⟩ := ih h
    rw [forkSlot] at h₁
    split at h₁
    · split at h₁
      · obtain ⟨f, -, h₁⟩ := Option.bind_eq_some_iff.mp h₁
        cases h₁
        exact ⟨(Quiet.newFile k f).trans hq, hsame⟩
      · cases h₁
        exact ⟨hq, hsame⟩
    · cases h₁
      exact ⟨hq, hsame⟩

-- ---------------------------------------------------------------------------
-- Tasks that come
-- ---------------------------------------------------------------------------

def Known (k : KernelState) : Prop := ∀ a t, k.tasks a = some t → a < k.nextTask

theorem Quiet.known (h : Quiet k k') (hk : Known k) : Known k' := fun a t' ht => by
  obtain ⟨t, ht, -⟩ := h.tasks a t' ht
  exact h.next ▸ hk a t ht

theorem Known.setTask (hk : Known k) (ht : k.tasks a = some t) (t' : Task) :
    Known (k.setTask a t') := fun b u hu => by
  by_cases hb : b = a
  · exact hb ▸ hk a t ht
  · exact hk b u ((KernelState.setTask_of_ne _ _ hb).symm.trans hu)

theorem Known.newTask (hk : Known k) (t : Task) :
    Known ({ k with nextTask := k.nextTask + 1 }.setTask k.nextTask t) := fun b u hu => by
  by_cases hb : b = k.nextTask
  · exact hb ▸ Nat.lt_succ_self _
  · exact Nat.lt_succ_of_lt (hk b u ((KernelState.setTask_of_ne _ _ hb).symm.trans hu))

theorem Known.none (hk : Known k) (ha : k.nextTask ≤ a) : k.tasks a = none :=
  Option.eq_none_iff_forall_ne_some.mpr fun t ht => absurd (hk a t ht) (Nat.not_lt.mpr ha)

theorem addChild_known (hk : Known k) (hcur : k.tasks k.gCurrent = some cur) :
    Known (addChild k cur fd) := by
  have hnew := hk.newTask { cur with pid := 0, ppid := cur.pid, fd := fd }
  have hne : k.gCurrent ≠ k.nextTask := Nat.ne_of_lt (hk _ _ hcur)
  have hcur := (KernelState.setTask_of_ne { k with nextTask := k.nextTask + 1 }
    { cur with pid := 0, ppid := cur.pid, fd := fd } hne).trans hcur
  rw [addChild]
  split
  · exact hnew.setTask hcur _
  · exact hnew.setTask hcur _

theorem taskCreate_spec (h : taskCreate k = some (pid, k')) :
    ∃ k₁ t cur nextPid, Quiet k k₁ ∧ t.state = .ready ∧
      k' = { { k₁ with nextTask := k₁.nextTask + 1 }.setTask k₁.nextTask t with
        gCurrent := cur, gNextPid := nextPid } := by
  rw [taskCreate] at h
  split at h
  · cases h
    exact ⟨k, _, k.nextTask, _, .refl k, rfl, rfl⟩
  · obtain ⟨cur, hcur, h⟩ := Option.bind_eq_some_iff.mp h
    obtain ⟨c, hc, rfl⟩ := Option.map_eq_some_iff.mp hcur
    cases h
    exact ⟨k.setTask k.gCurrent { c with next := k.nextTask }, _, k.gCurrent, _,
      .setTask hc ⟨rfl, rfl, rfl, rfl, rfl⟩, rfl, rfl⟩

-- ---------------------------------------------------------------------------
-- Tasks that go
-- ---------------------------------------------------------------------------

structure Cleans (k k' : KernelState) : Prop where
  tasks : ∀ a t', k'.tasks a = some t' → ∃ t, k.tasks a = some t ∧ SameStatus t t'
  ticks : k'.gTicks = k.gTicks
  next : k'.nextTask = k.nextTask
  events : ∃ ev, k'.events = k.events ++ ev ∧
    ∀ e ∈ ev, (∃ a, e = .freed a) ∨ (∃ f, e = .opened f) ∨ ∃ f, e = .closed f

theorem Quiet.cleans (h : Quiet k k') : Cleans k k' := by
  obtain ⟨ev, he, hev⟩ := h.events
  exact ⟨h.tasks, h.ticks, h.next, ev, he, fun e hm => .inr (hev e hm)⟩

theorem Cleans.trans (h : Cleans k k') (h' : Cleans k' k'') : Cleans k k'' := by
  obtain ⟨ev, he, hev⟩ := h.events
  obtain ⟨ev', he', hev'⟩ := h'.events
  refine ⟨fun a t'' ht => ?_, h'.ticks.trans h.ticks, h'.next.trans h.next, ev ++ ev', ?_,
    fun e hm => ?_⟩
  · obtain ⟨t', ht', hs'⟩ := h'.tasks a t'' ht
    obtain ⟨t, ht, hs⟩ := h.tasks a t' ht'
    exact ⟨t, ht, hs.trans hs'⟩
  · rw [he', he, List.append_assoc]
  · exact (List.mem_append.mp hm).elim (hev e) (hev' e)

theorem Cleans.freeTask (k : KernelState) (a : Nat) : Cleans k (k.freeTask a) := by
  refine ⟨fun b u hu => ?_, rfl, rfl, [.freed a], rfl, by simp⟩
  by_cases hb : b = a
  · subst hb
    rw [KernelState.freeTask_self] at hu
    cases hu
  · rw [KernelState.freeTask_of_ne _ hb] at hu
    exact ⟨u, hu, .refl u⟩

theorem cleanUp_cleans (h : cleanUp start n k scan = some k') : Cleans k k' := by
  induction n generalizing k scan with
  | zero => cases h
  | succ n ih =>
    rw [cleanUp] at h
    split at h
    · cases h
      exact (Quiet.refl _).cleans
    obtain ⟨t, ht, h⟩ := Option.bind_eq_some_iff.mp h
    split at h
    · obtain ⟨k₁, h₁, h⟩ := Option.bind_eq_some_iff.mp h
      have hq := (taskFdCloseAll_quiet k scan).trans (unlink_quiet h₁)
      exact (hq.cleans.trans (.freeTask k₁ scan)).trans (ih h)
    · exact ih h

theorem findZombie_spec (h : findZombie k pid n scan = some a) (ha : a ≠ 0) :
    ∃ t, k.tasks a = some t ∧ t.ppid = pid ∧ t.state = .terminated := by
  induction n generalizing scan with
  | zero => cases h
  | succ n ih =>
    rw [findZombie] at h
    split at h
    · cases h
      exact absurd rfl ha
    obtain ⟨t, ht, h⟩ := Option.bind_eq_some_iff.mp h
    split at h
    · rename_i hz
      cases h
      exact ⟨t, ht, hz⟩
    · exact ih h

theorem sysWait_spec (h : sysWait k = some (r, k')) : k' = k ∨ ∃ a t k₁,
    k.tasks a = some t ∧ t.state = .terminated ∧
    Quiet (k.emit (.waited t.ppid a t.exitCode)) k₁ ∧ k' = k₁.freeTask a := by
  rw [sysWait] at h
  split at h
  · cases h
    exact .inl rfl
  obtain ⟨cur, -, h⟩ := Option.bind_eq_some_iff.mp h
  obtain ⟨child, hchild, h⟩ := Option.bind_eq_some_iff.mp h
  split at h
  · cases h
    exact .inl rfl
  rename_i hne
  obtain ⟨t, ht, h⟩ := Option.bind_eq_some_iff.mp h
  obtain ⟨k₂, h₂, h⟩ := Option.bind_eq_some_iff.mp h
  cases h
  obtain ⟨u, hu, hparent, hdead⟩ := findZombie_spec hchild hne
  cases ht.symm.trans hu
  obtain ⟨k₁, hq, rfl⟩ := taskDestroy_spec h₂
  exact .inr ⟨child, t, k₁, ht, hdead, hparent ▸ hq, rfl⟩

-- ---------------------------------------------------------------------------
-- Signals
-- ---------------------------------------------------------------------------

theorem deliver_spec (t : Task) (signals : List Nat) :
    (deliver t signals).ppid = t.ppid ∧ (deliver t signals).wakeTick = t.wakeTick ∧
      ((deliver t signals).state = t.state ∨ (deliver t signals).state = .terminated) := by
  induction signals generalizing t with
  | nil => exact ⟨rfl, rfl, .inl rfl⟩
  | cons s rest ih =>
    rw [deliver]
    split
    · dsimp only
      split
      · exact ⟨rfl, rfl, .inr rfl⟩
      split
      · exact ⟨rfl, rfl, .inr rfl⟩
      · exact ih _
    · exact ih t

-- ---------------------------------------------------------------------------
-- The ring behind the current task
-- ---------------------------------------------------------------------------

/-- One step along the ring, which ends where it comes back to the current task. -/
def KernelState.Succ (k : KernelState) (a b : Nat) : Prop :=
  a ≠ k.gCurrent ∧ ∃ t, k.tasks a = some t ∧ t.next = b

/-- The search of `schedule` comes to the task, where none before is taken. -/
def KernelState.Behind (k : KernelState) (a : Nat) : Prop :=
  a ≠ k.gCurrent ∧ ∃ t, k.tasks k.gCurrent = some t ∧ ReflTransGen k.Succ t.next a

/-- `schedule` skips the task. -/
def KernelState.IdleTask (k : KernelState) (a : Nat) : Prop :=
  ∃ t, k.tasks a = some t ∧ t.state.Idle

theorem skipIdle_spec (h : skipIdle k.tasks k.gCurrent n a = some next) (hne : next ≠ k.gCurrent) :
    ReflTransGen k.Succ a next ∧ ∃ t, k.tasks next = some t ∧ ¬t.state.Idle := by
  induction n generalizing a with
  | zero => cases h
  | succ n ih =>
    rw [skipIdle] at h
    split at h
    · rename_i hstart
      cases h
      exact absurd hstart hne
    rename_i hstart
    obtain ⟨t, ht, h⟩ := Option.bind_eq_some_iff.mp h
    split at h
    · obtain ⟨hreach, hrun⟩ := ih h
      exact ⟨.head ⟨hstart, t, ht, rfl⟩ hreach, hrun⟩
    · rename_i hrun
      cases h
      exact ⟨.refl, t, ht, hrun⟩

-- ---------------------------------------------------------------------------
-- An example
-- ---------------------------------------------------------------------------

def twoTasks : KernelState where
  tasks a :=
    if a = 1 then some ⟨1, 0, .running, 0, 0, fun _ => .free, fun _ => ⟨0, 0, 0⟩, 2⟩
    else if a = 2 then some ⟨2, 1, .ready, 0, 0, fun _ => .free, fun _ => ⟨0, 0, 0⟩, 1⟩
    else none
  nextTask := 3
  gCurrent := 1
  gNextPid := 3
  gTicks := 0
  gElfRetRip := 0x101000
  halted := false
  files _ := none
  nextFile := 1
  gPipes _ := ⟨0, 0, 0, 0, false⟩
  events := []

theorem twoTasks_known : Known twoTasks := by
  intro a t h
  rw [twoTasks] at h ⊢
  dsimp only at h ⊢
  split at h
  · omega
  split at h
  · omega
  · cases h

end EponaOS.Kernel
