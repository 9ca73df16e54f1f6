import EponaOS.Lib.Run
import EponaOS.Kernel.DescriptorIo
import EponaOS.Mm.BootTables

/-!
# Redirecting a descriptor

`SYS_DUP2` copies the entry of one slot into another one. The two slots then hold the same
entry until one of them is closed, in any order of calls of all the tasks. What a read or a
write does is the same for both, except where one of the two numbers stands for the keyboard
or the terminal and the other one does not.
-/

namespace EponaOS.Kernel.Io

open Fs Mm
open Function (update)

variable {dr : Driver} {s s' : IoState} {k k' k₁ : KernelState} {e : FdEntry}

def held (e : FdEntry) : Option FdEntry := if e.used then some e else none

def IoState.onTask (s : IoState) (a : Nat) : IoState := { s with k := { s.k with gCurrent := a } }

inductive IoCall
  | write (fd : Nat) (buf n : Word)
  | read (fd : Nat) (buf n : Word)
  /-- a call that waits looks at its pipe again -/
  | resume (w : PipeWait)
  /-- any other call -/
  | call (c : FdCall)
  /-- anything that leaves the descriptors of live tasks alone: a program, the keyboard, the timer -/
  | other

/-- A live task makes a call; what it does not leave to the descriptors may change with it. -/
def ioStep (dr : Driver) (s : IoState) (c : Nat × IoCall) (s' : IoState) : Prop :=
  match c.2 with
  | .write fd buf n => Live s.k c.1 ∧ (sysWrite dr (s.onTask c.1) fd buf n).With s'
  | .read fd buf n => Live s.k c.1 ∧ (sysRead dr (s.onTask c.1) fd buf n).With s'
  | .resume w => Live s.k c.1 ∧ (w.resume (s.onTask c.1)).With s'
  | .call c' => fdStep s.k (c.1, c') s'.k
  | .other => slotRefs held s'.k = slotRefs held s.k ∧ Known s'.k

def Closes (a fd : Nat) (c : Nat × IoCall) : Prop :=
  c.1 = a ∧
    match c.2 with
    | .call (.close i) => i = fd
    | .call (.dup2 _ i) => i = fd
    | .call (.exec (.loaded _)) => 3 ≤ fd
    | .call (.exit _) => True
    | _ => False

/-- Behind any calls that close neither descriptor, both do the same for task `a`. -/
def Redirects (dr : Driver) (s : IoState) (a oldfd newfd : Nat) : Prop :=
  ∀ as s', Run (ioStep dr) (fun _ c => ¬ Closes a oldfd c ∧ ¬ Closes a newfd c) s as s' →
    ∀ buf n,
      sysWrite dr (s'.onTask a) newfd buf n = sysWrite dr (s'.onTask a) oldfd buf n ∧
      sysRead dr (s'.onTask a) newfd buf n = sysRead dr (s'.onTask a) oldfd buf n

def Terminal (fd : Nat) : Prop := fd = FD_STDOUT ∨ fd = FD_STDERR

/-- Both or none of the numbers stand for the keyboard, and so with the terminal. -/
def SameDispatch (oldfd newfd : Nat) : Prop :=
  (oldfd = FD_STDIN ↔ newfd = FD_STDIN) ∧ (Terminal oldfd ↔ Terminal newfd)

-- ---------------------------------------------------------------------------
-- What the calls leave alone
-- ---------------------------------------------------------------------------

structure Apart (s s' : IoState) : Prop where
  tasks : s'.k.tasks = s.k.tasks
  next : s'.k.nextTask = s.k.nextTask
  term : s'.term = s.term
  keys : s'.keys = s.keys

theorem Apart.refl (s : IoState) : Apart s s := ⟨rfl, rfl, rfl, rfl⟩

theorem pipeWriteCall_apart (h : (pipeWriteCall s p buf n).With s') : Apart s s' := by
  rw [pipeWriteCall] at h
  split at h
  · exact IoEnd.with_yields h ▸ .refl s
  split at h
  · exact IoEnd.with_returns h ▸ .refl s
  · rw [IoEnd.with_returns h]
    exact ⟨rfl, rfl, rfl, rfl⟩

theorem pipeReadCall_apart (h : (pipeReadCall s p buf n).With s') : Apart s s' := by
  rw [pipeReadCall] at h
  split at h
  · exact IoEnd.with_yields h ▸ .refl s
  split at h
  · exact IoEnd.with_returns h ▸ .refl s
  · rw [IoEnd.with_returns h]
    exact ⟨rfl, rfl, rfl, rfl⟩

theorem PipeWait.resume_apart {w : PipeWait} (h : (w.resume s).With s') : Apart s s' := by
  rw [PipeWait.resume] at h
  split at h
  · exact pipeWriteCall_apart h
  · exact pipeReadCall_apart h

theorem fileWriteCall_apart (h : (fileWriteCall dr s f buf n).With s') : Apart s s' := by
  rw [fileWriteCall] at h
  split at h
  · exact absurd h IoEnd.not_lost
  split at h
  · exact absurd h IoEnd.not_lost
  split at h
  · exact absurd h IoEnd.not_lost
  · rw [IoEnd.with_returns h]
    exact ⟨rfl, rfl, rfl, rfl⟩

theorem fileReadCall_apart (h : (fileReadCall dr s f buf n).With s') : Apart s s' := by
  rw [fileReadCall] at h
  split at h
  · exact absurd h IoEnd.not_lost
  split at h
  · exact absurd h IoEnd.not_lost
  split at h
  · exact absurd h IoEnd.not_lost
  · rw [IoEnd.with_returns h]
    exact ⟨rfl, rfl, rfl, rfl⟩

theorem entryWrite_apart (h : (entryWrite dr s entry buf n).With s') : Apart s s' := by
  cases entry with
  | none => exact IoEnd.with_returns h ▸ .refl s
  | some e =>
    rw [entryWrite] at h
    split at h
    · split at h
      · exact IoEnd.with_returns h ▸ .refl s
      · exact pipeWriteCall_apart h
    split at h
    · split at h
      · exact IoEnd.with_returns h ▸ .refl s
      · exact fileWriteCall_apart h
    · exact IoEnd.with_returns h ▸ .refl s

theorem entryRead_apart (h : (entryRead dr s entry buf n).With s') : Apart s s' := by
  cases entry with
  | none => exact IoEnd.with_returns h ▸ .refl s
  | some e =>
    rw [entryRead] at h
    split at h
    · split at h
      · exact IoEnd.with_returns h ▸ .refl s
      · exact pipeReadCall_apart h
    split at h
    · split at h
      · exact IoEnd.with_returns h ▸ .refl s
      · exact fileReadCall_apart h
    · exact IoEnd.with_returns h ▸ .refl s

theorem sysWrite_tasks (h : (sysWrite dr s fd buf n).With s') :
    s'.k.tasks = s.k.tasks ∧ s'.k.nextTask = s.k.nextTask := by
  rw [sysWrite] at h
  split at h
  · rw [termWrite] at h
    split at h
    · rw [IoEnd.with_returns h]
      exact ⟨rfl, rfl⟩
    · rw [IoEnd.with_returns h]
      exact ⟨rfl, rfl⟩
  · exact ⟨(entryWrite_apart h).tasks, (entryWrite_apart h).next⟩

theorem sysRead_tasks (h : (sysRead dr s fd buf n).With s') :
    s'.k.tasks = s.k.tasks ∧ s'.k.nextTask = s.k.nextTask := by
  rw [sysRead] at h
  split at h
  · rw [stdinRead] at h
    split at h
    · rw [IoEnd.with_returns h]
      exact ⟨rfl, rfl⟩
    · dsimp only at h
      split at h
      · rw [IoEnd.with_returns h]
        exact ⟨rfl, rfl⟩
      · rw [IoEnd.with_polls h]
        exact ⟨rfl, rfl⟩
  · exact ⟨(entryRead_apart h).tasks, (entryRead_apart h).next⟩

-- ---------------------------------------------------------------------------
-- A slot that is not closed
-- ---------------------------------------------------------------------------

theorem held_unused (e : FdEntry) (h : e.used = false) : held e = none :=
  if_neg fun hu => Bool.false_ne_true (h.symm.trans hu)

theorem held_eq_some (h : held e = some e') : e = e' ∧ e.used = true := by
  rw [held] at h
  split at h
  · next hu =>
    cases h
    exact ⟨rfl, hu⟩
  · cases h

theorem slot_setTask (ht : k.tasks b = some t) (hl : t.state ≠ .terminated) (hj : j < TASK_MAX_FD)
    (hne : (a, i) ≠ (b, j)) (x : FdEntry) :
    slotRefs held (k.setTask b { t with fd := update t.fd j x }) (a, i) = slotRefs held k (a, i) := by
  rw [slotRefs_setTask ht hl hj, Function.update_of_ne hne]

theorem ne_unused (he : slotRefs held k (a, i) = some e) (ht : k.tasks b = some t)
    (hu : (t.fd j).used = false) : (a, i) ≠ (b, j) := by
  intro heq
  rw [heq, slotRefs_unused held_unused ht hu] at he
  cases he

theorem sysOpen_slot (hl : Live k k.gCurrent) (h : sysOpen k found = some (r, k'))
    (he : slotRefs held k (a, i) = some e) : slotRefs held k' (a, i) = some e := by
  cases found with
  | none =>
    cases h
    exact he
  | some file =>
    obtain rfl | ⟨t, t', j, ht, hj, hu, rfl, rfl⟩ := sysOpen_spec h
    · rw [slotRefs_tasks (vfsClose_tasks _ _)]
      exact he
    · obtain ⟨u, hu', hl⟩ := hl
      cases ht.symm.trans hu'
      exact (slot_setTask (k := newFile k file) ht hl hj.2 (ne_unused he ht hu) _).trans he

theorem sysFileIo_slot (h : sysFileIo k fd n = some (r, k')) :
    slotRefs held k' = slotRefs held k := by
  obtain rfl | ⟨f, file, rfl⟩ := sysFileIo_spec h
  · rfl
  · rfl

theorem sysClose_slot (hl : Live k k.gCurrent) (hne : (a, i) ≠ (k.gCurrent, j))
    (h : sysClose k j = some (r, k')) : slotRefs held k' (a, i) = slotRefs held k (a, i) := by
  obtain rfl | ⟨t, ht, hj, -, rfl⟩ := sysClose_spec h
  · rfl
  · have hsame := (dropEntry_tasks k (t.fd j)).1
    obtain ⟨u, hu, hl⟩ := hl
    cases ht.symm.trans hu
    rw [slot_setTask (hsame ▸ ht) hl hj hne, slotRefs_tasks hsame]

theorem sysDup2_slot (hl : Live k k.gCurrent) (hne : (a, i) ≠ (k.gCurrent, j))
    (h : sysDup2 k oldfd j = some (r, k')) : slotRefs held k' (a, i) = slotRefs held k (a, i) := by
  obtain rfl | ⟨t, ht, -, -, hj, rfl⟩ := sysDup2_spec h
  · rfl
  · have hsame := closeFile_tasks k (t.fd j)
    obtain ⟨u, hu, hl⟩ := hl
    cases ht.symm.trans hu
    rw [slot_setTask (hsame ▸ ht) hl hj hne, slotRefs_tasks hsame]

theorem sysPipe_slot (hl : Live k k.gCurrent) (h : sysPipe k bufOk = some (r, k'))
    (he : slotRefs held k (a, i) = some e) : slotRefs held k' (a, i) = some e := by
  obtain rfl | ⟨p, k₁, -, -, rfl, rfl | ⟨t, j, ht, hj, hu, hrest⟩⟩ := sysPipe_spec h
  · exact he
  · exact he
  · obtain ⟨u, hu', hl⟩ := hl
    cases ht.symm.trans hu'
    have hne := ne_unused he ht hu
    obtain rfl | ⟨j', -, hj', hu', rfl⟩ := hrest
    · exact (slot_setTask ht hl hj hne .free).trans he
    · refine (congrFun (slotRefs_setTask₂ (g := held) ht hl hj hj' _ _) (a, i)).trans ?_
      rw [Function.update_of_ne (ne_unused he ht hu'), Function.update_of_ne hne]
      exact he

theorem sysFork_slot (hk : Known k) (hl : Live k k.gCurrent)
    (h : sysFork k frames mem = some (r, k')) (he : slotRefs held k (a, i) = some e) :
    slotRefs held k' (a, i) = some e := by
  rw [sysFork] at h
  split at h
  · cases h
    exact he
  obtain ⟨cur, hcur, h⟩ := Option.bind_eq_some_iff.mp h
  obtain ⟨⟨k₁, fd⟩, h₁, h⟩ := Option.bind_eq_some_iff.mp h
  cases h
  obtain ⟨t, ht, hl⟩ := hl
  cases hcur.symm.trans ht
  obtain ⟨hq, htasks, hg, -⟩ := forkSlots_quiet h₁
  have hcur₁ : k₁.tasks k₁.gCurrent = some cur := by
    rw [hg, htasks]
    exact hcur
  obtain ⟨u, hu, -⟩ := slotRefs_eq_some he
  have hne : ¬ (a = k₁.nextTask ∧ i < TASK_MAX_FD) := fun h =>
    Nat.ne_of_lt (hk a u hu) (h.1.trans hq.next)
  rw [slotRefs_addChild (hq.known hk) hcur₁ hl]
  dsimp only
  rw [if_neg hne, slotRefs_tasks htasks]
  exact he

theorem taskFdCloseAll_slot (hl : Live k b) (hno : ¬ (a = b ∧ 3 ≤ i)) :
    slotRefs held (taskFdCloseAll k b) (a, i) = slotRefs held k (a, i) :=
  (slotRefs_closeAll held_unused hl).trans (if_neg hno)

theorem sysExec_slot (hl : Live k k.gCurrent)
    (hno : ∀ file, load = .loaded file → ¬ (a = k.gCurrent ∧ 3 ≤ i)) :
    slotRefs held (sysExec k load).2 (a, i) = slotRefs held k (a, i) := by
  cases load with
  | notFound => rfl
  | noClone file => rfl
  | failed file => exact congrFun (slotRefs_tasks (vfsClose_tasks _ _)) _
  | loaded file =>
    have htasks : (vfsClose (newFile k file) k.nextFile).tasks = k.tasks := vfsClose_tasks ..
    rw [sysExec, elfLoad]
    dsimp only
    split
    · rw [slotRefs_tasks htasks]
    · rw [vfsClose_gCurrent, taskFdCloseAll_slot, slotRefs_tasks htasks]
      · rwa [Live, htasks]
      · exact hno file rfl

theorem sysExit_slot (hl : Live k k.gCurrent) (hne : a ≠ k.gCurrent)
    (h : sysExit k code = some k') : slotRefs held k' (a, i) = slotRefs held k (a, i) := by
  rw [sysExit] at h
  obtain ⟨k₁, hexit, h⟩ := Option.bind_eq_some_iff.mp h
  have h₁ : slotRefs held k₁ (a, i) = slotRefs held k (a, i) := by
    rw [exitTask] at hexit
    split at hexit
    · cases hexit
      rfl
    dsimp only at hexit
    obtain ⟨t, ht, hexit⟩ := Option.bind_eq_some_iff.mp hexit
    rw [closeAll_gCurrent] at hexit
    cases hexit
    rw [← taskFdCloseAll_slot hl fun h => hne h.1, slotRefs, slotRefs]
    dsimp only [KernelState.emit]
    rw [KernelState.setTask_of_ne _ _ hne]
  rw [← h₁]
  cases h
  split <;> rfl

theorem fdStep_slot (hk : Known k) (h : fdStep k (b, c) k') (hno : ¬ Closes a i (b, .call c))
    (he : slotRefs held k (a, i) = some e) : slotRefs held k' (a, i) = some e := by
  obtain ⟨-, hlive, h⟩ := h
  have hk₀ : Known { k with gCurrent := b } := hk
  have he₀ : slotRefs held { k with gCurrent := b } (a, i) = some e := he
  have hl : Live { k with gCurrent := b } b := hlive
  cases c with
  | «open» found =>
    obtain ⟨⟨r, k₁⟩, h₁, rfl⟩ := Option.map_eq_some_iff.mp h
    exact sysOpen_slot hl h₁ he₀
  | create found =>
    obtain ⟨⟨r, k₁⟩, h₁, rfl⟩ := Option.map_eq_some_iff.mp h
    exact sysOpen_slot hl h₁ he₀
  | read fd n =>
    obtain ⟨⟨r, k₁⟩, h₁, rfl⟩ := Option.map_eq_some_iff.mp h
    rw [Kernel.sysRead] at h₁
    split at h₁
    · cases h₁
      exact he₀
    · exact (congrFun (sysFileIo_slot h₁) _).trans he₀
  | write fd n =>
    obtain ⟨⟨r, k₁⟩, h₁, rfl⟩ := Option.map_eq_some_iff.mp h
    rw [Kernel.sysWrite] at h₁
    split at h₁
    · cases h₁
      exact he₀
    · exact (congrFun (sysFileIo_slot h₁) _).trans he₀
  | close fd =>
    obtain ⟨⟨r, k₁⟩, h₁, rfl⟩ := Option.map_eq_some_iff.mp h
    refine (sysClose_slot hl (fun heq => ?_) h₁).trans he₀
    cases heq
    exact hno ⟨rfl, rfl⟩
  | dup2 oldfd newfd =>
    obtain ⟨⟨r, k₁⟩, h₁, rfl⟩ := Option.map_eq_some_iff.mp h
    refine (sysDup2_slot hl (fun heq => ?_) h₁).trans he₀
    cases heq
    exact hno ⟨rfl, rfl⟩
  | pipe bufOk =>
    obtain ⟨⟨r, k₁⟩, h₁, rfl⟩ := Option.map_eq_some_iff.mp h
    exact sysPipe_slot hl h₁ he₀
  | fork frames mem =>
    obtain ⟨⟨r, k₁⟩, h₁, rfl⟩ := Option.map_eq_some_iff.mp h
    exact sysFork_slot hk₀ hl h₁ he₀
  | exec load =>
    cases h
    refine (sysExec_slot hl fun file hload hai => ?_).trans he₀
    subst hload
    exact hno ⟨hai.1.symm, hai.2⟩
  | exit code =>
    refine (sysExit_slot hl (fun heq => ?_) h).trans he₀
    exact hno ⟨heq.symm, trivial⟩

-- ---------------------------------------------------------------------------
-- Runs
-- ---------------------------------------------------------------------------

structure Shares (s : IoState) (a oldfd newfd : Nat) (e : FdEntry) : Prop where
  known : Known s.k
  old : slotRefs held s.k (a, oldfd) = some e
  new : slotRefs held s.k (a, newfd) = some e

theorem Shares.tasks (h : Shares s a oldfd newfd e)
    (hs : s'.k.tasks = s.k.tasks ∧ s'.k.nextTask = s.k.nextTask) : Shares s' a oldfd newfd e := by
  refine ⟨fun b t ht => ?_, ?_, ?_⟩
  · rw [hs.2]
    exact h.known b t (hs.1 ▸ ht)
  · rw [slotRefs_tasks hs.1]
    exact h.old
  · rw [slotRefs_tasks hs.1]
    exact h.new

theorem Shares.step (h : Shares s a oldfd newfd e)
    (hok : ¬ Closes a oldfd c ∧ ¬ Closes a newfd c) (hstep : ioStep dr s c s') :
    Shares s' a oldfd newfd e := by
  obtain ⟨b, c⟩ := c
  have hturn : Shares (s.onTask b) a oldfd newfd e := ⟨h.known, h.old, h.new⟩
  cases c with
  | write fd buf n => exact hturn.tasks (sysWrite_tasks hstep.2)
  | read fd buf n => exact hturn.tasks (sysRead_tasks hstep.2)
  | resume w =>
    have hapart := PipeWait.resume_apart hstep.2
    exact hturn.tasks ⟨hapart.tasks, hapart.next⟩
  | call c =>
    exact ⟨fdStep_known h.known hstep, fdStep_slot h.known hstep hok.1 h.old,
      fdStep_slot h.known hstep hok.2 h.new⟩
  | other =>
    obtain ⟨hrefs, hknown⟩ := hstep
    exact ⟨hknown, hrefs ▸ h.old, hrefs ▸ h.new⟩

theorem Shares.entry (h : Shares s a oldfd newfd e) :
    (s.onTask a).entry newfd = (s.onTask a).entry oldfd := by
  obtain ⟨t, ht, -, hold, he⟩ := slotRefs_eq_some h.old
  obtain ⟨u, hu, -, hnew, he'⟩ := slotRefs_eq_some h.new
  cases ht.symm.trans hu
  rw [IoState.entry, IoState.entry]
  split
  · rfl
  · simp only [IoState.onTask, ht]
    rw [(held_eq_some he).1, (held_eq_some he').1]
    simp only [Nat.not_le.mpr hold, Nat.not_le.mpr hnew]

theorem dup2_shares (hk : Known s.k) (hlive : Live s.k s.k.gCurrent)
    (h : Kernel.sysDup2 s.k oldfd newfd = some ((newfd : Int), k₁)) :
    ∃ e, Shares { s with k := k₁ } s.k.gCurrent oldfd newfd e := by
  obtain ⟨t, ht, hl⟩ := hlive
  rw [sysDup2] at h
  split at h
  · have := congrArg Prod.fst (Option.some.inj h)
    dsimp only at this
    omega
  rw [ht] at h
  simp only [Option.bind_eq_bind, Option.bind_some] at h
  split at h
  · have := congrArg Prod.fst (Option.some.inj h)
    dsimp only at this
    omega
  next hold =>
  split at h
  · have := congrArg Prod.fst (Option.some.inj h)
    dsimp only at this
    omega
  next hnew =>
  obtain ⟨hlt, hu⟩ := not_or.mp hold
  obtain rfl := congrArg Prod.snd (Option.some.inj h)
  rw [closeFile_gCurrent]
  have hsame := closeFile_tasks s.k (t.fd newfd)
  have hheld : held (t.fd oldfd) = some (t.fd oldfd) := if_pos (by simpa using hu)
  have hset := slotRefs_setTask (g := held) (hsame.symm ▸ ht) hl (Nat.not_le.mp hnew) (t.fd oldfd)
  refine ⟨t.fd oldfd, ((closeFile_quiet _ _).known hk).setTask (hsame.symm ▸ ht) _, ?_, ?_⟩
  · rw [hset, hheld]
    by_cases heq : oldfd = newfd
    · rw [heq, Function.update_self]
    · have hne : (s.k.gCurrent, oldfd) ≠ (s.k.gCurrent, newfd) := fun h => heq (Prod.mk.inj h).2
      rw [Function.update_of_ne hne, slotRefs_tasks hsame,
        slotRefs_of_live ht hl (Nat.not_le.mp hlt), hheld]
  · rw [hset, hheld, Function.update_self]

theorem sysWrite_terminal (h : Terminal fd) : sysWrite dr s fd buf n = termWrite s buf n := if_pos h

theorem sysWrite_entry (h : ¬ Terminal fd) :
    sysWrite dr s fd buf n = entryWrite dr s (s.entry fd) buf n := if_neg h

theorem sysRead_stdin (h : fd = FD_STDIN) : sysRead dr s fd buf n = stdinRead s buf n := if_pos h

theorem sysRead_entry (h : fd ≠ FD_STDIN) :
    sysRead dr s fd buf n = entryRead dr s (s.entry fd) buf n := if_neg h

theorem Shares.redirects (h : Shares s a oldfd newfd e) (hsame : SameDispatch oldfd newfd) :
    Redirects dr s a oldfd newfd := by
  intro as s' hrun buf n
  have hend := hrun.invariant (Shares · a oldfd newfd e) h fun _ _ _ hs hok hstep => hs.step hok hstep
  obtain ⟨hstdin, hterm⟩ := hsame
  constructor
  · by_cases ho : Terminal oldfd
    · rw [sysWrite_terminal ho, sysWrite_terminal (hterm.mp ho)]
    · rw [sysWrite_entry ho, sysWrite_entry (hterm.not.mp ho), hend.entry]
  · by_cases hi : oldfd = FD_STDIN
    · rw [sysRead_stdin hi, sysRead_stdin (hstdin.mp hi)]
    · rw [sysRead_entry hi, sysRead_entry (hstdin.not.mp hi), hend.entry]

-- ---------------------------------------------------------------------------
-- Where the numbers stand for something else
-- ---------------------------------------------------------------------------

structure Ready (s : IoState) : Prop where
  valid : Valid s 0x100000 1
  keys : s.keys = [97]

theorem Ready.write_ne (h : Ready s) (entry : Option FdEntry) :
    termWrite s 0x100000 1 ≠ entryWrite dr s entry 0x100000 1 := by
  intro heq
  rw [termWrite, if_neg (not_not.mpr h.valid)] at heq
  have hterm := (entryWrite_apart (.inl ⟨_, heq.symm⟩)).term
  exact absurd (congrArg List.length hterm) (by simp)

theorem Ready.read_ne (h : Ready s) (entry : Option FdEntry) :
    stdinRead s 0x100000 1 ≠ entryRead dr s entry 0x100000 1 := by
  intro heq
  rw [stdinRead, if_neg (not_not.mpr h.valid), h.keys] at heq
  have hkeys := (entryRead_apart (.inl ⟨_, heq.symm⟩)).keys
  exact absurd (hkeys.symm.trans rfl) (by simp [h.keys])

theorem boot_valid : validateUserPtr bootMachine 0x100000 1 = some true := by decide +kernel

theorem exists_ready (dr : Driver) (a oldfd newfd : Nat) (hk : Known s.k) : ∃ s',
    Ready (s'.onTask a) ∧
      Run (ioStep dr) (fun _ c => ¬ Closes a oldfd c ∧ ¬ Closes a newfd c) s [(a, .other)] s' := by
  let s' : IoState := { s with machine := bootMachine, keys := [97] }
  have hstep : ioStep dr s (a, .other) s' := ⟨rfl, hk⟩
  exact ⟨s', ⟨boot_valid, rfl⟩, .cons ⟨fun h => h.2, fun h => h.2⟩ hstep .nil⟩

/-- A call and the same call with the other descriptor are the same exactly where both or none of
the two stand for the keyboard, and for the terminal. -/
theorem Shares.redirects_iff (h : Shares s a oldfd newfd e) :
    Redirects dr s a oldfd newfd ↔ SameDispatch oldfd newfd := by
  refine ⟨fun hall => ?_, h.redirects⟩
  obtain ⟨s', hready, hrun⟩ := exists_ready dr a oldfd newfd h.known
  obtain ⟨hwrite, hread⟩ := hall _ s' hrun 0x100000 1
  constructor
  · by_cases ho : oldfd = FD_STDIN
    · refine iff_of_true ho (not_not.mp fun hn => ?_)
      rw [sysRead_stdin ho, sysRead_entry hn] at hread
      exact hready.read_ne _ hread.symm
    · refine iff_of_false ho fun hn => ?_
      rw [sysRead_stdin hn, sysRead_entry ho] at hread
      exact hready.read_ne _ hread
  · by_cases ho : Terminal oldfd
    · refine iff_of_true ho (not_not.mp fun hn => ?_)
      rw [sysWrite_terminal ho, sysWrite_entry hn] at hwrite
      exact hready.write_ne _ hwrite.symm
    · refine iff_of_false ho fun hn => ?_
      rw [sysWrite_terminal hn, sysWrite_entry ho] at hwrite
      exact hready.write_ne _ hwrite

/-- Behind `SYS_DUP2` the new descriptor does what the old one does if and only if both or none of
them stand for the keyboard, and for the terminal. -/
theorem dup2_redirects_iff (dr : Driver) (hk : Known s.k) (hlive : Live s.k s.k.gCurrent)
    (h : Kernel.sysDup2 s.k oldfd newfd = some ((newfd : Int), k₁)) :
    Redirects dr { s with k := k₁ } s.k.gCurrent oldfd newfd ↔ SameDispatch oldfd newfd := by
  obtain ⟨e, hshares⟩ := dup2_shares hk hlive h
  exact hshares.redirects_iff

-- ---------------------------------------------------------------------------
-- An example
-- ---------------------------------------------------------------------------

def pipeTask : KernelState :=
  let fd := fun i => if i = 4 then ⟨1, FD_TYPE_PIPE_W, true⟩ else FdEntry.free
  twoTasks.setTask 1 ⟨1, 0, .running, 0, 0, fd, fun _ => ⟨0, 0, 0⟩, 2⟩

def pipeIo : IoState where
  k := pipeTask
  machine := bootMachine
  mem _ := 0
  pipeBufs _ _ := 0
  tree := ⟨fun _ => none, 0, none, []⟩
  disk := overlayDisk
  term := []
  keys := []

def anyDriver : Driver := ⟨overlayFp, fun _ => 0, 300⟩

theorem pipeTask_known : Known pipeTask := twoTasks_known.setTask rfl _

theorem pipeTask_live : Live pipeTask pipeTask.gCurrent := ⟨_, rfl, by decide⟩

theorem dup2_redirects_iff_pipe : ∃ k₁, Kernel.sysDup2 pipeTask 4 5 = some (5, k₁) ∧
    Redirects anyDriver { pipeIo with k := k₁ } 1 4 5 :=
  ⟨_, rfl, (dup2_redirects_iff (s := pipeIo) anyDriver pipeTask_known pipeTask_live rfl).mpr
    ⟨by decide, by simp [Terminal, FD_STDOUT, FD_STDERR]⟩⟩

/-- The output of a program whose descriptor 1 was redirected goes on to the terminal. -/
theorem stdout_not_redirected : ¬ ∀ (dr : Driver) (s : IoState) (oldfd newfd : Nat)
    (k₁ : KernelState), Known s.k → Live s.k s.k.gCurrent →
      Kernel.sysDup2 s.k oldfd newfd = some ((newfd : Int), k₁) →
        Redirects dr { s with k := k₁ } s.k.gCurrent oldfd newfd := by
  intro hall
  have hdup := hall anyDriver pipeIo 4 1 _ pipeTask_known pipeTask_live rfl
  have hsame := (dup2_shares pipeTask_known pipeTask_live rfl).choose_spec.redirects_iff.mp hdup
  exact absurd (hsame.2.mpr (.inl rfl)) (by simp [Terminal, FD_STDOUT, FD_STDERR])

end EponaOS.Kernel.Io
