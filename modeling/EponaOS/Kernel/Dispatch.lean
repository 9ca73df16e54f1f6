import EponaOS.Lib.Run
import EponaOS.Lib.Trace
import EponaOS.Kernel.Status

/-!
# Which task runs

A task whose state was set to `TASK_TERMINATED`, or that sleeps, is skipped by `schedule`,
which however makes the task that it leaves ready again whatever its state was. Where no
terminated or sleeping task is left, none comes back.
-/

namespace EponaOS.Kernel

open Function (update)

variable {k k' k'' k₀ : KernelState} {ev : List KernelEvent}

-- ---------------------------------------------------------------------------
-- What a part of a step does to the states
-- ---------------------------------------------------------------------------

/-- The state of a task goes on as it may: terminated is final, and a sleeper wakes in time. -/
structure Follows (now : Nat) (t t' : Task) : Prop where
  terminated : t.state = .terminated → t'.state = .terminated
  sleeping : t.state = .sleeping → t'.state = .terminated ∨
    (t'.state = .sleeping ∧ t'.wakeTick = t.wakeTick) ∨ t.wakeTick ≤ now

structure Moves (k k' : KernelState) : Prop where
  tasks : ∀ a t', k'.tasks a = some t' →
    k.nextTask ≤ a ∨ ∃ t, k.tasks a = some t ∧ Follows k'.gTicks t t'
  known : Known k → Known k'
  ticks : k.gTicks ≤ k'.gTicks
  next : k.nextTask ≤ k'.nextTask
  events : ∃ ev, k'.events = k.events ++ ev ∧ ∀ e ∈ ev,
    (∀ a now, e ≠ .runs a now) ∧ (∀ a w, e ≠ .slept a w) ∧
    ∀ a p c, e = .terminated a p c → a < k'.nextTask ∧
      ∀ t', k'.tasks a = some t' → t'.state = .terminated

theorem SameStatus.follows (h : SameStatus t t') (now : Nat) : Follows now t t' :=
  ⟨fun ht => h.state.trans ht, fun hs => .inr (.inl ⟨h.state.trans hs, h.wakeTick⟩)⟩

theorem Follows.trans (h : Follows n t t') (h' : Follows n' t' t'') (hn : n ≤ n') :
    Follows n' t t'' := by
  refine ⟨fun ht => h'.terminated (h.terminated ht), fun hs => ?_⟩
  obtain ht | ⟨hs', hw⟩ | hw := h.sleeping hs
  · exact .inl (h'.terminated ht)
  · rw [← hw]
    exact h'.sleeping hs'
  · exact .inr (.inr (Nat.le_trans hw hn))

theorem Cleans.moves (h : Cleans k k') : Moves k k' := by
  obtain ⟨ev, he, hev⟩ := h.events
  refine ⟨fun a t' ht => ?_, fun hk a t ht => ?_, Nat.le_of_eq h.ticks.symm,
    Nat.le_of_eq h.next.symm, ev, he, fun e hm => ?_⟩
  · obtain ⟨t, ht, hs⟩ := h.tasks a t' ht
    exact .inr ⟨t, ht, hs.follows _⟩
  · obtain ⟨u, hu, -⟩ := h.tasks a t ht
    rw [h.next]
    exact hk a u hu
  · obtain ⟨a, rfl⟩ | ⟨f, rfl⟩ | ⟨f, rfl⟩ := hev e hm
    · exact ⟨nofun, nofun, nofun⟩
    · exact ⟨nofun, nofun, nofun⟩
    · exact ⟨nofun, nofun, nofun⟩

theorem Quiet.moves (h : Quiet k k') : Moves k k' := h.cleans.moves

theorem Moves.trans (h : Moves k k') (h' : Moves k' k'') : Moves k k'' := by
  obtain ⟨ev, he, hev⟩ := h.events
  obtain ⟨ev', he', hev'⟩ := h'.events
  refine ⟨fun a t'' ht => ?_, fun hk => h'.known (h.known hk), Nat.le_trans h.ticks h'.ticks,
    Nat.le_trans h.next h'.next, ev ++ ev', by rw [he', he, List.append_assoc], fun e hm => ?_⟩
  · obtain hnew | ⟨t', ht', hf'⟩ := h'.tasks a t'' ht
    · exact .inl (Nat.le_trans h.next hnew)
    obtain hnew | ⟨t, ht, hf⟩ := h.tasks a t' ht'
    · exact .inl hnew
    · exact .inr ⟨t, ht, hf.trans hf' h'.ticks⟩
  · obtain hm | hm := List.mem_append.mp hm
    · refine ⟨(hev e hm).1, (hev e hm).2.1, fun a p c heq => ?_⟩
      obtain ⟨hlt, hdead⟩ := (hev e hm).2.2 a p c heq
      refine ⟨Nat.lt_of_lt_of_le hlt h'.next, fun t'' ht'' => ?_⟩
      obtain hnew | ⟨t', ht', hf⟩ := h'.tasks a t'' ht''
      · exact absurd hlt (Nat.not_lt.mpr hnew)
      · exact hf.terminated (hdead t' ht')
    · exact hev' e hm

theorem Moves.refl (k : KernelState) : Moves k k := (Quiet.refl k).moves

theorem Moves.setTask (ht : k.tasks a = some t) (hf : Follows k.gTicks t t') :
    Moves k (k.setTask a t') := by
  refine ⟨fun b u hu => ?_, fun hk b u hu => ?_, Nat.le_refl _, Nat.le_refl _, [],
    (List.append_nil _).symm, by simp⟩
  · by_cases hb : b = a
    · subst hb
      rw [KernelState.setTask_self] at hu
      cases hu
      exact .inr ⟨t, ht, hf⟩
    · rw [KernelState.setTask_of_ne _ _ hb] at hu
      exact .inr ⟨u, hu, (SameStatus.refl u).follows _⟩
  · by_cases hb : b = a
    · subst hb
      exact hk b t ht
    · rw [KernelState.setTask_of_ne _ _ hb] at hu
      exact hk b u hu

theorem Moves.dead (hk : Known k) (ht : k.tasks a = some t) (hd : t.state = .terminated) :
    Moves k (k.emit (.terminated a p c)) := by
  have h := Moves.refl k
  refine ⟨h.tasks, h.known, h.ticks, h.next, [.terminated a p c], rfl, fun e he => ?_⟩
  rw [List.mem_singleton.mp he]
  refine ⟨nofun, nofun, fun b p' c' heq => ?_⟩
  cases heq
  refine ⟨hk a t ht, fun u hu => ?_⟩
  cases ht.symm.trans hu
  exact hd

theorem Moves.terminate (hk : Known k) (ht : k.tasks a = some t) (hd : t'.state = .terminated) :
    Moves k ((k.setTask a t').emit (.terminated a p c)) := by
  have h : Moves k (k.setTask a t') := .setTask ht ⟨fun _ => hd, fun _ => .inl hd⟩
  exact h.trans (.dead (h.known hk) (KernelState.setTask_self ..) hd)

theorem Moves.newTask (t : Task) :
    Moves k ({ k with nextTask := k.nextTask + 1 }.setTask k.nextTask t) := by
  refine ⟨fun b u hu => ?_, fun hk b u hu => ?_, Nat.le_refl _, Nat.le_succ _, [],
    (List.append_nil _).symm, by simp⟩
  · by_cases hb : b = k.nextTask
    · exact .inl (Nat.le_of_eq hb.symm)
    · rw [KernelState.setTask_of_ne _ _ hb] at hu
      exact .inr ⟨u, hu, (SameStatus.refl u).follows _⟩
  · by_cases hb : b = k.nextTask
    · exact hb ▸ Nat.lt_succ_self _
    · rw [KernelState.setTask_of_ne _ _ hb] at hu
      exact Nat.lt_succ_of_lt (hk b u hu)

-- ---------------------------------------------------------------------------
-- The parts
-- ---------------------------------------------------------------------------

theorem taskCreate_moves (h : taskCreate k = some (pid, k')) : Moves k k' := by
  obtain ⟨k₁, t, cur, nextPid, hq, -, rfl⟩ := taskCreate_spec h
  have hm := hq.moves.trans (.newTask t)
  exact ⟨hm.tasks, hm.known, hm.ticks, hm.next, hm.events⟩

theorem addChild_moves (hk : Known k) (hcur : k.tasks k.gCurrent = some cur) :
    Moves k (addChild k cur fd) := by
  have hnew := Moves.newTask (k := k) { cur with pid := 0, ppid := cur.pid, fd := fd }
  have hne : k.gCurrent ≠ k.nextTask := Nat.ne_of_lt (hk _ _ hcur)
  have hcur : (k.setTask k.nextTask { cur with pid := 0, ppid := cur.pid, fd := fd }).tasks
      k.gCurrent = some cur := (KernelState.setTask_of_ne _ _ hne).trans hcur
  have hlink : Follows k.gTicks cur { cur with next := k.nextTask } :=
    ⟨id, fun h => .inr (.inl ⟨h, rfl⟩)⟩
  rw [addChild]
  split
  · rename_i hd
    exact (hnew.trans (.dead (hnew.known hk) (KernelState.setTask_self ..) hd)).trans
      (.setTask hcur hlink)
  · exact hnew.trans (.setTask hcur hlink)

theorem sysFork_moves (hk : Known k) (h : sysFork k frames mem = some (r, k')) : Moves k k' := by
  rw [sysFork] at h
  split at h
  · cases h
    exact .refl _
  obtain ⟨cur, hcur, h⟩ := Option.bind_eq_some_iff.mp h
  obtain ⟨⟨k₁, fd⟩, h₁, h⟩ := Option.bind_eq_some_iff.mp h
  cases h
  obtain ⟨hq, ht, hg, -⟩ := forkSlots_quiet h₁
  refine hq.moves.trans (addChild_moves (hq.moves.known hk) ?_)
  rw [hg, ht]
  exact hcur

theorem tickTask_moves (hk : Known k) (ht : k.tasks a = some t) : Moves k (tickTask k a t) := by
  have hwake : Follows k.gTicks t (wakeUp k.gTicks t) := by
    rw [wakeUp]
    split
    · rename_i hw
      exact ⟨fun h => absurd (hw.1.symm.trans h) nofun, fun _ => .inr (.inr hw.2)⟩
    · exact (SameStatus.refl t).follows _
  rw [tickTask]
  dsimp only
  generalize wakeUp k.gTicks t = t at hwake ⊢
  split
  · exact .setTask ht hwake
  obtain ⟨-, hw, hs⟩ := deliver_spec t (List.range TASK_MAX_SIGNALS)
  split
  · rename_i hdead
    exact .terminate hk ht hdead
  · rename_i hdead
    have hs := hs.resolve_right hdead
    exact .setTask ht ⟨fun h => hs.trans (hwake.terminated h), fun h =>
      (hwake.sleeping h).imp hs.trans (.imp (fun h => ⟨hs.trans h.1, hw.trans h.2⟩) id)⟩

theorem tickFrom_moves (hk : Known k) (h : tickFrom n k a = some k') : Moves k k' := by
  induction n generalizing k a with
  | zero => cases h
  | succ n ih =>
    rw [tickFrom] at h
    obtain ⟨t, ht, h⟩ := Option.bind_eq_some_iff.mp h
    have hm := tickTask_moves hk ht
    dsimp only at h
    split at h
    · cases h
      exact hm
    · exact hm.trans (ih (hm.known hk) h)

theorem schedulerTick_moves (hk : Known k) (h : schedulerTick k = some k') : Moves k k' := by
  rw [schedulerTick] at h
  have hm : Moves k { k with gTicks := k.gTicks + 1 } :=
    ⟨fun a t ht => .inr ⟨t, ht, (SameStatus.refl t).follows _⟩, fun hk => hk, Nat.le_succ _,
      Nat.le_refl _, [], (List.append_nil _).symm, by simp⟩
  dsimp only at h
  split at h
  · cases h
    exact hm
  · exact hm.trans (tickFrom_moves hk h)

theorem exitTask_moves (hk : Known k) (h : exitTask k code = some k') : Moves k k' := by
  rw [exitTask] at h
  split at h
  · cases h
    exact .refl _
  dsimp only at h
  obtain ⟨t, ht, h⟩ := Option.bind_eq_some_iff.mp h
  cases h
  have hc := (taskFdCloseAll_quiet k k.gCurrent).moves
  exact hc.trans (.terminate (hc.known hk) ht rfl)

theorem sysExit_moves (hk : Known k) (h : sysExit k code = some k') : Moves k k' := by
  rw [sysExit] at h
  obtain ⟨k₁, h₁, h⟩ := Option.bind_eq_some_iff.mp h
  have hm := exitTask_moves hk h₁
  cases h
  split
  · exact ⟨hm.tasks, hm.known, hm.ticks, hm.next, hm.events⟩
  · exact ⟨hm.tasks, hm.known, hm.ticks, hm.next, hm.events⟩

theorem sysKill_moves (hk : Known k) (h : sysKill k pid sig = some (r, k')) : Moves k k' := by
  rw [sysKill] at h
  obtain ⟨target, -, h⟩ := Option.bind_eq_some_iff.mp h
  split at h
  · cases h
    exact .refl _
  obtain ⟨t, ht, h⟩ := Option.bind_eq_some_iff.mp h
  split at h
  · cases h
    exact .terminate hk ht rfl
  split at h
  · cases h
    exact .setTask ht ⟨id, fun h => .inr (.inl ⟨h, rfl⟩)⟩
  · cases h
    exact .refl _

theorem sysWait_moves (h : sysWait k = some (r, k')) : Moves k k' := by
  obtain rfl | ⟨a, t, k₁, -, -, hq, rfl⟩ := sysWait_spec h
  · exact .refl k'
  have hemit : Moves k (k.emit (.waited t.ppid a t.exitCode)) :=
    ⟨fun a t ht => .inr ⟨t, ht, (SameStatus.refl t).follows _⟩, id, Nat.le_refl _, Nat.le_refl _,
      [.waited t.ppid a t.exitCode], rfl, fun e he => by
        rw [List.mem_singleton.mp he]
        exact ⟨nofun, nofun, nofun⟩⟩
  exact hemit.trans (hq.cleans.trans (.freeTask k₁ a)).moves

theorem sysSignal_moves (h : sysSignal k sig handler = some (r, k')) : Moves k k' := by
  rw [sysSignal] at h
  split at h
  · cases h
    exact .refl _
  obtain ⟨t, ht, h⟩ := Option.bind_eq_some_iff.mp h
  cases h
  exact .setTask ht ⟨id, fun h => .inr (.inl ⟨h, rfl⟩)⟩

-- ---------------------------------------------------------------------------
-- Who may run
-- ---------------------------------------------------------------------------

/-- The state of the task was set to `TASK_TERMINATED`, before the run or in it. -/
def WasDead (k₀ : KernelState) (ev : List KernelEvent) (a : Nat) : Prop :=
  (∃ t, k₀.tasks a = some t ∧ t.state = .terminated) ∨ ∃ p c, .terminated a p c ∈ ev

def Sleeps (k₀ : KernelState) (ev : List KernelEvent) (a w : Nat) : Prop :=
  (∃ t, k₀.tasks a = some t ∧ t.state = .sleeping ∧ t.wakeTick = w) ∨ .slept a w ∈ ev

/-- Behind the events, a task that runs is not terminated and does not sleep any more. -/
def MayRun (k₀ : KernelState) (ev : List KernelEvent) (e : KernelEvent) : Prop :=
  ∀ a now, e = .runs a now → ¬WasDead k₀ ev a ∧ ∀ w, Sleeps k₀ ev a w → w ≤ now

/-- The step does not leave a terminated task, or one that sleeps on, for another. -/
def KeepsIdle (k : KernelState) : SchedAct → Prop
  | .schedule => ∀ t, k.tasks k.gCurrent = some t →
      (t.state = .terminated → ∀ a, k.Behind a → k.IdleTask a) ∧
      (t.state = .sleeping → t.wakeTick ≤ k.gTicks)
  | .sleep _ => k.gCurrent = 0
  | _ => True

structure Dispatching (k₀ k : KernelState) (ev : List KernelEvent) : Prop where
  known : Known k
  events : k.events = k₀.events ++ ev
  trace : Each (MayRun k₀) ev
  dead : ∀ a, WasDead k₀ ev a →
    a < k.nextTask ∧ ∀ t, k.tasks a = some t → t.state = .terminated
  asleep : ∀ a w, Sleeps k₀ ev a w → a < k.nextTask ∧ (w ≤ k.gTicks ∨
    ∀ t, k.tasks a = some t → t.state = .terminated ∨ (t.state = .sleeping ∧ t.wakeTick = w))

theorem dispatching_init (hk : Known k) : Dispatching k k [] := by
  refine ⟨hk, (List.append_nil _).symm, each_nil, fun a ha => ?_, fun a w ha => ?_⟩
  · obtain ⟨t, ht, hd⟩ | ⟨p, c, hm⟩ := ha
    · refine ⟨hk a t ht, fun u hu => ?_⟩
      cases ht.symm.trans hu
      exact hd
    · cases hm
  · obtain ⟨t, ht, hs, hw⟩ | hm := ha
    · refine ⟨hk a t ht, .inr fun u hu => ?_⟩
      cases ht.symm.trans hu
      exact .inr ⟨hs, hw⟩
    · cases hm

theorem Dispatching.moves (h : Dispatching k₀ k ev) (hm : Moves k k') :
    ∃ ev, Dispatching k₀ k' ev := by
  obtain ⟨ev', he, hev⟩ := hm.events
  refine ⟨ev ++ ev', hm.known h.known, by rw [he, h.events, List.append_assoc],
    h.trace.append_of_forall fun e hme before a now heq => absurd heq ((hev e hme).1 a now),
    fun a ha => ?_, fun a w ha => ?_⟩
  · -- a task dead before stays so; one that the step terminated is terminated behind it
    have hold : WasDead k₀ ev a → a < k'.nextTask ∧
        ∀ t, k'.tasks a = some t → t.state = .terminated := by
      intro ha
      obtain ⟨hlt, hd⟩ := h.dead a ha
      refine ⟨Nat.lt_of_lt_of_le hlt hm.next, fun t' ht' => ?_⟩
      obtain hnew | ⟨t, ht, hf⟩ := hm.tasks a t' ht'
      · exact absurd hlt (Nat.not_lt.mpr hnew)
      · exact hf.terminated (hd t ht)
    obtain ha | ⟨p, c, ha⟩ := ha
    · exact hold (.inl ha)
    obtain ha | ha := List.mem_append.mp ha
    · exact hold (.inr ⟨p, c, ha⟩)
    · exact (hev _ ha).2.2 a p c rfl
  · have ha : Sleeps k₀ ev a w := by
      refine ha.imp id fun ha => ?_
      exact (List.mem_append.mp ha).resolve_right fun ha => (hev _ ha).2.1 a w rfl
    obtain ⟨hlt, hs⟩ := h.asleep a w ha
    refine ⟨Nat.lt_of_lt_of_le hlt hm.next, ?_⟩
    obtain hw | hs := hs
    · exact .inl (Nat.le_trans hw hm.ticks)
    by_cases hw : w ≤ k'.gTicks
    · exact .inl hw
    refine .inr fun t' ht' => ?_
    obtain hnew | ⟨t, ht, hf⟩ := hm.tasks a t' ht'
    · exact absurd hlt (Nat.not_lt.mpr hnew)
    obtain hd | ⟨hst, hwt⟩ := hs t ht
    · exact .inl (hf.terminated hd)
    obtain hd | ⟨hst', hwt'⟩ | hle := hf.sleeping hst
    · exact .inl hd
    · exact .inr ⟨hst', hwt'.trans hwt⟩
    · exact absurd (hwt ▸ hle) hw

theorem Dispatching.runs (h : Dispatching k₀ k ev) (ht : k.tasks a = some t)
    (hd : t.state ≠ .terminated) (hs : t.state = .sleeping → t.wakeTick ≤ k.gTicks) :
    Dispatching k₀ (k.emit (.runs a k.gTicks)) (ev ++ [.runs a k.gTicks]) := by
  refine ⟨h.known, ?_, h.trace.append_one fun b now heq => ?_, fun b hb => ?_, fun b w hb => ?_⟩
  · rw [KernelState.emit, h.events, List.append_assoc]
  · cases heq
    refine ⟨fun hb => hd ((h.dead a hb).2 t ht), fun w hw => ?_⟩
    obtain hle | hasleep := (h.asleep a w hw).2
    · exact hle
    · obtain ⟨hst, rfl⟩ := (hasleep t ht).resolve_left hd
      exact hs hst
  · refine h.dead b (hb.imp id fun ⟨p, c, hm⟩ => ⟨p, c, ?_⟩)
    simpa using hm
  · refine h.asleep b w (hb.imp id fun hm => ?_)
    simpa using hm

-- ---------------------------------------------------------------------------
-- schedule
-- ---------------------------------------------------------------------------

theorem schedule_dispatching (h : Dispatching k₀ k ev) (hok : KeepsIdle k .schedule)
    (hs : schedule k = some k') : ∃ ev, Dispatching k₀ k' ev := by
  rw [schedule] at hs
  split at hs
  · cases hs
    exact ⟨ev, h⟩
  obtain ⟨s, hstart, hs⟩ := Option.bind_eq_some_iff.mp hs
  obtain ⟨next, hnext, hs⟩ := Option.bind_eq_some_iff.mp hs
  obtain ⟨k₁, hclean, hs⟩ := Option.bind_eq_some_iff.mp hs
  have hc := cleanUp_cleans hclean
  obtain ⟨hdead, hsleep⟩ := hok s hstart
  obtain ⟨ev₁, h₁⟩ := h.moves hc.moves
  split at hs
  · obtain ⟨s₁, hs₁, hs⟩ := Option.bind_eq_some_iff.mp hs
    cases hs
    split
    · exact ⟨ev₁, h₁.known, h₁.events, h₁.trace, h₁.dead, h₁.asleep⟩
    · rename_i hd
      obtain ⟨u, hu, hst⟩ := hc.tasks _ _ hs₁
      cases hstart.symm.trans hu
      refine ⟨_, h₁.runs hs₁ hd fun hsl => ?_⟩
      rw [hst.wakeTick, hc.ticks]
      exact hsleep (hst.state ▸ hsl)
  · rename_i hne
    obtain ⟨hreach, t, ht, hrun⟩ := skipIdle_spec hnext hne
    rw [switchTo] at hs
    obtain ⟨p, hp, hs⟩ := Option.bind_eq_some_iff.mp hs
    obtain ⟨n, hn, hs⟩ := Option.bind_eq_some_iff.mp hs
    cases hs
    obtain ⟨u, hu, hst⟩ := hc.tasks _ _ hp
    cases hstart.symm.trans hu
    -- the task left is not terminated, else the next one would be idle
    have hready : Follows k₁.gTicks p { p with state := .ready } := by
      refine ⟨fun hd => ?_, fun hsl => .inr (.inr ?_)⟩
      · obtain ⟨u, hu, hidle⟩ := hdead (hst.state ▸ hd) next ⟨hne, s, hstart, hreach⟩
        cases ht.symm.trans hu
        exact absurd hidle hrun
      rw [hst.wakeTick, hc.ticks]
      exact hsleep (hst.state ▸ hsl)
    have hn₁ : k₁.tasks next = some n := (KernelState.setTask_of_ne _ _ hne).symm.trans hn
    obtain ⟨v, hv, hstn⟩ := hc.tasks _ _ hn₁
    cases ht.symm.trans hv
    have hidle : ¬n.state.Idle := hstn.state ▸ hrun
    have hrunning : Follows k₁.gTicks n { n with state := .running } :=
      ⟨fun hd => absurd (.inl hd) hidle, fun hsl => absurd (.inr hsl) hidle⟩
    obtain ⟨ev₂, h₂⟩ := h₁.moves (.setTask hp hready)
    obtain ⟨ev₃, h₃⟩ := h₂.moves (.setTask hn hrunning)
    have h₄ := h₃.runs (KernelState.setTask_self ..) nofun nofun
    exact ⟨_, h₄.known, h₄.events, h₄.trace, h₄.dead, h₄.asleep⟩

theorem schedStep_dispatching (h : Dispatching k₀ k ev) (hok : KeepsIdle k a)
    (hs : schedStep k a k') : ∃ ev, Dispatching k₀ k' ev := by
  obtain ⟨-, hs⟩ := hs
  cases a with
  | create frames =>
    rw [schedAct] at hs
    split at hs
    · obtain ⟨⟨pid, k₁⟩, h₁, rfl⟩ := Option.map_eq_some_iff.mp hs
      exact h.moves (taskCreate_moves h₁)
    · cases hs
      exact ⟨ev, h⟩
  | fork frames mem =>
    obtain ⟨⟨r, k₁⟩, h₁, rfl⟩ := Option.map_eq_some_iff.mp hs
    exact h.moves (sysFork_moves h.known h₁)
  | tick => exact h.moves (schedulerTick_moves h.known hs)
  | schedule => exact schedule_dispatching h hok hs
  | sleep ms =>
    have hcur : k.gCurrent = 0 := hok
    rw [schedAct, taskSleep, if_pos hcur] at hs
    cases hs
    exact ⟨ev, h⟩
  | exit code => exact h.moves (sysExit_moves h.known hs)
  | kill pid sig =>
    obtain ⟨⟨r, k₁⟩, h₁, rfl⟩ := Option.map_eq_some_iff.mp hs
    exact h.moves (sysKill_moves h.known h₁)
  | wait =>
    obtain ⟨⟨r, k₁⟩, h₁, rfl⟩ := Option.map_eq_some_iff.mp hs
    exact h.moves (sysWait_moves h₁)
  | signal sig handler =>
    obtain ⟨⟨r, k₁⟩, h₁, rfl⟩ := Option.map_eq_some_iff.mp hs
    exact h.moves (sysSignal_moves h₁)

/-- Where no step leaves a terminated or sleeping task for another, none of them runs. -/
theorem runs_only_awake (hk : Known k₀) (h : Run schedStep KeepsIdle k₀ as k) :
    ∃ ev, k.events = k₀.events ++ ev ∧ Each (MayRun k₀) ev := by
  obtain ⟨ev, hev⟩ := h.invariant (fun k => ∃ ev, Dispatching k₀ k ev) ⟨[], dispatching_init hk⟩
    fun k a k' ⟨ev, hev⟩ hok hs => schedStep_dispatching hev hok hs
  exact ⟨ev, hev.events, hev.trace⟩

theorem runs_only_awake_twoTasks :
    ∃ k, Run schedStep KeepsIdle twoTasks [.tick, .kill 2 9, .schedule] k ∧
      ∃ ev, k.events = [] ++ ev ∧ Each (MayRun twoTasks) ev := by
  have hidle : KeepsIdle ((schedAct twoTasks .tick >>= (schedAct · (.kill 2 9))).getD twoTasks)
      .schedule := by
    intro t ht
    cases ht
    exact ⟨nofun, nofun⟩
  have hrun : Run schedStep KeepsIdle twoTasks [.tick, .kill 2 9, .schedule] _ :=
    .cons trivial ⟨rfl, rfl⟩ (.cons trivial ⟨rfl, rfl⟩ (.cons hidle ⟨rfl, rfl⟩ .nil))
  exact ⟨_, hrun, runs_only_awake twoTasks_known hrun⟩

/-- The first task ends and runs again behind the second one. -/
theorem terminated_runs_again :
    ¬∀ k₀ as k, Known k₀ → Run schedStep (fun _ _ => True) k₀ as k →
      ∃ ev, k.events = k₀.events ++ ev ∧ Each (MayRun k₀) ev := by
  intro h
  have hrun : Run schedStep (fun _ _ => True) twoTasks [.exit 0, .schedule, .schedule] _ :=
    .cons trivial ⟨rfl, rfl⟩ (.cons trivial ⟨rfl, rfl⟩ (.cons trivial ⟨rfl, rfl⟩ .nil))
  obtain ⟨ev, he, hev⟩ := h _ _ _ twoTasks_known hrun
  have he : ev = [.terminated 1 0 0, .runs 2 0] ++ .runs 1 0 :: [] := he.symm
  exact (hev _ _ _ he 1 0 rfl).1 (.inr ⟨0, 0, List.mem_cons_self⟩)

end EponaOS.Kernel
