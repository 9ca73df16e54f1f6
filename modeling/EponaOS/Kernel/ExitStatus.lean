import EponaOS.Lib.Run
import EponaOS.Lib.Trace
import EponaOS.Kernel.Status

/-!
# Exit codes

A terminated task waits for its parent's `SYS_WAIT`, but `schedule` also frees the ones
that it meets behind the task it goes on with, and makes the one it leaves ready again.
-/

namespace EponaOS.Kernel

open Relation (ReflTransGen)

def Task.status (t : Task) : Option (Nat × Int) :=
  if t.state = .terminated then some (t.ppid, t.exitCode) else none

def KernelState.status (k : KernelState) (a : Nat) : Option (Nat × Int) :=
  (k.tasks a).bind Task.status

/-- What the task ended with last, where it had the status `s` before the events. -/
def lastStatus (s : Option (Nat × Int)) (a : Nat) : List KernelEvent → Option (Nat × Int)
  | [] => s
  | .terminated b p c :: ev => lastStatus (if b = a then some (p, c) else s) a ev
  | _ :: ev => lastStatus s a ev

/-- What `SYS_WAIT` said of the task, and to whom. -/
def waits (a : Nat) : List KernelEvent → List (Nat × Int)
  | [] => []
  | .waited pid b c :: ev => (if b = a then [(pid, c)] else []) ++ waits a ev
  | _ :: ev => waits a ev

/-- A task struct is freed when its parent has had its code, once. -/
def Reported (k₀ : KernelState) (ev : List KernelEvent) (e : KernelEvent) : Prop :=
  ∀ a, e = .freed a → ∃ s, lastStatus (k₀.status a) a ev = some s ∧ waits a ev = [s]

/-- So it was with every task freed, and a code that was not given out is still there. -/
def CodesKept (k₀ k : KernelState) : Prop :=
  ∃ ev, k.events = k₀.events ++ ev ∧ Each (Reported k₀) ev ∧
    ∀ a s, lastStatus (k₀.status a) a ev = some s →
      waits a ev = [s] ∨ (waits a ev = [] ∧ k.status a = some s)

variable {k k' k₀ : KernelState} {ev ev' : List KernelEvent}

theorem lastStatus_append :
    lastStatus s a (ev ++ ev') = lastStatus (lastStatus s a ev) a ev' := by
  induction ev generalizing s with
  | nil => rfl
  | cons e ev ih => cases e <;> exact ih

theorem waits_append : waits a (ev ++ ev') = waits a ev ++ waits a ev' := by
  induction ev with
  | nil => rfl
  | cons e ev ih =>
    cases e with
    | waited pid b c =>
      rw [List.cons_append, waits, waits, ih, List.append_assoc]
    | _ => exact ih

-- ---------------------------------------------------------------------------
-- Parts of a step that concern no code
-- ---------------------------------------------------------------------------

def KernelEvent.Silent : KernelEvent → Prop
  | .terminated .. => False
  | .waited .. => False
  | .freed _ => False
  | _ => True

theorem lastStatus_silent (h : ∀ e ∈ ev, e.Silent) : lastStatus s a ev = s := by
  induction ev with
  | nil => rfl
  | cons e ev ih =>
    have ih := ih fun e' he' => h e' (List.mem_cons_of_mem _ he')
    have he := h e List.mem_cons_self
    cases e with
    | terminated => exact he.elim
    | _ => exact ih

theorem waits_silent (h : ∀ e ∈ ev, e.Silent) : waits a ev = [] := by
  induction ev with
  | nil => rfl
  | cons e ev ih =>
    have ih := ih fun e' he' => h e' (List.mem_cons_of_mem _ he')
    have he := h e List.mem_cons_self
    cases e with
    | waited => exact he.elim
    | _ => exact ih

structure KeepsCodes (k k' : KernelState) : Prop where
  tasks : ∀ a, (k'.tasks a).map Task.status = (k.tasks a).map Task.status
  next : k'.nextTask = k.nextTask
  events : ∃ ev, k'.events = k.events ++ ev ∧ ∀ e ∈ ev, e.Silent

theorem KeepsCodes.trans (h : KeepsCodes k k') (h' : KeepsCodes k' k'') : KeepsCodes k k'' := by
  obtain ⟨ev, he, hev⟩ := h.events
  obtain ⟨ev', he', hev'⟩ := h'.events
  refine ⟨fun a => (h'.tasks a).trans (h.tasks a), h'.next.trans h.next, ev ++ ev', ?_,
    fun e hm => ?_⟩
  · rw [he', he, List.append_assoc]
  · exact (List.mem_append.mp hm).elim (hev e) (hev' e)

theorem SameStatus.status (h : SameStatus t t') : t'.status = t.status := by
  rw [Task.status, Task.status, h.state, h.ppid, h.exitCode]

theorem Quiet.keepsCodes (h : Quiet k k') : KeepsCodes k k' := by
  obtain ⟨ev, he, hev⟩ := h.events
  refine ⟨fun a => ?_, h.next, ev, he, fun e hm => ?_⟩
  · cases ht' : k'.tasks a with
    | some t' =>
      obtain ⟨t, ht, hs⟩ := h.tasks a t' ht'
      rw [ht, Option.map_some, Option.map_some, hs.status]
    | none =>
      cases ht : k.tasks a with
      | none => rfl
      | some t =>
        obtain ⟨t', ht''⟩ := h.kept a t ht
        cases ht'.symm.trans ht''
  · obtain ⟨f, rfl⟩ | ⟨f, rfl⟩ := hev e hm
    · trivial
    · trivial

theorem KeepsCodes.setTask (ht : k.tasks a = some t) (hs : t'.status = t.status) :
    KeepsCodes k (k.setTask a t') := by
  refine ⟨fun b => ?_, rfl, [], (List.append_nil _).symm, by simp⟩
  by_cases hb : b = a
  · subst hb
    rw [KernelState.setTask_self, ht, Option.map_some, Option.map_some, hs]
  · rw [KernelState.setTask_of_ne _ _ hb]

theorem KeepsCodes.emit (k : KernelState) (he : e.Silent) : KeepsCodes k (k.emit e) :=
  ⟨fun _ => rfl, rfl, [e], rfl, fun _ hm => List.mem_singleton.mp hm ▸ he⟩

-- ---------------------------------------------------------------------------
-- The account
-- ---------------------------------------------------------------------------

/-- Of every task that is there, what the events say is what its struct says, and no wait
has had it. -/
structure Accounted (k₀ k : KernelState) (ev : List KernelEvent) : Prop where
  known : Known k
  events : k.events = k₀.events ++ ev
  trace : Each (Reported k₀) ev
  live : ∀ a t, k.tasks a = some t → lastStatus (k₀.status a) a ev = t.status ∧ waits a ev = []
  gone : ∀ a, k.tasks a = none → ∀ s, lastStatus (k₀.status a) a ev = some s → waits a ev = [s]
  fresh : ∀ a, k.nextTask ≤ a → lastStatus (k₀.status a) a ev = none ∧ waits a ev = []

theorem accounted_init (hk : Known k) : Accounted k k [] := by
  have hnone : ∀ a, k.tasks a = none → k.status a = none := by
    intro a ha
    rw [KernelState.status, ha]
    rfl
  refine ⟨hk, (List.append_nil _).symm, each_nil, fun a t ht => ⟨?_, rfl⟩, fun a ha s hs => ?_,
    fun a ha => ⟨?_, rfl⟩⟩
  · rw [lastStatus, KernelState.status, ht]
    rfl
  · cases (hnone a ha).symm.trans hs
  · refine hnone a (Option.eq_none_iff_forall_ne_some.mpr fun t ht => ?_)
    exact absurd (hk a t ht) (Nat.not_lt.mpr ha)

theorem Accounted.codesKept (h : Accounted k₀ k ev) : CodesKept k₀ k := by
  refine ⟨ev, h.events, h.trace, fun a s hs => ?_⟩
  cases ha : k.tasks a with
  | none => exact .inl (h.gone a ha s hs)
  | some t =>
    obtain ⟨hl, hw⟩ := h.live a t ha
    refine .inr ⟨hw, ?_⟩
    rw [KernelState.status, ha]
    exact hl.symm.trans hs

theorem Accounted.keeps (h : Accounted k₀ k ev) (hk : KeepsCodes k k') :
    ∃ ev, Accounted k₀ k' ev := by
  obtain ⟨ev', he, hev⟩ := hk.events
  have hl : ∀ a, lastStatus (k₀.status a) a (ev ++ ev') = lastStatus (k₀.status a) a ev := by
    intro a
    rw [lastStatus_append, lastStatus_silent hev]
  have hw : ∀ a, waits a (ev ++ ev') = waits a ev := by
    intro a
    rw [waits_append, waits_silent hev, List.append_nil]
  refine ⟨ev ++ ev', fun a t' ht' => ?_, by rw [he, h.events, List.append_assoc],
    h.trace.append_of_forall fun e hm before a heq => ?_, fun a t' ht' => ?_,
    fun a ha s hs => ?_, fun a ha => ?_⟩
  · have ht := hk.tasks a
    rw [ht', Option.map_some] at ht
    obtain ⟨t, ht, -⟩ := Option.map_eq_some_iff.mp ht.symm
    exact hk.next ▸ h.known a t ht
  · exact (heq ▸ hev e hm : KernelEvent.Silent (.freed a)).elim
  · have ht := hk.tasks a
    rw [ht', Option.map_some] at ht
    obtain ⟨t, ht, hs⟩ := Option.map_eq_some_iff.mp ht.symm
    rw [hl, hw, ← hs]
    exact h.live a t ht
  · have ht := hk.tasks a
    rw [ha, Option.map_none] at ht
    rw [hw]
    exact h.gone a (Option.map_eq_none_iff.mp ht.symm) s (hl a ▸ hs)
  · rw [hl, hw]
    exact h.fresh a (hk.next ▸ ha)

theorem Accounted.terminate (h : Accounted k₀ k ev) (ht : k.tasks a = some t)
    (hs : t'.status = some (p, c)) :
    Accounted k₀ ((k.setTask a t').emit (.terminated a p c)) (ev ++ [.terminated a p c]) := by
  have hl : ∀ b, lastStatus (k₀.status b) b (ev ++ [.terminated a p c]) =
      if a = b then some (p, c) else lastStatus (k₀.status b) b ev := by
    intro b
    rw [lastStatus_append]
    rfl
  have hw : ∀ b, waits b (ev ++ [.terminated a p c]) = waits b ev := by
    intro b
    rw [waits_append]
    exact List.append_nil _
  have hlt := h.known a t ht
  refine ⟨fun b u hu => ?_, ?_, h.trace.append_one nofun, fun b u hu => ?_, fun b hb s hs => ?_,
    fun b hb => ?_⟩
  · by_cases hb : b = a
    · exact hb ▸ hlt
    · exact h.known b u ((KernelState.setTask_of_ne _ _ hb).symm.trans hu)
  · rw [KernelState.emit, KernelState.setTask, h.events, List.append_assoc]
  · rw [hl, hw]
    by_cases hb : a = b
    · subst hb
      cases (KernelState.setTask_self k a t').symm.trans hu
      exact ⟨(if_pos rfl).trans hs.symm, (h.live a t ht).2⟩
    · rw [if_neg hb]
      exact h.live b u ((KernelState.setTask_of_ne _ _ (Ne.symm hb)).symm.trans hu)
  · have hb' : a ≠ b := by
      rintro rfl
      cases (KernelState.setTask_self k a t').symm.trans hb
    rw [hl, if_neg hb'] at hs
    rw [hw]
    exact h.gone b ((KernelState.setTask_of_ne _ _ (Ne.symm hb')).symm.trans hb) s hs
  · have hb' : a ≠ b := Nat.ne_of_lt (Nat.lt_of_lt_of_le hlt hb)
    rw [hl, hw, if_neg hb']
    exact h.fresh b hb

theorem Accounted.newTask (h : Accounted k₀ k ev) (hs : t.status = none) :
    Accounted k₀ ({ k with nextTask := k.nextTask + 1 }.setTask k.nextTask t) ev := by
  refine ⟨fun b u hu => ?_, h.events, h.trace, fun b u hu => ?_, fun b hb => ?_,
    fun b hb => h.fresh b (Nat.le_of_succ_le hb)⟩
  · by_cases hb : b = k.nextTask
    · exact hb ▸ Nat.lt_succ_self _
    · exact Nat.lt_succ_of_lt (h.known b u ((KernelState.setTask_of_ne _ _ hb).symm.trans hu))
  · by_cases hb : b = k.nextTask
    · subst hb
      cases (KernelState.setTask_self _ _ _).symm.trans hu
      rw [hs]
      exact h.fresh _ (Nat.le_refl _)
    · exact h.live b u ((KernelState.setTask_of_ne _ _ hb).symm.trans hu)
  · have hb' : b ≠ k.nextTask := by
      rintro rfl
      cases (KernelState.setTask_self _ _ _).symm.trans hb
    exact h.gone b ((KernelState.setTask_of_ne _ _ hb').symm.trans hb)

theorem Accounted.deliver (h : Accounted k₀ k ev) (ht : k.tasks a = some t)
    (hd : t.state = .terminated) (hq : Quiet (k.emit (.waited t.ppid a t.exitCode)) k₁) :
    ∃ ev, Accounted k₀ (k₁.freeTask a) ev := by
  have hk := hq.keepsCodes
  obtain ⟨ev', he, hev⟩ := hk.events
  have hs : t.status = some (t.ppid, t.exitCode) := if_pos hd
  obtain ⟨hstatus, hwaits⟩ := h.live a t ht
  generalize hlast : KernelEvent.waited t.ppid a t.exitCode :: ev' = last
  have hl : ∀ b, lastStatus (k₀.status b) b (ev ++ last) = lastStatus (k₀.status b) b ev := by
    intro b
    rw [lastStatus_append, ← hlast]
    exact (lastStatus_silent hev : lastStatus _ b ev' = _)
  have hw : ∀ b, waits b (ev ++ last) =
      waits b ev ++ if a = b then [(t.ppid, t.exitCode)] else [] := by
    intro b
    rw [waits_append, ← hlast, waits, waits_silent hev, List.append_nil]
  have hlf : ∀ b, lastStatus (k₀.status b) b (ev ++ last ++ [.freed a]) =
      lastStatus (k₀.status b) b ev := by
    intro b
    rw [lastStatus_append, hl]
    rfl
  have hwf : ∀ b, waits b (ev ++ last ++ [.freed a]) =
      waits b ev ++ if a = b then [(t.ppid, t.exitCode)] else [] := by
    intro b
    rw [waits_append, hw]
    exact List.append_nil _
  refine ⟨ev ++ last ++ [.freed a], fun b u hu => ?_, ?_, ?_, fun b u hu => ?_,
    fun b hb s hs' => ?_, fun b hb => ?_⟩
  · have hb : b ≠ a := by
      rintro rfl
      cases (KernelState.freeTask_self _ _).symm.trans hu
    exact hq.known h.known b u ((KernelState.freeTask_of_ne _ hb).symm.trans hu)
  · rw [KernelState.freeTask, KernelState.emit]
    dsimp only
    rw [he, KernelState.emit, h.events, ← hlast]
    simp
  · refine (h.trace.append_of_forall fun e hm before b heq => ?_).append_one fun b heq => ?_
    · subst heq
      rw [← hlast] at hm
      exact (hev _ ((List.mem_cons.mp hm).resolve_left nofun)).elim
    · cases heq
      refine ⟨_, (hl _).trans (hstatus.trans hs), ?_⟩
      rw [hw, hwaits, if_pos rfl, List.nil_append]
  · have hb : b ≠ a := by
      rintro rfl
      cases (KernelState.freeTask_self _ _).symm.trans hu
    have hu := (KernelState.freeTask_of_ne _ hb).symm.trans hu
    obtain ⟨v, hv, hsv⟩ := hq.tasks b u hu
    rw [hlf, hwf, if_neg (Ne.symm hb), List.append_nil, hsv.status]
    exact h.live b v hv
  · rw [hlf] at hs'
    rw [hwf]
    by_cases hab : a = b
    · subst hab
      cases (hstatus.trans hs).symm.trans hs'
      rw [hwaits, if_pos rfl, List.nil_append]
    · rw [if_neg hab, List.append_nil]
      have hb := (KernelState.freeTask_of_ne _ (Ne.symm hab)).symm.trans hb
      have htb := hk.tasks b
      rw [hb, Option.map_none] at htb
      exact h.gone b (Option.map_eq_none_iff.mp htb.symm) s hs'
  · have hb : k.nextTask ≤ b := hq.next ▸ hb
    have hab : a ≠ b := Nat.ne_of_lt (Nat.lt_of_lt_of_le (h.known a t ht) hb)
    rw [hlf, hwf, if_neg hab, List.append_nil]
    exact h.fresh b hb

-- ---------------------------------------------------------------------------
-- The steps
-- ---------------------------------------------------------------------------

theorem Task.status_eq_none {t : Task} : t.status = none ↔ t.state ≠ .terminated := by
  rw [Task.status]
  split
  · rename_i h
    exact ⟨nofun, fun hne => absurd h hne⟩
  · rename_i h
    exact ⟨fun _ => h, fun _ => rfl⟩

theorem Task.status_of_state {t : Task} (h : t.state = s) (hs : s ≠ .terminated) :
    t.status = none := Task.status_eq_none.mpr (h ▸ hs)

theorem taskCreate_accounted (h : Accounted k₀ k ev) (hs : taskCreate k = some (pid, k')) :
    ∃ ev, Accounted k₀ k' ev := by
  obtain ⟨k₁, t, cur, nextPid, hq, hready, rfl⟩ := taskCreate_spec hs
  obtain ⟨ev₁, h₁⟩ := h.keeps hq.keepsCodes
  have h₂ := h₁.newTask (Task.status_of_state hready (by decide))
  exact ⟨ev₁, h₂.known, h₂.events, h₂.trace, h₂.live, h₂.gone, h₂.fresh⟩

theorem addChild_accounted (h : Accounted k₀ k ev) (hcur : k.tasks k.gCurrent = some cur) :
    ∃ ev, Accounted k₀ (addChild k cur fd) ev := by
  have hne : k.gCurrent ≠ k.nextTask := Nat.ne_of_lt (h.known _ _ hcur)
  have hcur : (k.setTask k.nextTask { cur with pid := 0, ppid := cur.pid, fd := fd }).tasks
      k.gCurrent = some cur := (KernelState.setTask_of_ne _ _ hne).trans hcur
  rw [addChild]
  split
  · -- the child of a terminated task comes into being terminated
    rename_i hd
    have hs : Task.status { cur with pid := 0, ppid := cur.pid, fd := fd } =
        some (cur.pid, cur.exitCode) := if_pos hd
    have hnew := h.newTask (t := { cur with state := .ready }) (Task.status_of_state (s := .ready) rfl (by decide))
    have hdead := hnew.terminate (KernelState.setTask_self ..) hs
    rw [KernelState.setTask, KernelState.setTask, Function.update_idem] at hdead
    exact hdead.keeps (.setTask (t := cur) hcur rfl)
  · rename_i hd
    have hnew := h.newTask (t := { cur with pid := 0, ppid := cur.pid, fd := fd })
      (Task.status_eq_none.mpr hd)
    exact hnew.keeps (.setTask (t := cur) hcur rfl)

theorem sysFork_accounted (h : Accounted k₀ k ev) (hs : sysFork k frames mem = some (r, k')) :
    ∃ ev, Accounted k₀ k' ev := by
  rw [sysFork] at hs
  split at hs
  · cases hs
    exact ⟨ev, h⟩
  obtain ⟨cur, hcur, hs⟩ := Option.bind_eq_some_iff.mp hs
  obtain ⟨⟨k₁, fd⟩, h₁, hs⟩ := Option.bind_eq_some_iff.mp hs
  cases hs
  obtain ⟨hq, ht, hg, -⟩ := forkSlots_quiet h₁
  obtain ⟨ev₁, h₁⟩ := h.keeps hq.keepsCodes
  refine addChild_accounted h₁ ?_
  rw [hg, ht]
  exact hcur

theorem tickTask_accounted (h : Accounted k₀ k ev) (ht : k.tasks a = some t) :
    ∃ ev, Accounted k₀ (tickTask k a t) ev := by
  have hwake : (wakeUp k.gTicks t).status = t.status := by
    rw [wakeUp]
    split
    · rename_i hw
      rw [Task.status_of_state hw.1 (by decide)]
      exact Task.status_of_state (s := .ready) rfl (by decide)
    · rfl
  rw [tickTask]
  dsimp only
  generalize wakeUp k.gTicks t = u at hwake ⊢
  split
  · exact h.keeps (.setTask ht hwake)
  rename_i hlive
  obtain ⟨hppid, -, -⟩ := deliver_spec u (List.range TASK_MAX_SIGNALS)
  split
  · rename_i hdead
    exact ⟨_, h.terminate ht (if_pos hdead)⟩
  · rename_i hdead
    refine h.keeps (.setTask ht ?_)
    rw [Task.status_eq_none.mpr hdead, ← hwake, Task.status_eq_none.mpr hlive]

theorem tickFrom_accounted (h : Accounted k₀ k ev) (hs : tickFrom n k a = some k') :
    ∃ ev, Accounted k₀ k' ev := by
  induction n generalizing k a ev with
  | zero => cases hs
  | succ n ih =>
    rw [tickFrom] at hs
    obtain ⟨t, ht, hs⟩ := Option.bind_eq_some_iff.mp hs
    obtain ⟨ev₁, h₁⟩ := tickTask_accounted h ht
    dsimp only at hs
    split at hs
    · cases hs
      exact ⟨ev₁, h₁⟩
    · exact ih h₁ hs

theorem schedulerTick_accounted (h : Accounted k₀ k ev) (hs : schedulerTick k = some k') :
    ∃ ev, Accounted k₀ k' ev := by
  rw [schedulerTick] at hs
  have hticks : Accounted k₀ { k with gTicks := k.gTicks + 1 } ev :=
    ⟨h.known, h.events, h.trace, h.live, h.gone, h.fresh⟩
  dsimp only at hs
  split at hs
  · cases hs
    exact ⟨ev, hticks⟩
  · exact tickFrom_accounted hticks hs

theorem exitTask_accounted (h : Accounted k₀ k ev) (hs : exitTask k code = some k') :
    ∃ ev, Accounted k₀ k' ev := by
  rw [exitTask] at hs
  split at hs
  · cases hs
    exact ⟨ev, h⟩
  dsimp only at hs
  obtain ⟨t, ht, hs⟩ := Option.bind_eq_some_iff.mp hs
  cases hs
  obtain ⟨ev₁, h₁⟩ := h.keeps (taskFdCloseAll_quiet k k.gCurrent).keepsCodes
  exact ⟨_, h₁.terminate ht rfl⟩

theorem sysExit_accounted (h : Accounted k₀ k ev) (hs : sysExit k code = some k') :
    ∃ ev, Accounted k₀ k' ev := by
  rw [sysExit] at hs
  obtain ⟨k₁, h₁, hs⟩ := Option.bind_eq_some_iff.mp hs
  obtain ⟨ev₁, h₁⟩ := exitTask_accounted h h₁
  cases hs
  split
  · exact ⟨ev₁, h₁.known, h₁.events, h₁.trace, h₁.live, h₁.gone, h₁.fresh⟩
  · exact ⟨ev₁, h₁.known, h₁.events, h₁.trace, h₁.live, h₁.gone, h₁.fresh⟩

theorem sysKill_accounted (h : Accounted k₀ k ev) (hs : sysKill k pid sig = some (r, k')) :
    ∃ ev, Accounted k₀ k' ev := by
  rw [sysKill] at hs
  obtain ⟨target, -, hs⟩ := Option.bind_eq_some_iff.mp hs
  split at hs
  · cases hs
    exact ⟨ev, h⟩
  obtain ⟨t, ht, hs⟩ := Option.bind_eq_some_iff.mp hs
  split at hs
  · cases hs
    exact ⟨_, h.terminate ht rfl⟩
  split at hs
  · cases hs
    exact h.keeps (.setTask ht rfl)
  · cases hs
    exact ⟨ev, h⟩

theorem sysWait_accounted (h : Accounted k₀ k ev) (hs : sysWait k = some (r, k')) :
    ∃ ev, Accounted k₀ k' ev := by
  obtain rfl | ⟨a, t, k₁, ht, hd, hq, rfl⟩ := sysWait_spec hs
  · exact ⟨ev, h⟩
  · exact h.deliver ht hd hq

theorem sysSignal_accounted (h : Accounted k₀ k ev) (hs : sysSignal k sig handler = some (r, k')) :
    ∃ ev, Accounted k₀ k' ev := by
  rw [sysSignal] at hs
  split at hs
  · cases hs
    exact ⟨ev, h⟩
  obtain ⟨t, ht, hs⟩ := Option.bind_eq_some_iff.mp hs
  cases hs
  exact h.keeps (.setTask ht rfl)

-- ---------------------------------------------------------------------------
-- schedule
-- ---------------------------------------------------------------------------

def NoneCleaned (k : KernelState) : Prop :=
  ∀ a b, k.Behind a → ¬k.IdleTask a → ReflTransGen k.Succ a b → b ≠ k.gCurrent → k.status b = none

/-- The step frees no terminated task, and does not make one ready or put it to sleep. -/
def KeepsZombies (k : KernelState) : SchedAct → Prop
  | .schedule => NoneCleaned k ∧
      (k.status k.gCurrent ≠ none → ∀ a, k.Behind a → k.IdleTask a)
  | .sleep _ => NoneCleaned k ∧ k.status k.gCurrent = none
  | _ => True

theorem KernelState.status_of_some (h : k.tasks a = some t) : k.status a = t.status := by
  rw [KernelState.status, h]
  rfl

theorem cleanUp_eq (h : cleanUp k.gCurrent n k scan = some k')
    (hall : ∀ b, ReflTransGen k.Succ scan b → b ≠ k.gCurrent → k.status b = none) : k' = k := by
  induction n generalizing scan with
  | zero => cases h
  | succ n ih =>
    rw [cleanUp] at h
    split at h
    · cases h
      rfl
    rename_i hne
    obtain ⟨t, ht, h⟩ := Option.bind_eq_some_iff.mp h
    have hlive := Task.status_eq_none.mp ((k.status_of_some ht).symm.trans (hall scan .refl hne))
    rw [if_neg hlive] at h
    exact ih h fun b hb => hall b (.head ⟨hne, t, ht, rfl⟩ hb)

theorem schedule_accounted (h : Accounted k₀ k ev) (hok : KeepsZombies k .schedule)
    (hs : schedule k = some k') : ∃ ev, Accounted k₀ k' ev := by
  rw [schedule] at hs
  split at hs
  · cases hs
    exact ⟨ev, h⟩
  obtain ⟨s, hstart, hs⟩ := Option.bind_eq_some_iff.mp hs
  obtain ⟨next, hnext, hs⟩ := Option.bind_eq_some_iff.mp hs
  obtain ⟨k₁, hclean, hs⟩ := Option.bind_eq_some_iff.mp hs
  by_cases hne : next = k.gCurrent
  · have hk : k₁ = k := by
      rw [hne] at hclean
      rw [KernelState.rounds, cleanUp, if_pos rfl] at hclean
      exact (Option.some.inj hclean).symm
    subst hk
    rw [if_pos hne] at hs
    obtain ⟨t, -, hs⟩ := Option.bind_eq_some_iff.mp hs
    cases hs
    split
    · exact ⟨ev, h.known, h.events, h.trace, h.live, h.gone, h.fresh⟩
    · exact h.keeps (.emit _ trivial)
  · obtain ⟨hreach, t, ht, hrun⟩ := skipIdle_spec hnext hne
    have hbehind : k.Behind next := ⟨hne, s, hstart, hreach⟩
    have hidle : ¬k.IdleTask next := by
      rintro ⟨u, hu, hidle⟩
      cases ht.symm.trans hu
      exact hrun hidle
    cases cleanUp_eq hclean fun b hb hne => hok.1 next b hbehind hidle hb hne
    have hlive : s.status = none := by
      rw [← k.status_of_some hstart]
      exact Decidable.not_not.mp fun hd => hidle (hok.2 hd next hbehind)
    rw [if_neg hne, switchTo] at hs
    obtain ⟨p, hp, hs⟩ := Option.bind_eq_some_iff.mp hs
    obtain ⟨n, hn, hs⟩ := Option.bind_eq_some_iff.mp hs
    cases hs
    cases hstart.symm.trans hp
    have htn := (KernelState.setTask_of_ne _ _ hne).symm.trans hn
    cases ht.symm.trans htn
    have hready : Task.status { s with state := .ready } = s.status :=
      (Task.status_of_state (s := .ready) rfl (by decide)).trans hlive.symm
    have hrunning : Task.status { t with state := .running } = t.status :=
      (Task.status_of_state (s := .running) rfl (by decide)).trans
        (Task.status_eq_none.mpr fun hd => hrun (.inl hd)).symm
    obtain ⟨ev₁, h₁⟩ := h.keeps ((KeepsCodes.setTask hstart hready).trans
      ((KeepsCodes.setTask hn hrunning).trans (.emit (e := .runs next k.gTicks) _ trivial)))
    exact ⟨ev₁, h₁.known, h₁.events, h₁.trace, h₁.live, h₁.gone, h₁.fresh⟩

theorem KernelState.setTask_status_of_ne (k : KernelState) (t : Task) (h : b ≠ a) :
    (k.setTask a t).status b = k.status b := by
  rw [KernelState.status, KernelState.setTask_of_ne _ _ h, KernelState.status]

theorem KernelState.setTask_succ (k : KernelState) (t : Task) :
    (k.setTask k.gCurrent t).Succ = k.Succ := by
  funext a b
  refine propext ⟨fun ⟨ha, u, hu, hb⟩ => ?_, fun ⟨ha, u, hu, hb⟩ => ?_⟩
  · exact ⟨ha, u, (KernelState.setTask_of_ne _ _ ha).symm.trans hu, hb⟩
  · exact ⟨ha, u, (KernelState.setTask_of_ne _ _ ha).trans hu, hb⟩

theorem NoneCleaned.setTask (h : NoneCleaned k) (ht : k.tasks k.gCurrent = some t)
    (hn : t'.next = t.next) : NoneCleaned (k.setTask k.gCurrent t') := by
  intro a b ⟨hne, u, hu, hreach⟩ hidle hab hb
  cases (KernelState.setTask_self ..).symm.trans hu
  rw [k.setTask_succ] at hreach hab
  refine (k.setTask_status_of_ne _ hb).trans ?_
  refine h a b ⟨hne, t, ht, hn ▸ hreach⟩ (fun ⟨v, hv, hi⟩ => hidle ⟨v, ?_, hi⟩) hab hb
  exact (KernelState.setTask_of_ne _ _ hne).trans hv

theorem taskSleep_accounted (h : Accounted k₀ k ev) (hok : KeepsZombies k (.sleep ms))
    (hs : taskSleep k ms = some k') : ∃ ev, Accounted k₀ k' ev := by
  rw [taskSleep] at hs
  split at hs
  · cases hs
    exact ⟨ev, h⟩
  obtain ⟨t, ht, hs⟩ := Option.bind_eq_some_iff.mp hs
  dsimp only at hs
  generalize k.gTicks + _ = wake at hs
  obtain ⟨hclean, hlive⟩ := hok
  rw [k.status_of_some ht] at hlive
  have hasleep : Task.status { t with wakeTick := wake, state := .sleeping } = none :=
    Task.status_of_state (s := .sleeping) rfl (by decide)
  obtain ⟨ev₁, h₁⟩ := h.keeps ((KeepsCodes.setTask ht (hasleep.trans hlive.symm)).trans
    (.emit (e := .slept k.gCurrent wake) _ trivial))
  have hclean : NoneCleaned
      (k.setTask k.gCurrent { t with wakeTick := wake, state := .sleeping }) :=
    hclean.setTask ht rfl
  refine schedule_accounted h₁ ⟨hclean, fun hd => absurd ?_ hd⟩ hs
  exact (KernelState.status_of_some (KernelState.setTask_self ..)).trans hasleep

theorem schedStep_accounted (h : Accounted k₀ k ev) (hok : KeepsZombies k a)
    (hs : schedStep k a k') : ∃ ev, Accounted k₀ k' ev := by
  obtain ⟨-, hs⟩ := hs
  cases a with
  | create frames =>
    rw [schedAct] at hs
    split at hs
    · obtain ⟨⟨pid, k₁⟩, h₁, rfl⟩ := Option.map_eq_some_iff.mp hs
      exact taskCreate_accounted h h₁
    · cases hs
      exact ⟨ev, h⟩
  | fork frames mem =>
    obtain ⟨⟨r, k₁⟩, h₁, rfl⟩ := Option.map_eq_some_iff.mp hs
    exact sysFork_accounted h h₁
  | tick => exact schedulerTick_accounted h hs
  | schedule => exact schedule_accounted h hok hs
  | sleep ms => exact taskSleep_accounted h hok hs
  | exit code => exact sysExit_accounted h hs
  | kill pid sig =>
    obtain ⟨⟨r, k₁⟩, h₁, rfl⟩ := Option.map_eq_some_iff.mp hs
    exact sysKill_accounted h h₁
  | wait =>
    obtain ⟨⟨r, k₁⟩, h₁, rfl⟩ := Option.map_eq_some_iff.mp hs
    exact sysWait_accounted h h₁
  | signal sig handler =>
    obtain ⟨⟨r, k₁⟩, h₁, rfl⟩ := Option.map_eq_some_iff.mp hs
    exact sysSignal_accounted h h₁

/-- Where `schedule` neither frees a terminated task nor leaves one for another, every code
goes to one `SYS_WAIT` of the parent, or is still to be had. -/
theorem codes_kept (hk : Known k₀) (h : Run schedStep KeepsZombies k₀ as k) : CodesKept k₀ k := by
  obtain ⟨ev, hev⟩ := h.invariant (fun k => ∃ ev, Accounted k₀ k ev) ⟨[], accounted_init hk⟩
    fun k a k' ⟨ev, hev⟩ hok hs => schedStep_accounted hev hok hs
  exact hev.codesKept

def twoChildren : KernelState where
  tasks a :=
    if a = 1 then some ⟨1, 0, .running, 0, 0, fun _ => .free, fun _ => ⟨0, 0, 0⟩, 2⟩
    else if a = 2 then some ⟨2, 1, .ready, 0, 0, fun _ => .free, fun _ => ⟨0, 0, 0⟩, 3⟩
    else if a = 3 then some ⟨3, 1, .ready, 0, 0, fun _ => .free, fun _ => ⟨0, 0, 0⟩, 1⟩
    else none
  nextTask := 4
  gCurrent := 1
  gNextPid := 4
  gTicks := 0
  gElfRetRip := 0x101000
  halted := false
  files _ := none
  nextFile := 1
  gPipes _ := ⟨0, 0, 0, 0, false⟩
  events := []

theorem twoChildren_known : Known twoChildren := by
  intro a t h
  have ha : a = 1 ∨ a = 2 ∨ a = 3 := by
    rw [twoChildren] at h
    dsimp only at h
    split at h
    · exact .inl ‹_›
    split at h
    · exact .inr (.inl ‹_›)
    split at h
    · exact .inr (.inr ‹_›)
    · cases h
  rw [twoChildren]
  dsimp only
  omega

/-- The parent kills both children and has the code of each. -/
theorem codes_kept_twoChildren :
    ∃ k, Run schedStep KeepsZombies twoChildren [.kill 2 9, .kill 3 9, .wait, .wait] k ∧
      CodesKept twoChildren k := by
  have hrun : Run schedStep KeepsZombies twoChildren [.kill 2 9, .kill 3 9, .wait, .wait] _ :=
    .cons trivial ⟨rfl, rfl⟩ (.cons trivial ⟨rfl, rfl⟩ (.cons trivial ⟨rfl, rfl⟩
      (.cons trivial ⟨rfl, rfl⟩ .nil)))
  exact ⟨_, hrun, codes_kept twoChildren_known hrun⟩

/-- The parent kills the first child, and the second one's `schedule` frees it. -/
theorem zombie_cleaned_up :
    ¬∀ k₀ as k, Known k₀ → Run schedStep (fun _ _ => True) k₀ as k → CodesKept k₀ k := by
  intro h
  have hrun : Run schedStep (fun _ _ => True) twoChildren [.kill 2 9, .schedule, .schedule] _ :=
    .cons trivial ⟨rfl, rfl⟩ (.cons trivial ⟨rfl, rfl⟩ (.cons trivial ⟨rfl, rfl⟩ .nil))
  obtain ⟨ev, he, hev, -⟩ := h _ _ _ twoChildren_known hrun
  have he : ev = [.terminated 2 1 (-9), .runs 3 0] ++ .freed 2 :: [.runs 1 0] := he.symm
  obtain ⟨s, -, hw⟩ := hev _ _ _ he 2 rfl
  cases hw

end EponaOS.Kernel
