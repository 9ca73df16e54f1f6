import EponaOS.Kernel.TaskRing

/-!
# Signals

A tick goes over the whole ring once. In each task the signals that are pending and not masked
are delivered in turn, up to the first one that terminates it: SIGKILL, or SIGINT or SIGTERM
with a handler. The last test is the wrong way round, as it is without a handler that these two
have to terminate.
-/

namespace EponaOS.Kernel

open Function (update)

variable {k k' : KernelState} {t t₁ t' : Task}

def Task.Up (t : Task) (s : Nat) : Prop := (t.signals s).pending ≠ 0 ∧ (t.signals s).mask = 0

def Task.Handled (t : Task) (s : Nat) : Prop := (t.signals s).handler ≠ 0

/-- The signal can terminate a task without a handler for it, and is not SIGKILL. -/
def Interrupts (s : Nat) : Prop := s = SIGINT ∨ s = SIGTERM

def Task.KilledBy (t : Task) (s : Nat) : Prop := t.state = .terminated ∧ t.exitCode = -s

def Delivered (t t' : Task) (s : Nat) : Prop :=
  s < TASK_MAX_SIGNALS ∧ t.Up s ∧ ∀ r < s, ¬ t'.KilledBy r

/-- What the numbers of the signals stand for, between a live task `t` and `t'` behind the tick. -/
structure ActsAsDocumented (t t' : Task) : Prop where
  terminated : t'.state = .terminated ↔
    t.Up SIGKILL ∨ ∃ s, Interrupts s ∧ t.Up s ∧ ¬ t.Handled s
  handled : ∀ s, Interrupts s → t.Handled s → ¬ t'.KilledBy s
  cleared : ∀ s, Delivered t t' s → (t'.signals s).pending = 0
  kept : ∀ s, ¬ Delivered t t' s → (t'.signals s).pending = (t.signals s).pending

/-- Every live task is still there, and its signals acted as documented. -/
def SignalsAct (k k' : KernelState) : Prop :=
  ∀ a t, k.tasks a = some t → t.state ≠ .terminated →
    ∃ t', k'.tasks a = some t' ∧ ActsAsDocumented t t'

/-- SIGKILL is delivered, or none of the three signals is up. -/
def Task.Spared (t : Task) : Prop :=
  (t.Up SIGKILL ∧ ¬ (t.Up SIGINT ∧ t.Handled SIGINT)) ∨
    ¬ t.Up SIGKILL ∧ ¬ t.Up SIGINT ∧ ¬ t.Up SIGTERM

-- ---------------------------------------------------------------------------
-- One task
-- ---------------------------------------------------------------------------

/-- The test of `scheduler_tick`. -/
def Task.Fatal (t : Task) (s : Nat) : Prop :=
  t.Up s ∧ (s = SIGKILL ∨ (t.Handled s ∧ Interrupts s))

/-- `t'` comes from `t`, where the signals for which `p` holds were cleared. -/
def ClearedWhere (p : Nat → Prop) (t t' : Task) : Prop :=
  ∀ s, (p s → (t'.signals s).pending = 0) ∧ (¬ p s → t'.signals s = t.signals s)

theorem up_congr (h : t'.signals s = t.signals s) : t'.Up s ↔ t.Up s := by
  rw [Task.Up, Task.Up, h]

theorem fatal_congr (h : t'.signals s = t.signals s) : t'.Fatal s ↔ t.Fatal s := by
  rw [Task.Fatal, Task.Fatal, up_congr h, Task.Handled, Task.Handled, h]

def Task.clear (t : Task) (s : Nat) : Task :=
  { t with signals := update t.signals s { t.signals s with pending := 0 } }

theorem clear_self : (t.clear s).signals s = { t.signals s with pending := 0 } :=
  Function.update_self ..

theorem clear_of_ne (h : r ≠ s) : (t.clear s).signals r = t.signals r := Function.update_of_ne h ..

theorem deliver_of_not_up (h : ¬ t.Up s) : deliver t (s :: rest) = deliver t rest := if_neg h

theorem deliver_of_fatal (h : t.Fatal s) :
    deliver t (s :: rest) = { t.clear s with state := .terminated, exitCode := -s } := by
  obtain ⟨hup, hs⟩ := h
  rw [deliver]
  refine (if_pos hup).trans ?_
  dsimp only
  split
  · next hkill =>
    subst hkill
    rfl
  · next hkill =>
    exact if_pos (hs.resolve_left hkill)

theorem deliver_of_up (h : t.Up s) (hf : ¬ t.Fatal s) :
    deliver t (s :: rest) = deliver (t.clear s) rest := by
  rw [deliver]
  refine (if_pos h).trans ?_
  rw [if_neg fun hkill => hf ⟨h, .inl hkill⟩]
  exact if_neg fun hs => hf ⟨h, .inr hs⟩

theorem ClearedWhere.none (h : ∀ s, ¬ p s) : ClearedWhere p t t :=
  fun s => ⟨fun hs => absurd hs (h s), fun _ => rfl⟩

theorem ClearedWhere.clear (h : ClearedWhere p (t.clear s) t') (hs : ¬ p s) (hq : q s)
    (hpq : ∀ r, r ≠ s → (q r ↔ p r)) : ClearedWhere q t t' := by
  intro r
  by_cases hr : r = s
  · subst hr
    refine ⟨fun _ => ?_, fun hn => absurd hq hn⟩
    rw [(h r).2 hs, clear_self]
  · rw [hpq r hr, ← clear_of_ne (t := t) hr]
    exact h r

theorem ClearedWhere.congr (h : ClearedWhere p t t') (hpq : ∀ r, q r ↔ p r) :
    ClearedWhere q t t' := fun r => by
  rw [hpq r]
  exact h r

/-- The loop over `signals` clears all that are up, or those up to the first one that is fatal. -/
inductive Delivery (t : Task) (signals : List Nat) (t' : Task) : Prop
  | all (hnone : ∀ s ∈ signals, ¬ t.Fatal s) (hstate : t'.state = t.state)
      (hclear : ClearedWhere (fun s => s ∈ signals ∧ t.Up s) t t')
  | killed (s : Nat) (hs : s ∈ signals) (hfatal : t.Fatal s)
      (hbefore : ∀ r ∈ signals, r < s → ¬ t.Fatal r) (hkilled : t'.KilledBy s)
      (hclear : ClearedWhere (fun r => r ∈ signals ∧ r ≤ s ∧ t.Up r) t t')

theorem Delivery.skip (h : Delivery t rest t') (hup : ¬ t.Up s) : Delivery t (s :: rest) t' := by
  have hfatal : ¬ t.Fatal s := fun h => hup h.1
  have hmem : ∀ r, t.Up r → (r ∈ s :: rest ↔ r ∈ rest) := fun r hr =>
    ⟨List.mem_of_ne_of_mem fun hrs => hup (hrs ▸ hr), List.mem_cons_of_mem s⟩
  cases h with
  | all hnone hstate hclear =>
    refine .all (fun r hr => ?_) hstate (hclear.congr fun r => and_congr_left (hmem r))
    obtain rfl | hr := List.mem_cons.mp hr
    · exact hfatal
    · exact hnone r hr
  | killed f hf hff hbefore hkilled hclear =>
    refine .killed f (List.mem_cons_of_mem s hf) hff (fun r hr hrf => ?_) hkilled
      (hclear.congr fun r => and_congr_left fun hr => hmem r hr.2)
    obtain rfl | hr := List.mem_cons.mp hr
    · exact hfatal
    · exact hbefore r hr hrf

theorem Delivery.cons (h : Delivery (t.clear s) rest t') (hlt : ∀ r ∈ rest, s < r) (hup : t.Up s)
    (hfatal : ¬ t.Fatal s) : Delivery t (s :: rest) t' := by
  have hold : ∀ r, r ≠ s → (t.clear s).signals r = t.signals r := fun r hr => clear_of_ne hr
  have hne : ∀ r ∈ rest, r ≠ s := fun r hr => Nat.ne_of_gt (hlt r hr)
  have hcons : ∀ r, r ≠ s → (r ∈ s :: rest ↔ r ∈ rest) := fun r hr =>
    ⟨List.mem_of_ne_of_mem hr, List.mem_cons_of_mem s⟩
  have hs : s ∉ rest := fun h => hne s h rfl
  cases h with
  | all hnone hstate hclear =>
    refine .all (fun r hr => ?_) hstate (hclear.clear (fun h => hs h.1) ⟨List.mem_cons_self, hup⟩
      fun r hr => ?_)
    · obtain rfl | hr := List.mem_cons.mp hr
      · exact hfatal
      · exact fun h => hnone r hr ((fatal_congr (hold r (hne r hr))).mpr h)
    · rw [hcons r hr, up_congr (hold r hr)]
  | killed f hf hff hbefore hkilled hclear =>
    refine .killed f (List.mem_cons_of_mem s hf) ((fatal_congr (hold f (hne f hf))).mp hff)
      (fun r hr hrf => ?_) hkilled (hclear.clear (fun h => hs h.1)
        ⟨List.mem_cons_self, Nat.le_of_lt (hlt f hf), hup⟩ fun r hr => ?_)
    · obtain rfl | hr := List.mem_cons.mp hr
      · exact hfatal
      · exact fun h => hbefore r hr hrf ((fatal_congr (hold r (hne r hr))).mpr h)
    · rw [hcons r hr, up_congr (hold r hr)]

theorem Delivery.stop (hlt : ∀ r ∈ rest, s < r) (hfatal : t.Fatal s) :
    Delivery t (s :: rest) { t.clear s with state := .terminated, exitCode := -s } := by
  have hclear : ClearedWhere (fun _ => False) (t.clear s)
      { t.clear s with state := .terminated, exitCode := -(s : Int) } :=
    fun r => ⟨False.elim, fun _ => rfl⟩
  refine .killed s List.mem_cons_self hfatal (fun r hr hrs => ?_) ⟨rfl, rfl⟩
    (hclear.clear not_false ⟨List.mem_cons_self, Nat.le_refl s, hfatal.1⟩ fun r hr => ?_)
  · obtain rfl | hr := List.mem_cons.mp hr
    · exact absurd hrs (Nat.lt_irrefl _)
    · exact absurd (hlt r hr) (Nat.lt_asymm hrs)
  · refine iff_of_false (fun h => ?_) not_false
    have := hlt r (List.mem_of_ne_of_mem hr h.1)
    omega

theorem deliver_delivery {signals : List Nat} (hsorted : signals.Pairwise (· < ·)) :
    Delivery t signals (deliver t signals) := by
  induction signals generalizing t with
  | nil => exact .all (by simp) rfl (.none (by simp))
  | cons s rest ih =>
    obtain ⟨hlt, hsorted⟩ := List.pairwise_cons.mp hsorted
    by_cases hup : t.Up s
    · by_cases hfatal : t.Fatal s
      · rw [deliver_of_fatal hfatal]
        exact .stop hlt hfatal
      · rw [deliver_of_up hup hfatal]
        exact (ih hsorted).cons hlt hup hfatal
    · rw [deliver_of_not_up hup]
      exact (ih hsorted).skip hup

theorem killedBy_iff (h : t.KilledBy s) : t.KilledBy r ↔ r = s := by
  constructor
  · intro hr
    have := h.2.symm.trans hr.2
    omega
  · rintro rfl
    exact h

theorem ClearedWhere.delivered (h : ClearedWhere p t t') (hp : ∀ s, Delivered t t' s ↔ p s) :
    (∀ s, Delivered t t' s → (t'.signals s).pending = 0) ∧
      ∀ s, ¬ Delivered t t' s → (t'.signals s).pending = (t.signals s).pending := by
  refine ⟨fun s hs => (h s).1 ((hp s).mp hs), fun s hs => ?_⟩
  rw [(h s).2 fun hps => hs ((hp s).mpr hps)]

theorem deliver_acts_iff (hlive : t.state ≠ .terminated) :
    ActsAsDocumented t (deliver t (List.range TASK_MAX_SIGNALS)) ↔ t.Spared := by
  have hmem : ∀ {s}, s = SIGKILL ∨ Interrupts s → s ∈ List.range TASK_MAX_SIGNALS := by
    intro s hs
    rw [List.mem_range]
    obtain rfl | rfl | rfl := hs <;> decide
  have hdelivery := deliver_delivery (t := t) (List.pairwise_lt_range (n := TASK_MAX_SIGNALS))
  generalize deliver t _ = t' at *
  cases hdelivery with
  | all hnone hstate hclear =>
    have hlive' : t'.state ≠ .terminated := hstate ▸ hlive
    have hkill : ¬ t.Up SIGKILL := fun h => hnone _ (hmem (.inl rfl)) ⟨h, .inl rfl⟩
    have hhandled : ∀ s, Interrupts s → t.Up s → ¬ t.Handled s := fun s hs hup hh =>
      hnone s (hmem (.inr hs)) ⟨hup, .inr ⟨hh, hs⟩⟩
    constructor
    · intro h
      have hno : ∀ s, Interrupts s → ¬ t.Up s := fun s hs hup =>
        hlive' (h.terminated.mpr (.inr ⟨s, hs, hup, hhandled s hs hup⟩))
      exact .inr ⟨hkill, hno _ (.inl rfl), hno _ (.inr rfl)⟩
    · intro h
      obtain ⟨h, -⟩ | ⟨-, hint, hterm⟩ := h
      · exact absurd h hkill
      obtain ⟨hcleared, hkept⟩ := hclear.delivered fun s => by
        rw [Delivered, List.mem_range]
        exact ⟨fun h => ⟨h.1, h.2.1⟩, fun h => ⟨h.1, h.2, fun r _ hr => hlive' hr.1⟩⟩
      refine ⟨iff_of_false hlive' ?_, fun s _ _ hr => hlive' hr.1, hcleared, hkept⟩
      rintro (h | ⟨s, rfl | rfl, hup, -⟩)
      · exact hkill h
      · exact hint hup
      · exact hterm hup
  | killed s hs hfatal hbefore hkilled hclear =>
    obtain ⟨hup, rfl | ⟨hhandled, hint⟩⟩ := hfatal
    · obtain ⟨hcleared, hkept⟩ := hclear.delivered fun r => by
        rw [Delivered, List.mem_range]
        refine ⟨fun h => ⟨h.1, ?_, h.2.1⟩, fun h => ⟨h.1, h.2.2, fun q hq hkq => ?_⟩⟩
        · exact Nat.le_of_not_lt fun hlt => h.2.2 SIGKILL hlt hkilled
        · obtain rfl := (killedBy_iff hkilled).mp hkq
          exact absurd hq (Nat.not_lt.mpr h.2.1)
      refine iff_of_true ⟨iff_of_true hkilled.1 (.inl hup), fun r hr _ hkr => ?_, hcleared, hkept⟩
        (.inl ⟨hup, fun h => ?_⟩)
      · obtain rfl := (killedBy_iff hkilled).mp hkr
        obtain h | h := hr <;> cases h
      · exact hbefore SIGINT (hmem (.inr (.inl rfl))) (by decide) ⟨h.1, .inr ⟨h.2, .inl rfl⟩⟩
    · -- the handler is there, and the signal terminated the task
      refine iff_of_false (fun h => h.handled s hint hhandled hkilled) ?_
      rintro (⟨hkill, hno⟩ | ⟨-, hnint, hnterm⟩)
      · obtain rfl | rfl := hint
        · exact hno ⟨hup, hhandled⟩
        · exact hbefore SIGKILL (hmem (.inl rfl)) (by decide) ⟨hkill, .inl rfl⟩
      · obtain rfl | rfl := hint
        · exact hnint hup
        · exact hnterm hup

theorem wakeUp_signals (now : Nat) (t : Task) : (wakeUp now t).signals = t.signals := by
  rw [wakeUp]
  split <;> rfl

theorem wakeUp_terminated (now : Nat) (t : Task) :
    (wakeUp now t).state = .terminated ↔ t.state = .terminated := by
  rw [wakeUp]
  split
  · next h => simp [h.1]
  · exact Iff.rfl

theorem acts_congr (h : t₁.signals = t.signals) :
    ActsAsDocumented t₁ t' ↔ ActsAsDocumented t t' := by
  obtain ⟨⟩ := t₁
  obtain ⟨⟩ := t
  dsimp only at h
  subst h
  exact ⟨fun h => ⟨h.1, h.2, h.3, h.4⟩, fun h => ⟨h.1, h.2, h.3, h.4⟩⟩

theorem spared_congr (h : t₁.signals = t.signals) : t₁.Spared ↔ t.Spared := by
  obtain ⟨⟩ := t₁
  obtain ⟨⟩ := t
  dsimp only at h
  subst h
  exact Iff.rfl

-- ---------------------------------------------------------------------------
-- The ring
-- ---------------------------------------------------------------------------

def ticked (now : Nat) (t : Task) : Task :=
  if (wakeUp now t).state = .terminated then wakeUp now t
  else deliver (wakeUp now t) (List.range TASK_MAX_SIGNALS)

theorem ticked_acts_iff (hlive : t.state ≠ .terminated) :
    ActsAsDocumented t (ticked now t) ↔ t.Spared := by
  have hwake : (wakeUp now t).state ≠ .terminated := (wakeUp_terminated now t).not.mpr hlive
  rw [ticked, if_neg hwake, ← acts_congr (wakeUp_signals now t), deliver_acts_iff hwake,
    spared_congr (wakeUp_signals now t)]

theorem tickTask_eq (k : KernelState) (a : Nat) (t : Task) :
    (tickTask k a t).tasks = (k.setTask a (ticked k.gTicks t)).tasks ∧
      (tickTask k a t).gTicks = k.gTicks := by
  rw [tickTask, ticked]
  dsimp only
  split
  · exact ⟨rfl, rfl⟩
  · split
    · exact ⟨rfl, rfl⟩
    · exact ⟨rfl, rfl⟩

theorem tickFrom_tasks (h : Leads k.link a (a :: l) k.gCurrent) (hnodup : (a :: l).Nodup)
    (hg : k.gCurrent ∉ l) (he : tickFrom n k a = some k') :
    (∀ b ∈ a :: l, k'.tasks b = (k.tasks b).map (ticked k.gTicks)) ∧
      ∀ b, b ∉ a :: l → k'.tasks b = k.tasks b := by
  induction n generalizing k a l with
  | zero => cases he
  | succ n ih =>
    obtain ⟨-, y, hy, h⟩ := h
    obtain ⟨t, ht, rfl⟩ := Option.map_eq_some_iff.mp hy
    have hs := tickTask_still ht
    obtain ⟨htasks, hticks⟩ := tickTask_eq k a t
    have hself : (tickTask k a t).tasks a = (k.tasks a).map (ticked k.gTicks) := by
      rw [htasks, KernelState.setTask_self, ht]
      rfl
    have hother : ∀ b, b ≠ a → (tickTask k a t).tasks b = k.tasks b := fun b hb => by
      rw [htasks, KernelState.setTask_of_ne k _ hb]
    rw [tickFrom, ht] at he
    simp only [Option.bind_eq_bind, Option.bind_some, hs.current] at he
    cases l with
    | nil =>
      have hend : t.next = k.gCurrent := h
      rw [if_pos hend] at he
      cases he
      refine ⟨fun b hb => ?_, fun b hb => hother b fun heq => hb (heq ▸ List.mem_cons_self)⟩
      rw [List.mem_singleton.mp hb, hself]
    | cons c l =>
      obtain rfl := h.1
      have hend : t.next ≠ k.gCurrent := fun heq => hg (heq ▸ List.mem_cons_self)
      rw [if_neg hend] at he
      obtain ⟨ha, hnodup⟩ := List.nodup_cons.mp hnodup
      obtain ⟨hin, hout⟩ := ih (k := tickTask k a t) (by rwa [hs.link, hs.current]) hnodup
        (by rw [hs.current]; exact fun hm => hg (List.mem_cons_of_mem _ hm)) he
      refine ⟨fun b hb => ?_, fun b hb => ?_⟩
      · obtain rfl | hb := List.mem_cons.mp hb
        · rw [hout b ha, hself]
        · rw [hin b hb, hother b fun heq => ha (heq ▸ hb), hticks]
      · rw [hout b fun hm => hb (List.mem_cons_of_mem a hm),
          hother b fun heq => hb (heq ▸ List.mem_cons_self)]

theorem OnRing.tick_tasks (h : OnRing k l) : ∃ k', schedulerTick k = some k' ∧
    ∀ a, k'.tasks a = (k.tasks a).map (ticked (k.gTicks + 1)) := by
  have htick : Still k { k with gTicks := k.gTicks + 1 } :=
    ⟨rfl, rfl, rfl, [], (List.append_nil _).symm, fun _ => List.not_mem_nil⟩
  have hring := h.still htick
  obtain ⟨k', he, -⟩ := h.tick
  refine ⟨k', he, fun a => ?_⟩
  rw [schedulerTick, if_neg h.current_ne_zero] at he
  obtain ⟨hin, hout⟩ := tickFrom_tasks hring.cycle.leads hring.cycle.nodup
    (List.nodup_cons.mp hring.cycle.nodup).1 he
  by_cases hmem : a ∈ k.gCurrent :: l
  · exact hin a hmem
  · have hnone : k.tasks a = none := Option.eq_none_iff_forall_ne_some.mpr fun t ht =>
      hmem (h.all a ⟨t, ht⟩)
    rw [hout a hmem]
    exact hnone.trans (by rw [hnone]; rfl)

/-- A tick does with the signals what their numbers stand for if and only if in every live task
SIGKILL is delivered, or none of SIGKILL, SIGINT and SIGTERM is up. -/
theorem signals_act_iff (h : OnRing k l) : ∃ k', schedulerTick k = some k' ∧
    (SignalsAct k k' ↔
      ∀ a t, k.tasks a = some t → t.state ≠ .terminated → t.Spared) := by
  obtain ⟨k', he, htasks⟩ := h.tick_tasks
  refine ⟨k', he, fun hacts a t ht hlive => ?_, fun hspared a t ht hlive => ?_⟩
  · obtain ⟨t', ht', hacts⟩ := hacts a t ht hlive
    rw [htasks, ht] at ht'
    cases ht'
    exact (ticked_acts_iff hlive).mp hacts
  · refine ⟨ticked (k.gTicks + 1) t, ?_, (ticked_acts_iff hlive).mpr (hspared a t ht hlive)⟩
    rw [htasks, ht]
    rfl

def signalled (sig : Nat) : KernelState where
  tasks a := if a = 1 then some ⟨1, 0, .running, 0, 0, fun _ => .free,
    fun s => ⟨0, if s = sig then 1 else 0, 0⟩, 1⟩ else none
  nextTask := 2
  gCurrent := 1
  gNextPid := 2
  gTicks := 0
  gElfRetRip := 0x101000
  halted := false
  files _ := none
  nextFile := 1
  gPipes _ := ⟨0, 0, 0, 0, false⟩
  events := []

theorem signalled_ring (sig : Nat) : OnRing (signalled sig) [] := by
  have hlive : ∀ a, (signalled sig).Live a → a = 1 := by
    rintro a ⟨t, ht⟩
    rw [signalled] at ht
    dsimp only at ht
    split at ht
    · assumption
    · cases ht
  refine ⟨⟨by simp, rfl, 1, rfl, rfl⟩, fun a ha => ?_, fun a ha => ?_, fun ha => ?_⟩
  · rw [hlive a ha]
    exact List.mem_cons_self
  · rw [hlive a ha]
    exact Nat.lt_add_one 1
  · cases hlive 0 ha

theorem signals_act_iff_killed : ∃ k', schedulerTick (signalled SIGKILL) = some k' ∧
    SignalsAct (signalled SIGKILL) k' := by
  obtain ⟨k', he, hiff⟩ := signals_act_iff (signalled_ring SIGKILL)
  refine ⟨k', he, hiff.mpr fun a t ht _ => ?_⟩
  rw [signalled] at ht
  dsimp only at ht
  split at ht
  · cases ht
    exact .inl ⟨⟨by decide, rfl⟩, fun h => h.2 rfl⟩
  · cases ht

/-- SIGTERM without a handler leaves the task as it was. -/
theorem sigterm_ignored : ¬ ∀ (k k' : KernelState) (l : List Nat), OnRing k l →
    schedulerTick k = some k' → SignalsAct k k' := by
  intro hall
  obtain ⟨k', he, htasks⟩ := (signalled_ring SIGTERM).tick_tasks
  obtain ⟨t', ht', hacts⟩ := hall _ _ _ (signalled_ring SIGTERM) he 1 _ rfl (by decide)
  cases ht'.symm.trans (htasks 1)
  have hdead := hacts.terminated.mpr (.inr ⟨SIGTERM, .inr rfl, ⟨by decide, rfl⟩, fun h => h rfl⟩)
  exact absurd hdead (by decide)

end EponaOS.Kernel
