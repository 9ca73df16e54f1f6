import EponaOS.Lib.Run
import EponaOS.Kernel.RingMemory

/-!
# Waiting for the processor

`schedule` turns the ring: the tasks in front of the one that it goes on with come to the
end, the current one before them, and the terminated ones behind it are gone. A task that
may run is therefore not passed over, and every other task that is taken in its place is one
less in front of it.
-/

namespace EponaOS.Kernel

open Function (update)
open Mm

/-- `schedule` does not skip the task. -/
def KernelState.runnable (k : KernelState) (a : Nat) : Bool :=
  (k.tasks a).any fun t => decide (¬ t.state.Idle)

/-- `schedule` does not clean the task up. -/
def KernelState.stays (k : KernelState) (a : Nat) : Bool :=
  (k.tasks a).any fun t => decide (t.state ≠ .terminated)

def KernelState.taskCount (k : KernelState) : Nat :=
  (List.range k.nextTask).countP fun a => (k.tasks a).isSome

/-- The last thing to happen is that `schedule` goes on with the task. -/
def KernelState.Runs (k : KernelState) (a : Nat) : Prop :=
  k.gCurrent = a ∧ k.events.getLast? = some (.runs a k.gTicks)

variable {k k' : KernelState} {l l' l₁ l₂ p q : List Nat} {s s' s₀ s₁ s₂ : RingState}

theorem runnable_iff : k.runnable a = true ↔ ∃ t, k.tasks a = some t ∧ ¬ t.state.Idle := by
  rw [KernelState.runnable, Option.any_eq_true]
  simp

theorem stays_iff : k.stays a = true ↔ ∃ t, k.tasks a = some t ∧ t.state ≠ .terminated := by
  rw [KernelState.stays, Option.any_eq_true]
  simp

theorem stays_of_runnable (h : k.runnable a = true) : k.stays a = true := by
  obtain ⟨t, ht, hidle⟩ := runnable_iff.mp h
  exact stays_iff.mpr ⟨t, ht, fun hd => hidle (.inl hd)⟩

theorem runs_emit (k : KernelState) : (k.emit (.runs k.gCurrent k.gTicks)).Runs k.gCurrent :=
  ⟨rfl, List.getLast?_concat⟩

theorem OnRing.taskCount (h : OnRing k l) : k.taskCount = l.length + 1 := by
  have hperm : ((List.range k.nextTask).filter fun a => (k.tasks a).isSome).Perm
      (k.gCurrent :: l) := by
    refine (List.perm_ext_iff_of_nodup (List.nodup_range.filter _) h.cycle.nodup).mpr fun a => ?_
    rw [List.mem_filter, List.mem_range, Option.isSome_iff_exists]
    exact ⟨fun ha => h.all a ha.2, fun ha => ⟨h.known a (h.live ha), h.live ha⟩⟩
  rw [KernelState.taskCount, List.countP_eq_length_filter, hperm.length_eq, List.length_cons]

-- ---------------------------------------------------------------------------
-- schedule turns the ring
-- ---------------------------------------------------------------------------

theorem skipIdle_find (h : Leads k.link a l k.gCurrent) (hg : k.gCurrent ∉ l)
    (hn : l.length < n) :
    skipIdle k.tasks k.gCurrent n a = some ((l.find? k.runnable).getD k.gCurrent) := by
  induction n generalizing a l with
  | zero => omega
  | succ n ih =>
    rw [skipIdle]
    cases l with
    | nil =>
      obtain rfl : a = k.gCurrent := h
      exact if_pos rfl
    | cons b l =>
      obtain ⟨rfl, y, hy, h⟩ := h
      obtain ⟨t, ht, rfl⟩ := Option.map_eq_some_iff.mp hy
      have ha : a ≠ k.gCurrent := fun ha => hg (ha ▸ List.mem_cons_self)
      rw [if_neg ha, ht]
      simp only [Option.bind_eq_bind, Option.bind_some]
      by_cases hidle : t.state.Idle
      · have hrun : ¬ k.runnable a = true := by
          rw [KernelState.runnable, ht]
          simp [hidle]
        rw [if_pos hidle, List.find?_cons_of_neg hrun]
        exact ih h (fun hm => hg (List.mem_cons_of_mem a hm)) (Nat.lt_of_succ_lt_succ hn)
      · have hrun : k.runnable a = true := runnable_iff.mpr ⟨t, ht, hidle⟩
        rw [if_neg hidle, List.find?_cons_of_pos hrun]
        rfl

theorem Quiet.stays (h : Quiet k k') (a : Nat) : k'.stays a = k.stays a := by
  rw [Bool.eq_iff_iff, stays_iff, stays_iff]
  constructor
  · rintro ⟨t', ht', hd⟩
    obtain ⟨t, ht, hs⟩ := h.tasks a t' ht'
    exact ⟨t, ht, hs.state ▸ hd⟩
  · rintro ⟨t, ht, hd⟩
    obtain ⟨t', ht'⟩ := h.kept a t ht
    obtain ⟨u, hu, hs⟩ := h.tasks a t' ht'
    cases ht.symm.trans hu
    exact ⟨t', ht', hs.state.symm ▸ hd⟩

theorem stays_freeTask (h : b ≠ a) : (k.freeTask a).stays b = k.stays b := by
  rw [KernelState.stays, KernelState.freeTask_of_ne k h, KernelState.stays]

/-- The loop is at `scan`, with `l₂` in front of it, where the terminated tasks go. -/
theorem cleanUp_filter (h : OnRing k (l₁ ++ l₂)) (hscan : Leads k.link scan l₂ k.gCurrent)
    (hn : l₂.length < n) :
    ∃ k', cleanUp k.gCurrent n k scan = some k' ∧ OnRing k' (l₁ ++ l₂.filter k.stays) ∧
      k'.gCurrent = k.gCurrent := by
  induction n generalizing k l₁ l₂ scan with
  | zero => omega
  | succ n ih =>
    rw [cleanUp]
    cases l₂ with
    | nil =>
      obtain rfl : scan = k.gCurrent := hscan
      exact ⟨k, if_pos rfl, h, rfl⟩
    | cons b l₂ =>
      obtain ⟨rfl, y, hy, hrest⟩ := hscan
      obtain ⟨t, ht, rfl⟩ := Option.map_eq_some_iff.mp hy
      have hnd : (k.gCurrent :: l₁ ++ scan :: l₂).Nodup := h.cycle.nodup
      obtain ⟨-, hnd₂, hdisj⟩ := List.nodup_append.mp hnd
      have hne : scan ≠ k.gCurrent := fun heq =>
        hdisj k.gCurrent List.mem_cons_self scan List.mem_cons_self heq.symm
      rw [if_neg hne, ht]
      simp only [Option.bind_eq_bind, Option.bind_some]
      by_cases hd : t.state = .terminated
      · have hgone : ¬ k.stays scan = true := by
          rw [KernelState.stays, ht]
          simp [hd]
        rw [if_pos hd, List.filter_cons_of_neg hgone]
        have hstill := taskFdCloseAll_still k scan
        have hring := h.still hstill
        obtain ⟨u, hu⟩ : (taskFdCloseAll k scan).Live scan := hstill.live.mpr ⟨t, ht⟩
        have hnext : u.next = t.next := by
          have hlink := congrFun hstill.link scan
          rw [link_of_task hu, link_of_task ht] at hlink
          exact Option.some.inj hlink
        obtain ⟨k₁, he, hring₁, -, hcur₁⟩ := hring.unlink hu
        rw [hnext] at he
        rw [he]
        simp only [Option.bind_some]
        have hcur : (k₁.freeTask scan).gCurrent = k.gCurrent := hcur₁.trans hstill.current
        have hleads : Leads (k₁.freeTask scan).link t.next l₂ (k₁.freeTask scan).gCurrent :=
          hring₁.cycle.rest (hcur ▸ hrest)
        -- the others are cleaned up or not as before
        have hsame : ∀ x ∈ l₂, (k₁.freeTask scan).stays x = k.stays x := by
          intro x hx
          have hxs : x ≠ scan := fun hxs => (List.nodup_cons.mp hnd₂).1 (hxs ▸ hx)
          rw [stays_freeTask hxs]
          exact ((taskFdCloseAll_quiet k scan).trans (unlink_quiet he)).stays x
        obtain ⟨k', he', hring', hcur'⟩ := ih hring₁ hleads (Nat.lt_of_succ_lt_succ hn)
        rw [hcur] at he'
        rw [List.filter_congr hsame] at hring'
        exact ⟨k', he', hring', hcur'.trans hcur⟩
      · have hstay : k.stays scan = true := stays_iff.mpr ⟨t, ht, hd⟩
        rw [if_neg hd, List.filter_cons_of_pos hstay]
        have h' : OnRing k (l₁ ++ [scan] ++ l₂) := by
          rwa [List.append_assoc]
        obtain ⟨k', he, hring, hcur⟩ := ih h' hrest (Nat.lt_of_succ_lt_succ hn)
        rw [List.append_assoc] at hring
        exact ⟨k', he, hring, hcur⟩

theorem OnRing.schedule_alone (h : OnRing k l) (hnone : l.find? k.runnable = none)
    (hstay : k.stays k.gCurrent = true) :
    ∃ k', Kernel.schedule k = some k' ∧ OnRing k' l ∧ k'.Runs k.gCurrent := by
  obtain ⟨t, ht, hd⟩ := stays_iff.mp hstay
  obtain ⟨-, y, hy, hleads⟩ := h.cycle.leads
  rw [link_of_task ht] at hy
  cases hy
  have hskip := skipIdle_find hleads (List.nodup_cons.mp h.cycle.nodup).1
    (Nat.lt_of_succ_lt h.length_lt)
  rw [hnone, Option.getD_none] at hskip
  have hclean : cleanUp k.gCurrent k.rounds k k.gCurrent = some k := if_pos rfl
  refine ⟨k.emit (.runs k.gCurrent k.gTicks), ?_, h.still (.emit k (by simp)), runs_emit k⟩
  rw [Kernel.schedule, if_neg h.current_ne_zero]
  simp only [Option.bind_eq_bind, Option.bind_some, ht, hskip, hclean, if_true]
  rw [if_neg hd]
  rfl

theorem OnRing.schedule_turn (h : OnRing k (l₁ ++ next :: l₂))
    (hidle : ∀ a ∈ l₁, k.runnable a = false) (hrun : k.runnable next = true) :
    ∃ k', Kernel.schedule k = some k' ∧ OnRing k' (l₂.filter k.stays ++ k.gCurrent :: l₁) ∧
      k'.Runs next := by
  obtain ⟨c, hc⟩ := h.current
  obtain ⟨t, ht, hstate⟩ := runnable_iff.mp hrun
  have hnd := List.nodup_cons.mp h.cycle.nodup
  have hne : next ≠ k.gCurrent := fun heq =>
    hnd.1 (heq ▸ List.mem_append_right l₁ List.mem_cons_self)
  obtain ⟨-, y, hy, hleads⟩ := h.cycle.leads
  rw [link_of_task hc] at hy
  cases hy
  have hfind : (l₁ ++ next :: l₂).find? k.runnable = some next :=
    List.find?_eq_some_iff_append.mpr ⟨hrun, l₁, l₂, rfl, fun a ha => by simp [hidle a ha]⟩
  have hskip := skipIdle_find hleads hnd.1 (Nat.lt_of_succ_lt h.length_lt)
  rw [hfind, Option.getD_some] at hskip
  have hring : OnRing k (l₁ ++ [next] ++ l₂) := by
    rwa [List.append_assoc]
  obtain ⟨-, y, hy, hrest⟩ := h.cycle.split.2
  rw [link_of_task ht] at hy
  cases hy
  have hlen := h.length_lt
  rw [List.length_append, List.length_cons, KernelState.rounds] at hlen
  obtain ⟨k₁, hclean, hring₁, hcur⟩ := cleanUp_filter hring hrest
    (show l₂.length < k.nextTask by omega)
  -- the first round of the cleaning finds the task that is to run
  have hround : cleanUp k.gCurrent k.rounds k next = some k₁ := by
    rw [KernelState.rounds, cleanUp, if_neg hne, ht]
    exact (if_neg fun hd => hstate (.inl hd)).trans hclean
  rw [List.append_assoc] at hring₁
  obtain ⟨k', hswitch, hring', -⟩ := switchTo_ring hring₁
  rw [hcur] at hring' hswitch
  refine ⟨k', ?_, hring', ?_⟩
  · rw [Kernel.schedule, if_neg h.current_ne_zero]
    simp only [Option.bind_eq_bind, Option.bind_some, hc, hskip, hround]
    exact (if_neg hne).trans hswitch
  · rw [switchTo] at hswitch
    obtain ⟨c', -, hswitch⟩ := Option.bind_eq_some_iff.mp hswitch
    obtain ⟨n, -, hswitch⟩ := Option.bind_eq_some_iff.mp hswitch
    cases hswitch
    exact ⟨rfl, List.getLast?_concat⟩

-- ---------------------------------------------------------------------------
-- How long a task waits
-- ---------------------------------------------------------------------------

/-- At most `n` tasks come before `a` where `schedule` looks for one: over the ring behind the
current task, and then that task. -/
def Ahead (k : KernelState) (a n : Nat) : Prop :=
  ∃ l p q, OnRing k l ∧ l ++ [k.gCurrent] = p ++ a :: q ∧ p.length ≤ n

theorem OnRing.ahead (h : OnRing k l) (ha : k.Live a) : Ahead k a l.length := by
  obtain rfl | hm := List.mem_cons.mp (h.all a ha)
  · exact ⟨l, l, [], h, rfl, Nat.le_refl _⟩
  · obtain ⟨p, q, rfl⟩ := List.append_of_mem hm
    exact ⟨_, p, q ++ [k.gCurrent], h, List.append_assoc .., by simp⟩

theorem Ahead.still (h : Ahead k a n) (hs : Still k k') : Ahead k' a n := by
  obtain ⟨l, p, q, hring, hl, hn⟩ := h
  exact ⟨l, p, q, hring.still hs, hs.current ▸ hl, hn⟩

theorem Ahead.add (h : Ahead k a n) (hcur : k'.gCurrent = k.gCurrent)
    (hadd : ∀ l, OnRing k l → OnRing k' (x :: l)) : Ahead k' a (n + 1) := by
  obtain ⟨l, p, q, hring, hl, hn⟩ := h
  refine ⟨x :: l, x :: p, q, hadd l hring, ?_, Nat.succ_le_succ hn⟩
  rw [hcur, List.cons_append, hl, List.cons_append]

/-- Of two places in a list the one before which `f` holds nowhere is the first. -/
theorem append_cons_before {f : Nat → Bool} (h : p ++ a :: q = l₁ ++ b :: l₂)
    (hnone : ∀ x ∈ l₁, f x = false) (ha : f a = true) (hab : a ≠ b) :
    ∃ r, p = l₁ ++ b :: r ∧ l₂ = r ++ a :: q := by
  obtain ⟨r, rfl, hr⟩ | ⟨r, rfl, hr⟩ := List.append_eq_append_iff.mp h
  · cases r with
    | nil => exact absurd (List.cons.inj hr).1 hab
    | cons x r =>
      obtain ⟨rfl, -⟩ := List.cons.inj hr
      have hf := hnone a (List.mem_append_right p List.mem_cons_self)
      exact absurd (ha.symm.trans hf) nofun
  · cases r with
    | nil => exact absurd (List.cons.inj hr).1.symm hab
    | cons x r =>
      obtain ⟨rfl, rfl⟩ := List.cons.inj hr
      exact ⟨r, rfl, rfl⟩

theorem Ahead.schedule (h : Ahead k a n) (hcur : k.gCurrent = a → k.stays a = true)
    (hrun : k.gCurrent ≠ a → k.runnable a = true) (hs : schedule k = some k') :
    k'.Runs a ∨ ∃ m, Ahead k' a m ∧ m + 1 ≤ n := by
  obtain ⟨l, p, q, hring, hl, hn⟩ := h
  obtain rfl | ⟨q, z, rfl⟩ := List.eq_nil_or_concat q
  · -- the task is the current one
    obtain ⟨rfl, hga⟩ := List.append_inj' hl rfl
    obtain rfl : k.gCurrent = a := List.singleton_inj.mp hga
    cases hfind : l.find? k.runnable with
    | none =>
      obtain ⟨k₁, hk₁, -, hruns⟩ := hring.schedule_alone hfind (hcur rfl)
      cases hk₁.symm.trans hs
      exact .inl hruns
    | some next =>
      obtain ⟨hnext, l₁, l₂, rfl, hidle⟩ := List.find?_eq_some_iff_append.mp hfind
      obtain ⟨k₁, hk₁, hring₁, -⟩ := hring.schedule_turn (fun x hx => by simpa using hidle x hx)
        hnext
      cases hk₁.symm.trans hs
      have hle := List.length_filter_le k.stays l₂
      rw [List.length_append, List.length_cons] at hn
      exact .inr ⟨_, ⟨_, _, _, hring₁, List.append_assoc .., Nat.le_refl _⟩, by omega⟩
  · rw [List.concat_eq_append, ← List.cons_append, ← List.append_assoc] at hl
    obtain ⟨rfl, -⟩ := List.append_inj' hl rfl
    have hne : k.gCurrent ≠ a := fun heq =>
      (List.nodup_cons.mp hring.cycle.nodup).1 (heq ▸ List.mem_append_right p List.mem_cons_self)
    have ha := hrun hne
    obtain ⟨next, hfind⟩ : ∃ next, (p ++ a :: q).find? k.runnable = some next := by
      rw [← Option.isSome_iff_exists, List.find?_isSome]
      exact ⟨a, List.mem_append_right p List.mem_cons_self, ha⟩
    obtain ⟨hnext, l₁, l₂, hsplit, hidle⟩ := List.find?_eq_some_iff_append.mp hfind
    have hidle : ∀ x ∈ l₁, k.runnable x = false := fun x hx => by simpa using hidle x hx
    rw [hsplit] at hring
    obtain ⟨k₁, hk₁, hring₁, hruns⟩ := hring.schedule_turn hidle hnext
    cases hk₁.symm.trans hs
    by_cases han : a = next
    · exact .inl (han ▸ hruns)
    · obtain ⟨r, rfl, rfl⟩ := append_cons_before hsplit hidle ha han
      have hle := List.length_filter_le k.stays r
      rw [List.filter_append, List.filter_cons_of_pos (stays_of_runnable ha),
        List.append_assoc, List.cons_append] at hring₁
      rw [List.length_append, List.length_cons] at hn
      exact .inr ⟨_, ⟨_, _, _, hring₁, List.append_assoc .., Nat.le_refl _⟩, by omega⟩

-- ---------------------------------------------------------------------------
-- The calls
-- ---------------------------------------------------------------------------

theorem Ahead.sleep (h : Ahead k a n) (hrun : k.runnable a = true)
    (hs : taskSleep k ms = some k') : k'.Runs a ∨ ∃ m, Ahead k' a m ∧ m + 1 ≤ n := by
  have hzero : k.gCurrent ≠ 0 := by
    obtain ⟨l, p, q, hring, -⟩ := h
    exact hring.current_ne_zero
  rw [taskSleep, if_neg hzero] at hs
  obtain ⟨t, ht, hs⟩ := Option.bind_eq_some_iff.mp hs
  dsimp only at hs
  generalize k.gTicks + _ = wake at hs
  have hset : Still k (k.setTask k.gCurrent { t with wakeTick := wake, state := .sleeping }) :=
    .setTask ht rfl
  have hstill := hset.trans (.emit _ (e := .slept k.gCurrent wake) (by simp))
  refine (h.still hstill).schedule (fun hcur => ?_) (fun hcur => ?_) hs
  · obtain rfl : k.gCurrent = a := hcur
    exact stays_iff.mpr ⟨_, KernelState.setTask_self .., by simp⟩
  · have hne : a ≠ k.gCurrent := fun heq => hcur heq.symm
    obtain ⟨u, hu, hidle⟩ := runnable_iff.mp hrun
    exact runnable_iff.mpr ⟨u, (KernelState.setTask_of_ne _ _ hne).trans hu, hidle⟩

theorem taskDestroy_current (h : taskDestroy k x = some k') (hx : k.gCurrent ≠ x) :
    k'.gCurrent = k.gCurrent := by
  rw [taskDestroy] at h
  obtain ⟨t, -, h⟩ := Option.bind_eq_some_iff.mp h
  obtain ⟨prev, -, h⟩ := Option.bind_eq_some_iff.mp h
  split at h
  · cases h
    rfl
  obtain ⟨u, -, h⟩ := Option.bind_eq_some_iff.mp h
  cases h
  split
  · dsimp only
    split
    · rename_i heq
      exact absurd heq hx
    · rfl
  · rfl

theorem Ahead.wait (h : Ahead k a n) (hrun : k.runnable a = true)
    (hs : sysWait k = some (r, k')) : Ahead k' a n := by
  obtain ⟨l, p, q, hring, hl, hn⟩ := h
  obtain ⟨cur, hcur⟩ := hring.current
  obtain ⟨-, y, hy, hleads⟩ := hring.cycle.leads
  rw [link_of_task hcur] at hy
  cases hy
  have hnd := List.nodup_cons.mp hring.cycle.nodup
  rw [sysWait, if_neg hring.current_ne_zero, hcur] at hs
  simp only [Option.bind_eq_bind, Option.bind_some, Option.pure_def] at hs
  obtain hz | ⟨x, hx, hz⟩ := findZombie_ring cur.pid hleads hnd.1 (Nat.lt_of_succ_lt hring.length_lt)
  · rw [hz] at hs
    cases hs
    exact ⟨l, p, q, hring, hl, hn⟩
  · rw [hz] at hs
    have hx0 : x ≠ 0 := fun h0 => hring.zero_not_mem (List.mem_cons_of_mem _ (h0 ▸ hx))
    have hxg : k.gCurrent ≠ x := fun heq => hnd.1 (heq ▸ hx)
    obtain ⟨t, ht, -, hd⟩ := findZombie_spec hz hx0
    simp only [Option.bind_some] at hs
    rw [if_neg hx0, ht] at hs
    simp only [Option.bind_some] at hs
    obtain ⟨k₁, hdestroy, hs⟩ := Option.bind_eq_some_iff.mp hs
    cases hs
    have hcur' := taskDestroy_current hdestroy hxg
    have hxa : a ≠ x := by
      rintro rfl
      obtain ⟨u, hu, hidle⟩ := runnable_iff.mp hrun
      cases ht.symm.trans hu
      exact hidle (.inl hd)
    obtain ⟨l₁, l₂, rfl⟩ := List.append_of_mem hx
    have hemit : Still k (k.emit (.waited cur.pid x t.exitCode)) := .emit k (by simp)
    obtain ⟨k₂, hk₂, hring', -⟩ := (hring.still hemit).taskDestroy
    cases hk₂.symm.trans hdestroy
    have hnodup : (l₁ ++ x :: l₂ ++ [k.gCurrent]).Nodup :=
      (List.perm_append_singleton k.gCurrent _).nodup_iff.mpr hring.cycle.nodup
    have hgone : l₁ ++ l₂ ++ [k.gCurrent] = (l₁ ++ x :: l₂ ++ [k.gCurrent]).erase x := by
      rw [List.append_assoc] at hnodup ⊢
      have hx₁ : x ∉ l₁ := fun hm =>
        (List.nodup_append.mp hnodup).2.2 x hm x List.mem_cons_self rfl
      rw [List.append_assoc, List.erase_append_right _ hx₁, List.cons_append, List.erase_cons_head]
    rw [hl] at hgone hnodup
    have hkeep : (a != x) = true := bne_iff_ne.mpr hxa
    rw [hnodup.erase_eq_filter, List.filter_append,
      List.filter_cons_of_pos (p := fun b => b != x) hkeep] at hgone
    exact ⟨_, _, _, hring', hcur' ▸ hgone, (List.length_filter_le _ p).trans hn⟩

-- ---------------------------------------------------------------------------
-- Runs
-- ---------------------------------------------------------------------------

/-- The actions in which `schedule` is called. -/
def RingAct.turns : RingAct → Nat
  | .call .schedule => 1
  | .call (.sleep _) => 1
  | _ => 0

/-- The actions that may bring a task. -/
def RingAct.births : RingAct → Nat
  | .create => 1
  | .fork _ _ => 1
  | .call _ => 0

/-- No struct is written over, and the task may run. -/
def StaysRunnable (a : Nat) (s : RingState) (act : RingAct) : Prop :=
  StackClear s act ∧ s.k.runnable a = true

theorem Ahead.mono (h : Ahead k a n) (hn : n ≤ m) : Ahead k a m := by
  obtain ⟨l, p, q, hring, hl, hp⟩ := h
  exact ⟨l, p, q, hring, hl, hp.trans hn⟩

theorem Ahead.call (h : Ahead k a n) (hrun : k.runnable a = true) (hplain : act.Plain)
    (hs : schedAct k act = some k') :
    k'.Runs a ∨ ∃ m, Ahead k' a m ∧ m + (RingAct.call act).turns ≤ n := by
  have still : Still k k' → k'.Runs a ∨ ∃ m, Ahead k' a m ∧ m + 0 ≤ n := fun hstill =>
    .inr ⟨n, h.still hstill, Nat.le_refl _⟩
  obtain ⟨l, p, q, hring, -⟩ := id h
  cases act with
  | create => exact hplain.elim
  | fork => exact hplain.elim
  | tick =>
    obtain ⟨k₁, hk₁, hstill⟩ := hring.tick
    cases hk₁.symm.trans hs
    exact still hstill
  | schedule => exact h.schedule (fun _ => stays_of_runnable hrun) (fun _ => hrun) hs
  | sleep ms => exact h.sleep hrun hs
  | exit code =>
    obtain ⟨k₁, hk₁, hstill⟩ := hring.exit code
    cases hk₁.symm.trans hs
    exact still hstill
  | kill pid sig =>
    obtain ⟨r, k₁, hk₁, hstill⟩ := hring.kill pid sig
    rw [schedAct, hk₁] at hs
    cases hs
    exact still hstill
  | wait =>
    obtain ⟨⟨r, k₁⟩, hk₁, hs⟩ := Option.map_eq_some_iff.mp hs
    cases hs
    exact .inr ⟨n, h.wait hrun hk₁, Nat.le_refl _⟩
  | signal sig handler =>
    obtain ⟨r, k₁, hk₁, hstill⟩ := hring.signal sig handler
    rw [schedAct, hk₁] at hs
    cases hs
    exact still hstill

theorem Ahead.create (h : Ahead s.k a n) (hs : ringCreate s = some s') :
    Ahead s'.k a (n + 1) := by
  rw [ringCreate] at hs
  rcases h₁ : pmmAlloc s.pmm with ⟨task, pmm₁⟩
  rcases h₂ : pmmAlloc pmm₁ with ⟨stack, pmm₂⟩
  simp only [h₁, h₂] at hs
  split at hs
  · cases hs
    exact h.mono (Nat.le_succ n)
  · obtain ⟨⟨pid, k⟩, hk, hs⟩ := Option.map_eq_some_iff.mp hs
    cases hs
    refine h.add (x := s.k.nextTask) ?_ fun l hring => ?_
    · obtain ⟨l, p, q, hring, -⟩ := h
      obtain ⟨c, hc⟩ := hring.current
      rw [taskCreate, if_neg hring.current_ne_zero, hc] at hk
      cases hk
      rfl
    · obtain ⟨pid', k', hk', hring', -⟩ := hring.taskCreate
      cases hk'.symm.trans hk
      exact hring'

theorem forkInto_current (h : forkInto s mem other child stack = some s') :
    s'.k.gCurrent = s.k.gCurrent := by
  rw [forkInto] at h
  obtain ⟨cur, -, h⟩ := Option.bind_eq_some_iff.mp h
  obtain ⟨cur', -, h⟩ := Option.bind_eq_some_iff.mp h
  obtain ⟨⟨k, fd⟩, hslots, h⟩ := Option.bind_eq_some_iff.mp h
  cases h
  refine Eq.trans ?_ (forkSlots_quiet hslots).2.2.1
  rw [insertChild]
  dsimp only
  split <;> rfl

theorem Ahead.fork (h : Ahead s.k a n) (hp : Placed s) (hclear : StackClear s (.fork mem other))
    (hs : ringFork s mem other = some s') : Ahead s'.k a (n + 1) := by
  rw [ringFork] at hs
  split at hs
  · cases hs
    exact h.mono (Nat.le_succ n)
  rcases h₁ : pmmAlloc s.pmm with ⟨pml4, pmm₁⟩
  rcases h₂ : pmmAlloc pmm₁ with ⟨child, pmm₂⟩
  rcases h₃ : pmmAlloc pmm₂ with ⟨stack, pmm₃⟩
  simp only [h₁, h₂, h₃] at hs
  split at hs
  · cases hs
    exact h.mono (Nat.le_succ n)
  split at hs
  · cases hs
    exact h.mono (Nat.le_succ n)
  rename_i hchild
  split at hs
  · cases hs
    exact h.mono (Nat.le_succ n)
  rename_i hstack
  have hp₁ := hp.alloc h₁
  have hp₃ : Placed { s with pmm := pmm₃ } := (hp₁.alloc h₂).alloc h₃
  have hfork : forkFrames s.pmm = (child, stack) := by
    rw [forkFrames, h₁]
    simp only [h₂, h₃]
  rw [StackClear, hfork] at hclear
  refine h.add (x := s.k.nextTask) (forkInto_current (s := { s with pmm := pmm₃ }) hs) fun l hring => ?_
  exact (forkInto_ring (s := { s with pmm := pmm₃ }) hring hp₃ ((taken_new h₂ hchild).alloc h₃)
    (taken_new h₃ hstack) (pmmAlloc_lt h₂ h₃ hstack) (hp₁.new_frames h₂ hchild h₃ hstack)
    (hclear hstack) hs).1

/-- One action: the task runs, or what is in front of it is less by the turns that the ring
makes, and more by the tasks that come. -/
theorem ringStep_ahead (h : Ahead s.k a n) (hp : Placed s) (hok : StaysRunnable a s act)
    (hs : ringStep s act s') :
    s'.k.Runs a ∨ ∃ m, Ahead s'.k a m ∧ m + act.turns ≤ n + act.births := by
  obtain ⟨hclear, hrun⟩ := hok
  obtain ⟨-, hplain, hs⟩ := hs
  cases act with
  | create => exact .inr ⟨n + 1, h.create hs, Nat.le_refl _⟩
  | fork mem other => exact .inr ⟨n + 1, h.fork hp hclear hs, Nat.le_refl _⟩
  | call act =>
    obtain ⟨k', hk', hs⟩ := Option.map_eq_some_iff.mp hs
    cases hs
    exact h.call hrun hplain hk'

/-- A task that may run, and goes on to, is dispatched before the ring has made more turns than
there are tasks, with those that come in the meantime. -/
theorem runnable_task_runs (h : Unstarted s) (hinit : schedulerInit s = some s₀)
    (hrun : Run ringStep StackClear s₀ as s₁) (hwait : Run ringStep (StaysRunnable a) s₁ bs s₂)
    (hturns : s₁.k.taskCount + (bs.map RingAct.births).sum ≤ (bs.map RingAct.turns).sum) :
    ∃ bs₁ b bs₂ t t', bs = bs₁ ++ b :: bs₂ ∧ Run ringStep (StaysRunnable a) s₁ bs₁ t ∧
      ringStep t b t' ∧ t'.k.Runs a ∧ Run ringStep (StaysRunnable a) t' bs₂ s₂ := by
  have hinv : RingInv s₁ := hrun.invariant RingInv (schedulerInit_inv h hinit)
    fun _ _ _ hs hclear hstep => ringStep_inv hs hclear hstep
  obtain ⟨⟨l, hring⟩, -⟩ := id hinv
  have hcount := hring.taskCount
  have hlive : s₁.k.Live a := by
    cases hwait with
    | nil =>
      simp only [List.map_nil, List.sum_nil] at hturns
      omega
    | cons hok _ _ =>
      obtain ⟨t, ht, -⟩ := runnable_iff.mp hok.2
      exact ⟨t, ht⟩
  -- the invariant of the ring goes along with the place of the task on it
  obtain ⟨bs₁, b, bs₂, t, t', hbs, hbefore, hstep, hdone, hafter⟩ := hwait.progress
    (fun s n => RingInv s ∧ Ahead s.k a n) (fun s => s.k.Runs a) RingAct.turns RingAct.births
    (fun s b s' n hs hok hstep => (ringStep_ahead hs.2 hs.1.2 hok hstep).imp_right
      fun ⟨m, hm, hle⟩ => ⟨m, ⟨ringStep_inv hs.1 hok.1 hstep, hm⟩, hle⟩)
    ⟨hinv, hring.ahead hlive⟩ (by omega)
  exact ⟨bs₁, b, bs₂, t, t', hbs, hbefore, hstep, hdone, hafter⟩

theorem runnable_task_runs_second : ∃ s₀ s₁ t b t', schedulerInit unstarted = some s₀ ∧
    ringStep s₀ .create s₁ ∧ ringStep t b t' ∧ t'.k.Runs 2 := by
  have hcheck : ((schedulerInit unstarted).bind fun s₀ => (ringAct s₀ .create).bind fun s₁ =>
      (ringAct s₁ (.call .schedule)).bind fun s₂ => (ringAct s₂ (.call .schedule)).map fun _ =>
        (s₀.k.halted, s₁.k.halted, s₁.k.runnable 2, s₁.k.taskCount, s₂.k.halted,
          s₂.k.runnable 2)) = some (false, false, true, 2, false, true) := by
    decide +kernel
  obtain ⟨s₀, hinit, h⟩ := Option.bind_eq_some_iff.mp hcheck
  obtain ⟨s₁, h₁, h⟩ := Option.bind_eq_some_iff.mp h
  obtain ⟨s₂, h₂, h⟩ := Option.bind_eq_some_iff.mp h
  obtain ⟨s₃, h₃, h⟩ := Option.map_eq_some_iff.mp h
  simp only [Prod.mk.injEq] at h
  obtain ⟨hh₀, hh₁, hr₁, hcount, hh₂, hr₂⟩ := h
  have hcreate : ringStep s₀ .create s₁ := ⟨hh₀, trivial, h₁⟩
  have hclear : StackClear s₀ .create := trivial
  have hwait : Run ringStep (StaysRunnable 2) s₁ [.call .schedule, .call .schedule] s₃ :=
    .cons ⟨trivial, hr₁⟩ ⟨hh₁, trivial, h₂⟩ (.cons ⟨trivial, hr₂⟩ ⟨hh₂, trivial, h₃⟩ .nil)
  obtain ⟨-, b, -, t, t', -, -, hstep, hruns, -⟩ := runnable_task_runs unstarted_unstarted hinit
    (.cons hclear hcreate .nil) hwait (Nat.le_of_eq hcount)
  exact ⟨s₀, s₁, t, b, t', hinit, hcreate, hstep, hruns⟩

end EponaOS.Kernel
