import EponaOS.Lib.Slots
import EponaOS.Kernel.Status

/-!
# Descriptor tables

The descriptors of the live tasks, as one table over tasks and slots, and what the calls
do to it. `g` reads an entry: as the file that it refers to, or as the end of a pipe.
-/

namespace EponaOS.Kernel

open Function (update)

-- ---------------------------------------------------------------------------
-- The calls
-- ---------------------------------------------------------------------------

inductive FdCall
  | open (found : Option OpenFile)
  | create (found : Option OpenFile)
  | read (fd : Nat) (n : Int)
  | write (fd : Nat) (n : Int)
  | close (fd : Nat)
  | dup2 (oldfd newfd : Nat)
  | pipe (bufOk : Bool)
  | fork (frames : Bool) (mem : Nat → Bool)
  | exec (load : ElfLoad)
  | exit (code : Int)

def fdCall (k : KernelState) : FdCall → Option KernelState
  | .open found => (sysOpen k found).map Prod.snd
  | .create found => (sysCreate k found).map Prod.snd
  | .read fd n => (sysRead k fd n).map Prod.snd
  | .write fd n => (sysWrite k fd n).map Prod.snd
  | .close fd => (sysClose k fd).map Prod.snd
  | .dup2 oldfd newfd => (sysDup2 k oldfd newfd).map Prod.snd
  | .pipe bufOk => (sysPipe k bufOk).map Prod.snd
  | .fork frames mem => (sysFork k frames mem).map Prod.snd
  | .exec load => some (sysExec k load).2
  | .exit code => sysExit k code

def Live (k : KernelState) (a : Nat) : Prop := ∃ t, k.tasks a = some t ∧ t.state ≠ .terminated

def fdStep (k : KernelState) (c : Nat × FdCall) (k' : KernelState) : Prop :=
  k.halted = false ∧ Live k c.1 ∧ fdCall { k with gCurrent := c.1 } c.2 = some k'

structure Booted (k : KernelState) : Prop where
  known : Known k
  unused : ∀ a t i, k.tasks a = some t → (t.fd i).used = false
  pipes : ∀ p, (k.gPipes p).used = false
  file : 0 < k.nextFile

-- ---------------------------------------------------------------------------
-- The table
-- ---------------------------------------------------------------------------

variable {R : Type} {g : FdEntry → Option R} {k k' : KernelState}

/-- What slot `s.2` of task `s.1` refers to. -/
def slotRefs (g : FdEntry → Option R) (k : KernelState) (s : Nat × Nat) : Option R :=
  (k.tasks s.1).bind fun t =>
    if t.state ≠ .terminated ∧ s.2 < TASK_MAX_FD then g (t.fd s.2) else none

theorem slotRefs_of_live (ht : k.tasks a = some t) (hl : t.state ≠ .terminated)
    (hi : i < TASK_MAX_FD) : slotRefs g k (a, i) = g (t.fd i) := by
  rw [slotRefs, ht, Option.bind_some, if_pos ⟨hl, hi⟩]

theorem slotRefs_of_ge (hi : TASK_MAX_FD ≤ i) : slotRefs g k (a, i) = none := by
  rw [slotRefs]
  cases k.tasks a with
  | none => rfl
  | some t => exact if_neg fun h => absurd hi (Nat.not_le.mpr h.2)

theorem slotRefs_unused (hg : ∀ e, e.used = false → g e = none) (ht : k.tasks a = some t)
    (hu : (t.fd i).used = false) : slotRefs g k (a, i) = none := by
  rw [slotRefs, ht, Option.bind_some, hg _ hu]
  exact ite_self none

theorem slotRefs_tasks (h : k'.tasks = k.tasks) : slotRefs g k' = slotRefs g k := by
  funext s
  rw [slotRefs, h, slotRefs]

theorem slotRefs_setTask (ht : k.tasks a = some t) (hl : t.state ≠ .terminated)
    (hi : i < TASK_MAX_FD) (e : FdEntry) :
    slotRefs g (k.setTask a { t with fd := update t.fd i e }) =
      update (slotRefs g k) (a, i) (g e) := by
  funext s
  obtain ⟨b, j⟩ := s
  by_cases hb : b = a
  · subst hb
    by_cases hj : j < TASK_MAX_FD
    · refine (slotRefs_of_live (t := { t with fd := update t.fd i e })
        (KernelState.setTask_self ..) hl hj).trans ?_
      dsimp only
      by_cases hij : j = i
      · rw [hij, Function.update_self, Function.update_self]
      · have hne : (b, j) ≠ (b, i) := fun h => hij (Prod.mk.inj h).2
        rw [Function.update_of_ne hij, Function.update_of_ne hne, slotRefs_of_live ht hl hj]
    · have hne : (b, j) ≠ (b, i) := fun h => hj ((Prod.mk.inj h).2 ▸ hi)
      rw [Function.update_of_ne hne, slotRefs_of_ge (Nat.not_lt.mp hj),
        slotRefs_of_ge (Nat.not_lt.mp hj)]
  · have hne : (b, j) ≠ (a, i) := fun h => hb (Prod.mk.inj h).1
    rw [Function.update_of_ne hne, slotRefs, slotRefs, KernelState.setTask_of_ne _ _ hb]

theorem slotRefs_setTask₂ (ht : k.tasks a = some t) (hl : t.state ≠ .terminated)
    (hi : i < TASK_MAX_FD) (hj : j < TASK_MAX_FD) (e e' : FdEntry) :
    slotRefs g (k.setTask a { t with fd := update (update t.fd i e) j e' }) =
      update (update (slotRefs g k) (a, i) (g e)) (a, j) (g e') := by
  have h := slotRefs_setTask (g := g) (t := { t with fd := update t.fd i e })
    (KernelState.setTask_self k a _) hl hj e'
  rw [KernelState.setTask_setTask, slotRefs_setTask ht hl hi] at h
  exact h

theorem slotRefs_setTask_same (ht : k.tasks a = some t) (t' : Task) (hs : t'.state = t.state)
    (hfd : t'.fd = t.fd) : slotRefs g (k.setTask a t') = slotRefs g k := by
  funext s
  obtain ⟨b, j⟩ := s
  by_cases hb : b = a
  · subst hb
    rw [slotRefs, slotRefs, KernelState.setTask_self, ht, Option.bind_some, Option.bind_some, hs,
      hfd]
  · rw [slotRefs, slotRefs, KernelState.setTask_of_ne _ _ hb]

theorem slotRefs_eq_some (h : slotRefs g k (a, i) = some r) :
    ∃ t, k.tasks a = some t ∧ t.state ≠ .terminated ∧ i < TASK_MAX_FD ∧ g (t.fd i) = some r := by
  rw [slotRefs] at h
  obtain ⟨t, ht, h⟩ := Option.bind_eq_some_iff.mp h
  split at h
  · rename_i hl
    exact ⟨t, ht, hl.1, hl.2, h⟩
  · cases h

-- ---------------------------------------------------------------------------
-- Slots
-- ---------------------------------------------------------------------------

theorem mem_fdSlots : i ∈ fdSlots ↔ 3 ≤ i ∧ i < TASK_MAX_FD := by
  rw [fdSlots, List.mem_range'_1, TASK_MAX_FD]

theorem taskFdAlloc_spec (h : taskFdAlloc t ptr type = some (i, t')) :
    (3 ≤ i ∧ i < TASK_MAX_FD) ∧ (t.fd i).used = false ∧
      t' = { t with fd := update t.fd i ⟨ptr, type, true⟩ } := by
  obtain ⟨j, hj, heq⟩ := Option.map_eq_some_iff.mp h
  cases heq
  have hfree := List.find?_some hj
  exact ⟨mem_fdSlots.mp (List.mem_of_find?_eq_some hj), by simpa using hfree, rfl⟩

theorem taskFdFree_eq (hi : i < TASK_MAX_FD) :
    taskFdFree t i = { t with fd := update t.fd i .free } := by
  rw [taskFdFree, if_neg (Nat.not_le.mpr hi)]

theorem mem_cons_slot {s : Nat × Nat} (hs : s ≠ (a, i)) :
    s.1 = a ∧ s.2 ∈ i :: slots ↔ s.1 = a ∧ s.2 ∈ slots := by
  rw [List.mem_cons]
  exact ⟨fun ⟨h1, h2⟩ => ⟨h1, h2.resolve_left fun h2 => hs (Prod.ext h1 h2)⟩,
    fun ⟨h1, h2⟩ => ⟨h1, .inr h2⟩⟩

/-- What a call of `SYS_OPEN` or `SYS_CREATE` with a file comes to. -/
theorem sysOpen_spec (h : sysOpen k (some file) = some (r, k')) :
    k' = vfsClose (newFile k file) k.nextFile ∨
    ∃ t t' i, k.tasks k.gCurrent = some t ∧ (3 ≤ i ∧ i < TASK_MAX_FD) ∧ (t.fd i).used = false ∧
      t' = { t with fd := update t.fd i ⟨k.nextFile, FD_TYPE_FILE, true⟩ } ∧
      k' = (newFile k file).setTask k.gCurrent t' := by
  rw [sysOpen] at h
  split at h
  · cases h
    exact .inl rfl
  obtain ⟨t, ht, h⟩ := Option.bind_eq_some_iff.mp h
  cases ha : taskFdAlloc t k.nextFile FD_TYPE_FILE with
  | none =>
    rw [ha] at h
    cases h
    exact .inl rfl
  | some fd =>
    obtain ⟨i, t'⟩ := fd
    rw [ha] at h
    cases h
    obtain ⟨hi, hfree, rfl⟩ := taskFdAlloc_spec ha
    exact .inr ⟨t, _, i, ht, hi, hfree, rfl, rfl⟩

theorem pipeAlloc_spec (h : pipeAlloc k = some (p, k')) :
    p < MAX_PIPES ∧ (k.gPipes p).used = false ∧
      k' = { k with gPipes := update k.gPipes p ⟨0, 0, 1, 1, true⟩ } := by
  obtain ⟨j, hj, heq⟩ := Option.map_eq_some_iff.mp h
  cases heq
  have hfree := List.find?_some hj
  exact ⟨List.mem_range.mp (List.mem_of_find?_eq_some hj), by simpa using hfree, rfl⟩

/-- `SYS_PIPE` gives a free pipe two free slots, or gives the pipe back. -/
theorem sysPipe_spec (h : sysPipe k bufOk = some (r, k')) : k' = k ∨
    ∃ p k₁, p < MAX_PIPES ∧ (k.gPipes p).used = false ∧
      k₁ = { k with gPipes := update k.gPipes p ⟨0, 0, 1, 1, true⟩ } ∧
      (k' = pipeRelease k₁ p ∨
      ∃ t i, k.tasks k.gCurrent = some t ∧ i < TASK_MAX_FD ∧ (t.fd i).used = false ∧
        (k' = pipeRelease (k₁.setTask k.gCurrent { t with fd := update t.fd i .free }) p ∨
        ∃ j, j ≠ i ∧ j < TASK_MAX_FD ∧ (t.fd j).used = false ∧
          k' = k₁.setTask k.gCurrent { t with
            fd := update (update t.fd i ⟨p + 1, FD_TYPE_PIPE_R, true⟩) j
              ⟨p + 1, FD_TYPE_PIPE_W, true⟩ })) := by
  rw [sysPipe] at h
  split at h
  · cases h
    exact .inl rfl
  cases hp : pipeAlloc k with
  | none =>
    rw [hp] at h
    cases h
    exact .inl rfl
  | some alloc =>
    obtain ⟨p, k₁⟩ := alloc
    rw [hp] at h
    obtain ⟨hlt, hfree, hk₁⟩ := pipeAlloc_spec hp
    have hcur : k₁.gCurrent = k.gCurrent := by rw [hk₁]
    have htasks : k₁.tasks = k.tasks := by rw [hk₁]
    dsimp only at h
    rw [hcur, htasks] at h
    refine .inr ⟨p, k₁, hlt, hfree, hk₁, ?_⟩
    split at h
    · cases h
      exact .inl rfl
    obtain ⟨t, ht, h⟩ := Option.bind_eq_some_iff.mp h
    cases hr : taskFdAlloc t (p + 1) FD_TYPE_PIPE_R with
    | none =>
      rw [hr] at h
      cases h
      exact .inl rfl
    | some first =>
      obtain ⟨i, t'⟩ := first
      rw [hr] at h
      obtain ⟨hi, hu, ht'⟩ := taskFdAlloc_spec hr
      dsimp only at h
      refine .inr ⟨t, i, ht, hi.2, hu, ?_⟩
      cases hw : taskFdAlloc t' (p + 1) FD_TYPE_PIPE_W with
      | none =>
        rw [hw] at h
        cases h
        rw [taskFdFree_eq hi.2, ht', Function.update_idem]
        exact .inl rfl
      | some second =>
        obtain ⟨j, t''⟩ := second
        rw [hw] at h
        cases h
        obtain ⟨hj, hu', rfl⟩ := taskFdAlloc_spec hw
        rw [ht'] at hu' ⊢
        have hne : j ≠ i := by
          rintro rfl
          dsimp only at hu'
          rw [Function.update_self] at hu'
          cases hu'
        exact .inr ⟨j, hne, hj.2, (congrArg FdEntry.used (Function.update_of_ne hne ..)).symm.trans
          hu', rfl⟩

theorem vfsClose_tasks (k : KernelState) (f : Nat) : (vfsClose k f).tasks = k.tasks := by
  rw [vfsClose]
  split <;> rfl

theorem vfsClose_gCurrent (k : KernelState) (f : Nat) :
    (vfsClose k f).gCurrent = k.gCurrent := by
  rw [vfsClose]
  split <;> rfl

/-- What `SYS_READ` and `SYS_WRITE` move is the offset of a file. -/
theorem sysFileIo_spec (h : sysFileIo k fd n = some (r, k')) :
    k' = k ∨ ∃ f file, k' = { k with files := update k.files f (some file) } := by
  rw [sysFileIo] at h
  split at h
  · cases h
    exact .inl rfl
  obtain ⟨t, ht, h⟩ := Option.bind_eq_some_iff.mp h
  split at h
  · cases h
    exact .inl rfl
  obtain ⟨file, -, h⟩ := Option.bind_eq_some_iff.mp h
  split at h
  · cases h
    exact .inl rfl
  · cases h
    exact .inr ⟨_, _, rfl⟩

theorem closeFile_gCurrent (k : KernelState) (e : FdEntry) :
    (closeFile k e).gCurrent = k.gCurrent := by
  rw [closeFile, vfsClose]
  split
  · split <;> rfl
  · rfl

theorem dropEntry_tasks (k : KernelState) (e : FdEntry) : (dropEntry k e).tasks = k.tasks ∧
    (dropEntry k e).gCurrent = k.gCurrent ∧ (dropEntry k e).nextTask = k.nextTask := by
  rw [dropEntry, vfsClose]
  split
  · exact ⟨rfl, rfl, rfl⟩
  split
  · split
    · exact ⟨rfl, rfl, rfl⟩
    · exact ⟨rfl, rfl, rfl⟩
  · exact ⟨rfl, rfl, rfl⟩

theorem sysClose_spec (h : sysClose k i = some (r, k')) : k' = k ∨
    ∃ t, k.tasks k.gCurrent = some t ∧ i < TASK_MAX_FD ∧ (t.fd i).used = true ∧
      k' = (dropEntry k (t.fd i)).setTask k.gCurrent { t with fd := update t.fd i .free } := by
  rw [sysClose] at h
  split at h
  · cases h
    exact .inl rfl
  obtain ⟨t, ht, h⟩ := Option.bind_eq_some_iff.mp h
  split at h
  · cases h
    exact .inl rfl
  · rename_i hok
    obtain ⟨hi, hu⟩ := not_or.mp hok
    cases h
    refine .inr ⟨t, ht, Nat.not_le.mp hi, by simpa using hu, ?_⟩
    rw [(dropEntry_tasks k _).2.1, taskFdFree_eq (Nat.not_le.mp hi)]

/-- `SYS_DUP2` closes a file in the slot that it overwrites, and nothing else. -/
theorem sysDup2_spec (h : sysDup2 k i j = some (r, k')) : k' = k ∨
    ∃ t, k.tasks k.gCurrent = some t ∧ i < TASK_MAX_FD ∧ (t.fd i).used = true ∧ j < TASK_MAX_FD ∧
      k' = (closeFile k (t.fd j)).setTask k.gCurrent { t with fd := update t.fd j (t.fd i) } := by
  rw [sysDup2] at h
  split at h
  · cases h
    exact .inl rfl
  obtain ⟨t, ht, h⟩ := Option.bind_eq_some_iff.mp h
  split at h
  · cases h
    exact .inl rfl
  rename_i hok
  obtain ⟨hi, hu⟩ := not_or.mp hok
  split at h
  · cases h
    exact .inl rfl
  · rename_i hj
    cases h
    refine .inr ⟨t, ht, Nat.not_le.mp hi, by simpa using hu, Nat.not_le.mp hj, ?_⟩
    rw [closeFile_gCurrent]

-- ---------------------------------------------------------------------------
-- fork
-- ---------------------------------------------------------------------------

theorem forkSlot_of_ne (h : forkSlot fd mem k child i = some (k', child')) (hj : j ≠ i) :
    child' j = child j := by
  rw [forkSlot] at h
  split at h
  · split at h
    · obtain ⟨f, -, h⟩ := Option.bind_eq_some_iff.mp h
      cases h
      exact Function.update_of_ne hj ..
    · cases h
      exact Function.update_of_ne hj ..
  · cases h
    rfl

theorem forkSlots_of_not_mem (h : forkSlots fd mem slots k child = some (k', child'))
    (hj : j ∉ slots) : child' j = child j := by
  induction slots generalizing k child with
  | nil =>
    cases h
    rfl
  | cons i slots ih =>
    rw [forkSlots] at h
    obtain ⟨⟨k₁, child₁⟩, h₁, h⟩ := Option.bind_eq_some_iff.mp h
    rw [ih h (List.not_mem_of_not_mem_cons hj), forkSlot_of_ne h₁ (List.ne_of_not_mem_cons hj)]

theorem forkSlots_entry (h : forkSlots fd mem slots k child = some (k', child')) (i : Nat) :
    (child' i).type = (child i).type ∧ ((child' i).used = true → (child i).used = true) := by
  induction slots generalizing k child with
  | nil =>
    cases h
    exact ⟨rfl, id⟩
  | cons j slots ih =>
    rw [forkSlots] at h
    obtain ⟨⟨k₁, child₁⟩, h₁, h⟩ := Option.bind_eq_some_iff.mp h
    obtain ⟨ht, hu⟩ := ih h
    rw [ht]
    by_cases hij : i = j
    · subst hij
      rw [forkSlot] at h₁
      split at h₁
      · split at h₁
        · obtain ⟨f, -, h₁⟩ := Option.bind_eq_some_iff.mp h₁
          cases h₁
          rw [Function.update_self] at hu ⊢
          exact ⟨rfl, hu⟩
        · cases h₁
          rw [Function.update_self] at hu ⊢
          exact ⟨rfl, fun h => absurd (hu h) Bool.false_ne_true⟩
      · cases h₁
        exact ⟨rfl, hu⟩
    · rw [forkSlot_of_ne h₁ hij] at hu ⊢
      exact ⟨rfl, hu⟩

theorem slotRefs_addChild (hk : Known k) (hcur : k.tasks k.gCurrent = some cur)
    (hl : cur.state ≠ .terminated) : slotRefs g (addChild k cur fd) = fun s =>
      if s.1 = k.nextTask ∧ s.2 < TASK_MAX_FD then g (fd s.2) else slotRefs g k s := by
  have hne : k.gCurrent ≠ k.nextTask := Nat.ne_of_lt (hk _ _ hcur)
  have hcur' : ({ k with nextTask := k.nextTask + 1 }.setTask k.nextTask
      { cur with pid := 0, ppid := cur.pid, fd := fd }).tasks k.gCurrent = some cur :=
    (KernelState.setTask_of_ne _ _ hne).trans hcur
  rw [addChild, if_neg hl]
  refine (slotRefs_setTask_same hcur' { cur with next := k.nextTask } rfl rfl).trans ?_
  funext s
  obtain ⟨b, i⟩ := s
  by_cases hb : b = k.nextTask
  · subst hb
    rw [slotRefs, KernelState.setTask_self, Option.bind_some]
    by_cases hi : i < TASK_MAX_FD
    · rw [if_pos ⟨hl, hi⟩, if_pos ⟨rfl, hi⟩]
    · rw [if_neg fun h => hi h.2, if_neg fun h => hi h.2, slotRefs_of_ge (Nat.not_lt.mp hi)]
  · rw [if_neg fun h => hb h.1, slotRefs, slotRefs, KernelState.setTask_of_ne _ _ hb]

-- ---------------------------------------------------------------------------
-- close_all
-- ---------------------------------------------------------------------------

theorem closeSlot_live (h : Live k a) : Live (closeSlot a k i) a := by
  obtain ⟨t, ht, hl⟩ := h
  obtain ⟨t', ht'⟩ := (closeSlot_quiet a k i).kept a t ht
  obtain ⟨u, hu, hs⟩ := (closeSlot_quiet a k i).tasks a t' ht'
  cases ht.symm.trans hu
  exact ⟨t', ht', hs.state ▸ hl⟩

theorem slotRefs_closeSlot (hg : ∀ e, e.used = false → g e = none) (hl : Live k a)
    (hi : i < TASK_MAX_FD) :
    slotRefs g (closeSlot a k i) = update (slotRefs g k) (a, i) none := by
  obtain ⟨t, ht, hl⟩ := hl
  rw [closeSlot]
  simp only [ht]
  split
  · rename_i hu
    have hnone : slotRefs g k (a, i) = none := by
      rw [slotRefs_of_live ht hl hi]
      exact hg _ (by simpa using hu)
    rw [← hnone, Function.update_eq_self]
  · have ht : (closeFile k (t.fd i)).tasks a = some t := by
      rw [closeFile_tasks]
      exact ht
    rw [slotRefs_setTask ht hl hi, hg .free rfl, slotRefs_tasks (closeFile_tasks k _)]

theorem slotRefs_closeSlots (hg : ∀ e, e.used = false → g e = none) (hl : Live k a)
    {slots : List Nat} (hi : ∀ i ∈ slots, i < TASK_MAX_FD) (s : Nat × Nat) :
    slotRefs g (slots.foldl (closeSlot a) k) s =
      if s.1 = a ∧ s.2 ∈ slots then none else slotRefs g k s := by
  induction slots generalizing k with
  | nil => exact (if_neg fun hm => List.not_mem_nil hm.2).symm
  | cons i slots ih =>
    refine (ih (closeSlot_live hl) fun j hj => hi j (List.mem_cons_of_mem _ hj)).trans ?_
    rw [slotRefs_closeSlot hg hl (hi i List.mem_cons_self)]
    by_cases hs : s = (a, i)
    · rw [hs, Function.update_self, ite_self, if_pos ⟨rfl, List.mem_cons_self⟩]
    · rw [Function.update_of_ne hs]
      simp only [mem_cons_slot hs]

theorem slotRefs_closeAll (hg : ∀ e, e.used = false → g e = none) (hl : Live k a) :
    slotRefs g (taskFdCloseAll k a) (b, i) =
      if b = a ∧ 3 ≤ i then none else slotRefs g k (b, i) := by
  refine (slotRefs_closeSlots hg hl (fun _ hi => (mem_fdSlots.mp hi).2) _).trans ?_
  by_cases hi : i < TASK_MAX_FD
  · have hmem : i ∈ fdSlots ↔ 3 ≤ i := by
      rw [mem_fdSlots]
      exact and_iff_left hi
    simp only [hmem]
  · rw [slotRefs_of_ge (Nat.not_lt.mp hi), ite_self, ite_self]

theorem closeAll_gCurrent (k : KernelState) (a : Nat) :
    (taskFdCloseAll k a).gCurrent = k.gCurrent := by
  rw [taskFdCloseAll]
  generalize fdSlots = slots
  induction slots generalizing k with
  | nil => rfl
  | cons i slots ih =>
    refine (ih _).trans ?_
    rw [closeSlot]
    split
    · rfl
    split
    · rfl
    · exact closeFile_gCurrent k _

/-- `SYS_EXIT` closes what `task_fd_close_all` does, and the other slots go with the task. -/
theorem exitTask_spec (hg : ∀ e, e.used = false → g e = none) (hl : Live k k.gCurrent)
    (hstd : ∀ i, i < 3 → slotRefs g k (k.gCurrent, i) = none) (h : exitTask k code = some k') :
    k' = k ∨ ∃ t a p c,
      k' = ((taskFdCloseAll k k.gCurrent).setTask k.gCurrent t).emit (.terminated a p c) ∧
      slotRefs g k' = slotRefs g (taskFdCloseAll k k.gCurrent) := by
  rw [exitTask] at h
  split at h
  · cases h
    exact .inl rfl
  dsimp only at h
  obtain ⟨t, ht, h⟩ := Option.bind_eq_some_iff.mp h
  rw [closeAll_gCurrent] at h
  cases h
  refine .inr ⟨{ t with exitCode := code, state := .terminated }, _, _, _, rfl, ?_⟩
  funext s
  obtain ⟨b, i⟩ := s
  by_cases hb : b = k.gCurrent
  · subst hb
    have hno : slotRefs g (taskFdCloseAll k k.gCurrent) (k.gCurrent, i) = none := by
      rw [slotRefs_closeAll hg hl]
      by_cases hi : 3 ≤ i
      · exact if_pos ⟨rfl, hi⟩
      · rw [if_neg fun hm => hi hm.2]
        exact hstd i (Nat.not_le.mp hi)
    rw [hno, slotRefs]
    dsimp only [KernelState.emit]
    rw [KernelState.setTask_self, Option.bind_some]
    exact if_neg fun h => h.1 rfl
  · rw [slotRefs, slotRefs]
    dsimp only [KernelState.emit]
    rw [KernelState.setTask_of_ne _ _ hb]

-- ---------------------------------------------------------------------------
-- The tasks there are
-- ---------------------------------------------------------------------------

theorem dropEntry_quiet (k : KernelState) (e : FdEntry) : Quiet k (dropEntry k e) := by
  rw [dropEntry]
  split
  · have h := Quiet.refl k
    exact ⟨h.tasks, h.kept, rfl, rfl, h.events⟩
  split
  · exact .vfsClose k _
  · exact .refl k

theorem sysOpen_known (hk : Known k) (h : sysOpen k found = some (r, k')) : Known k' := by
  cases found with
  | none =>
    cases h
    exact hk
  | some file =>
    have hnew := (Quiet.newFile k file).known hk
    obtain rfl | ⟨t, t', i, ht, -, -, -, rfl⟩ := sysOpen_spec h
    · exact (Quiet.vfsClose _ _).known hnew
    · exact hnew.setTask ht t'

theorem sysFileIo_known (hk : Known k) (h : sysFileIo k fd n = some (r, k')) : Known k' := by
  obtain rfl | ⟨f, file, rfl⟩ := sysFileIo_spec h
  · exact hk
  · exact hk

theorem sysPipe_known (hk : Known k) (h : sysPipe k bufOk = some (r, k')) : Known k' := by
  obtain rfl | ⟨p, k₁, -, -, rfl, rfl | ⟨t, i, ht, -, -, rfl | ⟨j, -, -, -, rfl⟩⟩⟩ := sysPipe_spec h
  · exact hk
  · exact hk
  · exact hk.setTask ht { t with fd := update t.fd i .free }
  · exact hk.setTask ht _

theorem sysFork_known (hk : Known k) (h : sysFork k frames mem = some (r, k')) : Known k' := by
  rw [sysFork] at h
  split at h
  · cases h
    exact hk
  obtain ⟨cur, hcur, h⟩ := Option.bind_eq_some_iff.mp h
  obtain ⟨⟨k₁, fd⟩, h₁, h⟩ := Option.bind_eq_some_iff.mp h
  cases h
  obtain ⟨hq, ht, hg, -⟩ := forkSlots_quiet h₁
  refine addChild_known (hq.known hk) ?_
  rw [hg, ht]
  exact hcur

theorem sysExec_known (hk : Known k) (load : ElfLoad) : Known (sysExec k load).2 := by
  have hnew : ∀ file, Known (newFile k file) := fun file => (Quiet.newFile k file).known hk
  have hclosed : ∀ file, Known (vfsClose (newFile k file) k.nextFile) :=
    fun file => (Quiet.vfsClose _ _).known (hnew file)
  cases load with
  | notFound => exact hk
  | noClone file => exact hnew file
  | failed file => exact hclosed file
  | loaded file =>
    rw [sysExec, elfLoad]
    dsimp only
    split
    · exact hclosed file
    · exact (taskFdCloseAll_quiet _ _).known (hclosed file)

theorem sysExit_known (hk : Known k) (h : sysExit k code = some k') : Known k' := by
  rw [sysExit] at h
  obtain ⟨k₁, hexit, h⟩ := Option.bind_eq_some_iff.mp h
  have h₁ : Known k₁ := by
    rw [exitTask] at hexit
    split at hexit
    · cases hexit
      exact hk
    dsimp only at hexit
    obtain ⟨t, ht, hexit⟩ := Option.bind_eq_some_iff.mp hexit
    cases hexit
    exact ((taskFdCloseAll_quiet k k.gCurrent).known hk).setTask ht _
  cases h
  split
  · exact h₁
  · exact h₁

theorem fdStep_known (hk : Known k) (h : fdStep k c k') : Known k' := by
  obtain ⟨a, c⟩ := c
  obtain ⟨-, -, h⟩ := h
  have hk : Known { k with gCurrent := a } := hk
  cases c with
  | «open» found =>
    obtain ⟨⟨r, k₁⟩, h₁, rfl⟩ := Option.map_eq_some_iff.mp h
    exact sysOpen_known hk h₁
  | create found =>
    obtain ⟨⟨r, k₁⟩, h₁, rfl⟩ := Option.map_eq_some_iff.mp h
    exact sysOpen_known hk h₁
  | read fd n =>
    obtain ⟨⟨r, k₁⟩, h₁, rfl⟩ := Option.map_eq_some_iff.mp h
    rw [sysRead] at h₁
    split at h₁
    · cases h₁
      exact hk
    · exact sysFileIo_known hk h₁
  | write fd n =>
    obtain ⟨⟨r, k₁⟩, h₁, rfl⟩ := Option.map_eq_some_iff.mp h
    rw [sysWrite] at h₁
    split at h₁
    · cases h₁
      exact hk
    · exact sysFileIo_known hk h₁
  | close fd =>
    obtain ⟨⟨r, k₁⟩, h₁, rfl⟩ := Option.map_eq_some_iff.mp h
    obtain rfl | ⟨t, ht, -, -, rfl⟩ := sysClose_spec h₁
    · exact hk
    · exact ((dropEntry_quiet _ _).known hk).setTask ((dropEntry_tasks _ _).1 ▸ ht) _
  | dup2 oldfd newfd =>
    obtain ⟨⟨r, k₁⟩, h₁, rfl⟩ := Option.map_eq_some_iff.mp h
    obtain rfl | ⟨t, ht, -, -, -, rfl⟩ := sysDup2_spec h₁
    · exact hk
    · exact ((closeFile_quiet _ _).known hk).setTask (closeFile_tasks _ _ ▸ ht) _
  | pipe bufOk =>
    obtain ⟨⟨r, k₁⟩, h₁, rfl⟩ := Option.map_eq_some_iff.mp h
    exact sysPipe_known hk h₁
  | fork frames mem =>
    obtain ⟨⟨r, k₁⟩, h₁, rfl⟩ := Option.map_eq_some_iff.mp h
    exact sysFork_known hk h₁
  | exec load =>
    cases h
    exact sysExec_known hk load
  | exit code => exact sysExit_known hk h

theorem twoTasks_booted : Booted twoTasks := by
  refine ⟨twoTasks_known, fun a t i ht => ?_, fun _ => rfl, Nat.one_pos⟩
  rw [twoTasks] at ht
  dsimp only at ht
  split at ht
  · cases ht
    rfl
  split at ht
  · cases ht
    rfl
  · cases ht

end EponaOS.Kernel
