import EponaOS.Lib.Run
import EponaOS.Kernel.Descriptors

/-!
# Pipe counts

A pipe counts its readers and writers. `SYS_PIPE` and `SYS_CLOSE` keep the counts, while
`SYS_DUP2`, `SYS_FORK`, `SYS_EXEC` and `SYS_EXIT` copy and drop descriptors without a look
at them. Where those meet no pipe, the counts are the numbers of the descriptors.
-/

namespace EponaOS.Kernel

open Function (update)

inductive PipeEnd
  | read
  | write
  deriving DecidableEq

def FdEntry.pipeEnd (e : FdEntry) : Option (Nat × PipeEnd) :=
  if e.used then
    if e.type = FD_TYPE_PIPE_R then some (e.ptr - 1, .read)
    else if e.type = FD_TYPE_PIPE_W then some (e.ptr - 1, .write)
    else none
  else none

def KernelState.pipeRefs (k : KernelState) : Nat × Nat → Option (Nat × PipeEnd) :=
  slotRefs FdEntry.pipeEnd k

def KernelState.slots (k : KernelState) : Finset (Nat × Nat) :=
  Finset.range k.nextTask ×ˢ Finset.range TASK_MAX_FD

structure Pipe.Counts (p : Pipe) (readers writers : Nat) : Prop where
  used : p.used = true ↔ ¬(readers = 0 ∧ writers = 0)
  readers : p.used = true → p.readers = readers
  writers : p.used = true → p.writers = writers

/-- The counts are the numbers of `refs`, and a pipe is in use while one of them is not 0. -/
def Counted (pipes : Nat → Pipe) (slots : Finset (Nat × Nat))
    (refs : Nat × Nat → Option (Nat × PipeEnd)) : Prop :=
  ∀ p, (pipes p).Counts (refCount slots refs (p, .read)) (refCount slots refs (p, .write))

def PipesCounted (k : KernelState) : Prop := Counted k.gPipes k.slots k.pipeRefs

variable {k k' : KernelState} {pipes : Nat → Pipe} {slots : Finset (Nat × Nat)}
  {refs : Nat × Nat → Option (Nat × PipeEnd)} {slots' : Finset (Nat × Nat)}

theorem FdEntry.pipeEnd_unused {e : FdEntry} (h : e.used = false) : e.pipeEnd = none :=
  if_neg fun hu => Bool.false_ne_true (h.symm.trans hu)

theorem FdEntry.pipeEnd_of_type {e : FdEntry} (hr : e.type ≠ FD_TYPE_PIPE_R)
    (hw : e.type ≠ FD_TYPE_PIPE_W) : e.pipeEnd = none := by
  rw [FdEntry.pipeEnd, if_neg hr, if_neg hw, ite_self]

theorem pipesCounted_init (hb : Booted k) : PipesCounted k := by
  have hnone : ∀ s, k.pipeRefs s = none := by
    intro s
    rw [KernelState.pipeRefs, slotRefs]
    cases ht : k.tasks s.1 with
    | none => rfl
    | some t =>
      rw [Option.bind_some, FdEntry.pipeEnd_unused (hb.unused s.1 t s.2 ht)]
      exact ite_self none
  have hcount : ∀ r, refCount k.slots k.pipeRefs r = 0 := fun r =>
    refCount_eq_zero.mpr fun s _ hs => by cases (hnone s).symm.trans hs
  have hunused : ∀ p, (k.gPipes p).used ≠ true := fun p hp =>
    Bool.false_ne_true ((hb.pipes p).symm.trans hp)
  refine fun p => ⟨?_, fun hp => absurd hp (hunused p), fun hp => absurd hp (hunused p)⟩
  exact iff_of_false (hunused p) (not_not.mpr ⟨hcount _, hcount _⟩)

-- ---------------------------------------------------------------------------
-- One pipe
-- ---------------------------------------------------------------------------

theorem Pipe.Counts.eq_zero {p : Pipe} (h : p.Counts r w) (hp : p.used = false) :
    r = 0 ∧ w = 0 :=
  Decidable.not_not.mp fun hn => Bool.false_ne_true (hp.symm.trans (h.used.mpr hn))

theorem Pipe.Counts.released {p : Pipe} (hp : p.used = false) : p.Counts 0 0 :=
  have hn : p.used ≠ true := fun hu => Bool.false_ne_true (hp.symm.trans hu)
  ⟨iff_of_false hn (not_not.mpr ⟨rfl, rfl⟩), fun hu => absurd hu hn, fun hu => absurd hu hn⟩

theorem Pipe.Counts.new : (⟨0, 0, 1, 1, true⟩ : Pipe).Counts 1 1 :=
  ⟨iff_of_true rfl fun h => Nat.one_ne_zero h.1, fun _ => rfl, fun _ => rfl⟩

theorem Pipe.Counts.dropReader {p : Pipe} (h : p.Counts (r + 1) w) :
    (p.dropEnd FD_TYPE_PIPE_R).Counts r w := by
  have hu : p.used = true := h.used.mpr fun hz => Nat.succ_ne_zero r hz.1
  have hr := h.readers hu
  have hw := h.writers hu
  rw [Pipe.dropEnd, if_pos rfl]
  dsimp only
  split
  · rename_i hz
    have h0 : r = 0 ∧ w = 0 := by omega
    rw [h0.1, h0.2]
    exact .released rfl
  · rename_i hz
    exact ⟨iff_of_true hu (by omega), fun _ => by dsimp only; omega, fun _ => hw⟩

theorem Pipe.Counts.dropWriter {p : Pipe} (h : p.Counts r (w + 1)) :
    (p.dropEnd FD_TYPE_PIPE_W).Counts r w := by
  have hu : p.used = true := h.used.mpr fun hz => Nat.succ_ne_zero w hz.2
  have hr := h.readers hu
  have hw := h.writers hu
  have hne : FD_TYPE_PIPE_W ≠ FD_TYPE_PIPE_R := by decide
  rw [Pipe.dropEnd, if_neg hne]
  dsimp only
  split
  · rename_i hz
    have h0 : r = 0 ∧ w = 0 := by omega
    rw [h0.1, h0.2]
    exact .released rfl
  · rename_i hz
    exact ⟨iff_of_true hu (by omega), fun _ => hr, fun _ => by dsimp only; omega⟩

-- ---------------------------------------------------------------------------
-- The table
-- ---------------------------------------------------------------------------

theorem Counted.pipe (h : Counted pipes slots refs) (hp : (pipes p).used = false)
    (hs : s ∈ slots) (hs' : s' ∈ slots) (hne : s' ≠ s) (hr : refs s = none) (hr' : refs s' = none) :
    Counted (update pipes p ⟨0, 0, 1, 1, true⟩) slots
      (update (update refs s (some (p, .read))) s' (some (p, .write))) := by
  have hcount : ∀ r, refCount slots (update (update refs s (some (p, .read))) s'
      (some (p, .write))) r = refCount slots refs r + (if (p, PipeEnd.read) = r then 1 else 0) +
        if (p, PipeEnd.write) = r then 1 else 0 := by
    intro r
    have h₁ := refCount_update refs hs (some (p, .read)) r
    have h₂ := refCount_update (update refs s (some (p, .read))) hs' (some (p, .write)) r
    rw [hr, if_neg nofun] at h₁
    rw [Function.update_of_ne hne, hr', if_neg nofun] at h₂
    simp only [Option.some.injEq] at h₁ h₂
    omega
  intro q
  rw [hcount, hcount]
  by_cases hq : q = p
  · subst hq
    obtain ⟨hr0, hw0⟩ := (h q).eq_zero hp
    rw [Function.update_self, hr0, hw0, if_pos rfl, if_pos rfl, if_neg nofun, if_neg nofun]
    exact .new
  · rw [Function.update_of_ne hq, if_neg fun he => hq (Prod.mk.inj he).1.symm,
      if_neg fun he => hq (Prod.mk.inj he).1.symm, if_neg fun he => hq (Prod.mk.inj he).1.symm,
      if_neg fun he => hq (Prod.mk.inj he).1.symm]
    exact h q

theorem Counted.dropReader (h : Counted pipes slots refs) (hs : s ∈ slots)
    (hr : refs s = some (p, .read)) :
    Counted (update pipes p ((pipes p).dropEnd FD_TYPE_PIPE_R)) slots (update refs s none) := by
  intro q
  have hwrite : refs s ≠ some (q, .write) := hr ▸ nofun
  rw [refCount_drop_of_ne hs hwrite]
  by_cases hq : q = p
  · subst hq
    rw [Function.update_self]
    exact .dropReader (refCount_drop_self hs hr ▸ h q)
  · have hread : refs s ≠ some (q, .read) := fun he =>
      hq (Prod.mk.inj (Option.some.inj (he.symm.trans hr))).1
    rw [Function.update_of_ne hq, refCount_drop_of_ne hs hread]
    exact h q

theorem Counted.dropWriter (h : Counted pipes slots refs) (hs : s ∈ slots)
    (hr : refs s = some (p, .write)) :
    Counted (update pipes p ((pipes p).dropEnd FD_TYPE_PIPE_W)) slots (update refs s none) := by
  intro q
  have hread : refs s ≠ some (q, .read) := hr ▸ nofun
  rw [refCount_drop_of_ne hs hread]
  by_cases hq : q = p
  · subst hq
    rw [Function.update_self]
    exact .dropWriter (refCount_drop_self hs hr ▸ h q)
  · have hwrite : refs s ≠ some (q, .write) := fun he =>
      hq (Prod.mk.inj (Option.some.inj (he.symm.trans hr))).1
    rw [Function.update_of_ne hq, refCount_drop_of_ne hs hwrite]
    exact h q

theorem Counted.mono (h : Counted pipes slots refs) (hsub : slots ⊆ slots')
    (hin : ∀ s r, refs s = some r → s ∈ slots) : Counted pipes slots' refs := fun p => by
  rw [refCount_mono hsub fun s => hin s _, refCount_mono hsub fun s => hin s _]
  exact h p

theorem Counted.release (h : Counted pipes slots refs) (hp : (pipes p).used = false)
    (hu : new.used = false) : Counted (update pipes p new) slots refs := by
  intro q
  by_cases hq : q = p
  · subst hq
    obtain ⟨hr, hw⟩ := (h q).eq_zero hp
    rw [Function.update_self, hr, hw]
    exact .released hu
  · rw [Function.update_of_ne hq]
    exact h q

-- ---------------------------------------------------------------------------
-- Calls that concern no pipe
-- ---------------------------------------------------------------------------

theorem pipesCounted_of (h : PipesCounted k) (hp : k'.gPipes = k.gPipes)
    (hn : k'.nextTask = k.nextTask) (hr : k'.pipeRefs = k.pipeRefs) : PipesCounted k' := by
  rw [PipesCounted, KernelState.slots, hp, hn, hr]
  exact h

theorem mem_slots (hk : Known k) (ht : k.tasks a = some t) (hi : i < TASK_MAX_FD) :
    (a, i) ∈ k.slots :=
  Finset.mem_product.mpr ⟨Finset.mem_range.mpr (hk a t ht), Finset.mem_range.mpr hi⟩

theorem pipeRefs_mem_slots (hk : Known k) (h : k.pipeRefs s = some r) : s ∈ k.slots := by
  obtain ⟨t, ht, -, hi, -⟩ := slotRefs_eq_some h
  exact mem_slots hk ht hi

theorem pipesCounted_setSlot (h : PipesCounted k) (ht : k.tasks a = some t)
    (hl : t.state ≠ .terminated) (hi : i < TASK_MAX_FD) (he : e.pipeEnd = k.pipeRefs (a, i)) :
    PipesCounted (k.setTask a { t with fd := update t.fd i e }) := by
  refine pipesCounted_of h rfl rfl ((slotRefs_setTask ht hl hi e).trans ?_)
  rw [he]
  exact Function.update_eq_self ..

theorem vfsClose_gPipes (k : KernelState) (f : Nat) : (vfsClose k f).gPipes = k.gPipes := by
  rw [vfsClose]
  split <;> rfl

theorem closeFile_gPipes (k : KernelState) (e : FdEntry) : (closeFile k e).gPipes = k.gPipes := by
  rw [closeFile]
  split
  · exact vfsClose_gPipes k _
  · rfl

theorem closeAll_gPipes (k : KernelState) (a : Nat) : (taskFdCloseAll k a).gPipes = k.gPipes := by
  rw [taskFdCloseAll]
  generalize fdSlots = slots
  induction slots generalizing k with
  | nil => rfl
  | cons i slots ih =>
    refine (ih _).trans ?_
    rw [closeSlot]
    split
    · rfl
    split
    · rfl
    · exact closeFile_gPipes k _

theorem taskFdCloseAll_counted (h : PipesCounted k) (hl : Live k a)
    (hno : ∀ i, 3 ≤ i → k.pipeRefs (a, i) = none) : PipesCounted (taskFdCloseAll k a) := by
  refine pipesCounted_of h (closeAll_gPipes k a) (taskFdCloseAll_quiet k a).next ?_
  funext s
  obtain ⟨b, i⟩ := s
  refine (slotRefs_closeAll (fun _ => FdEntry.pipeEnd_unused) hl).trans ?_
  split
  · rename_i hi
    exact hi.1 ▸ (hno i hi.2).symm
  · rfl

theorem openClose_counted (h : PipesCounted k) (file : OpenFile) :
    PipesCounted (vfsClose (newFile k file) k.nextFile) :=
  pipesCounted_of h (vfsClose_gPipes _ _) (Quiet.vfsClose _ _).next (slotRefs_tasks (vfsClose_tasks _ _))

theorem sysOpen_counted (h : PipesCounted k) (hl : Live k k.gCurrent)
    (hs : sysOpen k found = some (r, k')) : PipesCounted k' := by
  cases found with
  | none =>
    cases hs
    exact h
  | some file =>
    obtain rfl | ⟨t, t', i, ht, hi, hu, rfl, rfl⟩ := sysOpen_spec hs
    · exact openClose_counted h file
    · obtain ⟨u, hu', hl⟩ := hl
      cases ht.symm.trans hu'
      have hfree : k.pipeRefs (k.gCurrent, i) = none :=
        slotRefs_unused (fun _ => FdEntry.pipeEnd_unused) ht hu
      have hnew : PipesCounted (newFile k file) := pipesCounted_of h rfl rfl rfl
      exact pipesCounted_setSlot hnew ht hl hi.2 hfree.symm

theorem sysFileIo_counted (h : PipesCounted k) (hs : sysFileIo k fd n = some (r, k')) :
    PipesCounted k' := by
  obtain rfl | ⟨f, file, rfl⟩ := sysFileIo_spec hs
  · exact h
  · exact pipesCounted_of h rfl rfl rfl

theorem sysDup2_counted (h : PipesCounted k) (hl : Live k k.gCurrent)
    (hok : ∀ t, k.tasks k.gCurrent = some t → i < TASK_MAX_FD → (t.fd i).used = true →
      j < TASK_MAX_FD → k.pipeRefs (k.gCurrent, j) = k.pipeRefs (k.gCurrent, i))
    (hs : sysDup2 k i j = some (r, k')) : PipesCounted k' := by
  obtain rfl | ⟨t, ht, hi, hu, hj, rfl⟩ := sysDup2_spec hs
  · exact h
  have hsame := hok t ht hi hu hj
  obtain ⟨t, ht', hl⟩ := hl
  cases ht.symm.trans ht'
  have htasks := closeFile_tasks k (t.fd j)
  have hclose : PipesCounted (closeFile k (t.fd j)) :=
    pipesCounted_of h (closeFile_gPipes k _) (closeFile_quiet k _).next (slotRefs_tasks htasks)
  refine pipesCounted_setSlot hclose (htasks ▸ ht) hl hj ?_
  have hrefs : (closeFile k (t.fd j)).pipeRefs = k.pipeRefs := slotRefs_tasks htasks
  rw [hrefs, hsame]
  exact (slotRefs_of_live ht hl hi).symm

theorem FdEntry.pipeEnd_eq_none {e e' : FdEntry} (ht : e'.type = e.type)
    (hu : e'.used = true → e.used = true) (he : e.pipeEnd = none) : e'.pipeEnd = none := by
  cases hu' : e'.used with
  | false => exact FdEntry.pipeEnd_unused hu'
  | true =>
    rw [FdEntry.pipeEnd, if_pos (hu hu')] at he
    refine FdEntry.pipeEnd_of_type (fun hr => ?_) fun hw => ?_
    · rw [if_pos (ht.symm.trans hr)] at he
      cases he
    · split at he
      · cases he
      · rw [if_pos (ht.symm.trans hw)] at he
        cases he

theorem sysFork_counted (hk : Known k) (h : PipesCounted k) (hl : Live k k.gCurrent)
    (hok : frames = true → ∀ i, k.pipeRefs (k.gCurrent, i) = none)
    (hs : sysFork k frames mem = some (r, k')) : PipesCounted k' := by
  rw [sysFork] at hs
  split at hs
  · cases hs
    exact h
  rename_i hframes
  have hno := hok (Bool.eq_true_of_not_eq_false fun hf => hframes (.inr hf))
  obtain ⟨cur, hcur, hs⟩ := Option.bind_eq_some_iff.mp hs
  obtain ⟨⟨k₁, fd⟩, h₁, hs⟩ := Option.bind_eq_some_iff.mp hs
  cases hs
  obtain ⟨t, ht, hl⟩ := hl
  cases hcur.symm.trans ht
  obtain ⟨hq, htasks, hg, hpipes⟩ := forkSlots_quiet h₁
  have hcur₁ : k₁.tasks k₁.gCurrent = some cur := by
    rw [hg, htasks]
    exact hcur
  have hnew : ∀ s, s.1 = k.nextTask → k.pipeRefs s = none := by
    intro s hs
    rw [KernelState.pipeRefs, slotRefs, hs, hk.none (Nat.le_refl _)]
    rfl
  have hrefs : (addChild k₁ cur fd).pipeRefs = k.pipeRefs := by
    refine (slotRefs_addChild (hq.known hk) hcur₁ hl).trans ?_
    funext s
    rw [slotRefs_tasks htasks]
    split
    · rename_i hs
      obtain ⟨hty, hu⟩ := forkSlots_entry h₁ s.2
      have hcurslot := (slotRefs_of_live hcur hl hs.2).symm.trans (hno s.2)
      rw [FdEntry.pipeEnd_eq_none hty hu hcurslot, hnew s (hs.1.trans hq.next)]
    · rfl
  have hadd : (addChild k₁ cur fd).gPipes = k.gPipes ∧
      (addChild k₁ cur fd).nextTask = k.nextTask + 1 := by
    rw [addChild, if_neg hl]
    exact ⟨hpipes, congrArg (· + 1) hq.next⟩
  have hslots : k.slots ⊆ (addChild k₁ cur fd).slots := by
    rw [KernelState.slots, KernelState.slots, hadd.2]
    exact Finset.product_subset_product_left (Finset.range_mono (Nat.le_succ _))
  rw [PipesCounted, hadd.1, hrefs]
  exact Counted.mono h hslots fun s r => pipeRefs_mem_slots hk

theorem sysExec_counted (h : PipesCounted k) (hl : Live k k.gCurrent)
    (hok : ∀ file, load = .loaded file → ∀ i, 3 ≤ i → k.pipeRefs (k.gCurrent, i) = none) :
    PipesCounted (sysExec k load).2 := by
  cases load with
  | notFound => exact h
  | noClone file => exact pipesCounted_of h rfl rfl rfl
  | failed file => exact openClose_counted h file
  | loaded file =>
    have h₁ := openClose_counted h file
    have htasks : (vfsClose (newFile k file) k.nextFile).tasks = k.tasks := vfsClose_tasks ..
    rw [sysExec, elfLoad]
    dsimp only
    split
    · exact h₁
    · refine taskFdCloseAll_counted h₁ ?_ fun i hi => ?_
      · rwa [vfsClose_gCurrent, Live, htasks]
      · rw [vfsClose_gCurrent, KernelState.pipeRefs, slotRefs_tasks htasks]
        exact hok file rfl i hi

theorem sysExit_counted (h : PipesCounted k) (hl : Live k k.gCurrent)
    (hok : ∀ i, k.pipeRefs (k.gCurrent, i) = none) (hs : sysExit k code = some k') :
    PipesCounted k' := by
  rw [sysExit] at hs
  obtain ⟨k₁, hexit, hs⟩ := Option.bind_eq_some_iff.mp hs
  have h₁ : PipesCounted k₁ := by
    obtain rfl | ⟨t, a, p, c, rfl, hrefs⟩ :=
      exitTask_spec (fun _ => FdEntry.pipeEnd_unused) hl (fun i _ => hok i) hexit
    · exact h
    · have hall := taskFdCloseAll_counted h hl fun i _ => hok i
      exact pipesCounted_of hall rfl rfl hrefs
  cases hs
  split
  · exact pipesCounted_of h₁ rfl rfl rfl
  · exact pipesCounted_of h₁ rfl rfl rfl

-- ---------------------------------------------------------------------------
-- Calls that count
-- ---------------------------------------------------------------------------

theorem sysPipe_counted (hk : Known k) (h : PipesCounted k) (hl : Live k k.gCurrent)
    (hs : sysPipe k bufOk = some (r, k')) : PipesCounted k' := by
  obtain rfl | ⟨p, k₁, -, hp, rfl, rfl | ⟨t, i, ht, hi, hu, hrest⟩⟩ := sysPipe_spec hs
  · exact h
  · rw [PipesCounted, pipeRelease]
    dsimp only
    rw [Function.update_idem]
    exact h.release hp rfl
  obtain ⟨t, ht', hl⟩ := hl
  cases ht.symm.trans ht'
  have hfree : ∀ i, (t.fd i).used = false → k.pipeRefs (k.gCurrent, i) = none := fun i hi =>
    slotRefs_unused (fun _ => FdEntry.pipeEnd_unused) ht hi
  have hmem : ∀ i, i < TASK_MAX_FD → (k.gCurrent, i) ∈ k.slots := fun i hi => mem_slots hk ht hi
  obtain rfl | ⟨j, hne, hj, hu', rfl⟩ := hrest
  · have hset := pipesCounted_setSlot h ht hl hi (e := .free) (hfree i hu).symm
    rw [PipesCounted, pipeRelease]
    dsimp only [KernelState.setTask]
    rw [Function.update_idem]
    exact Counted.release hset hp rfl
  · have hrefs := slotRefs_setTask₂ (g := FdEntry.pipeEnd) ht hl hi hj
      ⟨p + 1, FD_TYPE_PIPE_R, true⟩ ⟨p + 1, FD_TYPE_PIPE_W, true⟩
    have hslot : (k.gCurrent, j) ≠ (k.gCurrent, i) := fun he => hne (Prod.mk.inj he).2
    have hpipe := Counted.pipe h hp (hmem i hi) (hmem j hj) hslot (hfree i hu) (hfree j hu')
    exact (congrArg (Counted _ k.slots) hrefs).mpr hpipe

theorem sysClose_counted (hk : Known k) (h : PipesCounted k) (hl : Live k k.gCurrent)
    (hs : sysClose k i = some (r, k')) : PipesCounted k' := by
  obtain rfl | ⟨t, ht, hi, hu, rfl⟩ := sysClose_spec hs
  · exact h
  obtain ⟨t, ht', hl⟩ := hl
  cases ht.symm.trans ht'
  have hend : k.pipeRefs (k.gCurrent, i) = (t.fd i).pipeEnd := slotRefs_of_live ht hl hi
  have hmem := mem_slots hk ht hi
  have hsame := dropEntry_tasks k (t.fd i)
  have hrefs : ((dropEntry k (t.fd i)).setTask k.gCurrent
      { t with fd := update t.fd i .free }).pipeRefs = update k.pipeRefs (k.gCurrent, i) none := by
    refine (slotRefs_setTask (hsame.1 ▸ ht) hl hi .free).trans ?_
    rw [slotRefs_tasks hsame.1]
    rfl
  have hslots : ((dropEntry k (t.fd i)).setTask k.gCurrent
      { t with fd := update t.fd i .free }).slots = k.slots := by
    rw [KernelState.slots, KernelState.slots, ← hsame.2.2]
    rfl
  rw [PipesCounted, hrefs, hslots]
  dsimp only [KernelState.setTask]
  rw [FdEntry.pipeEnd, if_pos hu] at hend
  by_cases hr : (t.fd i).type = FD_TYPE_PIPE_R
  · rw [if_pos hr] at hend
    rw [dropEntry, if_pos (.inl hr), hr]
    exact Counted.dropReader h hmem hend
  rw [if_neg hr] at hend
  by_cases hw : (t.fd i).type = FD_TYPE_PIPE_W
  · rw [if_pos hw] at hend
    rw [dropEntry, if_pos (.inr hw), hw]
    exact Counted.dropWriter h hmem hend
  rw [if_neg hw] at hend
  have hpipes : (dropEntry k (t.fd i)).gPipes = k.gPipes := by
    rw [dropEntry, if_neg (not_or.mpr ⟨hr, hw⟩)]
    split
    · exact vfsClose_gPipes k _
    · rfl
  rw [hpipes, ← hend, Function.update_eq_self]
  exact h

-- ---------------------------------------------------------------------------
-- Runs
-- ---------------------------------------------------------------------------

/-- The call copies or drops no descriptor of a pipe without a count. -/
def KeepsCounts (k : KernelState) (c : Nat × FdCall) : Prop :=
  match c.2 with
  | .dup2 oldfd newfd => ∀ t, k.tasks c.1 = some t → oldfd < TASK_MAX_FD →
      (t.fd oldfd).used = true → newfd < TASK_MAX_FD →
      k.pipeRefs (c.1, newfd) = k.pipeRefs (c.1, oldfd)
  | .fork frames _ => frames = true → ∀ i, k.pipeRefs (c.1, i) = none
  | .exec load => ∀ file, load = .loaded file → ∀ i, 3 ≤ i → k.pipeRefs (c.1, i) = none
  | .exit _ => ∀ i, k.pipeRefs (c.1, i) = none
  | _ => True

theorem fdStep_counted (hk : Known k) (h : PipesCounted k) (hok : KeepsCounts k c)
    (hs : fdStep k c k') : PipesCounted k' := by
  obtain ⟨a, c⟩ := c
  obtain ⟨-, hl, hs⟩ := hs
  have h : PipesCounted { k with gCurrent := a } := h
  have hk : Known { k with gCurrent := a } := hk
  cases c with
  | «open» found =>
    obtain ⟨⟨r, k₁⟩, h₁, rfl⟩ := Option.map_eq_some_iff.mp hs
    exact sysOpen_counted h hl h₁
  | create found =>
    obtain ⟨⟨r, k₁⟩, h₁, rfl⟩ := Option.map_eq_some_iff.mp hs
    exact sysOpen_counted h hl h₁
  | read fd n =>
    obtain ⟨⟨r, k₁⟩, h₁, rfl⟩ := Option.map_eq_some_iff.mp hs
    rw [sysRead] at h₁
    split at h₁
    · cases h₁
      exact h
    · exact sysFileIo_counted h h₁
  | write fd n =>
    obtain ⟨⟨r, k₁⟩, h₁, rfl⟩ := Option.map_eq_some_iff.mp hs
    rw [sysWrite] at h₁
    split at h₁
    · cases h₁
      exact h
    · exact sysFileIo_counted h h₁
  | close fd =>
    obtain ⟨⟨r, k₁⟩, h₁, rfl⟩ := Option.map_eq_some_iff.mp hs
    exact sysClose_counted hk h hl h₁
  | dup2 oldfd newfd =>
    obtain ⟨⟨r, k₁⟩, h₁, rfl⟩ := Option.map_eq_some_iff.mp hs
    exact sysDup2_counted h hl hok h₁
  | pipe bufOk =>
    obtain ⟨⟨r, k₁⟩, h₁, rfl⟩ := Option.map_eq_some_iff.mp hs
    exact sysPipe_counted hk h hl h₁
  | fork frames mem =>
    obtain ⟨⟨r, k₁⟩, h₁, rfl⟩ := Option.map_eq_some_iff.mp hs
    exact sysFork_counted hk h hl hok h₁
  | exec load =>
    cases hs
    exact sysExec_counted h hl hok
  | exit code => exact sysExit_counted h hl hok hs

/-- Where no call copies or drops an end of a pipe without a count, the counts are exact. -/
theorem pipes_counted (hb : Booted k₀) (h : Run fdStep KeepsCounts k₀ cs k) : PipesCounted k :=
  (h.invariant (fun k => Known k ∧ PipesCounted k) ⟨hb.known, pipesCounted_init hb⟩
    fun _ _ _ ⟨hk, hc⟩ hok hs => ⟨fdStep_known hk hs, fdStep_counted hk hc hok hs⟩).2

/-- The first task makes a pipe and closes its end to read. -/
theorem pipes_counted_twoTasks :
    ∃ k, Run fdStep KeepsCounts twoTasks [(1, .pipe true), (1, .close 3)] k ∧ PipesCounted k := by
  have hrun : Run fdStep KeepsCounts twoTasks [(1, .pipe true), (1, .close 3)] _ :=
    .cons trivial ⟨rfl, ⟨_, rfl, nofun⟩, rfl⟩ (.cons trivial ⟨rfl, ⟨_, rfl, nofun⟩, rfl⟩ .nil)
  exact ⟨_, hrun, pipes_counted twoTasks_booted hrun⟩

theorem forked_pipe_not_counted :
    ¬∀ k₀ cs k, Booted k₀ → Run fdStep (fun _ _ => True) k₀ cs k → PipesCounted k := by
  intro h
  have hrun : Run fdStep (fun _ _ => True) twoTasks
      [(1, .pipe true), (1, .fork true fun _ => true)] _ :=
    .cons trivial ⟨rfl, ⟨_, rfl, nofun⟩, rfl⟩ (.cons trivial ⟨rfl, ⟨_, rfl, nofun⟩, rfl⟩ .nil)
  have hread := (h _ _ _ twoTasks_booted hrun 0).readers rfl
  exact absurd hread (by decide +kernel)

end EponaOS.Kernel
