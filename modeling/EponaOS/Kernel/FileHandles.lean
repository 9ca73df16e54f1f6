import EponaOS.Lib.Run
import EponaOS.Kernel.Descriptors

/-!
# File handles

Each slot has a handle of its own, except behind `SYS_DUP2`, which lets two slots share one
without a count of them. Where no shared handle is closed, and none is left behind by
`SYS_EXIT` or a failed `SYS_EXEC`, every handle is closed once, when its slot goes.
-/

namespace EponaOS.Kernel

open Function (update)

def FdEntry.file (e : FdEntry) : Option Nat :=
  if e.used ∧ e.type = FD_TYPE_FILE then some e.ptr else none

def KernelState.fileRefs (k : KernelState) : Nat × Nat → Option Nat := slotRefs FdEntry.file k

def handles (refs : Nat × Nat → Option Nat) (ev : List KernelEvent) : Handles (Nat × Nat) Nat where
  refs := refs
  made f := .opened f ∈ ev
  closes f := ev.count (.closed f)

/-- Every slot has a file that is open, and each file was closed once, when no slot had it. -/
def HandlesOwned (k₀ k : KernelState) : Prop :=
  ∃ ev, k.events = k₀.events ++ ev ∧ (∀ s f, k.fileRefs s = some f → k.files f ≠ none) ∧
    (handles k.fileRefs ev).Balanced

variable {k k' k₀ : KernelState} {ev : List KernelEvent} {refs : Nat × Nat → Option Nat}

/-- The handles, where the slots refer to them as `refs` says. -/
structure Owning (k₀ k : KernelState) (refs : Nat × Nat → Option Nat)
    (ev : List KernelEvent) : Prop where
  events : k.events = k₀.events ++ ev
  next : 0 < k.nextFile
  opened : ∀ f, .opened f ∈ ev → 0 < f ∧ f < k.nextFile
  closed : ∀ f, k.nextFile ≤ f → ev.count (.closed f) = 0
  files : ∀ f, .opened f ∈ ev → ev.count (.closed f) = 0 → k.files f ≠ none
  balanced : (handles refs ev).Balanced

theorem FdEntry.file_unused {e : FdEntry} (h : e.used = false) : e.file = none :=
  if_neg fun hu => Bool.false_ne_true (h.symm.trans hu.1)

theorem FdEntry.file_of_type {e : FdEntry} (h : e.type ≠ FD_TYPE_FILE) : e.file = none :=
  if_neg fun hu => h hu.2

theorem count_closed (ev : List KernelEvent) (f x : Nat) :
    (ev ++ [KernelEvent.closed f]).count (.closed x) =
      ev.count (.closed x) + if x = f then 1 else 0 := by
  rw [List.count_append, List.count_singleton]
  by_cases h : x = f
  · simp [h]
  · simp [h, Ne.symm h]

theorem count_opened (ev : List KernelEvent) (f x : Nat) :
    (ev ++ [KernelEvent.opened f]).count (.closed x) = ev.count (.closed x) := by
  simp [List.count_append]

theorem owning_init (hb : Booted k) : Owning k k k.fileRefs [] := by
  have hnone : ∀ s, k.fileRefs s = none := by
    intro s
    rw [KernelState.fileRefs, slotRefs]
    cases ht : k.tasks s.1 with
    | none => rfl
    | some t =>
      rw [Option.bind_some, FdEntry.file_unused (hb.unused s.1 t s.2 ht)]
      exact ite_self none
  refine ⟨(List.append_nil _).symm, hb.file, fun f hf => ?_, fun f _ => rfl, fun f hf => ?_,
    fun s f hf => ?_, fun s f hf => ?_, fun f hf => ?_⟩
  · cases hf
  · cases hf
  · cases (hnone s).symm.trans hf
  · cases (hnone s).symm.trans hf
  · cases hf

theorem Owning.handlesOwned (h : Owning k₀ k k.fileRefs ev) : HandlesOwned k₀ k :=
  ⟨ev, h.events, fun s f hf => h.files f (h.balanced.made s f hf) (h.balanced.held s f hf),
    h.balanced⟩

theorem Owning.same (h : Owning k₀ k refs ev) (hf : ∀ f, k.files f ≠ none → k'.files f ≠ none)
    (hn : k'.nextFile = k.nextFile) (he : k'.events = k.events) : Owning k₀ k' refs ev :=
  ⟨he.trans h.events, hn ▸ h.next, hn ▸ h.opened, hn ▸ h.closed,
    fun f ho hc => hf f (h.files f ho hc), h.balanced⟩

theorem Owning.setTask (h : Owning k₀ k refs ev) (hr : (k.setTask a t).fileRefs = refs) :
    Owning k₀ (k.setTask a t) (k.setTask a t).fileRefs ev := by
  rw [hr]
  exact h.same (fun _ => id) rfl rfl

theorem Owning.fresh (h : Owning k₀ k refs ev) : ¬.opened k.nextFile ∈ ev := fun hm =>
  absurd (h.opened _ hm).2 (Nat.lt_irrefl _)

theorem Owning.newFile (h : Owning k₀ k refs ev) (hs : refs s = none) (file : OpenFile) :
    Owning k₀ (newFile k file) (update refs s (some k.nextFile)) (ev ++ [.opened k.nextFile]) := by
  have hm : ∀ x, .opened x ∈ ev ++ [KernelEvent.opened k.nextFile] ↔
      .opened x ∈ ev ∨ x = k.nextFile := by simp
  refine ⟨?_, Nat.succ_pos _, fun f hf => ?_, fun f hf => ?_, fun f hf hc => ?_, ?_⟩
  · rw [Kernel.newFile, KernelState.emit, h.events, List.append_assoc]
  · obtain hf | rfl := (hm f).mp hf
    · exact ⟨(h.opened f hf).1, Nat.lt_succ_of_lt (h.opened f hf).2⟩
    · exact ⟨h.next, Nat.lt_succ_self _⟩
  · rw [count_opened]
    exact h.closed f (Nat.le_of_succ_le hf)
  · rw [count_opened] at hc
    rw [Kernel.newFile, KernelState.emit]
    by_cases he : f = k.nextFile
    · subst he
      dsimp only
      rw [Function.update_self]
      nofun
    · exact (Function.update_of_ne he ..).trans_ne
        (h.files f (((hm f).mp hf).resolve_right he) hc)
  · exact h.balanced.make hs h.fresh (h.closed _ (Nat.le_refl _)) rfl hm (count_opened ev _)

theorem Owning.vfsClose (h : Owning k₀ k refs ev) (hs : refs s = some f) (hsole : Sole refs s) :
    Owning k₀ (vfsClose k f) (update refs s none) (ev ++ [.closed f]) := by
  have hm : ∀ x, .opened x ∈ ev ++ [KernelEvent.closed f] ↔ .opened x ∈ ev := by simp
  have hf0 : f ≠ 0 := Nat.ne_of_gt (h.opened f (h.balanced.made s f hs)).1
  have hlt := (h.opened f (h.balanced.made s f hs)).2
  rw [Kernel.vfsClose, if_neg hf0]
  refine ⟨?_, h.next, fun x hx => h.opened x ((hm x).mp hx), fun x hx => ?_, fun x hx hc => ?_, ?_⟩
  · rw [KernelState.emit, h.events, List.append_assoc]
  · rw [count_closed, if_neg (Nat.ne_of_gt (Nat.lt_of_lt_of_le hlt hx))]
    exact h.closed x hx
  · rw [count_closed] at hc
    have hne : x ≠ f := by
      rintro rfl
      rw [if_pos rfl] at hc
      cases hc
    rw [if_neg hne] at hc
    exact (Function.update_of_ne hne ..).trans_ne (h.files x ((hm x).mp hx) hc)
  · exact h.balanced.drop hs hsole rfl hm (count_closed ev f)

theorem Owning.waste (h : Owning k₀ k refs ev) (hs : refs s = none) (file : OpenFile) :
    ∃ ev, Owning k₀ (Kernel.vfsClose (Kernel.newFile k file) k.nextFile) refs ev := by
  have hsole : Sole (update refs s (some k.nextFile)) s := by
    intro r s' hr hr'
    rw [Function.update_self] at hr
    cases hr
    obtain ⟨hs', -⟩ | ⟨-, hr'⟩ := update_eq_some hr'
    · exact hs'
    · exact absurd (h.balanced.made s' _ hr') h.fresh
  have hclosed := (h.newFile hs file).vfsClose (Function.update_self ..) hsole
  rw [Function.update_idem, ← hs, Function.update_eq_self] at hclosed
  exact ⟨_, hclosed⟩

theorem Owning.copy (h : Owning k₀ k refs ev) (hs : refs s = none) (s' : Nat × Nat) :
    Owning k₀ k (update refs s (refs s')) ev :=
  ⟨h.events, h.next, h.opened, h.closed, h.files,
    h.balanced.copy hs rfl (fun _ => Iff.rfl) fun _ => rfl⟩

-- ---------------------------------------------------------------------------
-- Closing
-- ---------------------------------------------------------------------------

theorem Owning.closeFile (h : Owning k₀ k refs ev) (hs : refs s = e.file) (hsole : Sole refs s) :
    ∃ ev, Owning k₀ (closeFile k e) (update refs s none) ev := by
  rw [Kernel.closeFile]
  split
  · rename_i hf
    exact ⟨_, h.vfsClose (hs.trans (if_pos hf)) hsole⟩
  · rename_i hf
    rw [← hs.trans (if_neg hf), Function.update_eq_self]
    exact ⟨ev, h⟩

theorem Owning.dropEntry (h : Owning k₀ k refs ev) (hu : e.used = true) (hs : refs s = e.file)
    (hsole : Sole refs s) : ∃ ev, Owning k₀ (dropEntry k e) (update refs s none) ev := by
  have hkeep : e.type ≠ FD_TYPE_FILE → update refs s none = refs := by
    intro ht
    rw [← hs.trans (FdEntry.file_of_type ht), Function.update_eq_self]
  rw [Kernel.dropEntry]
  split
  · rename_i ht
    have hne : e.type ≠ FD_TYPE_FILE := by
      obtain ht | ht := ht
      · rw [ht]
        decide
      · rw [ht]
        decide
    rw [hkeep hne]
    exact ⟨ev, h.same (fun _ => id) rfl rfl⟩
  split
  · rename_i ht
    exact ⟨_, h.vfsClose (hs.trans (if_pos ⟨hu, ht⟩)) hsole⟩
  · rename_i ht
    rw [hkeep ht]
    exact ⟨ev, h⟩

theorem closeSlot_owning (h : Owning k₀ k k.fileRefs ev) (hl : Live k a) (hi : i < TASK_MAX_FD)
    (hsole : Sole k.fileRefs (a, i)) :
    ∃ ev, Owning k₀ (closeSlot a k i) (closeSlot a k i).fileRefs ev := by
  have hrefs := slotRefs_closeSlot (fun _ => FdEntry.file_unused) hl hi
  obtain ⟨t, ht, hl⟩ := hl
  have hfile : k.fileRefs (a, i) = (t.fd i).file := slotRefs_of_live ht hl hi
  rw [KernelState.fileRefs, hrefs, closeSlot]
  simp only [ht]
  split
  · rename_i hu
    have hnone := hfile.trans (FdEntry.file_unused (by simpa using hu))
    have hsame : update (slotRefs FdEntry.file k) (a, i) none = k.fileRefs := by
      rw [← hnone]
      exact Function.update_eq_self ..
    rw [hsame]
    exact ⟨ev, h⟩
  · obtain ⟨ev₁, h₁⟩ := h.closeFile hfile hsole
    exact ⟨ev₁, h₁.same (fun _ => id) rfl rfl⟩

theorem closeSlots_owning (slots : List Nat) (h : Owning k₀ k k.fileRefs ev) (hl : Live k a)
    (hi : ∀ i ∈ slots, i < TASK_MAX_FD) (hsole : ∀ i ∈ slots, Sole k.fileRefs (a, i)) :
    ∃ ev, Owning k₀ (slots.foldl (closeSlot a) k) (slots.foldl (closeSlot a) k).fileRefs ev := by
  induction slots generalizing k ev with
  | nil => exact ⟨ev, h⟩
  | cons i slots ih =>
    have hlt := hi i List.mem_cons_self
    have hrefs : (closeSlot a k i).fileRefs = update k.fileRefs (a, i) none :=
      slotRefs_closeSlot (fun _ => FdEntry.file_unused) hl hlt
    obtain ⟨ev₁, h₁⟩ := closeSlot_owning h hl hlt (hsole i List.mem_cons_self)
    exact ih h₁ (closeSlot_live hl) (fun j hj => hi j (List.mem_cons_of_mem _ hj))
      fun j hj => hrefs ▸ (hsole j (List.mem_cons_of_mem _ hj)).update_none

-- ---------------------------------------------------------------------------
-- The calls
-- ---------------------------------------------------------------------------

theorem fileRefs_tasks (h : k'.tasks = k.tasks) : k'.fileRefs = k.fileRefs := slotRefs_tasks h

theorem openClose_owning (h : Owning k₀ k k.fileRefs ev) (file : OpenFile) :
    ∃ ev, Owning k₀ (vfsClose (newFile k file) k.nextFile)
      (vfsClose (newFile k file) k.nextFile).fileRefs ev := by
  have htasks : (vfsClose (newFile k file) k.nextFile).tasks = k.tasks := vfsClose_tasks ..
  have hout : k.fileRefs (0, TASK_MAX_FD) = none := slotRefs_of_ge (Nat.le_refl _)
  rw [fileRefs_tasks htasks]
  exact h.waste hout file

theorem sysOpen_owning (h : Owning k₀ k k.fileRefs ev) (hl : Live k k.gCurrent)
    (hs : sysOpen k found = some (r, k')) : ∃ ev, Owning k₀ k' k'.fileRefs ev := by
  cases found with
  | none =>
    cases hs
    exact ⟨ev, h⟩
  | some file =>
    obtain rfl | ⟨t, t', i, ht, hi, hu, rfl, rfl⟩ := sysOpen_spec hs
    · exact openClose_owning h file
    · obtain ⟨u, hu', hl⟩ := hl
      cases ht.symm.trans hu'
      have hfree : k.fileRefs (k.gCurrent, i) = none :=
        slotRefs_unused (fun _ => FdEntry.file_unused) ht hu
      exact ⟨_, (h.newFile hfree file).setTask (slotRefs_setTask (k := newFile k file) ht hl hi.2
        ⟨k.nextFile, FD_TYPE_FILE, true⟩)⟩

theorem sysFileIo_owning (h : Owning k₀ k k.fileRefs ev) (hs : sysFileIo k fd n = some (r, k')) :
    ∃ ev, Owning k₀ k' k'.fileRefs ev := by
  obtain rfl | ⟨p, file, rfl⟩ := sysFileIo_spec hs
  · exact ⟨ev, h⟩
  · refine ⟨ev, h.same (fun f hf => ?_) rfl rfl⟩
    by_cases he : f = p
    · subst he
      dsimp only
      rw [Function.update_self]
      nofun
    · exact (Function.update_of_ne he ..).trans_ne hf

theorem sysClose_owning (h : Owning k₀ k k.fileRefs ev) (hl : Live k k.gCurrent)
    (hsole : Sole k.fileRefs (k.gCurrent, i)) (hs : sysClose k i = some (r, k')) :
    ∃ ev, Owning k₀ k' k'.fileRefs ev := by
  obtain rfl | ⟨t, ht, hi, hu, rfl⟩ := sysClose_spec hs
  · exact ⟨ev, h⟩
  obtain ⟨t, ht', hl⟩ := hl
  cases ht.symm.trans ht'
  have hfile : k.fileRefs (k.gCurrent, i) = (t.fd i).file := slotRefs_of_live ht hl hi
  obtain ⟨ev₁, h₁⟩ := h.dropEntry hu hfile hsole
  have htasks := (dropEntry_tasks k (t.fd i)).1
  refine ⟨ev₁, h₁.setTask ((slotRefs_setTask (htasks ▸ ht) hl hi .free).trans ?_)⟩
  rw [slotRefs_tasks htasks]
  rfl

theorem sysDup2_owning (h : Owning k₀ k k.fileRefs ev) (hl : Live k k.gCurrent)
    (hok : ∀ t, k.tasks k.gCurrent = some t → i < TASK_MAX_FD → (t.fd i).used = true →
      Sole k.fileRefs (k.gCurrent, j) ∧ (k.fileRefs (k.gCurrent, j) ≠ none → j ≠ i))
    (hs : sysDup2 k i j = some (r, k')) : ∃ ev, Owning k₀ k' k'.fileRefs ev := by
  obtain rfl | ⟨t, ht, hi, hu, hj, rfl⟩ := sysDup2_spec hs
  · exact ⟨ev, h⟩
  obtain ⟨hsole, hne⟩ := hok t ht hi hu
  obtain ⟨t, ht', hl⟩ := hl
  cases ht.symm.trans ht'
  have hfile : ∀ n, n < TASK_MAX_FD → k.fileRefs (k.gCurrent, n) = (t.fd n).file :=
    fun n hn => slotRefs_of_live ht hl hn
  obtain ⟨ev₁, h₁⟩ := h.closeFile (hfile j hj) hsole
  have htasks := closeFile_tasks k (t.fd j)
  have hcopy := h₁.copy (Function.update_self ..) (k.gCurrent, i)
  -- what is copied is the old entry, also where both are the same slot
  have hold : update k.fileRefs (k.gCurrent, j) none (k.gCurrent, i) = (t.fd i).file := by
    by_cases hij : i = j
    · subst hij
      rw [Function.update_self, ← hfile i hi]
      exact (Decidable.not_not.mp fun hn => hne hn rfl).symm
    · rw [Function.update_of_ne fun h => hij (Prod.mk.inj h).2, hfile i hi]
  rw [Function.update_idem, hold] at hcopy
  refine ⟨ev₁, hcopy.setTask ((slotRefs_setTask (htasks ▸ ht) hl hj (t.fd i)).trans ?_)⟩
  rw [slotRefs_tasks htasks]
  rfl

theorem sysPipe_owning (h : Owning k₀ k k.fileRefs ev) (hl : Live k k.gCurrent)
    (hs : sysPipe k bufOk = some (r, k')) : ∃ ev, Owning k₀ k' k'.fileRefs ev := by
  obtain rfl | ⟨p, k₁, -, -, rfl, rfl | ⟨t, i, ht, hi, hu, hrest⟩⟩ := sysPipe_spec hs
  · exact ⟨ev, h⟩
  · exact ⟨ev, h.same (fun _ => id) rfl rfl⟩
  obtain ⟨t, ht', hl⟩ := hl
  cases ht.symm.trans ht'
  -- a free slot gets an entry that refers to no file
  have hset : ∀ i, (t.fd i).used = false → update k.fileRefs (k.gCurrent, i) none = k.fileRefs := by
    intro i hi
    rw [← slotRefs_unused (fun _ => FdEntry.file_unused) ht hi]
    exact Function.update_eq_self ..
  have hpipe : Owning k₀ { k with gPipes := update k.gPipes p ⟨0, 0, 1, 1, true⟩ } k.fileRefs ev :=
    h.same (fun _ => id) rfl rfl
  obtain rfl | ⟨j, -, hj, hu', rfl⟩ := hrest
  · have hset₁ := hpipe.setTask ((slotRefs_setTask ht hl hi .free).trans (hset i hu))
    exact ⟨ev, hset₁.same (fun _ => id) rfl rfl⟩
  · refine ⟨ev, hpipe.setTask ((slotRefs_setTask₂ ht hl hi hj _ _).trans ?_)⟩
    exact (congrArg (fun refs => update refs (k.gCurrent, j) none) (hset i hu)).trans (hset j hu')

-- ---------------------------------------------------------------------------
-- fork
-- ---------------------------------------------------------------------------

theorem forkSlot_owning (h : Owning k₀ k refs ev) (hfree : refs (c, i) = none)
    (he : child i = fd i) (hs : forkSlot fd mem k child i = some (k', child')) :
    ∃ ev, Owning k₀ k' (update refs (c, i) (child' i).file) ev := by
  have hnone : ∀ r : Option Nat, r = none → update refs (c, i) r = refs := by
    intro r hr
    rw [hr, ← hfree, Function.update_eq_self]
  rw [forkSlot] at hs
  split at hs
  · rename_i hf
    split at hs
    · obtain ⟨f, -, hs⟩ := Option.bind_eq_some_iff.mp hs
      cases hs
      have hfile : (update child i { child i with ptr := k.nextFile } i).file =
          some k.nextFile := by
        rw [Function.update_self, he]
        exact if_pos hf
      rw [hfile]
      exact ⟨_, h.newFile hfree f⟩
    · cases hs
      rw [Function.update_self, hnone _ (FdEntry.file_unused rfl)]
      exact ⟨ev, h⟩
  · rename_i hf
    cases hs
    rw [he, hnone (fd i).file (if_neg hf)]
    exact ⟨ev, h⟩

theorem forkSlots_owning {slots : List Nat} (hnodup : slots.Nodup) (h : Owning k₀ k refs ev)
    (hfree : ∀ i ∈ slots, refs (c, i) = none) (he : ∀ i ∈ slots, child i = fd i)
    (hs : forkSlots fd mem slots k child = some (k', child')) : ∃ ev, Owning k₀ k'
      (fun s => if s.1 = c ∧ s.2 ∈ slots then (child' s.2).file else refs s) ev := by
  induction slots generalizing k child refs ev with
  | nil =>
    cases hs
    simp only [List.not_mem_nil, and_false, if_false]
    exact ⟨ev, h⟩
  | cons i slots ih =>
    obtain ⟨hi, hnodup⟩ := List.nodup_cons.mp hnodup
    rw [forkSlots] at hs
    obtain ⟨⟨k₁, child₁⟩, h₁, hs⟩ := Option.bind_eq_some_iff.mp hs
    obtain ⟨ev₁, hown⟩ := forkSlot_owning h (hfree i List.mem_cons_self)
      (he i List.mem_cons_self) h₁
    have hstays : child' i = child₁ i := forkSlots_of_not_mem hs hi
    have hne : ∀ j ∈ slots, j ≠ i := fun j hj hji => hi (hji ▸ hj)
    have hfree₁ : ∀ j ∈ slots, update refs (c, i) (child₁ i).file (c, j) = none := by
      intro j hj
      rw [Function.update_of_ne fun h => hne j hj (Prod.mk.inj h).2]
      exact hfree j (List.mem_cons_of_mem _ hj)
    have he₁ : ∀ j ∈ slots, child₁ j = fd j := by
      intro j hj
      rw [forkSlot_of_ne h₁ (hne j hj)]
      exact he j (List.mem_cons_of_mem _ hj)
    obtain ⟨ev₂, h₂⟩ := ih hnodup hown hfree₁ he₁ hs
    have heq : (fun s : Nat × Nat => if s.1 = c ∧ s.2 ∈ slots then (child' s.2).file
        else update refs (c, i) (child₁ i).file s) =
        fun s => if s.1 = c ∧ s.2 ∈ i :: slots then (child' s.2).file else refs s := by
      funext s
      by_cases hsi : s = (c, i)
      · subst hsi
        rw [if_neg fun hm => hi hm.2, if_pos ⟨rfl, List.mem_cons_self⟩, Function.update_self,
          hstays]
      · rw [Function.update_of_ne hsi]
        simp only [mem_cons_slot hsi]
    exact ⟨ev₂, heq ▸ h₂⟩

theorem sysFork_owning (hk : Known k) (h : Owning k₀ k k.fileRefs ev) (hl : Live k k.gCurrent)
    (hs : sysFork k frames mem = some (r, k')) : ∃ ev, Owning k₀ k' k'.fileRefs ev := by
  rw [sysFork] at hs
  split at hs
  · cases hs
    exact ⟨ev, h⟩
  obtain ⟨cur, hcur, hs⟩ := Option.bind_eq_some_iff.mp hs
  obtain ⟨⟨k₁, fd⟩, h₁, hs⟩ := Option.bind_eq_some_iff.mp hs
  cases hs
  obtain ⟨t, ht, hl⟩ := hl
  cases hcur.symm.trans ht
  obtain ⟨hq, htasks, hg, -⟩ := forkSlots_quiet h₁
  have hchild : ∀ i ∈ List.range TASK_MAX_FD, k.fileRefs (k.nextTask, i) = none := by
    intro i _
    rw [KernelState.fileRefs, slotRefs, hk.none (Nat.le_refl _)]
    rfl
  obtain ⟨ev₁, hown⟩ := forkSlots_owning List.nodup_range h hchild (fun _ _ => rfl) h₁
  have hcur₁ : k₁.tasks k₁.gCurrent = some cur := by
    rw [hg, htasks]
    exact hcur
  have hrefs : (addChild k₁ cur fd).fileRefs = fun s =>
      if s.1 = k.nextTask ∧ s.2 ∈ List.range TASK_MAX_FD then (fd s.2).file else k.fileRefs s := by
    refine (slotRefs_addChild (hq.known hk) hcur₁ hl).trans ?_
    simp only [List.mem_range, hq.next, slotRefs_tasks htasks]
    rfl
  refine ⟨ev₁, ?_⟩
  rw [hrefs, addChild, if_neg hl]
  exact hown.same (fun _ => id) rfl rfl

-- ---------------------------------------------------------------------------
-- exec and exit
-- ---------------------------------------------------------------------------

theorem taskFdCloseAll_owning (h : Owning k₀ k k.fileRefs ev) (hl : Live k a)
    (hsole : ∀ i, 3 ≤ i → Sole k.fileRefs (a, i)) :
    ∃ ev, Owning k₀ (taskFdCloseAll k a) (taskFdCloseAll k a).fileRefs ev :=
  closeSlots_owning fdSlots h hl (fun _ hi => (mem_fdSlots.mp hi).2)
    fun i hi => hsole i (mem_fdSlots.mp hi).1

theorem sysExec_owning (h : Owning k₀ k k.fileRefs ev) (hl : Live k k.gCurrent)
    (hload : ∀ file, load ≠ .noClone file)
    (hsole : ∀ file, load = .loaded file → ∀ i, 3 ≤ i → Sole k.fileRefs (k.gCurrent, i)) :
    ∃ ev, Owning k₀ (sysExec k load).2 (sysExec k load).2.fileRefs ev := by
  cases load with
  | notFound => exact ⟨ev, h⟩
  | noClone file => exact absurd rfl (hload file)
  | failed file => exact openClose_owning h file
  | loaded file =>
    obtain ⟨ev₁, h₁⟩ := openClose_owning h file
    have htasks : (vfsClose (newFile k file) k.nextFile).tasks = k.tasks := vfsClose_tasks ..
    rw [sysExec, elfLoad]
    dsimp only
    split
    · exact ⟨ev₁, h₁⟩
    · have hcur : (vfsClose (newFile k file) k.nextFile).gCurrent = k.gCurrent :=
        vfsClose_gCurrent ..
      rw [hcur]
      refine taskFdCloseAll_owning h₁ ?_ fun i hi => ?_
      · rwa [Live, htasks]
      · rw [fileRefs_tasks htasks]
        exact hsole file rfl i hi

theorem Owning.emit (h : Owning k₀ k refs ev) (ho : ∀ f, e ≠ .opened f)
    (hc : ∀ f, e ≠ .closed f) : Owning k₀ (k.emit e) refs (ev ++ [e]) := by
  have hm : ∀ f, .opened f ∈ ev ++ [e] ↔ .opened f ∈ ev := by
    intro f
    rw [List.mem_append, List.mem_singleton]
    exact or_iff_left fun he => ho f he.symm
  have hn : ∀ f, (ev ++ [e]).count (.closed f) = ev.count (.closed f) := by
    intro f
    rw [List.count_append, List.count_singleton, if_neg fun he => hc f (eq_of_beq he),
      Nat.add_zero]
  have heq : handles refs (ev ++ [e]) = handles refs ev := by
    simp only [handles, hm, hn]
  refine ⟨?_, h.next, fun f hf => h.opened f ((hm f).mp hf), fun f hf => ?_, fun f hf hc => ?_,
    heq ▸ h.balanced⟩
  · rw [KernelState.emit, h.events, List.append_assoc]
  · rw [hn]
    exact h.closed f hf
  · rw [hn] at hc
    exact h.files f ((hm f).mp hf) hc

theorem sysExit_owning (h : Owning k₀ k k.fileRefs ev) (hl : Live k k.gCurrent)
    (hstd : ∀ i, i < 3 → k.fileRefs (k.gCurrent, i) = none)
    (hsole : ∀ i, 3 ≤ i → Sole k.fileRefs (k.gCurrent, i)) (hs : sysExit k code = some k') :
    ∃ ev, Owning k₀ k' k'.fileRefs ev := by
  rw [sysExit] at hs
  obtain ⟨k₁, hexit, hs⟩ := Option.bind_eq_some_iff.mp hs
  have hown : ∃ ev, Owning k₀ k₁ k₁.fileRefs ev := by
    obtain rfl | ⟨t, a, p, c, rfl, hrefs⟩ :=
      exitTask_spec (fun _ => FdEntry.file_unused) hl hstd hexit
    · exact ⟨ev, h⟩
    · obtain ⟨ev₁, h₁⟩ := taskFdCloseAll_owning h hl hsole
      exact ⟨_, (h₁.setTask hrefs).emit (fun _ he => by cases he) fun _ he => by cases he⟩
  obtain ⟨ev₁, h₁⟩ := hown
  cases hs
  split
  · exact ⟨ev₁, h₁.same (fun _ => id) rfl rfl⟩
  · exact ⟨ev₁, h₁.same (fun _ => id) rfl rfl⟩

-- ---------------------------------------------------------------------------
-- Runs
-- ---------------------------------------------------------------------------

/-- The call closes no file that another slot has as well, and leaves none behind. -/
def KeepsHandles (k : KernelState) (c : Nat × FdCall) : Prop :=
  match c.2 with
  | .close fd => Sole k.fileRefs (c.1, fd)
  | .dup2 oldfd newfd => ∀ t, k.tasks c.1 = some t → oldfd < TASK_MAX_FD →
      (t.fd oldfd).used = true →
      Sole k.fileRefs (c.1, newfd) ∧ (k.fileRefs (c.1, newfd) ≠ none → newfd ≠ oldfd)
  | .exec load => (∀ file, load ≠ .noClone file) ∧
      ∀ file, load = .loaded file → ∀ i, 3 ≤ i → Sole k.fileRefs (c.1, i)
  | .exit _ => (∀ i, i < 3 → k.fileRefs (c.1, i) = none) ∧ ∀ i, 3 ≤ i → Sole k.fileRefs (c.1, i)
  | _ => True

theorem fdStep_owning (hk : Known k) (h : Owning k₀ k k.fileRefs ev) (hok : KeepsHandles k c)
    (hs : fdStep k c k') : ∃ ev, Owning k₀ k' k'.fileRefs ev := by
  obtain ⟨a, c⟩ := c
  obtain ⟨-, hl, hs⟩ := hs
  have h : Owning k₀ { k with gCurrent := a } k.fileRefs ev := h.same (fun _ => id) rfl rfl
  have hk : Known { k with gCurrent := a } := hk
  cases c with
  | «open» found =>
    obtain ⟨⟨r, k₁⟩, h₁, rfl⟩ := Option.map_eq_some_iff.mp hs
    exact sysOpen_owning h hl h₁
  | create found =>
    obtain ⟨⟨r, k₁⟩, h₁, rfl⟩ := Option.map_eq_some_iff.mp hs
    exact sysOpen_owning h hl h₁
  | read fd n =>
    obtain ⟨⟨r, k₁⟩, h₁, rfl⟩ := Option.map_eq_some_iff.mp hs
    rw [sysRead] at h₁
    split at h₁
    · cases h₁
      exact ⟨ev, h⟩
    · exact sysFileIo_owning h h₁
  | write fd n =>
    obtain ⟨⟨r, k₁⟩, h₁, rfl⟩ := Option.map_eq_some_iff.mp hs
    rw [sysWrite] at h₁
    split at h₁
    · cases h₁
      exact ⟨ev, h⟩
    · exact sysFileIo_owning h h₁
  | close fd =>
    obtain ⟨⟨r, k₁⟩, h₁, rfl⟩ := Option.map_eq_some_iff.mp hs
    exact sysClose_owning h hl hok h₁
  | dup2 oldfd newfd =>
    obtain ⟨⟨r, k₁⟩, h₁, rfl⟩ := Option.map_eq_some_iff.mp hs
    exact sysDup2_owning h hl hok h₁
  | pipe bufOk =>
    obtain ⟨⟨r, k₁⟩, h₁, rfl⟩ := Option.map_eq_some_iff.mp hs
    exact sysPipe_owning h hl h₁
  | fork frames mem =>
    obtain ⟨⟨r, k₁⟩, h₁, rfl⟩ := Option.map_eq_some_iff.mp hs
    exact sysFork_owning hk h hl h₁
  | exec load =>
    cases hs
    exact sysExec_owning h hl hok.1 hok.2
  | exit code => exact sysExit_owning h hl hok.1 hok.2 hs

/-- Where no call closes a shared file, and none leaves a file behind, the handles are owned. -/
theorem handles_owned (hb : Booted k₀) (h : Run fdStep KeepsHandles k₀ cs k) :
    HandlesOwned k₀ k := by
  obtain ⟨-, ev, hev⟩ := h.invariant (fun k => Known k ∧ ∃ ev, Owning k₀ k k.fileRefs ev)
    ⟨hb.known, [], owning_init hb⟩
    fun k c k' ⟨hk, ev, hev⟩ hok hs => ⟨fdStep_known hk hs, fdStep_owning hk hev hok hs⟩
  exact hev.handlesOwned

theorem handles_owned_twoTasks :
    ∃ k, Run fdStep KeepsHandles twoTasks [(1, .open (some ⟨7, 0⟩)), (1, .close 3)] k ∧
      HandlesOwned twoTasks k := by
  have hsole : KeepsHandles ((fdCall { twoTasks with gCurrent := 1 }
      (.open (some ⟨7, 0⟩))).getD twoTasks) (1, .close 3) := by
    intro r s hr hs
    cases hr
    obtain ⟨b, j⟩ := s
    obtain ⟨t, ht, -, -, hf⟩ := slotRefs_eq_some hs
    by_cases hb : b = 1
    · subst hb
      cases ht
      by_cases hj : j = 3
      · rw [hj]
      · cases (congrArg FdEntry.file (Function.update_of_ne hj ..)).symm.trans hf
    · have ht : twoTasks.tasks b = some t := (Function.update_of_ne hb ..).symm.trans ht
      cases (FdEntry.file_unused (twoTasks_booted.unused b t j ht)).symm.trans hf
  have hrun : Run fdStep KeepsHandles twoTasks [(1, .open (some ⟨7, 0⟩)), (1, .close 3)] _ :=
    .cons trivial ⟨rfl, ⟨_, rfl, nofun⟩, rfl⟩ (.cons hsole ⟨rfl, ⟨_, rfl, nofun⟩, rfl⟩ .nil)
  exact ⟨_, hrun, handles_owned twoTasks_booted hrun⟩

/-- Two slots share a file behind `SYS_DUP2`, and the first one closes it. -/
theorem shared_handle_closed :
    ¬∀ k₀ cs k, Booted k₀ → Run fdStep (fun _ _ => True) k₀ cs k → HandlesOwned k₀ k := by
  intro h
  have hrun : Run fdStep (fun _ _ => True) twoTasks
      [(1, .open (some ⟨7, 0⟩)), (1, .dup2 3 4), (1, .close 3)] _ :=
    .cons trivial ⟨rfl, ⟨_, rfl, nofun⟩, rfl⟩ (.cons trivial ⟨rfl, ⟨_, rfl, nofun⟩, rfl⟩
      (.cons trivial ⟨rfl, ⟨_, rfl, nofun⟩, rfl⟩ .nil))
  obtain ⟨ev, -, hfiles, -⟩ := h _ _ _ twoTasks_booted hrun
  exact hfiles (1, 4) 1 rfl rfl

end EponaOS.Kernel
