import Mathlib.Data.List.Perm.Subperm
import Mathlib.Data.List.Nodup
import EponaOS.Lib.Run
import EponaOS.Mm.Pmm

/-!
# The memory of tasks

`task_create` and `SYS_FORK` take one frame for the struct and one for a stack that they
then use as `TASK_STACK_SIZE`, four frames long. The frames of different tasks are
different, but three of the four that a stack lies in belong to whoever has them.
-/

namespace EponaOS.Kernel

open Mm

def TASK_STACK_SIZE : Nat := 16 * 1024

/-- `sizeof(task_struct_t)` -/
def sizeofTask : Nat := 1112

/-- A call: the frames that it got, and where it wrote how many bytes. The link of the
task before it on the ring is not among them. -/
structure MemCall where
  frames : List Nat
  writes : List (Nat × Nat)
  deriving DecidableEq

structure TaskMem where
  task : Nat
  kernelStackBase : Nat
  call : MemCall
  deriving DecidableEq

structure MemState where
  pmm : Pmm
  tasks : List TaskMem
  calls : List MemCall

inductive MemAct
  | create
  /-- by the task of that number -/
  | fork (parent : Nat)
  /-- any other `pmm_alloc` -/
  | alloc

def createWrites (task stack : Nat) : List (Nat × Nat) :=
  (task, sizeofTask) :: (List.range 7).map fun i => (stack + TASK_STACK_SIZE - 8 * (i + 1), 8)

def memCreate (s : MemState) : MemState :=
  match pmmAlloc s.pmm with
  | (task, pmm) =>
    match pmmAlloc pmm with
    | (stack, pmm) =>
      -- a frame that was had stays allocated
      if task = 0 ∨ stack = 0 then { s with pmm }
      else
        let call := ⟨[task.toNat, stack.toNat], createWrites task.toNat stack.toNat⟩
        { pmm, tasks := s.tasks ++ [⟨task.toNat, stack.toNat, call⟩], calls := s.calls ++ [call] }

def memFork (s : MemState) : MemState :=
  match pmmAlloc s.pmm with
  | (pml4, pmm) =>
    if pml4 = 0 then { s with pmm }
    else
      let clone := (pml4.toNat, pageSize)
      match pmmAlloc pmm with
      | (child, pmm) =>
        if child = 0 then { s with pmm, calls := s.calls ++ [⟨[pml4.toNat], [clone]⟩] }
        else
          let copy := (child.toNat, sizeofTask)
          match pmmAlloc pmm with
          | (stack, pmm) =>
            if stack = 0 then
              { s with
                pmm := pmmFree pmm child
                calls := s.calls ++ [⟨[pml4.toNat, child.toNat], [clone, copy]⟩] }
            else
              let call := ⟨[pml4.toNat, child.toNat, stack.toNat],
                [clone, copy, (stack.toNat, TASK_STACK_SIZE)]⟩
              { pmm, tasks := s.tasks ++ [⟨child.toNat, stack.toNat, call⟩]
                calls := s.calls ++ [call] }

def memStep (s : MemState) : MemAct → MemState → Prop
  | .create, s' => s' = memCreate s
  | .fork parent, s' => parent < s.tasks.length ∧ s' = memFork s
  | .alloc, s' => s' = { s with pmm := (pmmAlloc s.pmm).2 }

-- ---------------------------------------------------------------------------
-- Whose memory it is
-- ---------------------------------------------------------------------------

def Inside (frames : List Nat) (a n : Nat) : Prop :=
  ∀ x, a ≤ x → x < a + n → ∃ f ∈ frames, f ≤ x ∧ x < f + pageSize

def TaskMem.Has (t : TaskMem) (x : Nat) : Prop :=
  (t.task ≤ x ∧ x < t.task + sizeofTask) ∨
    (t.kernelStackBase ≤ x ∧ x < t.kernelStackBase + TASK_STACK_SIZE)

/-- Tasks own what they use, no two of them the same, and the calls write to nothing else. -/
structure OwnsMemory (s : MemState) : Prop where
  own : ∀ t ∈ s.tasks, Inside t.call.frames t.task sizeofTask ∧
    Inside t.call.frames t.kernelStackBase TASK_STACK_SIZE
  disjoint : s.tasks.Pairwise fun t u => ∀ x, ¬(t.Has x ∧ u.Has x)
  writes : ∀ c ∈ s.calls, ∀ w ∈ c.writes, Inside c.frames w.1 w.2

variable {s s' : MemState}

theorem not_inside_stack {frames : List Nat} (hlen : frames.length ≤ 3)
    (hpage : ∀ f ∈ frames, pageSize ∣ f) (hbase : base ∈ frames) :
    ¬Inside frames base TASK_STACK_SIZE := by
  intro h
  have hmem : ∀ i, i < 4 → base + i * pageSize ∈ frames := by
    intro i hi
    have hin : base + i * pageSize < base + TASK_STACK_SIZE := by
      rw [TASK_STACK_SIZE, pageSize]
      omega
    obtain ⟨f, hf, hle, hlt⟩ := h (base + i * pageSize) (Nat.le_add_right ..) hin
    obtain ⟨m, rfl⟩ := hpage f hf
    obtain ⟨n, rfl⟩ := hpage base hbase
    have heq : pageSize * n + i * pageSize = pageSize * m := by
      simp only [pageSize] at hle hlt ⊢
      omega
    rwa [heq]
  have hsub : (List.range 4).map (fun i => base + i * pageSize) ⊆ frames := by
    intro x hx
    obtain ⟨i, hi, rfl⟩ := List.mem_map.mp hx
    exact hmem i (List.mem_range.mp hi)
  have hnodup : ((List.range 4).map fun i => base + i * pageSize).Nodup := by
    refine List.Nodup.map (fun i j hij => ?_) List.nodup_range
    simp only [pageSize] at hij
    omega
  have h4 := (hnodup.subperm hsub).length_le
  rw [List.length_map, List.length_range] at h4
  omega

-- ---------------------------------------------------------------------------
-- Runs
-- ---------------------------------------------------------------------------

/-- Each task was made by a call that got at most three frames, its stack base among them,
and without a task no call wrote anything. -/
structure Stacked (s : MemState) : Prop where
  few : ∀ t ∈ s.tasks, t.call.frames.length ≤ 3
  pages : ∀ t ∈ s.tasks, ∀ f ∈ t.call.frames, pageSize ∣ f
  base : ∀ t ∈ s.tasks, t.kernelStackBase ∈ t.call.frames
  calls : s.tasks = [] → s.calls = []

theorem pmmAlloc_dvd (h : pmmAlloc p = (a, p')) : pageSize ∣ a.toNat := by
  obtain ⟨rfl, -⟩ | ⟨f, -, -, rfl, -⟩ := pmmAlloc_cases h
  · exact Nat.dvd_zero _
  · rw [BitVec.toNat_ofNat]
    simp only [pageSize]
    omega

theorem Stacked.setPmm (h : Stacked s) (pmm : Pmm) : Stacked { s with pmm } :=
  ⟨h.few, h.pages, h.base, h.calls⟩

theorem Stacked.add (h : Stacked s) (hlen : t.call.frames.length ≤ 3)
    (hpage : ∀ f ∈ t.call.frames, pageSize ∣ f) (hbase : t.kernelStackBase ∈ t.call.frames) :
    Stacked ⟨p, s.tasks ++ [t], s.calls ++ [t.call]⟩ := by
  have hmem : ∀ u ∈ s.tasks ++ [t], u ∈ s.tasks ∨ u = t := fun u hu => by
    simpa using hu
  refine ⟨fun u hu => ?_, fun u hu => ?_, fun u hu => ?_, fun hnil => ?_⟩
  · obtain hu | rfl := hmem u hu
    · exact h.few u hu
    · exact hlen
  · obtain hu | rfl := hmem u hu
    · exact h.pages u hu
    · exact hpage
  · obtain hu | rfl := hmem u hu
    · exact h.base u hu
    · exact hbase
  · simp at hnil

theorem memCreate_stacked (h : Stacked s) : Stacked (memCreate s) := by
  rw [memCreate]
  cases h₁ : pmmAlloc s.pmm with
  | mk task pmm₁ =>
    dsimp only
    cases h₂ : pmmAlloc pmm₁ with
    | mk stack pmm₂ =>
      dsimp only
      split
      · exact h.setPmm pmm₂
      · refine h.add (t := ⟨task.toNat, stack.toNat, _⟩) (Nat.le_succ 2) (fun f hf => ?_) ?_
        · obtain rfl | hf := List.mem_cons.mp hf
          · exact pmmAlloc_dvd h₁
          · exact List.mem_singleton.mp hf ▸ pmmAlloc_dvd h₂
        · exact List.mem_cons_of_mem _ List.mem_cons_self

theorem memFork_stacked (h : Stacked s) (hparent : s.tasks ≠ []) : Stacked (memFork s) := by
  have hfail : ∀ pmm c, Stacked { s with pmm, calls := s.calls ++ [c] } := fun pmm c =>
    ⟨h.few, h.pages, h.base, fun hnil => absurd hnil hparent⟩
  rw [memFork]
  cases h₁ : pmmAlloc s.pmm with
  | mk pml4 pmm₁ =>
    dsimp only
    split
    · exact h.setPmm pmm₁
    cases h₂ : pmmAlloc pmm₁ with
    | mk child pmm₂ =>
      dsimp only
      split
      · exact hfail _ _
      cases h₃ : pmmAlloc pmm₂ with
      | mk stack pmm₃ =>
        dsimp only
        split
        · exact hfail _ _
        · refine h.add (t := ⟨child.toNat, stack.toNat, _⟩) (Nat.le_refl 3) (fun f hf => ?_) ?_
          · obtain rfl | hf := List.mem_cons.mp hf
            · exact pmmAlloc_dvd h₁
            obtain rfl | hf := List.mem_cons.mp hf
            · exact pmmAlloc_dvd h₂
            · exact List.mem_singleton.mp hf ▸ pmmAlloc_dvd h₃
          · exact List.mem_cons_of_mem _ (List.mem_cons_of_mem _ List.mem_cons_self)

theorem memStep_stacked (h : Stacked s) (hs : memStep s a s') : Stacked s' := by
  cases a with
  | create =>
    cases hs
    exact memCreate_stacked h
  | fork parent =>
    obtain ⟨hlt, rfl⟩ := hs
    exact memFork_stacked h fun hnil => by simp [hnil] at hlt
  | alloc =>
    cases hs
    exact h.setPmm _

/-- Memory is owned as long as no task was made. -/
theorem ownsMemory_iff (ht : s₀.tasks = []) (hc : s₀.calls = [])
    (h : Run memStep (fun _ _ => True) s₀ as s) : OwnsMemory s ↔ s.tasks = [] := by
  have hinit : Stacked s₀ := by
    refine ⟨?_, ?_, ?_, fun _ => hc⟩ <;> simp [ht]
  have hs := h.invariant Stacked hinit fun _ _ _ h _ hs => memStep_stacked h hs
  constructor
  · intro hown
    refine List.eq_nil_iff_forall_not_mem.mpr fun t hmem => ?_
    exact not_inside_stack (hs.few t hmem) (hs.pages t hmem) (hs.base t hmem) (hown.own t hmem).2
  · intro hnil
    refine ⟨fun t hmem => ?_, ?_, fun c hmem => ?_⟩
    · rw [hnil] at hmem
      cases hmem
    · rw [hnil]
      exact .nil
    · rw [hs.calls hnil] at hmem
      cases hmem

def smallMem : MemState where
  pmm := {
    bitmap := fun k => if k < 64 then 0xFF else 0
    totalFrames := 2048
    usedFrames := 512
    totalFrames_le := by decide }
  tasks := []
  calls := []

theorem ownsMemory_iff_smallMem :
    OwnsMemory (memCreate smallMem) ↔ (memCreate smallMem).tasks = [] := by
  have hrun : Run memStep (fun _ _ => True) smallMem [.create] (memCreate smallMem) :=
    .cons trivial rfl .nil
  exact ownsMemory_iff rfl rfl hrun

/-- The stack of one task runs into the struct of the next one. -/
theorem stacks_overlap :
    ¬∀ s₀ as s, s₀.tasks = [] → s₀.calls = [] →
      Run memStep (fun _ _ => True) s₀ as s → OwnsMemory s := by
  intro h
  have hrun : Run memStep (fun _ _ => True) smallMem [.create, .create]
      (memCreate (memCreate smallMem)) := .cons trivial rfl (.cons trivial rfl .nil)
  have htasks : (memCreate (memCreate smallMem)).tasks =
      [⟨0x200000, 0x201000, ⟨[0x200000, 0x201000], createWrites 0x200000 0x201000⟩⟩,
        ⟨0x202000, 0x203000, ⟨[0x202000, 0x203000], createWrites 0x202000 0x203000⟩⟩] := by
    decide +kernel
  have hdisjoint := (h _ _ _ rfl rfl hrun).disjoint
  rw [htasks] at hdisjoint
  have hapart := (List.pairwise_cons.mp hdisjoint).1 _ List.mem_cons_self 0x202000
  exact hapart (by simp [TaskMem.Has, sizeofTask, TASK_STACK_SIZE])

-- ---------------------------------------------------------------------------
-- The frames
-- ---------------------------------------------------------------------------

def MemState.frames (s : MemState) : List Nat := s.tasks.flatMap fun t => t.call.frames

structure Apart (pmm : Pmm) (frames : List Nat) : Prop where
  nodup : frames.Nodup
  pages : ∀ f ∈ frames, pageSize ∣ f ∧ f < 2 ^ 64
  held : ∀ f ∈ frames, pmm.Held (BitVec.ofNat 64 f)

theorem Apart.left (h : Apart pmm (frames ++ frames')) : Apart pmm frames :=
  ⟨(List.nodup_append.mp h.nodup).1, fun f hf => h.pages f (List.mem_append_left _ hf),
    fun f hf => h.held f (List.mem_append_left _ hf)⟩

theorem Apart.kept (h : Apart pmm frames) (ha : pmmAlloc pmm = (a, pmm')) : Apart pmm' frames :=
  ⟨h.nodup, h.pages, fun f hf => pmmAlloc_held ha (h.held f hf)⟩

theorem Apart.alloc (h : Apart pmm frames) (ha : pmmAlloc pmm = (a, pmm')) (h0 : a ≠ 0) :
    Apart pmm' (frames ++ [a.toNat]) := by
  obtain ⟨hnot, hnew⟩ := pmmAlloc_fresh ha h0
  have hself : BitVec.ofNat 64 a.toNat = a := BitVec.ofNat_toNat 64 a ▸ BitVec.setWidth_eq a
  have hmem : ∀ f ∈ frames ++ [a.toNat], f ∈ frames ∨ f = a.toNat := fun f hf => by
    simpa using hf
  refine ⟨?_, fun f hf => ?_, fun f hf => ?_⟩
  · refine List.nodup_append.mpr ⟨h.nodup, List.nodup_singleton _, fun f hf b hb hfb => ?_⟩
    rw [List.mem_singleton.mp hb] at hfb
    exact hnot (hself ▸ h.held _ (hfb ▸ hf))
  · obtain hf | rfl := hmem f hf
    · exact h.pages f hf
    · exact ⟨pmmAlloc_dvd ha, a.isLt⟩
  · obtain hf | rfl := hmem f hf
    · exact pmmAlloc_held ha (h.held f hf)
    · exact hself.symm ▸ hnew

theorem Apart.free (h : Apart pmm (frames ++ [a.toNat])) : Apart (pmmFree pmm a) frames := by
  have hleft := h.left
  refine ⟨hleft.nodup, hleft.pages, fun f hf => pmmFree_held (hleft.held f hf) fun heq => ?_⟩
  have hne := (List.nodup_append.mp h.nodup).2.2 f hf a.toNat (List.mem_singleton_self _)
  obtain ⟨⟨m, hm⟩, hlt⟩ := hleft.pages f hf
  obtain ⟨⟨n, hn⟩, -⟩ := h.pages a.toNat (List.mem_append_right _ (List.mem_singleton_self _))
  rw [BitVec.toNat_ofNat, Nat.mod_eq_of_lt hlt, hm, hn] at heq
  rw [hm, hn] at hne
  simp only [pageSize] at heq hne
  omega

theorem memCreate_apart (h : Apart s.pmm s.frames) :
    Apart (memCreate s).pmm (memCreate s).frames := by
  rw [memCreate]
  cases h₁ : pmmAlloc s.pmm with
  | mk task pmm₁ =>
    dsimp only
    cases h₂ : pmmAlloc pmm₁ with
    | mk stack pmm₂ =>
      dsimp only
      split
      · exact (h.kept h₁).kept h₂
      · rename_i hok
        obtain ⟨ht, hs⟩ := not_or.mp hok
        have hnew := (h.alloc h₁ ht).alloc h₂ hs
        rw [List.append_assoc] at hnew
        rw [MemState.frames, List.flatMap_append]
        exact hnew

theorem memFork_apart (h : Apart s.pmm s.frames) :
    Apart (memFork s).pmm (memFork s).frames := by
  rw [memFork]
  cases h₁ : pmmAlloc s.pmm with
  | mk pml4 pmm₁ =>
    dsimp only
    split
    · exact h.kept h₁
    rename_i hpml4
    have hclone := h.alloc h₁ hpml4
    cases h₂ : pmmAlloc pmm₁ with
    | mk child pmm₂ =>
      dsimp only
      split
      · exact (h.kept h₁).kept h₂
      rename_i hchild
      have hcopy := hclone.alloc h₂ hchild
      cases h₃ : pmmAlloc pmm₂ with
      | mk stack pmm₃ =>
        dsimp only
        split
        · exact (hcopy.kept h₃).free.left
        · rename_i hstack
          have hnew := hcopy.alloc h₃ hstack
          rw [List.append_assoc, List.append_assoc] at hnew
          rw [MemState.frames, List.flatMap_append]
          exact hnew

theorem taskFrames_apart (ht : s₀.tasks = []) (h : Run memStep (fun _ _ => True) s₀ as s) :
    Apart s.pmm s.frames := by
  refine h.invariant (fun s => Apart s.pmm s.frames) ?_ fun s a s' hs _ hstep => ?_
  · rw [MemState.frames, ht]
    exact ⟨.nil, nofun, nofun⟩
  · cases a with
    | create =>
      cases hstep
      exact memCreate_apart hs
    | fork parent =>
      cases hstep.2
      exact memFork_apart hs
    | alloc =>
      cases hstep
      exact hs.kept rfl

end EponaOS.Kernel
