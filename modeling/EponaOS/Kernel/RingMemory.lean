import EponaOS.Kernel.TaskMemory
import EponaOS.Kernel.TaskRing

/-!
# The task ring in memory

A task struct lies at the start of a frame, and so does the stack of a task, which has one
frame. `SYS_FORK` copies `TASK_STACK_SIZE` bytes there, and so also writes to the three
frames behind. Where none of them holds the struct of a task, the ring is kept.
-/

namespace EponaOS.Kernel

open Function (update)
open Mm

structure TaskPlace where
  task : Nat
  kernelStackBase : Nat
  deriving DecidableEq

structure TaskImage where
  task : Task
  kernelStackBase : Nat

structure RingState where
  k : KernelState
  pmm : Pmm
  place : Nat → TaskPlace

inductive RingAct
  | create
  /-- `other` is what the frames hold that have no struct. -/
  | fork (mem : Nat → Bool) (other : Nat → TaskImage)
  /-- a call that takes no frames -/
  | call (a : SchedAct)

def TaskPlace.frames (p : TaskPlace) : List Nat := [p.task, p.kernelStackBase]

-- ---------------------------------------------------------------------------
-- The steps
-- ---------------------------------------------------------------------------

def ringCreate (s : RingState) : Option RingState :=
  match pmmAlloc s.pmm with
  | (task, pmm) =>
    match pmmAlloc pmm with
    | (stack, pmm) =>
      if task = 0 ∨ stack = 0 then some { s with pmm }
      else (taskCreate s.k).map fun r =>
        { k := r.2, pmm, place := update s.place s.k.nextTask ⟨task.toNat, stack.toNat⟩ }

def RingState.holder (s : RingState) (f : Nat) : Option Nat :=
  (List.range s.k.nextTask).find? fun a => (s.k.tasks a).isSome ∧ (s.place a).task = f

def RingState.image (s : RingState) (other : Nat → TaskImage) (f : Nat) : TaskImage :=
  match (s.holder f).bind fun a => (s.k.tasks a).map fun t => (a, t) with
  | none => other f
  | some (a, t) => ⟨t, (s.place a).kernelStackBase⟩

/-- A stack is copied from low to high addresses; this is what it does to the images. -/
def copyFrames (image : Nat → TaskImage) (src dst : Nat) : Nat → TaskImage :=
  (List.range (TASK_STACK_SIZE / pageSize)).foldl
    (fun im i => update im (dst + i * pageSize) (im (src + i * pageSize))) image

def RingState.reread (s : RingState) (image : Nat → TaskImage) : RingState where
  k := { s.k with tasks := fun a => (s.k.tasks a).map fun _ => (image (s.place a).task).task }
  pmm := s.pmm
  place a :=
    if (s.k.tasks a).isSome then
      { s.place a with kernelStackBase := (image (s.place a).task).kernelStackBase }
    else s.place a

/-- `copy` is the struct of the child before its fields are set. -/
def insertChild (k : KernelState) (copy cur : Task) (fd : Nat → FdEntry) : KernelState :=
  let child := k.nextTask
  let k := { k with nextTask := child + 1 }
  let k := k.setTask child { copy with pid := 0, ppid := cur.pid, fd := fd, next := cur.next }
  let k := if copy.state = .terminated then k.emit (.terminated child cur.pid copy.exitCode) else k
  k.setTask k.gCurrent { cur with next := child }

/-- `SYS_FORK` behind the allocations. -/
def forkInto (s : RingState) (mem : Nat → Bool) (other : Nat → TaskImage) (child stack : Nat) :
    Option RingState := do
  let cur ← s.k.tasks s.k.gCurrent
  let stackBase := (s.place s.k.gCurrent).kernelStackBase
  let image := copyFrames (update (s.image other) child ⟨cur, stackBase⟩) stackBase stack
  let s := s.reread image
  let copy := (image child).task
  let cur ← s.k.tasks s.k.gCurrent
  let (k, fd) ← forkSlots cur.fd mem (List.range TASK_MAX_FD) s.k copy.fd
  return { s with
    k := insertChild k copy cur fd
    place := update s.place k.nextTask ⟨child, stack⟩ }

def ringFork (s : RingState) (mem : Nat → Bool) (other : Nat → TaskImage) : Option RingState :=
  if s.k.gCurrent = 0 then some s
  else
    match pmmAlloc s.pmm with
    | (pml4, pmm) =>
      if pml4 = 0 then some { s with pmm }
      else
        match pmmAlloc pmm with
        | (child, pmm) =>
          if child = 0 then some { s with pmm }
          else
            match pmmAlloc pmm with
            | (stack, pmm) =>
              if stack = 0 then some { s with pmm := pmmFree pmm child }
              else forkInto { s with pmm } mem other child.toNat stack.toNat

def freeFrames (place : Nat → TaskPlace) (pmm : Pmm) : KernelEvent → Pmm
  | .freed a => pmmFree (pmmFree pmm (BitVec.ofNat 64 (place a).kernelStackBase))
      (BitVec.ofNat 64 (place a).task)
  | _ => pmm

def RingState.settle (s : RingState) (k : KernelState) : RingState :=
  { s with k, pmm := (k.events.drop s.k.events.length).foldl (freeFrames s.place) s.pmm }

def ringAct (s : RingState) : RingAct → Option RingState
  | .create => ringCreate s
  | .fork mem other => ringFork s mem other
  | .call a => (schedAct s.k a).map s.settle

def RingAct.Plain : RingAct → Prop
  | .call a => a.Plain
  | _ => True

def ringStep (s : RingState) (a : RingAct) (s' : RingState) : Prop :=
  s.k.halted = false ∧ a.Plain ∧ ringAct s a = some s'

def schedulerInit (s : RingState) : Option RingState := do
  let s ← ringCreate s
  let t ← s.k.tasks s.k.gCurrent
  return { s with k := s.k.setTask s.k.gCurrent { t with state := .running } }

/-- Before `scheduler_init`: there are no tasks. -/
structure Unstarted (s : RingState) : Prop where
  current : s.k.gCurrent = 0
  tasks : ∀ a, ¬ s.k.Live a
  next : 0 < s.k.nextTask

-- ---------------------------------------------------------------------------
-- What is to hold
-- ---------------------------------------------------------------------------

/-- The tasks are on one cycle that begins with the current one, and what goes along it
comes to its end. -/
structure RingOk (k : KernelState) : Prop where
  cycle : ∃ l : List Nat, l.Nodup ∧ l.head? = some k.gCurrent ∧ (∀ a, a ∈ l ↔ k.Live a) ∧
    ∀ i (hi : i < l.length), k.link l[i] = l[(i + 1) % l.length]?
  find : ∀ pid, ∃ a, taskFind k pid = some a
  prev : ∀ a, k.Live a → ∃ p, findPrev k.tasks a k.rounds k.gCurrent = some p
  calls : ∀ a : SchedAct, a.Plain → ∃ k', schedAct k a = some k'

/-- The frames that `SYS_FORK` would get for the child's struct and stack. -/
def forkFrames (pmm : Pmm) : Word × Word :=
  let pmm := (pmmAlloc (pmmAlloc pmm).2)
  (pmm.1, (pmmAlloc pmm.2).1)

/-- No struct is in the three frames behind the one for the child's stack. -/
def StackClear (s : RingState) : RingAct → Prop
  | .fork _ _ => (forkFrames s.pmm).2 ≠ 0 → ∀ i, 1 ≤ i → i < 4 → ∀ a, s.k.Live a →
      (s.place a).task ≠ (forkFrames s.pmm).2.toNat + i * pageSize
  | _ => True

variable {s s' s₀ : RingState} {k k' : KernelState} {l : List Nat} {pmm pmm' : Pmm}

theorem leads_getElem {link : Nat → Option Nat} (h : Leads link a l b) (i : Nat)
    (hi : i < l.length) : link l[i] = (l ++ [b])[i + 1]? := by
  induction l generalizing a i with
  | nil => cases hi
  | cons x l ih =>
    obtain ⟨-, y, hy, h⟩ := h
    cases i with
    | zero =>
      refine hy.trans ?_
      cases l with
      | nil => exact congrArg some h
      | cons z l => exact congrArg some h.1
    | succ i => exact ih h i (Nat.lt_of_succ_lt_succ hi)

theorem OnRing.ok (h : OnRing k l) : RingOk k := by
  refine ⟨⟨k.gCurrent :: l, h.cycle.nodup, rfl, fun a => ⟨h.live, h.all a⟩, fun i hi => ?_⟩,
    fun pid => ?_, fun a ha => ?_, fun a ha => ?_⟩
  · rw [leads_getElem h.cycle.leads i hi]
    obtain hlt | heq := Nat.lt_or_eq_of_le (Nat.succ_le_of_lt hi)
    · rw [List.getElem?_append_left hlt, Nat.mod_eq_of_lt hlt]
    · rw [List.getElem?_append_right (Nat.le_of_eq heq.symm), ← heq, Nat.mod_self, Nat.sub_self]
      rfl
  · obtain ⟨a, ha, -⟩ := h.taskFind pid
    exact ⟨a, ha⟩
  · obtain rfl | hm := List.mem_cons.mp (h.all a ha)
    · exact ⟨_, findPrev_spec h.cycle.leads (List.cons_ne_nil _ _) h.zero_not_mem
        (List.nodup_cons.mp h.cycle.nodup).1 (Nat.le_of_lt h.length_lt)⟩
    · obtain ⟨l₁, l₂, rfl⟩ := List.append_of_mem hm
      exact ⟨_, h.findPrev⟩
  · obtain ⟨k', -, he, -⟩ := h.schedAct ha
    exact ⟨k', he⟩

-- ---------------------------------------------------------------------------
-- The frames of tasks
-- ---------------------------------------------------------------------------

def Taken (pmm : Pmm) (f : Nat) : Prop :=
  pageSize ∣ f ∧ f < 2 ^ 64 ∧ pmm.Held (BitVec.ofNat 64 f)

structure Placed (s : RingState) : Prop where
  taken : ∀ a, s.k.Live a → ∀ f ∈ (s.place a).frames, Taken s.pmm f
  apart : ∀ a b, s.k.Live a → s.k.Live b → a ≠ b → ∀ f ∈ (s.place a).frames,
    f ∉ (s.place b).frames

theorem Taken.alloc (h : Taken pmm f) (ha : pmmAlloc pmm = (a, pmm')) : Taken pmm' f :=
  ⟨h.1, h.2.1, pmmAlloc_held ha h.2.2⟩

theorem taken_new (ha : pmmAlloc pmm = (a, pmm')) (h0 : a ≠ 0) : Taken pmm' a.toNat := by
  refine ⟨pmmAlloc_dvd ha, a.isLt, ?_⟩
  rw [BitVec.ofNat_toNat, BitVec.setWidth_eq]
  exact (pmmAlloc_fresh ha h0).2

theorem Taken.ne_new (h : Taken pmm f) (ha : pmmAlloc pmm = (a, pmm')) (h0 : a ≠ 0) :
    f ≠ a.toNat := by
  rintro rfl
  refine (pmmAlloc_fresh ha h0).1 ?_
  have := h.2.2
  rwa [BitVec.ofNat_toNat, BitVec.setWidth_eq] at this

theorem Taken.free (h : Taken pmm f) (hg : pageSize ∣ g) (hlt : g < 2 ^ 64) (hne : f ≠ g) :
    Taken (pmmFree pmm (BitVec.ofNat 64 g)) f := by
  refine ⟨h.1, h.2.1, pmmFree_held h.2.2 fun heq => hne ?_⟩
  obtain ⟨m, rfl⟩ := h.1
  obtain ⟨n, rfl⟩ := hg
  have hlt' := h.2.1
  rw [BitVec.toNat_ofNat, BitVec.toNat_ofNat, Nat.mod_eq_of_lt hlt, Nat.mod_eq_of_lt hlt'] at heq
  simp only [pageSize] at heq ⊢
  omega

theorem Placed.alloc (h : Placed s) (ha : pmmAlloc s.pmm = (a, pmm')) :
    Placed { s with pmm := pmm' } :=
  ⟨fun b hb f hf => (h.taken b hb f hf).alloc ha, h.apart⟩

theorem Placed.add (h : Placed s) (hk : ∀ a, k'.Live a → a = n ∨ s.k.Live a)
    (hframes : ∀ f ∈ p.frames, Taken s.pmm f)
    (hapart : ∀ a, s.k.Live a → ∀ f ∈ (s.place a).frames, f ∉ p.frames) :
    Placed { k := k', pmm := s.pmm, place := update s.place n p } := by
  have hself : update s.place n p n = p := Function.update_self ..
  have hother : ∀ a, a ≠ n → update s.place n p a = s.place a := fun a ha =>
    Function.update_of_ne ha ..
  have hold : ∀ a, k'.Live a → a ≠ n → s.k.Live a := fun a ha hn => (hk a ha).resolve_left hn
  refine ⟨fun a ha f hf => ?_, fun a b ha hb hab f hf hf' => ?_⟩
  · dsimp only at hf
    by_cases hn : a = n
    · rw [hn, hself] at hf
      exact hframes f hf
    · rw [hother a hn] at hf
      exact h.taken a (hold a ha hn) f hf
  · dsimp only at hf hf'
    by_cases hn : a = n
    · have hbn : b ≠ n := fun hbn => hab (hn.trans hbn.symm)
      rw [hn, hself] at hf
      rw [hother b hbn] at hf'
      exact hapart b (hold b hb hbn) f hf' hf
    · rw [hother a hn] at hf
      by_cases hbn : b = n
      · rw [hbn, hself] at hf'
        exact hapart a (hold a ha hn) f hf hf'
      · rw [hother b hbn] at hf'
        exact h.apart a b (hold a ha hn) (hold b hb hbn) hab f hf hf'

theorem Placed.settle (h : Placed s) (ht : Thins s.k k') : Placed (s.settle k') := by
  obtain ⟨ev, he, hev⟩ := ht.events
  have hkeep : ∀ (ev : List KernelEvent) (pmm : Pmm) (f : Nat), Taken pmm f →
      (∀ b, .freed b ∈ ev → s.k.Live b ∧ f ∉ (s.place b).frames) →
      Taken (ev.foldl (freeFrames s.place) pmm) f := by
    intro ev
    induction ev with
    | nil => exact fun _ _ hf _ => hf
    | cons e ev ih =>
      intro pmm f hf hb
      refine ih _ f ?_ fun b hm => hb b (List.mem_cons_of_mem e hm)
      cases e with
      | freed b =>
        obtain ⟨hlive, hnot⟩ := hb b List.mem_cons_self
        obtain ⟨hdvd, hlt, -⟩ := h.taken b hlive (s.place b).task (by simp [TaskPlace.frames])
        obtain ⟨hdvd', hlt', -⟩ := h.taken b hlive (s.place b).kernelStackBase
          (by simp [TaskPlace.frames])
        simp only [TaskPlace.frames, List.mem_cons, List.not_mem_nil, or_false, not_or] at hnot
        exact (hf.free hdvd' hlt' hnot.2).free hdvd hlt hnot.1
      | _ => exact hf
  refine ⟨fun a ha f hf => ?_, fun a b ha hb => h.apart a b (ht.live a ha) (ht.live b hb)⟩
  have hdrop : k'.events.drop s.k.events.length = ev := by
    rw [he, List.drop_left]
  rw [RingState.settle, hdrop]
  refine hkeep ev s.pmm f (h.taken a (ht.live a ha) f hf) fun b hm => ?_
  obtain ⟨hb, hnot⟩ := hev b hm
  exact ⟨hb, h.apart a b (ht.live a ha) hb (fun hab => hnot (hab ▸ ha)) f hf⟩

-- ---------------------------------------------------------------------------
-- SYS_FORK
-- ---------------------------------------------------------------------------

theorem copyFrames_of_ne (image : Nat → TaskImage) (src : Nat)
    (h : ∀ i < 4, f ≠ dst + i * pageSize) : copyFrames image src dst f = image f := by
  have hcount : TASK_STACK_SIZE / pageSize = 4 := rfl
  rw [copyFrames, hcount]
  simp only [List.range_succ, List.range_zero, List.nil_append, List.cons_append, List.foldl_cons,
    List.foldl_nil]
  rw [Function.update_of_ne (h 3 (by decide)), Function.update_of_ne (h 2 (by decide)),
    Function.update_of_ne (h 1 (by decide)), Function.update_of_ne (h 0 (by decide))]

theorem Placed.holder (h : Placed s) (hknown : ∀ a, s.k.Live a → a < s.k.nextTask)
    (ht : s.k.tasks a = some t) : s.holder (s.place a).task = some a := by
  rw [RingState.holder, List.find?_range_eq_some]
  simp only [decide_eq_true_eq]
  refine ⟨⟨by rw [ht]; rfl, trivial⟩, List.mem_range.mpr (hknown a ⟨t, ht⟩), fun b hb => ?_⟩
  rw [Bool.not_eq_true', decide_eq_false_iff_not]
  rintro ⟨hlive, hplace⟩
  have hmem : (s.place a).task ∈ (s.place a).frames := List.mem_cons_self
  refine h.apart a b ⟨t, ht⟩ (Option.isSome_iff_exists.mp hlive) (Nat.ne_of_gt hb) _ hmem ?_
  rw [← hplace]
  exact List.mem_cons_self

theorem Placed.image (h : Placed s) (hknown : ∀ a, s.k.Live a → a < s.k.nextTask)
    (ht : s.k.tasks a = some t) (other : Nat → TaskImage) :
    s.image other (s.place a).task = ⟨t, (s.place a).kernelStackBase⟩ := by
  rw [RingState.image, h.holder hknown ht]
  simp only [Option.bind_some, ht, Option.map_some]

theorem reread_eq {image : Nat → TaskImage} (h : ∀ a t, s.k.tasks a = some t →
    image (s.place a).task = ⟨t, (s.place a).kernelStackBase⟩) : s.reread image = s := by
  have htasks : (fun a => (s.k.tasks a).map fun _ => (image (s.place a).task).task) =
      s.k.tasks := by
    funext a
    cases ht : s.k.tasks a with
    | none => rfl
    | some t => rw [Option.map_some, h a t ht]
  have hplace : (fun a => if (s.k.tasks a).isSome then
      { s.place a with kernelStackBase := (image (s.place a).task).kernelStackBase }
      else s.place a) = s.place := by
    funext a
    cases ht : s.k.tasks a with
    | none => rfl
    | some t => rw [Option.isSome_some, if_pos rfl, h a t ht]
  rw [RingState.reread, htasks, hplace]

theorem forkSlots_still (h : forkSlots fd mem slots k child = some (k', child')) : Still k k' := by
  obtain ⟨hq, htasks, hcur, -⟩ := forkSlots_quiet h
  obtain ⟨ev, he, hev⟩ := hq.events
  refine ⟨?_, hcur, hq.next, ev, he, fun a ha => ?_⟩
  · rw [KernelState.link, htasks]
  · obtain ⟨f, hf⟩ | ⟨f, hf⟩ := hev _ ha
    · cases hf
    · cases hf

theorem insertChild_ring (h : OnRing k l) (hcur : k.tasks k.gCurrent = some cur) (copy : Task)
    (fd : Nat → FdEntry) : OnRing (insertChild k copy cur fd) (k.nextTask :: l) ∧
      ∀ a, (insertChild k copy cur fd).Live a → a = k.nextTask ∨ k.Live a := by
  have hne : k.nextTask ≠ k.gCurrent := by
    have := h.known _ (h.live List.mem_cons_self)
    omega
  rw [insertChild]
  refine h.add ?_ ?_ ?_ ?_ fun a ha hn => ?_
  · split <;> rfl
  · split <;> rfl
  · split <;> exact link_setTask_self
  · rw [link_of_task hcur]
    split
    · refine (link_setTask_of_ne hne).trans ?_
      exact link_setTask_self
    · refine (link_setTask_of_ne hne).trans ?_
      exact link_setTask_self
  · split
    · refine (link_setTask_of_ne ha).trans ?_
      exact link_setTask_of_ne hn
    · refine (link_setTask_of_ne ha).trans ?_
      exact link_setTask_of_ne hn

theorem forkInto_ring (h : OnRing s.k l) (hp : Placed s) (hchild : Taken s.pmm child)
    (hstack : Taken s.pmm stack) (hne : child < stack)
    (hnew : ∀ a, s.k.Live a → ∀ f ∈ (s.place a).frames, f ≠ child ∧ f ≠ stack)
    (hclear : ∀ i, 1 ≤ i → i < 4 → ∀ a, s.k.Live a → (s.place a).task ≠ stack + i * pageSize)
    (he : forkInto s mem other child stack = some s') :
    OnRing s'.k (s.k.nextTask :: l) ∧ Placed s' := by
  obtain ⟨cur, hcur⟩ := h.current
  rw [forkInto, hcur] at he
  simp only [Option.bind_eq_bind, Option.bind_some] at he
  generalize (s.place s.k.gCurrent).kernelStackBase = base at he
  have hkeep : ∀ a t, s.k.tasks a = some t →
      copyFrames (update (s.image other) child ⟨cur, base⟩) base stack (s.place a).task =
        ⟨t, (s.place a).kernelStackBase⟩ := by
    intro a t ht
    obtain ⟨hac, has⟩ := hnew a ⟨t, ht⟩ (s.place a).task List.mem_cons_self
    rw [copyFrames_of_ne, Function.update_of_ne hac, hp.image h.known ht]
    intro i hi
    obtain rfl | hpos := Nat.eq_zero_or_pos i
    · rwa [Nat.zero_mul, Nat.add_zero]
    · exact hclear i hpos hi a ⟨t, ht⟩
  have hcopy : copyFrames (update (s.image other) child ⟨cur, base⟩) base stack child =
      ⟨cur, base⟩ := by
    rw [copyFrames_of_ne, Function.update_self]
    intro i _
    omega
  rw [reread_eq hkeep, hcopy, hcur] at he
  simp only [Option.bind_some] at he
  obtain ⟨⟨k, fd⟩, hslots, he⟩ := Option.bind_eq_some_iff.mp he
  cases he
  have hstill := forkSlots_still hslots
  have htasks := (forkSlots_quiet hslots).2.1
  have hcur' : k.tasks k.gCurrent = some cur := by
    rw [htasks, hstill.current, hcur]
  obtain ⟨hring, hlive⟩ := insertChild_ring (h.still hstill) hcur' cur fd
  rw [hstill.next] at hring hlive
  refine ⟨hring, ?_⟩
  rw [hstill.next]
  refine hp.add (fun a ha => (hlive a ha).imp_right hstill.live.mp) (fun f hf => ?_)
    fun a ha f hf hf' => ?_
  · simp only [TaskPlace.frames, List.mem_cons, List.not_mem_nil, or_false] at hf
    obtain rfl | rfl := hf
    · exact hchild
    · exact hstack
  · obtain ⟨hfc, hfs⟩ := hnew a ha f hf
    simp only [TaskPlace.frames, List.mem_cons, List.not_mem_nil, or_false] at hf'
    exact hf'.elim hfc hfs

-- ---------------------------------------------------------------------------
-- Runs
-- ---------------------------------------------------------------------------

def RingInv (s : RingState) : Prop := (∃ l, OnRing s.k l) ∧ Placed s

theorem RingInv.alloc (h : RingInv s) (ha : pmmAlloc s.pmm = (a, pmm')) :
    RingInv { s with pmm := pmm' } := ⟨h.1, h.2.alloc ha⟩

theorem Placed.new_frames (h : Placed s) (h₁ : pmmAlloc s.pmm = (x, pmm)) (hx : x ≠ 0)
    (h₂ : pmmAlloc pmm = (y, pmm')) (hy : y ≠ 0) :
    ∀ a, s.k.Live a → ∀ f ∈ (s.place a).frames, f ≠ x.toNat ∧ f ≠ y.toNat := fun a ha f hf =>
  ⟨(h.taken a ha f hf).ne_new h₁ hx, ((h.taken a ha f hf).alloc h₁).ne_new h₂ hy⟩

theorem Placed.create (h : Placed s) (h₁ : pmmAlloc s.pmm = (x, pmm)) (hx : x ≠ 0)
    (h₂ : pmmAlloc pmm = (y, pmm')) (hy : y ≠ 0) (hk : ∀ a, k'.Live a → a = n ∨ s.k.Live a) :
    Placed { k := k', pmm := pmm', place := update s.place n ⟨x.toNat, y.toNat⟩ } := by
  have hp : Placed { s with pmm := pmm' } := (h.alloc h₁).alloc h₂
  refine hp.add hk (fun f hf => ?_) fun a ha f hf hf' => ?_
  · simp only [TaskPlace.frames, List.mem_cons, List.not_mem_nil, or_false] at hf
    obtain rfl | rfl := hf
    · exact (taken_new h₁ hx).alloc h₂
    · exact taken_new h₂ hy
  · obtain ⟨hfx, hfy⟩ := h.new_frames h₁ hx h₂ hy a ha f hf
    simp only [TaskPlace.frames, List.mem_cons, List.not_mem_nil, or_false] at hf'
    exact hf'.elim hfx hfy

theorem ringCreate_inv (h : RingInv s) (he : ringCreate s = some s') : RingInv s' := by
  obtain ⟨⟨l, hring⟩, hp⟩ := h
  rw [ringCreate] at he
  rcases h₁ : pmmAlloc s.pmm with ⟨task, pmm₁⟩
  rcases h₂ : pmmAlloc pmm₁ with ⟨stack, pmm₂⟩
  simp only [h₁, h₂] at he
  split at he
  · cases he
    exact ⟨⟨l, hring⟩, (hp.alloc h₁).alloc h₂⟩
  · rename_i hok
    obtain ⟨htask, hstack⟩ := not_or.mp hok
    obtain ⟨pid, k', hcreate, hring', hlive, -⟩ := hring.taskCreate
    rw [hcreate] at he
    cases he
    exact ⟨⟨_, hring'⟩, hp.create h₁ htask h₂ hstack hlive⟩

theorem ringFork_inv (h : RingInv s) (hclear : StackClear s (.fork mem other))
    (he : ringFork s mem other = some s') : RingInv s' := by
  rw [ringFork] at he
  split at he
  · cases he
    exact h
  rcases h₁ : pmmAlloc s.pmm with ⟨pml4, pmm₁⟩
  rcases h₂ : pmmAlloc pmm₁ with ⟨child, pmm₂⟩
  rcases h₃ : pmmAlloc pmm₂ with ⟨stack, pmm₃⟩
  simp only [h₁, h₂, h₃] at he
  have hinv₁ := h.alloc h₁
  have hinv₂ := hinv₁.alloc h₂
  have hinv₃ := hinv₂.alloc h₃
  split at he
  · cases he
    exact hinv₁
  split at he
  · cases he
    exact hinv₂
  rename_i hchild
  have hnew := taken_new h₂ hchild
  split at he
  · cases he
    refine ⟨h.1, fun a ha f hf => ?_, h.2.apart⟩
    -- the frame for the struct goes back
    have htaken := hinv₃.2.taken a ha f hf
    have hne := (hinv₁.2.taken a ha f hf).ne_new h₂ hchild
    have := htaken.free hnew.1 hnew.2.1 hne
    rwa [BitVec.ofNat_toNat, BitVec.setWidth_eq] at this
  · rename_i hstack
    obtain ⟨l, hring⟩ := h.1
    have hfork : forkFrames s.pmm = (child, stack) := by
      rw [forkFrames, h₁]
      simp only [h₂, h₃]
    rw [StackClear, hfork] at hclear
    obtain ⟨hring', hp'⟩ := forkInto_ring (s := { s with pmm := pmm₃ }) hring hinv₃.2
      (hnew.alloc h₃) (taken_new h₃ hstack) (pmmAlloc_lt h₂ h₃ hstack)
      (hinv₁.2.new_frames h₂ hchild h₃ hstack) (hclear hstack) he
    exact ⟨⟨_, hring'⟩, hp'⟩

theorem ringStep_inv (h : RingInv s) (hclear : StackClear s a) (hs : ringStep s a s') :
    RingInv s' := by
  obtain ⟨-, hplain, he⟩ := hs
  cases a with
  | create => exact ringCreate_inv h he
  | fork mem other => exact ringFork_inv h hclear he
  | call a =>
    obtain ⟨⟨l, hring⟩, hp⟩ := h
    obtain ⟨k', l', hact, hring', hthins⟩ := hring.schedAct hplain
    rw [ringAct, hact] at he
    cases he
    exact ⟨⟨l', hring'⟩, hp.settle hthins⟩

theorem taskCreate_first (h : Unstarted s) : ∃ pid k', taskCreate s.k = some (pid, k') ∧
    OnRing k' [] ∧ ∀ a, k'.Live a → a = s.k.nextTask ∨ s.k.Live a := by
  have hnext := h.next
  rw [taskCreate, if_pos h.current]
  refine ⟨_, _, rfl, ?_⟩
  generalize hk : KernelState.setTask _ s.k.nextTask _ = k'
  have hcur : k'.gCurrent = s.k.nextTask := by
    rw [← hk]
    rfl
  have hlink : k'.link s.k.nextTask = some s.k.nextTask := by
    rw [← hk]
    exact link_setTask_self
  have hlive : ∀ a, k'.Live a → a = s.k.nextTask := by
    intro a ha
    by_contra hne
    refine h.tasks a ((live_congr ?_).mp ha)
    rw [← hk]
    exact link_setTask_of_ne hne
  refine ⟨⟨⟨List.nodup_singleton _, rfl, _, ?_, rfl⟩, fun a ha => ?_, fun a ha => ?_, fun ha => ?_⟩,
    fun a ha => .inl (hlive a ha)⟩
  · rw [hcur]
    exact hlink
  · rw [hcur, hlive a ha]
    exact List.mem_cons_self
  · rw [hlive a ha, ← hk]
    exact Nat.lt_succ_self _
  · have := hlive 0 ha
    omega

theorem schedulerInit_inv (h : Unstarted s) (he : schedulerInit s = some s₀) : RingInv s₀ := by
  obtain ⟨s₁, hcreate, he⟩ := Option.bind_eq_some_iff.mp he
  obtain ⟨t, ht, he⟩ := Option.bind_eq_some_iff.mp he
  cases he
  have hp : Placed s := ⟨fun a ha => absurd ha (h.tasks a), fun a _ ha => absurd ha (h.tasks a)⟩
  suffices hinv : RingInv s₁ by
    obtain ⟨⟨l, hring⟩, hp₁⟩ := hinv
    have hset : Still s₁.k (s₁.k.setTask s₁.k.gCurrent { t with state := .running }) :=
      .setTask ht rfl
    exact ⟨⟨l, hring.still hset⟩, fun a ha => hp₁.taken a (hset.live.mp ha),
      fun a b ha hb => hp₁.apart a b (hset.live.mp ha) (hset.live.mp hb)⟩
  rw [ringCreate] at hcreate
  rcases h₁ : pmmAlloc s.pmm with ⟨task, pmm₁⟩
  rcases h₂ : pmmAlloc pmm₁ with ⟨stack, pmm₂⟩
  simp only [h₁, h₂] at hcreate
  split at hcreate
  · cases hcreate
    exact absurd ⟨t, ht⟩ (h.tasks _)
  · rename_i hok
    obtain ⟨htask, hstack⟩ := not_or.mp hok
    obtain ⟨pid, k', hfirst, hring, hlive⟩ := taskCreate_first h
    rw [hfirst] at hcreate
    cases hcreate
    exact ⟨⟨[], hring⟩, hp.create h₁ htask h₂ hstack hlive⟩

/-- The ring is kept by every run in which no `SYS_FORK` writes over the struct of a task. -/
theorem ring_kept (h : Unstarted s) (hinit : schedulerInit s = some s₀)
    (hrun : Run ringStep StackClear s₀ as s') : RingOk s'.k := by
  have hinv := hrun.invariant RingInv (schedulerInit_inv h hinit)
    fun _ _ _ hs hclear hstep => ringStep_inv hs hclear hstep
  obtain ⟨⟨l, hring⟩, -⟩ := hinv
  exact hring.ok

-- ---------------------------------------------------------------------------
-- An example
-- ---------------------------------------------------------------------------

/-- The machine before `scheduler_init`. -/
def unstarted : RingState where
  k := {
    tasks := fun _ => none
    nextTask := 1
    gCurrent := 0
    gNextPid := 1
    gTicks := 0
    gElfRetRip := 0
    halted := false
    files := fun _ => none
    nextFile := 1
    gPipes := fun _ => ⟨0, 0, 0, 0, false⟩
    events := [] }
  pmm := smallMem.pmm
  place _ := ⟨0, 0⟩

theorem unstarted_unstarted : Unstarted unstarted := by
  refine ⟨rfl, fun a ha => ?_, Nat.one_pos⟩
  obtain ⟨t, ht⟩ := ha
  cases ht

def ringRun : RingState → List RingAct → Option RingState
  | s, [] => some s
  | s, a :: as => if s.k.halted then none else (ringAct s a).bind fun s => ringRun s as

theorem run_of_ringRun (hplain : ∀ a ∈ as, RingAct.Plain a) (h : ringRun s as = some s') :
    Run ringStep (fun _ _ => True) s as s' := by
  induction as generalizing s with
  | nil =>
    cases h
    exact .nil
  | cons a as ih =>
    rw [ringRun] at h
    split at h
    · cases h
    · rename_i hhalted
      obtain ⟨s₁, hact, h⟩ := Option.bind_eq_some_iff.mp h
      have hstep : ringStep s a s₁ :=
        ⟨Bool.not_eq_true _ ▸ hhalted, hplain a List.mem_cons_self, hact⟩
      exact .cons trivial hstep (ih (fun b hb => hplain b (List.mem_cons_of_mem a hb)) h)

def emptyImage : TaskImage := ⟨⟨0, 0, .ready, 0, 0, fun _ => .free, fun _ => ⟨0, 0, 0⟩, 0⟩, 0⟩

/-- Three more tasks; two of them are killed and cleaned up, and the first one forks. -/
def overwriting : List RingAct :=
  [.create, .create, .create, .call (.kill 2 9), .call (.kill 3 9), .call .schedule,
    .call .schedule, .fork (fun _ => true) fun _ => emptyImage]

theorem overwriting_plain : ∀ a ∈ overwriting, RingAct.Plain a := by
  simp [overwriting, RingAct.Plain, SchedAct.Plain]

theorem ring_kept_two : ∃ s₀ s₁, schedulerInit unstarted = some s₀ ∧ ringStep s₀ .create s₁ ∧
    RingOk s₁.k := by
  obtain ⟨s₁, hs₁⟩ : ∃ s₁, ((schedulerInit unstarted).bind fun s => ringRun s [.create]) =
      some s₁ := Option.isSome_iff_exists.mp (by decide +kernel)
  obtain ⟨s₀, hinit, hrun⟩ := Option.bind_eq_some_iff.mp hs₁
  have hrun := run_of_ringRun (by simp [RingAct.Plain]) hrun
  rcases hrun with _ | ⟨-, hstep, hrun⟩
  cases hrun
  have hclear : StackClear s₀ .create := trivial
  exact ⟨s₀, s₁, hinit, hstep, ring_kept unstarted_unstarted hinit (.cons hclear hstep .nil)⟩

/-- The copy of the stack writes the struct of task 1 over that of task 4, which then is
linked to itself. -/
theorem fork_breaks_ring : ¬ ∀ s s₀ as s', Unstarted s → schedulerInit s = some s₀ →
    Run ringStep (fun _ _ => True) s₀ as s' → RingOk s'.k := by
  intro h
  have htick : (((schedulerInit unstarted).bind fun s => ringRun s overwriting).map
      fun s => (schedulerTick s.k).isSome) = some false := by decide +kernel
  obtain ⟨s', hs', htick⟩ := Option.map_eq_some_iff.mp htick
  obtain ⟨s₀, hinit, hrun⟩ := Option.bind_eq_some_iff.mp hs'
  have hok := h unstarted s₀ overwriting s' unstarted_unstarted hinit
    (run_of_ringRun overwriting_plain hrun)
  obtain ⟨k', hk'⟩ := hok.calls .tick trivial
  have hk' : schedulerTick s'.k = some k' := hk'
  rw [hk'] at htick
  cases htick

end EponaOS.Kernel
