import Mathlib.Logic.Function.Basic
import EponaOS.Kernel.TaskMemory

/-!
# What fork gives to the child

`SYS_FORK` copies the task struct and the kernel stack. The child gets the process id 0, as
does the parent as its answer, and a saved `rsp` that points into the copy where the
parent's points into its own stack: to where the parent was left last, not to the trap
frame of the call.
-/

namespace EponaOS.Kernel.Context

open Function (update)
open Mm

/-- `struct regs`: the trap frame, from low to high addresses. -/
structure Regs where
  r15 : Word
  r14 : Word
  r13 : Word
  r12 : Word
  r11 : Word
  r10 : Word
  r9 : Word
  r8 : Word
  rbp : Word
  rdi : Word
  rsi : Word
  rdx : Word
  rcx : Word
  rbx : Word
  rax : Word
  vector : Word
  errorCode : Word
  rip : Word
  cs : Word
  rflags : Word
  rsp : Word
  ss : Word

def Regs.read (mem : Word → Word) (r : Word) : Regs where
  r15 := mem r
  r14 := mem (r + 8)
  r13 := mem (r + 16)
  r12 := mem (r + 24)
  r11 := mem (r + 32)
  r10 := mem (r + 40)
  r9 := mem (r + 48)
  r8 := mem (r + 56)
  rbp := mem (r + 64)
  rdi := mem (r + 72)
  rsi := mem (r + 80)
  rdx := mem (r + 88)
  rcx := mem (r + 96)
  rbx := mem (r + 104)
  rax := mem (r + 112)
  vector := mem (r + 120)
  errorCode := mem (r + 128)
  rip := mem (r + 136)
  cs := mem (r + 144)
  rflags := mem (r + 152)
  rsp := mem (r + 160)
  ss := mem (r + 168)

/-- What `context_switch` restores: it pops six registers and returns. -/
structure KernelContext where
  r15 : Word
  r14 : Word
  r13 : Word
  r12 : Word
  rbp : Word
  rbx : Word
  rip : Word
  rsp : Word

def contextSwitch (mem : Word → Word) (rsp : Word) : KernelContext where
  r15 := mem rsp
  r14 := mem (rsp + 8)
  r13 := mem (rsp + 16)
  r12 := mem (rsp + 24)
  rbp := mem (rsp + 32)
  rbx := mem (rsp + 40)
  rip := mem (rsp + 48)
  rsp := rsp + 56

/-- `task_struct_t`, as far as it concerns the context. -/
structure ForkTask where
  pid : BitVec 32
  ppid : BitVec 32
  rsp : Word
  cr3 : Word
  kernelStackBase : Word
  deriving DecidableEq

/-- At the system call: `mem` are the words of the stacks by their addresses, and `r` is
where the trap frame is. -/
structure ForkState where
  pmm : Pmm
  mem : Word → Word
  r : Word
  cur : ForkTask
  others : List ForkTask

def copyStack (mem : Word → Word) (src dst : Word) (n : Nat) : Word → Word :=
  (List.range n).foldl (fun mem i =>
    update mem (dst + BitVec.ofNat 64 (8 * i)) (mem (src + BitVec.ofNat 64 (8 * i)))) mem

def setRax (mem : Word → Word) (r rax : Word) : Word → Word := update mem (r + 112) rax

def sysFork (s : ForkState) : Option ForkTask × ForkState :=
  match pmmAlloc s.pmm with
  | (pml4, pmm) =>
    if pml4 = 0 then (none, { s with pmm, mem := setRax s.mem s.r (-1) })
    else
      match pmmAlloc pmm with
      | (child, pmm) =>
        if child = 0 then (none, { s with pmm, mem := setRax s.mem s.r (-1) })
        else
          match pmmAlloc pmm with
          | (stack, pmm) =>
            if stack = 0 then
              (none, { s with pmm := pmmFree pmm child, mem := setRax s.mem s.r (-1) })
            else
              let mem := copyStack s.mem s.cur.kernelStackBase stack (TASK_STACK_SIZE / 8)
              let task := {
                pid := 0
                ppid := s.cur.pid
                rsp := stack + (s.cur.rsp - s.cur.kernelStackBase)
                cr3 := pml4
                kernelStackBase := stack }
              (some task, { s with pmm, mem := setRax mem s.r (task.pid.setWidth 64) })

/-- Two correct processes. `unwind` is what the kernel does from a context on, up to the
trap frame that its `iretq` leaves by. -/
structure ForkCorrect (unwind : (Word → Word) → KernelContext → Option Regs) (s s' : ForkState)
    (child : ForkTask) : Prop where
  pid_ne : child.pid ≠ 0
  pid_new : ∀ t ∈ s.cur :: s.others, t.pid ≠ child.pid
  returned : (Regs.read s'.mem s'.r).rax = child.pid.setWidth 64
  resumed : unwind s'.mem (contextSwitch s'.mem child.rsp) =
    some { Regs.read s.mem s.r with rax := 0 }

theorem sysFork_spec (h : (sysFork s).1 = some child) : ∃ pml4 stack pmm,
    child = ⟨0, s.cur.pid, stack + (s.cur.rsp - s.cur.kernelStackBase), pml4, stack⟩ ∧
    (sysFork s).2 = { s with
      pmm, mem := setRax (copyStack s.mem s.cur.kernelStackBase stack 2048) s.r 0 } := by
  rw [sysFork] at h ⊢
  cases h₁ : pmmAlloc s.pmm with
  | mk pml4 pmm₁ =>
    simp only [h₁] at h ⊢
    split at h
    · cases h
    rename_i hpml4
    rw [if_neg hpml4]
    cases h₂ : pmmAlloc pmm₁ with
    | mk task pmm₂ =>
      simp only [h₂] at h ⊢
      split at h
      · cases h
      rename_i htask
      rw [if_neg htask]
      cases h₃ : pmmAlloc pmm₂ with
      | mk stack pmm₃ =>
        simp only [h₃] at h ⊢
        split at h
        · cases h
        · rename_i hstack
          rw [if_neg hstack]
          cases h
          exact ⟨pml4, stack, pmm₃, rfl, rfl⟩

/-- No child is right: its process id is 0, and so is the answer to the parent. -/
theorem fork_never_correct (unwind : (Word → Word) → KernelContext → Option Regs)
    (h : (sysFork s).1 = some child) :
    child.pid = 0 ∧ (Regs.read (sysFork s).2.mem (sysFork s).2.r).rax = 0 ∧
      ¬ForkCorrect unwind s (sysFork s).2 child := by
  obtain ⟨pml4, stack, pmm, rfl, hs⟩ := sysFork_spec h
  refine ⟨rfl, ?_, fun hc => hc.pid_ne rfl⟩
  rw [hs]
  exact Function.update_self ..

def forkTest : ForkState where
  pmm := smallMem.pmm
  mem := fun _ => 0
  r := 0x103000
  cur := ⟨1, 0, 0x101000, 0, 0x100000⟩
  others := []

theorem forkTest_child :
    (sysFork forkTest).1 = some ⟨0, 1, 0x203000, 0x200000, 0x202000⟩ := by decide +kernel

theorem fork_never_correct_forkTest :
    ¬ForkCorrect (fun _ _ => none) forkTest (sysFork forkTest).2
      ⟨0, 1, 0x203000, 0x200000, 0x202000⟩ :=
  (fork_never_correct (fun _ _ => none) forkTest_child).2.2

/-- The first process of the machine forks, and the child has the process id 0. -/
theorem fork_pid_zero :
    ¬∀ unwind s child, (sysFork s).1 = some child → ForkCorrect unwind s (sysFork s).2 child :=
  fun h => (h (fun _ _ => none) forkTest _ forkTest_child).pid_ne rfl

-- ---------------------------------------------------------------------------
-- The context of the child
-- ---------------------------------------------------------------------------

/-- Words of a stack from `base` on. -/
abbrev slotAt (base : Word) (i : Nat) : Word := base + BitVec.ofNat 64 (8 * i)

theorem slotAt_inj (hi : i < 2048) (hj : j < 2048) (h : slotAt base i = slotAt base j) :
    i = j := by
  have hval := congrArg BitVec.toNat h
  simp only [BitVec.toNat_add, BitVec.toNat_ofNat] at hval
  omega

theorem copyStack_succ :
    copyStack mem src dst (n + 1) =
      update (copyStack mem src dst n) (slotAt dst n) (copyStack mem src dst n (slotAt src n)) := by
  simp only [copyStack, List.range_succ, List.foldl_append, List.foldl_cons, List.foldl_nil]

theorem copyStack_of_ne (h : ∀ i < n, a ≠ slotAt dst i) : copyStack mem src dst n a = mem a := by
  induction n with
  | zero => rfl
  | succ n ih =>
    rw [copyStack_succ, Function.update_of_ne (h n (Nat.lt_succ_self n))]
    exact ih fun i hi => h i (Nat.lt_succ_of_lt hi)

theorem copyStack_slot (hn : n ≤ 2048)
    (hapart : ∀ i < 2048, ∀ j < 2048, slotAt src i ≠ slotAt dst j) (hi : i < n) :
    copyStack mem src dst n (slotAt dst i) = mem (slotAt src i) := by
  induction n with
  | zero => omega
  | succ n ih =>
    rw [copyStack_succ]
    by_cases hin : i = n
    · subst hin
      rw [Function.update_self]
      exact copyStack_of_ne fun j hj => hapart i (by omega) j (by omega)
    · have hne : slotAt dst i ≠ slotAt dst n :=
        fun h => hin (slotAt_inj (by omega) (by omega) h)
      rw [Function.update_of_ne hne]
      exact ih (by omega) (by omega)

/-- The child starts where the parent was left last: its context is not the one of the system
call but the one that the last `context_switch` away from the parent saved. -/
theorem fork_context (h : (sysFork s).1 = some child)
    (hrsp : s.cur.rsp = slotAt s.cur.kernelStackBase k) (hk : k + 7 ≤ 2048)
    (hapart : ∀ i < 2048, ∀ j < 2048,
      slotAt s.cur.kernelStackBase i ≠ slotAt child.kernelStackBase j)
    (hrax : ∀ i < 2048, slotAt child.kernelStackBase i ≠ s.r + 112) :
    contextSwitch (sysFork s).2.mem child.rsp =
      { contextSwitch s.mem s.cur.rsp with rsp := child.rsp + 56 } := by
  obtain ⟨pml4, stack, pmm, rfl, hs⟩ := sysFork_spec h
  dsimp only at hapart hrax ⊢
  have hchild : stack + (s.cur.rsp - s.cur.kernelStackBase) = slotAt stack k := by
    rw [hrsp, slotAt, slotAt, BitVec.add_comm s.cur.kernelStackBase, BitVec.add_sub_cancel]
  have hword : ∀ j < 7, (sysFork s).2.mem (slotAt stack (k + j)) =
      s.mem (slotAt s.cur.kernelStackBase (k + j)) := by
    intro j hj
    rw [hs]
    change update _ _ _ _ = _
    rw [Function.update_of_ne (hrax _ (by omega))]
    exact copyStack_slot (Nat.le_refl _) hapart (by omega)
  have hat (base : Word) (j : Nat) :
      slotAt base (k + j) = slotAt base k + BitVec.ofNat 64 (8 * j) := by
    rw [slotAt, slotAt, Nat.mul_add, BitVec.ofNat_add, BitVec.add_assoc]
  simp only [hat] at hword
  rw [hchild, hrsp]
  simp only [contextSwitch, KernelContext.mk.injEq]
  have h0 := hword 0 (by decide)
  simp only [Nat.mul_zero, BitVec.add_zero] at h0
  exact ⟨by simpa using h0, hword 1 (by decide), hword 2 (by decide), hword 3 (by decide),
    hword 4 (by decide), hword 5 (by decide), hword 6 (by decide), trivial⟩

end EponaOS.Kernel.Context
