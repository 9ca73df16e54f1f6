import EponaOS.Kernel.Elf
import EponaOS.Lib.Run
import EponaOS.Mm.BootTables
import EponaOS.Mm.FrameAccounting
import EponaOS.Mm.PageFrames

/-!
# The frames of a program

`elf_load` takes a frame for the PML4, for every page and for the tables in between, and
nothing gives them back: `SYS_EXIT` closes files, marks the task as terminated and goes
back to the kernel's page tables. The only frames that are ever freed are the two of a
task. So with as many tasks as before there are fewer free frames after a program.
-/

namespace EponaOS.Kernel.Elf

open Bytes Fs Mm

variable {fp : FatPrivate} {fuel : Nat} {node : VfsNode} {s s' : Machine} {d d' : Disk}
  {pml4 page : Word}

-- ---------------------------------------------------------------------------
-- Loading
-- ---------------------------------------------------------------------------

theorem mapFresh_freeFrames (h : mapFresh s pml4 page = (ok, s')) :
    s'.pmm.freeFrames + ok.toNat ≤ s.pmm.freeFrames := by
  rcases ha : pmmAlloc s.pmm with ⟨a, pmm⟩
  have halloc := pmmAlloc_freeFrames ha
  simp only [mapFresh, ha] at h
  by_cases ha0 : a = 0
  · rw [if_pos ha0] at h halloc
    cases h
    exact halloc
  · rw [if_neg ha0] at h halloc
    rcases hm : pagingMapPageOn { s with mem := TableTrie.fillTable s.mem a fun _ => 0, pmm } pml4
      page a (PAGE_USER ||| PAGE_RW) with ⟨ret, s₁⟩
    have hmap := pagingMapPageOn_freeFrames hm
    simp only [hm] at h
    cases h
    have := Bool.toNat_le (!decide (ret < 0))
    dsimp only at hmap
    omega

theorem mapPages_freeFrames (h : mapPages pml4 n page s = (ok, s')) :
    s'.pmm.freeFrames + (if ok then n else 0) ≤ s.pmm.freeFrames := by
  induction n generalizing page s with
  | zero =>
    cases h
    exact Nat.le_refl _
  | succ n ih =>
    rcases hf : mapFresh s pml4 page with ⟨ok₁, s₁⟩
    have hfresh := mapFresh_freeFrames hf
    simp only [mapPages, hf] at h
    cases ok₁ with
    | false =>
      cases h
      exact hfresh
    | true =>
      have := ih h
      rw [Bool.toNat_true] at hfresh
      cases ok with
      | false => simpa using Nat.le_trans this (Nat.le_of_succ_le hfresh)
      | true =>
        simp only [if_true] at this ⊢
        omega

theorem copyChunks_pmm (h : copyChunks fp fuel node pml4 rounds rest writeAddr tmp offset s d =
    some (s', d')) : s'.pmm = s.pmm := by
  induction rounds generalizing rest writeAddr tmp offset s d with
  | zero =>
    cases h
    rfl
  | succ rounds ih =>
    rw [copyChunks] at h
    split at h
    · split at h
      · cases h
      · split at h
        · cases h
          rfl
        · refine (ih h).trans ?_
          split <;> rfl
    · cases h
      rfl

theorem loadSegment_freeFrames (h : loadSegment fp fuel node junk pml4 ph s d = some (ok, s', d')) :
    s'.pmm.freeFrames ≤ s.pmm.freeFrames := by
  rw [loadSegment] at h
  split at h
  · cases h
    exact Nat.le_refl _
  rcases hm : mapPages pml4 (pageCount ph) (startPage ph) s with ⟨ok₁, s₁⟩
  have hmap := Nat.le_of_add_right_le (mapPages_freeFrames hm)
  simp only [hm] at h
  split at h
  · cases h
    exact hmap
  · obtain ⟨r, hr, he⟩ := Option.map_eq_some_iff.mp h
    cases he
    have hpmm : r.1.pmm = s₁.pmm := copyChunks_pmm hr
    show r.1.pmm.freeFrames ≤ _
    rw [hpmm]
    exact hmap

theorem loadSegments_freeFrames
    (h : loadSegments fp fuel node junk pml4 phs s d = some (ok, s', d')) :
    s'.pmm.freeFrames ≤ s.pmm.freeFrames := by
  induction phs generalizing s d with
  | nil =>
    cases h
    exact Nat.le_refl _
  | cons ph phs ih =>
    rw [loadSegments] at h
    split at h
    · cases h
    · rename_i hs
      cases h
      exact loadSegment_freeFrames hs
    · rename_i hs
      exact Nat.le_trans (ih h) (loadSegment_freeFrames hs)

theorem mapStack_freeFrames (h : mapStack s pml4 = (ok, s')) :
    s'.pmm.freeFrames + (if ok then 5 else 0) ≤ s.pmm.freeFrames := by
  rcases hm : mapPages pml4 (ELF_USER_STACK_SIZE / 4096) stackBase s with ⟨ok₁, s₁⟩
  have hmap := mapPages_freeFrames hm
  simp only [mapStack, hm] at h
  split at h
  · rename_i hok
    cases h
    rwa [hok] at hmap
  · cases h
    exact hmap

theorem pagingCloneCurrent_freeFrames (h : pagingCloneCurrent s = (clone, s')) :
    s'.pmm.freeFrames + (if clone = 0 then 0 else 1) ≤ s.pmm.freeFrames := by
  rcases ha : pmmAlloc s.pmm with ⟨a, pmm⟩
  have halloc := pmmAlloc_freeFrames ha
  simp only [pagingCloneCurrent, ha] at h
  by_cases ha0 : a = 0
  · rw [if_pos ha0] at h halloc
    cases h
    rwa [if_pos rfl]
  · rw [if_neg ha0] at h halloc
    cases h
    rwa [if_neg ha0]

theorem elfBuild_freeFrames (h : elfBuild fp fuel node junk hdr phdrs s d = some (r, s', d')) :
    s'.pmm.freeFrames + (if r.isSome then 6 else 0) ≤ s.pmm.freeFrames := by
  rcases hc : pagingCloneCurrent s with ⟨clone, s₁⟩
  have hclone := pagingCloneCurrent_freeFrames hc
  simp only [elfBuild, hc] at h
  split at h
  · cases h
    exact Nat.le_of_add_right_le hclone
  rename_i hne
  rw [if_neg hne] at hclone
  split at h
  · cases h
  · rename_i hs
    cases h
    have := loadSegments_freeFrames hs
    simp only [Option.isSome_none, Bool.false_eq_true, if_false]
    omega
  · rename_i s₂ d₂ hs
    have hsegs := loadSegments_freeFrames hs
    rcases hm : mapStack s₂ clone with ⟨ok, s₃⟩
    have hstack := mapStack_freeFrames hm
    rw [hm] at h
    cases ok with
    | false =>
      cases h
      simp only [Bool.false_eq_true, if_false, Option.isSome_none] at hstack ⊢
      omega
    | true =>
      cases h
      simp only [if_true, Option.isSome_some] at hstack ⊢
      omega

theorem growPages_freeFrames (s : Machine) (virt : Word) (pages : Nat) :
    (growPages s virt pages).2.pmm.freeFrames ≤ s.pmm.freeFrames := by
  induction pages generalizing s virt with
  | zero => exact Nat.le_refl _
  | succ pages ih =>
    rw [growPages]
    rcases ha : pmmAlloc s.pmm with ⟨a, pmm⟩
    have halloc := Nat.le_of_add_right_le (pmmAlloc_freeFrames ha)
    dsimp only
    split
    · exact halloc
    · rcases hm : pagingMapPage { s with pmm } virt a PAGE_RW with ⟨ret, s₁⟩
      have hmap : s₁.pmm.freeFrames ≤ pmm.freeFrames := pagingMapPageOn_freeFrames hm
      exact Nat.le_trans (ih s₁ (virt + 4096)) (Nat.le_trans hmap halloc)

theorem Opened.grow_freeFrames (o : Opened) (s : Machine) :
    (o.grow s).pmm.freeFrames ≤ s.pmm.freeFrames :=
  List.foldlRecOn (motive := fun t => t.pmm.freeFrames ≤ s.pmm.freeFrames) o.growths _
    (Nat.le_refl _) fun t ht g _ => Nat.le_trans (growPages_freeFrames t g.1 g.2) ht

theorem elfLoadFile_freeFrames (h : elfLoadFile fp fuel node junk s d = some (r, s', d')) :
    s'.pmm.freeFrames + (if r.isSome then 6 else 0) ≤ s.pmm.freeFrames := by
  rw [elfLoadFile] at h
  split at h
  · cases h
  dsimp only at h
  split at h
  · cases h
    exact Nat.le_refl _
  split at h
  · cases h
  split at h
  · cases h
    exact Nat.le_refl _
  · exact elfBuild_freeFrames h

/-- However it ends no frame is given back, and a program that is loaded has six at least:
the PML4 and five pages of stack. -/
theorem elfLoad_freeFrames (h : elfLoad fp fuel vfsOpen junk path s d = some (r, s', d')) :
    s'.pmm.freeFrames + (if r.isSome then 6 else 0) ≤ s.pmm.freeFrames := by
  have hgrow := (vfsOpen (fullPath path)).grow_freeFrames s
  rw [elfLoad] at h
  split at h
  · cases h
    exact hgrow
  · exact Nat.le_trans (elfLoadFile_freeFrames h) hgrow

-- ---------------------------------------------------------------------------
-- The run of a program
-- ---------------------------------------------------------------------------

structure TaskFrames where
  task : Word
  kernelStackBase : Word

structure ProgState where
  machine : Machine
  tasks : List TaskFrames

/-- The calls that take or free frames or change page tables. The others do neither. -/
inductive ProgAct
  | taskCreate
  | fork
  /-- `task_destroy`, and what `schedule` does with a terminated task -/
  | taskDestroy (t : TaskFrames)
  /-- a page that `kmalloc` adds to the heap -/
  | growHeap (virt : Word)
  | exec (fp : FatPrivate) (vfsOpen : CStr → Opened) (junk : Bytes) (path : CStr) (d : Disk)
  | exit

def progCreate (s : ProgState) : ProgState :=
  let task := pmmAlloc s.machine.pmm
  let stack := pmmAlloc task.2
  { machine := { s.machine with pmm := stack.2 }
    tasks := if task.1 = 0 ∨ stack.1 = 0 then s.tasks else ⟨task.1, stack.1⟩ :: s.tasks }

def progFork (s : ProgState) : ProgState :=
  let c := pagingCloneCurrent s.machine
  if c.1 = 0 then { s with machine := c.2 }
  else
    let child := pmmAlloc c.2.pmm
    if child.1 = 0 then { s with machine := { c.2 with pmm := child.2 } }
    else
      let stack := pmmAlloc child.2
      if stack.1 = 0 then { s with machine := { c.2 with pmm := pmmFree stack.2 child.1 } }
      else ⟨{ c.2 with pmm := stack.2 }, ⟨child.1, stack.1⟩ :: s.tasks⟩

def growHeap (s : Machine) (virt : Word) : Machine :=
  let frame := pmmAlloc s.pmm
  if frame.1 = 0 then { s with pmm := frame.2 }
  else (pagingMapPage { s with pmm := frame.2 } virt frame.1 PAGE_RW).2

def freeTask (p : Pmm) (t : TaskFrames) : Pmm := pmmFree (pmmFree p t.kernelStackBase) t.task

def progStep (s : ProgState) (a : ProgAct) (s' : ProgState) : Prop :=
  match a with
  | .taskCreate => s' = progCreate s
  | .fork => s' = progFork s
  | .taskDestroy t => ∃ l₁ l₂, s.tasks = l₁ ++ t :: l₂ ∧
      s' = ⟨{ s.machine with pmm := freeTask s.machine.pmm t }, l₁ ++ l₂⟩
  | .growHeap virt => s' = { s with machine := growHeap s.machine virt }
  | .exec fp vfsOpen junk path d => ∃ fuel r machine d',
      elfLoad fp fuel vfsOpen junk path s.machine d = some (r, machine, d') ∧
      s' = { s with machine }
  | .exit => s' = s

def ProgState.frames (s : ProgState) : Nat := s.machine.pmm.freeFrames + 2 * s.tasks.length

theorem pmmFree_freeFrames (p : Pmm) (a : Word) : (pmmFree p a).freeFrames ≤ p.freeFrames + 1 := by
  rw [pmmFree]
  split
  · rename_i h
    have h1 := usedBelow_bmClear h.2 h.1
    have h2 := usedBelow_add_freeBelow p.bitmap p.totalFrames
    have h3 := usedBelow_add_freeBelow (bmClear p.bitmap (a.toNat / pageSize)) p.totalFrames
    show freeBelow (bmClear p.bitmap (a.toNat / pageSize)) p.totalFrames ≤
      freeBelow p.bitmap p.totalFrames + 1
    omega
  · exact Nat.le_succ _

theorem progCreate_frames (s : ProgState) : (progCreate s).frames ≤ s.frames := by
  rcases h1 : pmmAlloc s.machine.pmm with ⟨task, p1⟩
  rcases h2 : pmmAlloc p1 with ⟨stack, p2⟩
  have f1 := pmmAlloc_freeFrames h1
  have f2 := pmmAlloc_freeFrames h2
  simp only [ProgState.frames, progCreate, h1, h2]
  split
  · omega
  · rename_i hne
    rw [not_or] at hne
    rw [if_neg hne.1] at f1
    rw [if_neg hne.2] at f2
    rw [List.length_cons]
    omega

theorem progFork_frames (s : ProgState) : (progFork s).frames ≤ s.frames := by
  rcases hc : pagingCloneCurrent s.machine with ⟨clone, s₁⟩
  have f0 := pagingCloneCurrent_freeFrames hc
  simp only [ProgState.frames, progFork, hc]
  split
  · dsimp only
    omega
  rcases h1 : pmmAlloc s₁.pmm with ⟨child, p1⟩
  have f1 := pmmAlloc_freeFrames h1
  dsimp only
  split
  · dsimp only
    omega
  rename_i hc1
  rw [if_neg hc1] at f1
  rcases h2 : pmmAlloc p1 with ⟨stack, p2⟩
  have f2 := pmmAlloc_freeFrames h2
  dsimp only
  split
  · have := pmmFree_freeFrames p2 child
    dsimp only
    omega
  · rename_i hc2
    rw [if_neg hc2] at f2
    dsimp only
    rw [List.length_cons]
    omega

theorem growHeap_freeFrames (s : Machine) (virt : Word) :
    (growHeap s virt).pmm.freeFrames ≤ s.pmm.freeFrames := by
  rcases h1 : pmmAlloc s.pmm with ⟨frame, p1⟩
  have f1 := pmmAlloc_freeFrames h1
  simp only [growHeap, h1]
  split
  · exact Nat.le_of_add_right_le f1
  · rcases hm : pagingMapPage { s with pmm := p1 } virt frame PAGE_RW with ⟨ret, s₁⟩
    have := pagingMapPageOn_freeFrames hm
    dsimp only at this ⊢
    omega

theorem progStep_frames {s s' : ProgState} (h : progStep s a s') : s'.frames ≤ s.frames := by
  cases a with
  | taskCreate =>
    obtain rfl := h
    exact progCreate_frames s
  | fork =>
    obtain rfl := h
    exact progFork_frames s
  | taskDestroy t =>
    obtain ⟨l₁, l₂, ht, rfl⟩ := h
    have h1 := pmmFree_freeFrames s.machine.pmm t.kernelStackBase
    have h2 := pmmFree_freeFrames (pmmFree s.machine.pmm t.kernelStackBase) t.task
    simp only [ProgState.frames, freeTask, ht, List.length_append, List.length_cons]
    omega
  | growHeap virt =>
    obtain rfl := h
    exact Nat.add_le_add_right (growHeap_freeFrames s.machine virt) _
  | exec fp vfsOpen junk path d =>
    obtain ⟨fuel, r, machine, d', hload, rfl⟩ := h
    have := elfLoad_freeFrames hload
    simp only [ProgState.frames]
    omega
  | exit =>
    obtain rfl := h
    exact Nat.le_refl _

def Mapped (m : PhysMem) (pml4 v : Word) : Prop := (pageEntries m pml4 (pathOf v)).isSome = true

/-- As many free frames and the same pages in the page tables of the kernel. -/
def GivesBack (s s' : Machine) : Prop :=
  s'.pmm.freeFrames = s.pmm.freeFrames ∧ ∀ v, Mapped s'.mem s'.gPml4 v ↔ Mapped s.mem s.gPml4 v

/-- No program that was loaded gives its memory back. Only three other tasks that ended in
the meantime, two frames each, could stand in for what it keeps. -/
theorem program_keeps_frames {s : Machine} {t : ProgState}
    (hload : elfLoad fp fuel vfsOpen junk path s d = some (some img, s', d'))
    (hrun : Run progStep (fun _ _ => True) ⟨s', tasks⟩ (acts ++ [.exit]) t)
    (htasks : tasks.length < t.tasks.length + 3) : ¬ GivesBack s t.machine := by
  have htaken := elfLoad_freeFrames hload
  have hkept : t.frames ≤ ProgState.frames ⟨s', tasks⟩ :=
    hrun.invariant (fun t => t.frames ≤ ProgState.frames ⟨s', tasks⟩) (Nat.le_refl _)
      fun _ _ _ h _ hs => Nat.le_trans (progStep_frames hs) h
  rintro ⟨hsame, -⟩
  simp only [ProgState.frames, Option.isSome_some, if_true] at htaken hkept
  omega

-- ---------------------------------------------------------------------------
-- A program of two segments
-- ---------------------------------------------------------------------------

def putHdr (b : Bytes) (hdr : Elf64Hdr) : Bytes :=
  putLE (putLE (putLE (putLE b 0 4 hdr.magic) 24 8 hdr.eEntry.toNat) 32 8 hdr.ePhoff) 56 2
    hdr.ePhnum

def putPhdr (b : Bytes) (a : Nat) (ph : Elf64Phdr) : Bytes :=
  putLE (putLE (putLE (putLE (putLE b a 4 ph.pType) (a + 8) 8 ph.pOffset) (a + 16) 8
    ph.pVaddr.toNat) (a + 32) 8 ph.pFilesz) (a + 40) 8 ph.pMemsz

/-- 16 bytes behind the headers, 1 to 16, in segments at 0x400000 and at `vaddr`. -/
def elfFile (vaddr : Word) : Bytes :=
  putPhdr (putPhdr (putHdr (fun i => UInt8.ofNat (i - 175)) ⟨ELF_MAGIC, 0x400000, 64, 2⟩) 64
    ⟨PT_LOAD, 176, 0x400000, 8, 8⟩) 120 ⟨PT_LOAD, 184, vaddr, 8, 8⟩

def elfDisk (vaddr : Word) : Disk :=
  { overlayDisk with sectors := fun n => if n = 4 then elfFile vaddr else overlayDisk.sectors n }

def elfNode : VfsNode := { overlayNode with size := 192 }

def smallMachine : Machine where
  mem := setupPaging
  pmm := ⟨fun k => if k = 0 then 0x0F else 0, 32, 4, by decide⟩
  gPml4 := 0x1000

def loadSmall (vaddr : Word) : Option (Option ElfImage × Machine × Disk) :=
  elfLoad overlayFp 300 (fun _ => .found elfNode) (fun _ => 0) [] smallMachine (elfDisk vaddr)

theorem loadSmall_accepts (h : (loadSmall vaddr).map (fun r => r.1.isSome) = some true) :
    ∃ img s d, loadSmall vaddr = some (some img, s, d) := by
  obtain ⟨r, hr, he⟩ := Option.map_eq_some_iff.mp h
  obtain ⟨img, himg⟩ := Option.isSome_iff_exists.mp he
  exact ⟨img, r.2.1, r.2.2, by rw [hr, ← himg]⟩

theorem small_accepted : ((loadSmall 0x401000).map fun r => r.1.isSome) = some true := by
  decide +kernel

theorem small_keeps_frames : ∃ img s d t, loadSmall 0x401000 = some (some img, s, d) ∧
    Run progStep (fun _ _ => True) ⟨s, []⟩ ([.taskCreate] ++ [.exit]) t ∧
    ¬ GivesBack smallMachine t.machine := by
  obtain ⟨img, s, d, hload⟩ := loadSmall_accepts small_accepted
  have hrun : Run progStep (fun _ _ => True) ⟨s, []⟩ ([.taskCreate] ++ [.exit])
      (progCreate ⟨s, []⟩) := .cons trivial rfl (.cons trivial rfl .nil)
  exact ⟨img, s, d, _, hload, hrun, program_keeps_frames hload hrun (Nat.succ_pos _)⟩

/-- Even one that does nothing but end leaves fewer free frames. -/
theorem exit_gives_nothing_back :
    ¬ ∀ (fp : FatPrivate) (fuel : Nat) (vfsOpen : CStr → Opened) (junk : Bytes)
        (path : CStr) (s s' : Machine) (d d' : Disk) (img : ElfImage) (acts : List ProgAct)
        (t : ProgState), elfLoad fp fuel vfsOpen junk path s d = some (some img, s', d') →
      Run progStep (fun _ _ => True) ⟨s', []⟩ (acts ++ [.exit]) t → GivesBack s t.machine := by
  intro hall
  obtain ⟨img, s, d, hload⟩ := loadSmall_accepts small_accepted
  have hback := hall _ _ _ _ _ _ _ _ _ _ [] _ hload (.cons trivial rfl .nil)
  have htaken := elfLoad_freeFrames hload
  rw [Option.isSome_some, if_pos rfl] at htaken
  have := hback.1
  dsimp only at this
  omega

end EponaOS.Kernel.Elf
