import EponaOS.Kernel.ElfFrames
import EponaOS.Mm.Unmap

/-!
# Where the words of the first stack go

`elf_load` adds the offset in the page to an address that has it already, so `argc` and `argv` are
never stored where the new program reads them. That it reads zeros is due to the clearing of the
page; the words go to another frame, whoever has it.
-/

namespace EponaOS.Kernel.Elf

open Bytes Fs Mm TableTrie

variable {s s₁ s' : Machine} {d d' : Disk} {m m' : PhysMem} {pml4 p t v : Word} {i : Index}

def argsAt (pml4 : Word) (m : PhysMem) : Word :=
  pagingGetPhysOn m pml4 (stackTop - 16) + ((stackTop - 16) &&& 0xFFF)

/-- What is stored from `s₁` on is where the program has `argc` and `argv`, both read as 0, and
lies in the frames of the stack. -/
structure StackInPlace (img : ElfImage) (s₁ s' : Machine) : Prop where
  stored : ∀ k < 16, translation s'.mem img.pml4 (img.stackTop + BitVec.ofNat 64 k) =
    some (argsAt img.pml4 s₁.mem + BitVec.ofNat 64 k)
  zero : ∀ k < 16, byteAt s'.mem img.pml4 (img.stackTop + BitVec.ofNat 64 k) = 0
  inside : ∀ k < 16, ∃ n < 5, ∃ a,
    translation s₁.mem img.pml4 (stackBase + BitVec.ofNat 64 (n * 4096)) = some a ∧
      frameOf (argsAt img.pml4 s₁.mem + BitVec.ofNat 64 k) = a

theorem writeArgs_eq (pml4 : Word) (m : PhysMem) :
    writeArgs pml4 m = storeBytes m (argsAt pml4 m) (fun _ => 0) 16 := rfl

-- ---------------------------------------------------------------------------
-- Words of zeros
-- ---------------------------------------------------------------------------

theorem word_ext {e e' : Word} (h : ∀ k < 8, byteOf e k = byteOf e' k) : e = e' := by
  apply BitVec.eq_of_getLsbD_eq
  intro i hi
  have hbyte := congrArg (fun b => b.toBitVec.getLsbD (i % 8)) (h (i / 8) (by omega))
  have hmod : i % 8 < 8 := Nat.mod_lt _ (by decide)
  simpa [byteOf, hmod, Nat.div_add_mod] using hbyte

theorem storeBytes_append (m : PhysMem) (p : Word) (src : Bytes) (k n : Nat) :
    storeBytes m p src (k + n) =
      storeBytes (storeBytes m p src k) (p + BitVec.ofNat 64 k) (fun j => src (k + j)) n := by
  induction n with
  | zero => rfl
  | succ n ih =>
    rw [← Nat.add_assoc, storeBytes, ih, storeBytes, BitVec.add_assoc, BitVec.ofNat_add]

theorem sameWord (hin : p.toNat % 8 + k < 8) : (p + BitVec.ofNat 64 k).toNat = p.toNat + k ∧
    frameOf (p + BitVec.ofNat 64 k) = frameOf p ∧ wordOf (p + BitVec.ofNat 64 k) = wordOf p := by
  have hlt := p.isLt
  have hat : (p + BitVec.ofNat 64 k).toNat = p.toNat + k := by
    rw [BitVec.toNat_add, BitVec.toNat_ofNat]
    omega
  refine ⟨hat, frameOf_add (by omega), Fin.ext ?_⟩
  show (p + BitVec.ofNat 64 k).toNat / 8 % 512 = p.toNat / 8 % 512
  rw [hat]
  omega

theorem storeBytes_word_ne (src : Bytes) (hin : p.toNat % 8 + n ≤ 8)
    (hne : ¬ (t = frameOf p ∧ i = wordOf p)) : storeBytes m p src n t i = m t i := by
  induction n with
  | zero => rfl
  | succ n ih =>
    obtain ⟨-, hframe, hword⟩ := sameWord (p := p) (k := n) (by omega)
    rw [storeBytes, storeByte, hframe, hword, setEntry_ne _ _ hne, ih (by omega)]

theorem storeZeros_word (m : PhysMem) (h8 : p.toNat % 8 = 0) :
    storeBytes m p (fun _ => 0) 8 (frameOf p) (wordOf p) = 0 := by
  apply word_ext
  intro k hk
  have hlt := p.isLt
  obtain ⟨hat, hframe, hword⟩ := sameWord (p := p) (k := k) (by omega)
  have hload := loadByte_storeBytes m (fun _ => 0) (p := p) (n := 8) (by omega)
    (p + BitVec.ofNat 64 k)
  have hmod : (p.toNat + k) % 8 = k := by omega
  rw [if_pos (by omega), loadByte, hframe, hword, hat, hmod] at hload
  rw [hload, byteOf]
  simp

theorem storeZeros_cleared (m : PhysMem) (h8 : p.toNat % 8 = 0) (t : Word) (i : Index) :
    storeBytes m p (fun _ => 0) 8 t i = m t i ∨ storeBytes m p (fun _ => 0) 8 t i = 0 := by
  by_cases hat : t = frameOf p ∧ i = wordOf p
  · rw [hat.1, hat.2]
    exact .inr (storeZeros_word m h8)
  · exact .inl (storeBytes_word_ne _ (by omega) hat)

/-- `argc` and `argv` are two words: each entry of a table is kept, or 0. -/
theorem writeArgs_cleared (h8 : (argsAt pml4 m).toNat % 8 = 0)
    (hlt : (argsAt pml4 m).toNat + 8 < 2 ^ 64) (t : Word) (i : Index) :
    writeArgs pml4 m t i = m t i ∨ writeArgs pml4 m t i = 0 := by
  have hnext : (argsAt pml4 m + BitVec.ofNat 64 8).toNat = (argsAt pml4 m).toNat + 8 := by
    rw [BitVec.toNat_add, BitVec.toNat_ofNat]
    omega
  rw [writeArgs_eq, storeBytes_append m _ _ 8 8]
  obtain h2 | h2 := storeZeros_cleared (storeBytes m (argsAt pml4 m) (fun _ => 0) 8)
    (p := argsAt pml4 m + BitVec.ofNat 64 8) (by omega) t i
  · rw [h2]
    exact storeZeros_cleared m h8 t i
  · exact .inr h2

-- ---------------------------------------------------------------------------
-- The address
-- ---------------------------------------------------------------------------

theorem translation_cleared (hset : ∀ t i, m' t i = m t i ∨ m' t i = 0)
    (h : translation m' pml4 v = some p) : translation m pml4 v = some p := by
  obtain ⟨es, hes, rfl⟩ := Option.map_eq_some_iff.mp h
  rw [translation, pageEntries_cleared hset hes]
  rfl

theorem phys_of_translation (h : translation m pml4 v = some p) : pagingGetPhysOn m pml4 v = p := by
  rw [pagingGetPhysOn_eq, ← translation, h, Option.getD_some]

theorem inPage_place (e : Word) {w : Word} (h8 : w.toNat % 8 = 0) (hlt : w.toNat < 2 ^ 52) :
    (addr e ||| w).toNat % 8 = 0 ∧ (addr e ||| w).toNat < 2 ^ 52 := by
  have hal : Aligned (addr e) := addr_idem e
  have hmod := hal.mod
  have h3 : (8 : Nat) = 2 ^ 3 := rfl
  rw [BitVec.toNat_or]
  refine ⟨?_, Nat.or_lt_two_pow hal.lt hlt⟩
  rw [h3, Nat.or_mod_two_pow, ← h3, h8, Nat.or_zero]
  omega

/-- The words are two words of one memory: their address is a multiple of 8 and does not wrap. -/
theorem argsAt_place (pml4 : Word) (m : PhysMem) :
    (argsAt pml4 m).toNat % 8 = 0 ∧ (argsAt pml4 m).toNat + 8 < 2 ^ 64 := by
  have hphys : (pagingGetPhysOn m pml4 (stackTop - 16)).toNat % 8 = 0 ∧
      (pagingGetPhysOn m pml4 (stackTop - 16)).toNat < 2 ^ 52 := by
    rw [pagingGetPhysOn_eq]
    rcases pageEntries m pml4 (pathOf (stackTop - 16)) with _ | es
    · decide
    · simp only [Option.map_some, Option.getD_some]
      unfold physOf
      split
      · exact inPage_place _ (by decide) (by decide)
      · exact inPage_place _ (by decide) (by decide)
      · decide
  have hoff : ((stackTop - 16) &&& 0xFFF : Word).toNat = 0xFF0 := by decide
  rw [argsAt, BitVec.toNat_add, hoff]
  omega

theorem not_stored_at_top (pml4 : Word) (m : PhysMem) :
    translation (writeArgs pml4 m) pml4 (stackTop - 16) ≠ some (argsAt pml4 m) := by
  intro h
  obtain ⟨h8, hlt⟩ := argsAt_place pml4 m
  have hbefore := translation_cleared (writeArgs_cleared h8 hlt) h
  have hoff := congrArg BitVec.toNat (phys_of_translation hbefore)
  have h0 : ((stackTop - 16) &&& 0xFFF : Word).toNat = 0xFF0 := by decide
  rw [argsAt, BitVec.toNat_add, h0] at hoff
  omega

-- ---------------------------------------------------------------------------
-- The loader
-- ---------------------------------------------------------------------------

/-- A call that succeeds: the segments are loaded, five pages are mapped and the words stored. -/
structure Loaded (fp : FatPrivate) (fuel : Nat) (junk : Bytes) (s : Machine) (d' : Disk)
    (img : ElfImage) (s₁ s' : Machine) : Prop where
  stackTop : img.stackTop = Elf.stackTop - 16
  segments : ∃ node phdrs d s₀,
    loadSegments fp fuel node junk img.pml4 phdrs (pagingCloneCurrent s).2 d = some (true, s₀, d') ∧
      mapPages img.pml4 (ELF_USER_STACK_SIZE / 4096) stackBase s₀ = (true, s₁)
  words : s' = { s₁ with mem := writeArgs img.pml4 s₁.mem }

theorem elfBuild_loaded
    (h : elfBuild fp fuel node junk hdr phdrs s d = some (some img, s', d')) :
    ∃ s₁, Loaded fp fuel junk s d' img s₁ s' := by
  rw [elfBuild] at h
  dsimp only at h
  split at h
  · cases h
  split at h
  · cases h
  · cases h
  · rename_i s₀ d₀ hsegs
    rw [mapStack] at h
    rcases hm : mapPages (pagingCloneCurrent s).1 (ELF_USER_STACK_SIZE / 4096) stackBase s₀ with
      ⟨ok, s₁⟩
    rw [hm] at h
    cases ok with
    | false => cases h
    | true =>
      cases h
      exact ⟨s₁, rfl, ⟨node, phdrs, d, s₀, hsegs, hm⟩, rfl⟩

theorem elfLoadFile_loaded (h : elfLoadFile fp fuel node junk s d = some (some img, s', d')) :
    ∃ s₁, Loaded fp fuel junk s d' img s₁ s' := by
  rw [elfLoadFile] at h
  split at h
  · cases h
  dsimp only at h
  split at h
  · cases h
  split at h
  · cases h
  split at h
  · cases h
  · exact elfBuild_loaded h

theorem elfLoad_loaded (h : elfLoad fp fuel vfsOpen junk path s d = some (some img, s', d')) :
    ∃ s₁, Loaded fp fuel junk ((vfsOpen (fullPath path)).grow s) d' img s₁ s' := by
  rw [elfLoad] at h
  split at h
  · cases h
  · exact elfLoadFile_loaded h

theorem Loaded.not_inPlace (hl : Loaded fp fuel junk s d' img s₁ s') : ¬ StackInPlace img s₁ s' := by
  intro hin
  have hfirst := hin.stored 0 (by decide)
  rw [hl.words, hl.stackTop, BitVec.add_zero, BitVec.add_zero] at hfirst
  exact not_stored_at_top _ _ hfirst

/-- The words of the first stack are in place after no call. -/
theorem elfLoad_stack_misplaced
    (h : elfLoad fp fuel vfsOpen junk path s d = some (some img, s', d')) :
    (∃ s₁, Loaded fp fuel junk ((vfsOpen (fullPath path)).grow s) d' img s₁ s') ∧
      ∀ s₁, Loaded fp fuel junk ((vfsOpen (fullPath path)).grow s) d' img s₁ s' →
        ¬ StackInPlace img s₁ s' :=
  ⟨elfLoad_loaded h, fun _ hl => hl.not_inPlace⟩

theorem small_stack_misplaced : ∃ img s d, loadSmall 0x401000 = some (some img, s, d) ∧
    ∃ s₁, Loaded overlayFp 300 (fun _ => 0) smallMachine d img s₁ s ∧ ¬ StackInPlace img s₁ s := by
  obtain ⟨img, s, d, hload⟩ := loadSmall_accepts small_accepted
  obtain ⟨⟨s₁, hl⟩, hnot⟩ := elfLoad_stack_misplaced hload
  exact ⟨img, s, d, hload, s₁, hl, hnot s₁ hl⟩

/-- A program of two segments has its words elsewhere. -/
theorem words_elsewhere : ¬ ∀ (fp : FatPrivate) (fuel : Nat) (vfsOpen : CStr → Opened)
    (junk : Bytes) (path : CStr) (s : Machine) (d : Disk) (img : ElfImage) (s' : Machine)
    (d' : Disk),
    elfLoad fp fuel vfsOpen junk path s d = some (some img, s', d') →
      ∃ s₁, Loaded fp fuel junk ((vfsOpen (fullPath path)).grow s) d' img s₁ s' ∧
        StackInPlace img s₁ s' := by
  intro hall
  obtain ⟨img, s, d, hload⟩ := loadSmall_accepts small_accepted
  obtain ⟨s₁, hl, hin⟩ := hall _ _ _ _ _ _ _ _ _ _ hload
  exact hl.not_inPlace hin

end EponaOS.Kernel.Elf
