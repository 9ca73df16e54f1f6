import EponaOS.Fs.Truncation
import EponaOS.Kernel.ElfPages
import EponaOS.Mm.HeapGrowth

/-!
# The image of a program

The segments of a file laid over each other, and the stack over them, and that `elf_load`
builds just that as long as no chunk of the copying loop crosses a page and every chunk is
read as it is in the file. A byte of a segment is then in its place unless a segment
further down, or the stack, has a page there: every page is mapped afresh, over the one
that was there.
-/

namespace EponaOS.Kernel.Elf

open Bytes Fs Mm TableTrie

variable {fp : FatPrivate} {fuel : Nat} {node : VfsNode} {l : List Nat} {s s' : Machine}
  {d d' : Disk} {pml4 v w : Word} {m : Word → Option UInt8} {ph ph' : Elf64Phdr}
  {phs : List Elf64Phdr} {c src : Bytes}

-- ---------------------------------------------------------------------------
-- The image
-- ---------------------------------------------------------------------------

def Covers (ph : Elf64Phdr) (v : Word) : Prop := ahead (startPage ph) v < 4096 * pageCount ph

def StackCovers (v : Word) : Prop := ahead stackBase v < ELF_USER_STACK_SIZE

/-- Zeros in the pages of the segment, and over them its bytes of the file `c`. -/
def segmentImage (c : Bytes) (m : Word → Option UInt8) (ph : Elf64Phdr) : Word → Option UInt8 :=
  if ph.pType = PT_LOAD then
    overlaid (overlaid m (startPage ph) (4096 * pageCount ph) fun _ => 0) ph.pVaddr ph.pFilesz
      fun i => c (ph.pOffset + i)
  else m

/-- The pages are as many as the bytes take, the file has the bytes, and each chunk lies in
one page and is not misplaced by `fat_read`. -/
structure SegmentOk (fp : FatPrivate) (node : VfsNode) (ph : Elf64Phdr) : Prop where
  fits : ph.pVaddr.toNat + ph.pMemsz + 0xFFF < 2 ^ 64
  covered : ph.pVaddr.toNat + ph.pFilesz ≤ (endPage ph).toNat
  stored : 0 < ph.pFilesz → ph.pOffset + ph.pFilesz ≤ node.size
  chunk : ∀ k, 512 * k < ph.pFilesz →
    (ph.pVaddr.toNat + 512 * k) % 4096 + min (ph.pFilesz - 512 * k) 512 ≤ 4096 ∧
      ¬ Misplaced fp (ph.pOffset + 512 * k) (min (ph.pFilesz - 512 * k) 512)

theorem startPage_add (ph : Elf64Phdr) :
    ph.pVaddr = startPage ph + BitVec.ofNat 64 (ph.pVaddr.toNat % 4096) := by
  have := ph.pVaddr.isLt
  apply BitVec.eq_of_toNat_eq
  rw [BitVec.toNat_add, startPage, frameOf_toNat, BitVec.toNat_ofNat]
  omega

theorem SegmentOk.within (hok : SegmentOk fp node ph) :
    ph.pVaddr.toNat % 4096 + ph.pFilesz ≤ 4096 * pageCount ph ∧
      ph.pVaddr.toNat % 4096 + ph.pMemsz ≤ 4096 * pageCount ph := by
  have hfits := hok.fits
  have hcovered := hok.covered
  have hend : (endPage ph).toNat = (ph.pVaddr.toNat + ph.pMemsz + 0xFFF) / 4096 * 4096 := by
    rw [endPage, frameOf_toNat, BitVec.toNat_add, BitVec.toNat_add, BitVec.toNat_ofNat,
      BitVec.toNat_ofNat]
    omega
  rw [pageCount, startPage, frameOf_toNat]
  omega

/-- What lies ahead of the segment's first byte lies that much further ahead of its first
page. -/
theorem ahead_startPage (h : ph.pVaddr.toNat % 4096 + n ≤ 2 ^ 48) (hv : ahead ph.pVaddr v < n) :
    ahead (startPage ph) v = ph.pVaddr.toNat % 4096 + ahead ph.pVaddr v := by
  have hs := startPage_add ph
  generalize startPage ph = p at hs ⊢
  generalize ph.pVaddr.toNat % 4096 = r at hs h ⊢
  rw [hs] at hv ⊢
  exact ahead_of_add h hv

-- ---------------------------------------------------------------------------
-- One segment
-- ---------------------------------------------------------------------------

theorem overlaid_off (h : n ≤ ahead w v) : overlaid m w n src v = m v := if_neg (Nat.not_lt.mpr h)

theorem Shows.copyChunks (hg : Geometry fp) (hd : NoFaults d) (hn : FileNode fp d.image node l)
    (hok : SegmentOk fp node ph) (hsize : ph.pFilesz ≤ 2 ^ 48)
    (hknown : ∀ i, i < ph.pFilesz → ∃ b, m (ph.pVaddr + BitVec.ofNat 64 i) = some b)
    (hdone : done = min (512 * k) ph.pFilesz) (hrest : rest = ph.pFilesz - done)
    (hrounds : rest ≤ rounds)
    (h : Shows s pml4 (overlaid m ph.pVaddr done fun i => chainByte fp d.image l (ph.pOffset + i)))
    (hcopy : copyChunks fp fuel node pml4 rounds rest (ph.pVaddr + BitVec.ofNat 64 done) tmp
      (ph.pOffset + done) s d = some (s', d')) :
    d' = d ∧
      Shows s' pml4
        (overlaid m ph.pVaddr ph.pFilesz fun i => chainByte fp d.image l (ph.pOffset + i)) := by
  induction rounds generalizing k done rest tmp s with
  | zero =>
    cases hcopy
    rw [show ph.pFilesz = done by omega]
    exact ⟨rfl, h⟩
  | succ rounds ih =>
    rw [Elf.copyChunks] at hcopy
    by_cases hpos : rest > 0
    · rw [if_pos hpos] at hcopy
      have hat : done = 512 * k := by omega
      obtain ⟨hin, hmis⟩ := hok.chunk k (by omega)
      rw [← hat, ← hrest] at hin hmis
      have hstored := hok.stored (by omega)
      split at hcopy
      · cases hcopy
      rename_i nr offset tmp' d₁ hread
      obtain ⟨buf, he, hbuf⟩ := vfsRead_whole hg hd hn (by omega) (by omega) (by omega) hmis hread
      cases he
      generalize hlen : min rest 512 = len at hin hcopy hbuf
      rw [if_neg (by omega), Int.toNat_natCast] at hcopy
      -- the chunk goes to where the page is
      obtain ⟨b, hb⟩ := hknown done (by omega)
      have hw : overlaid m ph.pVaddr done (fun i => chainByte fp d.image l (ph.pOffset + i))
          (ph.pVaddr + BitVec.ofNat 64 done) = some b := by
        rw [overlaid_off (by rw [ahead_add _ (by omega)]), hb]
      have hpage : (ph.pVaddr + BitVec.ofNat 64 done).toNat % 4096 + len ≤ 4096 := by
        rw [BitVec.toNat_add, BitVec.toNat_ofNat]
        omega
      have hstore := h.store hw hpage tmp'
      have hnext : ∀ i, i < len → tmp' i = chainByte fp d.image l (ph.pOffset + (done + i)) := by
        intro i hi
        rw [hbuf i hi, Nat.add_assoc]
      rw [overlaid_congr hnext, overlaid_append m ph.pVaddr (show done + len ≤ 2 ^ 48 by omega)
        fun i => chainByte fp d.image l (ph.pOffset + i)] at hstore
      dsimp only at hcopy
      rw [if_pos (h.phys_ne_zero hw), BitVec.add_assoc, ← BitVec.ofNat_add, Nat.add_assoc] at hcopy
      exact ih (k := k + 1) (by omega) (by omega) (by omega) hstore hcopy
    · rw [if_neg hpos] at hcopy
      cases hcopy
      rw [show ph.pFilesz = done by omega]
      exact ⟨rfl, h⟩

theorem loadSegment_pages (htype : ph.pType = PT_LOAD)
    (hload : loadSegment fp fuel node junk pml4 ph s d = some (true, s', d')) :
    4096 * pageCount ph ≤ 2 ^ 48 := by
  rcases hm : mapPages pml4 (pageCount ph) (startPage ph) s with ⟨ok, s₁⟩
  rw [loadSegment, if_neg (not_not_intro htype)] at hload
  simp only [hm] at hload
  split at hload
  · cases hload
  rename_i htrue
  obtain rfl : ok = true := by simpa using htrue
  have hframes := mapPages_freeFrames hm
  have hle := s.pmm.freeFrames_le
  rw [if_pos rfl] at hframes
  rw [maxFrames] at hle
  omega

theorem Shows.loadSegment (hg : Geometry fp) (hd : NoFaults d) (hn : FileNode fp d.image node l)
    (hok : ph.pType = PT_LOAD → SegmentOk fp node ph) (h : Shows s pml4 m)
    (hload : loadSegment fp fuel node junk pml4 ph s d = some (true, s', d')) :
    d' = d ∧ Shows s' pml4 (segmentImage (chainByte fp d.image l) m ph) := by
  by_cases htype : ph.pType = PT_LOAD
  swap
  · rw [Elf.loadSegment, if_pos htype] at hload
    cases hload
    rw [segmentImage, if_neg htype]
    exact ⟨rfl, h⟩
  have hok := hok htype
  have hpages := loadSegment_pages htype hload
  rw [Elf.loadSegment, if_neg (not_not_intro htype)] at hload
  rcases hm : Elf.mapPages pml4 (pageCount ph) (startPage ph) s with ⟨ok, s₁⟩
  simp only [hm] at hload
  split at hload
  · cases hload
  rename_i htrue
  obtain rfl : ok = true := by simpa using htrue
  obtain ⟨hfile, hmem⟩ := hok.within
  obtain ⟨⟨s₂, d₂⟩, hcopy, he⟩ := Option.map_eq_some_iff.mp hload
  cases he
  have h₁ := h.mapPages (show (startPage ph).toNat % 4096 = 0 by
    rw [startPage, frameOf_toNat]
    omega) hpages hm
  have hzero : ∀ v n, ph.pVaddr.toNat % 4096 + n ≤ 4096 * pageCount ph → ahead ph.pVaddr v < n →
      overlaid m (startPage ph) (4096 * pageCount ph) (fun _ => 0) v = some 0 := by
    intro v n hle hv
    have := ahead_startPage (by omega) hv
    rw [overlaid, if_pos (by omega)]
  rw [← BitVec.add_zero ph.pVaddr] at hcopy
  obtain ⟨rfl, h₂⟩ := Shows.copyChunks hg hd hn hok (k := 0) (by omega)
    (fun i hi => ⟨0, hzero _ _ hfile (by rwa [ahead_add _ (by omega)])⟩) (Nat.zero_min _).symm rfl
    (Nat.le_refl _) h₁ hcopy
  rw [segmentImage, if_pos htype]
  refine ⟨rfl, h₂.zeroTail (by omega) fun v hv => ?_⟩
  -- behind the bytes of the file the pages still hold zeros
  have hlt := (ahead_add_lt (show ph.pFilesz + (ph.pMemsz - ph.pFilesz) ≤ 2 ^ 48 by omega)).mp hv
  rw [overlaid_off hlt.1]
  exact hzero v _ hmem (by omega)

-- ---------------------------------------------------------------------------
-- All segments
-- ---------------------------------------------------------------------------

theorem Shows.loadSegments (hg : Geometry fp) (hd : NoFaults d) (hn : FileNode fp d.image node l)
    (hok : ∀ ph ∈ phs, ph.pType = PT_LOAD → SegmentOk fp node ph) (h : Shows s pml4 m)
    (hload : loadSegments fp fuel node junk pml4 phs s d = some (true, s', d')) :
    d' = d ∧ Shows s' pml4 (phs.foldl (segmentImage (chainByte fp d.image l)) m) := by
  induction phs generalizing s m with
  | nil =>
    cases hload
    exact ⟨rfl, h⟩
  | cons ph phs ih =>
    rw [Elf.loadSegments] at hload
    split at hload
    · cases hload
    · cases hload
    · rename_i hseg
      obtain ⟨rfl, h₁⟩ := h.loadSegment hg hd hn (hok ph List.mem_cons_self) hseg
      exact ih (fun ph hph => hok ph (List.mem_cons_of_mem _ hph)) h₁ hload

/-- No page of a segment further down, and none of the stack, has a byte of the segment. -/
structure Apart (phs : List Elf64Phdr) : Prop where
  segments : phs.Pairwise fun ph ph' => ph.pType = PT_LOAD → ph'.pType = PT_LOAD →
    ∀ j, j < max ph.pFilesz ph.pMemsz → ¬ Covers ph' (ph.pVaddr + BitVec.ofNat 64 j)
  stack : ∀ ph ∈ phs, ph.pType = PT_LOAD →
    ∀ j, j < max ph.pFilesz ph.pMemsz → ¬ StackCovers (ph.pVaddr + BitVec.ofNat 64 j)

instance : Decidable (Covers ph v) := inferInstanceAs (Decidable (_ < _))
instance : Decidable (StackCovers v) := inferInstanceAs (Decidable (_ < _))

end EponaOS.Kernel.Elf
