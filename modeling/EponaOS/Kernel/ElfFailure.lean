import EponaOS.Kernel.ElfImage

/-!
# What a failed load leaves behind

Up to the check of the program headers `elf_load` closes the file and has taken nothing but what
the heap has grown by to open it. From the clone on nothing that was taken is given back, and where
there is no frame for the clone the file stays open.
-/

namespace EponaOS.Kernel.Elf

open Bytes Fs Mm

variable {fp : FatPrivate} {fuel : Nat} {vfsOpen : CStr → Opened} {junk : Bytes} {path : CStr}
  {s s' : Machine} {d d' : Disk}

-- ---------------------------------------------------------------------------
-- The handle
-- ---------------------------------------------------------------------------

/-- How often `elfBuild` calls `vfs_close`: not before its first `return -1`. -/
def buildCloses (fp : FatPrivate) (fuel : Nat) (node : VfsNode) (junk : Bytes)
    (phdrs : List Elf64Phdr) (s : Machine) (d : Disk) : Option Nat :=
  let c := pagingCloneCurrent s
  if c.1 = 0 then some 0
  else (loadSegments fp fuel node junk c.1 phdrs c.2 d).map fun _ => 1

/-- How often `elfLoadFile` calls `vfs_close`. -/
def fileCloses (fp : FatPrivate) (fuel : Nat) (node : VfsNode) (junk : Bytes) (s : Machine)
    (d : Disk) : Option Nat :=
  match vfsRead fp fuel node 0 sizeofHdr junk d with
  | none => none
  | some (n, _, buf, d) =>
    let hdr := readHdr buf
    if n < sizeofHdr ∨ hdr.magic ≠ ELF_MAGIC ∨ hdr.ePhnum > 16 then some 1
    else
      match vfsRead fp fuel node hdr.ePhoff (hdr.ePhnum * sizeofPhdr) junk d with
      | none => none
      | some (n, _, buf, d) =>
        if n < hdr.ePhnum * sizeofPhdr then some 1
        else buildCloses fp fuel node junk
          ((List.range hdr.ePhnum).map fun i => readPhdr buf (i * sizeofPhdr)) s d

/-- How often `elfLoad` calls `vfs_close`. -/
def elfCloses (fp : FatPrivate) (fuel : Nat) (vfsOpen : CStr → Opened) (junk : Bytes)
    (path : CStr) (s : Machine) (d : Disk) : Option Nat :=
  let o := vfsOpen (fullPath path)
  match o.node with
  | none => some 0
  | some node => fileCloses fp fuel node junk (o.grow s) d

-- ---------------------------------------------------------------------------
-- No trace
-- ---------------------------------------------------------------------------

/-- As many free frames as before, the file closed once if it was opened, and in the caller's
address space, which is below `root`, every address the same byte as before. -/
structure NoTrace (root : Word) (opened : Bool) (closes : Option Nat) (s s' : Machine) : Prop where
  frames : s'.pmm.freeFrames = s.pmm.freeFrames
  closed : closes = some opened.toNat
  bytes : ∀ v, translation s'.mem root v = translation s.mem root v ∧
    ∀ p, translation s.mem root v = some p → loadByte s'.mem p = loadByte s.mem p

def HeadersFail (fp : FatPrivate) (fuel : Nat) (node : VfsNode) (junk : Bytes) (d : Disk) : Prop :=
  match vfsRead fp fuel node 0 sizeofHdr junk d with
  | none => True
  | some (n, _, buf, d) =>
    let hdr := readHdr buf
    (n < sizeofHdr ∨ hdr.magic ≠ ELF_MAGIC ∨ hdr.ePhnum > 16) ∨
      match vfsRead fp fuel node hdr.ePhoff (hdr.ePhnum * sizeofPhdr) junk d with
      | none => True
      | some (n, _, _, _) => n < hdr.ePhnum * sizeofPhdr

/-- The file is not found, or its headers are too short or not accepted. -/
def FailsEarly (fp : FatPrivate) (fuel : Nat) (vfsOpen : CStr → Opened) (junk : Bytes)
    (path : CStr) (d : Disk) : Prop :=
  match (vfsOpen (fullPath path)).node with
  | none => True
  | some node => HeadersFail fp fuel node junk d

/-- No page is asked for while the file is opened, or there is no frame for one. -/
def Opened.TakesNone (o : Opened) (s : Machine) : Prop :=
  (∀ g ∈ o.growths, g.2 = 0) ∨ s.pmm.freeFrames = 0

-- ---------------------------------------------------------------------------
-- The open
-- ---------------------------------------------------------------------------

theorem growPages_none (h : pages = 0 ∨ s.pmm.freeFrames = 0) (virt : Word) :
    (growPages s virt pages).2 = s := by
  cases pages with
  | zero => rfl
  | succ pages =>
    rw [growPages, pmmAlloc_full (h.resolve_left (Nat.succ_ne_zero pages))]
    rfl

theorem growPages_takes (hpages : pages ≠ 0) (h : s.pmm.freeFrames ≠ 0) (virt : Word) :
    (growPages s virt pages).2.pmm.freeFrames < s.pmm.freeFrames := by
  obtain ⟨pages, rfl⟩ := Nat.exists_eq_succ_of_ne_zero hpages
  have htaken := pmmAlloc_takes h
  rw [growPages]
  rcases ha : pmmAlloc s.pmm with ⟨a, pmm⟩
  rw [ha] at htaken
  dsimp only
  split
  · exact htaken
  · rcases hm : pagingMapPage { s with pmm } virt a PAGE_RW with ⟨ret, s₁⟩
    have hmap : s₁.pmm.freeFrames ≤ pmm.freeFrames := pagingMapPageOn_freeFrames hm
    exact Nat.lt_of_le_of_lt (growPages_freeFrames s₁ (virt + 4096) pages)
      (Nat.lt_of_le_of_lt hmap htaken)

theorem Opened.grow_takes (o : Opened) (s : Machine) :
    (o.TakesNone s → o.grow s = s) ∧
      (¬ o.TakesNone s → (o.grow s).pmm.freeFrames < s.pmm.freeFrames) := by
  obtain ⟨node, growths⟩ := o
  simp only [TakesNone, grow]
  induction growths generalizing s with
  | nil => exact ⟨fun _ => rfl, fun h => absurd (.inl (List.forall_mem_nil _)) h⟩
  | cons g growths ih =>
    rw [List.foldl_cons, List.forall_mem_cons]
    by_cases hfirst : g.2 = 0 ∨ s.pmm.freeFrames = 0
    · rw [growPages_none hfirst]
      obtain ⟨hsame, hless⟩ := ih s
      refine ⟨fun h => hsame (h.imp_left And.right), fun h => hless fun hnone => h ?_⟩
      exact hnone.elim (fun hall => hfirst.imp_left fun h0 => ⟨h0, hall⟩) .inr
    · rw [not_or] at hfirst
      refine ⟨fun h => absurd h (not_or.mpr ⟨fun hall => hfirst.1 hall.1, hfirst.2⟩), fun _ => ?_⟩
      refine Nat.lt_of_le_of_lt ?_ (growPages_takes hfirst.1 hfirst.2 g.1)
      exact Opened.grow_freeFrames ⟨node, growths⟩ (growPages s g.1 g.2).2

-- ---------------------------------------------------------------------------
-- The file
-- ---------------------------------------------------------------------------

theorem elfBuild_leaves (h : elfBuild fp fuel node junk hdr phdrs s d = some (none, s', d')) :
    buildCloses fp fuel node junk phdrs s d = some 0 ∨ s'.pmm.freeFrames < s.pmm.freeFrames := by
  rcases hc : pagingCloneCurrent s with ⟨clone, s₁⟩
  have hclone := pagingCloneCurrent_freeFrames hc
  simp only [buildCloses, hc]
  simp only [elfBuild, hc] at h
  by_cases h0 : clone = 0
  · exact .inl (if_pos h0)
  rw [if_neg h0] at h hclone
  have hlost : s'.pmm.freeFrames ≤ s₁.pmm.freeFrames := by
    split at h
    · cases h
    · rename_i hs
      cases h
      exact loadSegments_freeFrames hs
    · rename_i s₂ d₂ hs
      rcases hm : mapStack s₂ clone with ⟨ok, s₃⟩
      have hstack := Nat.le_of_add_right_le (mapStack_freeFrames hm)
      rw [hm] at h
      cases ok with
      | false =>
        cases h
        exact Nat.le_trans hstack (loadSegments_freeFrames hs)
      | true => cases h
  exact .inr (by omega)

/-- A file that is opened and not loaded: the machine is as it was and the file closed once, or a
frame is lost or the file not closed. -/
theorem elfLoadFile_fails (h : elfLoadFile fp fuel node junk s d = some (none, s', d')) :
    (HeadersFail fp fuel node junk d ∧ s' = s ∧ fileCloses fp fuel node junk s d = some 1) ∨
      (¬ HeadersFail fp fuel node junk d ∧
        (fileCloses fp fuel node junk s d = some 0 ∨ s'.pmm.freeFrames < s.pmm.freeFrames)) := by
  rw [elfLoadFile] at h
  rw [fileCloses, HeadersFail]
  generalize vfsRead fp fuel node 0 sizeofHdr junk d = hdr at h ⊢
  rcases hdr with _ | ⟨n, offset, buf, d₁⟩
  · cases h
  dsimp only at h ⊢
  by_cases hbad : n < sizeofHdr ∨ (readHdr buf).magic ≠ ELF_MAGIC ∨ (readHdr buf).ePhnum > 16
  · rw [if_pos hbad] at h ⊢
    cases h
    exact .inl ⟨.inl hbad, rfl, rfl⟩
  rw [if_neg hbad] at h ⊢
  generalize vfsRead fp fuel node (readHdr buf).ePhoff ((readHdr buf).ePhnum * sizeofPhdr) junk d₁ =
    phdrs at h ⊢
  rcases phdrs with _ | ⟨n', offset', buf', d₂⟩
  · cases h
  dsimp only at h ⊢
  by_cases hshort : n' < (readHdr buf).ePhnum * sizeofPhdr
  · rw [if_pos hshort] at h ⊢
    cases h
    exact .inl ⟨.inr hshort, rfl, rfl⟩
  · rw [if_neg hshort] at h ⊢
    exact .inr ⟨fun hearly => hearly.elim hbad hshort, elfBuild_leaves h⟩

/-- A call that fails leaves no trace just when opening takes no frame and it fails before it clones
the page tables. -/
theorem failed_load_iff (root : Word)
    (h : elfLoad fp fuel vfsOpen junk path s d = some (none, s', d')) :
    NoTrace root (vfsOpen (fullPath path)).node.isSome (elfCloses fp fuel vfsOpen junk path s d)
        s s' ↔
      (vfsOpen (fullPath path)).TakesNone s ∧ FailsEarly fp fuel vfsOpen junk path d := by
  have hsame : ∀ opened closes, s' = s → closes = some opened.toNat →
      NoTrace root opened closes s s' := by
    rintro opened closes rfl hc
    exact ⟨rfl, hc, fun v => ⟨rfl, fun _ _ => rfl⟩⟩
  rw [elfLoad] at h
  rw [elfCloses, FailsEarly]
  generalize vfsOpen (fullPath path) = o at h ⊢
  obtain ⟨hnone, htakes⟩ := o.grow_takes s
  rcases hnode : o.node with _ | node
  · rw [hnode] at h
    cases h
    by_cases ho : o.TakesNone s
    · exact iff_of_true (hsame _ _ (hnone ho) rfl) ⟨ho, trivial⟩
    · refine iff_of_false (fun ht => ?_) fun hand => ho hand.1
      exact absurd ht.frames (Nat.ne_of_lt (htakes ho))
  rw [hnode] at h
  dsimp only at h ⊢
  have hle := o.grow_freeFrames s
  by_cases ho : o.TakesNone s
  · rw [hnone ho] at h ⊢
    obtain ⟨hearly, rfl, hclosed⟩ | ⟨hlate, hleft⟩ := elfLoadFile_fails h
    · exact iff_of_true (hsame _ _ rfl hclosed) ⟨ho, hearly⟩
    · refine iff_of_false (fun ht => ?_) fun hand => hlate hand.2
      obtain hopen | hless := hleft
      · cases hopen.symm.trans ht.closed
      · exact absurd ht.frames (Nat.ne_of_lt hless)
  · -- the frame that opening took is not given back
    refine iff_of_false (fun ht => ?_) fun hand => ho hand.1
    have hless := htakes ho
    have hkept := Nat.le_of_add_right_le (elfLoadFile_freeFrames h)
    have hframes := ht.frames
    omega

-- ---------------------------------------------------------------------------
-- Two failures
-- ---------------------------------------------------------------------------

/-- The file holds zeros only. -/
def zeroDisk : Disk := { elfDisk 0x401000 with sectors := fun _ _ => 0 }

theorem zeros_fail_early :
    FailsEarly overlayFp 300 (fun _ => .found elfNode) (fun _ => 0) [] zeroDisk := by
  have hmagic : (vfsRead overlayFp 300 elfNode 0 sizeofHdr (fun _ => 0) zeroDisk).map
      (fun r => (readHdr r.2.2.1).magic) = some 0 := by decide +kernel
  unfold FailsEarly Opened.found HeadersFail
  dsimp only
  generalize vfsRead overlayFp 300 elfNode 0 sizeofHdr (fun _ => 0) zeroDisk = hdr at hmagic ⊢
  rcases hdr with _ | ⟨n, offset, buf, d⟩
  · cases hmagic
  · refine .inl (.inr (.inl ?_))
    rw [show (readHdr buf).magic = 0 from Option.some.inj hmagic]
    decide

/-- It has no magic number, and nothing is left of the attempt. -/
theorem no_magic_no_trace : ∃ s' d', elfLoad overlayFp 300 (fun _ => .found elfNode) (fun _ => 0) []
      smallMachine zeroDisk = some (none, s', d') ∧
    NoTrace smallMachine.gPml4 true
      (elfCloses overlayFp 300 (fun _ => .found elfNode) (fun _ => 0) [] smallMachine zeroDisk)
      smallMachine s' := by
  have hfails : (elfLoad overlayFp 300 (fun _ => .found elfNode) (fun _ => 0) [] smallMachine
      zeroDisk).map (fun r => r.1.isNone) = some true := by decide +kernel
  obtain ⟨⟨r, s', d'⟩, h, hnone⟩ := Option.map_eq_some_iff.mp hfails
  obtain rfl : r = none := by simpa using hnone
  exact ⟨s', d', h, (failed_load_iff _ h).mpr ⟨.inl (List.forall_mem_nil _), zeros_fail_early⟩⟩

/-- Six frames, of which the first four are in use: enough for the clone and one page. -/
def fewFrames : Machine :=
  { smallMachine with pmm := ⟨fun k => if k = 0 then 0x0F else 0, 6, 4, by decide⟩ }

theorem frames_stay_taken : ¬ ∀ (fp : FatPrivate) (fuel : Nat) (vfsOpen : CStr → Opened)
    (junk : Bytes) (path : CStr) (s : Machine) (d : Disk) (root : Word) (s' : Machine) (d' : Disk),
    elfLoad fp fuel vfsOpen junk path s d = some (none, s', d') →
      NoTrace root (vfsOpen (fullPath path)).node.isSome
        (elfCloses fp fuel vfsOpen junk path s d) s s' := by
  intro hall
  have hfails : (elfLoad overlayFp 300 (fun _ => .found elfNode) (fun _ => 0) [] fewFrames
      (elfDisk 0x401000)).map (fun r => (r.1.isNone, r.2.1.pmm.freeFrames)) = some (true, 0) := by
    decide +kernel
  obtain ⟨⟨r, s', d'⟩, h, hr⟩ := Option.map_eq_some_iff.mp hfails
  obtain ⟨hnone, hfree⟩ := Prod.mk.inj hr
  obtain rfl : r = none := by simpa using hnone
  have hkept := (hall _ _ _ _ _ _ _ fewFrames.gPml4 _ _ h).frames
  have hbefore : fewFrames.pmm.freeFrames = 2 := by decide +kernel
  dsimp only at hfree
  omega

end EponaOS.Kernel.Elf
