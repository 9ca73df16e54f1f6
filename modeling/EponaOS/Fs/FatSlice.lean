import EponaOS.Fs.Vfs

/-!
# A read as a slice of the file

`fat_read` should give the bytes of the chain from the offset on, in one call as in several
that follow each other. The number of sectors it reads of a cluster is computed from the
bytes wanted alone; when their offset makes them reach into one sector more, the rest is
taken from the start of the following cluster.
-/

namespace EponaOS.Fs

open Bytes

/-- The `size` bytes of the chain's data from `offset` on. -/
def slice (fp : FatPrivate) (m : Bytes) (l : List Nat) (offset size : Nat) : List UInt8 :=
  (List.range size).map fun k => chainByte fp m l (offset + k)

/-- The call returns `size`; the buffer then has the slice, and is otherwise as it was. -/
def ReadsSlice (fp : FatPrivate) (node : VfsNode) (l : List Nat) (offset size : Nat) (d : Disk) :
    Prop :=
  ∀ out, ∃ out', Returns (fun fuel => fatRead fp fuel node offset size out d)
      ((size : Int), out', d) ∧
    ∀ k, out' k = if k < size then chainByte fp d.image l (offset + k) else out k

/-- The following cluster is there, and begins with the very bytes that are missed. -/
def TailSame (fp : FatPrivate) (m : Bytes) (l : List Nat) (offset size : Nat) : Prop :=
  offset / fp.bytesPerCluster + 1 < l.length ∧
    ∀ k, 512 * ((size + 511) / 512) - offset % 512 ≤ k → k < size →
      chainByte fp m l ((offset / fp.bytesPerCluster + 1) * fp.bytesPerCluster +
        (k - (512 * ((size + 511) / 512) - offset % 512))) = chainByte fp m l (offset + k)

/-- When a read gives the slice: its count fits an `int`, and no tail of it is taken from
the wrong place, or none that shows. -/
def InPlace (fp : FatPrivate) (m : Bytes) (l : List Nat) (offset size : Nat) : Prop :=
  size < 2 ^ 31 ∧ (Misplaced fp offset size → TailSame fp m l offset size)

/-- Calls that follow each other, each with the number of bytes it asked for: what they
return, put together. -/
inductive ReadParts (fp : FatPrivate) (node : VfsNode) (d : Disk) :
    Nat → List Nat → List UInt8 → Prop
  | nil : ReadParts fp node d offset [] []
  | cons : Returns (fun fuel => fatRead fp fuel node offset n out d) ((n : Int), out', d) →
      ReadParts fp node d (offset + n) ns bytes →
      ReadParts fp node d offset (n :: ns) ((List.range n).map out' ++ bytes)

def parts : Nat → List Nat → List (Nat × Nat)
  | _, [] => []
  | offset, n :: ns => (offset, n) :: parts (offset + n) ns

variable {fp : FatPrivate} {d : Disk} {m : Bytes} {node : VfsNode} {l : List Nat}

theorem slice_add (fp : FatPrivate) (m : Bytes) (l : List Nat) (offset n k : Nat) :
    slice fp m l offset (n + k) = slice fp m l offset n ++ slice fp m l (offset + n) k := by
  have htail : slice fp m l (offset + n) k =
      ((List.range k).map (n + ·)).map fun i => chainByte fp m l (offset + i) := by
    rw [slice, List.map_map]
    exact List.map_congr_left fun i _ => congrArg (chainByte fp m l) (Nat.add_assoc offset n i)
  rw [htail, slice, slice, List.range_add, List.map_append]

-- ---------------------------------------------------------------------------
-- One call
-- ---------------------------------------------------------------------------

theorem readEnd_misplaced (h : Misplaced fp offset size)
    (hnext : offset / fp.bytesPerCluster + 1 < clusters) :
    readEnd fp.bytesPerCluster clusters (offset / fp.bytesPerCluster)
      (firstRun fp.bytesPerCluster (offset % fp.bytesPerCluster) size) 0 size = size := by
  have hrest := Nat.le_mul_of_pos_left fp.bytesPerCluster
    (show 0 < clusters - (offset / fp.bytesPerCluster + 1) by omega)
  obtain ⟨-, hroom, -⟩ := h
  rw [readEnd]
  omega

theorem fatRead_result (hg : Geometry fp) (hd : NoFaults d)
    (hl : FatChain fp d.image node.cluster l) (hsize : 0 < size)
    (hin : offset + size ≤ l.length * fp.bytesPerCluster) (out : Bytes) :
    ∃ out', Returns (fun fuel => fatRead fp fuel node offset size out d)
        (asInt (readEnd fp.bytesPerCluster l.length (offset / fp.bytesPerCluster)
          (firstRun fp.bytesPerCluster (offset % fp.bytesPerCluster) size) 0 size), out', d) ∧
      (∀ k, size ≤ k → out' k = out k) ∧
      ∀ k, k < readEnd fp.bytesPerCluster l.length (offset / fp.bytesPerCluster)
          (firstRun fp.bytesPerCluster (offset % fp.bytesPerCluster) size) 0 size →
        out' k = chainByte fp d.image l (readPos fp.bytesPerCluster (offset / fp.bytesPerCluster)
          (offset % fp.bytesPerCluster)
          (firstRun fp.bytesPerCluster (offset % fp.bytesPerCluster) size) 0 k) := by
  have hoff : offset / fp.bytesPerCluster < l.length :=
    Nat.div_lt_of_lt_mul (by rw [Nat.mul_comm]; omega)
  have hne : l ≠ [] := by
    rintro rfl
    exact absurd hoff (Nat.not_lt_zero _)
  obtain ⟨out', hread, hframe, hbytes⟩ := fatRead_spec hg hd hl hne
    (Nat.lt_succ_self (offset + size)) hoff rfl out
  exact ⟨out', FuelMono.returns (fatRead_mono fp node offset size out d) hread, hframe, hbytes⟩

theorem reads_of_inPlace (hg : Geometry fp) (hd : NoFaults d)
    (hl : FatChain fp d.image node.cluster l) (hsize : 0 < size)
    (hin : offset + size ≤ l.length * fp.bytesPerCluster)
    (h : InPlace fp d.image l offset size) : ReadsSlice fp node l offset size d := by
  intro out
  obtain ⟨out', hret, hframe, hbytes⟩ := fatRead_result hg hd hl hsize hin out
  have hend : readEnd fp.bytesPerCluster l.length (offset / fp.bytesPerCluster)
      (firstRun fp.bytesPerCluster (offset % fp.bytesPerCluster) size) 0 size = size := by
    by_cases hmis : Misplaced fp offset size
    · exact readEnd_misplaced hmis (h.2 hmis).1
    · exact readEnd_whole hg hsize hmis hin
  rw [hend] at hret hbytes
  rw [asInt_of_lt h.1] at hret
  refine ⟨out', hret, fun k => ?_⟩
  by_cases hk : k < size
  · rw [if_pos hk, hbytes k hk]
    by_cases hmis : Misplaced fp offset size
    · -- up to the run the bytes are those wanted, behind it they are the same
      have htail := (h.2 hmis).2 k
      have hdm := Nat.div_add_mod offset fp.bytesPerCluster
      rw [Nat.mul_comm] at hdm
      rw [firstRun_of_misplaced hg hmis, readPos]
      split
      · congr 1
        omega
      · rw [← htail (by omega) hk]
        congr 1
    · rw [readPos_eq hg hsize hmis hk]
  · rw [if_neg hk, hframe k (by omega)]

theorem inPlace_of_read (hg : Geometry fp) (hd : NoFaults d)
    (hl : FatChain fp d.image node.cluster l) (hsize : 0 < size)
    (hin : offset + size ≤ l.length * fp.bytesPerCluster)
    (h : Returns (fun fuel => fatRead fp fuel node offset size out d) ((size : Int), out', d))
    (hslice : ∀ k, k < size → out' k = chainByte fp d.image l (offset + k)) :
    InPlace fp d.image l offset size := by
  obtain ⟨out'', hret, -, hbytes⟩ := fatRead_result hg hd hl hsize hin out
  have heq := h.unique hret
  simp only [Prod.mk.injEq] at heq
  obtain ⟨hcount, rfl, -⟩ := heq
  have hend : readEnd fp.bytesPerCluster l.length (offset / fp.bytesPerCluster)
      (firstRun fp.bytesPerCluster (offset % fp.bytesPerCluster) size) 0 size = size := by
    have h1 := readEnd_le fp.bytesPerCluster l.length (offset / fp.bytesPerCluster)
      (firstRun fp.bytesPerCluster (offset % fp.bytesPerCluster) size) 0 size
    have h2 := asInt_le (readEnd fp.bytesPerCluster l.length (offset / fp.bytesPerCluster)
      (firstRun fp.bytesPerCluster (offset % fp.bytesPerCluster) size) 0 size)
    omega
  have h31 := asInt_lt size
  rw [hend] at hcount hbytes
  rw [← hcount] at h31
  refine ⟨by omega, fun hmis => ?_⟩
  have hrun := firstRun_of_misplaced hg hmis
  obtain ⟨-, -, hshort⟩ := hmis
  rw [hrun] at hend hbytes
  refine ⟨?_, fun k hk hks => ?_⟩
  · by_contra hlast
    rw [readEnd, show l.length - (offset / fp.bytesPerCluster + 1) = 0 by omega, Nat.zero_mul]
      at hend
    omega
  · have hb := hbytes k hks
    rw [hslice k hks, readPos, if_neg (by omega)] at hb
    rw [hb]
    congr 1

-- ---------------------------------------------------------------------------
-- Calls that follow each other
-- ---------------------------------------------------------------------------

theorem readParts_iff (hg : Geometry fp) (hd : NoFaults d)
    (hl : FatChain fp d.image node.cluster l) (ns : List Nat) (hpos : ∀ n ∈ ns, 0 < n)
    (hin : offset + ns.sum ≤ l.length * fp.bytesPerCluster) :
    ReadParts fp node d offset ns (slice fp d.image l offset ns.sum) ↔
      ∀ p ∈ parts offset ns, InPlace fp d.image l p.1 p.2 := by
  induction ns generalizing offset with
  | nil =>
    refine ⟨fun _ p hp => ?_, fun _ => .nil⟩
    cases hp
  | cons n ns ih =>
    have hn : 0 < n := hpos n List.mem_cons_self
    rw [List.sum_cons] at hin
    have hrest : offset + n + ns.sum ≤ l.length * fp.bytesPerCluster := by omega
    have ih := ih (fun x hx => hpos x (List.mem_cons_of_mem n hx)) hrest
    rw [List.sum_cons, slice_add, parts, List.forall_mem_cons, ← ih]
    constructor
    · intro h
      generalize hs : slice fp d.image l offset n ++ slice fp d.image l (offset + n) ns.sum = bytes
        at h
      cases h with
      | @cons _ _ _ out' _ bytes hcall hrest =>
        have hlen : (slice fp d.image l offset n).length = ((List.range n).map out').length := by
          rw [slice, List.length_map, List.length_map]
        obtain ⟨hhead, rfl⟩ := List.append_inj hs hlen
        refine ⟨inPlace_of_read hg hd hl hn (by omega) hcall fun k hk => ?_, hrest⟩
        exact ((List.map_inj_left.mp hhead) k (List.mem_range.mpr hk)).symm
    · rintro ⟨hfirst, hrest⟩
      obtain ⟨out', hcall, hbytes⟩ :=
        reads_of_inPlace hg hd hl hn (show offset + n ≤ _ by omega) hfirst fun _ => 0
      have hhead : slice fp d.image l offset n = (List.range n).map out' := by
        apply List.map_congr_left
        intro k hk
        rw [hbytes k, if_pos (List.mem_range.mp hk)]
      rw [hhead]
      exact .cons hcall hrest

/-- Exactly when a read gives the slice of the file it is asked for, and when the calls of a
split do. -/
theorem fatRead_slice_iff (hg : Geometry fp) (hd : NoFaults d)
    (hl : FatChain fp d.image node.cluster l) (hsize : 0 < size)
    (hin : offset + size ≤ l.length * fp.bytesPerCluster) :
    (ReadsSlice fp node l offset size d ↔ InPlace fp d.image l offset size) ∧
    ∀ ns, (∀ n ∈ ns, 0 < n) → ns.sum = size →
      (ReadParts fp node d offset ns (slice fp d.image l offset size) ↔
        ∀ p ∈ parts offset ns, InPlace fp d.image l p.1 p.2) := by
  refine ⟨⟨fun h => ?_, reads_of_inPlace hg hd hl hsize hin⟩, fun ns hpos hsum => ?_⟩
  · obtain ⟨out', hret, hbytes⟩ := h fun _ => 0
    refine inPlace_of_read hg hd hl hsize hin hret fun k hk => ?_
    rw [hbytes k, if_pos hk]
  · subst hsum
    exact readParts_iff hg hd hl ns hpos hin

/-- 1000 bytes at offset 500 of the file of 2000 bytes, in one call. -/
theorem slice_across_clusters : ReadsSlice overlayFp overlayNode [3, 4] 500 1000 overlayDisk :=
  (fatRead_slice_iff overlay_geometry (show NoFaults overlayDisk from rfl) overlay_fileNode.chain
    (by decide) (by decide)).1.mpr ⟨by decide, fun h => absurd h.2.1 (by decide)⟩

def stripedDisk : Disk where
  sectors n := if n = 5 then fun _ => 1 else overlayDisk.sectors n
  faults := []

theorem striped_chain : FatChain overlayFp stripedDisk.image overlayNode.cluster [3, 4] := by
  refine ⟨.link (by decide) (.link (by decide +kernel) (.nil (by decide +kernel))), fun x hx => ?_⟩
  exact overlay_fileNode.chain.2 x hx

/-- 500 bytes at offset 100 reach into the second sector, of which none is read. -/
theorem tail_of_next_cluster : Geometry overlayFp ∧ NoFaults stripedDisk ∧
    FatChain overlayFp stripedDisk.image overlayNode.cluster [3, 4] ∧
    100 + 500 ≤ [3, 4].length * overlayFp.bytesPerCluster ∧
    ¬ ReadsSlice overlayFp overlayNode [3, 4] 100 500 stripedDisk := by
  refine ⟨overlay_geometry, rfl, striped_chain, by decide, fun h => ?_⟩
  obtain ⟨out', hret, hbytes⟩ := h fun _ => 0
  have hplace : InPlace overlayFp stripedDisk.image [3, 4] 100 500 := by
    refine inPlace_of_read overlay_geometry rfl striped_chain (by decide) (by decide) hret
      fun k hk => ?_
    rw [hbytes k, if_pos hk]
  have htail := (hplace.2 ⟨by decide, by decide, by decide⟩).2 412 (by decide) (by decide)
  exact absurd htail (by decide +kernel)

end EponaOS.Fs
