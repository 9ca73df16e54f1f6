import EponaOS.Fs.FatFree
import EponaOS.Fs.Truncation

/-!
# Reads at the end of a file

`vfs_read` takes `size - offset` for what is left of a file. This wraps once the offset lies
behind the end, where another handle that truncates the file or a caller that sets the offset
can leave it. And at the end `fat_read` returns -1 instead of 0 when it looks for a cluster
behind the last one.
-/

namespace EponaOS.Fs

open Bytes

variable {fp : FatPrivate} {d d' : Disk} {node node' : VfsNode} {s s' s₀ : FileState} {a : FileAct}
  {c skip offset size fuel : Nat}

/-- What a read should do that starts at `offset`: ask for no more than is left, return 0 at the
end or behind it, and not lead behind the end. -/
structure RespectsEnd (node : VfsNode) (offset size : Nat) (ret : Int) (offset' : Nat) : Prop where
  asks : min size (remaining node offset) ≤ node.size - offset
  zero : node.size ≤ offset → ret = 0
  moves : offset' ≤ node.size ∨ offset' = offset

/-- The links lead from `c` to a cluster for the offset, and each access on the way succeeds. -/
def ClusterAt (fp : FatPrivate) (d : Disk) (c offset : Nat) : Prop :=
  0 < fp.bytesPerCluster ∧ ∀ j < offset / fp.bytesPerCluster,
    d.faults[j]? ≠ some true ∧ (linkOf fp d.sectors)^[j + 1] c < FAT_EOC

structure FileState.Typed (s : FileState) : Prop where
  size : s.node.size < 2 ^ 32
  files : ∀ h offset, s.files h = some offset → offset < 2 ^ 64

-- ---------------------------------------------------------------------------
-- `fat_read` of nothing
-- ---------------------------------------------------------------------------

theorem clusterAt_succ (hcs : 0 < fp.bytesPerCluster) (h : fp.bytesPerCluster ≤ skip) :
    ClusterAt fp d c skip ↔ (d.fails ≠ true ∧ linkOf fp d.sectors c < FAT_EOC) ∧
      ClusterAt fp d.tick (linkOf fp d.sectors c) (skip - fp.bytesPerCluster) := by
  rw [ClusterAt, ClusterAt, Nat.div_eq_sub_div hcs h, Nat.forall_lt_succ_left, ne_eq, ← fails_iff]
  simp only [Disk.tick, List.getElem?_tail, Function.iterate_succ_apply, Function.iterate_zero, id, hcs,
    true_and, ne_eq]

theorem fatReadSkip_iff (h : fatReadSkip fp fuel c skip d = some (r, d')) :
    r ≠ none ↔ ClusterAt fp d c skip := by
  induction fuel generalizing c skip d with
  | zero => cases h
  | succ fuel ih =>
    rw [fatReadSkip] at h
    by_cases hskip : skip ≥ fp.bytesPerCluster
    · rw [if_pos hskip, fatNextCluster_link] at h
      dsimp only at h
      by_cases hlink : d.fails ≠ true ∧ linkOf fp d.sectors c < FAT_EOC
      · rw [if_neg hlink.1, if_neg (Nat.not_le.mpr hlink.2)] at h
        by_cases hcs : 0 < fp.bytesPerCluster
        · rw [clusterAt_succ hcs hskip, ih h]
          exact ⟨fun hat => ⟨hlink, hat⟩, And.right⟩
        · rw [ih h, ClusterAt, ClusterAt]
          simp only [hcs, false_and]
      · have hend : (if d.fails = true then FAT_EOC else linkOf fp d.sectors c) ≥ FAT_EOC := by
          split
          · exact Nat.le_refl _
          · rename_i hf
            by_contra hlt
            exact hlink ⟨hf, Nat.lt_of_not_le hlt⟩
        rw [if_pos hend] at h
        cases h
        constructor
        · intro hne
          exact absurd rfl hne
        · intro hat
          exact absurd ((clusterAt_succ hat.1 hskip).mp hat).1 hlink
    · rw [if_neg hskip] at h
      cases h
      rw [ClusterAt, Nat.div_eq_of_lt (Nat.lt_of_not_le hskip)]
      simp only [Nat.not_lt_zero, false_imp_iff, implies_true, and_true, ne_eq, reduceCtorEq,
        not_false_eq_true, true_iff]
      omega

theorem fatReadSkip_found (h : ClusterAt fp d c skip) :
    ∃ r d', Returns (fun fuel => fatReadSkip fp fuel c skip d) (some r, d') := by
  induction skip using Nat.strong_induction_on generalizing c d with
  | _ skip ih =>
    by_cases hskip : skip ≥ fp.bytesPerCluster
    · obtain ⟨hlink, hrest⟩ := (clusterAt_succ h.1 hskip).mp h
      have hcs := h.1
      obtain ⟨r, d', hret⟩ := ih (skip - fp.bytesPerCluster) (by omega) hrest
      refine ⟨r, d', .step (fun fuel => ?_) hret⟩
      rw [fatReadSkip, if_pos hskip, fatNextCluster_link, if_neg hlink.1]
      dsimp only
      rw [if_neg (Nat.not_le.mpr hlink.2)]
    · refine ⟨(c, skip), d, .step (fun fuel => ?_) (.pure _)⟩
      rw [fatReadSkip, if_neg hskip]

/-- Where nothing is asked for, `fat_read` returns 0 or, without a cluster, -1. -/
theorem fatRead_nothing {out : Bytes} {r : Int × Bytes × Disk}
    (h : fatRead fp fuel node offset 0 out d = some r) :
    (ClusterAt fp d node.cluster offset → r.1 = 0) ∧
      (¬ ClusterAt fp d node.cluster offset → r.1 = -1) := by
  rw [fatRead] at h
  cases hs : fatReadSkip fp fuel node.cluster offset d with
  | none =>
    rw [hs] at h
    cases h
  | some p =>
    obtain ⟨found, d₁⟩ := p
    have hiff := fatReadSkip_iff hs
    rw [hs] at h
    cases found with
    | none =>
      cases h
      exact ⟨fun hat => absurd rfl (hiff.mpr hat), fun _ => rfl⟩
    | some found =>
      obtain ⟨cluster, skip⟩ := found
      have hat := hiff.mp (Option.some_ne_none _)
      cases fuel with
      | zero => cases hs
      | succ fuel =>
        dsimp only at h
        rw [fatReadClusters, if_neg (Nat.lt_irrefl 0)] at h
        cases h
        exact ⟨fun _ => rfl, fun hno => absurd hat hno⟩

theorem fatRead_nothing_returns (h : ClusterAt fp d node.cluster offset) (out : Bytes) :
    ∃ d', Returns (fun fuel => fatRead fp fuel node offset 0 out d) (0, out, d') := by
  obtain ⟨r, d', N, hret⟩ := fatReadSkip_found h
  refine ⟨d', N + 1, fun fuel hfuel => ?_⟩
  obtain ⟨fuel, rfl⟩ := Nat.exists_eq_succ_of_ne_zero (Nat.ne_of_gt (Nat.lt_of_lt_of_le (Nat.succ_pos N) hfuel))
  have hskip := hret (fuel + 1) (by omega)
  dsimp only at hskip ⊢
  rw [fatRead, hskip]
  dsimp only
  rw [fatReadClusters, if_neg (Nat.lt_irrefl 0)]
  rfl

-- ---------------------------------------------------------------------------
-- One read
-- ---------------------------------------------------------------------------

theorem fatRead_lt {out : Bytes} {r : Int × Bytes × Disk}
    (h : fatRead fp fuel node offset size out d = some r) : r.1 < 2 ^ 31 := by
  rw [fatRead] at h
  split at h
  · cases h
  · cases h
    exact (by decide : (-1 : Int) < 2 ^ 31)
  · split at h
    · cases h
    · cases h
      exact (by decide : (-1 : Int) < 2 ^ 31)
    · cases h
      exact asInt_lt _

theorem readResult_offset (offset size : Nat) {r : Int × Bytes × Disk} (hr : r.1 < 2 ^ 31) :
    (readResult offset size r).2.1 = offset ∨
      ∃ n : Nat, n ≤ size ∧ (readResult offset size r).2.1 = (offset + n) % 2 ^ 64 := by
  rw [readResult]
  split
  · refine .inr ⟨(if r.1.toNat > size then asInt size else r.1).toNat, ?_, ?_⟩
    · split
      · exact asInt_toNat_le size
      · omega
    · dsimp only
      have hpos : 0 ≤ if r.1.toNat > size then asInt size else r.1 := by
        split
        · rw [asInt_of_lt (by omega)]
          exact Int.natCast_nonneg size
        · omega
      rw [advance]
      omega
  · exact .inl rfl

/-- A read respects the end exactly if the handle stands within the file, or nothing is asked
for, and there is a cluster for the offset where nothing is left. -/
theorem vfsRead_respects_iff (hsize : node.size < 2 ^ 32) (hoffset : offset < 2 ^ 64)
    (h : Returns (fun fuel => vfsRead fp fuel node offset size before d) (ret, offset', buf, d')) :
    RespectsEnd node offset size ret offset' ↔ (offset ≤ node.size ∨ size = 0) ∧
      (node.size ≤ offset → ClusterAt fp d node.cluster offset) := by
  obtain ⟨fuel, hfuel⟩ := h
  obtain ⟨r, hread, hres⟩ := Option.map_eq_some_iff.mp (hfuel fuel (Nat.le_refl _))
  have hoff := readResult_offset offset (min size (remaining node offset))
    (fatRead_lt hread)
  -- what is asked for, within the file and behind it
  have hrem : offset ≤ node.size → remaining node offset = node.size - offset := remaining_eq hsize
  have hwrap : node.size < offset → 0 < remaining node offset := by
    intro hlt
    rw [remaining]
    omega
  rw [hres] at hoff
  dsimp only at hoff
  by_cases hnone : min size (remaining node offset) = 0
  · rw [hnone] at hread hres hoff
    obtain ⟨hzero, hfail⟩ := fatRead_nothing hread
    have hret : ret = r.1 := by
      rw [readResult] at hres
      split at hres
      · by_cases hat : ClusterAt fp d node.cluster offset
        · have := hzero hat
          omega
        · have := hfail hat
          omega
      · exact (congrArg Prod.fst hres).symm
    have hin : offset ≤ node.size ∨ size = 0 := by
      by_contra hno
      have := hwrap (by omega)
      omega
    refine ⟨fun hr => ⟨hin, fun hle => ?_⟩, fun hc => ⟨by omega, fun hle => ?_, .inr ?_⟩⟩
    · by_contra hno
      have h0 := hr.zero hle
      rw [hret, hfail hno] at h0
      cases h0
    · rw [hret]
      exact hzero (hc.2 hle)
    · obtain rfl | ⟨n, hn, rfl⟩ := hoff
      · rfl
      · omega
  · constructor
    · intro hr
      have hasks := hr.asks
      exact ⟨.inl (by omega), fun hle => by omega⟩
    · rintro ⟨hin, -⟩
      have hlt : offset < node.size := by
        by_contra hle
        have := hrem
        omega
      have hr := hrem (by omega)
      refine ⟨by omega, fun hle => absurd hlt (by omega), .inl ?_⟩
      obtain rfl | ⟨n, hn, rfl⟩ := hoff <;> omega

-- ---------------------------------------------------------------------------
-- Runs
-- ---------------------------------------------------------------------------

theorem fatWriteSkip_size {r : Option (Nat × Nat)}
    (h : fatWriteSkip fp fuel node c skip d = some (r, node', d')) : node'.size = node.size := by
  induction fuel generalizing node c skip d with
  | zero => cases h
  | succ fuel ih =>
    rw [fatWriteSkip] at h
    split at h
    · dsimp only at h
      split at h
      · cases h
        rfl
      · refine (ih h).trans ?_
        split
        · split <;> rfl
        · rfl
    · cases h
      rfl

theorem fatWrite_size_lt (hsize : node.size < 2 ^ 32)
    (h : fatWrite fp junk fuel node offset size buf d = some (ret, node', d')) :
    node'.size < 2 ^ 32 := by
  rw [fatWrite] at h
  split at h
  · cases h
    exact hsize
  · cases hs : fatWriteSkip fp fuel node node.cluster offset d with
    | none =>
      rw [hs] at h
      cases h
    | some p =>
      obtain ⟨r, n, d₁⟩ := p
      have hn : n.size < 2 ^ 32 := by
        rw [fatWriteSkip_size hs]
        exact hsize
      rw [hs] at h
      cases r with
      | none =>
        cases h
        exact hn
      | some r =>
        dsimp only at h
        split at h
        · cases h
        · cases h
          exact hn
        · cases h
          exact fatWritten_size_lt hn _ _

theorem setFile_typed {files : Nat → Option Nat} {o : Option Nat}
    (hs : ∀ h offset, files h = some offset → offset < 2 ^ 64)
    (ho : ∀ offset, o = some offset → offset < 2 ^ 64) (k : Nat) :
    ∀ h offset, setFile files k o h = some offset → offset < 2 ^ 64 := by
  intro h offset hset
  rw [setFile] at hset
  split at hset
  · exact ho offset hset
  · exact hs h offset hset

theorem advance_lt (offset : Nat) (ret : Int) : advance offset ret < 2 ^ 64 := by
  rw [advance]
  omega

theorem FileState.Typed.step (hs : s.Typed) (h : fileStep fp s a s') : s'.Typed := by
  have hzero : ∀ offset, some 0 = some offset → offset < 2 ^ 64 := by
    intro offset ho
    cases ho
    decide
  cases a with
  | vfsOpen k =>
    obtain ⟨-, rfl⟩ := h
    exact ⟨hs.size, setFile_typed hs.files hzero k⟩
  | vfsCreate k =>
    obtain ⟨-, rfl⟩ := h
    refine ⟨show 0 < 2 ^ 32 by decide, ?_⟩
    cases k with
    | none => exact hs.files
    | some k => exact setFile_typed hs.files hzero k
  | vfsClose k =>
    obtain rfl := h
    refine ⟨hs.size, setFile_typed hs.files (fun _ ho => ?_) k⟩
    cases ho
  | seek k offset =>
    obtain ⟨-, hlt, rfl⟩ := h
    exact ⟨hs.size, setFile_typed hs.files (fun _ ho => Option.some.inj ho ▸ hlt) k⟩
  | vfsRead k size ret buf =>
    obtain ⟨offset, offset', before, d, hk, ⟨fuel, hret⟩, rfl⟩ := h
    obtain ⟨r, hread, hres⟩ := Option.map_eq_some_iff.mp (hret fuel (Nat.le_refl _))
    have hlt : offset' < 2 ^ 64 := by
      have hoff := readResult_offset offset (min size (remaining s.node offset))
        (fatRead_lt hread)
      rw [hres] at hoff
      obtain rfl | ⟨n, -, rfl⟩ := hoff
      · exact hs.files k _ hk
      · exact Nat.mod_lt _ (by decide)
    exact ⟨hs.size, setFile_typed hs.files (fun _ ho => Option.some.inj ho ▸ hlt) k⟩
  | vfsWrite k size buf =>
    obtain ⟨offset, offset', junk, ret, node, d, hk, ⟨fuel, hret⟩, rfl⟩ := h
    obtain ⟨⟨ret, node', d'⟩, hwrite, hres⟩ := Option.map_eq_some_iff.mp (hret fuel (Nat.le_refl _))
    cases hres
    refine ⟨fatWrite_size_lt hs.size hwrite, setFile_typed hs.files (fun _ ho => ?_) k⟩
    cases ho
    dsimp only
    split
    · exact advance_lt _ _
    · exact hs.files k _ hk

/-- In every state a run reaches, a read through any handle respects the end of the file exactly
under the condition, and under it a read at the end returns. -/
theorem reads_respect_end_iff (hs : s₀.Typed) (hrun : Run (fileStep fp) (fun _ _ => True) s₀ acts s)
    (hfile : s.files h = some offset) (size : Nat) (before : Bytes) :
    (∀ ret offset' buf d',
      Returns (fun fuel => vfsRead fp fuel s.node offset size before s.disk) (ret, offset', buf, d') →
      (RespectsEnd s.node offset size ret offset' ↔ (offset ≤ s.node.size ∨ size = 0) ∧
        (s.node.size ≤ offset → ClusterAt fp s.disk s.node.cluster offset))) ∧
    (s.node.size ≤ offset → offset ≤ s.node.size ∨ size = 0 →
      ClusterAt fp s.disk s.node.cluster offset →
      ∃ d', Returns (fun fuel => vfsRead fp fuel s.node offset size before s.disk)
        (0, offset, before, d')) := by
  have htyped := hrun.invariant FileState.Typed hs fun _ _ _ hs _ hstep => hs.step hstep
  refine ⟨fun ret offset' buf d' hread =>
    vfsRead_respects_iff htyped.size (htyped.files h offset hfile) hread, fun hle hin hat => ?_⟩
  have hnone : min size (remaining s.node offset) = 0 := by
    obtain hin | rfl := hin
    · rw [remaining_eq htyped.size hin]
      omega
    · exact Nat.zero_min _
  obtain ⟨d', hret⟩ := fatRead_nothing_returns hat before
  refine ⟨d', ?_⟩
  rw [← hnone] at hret
  exact hret.map (readResult offset (min size (remaining s.node offset)))

theorem old_typed : oldState.Typed where
  size := by decide
  files h offset ho := by
    simp only [oldState] at ho
    split at ho
    · cases ho
      decide
    · cases ho

theorem old_truncated : Run (fileStep overlayFp) (fun _ _ => True) oldState [.vfsCreate (some 1)]
    truncatedState := .cons trivial old_create .nil

/-- Through the handle that truncated the file a read returns 0. -/
theorem truncated_read_nothing : ∃ d',
    Returns (fun fuel => vfsRead overlayFp fuel truncatedState.node 0 10 (fun _ => 0)
      truncatedState.disk) (0, 0, fun _ => 0, d') :=
  (reads_respect_end_iff old_typed old_truncated (show truncatedState.files 1 = some 0 from rfl) 10
    fun _ => 0).2 (Nat.le_refl 0) (.inl (Nat.le_refl 0)) ⟨by decide, fun j hj => absurd hj (by simp)⟩

/-- Through the handle that was open before, ten bytes are asked for and come back, although
the file is empty. -/
theorem truncated_read_wraps : ¬ ∀ (s₀ s : FileState) (acts : List FileAct) (h offset size : Nat)
    (before : Bytes) (ret : Int) (offset' : Nat) (buf : Bytes) (d' : Disk), s₀.Typed →
    Run (fileStep overlayFp) (fun _ _ => True) s₀ acts s → s.files h = some offset →
    Returns (fun fuel => vfsRead overlayFp fuel s.node offset size before s.disk)
      (ret, offset', buf, d') → RespectsEnd s.node offset size ret offset' := by
  intro hall
  obtain ⟨offset', buf, hret, -⟩ := old_handle_read
  have h := hall _ _ _ 0 100 10 _ _ _ _ _ old_typed old_truncated rfl hret
  exact absurd (h.zero (by decide)) (by decide)

end EponaOS.Fs
