import EponaOS.Fs.NewEntry
import EponaOS.Fs.Lookup

/-!
# The sectors of directories that are read

Which sectors `fat_readdir` and `vfs_resolve` read as parts of directories, call after call. The
sectors of the table, which `fat_next_cluster` reads on the way, are left out.
-/

namespace EponaOS.Fs

open Bytes

section Walk

variable {R S : Type} (fp : FatPrivate) (fail : S → R)
  (visit : Nat → Nat → Bytes → S → Disk → Visit R S)

/-- The sectors that `dirWalkCluster` reads. -/
def clusterReads (lba : Nat) : Nat → Nat → Bytes → S → Disk → List Nat
  | 0, _, _, _, _ => []
  | k + 1, e, buf, st, d =>
    let sector := e * 32 / 512
    let off := e * 32 % 512
    let lba' := (lba + sector) % 2 ^ 32
    let r := if sector = 0 ∨ off = 0 then ataReadSectors d lba' else (some buf, d)
    let rest := match r.1 with
      | none => []
      | some buf =>
        match visit lba' off buf st r.2 with
        | .done _ _ => []
        | .next st => clusterReads lba k (e + 1) buf st r.2
    if sector = 0 ∨ off = 0 then lba' :: rest else rest

/-- The sectors that `dirWalk` reads. -/
def walkReads : Nat → Nat → S → Disk → List Nat
  | 0, _, _, _ => []
  | fuel + 1, cluster, st, d =>
    if cluster < FAT_EOC then
      clusterReads visit (fatClusterToLba fp cluster) (fp.bytesPerCluster / 32) 0 (fun _ => 0) st d ++
        match dirWalkCluster fail visit (fatClusterToLba fp cluster) (fp.bytesPerCluster / 32) 0
          (fun _ => 0) st d with
        | (.inl _, _) => []
        | (.inr st, d) =>
          let next := fatNextCluster fp d cluster
          walkReads fuel next.1 st next.2
    else []

end Walk

def readdirReads (fp : FatPrivate) (fuel node : Nat) (t : Tree) (d : Disk) : List Nat :=
  walkReads fp (fun st => ((-1 : Int), st.2)) (readdirVisit node) fuel (t.cluster node) (0, t) d

def loadReads (fp : FatPrivate) (fuel node : Nat) (t : Tree) (d : Disk) : List Nat :=
  if t.children node = [] then readdirReads fp fuel node t d else []

/-- The sectors that `vfsWalk` reads. -/
def partReads (fp : FatPrivate) (fuel : Nat) : List CStr → Nat → Tree → Disk → List Nat
  | [], _, _, _ => []
  | part :: parts, curr, t, d =>
    if t.hasFlag curr VFS_DIR then
      loadReads fp fuel curr t d ++
        match vfsLoad fp fuel curr t d with
        | none => []
        | some (t, d) =>
          match t.find part (t.children curr) with
          | none => []
          | some child => partReads fp fuel parts child t d
    else []

def resolveReads (fp : FatPrivate) (fuel : Nat) (path : CStr) (t : Tree) (d : Disk) : List Nat :=
  match t.root with
  | none => []
  | some root => partReads fp fuel (strtok [] path) root t d

-- ---------------------------------------------------------------------------
-- Chains of data clusters
-- ---------------------------------------------------------------------------

variable {fp : FatPrivate} {d : Disk} {t : Tree} {l : List Nat} {c n : Nat}

def DataSector (fp : FatPrivate) (s : Nat) : Prop := ∃ c, Valid fp c ∧ ClusterSector fp c s

section Walk

variable {R S : Type} {fail : S → R} {visit : Nat → Nat → Bytes → S → Disk → Visit R S}

theorem clusterReads_lt (hg : Geometry fp) (hlba : lba + fp.bpb.sectorsPerCluster ≤ 2 ^ 28)
    (he : e + k = fp.bytesPerCluster / 32) (h : s ∈ clusterReads visit lba k e buf st d) :
    lba ≤ s ∧ s < lba + fp.bpb.sectorsPerCluster := by
  induction k generalizing e buf st d with
  | zero => cases h
  | succ k ih =>
    have hlt := slot_lt hg (show e < fp.bytesPerCluster / 32 by omega)
    have hmod : (lba + e * 32 / 512) % 2 ^ 32 = lba + e * 32 / 512 := Nat.mod_eq_of_lt (by omega)
    rw [clusterReads, hmod] at h
    have hrest : s = lba + e * 32 / 512 ∨ ∃ e' buf' st' d', e' + k = fp.bytesPerCluster / 32 ∧
        s ∈ clusterReads visit lba k e' buf' st' d' := by
      have hmem : ∀ {rest : List Nat}, s ∈ (if e * 32 / 512 = 0 ∨ e * 32 % 512 = 0 then
          (lba + e * 32 / 512) :: rest else rest) → s = lba + e * 32 / 512 ∨ s ∈ rest := by
        intro rest hs
        split at hs
        · exact List.mem_cons.mp hs
        · exact .inr hs
      obtain h | h := hmem h
      · exact .inl h
      · split at h
        · cases h
        · split at h
          · cases h
          · exact .inr ⟨_, _, _, _, by omega, h⟩
    obtain rfl | ⟨e', buf', st', d', he', hs⟩ := hrest
    · omega
    · exact ih he' hs

theorem walkReads_data (hg : Geometry fp) (hd : NoFaults d) (hl : FatChain fp d.image c l)
    (h : s ∈ walkReads fp fail visit fuel c st d) : DataSector fp s := by
  obtain ⟨hchain, hvalid⟩ := hl
  induction hchain generalizing fuel st with
  | nil hs =>
    cases fuel with
    | zero => cases h
    | succ fuel =>
      rw [walkReads, if_neg (Nat.not_lt.mpr hs)] at h
      cases h
  | @link c l hns hchain ih =>
    cases fuel with
    | zero => cases h
    | succ fuel =>
      have hc := hvalid c List.mem_cons_self
      have hlt := clusterLba_lt hg hc
      have hwalk : dirWalkCluster fail visit (fatClusterToLba fp c) (fp.bytesPerCluster / 32) 0
          (fun _ => 0) st d = visitSlots visit d (clusterSlots fp c) st := by
        rw [fatClusterToLba_eq hg hc, clusterSlots, List.range_eq_range']
        exact dirWalkCluster_slots hg hd hlt (Nat.zero_add _) (.inl rfl) st
      rw [walkReads, if_pos (Nat.lt_of_not_le hns), hwalk] at h
      obtain h | h := List.mem_append.mp h
      · rw [fatClusterToLba_eq hg hc] at h
        exact ⟨c, hc, clusterReads_lt hg hlt (Nat.zero_add _) h⟩
      · rcases hv : visitSlots visit d (clusterSlots fp c) st with ⟨r | st', d'⟩
        · rw [hv] at h
          cases h
        · obtain rfl := visitSlots_disk hv
          rw [hv] at h
          dsimp only at h
          rw [fatNextCluster_eq hg hd hc.2] at h
          exact ih h fun x hx => hvalid x (List.mem_cons_of_mem _ hx)

end Walk

theorem loadReads_data (hg : Geometry fp) (hd : NoFaults d) (hl : FatChain fp d.image (t.cluster n) l)
    (h : s ∈ loadReads fp fuel n t d) : DataSector fp s := by
  rw [loadReads] at h
  split at h
  · exact walkReads_data hg hd hl h
  · cases h

theorem Resolves.partReads (h : Resolves t parts n m) (more : List CStr) (fuel : Nat) (d : Disk) :
    partReads fp fuel (parts ++ more) n t d = partReads fp fuel more m t d := by
  induction h with
  | nil => rfl
  | cons hdir hfind _ ih =>
    have hload : loadReads fp fuel _ t d = [] := if_neg (Tree.children_ne_nil hfind)
    rw [List.cons_append, EponaOS.Fs.partReads, if_pos hdir, hload, vfsLoad_of_find hfind]
    dsimp only
    rw [hfind]
    exact ih

end EponaOS.Fs
