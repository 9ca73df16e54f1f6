import EponaOS.Lib.Fuel
import EponaOS.Fs.FatDir
import EponaOS.Fs.FatTable

/-!
# The slots of a directory

Over a chain of clusters and on a drive without errors, the walk that `fat_readdir`,
`fat_create` and `fat_unlink` share visits every slot of 32 bytes of the clusters once, in
order, with the sector that it lies in.
-/

namespace EponaOS.Fs

open Bytes

def clusterSlots (fp : FatPrivate) (c : Nat) : List (Nat × Nat) :=
  (List.range (fp.bytesPerCluster / 32)).map fun e => (clusterLba fp c + e * 32 / 512, e * 32 % 512)

def dirSlots (fp : FatPrivate) (l : List Nat) : List (Nat × Nat) := l.flatMap (clusterSlots fp)

section Walk

variable {R S : Type} {fp : FatPrivate} {d : Disk} {fail : S → R}
  {visit : Nat → Nat → Bytes → S → Disk → Visit R S} {l : List Nat} {c : Nat}

def visitSlots (visit : Nat → Nat → Bytes → S → Disk → Visit R S) (d : Disk) :
    List (Nat × Nat) → S → (R ⊕ S) × Disk
  | [], st => (.inr st, d)
  | s :: slots, st =>
    match visit s.1 s.2 (d.sectors s.1) st d with
    | .done r d' => (.inl r, d')
    | .next st => visitSlots visit d slots st

def resumeSlots (visit : Nat → Nat → Bytes → S → Disk → Visit R S) (slots : List (Nat × Nat)) :
    (R ⊕ S) × Disk → (R ⊕ S) × Disk
  | (.inl r, d) => (.inl r, d)
  | (.inr st, d) => visitSlots visit d slots st

theorem visitSlots_disk (h : visitSlots visit d slots st = (.inr st', d')) : d' = d := by
  induction slots generalizing st with
  | nil =>
    cases h
    rfl
  | cons s slots ih =>
    rw [visitSlots] at h
    split at h
    · cases h
    · exact ih h

theorem visitSlots_append (a b : List (Nat × Nat)) (st : S) :
    visitSlots visit d (a ++ b) st = resumeSlots visit b (visitSlots visit d a st) := by
  induction a generalizing st with
  | nil => rfl
  | cons s a ih =>
    rw [List.cons_append, visitSlots, visitSlots]
    split
    · rfl
    · exact ih _

theorem slot_lt (hg : Geometry fp) (he : e < fp.bytesPerCluster / 32) :
    e * 32 / 512 < fp.bpb.sectorsPerCluster := by
  rw [hg.cluster] at he
  omega

/-- The entries of a cluster at `lba` from number `e` on. -/
theorem dirWalkCluster_slots (hg : Geometry fp) (hd : NoFaults d)
    (hlba : lba + fp.bpb.sectorsPerCluster ≤ 2 ^ 28) (he : e + k = fp.bytesPerCluster / 32)
    (hbuf : e * 32 / 512 = 0 ∨ e * 32 % 512 = 0 ∨ buf = d.sectors (lba + e * 32 / 512)) (st : S) :
    dirWalkCluster fail visit lba k e buf st d =
      visitSlots visit d ((List.range' e k).map fun e => (lba + e * 32 / 512, e * 32 % 512)) st := by
  induction k generalizing e buf st with
  | zero => rfl
  | succ k ih =>
    have hlt := slot_lt hg (show e < fp.bytesPerCluster / 32 by omega)
    have hmod : (lba + e * 32 / 512) % 2 ^ 32 = lba + e * 32 / 512 := Nat.mod_eq_of_lt (by omega)
    -- the buffer holds the sector of the entry
    have hread : (if e * 32 / 512 = 0 ∨ e * 32 % 512 = 0 then
        ataReadSectors d (lba + e * 32 / 512) else (some buf, d)) =
        (some (d.sectors (lba + e * 32 / 512)), d) := by
      by_cases hr : e * 32 / 512 = 0 ∨ e * 32 % 512 = 0
      · rw [if_pos hr, ataReadSectors_eq hd (by omega)]
      · obtain h | h | h := hbuf
        · exact absurd (.inl h) hr
        · exact absurd (.inr h) hr
        · rw [if_neg hr, h]
    rw [dirWalkCluster, hmod, hread, List.range'_succ, List.map_cons, visitSlots]
    dsimp only
    cases hv : visit (lba + e * 32 / 512) (e * 32 % 512) (d.sectors (lba + e * 32 / 512)) st d with
    | done r d' => rfl
    | next st' =>
      dsimp only
      apply ih (by omega)
      by_cases h0 : (e + 1) * 32 % 512 = 0
      · exact .inr (.inl h0)
      · have : (e + 1) * 32 / 512 = e * 32 / 512 := by omega
        rw [this]
        exact .inr (.inr rfl)

theorem dirWalk_slots (hg : Geometry fp) (hd : NoFaults d) (hl : FatChain fp d.image c l) (st : S) :
    Returns (fun fuel => dirWalk fp fail visit fuel c st d) (visitSlots visit d (dirSlots fp l) st) := by
  obtain ⟨hchain, hvalid⟩ := hl
  induction hchain generalizing st with
  | nil hs =>
    refine .step (fun fuel => ?_) (.pure _)
    rw [dirWalk, if_neg (Nat.not_lt.mpr hs)]
    rfl
  | @link c l hns hchain ih =>
    have hc := hvalid c List.mem_cons_self
    have hcluster : dirWalkCluster fail visit (fatClusterToLba fp c) (fp.bytesPerCluster / 32) 0
        (fun _ => 0) st d = visitSlots visit d (clusterSlots fp c) st := by
      rw [fatClusterToLba_eq hg hc, clusterSlots, List.range_eq_range']
      exact dirWalkCluster_slots hg hd (clusterLba_lt hg hc) (Nat.zero_add _) (.inl rfl) st
    rw [dirSlots, List.flatMap_cons, visitSlots_append]
    cases hv : visitSlots visit d (clusterSlots fp c) st with
    | mk r d' =>
      rw [hv] at hcluster
      cases r with
      | inl r =>
        refine .step (fun fuel => ?_) (.pure (Sum.inl r, d'))
        rw [dirWalk, if_pos (Nat.lt_of_not_le hns), hcluster]
      | inr st' =>
        obtain rfl := visitSlots_disk hv
        refine .step (fun fuel => ?_) (ih st' fun x hx => hvalid x (List.mem_cons_of_mem _ hx))
        rw [dirWalk, if_pos (Nat.lt_of_not_le hns), hcluster]
        dsimp only
        rw [fatNextCluster_eq hg hd hc.2]

end Walk

end EponaOS.Fs
