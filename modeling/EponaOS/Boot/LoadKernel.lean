import EponaOS.Lib.Fuel
import Mathlib.Tactic.Ring

/-!
# The boot loader

`load_kernel` of `stage2.asm` asks the BIOS for the kernel in chunks of 64 sectors. Segment
and count are words, the sector number is kept in two halves.
-/

namespace EponaOS.Boot

def KERNEL_LBA : BitVec 32 := 17
def KERNEL_BOUNCE_SEG : BitVec 16 := 0x1000
def KERNEL_READ_CHUNK : BitVec 16 := 64

structure LoadState where
  sectorsLeft : BitVec 16
  loadSeg : BitVec 16
  lbaLow : BitVec 32
  lbaHigh : BitVec 32

structure Dap where
  count : BitVec 16
  seg : BitVec 16
  lbaLow : BitVec 32
  lbaHigh : BitVec 32
  deriving DecidableEq

/-- The word that `KERNEL_SECTORS` is assembled to, and the other variables. -/
def loadStart (kernelSectors : Nat) : LoadState where
  sectorsLeft := BitVec.ofNat 16 kernelSectors
  loadSeg := KERNEL_BOUNCE_SEG
  lbaLow := KERNEL_LBA
  lbaHigh := 0

def nextDap (s : LoadState) : Dap where
  count := if s.sectorsLeft ≤ KERNEL_READ_CHUNK then s.sectorsLeft else KERNEL_READ_CHUNK
  seg := s.loadSeg
  lbaLow := s.lbaLow
  lbaHigh := s.lbaHigh

def advance (s : LoadState) (count : BitVec 16) : LoadState where
  sectorsLeft := s.sectorsLeft - count
  loadSeg := s.loadSeg + count <<< 5
  lbaLow := s.lbaLow + count.setWidth 32
  lbaHigh := s.lbaHigh + if 2 ^ 32 ≤ s.lbaLow.toNat + count.toNat then 1 else 0

/-- The requests from `.next` on, and whether the last one failed. `bios` tells which fail. -/
def loadFrom (bios : Dap → Bool) : Nat → LoadState → Option (List Dap × Bool)
  | 0, _ => none
  | fuel + 1, s =>
    if s.sectorsLeft = 0 then some ([], false)
    else if bios (nextDap s) then some ([nextDap s], true)
    else
      (loadFrom bios fuel (advance s (nextDap s).count)).map fun (daps, failed) =>
        (nextDap s :: daps, failed)

def loadKernel (bios : Dap → Bool) (kernelSectors fuel : Nat) : Option (List Dap × Bool) :=
  loadFrom bios fuel (loadStart kernelSectors)

-- ---------------------------------------------------------------------------
-- Where the sectors go
-- ---------------------------------------------------------------------------

structure Placement where
  lba : Nat
  dest : Nat
  deriving DecidableEq

def Dap.placement (d : Dap) (j : Nat) : Placement where
  lba := d.lbaHigh.toNat * 2 ^ 32 + d.lbaLow.toNat + j
  dest := d.seg.toNat * 16 + 512 * j

def Dap.placements (d : Dap) : List Placement := (List.range d.count.toNat).map d.placement

def kernelPlacement (i : Nat) : Placement := ⟨17 + i, 0x10000 + 512 * i⟩

structure PlacesKernel (kernelSectors : Nat) (daps : List Dap) : Prop where
  once : ∀ i < kernelSectors,
    (daps.flatMap Dap.placements).filter (·.lba = 17 + i) = [kernelPlacement i]
  chunks : ∀ d ∈ daps, d.count.toNat ≤ 64
  belowVideo : ∀ p ∈ daps.flatMap Dap.placements, p.dest + 512 ≤ 0xA0000

def noError (_ : Dap) : Bool := false

/-- `load_kernel` ends without an error, and has placed every sector. -/
def KernelLoads (kernelSectors : Nat) : Prop :=
  ∃ daps, Returns (loadKernel noError kernelSectors) (daps, false) ∧
    PlacesKernel kernelSectors daps

-- ---------------------------------------------------------------------------
-- The loop
-- ---------------------------------------------------------------------------

/-- `done` sectors are read, `left` are to be read, and there is room for them. -/
structure At (s : LoadState) (done left : Nat) : Prop where
  room : done + left ≤ 1152
  sectors : s.sectorsLeft.toNat = left
  seg : s.loadSeg.toNat = 0x1000 + 32 * done
  low : s.lbaLow.toNat = 17 + done
  high : s.lbaHigh = 0

theorem nextDap_count (h : At s done left) : (nextDap s).count.toNat = min left 64 := by
  have hchunk : KERNEL_READ_CHUNK.toNat = 64 := rfl
  rw [nextDap, ← h.sectors]
  dsimp only
  split <;> rename_i hle <;> rw [BitVec.le_def, hchunk] at hle
  · rw [Nat.min_eq_left hle]
  · rw [hchunk, Nat.min_eq_right (by omega)]

theorem At.advance (h : At s done left) :
    At (advance s (nextDap s).count) (done + min left 64) (left - min left 64) := by
  have hcount := nextDap_count h
  obtain ⟨hroom, hleft, hseg, hlow, hhigh⟩ := h
  constructor
  · omega
  · rw [Boot.advance, BitVec.toNat_sub_of_le, hcount, hleft]
    rw [BitVec.le_def]
    omega
  · rw [Boot.advance, BitVec.toNat_add, BitVec.toNat_shiftLeft, hcount, hseg, Nat.shiftLeft_eq]
    omega
  · rw [Boot.advance, BitVec.toNat_add, BitVec.toNat_setWidth, hcount, hlow]
    omega
  · rw [Boot.advance, hhigh, hcount, hlow, if_neg (by omega)]
    rfl

theorem nextDap_placements (h : At s done left) :
    (nextDap s).placements =
      (List.range (min left 64)).map fun i => kernelPlacement (done + i) := by
  rw [Dap.placements, nextDap_count h]
  apply List.map_congr_left
  intro j _
  have hlba : s.lbaHigh.toNat * 2 ^ 32 + s.lbaLow.toNat + j = 17 + (done + j) := by
    rw [h.high, h.low]
    change 0 * 2 ^ 32 + (17 + done) + j = _
    omega
  have hdest : s.loadSeg.toNat * 16 + 512 * j = 0x10000 + 512 * (done + j) := by
    rw [h.seg]
    omega
  exact congrArg₂ Placement.mk hlba hdest

theorem loadFrom_mono (bios : Dap → Bool) (s : LoadState) :
    FuelMono fun fuel => loadFrom bios fuel s := by
  intro n
  induction n generalizing s with
  | zero => intro r h; cases h
  | succ n ih =>
    intro r h
    simp only [loadFrom] at h ⊢
    split <;> rename_i hzero
    · rwa [if_pos hzero] at h
    rw [if_neg hzero] at h
    split <;> rename_i hfail
    · rwa [if_pos hfail] at h
    rw [if_neg hfail] at h
    obtain ⟨rest, hrest, hr⟩ := Option.map_eq_some_iff.mp h
    exact Option.map_eq_some_iff.mpr ⟨rest, ih _ _ hrest, hr⟩

theorem loadFrom_at (h : At s done left) (hn : left < n) :
    ∃ daps, loadFrom noError n s = some (daps, false) ∧
      (∀ d ∈ daps, d.count.toNat ≤ 64) ∧
      daps.flatMap Dap.placements =
        (List.range left).map fun i => kernelPlacement (done + i) := by
  induction n generalizing s done left with
  | zero => omega
  | succ n ih =>
    by_cases hzero : left = 0
    · subst hzero
      have hstop : s.sectorsLeft = 0 := BitVec.eq_of_toNat_eq h.sectors
      exact ⟨[], if_pos hstop, List.forall_mem_nil _, rfl⟩
    · have hgo : s.sectorsLeft ≠ 0 := by
        intro hstop
        have hsectors := h.sectors
        rw [hstop] at hsectors
        exact hzero hsectors.symm
      obtain ⟨daps, hdaps, hchunks, hplaced⟩ := ih h.advance (by omega)
      refine ⟨nextDap s :: daps, ?_, ?_, ?_⟩
      · have hok : ¬ noError (nextDap s) = true := Bool.false_ne_true
        rw [loadFrom, if_neg hgo, if_neg hok, hdaps]
        rfl
      · rw [List.forall_mem_cons, nextDap_count h]
        exact ⟨Nat.min_le_right .., hchunks⟩
      · have hsplit : left = min left 64 + (left - min left 64) := by omega
        have hlater : (fun i => kernelPlacement (done + min left 64 + i)) =
            (fun i => kernelPlacement (done + i)) ∘ (min left 64 + ·) := by
          funext i
          exact congrArg kernelPlacement (Nat.add_assoc ..)
        rw [List.flatMap_cons, nextDap_placements h, hplaced, hlater]
        conv_rhs => rw [hsplit, List.range_add, List.map_append, List.map_map]

theorem loadStart_at (h : kernelSectors ≤ 1152) : At (loadStart kernelSectors) 0 kernelSectors := by
  refine ⟨by omega, ?_, rfl, rfl, rfl⟩
  exact (BitVec.toNat_ofNat ..).trans (Nat.mod_eq_of_lt (by omega))

theorem filter_kernelPlacement (hi : i < n) :
    ((List.range n).map kernelPlacement).filter (·.lba = 17 + i) = [kernelPlacement i] := by
  have hlba : (fun p : Placement => decide (p.lba = 17 + i)) ∘ kernelPlacement = (· == i) := by
    funext k
    exact decide_eq_decide.mpr Nat.add_left_cancel_iff
  have hcount : (List.range n).count i = 1 :=
    List.nodup_range.count.trans (if_pos (List.mem_range.mpr hi))
  rw [List.filter_map, hlba, List.filter_beq, hcount]
  rfl

theorem room_of_kernelLoads (h : KernelLoads kernelSectors) : kernelSectors ≤ 1152 := by
  obtain ⟨daps, -, hplaces⟩ := h
  by_contra hlong
  have honce := hplaces.once 1152 (by omega)
  have hmem : kernelPlacement 1152 ∈ daps.flatMap Dap.placements := by
    have hin : kernelPlacement 1152 ∈
        (daps.flatMap Dap.placements).filter (·.lba = 17 + 1152) := by
      rw [honce]
      exact List.mem_singleton_self _
    exact (List.mem_filter.mp hin).1
  exact absurd (hplaces.belowVideo _ hmem) (by decide)

/-- A kernel is loaded exactly when it ends below the video memory. -/
theorem kernelLoads_iff (kernelSectors : Nat) :
    KernelLoads kernelSectors ↔ kernelSectors ≤ 1152 := by
  constructor
  · exact room_of_kernelLoads
  · intro hroom
    obtain ⟨daps, hdaps, hchunks, hplaced⟩ :=
      loadFrom_at (loadStart_at hroom) (Nat.lt_succ_self kernelSectors)
    simp only [Nat.zero_add] at hplaced
    refine ⟨daps, (loadFrom_mono noError _).returns hdaps, ?_, hchunks, ?_⟩
    · intro i hi
      rw [hplaced]
      exact filter_kernelPlacement hi
    · intro p hp
      rw [hplaced] at hp
      obtain ⟨i, hi, rfl⟩ := List.mem_map.mp hp
      have hlt := List.mem_range.mp hi
      change 0x10000 + 512 * i + 512 ≤ 0xA0000
      omega

/-- The last sector of a kernel that is one sector too long goes to the video memory. -/
theorem long_kernel_not_loaded :
    ¬ KernelLoads 1153 ∧
      ((loadKernel noError 1153 20).bind fun r => r.1.getLast?.map (·.placement 0)) =
        some ⟨1169, 0xA0000⟩ :=
  ⟨fun h => absurd (room_of_kernelLoads h) (by decide), by decide +kernel⟩

end EponaOS.Boot
