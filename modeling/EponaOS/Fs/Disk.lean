import EponaOS.Lib.Bytes

/-!
# The drive

`ata.c` as the file system uses it: sectors of 512 bytes, read and written one at a time.
A command carries 28 bits of the sector number. Every error of the driver is found before
the first word is transferred, so a failed access leaves the buffer and the sector alone.
-/

namespace EponaOS.Fs

open Bytes

structure Disk where
  sectors : Nat → Bytes
  /-- What the accesses to come do: `true` is an error. Past the end none fails. -/
  faults : List Bool

def Disk.fails (d : Disk) : Bool := d.faults.headD false

def Disk.tick (d : Disk) : Disk := { d with faults := d.faults.tail }

/-- `ata_read_sectors` with a count of 1: what the buffer is filled with, `none` for -1. -/
def ataReadSectors (d : Disk) (lba : Nat) : Option Bytes × Disk :=
  if d.fails then (none, d.tick) else (some (d.sectors (lba % 2 ^ 28)), d.tick)

/-- `ata_write_sectors` with a count of 1: whether it succeeded. -/
def ataWriteSectors (d : Disk) (lba : Nat) (buf : Bytes) : Bool × Disk :=
  if d.fails then (false, d.tick)
  else (true, { d.tick with sectors := fun n => if n = lba % 2 ^ 28 then buf else d.sectors n })

-- ---------------------------------------------------------------------------
-- A drive without errors
-- ---------------------------------------------------------------------------

def Disk.image (d : Disk) : Bytes := fun a => d.sectors (a / 512) (a % 512)

def NoFaults (d : Disk) : Prop := d.faults = []

variable {d d' : Disk} {lba : Nat} {buf : Bytes}

theorem Disk.image_congr (h : d'.sectors = d.sectors) : d'.image = d.image := by
  unfold image
  rw [h]

theorem NoFaults.tick (h : NoFaults d) : d.tick = d := by
  rcases d with ⟨s, f⟩
  simp only [NoFaults] at h
  subst h
  rfl

theorem NoFaults.fails (h : NoFaults d) : d.fails = false := by
  simp [Disk.fails, show d.faults = [] from h]

theorem ataReadSectors_eq (h : NoFaults d) (hl : lba < 2 ^ 28) :
    ataReadSectors d lba = (some (d.sectors lba), d) := by
  rw [ataReadSectors, h.fails, h.tick, Nat.mod_eq_of_lt hl]
  rfl

theorem sector_image (d : Disk) (lba : Nat) (hi : i < 512) :
    d.sectors lba i = d.image (512 * lba + i) := by
  have h1 : (512 * lba + i) / 512 = lba := by omega
  have h2 : (512 * lba + i) % 512 = i := by omega
  rw [Disk.image, h1, h2]

theorem getLE_sector (d : Disk) (lba : Nat) (h : i + n ≤ 512) :
    getLE (d.sectors lba) i n = getLE d.image (512 * lba + i) n := by
  apply getLE_congr_at
  intro k hk
  rw [sector_image d lba (by omega), Nat.add_assoc]

theorem ataWriteSectors_eq (h : NoFaults d) (hl : lba < 2 ^ 28) (buf : Bytes) :
    ∃ d', ataWriteSectors d lba buf = (true, d') ∧ NoFaults d' ∧
      d'.image = blit d.image (512 * lba) 512 buf 0 := by
  have he : ataWriteSectors d lba buf =
      (true, { d with sectors := fun n => if n = lba then buf else d.sectors n }) := by
    rw [ataWriteSectors, h.fails, h.tick, Nat.mod_eq_of_lt hl]
    rfl
  refine ⟨_, he, h, ?_⟩
  funext a
  by_cases ha : a / 512 = lba
  · have h1 : 512 * lba ≤ a ∧ a < 512 * lba + 512 := by omega
    have h2 : 0 + (a - 512 * lba) = a % 512 := by omega
    rw [blit_in _ _ _ h1, h2]
    simp only [Disk.image, if_pos ha]
  · rw [blit_off _ _ _ (by omega)]
    simp only [Disk.image, if_neg ha]

def Touches (S : Nat → Prop) (d d' : Disk) : Prop := ∀ n, ¬ S n → d'.sectors n = d.sectors n

theorem Touches.refl (S : Nat → Prop) (d : Disk) : Touches S d d := fun _ _ => rfl

theorem Touches.trans {S : Nat → Prop} {d₁ d₂ d₃ : Disk} (h : Touches S d₁ d₂)
    (h' : Touches S d₂ d₃) : Touches S d₁ d₃ := fun n hn => (h' n hn).trans (h n hn)

theorem Touches.mono {S T : Nat → Prop} {d d' : Disk} (h : Touches S d d')
    (hsub : ∀ n, S n → T n) : Touches T d d' := fun n hn => h n fun hs => hn (hsub n hs)

theorem ataWriteSectors_touches (d : Disk) (hl : lba < 2 ^ 28) (buf : Bytes) :
    Touches (· = lba) d (ataWriteSectors d lba buf).2 := by
  intro n hn
  rw [ataWriteSectors, Nat.mod_eq_of_lt hl]
  split
  · rfl
  · exact if_neg hn

theorem blit_sector (d : Disk) (lba : Nat) :
    blit d.image (512 * lba) 512 (d.sectors lba) 0 = d.image := by
  funext a
  by_cases ha : 512 * lba ≤ a ∧ a < 512 * lba + 512
  · rw [blit_in _ _ _ ha, sector_image d lba (by omega)]
    congr 1
    omega
  · rw [blit_off _ _ _ (by omega)]

end EponaOS.Fs
