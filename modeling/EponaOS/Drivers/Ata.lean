import EponaOS.Fs.FatDir
import Mathlib.Logic.Function.Basic

/-!
# The ATA driver

`ata.c` at its ports, against a channel with two drives that follow the protocol of commands
with 28 bits of a sector number. What the status register shows is a stream, one byte for
each time it is read.
-/

namespace EponaOS.Drivers

open Bytes

def ATA_CMD_READ : BitVec 8 := 0x20
def ATA_CMD_WRITE : BitVec 8 := 0x30
def ATA_STATUS_ERR : BitVec 8 := 0x01
def ATA_STATUS_DRQ : BitVec 8 := 0x08
def ATA_STATUS_BSY : BitVec 8 := 0x80

abbrev Words := Nat → BitVec 16

-- ---------------------------------------------------------------------------
-- The drives
-- ---------------------------------------------------------------------------

/-- A command that has words to transfer: the next one is `word` of sector `lba`. -/
structure Transfer where
  write : Bool
  slave : Bool
  lba : Nat
  sectorsLeft : Nat
  word : Nat
  /-- The words of the sector that came so far. -/
  latch : Words

structure Channel where
  /-- By drive, sector and word; `true` is the slave. -/
  sectors : Bool → Nat → Words
  /-- Whether sectors get from the drive's buffer to its medium. -/
  stores : Bool
  statuses : Nat → BitVec 8
  polls : Nat
  count : BitVec 8
  lbaLow : BitVec 8
  lbaMid : BitVec 8
  lbaHigh : BitVec 8
  device : BitVec 8
  transfer : Option Transfer

def Channel.lba28 (c : Channel) : Nat :=
  (c.device &&& 0x0F).toNat * 2 ^ 24 + c.lbaHigh.toNat * 2 ^ 16 + c.lbaMid.toNat * 2 ^ 8 +
    c.lbaLow.toNat

def Channel.command (c : Channel) (cmd : BitVec 8) : Channel :=
  if cmd = ATA_CMD_READ ∨ cmd = ATA_CMD_WRITE then
    { c with
      transfer := some
        { write := cmd = ATA_CMD_WRITE
          slave := c.device.getLsbD 4
          lba := c.lba28
          sectorsLeft := if c.count = 0 then 256 else c.count.toNat
          word := 0
          latch := fun _ => 0 } }
  else c

def Channel.polled (c : Channel) (p : Nat) : Channel := { c with polls := p }

/-- `outb` to a register of the channel. -/
def Channel.outb (c : Channel) (reg : Nat) (val : BitVec 8) : Channel :=
  match reg with
  | 2 => { c with count := val }
  | 3 => { c with lbaLow := val }
  | 4 => { c with lbaMid := val }
  | 5 => { c with lbaHigh := val }
  | 6 => { c with device := val }
  | 7 => c.command val
  | _ => c

def Channel.transferring (c : Channel) (t : Option Transfer) : Channel := { c with transfer := t }

def Transfer.next (t : Transfer) : Option Transfer :=
  if t.word + 1 < 256 then some { t with word := t.word + 1 }
  else if 1 < t.sectorsLeft then
    some { t with lba := t.lba + 1, sectorsLeft := t.sectorsLeft - 1, word := 0 }
  else none

def Channel.inw (c : Channel) : BitVec 16 × Channel :=
  match c.transfer with
  | none => (0xFFFF, c)
  | some t =>
    if t.write then (0xFFFF, c)
    else (c.sectors t.slave t.lba t.word, c.transferring t.next)

def Transfer.took (t : Transfer) (val : BitVec 16) : Transfer :=
  { t with latch := Function.update t.latch t.word val }

def overlay (a b : Words) (k : Nat) : Words := fun i => if i < k then b i else a i

def setSector (sectors : Bool → Nat → Words) (slave : Bool) (lba : Nat) (data : Words) :
    Bool → Nat → Words :=
  fun s n => if s = slave ∧ n = lba then overlay (sectors slave lba) data 256 else sectors s n

def Channel.keep (c : Channel) (t : Transfer) : Channel :=
  { c with
    sectors :=
      if t.word + 1 = 256 ∧ c.stores then setSector c.sectors t.slave t.lba t.latch
      else c.sectors }

def Channel.outw (c : Channel) (val : BitVec 16) : Channel :=
  match c.transfer with
  | none => c
  | some t =>
    if t.write then (c.keep (t.took val)).transferring (t.took val).next
    else c

-- ---------------------------------------------------------------------------
-- The driver
-- ---------------------------------------------------------------------------

section

variable (statuses : Nat → BitVec 8)

def waitBusyLoop : Nat → Nat → Int × Nat
  | 0, p => (-1, p)
  | n + 1, p =>
    if statuses p &&& ATA_STATUS_BSY = 0 then (0, p + 1) else waitBusyLoop n (p + 1)

def waitDrqLoop : Nat → Nat → Int × Nat
  | 0, p => (-1, p)
  | n + 1, p =>
    if statuses p &&& ATA_STATUS_ERR ≠ 0 then (-1, p + 1)
    else if statuses p &&& ATA_STATUS_DRQ ≠ 0 then (0, p + 1)
    else waitDrqLoop n (p + 1)

def ataWaitBusy (p : Nat) : Int × Nat := waitBusyLoop statuses 100000 p

def ataWaitDrq (p : Nat) : Int × Nat := waitDrqLoop statuses 100000 p

def waitSector (p : Nat) : Int × Nat :=
  let r := ataWaitBusy statuses p
  if r.1 < 0 then (-1, r.2)
  else if statuses r.2 &&& ATA_STATUS_ERR ≠ 0 then (-1, r.2 + 1)
  else
    let r := ataWaitDrq statuses (r.2 + 1)
    if r.1 < 0 then (-1, r.2) else (0, r.2)

end

def sendCommand (c : Channel) (master : Bool) (lba : BitVec 32) (count cmd : BitVec 8) : Channel :=
  let device := (if master then (0xE0 : BitVec 8) else 0xF0) ||| ((lba >>> 24).setWidth 8 &&& 0x0F)
  let c := c.outb 6 device
  let c := c.outb 2 count
  let c := c.outb 3 (lba.setWidth 8)
  let c := c.outb 4 ((lba >>> 8).setWidth 8)
  let c := c.outb 5 ((lba >>> 16).setWidth 8)
  c.outb 7 cmd

def readWord (s : Nat) (r : Words × Channel) (i : Nat) : Words × Channel :=
  let w := r.2.inw
  (Function.update r.1 (s * 256 + i) w.1, w.2)

def readLoop : Nat → Nat → Words → Channel → Int × Words × Channel
  | 0, _, buf, c => (0, buf, c)
  | n + 1, s, buf, c =>
    let r := waitSector c.statuses c.polls
    let c := c.polled r.2
    if r.1 < 0 then (-1, buf, c)
    else
      let r := (List.range 256).foldl (readWord s) (buf, c)
      readLoop n (s + 1) r.1 r.2

def readSectors (c : Channel) (master : Bool) (lba : BitVec 32) (count : BitVec 8)
    (buf : Words) : Int × Words × Channel :=
  let r := ataWaitBusy c.statuses c.polls
  let c := c.polled r.2
  if r.1 < 0 then (-1, buf, c)
  else readLoop count.toNat 0 buf (sendCommand c master lba count ATA_CMD_READ)

/-- The sectors from `s` on; behind each one the status is read once more and dropped. -/
def writeLoop : Nat → Nat → Words → Channel → Int × Channel
  | 0, _, _, c => (0, c)
  | n + 1, s, buf, c =>
    let r := waitSector c.statuses c.polls
    let c := c.polled r.2
    if r.1 < 0 then (-1, c)
    else
      let c := (List.range 256).foldl (fun c i => c.outw (buf (s * 256 + i))) c
      writeLoop n (s + 1) buf (c.polled (c.polls + 1))

def writeSectors (c : Channel) (master : Bool) (lba : BitVec 32) (count : BitVec 8)
    (buf : Words) : Int × Channel :=
  let r := ataWaitBusy c.statuses c.polls
  let c := c.polled r.2
  if r.1 < 0 then (-1, c)
  else writeLoop count.toNat 0 buf (sendCommand c master lba count ATA_CMD_WRITE)

/-- The two channels; `true` is the one at 0x1F0. -/
abbrev Channels := Bool → Channel

def ataReadSectors (ata : Channels) (bus master : Int) (lba : BitVec 32) (count : BitVec 8)
    (buf : Words) : Int × Words × Channels :=
  let r := readSectors (ata (bus = 0)) (master ≠ 0) lba count buf
  (r.1, r.2.1, Function.update ata (bus = 0) r.2.2)

def ataWriteSectors (ata : Channels) (bus master : Int) (lba : BitVec 32) (count : BitVec 8)
    (buf : Words) : Int × Channels :=
  let r := writeSectors (ata (bus = 0)) (master ≠ 0) lba count buf
  (r.1, Function.update ata (bus = 0) r.2)

-- ---------------------------------------------------------------------------
-- The command
-- ---------------------------------------------------------------------------

variable {c : Channel} {statuses : Nat → BitVec 8}

def oneSector (write master : Bool) (lba : BitVec 32) : Transfer where
  write := write
  slave := !master
  lba := lba.toNat % 2 ^ 28
  sectorsLeft := 1
  word := 0
  latch := fun _ => 0

theorem device_slave (master : Bool) (top : BitVec 8) :
    ((if master then (0xE0 : BitVec 8) else 0xF0) ||| (top &&& 0x0F)).getLsbD 4 = !master := by
  revert master top
  decide

theorem device_top (master : Bool) (top : BitVec 8) :
    (((if master then (0xE0 : BitVec 8) else 0xF0) ||| (top &&& 0x0F)) &&& 0x0F).toNat =
      top.toNat % 16 := by
  revert master top
  decide

theorem registers_lba (lba : BitVec 32) :
    ((lba >>> 24).setWidth 8).toNat % 16 * 2 ^ 24 + ((lba >>> 16).setWidth 8).toNat * 2 ^ 16 +
      ((lba >>> 8).setWidth 8).toNat * 2 ^ 8 + (lba.setWidth 8).toNat = lba.toNat % 2 ^ 28 := by
  simp only [BitVec.toNat_setWidth, BitVec.toNat_ushiftRight, Nat.shiftRight_eq_div_pow]
  omega

def registers (c : Channel) (master : Bool) (lba : BitVec 32) : Channel :=
  { c with
    count := 1
    lbaLow := lba.setWidth 8
    lbaMid := (lba >>> 8).setWidth 8
    lbaHigh := (lba >>> 16).setWidth 8
    device := (if master then (0xE0 : BitVec 8) else 0xF0) ||| ((lba >>> 24).setWidth 8 &&& 0x0F) }

theorem lba28_registers (c : Channel) (master : Bool) (lba : BitVec 32) :
    (registers c master lba).lba28 = lba.toNat % 2 ^ 28 := by
  rw [← registers_lba, Channel.lba28, ← device_top master]
  rfl

theorem sendCommand_eq (c : Channel) (master : Bool) (lba : BitVec 32) (write : Bool) :
    sendCommand c master lba 1 (if write then ATA_CMD_WRITE else ATA_CMD_READ) =
      (registers c master lba).transferring (some (oneSector write master lba)) := by
  generalize hcmd : (if write then ATA_CMD_WRITE else ATA_CMD_READ) = cmd
  have heither : cmd = ATA_CMD_READ ∨ cmd = ATA_CMD_WRITE := by
    cases write
    · exact .inl hcmd.symm
    · exact .inr hcmd.symm
  have hwrite : decide (cmd = ATA_CMD_WRITE) = write := by
    subst hcmd
    cases write <;> rfl
  have hslave : (registers c master lba).device.getLsbD 4 = !master :=
    device_slave master ((lba >>> 24).setWidth 8)
  have hsend : sendCommand c master lba 1 cmd = (registers c master lba).command cmd := rfl
  rw [hsend, Channel.command, if_pos heither, hwrite, hslave, lba28_registers]
  rfl

-- ---------------------------------------------------------------------------
-- The words of a sector
-- ---------------------------------------------------------------------------

theorem overlay_zero (a b : Words) : overlay a b 0 = a := funext fun _ => if_neg (Nat.not_lt_zero _)

theorem update_overlay (a b : Words) (k : Nat) :
    Function.update (overlay a b k) k (b k) = overlay a b (k + 1) := by
  funext i
  by_cases hi : i = k
  · subst hi
    rw [Function.update_self, overlay, if_pos (Nat.lt_succ_self i)]
  · rw [Function.update_of_ne hi, overlay, overlay]
    have hlt : i < k + 1 ↔ i < k := by omega
    rw [if_congr hlt rfl rfl]

theorem overlay_overlay (a b d : Words) (k : Nat) :
    overlay a (overlay d b k) k = overlay a b k := by
  funext i
  by_cases hi : i < k
  · simp only [overlay, if_pos hi]
  · simp only [overlay, if_neg hi]

def Transfer.at (t : Transfer) (k : Nat) (latch : Words) : Transfer :=
  { t with word := k, latch := latch }

section

variable {t : Transfer} (hone : t.sectorsLeft = 1)

include hone

theorem next_at (k : Nat) (latch : Words) :
    (t.at k latch).next = if k + 1 < 256 then some (t.at (k + 1) latch) else none := by
  have hlast : ¬ 1 < (t.at k latch).sectorsLeft := by
    change ¬ 1 < t.sectorsLeft
    omega
  rw [Transfer.next, if_neg hlast]
  rfl

theorem inw_at (c : Channel) (ht : t.write = false) (k : Nat) (latch : Words) :
    (c.transferring (some (t.at k latch))).inw =
      (c.sectors t.slave t.lba k,
        c.transferring (if k + 1 < 256 then some (t.at (k + 1) latch) else none)) := by
  have hread : ¬ (t.at k latch).write = true := by
    change ¬ t.write = true
    rw [ht]
    exact Bool.false_ne_true
  rw [← next_at hone]
  exact if_neg hread

theorem readWords_eq (c : Channel) (buf : Words) (ht : t.write = false) (hk : k < 256) :
    (List.range k).foldl (readWord 0) (buf, c.transferring (some (t.at 0 t.latch))) =
      (overlay buf (c.sectors t.slave t.lba) k, c.transferring (some (t.at k t.latch))) := by
  induction k with
  | zero => rw [overlay_zero, List.range_zero, List.foldl_nil]
  | succ k ih =>
    rw [List.range_succ, List.foldl_append, ih (by omega), List.foldl_cons, List.foldl_nil,
      readWord, inw_at hone c ht, if_pos hk, Nat.zero_mul, Nat.zero_add, update_overlay]

theorem readSector_eq (c : Channel) (buf : Words) (ht : t.write = false) :
    (List.range 256).foldl (readWord 0) (buf, c.transferring (some (t.at 0 t.latch))) =
      (overlay buf (c.sectors t.slave t.lba) 256, c.transferring none) := by
  rw [List.range_succ, List.foldl_append, readWords_eq hone c buf ht (by decide), List.foldl_cons,
    List.foldl_nil, readWord, inw_at hone c ht, if_neg (by decide), Nat.zero_mul, Nat.zero_add,
    update_overlay]

theorem outw_at (c : Channel) (ht : t.write = true) (k : Nat) (latch : Words) (val : BitVec 16) :
    (c.transferring (some (t.at k latch))).outw val =
      (c.keep (t.at k (Function.update latch k val))).transferring
        (if k + 1 < 256 then some (t.at (k + 1) (Function.update latch k val)) else none) := by
  rw [← next_at hone]
  exact if_pos ht

theorem writeWords_eq (c : Channel) (buf : Words) (ht : t.write = true) (hk : k < 256) :
    (List.range k).foldl (fun c i => c.outw (buf (0 * 256 + i)))
        (c.transferring (some (t.at 0 t.latch))) =
      c.transferring (some (t.at k (overlay t.latch buf k))) := by
  induction k with
  | zero => rw [overlay_zero, List.range_zero, List.foldl_nil]
  | succ k ih =>
    have hmore : ¬ (k + 1 = 256 ∧ c.stores = true) := by omega
    have hkeep (latch : Words) : c.keep (t.at k latch) = c := by
      rw [Channel.keep]
      exact congrArg (fun sectors => { c with sectors := sectors }) (if_neg hmore)
    rw [List.range_succ, List.foldl_append, ih (by omega), List.foldl_cons, List.foldl_nil,
      Nat.zero_mul, Nat.zero_add, outw_at hone c ht, if_pos hk, hkeep, update_overlay]

theorem writeSector_eq (c : Channel) (buf : Words) (ht : t.write = true) :
    (List.range 256).foldl (fun c i => c.outw (buf (0 * 256 + i)))
        (c.transferring (some (t.at 0 t.latch))) =
      (c.keep (t.at 255 (overlay t.latch buf 256))).transferring none := by
  rw [List.range_succ, List.foldl_append, writeWords_eq hone c buf ht (by decide), List.foldl_cons,
    List.foldl_nil, Nat.zero_mul, Nat.zero_add, outw_at hone c ht, if_neg (by decide),
    update_overlay]

end

-- ---------------------------------------------------------------------------
-- One sector
-- ---------------------------------------------------------------------------

theorem readLoop_one (c : Channel) (buf : Words) :
    readLoop 1 0 buf c =
      let r := waitSector c.statuses c.polls
      if r.1 < 0 then (-1, buf, c.polled r.2)
      else (0, (List.range 256).foldl (readWord 0) (buf, c.polled r.2)) := by
  rw [readLoop]
  dsimp only
  split
  · rfl
  · rw [readLoop]

theorem writeLoop_one (c : Channel) (buf : Words) :
    writeLoop 1 0 buf c =
      let r := waitSector c.statuses c.polls
      let c' := (List.range 256).foldl (fun c i => c.outw (buf (0 * 256 + i))) (c.polled r.2)
      if r.1 < 0 then (-1, c.polled r.2) else (0, c'.polled (c'.polls + 1)) := by
  rw [writeLoop]
  dsimp only
  split
  · rfl
  · rw [writeLoop]

def commanded (c : Channel) (write master : Bool) (lba : BitVec 32) : Channel :=
  (registers c master lba).transferring (some (oneSector write master lba))

theorem commanded_polled (c : Channel) (write master : Bool) (lba : BitVec 32) (p : Nat) :
    (commanded c write master lba).polled p =
      ((registers c master lba).polled p).transferring
        (some ((oneSector write master lba).at 0 (oneSector write master lba).latch)) := rfl

theorem sendCommand_read (c : Channel) (master : Bool) (lba : BitVec 32) :
    sendCommand c master lba 1 ATA_CMD_READ = commanded c false master lba :=
  sendCommand_eq c master lba false

theorem sendCommand_write (c : Channel) (master : Bool) (lba : BitVec 32) :
    sendCommand c master lba 1 ATA_CMD_WRITE = commanded c true master lba :=
  sendCommand_eq c master lba true

/-- The drive gets ready for the command, and then for the sector. -/
def Ready (statuses : Nat → BitVec 8) (p : Nat) : Prop :=
  0 ≤ (ataWaitBusy statuses p).1 ∧ 0 ≤ (waitSector statuses (ataWaitBusy statuses p).2).1

theorem one_toNat : (1 : BitVec 8).toNat = 1 := rfl

theorem readSectors_ready (h : Ready c.statuses c.polls) (master : Bool) (lba : BitVec 32)
    (buf : Words) :
    ∃ c', readSectors c master lba 1 buf =
        (0, overlay buf (c.sectors (!master) (lba.toNat % 2 ^ 28)) 256, c') ∧
      c'.sectors = c.sectors := by
  obtain ⟨hbusy, hsector⟩ := h
  rw [readSectors]
  rw [if_neg (Int.not_lt.mpr hbusy), sendCommand_read, one_toNat, readLoop_one]
  generalize (ataWaitBusy c.statuses c.polls).2 = p at hsector
  have hwait : waitSector (commanded (c.polled p) false master lba).statuses
      (commanded (c.polled p) false master lba).polls = waitSector c.statuses p := rfl
  dsimp only
  rw [hwait, if_neg (Int.not_lt.mpr hsector), commanded_polled, readSector_eq rfl _ buf rfl]
  exact ⟨_, rfl, rfl⟩

theorem readSectors_fails (h : ¬ Ready c.statuses c.polls) (master : Bool) (lba : BitVec 32)
    (buf : Words) :
    ∃ c', readSectors c master lba 1 buf = (-1, buf, c') ∧ c'.sectors = c.sectors := by
  rw [Ready, not_and_or, Int.not_le, Int.not_le] at h
  rw [readSectors]
  by_cases hbusy : (ataWaitBusy c.statuses c.polls).1 < 0
  · rw [if_pos hbusy]
    exact ⟨_, rfl, rfl⟩
  · have hsector := h.resolve_left hbusy
    rw [if_neg hbusy, sendCommand_read, one_toNat, readLoop_one]
    generalize (ataWaitBusy c.statuses c.polls).2 = p at hsector
    have hwait : waitSector (commanded (c.polled p) false master lba).statuses
        (commanded (c.polled p) false master lba).polls = waitSector c.statuses p := rfl
    dsimp only
    rw [hwait, if_pos hsector]
    exact ⟨_, rfl, rfl⟩

theorem writeSectors_ready (h : Ready c.statuses c.polls) (master : Bool) (lba : BitVec 32)
    (buf : Words) :
    ∃ c', writeSectors c master lba 1 buf = (0, c') ∧
      c'.sectors =
        if c.stores then setSector c.sectors (!master) (lba.toNat % 2 ^ 28) buf
        else c.sectors := by
  obtain ⟨hbusy, hsector⟩ := h
  rw [writeSectors]
  rw [if_neg (Int.not_lt.mpr hbusy), sendCommand_write, one_toNat, writeLoop_one]
  generalize (ataWaitBusy c.statuses c.polls).2 = p at hsector
  have hwait : waitSector (commanded (c.polled p) true master lba).statuses
      (commanded (c.polled p) true master lba).polls = waitSector c.statuses p := rfl
  dsimp only
  rw [hwait, if_neg (Int.not_lt.mpr hsector), commanded_polled, writeSector_eq rfl _ buf rfl]
  refine ⟨_, rfl, ?_⟩
  change (if 255 + 1 = 256 ∧ c.stores = true then
    setSector c.sectors (!master) (lba.toNat % 2 ^ 28) (overlay _ buf 256) else c.sectors) = _
  have hdata (old : Words) : setSector c.sectors (!master) (lba.toNat % 2 ^ 28)
      (overlay old buf 256) = setSector c.sectors (!master) (lba.toNat % 2 ^ 28) buf := by
    unfold setSector
    rw [overlay_overlay]
  rw [hdata]
  exact if_congr (and_iff_right rfl) rfl rfl

theorem writeSectors_fails (h : ¬ Ready c.statuses c.polls) (master : Bool) (lba : BitVec 32)
    (buf : Words) :
    ∃ c', writeSectors c master lba 1 buf = (-1, c') ∧ c'.sectors = c.sectors := by
  rw [Ready, not_and_or, Int.not_le, Int.not_le] at h
  rw [writeSectors]
  by_cases hbusy : (ataWaitBusy c.statuses c.polls).1 < 0
  · rw [if_pos hbusy]
    exact ⟨_, rfl, rfl⟩
  · have hsector := h.resolve_left hbusy
    rw [if_neg hbusy, sendCommand_write, one_toNat, writeLoop_one]
    generalize (ataWaitBusy c.statuses c.polls).2 = p at hsector
    have hwait : waitSector (commanded (c.polled p) true master lba).statuses
        (commanded (c.polled p) true master lba).polls = waitSector c.statuses p := rfl
    dsimp only
    rw [hwait, if_pos hsector]
    exact ⟨_, rfl, rfl⟩

-- ---------------------------------------------------------------------------
-- Which accesses hit their sector
-- ---------------------------------------------------------------------------

/-- A call that returns 0 has read the 256 words of the sector, and the drives are unchanged. -/
structure ReadHits (ata : Channels) (bus master : Int) (lba : BitVec 32) (buf : Words) : Prop where
  hits : (ataReadSectors ata bus master lba 1 buf).1 = 0 →
    (ataReadSectors ata bus master lba 1 buf).2.1 =
        overlay buf ((ata (bus = 0)).sectors (master = 0) lba.toNat) 256 ∧
      ∀ b, ((ataReadSectors ata bus master lba 1 buf).2.2 b).sectors = (ata b).sectors
  rejects : 2 ^ 28 ≤ lba.toNat → (ataReadSectors ata bus master lba 1 buf).1 = -1

/-- A call that returns 0 has written the 256 words of the sector, and nothing else. -/
structure WriteHits (ata : Channels) (bus master : Int) (lba : BitVec 32) (buf : Words) :
    Prop where
  hits : (ataWriteSectors ata bus master lba 1 buf).1 = 0 →
    ∀ b, ((ataWriteSectors ata bus master lba 1 buf).2 b).sectors =
      if b = decide (bus = 0) then setSector (ata b).sectors (master = 0) lba.toNat buf
      else (ata b).sectors
  rejects : 2 ^ 28 ≤ lba.toNat → (ataWriteSectors ata bus master lba 1 buf).1 = -1

variable {ata : Channels} {bus master : Int} {lba : BitVec 32} {buf : Words}

theorem slave_eq (master : Int) : (!decide (master ≠ 0)) = decide (master = 0) := by
  rw [decide_not, Bool.not_not]

theorem readHits_iff : ReadHits ata bus master lba buf ↔
    lba.toNat < 2 ^ 28 ∨ ¬ Ready (ata (bus = 0)).statuses (ata (bus = 0)).polls := by
  by_cases hready : Ready (ata (bus = 0)).statuses (ata (bus = 0)).polls
  · obtain ⟨c', hcall, hsectors⟩ :=
      readSectors_ready hready (decide (master ≠ 0)) lba buf
    have hata : ataReadSectors ata bus master lba 1 buf =
        (0, overlay buf ((ata (bus = 0)).sectors (master = 0) (lba.toNat % 2 ^ 28)) 256,
          Function.update ata (bus = 0) c') := by
      rw [ataReadSectors, hcall, slave_eq]
    constructor
    · intro h
      by_contra hnot
      have hlong := h.rejects (by omega)
      rw [hata] at hlong
      cases hlong
    · intro h
      have hlba := h.resolve_right (not_not.mpr hready)
      rw [Nat.mod_eq_of_lt hlba] at hata
      refine ⟨fun _ => ?_, fun hlong => absurd hlba (Nat.not_lt.mpr hlong)⟩
      rw [hata]
      refine ⟨rfl, fun b => ?_⟩
      by_cases hb : b = decide (bus = 0)
      · subst hb
        exact (congrArg Channel.sectors (Function.update_self ..)).trans hsectors
      · exact congrArg Channel.sectors (Function.update_of_ne hb ..)
  · obtain ⟨c', hcall, -⟩ := readSectors_fails hready (decide (master ≠ 0)) lba buf
    have hata : (ataReadSectors ata bus master lba 1 buf).1 = -1 := by
      rw [ataReadSectors, hcall]
    refine ⟨fun _ => .inr hready, fun _ => ⟨fun hzero => ?_, fun _ => hata⟩⟩
    rw [hata] at hzero
    cases hzero

theorem setSector_eq_self_iff {sectors : Bool → Nat → Words} {slave : Bool} {n : Nat} :
    setSector sectors slave n buf = sectors ↔ ∀ i < 256, sectors slave n i = buf i := by
  constructor
  · intro h i hi
    rw [← h, setSector, if_pos ⟨rfl, rfl⟩]
    exact if_pos hi
  · intro h
    funext s m i
    rw [setSector]
    split
    · rename_i hsame
      obtain ⟨rfl, rfl⟩ := hsame
      rw [overlay]
      split
      · rename_i hi
        exact (h i hi).symm
      · rfl
    · rfl

theorem writeHits_iff : WriteHits ata bus master lba buf ↔
    lba.toNat < 2 ^ 28 ∧ ((ata (bus = 0)).stores ∨
        ∀ i < 256, (ata (bus = 0)).sectors (master = 0) lba.toNat i = buf i) ∨
      ¬ Ready (ata (bus = 0)).statuses (ata (bus = 0)).polls := by
  by_cases hready : Ready (ata (bus = 0)).statuses (ata (bus = 0)).polls
  · obtain ⟨c', hcall, hsectors⟩ := writeSectors_ready hready (decide (master ≠ 0)) lba buf
    rw [slave_eq] at hsectors
    have hata : ataWriteSectors ata bus master lba 1 buf =
        (0, Function.update ata (bus = 0) c') := by
      rw [ataWriteSectors, hcall]
    constructor
    · intro h
      have hlba : lba.toNat < 2 ^ 28 := by
        by_contra hnot
        have hlong := h.rejects (by omega)
        rw [hata] at hlong
        cases hlong
      refine .inl ⟨hlba, ?_⟩
      have hwritten := h.hits (by rw [hata]) (decide (bus = 0))
      rw [hata, if_pos rfl] at hwritten
      have hself : c'.sectors = setSector (ata (bus = 0)).sectors (master = 0) lba.toNat buf := by
        rw [← hwritten]
        exact (congrArg Channel.sectors (Function.update_self ..)).symm
      rw [hsectors, Nat.mod_eq_of_lt hlba] at hself
      by_cases hstores : (ata (bus = 0)).stores = true
      · exact .inl hstores
      · rw [if_neg hstores] at hself
        exact .inr (setSector_eq_self_iff.mp hself.symm)
    · intro h
      obtain ⟨hlba, hstored⟩ := h.resolve_right (not_not.mpr hready)
      refine ⟨fun _ b => ?_, fun hlong => absurd hlba (Nat.not_lt.mpr hlong)⟩
      rw [hata]
      by_cases hb : b = decide (bus = 0)
      · subst hb
        rw [if_pos rfl]
        refine (congrArg Channel.sectors (Function.update_self ..)).trans (hsectors.trans ?_)
        rw [Nat.mod_eq_of_lt hlba]
        by_cases hstores : (ata (bus = 0)).stores = true
        · rw [if_pos hstores]
        · rw [if_neg hstores]
          exact (setSector_eq_self_iff.mpr (hstored.resolve_left hstores)).symm
      · rw [if_neg hb]
        exact congrArg Channel.sectors (Function.update_of_ne hb ..)
  · obtain ⟨c', hcall, -⟩ := writeSectors_fails hready (decide (master ≠ 0)) lba buf
    have hata : (ataWriteSectors ata bus master lba 1 buf).1 = -1 := by
      rw [ataWriteSectors, hcall]
    refine ⟨fun _ => .inr hready, fun _ => ⟨fun hzero => ?_, fun _ => hata⟩⟩
    rw [hata] at hzero
    cases hzero

/-- An access is right when the command can express the sector, and what it writes gets to the
medium; or when the drive does not get ready. -/
theorem accesses_hit_iff (ata : Channels) (bus master : Int) (lba : BitVec 32) (buf : Words) :
    (ReadHits ata bus master lba buf ↔
      lba.toNat < 2 ^ 28 ∨ ¬ Ready (ata (bus = 0)).statuses (ata (bus = 0)).polls) ∧
    (WriteHits ata bus master lba buf ↔
      lba.toNat < 2 ^ 28 ∧ ((ata (bus = 0)).stores ∨
          ∀ i < 256, (ata (bus = 0)).sectors (master = 0) lba.toNat i = buf i) ∨
        ¬ Ready (ata (bus = 0)).statuses (ata (bus = 0)).polls) :=
  ⟨readHits_iff, writeHits_iff⟩

-- ---------------------------------------------------------------------------
-- A volume that does not fit in 28 bits
-- ---------------------------------------------------------------------------

/-- Two copies of a table of `2 ^ 27` sectors, behind the boot sector. -/
def deepBoot : Bytes :=
  let buf := putLE (putLE (putLE (fun _ => 0) 11 2 512) 13 1 1) 14 2 1
  let buf := putLE (putLE (putLE buf 16 1 2) 32 4 (2 ^ 29)) 36 4 (2 ^ 27)
  putLE (putLE buf 44 4 2) 66 1 0x29

def deepDisk : Fs.Disk where
  sectors _ := deepBoot
  faults := []

def readyChannels : Channels := fun _ =>
  { sectors := fun _ _ _ => 1
    stores := true
    statuses := fun _ => 0x58
    polls := 0
    count := 0
    lbaLow := 0
    lbaMid := 0
    lbaHigh := 0
    device := 0
    transfer := none }

theorem always_ready (p : Nat) : Ready (fun _ => 0x58) p := by
  have hloop (n q : Nat) : waitBusyLoop (fun _ => 0x58) (n + 1) q = (0, q + 1) := by
    rw [waitBusyLoop]
    rfl
  have hdrqLoop (n q : Nat) : waitDrqLoop (fun _ => 0x58) (n + 1) q = (0, q + 1) := by
    rw [waitDrqLoop]
    rfl
  have hbusy (q : Nat) : ataWaitBusy (fun _ => 0x58) q = (0, q + 1) := hloop 99999 q
  have hdrq (q : Nat) : ataWaitDrq (fun _ => 0x58) q = (0, q + 1) := hdrqLoop 99999 q
  have hsector (q : Nat) : waitSector (fun _ => 0x58) q = (0, q + 3) := by
    rw [waitSector, hbusy, hdrq]
    rfl
  rw [Ready, hbusy, hsector]
  exact ⟨Int.le_refl 0, Int.le_refl 0⟩

theorem deep_accepted : Fs.Accepted (Fs.readBpb deepBoot) :=
  ⟨by decide +kernel, .inl (by decide +kernel), by decide +kernel⟩

def deepFp : Fs.FatPrivate := Fs.fatPrivateOf (Fs.readBpb (deepDisk.sectors 0))

/-- The first cluster of a volume that is mounted: reading it reads the table. -/
theorem deep_cluster_missed :
    (Fs.fatMount [] deepDisk).1 = some (deepFp, Fs.rootTree (Fs.readBpb (deepDisk.sectors 0))) ∧
    ¬ ReadHits readyChannels 0 1 (BitVec.ofNat 32 (Fs.fatClusterToLba deepFp 2)) (fun _ => 0) ∧
    ¬ WriteHits readyChannels 0 1 (BitVec.ofNat 32 (Fs.fatClusterToLba deepFp 2)) (fun _ => 0) := by
  have hlba : (BitVec.ofNat 32 (Fs.fatClusterToLba deepFp 2)).toNat = 2 ^ 28 + 1 := by
    decide +kernel
  have hready : Ready (readyChannels (decide ((0 : Int) = 0))).statuses
      (readyChannels (decide ((0 : Int) = 0))).polls := always_ready 0
  refine ⟨Fs.fatMount_accepts rfl deep_accepted, fun h => ?_, fun h => ?_⟩
  · have hlt := (readHits_iff.mp h).resolve_right (not_not.mpr hready)
    rw [hlba] at hlt
    exact absurd hlt (by decide)
  · have hlt := ((writeHits_iff.mp h).resolve_right (not_not.mpr hready)).1
    rw [hlba] at hlt
    exact absurd hlt (by decide)

-- ---------------------------------------------------------------------------
-- The drive of the file system
-- ---------------------------------------------------------------------------

def wordBytes (w : Words) : Bytes :=
  fun k => UInt8.ofBitVec ((w (k / 2)).extractLsb' (8 * (k % 2)) 8)

instance (statuses : Nat → BitVec 8) (p : Nat) : Decidable (Ready statuses p) :=
  inferInstanceAs (Decidable (_ ∧ _))

def Channel.disk (c : Channel) (slave : Bool) : Fs.Disk where
  sectors n := wordBytes (c.sectors slave n)
  faults := if Ready c.statuses c.polls then [] else [true]

theorem disk_ok (h : Ready c.statuses c.polls) (slave : Bool) : (c.disk slave).fails = false := by
  rw [Fs.Disk.fails, Channel.disk, if_pos h]
  rfl

theorem disk_faulty (h : ¬ Ready c.statuses c.polls) (slave : Bool) :
    (c.disk slave).fails = true := by
  rw [Fs.Disk.fails, Channel.disk, if_neg h]
  rfl

theorem wordBytes_overlay (a b : Words) (hk : k < 512) :
    wordBytes (overlay a b 256) k = wordBytes b k := by
  have hword : overlay a b 256 (k / 2) = b (k / 2) := if_pos (by omega)
  rw [wordBytes, wordBytes, hword]

theorem disk_read (ata : Channels) (bus master : Int) (lba : BitVec 32) (buf : Words) :
    let r := ataReadSectors ata bus master lba 1 buf
    match (Fs.ataReadSectors ((ata (bus = 0)).disk (master = 0)) lba.toNat).1 with
    | none => r.1 = -1 ∧ r.2.1 = buf
    | some data => r.1 = 0 ∧ ∀ k < 512, wordBytes r.2.1 k = data k := by
  by_cases hready : Ready (ata (bus = 0)).statuses (ata (bus = 0)).polls
  · obtain ⟨c', hcall, -⟩ := readSectors_ready hready (decide (master ≠ 0)) lba buf
    have hdisk : (Fs.ataReadSectors ((ata (bus = 0)).disk (master = 0)) lba.toNat).1 =
        some (wordBytes ((ata (bus = 0)).sectors (master = 0) (lba.toNat % 2 ^ 28))) := by
      rw [Fs.ataReadSectors, disk_ok hready, if_neg Bool.false_ne_true]
      rfl
    rw [ataReadSectors, hcall, slave_eq, hdisk]
    exact ⟨rfl, fun k hk => wordBytes_overlay _ _ hk⟩
  · obtain ⟨c', hcall, -⟩ := readSectors_fails hready (decide (master ≠ 0)) lba buf
    have hdisk : (Fs.ataReadSectors ((ata (bus = 0)).disk (master = 0)) lba.toNat).1 = none := by
      rw [Fs.ataReadSectors, disk_faulty hready, if_pos rfl]
    rw [ataReadSectors, hcall, hdisk]
    exact ⟨rfl, rfl⟩

theorem disk_write (ata : Channels) (bus master : Int) (lba : BitVec 32) (buf : Words)
    (hstores : (ata (bus = 0)).stores) :
    let r := ataWriteSectors ata bus master lba 1 buf
    let w := Fs.ataWriteSectors ((ata (bus = 0)).disk (master = 0)) lba.toNat (wordBytes buf)
    (w.1 ↔ r.1 = 0) ∧ ∀ n, ∀ k < 512,
      w.2.sectors n k = wordBytes ((r.2 (bus = 0)).sectors (master = 0) n) k := by
  by_cases hready : Ready (ata (bus = 0)).statuses (ata (bus = 0)).polls
  · obtain ⟨c', hcall, hsectors⟩ := writeSectors_ready hready (decide (master ≠ 0)) lba buf
    let drive := (ata (bus = 0)).disk (master = 0)
    have hok : (Fs.ataWriteSectors drive lba.toNat (wordBytes buf)).1 = true := by
      rw [Fs.ataWriteSectors, disk_ok hready, if_neg Bool.false_ne_true]
    have hdisk (n : Nat) : (Fs.ataWriteSectors drive lba.toNat (wordBytes buf)).2.sectors n =
        if n = lba.toNat % 2 ^ 28 then (wordBytes buf) else drive.sectors n := by
      rw [Fs.ataWriteSectors, disk_ok hready, if_neg Bool.false_ne_true]
    rw [if_pos hstores, slave_eq] at hsectors
    rw [ataWriteSectors, hcall]
    refine ⟨iff_of_true hok rfl, fun n k hk => ?_⟩
    dsimp only
    rw [Function.update_self, hsectors, hdisk]
    by_cases hn : n = lba.toNat % 2 ^ 28
    · have hnew : setSector (ata (bus = 0)).sectors (master = 0) (lba.toNat % 2 ^ 28) buf
          (master = 0) n = _ := if_pos ⟨rfl, hn⟩
      rw [hnew, if_pos hn, wordBytes_overlay _ _ hk]
    · have hold : setSector (ata (bus = 0)).sectors (master = 0) (lba.toNat % 2 ^ 28) buf
          (master = 0) n = _ := if_neg fun h => hn h.2
      rw [hold, if_neg hn]
      rfl
  · obtain ⟨c', hcall, hsectors⟩ := writeSectors_fails hready (decide (master ≠ 0)) lba buf
    have hdisk : Fs.ataWriteSectors ((ata (bus = 0)).disk (master = 0)) lba.toNat (wordBytes buf) =
        (false, ((ata (bus = 0)).disk (master = 0)).tick) := by
      rw [Fs.ataWriteSectors, disk_faulty hready, if_pos rfl]
    rw [ataWriteSectors, hcall, hdisk]
    have hfailed : ¬ (-1 : Int) = 0 := by decide
    refine ⟨iff_of_false Bool.false_ne_true hfailed, fun n k _ => ?_⟩
    dsimp only
    rw [Function.update_self, hsectors]
    rfl

end EponaOS.Drivers
