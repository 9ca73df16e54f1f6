import Mathlib.Tactic.Ring

/-!
# PCI enumeration

`pci.c` walks the buses and goes behind each bridge it records. Nothing remembers which
buses it was on; what ends the walk is the table, which a bridge has to be recorded in before
it is followed.
-/

namespace EponaOS.Drivers

def MAX_DEVICES : Nat := 256
def PCI_VENDOR_NONE : BitVec 16 := 0xFFFF

/-- The configuration space: a double word by bus, device, function and offset. -/
abbrev PciConfig := BitVec 8 → BitVec 8 → BitVec 8 → BitVec 8 → BitVec 32

def pciReadConfig (cfg : PciConfig) (bus dev func offset : BitVec 8) : BitVec 32 :=
  cfg bus dev func (offset &&& 0xFC)

abbrev PciHeader := Fin 16 → BitVec 32

def PciHeader.vendorId (h : PciHeader) : BitVec 16 := (h 0).extractLsb' 0 16
def PciHeader.deviceId (h : PciHeader) : BitVec 16 := (h 0).extractLsb' 16 16
def PciHeader.progIf (h : PciHeader) : BitVec 8 := (h 2).extractLsb' 8 8
def PciHeader.subclass (h : PciHeader) : BitVec 8 := (h 2).extractLsb' 16 8
def PciHeader.classCode (h : PciHeader) : BitVec 8 := (h 2).extractLsb' 24 8
def PciHeader.headerType (h : PciHeader) : BitVec 8 := (h 3).extractLsb' 16 8

structure PciDevice where
  bus : BitVec 8
  device : BitVec 8
  func : BitVec 8
  vendor : BitVec 16
  deviceId : BitVec 16
  classCode : BitVec 8
  subclass : BitVec 8
  progIf : BitVec 8
  config : PciHeader

/-- The first `g_pci_count` entries of `g_pci_devices`, and the indices that were written to. -/
structure PciTable where
  devices : List PciDevice
  writes : List Nat

def PciTable.count (s : PciTable) : Nat := s.devices.length

section

variable (cfg : PciConfig)

def pciReadHeader (bus dev func : BitVec 8) : PciHeader :=
  fun i => pciReadConfig cfg bus dev func (BitVec.ofNat 8 (i * 4))

def pciCheckFunc (pciCheckBus : BitVec 8 → PciTable → Option PciTable)
    (bus dev func : BitVec 8) (s : PciTable) : Option PciTable :=
  let h := pciReadHeader cfg bus dev func
  if h.vendorId = 0 ∨ h.vendorId = PCI_VENDOR_NONE then some s
  else if MAX_DEVICES ≤ s.count then some s
  else
    let d : PciDevice :=
      { bus := bus
        device := dev
        func := func
        vendor := h.vendorId
        deviceId := h.deviceId
        classCode := h.classCode
        subclass := h.subclass
        progIf := h.progIf
        config := h }
    let s : PciTable := { devices := s.devices ++ [d], writes := s.writes ++ [s.count] }
    if h.classCode = 0x06 ∧ h.subclass = 0x04 then
      let busReg := pciReadConfig cfg bus dev func 0x44
      let secondaryBus := busReg.extractLsb' 8 8
      if secondaryBus ≠ bus then pciCheckBus secondaryBus s else some s
    else some s

def pciCheckDevice (pciCheckBus : BitVec 8 → PciTable → Option PciTable)
    (bus dev : BitVec 8) (s : PciTable) : Option PciTable :=
  let h := pciReadHeader cfg bus dev 0
  if h.vendorId = 0 ∨ h.vendorId = PCI_VENDOR_NONE then some s
  else
    (pciCheckFunc cfg pciCheckBus bus dev 0 s).bind fun s =>
      if h.headerType &&& 0x80 ≠ 0 then
        (List.range' 1 7).foldlM
          (fun s func => pciCheckFunc cfg pciCheckBus bus dev (BitVec.ofNat 8 func) s) s
      else some s

/-- The first argument bounds how deep the calls nest, the call itself included; `none` is a
call beyond that. -/
def pciCheckBus : Nat → BitVec 8 → PciTable → Option PciTable
  | 0, _, _ => none
  | depth + 1, bus, s =>
    (List.range 32).foldlM
      (fun s dev => pciCheckDevice cfg (pciCheckBus depth) bus (BitVec.ofNat 8 dev) s) s

def pciEnumerate (depth : Nat) : Option PciTable :=
  let s : PciTable := { devices := [], writes := [] }
  let h := pciReadHeader cfg 0 0 0
  if h.headerType &&& 0x80 ≠ 0 then
    (List.range 8).foldlM (fun s func =>
      let func := BitVec.ofNat 8 func
      let vendor := (pciReadConfig cfg 0 0 func 0).extractLsb' 0 16
      if vendor ≠ PCI_VENDOR_NONE then pciCheckBus cfg depth func s else some s) s
  else pciCheckBus cfg depth 0 s

-- ---------------------------------------------------------------------------
-- The order of the walk
-- ---------------------------------------------------------------------------

structure Bdf where
  bus : BitVec 8
  dev : BitVec 8
  func : BitVec 8
  deriving DecidableEq

def Bdf.header (f : Bdf) : PciHeader := pciReadHeader cfg f.bus f.dev f.func

def Bdf.Answers (f : Bdf) : Prop :=
  ¬ ((f.header cfg).vendorId = 0 ∨ (f.header cfg).vendorId = PCI_VENDOR_NONE)

instance (f : Bdf) : Decidable (f.Answers cfg) := inferInstanceAs (Decidable (¬ (_ ∨ _)))

def Bdf.IsBridge (f : Bdf) : Prop :=
  (f.header cfg).classCode = 0x06 ∧ (f.header cfg).subclass = 0x04

instance (f : Bdf) : Decidable (f.IsBridge cfg) := inferInstanceAs (Decidable (_ ∧ _))

def multiFunction (bus dev : BitVec 8) : Prop :=
  (pciReadHeader cfg bus dev 0).headerType &&& 0x80 ≠ 0

instance (bus dev : BitVec 8) : Decidable (multiFunction cfg bus dev) :=
  inferInstanceAs (Decidable (_ ≠ _))

def Bdf.next (f : Bdf) : Option (BitVec 8) :=
  let secondaryBus := (pciReadConfig cfg f.bus f.dev f.func 0x44).extractLsb' 8 8
  if f.IsBridge cfg ∧ secondaryBus ≠ f.bus then some secondaryBus else none

def deviceFunctions (bus dev : BitVec 8) : List Bdf :=
  if (Bdf.mk bus dev 0).Answers cfg then
    ⟨bus, dev, 0⟩ ::
      if multiFunction cfg bus dev then
        ((List.range' 1 7).map fun func => Bdf.mk bus dev (BitVec.ofNat 8 func)).filter
          (·.Answers cfg)
      else []
  else []

def busFunctions (bus : BitVec 8) : List Bdf :=
  (List.range 32).flatMap fun dev => deviceFunctions cfg bus (BitVec.ofNat 8 dev)

/-- The functions in the order in which they are met, through so many buses. -/
def walk : Nat → BitVec 8 → List Bdf
  | 0, _ => []
  | depth + 1, bus =>
    (busFunctions cfg bus).flatMap fun f => f :: ((f.next cfg).map (walk depth)).getD []

def startBuses : List (BitVec 8) :=
  if multiFunction cfg 0 0 then
    ((List.range 8).map (BitVec.ofNat 8)).filter
      fun func => (pciReadConfig cfg 0 0 func 0).extractLsb' 0 16 ≠ PCI_VENDOR_NONE
  else [0]

def Bdf.device (f : Bdf) : PciDevice where
  bus := f.bus
  device := f.dev
  func := f.func
  vendor := (f.header cfg).vendorId
  deviceId := (f.header cfg).deviceId
  classCode := (f.header cfg).classCode
  subclass := (f.header cfg).subclass
  progIf := (f.header cfg).progIf
  config := f.header cfg

def record (s : PciTable) (f : Bdf) : PciTable :=
  if MAX_DEVICES ≤ s.count then s
  else { devices := s.devices ++ [f.device cfg], writes := s.writes ++ [s.count] }

def recordAll (s : PciTable) (fs : List Bdf) : PciTable := fs.foldl (record cfg) s

end

variable {cfg : PciConfig} {s : PciTable} {bus dev : BitVec 8} {f : Bdf}

-- ---------------------------------------------------------------------------
-- What is recorded
-- ---------------------------------------------------------------------------

theorem recordAll_append (s : PciTable) (fs gs : List Bdf) :
    recordAll cfg s (fs ++ gs) = recordAll cfg (recordAll cfg s fs) gs := List.foldl_append ..

theorem recordAll_full (h : MAX_DEVICES ≤ s.count) (fs : List Bdf) : recordAll cfg s fs = s := by
  induction fs with
  | nil => rfl
  | cons f fs ih =>
    have hf : record cfg s f = s := if_pos h
    rw [recordAll, List.foldl_cons, hf]
    exact ih

theorem record_count_le (s : PciTable) (f : Bdf) : s.count ≤ (record cfg s f).count := by
  rw [record]
  split
  · exact Nat.le_refl _
  · change s.devices.length ≤ (s.devices ++ [_]).length
    rw [List.length_append]
    omega

theorem recordAll_count_le (s : PciTable) (fs : List Bdf) :
    s.count ≤ (recordAll cfg s fs).count := by
  induction fs generalizing s with
  | nil => exact Nat.le_refl _
  | cons f fs ih => exact (record_count_le s f).trans (ih (record cfg s f))

def WritesInside (s : PciTable) : Prop := ∀ i ∈ s.writes, i < MAX_DEVICES

theorem recordAll_inside (h : WritesInside s) (fs : List Bdf) :
    WritesInside (recordAll cfg s fs) := by
  induction fs generalizing s with
  | nil => exact h
  | cons f fs ih =>
    apply ih
    rw [record]
    split
    · exact h
    · rename_i hroom
      intro i hi
      rcases List.mem_append.mp hi with hi | hi
      · exact h i hi
      · rw [List.mem_singleton.mp hi]
        exact Nat.lt_of_not_le hroom

theorem record_count_bound (h : s.count ≤ MAX_DEVICES) (f : Bdf) :
    (record cfg s f).count ≤ MAX_DEVICES := by
  rw [record]
  split
  · exact h
  · rename_i hroom
    change (s.devices ++ [_]).length ≤ MAX_DEVICES
    rw [List.length_append]
    exact Nat.lt_of_not_le hroom

theorem recordAll_count_bound (h : s.count ≤ MAX_DEVICES) (fs : List Bdf) :
    (recordAll cfg s fs).count ≤ MAX_DEVICES := by
  induction fs generalizing s with
  | nil => exact h
  | cons f fs ih => exact ih (record_count_bound h f)

theorem recordAll_devices (h : s.count ≤ MAX_DEVICES) (fs : List Bdf) :
    (recordAll cfg s fs).devices = (s.devices ++ fs.map (Bdf.device cfg)).take MAX_DEVICES := by
  induction fs generalizing s with
  | nil => rw [List.map_nil, List.append_nil, List.take_of_length_le h, recordAll, List.foldl_nil]
  | cons f fs ih =>
    by_cases hfull : MAX_DEVICES ≤ s.count
    · rw [recordAll_full hfull, List.take_append_of_le_length hfull, List.take_of_length_le h]
    · have hrecord : record cfg s f =
          { devices := s.devices ++ [f.device cfg], writes := s.writes ++ [s.count] } :=
        if_neg hfull
      rw [recordAll, List.foldl_cons]
      change (recordAll cfg (record cfg s f) fs).devices = _
      rw [ih (record_count_bound h f), hrecord, List.append_assoc]
      rfl

-- ---------------------------------------------------------------------------
-- The driver records what the walk meets
-- ---------------------------------------------------------------------------

def Room (depth : Nat) (s : PciTable) : Prop :=
  s.count ≤ MAX_DEVICES ∧ MAX_DEVICES < depth + s.count

def RecordsAll (cfg : PciConfig) (depth : Nat) (step : PciTable → Option PciTable)
    (fs : List Bdf) : Prop :=
  ∀ s, Room depth s → step s = some (recordAll cfg s fs)

theorem RecordsAll.nil : RecordsAll cfg depth some [] := fun _ _ => rfl

theorem RecordsAll.bind (h : RecordsAll cfg depth step fs) (h' : RecordsAll cfg depth step' gs) :
    RecordsAll cfg depth (fun s => (step s).bind step') (fs ++ gs) := by
  intro s hs
  have hlater : Room depth (recordAll cfg s fs) :=
    ⟨recordAll_count_bound hs.1 fs,
      Nat.lt_of_lt_of_le hs.2 (Nat.add_le_add_left (recordAll_count_le s fs) depth)⟩
  dsimp only
  rw [h s hs, Option.bind_some, h' _ hlater, recordAll_append]

theorem RecordsAll.foldlM {step : PciTable → ι → Option PciTable} {fs : ι → List Bdf} (l : List ι)
    (h : ∀ i, RecordsAll cfg depth (fun s => step s i) (fs i)) :
    RecordsAll cfg depth (fun s => l.foldlM step s) (l.flatMap fs) := by
  induction l with
  | nil => exact .nil
  | cons i l ih =>
    simp only [List.foldlM_cons, List.flatMap_cons]
    exact (h i).bind ih

def branch (cfg : PciConfig) (depth : Nat) (f : Bdf) : List Bdf :=
  f :: ((f.next cfg).map (walk cfg depth)).getD []

theorem walk_succ (depth : Nat) (bus : BitVec 8) :
    walk cfg (depth + 1) bus = (busFunctions cfg bus).flatMap (branch cfg depth) := rfl

section

variable {next : BitVec 8 → PciTable → Option PciTable}

theorem pciCheckFunc_records (hnext : ∀ b, RecordsAll cfg depth (next b) (walk cfg depth b))
    (f : Bdf) :
    RecordsAll cfg (depth + 1) (pciCheckFunc cfg next f.bus f.dev f.func)
      (if f.Answers cfg then branch cfg depth f else []) := by
  intro s hs
  by_cases hans : f.Answers cfg
  · refine (if_neg hans).trans ?_
    rw [if_pos hans]
    by_cases hfull : MAX_DEVICES ≤ s.count
    · rw [if_pos hfull, recordAll_full hfull]
    · have hrecord : record cfg s f =
          { devices := s.devices ++ [f.device cfg], writes := s.writes ++ [s.count] } :=
        if_neg hfull
      have hlater : Room depth (record cfg s f) := by
        have hone : (record cfg s f).count = s.count + 1 := by
          rw [hrecord]
          exact List.length_append
        have hdeep := hs.2
        exact ⟨record_count_bound hs.1 f, by omega⟩
      have hall : recordAll cfg s (branch cfg depth f) =
          recordAll cfg (record cfg s f) (((f.next cfg).map (walk cfg depth)).getD []) := rfl
      rw [if_neg hfull, hall, hrecord] at *
      by_cases hbridge : f.IsBridge cfg
      · refine (if_pos hbridge).trans ?_
        by_cases hown :
            (pciReadConfig cfg f.bus f.dev f.func 0x44).extractLsb' 8 8 ≠ f.bus
        · have hthere : f.next cfg =
              some ((pciReadConfig cfg f.bus f.dev f.func 0x44).extractLsb' 8 8) :=
            if_pos ⟨hbridge, hown⟩
          refine (if_pos hown).trans ?_
          rw [hthere, Option.map_some, Option.getD_some]
          exact hnext _ _ hlater
        · have hthere : f.next cfg = none := if_neg fun h => hown h.2
          rw [hthere]
          exact if_neg hown
      · have hthere : f.next cfg = none := if_neg fun h => hbridge h.1
        rw [hthere]
        exact if_neg hbridge
  · refine (if_pos (not_not.mp hans)).trans ?_
    rw [if_neg hans]
    rfl

theorem flatMap_filter (p : α → Prop) [DecidablePred p] (g : α → List β) (l : List α) :
    (l.filter p).flatMap g = l.flatMap fun x => if p x then g x else [] := by
  induction l with
  | nil => rfl
  | cons x l ih =>
    by_cases h : p x
    · simp only [List.filter_cons, decide_eq_true h, if_true, List.flatMap_cons, ih, if_pos h]
    · simp only [List.filter_cons, decide_eq_false h, Bool.false_eq_true, if_false,
        List.flatMap_cons, ih, if_neg h, List.nil_append]

theorem pciCheckDevice_records (hnext : ∀ b, RecordsAll cfg depth (next b) (walk cfg depth b))
    (bus dev : BitVec 8) :
    RecordsAll cfg (depth + 1) (pciCheckDevice cfg next bus dev)
      ((deviceFunctions cfg bus dev).flatMap (branch cfg depth)) := by
  by_cases hans : (Bdf.mk bus dev 0).Answers cfg
  · have hfirst := pciCheckFunc_records hnext ⟨bus, dev, 0⟩
    rw [if_pos hans] at hfirst
    have hrest : RecordsAll cfg (depth + 1) (fun s =>
        if (pciReadHeader cfg bus dev 0).headerType &&& 0x80 ≠ 0 then
          (List.range' 1 7).foldlM
            (fun s func => pciCheckFunc cfg next bus dev (BitVec.ofNat 8 func) s) s
        else some s)
        ((if multiFunction cfg bus dev then
          ((List.range' 1 7).map fun func => Bdf.mk bus dev (BitVec.ofNat 8 func)).filter
            (·.Answers cfg)
        else []).flatMap (branch cfg depth)) := by
      by_cases hmulti : multiFunction cfg bus dev
      · rw [if_pos hmulti, flatMap_filter, List.flatMap_map]
        intro s hs
        refine (if_pos hmulti).trans ?_
        exact RecordsAll.foldlM _
          (fun func => pciCheckFunc_records hnext ⟨bus, dev, BitVec.ofNat 8 func⟩) s hs
      · rw [if_neg hmulti]
        intro s hs
        exact if_neg hmulti
    intro s hs
    rw [deviceFunctions, if_pos hans, List.flatMap_cons, pciCheckDevice]
    exact (if_neg hans).trans (hfirst.bind hrest s hs)
  · intro s _
    rw [deviceFunctions, if_neg hans]
    exact if_pos (not_not.mp hans)

end

theorem pciCheckBus_records (depth : Nat) (bus : BitVec 8) :
    RecordsAll cfg depth (pciCheckBus cfg depth bus) (walk cfg depth bus) := by
  induction depth generalizing bus with
  | zero =>
    intro s hs
    obtain ⟨hroom, hdeep⟩ := hs
    rw [Nat.zero_add] at hdeep
    exact absurd hdeep (Nat.not_lt.mpr hroom)
  | succ depth ih =>
    rw [walk_succ, busFunctions, List.flatMap_assoc]
    exact RecordsAll.foldlM _ fun dev => pciCheckDevice_records ih bus (BitVec.ofNat 8 dev)

def fullWalk (cfg : PciConfig) (depth : Nat) : List Bdf :=
  (startBuses cfg).flatMap (walk cfg depth)

theorem pciEnumerate_eq (h : MAX_DEVICES < depth) :
    pciEnumerate cfg depth =
      some (recordAll cfg { devices := [], writes := [] } (fullWalk cfg depth)) := by
  have hroom : Room depth { devices := [], writes := [] } := ⟨Nat.zero_le _, h⟩
  rw [fullWalk, startBuses]
  by_cases hmulti : multiFunction cfg 0 0
  · refine (if_pos hmulti).trans ?_
    rw [if_pos hmulti, flatMap_filter, List.flatMap_map]
    refine RecordsAll.foldlM _ (fun func => ?_) _ hroom
    intro s hs
    by_cases hthere :
        (pciReadConfig cfg 0 0 (BitVec.ofNat 8 func) 0).extractLsb' 0 16 ≠ PCI_VENDOR_NONE
    · refine (if_pos hthere).trans ?_
      rw [if_pos hthere]
      exact pciCheckBus_records depth _ s hs
    · refine (if_neg hthere).trans ?_
      rw [if_neg hthere]
      rfl
  · refine (if_neg hmulti).trans ?_
    rw [if_neg hmulti, List.flatMap_singleton]
    exact pciCheckBus_records depth 0 _ hroom

/-- The enumeration ends, with calls nested at most as deep as the table has entries, and
writes inside of the table only. -/
theorem pciEnumerate_ends (cfg : PciConfig) :
    ∃ s, pciEnumerate cfg (MAX_DEVICES + 1) = some s ∧ ∀ i ∈ s.writes, i < MAX_DEVICES :=
  have hempty : WritesInside { devices := [], writes := [] } := List.forall_mem_nil _
  ⟨_, pciEnumerate_eq (Nat.lt_succ_self _), recordAll_inside hempty _⟩

end EponaOS.Drivers
