import EponaOS.Kernel.TermParams

/-!
# The mouse

`mouse_irq` puts packets of three bytes together. A displacement has nine bits, eight of
them in a byte of its own and the sign in the first byte, where the driver does not look.
-/

namespace EponaOS.Drivers

open Kernel (wrapInt IntFits wrapInt_of_fits)

structure MouseState where
  x : Int
  y : Int
  buttons : BitVec 8
  cycle : BitVec 8
  packet0 : BitVec 8
  packet1 : BitVec 8
  packet2 : BitVec 8

def mouseStart : MouseState := ⟨0, 0, 0, 0, 0, 0, 0⟩

def PS2_OUT_FULL : BitVec 8 := 0x01
def PS2_AUX_DATA : BitVec 8 := 0x20

structure Irq where
  status : BitVec 8
  data : BitVec 8

/-- The `switch` of `mouse_irq` -/
def mouseByte (s : MouseState) (data : BitVec 8) : MouseState :=
  if s.cycle = 0 then
    if data &&& 0x08 = 0 then { s with cycle := 0 } else { s with packet0 := data, cycle := 1 }
  else if s.cycle = 1 then { s with packet1 := data, cycle := 2 }
  else if s.cycle = 2 then
    let s := { s with packet2 := data, cycle := 0 }
    if s.packet0 &&& 0xC0 ≠ 0 then s
    else
      let dx := s.packet1.toInt
      let dy := s.packet2.toInt
      { s with
        x := wrapInt (s.x + dx)
        y := wrapInt (s.y + dy)
        buttons := s.packet0 &&& 0x07 }
  else s

def mouseIrq (s : MouseState) (irq : Irq) : MouseState :=
  if irq.status &&& PS2_OUT_FULL = 0 ∨ irq.status &&& PS2_AUX_DATA = 0 then s
  else mouseByte s irq.data

def mouseRun (irqs : List Irq) : MouseState := irqs.foldl mouseIrq mouseStart

-- ---------------------------------------------------------------------------
-- Packets
-- ---------------------------------------------------------------------------

structure Packet where
  first : BitVec 8
  xByte : BitVec 8
  yByte : BitVec 8
  synced : first &&& 0x08 ≠ 0
  inRange : first &&& 0xC0 = 0

def Packet.bytes (p : Packet) : List (BitVec 8) := [p.first, p.xByte, p.yByte]

def Packet.dx (p : Packet) : Int := (BitVec.cons (p.first.getLsbD 4) p.xByte).toInt
def Packet.dy (p : Packet) : Int := (BitVec.cons (p.first.getLsbD 5) p.yByte).toInt

/-- Each sign is the highest bit of the byte it belongs to: eight bits are enough. -/
def Packet.Short (p : Packet) : Prop :=
  p.first.getLsbD 4 = p.xByte.msb ∧ p.first.getLsbD 5 = p.yByte.msb

def sumX (ps : List Packet) : Int := (ps.map Packet.dx).sum
def sumY (ps : List Packet) : Int := (ps.map Packet.dy).sum

def lastButtons (ps : List Packet) : BitVec 8 :=
  (ps.getLast?.map (·.first &&& 0x07)).getD 0

def Irq.auxByte (irq : Irq) : Option (BitVec 8) :=
  if irq.status &&& PS2_OUT_FULL = 0 ∨ irq.status &&& PS2_AUX_DATA = 0 then none
  else some irq.data

/-- The interrupts deliver the packets, and between their bytes nothing for the mouse. -/
def Delivers (irqs : List Irq) (ps : List Packet) : Prop :=
  irqs.filterMap Irq.auxByte = ps.flatMap Packet.bytes

structure AddsUp (ps : List Packet) (s : MouseState) : Prop where
  x : s.x = sumX ps
  y : s.y = sumY ps
  buttons : s.buttons = lastButtons ps

-- ---------------------------------------------------------------------------
-- What a packet does
-- ---------------------------------------------------------------------------

theorem foldl_mouseIrq (irqs : List Irq) (s : MouseState) :
    irqs.foldl mouseIrq s = (irqs.filterMap Irq.auxByte).foldl mouseByte s := by
  induction irqs generalizing s with
  | nil => rfl
  | cons irq irqs ih =>
    rw [List.foldl_cons, ih]
    by_cases hno : irq.status &&& PS2_OUT_FULL = 0 ∨ irq.status &&& PS2_AUX_DATA = 0
    · have hnone : irq.auxByte = none := if_pos hno
      rw [List.filterMap_cons_none hnone, mouseIrq, if_pos hno]
    · have hsome : irq.auxByte = some irq.data := if_neg hno
      rw [List.filterMap_cons_some hsome, List.foldl_cons, mouseIrq, if_neg hno]

def behind (s : MouseState) (p : Packet) : MouseState where
  x := wrapInt (s.x + p.xByte.toInt)
  y := wrapInt (s.y + p.yByte.toInt)
  buttons := p.first &&& 0x07
  cycle := 0
  packet0 := p.first
  packet1 := p.xByte
  packet2 := p.yByte

theorem packet_bytes (p : Packet) (h : s.cycle = 0) : p.bytes.foldl mouseByte s = behind s p := by
  have hfirst : mouseByte s p.first = { s with packet0 := p.first, cycle := 1 } := by
    rw [mouseByte, if_pos h, if_neg p.synced]
  have hsecond : mouseByte { s with packet0 := p.first, cycle := 1 } p.xByte =
      { s with packet0 := p.first, packet1 := p.xByte, cycle := 2 } := rfl
  have hthird :
      mouseByte { s with packet0 := p.first, packet1 := p.xByte, cycle := 2 } p.yByte =
        behind s p := if_neg (not_not.mpr p.inRange)
  rw [Packet.bytes, List.foldl_cons, hfirst, List.foldl_cons, hsecond, List.foldl_cons, hthird,
    List.foldl_nil]

def afterPackets (ps : List Packet) : MouseState := ps.foldl behind mouseStart

theorem afterPackets_concat (ps : List Packet) (p : Packet) :
    afterPackets (ps ++ [p]) = behind (afterPackets ps) p := by
  rw [afterPackets, List.foldl_append]
  rfl

theorem afterPackets_cycle (ps : List Packet) : (afterPackets ps).cycle = 0 := by
  induction ps using List.reverseRecOn with
  | nil => rfl
  | append_singleton ps p _ =>
    rw [afterPackets_concat]
    rfl

theorem mouseRun_eq (h : Delivers irqs ps) : mouseRun irqs = afterPackets ps := by
  have hbytes : (ps.flatMap Packet.bytes).foldl mouseByte mouseStart = afterPackets ps := by
    clear h
    induction ps using List.reverseRecOn with
    | nil => rfl
    | append_singleton ps p ih =>
      rw [List.flatMap_append, List.foldl_append, ih, List.flatMap_singleton,
        packet_bytes p (afterPackets_cycle ps), afterPackets_concat]
  rw [mouseRun, foldl_mouseIrq, h, hbytes]

theorem afterPackets_buttons (ps : List Packet) : (afterPackets ps).buttons = lastButtons ps := by
  induction ps using List.reverseRecOn with
  | nil => rfl
  | append_singleton ps p _ =>
    rw [afterPackets_concat, lastButtons, List.getLast?_concat]
    rfl

-- ---------------------------------------------------------------------------
-- Eight bits or nine
-- ---------------------------------------------------------------------------

theorem toInt_cons_eq_iff (sign : Bool) (b : BitVec 8) :
    b.toInt = (BitVec.cons sign b).toInt ↔ sign = b.msb := by
  revert sign b
  decide

theorem toInt_near (sign : Bool) (b : BitVec 8) :
    -256 ≤ b.toInt - (BitVec.cons sign b).toInt ∧ b.toInt - (BitVec.cons sign b).toInt ≤ 256 := by
  revert sign b
  decide

theorem wrapInt_fits (x : Int) : IntFits (wrapInt x) := by
  have hlo := Int.le_bmod (x := x) (m := 2 ^ 32) (by decide)
  have hhi := Int.bmod_lt (x := x) (m := 2 ^ 32) (by decide)
  rw [IntFits, wrapInt]
  omega

theorem wrapInt_add_eq_iff (hnear : -256 ≤ d - e ∧ d - e ≤ 256) (S : Int) :
    wrapInt (S + d) = S + e ↔ d = e ∧ IntFits (S + e) := by
  constructor
  · intro h
    have hfits := h ▸ wrapInt_fits (S + d)
    refine ⟨?_, hfits⟩
    have hdvd : ((2 ^ 32 : Nat) : Int) ∣ (S + d) - wrapInt (S + d) := Int.dvd_self_sub_bmod
    rw [h] at hdvd
    omega
  · rintro ⟨rfl, hfits⟩
    exact wrapInt_of_fits hfits

theorem sumX_concat (ps : List Packet) (p : Packet) : sumX (ps ++ [p]) = sumX ps + p.dx := by
  rw [sumX, List.map_append, List.sum_append]
  exact congrArg (sumX ps + ·) (Int.add_zero _)

theorem sumY_concat (ps : List Packet) (p : Packet) : sumY (ps ++ [p]) = sumY ps + p.dy := by
  rw [sumY, List.map_append, List.sum_append]
  exact congrArg (sumY ps + ·) (Int.add_zero _)

/-- A running sum that `int` can hold. -/
def SumsFit (ps : List Packet) : Prop := IntFits (sumX ps) ∧ IntFits (sumY ps)

theorem addsUp_concat_iff (h : AddsUp ps (afterPackets ps)) (p : Packet) :
    AddsUp (ps ++ [p]) (afterPackets (ps ++ [p])) ↔ p.Short ∧ SumsFit (ps ++ [p]) := by
  have hx : (afterPackets (ps ++ [p])).x = wrapInt (sumX ps + p.xByte.toInt) := by
    rw [afterPackets_concat, behind, h.x]
  have hy : (afterPackets (ps ++ [p])).y = wrapInt (sumY ps + p.yByte.toInt) := by
    rw [afterPackets_concat, behind, h.y]
  have hxiff := wrapInt_add_eq_iff (toInt_near (p.first.getLsbD 4) p.xByte) (sumX ps)
  have hyiff := wrapInt_add_eq_iff (toInt_near (p.first.getLsbD 5) p.yByte) (sumY ps)
  rw [toInt_cons_eq_iff] at hxiff hyiff
  rw [Packet.Short, SumsFit, sumX_concat, sumY_concat]
  constructor
  · intro hadds
    obtain ⟨hshortX, hfitX⟩ := hxiff.mp (hx.symm.trans (hadds.x.trans (sumX_concat ps p)))
    obtain ⟨hshortY, hfitY⟩ := hyiff.mp (hy.symm.trans (hadds.y.trans (sumY_concat ps p)))
    exact ⟨⟨hshortX, hshortY⟩, hfitX, hfitY⟩
  · rintro ⟨⟨hshortX, hshortY⟩, hfitX, hfitY⟩
    exact {
      x := hx.trans ((hxiff.mpr ⟨hshortX, hfitX⟩).trans (sumX_concat ps p).symm)
      y := hy.trans ((hyiff.mpr ⟨hshortY, hfitY⟩).trans (sumY_concat ps p).symm)
      buttons := afterPackets_buttons _ }

/-- However many packets there were, the mouse is where they sum up to. -/
def Tracks (ps : List Packet) : Prop :=
  ∀ qs irqs, qs <+: ps → Delivers irqs qs → AddsUp qs (mouseRun irqs)

theorem tracks_iff_prefixes : Tracks ps ↔ ∀ qs, qs <+: ps → AddsUp qs (afterPackets qs) := by
  constructor
  · intro h qs hqs
    let irqs := (qs.flatMap Packet.bytes).map (Irq.mk (PS2_OUT_FULL ||| PS2_AUX_DATA))
    have hdelivers : Delivers irqs qs := by
      have hstatus : ¬ ((PS2_OUT_FULL ||| PS2_AUX_DATA) &&& PS2_OUT_FULL = 0 ∨
          (PS2_OUT_FULL ||| PS2_AUX_DATA) &&& PS2_AUX_DATA = 0) := by decide
      have haux : Irq.auxByte ∘ Irq.mk (PS2_OUT_FULL ||| PS2_AUX_DATA) = some :=
        funext fun _ => if_neg hstatus
      rw [Delivers, List.filterMap_map, haux, List.filterMap_some]
    rw [← mouseRun_eq hdelivers]
    exact h qs irqs hqs hdelivers
  · intro h qs irqs hqs hdelivers
    rw [mouseRun_eq hdelivers]
    exact h qs hqs

/-- The packets are tracked as long as eight bits are enough for each of them, and `int` for
the sums. -/
theorem tracks_iff (ps : List Packet) :
    Tracks ps ↔ (∀ p ∈ ps, p.Short) ∧ ∀ qs, qs <+: ps → SumsFit qs := by
  rw [tracks_iff_prefixes]
  induction ps using List.reverseRecOn with
  | nil =>
    constructor
    · intro _
      refine ⟨List.forall_mem_nil _, fun qs hqs => ?_⟩
      rw [List.prefix_nil.mp hqs]
      have hzero : IntFits 0 := ⟨by decide, by decide⟩
      exact ⟨hzero, hzero⟩
    · intro _ qs hqs
      rw [List.prefix_nil.mp hqs]
      exact ⟨rfl, rfl, rfl⟩
  | append_singleton ps p ih =>
    simp only [List.prefix_concat_iff, forall_eq_or_imp, List.forall_mem_append,
      List.forall_mem_singleton]
    rw [ih]
    constructor
    · rintro ⟨hlast, hshort, hfit⟩
      have hps := ih.mpr ⟨hshort, hfit⟩ ps List.prefix_rfl
      obtain ⟨hp, hsum⟩ := (addsUp_concat_iff hps p).mp hlast
      exact ⟨⟨hshort, hp⟩, hsum, hfit⟩
    · rintro ⟨⟨hshort, hp⟩, hsum, hfit⟩
      have hps := ih.mpr ⟨hshort, hfit⟩ ps List.prefix_rfl
      exact ⟨(addsUp_concat_iff hps p).mpr ⟨hp, hsum⟩, hshort, hfit⟩

def farRight : Packet := ⟨0x08, 200, 0, by decide, by decide⟩

theorem far_movement_lost : ¬ Tracks [farRight] := by
  intro h
  exact absurd ((tracks_iff_prefixes.mp h) _ List.prefix_rfl).x (by decide)

end EponaOS.Drivers
