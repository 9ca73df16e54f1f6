import Mathlib.Data.List.GetD
import EponaOS.Lib.Bytes
import EponaOS.Lib.Run

/-!
# The receive ring

`rtl8139_poll` of `rtl8139.c` and the network card that it reads from. The card stores
packets behind one another and goes on at the start of the ring where one ends at or behind
8192 bytes; the driver takes the ring to be 16 bytes longer, and to start anew behind that.
-/

namespace EponaOS.Drivers.Rtl8139

open Bytes

def RTL_RX_BUF_SIZE : Nat := 8192 + 16

def ringSize : Nat := 8192

/-- The globals of the driver, the registers and the write offset of the card. `handed` are
the packets given to `net_handle_packet` and `trail` the offsets of the driver behind them;
`stored` are the packets that the card stored, each with its offset. -/
structure Rtl where
  gRxBuffer : Bytes
  gRxOffset : Nat
  rok : Bool
  tok : Bool
  capr : Nat
  writeOffset : Nat
  handed : List (List UInt8)
  trail : List Nat
  stored : List (Nat × List UInt8)

/-- Behind `rtl8139_init`. -/
def Rtl.init : Rtl where
  gRxBuffer := fun _ => 0
  gRxOffset := 0
  rok := false
  tok := false
  capr := 0
  writeOffset := 0
  handed := []
  trail := []
  stored := []

/-- `(x + 3) & ~3` -/
def align4 (n : Nat) : Nat := (n + 3) / 4 * 4

/-- `len` bytes of the buffer. -/
def packetAt (buf : Bytes) (a len : Nat) : List UInt8 := (List.range len).map fun i => buf (a + i)

-- ---------------------------------------------------------------------------
-- The driver
-- ---------------------------------------------------------------------------

/-- The new `g_rx_offset` behind a packet. -/
def nextOffset (offset len : Nat) : Nat :=
  let offset := align4 (offset + len + 4) % 2 ^ 32
  if offset ≥ RTL_RX_BUF_SIZE then 0 else offset

def receive (s : Rtl) (status : Nat) (packet : List UInt8) : Rtl :=
  let at' := s.writeOffset
  let buf := putLE (putLE s.gRxBuffer at' 2 status) (at' + 2) 2 packet.length
  { s with
    gRxBuffer := blit buf (at' + 4) packet.length (fun i => packet.getD i 0) 0
    writeOffset := align4 (at' + 4 + packet.length) % ringSize
    rok := true
    stored := s.stored ++ [(at', packet)] }

def Rtl.waiting (s : Rtl) : List (Nat × List UInt8) := s.stored.drop s.handed.length

def Apart (p q : Nat × List UInt8) : Prop :=
  p.1 + 4 + p.2.length ≤ q.1 ∨ q.1 + 4 + q.2.length ≤ p.1

inductive RtlAct
  | receive (status : Nat) (packet : List UInt8)
  | transmitted
  | poll (processed : Bool)

/-- The card marks a packet as good, and stores it in the three pages of the buffer, where no
packet waits. -/
def CardWorks (s : Rtl) : RtlAct → Prop
  | .receive status packet => status % 2 = 1 ∧ 0 < packet.length ∧
      s.writeOffset + 4 + packet.length ≤ 3 * 4096 ∧
      ∀ p ∈ s.waiting, Apart p (s.writeOffset, packet)
  | _ => True

-- ---------------------------------------------------------------------------
-- What follows what
-- ---------------------------------------------------------------------------

/-- The offsets at which the card stored its packets, and where it stores the next one. -/
def Rtl.offsets (s : Rtl) : List Nat := s.stored.map Prod.fst ++ [s.writeOffset]

/-- Behind the `n`th packet the driver was where the card stored the one behind that, for each
`n`, and it handed over what the card had stored. -/
def Rtl.Follows (s : Rtl) : Prop :=
  0 :: s.trail <+: s.offsets ∧ s.handed <+: s.stored.map Prod.snd

structure InBuffer (buf : Bytes) (p : Nat × List UInt8) : Prop where
  start : p.1 < ringSize
  fits : p.1 + 4 + p.2.length ≤ 3 * 4096
  pos : 0 < p.2.length
  status : getLE buf p.1 2 % 2 = 1
  length : getLE buf (p.1 + 2) 2 = p.2.length
  bytes : packetAt buf (p.1 + 4) p.2.length = p.2

/-- What holds however the driver fares. -/
structure Rtl.Ok (s : Rtl) : Prop where
  write : s.writeOffset < ringSize
  counts : s.handed.length + (if s.rok then 1 else 0) ≤ s.stored.length
  trail : s.trail.length = s.handed.length
  offset : (0 :: s.trail).getLast? = some s.gRxOffset
  chain : ∀ i p, s.stored[i]? = some p →
    s.offsets[i + 1]? = some (align4 (p.1 + 4 + p.2.length) % ringSize)
  intact : ∀ p ∈ s.waiting, InBuffer s.gRxBuffer p

variable {s s' : Rtl} {buf buf' : Bytes} {p q : Nat × List UInt8}

-- ---------------------------------------------------------------------------
-- The buffer
-- ---------------------------------------------------------------------------

theorem InBuffer.congr (h : InBuffer buf p)
    (he : ∀ a, p.1 ≤ a → a < p.1 + 4 + p.2.length → buf' a = buf a) : InBuffer buf' p := by
  refine ⟨h.start, h.fits, h.pos, ?_, ?_, ?_⟩
  · rw [getLE_congr fun i hi => he _ (by omega) (by omega)]
    exact h.status
  · rw [getLE_congr fun i hi => he _ (by omega) (by omega)]
    exact h.length
  · refine Eq.trans ?_ h.bytes
    refine List.map_congr_left fun i hi => he _ (by omega) ?_
    have := List.mem_range.mp hi
    omega

theorem receive_buffer_off (s : Rtl) (status : Nat) (packet : List UInt8)
    (h : a < s.writeOffset ∨ s.writeOffset + 4 + packet.length ≤ a) :
    (receive s status packet).gRxBuffer a = s.gRxBuffer a := by
  rw [receive]
  dsimp only
  rw [blit_off _ _ _ (by omega), putLE_off _ _ (by omega), putLE_off _ _ (by omega)]

theorem receive_inBuffer (hw : s.writeOffset < ringSize) (hodd : status % 2 = 1) (hpos : 0 < packet.length)
    (hfits : s.writeOffset + 4 + packet.length ≤ 3 * 4096) :
    InBuffer (receive s status packet).gRxBuffer (s.writeOffset, packet) := by
  refine ⟨hw, hfits, hpos, ?_, ?_, ?_⟩
  · have h : getLE (receive s status packet).gRxBuffer s.writeOffset 2 = status % 256 ^ 2 := by
      rw [← getLE_putLE_same s.gRxBuffer s.writeOffset 2 status]
      refine getLE_congr fun i hi => ?_
      rw [receive]
      dsimp only
      rw [blit_off _ _ _ (by omega), putLE_off _ _ (by omega)]
    rw [h]
    omega
  · have h : getLE (receive s status packet).gRxBuffer (s.writeOffset + 2) 2 =
        packet.length % 256 ^ 2 := by
      rw [← getLE_putLE_same (putLE s.gRxBuffer s.writeOffset 2 status) (s.writeOffset + 2) 2
        packet.length]
      refine getLE_congr fun i hi => ?_
      rw [receive]
      dsimp only
      rw [blit_off _ _ _ (by omega)]
    rw [h]
    exact Nat.mod_eq_of_lt (show packet.length < 256 ^ 2 by omega)
  · rw [packetAt]
    refine List.ext_getElem (by simp) fun i _ hi => ?_
    have hi : i < packet.length := hi
    have hat : 0 + (s.writeOffset + 4 + i - (s.writeOffset + 4)) = i := by omega
    simp only [List.getElem_map, List.getElem_range, receive]
    rw [blit_in _ _ _ ⟨by omega, by omega⟩, hat, List.getD_eq_getElem _ _ hi]

-- ---------------------------------------------------------------------------
-- The invariant
-- ---------------------------------------------------------------------------

theorem Rtl.Ok.handed_le (h : s.Ok) : s.handed.length ≤ s.stored.length :=
  Nat.le_trans (Nat.le_add_right ..) h.counts

@[simp] theorem receive_offsets (s : Rtl) (status : Nat) (packet : List UInt8) :
    (receive s status packet).offsets =
      s.offsets ++ [align4 (s.writeOffset + 4 + packet.length) % ringSize] := by
  simp [Rtl.offsets, receive]

theorem receive_waiting (h : s.Ok) (status : Nat) (packet : List UInt8) :
    (receive s status packet).waiting = s.waiting ++ [(s.writeOffset, packet)] :=
  List.drop_append_of_le_length h.handed_le

theorem Rtl.Ok.receive (h : s.Ok) (hc : CardWorks s (.receive status packet)) :
    (receive s status packet).Ok := by
  obtain ⟨hodd, hpos, hfits, hroom⟩ := hc
  refine ⟨Nat.mod_lt _ (by decide), ?_, h.trail, h.offset, fun i p hp => ?_, fun p hp => ?_⟩
  · rw [Rtl8139.receive]
    simp only [if_pos, List.length_append, List.length_singleton]
    exact Nat.succ_le_succ h.handed_le
  · rw [receive_offsets]
    have hlen : s.offsets.length = s.stored.length + 1 := by simp [Rtl.offsets]
    by_cases hi : i < s.stored.length
    · have hold : s.stored[i]? = some p := by
        rw [← hp, Rtl8139.receive]
        exact (List.getElem?_append_left hi).symm
      rw [List.getElem?_append_left (by omega)]
      exact h.chain i p hold
    · have hp' : (s.stored ++ [(s.writeOffset, packet)])[i]? = some p := hp
      rw [List.getElem?_append_right (by omega)] at hp'
      obtain ⟨hi', rfl⟩ := List.getElem?_eq_some_iff.mp hp'
      have hi' : i = s.stored.length := by
        simp only [List.length_singleton] at hi'
        omega
      subst hi'
      rw [List.getElem?_append_right (by omega), hlen, Nat.sub_self]
      simp
  · rw [receive_waiting h] at hp
    obtain hp | hp := List.mem_append.mp hp
    · refine (h.intact p hp).congr fun a h1 h2 => receive_buffer_off s status packet ?_
      obtain hap | hap := hroom p hp
      · exact .inl (by omega)
      · exact .inr (by dsimp only at hap; omega)
    · rw [List.mem_singleton.mp hp]
      exact receive_inBuffer h.write hodd hpos hfits

/-- The state behind a packet of `len` bytes at the offset of the driver. -/
def Rtl.take (s : Rtl) (len : Nat) : Rtl :=
  let offset := nextOffset s.gRxOffset len
  { s with
    handed := s.handed ++ [packetAt s.gRxBuffer (s.gRxOffset + 4) len]
    gRxOffset := offset
    trail := s.trail ++ [offset]
    capr := (offset + 2 ^ 16 - 16) % 2 ^ 16 }

theorem Rtl.Ok.tick (h : s.Ok) (rok tok : Bool) (hr : rok = true → s.rok = true) :
    Rtl.Ok { s with rok, tok } := by
  refine ⟨h.write, ?_, h.trail, h.offset, h.chain, h.intact⟩
  have hc := h.counts
  cases rok with
  | true => rwa [hr rfl] at hc
  | false => exact h.handed_le

theorem Rtl.Ok.take (h : s.Ok) (hr : s.handed.length < s.stored.length) (hrok : s.rok = false)
    (len : Nat) : (s.take len).Ok := by
  refine ⟨h.write, ?_, ?_, ?_, h.chain, fun p hp => h.intact p ?_⟩
  · rw [Rtl.take]
    simp only [hrok, List.length_append, List.length_singleton]
    exact hr
  · rw [Rtl.take]
    simp only [List.length_append, List.length_singleton, h.trail]
  · exact List.getLast?_concat (l := 0 :: s.trail) (a := nextOffset s.gRxOffset len)
  · have hdrop : (s.take len).waiting = s.waiting.tail := by
      rw [Rtl.waiting, Rtl.take, Rtl.waiting, List.tail_drop, List.length_append,
        List.length_singleton]
    rw [hdrop] at hp
    exact List.mem_of_mem_tail hp

end EponaOS.Drivers.Rtl8139
