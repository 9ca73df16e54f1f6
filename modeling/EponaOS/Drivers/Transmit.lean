import EponaOS.Drivers.Rtl8139
import EponaOS.Lib.Ring

/-!
# The transmit descriptors

`rtl8139_send` of `rtl8139.c` and the network card that reads what it sends. The driver fills
the four descriptors in turn, byte after byte, and does not look whether the card is done with
one; the card takes them in the same order and fetches a frame byte after byte. Where the
driver meets no descriptor that the card still has, the frames go out as they were given.
-/

namespace EponaOS.Drivers.Rtl8139

open Bytes
open Function (update)

def RTL_TX_BUFS : Nat := 4

/-- Where `rtl8139_send` is. -/
inductive TxPhase
  | idle
  /-- the loop that copies, at `i` -/
  | copy (data : List UInt8) (i : Nat)
  /-- before `TSAD` is written -/
  | address (data : List UInt8)
  /-- before `TSD` is written -/
  | command (data : List UInt8)

/-- The globals of the driver and the registers; `given` says that the card has the descriptor,
`next` and `fetched` are where the card is. `accepted` are the frames for which the call returned
0, and `wire` is what went out. -/
structure Tx where
  mem : Bytes
  gTxBuffer : Nat → Nat
  gTxCur : Nat
  phase : TxPhase
  tsad : Nat → Nat
  tsd : Nat → Nat
  given : Nat → Bool
  next : Nat
  fetched : List UInt8
  accepted : List (List UInt8)
  wire : List (List UInt8)

/-- Behind `rtl8139_init`. -/
def Tx.init (mem : Bytes) (gTxBuffer : Nat → Nat) : Tx where
  mem := mem
  gTxBuffer := gTxBuffer
  gTxCur := 0
  phase := .idle
  tsad _ := 0
  tsd _ := 0
  given _ := false
  next := 0
  fetched := []
  accepted := []
  wire := []

-- ---------------------------------------------------------------------------
-- The driver
-- ---------------------------------------------------------------------------

def rtl8139Send (s : Tx) (data : List UInt8) : Tx :=
  if data.length < 14 ∨ data.length > 1792 then s else { s with phase := .copy data 0 }

/-- `(uint32_t)(len & 0x1FFF) | 0x10000` -/
def txCommand (len : Nat) : Nat := len % 2 ^ 13 ||| 0x10000

def sendStep (s : Tx) : Option Tx :=
  match s.phase with
  | .idle => none
  | .copy data i =>
    if i < data.length then
      some { s with
        mem := setByte s.mem (s.gTxBuffer s.gTxCur + i) (data.getD i 0)
        phase := .copy data (i + 1) }
    else some { s with phase := .address data }
  | .address data =>
    some { s with
      tsad := update s.tsad s.gTxCur (s.gTxBuffer s.gTxCur % 2 ^ 32)
      phase := .command data }
  | .command data =>
    some { s with
      tsd := update s.tsd s.gTxCur (txCommand data.length)
      given := update s.given s.gTxCur true
      gTxCur := (s.gTxCur + 1) % RTL_TX_BUFS
      phase := .idle
      accepted := s.accepted ++ [data] }

-- ---------------------------------------------------------------------------
-- The card
-- ---------------------------------------------------------------------------

def txSize (tsd : Nat) : Nat := tsd % 2 ^ 13

def Tx.frame (s : Tx) (k : Nat) : List UInt8 := packetAt s.mem (s.tsad k) (txSize (s.tsd k))

def fetch (s : Tx) : Option Tx :=
  if s.given s.next = true ∧ s.fetched.length < txSize (s.tsd s.next) then
    some { s with fetched := s.fetched ++ [s.mem (s.tsad s.next + s.fetched.length)] }
  else none

def finish (s : Tx) : Option Tx :=
  if s.given s.next = true ∧ txSize (s.tsd s.next) ≤ s.fetched.length then
    some { s with
      given := update s.given s.next false
      next := (s.next + 1) % RTL_TX_BUFS
      fetched := []
      wire := s.wire ++ [s.fetched] }
  else none

inductive TxAct
  | send (data : List UInt8)
  | driver
  | fetch
  | finish

def txAct (s : Tx) : TxAct → Option Tx
  | .send data =>
    match s.phase with
    | .idle => some (rtl8139Send s data)
    | _ => none
  | .driver => sendStep s
  | .fetch => Rtl8139.fetch s
  | .finish => Rtl8139.finish s

def txStep (s : Tx) (a : TxAct) (s' : Tx) : Prop := txAct s a = some s'

def Tx.outstanding (s : Tx) : List (List UInt8) :=
  (((List.range RTL_TX_BUFS).map fun j => (s.next + j) % RTL_TX_BUFS).filter s.given).map s.frame

def TxPhase.frames : TxPhase → List (List UInt8)
  | .idle => []
  | .copy data _ => [data]
  | .address data => [data]
  | .command data => [data]

def TxAct.frame : TxAct → Option (List UInt8)
  | .send data => if data.length < 14 ∨ data.length > 1792 then none else some data
  | _ => none

/-- A call begins where the card is done with the descriptor. -/
def DescriptorFree (s : Tx) : TxAct → Prop
  | .send _ => s.given s.gTxCur = false
  | _ => True

/-- Four frames of memory, apart from one another and where the card can address them. -/
structure TxBuffers (buf : Nat → Nat) : Prop where
  low : ∀ k < RTL_TX_BUFS, buf k + 4096 ≤ 2 ^ 32
  apart : ∀ k < RTL_TX_BUFS, ∀ l < RTL_TX_BUFS, k ≠ l →
    buf k + 4096 ≤ buf l ∨ buf l + 4096 ≤ buf k

-- ---------------------------------------------------------------------------
-- The invariant
-- ---------------------------------------------------------------------------

/-- What the call has done so far, in the buffer `a` with the address register `tsad`. -/
def TxPhase.Done (mem : Bytes) (a tsad : Nat) : TxPhase → Prop
  | .idle => True
  | .copy data i => data.length ≤ 1792 ∧ i ≤ data.length ∧ packetAt mem a i = data.take i
  | .address data => data.length ≤ 1792 ∧ packetAt mem a data.length = data
  | .command data => data.length ≤ 1792 ∧ packetAt mem a data.length = data ∧ tsad = a

/-- The card has the `count` descriptors before `g_tx_cur`. -/
structure Tx.Ok (s : Tx) (count : Nat) : Prop where
  buffers : TxBuffers s.gTxBuffer
  cur : s.gTxCur < RTL_TX_BUFS
  count_le : count ≤ RTL_TX_BUFS
  next : s.next = Fifo.tail RTL_TX_BUFS s.gTxCur count
  given : ∀ j < RTL_TX_BUFS, s.given ((s.next + j) % RTL_TX_BUFS) = decide (j < count)
  sent : s.wire ++ Fifo.contents RTL_TX_BUFS s.frame s.gTxCur count = s.accepted
  regs : ∀ k < RTL_TX_BUFS, s.given k = true →
    s.tsad k = s.gTxBuffer k ∧ txSize (s.tsd k) ≤ 1792
  fetched : s.given s.next = true → s.fetched = (s.frame s.next).take s.fetched.length
  empty : s.given s.next = false → s.fetched = []
  done : s.phase.Done s.mem (s.gTxBuffer s.gTxCur) (s.tsad s.gTxCur)
  free : s.phase ≠ .idle → s.given s.gTxCur = false

variable {s s' : Tx} {count : Nat}

theorem init_txOk {buf : Nat → Nat} (h : TxBuffers buf) (mem : Bytes) : (Tx.init mem buf).Ok 0 where
  buffers := h
  cur := Nat.zero_lt_succ 3
  count_le := Nat.zero_le _
  next := show 0 = Fifo.tail RTL_TX_BUFS 0 0 by decide
  given _ _ := rfl
  sent := rfl
  regs _ _ hk := by cases hk
  fetched h := by cases h
  empty _ := rfl
  done := trivial
  free h := absurd rfl h

theorem txSize_command (h : len ≤ 1792) : txSize (txCommand len) = len := by
  have hor : len ||| 0x10000 = 0x10000 + len := by
    have hfields := shiftLeft_or 1 (show len < 2 ^ 16 by omega)
    rw [Nat.or_comm]
    simpa using hfields
  have hmod : len % 2 ^ 13 = len := Nat.mod_eq_of_lt (by omega)
  rw [txSize, txCommand, hmod, hor]
  omega

theorem packetAt_congr {m m' : Bytes} {a n : Nat} (h : ∀ x < n, m' (a + x) = m (a + x)) :
    packetAt m' a n = packetAt m a n :=
  List.map_congr_left fun x hx => h x (List.mem_range.mp hx)

theorem packetAt_succ (m : Bytes) (a n : Nat) :
    packetAt m a (n + 1) = packetAt m a n ++ [m (a + n)] := by
  rw [packetAt, List.range_succ, List.map_append]
  rfl

theorem packetAt_take (m : Bytes) (a : Nat) (h : i ≤ n) :
    (packetAt m a n).take i = packetAt m a i := by
  rw [packetAt, ← List.map_take, List.take_range, Nat.min_eq_left h]
  rfl

@[simp] theorem packetAt_length (m : Bytes) (a n : Nat) : (packetAt m a n).length = n := by
  simp [packetAt]

-- ---------------------------------------------------------------------------
-- Which descriptors the card has
-- ---------------------------------------------------------------------------

theorem Tx.Ok.queued (h : s.Ok count) (hi : i < count) :
    s.given ((s.gTxCur + RTL_TX_BUFS - count + i) % RTL_TX_BUFS) = true := by
  have hle := h.count_le
  have hgiven := h.given i (Nat.lt_of_lt_of_le hi hle)
  rw [h.next, Fifo.tail, Nat.mod_add_mod, decide_eq_true hi] at hgiven
  exact hgiven

theorem Tx.Ok.given_next (h : s.Ok count) : s.given s.next = decide (0 < count) := by
  have hgiven := h.given 0 (Nat.zero_lt_succ 3)
  have hnext : s.next < RTL_TX_BUFS := h.next ▸ Nat.mod_lt _ (Nat.zero_lt_succ 3)
  rwa [Nat.add_zero, Nat.mod_eq_of_lt hnext] at hgiven

theorem Tx.Ok.room (h : s.Ok count) (hfree : s.given s.gTxCur = false) : count < RTL_TX_BUFS := by
  refine Nat.lt_of_le_of_ne h.count_le fun hfull => ?_
  have hcur := h.cur
  have hnext : s.next = s.gTxCur := by
    rw [h.next, hfull, Fifo.tail, Nat.add_sub_cancel, Nat.mod_eq_of_lt hcur]
  have hgiven := h.given_next
  rw [hnext, hfree, hfull] at hgiven
  cases hgiven

theorem Tx.Ok.driver (mem : Bytes) (tsad : Nat → Nat) {phase : TxPhase} (h : s.Ok count)
    (hmem : ∀ k < RTL_TX_BUFS, s.given k = true → ∀ x < 1792,
      mem (s.gTxBuffer k + x) = s.mem (s.gTxBuffer k + x))
    (htsad : ∀ k, s.given k = true → tsad k = s.tsad k)
    (hdone : phase.Done mem (s.gTxBuffer s.gTxCur) (tsad s.gTxCur))
    (hfree : phase ≠ .idle → s.given s.gTxCur = false) :
    Tx.Ok { s with mem := mem, tsad := tsad, phase := phase } count := by
  have hframe : ∀ k < RTL_TX_BUFS, s.given k = true →
      packetAt mem (tsad k) (txSize (s.tsd k)) = s.frame k := by
    intro k hk hgiven
    obtain ⟨haddr, hsize⟩ := h.regs k hk hgiven
    rw [htsad k hgiven, Tx.frame, haddr]
    exact packetAt_congr fun x hx => hmem k hk hgiven x (by omega)
  have hnext : s.next < RTL_TX_BUFS := h.next ▸ Nat.mod_lt _ (Nat.zero_lt_succ 3)
  refine ⟨h.buffers, h.cur, h.count_le, h.next, h.given, ?_, fun k hk hgiven => ?_,
    fun hgiven => ?_, h.empty, hdone, hfree⟩
  · refine Eq.trans ?_ h.sent
    congr 1
    refine List.map_congr_left fun i hi => ?_
    exact hframe _ (Nat.mod_lt _ (Nat.zero_lt_succ 3)) (h.queued (List.mem_range.mp hi))
  · obtain ⟨haddr, hsize⟩ := h.regs k hk hgiven
    exact ⟨(htsad k hgiven).trans haddr, hsize⟩
  · refine (h.fetched hgiven).trans ?_
    rw [← hframe _ hnext hgiven]
    rfl

-- ---------------------------------------------------------------------------
-- The steps
-- ---------------------------------------------------------------------------

theorem Tx.Ok.send (h : s.Ok count) (hfree : s.given s.gTxCur = false) (data : List UInt8) :
    (rtl8139Send s data).Ok count := by
  rw [rtl8139Send]
  split
  · exact h
  · rename_i hlen
    refine h.driver _ _ (fun _ _ _ _ _ => rfl) (fun _ _ => rfl) ?_ fun _ => hfree
    exact ⟨by omega, Nat.zero_le _, rfl⟩

theorem Tx.Ok.command (h : s.Ok count) (hlen : data.length ≤ 1792)
    (hcopied : packetAt s.mem (s.gTxBuffer s.gTxCur) data.length = data)
    (haddr : s.tsad s.gTxCur = s.gTxBuffer s.gTxCur) (hfree : s.given s.gTxCur = false) :
    Tx.Ok { s with
      tsd := update s.tsd s.gTxCur (txCommand data.length)
      given := update s.given s.gTxCur true
      gTxCur := (s.gTxCur + 1) % RTL_TX_BUFS
      phase := .idle
      accepted := s.accepted ++ [data] } (count + 1) := by
  have hcur := h.cur
  have hroom := h.room hfree
  have hnext := h.next
  have hframe : ∀ k, packetAt s.mem (s.tsad k)
      (txSize (update s.tsd s.gTxCur (txCommand data.length) k)) =
        if k = s.gTxCur then data else s.frame k := by
    intro k
    by_cases hk : k = s.gTxCur
    · rw [if_pos hk, hk, Function.update_self, txSize_command hlen, haddr, hcopied]
    · rw [if_neg hk, Function.update_of_ne hk]
      rfl
  -- the descriptor is the one behind those that the card has
  have hslot : (s.next + count) % RTL_TX_BUFS = s.gTxCur := by
    rw [hnext, Fifo.tail, Nat.mod_add_mod, Nat.sub_add_cancel (by omega), Nat.add_mod_right,
      Nat.mod_eq_of_lt hcur]
  refine ⟨h.buffers, Nat.mod_lt _ (Nat.zero_lt_succ 3), hroom, ?_, fun j hj => ?_, ?_,
    fun k hk hgiven => ?_, fun hgiven => ?_, fun hgiven => ?_, trivial,
    fun hidle => absurd rfl hidle⟩
  · rw [hnext]
    simp only [Fifo.tail, RTL_TX_BUFS] at *
    omega
  · dsimp only
    by_cases hj' : j = count
    · rw [hj', hslot, Function.update_self, decide_eq_true (Nat.lt_succ_self count)]
    · have hne : (s.next + j) % RTL_TX_BUFS ≠ s.gTxCur := by
        simp only [RTL_TX_BUFS] at *
        omega
      rw [Function.update_of_ne hne, h.given j hj, decide_eq_decide]
      omega
  · have hput : Fifo.contents RTL_TX_BUFS (fun k => if k = s.gTxCur then data else s.frame k)
        ((s.gTxCur + 1) % RTL_TX_BUFS) (count + 1) = _ := Fifo.contents_put hcur hroom data
    rw [← h.sent, List.append_assoc, ← hput]
    congr 2
    exact funext hframe
  · by_cases hk' : k = s.gTxCur
    · dsimp only
      rw [hk', Function.update_self, txSize_command hlen]
      exact ⟨haddr, hlen⟩
    · dsimp only at hgiven ⊢
      rw [Function.update_of_ne hk'] at hgiven ⊢
      exact h.regs k hk hgiven
  · dsimp only at hgiven ⊢
    by_cases hn : s.next = s.gTxCur
    · rw [h.empty (hn ▸ hfree), List.length_nil, List.take_zero]
    · rw [Function.update_of_ne hn] at hgiven
      have hsame := hframe s.next
      rw [if_neg hn] at hsame
      rw [Tx.frame, hsame]
      exact h.fetched hgiven
  · dsimp only at hgiven ⊢
    by_cases hn : s.next = s.gTxCur
    · exact h.empty (hn ▸ hfree)
    · rw [Function.update_of_ne hn] at hgiven
      exact h.empty hgiven

theorem Tx.Ok.sendStep (h : s.Ok count) (hs : Rtl8139.sendStep s = some s') :
    ∃ count', s'.Ok count' := by
  have hdone := h.done
  have hfree := h.free
  have hcur := h.cur
  rw [Rtl8139.sendStep] at hs
  cases hphase : s.phase with
  | idle =>
    rw [hphase] at hs
    cases hs
  | copy data i =>
    rw [hphase] at hs hdone hfree
    obtain ⟨hlen, hi, hcopied⟩ := hdone
    have hfree := hfree nofun
    dsimp only at hs
    split at hs
    · rename_i hlt
      cases hs
      refine ⟨count, h.driver _ s.tsad (fun k hk hgiven x hx => ?_) (fun _ _ => rfl) ?_
        fun _ => hfree⟩
      · have hne : k ≠ s.gTxCur := by
          rintro rfl
          rw [hfree] at hgiven
          cases hgiven
        have hapart := h.buffers.apart k hk s.gTxCur hcur hne
        exact setByte_ne _ _ (by omega)
      · refine ⟨hlen, hlt, ?_⟩
        rw [packetAt_succ, setByte_same, List.take_succ_eq_append_getElem hlt, ← hcopied,
          packetAt_congr fun x hx => setByte_ne _ _ (by omega), List.getD_eq_getElem _ _ hlt]
    · rename_i hge
      cases hs
      refine ⟨count, h.driver s.mem s.tsad (fun _ _ _ _ _ => rfl) (fun _ _ => rfl) ?_
        fun _ => hfree⟩
      obtain rfl : i = data.length := by omega
      exact ⟨hlen, by rw [hcopied, List.take_length]⟩
  | address data =>
    rw [hphase] at hs hdone hfree
    obtain ⟨hlen, hcopied⟩ := hdone
    have hfree := hfree nofun
    cases hs
    refine ⟨count, h.driver s.mem _ (fun _ _ _ _ _ => rfl) (fun k hgiven => ?_) ?_
      fun _ => hfree⟩
    · refine Function.update_of_ne ?_ ..
      rintro rfl
      rw [hfree] at hgiven
      cases hgiven
    · refine ⟨hlen, hcopied, ?_⟩
      have hlow := h.buffers.low _ hcur
      rw [Function.update_self, Nat.mod_eq_of_lt (by omega)]
  | command data =>
    rw [hphase] at hs hdone hfree
    obtain ⟨hlen, hcopied, haddr⟩ := hdone
    have hfree := hfree nofun
    cases hs
    exact ⟨count + 1, h.command hlen hcopied haddr hfree⟩

theorem Tx.Ok.fetch (h : s.Ok count) (hs : Rtl8139.fetch s = some s') : s'.Ok count := by
  rw [Rtl8139.fetch] at hs
  split at hs
  · rename_i hmore
    obtain ⟨hgiven, hlt⟩ := hmore
    cases hs
    have hfetched := h.fetched hgiven
    rw [Tx.frame, packetAt_take _ _ (Nat.le_of_lt hlt)] at hfetched
    refine ⟨h.buffers, h.cur, h.count_le, h.next, h.given, h.sent, h.regs, fun _ => ?_,
      fun hno => ?_, h.done, h.free⟩
    · dsimp only
      rw [Tx.frame, List.length_append, List.length_singleton, packetAt_take _ _ hlt,
        packetAt_succ, ← hfetched]
    · rw [hgiven] at hno
      cases hno
  · cases hs

theorem Tx.Ok.finish (h : s.Ok count) (hs : Rtl8139.finish s = some s') :
    ∃ count', s'.Ok count' := by
  rw [Rtl8139.finish] at hs
  split at hs
  · rename_i hmore
    obtain ⟨hgiven, hle⟩ := hmore
    cases hs
    have hcur := h.cur
    have hle' := h.count_le
    have hpos : 0 < count := by
      have hnext := h.given_next
      rw [hgiven] at hnext
      exact of_decide_eq_true hnext.symm
    obtain ⟨count, rfl⟩ : ∃ c, count = c + 1 := ⟨count - 1, by omega⟩
    have hnext := h.next
    have hlt : s.next < RTL_TX_BUFS := hnext ▸ Nat.mod_lt _ (Nat.zero_lt_succ 3)
    have hwhole : s.fetched = s.frame s.next := by
      rw [h.fetched hgiven, List.take_of_length_le]
      rw [Tx.frame, packetAt_length]
      exact hle
    refine ⟨count, h.buffers, hcur, Nat.le_of_succ_le hle', ?_, fun j hj => ?_, ?_,
      fun k hk hgiven' => ?_, fun _ => rfl, fun _ => rfl, h.done, fun hphase => ?_⟩
    · dsimp only
      rw [hnext]
      simp only [Fifo.tail, RTL_TX_BUFS] at *
      omega
    · dsimp only
      have hslot : ((s.next + 1) % RTL_TX_BUFS + j) % RTL_TX_BUFS =
          (s.next + (j + 1)) % RTL_TX_BUFS := by
        rw [Nat.mod_add_mod, Nat.add_assoc, Nat.add_comm 1]
      rw [hslot]
      by_cases hlast : j + 1 = RTL_TX_BUFS
      · have hround : (s.next + (j + 1)) % RTL_TX_BUFS = s.next := by
          rw [hlast, Nat.add_mod_right, Nat.mod_eq_of_lt hlt]
        rw [hround, Function.update_self, eq_comm, decide_eq_false_iff_not]
        omega
      · have hne : (s.next + (j + 1)) % RTL_TX_BUFS ≠ s.next := by
          simp only [RTL_TX_BUFS] at *
          omega
        rw [Function.update_of_ne hne, h.given (j + 1) (by omega), decide_eq_decide]
        omega
    · have htake : Fifo.contents RTL_TX_BUFS s.frame s.gTxCur (count + 1) = _ :=
        Fifo.contents_take (show count < RTL_TX_BUFS by omega)
      have hsent := h.sent
      rw [htake, ← hnext, ← hwhole] at hsent
      dsimp only
      rw [List.append_assoc]
      exact hsent
    · dsimp only at hgiven' ⊢
      by_cases hk' : k = s.next
      · rw [hk', Function.update_self] at hgiven'
        cases hgiven'
      · rw [Function.update_of_ne hk'] at hgiven'
        exact h.regs k hk hgiven'
    · have hfree := h.free hphase
      dsimp only
      by_cases hc : s.gTxCur = s.next
      · rw [hc, Function.update_self]
      · rw [Function.update_of_ne hc, hfree]
  · cases hs

theorem txStep_ok (h : s.Ok count) (hok : DescriptorFree s a) (hs : txStep s a s') :
    ∃ count', s'.Ok count' := by
  cases a with
  | send data =>
    rw [txStep, txAct] at hs
    split at hs
    · cases hs
      exact ⟨count, h.send hok data⟩
    · cases hs
  | driver => exact h.sendStep hs
  | fetch => exact ⟨count, h.fetch hs⟩
  | finish => exact h.finish hs

theorem txStep_frames (hs : txStep s a s') :
    s'.accepted ++ s'.phase.frames = s.accepted ++ s.phase.frames ++ a.frame.toList := by
  cases a with
  | send data =>
    rw [txStep, txAct] at hs
    split at hs
    · rename_i hidle
      cases hs
      rw [rtl8139Send, TxAct.frame, hidle]
      split
      · rw [hidle, Option.toList_none, List.append_nil]
      · simp [TxPhase.frames]
    · cases hs
  | driver =>
    refine Eq.trans ?_ (List.append_nil _).symm
    rw [txStep, txAct, sendStep] at hs
    cases hphase : s.phase with
    | idle =>
      rw [hphase] at hs
      cases hs
    | copy data i =>
      rw [hphase] at hs
      dsimp only at hs
      split at hs
      · cases hs
        rfl
      · cases hs
        rfl
    | address data =>
      rw [hphase] at hs
      cases hs
      rfl
    | command data =>
      rw [hphase] at hs
      cases hs
      exact List.append_nil _
  | fetch =>
    refine Eq.trans ?_ (List.append_nil _).symm
    rw [txStep, txAct, Rtl8139.fetch] at hs
    split at hs
    · cases hs
      rfl
    · cases hs
  | finish =>
    refine Eq.trans ?_ (List.append_nil _).symm
    rw [txStep, txAct, Rtl8139.finish] at hs
    split at hs
    · cases hs
      rfl
    · cases hs

-- ---------------------------------------------------------------------------
-- Runs
-- ---------------------------------------------------------------------------

theorem run_frames (h : Run txStep ok s as s') :
    s'.accepted ++ s'.phase.frames = s.accepted ++ s.phase.frames ++ as.filterMap TxAct.frame := by
  induction h with
  | nil => exact (List.append_nil _).symm
  | @cons s a s₁ as s' _ hs _ ih =>
    rw [ih, txStep_frames hs, List.append_assoc, List.filterMap_cons]
    cases a.frame <;> rfl

theorem Tx.Ok.outstanding (h : s.Ok count) :
    s.outstanding = Fifo.contents RTL_TX_BUFS s.frame s.gTxCur count := by
  have hrange : ∀ c < 5, (List.range RTL_TX_BUFS).filter (fun j => decide (j < c)) =
      List.range c := by decide
  have hle := h.count_le
  have hfilter : (List.range RTL_TX_BUFS).filter
      (s.given ∘ fun j => (s.next + j) % RTL_TX_BUFS) = List.range count := by
    rw [← hrange count (Nat.lt_succ_of_le hle)]
    exact List.filter_congr fun j hj => h.given j (List.mem_range.mp hj)
  rw [Tx.outstanding, List.filter_map, hfilter, List.map_map, Fifo.contents]
  refine List.map_congr_left fun j _ => ?_
  rw [Function.comp, h.next, Fifo.tail, Nat.mod_add_mod]

/-- However the card and the driver take turns, the frames are on the wire in the order of the
calls and byte for byte as they were given, but for those that the card or the call still has. -/
theorem frames_in_order (hbuf : TxBuffers buf)
    (h : Run txStep DescriptorFree (.init mem buf) as s) :
    s.wire ++ s.outstanding ++ s.phase.frames = as.filterMap TxAct.frame := by
  obtain ⟨count, hok⟩ := h.invariant (fun s => ∃ count, s.Ok count) ⟨0, init_txOk hbuf mem⟩
    fun _ _ _ ⟨_, hs⟩ hfree hstep => txStep_ok hs hfree hstep
  have hframes := run_frames h
  rw [← hok.sent, ← hok.outstanding] at hframes
  exact hframes

theorem run_of_acts (hok : ∀ s, ∀ a ∈ as, ok s a) (h : as.foldlM txAct s = some s') :
    Run txStep ok s as s' := by
  induction as generalizing s with
  | nil =>
    cases h
    exact .nil
  | cons a as ih =>
    rw [List.foldlM_cons] at h
    obtain ⟨s₁, hs, h⟩ := Option.bind_eq_some_iff.mp h
    exact .cons (hok s a List.mem_cons_self) hs
      (ih (fun s b hb => hok s b (List.mem_cons_of_mem a hb)) h)

def smallFrame (b : UInt8) : List UInt8 := List.replicate 14 b

def smallSend (b : UInt8) : List TxAct := .send (smallFrame b) :: List.replicate 17 .driver

def fourFrames (k : Nat) : Nat := 0x10000 + 4096 * k

theorem fourFrames_buffers : TxBuffers fourFrames := by
  refine ⟨fun k hk => ?_, fun k hk l hl hne => ?_⟩
  · simp only [RTL_TX_BUFS, fourFrames] at *
    omega
  · simp only [fourFrames]
    omega

def smallRest : List TxAct :=
  List.replicate 17 .driver ++ List.replicate 14 .fetch ++ [.finish]

theorem smallRest_free (s : Tx) : ∀ a ∈ smallRest, DescriptorFree s a := by
  intro a ha
  have hcases : a = .driver ∨ a = .fetch ∨ a = .finish := by
    simpa [smallRest] using ha
  obtain rfl | rfl | rfl := hcases
  · trivial
  · trivial
  · trivial

theorem frames_in_order_one : ∃ s, Run txStep DescriptorFree (.init (fun _ => 0) fourFrames)
    (.send (smallFrame 7) :: smallRest) s ∧
      s.wire ++ s.outstanding ++ s.phase.frames = [smallFrame 7] := by
  have hdone : (smallRest.foldlM txAct
      (rtl8139Send (.init (fun _ => 0) fourFrames) (smallFrame 7))).isSome = true := by
    decide +kernel
  obtain ⟨s, hs⟩ := Option.isSome_iff_exists.mp hdone
  have hfree : DescriptorFree (.init (fun _ => 0) fourFrames) (.send (smallFrame 7)) := rfl
  have hsend : txStep (.init (fun _ => 0) fourFrames) (.send (smallFrame 7))
      (rtl8139Send (.init (fun _ => 0) fourFrames) (smallFrame 7)) := rfl
  have hrun := Run.cons hfree hsend (run_of_acts smallRest_free hs)
  exact ⟨s, hrun, frames_in_order fourFrames_buffers hrun⟩

theorem fifth_frame_overwrites : ¬ ∀ as s,
    Run txStep (fun _ _ => True) (.init (fun _ => 0) fourFrames) as s →
      s.wire ++ s.outstanding ++ s.phase.frames = as.filterMap TxAct.frame := by
  intro h
  have hlost : (((smallSend 1 ++ smallSend 2 ++ smallSend 3 ++ smallSend 4 ++ smallSend 5).foldlM
      txAct (.init (fun _ => 0) fourFrames)).map fun s =>
        s.wire ++ s.outstanding ++ s.phase.frames) =
      some [smallFrame 5, smallFrame 2, smallFrame 3, smallFrame 4] := by decide +kernel
  obtain ⟨s, hs, hframes⟩ := Option.map_eq_some_iff.mp hlost
  have hall := h _ s (run_of_acts (fun _ _ _ => trivial) hs)
  rw [hframes] at hall
  exact absurd hall (by decide +kernel)

end EponaOS.Drivers.Rtl8139
