import EponaOS.Lib.Run
import EponaOS.Net.Segment

/-!
# One connection

From `tcp_http_start` on, frames arrive in any order and the timer runs. The server's
segments are cut from one stream; the network may lose, repeat, delay and reorder them.
What is handed to `http_process_payload` is a prefix of the stream at every point.
-/

namespace EponaOS.Net

open Msg

inductive NetAct
  | frame (f : Msg)
  /-- `tcp_poll_retransmit` in `net_poll` -/
  | timer
  | ping (dstIp : Nat)

def netStep (s : NetState) : NetAct → NetState → Prop
  | .frame f, s' => netHandlePacket s f = some s'
  | .timer, s' => s' = tcpPollRetransmit s
  | .ping dstIp, s' => s' = netPingSend s dstIp

/-- The initial sequence number of the server and what it sends after its SYN. -/
structure Server where
  isn : Nat
  stream : Msg

/-- The sequence number of the byte at `k`; its FIN has the one behind the stream. -/
def Server.seqOf (srv : Server) (k : Nat) : Nat := (srv.isn + 1 + k) % 2 ^ 32

def Server.Cut (srv : Server) (seg : Segment) : Prop :=
  seg.flags &&& TCP_FLAG_RST ≠ 0 ∨
  (seg.flags &&& TCP_FLAG_SYN ≠ 0 ∧ seg.seq = srv.isn % 2 ^ 32) ∨
  (seg.flags &&& TCP_FLAG_SYN = 0 ∧ ∃ k ≤ srv.stream.length + 1, seg.seq = srv.seqOf k ∧
    seg.payload <+: srv.stream.drop k)

/-- What arrives under the name of the server is its own and is whole. -/
def FromServer (srv : Server) (remote : Nat) (_ : NetState) : NetAct → Prop
  | .frame f => OfConnection remote f → Whole f ∧ srv.Cut (segmentOf f)
  | _ => True

/-- The bytes handed to `http_process_payload`. -/
def payloadBytes : List NetEvent → Msg
  | [] => []
  | .payload d :: ev => d ++ payloadBytes ev
  | _ :: ev => payloadBytes ev

theorem payloadBytes_append (ev ev' : List NetEvent) :
    payloadBytes (ev ++ ev') = payloadBytes ev ++ payloadBytes ev' := by
  induction ev with
  | nil => rfl
  | cons e ev ih => cases e <;> simp [payloadBytes, ih]

theorem payloadBytes_quiet {ev : List NetEvent} (h : ∀ e ∈ ev, ∀ d, e ≠ .payload d) :
    payloadBytes ev = [] := by
  induction ev with
  | nil => rfl
  | cons e ev ih =>
    have ih := ih fun e he => h e (List.mem_cons_of_mem _ he)
    cases e <;> simp_all [payloadBytes]

-- ---------------------------------------------------------------------------
-- What a segment does
-- ---------------------------------------------------------------------------

structure Opened (s s' : NetState) (ack : Nat) : Prop where
  tcpState : s'.gTcpState = 3
  tcpAck : s'.gTcpAck = ack
  remote : s'.gTcpRemoteIp = s.gTcpRemoteIp
  bytes : s'.gHttpBytes = s.gHttpBytes
  events : ∃ ip x p, s'.events = s.events ++
    [.tcp ip x ack TCP_FLAG_ACK [], .tcp ip x ack (TCP_FLAG_PSH ||| TCP_FLAG_ACK) p]

structure Took (s s' : NetState) (d : Msg) (len ack : Nat) : Prop where
  tcpState : s'.gTcpState = 4
  tcpAck : s'.gTcpAck = ack
  remote : s'.gTcpRemoteIp = s.gTcpRemoteIp
  bytes : s'.gHttpBytes = (s.gHttpBytes + len) % 2 ^ 32
  events : ∃ ip x, s'.events = s.events ++ [.payload d, .tcp ip x ack TCP_FLAG_ACK []]

structure Finned (s s' : NetState) (ack : Nat) : Prop where
  tcpState : s'.gTcpState = 6
  remote : s'.gTcpRemoteIp = s.gTcpRemoteIp
  bytes : s'.gHttpBytes = s.gHttpBytes
  events : ∃ ip x, s'.events = s.events ++ [.tcp ip x ack TCP_FLAG_ACK []]

variable {s s' s₁ : NetState} {f : Msg}

theorem tcpAcceptData_took (h : tcpAcceptData s f seq off len = some s') :
    Took s s' ((f.drop off).take len) len ((seq + len) % 2 ^ 32) := by
  obtain ⟨body, done, printed, rfl⟩ := tcpAcceptData_frame h
  exact ⟨rfl, rfl, rfl, rfl, _, _, List.append_assoc ..⟩

theorem tcpFin_finned (h : flags &&& TCP_FLAG_FIN ≠ 0) :
    Finned s (tcpFin s seq flags len) ((seq + len + 1) % 2 ^ 32) := by
  obtain ⟨printed, htaken⟩ := tcpFin_frame s seq len h
  rw [htaken]
  exact ⟨rfl, rfl, rfl, _, _, rfl⟩

/-- All that a segment can do, by the branches of `handle_tcp`. -/
theorem tcpSegment_cases {ack : Nat} (h : tcpSegment s f seq ack flags off len = some s') :
    (flags &&& TCP_FLAG_RST ≠ 0 ∧ s' = { s with gTcpState := 5 }) ∨
    (flags &&& TCP_FLAG_RST = 0 ∧ s.gTcpState = 1 ∧ flags &&& TCP_FLAG_SYN ≠ 0 ∧
      Opened s s' ((seq + 1) % 2 ^ 32)) ∨
    (s.Receiving ∧ s' = s.sendTcp s.gTcpSeq s.gTcpAck TCP_FLAG_ACK []) ∨
    (flags &&& TCP_FLAG_RST = 0 ∧ s.Receiving ∧ 0 < len ∧ seq = s.gTcpAck ∧
      ∃ s₁, Took s s₁ ((f.drop off).take len) len ((seq + len) % 2 ^ 32) ∧
        s' = tcpFin s₁ seq flags len) ∨
    (flags &&& TCP_FLAG_RST = 0 ∧ ¬(s.Receiving ∧ 0 < len) ∧ s' = tcpFin s seq flags len) := by
  rw [tcpSegment] at h
  split at h
  case isTrue hrst =>
    cases h
    exact .inl ⟨hrst, rfl⟩
  case isFalse hrst =>
  have hrst := Decidable.not_not.mp hrst
  have hrecv : 3 ≤ s.gTcpState ∧ s.gTcpState ≤ 4 ↔ s.Receiving := by
    rw [NetState.Receiving]
    omega
  split at h
  case isTrue hsyn =>
    have hmask : (TCP_FLAG_SYN ||| TCP_FLAG_ACK) &&& TCP_FLAG_SYN = TCP_FLAG_SYN := by decide
    have hf : flags &&& TCP_FLAG_SYN = TCP_FLAG_SYN := by
      rw [← hmask, ← Nat.and_assoc, hsyn.2.1]
    cases h
    exact .inr (.inl ⟨hrst, hsyn.1, by rw [hf]; decide, rfl, rfl, rfl, rfl, _, _, _,
      List.append_assoc ..⟩)
  split at h
  case isTrue hdata =>
    have hopen := hrecv.mp ⟨hdata.1, hdata.2.1⟩
    split at h
    · cases h
      exact .inr (.inr (.inl ⟨hopen, rfl⟩))
    · rename_i hseq
      obtain ⟨s₁, h₁, h⟩ := Option.bind_eq_some_iff.mp h
      cases h
      exact .inr (.inr (.inr (.inl ⟨hrst, hopen, hdata.2.2, Decidable.not_not.mp hseq, s₁,
        tcpAcceptData_took h₁, rfl⟩)))
  case isFalse hdata =>
    cases h
    refine .inr (.inr (.inr (.inr ⟨hrst, fun ho => hdata ?_, rfl⟩)))
    have := hrecv.mpr ho.1
    exact ⟨this.1, this.2, ho.2⟩

theorem segmentOf_length (h : Whole f) : (segmentOf f).payload.length = tcpPayloadLen f := by
  simp only [segmentOf, List.length_take, List.length_drop, Whole, tcpAt, tcpPayloadLen] at *
  omega

structure Resent (s s' : NetState) : Prop where
  tcpState : s'.gTcpState = s.gTcpState ∨ s'.gTcpState = 7
  tcpAck : s'.gTcpAck = s.gTcpAck
  remote : s'.gTcpRemoteIp = s.gTcpRemoteIp
  bytes : s'.gHttpBytes = s.gHttpBytes
  events : s'.events = s.events ∨
    (∃ ip x, s'.events = s.events ++ [.tcp ip x 0 TCP_FLAG_SYN []]) ∨
    (s.Receiving ∧ ∃ ip x p,
      s'.events = s.events ++ [.tcp ip x s.gTcpAck (TCP_FLAG_PSH ||| TCP_FLAG_ACK) p])

theorem tcpPollRetransmit_resent (s : NetState) : Resent s (tcpPollRetransmit s) := by
  rw [tcpPollRetransmit]
  split
  · exact ⟨.inl rfl, rfl, rfl, rfl, .inl rfl⟩
  rename_i hstate
  dsimp only
  split
  · exact ⟨.inl rfl, rfl, rfl, rfl, .inl rfl⟩
  split
  · exact ⟨.inr rfl, rfl, rfl, rfl, .inl rfl⟩
  split
  · exact ⟨.inl rfl, rfl, rfl, rfl, .inr (.inl ⟨_, _, rfl⟩)⟩
  · rename_i hne
    have hne : s.gTcpState ≠ 1 := hne
    refine ⟨.inl rfl, rfl, rfl, rfl, .inr (.inr ⟨.inl ?_, _, _, _, rfl⟩)⟩
    omega

-- ---------------------------------------------------------------------------
-- A prefix is delivered
-- ---------------------------------------------------------------------------

structure Delivering (srv : Server) (remote : Nat) (s₀ s : NetState) : Prop where
  live : s.gTcpState ≠ 0
  remote : s.gTcpRemoteIp = remote
  fresh : s.gTcpState = 1 → s.gHttpBytes = 0
  next : s.Receiving → s.gTcpAck = srv.seqOf s.gHttpBytes
  bytes : s.gHttpBytes ≤ srv.stream.length
  events : ∃ ev, s.events = s₀.events ++ ev ∧ payloadBytes ev = srv.stream.take s.gHttpBytes

variable {srv : Server} {remote : Nat} {s₀ : NetState}

theorem Delivering.same (h : Delivering srv remote s₀ s) (hlive : s'.gTcpState ≠ 0)
    (hremote : s'.gTcpRemoteIp = s.gTcpRemoteIp) (hbytes : s'.gHttpBytes = s.gHttpBytes)
    (hfresh : s'.gTcpState = 1 → s.gTcpState = 1)
    (hnext : s'.Receiving → s.Receiving ∧ s'.gTcpAck = s.gTcpAck)
    (hev : s'.events = s.events ++ ev) (hquiet : payloadBytes ev = []) :
    Delivering srv remote s₀ s' := by
  obtain ⟨ev₀, he, hd⟩ := h.events
  refine ⟨hlive, hremote.trans h.remote, fun hs => ?_, fun hs => ?_, ?_, ev₀ ++ ev, ?_, ?_⟩
  · rw [hbytes, h.fresh (hfresh hs)]
  · rw [(hnext hs).2, h.next (hnext hs).1, hbytes]
  · rw [hbytes]
    exact h.bytes
  · rw [hev, he, List.append_assoc]
  · rw [payloadBytes_append, hd, hquiet, List.append_nil, hbytes]

theorem Delivering.quiet (h : Delivering srv remote s₀ s) (hq : Quiet s s') :
    Delivering srv remote s₀ s' := by
  obtain ⟨ev, he, hev⟩ := hq.events
  refine h.same ?_ hq.remote hq.bytes (fun hs => ?_) (fun hs => ?_) he
    (payloadBytes_quiet fun e hm => (hev e hm).1)
  · rw [hq.tcpState]
    exact h.live
  · rw [← hq.tcpState, hs]
  · rw [NetState.Receiving, hq.tcpState] at hs
    exact ⟨hs, hq.tcpAck⟩

theorem Delivering.resent (h : Delivering srv remote s₀ s) (hr : Resent s s') :
    Delivering srv remote s₀ s' := by
  have hlive := h.live
  have hstate := hr.tcpState
  have hev : ∃ ev, s'.events = s.events ++ ev ∧ payloadBytes ev = [] := by
    obtain he | ⟨_, _, he⟩ | ⟨_, _, _, _, he⟩ := hr.events
    · exact ⟨[], by simp [he], rfl⟩
    · exact ⟨_, he, rfl⟩
    · exact ⟨_, he, rfl⟩
  obtain ⟨ev, he, hp⟩ := hev
  refine h.same ?_ hr.remote hr.bytes (fun hs => ?_) (fun hs => ?_) he hp
  · omega
  · omega
  · refine ⟨?_, hr.tcpAck⟩
    rw [NetState.Receiving] at hs ⊢
    omega

theorem Delivering.fin (h : Delivering srv remote s₀ s) :
    Delivering srv remote s₀ (tcpFin s seq flags len) := by
  by_cases hfin : flags &&& TCP_FLAG_FIN = 0
  · rw [tcpFin_none hfin]
    exact h
  · have hf : Finned s (tcpFin s seq flags len) _ := tcpFin_finned hfin
    obtain ⟨_, _, he⟩ := hf.events
    refine h.same ?_ hf.remote hf.bytes (fun hs => ?_) (fun hs => ?_) he rfl
    · rw [hf.tcpState]
      decide
    · rw [hf.tcpState] at hs
      cases hs
    · rw [NetState.Receiving, hf.tcpState] at hs
      omega

/-- The byte at `k` and the next expected one have one sequence number only if they are one. -/
theorem Server.seqOf_inj (srv : Server) (hj : j < 2 ^ 32) (hk : k < 2 ^ 32) (h : srv.seqOf j = srv.seqOf k) :
    j = k := by
  simp only [Server.seqOf] at h
  omega

theorem Delivering.took (hL : srv.stream.length + 1 < 2 ^ 32) (h : Delivering srv remote s₀ s)
    (hcut : srv.Cut seg) (hrst : seg.flags &&& TCP_FLAG_RST = 0) (hopen : s.Receiving)
    (hpos : 0 < seg.payload.length) (hseq : seg.seq = s.gTcpAck)
    (ht : Took s s' seg.payload seg.payload.length
      ((seg.seq + seg.payload.length) % 2 ^ 32)) :
    Delivering srv remote s₀ s' ∧ s'.gHttpBytes = s.gHttpBytes + seg.payload.length ∧
      seg.payload <+: srv.stream.drop s.gHttpBytes := by
  have hnext := h.next hopen
  have hbytes := h.bytes
  obtain hr | ⟨-, hsyn⟩ | ⟨-, k, hk, hkseq, hpre⟩ := hcut
  · exact absurd hrst hr
  · -- the SYN comes before the first byte
    rw [hseq, hnext, Server.seqOf] at hsyn
    omega
  · have hkn : k = s.gHttpBytes :=
      srv.seqOf_inj (by omega) (by omega) (by rw [← hkseq, hseq, hnext])
    subst hkn
    have hlen := hpre.length_le
    rw [List.length_drop] at hlen
    have hb : s'.gHttpBytes = s.gHttpBytes + seg.payload.length := by
      rw [ht.bytes]
      omega
    refine ⟨⟨?_, ht.remote.trans h.remote, fun hs => ?_, fun _ => ?_, by omega, ?_⟩, hb, hpre⟩
    · rw [ht.tcpState]
      decide
    · rw [ht.tcpState] at hs
      cases hs
    · rw [ht.tcpAck, hkseq, hb, Server.seqOf, Server.seqOf]
      omega
    · obtain ⟨ev, he, hd⟩ := h.events
      obtain ⟨_, _, he'⟩ := ht.events
      refine ⟨_, by rw [he', he, List.append_assoc], ?_⟩
      rw [payloadBytes_append, hd, hb, List.take_add]
      simp only [payloadBytes, List.append_nil]
      rw [List.prefix_iff_eq_take.mp hpre]
      simp

theorem Delivering.opened (h : Delivering srv remote s₀ s) (hcut : srv.Cut seg)
    (hrst : seg.flags &&& TCP_FLAG_RST = 0) (hsyn : seg.flags &&& TCP_FLAG_SYN ≠ 0)
    (hstate : s.gTcpState = 1) (ho : Opened s s' ((seg.seq + 1) % 2 ^ 32)) :
    Delivering srv remote s₀ s' ∧ (seg.seq + 1) % 2 ^ 32 = srv.seqOf 0 := by
  have hzero := h.fresh hstate
  obtain ⟨ev, he, hd⟩ := h.events
  obtain ⟨_, _, _, he'⟩ := ho.events
  rw [he, List.append_assoc] at he'
  have hseq : (seg.seq + 1) % 2 ^ 32 = srv.seqOf 0 := by
    obtain hr | ⟨-, hseq⟩ | ⟨hns, -⟩ := hcut
    · exact absurd hrst hr
    · rw [hseq, Server.seqOf]
      omega
    · exact absurd hns hsyn
  refine ⟨⟨?_, ho.remote.trans h.remote, fun hs => ?_, fun _ => ?_, ?_, _, he', ?_⟩, hseq⟩
  · rw [ho.tcpState]
    decide
  · rw [ho.tcpState] at hs
    cases hs
  · rw [ho.tcpAck, ho.bytes, hzero, hseq]
  · rw [ho.bytes]
    exact h.bytes
  · rw [payloadBytes_append, hd, ho.bytes]
    exact List.append_nil _

theorem Delivering.segment (hL : srv.stream.length + 1 < 2 ^ 32) (h : Delivering srv remote s₀ s)
    (hwhole : Whole f) (hcut : srv.Cut (segmentOf f))
    (hseg : tcpSegment s f (segmentOf f).seq (segmentOf f).ack (segmentOf f).flags
      (tcpAt f + tcpHlen f) (tcpPayloadLen f) = some s') : Delivering srv remote s₀ s' := by
  have hlen := segmentOf_length hwhole
  obtain ⟨-, rfl⟩ | ⟨hrst, hstate, hsyn, ho⟩ | ⟨hopen, rfl⟩ |
    ⟨hrst, hopen, hpos, hseq, s₁, ht, rfl⟩ | ⟨-, -, rfl⟩ := tcpSegment_cases hseg
  · exact h.same nofun rfl rfl nofun nofun (List.append_nil _).symm rfl
  · exact (h.opened hcut hrst hsyn hstate ho).1
  · exact h.same h.live rfl rfl id (fun _ => ⟨hopen, rfl⟩) rfl rfl
  · have ht : Took s s₁ (segmentOf f).payload (tcpPayloadLen f) _ := ht
    rw [← hlen] at hpos ht
    exact (h.took hL hcut hrst hopen hpos hseq ht).1.fin
  · exact h.fin

theorem Delivering.step (hL : srv.stream.length + 1 < 2 ^ 32) (h : Delivering srv remote s₀ s)
    (hok : FromServer srv remote s a) (hstep : netStep s a s') : Delivering srv remote s₀ s' := by
  cases a with
  | frame f =>
    obtain hq | ⟨hof, hseg⟩ := netHandlePacket_cases h.live hstep
    · exact h.quiet hq
    · rw [h.remote] at hof
      obtain ⟨hwhole, hcut⟩ := hok hof
      exact h.segment hL hwhole hcut hseg
  | timer =>
    cases hstep
    exact h.resent (tcpPollRetransmit_resent s)
  | ping dstIp =>
    cases hstep
    rw [netPingSend]
    split
    · exact h
    · exact h.quiet ⟨rfl, rfl, rfl, rfl, rfl, [.icmp dstIp], rfl, by simp⟩

theorem Delivering.start (srv : Server) (hgw : s₀.gGatewayKnown = true) (h0 : s₀.gTcpState = 0) :
    Delivering srv dstIp s₀ (tcpHttpStart s₀ dstIp) := by
  rw [tcpHttpStart, if_neg (by simp [hgw, h0])]
  refine ⟨Nat.one_ne_zero, rfl, fun _ => rfl, fun hs => ?_, Nat.zero_le _, [_], rfl, rfl⟩
  obtain hs | hs := hs <;> cases hs

/-- However the segments arrive, what has been handed on is a prefix of the stream. -/
theorem http_payload_prefix (srv : Server) (hL : srv.stream.length < 2 ^ 31)
    (s₀ : NetState) (hgw : s₀.gGatewayKnown = true) (h0 : s₀.gTcpState = 0) (dstIp : Nat)
    (as : List NetAct) (h : Run netStep (FromServer srv dstIp) (tcpHttpStart s₀ dstIp) as s) :
    ∃ ev, s.events = s₀.events ++ ev ∧ payloadBytes ev <+: srv.stream ∧
      s.gHttpBytes = (payloadBytes ev).length := by
  have hinv := h.invariant (Delivering srv dstIp s₀) (.start srv hgw h0)
    fun _ _ _ hs hok hstep => hs.step (by omega) hok hstep
  obtain ⟨ev, he, hd⟩ := hinv.events
  have hb := hinv.bytes
  refine ⟨ev, he, ?_, ?_⟩
  · rw [hd]
    exact List.take_prefix _ _
  · rw [hd, List.length_take]
    omega

-- ---------------------------------------------------------------------------
-- A small server
-- ---------------------------------------------------------------------------

/-- It sends `"HTTP"`. -/
def smallServer : Server where
  isn := 1000
  stream := [72, 84, 84, 80]

def smallServerIp : Nat := 584628317

/-- A segment of `smallServer`, with the low bytes of its sequence number and of the lengths
and sums that belong to it. -/
def smallFrame (total ipSum seq flags sumHi sumLo : UInt8) (payload : Msg) : Msg :=
  [82, 84, 0, 18, 52, 86, 82, 85, 10, 0, 2, 2, 8, 0] ++
  [69, 0, 0, total, 0, 0, 0, 0, 64, 6, 56, ipSum, 93, 184, 216, 34, 10, 0, 2, 15] ++
  [0, 80, 192, 2, 0, 0, 3, seq, 224, 2, 0, 1, 80, flags, 255, 255, sumHi, sumLo, 0, 0] ++ payload

def smallSynAck : Msg := smallFrame 40 231 232 18 201 170 []
def smallFirst : Msg := smallFrame 42 229 233 24 129 77 [72, 84]
def smallLast : Msg := smallFrame 42 229 235 25 117 78 [84, 80]

def idleState : NetState :=
  { netInit [82, 84, 0, 18, 52, 86] 0 with
    gGatewayMac := [82, 85, 10, 0, 2, 2]
    gGatewayKnown := true
    gDhcpConfigured := true
    gDhcpRequested := true
    gDnsRequested := true
    gLocalIp := 251789322
    gGatewayIp := DEFAULT_GATEWAY
    gDnsIp := DEFAULT_GATEWAY }

def behind (s : NetState) (f : Msg) : NetState := (netHandlePacket s f).getD s

theorem netStep_behind (h : (netHandlePacket s f).isSome = true) :
    netStep s (.frame f) (behind s f) := by
  obtain ⟨s', h⟩ := Option.isSome_iff_exists.mp h
  rw [netStep, behind, h, Option.getD_some]

theorem smallSynAck_cut : smallServer.Cut (segmentOf smallSynAck) :=
  .inr (.inl ⟨by decide, by decide⟩)

theorem smallFirst_cut : smallServer.Cut (segmentOf smallFirst) :=
  .inr (.inr ⟨by decide, 0, by decide, by decide, by decide⟩)

theorem smallLast_cut : smallServer.Cut (segmentOf smallLast) :=
  .inr (.inr ⟨by decide, 2, by decide, by decide, by decide⟩)

def smallRun : List NetAct :=
  [.frame smallSynAck, .frame smallLast, .timer, .frame smallFirst, .frame smallLast]

theorem http_payload_prefix_small :
    ∃ ev, (behind (behind (tcpPollRetransmit (behind (behind (tcpHttpStart idleState smallServerIp)
        smallSynAck) smallLast)) smallFirst) smallLast).events = idleState.events ++ ev ∧
      payloadBytes ev <+: smallServer.stream ∧
      (behind (behind (tcpPollRetransmit (behind (behind (tcpHttpStart idleState smallServerIp)
        smallSynAck) smallLast)) smallFirst) smallLast).gHttpBytes = (payloadBytes ev).length :=
  http_payload_prefix smallServer (by decide) idleState rfl rfl smallServerIp smallRun
    (.cons (fun _ => ⟨(by decide : 14 + ipTotalLen smallSynAck ≤ smallSynAck.length),
        smallSynAck_cut⟩) (netStep_behind (by decide +kernel)) <|
      .cons (fun _ => ⟨(by decide : 14 + ipTotalLen smallLast ≤ smallLast.length),
        smallLast_cut⟩) (netStep_behind (by decide +kernel)) <|
      .cons trivial rfl <|
      .cons (fun _ => ⟨(by decide : 14 + ipTotalLen smallFirst ≤ smallFirst.length),
        smallFirst_cut⟩) (netStep_behind (by decide +kernel)) <|
      .cons (fun _ => ⟨(by decide : 14 + ipTotalLen smallLast ≤ smallLast.length),
        smallLast_cut⟩) (netStep_behind (by decide +kernel)) .nil)

end EponaOS.Net
