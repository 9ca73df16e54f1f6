import EponaOS.Net.TcpRun

/-!
# The end of a connection

A FIN closes the connection, and is acknowledged, wherever it falls through to: out of
order, or before the connection is open, as well. Where every FIN of the server comes in
its place, a closed connection has handed on the whole stream, and no acknowledgment covers
a byte that was not handed on.
-/

namespace EponaOS.Net

open Msg

def Server.Honest (srv : Server) (seg : Segment) : Prop :=
  seg.flags &&& TCP_FLAG_RST ≠ 0 ∨
  (seg.flags &&& TCP_FLAG_SYN ≠ 0 ∧ seg.flags &&& TCP_FLAG_FIN = 0 ∧
    seg.seq = srv.isn % 2 ^ 32) ∨
  (seg.flags &&& TCP_FLAG_SYN = 0 ∧ ∃ k ≤ srv.stream.length + 1, seg.seq = srv.seqOf k ∧
    seg.payload <+: srv.stream.drop k ∧
    (seg.flags &&& TCP_FLAG_FIN ≠ 0 → k + seg.payload.length = srv.stream.length))

def FromHonestServer (srv : Server) (remote : Nat) (_ : NetState) : NetAct → Prop
  | .frame f => OfConnection remote f → Whole f ∧ srv.Honest (segmentOf f)
  | _ => True

/-- `ack` acknowledges nothing that is not in `d`; the FIN counts as one behind the stream. -/
def Server.Covers (srv : Server) (ack : Nat) (d : Msg) : Prop :=
  ∃ j ≤ srv.stream.length + 1, ack = srv.seqOf j ∧ srv.stream.take j <+: d

/-- No acknowledgment in the events comes before the bytes it covers; `d` has been handed on. -/
def Server.AcksOk (srv : Server) : Msg → List NetEvent → Prop
  | _, [] => True
  | d, .payload p :: ev => srv.AcksOk (d ++ p) ev
  | d, .tcp _ _ ack flags _ :: ev =>
    (flags &&& TCP_FLAG_ACK ≠ 0 → srv.Covers ack d) ∧ srv.AcksOk d ev
  | d, _ :: ev => srv.AcksOk d ev

/-- A FIN is seen when the stream is complete, or brings data while data are still taken. -/
def FinInPlace (srv : Server) (remote : Nat) (s : NetState) : NetAct → Prop
  | .frame f => OfConnection remote f → (segmentOf f).flags &&& TCP_FLAG_FIN ≠ 0 →
    (segmentOf f).flags &&& TCP_FLAG_RST = 0 →
    (s.Receiving ∧ (segmentOf f).payload ≠ []) ∨ s.gHttpBytes = srv.stream.length
  | _ => True

variable {s s' s₁ : NetState} {f : Msg} {srv : Server} {remote : Nat} {s₀ : NetState}

theorem Server.Honest.cut (h : srv.Honest seg) : srv.Cut seg := by
  obtain h | ⟨hsyn, -, hseq⟩ | ⟨hsyn, k, hk, hseq, hpre, -⟩ := h
  · exact .inl h
  · exact .inr (.inl ⟨hsyn, hseq⟩)
  · exact .inr (.inr ⟨hsyn, k, hk, hseq, hpre⟩)

theorem Server.acksOk_append (ev ev' : List NetEvent) (d : Msg) :
    srv.AcksOk d (ev ++ ev') ↔ srv.AcksOk d ev ∧ srv.AcksOk (d ++ payloadBytes ev) ev' := by
  induction ev generalizing d with
  | nil => simp [Server.AcksOk, payloadBytes]
  | cons e ev ih => cases e <;> simp [Server.AcksOk, payloadBytes, ih, and_assoc]

theorem Server.acksOk_quiet {ev : List NetEvent} (d : Msg)
    (h : ∀ e ∈ ev, (∀ p, e ≠ .payload p) ∧ ∀ a b c x p, e ≠ .tcp a b c x p) :
    srv.AcksOk d ev := by
  induction ev with
  | nil => trivial
  | cons e ev ih =>
    have ih := ih fun e he => h e (List.mem_cons_of_mem _ he)
    have he := h e List.mem_cons_self
    cases e with
    | payload p => exact absurd rfl (he.1 p)
    | tcp a b c x p => exact absurd rfl (he.2 a b c x p)
    | dhcp _ _ _ => exact ih
    | dns _ _ => exact ih
    | arp _ => exact ih
    | icmp _ => exact ih

structure Completing (srv : Server) (remote : Nat) (s₀ s : NetState) : Prop extends
    Delivering srv remote s₀ s where
  closed : s.gTcpState = 6 → s.gHttpBytes = srv.stream.length
  acks : ∃ ev, s.events = s₀.events ++ ev ∧ srv.AcksOk [] ev

theorem Completing.sent (h : Completing srv remote s₀ s) (hd : Delivering srv remote s₀ s')
    (hev : s'.events = s.events ++ ev) (hok : srv.AcksOk (srv.stream.take s.gHttpBytes) ev)
    (hclosed : s'.gTcpState = 6 → s'.gHttpBytes = srv.stream.length) :
    Completing srv remote s₀ s' := by
  obtain ⟨ev₀, he, hacks⟩ := h.acks
  obtain ⟨ev₁, he₁, hp⟩ := h.events
  have heq : ev₀ = ev₁ := List.append_cancel_left (he.symm.trans he₁)
  refine ⟨hd, hclosed, ev₀ ++ ev, ?_, ?_⟩
  · rw [hev, he, List.append_assoc]
  · rw [Server.acksOk_append, List.nil_append, heq, hp]
    exact ⟨heq ▸ hacks, hok⟩

theorem Server.covers_self (h : n ≤ srv.stream.length) :
    srv.Covers (srv.seqOf n) (srv.stream.take n) :=
  ⟨n, by omega, rfl, List.prefix_refl _⟩

theorem Server.covers_fin (hfin : k + len = srv.stream.length) (hn : n = srv.stream.length) :
    srv.Covers ((srv.seqOf k + len + 1) % 2 ^ 32) (srv.stream.take n) := by
  refine ⟨srv.stream.length + 1, Nat.le_refl _, ?_, ?_⟩
  · simp only [Server.seqOf]
    omega
  · rw [hn, List.take_length]
    exact List.take_prefix _ _

theorem Completing.finned (h : Completing srv remote s₀ s)
    (hin : flags &&& TCP_FLAG_FIN ≠ 0 → s.gHttpBytes = srv.stream.length ∧
      ∃ k, seq = srv.seqOf k ∧ k + len = srv.stream.length) :
    Completing srv remote s₀ (tcpFin s seq flags len) := by
  by_cases hfin : flags &&& TCP_FLAG_FIN = 0
  · rw [tcpFin_none hfin]
    exact h
  · obtain ⟨hall, k, rfl, hk⟩ := hin hfin
    have hf : Finned s (tcpFin s (srv.seqOf k) flags len) _ := tcpFin_finned hfin
    obtain ⟨_, _, he⟩ := hf.events
    refine h.sent h.fin he ⟨fun _ => Server.covers_fin hk hall, trivial⟩ fun _ => ?_
    rw [hf.bytes, hall]

theorem Completing.took (hL : srv.stream.length + 1 < 2 ^ 32) (h : Completing srv remote s₀ s)
    (hcut : srv.Cut seg) (hrst : seg.flags &&& TCP_FLAG_RST = 0) (hopen : s.Receiving)
    (hpos : 0 < seg.payload.length) (hseq : seg.seq = s.gTcpAck)
    (ht : Took s s' seg.payload seg.payload.length
      ((seg.seq + seg.payload.length) % 2 ^ 32)) :
    Completing srv remote s₀ s' := by
  obtain ⟨hd, hb, hpre⟩ := h.toDelivering.took hL hcut hrst hopen hpos hseq ht
  obtain ⟨_, _, he⟩ := ht.events
  have hnext := hd.next (.inr ht.tcpState)
  rw [ht.tcpAck] at hnext
  refine h.sent hd he ⟨fun _ => ?_, trivial⟩ fun hs => ?_
  · have hall : srv.stream.take s.gHttpBytes ++ seg.payload = srv.stream.take s'.gHttpBytes := by
      rw [hb, List.take_add, ← List.prefix_iff_eq_take.mp hpre]
    rw [hnext, hall]
    exact Server.covers_self hd.bytes
  · rw [ht.tcpState] at hs
    cases hs

theorem Server.Honest.fin (h : srv.Honest seg) (hrst : seg.flags &&& TCP_FLAG_RST = 0)
    (hfin : seg.flags &&& TCP_FLAG_FIN ≠ 0) :
    ∃ k ≤ srv.stream.length + 1, seg.seq = srv.seqOf k ∧
      k + seg.payload.length = srv.stream.length := by
  obtain hr | ⟨-, hf, -⟩ | ⟨-, k, hk, hseq, -, hlen⟩ := h
  · exact absurd hrst hr
  · exact absurd hf hfin
  · exact ⟨k, hk, hseq, hlen hfin⟩

theorem Completing.segment (hL : srv.stream.length + 1 < 2 ^ 32) (h : Completing srv remote s₀ s)
    (hwhole : Whole f) (hhonest : srv.Honest (segmentOf f))
    (hplace : (segmentOf f).flags &&& TCP_FLAG_FIN ≠ 0 →
      (segmentOf f).flags &&& TCP_FLAG_RST = 0 →
      (s.Receiving ∧ (segmentOf f).payload ≠ []) ∨ s.gHttpBytes = srv.stream.length)
    (hseg : tcpSegment s f (segmentOf f).seq (segmentOf f).ack (segmentOf f).flags
      (tcpAt f + tcpHlen f) (tcpPayloadLen f) = some s') : Completing srv remote s₀ s' := by
  have hlen := segmentOf_length hwhole
  have hcut := hhonest.cut
  have hd := h.toDelivering.segment hL hwhole hcut hseg
  obtain ⟨-, rfl⟩ | ⟨hrst, hstate, hsyn, ho⟩ | ⟨hopen, rfl⟩ |
    ⟨hrst, hopen, hpos, hseq, s₁, ht, rfl⟩ | ⟨hrst, hno, rfl⟩ := tcpSegment_cases hseg
  · exact h.sent hd (List.append_nil _).symm trivial nofun
  · obtain ⟨-, hack⟩ := h.toDelivering.opened hcut hrst hsyn hstate ho
    obtain ⟨_, _, _, he⟩ := ho.events
    have hcov : srv.Covers (srv.seqOf 0) (srv.stream.take s.gHttpBytes) :=
      ⟨0, Nat.zero_le _, rfl, List.nil_prefix⟩
    rw [hack] at he
    refine h.sent hd he ⟨fun _ => hcov, fun _ => hcov, trivial⟩ fun hs => ?_
    rw [ho.tcpState] at hs
    cases hs
  · refine h.sent hd rfl ⟨fun _ => ?_, trivial⟩ h.closed
    rw [h.next hopen]
    exact Server.covers_self h.bytes
  · have ht : Took s s₁ (segmentOf f).payload (tcpPayloadLen f) _ := ht
    rw [← hlen] at hpos ht ⊢
    refine (h.took hL hcut hrst hopen hpos hseq ht).finned fun hfin => ?_
    obtain ⟨k, hk, hkseq, hkl⟩ := hhonest.fin hrst hfin
    have hkn : k = s.gHttpBytes := by
      have := h.bytes
      exact srv.seqOf_inj (by omega) (by omega)
        (by rw [← hkseq, hseq, h.next hopen])
    refine ⟨?_, k, hkseq, hkl⟩
    rw [(h.toDelivering.took hL hcut hrst hopen hpos hseq ht).2.1, ← hkn, hkl]
  · refine h.finned fun hfin => ?_
    obtain ⟨k, -, hkseq, hkl⟩ := hhonest.fin hrst hfin
    rw [hlen] at hkl
    refine ⟨?_, k, hkseq, hkl⟩
    obtain ⟨hopen, hne⟩ | hall := hplace hfin hrst
    · exact absurd ⟨hopen, hlen ▸ List.length_pos_iff.mpr hne⟩ hno
    · exact hall

theorem Completing.quiet (h : Completing srv remote s₀ s) (hq : Quiet s s') :
    Completing srv remote s₀ s' := by
  obtain ⟨ev, he, hev⟩ := hq.events
  refine h.sent (h.toDelivering.quiet hq) he (Server.acksOk_quiet _ hev) fun hs => ?_
  rw [hq.bytes]
  exact h.closed (hq.tcpState ▸ hs)

theorem Completing.resent (h : Completing srv remote s₀ s) (hr : Resent s s') :
    Completing srv remote s₀ s' := by
  have hclosed : s'.gTcpState = 6 → s'.gHttpBytes = srv.stream.length := by
    intro hs
    rw [hr.bytes]
    have := hr.tcpState
    exact h.closed (by omega)
  have hd := h.toDelivering.resent hr
  obtain he | ⟨_, _, he⟩ | ⟨hopen, _, _, _, he⟩ := hr.events
  · exact h.sent hd (he.trans (List.append_nil _).symm) trivial hclosed
  · exact h.sent hd he ⟨fun hack => absurd rfl hack, trivial⟩ hclosed
  · rw [h.next hopen] at he
    exact h.sent hd he ⟨fun _ => Server.covers_self h.bytes, trivial⟩ hclosed

theorem Completing.step (hL : srv.stream.length + 1 < 2 ^ 32) (h : Completing srv remote s₀ s)
    (hok : FromHonestServer srv remote s a) (hplace : FinInPlace srv remote s a)
    (hstep : netStep s a s') : Completing srv remote s₀ s' := by
  cases a with
  | frame f =>
    obtain hq | ⟨hof, hseg⟩ := netHandlePacket_cases h.live hstep
    · exact h.quiet hq
    · rw [h.remote] at hof
      obtain ⟨hwhole, hhonest⟩ := hok hof
      exact h.segment hL hwhole hhonest (hplace hof) hseg
  | timer =>
    cases hstep
    exact h.resent (tcpPollRetransmit_resent s)
  | ping dstIp =>
    cases hstep
    rw [netPingSend]
    split
    · exact h
    · exact h.quiet ⟨rfl, rfl, rfl, rfl, rfl, [.icmp dstIp], rfl, by simp⟩

theorem Completing.start (srv : Server) (hgw : s₀.gGatewayKnown = true) (h0 : s₀.gTcpState = 0) :
    Completing srv dstIp s₀ (tcpHttpStart s₀ dstIp) := by
  refine ⟨.start srv hgw h0, fun hs => ?_, ?_⟩
  · rw [tcpHttpStart, if_neg (by simp [hgw, h0])] at hs
    cases hs
  · rw [tcpHttpStart, if_neg (by simp [hgw, h0])]
    exact ⟨[_], rfl, fun hack => absurd rfl hack, trivial⟩

/-- Closed only when complete, and no acknowledgment too early, as long as each FIN of the
server is in its place. -/
theorem closed_is_complete (srv : Server) (hL : srv.stream.length + 1 < 2 ^ 32)
    (s₀ : NetState) (hgw : s₀.gGatewayKnown = true) (h0 : s₀.gTcpState = 0) (dstIp : Nat)
    (as : List NetAct)
    (h : Run netStep (fun s a => FromHonestServer srv dstIp s a ∧ FinInPlace srv dstIp s a)
      (tcpHttpStart s₀ dstIp) as s) :
    ∃ ev, s.events = s₀.events ++ ev ∧ (s.gTcpState = 6 → payloadBytes ev = srv.stream) ∧
      srv.AcksOk [] ev := by
  have hinv := h.invariant (Completing srv dstIp s₀) (.start srv hgw h0)
    fun _ _ _ hs hok hstep => hs.step hL hok.1 hok.2 hstep
  obtain ⟨ev, he, hd⟩ := hinv.events
  obtain ⟨ev', he', hacks⟩ := hinv.acks
  have heq : ev = ev' := List.append_cancel_left (he.symm.trans he')
  refine ⟨ev, he, fun hs => ?_, heq ▸ hacks⟩
  rw [hd, hinv.closed hs, List.take_length]

theorem smallFrame_honest (h : smallServer.Cut (segmentOf f))
    (hfin : (segmentOf f).flags &&& TCP_FLAG_FIN = 0) : smallServer.Honest (segmentOf f) := by
  obtain h | ⟨hsyn, hseq⟩ | ⟨hsyn, k, hk, hseq, hpre⟩ := h
  · exact .inl h
  · exact .inr (.inl ⟨hsyn, hfin, hseq⟩)
  · exact .inr (.inr ⟨hsyn, k, hk, hseq, hpre, fun h => absurd hfin h⟩)

theorem closed_is_complete_small :
    ∃ ev, (behind (behind (behind (tcpHttpStart idleState smallServerIp) smallSynAck)
        smallFirst) smallLast).events = idleState.events ++ ev ∧
      ((behind (behind (behind (tcpHttpStart idleState smallServerIp) smallSynAck)
        smallFirst) smallLast).gTcpState = 6 → payloadBytes ev = smallServer.stream) ∧
      smallServer.AcksOk [] ev :=
  closed_is_complete smallServer (by decide) idleState rfl rfl smallServerIp
    [.frame smallSynAck, .frame smallFirst, .frame smallLast]
    (.cons ⟨fun _ => ⟨(by decide : 14 + ipTotalLen smallSynAck ≤ smallSynAck.length),
        smallFrame_honest smallSynAck_cut (by decide)⟩, fun _ h => absurd (by decide) h⟩
        (netStep_behind (by decide +kernel)) <|
      .cons ⟨fun _ => ⟨(by decide : 14 + ipTotalLen smallFirst ≤ smallFirst.length),
        smallFrame_honest smallFirst_cut (by decide)⟩, fun _ h => absurd (by decide) h⟩
        (netStep_behind (by decide +kernel)) <|
      .cons ⟨fun _ => ⟨(by decide : 14 + ipTotalLen smallLast ≤ smallLast.length),
        .inr (.inr ⟨by decide, 2, by decide, by decide, by decide, by decide⟩)⟩,
        fun _ _ _ => .inl ⟨.inr (by decide +kernel), by decide⟩⟩
        (netStep_behind (by decide +kernel)) .nil)

def smallFin : Msg := smallFrame 40 231 237 17 201 166 []

/-- The FIN overtakes the data: the connection is closed with nothing handed on. -/
theorem fin_overtakes_data :
    ¬ ∀ (srv : Server) (dstIp : Nat) (s₀ s : NetState) (as : List NetAct),
      srv.stream.length + 1 < 2 ^ 32 → s₀.gGatewayKnown = true → s₀.gTcpState = 0 →
      Run netStep (FromHonestServer srv dstIp) (tcpHttpStart s₀ dstIp) as s →
      ∃ ev, s.events = s₀.events ++ ev ∧ (s.gTcpState = 6 → payloadBytes ev = srv.stream) ∧
        srv.AcksOk [] ev := by
  intro h
  obtain ⟨ev, he, hclosed, -⟩ := h smallServer smallServerIp idleState
    (behind (behind (tcpHttpStart idleState smallServerIp) smallSynAck) smallFin)
    [.frame smallSynAck, .frame smallFin] (by decide) rfl rfl
    (.cons (fun _ => ⟨(by decide : 14 + ipTotalLen smallSynAck ≤ smallSynAck.length),
        smallFrame_honest smallSynAck_cut (by decide)⟩) (netStep_behind (by decide +kernel)) <|
      .cons (fun _ => ⟨(by decide : 14 + ipTotalLen smallFin ≤ smallFin.length),
        .inr (.inr ⟨by decide, 4, by decide, by decide, by decide, by decide⟩)⟩)
        (netStep_behind (by decide +kernel)) .nil)
  have hd := hclosed (by decide +kernel)
  have hev : ev = (behind (behind (tcpHttpStart idleState smallServerIp) smallSynAck)
      smallFin).events.drop 1 := by
    rw [he]
    rfl
  rw [hev] at hd
  exact absurd hd (by decide +kernel)

end EponaOS.Net
