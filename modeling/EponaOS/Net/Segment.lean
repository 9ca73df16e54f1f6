import EponaOS.Net.Frames

/-!
# What a frame can do to a connection

While a connection exists, a frame either leaves it alone or carries a segment of it, and
what that does is a matter of its fields and the state only.
-/

namespace EponaOS.Net

open Msg

def Whole (f : Msg) : Prop := 14 + ipTotalLen f ≤ f.length

def NetState.Receiving (s : NetState) : Prop := s.gTcpState = 3 ∨ s.gTcpState = 4

structure Quiet (s s' : NetState) : Prop where
  tcpState : s'.gTcpState = s.gTcpState
  tcpSeq : s'.gTcpSeq = s.gTcpSeq
  tcpAck : s'.gTcpAck = s.gTcpAck
  remote : s'.gTcpRemoteIp = s.gTcpRemoteIp
  bytes : s'.gHttpBytes = s.gHttpBytes
  events : ∃ ev, s'.events = s.events ++ ev ∧
    ∀ e ∈ ev, (∀ d, e ≠ .payload d) ∧ ∀ a b c x p, e ≠ .tcp a b c x p

variable {s s' s'' : NetState} {f : Msg}

theorem Quiet.refl (s : NetState) : Quiet s s :=
  ⟨rfl, rfl, rfl, rfl, rfl, [], by simp, by simp⟩

theorem Quiet.trans (h : Quiet s s') (h' : Quiet s' s'') : Quiet s s'' := by
  obtain ⟨ev, he, hev⟩ := h.events
  obtain ⟨ev', he', hev'⟩ := h'.events
  refine ⟨h'.tcpState.trans h.tcpState, h'.tcpSeq.trans h.tcpSeq, h'.tcpAck.trans h.tcpAck,
    h'.remote.trans h.remote, h'.bytes.trans h.bytes, ev ++ ev', ?_, fun e hm => ?_⟩
  · rw [he', he, List.append_assoc]
  · obtain hm | hm := List.mem_append.mp hm
    · exact hev e hm
    · exact hev' e hm

theorem Quiet.emit {e : NetEvent} (h : Quiet s s') (hp : ∀ d, e ≠ .payload d)
    (ht : ∀ a b c x p, e ≠ .tcp a b c x p) : Quiet s (s'.emit e) := by
  refine h.trans ⟨rfl, rfl, rfl, rfl, rfl, [e], rfl, fun e' he => ?_⟩
  rw [List.mem_singleton.mp he]
  exact ⟨hp, ht⟩

-- ---------------------------------------------------------------------------
-- Frames that are not the connection's
-- ---------------------------------------------------------------------------

theorem dnsQuery_frame (s : NetState) (host : Msg) :
    dnsQuery s host = s ∨
    dnsQuery s host =
      NetState.emit { s with gDnsRequested := true, gDnsHost := host.take 63 }
        (.dns s.gDnsIp host) := by
  rw [dnsQuery]
  split
  · exact .inl rfl
  split
  · exact .inl rfl
  · exact .inr rfl

theorem dnsQuery_quiet (s : NetState) (host : Msg) : Quiet s (dnsQuery s host) := by
  obtain h | h := dnsQuery_frame s host
  · rw [h]
    exact .refl s
  · rw [h]
    exact Quiet.emit ⟨rfl, rfl, rfl, rfl, rfl, [], by simp, by simp⟩ (fun _ => nofun)
      fun _ _ _ _ _ => nofun

theorem gatewayFound_quiet (s : NetState) (sha : Msg) : Quiet s (s.gatewayFound sha) :=
  Quiet.emit ⟨rfl, rfl, rfl, rfl, rfl, [], by simp, by simp⟩ (fun _ => nofun)
    fun _ _ _ _ _ => nofun

theorem dhcpReply_quiet (h : dhcpReply s f dhcp o = some s') : Quiet s s' := by
  rw [dhcpReply] at h
  split at h
  · obtain ⟨yiaddr, -, h⟩ := Option.bind_eq_some_iff.mp h
    cases h
    exact Quiet.emit ⟨rfl, rfl, rfl, rfl, rfl, [], by simp, by simp⟩ (fun _ => nofun)
      fun _ _ _ _ _ => nofun
  · split at h
    · obtain ⟨yiaddr, -, h⟩ := Option.bind_eq_some_iff.mp h
      cases h
      exact Quiet.emit ⟨rfl, rfl, rfl, rfl, rfl, [], by simp, by simp⟩ (fun _ => nofun)
        fun _ _ _ _ _ => nofun
    · cases h
      exact .refl s

theorem netHandlePacket_cases (hs : s.gTcpState ≠ 0) (h : netHandlePacket s f = some s') :
    Quiet s s' ∨ (OfConnection s.gTcpRemoteIp f ∧
      tcpSegment s f (segmentOf f).seq (segmentOf f).ack (segmentOf f).flags
        (tcpAt f + tcpHlen f) (tcpPayloadLen f) = some s') := by
  cases netHandlePacket_effect h with
  | drop => exact .inl (.refl s)
  | arp sha => exact .inl (gatewayFound_quiet s sha)
  | arpQuery sha => exact .inl ((gatewayFound_quiet s sha).trans (dnsQuery_quiet _ _))
  | dhcp _ h => exact .inl (dhcpReply_quiet h)
  | dns ip =>
    -- an answer starts a connection only if there is none
    refine .inl ?_
    rw [tcpHttpStart, if_pos (by simp [hs])]
    exact ⟨rfl, rfl, rfl, rfl, rfl, [], by simp, by simp⟩
  | icmp => exact .inl ⟨rfl, rfl, rfl, rfl, rfl, [], by simp, by simp⟩
  | tcp hconn hseg => exact .inr ⟨hconn, hseg⟩

-- ---------------------------------------------------------------------------
-- What the payload is stored in
-- ---------------------------------------------------------------------------

theorem httpStoreBody_frame (h : httpStoreBody s f off len = some s') :
    ∃ body, s' = { s with gHttpBody := body } := by
  rw [httpStoreBody] at h
  split at h
  · cases h
    exact ⟨_, rfl⟩
  · obtain ⟨_, -, h⟩ := Option.bind_eq_some_iff.mp h
    cases h
    exact ⟨_, rfl⟩

theorem httpFindBody_frame (h : httpFindBody s f off len k i = some s') :
    ∃ body done, s' = { s with gHttpBody := body, gHttpHeadersDone := done } := by
  induction k generalizing i with
  | zero =>
    cases h
    exact ⟨_, _, rfl⟩
  | succ k ih =>
    rw [httpFindBody] at h
    obtain ⟨_, -, h⟩ := Option.bind_eq_some_iff.mp h
    split at h
    · obtain ⟨body, rfl⟩ := httpStoreBody_frame h
      exact ⟨body, true, rfl⟩
    · exact ih h

theorem httpProcessPayload_frame (h : httpProcessPayload s f off len = some s') :
    ∃ body done, s' = { s.emit (.payload ((f.drop off).take len)) with
      gHttpBody := body, gHttpHeadersDone := done } := by
  rw [httpProcessPayload] at h
  split at h
  · obtain ⟨body, rfl⟩ := httpStoreBody_frame h
    exact ⟨body, _, rfl⟩
  · exact httpFindBody_frame h

theorem httpPrintBodyPreview_frame (s : NetState) :
    ∃ printed, httpPrintBodyPreview s = { s with gHttpBodyPrinted := printed } := by
  rw [httpPrintBodyPreview]
  split
  · exact ⟨_, rfl⟩
  · exact ⟨_, rfl⟩

-- ---------------------------------------------------------------------------
-- What a segment leaves
-- ---------------------------------------------------------------------------

theorem tcpAcceptData_frame (h : tcpAcceptData s f seq off len = some s') :
    ∃ body done printed, s' =
      { (s.emit (.payload ((f.drop off).take len))).sendTcp s.gTcpSeq ((seq + len) % 2 ^ 32)
          TCP_FLAG_ACK [] with
        gHttpChunks := (s.gHttpChunks + 1) % 2 ^ 32
        gHttpBytes := (s.gHttpBytes + len) % 2 ^ 32
        gHttpBody := body
        gHttpHeadersDone := done
        gHttpBodyPrinted := printed
        gHttpOk := true
        gTcpAck := (seq + len) % 2 ^ 32
        gTcpState := 4 } := by
  rw [tcpAcceptData] at h
  obtain ⟨t, ht, h⟩ := Option.bind_eq_some_iff.mp h
  obtain ⟨_, -, h⟩ := Option.bind_eq_some_iff.mp h
  obtain ⟨body, done, rfl⟩ := httpProcessPayload_frame ht
  cases h
  obtain ⟨printed, hprinted⟩ := httpPrintBodyPreview_frame _
  exact ⟨body, done, printed, hprinted⟩

theorem tcpFin_none (h : flags &&& TCP_FLAG_FIN = 0) : tcpFin s seq flags len = s :=
  if_neg (Decidable.not_not.mpr h)

theorem tcpFin_frame (s : NetState) (seq len : Nat) (h : flags &&& TCP_FLAG_FIN ≠ 0) :
    ∃ printed, tcpFin s seq flags len =
      { s.sendTcp s.gTcpSeq ((seq + len + 1) % 2 ^ 32) TCP_FLAG_ACK [] with
        gTcpAck := (seq + len + 1) % 2 ^ 32
        gHttpBodyPrinted := printed
        gTcpState := 6 } := by
  obtain ⟨printed, hprinted⟩ := httpPrintBodyPreview_frame (NetState.sendTcp
    { s with gTcpAck := (seq + len + 1) % 2 ^ 32 } s.gTcpSeq ((seq + len + 1) % 2 ^ 32)
    TCP_FLAG_ACK [])
  refine ⟨printed, ?_⟩
  rw [tcpFin, if_pos h]
  dsimp only
  rw [hprinted]
  rfl

end EponaOS.Net
