import EponaOS.Net.Net

/-!
# What a frame can do

`net_handle_packet` ends in one of six ways. Every property of what the stack does with
frames is read off this list, field by field. The segment that a frame carries is read off it
once (`segmentOf`).
-/

namespace EponaOS.Net

open Msg

structure Segment where
  seq : Nat
  ack : Nat
  flags : Nat
  payload : Msg

def ipHlen (f : Msg) : Nat := (get8 f 14).getD 0 % 16 * 4

/-- `total_len` of the IPv4 header. -/
def ipTotalLen (f : Msg) : Nat := (get16 f 16).getD 0

def tcpAt (f : Msg) : Nat := 14 + ipHlen f

def tcpHlen (f : Msg) : Nat := (get8 f (tcpAt f + 12)).getD 0 / 16 * 4

def tcpPayloadLen (f : Msg) : Nat := ipTotalLen f - ipHlen f - tcpHlen f

def segmentOf (f : Msg) : Segment where
  seq := (get32 f (tcpAt f + 4)).getD 0
  ack := (get32 f (tcpAt f + 8)).getD 0
  flags := (get8 f (tcpAt f + 13)).getD 0
  payload := (f.drop (tcpAt f + tcpHlen f)).take (tcpPayloadLen f)

/-- The frame carries a TCP segment from the host `remote` to the port of the connection. -/
def OfConnection (remote : Nat) (f : Msg) : Prop :=
  get8 f 23 = some IP_PROTO_TCP ∧ load32 f 26 = some remote ∧
    get16 f (tcpAt f) = some TCP_HTTP_PORT ∧ get16 f (tcpAt f + 2) = some TCP_CLIENT_PORT

def dhcpAt (f : Msg) : Nat := 14 + ipHlen f + UDP_HDR_LEN

def udpLen (f : Msg) : Nat := (get16 f (14 + ipHlen f + 4)).getD 0

def dhcpOptions (f : Msg) : DhcpOptions :=
  let len := udpLen f - UDP_HDR_LEN - DHCP_PKT_LEN
  (parseDhcpOptions f (dhcpAt f + DHCP_PKT_LEN) len len 0 ⟨0, 0, 0, 0⟩).getD ⟨0, 0, 0, 0⟩

/-- `dhcp->yiaddr` -/
def dhcpYiaddr (f : Msg) : Nat := (load32 f (dhcpAt f + 16)).getD 0

/-- `dhcp->chaddr`: the MAC address of the client that a reply is for. -/
def dhcpChaddr (f : Msg) : Msg := (f.drop (dhcpAt f + 28)).take ETH_ALEN

structure IpHeader (mac f : Msg) : Prop where
  type : get16 f 12 = some ETH_P_IP
  dst : ∃ dst, getBytes f 0 ETH_ALEN = some dst ∧ (dst = List.replicate ETH_ALEN 0xFF ∨ dst = mac)
  length : ETH_HDR_LEN + IPV4_HDR_LEN ≤ f.length
  version : ∃ v, get8 f 14 = some v ∧ v / 16 = 4
  ihl : 20 ≤ ipHlen f ∧ ETH_HDR_LEN + ipHlen f ≤ f.length
  total : ∃ t, get16 f 16 = some t ∧ ipHlen f ≤ t

structure IsDhcpReply (mac f : Msg) : Prop extends IpHeader mac f where
  proto : get8 f 23 = some IP_PROTO_UDP
  udp : ∀ t, get16 f 16 = some t → ipHlen f + UDP_HDR_LEN ≤ t
  srcPort : get16 f (14 + ipHlen f) = some DHCP_SERVER_PORT
  dstPort : get16 f (14 + ipHlen f + 2) = some DHCP_CLIENT_PORT
  udpLen : ∃ n, get16 f (14 + ipHlen f + 4) = some n ∧ UDP_HDR_LEN + DHCP_PKT_LEN ≤ n
  op : get8 f (dhcpAt f) = some 2
  xid : get32 f (dhcpAt f + 4) = some DHCP_XID
  magic : get32 f (dhcpAt f + 236) = some DHCP_MAGIC

def NetState.gatewayFound (s : NetState) (sha : Msg) : NetState :=
  NetState.emit { s with gGatewayMac := sha, gGatewayKnown := true } (.icmp s.gGatewayIp)

inductive FrameEffect (s : NetState) (f : Msg) : NetState → Prop
  | drop : FrameEffect s f s
  | arp (sha : Msg) : FrameEffect s f (s.gatewayFound sha)
  | arpQuery (sha : Msg) : FrameEffect s f (dnsQuery (s.gatewayFound sha) exampleHost)
  | dhcp : IsDhcpReply s.gMac f → dhcpReply s f (dhcpAt f) (dhcpOptions f) = some s' → FrameEffect s f s'
  | dns (ip : Nat) : FrameEffect s f
      (tcpHttpStart { s with gDnsAnswerIp := ip, gHttpHost := s.gDnsHost.take 63 } ip)
  | icmp : FrameEffect s f { s with gPingReplied := true }
  | tcp : OfConnection s.gTcpRemoteIp f →
      tcpSegment s f (segmentOf f).seq (segmentOf f).ack (segmentOf f).flags
        (tcpAt f + tcpHlen f) (tcpPayloadLen f) = some s' → FrameEffect s f s'

variable {s s' : NetState} {f : Msg}

-- ---------------------------------------------------------------------------
-- Which function a frame comes to
-- ---------------------------------------------------------------------------

/-- The branches of `net_handle_packet`. -/
inductive Dispatch (s : NetState) (f : Msg) (s' : NetState) : Prop
  | drop (h : s' = s)
  | arp (h : handleArp s f = some s')
  | udp (hip : IpHeader s.gMac f) (hproto : get8 f 23 = some IP_PROTO_UDP)
      (h : handleUdp s f 14 (ipHlen f) (ipTotalLen f) = some s')
  | tcp (hip : IpHeader s.gMac f) (hproto : get8 f 23 = some IP_PROTO_TCP)
      (h : handleTcp s f 14 (ipHlen f) (ipTotalLen f) = some s')
  | icmp (h : handleIcmp s f 14 (ipHlen f) (ipTotalLen f) = some s')

theorem Dispatch.of_same (h : some s = some s') : Dispatch s f s' := by
  cases h
  exact .drop rfl

theorem handleIpv4_dispatch (htype : get16 f 12 = some ETH_P_IP)
    (hdst : ∃ dst, getBytes f 0 ETH_ALEN = some dst ∧
      (dst = List.replicate ETH_ALEN 0xFF ∨ dst = s.gMac))
    (h : handleIpv4 s f = some s') : Dispatch s f s' := by
  rw [handleIpv4] at h
  dsimp only at h
  split at h
  · exact .of_same h
  rename_i hlength
  obtain ⟨v, hv, h⟩ := Option.bind_eq_some_iff.mp h
  split at h
  · exact .of_same h
  rename_i hversion
  split at h
  · exact .of_same h
  rename_i hlen
  obtain ⟨t, ht, h⟩ := Option.bind_eq_some_iff.mp h
  split at h
  · exact .of_same h
  rename_i htotal
  obtain ⟨proto, hproto, h⟩ := Option.bind_eq_some_iff.mp h
  have hv : get8 f 14 = some v := hv
  have ht : get16 f 16 = some t := ht
  have hihl : ipHlen f = v % 16 * 4 := by rw [ipHlen, hv, Option.getD_some]
  have htot : ipTotalLen f = t := by rw [ipTotalLen, ht, Option.getD_some]
  rw [← hihl, ← htot] at h
  rw [← hihl] at hlen htotal
  have hip : IpHeader s.gMac f :=
    ⟨htype, hdst, by omega, ⟨v, hv, by omega⟩, by omega, t, ht, by omega⟩
  split at h
  · rename_i hudp
    exact .udp hip (hudp ▸ hproto) h
  split at h
  · rename_i htcp
    exact .tcp hip (htcp ▸ hproto) h
  · obtain ⟨dst, -, h⟩ := Option.bind_eq_some_iff.mp h
    split at h
    · exact .of_same h
    · exact .icmp h

theorem netHandlePacket_dispatch (h : netHandlePacket s f = some s') : Dispatch s f s' := by
  rw [netHandlePacket] at h
  split at h
  · exact .of_same h
  obtain ⟨type, htype, h⟩ := Option.bind_eq_some_iff.mp h
  split at h
  · exact .arp h
  split at h
  · rename_i hip
    rw [hip] at htype
    obtain ⟨mac, hmac, h⟩ := Option.bind_eq_some_iff.mp h
    split at h
    · exact .of_same h
    · rename_i hours
      exact handleIpv4_dispatch htype ⟨mac, hmac, by tauto⟩ h
  · exact .of_same h

theorem netHandlePacket_udp (h : IpHeader s.gMac f) (hproto : get8 f 23 = some IP_PROTO_UDP) :
    netHandlePacket s f = handleUdp s f 14 (ipHlen f) (ipTotalLen f) := by
  obtain ⟨dst, hdst, hours⟩ := h.dst
  obtain ⟨v, hv, hversion⟩ := h.version
  obtain ⟨t, ht, htotal⟩ := h.total
  have hihl : v % 16 * 4 = ipHlen f := by rw [ipHlen, hv, Option.getD_some]
  have htot : ipTotalLen f = t := by rw [ipTotalLen, ht, Option.getD_some]
  have hv' : get8 f ETH_HDR_LEN = some v := hv
  have ht' : get16 f (ETH_HDR_LEN + 2) = some t := ht
  have hproto : get8 f (ETH_HDR_LEN + 9) = some IP_PROTO_UDP := hproto
  have hlength := h.length
  have hilen := h.ihl
  have hshort : ¬ f.length < ETH_HDR_LEN := by omega
  have hmac : ¬ (dst ≠ List.replicate ETH_ALEN 0xFF ∧ dst ≠ s.gMac) := by tauto
  have harp : ¬ ETH_P_IP = ETH_P_ARP := by decide
  rw [netHandlePacket, if_neg hshort, h.type]
  dsimp only [Option.bind_eq_bind, Option.bind_some]
  rw [if_neg harp, if_pos rfl, hdst]
  dsimp only [Option.bind_some]
  rw [if_neg hmac, handleIpv4]
  dsimp only [Option.bind_eq_bind]
  rw [if_neg (by omega), hv']
  dsimp only [Option.bind_some]
  rw [if_neg (by omega), hihl, if_neg (by omega), ht']
  dsimp only [Option.bind_some]
  rw [if_neg (by omega), hproto]
  dsimp only [Option.bind_some]
  rw [if_pos rfl, htot]
  rfl

structure UdpTo (src dst : Nat) (f : Msg) : Prop where
  udp : ipHlen f + UDP_HDR_LEN ≤ ipTotalLen f
  srcPort : get16 f (14 + ipHlen f) = some src
  dstPort : get16 f (14 + ipHlen f + 2) = some dst
  length : ∃ n, get16 f (14 + ipHlen f + 4) = some n ∧ UDP_HDR_LEN ≤ n

theorem handleUdp_to (h : UdpTo src dst f) : handleUdp s f 14 (ipHlen f) (ipTotalLen f) =
    if src = DHCP_SERVER_PORT ∧ dst = DHCP_CLIENT_PORT then
      handleDhcp s f (14 + ipHlen f) (udpLen f - UDP_HDR_LEN)
    else if src = DNS_PORT ∧ dst = DNS_CLIENT_PORT then
      handleDns s f (14 + ipHlen f) (udpLen f - UDP_HDR_LEN)
    else some s := by
  obtain ⟨n, hn, hle⟩ := h.length
  rw [handleUdp, if_neg (Nat.not_lt.mpr h.udp)]
  dsimp only [Option.bind_eq_bind]
  rw [h.srcPort, h.dstPort, hn, udpLen, hn]
  dsimp only [Option.bind_some, Option.getD_some]
  rw [if_neg (Nat.not_lt.mpr hle)]
  rfl

/-- The branches of `handle_udp`. -/
inductive UdpDispatch (s : NetState) (f : Msg) (s' : NetState) : Prop
  | drop (h : s' = s)
  | dhcp (hto : UdpTo DHCP_SERVER_PORT DHCP_CLIENT_PORT f)
      (h : handleDhcp s f (14 + ipHlen f) (udpLen f - UDP_HDR_LEN) = some s')
  | dns (hto : UdpTo DNS_PORT DNS_CLIENT_PORT f)
      (h : handleDns s f (14 + ipHlen f) (udpLen f - UDP_HDR_LEN) = some s')

theorem UdpDispatch.of_same (h : some s = some s') : UdpDispatch s f s' := by
  cases h
  exact .drop rfl

theorem handleUdp_dispatch (h : handleUdp s f 14 (ipHlen f) (ipTotalLen f) = some s') :
    UdpDispatch s f s' := by
  have h₀ := h
  rw [handleUdp] at h
  split at h
  · exact .of_same h
  next hudp =>
  dsimp only at h
  obtain ⟨src, hsrc, h⟩ := Option.bind_eq_some_iff.mp h
  obtain ⟨dst, hdst, h⟩ := Option.bind_eq_some_iff.mp h
  obtain ⟨len, hlen, h⟩ := Option.bind_eq_some_iff.mp h
  split at h
  · exact .of_same h
  next hlong =>
  have hto : UdpTo src dst f :=
    ⟨Nat.le_of_not_lt hudp, hsrc, hdst, len, hlen, Nat.le_of_not_lt hlong⟩
  rw [handleUdp_to hto] at h₀
  split at h₀
  next hports => exact .dhcp (hports.1 ▸ hports.2 ▸ hto) h₀
  next =>
  split at h₀
  next hports => exact .dns (hports.1 ▸ hports.2 ▸ hto) h₀
  next => exact .of_same h₀

theorem handleTcp_cases (hv : get8 f 14 = some v) (ht : get16 f 16 = some t)
    (hp : get8 f 23 = some IP_PROTO_TCP) (h : handleTcp s f 14 (v % 16 * 4) t = some s') :
    s' = s ∨ (OfConnection s.gTcpRemoteIp f ∧
      tcpSegment s f (segmentOf f).seq (segmentOf f).ack (segmentOf f).flags
        (tcpAt f + tcpHlen f) (tcpPayloadLen f) = some s') := by
  have hihl : ipHlen f = v % 16 * 4 := by simp [ipHlen, hv]
  have htot : ipTotalLen f = t := by simp [ipTotalLen, ht]
  have hat : tcpAt f = 14 + v % 16 * 4 := by rw [tcpAt, hihl]
  rw [handleTcp] at h
  obtain ⟨dst, -, h⟩ := Option.bind_eq_some_iff.mp h
  split at h
  · cases h
    exact .inl rfl
  obtain ⟨src, hsrc, h⟩ := Option.bind_eq_some_iff.mp h
  split at h
  · cases h
    exact .inl rfl
  rename_i hremote
  split at h
  · cases h
    exact .inl rfl
  dsimp only at h
  obtain ⟨sport, hsport, h⟩ := Option.bind_eq_some_iff.mp h
  obtain ⟨dport, hdport, h⟩ := Option.bind_eq_some_iff.mp h
  split at h
  · cases h
    exact .inl rfl
  rename_i hports
  obtain ⟨off, hoff, h⟩ := Option.bind_eq_some_iff.mp h
  split at h
  · cases h
    exact .inl rfl
  obtain ⟨sum, -, h⟩ := Option.bind_eq_some_iff.mp h
  split at h
  · cases h
    exact .inl rfl
  obtain ⟨seq, hseq, h⟩ := Option.bind_eq_some_iff.mp h
  obtain ⟨ack, hack, h⟩ := Option.bind_eq_some_iff.mp h
  obtain ⟨flags, hflags, h⟩ := Option.bind_eq_some_iff.mp h
  simp only [ne_eq, not_or, Decidable.not_not] at hremote hports
  have hlen : tcpHlen f = off / 16 * 4 := by simp [tcpHlen, hat, hoff]
  refine .inr ⟨⟨hp, by rw [← hremote]; exact hsrc, ?_, ?_⟩, ?_⟩
  · rw [hat, hsport, hports.1]
  · rw [hat, hdport, hports.2]
  · simp only [segmentOf, tcpPayloadLen, hat, hlen, hihl, htot, hseq, hack, hflags,
      Option.getD_some]
    exact h

-- ---------------------------------------------------------------------------
-- What the functions do
-- ---------------------------------------------------------------------------

theorem FrameEffect.of_same (h : some s = some s') : FrameEffect s f s' := by
  cases h
  exact .drop

theorem handleArp_effect (h : handleArp s f = some s') : FrameEffect s f s' := by
  rw [handleArp] at h
  split at h
  · exact .of_same h
  obtain ⟨op, -, h⟩ := Option.bind_eq_some_iff.mp h
  split at h
  · exact .of_same h
  obtain ⟨spa, -, h⟩ := Option.bind_eq_some_iff.mp h
  split at h
  · exact .of_same h
  obtain ⟨sha, -, h⟩ := Option.bind_eq_some_iff.mp h
  cases h
  split
  · exact .arp sha
  · exact .arpQuery sha

theorem handleDhcp_effect (hip : IpHeader s.gMac f) (hproto : get8 f 23 = some IP_PROTO_UDP)
    (hto : UdpTo DHCP_SERVER_PORT DHCP_CLIENT_PORT f)
    (h : handleDhcp s f (14 + ipHlen f) (udpLen f - UDP_HDR_LEN) = some s') :
    FrameEffect s f s' := by
  obtain ⟨len, hlen, -⟩ := hto.length
  have hudpLen : udpLen f = len := by rw [udpLen, hlen, Option.getD_some]
  have hudp : ∀ t, get16 f 16 = some t → ipHlen f + UDP_HDR_LEN ≤ t := by
    intro t ht
    have htotal := hto.udp
    rw [ipTotalLen, ht, Option.getD_some] at htotal
    exact htotal
  rw [handleDhcp, hudpLen] at h
  split at h
  · exact .of_same h
  rename_i hfull
  dsimp only at h
  obtain ⟨op, hop, h⟩ := Option.bind_eq_some_iff.mp h
  split at h
  · exact .of_same h
  rename_i hopIs
  obtain ⟨xid, hxid, h⟩ := Option.bind_eq_some_iff.mp h
  split at h
  · exact .of_same h
  rename_i hxidIs
  obtain ⟨magic, hmagic, h⟩ := Option.bind_eq_some_iff.mp h
  split at h
  · exact .of_same h
  rename_i hmagicIs
  obtain ⟨o, ho, h⟩ := Option.bind_eq_some_iff.mp h
  rw [Decidable.not_not.mp hopIs] at hop
  rw [Decidable.not_not.mp hxidIs] at hxid
  rw [Decidable.not_not.mp hmagicIs] at hmagic
  have hn : UDP_HDR_LEN + DHCP_PKT_LEN ≤ len := by
    simp only [UDP_HDR_LEN, DHCP_PKT_LEN] at hfull ⊢
    omega
  have hopt : dhcpOptions f = o := by
    simp only [dhcpOptions, hudpLen, dhcpAt] at ho ⊢
    rw [ho, Option.getD_some]
  refine .dhcp ⟨hip, hproto, hudp, hto.srcPort, hto.dstPort, ⟨len, hlen, hn⟩, hop, hxid, hmagic⟩ ?_
  rw [hopt]
  exact h

theorem handleDns_effect (h : handleDns s f udp n = some s') : FrameEffect s f s' := by
  rw [handleDns] at h
  split at h
  · exact .of_same h
  obtain ⟨id, -, h⟩ := Option.bind_eq_some_iff.mp h
  split at h
  · exact .of_same h
  obtain ⟨qd, -, h⟩ := Option.bind_eq_some_iff.mp h
  obtain ⟨an, -, h⟩ := Option.bind_eq_some_iff.mp h
  obtain ⟨questions, -, h⟩ := Option.bind_eq_some_iff.mp h
  split at h
  · exact .of_same h
  obtain ⟨answer, -, h⟩ := Option.bind_eq_some_iff.mp h
  split at h
  · exact .of_same h
  · cases h
    exact .dns _

theorem handleUdp_effect (hip : IpHeader s.gMac f) (hproto : get8 f 23 = some IP_PROTO_UDP)
    (h : handleUdp s f 14 (ipHlen f) (ipTotalLen f) = some s') : FrameEffect s f s' := by
  cases handleUdp_dispatch h with
  | drop h =>
    rw [h]
    exact .drop
  | dhcp hto h => exact handleDhcp_effect hip hproto hto h
  | dns _ h => exact handleDns_effect h

theorem handleIcmp_effect (h : handleIcmp s f ip ihl n = some s') : FrameEffect s f s' := by
  rw [handleIcmp] at h
  split at h
  · exact .of_same h
  obtain ⟨type, -, h⟩ := Option.bind_eq_some_iff.mp h
  split at h
  · obtain ⟨_, -, h⟩ := Option.bind_eq_some_iff.mp h
    cases h
    exact .icmp
  · exact .of_same h

theorem netHandlePacket_effect (h : netHandlePacket s f = some s') : FrameEffect s f s' := by
  cases netHandlePacket_dispatch h with
  | drop h =>
    rw [h]
    exact .drop
  | arp h => exact handleArp_effect h
  | udp hip hproto h => exact handleUdp_effect hip hproto h
  | tcp hip hproto h =>
    obtain ⟨v, hv, -⟩ := hip.version
    obtain ⟨t, ht, -⟩ := hip.total
    rw [ipTotalLen, ht, ipHlen, hv, Option.getD_some, Option.getD_some] at h
    obtain rfl | ⟨hconn, hseg⟩ := handleTcp_cases hv ht hproto h
    · exact .drop
    · exact .tcp hconn hseg
  | icmp h => exact handleIcmp_effect h

theorem netHandlePacket_dhcp (h : IsDhcpReply s.gMac f) (hs : netHandlePacket s f = some s') :
    dhcpReply s f (dhcpAt f) (dhcpOptions f) = some s' := by
  obtain ⟨t, ht, htotal⟩ := h.total
  obtain ⟨n, hn, hfull⟩ := h.udpLen
  have hto : UdpTo DHCP_SERVER_PORT DHCP_CLIENT_PORT f := by
    refine ⟨?_, h.srcPort, h.dstPort, n, hn, by omega⟩
    rw [ipTotalLen, ht, Option.getD_some]
    exact h.udp t ht
  have hudpLen : udpLen f = n := by rw [udpLen, hn, Option.getD_some]
  have hdhcp : 14 + ipHlen f + UDP_HDR_LEN = dhcpAt f := rfl
  rw [netHandlePacket_udp h.toIpHeader h.proto, handleUdp_to hto, if_pos ⟨rfl, rfl⟩, handleDhcp,
    hudpLen, if_neg (by omega)] at hs
  dsimp only [Option.bind_eq_bind] at hs
  rw [hdhcp, h.op] at hs
  dsimp only [Option.bind_some] at hs
  rw [if_neg (by decide), h.xid] at hs
  dsimp only [Option.bind_some] at hs
  rw [if_neg (by decide), h.magic] at hs
  dsimp only [Option.bind_some] at hs
  rw [if_neg (by decide)] at hs
  obtain ⟨o, ho, hs⟩ := Option.bind_eq_some_iff.mp hs
  have hopt : dhcpOptions f = o := by
    simp only [dhcpOptions, hudpLen] at ho ⊢
    rw [ho, Option.getD_some]
  rw [hopt]
  exact hs

end EponaOS.Net
