import EponaOS.Net.TcpRun

/-!
# The DHCP handshake

`handle_dhcp` takes the first offer and requests its address from its server, once. The
acknowledgment that configures the host is whichever comes first: only its type is looked
at, and it is not compared with the request.
-/

namespace EponaOS.Net

open Msg

structure DhcpKept (s s' : NetState) : Prop where
  mac : s'.gMac = s.gMac
  configured : s'.gDhcpConfigured = s.gDhcpConfigured
  requested : s'.gDhcpRequested = s.gDhcpRequested
  offered : s'.gOfferedIp = s.gOfferedIp
  server : s'.gDhcpServerIp = s.gDhcpServerIp
  localIp : s'.gLocalIp = s.gLocalIp
  events : ∃ ev, s'.events = s.events ++ ev ∧ ∀ e ∈ ev, ∀ t r v, e ≠ .dhcp t r v

variable {s s' s'' : NetState} {f : Msg}

theorem DhcpKept.of_events (hev : s'.events = s.events)
    (h : s'.gMac = s.gMac ∧ s'.gDhcpConfigured = s.gDhcpConfigured ∧
      s'.gDhcpRequested = s.gDhcpRequested ∧ s'.gOfferedIp = s.gOfferedIp ∧
      s'.gDhcpServerIp = s.gDhcpServerIp ∧ s'.gLocalIp = s.gLocalIp) : DhcpKept s s' := by
  obtain ⟨h1, h2, h3, h4, h5, h6⟩ := h
  exact ⟨h1, h2, h3, h4, h5, h6, [], by rw [hev, List.append_nil], by simp⟩

theorem DhcpKept.refl (s : NetState) : DhcpKept s s :=
  .of_events rfl ⟨rfl, rfl, rfl, rfl, rfl, rfl⟩

theorem DhcpKept.trans (h : DhcpKept s s') (h' : DhcpKept s' s'') : DhcpKept s s'' := by
  obtain ⟨ev, he, hev⟩ := h.events
  obtain ⟨ev', he', hev'⟩ := h'.events
  refine ⟨h'.mac.trans h.mac, h'.configured.trans h.configured, h'.requested.trans h.requested,
    h'.offered.trans h.offered, h'.server.trans h.server, h'.localIp.trans h.localIp,
    ev ++ ev', ?_, fun e hm => ?_⟩
  · rw [he', he, List.append_assoc]
  · obtain hm | hm := List.mem_append.mp hm
    · exact hev e hm
    · exact hev' e hm

theorem DhcpKept.emit (h : DhcpKept s s') (he : ∀ t r v, e ≠ .dhcp t r v) :
    DhcpKept s (s'.emit e) := by
  refine h.trans ⟨rfl, rfl, rfl, rfl, rfl, rfl, [e], rfl, fun e' hm => ?_⟩
  rw [List.mem_singleton.mp hm]
  exact he

theorem DhcpKept.sendTcp {ack : Nat} (h : DhcpKept s s') : DhcpKept s (s'.sendTcp seq ack flags p) :=
  h.emit fun _ _ _ h => NetEvent.noConfusion h

theorem dnsQuery_dhcpKept (s : NetState) (host : Msg) : DhcpKept s (dnsQuery s host) := by
  obtain h | h := dnsQuery_frame s host
  · rw [h]
    exact .refl s
  · rw [h]
    exact DhcpKept.emit (.of_events rfl ⟨rfl, rfl, rfl, rfl, rfl, rfl⟩) fun _ _ _ h => NetEvent.noConfusion h

theorem gatewayFound_dhcpKept (s : NetState) (sha : Msg) : DhcpKept s (s.gatewayFound sha) :=
  DhcpKept.emit (.of_events rfl ⟨rfl, rfl, rfl, rfl, rfl, rfl⟩) fun _ _ _ h => NetEvent.noConfusion h

theorem tcpHttpStart_dhcpKept (s : NetState) (ip : Nat) : DhcpKept s (tcpHttpStart s ip) := by
  rw [tcpHttpStart]
  split
  · exact .refl s
  · exact DhcpKept.sendTcp (.of_events rfl ⟨rfl, rfl, rfl, rfl, rfl, rfl⟩)

theorem tcpFin_dhcpKept (s : NetState) (seq flags len : Nat) :
    DhcpKept s (tcpFin s seq flags len) := by
  by_cases hfin : flags &&& TCP_FLAG_FIN = 0
  · rw [tcpFin_none hfin]
    exact .refl s
  · obtain ⟨printed, htaken⟩ := tcpFin_frame s seq len hfin
    rw [htaken]
    exact DhcpKept.trans (DhcpKept.sendTcp (.of_events rfl ⟨rfl, rfl, rfl, rfl, rfl, rfl⟩))
      (.of_events rfl ⟨rfl, rfl, rfl, rfl, rfl, rfl⟩)

theorem tcpAcceptData_dhcpKept (h : tcpAcceptData s f seq off len = some s') : DhcpKept s s' := by
  obtain ⟨body, done, printed, rfl⟩ := tcpAcceptData_frame h
  exact ⟨rfl, rfl, rfl, rfl, rfl, rfl, _, List.append_assoc .., by simp⟩

theorem tcpSegment_dhcpKept {ack : Nat} (h : tcpSegment s f seq ack flags off len = some s') :
    DhcpKept s s' := by
  rw [tcpSegment] at h
  split at h
  · cases h
    exact .of_events rfl ⟨rfl, rfl, rfl, rfl, rfl, rfl⟩
  split at h
  · cases h
    exact ⟨rfl, rfl, rfl, rfl, rfl, rfl, _, List.append_assoc .., by simp⟩
  split at h
  · split at h
    · cases h
      exact (DhcpKept.refl s).sendTcp
    · obtain ⟨s₁, h₁, h⟩ := Option.bind_eq_some_iff.mp h
      cases h
      exact (tcpAcceptData_dhcpKept h₁).trans (tcpFin_dhcpKept ..)
  · cases h
    exact tcpFin_dhcpKept ..

-- ---------------------------------------------------------------------------
-- The two messages that are looked at
-- ---------------------------------------------------------------------------

def NetState.takeOffer (s : NetState) (yiaddr serverIp : Nat) : NetState :=
  NetState.emit { s with gOfferedIp := yiaddr, gDhcpServerIp := serverIp, gDhcpRequested := true }
    (.dhcp DHCP_REQUEST yiaddr serverIp)

def NetState.takeAck (s : NetState) (yiaddr : Nat) (o : DhcpOptions) : NetState :=
  let gateway := if o.routerIp ≠ 0 then o.routerIp else DEFAULT_GATEWAY
  NetState.emit { s with
    gLocalIp := yiaddr
    gGatewayIp := gateway
    gDnsIp := o.dnsIp
    gDhcpConfigured := true } (.arp gateway)

theorem takeAck_events (s : NetState) (yiaddr : Nat) (o : DhcpOptions) :
    ∃ gateway, (s.takeAck yiaddr o).events = s.events ++ [.arp gateway] := ⟨_, rfl⟩

def IsOffer (s : NetState) (f : Msg) : Prop :=
  IsDhcpReply s.gMac f ∧ (dhcpOptions f).msgType = DHCP_OFFER ∧ s.gDhcpRequested = false

def IsAck (s : NetState) (f : Msg) : Prop :=
  IsDhcpReply s.gMac f ∧ (dhcpOptions f).msgType = DHCP_ACK ∧ s.gDhcpConfigured = false

theorem dhcpReply_cases (h : dhcpReply s f (dhcpAt f) o = some s') :
    (o.msgType = DHCP_OFFER ∧ s.gDhcpRequested = false ∧
      s' = s.takeOffer (dhcpYiaddr f) o.serverIp) ∨
    (o.msgType = DHCP_ACK ∧ s.gDhcpConfigured = false ∧ s' = s.takeAck (dhcpYiaddr f) o) ∨
    (s' = s ∧ ¬ (o.msgType = DHCP_ACK ∧ s.gDhcpConfigured = false)) := by
  rw [dhcpReply] at h
  split at h
  · rename_i hoffer
    obtain ⟨yiaddr, hy, h⟩ := Option.bind_eq_some_iff.mp h
    cases h
    refine .inl ⟨hoffer.1, by simpa using hoffer.2, ?_⟩
    rw [dhcpYiaddr, hy]
    rfl
  split at h
  · rename_i hack
    obtain ⟨yiaddr, hy, h⟩ := Option.bind_eq_some_iff.mp h
    cases h
    refine .inr (.inl ⟨hack.1, by simpa using hack.2, ?_⟩)
    rw [dhcpYiaddr, hy]
    rfl
  · rename_i hother
    cases h
    exact .inr (.inr ⟨rfl, fun hack => hother ⟨hack.1, by simp [hack.2]⟩⟩)

theorem netHandlePacket_dhcp_cases (h : netHandlePacket s f = some s') :
    (IsAck s f ∧ s' = s.takeAck (dhcpYiaddr f) (dhcpOptions f)) ∨
    (¬ IsAck s f ∧ IsOffer s f ∧ s' = s.takeOffer (dhcpYiaddr f) (dhcpOptions f).serverIp) ∨
    (¬ IsAck s f ∧ DhcpKept s s') := by
  by_cases hdhcp : IsDhcpReply s.gMac f
  · obtain ⟨htype, hreq, rfl⟩ | ⟨htype, hconf, rfl⟩ | ⟨rfl, hack⟩ :=
      dhcpReply_cases (netHandlePacket_dhcp hdhcp h)
    · refine .inr (.inl ⟨fun hack => ?_, ⟨hdhcp, htype, hreq⟩, rfl⟩)
      have := htype.symm.trans hack.2.1
      cases this
    · exact .inl ⟨⟨hdhcp, htype, hconf⟩, rfl⟩
    · exact .inr (.inr ⟨fun h => hack h.2, .refl _⟩)
  · refine .inr (.inr ⟨fun h => hdhcp h.1, ?_⟩)
    cases netHandlePacket_effect h with
    | drop => exact .refl s
    | arp sha => exact gatewayFound_dhcpKept s sha
    | arpQuery sha => exact (gatewayFound_dhcpKept s sha).trans (dnsQuery_dhcpKept ..)
    | dhcp hreply => exact absurd hreply hdhcp
    | dns ip =>
      refine DhcpKept.trans ?_ (tcpHttpStart_dhcpKept _ ip)
      exact .of_events rfl ⟨rfl, rfl, rfl, rfl, rfl, rfl⟩
    | icmp => exact .of_events rfl ⟨rfl, rfl, rfl, rfl, rfl, rfl⟩
    | tcp _ hseg => exact tcpSegment_dhcpKept hseg

-- ---------------------------------------------------------------------------
-- A run
-- ---------------------------------------------------------------------------

/-- The client. When a frame configures it, the frame is noted with what was sent before. -/
structure DhcpClient where
  net : NetState
  acked : Option (Msg × List NetEvent)

def clientStep (c : DhcpClient) (f : Msg) (c' : DhcpClient) : Prop :=
  netHandlePacket c.net f = some c'.net ∧
    c'.acked = if !c.net.gDhcpConfigured && c'.net.gDhcpConfigured then some (f, c.net.events)
      else c.acked

def DhcpClient.boot (mac : Msg) (litNext : UInt8) : DhcpClient := ⟨netInit mac litNext, none⟩

/-- The address taken was requested before, from the server that acknowledged it. -/
def HandshakeFollowed (c : DhcpClient) : Prop :=
  ∀ f sent, c.acked = some (f, sent) → ∃ requested server,
    .dhcp DHCP_REQUEST requested server ∈ sent ∧
      c.net.gLocalIp = requested ∧ (dhcpOptions f).serverIp = server

/-- An acknowledgment that would configure the host answers its request. -/
def AcksRequest (c : DhcpClient) (f : Msg) : Prop :=
  IsAck c.net f → c.net.gDhcpRequested = true ∧ dhcpYiaddr f = c.net.gOfferedIp ∧
    (dhcpOptions f).serverIp = c.net.gDhcpServerIp

structure Requests (c : DhcpClient) : Prop where
  acked : c.net.gDhcpConfigured = false → c.acked = none
  sent : ∀ requested server, .dhcp DHCP_REQUEST requested server ∈ c.net.events ↔
    c.net.gDhcpRequested = true ∧ requested = c.net.gOfferedIp ∧ server = c.net.gDhcpServerIp

variable {c c' : DhcpClient}

theorem clientStep_deterministic (h : clientStep c f c') (h' : clientStep c f c'') : c' = c'' := by
  obtain ⟨hnet, hacked⟩ := h
  obtain ⟨hnet', hacked'⟩ := h'
  rcases c' with ⟨n, b⟩
  rcases c'' with ⟨n', b'⟩
  cases hnet.symm.trans hnet'
  cases hacked.trans hacked'.symm
  rfl

theorem boot_requests (mac : Msg) (litNext : UInt8) : Requests (.boot mac litNext) where
  acked := fun _ => rfl
  sent := by
    intro requested server
    refine iff_of_false (fun h => ?_) (fun h => Bool.noConfusion h.1)
    cases List.mem_singleton.mp h

theorem Requests.kept (h : Requests c) (hk : DhcpKept c.net c'.net) (hacked : c'.acked = c.acked) :
    Requests c' ∧ (HandshakeFollowed c' ↔ HandshakeFollowed c) := by
  obtain ⟨ev, he, hev⟩ := hk.events
  refine ⟨⟨fun hconf => ?_, fun requested server => ?_⟩, ?_⟩
  · rw [hacked]
    exact h.acked (hk.configured.symm.trans hconf)
  · rw [hk.requested, hk.offered, hk.server, ← h.sent, he, List.mem_append]
    exact or_iff_left fun hm => hev _ hm _ _ _ rfl
  · rw [HandshakeFollowed, HandshakeFollowed, hacked, hk.localIp]

theorem Requests.offer (h : Requests c) (hreq : c.net.gDhcpRequested = false)
    (hnet : c'.net = c.net.takeOffer yiaddr server) (hacked : c'.acked = c.acked) :
    Requests c' ∧ (HandshakeFollowed c' ↔ HandshakeFollowed c) := by
  refine ⟨⟨fun hconf => ?_, fun requested srv => ?_⟩, ?_⟩
  · rw [hnet] at hconf
    rw [hacked]
    exact h.acked hconf
  · have hnone : ¬ .dhcp DHCP_REQUEST requested srv ∈ c.net.events := by
      rw [h.sent, hreq]
      exact fun h => Bool.noConfusion h.1
    have hevents : c'.net.events = c.net.events ++ [.dhcp DHCP_REQUEST yiaddr server] := by
      rw [hnet]
      rfl
    rw [hevents, List.mem_append, or_iff_right hnone, List.mem_singleton, hnet]
    simp [NetState.takeOffer, NetState.emit]
  · rw [HandshakeFollowed, HandshakeFollowed, hacked, hnet]
    rfl

theorem Requests.ack (h : Requests c) (hconf : c.net.gDhcpConfigured = false)
    (hnet : c'.net = c.net.takeAck (dhcpYiaddr f) (dhcpOptions f))
    (hacked : c'.acked = some (f, c.net.events)) :
    Requests c' ∧ (HandshakeFollowed c' ↔ HandshakeFollowed c ∧
      (c.net.gDhcpRequested = true ∧ dhcpYiaddr f = c.net.gOfferedIp ∧
        (dhcpOptions f).serverIp = c.net.gDhcpServerIp)) := by
  refine ⟨⟨fun hconf' => ?_, fun requested server => ?_⟩, ?_⟩
  · rw [hnet] at hconf'
    cases hconf'
  · obtain ⟨gateway, hevents⟩ := takeAck_events c.net (dhcpYiaddr f) (dhcpOptions f)
    rw [hnet, hevents, List.mem_append, List.mem_singleton]
    refine (or_iff_left fun h => NetEvent.noConfusion h).trans ?_
    exact h.sent requested server
  · have hbefore : HandshakeFollowed c := by
      intro f' sent hsome
      rw [h.acked hconf] at hsome
      cases hsome
    have hlocal : c'.net.gLocalIp = dhcpYiaddr f := by
      rw [hnet]
      rfl
    rw [HandshakeFollowed, hacked, hlocal, and_iff_right hbefore]
    constructor
    · intro hgood
      obtain ⟨requested, server, hmem, hip, hserver⟩ := hgood f c.net.events rfl
      obtain ⟨hreq, rfl, rfl⟩ := (h.sent requested server).mp hmem
      exact ⟨hreq, hip, hserver⟩
    · rintro ⟨hreq, hip, hserver⟩ f' sent hsome
      cases hsome
      exact ⟨_, _, (h.sent _ _).mpr ⟨hreq, rfl, rfl⟩, hip, hserver⟩

theorem Requests.step (h : Requests c) (hs : clientStep c f c') :
    Requests c' ∧ (HandshakeFollowed c' ↔ HandshakeFollowed c ∧ AcksRequest c f) := by
  obtain ⟨hnet, hacked⟩ := hs
  obtain ⟨hack, htake⟩ | ⟨hack, hoffer, htake⟩ | ⟨hack, hkept⟩ := netHandlePacket_dhcp_cases hnet
  · have hflip : c'.acked = some (f, c.net.events) := by
      rw [hacked, htake, hack.2.2]
      rfl
    obtain ⟨hreqs, hiff⟩ := h.ack hack.2.2 htake hflip
    refine ⟨hreqs, hiff.trans (and_congr_right fun _ => ?_)⟩
    exact ⟨fun hcond _ => hcond, fun hcond => hcond hack⟩
  · have hconf : c'.net.gDhcpConfigured = c.net.gDhcpConfigured := by
      rw [htake]
      rfl
    have hsame : c'.acked = c.acked := by
      rw [hacked, hconf]
      cases c.net.gDhcpConfigured <;> rfl
    obtain ⟨hreqs, hiff⟩ := h.offer hoffer.2.2 htake hsame
    exact ⟨hreqs, hiff.trans (and_iff_left fun h => absurd h hack).symm⟩
  · have hsame : c'.acked = c.acked := by
      rw [hacked, hkept.configured]
      cases c.net.gDhcpConfigured <;> rfl
    obtain ⟨hreqs, hiff⟩ := h.kept hkept hsame
    exact ⟨hreqs, hiff.trans (and_iff_left fun h => absurd h hack).symm⟩

/-- The handshake is followed in a run exactly if every acknowledgment that configures the
host comes after its request, for the requested address and from the requested server. -/
theorem handshakeFollowed_iff (mac : Msg) (litNext : UInt8) (frames : List Msg)
    (h : Run clientStep (fun _ _ => True) (.boot mac litNext) frames c) :
    HandshakeFollowed c ↔ Run clientStep AcksRequest (.boot mac litNext) frames c := by
  refine h.good_iff Requests HandshakeFollowed (boot_requests mac litNext) ?_ ?_ ?_
  · intro f sent hsome
    cases hsome
  · exact fun _ _ _ _ h h' => clientStep_deterministic h h'
  · exact fun _ _ _ h _ hs => h.step hs

-- ---------------------------------------------------------------------------
-- Two servers
-- ---------------------------------------------------------------------------

/-- A broadcast reply for the client `chaddr`, from the server `serverId`. -/
def dhcpFrame (chaddr yiaddr serverId : Msg) (msgType : UInt8) : Msg :=
  List.replicate 6 0xFF ++ [82, 85, 10, 0, 2, 2, 8, 0] ++
  [69, 0, 1, 22, 0, 0, 0, 0, 64, 17, 0, 0] ++ serverId ++ List.replicate 4 0xFF ++
  [0, 67, 0, 68, 1, 2, 0, 0] ++
  [2, 1, 6, 0, 0xE9, 0, 0xC0, 0xDE, 0, 0, 128, 0] ++ List.replicate 4 0 ++ yiaddr ++
  List.replicate 8 0 ++ chaddr ++ List.replicate 10 0 ++ List.replicate 192 0 ++
  [99, 130, 83, 99, 53, 1, msgType, 54, 4] ++ serverId ++ [255]

def someMac : Msg := [82, 84, 0, 18, 52, 86]

def firstOffer : Msg := dhcpFrame someMac [10, 0, 2, 15] [10, 0, 2, 2] 2

def firstAck : Msg := dhcpFrame someMac [10, 0, 2, 15] [10, 0, 2, 2] 5

def otherAck : Msg := dhcpFrame [82, 84, 0, 18, 52, 99] [10, 0, 2, 77] [10, 0, 2, 3] 5

def clientBehind (c : DhcpClient) (f : Msg) : DhcpClient where
  net := behind c.net f
  acked := if !c.net.gDhcpConfigured && (behind c.net f).gDhcpConfigured then
    some (f, c.net.events) else c.acked

theorem clientStep_behind (h : (netHandlePacket c.net f).isSome = true) :
    clientStep c f (clientBehind c f) := ⟨netStep_behind h, rfl⟩

theorem handshakeFollowed_iff_firstAck :
    HandshakeFollowed (clientBehind (clientBehind (.boot someMac 0) firstOffer) firstAck) ↔
      Run clientStep AcksRequest (.boot someMac 0) [firstOffer, firstAck]
        (clientBehind (clientBehind (.boot someMac 0) firstOffer) firstAck) :=
  handshakeFollowed_iff someMac 0 [firstOffer, firstAck]
    (.cons trivial (clientStep_behind (by decide +kernel)) <|
      .cons trivial (clientStep_behind (by decide +kernel)) .nil)

/-- The host takes an address that it did not request, from a server it did not choose. -/
theorem otherAck_configures : ∃ frames c,
    Run clientStep (fun _ _ => True) (.boot someMac 0) frames c ∧
      c.net.gDhcpConfigured = true ∧ ¬ HandshakeFollowed c := by
  refine ⟨[firstOffer, otherAck],
    clientBehind (clientBehind (.boot someMac 0) firstOffer) otherAck,
    .cons trivial (clientStep_behind (by decide +kernel)) <|
      .cons trivial (clientStep_behind (by decide +kernel)) .nil, by decide +kernel, fun h => ?_⟩
  have hacked : (clientBehind (clientBehind (.boot someMac 0) firstOffer) otherAck).acked =
      some (otherAck, (behind (netInit someMac 0) firstOffer).events) := by decide +kernel
  obtain ⟨requested, server, hmem, hip, -⟩ := h _ _ hacked
  have hsent : (behind (netInit someMac 0) firstOffer).events =
      [.dhcp DHCP_DISCOVER 0 0, .dhcp DHCP_REQUEST 251789322 33685514] := by decide +kernel
  have hlocal : (clientBehind (clientBehind (.boot someMac 0) firstOffer) otherAck).net.gLocalIp =
      1291976714 := by decide +kernel
  rw [hsent] at hmem
  rw [hlocal] at hip
  subst hip
  revert hmem
  simp [DHCP_REQUEST, DHCP_DISCOVER]

end EponaOS.Net
