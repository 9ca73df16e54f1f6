import EponaOS.Net.DhcpOptions
import EponaOS.Net.DnsNames
import EponaOS.Net.SilentServer

/-!
# What is on the wire

The events of the state machine as frames: `send_udp`, `send_dhcp`, `send_arp_request`,
`send_icmp_echo` and the datagram of `dns_query`. A station on the network checks lengths and
checksums and reads the fields; from the frames of a run it has the events of the run.
-/

namespace EponaOS.Net

open Msg

def ICMP_ECHO_REQUEST : Nat := 8

-- ---------------------------------------------------------------------------
-- The frames
-- ---------------------------------------------------------------------------

structure Ids where
  gIpId : Nat
  gIcmpSeq : Nat

def ethHeader (dst src : Msg) (type : Nat) : Msg := copyMac dst ++ copyMac src ++ put16 type

def udpHeader (srcPort dstPort payloadLen : Nat) : Msg :=
  put16 srcPort ++ put16 dstPort ++ put16 (UDP_HDR_LEN + payloadLen) ++ put16 0

/-- No frame where it does not fit in `pkt` -/
def sendUdp (s : NetState) (n : Ids) (dstMac : Msg) (srcIp dstIp srcPort dstPort : Nat)
    (payload : Msg) : Option (Msg × Ids) :=
  let udpLen := UDP_HDR_LEN + payload.length
  if ETH_HDR_LEN + (IPV4_HDR_LEN + udpLen) > 640 then none
  else
    let (ip, gIpId) := buildIpv4 n.gIpId srcIp dstIp IP_PROTO_UDP udpLen
    some (ethHeader dstMac s.gMac ETH_P_IP ++ (ip ++ (udpHeader srcPort dstPort payload.length ++
      payload)), { n with gIpId })

/-- `dhcp_pkt_t` -/
def dhcpFixed (mac : Msg) : Msg :=
  [1, 1, 6, 0] ++ put32 DHCP_XID ++ put16 0 ++ put16 0x8000 ++ List.replicate 16 0 ++
    (copyMac mac ++ List.replicate 10 0) ++ List.replicate 64 0 ++ List.replicate 128 0 ++
    put32 DHCP_MAGIC

def dhcpRequestOptions (msgType requestedIp serverIp : Nat) : Msg :=
  let opt := dhcpAddOption [] 53 1 [UInt8.ofNat msgType]
  let opt := if requestedIp ≠ 0 then dhcpAddOption opt 50 4 (store32 requestedIp) else opt
  let opt := if serverIp ≠ 0 then dhcpAddOption opt 54 4 (store32 serverIp) else opt
  let opt := dhcpAddOption opt 55 6 [1, 3, 6, 15, 51, 54]
  let opt := dhcpAddOption opt 57 2 (put16 576)
  opt ++ [255]

/-- The array is 0 behind the options, and 300 bytes of it are sent at least. -/
def dhcpPayload (mac : Msg) (msgType requestedIp serverIp : Nat) : Msg :=
  let opt := dhcpRequestOptions msgType requestedIp serverIp
  dhcpFixed mac ++ (opt ++ List.replicate (300 - (DHCP_PKT_LEN + opt.length)) 0)

/-- `NET_IP(255, 255, 255, 255)` -/
def BROADCAST_IP : Nat := 0xFFFFFFFF

def sendDhcp (s : NetState) (n : Ids) (msgType requestedIp serverIp : Nat) : Option (Msg × Ids) :=
  sendUdp s n (List.replicate ETH_ALEN 0xFF) 0 BROADCAST_IP DHCP_CLIENT_PORT DHCP_SERVER_PORT
    (dhcpPayload s.gMac msgType requestedIp serverIp)

def arpRequest (mac : Msg) (localIp targetIp : Nat) : Msg :=
  put16 1 ++ put16 ETH_P_IP ++ [6, 4] ++ put16 1 ++ copyMac mac ++ store32 localIp ++
    List.replicate ETH_ALEN 0 ++ store32 targetIp

def sendArpRequest (s : NetState) (targetIp : Nat) : Msg :=
  ethHeader (List.replicate ETH_ALEN 0xFF) s.gMac ETH_P_ARP ++ arpRequest s.gMac s.gLocalIp targetIp

/-- `"EponaOS ping"` -/
def pingText : Msg := [69, 112, 111, 110, 97, 79, 83, 32, 112, 105, 110, 103]

def icmpEcho (seq checksum : Nat) : Msg :=
  [UInt8.ofNat ICMP_ECHO_REQUEST, 0] ++ put16 checksum ++ (put16 0xE001 ++ put16 seq ++ pingText)

def sendIcmpEcho (s : NetState) (n : Ids) (dstIp : Nat) (dstMac : Msg) : Msg × Ids :=
  let icmpLen := ICMP_HDR_LEN + pingText.length
  let (ip, gIpId) := buildIpv4 n.gIpId s.gLocalIp dstIp IP_PROTO_ICMP icmpLen
  let sum := checksum16 (icmpEcho n.gIcmpSeq 0)
  (ethHeader dstMac s.gMac ETH_P_IP ++ (ip ++ icmpEcho n.gIcmpSeq sum),
    ⟨gIpId, (n.gIcmpSeq + 1) % 2 ^ 16⟩)

/-- The end of `dns_query` -/
def sendDns (s : NetState) (n : Ids) (server : Nat) (host : Msg) : Option (Msg × Ids) := do
  let payload ← dnsPayload host
  sendUdp s n s.gGatewayMac s.gLocalIp server DNS_CLIENT_PORT DNS_PORT payload

/-- The frame of an event. What is sent through the gateway has its address in front. -/
def transmit (s : NetState) (n : Ids) : NetEvent → Option (Msg × Ids)
  | .tcp dst seq ack flags payload =>
    (sendTcpSegment s n.gIpId dst s.gGatewayMac seq ack flags payload).map fun r =>
      (r.1, { n with gIpId := r.2 })
  | .dhcp msgType requestedIp serverIp => sendDhcp s n msgType requestedIp serverIp
  | .dns server host => sendDns s n server host
  | .arp target => some (sendArpRequest s target, n)
  | .icmp dst => some (sendIcmpEcho s n dst s.gGatewayMac)
  | .payload _ => none

-- ---------------------------------------------------------------------------
-- A station
-- ---------------------------------------------------------------------------

structure IpPacket where
  proto : Nat
  src : Nat
  dst : Nat
  data : Msg

def openIpv4 (m : Msg) : Option IpPacket := do
  let verIhl ← get8 m 0
  let total ← get16 m 2
  let proto ← get8 m 9
  let src ← load32 m 12
  let dst ← load32 m 16
  if verIhl = 0x45 ∧ total = m.length ∧ checksum16 (m.take IPV4_HDR_LEN) = 0 then
    some ⟨proto, src, dst, m.drop IPV4_HDR_LEN⟩
  else none

def readTcp (p : IpPacket) : Option NetEvent := do
  let srcPort ← get16 p.data 0
  let dstPort ← get16 p.data 2
  let seq ← get32 p.data 4
  let ack ← get32 p.data 8
  let dataOffset ← get8 p.data 12
  let flags ← get8 p.data 13
  let len := p.data.length
  let pseudo := store32 p.src ++ store32 p.dst ++ [0, 6, UInt8.ofNat (len / 256), UInt8.ofNat len]
  if srcPort = TCP_CLIENT_PORT ∧ dstPort = TCP_HTTP_PORT ∧ dataOffset = 0x50 ∧
      checksum16 (pseudo ++ p.data) = 0 then
    some (.tcp p.dst seq ack flags (p.data.drop TCP_HDR_LEN))
  else none

def readIcmp (p : IpPacket) : Option NetEvent := do
  let type ← get8 p.data 0
  if type = ICMP_ECHO_REQUEST ∧ checksum16 p.data = 0 then some (.icmp p.dst) else none

def readOptions : Nat → Msg → List (Nat × Msg)
  | 0, _ => []
  | _ + 1, [] => []
  | k + 1, code :: m =>
    if code = 0 then readOptions k m
    else if code = 255 then []
    else
      match m with
      | [] => []
      | len :: m => (code.toNat, m.take len.toNat) :: readOptions k (m.drop len.toNat)

def optionData (options : List (Nat × Msg)) (code : Nat) : Option Msg :=
  (options.find? fun o => o.1 = code).map Prod.snd

def optionIp (options : List (Nat × Msg)) (code : Nat) : Nat :=
  ((optionData options code).bind fun d => load32 d 0).getD 0

def readDhcp (payload : Msg) : Option NetEvent := do
  let op ← get8 payload 0
  let xid ← get32 payload 4
  let magic ← get32 payload 236
  let options := readOptions 16 (payload.drop DHCP_PKT_LEN)
  let type ← (optionData options 53).bind fun d => get8 d 0
  if op = 1 ∧ xid = DHCP_XID ∧ magic = DHCP_MAGIC then
    some (.dhcp type (optionIp options 50) (optionIp options 54))
  else none

def readLabels : Nat → Msg → Option (List Msg × Msg)
  | 0, _ => none
  | _ + 1, [] => none
  | k + 1, len :: m =>
    if len = 0 then some ([], m)
    else (readLabels k (m.drop len.toNat)).map fun r => (m.take len.toNat :: r.1, r.2)

def readDns (dst : Nat) (payload : Msg) : Option NetEvent := do
  let id ← get16 payload 0
  let qdcount ← get16 payload 4
  let (labels, rest) ← readLabels payload.length (payload.drop DNS_HDR_LEN)
  if id = DNS_XID ∧ qdcount = 1 ∧ rest = put16 DNS_TYPE_A ++ put16 DNS_CLASS_IN then
    some (.dns dst ([46].intercalate labels))
  else none

def readUdp (p : IpPacket) : Option NetEvent := do
  let srcPort ← get16 p.data 0
  let dstPort ← get16 p.data 2
  let len ← get16 p.data 4
  let payload := p.data.drop UDP_HDR_LEN
  if len ≠ p.data.length then none
  else if srcPort = DHCP_CLIENT_PORT ∧ dstPort = DHCP_SERVER_PORT then readDhcp payload
  else if srcPort = DNS_CLIENT_PORT ∧ dstPort = DNS_PORT then readDns p.dst payload
  else none

def readArp (m : Msg) : Option NetEvent := do
  let hwType ← get16 m 0
  let proto ← get16 m 2
  let op ← get16 m 6
  let target ← load32 m 24
  if hwType = 1 ∧ proto = ETH_P_IP ∧ op = 1 ∧ m.length = ARP_PKT_LEN then some (.arp target)
  else none

def readFrame (f : Msg) : Option NetEvent := do
  let type ← get16 f 12
  let data := f.drop ETH_HDR_LEN
  if type = ETH_P_ARP then readArp data
  else if type = ETH_P_IP then
    let p ← openIpv4 data
    if p.proto = IP_PROTO_TCP then readTcp p
    else if p.proto = IP_PROTO_UDP then readUdp p
    else if p.proto = IP_PROTO_ICMP then readIcmp p
    else none
  else none

-- ---------------------------------------------------------------------------
-- Fields
-- ---------------------------------------------------------------------------

variable {s s' : NetState} {n : Ids} {f m : Msg} {i ack : Nat}

theorem get16_put16 (h : HasAt f i (put16 v)) (hv : v < 2 ^ 16) : get16 f i = some v := by
  rw [HasAt.get16 h, UInt8.toNat_ofNat', UInt8.toNat_ofNat']
  congr 1
  omega

theorem get32_put32 (h : HasAt f i (put32 v)) (hv : v < 2 ^ 32) : get32 f i = some v := by
  obtain ⟨hhi, hlo⟩ := hasAt_append.mp h
  have hlow : Net.put16 v = Net.put16 (v % 65536) := by
    rw [Net.put16, Net.put16]
    congr 1
    · refine UInt8.toNat_inj.mp ?_
      rw [UInt8.toNat_ofNat', UInt8.toNat_ofNat']
      omega
    · congr 1
      refine UInt8.toNat_inj.mp ?_
      rw [UInt8.toNat_ofNat', UInt8.toNat_ofNat']
      omega
  rw [hlow] at hlo
  rw [get32, get16_put16 hhi (by omega)]
  rw [put16_length] at hlo
  rw [Option.bind_eq_bind, Option.bind_some, get16_put16 hlo (by omega)]
  change some _ = _
  congr 1
  omega

theorem load32_store32 (h : HasAt f i (store32 v)) (hv : v < 2 ^ 32) : load32 f i = some v := by
  obtain ⟨h0, h1⟩ := hasAt_cons.mp h
  obtain ⟨h1, h2⟩ := hasAt_cons.mp h1
  obtain ⟨h2, h3⟩ := hasAt_cons.mp h2
  have h3 := (hasAt_cons.mp h3).1
  simp only [load32, Msg.get8, h0, h1, h2, h3, Option.map_some, Option.bind_eq_bind,
    Option.bind_some, UInt8.toNat_ofNat']
  change some _ = _
  congr 1
  omega

theorem hasAt_self (m : Msg) : HasAt m 0 m := List.prefix_rfl

theorem ipv4_length : (buildIpv4 ident src dst proto len).1.length = IPV4_HDR_LEN :=
  ipv4Header_length

theorem openIpv4_build (hproto : proto < 256) (hsrc : src < 2 ^ 32) (hdst : dst < 2 ^ 32)
    (hlen : 20 + data.length < 2 ^ 16) :
    openIpv4 ((buildIpv4 ident src dst proto data.length).1 ++ data) =
      some ⟨proto, src, dst, data⟩ := by
  obtain ⟨m, hm⟩ : ∃ m, m = (buildIpv4 ident src dst proto data.length).1 ++ data := ⟨_, rfl⟩
  have hat := hasAt_self m
  have hsum : checksum16 (m.take IPV4_HDR_LEN) = 0 := by
    rw [hm, List.take_left' ipv4_length]
    exact ipv4Header_sum
  have hdrop : m.drop IPV4_HDR_LEN = data := by rw [hm, List.drop_left' ipv4_length]
  have htotal : m.length = IPV4_HDR_LEN + data.length := by
    rw [hm, List.length_append, ipv4_length]
  rw [← hm]
  nth_rewrite 2 [hm] at hat
  simp only [buildIpv4, ipv4Header, hasAt_append, List.length_append, put16_length, store32_length,
    List.length_cons, List.length_nil, Nat.zero_add, Nat.reduceAdd] at hat
  obtain ⟨⟨⟨⟨⟨⟨⟨⟨hver, htotal'⟩, -⟩, -⟩, hproto'⟩, -⟩, hsrc'⟩, hdst'⟩, -⟩ := hat
  have hver : get8 m 0 = some 0x45 := hver.get8
  have hproto' : get8 m 9 = some proto := by
    rw [(hasAt_cons.mp hproto').2.get8, UInt8.toNat_ofNat', Nat.mod_eq_of_lt hproto]
  rw [openIpv4, hver, get16_put16 htotal' hlen, hproto', load32_store32 hsrc' hsrc,
    load32_store32 hdst' hdst]
  simp only [Option.bind_eq_bind, Option.bind_some, hsum, htotal, hdrop, and_self, if_true]

theorem readIcmp_echo :
    readIcmp ⟨IP_PROTO_ICMP, src, dst, icmpEcho n.gIcmpSeq (checksum16 (icmpEcho n.gIcmpSeq 0))⟩ =
      some (.icmp dst) := by
  have hsum : checksum16 (icmpEcho n.gIcmpSeq (checksum16 (icmpEcho n.gIcmpSeq 0))) = 0 := by
    refine checksum16_field rfl ?_
    have h8 : (UInt8.ofNat ICMP_ECHO_REQUEST).toNat = 8 := rfl
    simp only [List.append_assoc, List.cons_append, checksumWords, h8]
    omega
  have htype : get8 (icmpEcho n.gIcmpSeq (checksum16 (icmpEcho n.gIcmpSeq 0))) 0 =
      some ICMP_ECHO_REQUEST := rfl
  rw [readIcmp]
  dsimp only
  rw [htype]
  simp only [Option.bind_eq_bind, Option.bind_some, hsum, and_self, if_true]

theorem readTcp_segment (hseq : seq < 2 ^ 32) (hack : ack < 2 ^ 32)
    (hflags : flags < 256) (hsum : checksum16 (summedBytes src dst seq ack flags sum payload) = 0) :
    readTcp ⟨IP_PROTO_TCP, src, dst, tcpHeader seq ack flags sum ++ payload⟩ =
      some (.tcp dst seq ack flags payload) := by
  obtain ⟨m, hm⟩ : ∃ m, m = tcpHeader seq ack flags sum ++ payload := ⟨_, rfl⟩
  have hat := hasAt_self m
  have hdrop : m.drop TCP_HDR_LEN = payload := by
    rw [hm, List.drop_left' (show _ = TCP_HDR_LEN from tcpHeader_length)]
  have hlen : m.length = TCP_HDR_LEN + payload.length := by
    rw [hm, List.length_append, tcpHeader_length]
    rfl
  rw [summedBytes] at hsum
  rw [← hm, ← hlen] at hsum
  rw [← hm]
  nth_rewrite 2 [hm] at hat
  simp only [tcpHeader, hasAt_append, List.length_append, put16_length, put32_length,
    List.length_cons, List.length_nil, Nat.zero_add, Nat.reduceAdd] at hat
  obtain ⟨⟨⟨⟨⟨⟨⟨⟨hsrcPort, hdstPort⟩, hseq'⟩, hack'⟩, hoffset⟩, -⟩, -⟩, -⟩, -⟩ := hat
  have hflags' : get8 m 13 = some flags := by
    rw [(hasAt_cons.mp hoffset).2.get8, UInt8.toNat_ofNat', Nat.mod_eq_of_lt hflags]
  have hoffset : get8 m 12 = some 0x50 := hoffset.get8
  rw [readTcp]
  dsimp only
  rw [get16_put16 hsrcPort (by decide), get16_put16 hdstPort (by decide), get32_put32 hseq' hseq,
    get32_put32 hack' hack, hoffset, hflags']
  simp only [Option.bind_eq_bind, Option.bind_some, hsum, hdrop, and_self, if_true]

theorem readArp_request (htarget : target < 2 ^ 32) :
    readArp (arpRequest mac localIp target) = some (.arp target) := by
  obtain ⟨m, hm⟩ : ∃ m, m = arpRequest mac localIp target := ⟨_, rfl⟩
  have hat := hasAt_self m
  have hlen : m.length = ARP_PKT_LEN := by
    rw [hm]
    simp [arpRequest, ARP_PKT_LEN, ETH_ALEN]
  rw [← hm]
  nth_rewrite 2 [hm] at hat
  simp only [arpRequest, hasAt_append, List.length_append, put16_length, store32_length,
    copyMac_length, List.length_replicate, List.length_cons, List.length_nil, Nat.zero_add,
    Nat.reduceAdd, ETH_ALEN] at hat
  obtain ⟨⟨⟨⟨⟨⟨⟨hhw, hproto⟩, -⟩, hop⟩, -⟩, -⟩, -⟩, htarget'⟩ := hat
  rw [readArp, get16_put16 hhw (by decide), get16_put16 hproto (by decide),
    get16_put16 hop (by decide), load32_store32 htarget' htarget]
  simp only [Option.bind_eq_bind, Option.bind_some, hlen, and_self, if_true]

theorem readOptions_request (hreq : requestedIp < 2 ^ 32) (hserver : serverIp < 2 ^ 32)
    (htype : msgType < 256) (rest : Msg) :
    let options := readOptions 16 (dhcpRequestOptions msgType requestedIp serverIp ++ rest)
    (optionData options 53).bind (fun d => get8 d 0) = some msgType ∧
      optionIp options 50 = requestedIp ∧ optionIp options 54 = serverIp := by
  have htype' : (UInt8.ofNat msgType).toNat = msgType := by
    rw [UInt8.toNat_ofNat', Nat.mod_eq_of_lt htype]
  have hip : ∀ ip < 2 ^ 32, load32 (store32 ip) 0 = some ip := fun ip hip =>
    load32_store32 (hasAt_self _) hip
  have hip' := hip requestedIp hreq
  have hip'' := hip serverIp hserver
  rw [store32] at hip' hip''
  by_cases h1 : requestedIp = 0 <;> by_cases h2 : serverIp = 0 <;>
    simp [dhcpRequestOptions, dhcpAddOption, readOptions, optionData, optionIp, h1, h2, store32,
      put16, htype', get8, hip', hip'']

theorem dhcpFixed_length (mac : Msg) : (dhcpFixed mac).length = DHCP_PKT_LEN := by
  simp only [dhcpFixed, List.length_append, put16_length, put32_length, copyMac_length,
    List.length_replicate, List.length_cons, List.length_nil]
  rfl

theorem readDhcp_payload (hreq : requestedIp < 2 ^ 32) (hserver : serverIp < 2 ^ 32)
    (htype : msgType < 256) : readDhcp (dhcpPayload mac msgType requestedIp serverIp) =
      some (.dhcp msgType requestedIp serverIp) := by
  obtain ⟨m, hm⟩ : ∃ m, m = dhcpPayload mac msgType requestedIp serverIp := ⟨_, rfl⟩
  have hat := hasAt_self m
  have hdrop : m.drop DHCP_PKT_LEN = dhcpRequestOptions msgType requestedIp serverIp ++
      List.replicate (300 - (DHCP_PKT_LEN + (dhcpRequestOptions msgType requestedIp
        serverIp).length)) 0 := by
    rw [hm, dhcpPayload, List.drop_left' (dhcpFixed_length mac)]
  obtain ⟨htype', hreq', hserver'⟩ := readOptions_request hreq hserver htype
    (List.replicate (300 - (DHCP_PKT_LEN + (dhcpRequestOptions msgType requestedIp
      serverIp).length)) 0)
  rw [← hdrop] at htype' hreq' hserver'
  rw [← hm]
  nth_rewrite 2 [hm] at hat
  simp only [dhcpPayload, dhcpFixed, hasAt_append, List.length_append, put16_length, put32_length,
    copyMac_length, List.length_replicate, List.length_cons, List.length_nil, Nat.zero_add,
    Nat.reduceAdd] at hat
  obtain ⟨⟨⟨⟨⟨⟨⟨⟨⟨hop, hxid⟩, -⟩, -⟩, -⟩, -⟩, -⟩, -⟩, hmagic⟩, -⟩ := hat
  have hop : get8 m 0 = some 1 := hop.get8
  rw [readDhcp, hop, get32_put32 hxid (by decide), get32_put32 hmagic (by decide)]
  simp only [Option.bind_eq_bind, Option.bind_some, htype', hreq', hserver', and_self, if_true]

theorem readLabels_encode {labels : List Msg} (hvalid : ∀ l ∈ labels, 0 < l.length ∧ l.length ≤ 63)
    (hk : labels.length < k) (rest : Msg) :
    readLabels k (encodeLabels labels ++ 0 :: rest) = some (labels, rest) := by
  induction labels generalizing k with
  | nil =>
    obtain ⟨k, rfl⟩ := Nat.exists_eq_succ_of_ne_zero (Nat.ne_zero_of_lt hk)
    rfl
  | cons l labels ih =>
    rw [List.forall_mem_cons] at hvalid
    obtain ⟨k, rfl⟩ := Nat.exists_eq_succ_of_ne_zero (Nat.ne_zero_of_lt hk)
    have hlen : (UInt8.ofNat l.length).toNat = l.length := by
      rw [UInt8.toNat_ofNat', Nat.mod_eq_of_lt (by omega)]
    have hne : UInt8.ofNat l.length ≠ 0 := by
      intro h
      rw [h] at hlen
      have : (0 : UInt8).toNat = 0 := rfl
      omega
    rw [encodeLabels_cons, List.cons_append, readLabels, if_neg hne, hlen, List.append_assoc,
      List.drop_left, List.take_left, ih hvalid.2 (Nat.lt_of_succ_lt_succ hk)]
    rfl

theorem encodeLabels_length (labels : List Msg) : labels.length ≤ (encodeLabels labels).length := by
  induction labels with
  | nil => exact Nat.le_refl 0
  | cons l labels ih =>
    rw [encodeLabels_cons, List.length_cons, List.length_cons, List.length_append]
    omega

theorem readDns_payload (h : dnsPayload host = some payload) :
    readDns server payload = some (.dns server host) := by
  obtain ⟨name, hname, rfl⟩ := Option.map_eq_some_iff.mp h
  obtain ⟨hout, hvalid, -⟩ := dnsWriteName_spec hname
  obtain ⟨m, hm⟩ : ∃ m, m = put16 DNS_XID ++ put16 0x0100 ++ put16 1 ++ put16 0 ++ put16 0 ++
    put16 0 ++ (name ++ put16 DNS_TYPE_A ++ put16 DNS_CLASS_IN) := ⟨_, rfl⟩
  have hat := hasAt_self m
  have hdrop : m.drop DNS_HDR_LEN = encodeLabels (labelsOf host) ++
      0 :: (put16 DNS_TYPE_A ++ put16 DNS_CLASS_IN) := by
    rw [hm, List.drop_left' (by simp [DNS_HDR_LEN]), hout]
    simp
  have hlen : (labelsOf host).length < m.length := by
    have hle := encodeLabels_length (labelsOf host)
    rw [hm, hout]
    simp only [List.length_append, put16_length, List.length_cons, List.length_nil]
    omega
  rw [← hm]
  nth_rewrite 2 [hm] at hat
  simp only [hasAt_append, List.length_append, put16_length, Nat.zero_add, Nat.reduceAdd] at hat
  obtain ⟨⟨⟨⟨⟨⟨hid, -⟩, hqdcount⟩, -⟩, -⟩, -⟩, -⟩ := hat
  rw [readDns, get16_put16 hid (by decide), get16_put16 hqdcount (by decide), hdrop,
    readLabels_encode hvalid hlen]
  simp only [Option.bind_eq_bind, Option.bind_some, and_self, if_true, labelsOf]
  rw [List.intercalate_splitOn]

theorem readUdp_header (hsrcPort : srcPort < 2 ^ 16) (hdstPort : dstPort < 2 ^ 16)
    (hlen : 8 + payload.length < 2 ^ 16) :
    readUdp ⟨proto, src, dst, udpHeader srcPort dstPort payload.length ++ payload⟩ =
      if srcPort = DHCP_CLIENT_PORT ∧ dstPort = DHCP_SERVER_PORT then readDhcp payload
      else if srcPort = DNS_CLIENT_PORT ∧ dstPort = DNS_PORT then readDns dst payload
      else none := by
  obtain ⟨m, hm⟩ : ∃ m, m = udpHeader srcPort dstPort payload.length ++ payload := ⟨_, rfl⟩
  have hat := hasAt_self m
  have hdrop : m.drop UDP_HDR_LEN = payload := by
    rw [hm, List.drop_left' (show _ = UDP_HDR_LEN from rfl)]
  have hlength : m.length = UDP_HDR_LEN + payload.length := by
    rw [hm, List.length_append]
    rfl
  rw [← hm]
  nth_rewrite 2 [hm] at hat
  simp only [udpHeader, hasAt_append, List.length_append, put16_length, Nat.zero_add,
    Nat.reduceAdd] at hat
  obtain ⟨⟨⟨⟨hsrcPort', hdstPort'⟩, hlen'⟩, -⟩, -⟩ := hat
  rw [readUdp]
  dsimp only
  rw [get16_put16 hsrcPort' hsrcPort, get16_put16 hdstPort' hdstPort, get16_put16 hlen' hlen]
  simp only [Option.bind_eq_bind, Option.bind_some, hlength, hdrop, ne_eq, not_true_eq_false,
    if_false]

-- ---------------------------------------------------------------------------
-- Frames
-- ---------------------------------------------------------------------------

theorem ethHeader_length : (ethHeader dst src type).length = ETH_HDR_LEN := by
  simp [ethHeader, ETH_HDR_LEN]

theorem ethHeader_source (rest : Msg) :
    ((ethHeader dst src type ++ rest).drop ETH_ALEN).take ETH_ALEN = copyMac src := by
  rw [ethHeader, List.append_assoc, List.append_assoc,
    List.drop_left' (show _ = ETH_ALEN from copyMac_length dst),
    List.take_left' (show _ = ETH_ALEN from copyMac_length src)]

theorem readFrame_header (htype : type < 2 ^ 16) (data : Msg) :
    readFrame (ethHeader dst src type ++ data) =
      if type = ETH_P_ARP then readArp data
      else if type = ETH_P_IP then do
        let p ← openIpv4 data
        if p.proto = IP_PROTO_TCP then readTcp p
        else if p.proto = IP_PROTO_UDP then readUdp p
        else if p.proto = IP_PROTO_ICMP then readIcmp p
        else none
      else none := by
  obtain ⟨m, hm⟩ : ∃ m, m = ethHeader dst src type ++ data := ⟨_, rfl⟩
  have hat := hasAt_self m
  have hdrop : m.drop ETH_HDR_LEN = data := by rw [hm, List.drop_left' ethHeader_length]
  rw [← hm]
  nth_rewrite 2 [hm] at hat
  simp only [ethHeader, hasAt_append, List.length_append, copyMac_length, Nat.zero_add,
    Nat.reduceAdd] at hat
  obtain ⟨⟨-, htype'⟩, -⟩ := hat
  rw [readFrame, get16_put16 htype' htype]
  simp only [Option.bind_eq_bind, Option.bind_some, hdrop]

theorem readFrame_ipv4 (dstMac srcMac : Msg) (ident proto src dst : Nat) (data : Msg)
    (hproto : proto < 256) (hsrc : src < 2 ^ 32) (hdst : dst < 2 ^ 32)
    (hlen : 20 + data.length < 2 ^ 16) :
    readFrame (ethHeader dstMac srcMac ETH_P_IP ++
        ((buildIpv4 ident src dst proto data.length).1 ++ data)) =
      if proto = IP_PROTO_TCP then readTcp ⟨proto, src, dst, data⟩
      else if proto = IP_PROTO_UDP then readUdp ⟨proto, src, dst, data⟩
      else if proto = IP_PROTO_ICMP then readIcmp ⟨proto, src, dst, data⟩
      else none := by
  rw [readFrame_header (by decide), if_neg (by decide), if_pos rfl,
    openIpv4_build hproto hsrc hdst hlen]
  rfl

def NetEvent.onWire : NetEvent → Bool
  | .payload _ => false
  | _ => true

def Sendable : NetEvent → Prop
  | .tcp dst seq ack flags payload =>
    dst < 2 ^ 32 ∧ seq < 2 ^ 32 ∧ ack < 2 ^ 32 ∧ flags < 256 ∧ payload.length ≤ 586
  | .dhcp msgType requestedIp serverIp =>
    msgType < 256 ∧ requestedIp < 2 ^ 32 ∧ serverIp < 2 ^ 32
  | .dns server host => server < 2 ^ 32 ∧ (dnsPayload host).isSome = true
  | .arp target => target < 2 ^ 32
  | .icmp dst => dst < 2 ^ 32
  | .payload _ => True

theorem dhcpPayload_length (mac : Msg) (msgType requestedIp serverIp : Nat) :
    (dhcpPayload mac msgType requestedIp serverIp).length = 300 := by
  have hopt : (dhcpRequestOptions msgType requestedIp serverIp).length ≤ 60 := by
    by_cases h1 : requestedIp = 0 <;> by_cases h2 : serverIp = 0 <;>
      simp [dhcpRequestOptions, dhcpAddOption, h1, h2]
  rw [dhcpPayload]
  simp only [List.length_append, dhcpFixed_length, List.length_replicate, DHCP_PKT_LEN]
  omega

theorem dnsPayload_length (h : dnsPayload host = some payload) : payload.length ≤ 256 := by
  obtain ⟨name, hname, rfl⟩ := Option.map_eq_some_iff.mp h
  obtain ⟨-, -, hle⟩ := dnsWriteName_spec hname
  simp only [DNS_HDR_LEN] at hle
  simp only [List.length_append, put16_length]
  omega

theorem sendUdp_read (s : NetState) (n : Ids) (dstMac : Msg) (src dst srcPort dstPort : Nat)
    (payload : Msg) (hlen : payload.length ≤ 300) (hsrc : src < 2 ^ 32) (hdst : dst < 2 ^ 32)
    (hsrcPort : srcPort < 2 ^ 16) (hdstPort : dstPort < 2 ^ 16) :
    ∃ f n', sendUdp s n dstMac src dst srcPort dstPort payload = some (f, n') ∧
      (f.drop ETH_ALEN).take ETH_ALEN = copyMac s.gMac ∧
      readFrame f = if srcPort = DHCP_CLIENT_PORT ∧ dstPort = DHCP_SERVER_PORT then readDhcp payload
        else if srcPort = DNS_CLIENT_PORT ∧ dstPort = DNS_PORT then readDns dst payload
        else none := by
  have hdata : (udpHeader srcPort dstPort payload.length ++ payload).length =
      UDP_HDR_LEN + payload.length := by
    rw [List.length_append]
    rfl
  have hread := readFrame_ipv4 dstMac s.gMac n.gIpId IP_PROTO_UDP src dst
    (udpHeader srcPort dstPort payload.length ++ payload) (by decide) hsrc hdst
    (by rw [hdata, UDP_HDR_LEN]; omega)
  rw [if_neg (by decide), if_pos rfl, readUdp_header hsrcPort hdstPort (by omega), hdata] at hread
  rw [sendUdp]
  dsimp only
  rw [if_neg (by simp only [ETH_HDR_LEN, IPV4_HDR_LEN, UDP_HDR_LEN]; omega)]
  exact ⟨_, _, rfl, ethHeader_source _, hread⟩

theorem sendTcpSegment_read (s : NetState) (gIpId dst : Nat) (dstMac : Msg)
    (seq ack flags : Nat) (payload : Msg) (hlocal : s.gLocalIp < 2 ^ 32)
    (he : Sendable (.tcp dst seq ack flags payload)) :
    ∃ f gIpId', sendTcpSegment s gIpId dst dstMac seq ack flags payload = some (f, gIpId') ∧
      (f.drop ETH_ALEN).take ETH_ALEN = copyMac s.gMac ∧
      readFrame f = some (.tcp dst seq ack flags payload) := by
  obtain ⟨hdst, hseq, hack, hflags, hlen⟩ := he
  have heth : (copyMac dstMac ++ copyMac s.gMac ++ put16 ETH_P_IP).length = 14 := ethHeader_length
  rw [sendTcpSegment]
  dsimp only
  rw [if_neg (by simp only [ETH_HDR_LEN, IPV4_HDR_LEN, TCP_HDR_LEN]; omega),
    show ETH_HDR_LEN + IPV4_HDR_LEN = 34 from rfl, show ETH_HDR_LEN = 14 from rfl,
    tcpChecksumSegment_sent heth (by omega)]
  refine ⟨_, _, rfl, ?_, ?_⟩
  · rw [List.append_assoc, List.append_assoc]
    exact ethHeader_source _
  · have hdata : ∀ sum, (tcpHeader seq ack flags sum ++ payload).length =
        TCP_HDR_LEN + payload.length := fun sum => by
      rw [List.length_append, tcpHeader_length]
      rfl
    have hread := readFrame_ipv4 dstMac s.gMac gIpId IP_PROTO_TCP s.gLocalIp dst
      (tcpHeader seq ack flags (checksum16 (summedBytes s.gLocalIp dst seq ack flags 0 payload)) ++
        payload) (by decide) hlocal hdst (by rw [hdata, TCP_HDR_LEN]; omega)
    rw [if_pos rfl, readTcp_segment hseq hack hflags (summedBytes_sum ..), hdata] at hread
    rw [List.append_assoc, List.append_assoc]
    exact hread

theorem transmit_read (hlocal : s.gLocalIp < 2 ^ 32) (he : Sendable e) (hwire : e.onWire = true) :
    ∃ f n', transmit s n e = some (f, n') ∧ (f.drop ETH_ALEN).take ETH_ALEN = copyMac s.gMac ∧
      readFrame f = some e := by
  cases e with
  | tcp dst seq ack flags payload =>
    obtain ⟨f, gIpId, hsend, hread⟩ := sendTcpSegment_read s n.gIpId dst s.gGatewayMac seq ack flags
      payload hlocal he
    exact ⟨f, _, by rw [transmit, hsend]; rfl, hread⟩
  | dhcp msgType requestedIp serverIp =>
    obtain ⟨htype, hreq, hserver⟩ := he
    obtain ⟨f, n', hsend, hsource, hread⟩ := sendUdp_read s n (List.replicate ETH_ALEN 0xFF) 0
      BROADCAST_IP DHCP_CLIENT_PORT DHCP_SERVER_PORT
      (dhcpPayload s.gMac msgType requestedIp serverIp)
      (dhcpPayload_length ..).le (by decide) (by decide) (by decide) (by decide)
    refine ⟨f, n', hsend, hsource, ?_⟩
    rw [hread, if_pos ⟨rfl, rfl⟩, readDhcp_payload hreq hserver htype]
  | dns server host =>
    obtain ⟨hserver, hhost⟩ := he
    obtain ⟨payload, hpayload⟩ := Option.isSome_iff_exists.mp hhost
    have hlen := dnsPayload_length hpayload
    obtain ⟨f, n', hsend, hsource, hread⟩ := sendUdp_read s n s.gGatewayMac s.gLocalIp server
      DNS_CLIENT_PORT DNS_PORT payload (by omega) hlocal hserver (by decide) (by decide)
    refine ⟨f, n', ?_, hsource, ?_⟩
    · rw [transmit, sendDns, hpayload]
      exact hsend
    · rw [hread, if_neg (by decide), if_pos ⟨rfl, rfl⟩, readDns_payload hpayload]
  | arp target =>
    refine ⟨_, _, rfl, ethHeader_source _, ?_⟩
    rw [sendArpRequest, readFrame_header (by decide), if_pos rfl, readArp_request he]
  | icmp dst =>
    have hread := readFrame_ipv4 s.gGatewayMac s.gMac n.gIpId IP_PROTO_ICMP s.gLocalIp dst
      (icmpEcho n.gIcmpSeq (checksum16 (icmpEcho n.gIcmpSeq 0))) (by decide) hlocal he
      (show 20 + 20 < 2 ^ 16 by decide)
    rw [if_neg (by decide), if_neg (by decide), if_pos rfl, readIcmp_echo] at hread
    exact ⟨_, _, rfl, ethHeader_source _, hread⟩
  | payload data => cases hwire

theorem sendUdp_length (h : sendUdp s n dstMac src dst srcPort dstPort payload = some (f, n')) :
    f.length ≤ 640 := by
  rw [sendUdp] at h
  dsimp only at h
  split at h
  · cases h
  · cases h
    simp only [List.length_append, ethHeader_length, ipv4_length, udpHeader, put16_length]
    simp only [UDP_HDR_LEN] at *
    omega

theorem sendTcpSegment_length
    (h : sendTcpSegment s gIpId dst dstMac seq ack flags payload = some (f, gIpId')) :
    f.length ≤ 640 := by
  rw [sendTcpSegment] at h
  dsimp only at h
  split at h
  · cases h
  · obtain ⟨sum, -, h⟩ := Option.bind_eq_some_iff.mp h
    cases h
    simp only [List.length_append, copyMac_length, ipv4_length, tcpHeader_length, put16_length]
    simp only [ETH_HDR_LEN, TCP_HDR_LEN] at *
    omega

/-- The largest array for a frame has 640 bytes; `rtl8139_send` takes frames of 1792. -/
theorem transmit_length (h : transmit s n e = some (f, n')) : f.length ≤ 640 := by
  cases e with
  | tcp dst seq ack flags payload =>
    obtain ⟨r, hsend, h⟩ := Option.map_eq_some_iff.mp h
    cases h
    exact sendTcpSegment_length hsend
  | dhcp msgType requestedIp serverIp => exact sendUdp_length h
  | dns server host =>
    obtain ⟨payload, -, h⟩ := Option.bind_eq_some_iff.mp h
    exact sendUdp_length h
  | arp target =>
    cases h
    simp only [sendArpRequest, arpRequest, List.length_append, ethHeader_length, copyMac_length,
      put16_length, store32_length, List.length_replicate, List.length_cons, List.length_nil]
    decide
  | icmp dst =>
    cases h
    simp only [icmpEcho, pingText, List.length_append, ethHeader_length, ipv4Header_length,
      put16_length, List.length_cons, List.length_nil]
    decide
  | payload data => cases h

-- ---------------------------------------------------------------------------
-- What a call sends
-- ---------------------------------------------------------------------------

structure Ranged (s : NetState) : Prop where
  localIp : s.gLocalIp < 2 ^ 32
  gatewayIp : s.gGatewayIp < 2 ^ 32
  dnsIp : s.gDnsIp < 2 ^ 32
  answerIp : s.gDnsAnswerIp < 2 ^ 32
  remoteIp : s.gTcpRemoteIp < 2 ^ 32
  seq : s.gTcpSeq < 2 ^ 32
  ack : s.gTcpAck < 2 ^ 32
  getSeq : s.gTcpGetSeq < 2 ^ 32

def NetState.numbers (s : NetState) : List Nat :=
  [s.gLocalIp, s.gGatewayIp, s.gDnsIp, s.gDnsAnswerIp, s.gTcpRemoteIp, s.gTcpSeq, s.gTcpAck,
    s.gTcpGetSeq]

theorem Ranged.keep (h : Ranged s) (hkeep : s'.numbers = s.numbers) : Ranged s' := by
  simp only [NetState.numbers, List.cons.injEq, and_true] at hkeep
  obtain ⟨hlocal, hgateway, hdns, hanswer, hremote, hseq, hack, hget⟩ := hkeep
  exact ⟨hlocal ▸ h.localIp, hgateway ▸ h.gatewayIp, hdns ▸ h.dnsIp, hanswer ▸ h.answerIp,
    hremote ▸ h.remoteIp, hseq ▸ h.seq, hack ▸ h.ack, hget ▸ h.getSeq⟩

structure Sends (s s' : NetState) : Prop where
  mac : s'.gMac = s.gMac
  ranged : Ranged s'
  events : ∃ es, s'.events = s.events ++ es ∧ ∀ e ∈ es, Sendable e

variable {s₁ : NetState} {e : NetEvent}

theorem Sends.refl (h : Ranged s) : Sends s s :=
  ⟨rfl, h, [], (List.append_nil _).symm, List.forall_mem_nil _⟩

theorem Sends.trans (h : Sends s s₁) (h' : Sends s₁ s') : Sends s s' := by
  obtain ⟨es, hes, hsendable⟩ := h.events
  obtain ⟨es', hes', hsendable'⟩ := h'.events
  refine ⟨h'.mac.trans h.mac, h'.ranged, es ++ es', ?_, ?_⟩
  · rw [hes', hes, List.append_assoc]
  · rw [List.forall_mem_append]
    exact ⟨hsendable, hsendable'⟩

theorem Sends.of_events (h : Ranged s') (hmac : s'.gMac = s.gMac) (hev : s'.events = s.events) :
    Sends s s' := ⟨hmac, h, [], by rw [hev, List.append_nil], List.forall_mem_nil _⟩

theorem Sends.of_emit (h : Ranged s') (hmac : s'.gMac = s.gMac) (hev : s'.events = s.events ++ [e])
    (he : Sendable e) : Sends s s' :=
  ⟨hmac, h, [e], hev, List.forall_mem_singleton.mpr he⟩

theorem zero_lt_32 : 0 < 2 ^ 32 := Nat.two_pow_pos 32

theorem firstSeq_lt : TCP_FIRST_SEQ < 2 ^ 32 := by decide

theorem mod_lt_32 (a : Nat) : a % 2 ^ 32 < 2 ^ 32 := Nat.mod_lt _ (Nat.two_pow_pos 32)

theorem gatewayFound_sendable (h : Ranged s) (sha : Msg) : Sends s (s.gatewayFound sha) :=
  .of_emit (h.keep rfl) rfl rfl h.gatewayIp

theorem dnsQuery_sendable (h : Ranged s) (host : Msg) : Sends s (dnsQuery s host) := by
  rw [dnsQuery]
  split
  · exact .refl h
  split
  · exact .refl h
  next name hname =>
    refine .of_emit (h.keep rfl) rfl rfl ⟨h.dnsIp, ?_⟩
    rw [dnsPayload, hname]
    rfl

theorem tcpHttpStart_sendable (h : Ranged s) (hip : ip < 2 ^ 32) : Sends s (tcpHttpStart s ip) := by
  rw [tcpHttpStart]
  split
  · exact .refl h
  · exact .of_emit ⟨h.localIp, h.gatewayIp, h.dnsIp, h.answerIp, hip, firstSeq_lt, zero_lt_32,
      zero_lt_32⟩ rfl rfl ⟨hip, firstSeq_lt, zero_lt_32, by decide, by decide⟩

theorem httpRequest_length (s : NetState) : (httpRequest s).length ≤ 586 := by
  have hhost := List.length_take_le 60 s.gHttpHost
  have hget : getLine.length = 22 := rfl
  have hagent : agentLine.length = 25 := rfl
  simp only [httpRequest, List.length_append, List.length_cons, List.length_nil, hget, hagent]
  omega

theorem tcpHttpSendGet_sendable (h : Ranged s) : Sends s (tcpHttpSendGet s) :=
  .of_emit ⟨h.localIp, h.gatewayIp, h.dnsIp, h.answerIp, h.remoteIp, mod_lt_32 _, h.ack, h.seq⟩ rfl
    rfl ⟨h.remoteIp, h.seq, h.ack, by decide, httpRequest_length _⟩

theorem sendTcp_sendable (h : Ranged s) (hack : ack < 2 ^ 32) :
    Sends s (s.sendTcp s.gTcpSeq ack TCP_FLAG_ACK []) :=
  .of_emit (h.keep rfl) rfl rfl ⟨h.remoteIp, h.seq, hack, by decide, by decide⟩

theorem tcpFin_sendable (h : Ranged s) (seq flags len : Nat) :
    Sends s (tcpFin s seq flags len) := by
  by_cases hfin : flags &&& TCP_FLAG_FIN = 0
  · rw [tcpFin_none hfin]
    exact .refl h
  · obtain ⟨printed, htaken⟩ := tcpFin_frame s seq len hfin
    rw [htaken]
    exact .of_emit ⟨h.localIp, h.gatewayIp, h.dnsIp, h.answerIp, h.remoteIp, h.seq, mod_lt_32 _,
      h.getSeq⟩ rfl rfl ⟨h.remoteIp, h.seq, mod_lt_32 _, by decide, by decide⟩

theorem tcpAcceptData_sendable (h : Ranged s) (hs : tcpAcceptData s f seq off len = some s') :
    Sends s s' := by
  obtain ⟨body, done, printed, rfl⟩ := tcpAcceptData_frame hs
  refine ⟨rfl, ⟨h.localIp, h.gatewayIp, h.dnsIp, h.answerIp, h.remoteIp, h.seq, mod_lt_32 _,
    h.getSeq⟩, [_, _], List.append_assoc .., ?_⟩
  rw [List.forall_mem_cons, List.forall_mem_singleton]
  exact ⟨trivial, h.remoteIp, h.seq, mod_lt_32 _, by decide, by decide⟩

theorem tcpSegment_sendable (h : Ranged s)
    (hs : tcpSegment s f seq ack flags off len = some s') : Sends s s' := by
  rw [tcpSegment] at hs
  split at hs
  · cases hs
    exact .of_events (h.keep rfl) rfl rfl
  split at hs
  · cases hs
    -- the acknowledgment of the SYN, and the request
    have hopen : Sends s { s with
        gTcpSeq := (s.gTcpSeq + 1) % 2 ^ 32
        gTcpAck := (seq + 1) % 2 ^ 32
        gTcpState := 2 } := .of_events ⟨h.localIp, h.gatewayIp, h.dnsIp, h.answerIp, h.remoteIp,
      mod_lt_32 _, mod_lt_32 _, h.getSeq⟩ rfl rfl
    have hacked := hopen.trans (sendTcp_sendable hopen.ranged hopen.ranged.ack)
    exact hacked.trans (tcpHttpSendGet_sendable hacked.ranged)
  split at hs
  · split at hs
    · cases hs
      exact sendTcp_sendable h h.ack
    · obtain ⟨s₁, hdata, hs⟩ := Option.bind_eq_some_iff.mp hs
      cases hs
      have htaken := tcpAcceptData_sendable h hdata
      exact htaken.trans (tcpFin_sendable htaken.ranged ..)
  · cases hs
    exact tcpFin_sendable h ..

theorem tcpPollRetransmit_sendable (h : Ranged s) : Sends s (tcpPollRetransmit s) := by
  rw [tcpPollRetransmit]
  split
  · exact .refl h
  dsimp only
  split
  · exact .of_events (h.keep rfl) rfl rfl
  split
  · exact .of_events (h.keep rfl) rfl rfl
  split
  · exact .of_emit (h.keep rfl) rfl rfl ⟨h.remoteIp, h.seq, by decide, by decide, by decide⟩
  · exact .of_emit (h.keep rfl) rfl rfl ⟨h.remoteIp, h.getSeq, h.ack, by decide,
      httpRequest_length _⟩

theorem netHttpReset_sendable (h : Ranged s) : Sends s (netHttpReset s) :=
  .of_events ⟨h.localIp, h.gatewayIp, h.dnsIp, zero_lt_32, zero_lt_32, firstSeq_lt, zero_lt_32,
    zero_lt_32⟩ rfl rfl

theorem load32_lt (h : load32 f i = some v) : v < 2 ^ 32 := by
  simp only [load32, Option.bind_eq_bind, Option.bind_eq_some_iff, get8,
    Option.map_eq_some_iff] at h
  obtain ⟨_, ⟨b₀, -, rfl⟩, _, ⟨b₁, -, rfl⟩, _, ⟨b₂, -, rfl⟩, _, ⟨b₃, -, rfl⟩, h⟩ := h
  cases h
  have := b₀.toNat_lt
  have := b₁.toNat_lt
  have := b₂.toNat_lt
  have := b₃.toNat_lt
  omega

structure OptionsRanged (o : DhcpOptions) : Prop where
  serverIp : o.serverIp < 2 ^ 32
  routerIp : o.routerIp < 2 ^ 32
  dnsIp : o.dnsIp < 2 ^ 32

theorem OptionsRanged.option (h : OptionsRanged o) (ho : dhcpOption f value code olen o = some o') :
    OptionsRanged o' := by
  rw [dhcpOption] at ho
  split at ho
  · obtain ⟨v, -, ho⟩ := Option.bind_eq_some_iff.mp ho
    cases ho
    exact ⟨h.serverIp, h.routerIp, h.dnsIp⟩
  split at ho
  · obtain ⟨v, hv, ho⟩ := Option.bind_eq_some_iff.mp ho
    cases ho
    exact ⟨load32_lt hv, h.routerIp, h.dnsIp⟩
  split at ho
  · obtain ⟨v, hv, ho⟩ := Option.bind_eq_some_iff.mp ho
    cases ho
    exact ⟨h.serverIp, load32_lt hv, h.dnsIp⟩
  split at ho
  · obtain ⟨v, hv, ho⟩ := Option.bind_eq_some_iff.mp ho
    cases ho
    exact ⟨h.serverIp, h.routerIp, load32_lt hv⟩
  · cases ho
    exact h

theorem OptionsRanged.parse (h : OptionsRanged o)
    (ho : parseDhcpOptions f opt len k i o = some o') : OptionsRanged o' := by
  induction k generalizing i o with
  | zero =>
    cases ho
    exact h
  | succ k ih =>
    rw [parseDhcpOptions] at ho
    split at ho
    · obtain ⟨code, -, ho⟩ := Option.bind_eq_some_iff.mp ho
      dsimp only at ho
      split at ho
      · cases ho
        exact h
      split at ho
      · exact ih h ho
      split at ho
      · cases ho
        exact h
      obtain ⟨olen, -, ho⟩ := Option.bind_eq_some_iff.mp ho
      split at ho
      · cases ho
        exact h
      obtain ⟨o₁, ho₁, ho⟩ := Option.bind_eq_some_iff.mp ho
      exact ih (h.option ho₁) ho
    · cases ho
      exact h

theorem dhcpOptions_ranged (f : Msg) : OptionsRanged (dhcpOptions f) := by
  have h0 : OptionsRanged ⟨0, 0, 0, 0⟩ := ⟨zero_lt_32, zero_lt_32, zero_lt_32⟩
  rw [dhcpOptions]
  cases ho : parseDhcpOptions f (dhcpAt f + DHCP_PKT_LEN)
      (udpLen f - UDP_HDR_LEN - DHCP_PKT_LEN) (udpLen f - UDP_HDR_LEN - DHCP_PKT_LEN) 0
      ⟨0, 0, 0, 0⟩ with
  | none => exact h0
  | some o => exact h0.parse ho

theorem dhcpReply_sendable (h : Ranged s) (ho : OptionsRanged o)
    (hs : dhcpReply s f (dhcpAt f) o = some s') : Sends s s' := by
  have hyiaddr : dhcpYiaddr f < 2 ^ 32 := by
    rw [dhcpYiaddr]
    cases hy : load32 f (dhcpAt f + 16) with
    | none => exact zero_lt_32
    | some v => exact load32_lt hy
  obtain ⟨-, -, rfl⟩ | ⟨-, -, rfl⟩ | ⟨rfl, -⟩ := dhcpReply_cases hs
  · exact .of_emit (h.keep rfl) rfl rfl ⟨by decide, hyiaddr, ho.serverIp⟩
  · have hgateway : (s.takeAck (dhcpYiaddr f) o).gGatewayIp < 2 ^ 32 := by
      change (if o.routerIp ≠ 0 then o.routerIp else DEFAULT_GATEWAY) < 2 ^ 32
      split
      · exact ho.routerIp
      · decide
    exact .of_emit ⟨hyiaddr, hgateway, ho.dnsIp, h.answerIp, h.remoteIp, h.seq, h.ack, h.getSeq⟩
      rfl rfl hgateway
  · exact .refl h

theorem dnsAnswers_lt (h : dnsAnswers f msg len k off = some (some ip)) : ip < 2 ^ 32 := by
  induction k generalizing off with
  | zero => cases h
  | succ k ih =>
    rw [dnsAnswers] at h
    obtain ⟨name, -, h⟩ := Option.bind_eq_some_iff.mp h
    split at h
    · cases h
    split at h
    · cases h
    obtain ⟨type, -, h⟩ := Option.bind_eq_some_iff.mp h
    obtain ⟨klass, -, h⟩ := Option.bind_eq_some_iff.mp h
    obtain ⟨rdlen, -, h⟩ := Option.bind_eq_some_iff.mp h
    dsimp only at h
    split at h
    · cases h
    split at h
    · obtain ⟨v, hv, h⟩ := Option.bind_eq_some_iff.mp h
      cases h
      exact load32_lt hv
    · exact ih h

theorem answers_lt (h : Answers mac f ip) : ip < 2 ^ 32 := by
  have htaken := h.2
  rw [dnsTaken] at htaken
  split at htaken
  · cases htaken
  split at htaken
  · exact dnsAnswers_lt (Option.join_eq_some_iff.mp htaken)
  · cases htaken

theorem netHandlePacket_sendable (h : Ranged s) (hs : netHandlePacket s f = some s') :
    Sends s s' := by
  obtain ⟨-, hanswer⟩ := netHandlePacket_answer hs
  have hip : s'.gDnsAnswerIp < 2 ^ 32 := by
    obtain hans | ⟨-, hkept⟩ := hanswer
    · exact answers_lt hans
    · rw [hkept]
      exact h.answerIp
  cases netHandlePacket_effect hs with
  | drop => exact .refl h
  | arp sha => exact gatewayFound_sendable h sha
  | arpQuery sha =>
    have hfound := gatewayFound_sendable h sha
    exact hfound.trans (dnsQuery_sendable hfound.ranged _)
  | dhcp _ hreply => exact dhcpReply_sendable h (dhcpOptions_ranged f) hreply
  | dns ip =>
    have hkept : (tcpHttpStart { s with gDnsAnswerIp := ip, gHttpHost := s.gDnsHost.take 63 }
        ip).gDnsAnswerIp = ip := by
      rw [tcpHttpStart]
      split <;> rfl
    rw [hkept] at hip
    have htaken : Sends s { s with gDnsAnswerIp := ip, gHttpHost := s.gDnsHost.take 63 } :=
      .of_events ⟨h.localIp, h.gatewayIp, h.dnsIp, hip, h.remoteIp, h.seq, h.ack, h.getSeq⟩ rfl rfl
    exact htaken.trans (tcpHttpStart_sendable htaken.ranged hip)
  | icmp =>
    exact .of_events (h.keep rfl) rfl rfl
  | tcp _ hseg => exact tcpSegment_sendable h hseg

def ArgsOk : StackAct → Prop
  | .ping dstIp => dstIp < 2 ^ 32
  | _ => True

theorem stackStep_sendable (h : Ranged s) {a : StackAct} (ha : ArgsOk a)
    (hstep : stackStep s a s') : Sends s s' := by
  cases a with
  | frame f => exact netHandlePacket_sendable h hstep
  | poll =>
    cases hstep
    exact tcpPollRetransmit_sendable h
  | ping dstIp =>
    cases hstep
    rw [netPingSend]
    split
    · exact .refl h
    · exact .of_emit (h.keep rfl) rfl rfl ha
  | dns host =>
    cases hstep
    exact dnsQuery_sendable h host
  | fetch host =>
    cases hstep
    rw [netHttpFetch]
    split
    · exact .refl h
    · have hreset : Sends s { netHttpReset s with gHttpHost := host.take 63 } :=
        .of_events ⟨h.localIp, h.gatewayIp, h.dnsIp, zero_lt_32, zero_lt_32, firstSeq_lt,
          zero_lt_32, zero_lt_32⟩ rfl rfl
      exact hreset.trans (dnsQuery_sendable hreset.ranged host)
  | reset =>
    cases hstep
    exact netHttpReset_sendable h

-- ---------------------------------------------------------------------------
-- The stack with its card
-- ---------------------------------------------------------------------------

/-- The frames of some events, in their order. Where there is no frame for an event, the card gets
none. -/
def transmitAll (s : NetState) (n : Ids) : List NetEvent → List Msg × Ids
  | [] => ([], n)
  | e :: es =>
    match transmit s n e with
    | none => transmitAll s n es
    | some (f, n) => (f :: (transmitAll s n es).1, (transmitAll s n es).2)

structure Host where
  net : NetState
  ids : Ids
  wire : List Msg

/-- A call sends from the addresses that it leaves: they are set before what is sent for them. -/
def Host.after (h : Host) (s : NetState) : Host :=
  let sent := transmitAll s h.ids (s.events.drop h.net.events.length)
  ⟨s, sent.2, h.wire ++ sent.1⟩

def hostStep (h : Host) (a : StackAct) (h' : Host) : Prop :=
  ∃ s, stackStep h.net a s ∧ h' = h.after s

def hostInit (mac : Msg) (litNext : UInt8) : Host :=
  let s := netInit mac litNext
  let sent := transmitAll s ⟨1, 1⟩ s.events
  ⟨s, sent.2, sent.1⟩

theorem transmitAll_read (hs : Ranged s) (hes : ∀ e ∈ es, Sendable e) :
    (transmitAll s n es).1.map readFrame = (es.filter NetEvent.onWire).map some ∧
      ∀ f ∈ (transmitAll s n es).1, f.length ≤ 640 ∧
        (f.drop ETH_ALEN).take ETH_ALEN = copyMac s.gMac := by
  induction es generalizing n with
  | nil => exact ⟨rfl, List.forall_mem_nil _⟩
  | cons e es ih =>
    obtain ⟨he, hes⟩ := List.forall_mem_cons.mp hes
    rw [transmitAll]
    cases hwire : e.onWire with
    | false =>
      have hnone : transmit s n e = none := by
        cases e with
        | payload data => rfl
        | _ => cases hwire
      rw [hnone, List.filter_cons_of_neg (by rw [hwire]; decide)]
      exact ih hes
    | true =>
      obtain ⟨f, n', hsend, hsource, hread⟩ := transmit_read (n := n) hs.localIp he hwire
      obtain ⟨ihread, ihsource⟩ := ih (n := n') hes
      rw [hsend, List.filter_cons_of_pos hwire]
      refine ⟨?_, List.forall_mem_cons.mpr ⟨⟨transmit_length hsend, hsource⟩, ihsource⟩⟩
      rw [List.map_cons, List.map_cons, hread, ihread]

structure HostOk (mac : Msg) (h : Host) : Prop where
  gMac : h.net.gMac = mac
  ranged : Ranged h.net
  reads : h.wire.map readFrame = (h.net.events.filter NetEvent.onWire).map some
  source : ∀ f ∈ h.wire, f.length ≤ 640 ∧ (f.drop ETH_ALEN).take ETH_ALEN = copyMac mac

theorem hostInit_wire (mac : Msg) (litNext : UInt8) : (hostInit mac litNext).wire =
    (transmitAll (netInit mac litNext) ⟨1, 1⟩ (netInit mac litNext).events).1 := by
  rw [hostInit]

theorem hostInit_ok (mac : Msg) (litNext : UInt8) : HostOk mac (hostInit mac litNext) := by
  have hranged : Ranged (netInit mac litNext) :=
    ⟨zero_lt_32, zero_lt_32, zero_lt_32, zero_lt_32, zero_lt_32, firstSeq_lt, zero_lt_32,
      zero_lt_32⟩
  have hdiscover : ∀ e ∈ (netInit mac litNext).events, Sendable e :=
    List.forall_mem_singleton.mpr ⟨by decide, zero_lt_32, zero_lt_32⟩
  obtain ⟨hreads, hsource⟩ := transmitAll_read (n := ⟨1, 1⟩) hranged hdiscover
  refine ⟨rfl, hranged, ?_, ?_⟩
  · rw [hostInit_wire]
    exact hreads
  · rw [hostInit_wire]
    exact hsource

variable {mac : Msg} {h : Host} {acts : List StackAct} {es : List NetEvent}

theorem HostOk.after (hok : HostOk mac h) (hs : Sends h.net s) : HostOk mac (h.after s) := by
  obtain ⟨es, hes, hsendable⟩ := hs.events
  have hnew : s.events.drop h.net.events.length = es := by rw [hes, List.drop_left]
  obtain ⟨hreads, hsource⟩ := transmitAll_read (n := h.ids) hs.ranged hsendable
  have hmac : s.gMac = mac := hs.mac.trans hok.gMac
  rw [Host.after, hnew]
  refine ⟨hmac, hs.ranged, ?_, List.forall_mem_append.mpr ⟨hok.source, hmac ▸ hsource⟩⟩
  rw [List.map_append, hok.reads, hreads, hes, List.filter_append, List.map_append]

/-- A station that hears all frames of a run has the events of the run, in their order, and sees
the card's address on each frame, which has 640 bytes at most. -/
theorem wire_events (mac : Msg) (litNext : UInt8)
    (hrun : Run hostStep (fun _ a => ArgsOk a) (hostInit mac litNext) acts h) :
    h.wire.map readFrame = (h.net.events.filter NetEvent.onWire).map some ∧
      ∀ f ∈ h.wire, f.length ≤ 640 ∧ (f.drop ETH_ALEN).take ETH_ALEN = copyMac mac := by
  have hok : HostOk mac h := by
    refine hrun.invariant (HostOk mac) (hostInit_ok mac litNext) fun h a h' hok ha hstep => ?_
    obtain ⟨s, hstep, rfl⟩ := hstep
    exact hok.after (stackStep_sendable hok.ranged ha hstep)
  exact ⟨hok.reads, hok.source⟩

def heard (h : Host) (f : Msg) : Host := h.after (behind h.net f)

theorem handled_heard {fs : List Msg} (hs : handled h.net fs = true) :
    Run hostStep (fun _ a => ArgsOk a) h (fs.map .frame) (fs.foldl heard h) := by
  induction fs generalizing h with
  | nil => exact .nil
  | cons f fs ih =>
    rw [handled, Bool.and_eq_true] at hs
    exact .cons trivial ⟨_, netStep_behind hs.1, rfl⟩ (ih hs.2)

theorem wire_events_half :
    (halfAnswer.foldl heard (hostInit someMac 0)).wire.map readFrame =
        ((halfAnswer.foldl heard (hostInit someMac 0)).net.events.filter NetEvent.onWire).map some ∧
      ∀ f ∈ (halfAnswer.foldl heard (hostInit someMac 0)).wire, f.length ≤ 640 ∧
        (f.drop ETH_ALEN).take ETH_ALEN = copyMac someMac :=
  wire_events someMac 0 (handled_heard (by decide +kernel))

end EponaOS.Net
