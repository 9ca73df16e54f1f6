import Mathlib.Tactic.Ring
import EponaOS.Lib.Wire

/-!
# The network stack

`net.c`, the receiving side: what `net_handle_packet` does with a frame, and the
retransmission timer. A read outside of the frame has no result here, and neither has the
call then. What is sent is recorded as an event with the fields that the caller chose;
`http_process_payload` records the bytes it is handed. IP addresses are the 32 bits as
they are loaded, everything else is in host order.
-/

namespace EponaOS.Net

open Msg

def ETH_ALEN : Nat := 6
def ETH_HDR_LEN : Nat := 14
def ETH_P_ARP : Nat := 0x0806
def ETH_P_IP : Nat := 0x0800
def ARP_PKT_LEN : Nat := 28
def IPV4_HDR_LEN : Nat := 20
def UDP_HDR_LEN : Nat := 8
def TCP_HDR_LEN : Nat := 20
def ICMP_HDR_LEN : Nat := 8
def DHCP_PKT_LEN : Nat := 240
def DNS_HDR_LEN : Nat := 12

def IP_PROTO_ICMP : Nat := 1
def IP_PROTO_TCP : Nat := 6
def IP_PROTO_UDP : Nat := 17
def ICMP_ECHO_REPLY : Nat := 0

def DHCP_CLIENT_PORT : Nat := 68
def DHCP_SERVER_PORT : Nat := 67
def DHCP_XID : Nat := 0xE900C0DE
def DHCP_MAGIC : Nat := 0x63825363
def DHCP_DISCOVER : Nat := 1
def DHCP_OFFER : Nat := 2
def DHCP_REQUEST : Nat := 3
def DHCP_ACK : Nat := 5

def DNS_PORT : Nat := 53
def DNS_CLIENT_PORT : Nat := 49153
def DNS_XID : Nat := 0xE901
def DNS_TYPE_A : Nat := 1
def DNS_CLASS_IN : Nat := 1

def TCP_HTTP_PORT : Nat := 80
def TCP_CLIENT_PORT : Nat := 49154
def TCP_FLAG_FIN : Nat := 0x01
def TCP_FLAG_SYN : Nat := 0x02
def TCP_FLAG_RST : Nat := 0x04
def TCP_FLAG_PSH : Nat := 0x08
def TCP_FLAG_ACK : Nat := 0x10
def TCP_RETRY_TICKS : Nat := 200000
def TCP_MAX_RETRIES : Nat := 3
def HTTP_BODY_BUF_SIZE : Nat := 512
def TCP_FIRST_SEQ : Nat := 0xE0020000

/-- `NET_IP(10, 0, 2, 2)` -/
def DEFAULT_GATEWAY : Nat := 10 + 256 * (0 + 256 * (2 + 256 * 2))

inductive NetEvent
  /-- `send_tcp_segment` -/
  | tcp (dst seq ack flags : Nat) (payload : Msg)
  /-- `send_dhcp` -/
  | dhcp (msgType requestedIp serverIp : Nat)
  /-- the datagram of `dns_query` -/
  | dns (server : Nat) (host : Msg)
  /-- `send_arp_request` -/
  | arp (target : Nat)
  /-- `send_icmp_echo` -/
  | icmp (dst : Nat)
  /-- the bytes handed to `http_process_payload` -/
  | payload (data : Msg)
  deriving DecidableEq

/-- The globals of `net.c`. Names are kept without their final 0, the body as the bytes
stored so far. -/
structure NetState where
  gMac : Msg
  gGatewayMac : Msg
  gGatewayKnown : Bool
  gDhcpConfigured : Bool
  gDhcpRequested : Bool
  gDnsRequested : Bool
  gTcpState : Nat
  gHttpOk : Bool
  gDnsHost : Msg
  gLocalIp : Nat
  gGatewayIp : Nat
  gDnsIp : Nat
  gDnsAnswerIp : Nat
  gDhcpServerIp : Nat
  gOfferedIp : Nat
  gTcpRemoteIp : Nat
  gTcpSeq : Nat
  gTcpAck : Nat
  gTcpGetSeq : Nat
  gTcpGetLen : Nat
  gTcpWaitTicks : Nat
  gTcpRetries : Nat
  gHttpBytes : Nat
  gHttpChunks : Nat
  gHttpHeadersDone : Bool
  gHttpBodyPrinted : Bool
  gHttpBody : Msg
  gHttpHost : Msg
  gPingReplied : Bool
  /-- the byte in memory behind the last literal of the request, which is copied with it -/
  litNext : UInt8
  events : List NetEvent

def NetState.emit (s : NetState) (e : NetEvent) : NetState := { s with events := s.events ++ [e] }

def NetState.sendTcp (s : NetState) (seq ack flags : Nat) (payload : Msg) : NetState :=
  s.emit (.tcp s.gTcpRemoteIp seq ack flags payload)

/-- `net_init` at boot, with a network card. -/
def netInit (mac : Msg) (litNext : UInt8) : NetState :=
  let s : NetState := {
    gMac := mac
    gGatewayMac := List.replicate ETH_ALEN 0
    gGatewayKnown := false
    gDhcpConfigured := false
    gDhcpRequested := false
    gDnsRequested := false
    gTcpState := 0
    gHttpOk := false
    gDnsHost := []
    gLocalIp := 0
    gGatewayIp := 0
    gDnsIp := 0
    gDnsAnswerIp := 0
    gDhcpServerIp := 0
    gOfferedIp := 0
    gTcpRemoteIp := 0
    gTcpSeq := TCP_FIRST_SEQ
    gTcpAck := 0
    gTcpGetSeq := 0
    gTcpGetLen := 0
    gTcpWaitTicks := 0
    gTcpRetries := 0
    gHttpBytes := 0
    gHttpChunks := 0
    gHttpHeadersDone := false
    gHttpBodyPrinted := false
    gHttpBody := []
    gHttpHost := []
    gPingReplied := false
    litNext := litNext
    events := [] }
  s.emit (.dhcp DHCP_DISCOVER 0 0)

-- ---------------------------------------------------------------------------
-- Checksums
-- ---------------------------------------------------------------------------

def checksumWords : Msg → Nat
  | a :: b :: rest => 256 * a.toNat + b.toNat + checksumWords rest
  | [a] => 256 * a.toNat
  | [] => 0

/-- `while (sum >> 16)`: every round makes the sum smaller, so `sum` rounds are enough. -/
def foldCarry : Nat → Nat → Nat
  | 0, sum => sum
  | k + 1, sum => if sum / 2 ^ 16 = 0 then sum else foldCarry k (sum % 2 ^ 16 + sum / 2 ^ 16)

def checksum16 (data : Msg) : Nat :=
  let sum := checksumWords data
  2 ^ 16 - 1 - foldCarry sum sum % 2 ^ 16

/-- A segment longer than the buffer for the sum is not looked at and counts as right. -/
def tcpChecksumSegment (f : Msg) (ip tcp tcpLen : Nat) : Option Nat :=
  if tcpLen < TCP_HDR_LEN ∨ tcpLen > 1500 then some 0
  else do
    let addrs ← getBytes f (ip + 12) 8
    let segment ← getBytes f tcp tcpLen
    return checksum16 (addrs ++ [0, 6, UInt8.ofNat (tcpLen / 256), UInt8.ofNat tcpLen] ++ segment)

-- ---------------------------------------------------------------------------
-- HTTP over TCP
-- ---------------------------------------------------------------------------

def tcpHttpStart (s : NetState) (dstIp : Nat) : NetState :=
  if !s.gGatewayKnown || s.gTcpState != 0 then s
  else
    let s := { s with
      gTcpRemoteIp := dstIp
      gTcpSeq := TCP_FIRST_SEQ
      gTcpAck := 0
      gTcpGetSeq := 0
      gTcpGetLen := 0
      gTcpWaitTicks := 0
      gTcpRetries := 0
      gHttpBytes := 0
      gHttpChunks := 0
      gTcpState := 1 }
    s.sendTcp s.gTcpSeq 0 TCP_FLAG_SYN []

/-- `"GET / HTTP/1.0\\r\\nHost: "` -/
def getLine : Msg :=
  [71, 69, 84, 32, 47, 32, 72, 84, 84, 80, 47, 49, 46, 48, 13, 10, 72, 111, 115, 116, 58, 32]

/-- `"\\r\\nUser-Agent: EponaOS\\r\\n\\r\\n"` -/
def agentLine : Msg :=
  [13, 10, 85, 115, 101, 114, 45, 65, 103, 101, 110, 116, 58, 32, 69, 112, 111, 110, 97, 79, 83,
    13, 10, 13, 10]

/-- The request: 27 bytes are copied from the second literal, which has 25 and its final 0. -/
def httpRequest (s : NetState) : Msg := getLine ++ s.gHttpHost.take 60 ++ agentLine ++ [0, s.litNext]

def tcpHttpSendGet (s : NetState) : NetState :=
  let req := httpRequest s
  let s := { s with
    gTcpGetSeq := s.gTcpSeq
    gTcpGetLen := req.length
    gTcpWaitTicks := 0
    gTcpRetries := 0 }
  let s := s.sendTcp s.gTcpSeq s.gTcpAck (TCP_FLAG_PSH ||| TCP_FLAG_ACK) req
  { s with gTcpSeq := (s.gTcpSeq + req.length) % 2 ^ 32, gTcpState := 3 }

def tcpHttpRetryGet (s : NetState) : NetState :=
  s.sendTcp s.gTcpGetSeq s.gTcpAck (TCP_FLAG_PSH ||| TCP_FLAG_ACK) (httpRequest s)

/-- `data` is the `len` bytes of the frame from `off` on. -/
def httpStoreBody (s : NetState) (f : Msg) (off len : Nat) : Option NetState :=
  if len = 0 ∨ s.gHttpBody.length ≥ HTTP_BODY_BUF_SIZE - 1 then some s
  else do
    let bytes ← getBytes f off (min len (HTTP_BODY_BUF_SIZE - 1 - s.gHttpBody.length))
    return { s with gHttpBody := s.gHttpBody ++ bytes }

/-- Whether the blank line behind the headers starts at `p`; a byte is read if the ones
before it fit. -/
def blankLineAt (f : Msg) (p : Nat) : Option Bool := do
  let c ← get8 f p
  if c ≠ 13 then return false
  let c ← get8 f (p + 1)
  if c ≠ 10 then return false
  let c ← get8 f (p + 2)
  if c ≠ 13 then return false
  let c ← get8 f (p + 3)
  return c == 10

def httpFindBody (s : NetState) (f : Msg) (payload payloadLen : Nat) : Nat → Nat → Option NetState
  | 0, _ => some s
  | k + 1, i => do
    let found ← blankLineAt f (payload + i)
    if found then
      httpStoreBody { s with gHttpHeadersDone := true } f (payload + i + 4) (payloadLen - i - 4)
    else httpFindBody s f payload payloadLen k (i + 1)

def httpProcessPayload (s : NetState) (f : Msg) (payload payloadLen : Nat) : Option NetState :=
  let s := s.emit (.payload ((f.drop payload).take payloadLen))
  if s.gHttpHeadersDone then httpStoreBody s f payload payloadLen
  else httpFindBody s f payload payloadLen (payloadLen - 3) 0

def httpPrintBodyPreview (s : NetState) : NetState :=
  if s.gHttpBodyPrinted || s.gHttpBody.length == 0 then s else { s with gHttpBodyPrinted := true }

def tcpPollRetransmit (s : NetState) : NetState :=
  if s.gTcpState ≠ 1 ∧ s.gTcpState ≠ 3 then s
  else
    let s := { s with gTcpWaitTicks := (s.gTcpWaitTicks + 1) % 2 ^ 32 }
    if s.gTcpWaitTicks < TCP_RETRY_TICKS then s
    else
      let s := { s with gTcpWaitTicks := 0 }
      if s.gTcpRetries ≥ TCP_MAX_RETRIES then { s with gTcpState := 7 }
      else
        let s := { s with gTcpRetries := s.gTcpRetries + 1 }
        if s.gTcpState = 1 then s.sendTcp s.gTcpSeq 0 TCP_FLAG_SYN [] else tcpHttpRetryGet s

-- ---------------------------------------------------------------------------
-- TCP
-- ---------------------------------------------------------------------------

def printChunk (s : NetState) (f : Msg) (payload payloadLen : Nat) : Option Msg :=
  if s.gHttpChunks ≤ 3 then getBytes f payload (min payloadLen 120) else some []

/-- Data in order: they are counted, handed on, printed in part, and acknowledged. -/
def tcpAcceptData (s : NetState) (f : Msg) (seq payload payloadLen : Nat) : Option NetState := do
  let s := { s with
    gHttpChunks := (s.gHttpChunks + 1) % 2 ^ 32
    gHttpBytes := (s.gHttpBytes + payloadLen) % 2 ^ 32 }
  let s ← httpProcessPayload s f payload payloadLen
  let _ ← printChunk s f payload payloadLen
  let s := { s with gTcpAck := (seq + payloadLen) % 2 ^ 32 }
  let s := s.sendTcp s.gTcpSeq s.gTcpAck TCP_FLAG_ACK []
  return httpPrintBodyPreview { s with gHttpOk := true, gTcpState := 4 }

/-- The block of `handle_tcp` for a FIN. -/
def tcpFin (s : NetState) (seq flags payloadLen : Nat) : NetState :=
  if flags &&& TCP_FLAG_FIN ≠ 0 then
    let s := { s with gTcpAck := (seq + payloadLen + 1) % 2 ^ 32 }
    let s := s.sendTcp s.gTcpSeq s.gTcpAck TCP_FLAG_ACK []
    { httpPrintBodyPreview s with gTcpState := 6 }
  else s

/-- `handle_tcp` behind its checks of the header. -/
def tcpSegment (s : NetState) (f : Msg) (seq ack flags payload payloadLen : Nat) : Option NetState :=
  if flags &&& TCP_FLAG_RST ≠ 0 then some { s with gTcpState := 5 }
  else if s.gTcpState = 1 ∧
      flags &&& (TCP_FLAG_SYN ||| TCP_FLAG_ACK) = TCP_FLAG_SYN ||| TCP_FLAG_ACK ∧
      ack = (s.gTcpSeq + 1) % 2 ^ 32 then
    let s := { s with
      gTcpSeq := (s.gTcpSeq + 1) % 2 ^ 32
      gTcpAck := (seq + 1) % 2 ^ 32
      gTcpState := 2 }
    some (tcpHttpSendGet (s.sendTcp s.gTcpSeq s.gTcpAck TCP_FLAG_ACK []))
  else if 3 ≤ s.gTcpState ∧ s.gTcpState ≤ 4 ∧ payloadLen > 0 then
    if seq ≠ s.gTcpAck then some (s.sendTcp s.gTcpSeq s.gTcpAck TCP_FLAG_ACK [])
    else do
      let s ← tcpAcceptData s f seq payload payloadLen
      return tcpFin s seq flags payloadLen
  else some (tcpFin s seq flags payloadLen)

def handleTcp (s : NetState) (f : Msg) (ip ihl ipTotal : Nat) : Option NetState := do
  let dst ← load32 f (ip + 16)
  if dst ≠ s.gLocalIp then return s
  let src ← load32 f (ip + 12)
  if src ≠ s.gTcpRemoteIp then return s
  if ipTotal < ihl + TCP_HDR_LEN then return s
  let tcp := ip + ihl
  let srcPort ← get16 f tcp
  let dstPort ← get16 f (tcp + 2)
  if srcPort ≠ TCP_HTTP_PORT ∨ dstPort ≠ TCP_CLIENT_PORT then return s
  let dataOffset ← get8 f (tcp + 12)
  let tcpHlen := dataOffset / 16 * 4
  if tcpHlen < 20 ∨ ipTotal < ihl + tcpHlen then return s
  let sum ← tcpChecksumSegment f ip tcp (ipTotal - ihl)
  if sum ≠ 0 then return s
  let seq ← get32 f (tcp + 4)
  let ack ← get32 f (tcp + 8)
  let flags ← get8 f (tcp + 13)
  tcpSegment s f seq ack flags (tcp + tcpHlen) (ipTotal - ihl - tcpHlen)

-- ---------------------------------------------------------------------------
-- DNS
-- ---------------------------------------------------------------------------

/-- The name as labels; `label` holds the bytes of the one that is being written. `none`
for -1. `pos` counts the bytes written, the length byte of the open label among them. -/
def dnsWriteLabels (outLen : Nat) : Msg → Msg → Nat → Option Msg
  | [], label, pos =>
    if label.length = 0 ∨ pos ≥ outLen then none
    else some (UInt8.ofNat label.length :: label ++ [0])
  | c :: host, label, pos =>
    let opens := label.length = 0
    if opens ∧ pos ≥ outLen then none
    else
      let pos := if opens then pos + 1 else pos
      if c = 46 then
        if label.length = 0 ∨ label.length > 63 then none
        else (dnsWriteLabels outLen host [] pos).map
          fun rest => UInt8.ofNat label.length :: label ++ rest
      else if pos ≥ outLen ∨ label.length + 1 > 63 then none
      else dnsWriteLabels outLen host (label ++ [c]) (pos + 1)

def dnsWriteName (outLen : Nat) (host : Msg) : Option Msg := dnsWriteLabels outLen host [] 0

def dnsQuery (s : NetState) (host : Msg) : NetState :=
  if !s.gDhcpConfigured || !s.gGatewayKnown || s.gDnsIp == 0 then s
  else
    match dnsWriteName (256 - DNS_HDR_LEN - 4) host with
    | none => s
    | some _ =>
      let s := { s with gDnsRequested := true, gDnsHost := host.take 63 }
      s.emit (.dns s.gDnsIp host)

/-- `k` more labels may follow. The inner result is the offset behind the name, `none` for -1. -/
def dnsSkipName (f : Msg) (msg len : Nat) : Nat → Nat → Option (Option Nat)
  | 0, _ => some none
  | k + 1, off =>
    if off < len then do
      let c ← get8 f (msg + off)
      let off := off + 1
      if c = 0 then return some off
      if c &&& 0xC0 = 0xC0 then return if off ≥ len then none else some (off + 1)
      if c &&& 0xC0 ≠ 0 then return none
      let off := off + c
      if off > len ∨ k = 0 then return none
      dnsSkipName f msg len k off
    else some none

def dnsQuestions (f : Msg) (msg len : Nat) : Nat → Nat → Option (Option Nat)
  | 0, off => some (some off)
  | k + 1, off => do
    let name ← dnsSkipName f msg len 65 off
    match name with
    | none => return none
    | some off => if off + 4 > len then return none else dnsQuestions f msg len k (off + 4)

def dnsAnswers (f : Msg) (msg len : Nat) : Nat → Nat → Option (Option Nat)
  | 0, _ => some none
  | k + 1, off => do
    let name ← dnsSkipName f msg len 65 off
    match name with
    | none => return none
    | some off =>
      if off + 10 > len then return none
      let type ← get16 f (msg + off)
      let klass ← get16 f (msg + off + 2)
      let rdlen ← get16 f (msg + off + 8)
      let off := off + 10
      if off + rdlen > len then return none
      if type = DNS_TYPE_A ∧ klass = DNS_CLASS_IN ∧ rdlen = 4 then do
        let ip ← load32 f (msg + off)
        return some ip
      else dnsAnswers f msg len k (off + rdlen)

/-- `udp` is the offset of the UDP header. -/
def handleDns (s : NetState) (f : Msg) (udp udpPayloadLen : Nat) : Option NetState := do
  let msg := udp + UDP_HDR_LEN
  if udpPayloadLen < DNS_HDR_LEN then return s
  let id ← get16 f msg
  if id ≠ DNS_XID then return s
  let qdcount ← get16 f (msg + 4)
  let ancount ← get16 f (msg + 6)
  let questions ← dnsQuestions f msg udpPayloadLen qdcount DNS_HDR_LEN
  match questions with
  | none => return s
  | some off =>
    let answer ← dnsAnswers f msg udpPayloadLen ancount off
    match answer with
    | none => return s
    | some ip => return tcpHttpStart { s with gDnsAnswerIp := ip, gHttpHost := s.gDnsHost.take 63 } ip

-- ---------------------------------------------------------------------------
-- ARP and DHCP
-- ---------------------------------------------------------------------------

/-- `"example.com"` -/
def exampleHost : Msg := [101, 120, 97, 109, 112, 108, 101, 46, 99, 111, 109]

def handleArp (s : NetState) (f : Msg) : Option NetState := do
  if f.length < ETH_HDR_LEN + ARP_PKT_LEN then return s
  let op ← get16 f (ETH_HDR_LEN + 6)
  if op ≠ 2 then return s
  let spa ← load32 f (ETH_HDR_LEN + 14)
  if spa ≠ s.gGatewayIp then return s
  let sha ← getBytes f (ETH_HDR_LEN + 8) ETH_ALEN
  let s := { s with gGatewayMac := sha, gGatewayKnown := true }
  let s := s.emit (.icmp s.gGatewayIp)
  return if s.gDnsRequested then s else dnsQuery s exampleHost

/-- What `parse_dhcp_options` fills in. -/
structure DhcpOptions where
  msgType : Nat
  serverIp : Nat
  routerIp : Nat
  dnsIp : Nat

def dhcpOption (f : Msg) (value code olen : Nat) (o : DhcpOptions) : Option DhcpOptions :=
  if code = 53 ∧ olen ≥ 1 then do
    let t ← get8 f value
    return { o with msgType := t }
  else if code = 54 ∧ olen ≥ 4 then do
    let ip ← load32 f value
    return { o with serverIp := ip }
  else if code = 3 ∧ olen ≥ 4 then do
    let ip ← load32 f value
    return { o with routerIp := ip }
  else if code = 6 ∧ olen ≥ 4 then do
    let ip ← load32 f value
    return { o with dnsIp := ip }
  else some o

/-- Every round reads an option code, so `len` rounds are enough. -/
def parseDhcpOptions (f : Msg) (opt len : Nat) : Nat → Nat → DhcpOptions → Option DhcpOptions
  | 0, _, o => some o
  | k + 1, i, o =>
    if i < len then do
      let code ← get8 f (opt + i)
      let i := i + 1
      if code = 255 then return o
      if code = 0 then parseDhcpOptions f opt len k i o
      else if i ≥ len then return o
      else do
        let olen ← get8 f (opt + i)
        let i := i + 1
        if i + olen > len then return o
        let o ← dhcpOption f (opt + i) code olen o
        parseDhcpOptions f opt len k (i + olen) o
    else some o

/-- `handle_dhcp` behind the options. -/
def dhcpReply (s : NetState) (f : Msg) (dhcp : Nat) (o : DhcpOptions) : Option NetState :=
  if o.msgType = DHCP_OFFER ∧ !s.gDhcpRequested then do
    let yiaddr ← load32 f (dhcp + 16)
    let s := { s with gOfferedIp := yiaddr, gDhcpServerIp := o.serverIp, gDhcpRequested := true }
    return s.emit (.dhcp DHCP_REQUEST s.gOfferedIp s.gDhcpServerIp)
  else if o.msgType = DHCP_ACK ∧ !s.gDhcpConfigured then do
    let yiaddr ← load32 f (dhcp + 16)
    let s := { s with
      gLocalIp := yiaddr
      gGatewayIp := if o.routerIp ≠ 0 then o.routerIp else DEFAULT_GATEWAY
      gDnsIp := o.dnsIp
      gDhcpConfigured := true }
    return s.emit (.arp s.gGatewayIp)
  else some s

def handleDhcp (s : NetState) (f : Msg) (udp udpPayloadLen : Nat) : Option NetState := do
  let dhcp := udp + UDP_HDR_LEN
  if udpPayloadLen < DHCP_PKT_LEN then return s
  let op ← get8 f dhcp
  if op ≠ 2 then return s
  let xid ← get32 f (dhcp + 4)
  if xid ≠ DHCP_XID then return s
  let magic ← get32 f (dhcp + 236)
  if magic ≠ DHCP_MAGIC then return s
  let len := udpPayloadLen - DHCP_PKT_LEN
  let o ← parseDhcpOptions f (dhcp + DHCP_PKT_LEN) len len 0 ⟨0, 0, 0, 0⟩
  dhcpReply s f dhcp o

-- ---------------------------------------------------------------------------
-- The frame
-- ---------------------------------------------------------------------------

def handleUdp (s : NetState) (f : Msg) (ip ihl ipTotal : Nat) : Option NetState := do
  if ipTotal < ihl + UDP_HDR_LEN then return s
  let udp := ip + ihl
  let srcPort ← get16 f udp
  let dstPort ← get16 f (udp + 2)
  let udpLen ← get16 f (udp + 4)
  if udpLen < UDP_HDR_LEN then return s
  if srcPort = DHCP_SERVER_PORT ∧ dstPort = DHCP_CLIENT_PORT then
    handleDhcp s f udp (udpLen - UDP_HDR_LEN)
  else if srcPort = DNS_PORT ∧ dstPort = DNS_CLIENT_PORT then
    handleDns s f udp (udpLen - UDP_HDR_LEN)
  else return s

def handleIcmp (s : NetState) (f : Msg) (ip ihl ipTotal : Nat) : Option NetState := do
  if ipTotal < ihl + ICMP_HDR_LEN then return s
  let type ← get8 f (ip + ihl)
  if type = ICMP_ECHO_REPLY then
    let _ ← get16 f (ip + ihl + 6)
    return { s with gPingReplied := true }
  else return s

def handleIpv4 (s : NetState) (f : Msg) : Option NetState := do
  let ip := ETH_HDR_LEN
  if f.length < ETH_HDR_LEN + IPV4_HDR_LEN then return s
  let verIhl ← get8 f ip
  if verIhl / 16 ≠ 4 then return s
  let ihl := verIhl % 16 * 4
  if ihl < 20 ∨ f.length < ETH_HDR_LEN + ihl then return s
  let ipTotal ← get16 f (ip + 2)
  if ipTotal < ihl then return s
  let proto ← get8 f (ip + 9)
  if proto = IP_PROTO_UDP then handleUdp s f ip ihl ipTotal
  else if proto = IP_PROTO_TCP then handleTcp s f ip ihl ipTotal
  else do
    let dst ← load32 f (ip + 16)
    if dst ≠ s.gLocalIp ∨ proto ≠ IP_PROTO_ICMP then return s
    handleIcmp s f ip ihl ipTotal

/-- `data` of length `len` is the frame `f`. -/
def netHandlePacket (s : NetState) (f : Msg) : Option NetState := do
  if f.length < ETH_HDR_LEN then return s
  let type ← get16 f 12
  if type = ETH_P_ARP then handleArp s f
  else if type = ETH_P_IP then do
    let dst ← getBytes f 0 ETH_ALEN
    if dst ≠ List.replicate ETH_ALEN 0xFF ∧ dst ≠ s.gMac then return s
    handleIpv4 s f
  else return s

/-- `net_ping_send`, which the shell may call between two frames. -/
def netPingSend (s : NetState) (dstIp : Nat) : NetState :=
  if !s.gGatewayKnown then s else NetState.emit { s with gPingReplied := false } (.icmp dstIp)

end EponaOS.Net
