import EponaOS.Lib.Run
import EponaOS.Net.DhcpHandshake
import EponaOS.Net.DnsAnswers

/-!
# The dns command

`cmd_dns` and `cmd_fetch` of the shell, with the net task that takes frames at any time between. The
address goes from `handle_dns` to `cmd_dns` through `g_dns_answer_ip`, which only `fetch` clears, and
a response counts by the id that all queries have.
-/

namespace EponaOS.Net

open Msg

-- ---------------------------------------------------------------------------
-- The shell
-- ---------------------------------------------------------------------------

def netHttpReset (s : NetState) : NetState :=
  { s with
    gTcpState := 0
    gHttpOk := false
    gHttpBytes := 0
    gHttpChunks := 0
    gHttpHeadersDone := false
    gHttpBodyPrinted := false
    gHttpBody := []
    gDnsAnswerIp := 0
    gTcpRetries := 0
    gTcpWaitTicks := 0
    gTcpRemoteIp := 0
    gTcpSeq := TCP_FIRST_SEQ
    gTcpAck := 0
    gTcpGetSeq := 0
    gTcpGetLen := 0 }

/-- `none` is -1. -/
def netHttpFetch (s : NetState) (host : Msg) : Option NetState :=
  if !s.gDhcpConfigured || !s.gGatewayKnown then none
  else some (dnsQuery { netHttpReset s with gHttpHost := host.take 63 } host)

def netTcpBusy (s : NetState) : Bool :=
  s.gTcpState = 1 ∨ s.gTcpState = 2 ∨ s.gTcpState = 3 ∨ s.gTcpState = 4

/-- `net_poll`, where the card has the frame or none. -/
def netPoll (s : NetState) : Option Msg → Option NetState
  | none => some (tcpPollRetransmit s)
  | some f => (netHandlePacket s f).map tcpPollRetransmit

inductive Command
  | none
  | dns (host : Msg) (i : Nat)
  | fetch (host : Msg) (i : Nat)
  deriving DecidableEq

inductive ShellEvent
  /-- a dns command begins; `sent` says whether `dns_query` has sent a query -/
  | dns (host : Msg) (sent : Bool)
  /-- a frame is handled -/
  | frame (f : Msg)
  /-- the dns command for the host ends with the address -/
  | printed (host : Msg) (ip : Nat)
  deriving DecidableEq

structure Shell where
  net : NetState
  command : Command
  trace : List ShellEvent

/-- `dns_query` does not return before it sends. -/
def querySent (s : NetState) (host : Msg) : Bool :=
  s.gDhcpConfigured && s.gGatewayKnown && s.gDnsIp != 0 &&
    (dnsWriteName (256 - DNS_HDR_LEN - 4) host).isSome

inductive ShellAct
  | dns (host : Msg)
  | fetch (host : Msg)
  /-- a round of the loop of the command, with the frame its `net_poll` finds -/
  | poll (f : Option Msg)
  /-- `net_poll` in the net task -/
  | netTask (f : Option Msg)

/-- `net_poll` in either task. -/
def Shell.poll (sh : Shell) (f : Option Msg) : Option Shell :=
  (netPoll sh.net f).map fun net =>
    { sh with net := net, trace := sh.trace ++ f.toList.map .frame }

/-- The loop of `cmd_dns` behind `net_poll`. -/
def Shell.lookDns (sh : Shell) (host : Msg) (i : Nat) : Shell :=
  if sh.net.gDnsAnswerIp ≠ 0 then
    { sh with command := .none, trace := sh.trace ++ [.printed host sh.net.gDnsAnswerIp] }
  else if i + 1 ≥ 3000000 then { sh with command := .none }
  else { sh with command := .dns host (i + 1) }

/-- The loop of `cmd_fetch` behind `net_poll`. -/
def Shell.lookFetch (sh : Shell) (host : Msg) (i : Nat) : Shell :=
  let next := if i + 1 ≥ 5000000 then Command.none else .fetch host (i + 1)
  if netTcpBusy sh.net then { sh with command := next }
  else if sh.net.gHttpOk || i > 100000 then { sh with command := .none }
  else { sh with command := next }

def shellAct (sh : Shell) : ShellAct → Option Shell
  | .dns host =>
    match sh.command with
    | .none =>
      if !sh.net.gDhcpConfigured then some sh
      else some {
        net := dnsQuery sh.net host
        command := .dns host 0
        trace := sh.trace ++ [.dns host (querySent sh.net host)] }
    | _ => none
  | .fetch host =>
    match sh.command with
    | .none =>
      if !sh.net.gDhcpConfigured then some sh
      else
        match netHttpFetch sh.net host with
        | none => some sh
        | some net => some { sh with net := net, command := .fetch host 0 }
    | _ => none
  | .poll f =>
    match sh.command with
    | .none => none
    | .dns host i => (sh.poll f).map fun sh => sh.lookDns host i
    | .fetch host i => (sh.poll f).map fun sh => sh.lookFetch host i
  | .netTask f => sh.poll f

def shellStep (sh : Shell) (a : ShellAct) (sh' : Shell) : Prop := shellAct sh a = some sh'

-- ---------------------------------------------------------------------------
-- Responses
-- ---------------------------------------------------------------------------

def dnsAt (f : Msg) : Nat := 14 + ipHlen f + UDP_HDR_LEN

/-- The frame passes every check on the way to `handle_dns`. -/
structure IsDnsResponse (mac f : Msg) : Prop extends IpHeader mac f where
  proto : get8 f 23 = some IP_PROTO_UDP
  udp : ipHlen f + UDP_HDR_LEN ≤ ipTotalLen f
  srcPort : get16 f (14 + ipHlen f) = some DNS_PORT
  dstPort : get16 f (14 + ipHlen f + 2) = some DNS_CLIENT_PORT
  udpLen : ∃ n, get16 f (14 + ipHlen f + 4) = some n ∧ UDP_HDR_LEN ≤ n

/-- The address that `handle_dns` takes of the message. -/
def dnsTaken (f : Msg) (msg len : Nat) : Option Nat :=
  if len < DNS_HDR_LEN ∨ wordAt f msg ≠ DNS_XID then none
  else
    match dnsQuestions f msg len (wordAt f (msg + 4)) DNS_HDR_LEN with
    | some (some off) => (dnsAnswers f msg len (wordAt f (msg + 6)) off).join
    | _ => none

def Answers (mac f : Msg) (ip : Nat) : Prop :=
  IsDnsResponse mac f ∧ dnsTaken f (dnsAt f) (udpLen f - UDP_HDR_LEN) = some ip

def AsksFor (host f : Msg) : Prop :=
  ∃ n off, n < wordAt f (dnsAt f + 4) ∧
    Walk (QuestionStep f (dnsAt f) (udpLen f - UDP_HDR_LEN)) n DNS_HDR_LEN off ∧
    HasAt f (dnsAt f + off) (encodeLabels (labelsOf host) ++ [0])

/-- Before the end of the trace the dns command for the host has sent its query, and the last response
since is one to a question for the host and has the address. -/
def OwnAnswer (mac : Msg) (host : Msg) (ip : Nat) (tr : List ShellEvent) : Prop :=
  ∃ pre fs f gs, tr = pre ++ .dns host true :: (fs ++ f :: gs).map .frame ∧ Answers mac f ip ∧
    AsksFor host f ∧ ∀ g ∈ gs, ∀ ip, ¬ Answers mac g ip

/-- Every address that was printed is an answer to its own command. -/
def OwnAnswers (mac : Msg) (tr : List ShellEvent) : Prop :=
  ∀ pre host ip post, tr = pre ++ .printed host ip :: post → OwnAnswer mac host ip pre

variable {s s' : NetState} {f : Msg}

structure AnswerKept (s s' : NetState) : Prop where
  mac : s'.gMac = s.gMac
  answerIp : s'.gDnsAnswerIp = s.gDnsAnswerIp

theorem AnswerKept.refl (s : NetState) : AnswerKept s s := ⟨rfl, rfl⟩

theorem AnswerKept.trans (h : AnswerKept s s') (h' : AnswerKept s' s'') : AnswerKept s s'' :=
  ⟨h'.mac.trans h.mac, h'.answerIp.trans h.answerIp⟩

theorem AnswerKept.of_same (h : some s = some s') : AnswerKept s s' := by
  cases h
  exact .refl s

theorem dnsQuery_answerKept (s : NetState) (host : Msg) : AnswerKept s (dnsQuery s host) := by
  obtain h | h := dnsQuery_frame s host
  · rw [h]
    exact .refl s
  · rw [h]
    exact ⟨rfl, rfl⟩

theorem handleArp_answerKept (h : handleArp s f = some s') : AnswerKept s s' := by
  rw [handleArp] at h
  split at h
  · exact .of_same h
  obtain ⟨op, -, h⟩ := Option.bind_eq_some_iff.mp h
  split at h
  · exact .of_same h
  obtain ⟨spa, -, h⟩ := Option.bind_eq_some_iff.mp h
  split at h
  · exact .of_same h
  obtain ⟨sha, -, h⟩ := Option.bind_eq_some_iff.mp h
  cases h
  have hfound : AnswerKept s (s.gatewayFound sha) := ⟨rfl, rfl⟩
  split
  · exact hfound
  · exact hfound.trans (dnsQuery_answerKept _ _)

theorem handleDhcp_answerKept (h : handleDhcp s f udp n = some s') : AnswerKept s s' := by
  rw [handleDhcp] at h
  split at h
  · exact .of_same h
  obtain ⟨op, -, h⟩ := Option.bind_eq_some_iff.mp h
  split at h
  · exact .of_same h
  obtain ⟨xid, -, h⟩ := Option.bind_eq_some_iff.mp h
  split at h
  · exact .of_same h
  obtain ⟨magic, -, h⟩ := Option.bind_eq_some_iff.mp h
  split at h
  · exact .of_same h
  obtain ⟨o, -, h⟩ := Option.bind_eq_some_iff.mp h
  rw [dhcpReply] at h
  split at h
  · obtain ⟨yiaddr, -, h⟩ := Option.bind_eq_some_iff.mp h
    cases h
    exact ⟨rfl, rfl⟩
  · split at h
    · obtain ⟨yiaddr, -, h⟩ := Option.bind_eq_some_iff.mp h
      cases h
      exact ⟨rfl, rfl⟩
    · exact .of_same h

theorem tcpFin_answerKept (s : NetState) (seq flags len : Nat) :
    AnswerKept s (tcpFin s seq flags len) := by
  by_cases hfin : flags &&& TCP_FLAG_FIN = 0
  · rw [tcpFin_none hfin]
    exact .refl s
  · obtain ⟨printed, htaken⟩ := tcpFin_frame s seq len hfin
    rw [htaken]
    exact ⟨rfl, rfl⟩

theorem tcpAcceptData_answerKept (h : tcpAcceptData s f seq payload len = some s') :
    AnswerKept s s' := by
  obtain ⟨body, done, printed, rfl⟩ := tcpAcceptData_frame h
  exact ⟨rfl, rfl⟩

theorem tcpSegment_answerKept {ack : Nat} (h : tcpSegment s f seq ack flags payload len = some s') :
    AnswerKept s s' := by
  rw [tcpSegment] at h
  split at h
  · cases h
    exact ⟨rfl, rfl⟩
  split at h
  · cases h
    exact ⟨rfl, rfl⟩
  split at h
  · split at h
    · cases h
      exact ⟨rfl, rfl⟩
    · obtain ⟨s₁, hs₁, h⟩ := Option.bind_eq_some_iff.mp h
      cases h
      exact (tcpAcceptData_answerKept hs₁).trans (tcpFin_answerKept _ _ _ _)
  · cases h
    exact tcpFin_answerKept _ _ _ _

theorem handleIcmp_answerKept (h : handleIcmp s f ip ihl n = some s') : AnswerKept s s' := by
  rw [handleIcmp] at h
  split at h
  · exact .of_same h
  obtain ⟨type, -, h⟩ := Option.bind_eq_some_iff.mp h
  split at h
  · obtain ⟨_, -, h⟩ := Option.bind_eq_some_iff.mp h
    cases h
    exact ⟨rfl, rfl⟩
  · exact .of_same h

theorem handleTcp_answerKept (hip : IpHeader s.gMac f) (hproto : get8 f 23 = some IP_PROTO_TCP)
    (h : handleTcp s f 14 (ipHlen f) (ipTotalLen f) = some s') : AnswerKept s s' := by
  obtain ⟨v, hv, -⟩ := hip.version
  obtain ⟨t, ht, -⟩ := hip.total
  rw [ipTotalLen, ht, ipHlen, hv, Option.getD_some, Option.getD_some] at h
  obtain rfl | ⟨-, hseg⟩ := handleTcp_cases hv ht hproto h
  · exact .refl _
  · exact tcpSegment_answerKept hseg

/-- `handle_dns` takes the address of the message, or does nothing. -/
theorem handleDns_taken (h : handleDns s f udp len = some s') :
    (∃ ip, dnsTaken f (udp + UDP_HDR_LEN) len = some ip ∧ s'.gDnsAnswerIp = ip ∧
      s'.gMac = s.gMac) ∨
    (dnsTaken f (udp + UDP_HDR_LEN) len = none ∧ s' = s) := by
  rw [handleDns] at h
  rw [dnsTaken]
  split at h
  next hlen =>
    cases h
    exact .inr ⟨if_pos (.inl hlen), rfl⟩
  next hlen =>
  obtain ⟨id, hid, h⟩ := Option.bind_eq_some_iff.mp h
  have hid' : wordAt f (udp + UDP_HDR_LEN) = id := by rw [wordAt, hid, Option.getD_some]
  rw [hid']
  split at h
  next hne =>
    cases h
    exact .inr ⟨if_pos (.inr hne), rfl⟩
  next heq =>
  rw [if_neg (by tauto)]
  obtain ⟨qd, hqd, h⟩ := Option.bind_eq_some_iff.mp h
  obtain ⟨an, han, h⟩ := Option.bind_eq_some_iff.mp h
  obtain ⟨questions, hquestions, h⟩ := Option.bind_eq_some_iff.mp h
  rw [wordAt, hqd, Option.getD_some, hquestions, wordAt, han, Option.getD_some]
  cases questions with
  | none =>
    cases h
    exact .inr ⟨rfl, rfl⟩
  | some off =>
    obtain ⟨answer, hanswer, h⟩ := Option.bind_eq_some_iff.mp h
    dsimp only
    rw [hanswer]
    cases answer with
    | none =>
      cases h
      exact .inr ⟨rfl, rfl⟩
    | some ip =>
      cases h
      refine .inl ⟨ip, rfl, tcpHttpStart_answerIp _ _, ?_⟩
      rw [tcpHttpStart]
      split
      · rfl
      · rfl

theorem IsDnsResponse.to {mac : Msg} (h : IsDnsResponse mac f) : UdpTo DNS_PORT DNS_CLIENT_PORT f :=
  ⟨h.udp, h.srcPort, h.dstPort, h.udpLen⟩

theorem netHandlePacket_dns (h : IsDnsResponse s.gMac f) :
    netHandlePacket s f = handleDns s f (14 + ipHlen f) (udpLen f - UDP_HDR_LEN) := by
  rw [netHandlePacket_udp h.toIpHeader h.proto, handleUdp_to h.to, if_neg (by decide),
    if_pos ⟨rfl, rfl⟩]

theorem handleUdp_answerKept (hip : IpHeader s.gMac f) (hproto : get8 f 23 = some IP_PROTO_UDP)
    (hno : ¬ IsDnsResponse s.gMac f)
    (h : handleUdp s f 14 (ipHlen f) (ipTotalLen f) = some s') : AnswerKept s s' := by
  cases handleUdp_dispatch h with
  | drop h =>
    rw [h]
    exact .refl s
  | dhcp _ h => exact handleDhcp_answerKept h
  | dns hto _ => exact absurd ⟨hip, hproto, hto.udp, hto.srcPort, hto.dstPort, hto.length⟩ hno

theorem netHandlePacket_answer (h : netHandlePacket s f = some s') : s'.gMac = s.gMac ∧
    (Answers s.gMac f s'.gDnsAnswerIp ∨
      ((∀ ip, ¬ Answers s.gMac f ip) ∧ s'.gDnsAnswerIp = s.gDnsAnswerIp)) := by
  by_cases hdns : IsDnsResponse s.gMac f
  · rw [netHandlePacket_dns hdns] at h
    obtain ⟨ip, htaken, hip, hmac⟩ | ⟨hnone, rfl⟩ := handleDns_taken h
    · rw [hip]
      exact ⟨hmac, .inl ⟨hdns, htaken⟩⟩
    · refine ⟨rfl, .inr ⟨fun ip hans => ?_, rfl⟩⟩
      have htaken := hans.2
      rw [dnsAt, hnone] at htaken
      cases htaken
  · have hkept : AnswerKept s s' := by
      cases netHandlePacket_dispatch h with
      | drop h =>
        rw [h]
        exact .refl s
      | arp h => exact handleArp_answerKept h
      | udp hip hproto h => exact handleUdp_answerKept hip hproto hdns h
      | tcp hip hproto h => exact handleTcp_answerKept hip hproto h
      | icmp h => exact handleIcmp_answerKept h
    exact ⟨hkept.mac, .inr ⟨fun ip hans => hdns hans.1, hkept.answerIp⟩⟩

theorem tcpPollRetransmit_answerKept (s : NetState) : AnswerKept s (tcpPollRetransmit s) := by
  rw [tcpPollRetransmit]
  split
  · exact .refl s
  dsimp only
  split
  · exact ⟨rfl, rfl⟩
  split
  · exact ⟨rfl, rfl⟩
  split
  · exact ⟨rfl, rfl⟩
  · exact ⟨rfl, rfl⟩

theorem netPoll_answer (h : netPoll s f? = some s') : s'.gMac = s.gMac ∧
    ((∃ f, f? = some f ∧ Answers s.gMac f s'.gDnsAnswerIp) ∨
      ((∀ f, f? = some f → ∀ ip, ¬ Answers s.gMac f ip) ∧ s'.gDnsAnswerIp = s.gDnsAnswerIp)) := by
  cases f? with
  | none =>
    cases h
    have hkept := tcpPollRetransmit_answerKept s
    exact ⟨hkept.mac, .inr ⟨nofun, hkept.answerIp⟩⟩
  | some f =>
    obtain ⟨s₁, hs₁, rfl⟩ := Option.map_eq_some_iff.mp h
    have hkept := tcpPollRetransmit_answerKept s₁
    obtain ⟨hmac, hans | ⟨hno, hip⟩⟩ := netHandlePacket_answer hs₁
    · exact ⟨hkept.mac.trans hmac, .inl ⟨f, rfl, hkept.answerIp ▸ hans⟩⟩
    · refine ⟨hkept.mac.trans hmac, .inr ⟨fun g hg => ?_, hkept.answerIp.trans hip⟩⟩
      cases hg
      exact hno

theorem netHttpFetch_mac (h : netHttpFetch s host = some s') : s'.gMac = s.gMac := by
  rw [netHttpFetch] at h
  split at h
  · cases h
  · cases h
    exact (dnsQuery_answerKept _ _).mac

-- ---------------------------------------------------------------------------
-- Runs
-- ---------------------------------------------------------------------------

/-- A dns command begins with no address left and sends its query, and the responses that come while
it waits are to questions for its host. -/
def OwnResponses (sh : Shell) : ShellAct → Prop
  | .dns host => sh.command = .none → sh.net.gDhcpConfigured = true →
      sh.net.gDnsAnswerIp = 0 ∧ querySent sh.net host = true
  | .fetch _ => True
  | .poll f | .netTask f => ∀ host i, sh.command = .dns host i → ∀ g, f = some g →
      ∀ ip, Answers sh.net.gMac g ip → AsksFor host g

/-- What the shell knows of the addresses: those printed are right, and the one that is there while a
dns command waits would be. -/
structure Honest (mac : Msg) (sh : Shell) : Prop where
  iface : sh.net.gMac = mac
  printed : OwnAnswers mac sh.trace
  asked : ∀ host i, sh.command = .dns host i →
    ∃ (pre : List ShellEvent) (fs : List Msg), sh.trace = pre ++ .dns host true :: fs.map .frame
  waiting : ∀ host i, sh.command = .dns host i → sh.net.gDnsAnswerIp ≠ 0 →
    OwnAnswer mac host sh.net.gDnsAnswerIp sh.trace

variable {sh sh' : Shell} {mac : Msg}

theorem OwnAnswers.append (h : OwnAnswers mac tr)
    (hev : ∀ host ip, e = .printed host ip → OwnAnswer mac host ip tr) :
    OwnAnswers mac (tr ++ [e]) := by
  intro pre host ip post heq
  rcases List.eq_nil_or_concat post with rfl | ⟨post, e', rfl⟩
  · obtain ⟨rfl, he⟩ := List.append_inj' heq rfl
    cases he
    exact hev host ip rfl
  · rw [List.concat_eq_append, ← List.cons_append, ← List.append_assoc] at heq
    obtain ⟨htr, -⟩ := List.append_inj' heq rfl
    exact h pre host ip post htr

theorem OwnAnswer.frame (h : OwnAnswer mac host ip tr) (hg : ∀ ip, ¬ Answers mac g ip) :
    OwnAnswer mac host ip (tr ++ [.frame g]) := by
  obtain ⟨pre, fs, f, gs, rfl, hans, hasks, hgs⟩ := h
  refine ⟨pre, fs, f, gs ++ [g], by simp, hans, hasks, fun g' hg' => ?_⟩
  obtain hg' | hg' := List.mem_append.mp hg'
  · exact hgs g' hg'
  · obtain rfl := List.mem_singleton.mp hg'
    exact hg

theorem Honest.poll (h : Honest mac sh) (hok : ∀ host i, sh.command = .dns host i →
      ∀ g, f? = some g → ∀ ip, Answers sh.net.gMac g ip → AsksFor host g)
    (hpoll : sh.poll f? = some sh') : Honest mac sh' ∧ sh'.command = sh.command := by
  obtain ⟨net, hnet, rfl⟩ := Option.map_eq_some_iff.mp hpoll
  obtain ⟨hmac, hcases⟩ := netPoll_answer hnet
  refine ⟨⟨hmac.trans h.iface, ?_, fun host i hcommand => ?_, fun host i hcommand hne => ?_⟩, rfl⟩
  · cases f? with
    | none => simpa using h.printed
    | some f => exact h.printed.append nofun
  · obtain ⟨pre, fs, htrace⟩ := h.asked host i hcommand
    exact ⟨pre, fs ++ f?.toList, by simp [htrace]⟩
  · obtain ⟨f, rfl, hans⟩ | ⟨hno, hip⟩ := hcases
    · -- the address is that of this frame
      obtain ⟨pre, fs, htrace⟩ := h.asked host i hcommand
      refine ⟨pre, fs, f, [], by simp [htrace], h.iface ▸ hans, ?_, nofun⟩
      exact hok host i hcommand f rfl _ hans
    · rw [hip] at hne ⊢
      have hown := h.waiting host i hcommand hne
      cases f? with
      | none => simpa using hown
      | some f => exact hown.frame (h.iface ▸ hno f rfl)

theorem Honest.lookDns (h : Honest mac sh) (hcommand : sh.command = .dns host i) :
    Honest mac (sh.lookDns host i) := by
  rw [Shell.lookDns]
  split
  next hne =>
    refine ⟨h.iface, h.printed.append fun host' ip' he => ?_, nofun, nofun⟩
    cases he
    exact h.waiting host i hcommand hne
  split
  · exact ⟨h.iface, h.printed, nofun, nofun⟩
  · refine ⟨h.iface, h.printed, fun host' i' hc => ?_, fun host' i' hc => ?_⟩
    · cases hc
      exact h.asked host i hcommand
    · cases hc
      exact h.waiting host i hcommand

theorem Honest.lookFetch (h : Honest mac sh) (host : Msg) (i : Nat) :
    Honest mac (sh.lookFetch host i) := by
  have hnext : ∀ host' i', (if i + 1 ≥ 5000000 then Command.none else .fetch host (i + 1)) ≠
      .dns host' i' := by
    intro host' i'
    split
    · exact nofun
    · exact nofun
  rw [Shell.lookFetch]
  split
  · exact ⟨h.iface, h.printed, fun _ _ hc => absurd hc (hnext _ _),
      fun _ _ hc => absurd hc (hnext _ _)⟩
  split
  · exact ⟨h.iface, h.printed, nofun, nofun⟩
  · exact ⟨h.iface, h.printed, fun _ _ hc => absurd hc (hnext _ _),
      fun _ _ hc => absurd hc (hnext _ _)⟩

theorem Honest.step (h : Honest mac sh) (hok : OwnResponses sh a) (hstep : shellStep sh a sh') :
    Honest mac sh' := by
  rw [shellStep] at hstep
  cases a with
  | dns host =>
    rw [shellAct] at hstep
    split at hstep
    next hcommand =>
      split at hstep
      · cases hstep
        exact h
      next hconf =>
        cases hstep
        obtain ⟨hip, hsent⟩ := hok hcommand (by simpa using hconf)
        have hkept := dnsQuery_answerKept sh.net host
        refine ⟨hkept.mac.trans h.iface, h.printed.append nofun, fun host' i' hc => ?_,
          fun host' i' hc hne => absurd (hkept.answerIp.trans hip) hne⟩
        cases hc
        exact ⟨sh.trace, [], by rw [hsent]; rfl⟩
    · cases hstep
  | fetch host =>
    rw [shellAct] at hstep
    split at hstep
    · split at hstep
      · cases hstep
        exact h
      · split at hstep
        · cases hstep
          exact h
        next net hnet =>
          cases hstep
          exact ⟨(netHttpFetch_mac hnet).trans h.iface, h.printed, nofun, nofun⟩
    · cases hstep
  | poll f =>
    rw [shellAct] at hstep
    split at hstep
    · cases hstep
    next host i hcommand =>
      obtain ⟨sh₁, hpoll, rfl⟩ := Option.map_eq_some_iff.mp hstep
      obtain ⟨h₁, hcommand₁⟩ := h.poll hok hpoll
      exact h₁.lookDns (hcommand₁.trans hcommand)
    next host i hcommand =>
      obtain ⟨sh₁, hpoll, rfl⟩ := Option.map_eq_some_iff.mp hstep
      exact (h.poll hok hpoll).1.lookFetch host i
  | netTask f =>
    rw [shellAct] at hstep
    exact (h.poll hok hstep).1

/-- In a run of commands where the address is cleared before each dns command, its query goes out, and
no answer for another host comes while it waits, each command prints an answer to its own query. -/
theorem dns_prints_own_answer (hcommand : sh.command = .none) (htrace : sh.trace = [])
    (h : Run shellStep OwnResponses sh as sh') : OwnAnswers sh.net.gMac sh'.trace := by
  have hstart : Honest sh.net.gMac sh := by
    refine ⟨rfl, fun pre host ip post heq => ?_, fun host i hc => ?_, fun host i hc => ?_⟩
    · rw [htrace] at heq
      exact absurd heq.symm (by simp)
    · rw [hcommand] at hc
      cases hc
    · rw [hcommand] at hc
      cases hc
  have hend := h.invariant (Honest sh.net.gMac) hstart fun _ _ _ hh hok hstep => hh.step hok hstep
  exact hend.printed

def idleShell : Shell where
  net := idleState
  command := .none
  trace := []

/-- The answer to the query for `example.com`, in a frame. -/
def exampleResponse : Msg :=
  let msg := exampleAnswer.bytes
  [82, 84, 0, 18, 52, 86, 82, 85, 10, 0, 2, 2, 8, 0, 69, 0] ++ put16 (28 + msg.length) ++
    [0, 0, 0, 0, 64, 17, 0, 0, 10, 0, 2, 3, 10, 0, 2, 15, 0, 53, 192, 1] ++ put16 (8 + msg.length) ++
    [0, 0] ++ msg

def Shell.after (sh : Shell) (a : ShellAct) : Shell := (shellAct sh a).getD sh

theorem shellStep_after (h : (shellAct sh a).isSome = true) : shellStep sh a (sh.after a) := by
  obtain ⟨sh', h⟩ := Option.isSome_iff_exists.mp h
  rw [shellStep, Shell.after, h, Option.getD_some]

def answered : Shell := (idleShell.after (.dns exampleHost)).after (.poll (some exampleResponse))

theorem asked_command : (idleShell.after (.dns exampleHost)).command = .dns exampleHost 0 := by
  decide +kernel

theorem dns_prints_own_answer_example :
    answered.trace = [.dns exampleHost true, .frame exampleResponse,
      .printed exampleHost 584628317] ∧ OwnAnswers idleShell.net.gMac answered.trace := by
  have hasks : AsksFor exampleHost exampleResponse :=
    ⟨0, 12, by decide +kernel, .here, show _ <+: _ by decide +kernel⟩
  have hrun : Run shellStep OwnResponses idleShell [.dns exampleHost,
      .poll (some exampleResponse)] answered := by
    refine .cons (fun _ _ => by decide +kernel) (shellStep_after (by decide +kernel))
      (.cons ?_ (shellStep_after (by decide +kernel)) .nil)
    intro host i hcommand g hg ip _
    rw [asked_command] at hcommand
    cases hcommand
    cases hg
    exact hasks
  exact ⟨by decide +kernel, dns_prints_own_answer rfl rfl hrun⟩

/-- `org` -/
def nextHost : Msg := [111, 114, 103]

/-- The next dns command prints the same address before any response to it. -/
theorem stale_answer : ¬ ∀ (sh sh' : Shell) (as : List ShellAct), sh.command = .none →
    sh.trace = [] → Run shellStep (fun _ _ => True) sh as sh' →
      OwnAnswers sh.net.gMac sh'.trace := by
  intro hall
  have hrun : Run shellStep (fun _ _ => True) idleShell [.dns exampleHost,
      .poll (some exampleResponse), .dns nextHost, .poll none]
      ((answered.after (.dns nextHost)).after (.poll none)) :=
    .cons trivial (shellStep_after (by decide +kernel)) (.cons trivial
      (shellStep_after (by decide +kernel)) (.cons trivial (shellStep_after (by decide +kernel))
        (.cons trivial (shellStep_after (by decide +kernel)) .nil)))
  have htrace : ((answered.after (.dns nextHost)).after (.poll none)).trace =
      [.dns exampleHost true, .frame exampleResponse, .printed exampleHost 584628317,
        .dns nextHost true] ++ .printed nextHost 584628317 :: [] := by decide +kernel
  obtain ⟨pre, fs, f, gs, heq, -⟩ := hall _ _ _ rfl rfl hrun _ _ _ _ htrace
  -- the last of the events before is the query, and no frame
  obtain ⟨ms, m, hms⟩ : ∃ ms m, fs ++ f :: gs = ms ++ [m] := by
    rcases List.eq_nil_or_concat (fs ++ f :: gs) with hnil | ⟨ms, m, h⟩
    · simp at hnil
    · exact ⟨ms, m, h.trans (List.concat_eq_append ..)⟩
  have heq' : [ShellEvent.dns exampleHost true, .frame exampleResponse,
      .printed exampleHost 584628317] ++ [.dns nextHost true] =
      (pre ++ .dns nextHost true :: ms.map .frame) ++ [.frame m] := by
    rw [hms] at heq
    simpa using heq
  obtain ⟨-, hlast⟩ := List.append_inj' heq' rfl
  cases hlast

end EponaOS.Net
