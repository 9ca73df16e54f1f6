import EponaOS.Net.TcpRun

/-!
# The first request

`tcp_http_send_get` puts the request together from three copies whose lengths are counted by hand.
The last one counts 27 bytes for a string of 25.
-/

namespace EponaOS.Net

open Msg

-- ---------------------------------------------------------------------------
-- The copies
-- ---------------------------------------------------------------------------

/-- A `memcpy` from a string without its final 0, and what is behind that 0 in memory. -/
structure StrCopy where
  str : Msg
  behind : Msg
  count : Nat

def StrCopy.bytes (c : StrCopy) : Msg := (c.str ++ 0 :: c.behind).take c.count

def StrCopy.Inside (c : StrCopy) : Prop := c.count ≤ c.str.length + 1

/-- The three copies of `tcp_http_send_get` and `tcp_http_retry_get`. -/
def getCopies (s : NetState) : List StrCopy :=
  [⟨getLine, [], 22⟩, ⟨s.gHttpHost, [], min s.gHttpHost.length 60⟩, ⟨agentLine, [s.litNext], 27⟩]

theorem httpRequest_copies (s : NetState) :
    httpRequest s = (getCopies s).flatMap StrCopy.bytes := by
  have hhost : (s.gHttpHost ++ [0]).take (min s.gHttpHost.length 60) = s.gHttpHost.take 60 := by
    rw [List.take_append_of_le_length (Nat.min_le_left ..), Nat.min_comm, List.take_eq_take_iff]
    omega
  simp only [getCopies, List.flatMap_cons, List.flatMap_nil, List.append_nil, StrCopy.bytes, hhost,
    httpRequest, List.append_assoc]
  rfl

theorem getCopies_outside (s : NetState) : ∃ c ∈ getCopies s, ¬ c.Inside := by
  have hlong : ¬ 27 ≤ agentLine.length + 1 := by decide
  exact ⟨⟨agentLine, [s.litNext], 27⟩, by simp [getCopies], hlong⟩

-- ---------------------------------------------------------------------------
-- The request
-- ---------------------------------------------------------------------------

def intendedRequest (host : Msg) : Msg := getLine ++ host ++ agentLine

theorem httpRequest_intended (s : NetState) :
    httpRequest s = intendedRequest (s.gHttpHost.take 60) ++ [0, s.litNext] := by
  simp only [httpRequest, intendedRequest]

theorem tcpHttpSendGet_events (s : NetState) : (tcpHttpSendGet s).events = s.events ++
    [.tcp s.gTcpRemoteIp s.gTcpSeq s.gTcpAck (TCP_FLAG_PSH ||| TCP_FLAG_ACK) (httpRequest s)] := rfl

/-- The request that is sent is the intended one, of bytes that are copied from inside of their
strings, and the next sequence number is the one behind it. -/
structure SendsIntended (s : NetState) : Prop where
  sent : (tcpHttpSendGet s).events = s.events ++ [.tcp s.gTcpRemoteIp s.gTcpSeq s.gTcpAck
    (TCP_FLAG_PSH ||| TCP_FLAG_ACK) (intendedRequest s.gHttpHost)]
  inside : ∀ c ∈ getCopies s, c.Inside
  seq : (tcpHttpSendGet s).gTcpSeq =
    (s.gTcpSeq + (intendedRequest s.gHttpHost).length) % 2 ^ 32

theorem httpRequest_ne_intended (s : NetState) (host : Msg) :
    httpRequest s ≠ intendedRequest host := by
  intro h
  rw [httpRequest_intended] at h
  -- the last byte but one is 0, and 13 where the request is the intended one
  have hlast := congrArg (fun m : Msg => m.reverse[1]?) h
  simp [intendedRequest, agentLine] at hlast

/-- No request is the intended one, whatever the host, and none is copied from inside of its
strings: two bytes too many are sent, and of the host 60 at most. -/
theorem sendGet_never_intended (s : NetState) : ¬ SendsIntended s ∧
    (∀ host, (tcpHttpSendGet s).events ≠ s.events ++ [.tcp s.gTcpRemoteIp s.gTcpSeq s.gTcpAck
      (TCP_FLAG_PSH ||| TCP_FLAG_ACK) (intendedRequest host)]) ∧
    (httpRequest s = (getCopies s).flatMap StrCopy.bytes ∧ ∃ c ∈ getCopies s, ¬ c.Inside) ∧
    httpRequest s = intendedRequest (s.gHttpHost.take 60) ++ [0, s.litNext] := by
  have hsent : ∀ host, (tcpHttpSendGet s).events ≠ s.events ++ [.tcp s.gTcpRemoteIp s.gTcpSeq
      s.gTcpAck (TCP_FLAG_PSH ||| TCP_FLAG_ACK) (intendedRequest host)] := by
    intro host h
    rw [tcpHttpSendGet_events] at h
    simp only [List.append_cancel_left_eq, List.cons.injEq, NetEvent.tcp.injEq] at h
    exact httpRequest_ne_intended s host h.1.2.2.2.2
  exact ⟨fun h => hsent _ h.sent, hsent, ⟨httpRequest_copies s, getCopies_outside s⟩,
    httpRequest_intended s⟩

theorem example_not_intended :
    ¬ ∀ s : NetState, s.gHttpHost.length ≤ 63 → SendsIntended s := by
  intro h
  exact absurd (h { idleState with gHttpHost := exampleHost } (by decide)).seq (by decide)

end EponaOS.Net
