import EponaOS.Net.DhcpHandshake

/-!
# Retransmissions of the request

`tcp_http_retry_get` builds the request anew from `g_http_host`. A DNS answer writes that
name at any time, also while a connection is open.
-/

namespace EponaOS.Net

open Msg

abbrev getFlags : Nat := TCP_FLAG_PSH ||| TCP_FLAG_ACK

def requestFor (litNext : UInt8) (host : Msg) : Msg := getLine ++ host ++ agentLine ++ [0, litNext]

/-- The first transmission of the request, its sequence number, and what is sent after it. -/
def firstGet : List NetEvent → Option (Nat × Msg × List NetEvent)
  | [] => none
  | .tcp _ seq _ flags p :: ev => if flags = getFlags then some (seq, p, ev) else firstGet ev
  | _ :: ev => firstGet ev

structure HttpConn where
  net : NetState
  sentHost : Option Msg

inductive HttpAct
  | net (a : NetAct)
  | dnsQuery (host : Msg)

def httpAct (s : NetState) : HttpAct → NetState → Prop
  | .net a, s' => netStep s a s'
  | .dnsQuery host, s' => s' = dnsQuery s host

def httpStep (c : HttpConn) (a : HttpAct) (c' : HttpConn) : Prop :=
  httpAct c.net a c'.net ∧
    c'.sentHost = if c.net.gTcpState = 1 ∧ c'.net.gTcpState = 3 then some (c.net.gHttpHost.take 60)
      else c.sentHost

/-- Whatever is sent with the sequence number of the request is the request. -/
def GetsRepeat (s₀ : NetState) (c : HttpConn) : Prop :=
  ∀ ev seq p rest, c.net.events = s₀.events ++ ev → firstGet ev = some (seq, p, rest) →
    seq = c.net.gTcpGetSeq ∧ p.length = c.net.gTcpGetLen ∧
      ∀ dst ack flags q, .tcp dst seq ack flags q ∈ rest → q = p

def RetryDue (s : NetState) : Prop :=
  s.gTcpState = 3 ∧ TCP_RETRY_TICKS ≤ (s.gTcpWaitTicks + 1) % 2 ^ 32 ∧
    s.gTcpRetries < TCP_MAX_RETRIES

/-- The request is sent again for the host it was sent for. -/
def SameHost (c : HttpConn) : HttpAct → Prop
  | .net .timer => RetryDue c.net → c.sentHost = some (c.net.gHttpHost.take 60)
  | _ => True

-- ---------------------------------------------------------------------------
-- What a step sends
-- ---------------------------------------------------------------------------

structure Calm (s s' : NetState) : Prop where
  tcpState : s'.gTcpState = s.gTcpState ∨
    (s'.gTcpState ≠ 0 ∧ s'.gTcpState ≠ 1 ∧ s'.gTcpState ≠ 3)
  tcpSeq : s'.gTcpSeq = s.gTcpSeq
  getSeq : s'.gTcpGetSeq = s.gTcpGetSeq
  getLen : s'.gTcpGetLen = s.gTcpGetLen
  lit : s'.litNext = s.litNext
  events : ∃ ev, s'.events = s.events ++ ev ∧ ∀ dst seq ack flags p,
    .tcp dst seq ack flags p ∈ ev → seq = s.gTcpSeq ∧ flags ≠ getFlags

structure SentGet (s s' : NetState) : Prop where
  before : s.gTcpState = 1
  tcpState : s'.gTcpState = 3
  getSeq : s'.gTcpGetSeq = (s.gTcpSeq + 1) % 2 ^ 32
  getLen : s'.gTcpGetLen = (httpRequest s).length
  tcpSeq : s'.gTcpSeq = (s'.gTcpGetSeq + s'.gTcpGetLen) % 2 ^ 32
  lit : s'.litNext = s.litNext
  events : ∃ ip ack, s'.events = s.events ++
    [.tcp ip s'.gTcpGetSeq ack TCP_FLAG_ACK [], .tcp ip s'.gTcpGetSeq ack getFlags (httpRequest s)]

structure Retried (s s' : NetState) : Prop where
  tcpState : s'.gTcpState = s.gTcpState
  tcpSeq : s'.gTcpSeq = s.gTcpSeq
  getSeq : s'.gTcpGetSeq = s.gTcpGetSeq
  getLen : s'.gTcpGetLen = s.gTcpGetLen
  lit : s'.litNext = s.litNext
  events : ∃ ip ack, s'.events = s.events ++ [.tcp ip s.gTcpGetSeq ack getFlags (httpRequest s)]

variable {s s' s'' s₀ : NetState} {f : Msg}

theorem ack_ne_getFlags : TCP_FLAG_ACK ≠ getFlags := by decide

theorem behind_get {n : Nat} (h : 3 < n) : n ≠ 0 ∧ n ≠ 1 ∧ n ≠ 3 := by omega

theorem Calm.refl (s : NetState) : Calm s s :=
  ⟨.inl rfl, rfl, rfl, rfl, rfl, [], by simp, fun _ _ _ _ _ h => absurd h List.not_mem_nil⟩

theorem Calm.trans (h : Calm s s') (h' : Calm s' s'') : Calm s s'' := by
  obtain ⟨ev, he, hev⟩ := h.events
  obtain ⟨ev', he', hev'⟩ := h'.events
  refine ⟨?_, h'.tcpSeq.trans h.tcpSeq, h'.getSeq.trans h.getSeq, h'.getLen.trans h.getLen,
    h'.lit.trans h.lit, ev ++ ev', ?_, fun dst seq ack flags p hm => ?_⟩
  · have h1 := h.tcpState
    have h2 := h'.tcpState
    omega
  · rw [he', he, List.append_assoc]
  · obtain hm | hm := List.mem_append.mp hm
    · exact hev dst seq ack flags p hm
    · rw [← h.tcpSeq]
      exact hev' dst seq ack flags p hm

theorem Calm.emit (h : Calm s s') (he : ∀ dst seq ack flags p, e ≠ .tcp dst seq ack flags p) :
    Calm s (s'.emit e) := by
  refine h.trans ⟨.inl rfl, rfl, rfl, rfl, rfl, [e], rfl, fun dst seq ack flags p hm => ?_⟩
  exact absurd (List.mem_singleton.mp hm).symm (he dst seq ack flags p)

theorem Calm.sendTcp {ack : Nat} (h : Calm s s') (hflags : flags ≠ getFlags) (hseq : seq = s'.gTcpSeq) :
    Calm s (s'.sendTcp seq ack flags p) := by
  refine h.trans ⟨.inl rfl, rfl, rfl, rfl, rfl, [_], rfl, fun dst' seq' ack' flags' p' hm => ?_⟩
  cases List.mem_singleton.mp hm
  exact ⟨hseq, hflags⟩

theorem Calm.of_events (hev : s'.events = s.events)
    (hstate : s'.gTcpState = s.gTcpState ∨
      (s'.gTcpState ≠ 0 ∧ s'.gTcpState ≠ 1 ∧ s'.gTcpState ≠ 3))
    (h : s'.gTcpSeq = s.gTcpSeq ∧ s'.gTcpGetSeq = s.gTcpGetSeq ∧ s'.gTcpGetLen = s.gTcpGetLen ∧
      s'.litNext = s.litNext) : Calm s s' := by
  obtain ⟨h1, h2, h3, h4⟩ := h
  exact ⟨hstate, h1, h2, h3, h4, [], by rw [hev, List.append_nil],
    fun _ _ _ _ _ h => absurd h List.not_mem_nil⟩

theorem dnsQuery_calm (s : NetState) (host : Msg) : Calm s (dnsQuery s host) := by
  obtain h | h := dnsQuery_frame s host
  · rw [h]
    exact .refl s
  · rw [h]
    exact Calm.emit (.of_events rfl (.inl rfl) ⟨rfl, rfl, rfl, rfl⟩) fun _ _ _ _ _ h => NetEvent.noConfusion h

theorem gatewayFound_calm (s : NetState) (sha : Msg) : Calm s (s.gatewayFound sha) :=
  Calm.emit (.of_events rfl (.inl rfl) ⟨rfl, rfl, rfl, rfl⟩) fun _ _ _ _ _ h => NetEvent.noConfusion h

theorem dhcpReply_calm (h : dhcpReply s f (dhcpAt f) o = some s') : Calm s s' := by
  obtain ⟨-, -, rfl⟩ | ⟨-, -, rfl⟩ | ⟨rfl, -⟩ := dhcpReply_cases h
  · exact Calm.emit (.of_events rfl (.inl rfl) ⟨rfl, rfl, rfl, rfl⟩) fun _ _ _ _ _ h => NetEvent.noConfusion h
  · exact Calm.emit (.of_events rfl (.inl rfl) ⟨rfl, rfl, rfl, rfl⟩) fun _ _ _ _ _ h => NetEvent.noConfusion h
  · exact .refl _

theorem tcpFin_calm (s : NetState) (seq flags len : Nat) : Calm s (tcpFin s seq flags len) := by
  by_cases hfin : flags &&& TCP_FLAG_FIN = 0
  · rw [tcpFin_none hfin]
    exact .refl s
  · obtain ⟨printed, htaken⟩ := tcpFin_frame s seq len hfin
    rw [htaken]
    refine ⟨.inr (behind_get (by decide : 3 < 6)), rfl, rfl, rfl, rfl, [_], rfl,
      fun dst' seq' ack' flags' p' hm => ?_⟩
    cases List.mem_singleton.mp hm
    exact ⟨rfl, ack_ne_getFlags⟩

theorem tcpAcceptData_calm (h : tcpAcceptData s f seq off len = some s') : Calm s s' := by
  obtain ⟨body, done, printed, rfl⟩ := tcpAcceptData_frame h
  refine ⟨.inr (behind_get (by decide : 3 < 4)), rfl, rfl, rfl, rfl, _, List.append_assoc ..,
    fun dst' seq' ack' flags' p' hm => ?_⟩
  rcases List.mem_append.mp hm with hm | hm
  · cases List.mem_singleton.mp hm
  · cases List.mem_singleton.mp hm
    exact ⟨rfl, ack_ne_getFlags⟩

theorem tcpSegment_sends {ack : Nat} (h : tcpSegment s f seq ack flags off len = some s') :
    Calm s s' ∨ SentGet s s' := by
  rw [tcpSegment] at h
  split at h
  · cases h
    exact .inl (.of_events rfl (.inr (behind_get (by decide : 3 < 5))) ⟨rfl, rfl, rfl, rfl⟩)
  split at h
  · rename_i hsyn
    cases h
    exact .inr ⟨hsyn.1, rfl, rfl, rfl, rfl, rfl, _, _, List.append_assoc ..⟩
  split at h
  · split at h
    · cases h
      exact .inl ((Calm.refl s).sendTcp ack_ne_getFlags rfl)
    · obtain ⟨s₁, h₁, h⟩ := Option.bind_eq_some_iff.mp h
      cases h
      exact .inl ((tcpAcceptData_calm h₁).trans (tcpFin_calm ..))
  · cases h
    exact .inl (tcpFin_calm ..)

theorem netHandlePacket_sends (hs : s.gTcpState ≠ 0) (h : netHandlePacket s f = some s') :
    Calm s s' ∨ SentGet s s' := by
  cases netHandlePacket_effect h with
  | drop => exact .inl (.refl s)
  | arp sha => exact .inl (gatewayFound_calm s sha)
  | arpQuery sha => exact .inl ((gatewayFound_calm s sha).trans (dnsQuery_calm ..))
  | dhcp _ hreply => exact .inl (dhcpReply_calm hreply)
  | dns ip =>
    -- a connection exists, so no new one is started
    rw [tcpHttpStart, if_pos (by simp [hs])]
    exact .inl (.of_events rfl (.inl rfl) ⟨rfl, rfl, rfl, rfl⟩)
  | icmp => exact .inl (.of_events rfl (.inl rfl) ⟨rfl, rfl, rfl, rfl⟩)
  | tcp _ hseg => exact tcpSegment_sends hseg

theorem tcpPollRetransmit_sends (s : NetState) :
    (RetryDue s ∧ Retried s (tcpPollRetransmit s)) ∨
      (¬ RetryDue s ∧ Calm s (tcpPollRetransmit s)) := by
  rw [tcpPollRetransmit]
  split
  · rename_i hidle
    exact .inr ⟨fun hdue => hidle.2 hdue.1, .refl s⟩
  rename_i hopen
  dsimp only
  split
  · rename_i hearly
    refine .inr ⟨fun hdue => ?_, .of_events rfl (.inl rfl) ⟨rfl, rfl, rfl, rfl⟩⟩
    have := hdue.2.1
    omega
  rename_i hticks
  split
  · rename_i hmax
    refine .inr ⟨fun hdue => ?_, .of_events rfl (.inr (behind_get (by decide : 3 < 7)))
      ⟨rfl, rfl, rfl, rfl⟩⟩
    have := hdue.2.2
    omega
  rename_i hretries
  split
  · rename_i hsyn
    have hsyn : s.gTcpState = 1 := hsyn
    refine .inr ⟨fun hdue => ?_, .inl rfl, rfl, rfl, rfl, rfl, [_], rfl,
      fun dst' seq' ack' flags' p' hm => ?_⟩
    · have := hdue.1
      omega
    · cases List.mem_singleton.mp hm
      exact ⟨rfl, by unfold getFlags; decide⟩
  · rename_i hget
    have hget : s.gTcpState ≠ 1 := hget
    refine .inl ⟨⟨by omega, by omega, by omega⟩, rfl, rfl, rfl, rfl, rfl, _, _, rfl⟩

-- ---------------------------------------------------------------------------
-- A connection
-- ---------------------------------------------------------------------------

theorem firstGet_append_none (h : firstGet ev = none) : firstGet (ev ++ ev') = firstGet ev' := by
  induction ev with
  | nil => rfl
  | cons e ev ih =>
    cases e with
    | tcp dst seq ack flags p =>
      simp only [firstGet, List.cons_append] at h ⊢
      split at h
      · cases h
      · rename_i hflags
        rw [if_neg hflags]
        exact ih h
    | _ => exact ih h

theorem firstGet_append_some (h : firstGet ev = some (seq, p, rest)) (ev' : List NetEvent) :
    firstGet (ev ++ ev') = some (seq, p, rest ++ ev') := by
  induction ev with
  | nil => cases h
  | cons e ev ih =>
    cases e with
    | tcp dst seq' ack flags p' =>
      simp only [firstGet, List.cons_append] at h ⊢
      split at h
      · rename_i hflags
        cases h
        rw [if_pos hflags]
      · rename_i hflags
        rw [if_neg hflags]
        exact ih h
    | _ => exact ih h

theorem firstGet_calm (h : ∀ dst seq ack flags p, .tcp dst seq ack flags p ∈ ev → flags ≠ getFlags) :
    firstGet ev = none := by
  induction ev with
  | nil => rfl
  | cons e ev ih =>
    have ih := ih fun dst seq ack flags p hm => h dst seq ack flags p (List.mem_cons_of_mem _ hm)
    cases e with
    | tcp dst seq ack flags p =>
      rw [firstGet, if_neg (h dst seq ack flags p List.mem_cons_self)]
      exact ih
    | _ => exact ih

inductive GetPhase (c : HttpConn) (ev : List NetEvent) : Prop
  /-- It has not been sent. -/
  | unsent : c.sentHost = none → c.net.gTcpState ≠ 3 → firstGet ev = none → GetPhase c ev
  /-- It was sent for `host`. -/
  | sent (host : Msg) (rest : List NetEvent) : c.sentHost = some host → c.net.gTcpState ≠ 1 →
      host.length ≤ 60 → c.net.gTcpGetSeq < 2 ^ 32 →
      c.net.gTcpGetLen = (requestFor c.net.litNext host).length →
      c.net.gTcpSeq = (c.net.gTcpGetSeq + c.net.gTcpGetLen) % 2 ^ 32 →
      firstGet ev = some (c.net.gTcpGetSeq, requestFor c.net.litNext host, rest) → GetPhase c ev

structure Connected (s₀ : NetState) (c : HttpConn) : Prop where
  live : c.net.gTcpState ≠ 0
  phase : ∃ ev, c.net.events = s₀.events ++ ev ∧ GetPhase c ev

variable {c c' : HttpConn}

theorem httpAct_sends (hs : s.gTcpState ≠ 0) (h : httpAct s a s') :
    (Calm s s' ∧ ¬ (a = .net .timer ∧ RetryDue s)) ∨ (SentGet s s' ∧ a ≠ .net .timer) ∨
      (a = .net .timer ∧ RetryDue s ∧ Retried s s') := by
  cases a with
  | dnsQuery host =>
    cases show s' = dnsQuery s host from h
    exact .inl ⟨dnsQuery_calm s host, fun h => HttpAct.noConfusion h.1⟩
  | net a =>
    cases a with
    | frame f =>
      obtain hcalm | hsent := netHandlePacket_sends hs h
      · exact .inl ⟨hcalm, fun h => NetAct.noConfusion (HttpAct.net.inj h.1)⟩
      · exact .inr (.inl ⟨hsent, fun h => NetAct.noConfusion (HttpAct.net.inj h)⟩)
    | timer =>
      cases show s' = tcpPollRetransmit s from h
      obtain ⟨hdue, hretried⟩ | ⟨hnot, hcalm⟩ := tcpPollRetransmit_sends s
      · exact .inr (.inr ⟨rfl, hdue, hretried⟩)
      · exact .inl ⟨hcalm, fun h => hnot h.2⟩
    | ping ip =>
      cases show s' = netPingSend s ip from h
      refine .inl ⟨?_, fun h => NetAct.noConfusion (HttpAct.net.inj h.1)⟩
      rw [netPingSend]
      split
      · exact .refl s
      · exact Calm.emit (.of_events rfl (.inl rfl) ⟨rfl, rfl, rfl, rfl⟩) fun _ _ _ _ _ h => NetEvent.noConfusion h

theorem getsRepeat_unsent (he : c.net.events = s₀.events ++ ev) (h : firstGet ev = none) :
    GetsRepeat s₀ c := by
  intro ev' seq p rest he' hfirst
  cases List.append_cancel_left (he.symm.trans he')
  rw [h] at hfirst
  cases hfirst

theorem getsRepeat_sent (he : c.net.events = s₀.events ++ ev)
    (h : firstGet ev = some (c.net.gTcpGetSeq, p, rest)) (hlen : c.net.gTcpGetLen = p.length) :
    GetsRepeat s₀ c ↔ ∀ dst ack flags q, .tcp dst c.net.gTcpGetSeq ack flags q ∈ rest → q = p := by
  constructor
  · intro hgood
    exact (hgood ev _ _ _ he h).2.2
  · intro hrest ev' seq p' rest' he' hfirst
    cases List.append_cancel_left (he.symm.trans he')
    cases h.symm.trans hfirst
    exact ⟨rfl, hlen.symm, hrest⟩

theorem requestFor_length (litNext : UInt8) (host : Msg) :
    (requestFor litNext host).length = host.length + 49 := by
  simp only [requestFor, getLine, agentLine, List.length_append, List.length_cons, List.length_nil]
  omega

theorem Connected.calm (h : Connected s₀ c) (hcalm : Calm c.net c'.net)
    (hsent : c'.sentHost = c.sentHost) :
    Connected s₀ c' ∧ (GetsRepeat s₀ c' ↔ GetsRepeat s₀ c) := by
  have hstate := hcalm.tcpState
  have hlive := h.live
  obtain ⟨ev, he, hphase⟩ := h.phase
  obtain ⟨ev', he', hev'⟩ := hcalm.events
  rw [he, List.append_assoc] at he'
  cases hphase with
  | unsent hhost hne hfirst =>
    have hnone : firstGet (ev ++ ev') = none := by
      rw [firstGet_append_none hfirst]
      exact firstGet_calm fun dst seq ack flags p hm => (hev' dst seq ack flags p hm).2
    refine ⟨⟨by omega, _, he', .unsent (hsent.trans hhost) (by omega) hnone⟩, ?_⟩
    exact iff_of_true (getsRepeat_unsent he' hnone) (getsRepeat_unsent he hfirst)
  | sent host rest hhost hne hshort hlt hlen hseq hfirst =>
    have hfirst' := firstGet_append_some hfirst ev'
    rw [← hcalm.getSeq, ← hcalm.lit] at hfirst'
    refine ⟨⟨by omega, _, he', .sent host _ (hsent.trans hhost) (by omega) hshort ?_ ?_ ?_ hfirst'⟩, ?_⟩
    · rw [hcalm.getSeq]
      exact hlt
    · rw [hcalm.getLen, hcalm.lit]
      exact hlen
    · rw [hcalm.tcpSeq, hcalm.getSeq, hcalm.getLen]
      exact hseq
    · rw [getsRepeat_sent he' hfirst' (by rw [hcalm.getLen, hcalm.lit]; exact hlen),
        getsRepeat_sent he hfirst hlen, hcalm.getSeq, hcalm.lit]
      -- what is sent has the sequence number behind the request
      have hother : ∀ dst ack flags q, .tcp dst c.net.gTcpGetSeq ack flags q ∉ ev' := by
        intro dst ack flags q hm
        have hnext := (hev' _ _ _ _ _ hm).1
        rw [requestFor_length] at hlen
        omega
      constructor
      · exact fun hgood dst ack flags q hm => hgood dst ack flags q (List.mem_append_left _ hm)
      · intro hgood dst ack flags q hm
        obtain hm | hm := List.mem_append.mp hm
        · exact hgood dst ack flags q hm
        · exact absurd hm (hother dst ack flags q)

theorem Connected.sentGet (h : Connected s₀ c) (hget : SentGet c.net c'.net)
    (hsent : c'.sentHost = some (c.net.gHttpHost.take 60)) :
    Connected s₀ c' ∧ GetsRepeat s₀ c' ∧ GetsRepeat s₀ c := by
  have hbefore := hget.before
  have hstate := hget.tcpState
  obtain ⟨ev, he, hphase⟩ := h.phase
  obtain ⟨ip, ack, he'⟩ := hget.events
  rw [he, List.append_assoc] at he'
  cases hphase with
  | sent host rest hhost hne => exact absurd hbefore hne
  | unsent hhost hne hfirst =>
    have hreq : httpRequest c.net = requestFor c'.net.litNext (c.net.gHttpHost.take 60) := by
      rw [hget.lit]
      rfl
    have hlen : c'.net.gTcpGetLen =
        (requestFor c'.net.litNext (c.net.gHttpHost.take 60)).length := by
      rw [hget.getLen, hreq]
    have hfirst' : firstGet (ev ++ [.tcp ip c'.net.gTcpGetSeq ack TCP_FLAG_ACK [],
        .tcp ip c'.net.gTcpGetSeq ack getFlags (httpRequest c.net)]) =
        some (c'.net.gTcpGetSeq, requestFor c'.net.litNext (c.net.gHttpHost.take 60), []) := by
      rw [firstGet_append_none hfirst, firstGet, if_neg ack_ne_getFlags, firstGet, if_pos rfl, hreq]
    have hlt : c'.net.gTcpGetSeq < 2 ^ 32 := by
      rw [hget.getSeq]
      exact Nat.mod_lt _ (by decide)
    refine ⟨⟨by omega, _, he', .sent _ _ hsent (by omega) (List.length_take_le ..) hlt hlen
      hget.tcpSeq hfirst'⟩, ?_, getsRepeat_unsent he hfirst⟩
    rw [getsRepeat_sent he' hfirst' hlen]
    exact fun _ _ _ _ hm => absurd hm List.not_mem_nil

theorem requestFor_inj (h : requestFor litNext host = requestFor litNext host') : host = host' := by
  simp only [requestFor, List.append_assoc] at h
  exact List.append_cancel_right (List.append_cancel_left h)

theorem Connected.retried (h : Connected s₀ c) (hdue : RetryDue c.net)
    (hretried : Retried c.net c'.net) (hsent : c'.sentHost = c.sentHost) :
    Connected s₀ c' ∧ (GetsRepeat s₀ c' ↔
      GetsRepeat s₀ c ∧ c.sentHost = some (c.net.gHttpHost.take 60)) := by
  have hstate := hretried.tcpState
  have hthree := hdue.1
  obtain ⟨ev, he, hphase⟩ := h.phase
  obtain ⟨ip, ack, he'⟩ := hretried.events
  rw [he, List.append_assoc] at he'
  cases hphase with
  | unsent hhost hne hfirst => exact absurd hthree hne
  | sent host rest hhost hne hshort hlt hlen hseq hfirst =>
    have hfirst' := firstGet_append_some hfirst
      [.tcp ip c.net.gTcpGetSeq ack getFlags (httpRequest c.net)]
    have hlen' : c'.net.gTcpGetLen = (requestFor c'.net.litNext host).length := by
      rw [hretried.getLen, hretried.lit]
      exact hlen
    rw [← hretried.getSeq, ← hretried.lit] at hfirst'
    rw [← hretried.getSeq] at he'
    refine ⟨⟨by omega, _, he', .sent host _ (hsent.trans hhost) (by omega) hshort ?_ hlen' ?_
      hfirst'⟩, ?_⟩
    · rw [hretried.getSeq]
      exact hlt
    · rw [hretried.tcpSeq, hretried.getSeq, hretried.getLen]
      exact hseq
    · rw [getsRepeat_sent he' hfirst' hlen', getsRepeat_sent he hfirst hlen, hretried.getSeq,
        hretried.lit, hhost, Option.some.injEq]
      constructor
      · intro hgood
        refine ⟨fun dst ack flags q hm => hgood dst ack flags q (List.mem_append_left _ hm), ?_⟩
        have hlast : httpRequest c.net = requestFor c.net.litNext host :=
          hgood ip ack getFlags _ (List.mem_append_right _ List.mem_cons_self)
        exact (requestFor_inj hlast).symm
      · rintro ⟨hgood, hhost⟩ dst ack flags q hm
        obtain hm | hm := List.mem_append.mp hm
        · exact hgood dst ack flags q hm
        · cases List.mem_singleton.mp hm
          rw [hhost]
          rfl

theorem Connected.step (h : Connected s₀ c) (hs : httpStep c a c') :
    Connected s₀ c' ∧ (GetsRepeat s₀ c' ↔ GetsRepeat s₀ c ∧ SameHost c a) := by
  obtain ⟨hact, hsent⟩ := hs
  obtain ⟨hcalm, hnot⟩ | ⟨hget, ha⟩ | ⟨rfl, hdue, hretried⟩ := httpAct_sends h.live hact
  · have hkeep : c'.sentHost = c.sentHost := by
      have := hcalm.tcpState
      rw [hsent, if_neg (by omega)]
    obtain ⟨hconn, hiff⟩ := h.calm hcalm hkeep
    refine ⟨hconn, hiff.trans (and_iff_left ?_).symm⟩
    unfold SameHost
    split
    · exact fun hdue => absurd ⟨rfl, hdue⟩ hnot
    · trivial
  · rw [if_pos ⟨hget.before, hget.tcpState⟩] at hsent
    obtain ⟨hconn, hafter, hbefore⟩ := h.sentGet hget hsent
    refine ⟨hconn, iff_of_true hafter ⟨hbefore, ?_⟩⟩
    unfold SameHost
    split
    · exact absurd rfl ha
    · trivial
  · have hthree := hdue.1
    have hkeep : c'.sentHost = c.sentHost := by rw [hsent, if_neg (by omega)]
    obtain ⟨hconn, hiff⟩ := h.retried hdue hretried hkeep
    exact ⟨hconn, hiff.trans (and_congr_right fun _ => ⟨fun h _ => h, fun h => h hdue⟩)⟩

theorem httpStep_deterministic (h : httpStep c a c') (h' : httpStep c a c'') : c' = c'' := by
  obtain ⟨hact, hsent⟩ := h
  obtain ⟨hact', hsent'⟩ := h'
  have hnet : c'.net = c''.net := by
    cases a with
    | dnsQuery host => exact Eq.trans hact hact'.symm
    | net a =>
      cases a with
      | frame f => exact Option.some.inj (Eq.trans (Eq.symm hact) hact')
      | timer => exact Eq.trans hact hact'.symm
      | ping ip => exact Eq.trans hact hact'.symm
  rcases c' with ⟨n, host⟩
  rcases c'' with ⟨n', host'⟩
  cases hnet
  cases hsent.trans hsent'.symm
  rfl

/-- `tcp_http_start` opens the connection. -/
def connect (s₀ : NetState) (dstIp : Nat) : HttpConn := ⟨tcpHttpStart s₀ dstIp, none⟩

theorem connect_connected (dstIp : Nat) (hgw : s₀.gGatewayKnown = true) (h0 : s₀.gTcpState = 0) :
    Connected s₀ (connect s₀ dstIp) ∧ GetsRepeat s₀ (connect s₀ dstIp) := by
  have hstart : (tcpHttpStart s₀ dstIp).gTcpState = 1 ∧
      (tcpHttpStart s₀ dstIp).events =
        s₀.events ++ [.tcp dstIp TCP_FIRST_SEQ 0 TCP_FLAG_SYN []] := by
    rw [tcpHttpStart, hgw, h0]
    exact ⟨rfl, rfl⟩
  have hnone : firstGet [.tcp dstIp TCP_FIRST_SEQ 0 TCP_FLAG_SYN []] = none := rfl
  refine ⟨⟨?_, _, hstart.2, .unsent rfl ?_ hnone⟩, getsRepeat_unsent hstart.2 hnone⟩
  · rw [connect, hstart.1]
    decide
  · rw [connect, hstart.1]
    decide

/-- In a connection every segment with the sequence number of the request is the request,
exactly if `g_http_host` is the same whenever the request is sent again. -/
theorem getsRepeat_iff (s₀ : NetState) (hgw : s₀.gGatewayKnown = true) (h0 : s₀.gTcpState = 0)
    (dstIp : Nat) (acts : List HttpAct)
    (h : Run httpStep (fun _ _ => True) (connect s₀ dstIp) acts c) :
    GetsRepeat s₀ c ↔ Run httpStep SameHost (connect s₀ dstIp) acts c := by
  obtain ⟨hconn, hgood⟩ := connect_connected dstIp hgw h0
  refine h.good_iff (Connected s₀) (GetsRepeat s₀) hconn hgood ?_ ?_
  · exact fun _ _ _ _ h h' => httpStep_deterministic h h'
  · exact fun _ _ _ hinv _ hs => hinv.step hs

-- ---------------------------------------------------------------------------
-- A DNS answer in between
-- ---------------------------------------------------------------------------

def dnsAnswer : Msg :=
  [82, 84, 0, 18, 52, 86, 82, 85, 10, 0, 2, 2, 8, 0] ++
  [69, 0, 0, 55, 0, 0, 0, 0, 64, 17, 0, 0, 10, 0, 2, 3, 10, 0, 2, 15] ++
  [0, 53, 192, 1, 0, 35, 0, 0] ++
  [0xE9, 1, 129, 128, 0, 0, 0, 1, 0, 0, 0, 0] ++
  [0, 0, 1, 0, 1, 0, 0, 1, 44, 0, 4, 93, 184, 216, 34]

/-- `"a.org"` -/
def otherHost : Msg := [97, 46, 111, 114, 103]

def fetchState : NetState := { idleState with gHttpHost := exampleHost }

def requested : HttpConn :=
  ⟨behind (tcpHttpStart fetchState smallServerIp) smallSynAck, some exampleHost⟩

def renamed : HttpConn :=
  ⟨behind (dnsQuery requested.net otherHost) dnsAnswer, some exampleHost⟩

def HttpConn.tick (c : HttpConn) (n : Nat) : HttpConn :=
  { c with net := { c.net with gTcpWaitTicks := c.net.gTcpWaitTicks + n } }

theorem tcpPollRetransmit_tick (hstate : s.gTcpState = 3)
    (hticks : s.gTcpWaitTicks + 1 < TCP_RETRY_TICKS) :
    tcpPollRetransmit s = { s with gTcpWaitTicks := s.gTcpWaitTicks + 1 } := by
  have hmod : (s.gTcpWaitTicks + 1) % 2 ^ 32 = s.gTcpWaitTicks + 1 :=
    Nat.mod_eq_of_lt (Nat.lt_trans hticks (by decide))
  rw [tcpPollRetransmit, if_neg (by omega)]
  dsimp only
  rw [hmod, if_pos hticks]

theorem tick_run {ok : HttpConn → HttpAct → Prop} (hok : ∀ m < n, ok (c.tick m) (.net .timer))
    (hstate : c.net.gTcpState = 3) (hticks : c.net.gTcpWaitTicks + n < TCP_RETRY_TICKS) :
    Run httpStep ok c (List.replicate n (.net .timer)) (c.tick n) := by
  induction n with
  | zero => exact .nil
  | succ n ih =>
    have hlast : httpStep (c.tick n) (.net .timer) (c.tick (n + 1)) := by
      refine ⟨(tcpPollRetransmit_tick (s := (c.tick n).net) hstate hticks).symm, ?_⟩
      have hne : ¬ ((c.tick n).net.gTcpState = 1 ∧ (c.tick (n + 1)).net.gTcpState = 3) := by
        have hthree : (c.tick n).net.gTcpState = 3 := hstate
        omega
      rw [if_neg hne]
      rfl
    rw [List.replicate_succ']
    exact (ih (fun m hm => hok m (by omega)) (by omega)).append
      (.cons (hok n (Nat.lt_succ_self n)) hlast .nil)

theorem renamed_run : Run httpStep (fun _ _ => True) (connect fetchState smallServerIp)
    [.net (.frame smallSynAck), .dnsQuery otherHost, .net (.frame dnsAnswer)] renamed := by
  have hget : httpStep (connect fetchState smallServerIp) (.net (.frame smallSynAck)) requested :=
    ⟨netStep_behind (by decide +kernel), by decide +kernel⟩
  have hquery : httpStep requested (.dnsQuery otherHost)
      ⟨dnsQuery requested.net otherHost, some exampleHost⟩ := ⟨rfl, by decide +kernel⟩
  have hanswer : httpStep ⟨dnsQuery requested.net otherHost, some exampleHost⟩
      (.net (.frame dnsAnswer)) renamed := ⟨netStep_behind (by decide +kernel), by decide +kernel⟩
  exact .cons trivial hget (.cons trivial hquery (.cons trivial hanswer .nil))

theorem getsRepeat_iff_renamed :
    GetsRepeat fetchState renamed ↔ Run httpStep SameHost (connect fetchState smallServerIp)
      [.net (.frame smallSynAck), .dnsQuery otherHost, .net (.frame dnsAnswer)] renamed :=
  getsRepeat_iff fetchState rfl rfl smallServerIp _ renamed_run

/-- The request to example.com is sent again as a request to a.org. -/
theorem retry_other_host : ∃ acts c,
    Run httpStep (fun _ _ => True) (connect fetchState smallServerIp) acts c ∧
      ¬ GetsRepeat fetchState c := by
  have hstate : renamed.net.gTcpState = 3 := by decide +kernel
  have hticks : renamed.net.gTcpWaitTicks = 0 := by decide +kernel
  have hretries : renamed.net.gTcpRetries = 0 := by decide +kernel
  have hhost : renamed.net.gHttpHost.take 60 = otherHost := by decide +kernel
  have hwait := renamed_run.append (tick_run (n := 199999) (fun _ _ => trivial) hstate
    (by rw [hticks]; decide))
  have hdue : RetryDue (renamed.tick 199999).net := by
    refine ⟨hstate, ?_, ?_⟩
    · have : (renamed.tick 199999).net.gTcpWaitTicks = 199999 := by
        rw [HttpConn.tick, hticks]
      rw [this]
      decide
    · have : (renamed.tick 199999).net.gTcpRetries = 0 := hretries
      rw [this]
      decide
  have hretry : httpStep (renamed.tick 199999) (.net .timer)
      ⟨tcpPollRetransmit (renamed.tick 199999).net, some exampleHost⟩ := by
    have hne : (renamed.tick 199999).net.gTcpState ≠ 1 := by
      rw [hdue.1]
      decide
    exact ⟨rfl, (if_neg fun h => hne h.1).symm⟩
  refine ⟨_, _, hwait.append (.cons trivial hretry .nil), fun hgood => ?_⟩
  have hconn : Connected fetchState (renamed.tick 199999) :=
    hwait.invariant _ (connect_connected smallServerIp rfl rfl).1 fun _ _ _ h _ hs => (h.step hs).1
  have hsame := ((hconn.step hretry).2.mp hgood).2 hdue
  have hnow : (renamed.tick 199999).net.gHttpHost.take 60 = otherHost := hhost
  rw [hnow] at hsame
  exact absurd hsame (by decide +kernel)

end EponaOS.Net
