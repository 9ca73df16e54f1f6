import EponaOS.Net.DnsCommand
import EponaOS.Net.GetRepeat

/-!
# A server that falls silent

`tcp_poll_retransmit` gives up after `TCP_MAX_RETRIES` in the states 1 and 3. `net_tcp_busy` also
counts state 4, in which data arrive, and there no timer runs.
-/

namespace EponaOS.Net

open Msg

-- ---------------------------------------------------------------------------
-- The stack
-- ---------------------------------------------------------------------------

/-- What can happen to the stack: a frame, a `net_poll` that finds none, and the calls of the
shell. -/
inductive StackAct
  | frame (f : Msg)
  | poll
  | ping (dstIp : Nat)
  | dns (host : Msg)
  | fetch (host : Msg)
  | reset

def stackStep (s : NetState) : StackAct → NetState → Prop
  | .frame f, s' => netHandlePacket s f = some s'
  | .poll, s' => netPoll s none = some s'
  | .ping dstIp, s' => s' = netPingSend s dstIp
  | .dns host, s' => s' = dnsQuery s host
  | .fetch host, s' => s' = (netHttpFetch s host).getD s
  | .reset, s' => s' = netHttpReset s

/-- After `n` calls of `net_poll` at most, with no frame, `net_tcp_busy` is false. -/
def IdleWithin (n : Nat) (s : NetState) : Prop :=
  ∃ k ≤ n, ∃ s', Run stackStep (fun _ _ => True) s (List.replicate k .poll) s' ∧
    netTcpBusy s' = false

structure TimerOk (s : NetState) : Prop where
  ticks : s.gTcpWaitTicks < TCP_RETRY_TICKS
  retries : s.gTcpRetries ≤ TCP_MAX_RETRIES
  /-- Both packets that a SYN-ACK calls for are sent at once. -/
  state : s.gTcpState ≠ 2

def NetState.ticksLeft (s : NetState) : Nat :=
  (TCP_MAX_RETRIES - s.gTcpRetries) * TCP_RETRY_TICKS + (TCP_RETRY_TICKS - s.gTcpWaitTicks)

variable {s s' : NetState} {f : Msg}

-- ---------------------------------------------------------------------------
-- The timer
-- ---------------------------------------------------------------------------

theorem ticksLeft_le (s : NetState) :
    s.ticksLeft ≤ (TCP_MAX_RETRIES + 1) * TCP_RETRY_TICKS := by
  simp only [NetState.ticksLeft, TCP_MAX_RETRIES, TCP_RETRY_TICKS]
  omega

theorem TimerOk.ticksLeft_pos (h : TimerOk s) : 0 < s.ticksLeft := by
  have := h.ticks
  rw [NetState.ticksLeft]
  omega

theorem tcpPollRetransmit_ticks (h : TimerOk s) (hs : s.gTcpState = 1 ∨ s.gTcpState = 3) :
    TimerOk (tcpPollRetransmit s) ∧ ((tcpPollRetransmit s).gTcpState = 7 ∨
      (tcpPollRetransmit s).gTcpState = s.gTcpState ∧
      (tcpPollRetransmit s).ticksLeft + 1 = s.ticksLeft) := by
  obtain ⟨hticks, hretries, hstate⟩ := h
  have hmod : (s.gTcpWaitTicks + 1) % 2 ^ 32 = s.gTcpWaitTicks + 1 := by
    refine Nat.mod_eq_of_lt ?_
    rw [TCP_RETRY_TICKS] at hticks
    omega
  rw [tcpPollRetransmit, if_neg (by omega)]
  dsimp only
  rw [hmod]
  split
  next hwait =>
    refine ⟨⟨hwait, hretries, hstate⟩, .inr ⟨rfl, ?_⟩⟩
    simp only [NetState.ticksLeft]
    omega
  next hdue =>
    split
    next hlimit =>
      exact ⟨⟨(by decide : 0 < TCP_RETRY_TICKS), hretries, (by decide : 7 ≠ 2)⟩, .inl rfl⟩
    next hmore =>
      have hagain : ∀ t : NetState, t.gTcpWaitTicks = 0 → t.gTcpRetries = s.gTcpRetries + 1 →
          t.gTcpState = s.gTcpState → TimerOk t ∧ (t.gTcpState = 7 ∨
            t.gTcpState = s.gTcpState ∧ t.ticksLeft + 1 = s.ticksLeft) := by
        intro t ht hr hst
        refine ⟨⟨?_, by omega, hst ▸ hstate⟩, .inr ⟨hst, ?_⟩⟩
        · rw [ht]
          decide
        · rw [NetState.ticksLeft, NetState.ticksLeft, ht, hr]
          simp only [TCP_MAX_RETRIES, TCP_RETRY_TICKS] at *
          omega
      split
      · exact hagain _ rfl rfl rfl
      · exact hagain _ rfl rfl rfl

theorem idleWithin_of_retried (h : TimerOk s) (hs : s.gTcpState = 1 ∨ s.gTcpState = 3) :
    IdleWithin s.ticksLeft s := by
  induction hleft : s.ticksLeft generalizing s with
  | zero => exact absurd h.ticksLeft_pos (by omega)
  | succ n ih =>
    obtain ⟨hok, h7 | ⟨hstate, hcount⟩⟩ := tcpPollRetransmit_ticks h hs
    · exact ⟨1, by omega, _, .cons trivial rfl .nil, by simp [netTcpBusy, h7]⟩
    · obtain ⟨k, hk, s', hrun, hidle⟩ := ih hok (hstate ▸ hs) (by omega)
      exact ⟨k + 1, by omega, s', .cons trivial rfl hrun, hidle⟩

theorem polls_receiving (hs : s.gTcpState = 4)
    (h : Run stackStep (fun _ _ => True) s (List.replicate k .poll) s') : s' = s := by
  induction k with
  | zero =>
    cases h
    rfl
  | succ k ih =>
    rcases h with _ | ⟨-, hstep, hrun⟩
    have hpoll : tcpPollRetransmit s = s := by rw [tcpPollRetransmit, if_pos (by omega)]
    cases hstep.symm.trans (congrArg some hpoll)
    exact ih hrun

-- ---------------------------------------------------------------------------
-- What else happens to the timer
-- ---------------------------------------------------------------------------

/-- The timer goes on or starts again, and the connection is not left between two packets. -/
structure TimerKept (s s' : NetState) : Prop where
  timer : (s'.gTcpWaitTicks = s.gTcpWaitTicks ∧ s'.gTcpRetries = s.gTcpRetries) ∨
    (s'.gTcpWaitTicks = 0 ∧ s'.gTcpRetries = 0)
  state : s.gTcpState ≠ 2 → s'.gTcpState ≠ 2

theorem TimerKept.of_eq (hticks : s'.gTcpWaitTicks = s.gTcpWaitTicks)
    (hretries : s'.gTcpRetries = s.gTcpRetries)
    (hstate : s'.gTcpState = s.gTcpState ∨ ∃ n ≠ 2, s'.gTcpState = n) : TimerKept s s' where
  timer := .inl ⟨hticks, hretries⟩
  state h := by
    obtain heq | ⟨n, hn, heq⟩ := hstate
    · exact heq ▸ h
    · exact heq ▸ hn

theorem TimerKept.refl (s : NetState) : TimerKept s s := .of_eq rfl rfl (.inl rfl)

theorem TimerKept.ok (h : TimerKept s s') (hs : TimerOk s) : TimerOk s' := by
  obtain ⟨hticks, hretries⟩ | ⟨hticks, hretries⟩ := h.timer
  · exact ⟨hticks ▸ hs.ticks, hretries ▸ hs.retries, h.state hs.state⟩
  · exact ⟨by rw [hticks]; decide, by rw [hretries]; decide, h.state hs.state⟩

theorem dnsQuery_timerKept (s : NetState) (host : Msg) : TimerKept s (dnsQuery s host) := by
  obtain h | h := dnsQuery_frame s host
  · rw [h]
    exact .refl s
  · rw [h]
    exact .of_eq rfl rfl (.inl rfl)

theorem tcpHttpStart_timerKept (s : NetState) (dstIp : Nat) :
    TimerKept s (tcpHttpStart s dstIp) := by
  rw [tcpHttpStart]
  split
  · exact .refl s
  · exact ⟨.inr ⟨rfl, rfl⟩, fun _ => (by decide : 1 ≠ 2)⟩

theorem dhcpReply_timerKept {o : DhcpOptions} (h : dhcpReply s f (dhcpAt f) o = some s') :
    TimerKept s s' := by
  obtain ⟨-, -, rfl⟩ | ⟨-, -, rfl⟩ | ⟨rfl, -⟩ := dhcpReply_cases h
  · exact .of_eq rfl rfl (.inl rfl)
  · exact .of_eq rfl rfl (.inl rfl)
  · exact .refl _

theorem tcpFin_timerKept (s : NetState) (seq flags len : Nat) :
    TimerKept s (tcpFin s seq flags len) := by
  by_cases hfin : flags &&& TCP_FLAG_FIN = 0
  · rw [tcpFin_none hfin]
    exact .refl s
  · obtain ⟨printed, htaken⟩ := tcpFin_frame s seq len hfin
    rw [htaken]
    exact .of_eq rfl rfl (.inr ⟨6, by decide, rfl⟩)

theorem tcpAcceptData_timerKept (h : tcpAcceptData s f seq off len = some s') :
    TimerKept s s' := by
  obtain ⟨body, done, printed, rfl⟩ := tcpAcceptData_frame h
  exact .of_eq rfl rfl (.inr ⟨4, by decide, rfl⟩)

theorem TimerKept.trans {s₁ : NetState} (h : TimerKept s s₁) (h' : TimerKept s₁ s') :
    TimerKept s s' where
  timer := by
    obtain ⟨hticks', hretries'⟩ | hzero := h'.timer
    · rw [hticks', hretries']
      exact h.timer
    · exact .inr hzero
  state hs := h'.state (h.state hs)

theorem tcpSegment_timerKept {ack : Nat} (h : tcpSegment s f seq ack flags off len = some s') :
    TimerKept s s' := by
  rw [tcpSegment] at h
  split at h
  · cases h
    exact .of_eq rfl rfl (.inr ⟨5, by decide, rfl⟩)
  split at h
  · cases h
    exact ⟨.inr ⟨rfl, rfl⟩, fun _ => (by decide : 3 ≠ 2)⟩
  split at h
  · split at h
    · cases h
      exact .of_eq rfl rfl (.inl rfl)
    · obtain ⟨s₁, hs₁, h⟩ := Option.bind_eq_some_iff.mp h
      cases h
      exact (tcpAcceptData_timerKept hs₁).trans (tcpFin_timerKept ..)
  · cases h
    exact tcpFin_timerKept ..

theorem netHandlePacket_timerKept (h : netHandlePacket s f = some s') : TimerKept s s' := by
  cases netHandlePacket_effect h with
  | drop => exact .refl s
  | arp sha => exact .of_eq rfl rfl (.inl rfl)
  | arpQuery sha =>
    have hfound : TimerKept s (s.gatewayFound sha) := .of_eq rfl rfl (.inl rfl)
    exact hfound.trans (dnsQuery_timerKept ..)
  | dhcp _ h => exact dhcpReply_timerKept h
  | dns ip =>
    have hanswer : TimerKept s { s with gDnsAnswerIp := ip, gHttpHost := s.gDnsHost.take 63 } :=
      .of_eq rfl rfl (.inl rfl)
    exact hanswer.trans (tcpHttpStart_timerKept ..)
  | icmp => exact .of_eq rfl rfl (.inl rfl)
  | tcp _ hseg => exact tcpSegment_timerKept hseg

-- ---------------------------------------------------------------------------
-- Runs
-- ---------------------------------------------------------------------------

theorem tcpPollRetransmit_ok (h : TimerOk s) : TimerOk (tcpPollRetransmit s) := by
  by_cases hs : s.gTcpState = 1 ∨ s.gTcpState = 3
  · exact (tcpPollRetransmit_ticks h hs).1
  · rw [tcpPollRetransmit, if_pos (by omega)]
    exact h

theorem netHttpReset_ok (s : NetState) : TimerOk (netHttpReset s) :=
  ⟨(by decide : 0 < TCP_RETRY_TICKS), Nat.zero_le _, (by decide : 0 ≠ 2)⟩

theorem stackStep_ok (h : TimerOk s) {a : StackAct} (hstep : stackStep s a s') : TimerOk s' := by
  cases a with
  | frame f => exact (netHandlePacket_timerKept hstep).ok h
  | poll =>
    cases hstep
    exact tcpPollRetransmit_ok h
  | ping dstIp =>
    cases hstep
    rw [netPingSend]
    split
    · exact h
    · exact ⟨h.ticks, h.retries, h.state⟩
  | dns host =>
    cases hstep
    exact (dnsQuery_timerKept s host).ok h
  | fetch host =>
    cases hstep
    rw [netHttpFetch]
    split
    · exact h
    · have hreset := netHttpReset_ok s
      refine (dnsQuery_timerKept _ host).ok ⟨hreset.ticks, hreset.retries, hreset.state⟩
  | reset =>
    cases hstep
    exact netHttpReset_ok s

theorem stack_timerOk (mac : Msg) (litNext : UInt8)
    (h : Run stackStep (fun _ _ => True) (netInit mac litNext) acts s) : TimerOk s :=
  h.invariant TimerOk ⟨(by decide : 0 < TCP_RETRY_TICKS), Nat.zero_le _, (by decide : 0 ≠ 2)⟩
    fun _ _ _ hs _ hstep => stackStep_ok hs hstep

/-- When the server falls silent, a busy stack comes to rest in time unless it is in the state in
which data arrive. -/
theorem silent_server_iff (mac : Msg) (litNext : UInt8)
    (h : Run stackStep (fun _ _ => True) (netInit mac litNext) acts s)
    (hbusy : netTcpBusy s = true) :
    IdleWithin ((TCP_MAX_RETRIES + 1) * TCP_RETRY_TICKS) s ↔ s.gTcpState ≠ 4 := by
  have hok := stack_timerOk mac litNext h
  constructor
  · rintro ⟨k, -, s', hrun, hidle⟩ h4
    rw [polls_receiving h4 hrun, hbusy] at hidle
    cases hidle
  · intro h4
    have hs : s.gTcpState = 1 ∨ s.gTcpState = 3 := by
      have h2 := hok.state
      simp only [netTcpBusy, decide_eq_true_eq] at hbusy
      omega
    obtain ⟨k, hk, hidle⟩ := idleWithin_of_retried hok hs
    exact ⟨k, Nat.le_trans hk (ticksLeft_le s), hidle⟩

-- ---------------------------------------------------------------------------
-- A server that sends the first half
-- ---------------------------------------------------------------------------

def gatewayReply : Msg :=
  [82, 84, 0, 18, 52, 86, 82, 85, 10, 0, 2, 2, 8, 6] ++
  [0, 1, 8, 0, 6, 4, 0, 2, 82, 85, 10, 0, 2, 2, 10, 0, 2, 2, 82, 84, 0, 18, 52, 86, 10, 0, 2, 15]

def halfAnswer : List Msg := [firstAck, gatewayReply, dnsAnswer, smallSynAck, smallFirst]

def handled : NetState → List Msg → Bool
  | _, [] => true
  | s, f :: fs => (netHandlePacket s f).isSome && handled (behind s f) fs

theorem handled_run {fs : List Msg} (h : handled s fs = true) :
    Run stackStep (fun _ _ => True) s (fs.map .frame) (fs.foldl behind s) := by
  induction fs generalizing s with
  | nil => exact .nil
  | cons f fs ih =>
    rw [handled, Bool.and_eq_true] at h
    exact .cons trivial (netStep_behind h.1) (ih h.2)

theorem halfAnswer_run : Run stackStep (fun _ _ => True) (netInit someMac 0)
    (halfAnswer.map .frame) (halfAnswer.foldl behind (netInit someMac 0)) :=
  handled_run (by decide +kernel)

theorem silent_server_iff_half :
    IdleWithin ((TCP_MAX_RETRIES + 1) * TCP_RETRY_TICKS)
      (halfAnswer.foldl behind (netInit someMac 0)) ↔
    (halfAnswer.foldl behind (netInit someMac 0)).gTcpState ≠ 4 :=
  silent_server_iff someMac 0 halfAnswer_run (by decide +kernel)

/-- Behind the first half of an answer the stack is busy for ever. -/
theorem halfAnswer_busy : ¬ ∀ (mac : Msg) (litNext : UInt8) (acts : List StackAct) (s : NetState),
    Run stackStep (fun _ _ => True) (netInit mac litNext) acts s → netTcpBusy s = true →
    IdleWithin ((TCP_MAX_RETRIES + 1) * TCP_RETRY_TICKS) s := by
  intro h
  have h4 : (halfAnswer.foldl behind (netInit someMac 0)).gTcpState = 4 := by decide +kernel
  have hbusy : netTcpBusy (halfAnswer.foldl behind (netInit someMac 0)) = true := by
    decide +kernel
  obtain ⟨k, -, s', hrun, hidle⟩ := h someMac 0 _ _ halfAnswer_run hbusy
  rw [polls_receiving h4 hrun, hbusy] at hidle
  cases hidle

end EponaOS.Net
