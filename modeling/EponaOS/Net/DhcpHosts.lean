import Mathlib.Logic.Function.Basic
import EponaOS.Net.DhcpHandshake

/-!
# Several hosts on one segment

Every client uses the one transaction id `DHCP_XID`, the server's replies are broadcast,
and `handle_dhcp` does not look at `chaddr`. Any host takes any other's acknowledgment.
-/

namespace EponaOS.Net

open Msg

structure DhcpServer where
  ip : Nat
  lease : Msg → Nat

/-- The frame `f` is the server's answer to the message `e` of the client `mac`. -/
def DhcpServer.Replies (srv : DhcpServer) (mac : Msg) (e : NetEvent) (f : Msg) : Prop :=
  dhcpChaddr f = mac ∧ dhcpYiaddr f = srv.lease mac ∧ (dhcpOptions f).serverIp = srv.ip ∧
    ((e = .dhcp DHCP_DISCOVER 0 0 ∧ (dhcpOptions f).msgType = DHCP_OFFER) ∨
      (e = .dhcp DHCP_REQUEST (srv.lease mac) srv.ip ∧ (dhcpOptions f).msgType = DHCP_ACK))

variable {ι : Type} [DecidableEq ι]

structure Lan (ι : Type) where
  hosts : ι → NetState
  replies : List Msg

inductive LanAct (ι : Type)
  /-- The server answers a message of host `i`, at any time after it, and again. -/
  | reply (i : ι) (f : Msg)
  /-- Some reply reaches host `i`. -/
  | deliver (i : ι) (f : Msg)
  /-- Anything else that happens to host `i`. -/
  | other (i : ι) (a : NetAct)

def Lan.setHost (s : Lan ι) (i : ι) (n : NetState) : Lan ι :=
  { s with hosts := Function.update s.hosts i n }

theorem Lan.setHost_self (s : Lan ι) (i : ι) (n : NetState) : (s.setHost i n).hosts i = n :=
  Function.update_self ..

theorem Lan.setHost_of_ne (s : Lan ι) (n : NetState) (h : j ≠ i) :
    (s.setHost i n).hosts j = s.hosts j := Function.update_of_ne h ..

def lanStep (srv : DhcpServer) (s : Lan ι) : LanAct ι → Lan ι → Prop
  | .reply i f, s' => (∃ e ∈ (s.hosts i).events, srv.Replies (s.hosts i).gMac e f) ∧
      s' = { s with replies := f :: s.replies }
  | .deliver i f, s' => f ∈ s.replies ∧
      ∃ n, netHandlePacket (s.hosts i) f = some n ∧ s' = s.setHost i n
  | .other i a, s' => (∀ f, a = .frame f → ¬ IsDhcpReply (s.hosts i).gMac f) ∧
      ∃ n, netStep (s.hosts i) a n ∧ s' = s.setHost i n

def Lan.boot (mac : ι → Msg) (litNext : ι → UInt8) : Lan ι :=
  ⟨fun i => netInit (mac i) (litNext i), []⟩

/-- An acknowledgment that would configure a host is for this host. -/
def OwnAck (s : Lan ι) : LanAct ι → Prop
  | .deliver i f => IsAck (s.hosts i) f → dhcpChaddr f = (s.hosts i).gMac
  | _ => True

-- ---------------------------------------------------------------------------
-- What else happens to a host
-- ---------------------------------------------------------------------------

theorem tcpPollRetransmit_dhcpKept (s : NetState) : DhcpKept s (tcpPollRetransmit s) := by
  rw [tcpPollRetransmit]
  split
  · exact .refl s
  dsimp only
  split
  · exact .of_events rfl ⟨rfl, rfl, rfl, rfl, rfl, rfl⟩
  split
  · exact .of_events rfl ⟨rfl, rfl, rfl, rfl, rfl, rfl⟩
  split
  · exact DhcpKept.sendTcp (.of_events rfl ⟨rfl, rfl, rfl, rfl, rfl, rfl⟩)
  · exact DhcpKept.sendTcp (.of_events rfl ⟨rfl, rfl, rfl, rfl, rfl, rfl⟩)

theorem netPingSend_dhcpKept (s : NetState) (ip : Nat) : DhcpKept s (netPingSend s ip) := by
  rw [netPingSend]
  split
  · exact .refl s
  · exact DhcpKept.emit (.of_events rfl ⟨rfl, rfl, rfl, rfl, rfl, rfl⟩) fun _ _ _ h => NetEvent.noConfusion h

theorem netStep_dhcpKept {s s' : NetState} (h : netStep s a s')
    (ha : ∀ f, a = .frame f → ¬ IsDhcpReply s.gMac f) : DhcpKept s s' := by
  cases a with
  | frame f =>
    obtain ⟨hack, -⟩ | ⟨-, hoffer, -⟩ | ⟨-, hkept⟩ := netHandlePacket_dhcp_cases h
    · exact absurd hack.1 (ha f rfl)
    · exact absurd hoffer.1 (ha f rfl)
    · exact hkept
  | timer =>
    rw [show s' = tcpPollRetransmit s from h]
    exact tcpPollRetransmit_dhcpKept s
  | ping ip =>
    rw [show s' = netPingSend s ip from h]
    exact netPingSend_dhcpKept s ip

-- ---------------------------------------------------------------------------
-- Every host has its own address
-- ---------------------------------------------------------------------------

/-- Each reply is for the client it names, and each host has the address of its own. -/
structure OwnLease (srv : DhcpServer) (mac : ι → Msg) (s : Lan ι) : Prop where
  gMac : ∀ i, (s.hosts i).gMac = mac i
  replies : ∀ f ∈ s.replies, dhcpYiaddr f = srv.lease (dhcpChaddr f)
  localIp : ∀ i, (s.hosts i).gDhcpConfigured = true → (s.hosts i).gLocalIp = srv.lease (mac i)

variable {srv : DhcpServer} {mac : ι → Msg} {s s' : Lan ι}

theorem OwnLease.setHost (h : OwnLease srv mac s) (hmac : n.gMac = (s.hosts i).gMac)
    (hlocal : n.gDhcpConfigured = true → n.gLocalIp = srv.lease (mac i)) :
    OwnLease srv mac (s.setHost i n) := by
  refine ⟨fun j => ?_, h.replies, fun j hconf => ?_⟩ <;> by_cases hj : j = i
  · subst hj
    rw [Lan.setHost_self, hmac, h.gMac]
  · rw [s.setHost_of_ne n hj, h.gMac]
  · subst hj
    rw [Lan.setHost_self] at hconf ⊢
    exact hlocal hconf
  · rw [s.setHost_of_ne n hj] at hconf ⊢
    exact h.localIp j hconf

theorem OwnLease.kept (h : OwnLease srv mac s) (hk : DhcpKept (s.hosts i) n) :
    OwnLease srv mac (s.setHost i n) := by
  refine h.setHost hk.mac fun hconf => ?_
  rw [hk.localIp]
  exact h.localIp i (hk.configured.symm.trans hconf)

theorem OwnLease.deliver (h : OwnLease srv mac s) (hf : f ∈ s.replies)
    (hown : OwnAck s (.deliver i f)) (hn : netHandlePacket (s.hosts i) f = some n) :
    OwnLease srv mac (s.setHost i n) := by
  obtain ⟨hack, rfl⟩ | ⟨-, -, rfl⟩ | ⟨-, hkept⟩ := netHandlePacket_dhcp_cases hn
  · refine h.setHost rfl fun _ => ?_
    have hip : dhcpYiaddr f = srv.lease (mac i) := by
      rw [h.replies f hf, hown hack, h.gMac]
    exact hip
  · refine h.setHost rfl fun hconf => ?_
    exact h.localIp i hconf
  · exact h.kept hkept

theorem OwnLease.step (h : OwnLease srv mac s) (hok : OwnAck s a) (hs : lanStep srv s a s') :
    OwnLease srv mac s' := by
  cases a with
  | reply i f =>
    obtain ⟨⟨e, -, hchaddr, hyiaddr, -⟩, rfl⟩ := hs
    refine ⟨h.gMac, fun g hg => ?_, h.localIp⟩
    rcases List.mem_cons.mp hg with rfl | hg
    · rw [hchaddr, hyiaddr]
    · exact h.replies g hg
  | deliver i f =>
    obtain ⟨hf, n, hn, rfl⟩ := hs
    exact h.deliver hf hok hn
  | other i a =>
    obtain ⟨ha, n, hn, rfl⟩ := hs
    exact h.kept (netStep_dhcpKept hn ha)

omit [DecidableEq ι] in
theorem boot_ownLease (srv : DhcpServer) (mac : ι → Msg) (litNext : ι → UInt8) :
    OwnLease srv mac (.boot mac litNext) where
  gMac := fun _ => rfl
  replies := fun _ hf => absurd hf List.not_mem_nil
  localIp := fun _ hconf => Bool.noConfusion hconf

/-- Where each host is configured by an acknowledgment for its own MAC address, no two hosts
have one address. -/
theorem addresses_distinct (srv : DhcpServer) (mac : ι → Msg) (litNext : ι → UInt8)
    (hlease : Function.Injective fun i => srv.lease (mac i)) (acts : List (LanAct ι))
    (h : Run (lanStep srv) OwnAck (.boot mac litNext) acts s) (i j : ι)
    (hi : (s.hosts i).gDhcpConfigured = true) (hj : (s.hosts j).gDhcpConfigured = true)
    (hij : i ≠ j) : (s.hosts i).gLocalIp ≠ (s.hosts j).gLocalIp := by
  have hown : OwnLease srv mac s :=
    h.invariant _ (boot_ownLease srv mac litNext) fun _ _ _ hinv hok hs => hinv.step hok hs
  rw [hown.localIp i hi, hown.localIp j hj]
  exact fun heq => hij (hlease heq)

-- ---------------------------------------------------------------------------
-- Two hosts
-- ---------------------------------------------------------------------------

def twoMacs : Bool → Msg
  | false => someMac
  | true => [82, 84, 0, 18, 52, 99]

def twoLeases : DhcpServer where
  ip := 33685514
  lease := fun mac => if mac = someMac then 251789322 else 268566538

theorem twoLeases_injective : Function.Injective fun i => twoLeases.lease (twoMacs i) := by
  intro i j h
  revert i j
  decide

def twoHosts : Lan Bool := .boot twoMacs fun _ => 0

def secondOffer : Msg := dhcpFrame (twoMacs true) [10, 0, 2, 16] [10, 0, 2, 2] 2
def secondAck : Msg := dhcpFrame (twoMacs true) [10, 0, 2, 16] [10, 0, 2, 2] 5

def lanBehind (s : Lan Bool) : LanAct Bool → Lan Bool
  | .reply _ f => { s with replies := f :: s.replies }
  | .deliver i f => s.setHost i (behind (s.hosts i) f)
  | .other _ _ => s

theorem lanStep_reply {s : Lan Bool} (he : e ∈ (s.hosts i).events)
    (hreply : twoLeases.Replies (s.hosts i).gMac e f) :
    lanStep twoLeases s (.reply i f) (lanBehind s (.reply i f)) := ⟨⟨e, he, hreply⟩, rfl⟩

theorem lanStep_deliver {s : Lan Bool} (hf : f ∈ s.replies)
    (h : (netHandlePacket (s.hosts i) f).isSome = true) :
    lanStep twoLeases s (.deliver i f) (lanBehind s (.deliver i f)) :=
  ⟨hf, _, netStep_behind h, rfl⟩

def firstAsked : Lan Bool :=
  lanBehind (lanBehind (lanBehind twoHosts (.reply false firstOffer))
    (.deliver false firstOffer)) (.reply false firstAck)

theorem firstAsked_run {ok : Lan Bool → LanAct Bool → Prop} (hreply : ∀ s i f, ok s (.reply i f))
    (hoffer : ok (lanBehind twoHosts (.reply false firstOffer)) (.deliver false firstOffer)) :
    Run (lanStep twoLeases) ok twoHosts
      [.reply false firstOffer, .deliver false firstOffer, .reply false firstAck] firstAsked := by
  refine .cons (hreply ..) (lanStep_reply (List.mem_singleton.mpr rfl) ?_) <|
    .cons hoffer (lanStep_deliver (List.mem_singleton.mpr rfl) (by decide +kernel)) <|
    .cons (hreply ..) (lanStep_reply
      (by decide +kernel : .dhcp DHCP_REQUEST 251789322 33685514 ∈ _) ?_) .nil
  · exact ⟨by decide +kernel, by decide +kernel, by decide +kernel, .inl ⟨rfl, by decide +kernel⟩⟩
  · exact ⟨by decide +kernel, by decide +kernel, by decide +kernel,
      .inr ⟨by decide +kernel, by decide +kernel⟩⟩

def secondAsked : Lan Bool :=
  lanBehind (lanBehind (lanBehind (lanBehind firstAsked (.deliver false firstAck))
    (.reply true secondOffer)) (.deliver true secondOffer)) (.reply true secondAck)

theorem secondAsked_run : Run (lanStep twoLeases) OwnAck firstAsked
    [.deliver false firstAck, .reply true secondOffer, .deliver true secondOffer,
      .reply true secondAck] secondAsked := by
  refine .cons (fun _ => by decide +kernel)
      (lanStep_deliver (List.mem_cons_self ..) (by decide +kernel)) <|
    .cons trivial (lanStep_reply (List.mem_singleton.mpr rfl) ?_) <|
    .cons (fun _ => by decide +kernel)
      (lanStep_deliver (List.mem_cons_self ..) (by decide +kernel)) <|
    .cons trivial (lanStep_reply
      (by decide +kernel : .dhcp DHCP_REQUEST 268566538 33685514 ∈ _) ?_) .nil
  · exact ⟨by decide +kernel, by decide +kernel, by decide +kernel, .inl ⟨rfl, by decide +kernel⟩⟩
  · exact ⟨by decide +kernel, by decide +kernel, by decide +kernel,
      .inr ⟨by decide +kernel, by decide +kernel⟩⟩

theorem addresses_distinct_twoHosts :
    ((lanBehind secondAsked (.deliver true secondAck)).hosts false).gLocalIp ≠
      ((lanBehind secondAsked (.deliver true secondAck)).hosts true).gLocalIp := by
  have hask : Run (lanStep twoLeases) OwnAck twoHosts _ firstAsked :=
    firstAsked_run (fun _ _ _ => trivial) fun _ => by decide +kernel
  have hlast : Run (lanStep twoLeases) OwnAck secondAsked [.deliver true secondAck]
      (lanBehind secondAsked (.deliver true secondAck)) :=
    .cons (fun _ => by decide +kernel)
      (lanStep_deliver (List.mem_cons_self ..) (by decide +kernel)) .nil
  exact addresses_distinct twoLeases twoMacs (fun _ => 0) twoLeases_injective _
    (hask.append (secondAsked_run.append hlast)) false true (by decide +kernel) (by decide +kernel)
    (by decide)

theorem two_hosts_one_address : ∃ acts s,
    Run (lanStep twoLeases) (fun _ _ => True) twoHosts acts s ∧
      (s.hosts false).gDhcpConfigured = true ∧ (s.hosts true).gDhcpConfigured = true ∧
      (s.hosts false).gLocalIp = (s.hosts true).gLocalIp := by
  have hask : Run (lanStep twoLeases) (fun _ _ => True) twoHosts _ firstAsked :=
    firstAsked_run (fun _ _ _ => trivial) trivial
  have hboth : Run (lanStep twoLeases) (fun _ _ => True) firstAsked
      [.deliver false firstAck, .deliver true firstAck]
      (lanBehind (lanBehind firstAsked (.deliver false firstAck)) (.deliver true firstAck)) :=
    .cons trivial (lanStep_deliver (List.mem_cons_self ..) (by decide +kernel)) <|
      .cons trivial (lanStep_deliver (List.mem_cons_self ..) (by decide +kernel)) .nil
  exact ⟨_, _, hask.append hboth, by decide +kernel, by decide +kernel, by decide +kernel⟩

end EponaOS.Net
