import EponaOS.Net.Checksum
import EponaOS.Net.TcpRun

/-!
# Segments that are not summed

`tcp_checksum_segment` has a buffer for 1500 bytes, and returns for a longer segment what it returns
for a right one. Which segments change the connection, and which of these were summed.
-/

namespace EponaOS.Net

open Msg

/-- The state of the connection, its numbers, the counters of HTTP and the body are as before. -/
structure SameTcp (s s' : NetState) : Prop where
  tcpState : s'.gTcpState = s.gTcpState
  tcpSeq : s'.gTcpSeq = s.gTcpSeq
  tcpAck : s'.gTcpAck = s.gTcpAck
  bytes : s'.gHttpBytes = s.gHttpBytes
  chunks : s'.gHttpChunks = s.gHttpChunks
  body : s'.gHttpBody = s.gHttpBody

def SegmentActs (s : NetState) (seq ack flags payloadLen : Nat) : Prop :=
  if flags &&& TCP_FLAG_RST ≠ 0 then s.gTcpState ≠ 5
  else if s.gTcpState = 1 ∧
      flags &&& (TCP_FLAG_SYN ||| TCP_FLAG_ACK) = TCP_FLAG_SYN ||| TCP_FLAG_ACK ∧
      ack = (s.gTcpSeq + 1) % 2 ^ 32 then True
  else if 3 ≤ s.gTcpState ∧ s.gTcpState ≤ 4 ∧ payloadLen > 0 then seq = s.gTcpAck
  else flags &&& TCP_FLAG_FIN ≠ 0 ∧
    ¬ (s.gTcpState = 6 ∧ s.gTcpAck = (seq + payloadLen + 1) % 2 ^ 32)

structure OfHeader (s : NetState) (f : Msg) (ihl ipTotal : Nat) : Prop where
  dst : loadAt f 30 = s.gLocalIp
  src : loadAt f 26 = s.gTcpRemoteIp
  length : ihl + TCP_HDR_LEN ≤ ipTotal
  srcPort : wordAt f (14 + ihl) = TCP_HTTP_PORT
  dstPort : wordAt f (14 + ihl + 2) = TCP_CLIENT_PORT
  header : 20 ≤ byteAt f (14 + ihl + 12) / 16 * 4
  fits : ihl + byteAt f (14 + ihl + 12) / 16 * 4 ≤ ipTotal

/-- A frame that changes the connection if its sum is taken for right. -/
def FrameActs (s : NetState) (f : Msg) (ihl ipTotal : Nat) : Prop :=
  OfHeader s f ihl ipTotal ∧
    SegmentActs s (dwordAt f (14 + ihl + 4)) (dwordAt f (14 + ihl + 8)) (byteAt f (14 + ihl + 13))
      (ipTotal - ihl - byteAt f (14 + ihl + 12) / 16 * 4)

/-- The frame has all bytes of the segment, and with the pseudo header they sum up to 0xFFFF. -/
def SumRight (f : Msg) (ihl ipTotal : Nat) : Prop :=
  ∃ addrs segment, getBytes f 26 8 = some addrs ∧
    getBytes f (14 + ihl) (ipTotal - ihl) = some segment ∧
    onesSum 65535 (checksumWords (addrs ++ [0, 6, UInt8.ofNat ((ipTotal - ihl) / 256),
      UInt8.ofNat (ipTotal - ihl)] ++ segment)) = 65535

variable {s s' : NetState} {f : Msg}

theorem SameTcp.refl (s : NetState) : SameTcp s s := ⟨rfl, rfl, rfl, rfl, rfl, rfl⟩

-- ---------------------------------------------------------------------------
-- What a segment changes
-- ---------------------------------------------------------------------------

theorem tcpAcceptData_chunks (h : tcpAcceptData s f seq payload len = some s') :
    s'.gHttpChunks = (s.gHttpChunks + 1) % 2 ^ 32 := by
  obtain ⟨body, done, printed, rfl⟩ := tcpAcceptData_frame h
  rfl

theorem tcpFin_chunks (s : NetState) (seq flags len : Nat) :
    (tcpFin s seq flags len).gHttpChunks = s.gHttpChunks := by
  by_cases hfin : flags &&& TCP_FLAG_FIN = 0
  · rw [tcpFin_none hfin]
  · obtain ⟨printed, htaken⟩ := tcpFin_frame s seq len hfin
    rw [htaken]
    rfl

theorem tcpFin_same : SameTcp s (tcpFin s seq flags len) ↔ ¬ (flags &&& TCP_FLAG_FIN ≠ 0 ∧
    ¬ (s.gTcpState = 6 ∧ s.gTcpAck = (seq + len + 1) % 2 ^ 32)) := by
  by_cases hfin : flags &&& TCP_FLAG_FIN = 0
  · rw [tcpFin_none hfin]
    exact ⟨fun _ hno => hno.1 hfin, fun _ => .refl s⟩
  · obtain ⟨printed, htaken⟩ := tcpFin_frame s seq len hfin
    rw [htaken]
    constructor
    · intro h hno
      exact hno.2 ⟨h.tcpState.symm, h.tcpAck.symm⟩
    · intro h
      obtain ⟨hstate, hack⟩ := Decidable.not_not.mp fun hno => h ⟨hfin, hno⟩
      exact ⟨hstate.symm, rfl, hack.symm, rfl, rfl, rfl⟩

theorem tcpSegment_same {ack : Nat} (h : tcpSegment s f seq ack flags payload len = some s') :
    SameTcp s s' ↔ ¬ SegmentActs s seq ack flags len := by
  rw [tcpSegment] at h
  rw [SegmentActs]
  split at h
  next hrst =>
    rw [if_pos hrst]
    cases h
    exact ⟨fun h => not_not_intro h.tcpState.symm,
      fun h => ⟨(Decidable.not_not.mp h).symm, rfl, rfl, rfl, rfl, rfl⟩⟩
  next hrst =>
    rw [if_neg hrst]
    split at h
    next hsyn =>
      rw [if_pos hsyn]
      cases h
      refine ⟨fun h => ?_, fun h => absurd trivial h⟩
      have hstate : 3 = s.gTcpState := h.tcpState
      omega
    next hsyn =>
      rw [if_neg hsyn]
      split at h
      next hdata =>
        rw [if_pos hdata]
        split at h
        next hseq =>
          cases h
          exact ⟨fun _ => hseq, fun _ => ⟨rfl, rfl, rfl, rfl, rfl, rfl⟩⟩
        next hseq =>
          obtain ⟨s₁, hs₁, h⟩ := Option.bind_eq_some_iff.mp h
          cases h
          refine ⟨fun h => ?_, fun h => absurd (Decidable.not_not.mp hseq) h⟩
          -- the counter of the chunks is another number modulo 2 ^ 32
          have hchunks := h.chunks
          rw [tcpFin_chunks, tcpAcceptData_chunks hs₁] at hchunks
          omega
      next hdata =>
        rw [if_neg hdata]
        cases h
        exact tcpFin_same

-- ---------------------------------------------------------------------------
-- What was summed
-- ---------------------------------------------------------------------------

theorem tcpChecksumSegment_zero (hlen : TCP_HDR_LEN ≤ ipTotal - ihl)
    (h : tcpChecksumSegment f 14 (14 + ihl) (ipTotal - ihl) = some sum) :
    sum = 0 ↔ 1500 < ipTotal - ihl ∨ SumRight f ihl ipTotal := by
  rw [tcpChecksumSegment] at h
  split at h
  next hlong =>
    cases h
    exact ⟨fun _ => .inl (by omega), fun _ => rfl⟩
  next hshort =>
    obtain ⟨addrs, haddrs, h⟩ := Option.bind_eq_some_iff.mp h
    obtain ⟨segment, hsegment, h⟩ := Option.bind_eq_some_iff.mp h
    cases h
    rw [checksum16_eq_zero]
    constructor
    · intro h
      exact .inr ⟨addrs, segment, haddrs, hsegment, h⟩
    · rintro (hlong | ⟨addrs', segment', haddrs', hsegment', h⟩)
      · omega
      · rw [haddrs] at haddrs'
        rw [hsegment] at hsegment'
        cases haddrs'
        cases hsegment'
        exact h

/-- `handle_tcp` drops the frame at its header or at its sum, or processes the segment. -/
theorem handleTcp_checks (h : handleTcp s f 14 ihl ipTotal = some s') :
    (¬ OfHeader s f ihl ipTotal ∧ s' = s) ∨ (OfHeader s f ihl ipTotal ∧ ∃ sum,
      tcpChecksumSegment f 14 (14 + ihl) (ipTotal - ihl) = some sum ∧
      (sum ≠ 0 ∧ s' = s ∨ sum = 0 ∧
        tcpSegment s f (dwordAt f (14 + ihl + 4)) (dwordAt f (14 + ihl + 8))
          (byteAt f (14 + ihl + 13)) (14 + ihl + byteAt f (14 + ihl + 12) / 16 * 4)
          (ipTotal - ihl - byteAt f (14 + ihl + 12) / 16 * 4) = some s')) := by
  have hdrop : ∀ {P : Prop}, some s = some s' → ¬ OfHeader s f ihl ipTotal →
      (¬ OfHeader s f ihl ipTotal ∧ s' = s) ∨ P := by
    intro P heq hno
    cases heq
    exact .inl ⟨hno, rfl⟩
  rw [handleTcp] at h
  obtain ⟨dst, hdst, h⟩ := Option.bind_eq_some_iff.mp h
  have hdst' : loadAt f 30 = dst := by rw [loadAt, hdst, Option.getD_some]
  split at h
  next hne => exact hdrop h fun hof => hne (hdst' ▸ hof.dst)
  next hdsteq =>
  obtain ⟨src, hsrc, h⟩ := Option.bind_eq_some_iff.mp h
  have hsrc' : loadAt f 26 = src := by rw [loadAt, hsrc, Option.getD_some]
  split at h
  next hne => exact hdrop h fun hof => hne (hsrc' ▸ hof.src)
  next hsrceq =>
  split at h
  next hlen => exact hdrop h fun hof => absurd hof.length (Nat.not_le_of_lt hlen)
  next hlen =>
  dsimp only at h
  obtain ⟨sport, hsport, h⟩ := Option.bind_eq_some_iff.mp h
  have hsport' : wordAt f (14 + ihl) = sport := by rw [wordAt, hsport, Option.getD_some]
  obtain ⟨dport, hdport, h⟩ := Option.bind_eq_some_iff.mp h
  have hdport' : wordAt f (14 + ihl + 2) = dport := by rw [wordAt, hdport, Option.getD_some]
  split at h
  next hports =>
    refine hdrop h fun hof => ?_
    obtain hne | hne := hports
    · exact hne (hsport' ▸ hof.srcPort)
    · exact hne (hdport' ▸ hof.dstPort)
  next hports =>
  obtain ⟨hsporteq, hdporteq⟩ := not_or.mp hports
  obtain ⟨off, hoff, h⟩ := Option.bind_eq_some_iff.mp h
  have hoff' : byteAt f (14 + ihl + 12) = off := by rw [byteAt, hoff, Option.getD_some]
  split at h
  next hhlen =>
    refine hdrop h fun hof => ?_
    have hheader := hof.header
    have hfits := hof.fits
    rw [hoff'] at hheader hfits
    omega
  next hhlen =>
  have hof : OfHeader s f ihl ipTotal :=
    ⟨hdst'.trans (Decidable.not_not.mp hdsteq), hsrc'.trans (Decidable.not_not.mp hsrceq),
      Nat.le_of_not_lt hlen, hsport'.trans (Decidable.not_not.mp hsporteq),
      hdport'.trans (Decidable.not_not.mp hdporteq), by omega, by omega⟩
  obtain ⟨sum, hsum, h⟩ := Option.bind_eq_some_iff.mp h
  split at h
  next hne =>
    cases h
    exact .inr ⟨hof, sum, hsum, .inl ⟨hne, rfl⟩⟩
  next heq =>
  obtain ⟨seq, hseq, h⟩ := Option.bind_eq_some_iff.mp h
  obtain ⟨ack, hack, h⟩ := Option.bind_eq_some_iff.mp h
  obtain ⟨flags, hflags, h⟩ := Option.bind_eq_some_iff.mp h
  refine .inr ⟨hof, sum, hsum, .inr ⟨Decidable.not_not.mp heq, ?_⟩⟩
  rw [dwordAt, dwordAt, byteAt, hoff', hseq, hack, hflags]
  exact h

theorem handleTcp_same (h : handleTcp s f 14 ihl ipTotal = some s') : ¬ SameTcp s s' ↔
    FrameActs s f ihl ipTotal ∧ (1500 < ipTotal - ihl ∨ SumRight f ihl ipTotal) := by
  obtain ⟨hno, rfl⟩ | ⟨hof, sum, hsum, hrest⟩ := handleTcp_checks h
  · exact iff_of_false (not_not_intro (.refl _)) fun hacts => hno hacts.1.1
  have hzero := tcpChecksumSegment_zero (Nat.le_sub_of_add_le' hof.length) hsum
  obtain ⟨hne, rfl⟩ | ⟨hsum0, hseg⟩ := hrest
  · exact iff_of_false (not_not_intro (.refl _)) fun hacts => hne (hzero.mpr hacts.2)
  · rw [tcpSegment_same hseg, not_not]
    exact ⟨fun hacts => ⟨⟨hof, hacts⟩, hzero.mp hsum0⟩, fun hacts => hacts.1.2⟩

/-- A frame changes the connection only if its segment is summed up right: that is so for the frames
that change nothing, the right ones, and all whose segment has no more than 1500 bytes. -/
theorem handleTcp_verified_iff (h : handleTcp s f 14 ihl ipTotal = some s') :
    (¬ SameTcp s s' → SumRight f ihl ipTotal) ↔
      ¬ FrameActs s f ihl ipTotal ∨ SumRight f ihl ipTotal ∨ ipTotal - ihl ≤ 1500 := by
  rw [handleTcp_same h]
  constructor
  · intro hclaim
    by_cases hlong : ipTotal - ihl ≤ 1500
    · exact .inr (.inr hlong)
    · by_cases hacts : FrameActs s f ihl ipTotal
      · exact .inr (.inl (hclaim ⟨hacts, .inl (Nat.lt_of_not_le hlong)⟩))
      · exact .inl hacts
  · rintro (hno | hsum | hshort) ⟨hacts, hsummed⟩
    · exact absurd hacts hno
    · exact hsum
    · exact hsummed.resolve_left (Nat.not_lt_of_le hshort)

theorem handleTcp_verified_first : ∃ s', handleTcp (behind (tcpHttpStart idleState smallServerIp)
      smallSynAck) smallFirst 14 20 42 = some s' ∧
    (¬ SameTcp (behind (tcpHttpStart idleState smallServerIp) smallSynAck) s' →
      SumRight smallFirst 20 42) := by
  obtain ⟨s', h⟩ := Option.isSome_iff_exists.mp (show (handleTcp (behind (tcpHttpStart idleState
    smallServerIp) smallSynAck) smallFirst 14 20 42).isSome = true by decide)
  exact ⟨s', h, (handleTcp_verified_iff h).mpr (.inr (.inr (by decide)))⟩

def longHeaders : Msg :=
  [82, 84, 0, 18, 52, 86, 82, 85, 10, 0, 2, 2, 8, 0] ++
  [69, 0, 5, 241, 0, 0, 0, 0, 64, 6, 0, 0, 93, 184, 216, 34, 10, 0, 2, 15]

def resetHeader : Msg := [0, 80, 192, 2, 0, 0, 0, 0, 0, 0, 0, 0, 80, 4, 0, 0, 0, 0, 0, 0]

def longReset : Msg := longHeaders ++ (resetHeader ++ List.replicate 1481 0)

theorem checksumWords_replicate (n : Nat) : checksumWords (List.replicate n 0) = 0 := by
  induction n using Nat.twoStepInduction with
  | zero => rfl
  | one => rfl
  | more n ih _ =>
    rw [List.replicate_succ, List.replicate_succ, checksumWords, ih]
    rfl

theorem longReset_wrong : ¬ SumRight longReset 20 1521 := by
  rintro ⟨addrs, segment, haddrs, hsegment, hsum⟩
  have haddrs' : getBytes longReset 26 8 = some [93, 184, 216, 34, 10, 0, 2, 15] := by
    have hsplit : longReset = longHeaders.take 26 ++ [93, 184, 216, 34, 10, 0, 2, 15] ++
        (resetHeader ++ List.replicate 1481 0) := rfl
    rw [hsplit]
    exact getBytes_append rfl rfl
  have hsegment' : getBytes longReset (14 + 20) (1521 - 20) =
      some (resetHeader ++ List.replicate 1481 0) := by
    have hsplit : longReset = longHeaders ++ (resetHeader ++ List.replicate 1481 0) ++ [] :=
      (List.append_nil _).symm
    rw [hsplit]
    refine getBytes_append rfl ?_
    rw [List.length_append, List.length_replicate]
    rfl
  rw [haddrs'] at haddrs
  rw [hsegment'] at hsegment
  cases haddrs
  cases hsegment
  rw [← List.append_assoc, checksumWords_append (by decide), checksumWords_replicate] at hsum
  exact absurd hsum (by decide)

/-- The reset is not right, and it ends the connection. -/
theorem longReset_accepted : ¬ ∀ (s s' : NetState) (f : Msg) (ihl ipTotal : Nat),
    handleTcp s f 14 ihl ipTotal = some s' → ¬ SameTcp s s' → SumRight f ihl ipTotal := by
  intro hall
  obtain ⟨s', h⟩ := Option.isSome_iff_exists.mp (show (handleTcp (tcpHttpStart idleState
    smallServerIp) longReset 14 20 1521).isSome = true by decide)
  have hacts : FrameActs (tcpHttpStart idleState smallServerIp) longReset 20 1521 := by
    refine ⟨⟨by decide, by decide, by decide, by decide, by decide, by decide, by decide⟩, ?_⟩
    rw [SegmentActs, if_pos (by decide)]
    decide
  exact longReset_wrong (hall _ s' _ _ _ h ((handleTcp_same h).mpr ⟨hacts, .inl (by decide)⟩))

end EponaOS.Net
