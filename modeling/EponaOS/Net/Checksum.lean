import EponaOS.Lib.OnesSum
import EponaOS.Net.Segment

/-!
# Checksums

What `build_ipv4` and `send_tcp_segment` write, byte by byte, and that it passes the check on the
other side. A check that holds stops to hold when a word is replaced, unless by the other zero.
-/

namespace EponaOS.Net

open Msg

-- ---------------------------------------------------------------------------
-- What is sent
-- ---------------------------------------------------------------------------

def put16 (v : Nat) : Msg := [UInt8.ofNat (v / 256), UInt8.ofNat v]

def put32 (v : Nat) : Msg := put16 (v / 65536) ++ put16 v

def store32 (v : Nat) : Msg :=
  [UInt8.ofNat v, UInt8.ofNat (v / 256), UInt8.ofNat (v / 65536), UInt8.ofNat (v / 16777216)]

def copyMac (mac : Msg) : Msg := (List.range ETH_ALEN).map fun i => mac.getD i 0

def ipv4Header (id src dst proto payloadLen checksum : Nat) : Msg :=
  [0x45, 0] ++ put16 (IPV4_HDR_LEN + payloadLen) ++ put16 id ++ put16 0x4000 ++
    [64, UInt8.ofNat proto] ++ put16 checksum ++ store32 src ++ store32 dst

/-- The header, and `g_ip_id` behind it. -/
def buildIpv4 (gIpId src dst proto payloadLen : Nat) : Msg × Nat :=
  let sum := checksum16 (ipv4Header gIpId src dst proto payloadLen 0)
  (ipv4Header gIpId src dst proto payloadLen sum, (gIpId + 1) % 2 ^ 16)

def tcpHeader (seq ack flags checksum : Nat) : Msg :=
  put16 TCP_CLIENT_PORT ++ put16 TCP_HTTP_PORT ++ put32 seq ++ put32 ack ++
    [0x50, UInt8.ofNat flags] ++ put16 4096 ++ put16 checksum ++ put16 0

/-- The frame for the card, and `g_ip_id` behind it; no frame where it does not fit in `pkt`. -/
def sendTcpSegment (s : NetState) (gIpId dstIp : Nat) (dstMac : Msg) (seq ack flags : Nat)
    (payload : Msg) : Option (Msg × Nat) := do
  let tcpLen := TCP_HDR_LEN + payload.length
  if ETH_HDR_LEN + (IPV4_HDR_LEN + tcpLen) > 640 then none
  let eth := copyMac dstMac ++ copyMac s.gMac ++ put16 ETH_P_IP
  let (ip, gIpId) := buildIpv4 gIpId s.gLocalIp dstIp IP_PROTO_TCP tcpLen
  let pkt := eth ++ ip ++ tcpHeader seq ack flags 0 ++ payload
  let sum ← tcpChecksumSegment pkt ETH_HDR_LEN (ETH_HDR_LEN + IPV4_HDR_LEN) tcpLen
  return (eth ++ ip ++ tcpHeader seq ack flags sum ++ payload, gIpId)

-- ---------------------------------------------------------------------------
-- Sums
-- ---------------------------------------------------------------------------

variable {a b d d' : Msg} {ack : Nat}

theorem foldCarry_eq (h : n ≤ k) : foldCarry k n = onesSum 65535 n := by
  induction k generalizing n with
  | zero =>
    obtain rfl := Nat.le_zero.mp h
    rfl
  | succ k ih =>
    rw [foldCarry]
    split
    next h0 => rw [onesSum_of_le (by omega)]
    next h0 =>
      -- the carries weigh 2 ^ 16, which is 1 more than the modulus
      have hmod : n % 2 ^ 16 + n / 2 ^ 16 ≡ n [MOD 65535] := by
        rw [Nat.ModEq]
        omega
      rw [ih (by omega), onesSum_congr (by omega) (by omega) hmod]

theorem checksum16_eq (d : Msg) : checksum16 d = 65535 - onesSum 65535 (checksumWords d) := by
  have hle : onesSum 65535 (checksumWords d) ≤ 65535 := onesSum_le (by decide) _
  rw [checksum16, foldCarry_eq (Nat.le_refl _), Nat.mod_eq_of_lt (by omega)]
  rfl

theorem checksum16_eq_zero : checksum16 d = 0 ↔ onesSum 65535 (checksumWords d) = 65535 := by
  have hle : onesSum 65535 (checksumWords d) ≤ 65535 := onesSum_le (by decide) _
  rw [checksum16_eq]
  omega

theorem checksumWords_append (h : a.length % 2 = 0) :
    checksumWords (a ++ b) = checksumWords a + checksumWords b := by
  induction a using checksumWords.induct with
  | case1 hi lo rest ih =>
    rw [List.length_cons, List.length_cons] at h
    rw [List.cons_append, List.cons_append, checksumWords, checksumWords, ih (by omega)]
    omega
  | case2 c => cases h
  | case3 => rw [List.nil_append, checksumWords, Nat.zero_add]

theorem checksumWords_le (d : Msg) : checksumWords d ≤ 65535 * ((d.length + 1) / 2) := by
  induction d using checksumWords.induct with
  | case1 hi lo rest ih =>
    have hhi := hi.toNat_lt
    have hlo := lo.toNat_lt
    rw [checksumWords, List.length_cons, List.length_cons]
    omega
  | case2 c =>
    have hc := c.toNat_lt
    rw [checksumWords, List.length_singleton]
    omega
  | case3 => exact Nat.zero_le _

theorem checksumWords_put16 (h : v < 2 ^ 16) : checksumWords (put16 v ++ b) = v + checksumWords b := by
  have hhi : (UInt8.ofNat (v / 256)).toNat = v / 256 := by
    rw [UInt8.toNat_ofNat']
    omega
  have hlo : (UInt8.ofNat v).toNat = v % 256 := UInt8.toNat_ofNat' ..
  simp only [put16, List.cons_append, List.nil_append, checksumWords, hhi, hlo]
  omega

@[simp] theorem put16_length (v : Nat) : (put16 v).length = 2 := rfl
@[simp] theorem put32_length (v : Nat) : (put32 v).length = 4 := rfl
@[simp] theorem store32_length (v : Nat) : (store32 v).length = 4 := rfl
@[simp] theorem copyMac_length (mac : Msg) : (copyMac mac).length = 6 := by simp [copyMac, ETH_ALEN]

@[simp] theorem ipv4Header_length : (ipv4Header gIpId src dst proto len sum).length = 20 := by
  simp [ipv4Header]

@[simp] theorem tcpHeader_length : (tcpHeader seq ack flags sum).length = 20 := by
  simp [tcpHeader]

/-- A checksum field in a message is counted like any other word, and the check is on all words: with
the sum of the message for a field of 0 in it the check holds. -/
theorem checksum16_field (ha : a.length % 2 = 0) (hpos : 0 < checksumWords (a ++ put16 0 ++ b)) :
    checksum16 (a ++ put16 (checksum16 (a ++ put16 0 ++ b)) ++ b) = 0 := by
  have hwords : ∀ v < 2 ^ 16, checksumWords (a ++ put16 v ++ b) =
      checksumWords (a ++ put16 0 ++ b) + v := by
    intro v hv
    rw [List.append_assoc, List.append_assoc, checksumWords_append ha, checksumWords_append ha,
      checksumWords_put16 hv, checksumWords_put16 (Nat.two_pow_pos 16)]
    omega
  rw [checksum16_eq_zero, hwords _ (by rw [checksum16_eq]; omega), checksum16_eq]
  exact onesSum_complement (by decide) hpos

theorem ipv4Header_sum : checksum16 (buildIpv4 gIpId src dst proto len).1 = 0 := by
  have hsplit : ∀ v, ipv4Header gIpId src dst proto len v =
      ([0x45, 0] ++ put16 (IPV4_HDR_LEN + len) ++ put16 gIpId ++ put16 0x4000 ++
        [64, UInt8.ofNat proto]) ++ put16 v ++ (store32 src ++ store32 dst) := by
    intro v
    rw [ipv4Header, List.append_assoc (_ ++ put16 v)]
  rw [buildIpv4]
  dsimp only
  rw [hsplit, hsplit]
  refine checksum16_field (by simp) ?_
  have h45 : (0x45 : UInt8).toNat = 69 := rfl
  simp only [List.append_assoc, List.cons_append, checksumWords, h45]
  omega

-- ---------------------------------------------------------------------------
-- The segment
-- ---------------------------------------------------------------------------

theorem getBytes_append (ha : a.length = i) (hb : b.length = n) :
    getBytes (a ++ b ++ c) i n = some b := by
  subst ha hb
  have hlen : a.length + b.length ≤ (a ++ b ++ c).length := by simp
  rw [getBytes, if_pos (.inr hlen), List.append_assoc, List.drop_left, List.take_left]

/-- What the sum of a segment is taken of, with `sum` in its checksum field. -/
def summedBytes (src dst seq ack flags sum : Nat) (payload : Msg) : Msg :=
  let tcpLen := TCP_HDR_LEN + payload.length
  store32 src ++ store32 dst ++ [0, 6, UInt8.ofNat (tcpLen / 256), UInt8.ofNat tcpLen] ++
    (tcpHeader seq ack flags sum ++ payload)

/-- `tcp_checksum_segment` of a frame with a header of `build_ipv4`. -/
theorem tcpChecksumSegment_sent (heth : eth.length = 14) (hlen : payload.length ≤ 1480) :
    tcpChecksumSegment (eth ++ (buildIpv4 gIpId src dst proto len).1 ++
      tcpHeader seq ack flags sum ++ payload) 14 34 (TCP_HDR_LEN + payload.length) =
    some (checksum16 (summedBytes src dst seq ack flags sum payload)) := by
  have hip : (buildIpv4 gIpId src dst proto len).1.length = 20 := ipv4Header_length
  have haddrs : getBytes (eth ++ (buildIpv4 gIpId src dst proto len).1 ++
      tcpHeader seq ack flags sum ++ payload) (14 + 12) 8 = some (store32 src ++ store32 dst) := by
    rw [buildIpv4]
    dsimp only
    rw [ipv4Header, List.append_assoc (_ ++ put16 (checksum16 _)), ← List.append_assoc eth,
      List.append_assoc _ (tcpHeader _ _ _ _)]
    exact getBytes_append (by simp [heth]) rfl
  have hseg : getBytes (eth ++ (buildIpv4 gIpId src dst proto len).1 ++
      tcpHeader seq ack flags sum ++ payload) 34 (TCP_HDR_LEN + payload.length) =
      some (tcpHeader seq ack flags sum ++ payload) := by
    have hsplit : eth ++ (buildIpv4 gIpId src dst proto len).1 ++ tcpHeader seq ack flags sum ++
        payload = eth ++ (buildIpv4 gIpId src dst proto len).1 ++
          (tcpHeader seq ack flags sum ++ payload) ++ [] := by simp
    rw [hsplit]
    exact getBytes_append (by rw [List.length_append, heth, hip]) (by simp [TCP_HDR_LEN])
  have hfits : ¬ (TCP_HDR_LEN + payload.length < TCP_HDR_LEN ∨
      TCP_HDR_LEN + payload.length > 1500) := by
    rw [TCP_HDR_LEN]
    omega
  rw [tcpChecksumSegment, if_neg hfits, haddrs, hseg]
  rfl

theorem summedBytes_sum (src dst seq ack flags : Nat) (payload : Msg) :
    checksum16 (summedBytes src dst seq ack flags
      (checksum16 (summedBytes src dst seq ack flags 0 payload)) payload) = 0 := by
  have hsplit : ∀ v, summedBytes src dst seq ack flags v payload =
      (store32 src ++ store32 dst ++
        [0, 6, UInt8.ofNat ((TCP_HDR_LEN + payload.length) / 256),
          UInt8.ofNat (TCP_HDR_LEN + payload.length)] ++
        (put16 TCP_CLIENT_PORT ++ put16 TCP_HTTP_PORT ++ put32 seq ++ put32 ack ++
          [0x50, UInt8.ofNat flags] ++ put16 4096)) ++ put16 v ++ (put16 0 ++ payload) := by
    intro v
    simp only [summedBytes, tcpHeader, List.append_assoc]
  rw [hsplit, hsplit]
  refine checksum16_field (by simp) ?_
  -- the protocol number is one of the words
  have h6 : (6 : UInt8).toNat = 6 := rfl
  rw [List.append_assoc, List.append_assoc, List.append_assoc, checksumWords_append (by simp)]
  simp only [List.cons_append, checksumWords, h6]
  omega

-- ---------------------------------------------------------------------------
-- Another word
-- ---------------------------------------------------------------------------

def OtherZero (hi lo hi' lo' : UInt8) : Prop :=
  (hi = 0 ∧ lo = 0 ∧ hi' = 255 ∧ lo' = 255) ∨ (hi = 255 ∧ lo = 255 ∧ hi' = 0 ∧ lo' = 0)

/-- A word of the first message is another one in the second. The last byte of an odd number of them
is the high one of a word. -/
inductive WordReplaced : Msg → Msg → Prop
  | word (a b : Msg) {hi lo hi' lo' : UInt8} (heven : a.length % 2 = 0)
      (hne : (hi, lo) ≠ (hi', lo')) (hzero : ¬ OtherZero hi lo hi' lo') :
      WordReplaced (a ++ hi :: lo :: b) (a ++ hi' :: lo' :: b)
  | last (a : Msg) {c c' : UInt8} (heven : a.length % 2 = 0) (hne : c ≠ c') :
      WordReplaced (a ++ [c]) (a ++ [c'])

theorem WordReplaced.length (h : WordReplaced d d') : d'.length = d.length := by
  cases h <;> simp

/-- The words as numbers, over the sum `n` of the others. -/
theorem WordReplaced.words (h : WordReplaced d d') : ∃ n w w', checksumWords d = n + w ∧
    checksumWords d' = n + w' ∧ w ≤ 65535 ∧ w' ≤ 65535 ∧ w ≠ w' ∧ ¬ (w = 0 ∧ w' = 65535) ∧
    ¬ (w = 65535 ∧ w' = 0) := by
  cases h with
  | @word a b hi lo hi' lo' heven hne hzero =>
    refine ⟨checksumWords a + checksumWords b, 256 * hi.toNat + lo.toNat,
      256 * hi'.toNat + lo'.toNat, ?_, ?_, ?_⟩
    · rw [checksumWords_append heven, checksumWords]
      omega
    · rw [checksumWords_append heven, checksumWords]
      omega
    · have hlt := hi.toNat_lt
      have hlt' := hi'.toNat_lt
      have hlt₁ := lo.toNat_lt
      have hlt₁' := lo'.toNat_lt
      refine ⟨by omega, by omega, fun heq => hne ?_, fun heq => hzero (.inl ?_),
        fun heq => hzero (.inr ?_)⟩
      · rw [UInt8.toNat_inj.mp (show hi.toNat = hi'.toNat by omega),
          UInt8.toNat_inj.mp (show lo.toNat = lo'.toNat by omega)]
      · exact ⟨UInt8.toNat_inj.mp (show _ = 0 by omega), UInt8.toNat_inj.mp (show _ = 0 by omega),
          UInt8.toNat_inj.mp (show _ = 255 by omega), UInt8.toNat_inj.mp (show _ = 255 by omega)⟩
      · exact ⟨UInt8.toNat_inj.mp (show _ = 255 by omega),
          UInt8.toNat_inj.mp (show _ = 255 by omega), UInt8.toNat_inj.mp (show _ = 0 by omega),
          UInt8.toNat_inj.mp (show _ = 0 by omega)⟩
  | @last a c c' heven hne =>
    refine ⟨checksumWords a, 256 * c.toNat, 256 * c'.toNat, ?_, ?_, ?_⟩
    · rw [checksumWords_append heven, checksumWords]
    · rw [checksumWords_append heven, checksumWords]
    · have hlt := c.toNat_lt
      have hlt' := c'.toNat_lt
      have hne' : c.toNat ≠ c'.toNat := fun heq => hne (UInt8.toNat_inj.mp heq)
      refine ⟨by omega, by omega, by omega, by omega, by omega⟩

theorem checksum16_replaced (h : WordReplaced d d') (hd : checksum16 d = 0) :
    checksum16 d' ≠ 0 := by
  obtain ⟨n, w, w', hw, hw', hle, hle', hne, hzero, hzero'⟩ := h.words
  rw [Ne, checksum16_eq_zero, hw']
  rw [checksum16_eq_zero, hw] at hd
  exact onesSum_replace (by decide) hle hle' hne hzero hzero' hd

-- ---------------------------------------------------------------------------
-- Round trip
-- ---------------------------------------------------------------------------

theorem buildIpv4_lengths (gIpId src dst proto : Nat) (heth : eth.length = 14)
    (hlen : 20 + len < 2 ^ 16) (rest : Msg) :
    ipHlen (eth ++ (buildIpv4 gIpId src dst proto len).1 ++ rest) = 20 ∧
      ipTotalLen (eth ++ (buildIpv4 gIpId src dst proto len).1 ++ rest) = 20 + len := by
  have hhi : (UInt8.ofNat ((20 + len) / 256)).toNat = (20 + len) / 256 := by
    rw [UInt8.toNat_ofNat']
    omega
  have hlo : (UInt8.ofNat (20 + len)).toNat = (20 + len) % 256 := UInt8.toNat_ofNat' ..
  have hhead : ∃ tail, eth ++ (buildIpv4 gIpId src dst proto len).1 ++ rest =
      eth ++ (0x45 :: 0 :: UInt8.ofNat ((20 + len) / 256) :: UInt8.ofNat (20 + len) :: tail) :=
    ⟨_, by rw [List.append_assoc]; rfl⟩
  obtain ⟨tail, htail⟩ := hhead
  rw [htail]
  constructor
  · simp [ipHlen, get8, heth]
  · simp only [ipTotalLen, get16, get8, List.getElem?_append_right, heth, Nat.reduceLeDiff,
      Nat.reduceSub, Nat.reduceAdd, List.getElem?_cons_succ, List.getElem?_cons_zero,
      Option.map_some, Option.bind_eq_bind, Option.bind_some, Option.pure_def, Option.getD_some,
      hhi, hlo]
    omega

theorem sendTcpSegment_verifies (hfits : payload.length ≤ 586) :
    ∃ frame gIpId', sendTcpSegment s gIpId dstIp dstMac seq ack flags payload =
        some (frame, gIpId') ∧
      frame.length = 54 + payload.length ∧ ipHlen frame = IPV4_HDR_LEN ∧
      ipTotalLen frame = 40 + payload.length ∧
      tcpChecksumSegment frame 14 (tcpAt frame) (ipTotalLen frame - ipHlen frame) = some 0 := by
  have heth : (copyMac dstMac ++ copyMac s.gMac ++ put16 ETH_P_IP).length = 14 := by simp
  have hip : ∀ len, (buildIpv4 gIpId s.gLocalIp dstIp IP_PROTO_TCP len).1.length = 20 :=
    fun _ => ipv4Header_length
  rw [sendTcpSegment]
  dsimp only
  rw [if_neg (by simp only [ETH_HDR_LEN, IPV4_HDR_LEN, TCP_HDR_LEN]; omega),
    show ETH_HDR_LEN + IPV4_HDR_LEN = 34 from rfl, show ETH_HDR_LEN = 14 from rfl,
    tcpChecksumSegment_sent heth (by omega)]
  refine ⟨_, _, rfl, ?_, ?_⟩
  · simp only [List.length_append, heth, hip, tcpHeader_length]
  · rw [List.append_assoc _ (tcpHeader _ _ _ _)]
    have hlen : 20 + (TCP_HDR_LEN + payload.length) < 2 ^ 16 := by
      rw [TCP_HDR_LEN]
      omega
    obtain ⟨hhlen, htotal⟩ := buildIpv4_lengths gIpId s.gLocalIp dstIp IP_PROTO_TCP heth hlen
      (tcpHeader seq ack flags _ ++ payload)
    refine ⟨hhlen, by rw [htotal, TCP_HDR_LEN]; omega, ?_⟩
    rw [tcpAt, hhlen, htotal, Nat.add_sub_cancel_left, ← List.append_assoc,
      tcpChecksumSegment_sent heth (by omega), summedBytes_sum]

/-- The headers and segments that are sent pass the check. A message of a length that fits in a
length field is summed up without overflow, and if its check holds it does not with another word in
it. -/
theorem checksums_hold (gIpId src dst proto len : Nat) (s : NetState) (dstIp : Nat) (dstMac : Msg)
    (seq ack flags : Nat) (payload d d' : Msg) :
    ((buildIpv4 gIpId src dst proto len).1.length = IPV4_HDR_LEN ∧
      checksum16 (buildIpv4 gIpId src dst proto len).1 = 0) ∧
    (54 + payload.length ≤ 640 →
      ∃ frame gIpId', sendTcpSegment s gIpId dstIp dstMac seq ack flags payload =
          some (frame, gIpId') ∧
        frame.length = 54 + payload.length ∧ ipHlen frame = IPV4_HDR_LEN ∧
        ipTotalLen frame = 40 + payload.length ∧
        tcpChecksumSegment frame 14 (tcpAt frame) (ipTotalLen frame - ipHlen frame) = some 0) ∧
    (d.length ≤ 65535 → checksum16 d = 0 → WordReplaced d d' →
      checksumWords d < 2 ^ 32 ∧ checksumWords d' < 2 ^ 32 ∧ checksum16 d' ≠ 0) := by
  refine ⟨⟨ipv4Header_length, ipv4Header_sum⟩, fun hfits => ?_, fun hlen hd h => ?_⟩
  · exact sendTcpSegment_verifies (by omega)
  · have hle := checksumWords_le d
    have hle' := checksumWords_le d'
    rw [h.length] at hle'
    exact ⟨by omega, by omega, checksum16_replaced h hd⟩

theorem checksums_hold_small : checksum16 (buildIpv4 1 251789322 583571037 6 23).1 = 0 ∧
    (∃ frame gIpId', sendTcpSegment (netInit [82, 84, 0, 18, 52, 86] 0) 1 583571037
        [82, 85, 10, 0, 2, 2] 5 6 24 [71, 69, 84] = some (frame, gIpId') ∧ frame.length = 57 ∧
      ipHlen frame = IPV4_HDR_LEN ∧ ipTotalLen frame = 43 ∧
      tcpChecksumSegment frame 14 (tcpAt frame) (ipTotalLen frame - ipHlen frame) = some 0) ∧
    checksum16 [255, 254] ≠ 0 := by
  obtain ⟨⟨-, hip⟩, hsent, hword⟩ := checksums_hold 1 251789322 583571037 6 23
    (netInit [82, 84, 0, 18, 52, 86] 0) 583571037 [82, 85, 10, 0, 2, 2] 5 6 24 [71, 69, 84]
    [255, 255] [255, 254]
  have hreplaced : WordReplaced [255, 255] [255, 254] :=
    .word [] [] rfl (by decide) (by unfold OtherZero; decide)
  exact ⟨hip, hsent (by decide), (hword (by decide) (by decide) hreplaced).2.2⟩

end EponaOS.Net
