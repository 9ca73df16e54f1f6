import EponaOS.Lib.Walk
import EponaOS.Net.Segment

/-!
# What is read of a frame

The length fields inside of a frame are checked against each other, and only the IPv4
header is checked against the frame. For each handler: what it needs of the frame, from
the fields that bound its reads, and that it needs just that.
-/

namespace EponaOS.Net

open Msg

variable {s : NetState} {f : Msg}

-- ---------------------------------------------------------------------------
-- DHCP
-- ---------------------------------------------------------------------------

/-- The cursor of `parse_dhcp_options` goes from `i` to `j`. -/
def OptionStep (f : Msg) (opt len i j : Nat) : Prop :=
  i < len ∧ byteAt f (opt + i) ≠ 255 ∧
    ((byteAt f (opt + i) = 0 ∧ j = i + 1) ∨
     (byteAt f (opt + i) ≠ 0 ∧ i + 1 < len ∧ i + 2 + byteAt f (opt + i + 1) ≤ len ∧
      j = i + 2 + byteAt f (opt + i + 1)))

def optionReads (code olen : Nat) : Nat :=
  if code = 53 ∧ olen ≥ 1 then 1
  else if (code = 54 ∨ code = 3 ∨ code = 6) ∧ olen ≥ 4 then 4
  else 0

def OptionFits (f : Msg) (opt len i : Nat) : Prop :=
  i < len → opt + i < f.length ∧
    (byteAt f (opt + i) ≠ 255 → byteAt f (opt + i) ≠ 0 → i + 1 < len →
      opt + i + 1 < f.length ∧ (i + 2 + byteAt f (opt + i + 1) ≤ len →
        opt + i + 2 + optionReads (byteAt f (opt + i)) (byteAt f (opt + i + 1)) ≤ f.length))

def DhcpFits (f : Msg) (udp udpPayloadLen : Nat) : Prop :=
  DHCP_PKT_LEN ≤ udpPayloadLen → udp + 8 < f.length ∧
    (byteAt f (udp + 8) = 2 → udp + 12 + 4 ≤ f.length ∧
      (dwordAt f (udp + 12) = DHCP_XID → udp + 8 + DHCP_PKT_LEN ≤ f.length ∧
        (dwordAt f (udp + 244) = DHCP_MAGIC → ∀ n i,
          Walk (OptionStep f (udp + 8 + DHCP_PKT_LEN) (udpPayloadLen - DHCP_PKT_LEN)) n 0 i →
            OptionFits f (udp + 8 + DHCP_PKT_LEN) (udpPayloadLen - DHCP_PKT_LEN) i)))

theorem dhcpOption_isSome {o : DhcpOptions} (h : value ≤ f.length) :
    (dhcpOption f value code olen o).isSome ↔ value + optionReads code olen ≤ f.length := by
  simp only [dhcpOption, optionReads, ite_isSome, get8_bind, load32_bind, Option.pure_def,
    Option.isSome_some, implies_true, and_true]
  split
  · omega
  · split <;> omega

theorem optionStep_lt (h : OptionStep f opt len i j) : i < j := by
  obtain ⟨-, -, ⟨-, rfl⟩ | ⟨-, -, -, rfl⟩⟩ := h
  · exact Nat.lt_succ_self i
  · omega

theorem parseDhcpOptions_rounds (o : DhcpOptions) :
    (parseDhcpOptions f opt len k i o).isSome ↔
      Rounds (OptionStep f opt len) (OptionFits f opt len) k i := by
  induction k generalizing i o with
  | zero => simp [parseDhcpOptions, Rounds]
  | succ k ih =>
    rw [parseDhcpOptions, Rounds]
    by_cases hi : i < len
    case neg => simp [hi, OptionFits, OptionStep]
    rw [if_pos hi, get8_bind]
    by_cases hin : opt + i < f.length
    case neg => simp [hin, hi, OptionFits]
    simp only [OptionFits, OptionStep, hi, hin, true_and, forall_const]
    generalize byteAt f (opt + i) = code
    by_cases hend : code = 255
    case pos => simp [hend]
    by_cases hpad : code = 0
    case pos => simp [hpad, ih]
    simp only [hend, hpad, if_false, ne_eq, not_false_eq_true, forall_const, true_and, false_and,
      false_or]
    by_cases hlast : i + 1 < len
    case neg => simp [hlast, Nat.not_lt.mp hlast]
    rw [if_neg (Nat.not_le.mpr hlast), get8_bind, Nat.add_assoc opt i 1]
    by_cases hin' : opt + (i + 1) < f.length
    case neg => simp [hlast, hin']
    simp only [hlast, hin', true_and, forall_const]
    generalize byteAt f (opt + (i + 1)) = olen
    by_cases hover : i + 2 + olen ≤ len
    case neg => simp [hover, show i + 1 + 1 + olen > len by omega]
    rw [if_neg (by omega), bind_isSome]
    have hval : (dhcpOption f (opt + (i + 1 + 1)) code olen o).isSome ↔
        opt + (i + 1 + 1) + optionReads code olen ≤ f.length := dhcpOption_isSome (by omega)
    simp only [ih, hover, true_and, forall_const, forall_eq, exists_and_right,
      ← Option.isSome_iff_exists, hval]
    rw [show opt + (i + 1 + 1) = opt + i + 2 by omega, show i + 1 + 1 + olen = i + 2 + olen by omega]

theorem rounds_options :
    Rounds (OptionStep f opt len) (OptionFits f opt len) len 0 ↔
      ∀ n i, Walk (OptionStep f opt len) n 0 i → OptionFits f opt len i := by
  rw [rounds_iff]
  constructor
  · intro h n i hw hi
    have := hw.le fun _ _ => optionStep_lt
    exact h n (by omega) i hw hi
  · exact fun h n _ i hw => h n i hw

theorem dhcpReply_isSome (h : dhcp + 20 ≤ f.length) : (dhcpReply s f dhcp o).isSome := by
  simp only [dhcpReply, ite_isSome, load32_bind, Option.isSome_some, Option.pure_def]
  refine ⟨fun _ => ⟨by omega, trivial⟩, fun _ => ⟨fun _ => ⟨by omega, trivial⟩, fun _ => trivial⟩⟩

theorem handleDhcp_isSome :
    (handleDhcp s f udp udpPayloadLen).isSome ↔ DhcpFits f udp udpPayloadLen := by
  simp only [handleDhcp, DhcpFits, ite_isSome, get8_bind, get32_bind, Option.pure_def,
    Option.isSome_some, implies_true, true_and, Nat.not_lt, ne_eq, Decidable.not_not, UDP_HDR_LEN,
    DHCP_PKT_LEN, Nat.add_assoc, Nat.reduceAdd]
  refine imp_congr_right fun _ => and_congr_right fun _ => imp_congr_right fun _ =>
    and_congr_right fun _ => imp_congr_right fun _ => and_congr_right fun hin =>
      imp_congr_right fun _ => ?_
  rw [bind_isSome_getD ⟨0, 0, 0, 0⟩, parseDhcpOptions_rounds, rounds_options]
  exact and_iff_left (dhcpReply_isSome (by omega))

-- ---------------------------------------------------------------------------
-- DNS
-- ---------------------------------------------------------------------------

/-- The cursor of `dns_skip_name` goes over a label. -/
def LabelStep (f : Msg) (msg len off off' : Nat) : Prop :=
  off < len ∧ byteAt f (msg + off) ≠ 0 ∧ byteAt f (msg + off) &&& 0xC0 = 0 ∧
    off' = off + 1 + byteAt f (msg + off) ∧ off' ≤ len

def NameFits (f : Msg) (msg len off : Nat) : Prop :=
  ∀ n < 65, ∀ off', Walk (LabelStep f msg len) n off off' → off' < len → msg + off' < f.length

theorem dnsSkipName_rounds :
    (dnsSkipName f msg len k off).isSome ↔
      Rounds (LabelStep f msg len) (fun off => off < len → msg + off < f.length) k off := by
  induction k generalizing off with
  | zero => simp [dnsSkipName, Rounds]
  | succ k ih =>
    rw [dnsSkipName, Rounds]
    by_cases hoff : off < len
    case neg => simp [hoff, LabelStep]
    rw [if_pos hoff, get8_bind]
    simp only [LabelStep, hoff, true_and, forall_const]
    refine and_congr_right fun hin => ?_
    generalize byteAt f (msg + off) = c
    by_cases hend : c = 0
    case pos => simp [hend]
    by_cases hptr : c &&& 0xC0 = 0xC0
    case pos => simp [hend, hptr]
    by_cases hlabel : c &&& 0xC0 = 0
    case neg => simp [hend, hptr, hlabel]
    by_cases hover : off + 1 + c ≤ len
    case neg => simp [hend, hlabel, hover, Nat.not_le.mp hover]
    cases k with
    | zero => simp [hend, hlabel, Rounds]
    | succ k => simp [hend, hlabel, hover, Nat.not_lt.mpr hover, ih]

theorem dnsSkipName_isSome : (dnsSkipName f msg len 65 off).isSome ↔ NameFits f msg len off := by
  rw [dnsSkipName_rounds, rounds_iff, NameFits]

def QuestionStep (f : Msg) (msg len off off' : Nat) : Prop :=
  ∃ e, dnsSkipName f msg len 65 off = some (some e) ∧ e + 4 ≤ len ∧ off' = e + 4

theorem dnsQuestions_rounds :
    (dnsQuestions f msg len k off).isSome ↔
      Rounds (QuestionStep f msg len) (NameFits f msg len) k off := by
  induction k generalizing off with
  | zero => simp [dnsQuestions, Rounds]
  | succ k ih =>
    rw [dnsQuestions, Rounds, ← dnsSkipName_isSome]
    cases hname : dnsSkipName f msg len 65 off with
    | none => simp
    | some name =>
      cases name with
      | none => simp [QuestionStep, hname]
      | some e =>
        by_cases hover : e + 4 ≤ len
        · simp [QuestionStep, hname, hover, Nat.not_lt.mpr hover, ih]
        · simp [QuestionStep, hname, hover, Nat.not_le.mp hover]

theorem dnsQuestions_walk :
    dnsQuestions f msg len k off = some (some off') ↔ Walk (QuestionStep f msg len) k off off' := by
  induction k generalizing off with
  | zero =>
    rw [dnsQuestions, Option.some.injEq, Option.some.injEq]
    constructor
    · rintro rfl
      exact .here
    · intro h
      cases h
      rfl
  | succ k ih =>
    rw [dnsQuestions]
    constructor
    · intro h
      obtain ⟨name, hname, h⟩ := Option.bind_eq_some_iff.mp h
      cases name with
      | none => cases h
      | some e =>
        dsimp only at h
        split at h
        · cases h
        · exact .move ⟨e, hname, by omega, rfl⟩ (ih.mp h)
    · intro h
      cases h with
      | move hm hw =>
        obtain ⟨e, hname, hlen, rfl⟩ := hm
        simp [hname, Nat.not_lt.mpr hlen, ih.mpr hw]

/-- The record behind the name that ends at `e` is the address that is asked for. -/
def IsAddress (f : Msg) (msg e : Nat) : Prop :=
  wordAt f (msg + e) = DNS_TYPE_A ∧ wordAt f (msg + e + 2) = DNS_CLASS_IN ∧
    wordAt f (msg + e + 8) = 4

def AnswerStep (f : Msg) (msg len off off' : Nat) : Prop :=
  ∃ e, dnsSkipName f msg len 65 off = some (some e) ∧ e + 10 ≤ len ∧
    off' = e + 10 + wordAt f (msg + e + 8) ∧ off' ≤ len ∧ ¬IsAddress f msg e

def AnswerFits (f : Msg) (msg len off : Nat) : Prop :=
  NameFits f msg len off ∧ ∀ e, dnsSkipName f msg len 65 off = some (some e) → e + 10 ≤ len →
    msg + e + 10 ≤ f.length ∧
      (e + 14 ≤ len → IsAddress f msg e → msg + e + 14 ≤ f.length)

theorem dnsAnswers_rounds :
    (dnsAnswers f msg len k off).isSome ↔
      Rounds (AnswerStep f msg len) (AnswerFits f msg len) k off := by
  induction k generalizing off with
  | zero => simp [dnsAnswers, Rounds]
  | succ k ih =>
    rw [dnsAnswers, Rounds, AnswerFits, ← dnsSkipName_isSome, bind_isSome_getD none, and_assoc]
    refine and_congr_right fun hsome => ?_
    obtain ⟨name, hname⟩ := Option.isSome_iff_exists.mp hsome
    cases name with
    | none => simp [AnswerStep, hname]
    | some e =>
      by_cases hlen : e + 10 ≤ len
      case neg => simp [AnswerStep, hname, hlen, Nat.not_le.mp hlen]
      have haddr : wordAt f (msg + e) = DNS_TYPE_A ∧ wordAt f (msg + e + 2) = DNS_CLASS_IN ∧
          wordAt f (msg + e + 8) = 4 ↔ IsAddress f msg e := Iff.rfl
      simp only [hname, Option.getD_some, Nat.not_lt.mpr hlen, if_false, get16_bind, load32_bind,
        ite_isSome, Option.pure_def, Option.isSome_some, haddr, AnswerStep, Option.some.injEq,
        Nat.not_lt, implies_true, true_and, and_true, ih]
      constructor
      · rintro ⟨-, -, hin, hnext⟩
        refine ⟨fun e' he => ?_, ?_⟩
        · cases he
          refine fun _ => ⟨hin, fun hle ha => ?_⟩
          have := ha.2.2
          exact (hnext (by omega)).1 ha
        · rintro _ ⟨e', he, -, rfl, hle, ha⟩
          cases he
          exact (hnext hle).2 ha
      · rintro ⟨hfits, hnext⟩
        have hin := (hfits e rfl hlen).1
        refine ⟨by omega, by omega, hin, fun hle => ⟨fun ha => ?_, fun ha => ?_⟩⟩
        · have := ha.2.2
          exact (hfits e rfl hlen).2 (by omega) ha
        · exact hnext _ ⟨e, rfl, hlen, rfl, hle, ha⟩

def DnsFits (f : Msg) (udp udpPayloadLen : Nat) : Prop :=
  DNS_HDR_LEN ≤ udpPayloadLen → udp + 8 + 2 ≤ f.length ∧
    (wordAt f (udp + 8) = DNS_XID → udp + 16 ≤ f.length ∧
      (∀ n < wordAt f (udp + 12), ∀ off,
        Walk (QuestionStep f (udp + 8) udpPayloadLen) n DNS_HDR_LEN off →
          NameFits f (udp + 8) udpPayloadLen off) ∧
      (∀ start, Walk (QuestionStep f (udp + 8) udpPayloadLen) (wordAt f (udp + 12)) DNS_HDR_LEN
          start →
        ∀ n < wordAt f (udp + 14), ∀ off,
          Walk (AnswerStep f (udp + 8) udpPayloadLen) n start off →
            AnswerFits f (udp + 8) udpPayloadLen off))

theorem handleDns_isSome :
    (handleDns s f udp udpPayloadLen).isSome ↔ DnsFits f udp udpPayloadLen := by
  simp only [handleDns, DnsFits, ite_isSome, get16_bind, Option.pure_def, Option.isSome_some,
    implies_true, true_and, Nat.not_lt, ne_eq, Decidable.not_not, UDP_HDR_LEN, Nat.add_assoc,
    Nat.reduceAdd]
  refine imp_congr_right fun _ => and_congr_right fun _ => imp_congr_right fun _ => ?_
  rw [and_iff_right_of_imp fun h => Nat.le_trans (by omega) h.1]
  refine and_congr_right fun _ => ?_
  rw [bind_isSome_getD none, dnsQuestions_rounds, rounds_iff]
  refine and_congr_right fun hq => ?_
  obtain ⟨questions, hq⟩ :=
    Option.isSome_iff_exists.mp (dnsQuestions_rounds.mpr (rounds_iff.mpr hq))
  rw [hq, Option.getD_some]
  cases questions with
  | none =>
    refine iff_of_true rfl fun start hw => ?_
    rw [dnsQuestions_walk.mpr hw] at hq
    cases hq
  | some off =>
    have hanswers : (∀ start, Walk (QuestionStep f (udp + 8) udpPayloadLen) (wordAt f (udp + 12))
        DNS_HDR_LEN start → Rounds (AnswerStep f (udp + 8) udpPayloadLen)
          (AnswerFits f (udp + 8) udpPayloadLen) (wordAt f (udp + 14)) start) ↔
        Rounds (AnswerStep f (udp + 8) udpPayloadLen)
          (AnswerFits f (udp + 8) udpPayloadLen) (wordAt f (udp + 14)) off := by
      constructor
      · exact fun h => h off (dnsQuestions_walk.mp hq)
      · intro h start hw
        have := dnsQuestions_walk.mpr hw
        rw [hq] at this
        cases this
        exact h
    simp only [rounds_iff] at hanswers
    rw [hanswers, ← rounds_iff, ← dnsAnswers_rounds]
    dsimp only
    rw [bind_isSome_getD none, and_iff_left]
    split <;> rfl

-- ---------------------------------------------------------------------------
-- UDP and ICMP
-- ---------------------------------------------------------------------------

def UdpFits (f : Msg) (ihl ipTotal : Nat) : Prop :=
  ihl + UDP_HDR_LEN ≤ ipTotal → 14 + ihl + 6 ≤ f.length ∧
    (UDP_HDR_LEN ≤ wordAt f (14 + ihl + 4) →
      (wordAt f (14 + ihl) = DHCP_SERVER_PORT ∧ wordAt f (14 + ihl + 2) = DHCP_CLIENT_PORT →
        DhcpFits f (14 + ihl) (wordAt f (14 + ihl + 4) - UDP_HDR_LEN)) ∧
      (wordAt f (14 + ihl) = DNS_PORT ∧ wordAt f (14 + ihl + 2) = DNS_CLIENT_PORT →
        DnsFits f (14 + ihl) (wordAt f (14 + ihl + 4) - UDP_HDR_LEN)))

theorem handleUdp_isSome : (handleUdp s f 14 ihl ipTotal).isSome ↔ UdpFits f ihl ipTotal := by
  have hports : wordAt f (14 + ihl) = DNS_PORT ∧ wordAt f (14 + ihl + 2) = DNS_CLIENT_PORT →
      ¬(wordAt f (14 + ihl) = DHCP_SERVER_PORT ∧ wordAt f (14 + ihl + 2) = DHCP_CLIENT_PORT) := by
    rintro ⟨h, -⟩ ⟨h', -⟩
    rw [h] at h'
    cases h'
  simp only [handleUdp, UdpFits, ite_isSome, get16_bind, Option.pure_def, Option.isSome_some,
    implies_true, true_and, and_true, Nat.not_lt, handleDhcp_isSome, handleDns_isSome]
  refine imp_congr_right fun _ => ?_
  constructor
  · rintro ⟨-, -, hin, h⟩
    exact ⟨hin, fun hlen => ⟨(h hlen).1, fun hdns => (h hlen).2 (hports hdns) hdns⟩⟩
  · rintro ⟨hin, h⟩
    exact ⟨by omega, by omega, hin, fun hlen => ⟨(h hlen).1, fun _ => (h hlen).2⟩⟩

def IcmpFits (f : Msg) (ihl ipTotal : Nat) : Prop :=
  ihl + ICMP_HDR_LEN ≤ ipTotal → 14 + ihl < f.length ∧
    (byteAt f (14 + ihl) = ICMP_ECHO_REPLY → 14 + ihl + 8 ≤ f.length)

theorem handleIcmp_isSome : (handleIcmp s f 14 ihl ipTotal).isSome ↔ IcmpFits f ihl ipTotal := by
  simp only [handleIcmp, IcmpFits, ite_isSome, get8_bind, get16_bind, Option.pure_def,
    Option.isSome_some, implies_true, true_and, and_true, Nat.not_lt, Nat.add_assoc, Nat.reduceAdd]

-- ---------------------------------------------------------------------------
-- TCP
-- ---------------------------------------------------------------------------

/-- What `http_store_body` copies is in the frame. -/
def StoreFits (s : NetState) (f : Msg) (off len : Nat) : Prop :=
  len = 0 ∨ s.gHttpBody.length ≥ HTTP_BODY_BUF_SIZE - 1 ∨
    off + min len (HTTP_BODY_BUF_SIZE - 1 - s.gHttpBody.length) ≤ f.length

def SearchStep (f : Msg) (payload i j : Nat) : Prop :=
  blankLineAt f (payload + i) = some false ∧ j = i + 1

def SearchFits (s : NetState) (f : Msg) (payload payloadLen i : Nat) : Prop :=
  (blankLineAt f (payload + i)).isSome ∧
    (blankLineAt f (payload + i) = some true →
      StoreFits s f (payload + i + 4) (payloadLen - i - 4))

def HttpFits (s : NetState) (f : Msg) (payload payloadLen : Nat) : Prop :=
  if s.gHttpHeadersDone then StoreFits s f payload payloadLen
  else ∀ n < payloadLen - 3, ∀ i, Walk (SearchStep f payload) n 0 i →
    SearchFits s f payload payloadLen i

theorem httpStoreBody_isSome : (httpStoreBody s f off len).isSome ↔ StoreFits s f off len := by
  simp only [httpStoreBody, StoreFits, ite_isSome, getBytes_bind, Option.pure_def,
    Option.isSome_some, implies_true, true_and, and_true]
  omega

theorem httpFindBody_rounds :
    (httpFindBody s f payload payloadLen k i).isSome ↔
      Rounds (SearchStep f payload) (SearchFits s f payload payloadLen) k i := by
  induction k generalizing i with
  | zero => simp [httpFindBody, Rounds]
  | succ k ih =>
    rw [httpFindBody, Rounds, SearchFits, bind_isSome_getD false, and_assoc]
    refine and_congr_right fun hread => ?_
    obtain ⟨found, hfound⟩ := Option.isSome_iff_exists.mp hread
    cases found with
    | true => simp [hfound, SearchStep, httpStoreBody_isSome, StoreFits]
    | false => simp [hfound, SearchStep, ih]

theorem httpProcessPayload_isSome :
    (httpProcessPayload s f payload payloadLen).isSome ↔ HttpFits s f payload payloadLen := by
  rw [httpProcessPayload, HttpFits, ← rounds_iff, ← httpFindBody_rounds]
  by_cases hdone : s.gHttpHeadersDone
  · rw [if_pos hdone, if_pos (show NetState.gHttpHeadersDone (s.emit _) = true from hdone),
      httpStoreBody_isSome]
    rfl
  · rw [if_neg hdone, if_neg (show ¬NetState.gHttpHeadersDone (s.emit _) = true from hdone),
      httpFindBody_rounds, httpFindBody_rounds]
    rfl

def PayloadFits (s : NetState) (f : Msg) (payload payloadLen : Nat) : Prop :=
  HttpFits s f payload payloadLen ∧ ((s.gHttpChunks + 1) % 2 ^ 32 ≤ 3 →
    min payloadLen 120 = 0 ∨ payload + min payloadLen 120 ≤ f.length)

theorem tcpAcceptData_isSome :
    (tcpAcceptData s f seq payload payloadLen).isSome ↔ PayloadFits s f payload payloadLen := by
  rw [tcpAcceptData, PayloadFits]
  dsimp only
  rw [bind_isSome_getD s, httpProcessPayload_isSome]
  refine and_congr_right fun hhttp => ?_
  obtain ⟨t, ht⟩ := Option.isSome_iff_exists.mp (httpProcessPayload_isSome.mpr hhttp)
  obtain ⟨body, done, rfl⟩ := httpProcessPayload_frame ht
  rw [ht, Option.getD_some, bind_isSome_getD [], printChunk]
  simp only [ite_isSome, getBytes_isSome, Option.isSome_some, Option.pure_def, implies_true,
    and_true]
  rfl

theorem payloadFits_of_le (h : payload + payloadLen ≤ f.length) :
    PayloadFits s f payload payloadLen := by
  refine ⟨?_, fun _ => .inr (by omega)⟩
  rw [HttpFits]
  split
  · exact .inr (.inr (by omega))
  · intro n hn i hw
    have hi : i = 0 + n := by
      clear hn
      generalize (0 : Nat) = start at hw
      induction hw with
      | here => rfl
      | move hm _ ih =>
        rw [ih, hm.2]
        omega
    refine ⟨?_, fun _ => .inr (.inr (by omega))⟩
    simp only [blankLineAt, get8_bind, ite_isSome, Option.pure_def, Option.isSome_some,
      implies_true, true_and, and_true]
    omega

theorem tcpSegment_isSome {ack : Nat} :
    (tcpSegment s f seq ack flags payload payloadLen).isSome ↔
      (flags &&& TCP_FLAG_RST = 0 → s.Receiving → 0 < payloadLen → seq = s.gTcpAck →
        PayloadFits s f payload payloadLen) := by
  have hrecv : 3 ≤ s.gTcpState ∧ s.gTcpState ≤ 4 ∧ 0 < payloadLen ↔
      s.Receiving ∧ 0 < payloadLen := by
    rw [NetState.Receiving]
    omega
  rw [tcpSegment]
  by_cases hrst : flags &&& TCP_FLAG_RST = 0
  case neg => simp [hrst]
  rw [if_neg (Decidable.not_not.mpr hrst)]
  simp only [hrst, forall_const]
  split
  case isTrue hsyn =>
    refine iff_of_true rfl fun hopen => absurd hsyn.1 ?_
    rw [NetState.Receiving] at hopen
    omega
  by_cases hdata : s.Receiving ∧ 0 < payloadLen
  case neg =>
    rw [if_neg (mt hrecv.mp hdata)]
    exact iff_of_true rfl fun hopen hpos => absurd ⟨hopen, hpos⟩ hdata
  rw [if_pos (hrecv.mpr hdata)]
  by_cases hseq : seq = s.gTcpAck
  case neg => simp [hseq]
  rw [if_neg (Decidable.not_not.mpr hseq), bind_isSome_getD s, tcpAcceptData_isSome]
  simp [hseq, hdata.1, hdata.2]

def TcpFits (s : NetState) (f : Msg) (ihl ipTotal : Nat) : Prop :=
  loadAt f 30 = s.gLocalIp → loadAt f 26 = s.gTcpRemoteIp → ihl + TCP_HDR_LEN ≤ ipTotal →
    14 + ihl + 4 ≤ f.length ∧
    (wordAt f (14 + ihl) = TCP_HTTP_PORT → wordAt f (14 + ihl + 2) = TCP_CLIENT_PORT →
      14 + ihl + 12 < f.length ∧
      (20 ≤ byteAt f (14 + ihl + 12) / 16 * 4 →
        ihl + byteAt f (14 + ihl + 12) / 16 * 4 ≤ ipTotal →
        (ipTotal - ihl ≤ 1500 → 14 + ipTotal ≤ f.length) ∧
        (1500 < ipTotal - ihl → 14 + ihl + 13 < f.length ∧
          (byteAt f (14 + ihl + 13) &&& TCP_FLAG_RST = 0 → s.Receiving →
            0 < ipTotal - ihl - byteAt f (14 + ihl + 12) / 16 * 4 →
            dwordAt f (14 + ihl + 4) = s.gTcpAck →
            PayloadFits s f (14 + ihl + byteAt f (14 + ihl + 12) / 16 * 4)
              (ipTotal - ihl - byteAt f (14 + ihl + 12) / 16 * 4)))))

theorem tcpChecksumSegment_isSome (h : 34 ≤ f.length) (hlen : 20 ≤ tcpLen) :
    (tcpChecksumSegment f 14 tcp tcpLen).isSome ↔ (tcpLen ≤ 1500 → tcp + tcpLen ≤ f.length) := by
  rw [tcpChecksumSegment, ite_isSome, getBytes_bind, getBytes_bind, TCP_HDR_LEN]
  simp only [Option.isSome_some, Option.pure_def, implies_true, true_and, and_true]
  omega

/-- A segment that is not summed is read as far as its header, and its data if they are
accepted. -/
theorem tcpChecksumSegment_long (h : 1500 < tcpLen) : tcpChecksumSegment f ip tcp tcpLen = some 0 :=
  if_pos (.inr h)

theorem handleTcp_isSome (h : 34 ≤ f.length) :
    (handleTcp s f 14 ihl ipTotal).isSome ↔ TcpFits s f ihl ipTotal := by
  simp only [handleTcp, TcpFits, load32_bind, get16_bind, get8_bind, ite_isSome, Option.pure_def,
    Option.isSome_some, implies_true, true_and, Nat.not_lt, ne_eq, Decidable.not_not, not_or,
    and_imp, Nat.reduceAdd]
  rw [and_iff_right h]
  refine imp_congr_right fun _ => ?_
  rw [and_iff_right (by omega)]
  refine imp_congr_right fun _ => imp_congr_right fun _ => ?_
  rw [← and_assoc, show 14 + ihl + 2 ≤ f.length ∧ 14 + ihl + 2 + 2 ≤ f.length ↔
    14 + ihl + 4 ≤ f.length by omega]
  refine and_congr_right fun _ => imp_congr_right fun _ => imp_congr_right fun _ =>
    and_congr_right fun _ => imp_congr_right fun hmin => imp_congr_right fun hmax => ?_
  generalize byteAt f (14 + ihl + 12) / 16 * 4 = hlen at hmin hmax
  by_cases hlong : 1500 < ipTotal - ihl
  · rw [tcpChecksumSegment_long hlong, bind_isSome_getD 0, and_iff_right Option.isSome_some,
      Option.getD_some, if_neg (by decide), get32_bind, get32_bind, get8_bind, tcpSegment_isSome]
    constructor
    · rintro ⟨-, -, hin, hfits⟩
      exact ⟨fun hs => absurd hlong (Nat.not_lt.mpr hs), fun _ => ⟨hin, hfits⟩⟩
    · rintro ⟨-, hl⟩
      obtain ⟨hin, hfits⟩ := hl hlong
      exact ⟨by omega, by omega, hin, hfits⟩
  · rw [bind_isSome_getD 0, tcpChecksumSegment_isSome h (by omega)]
    constructor
    · rintro ⟨hsum, -⟩
      exact ⟨fun hs => by have := hsum hs; omega, fun hl => absurd hl hlong⟩
    · rintro ⟨hs, -⟩
      have hin := hs (Nat.not_lt.mp hlong)
      refine ⟨fun _ => by omega, ?_⟩
      rw [ite_isSome, get32_bind, get32_bind, get8_bind, tcpSegment_isSome]
      exact ⟨fun _ => rfl, fun _ => ⟨by omega, by omega, by omega, fun _ _ _ _ =>
        payloadFits_of_le (by omega)⟩⟩

-- ---------------------------------------------------------------------------
-- The frame
-- ---------------------------------------------------------------------------

/-- The handler that an IPv4 frame goes to finds all that it reads in the frame. -/
def Ipv4Fits (s : NetState) (f : Msg) : Prop :=
  ETH_HDR_LEN + IPV4_HDR_LEN ≤ f.length → byteAt f 14 / 16 = 4 →
    20 ≤ ipHlen f → ETH_HDR_LEN + ipHlen f ≤ f.length → ipHlen f ≤ ipTotalLen f →
    (byteAt f 23 = IP_PROTO_UDP → UdpFits f (ipHlen f) (ipTotalLen f)) ∧
    (byteAt f 23 = IP_PROTO_TCP → TcpFits s f (ipHlen f) (ipTotalLen f)) ∧
    (byteAt f 23 = IP_PROTO_ICMP → loadAt f 30 = s.gLocalIp → IcmpFits f (ipHlen f) (ipTotalLen f))

def FrameFits (s : NetState) (f : Msg) : Prop :=
  ETH_HDR_LEN ≤ f.length → wordAt f 12 = ETH_P_IP →
    (f.take ETH_ALEN = List.replicate ETH_ALEN 0xFF ∨ f.take ETH_ALEN = s.gMac) → Ipv4Fits s f

theorem handleArp_isSome : (handleArp s f).isSome := by
  simp only [handleArp, ite_isSome, get16_bind, load32_bind, getBytes_bind, Option.pure_def,
    Option.isSome_some, implies_true, true_and, and_true, ETH_HDR_LEN, ARP_PKT_LEN, ETH_ALEN]
  omega

theorem handleIpv4_isSome : (handleIpv4 s f).isSome ↔ Ipv4Fits s f := by
  have hver : (get8 f 14).getD 0 = byteAt f 14 := rfl
  have htot : ipTotalLen f = wordAt f 16 := rfl
  simp only [handleIpv4, Ipv4Fits, ite_isSome, get8_bind, get16_bind, load32_bind, Option.pure_def,
    Option.isSome_some, implies_true, true_and, Nat.not_lt, ne_eq, Decidable.not_not, not_or,
    and_imp, ipHlen, hver, htot]
  simp only [ETH_HDR_LEN, IPV4_HDR_LEN, Nat.reduceAdd, handleUdp_isSome, handleIcmp_isSome]
  refine imp_congr_right fun hlen => ?_
  rw [and_iff_right (by omega)]
  refine imp_congr_right fun _ => imp_congr_right fun _ => imp_congr_right fun _ => ?_
  rw [and_iff_right (by omega)]
  refine imp_congr_right fun _ => ?_
  rw [and_iff_right (by omega), handleTcp_isSome hlen]
  refine and_congr_right fun _ => ?_
  have hudp : byteAt f 23 = IP_PROTO_TCP ∨ byteAt f 23 = IP_PROTO_ICMP →
      ¬byteAt f 23 = IP_PROTO_UDP := by
    rintro (h | h) <;> rw [h] <;> decide
  constructor
  · refine fun h => ⟨fun htcp => (h (hudp (.inl htcp))).1 htcp, fun hicmp hdst => ?_⟩
    exact ((h (hudp (.inr hicmp))).2 (by rw [hicmp]; decide)).2 hdst hicmp
  · exact fun h _ => ⟨h.1, fun _ => ⟨hlen, fun hdst hicmp => h.2 hicmp hdst⟩⟩

/-- Every read of `net_handle_packet` is in the frame just if the frame holds what the
addressed handler reads. -/
theorem netHandlePacket_isSome (s : NetState) (f : Msg) :
    (netHandlePacket s f).isSome ↔ FrameFits s f := by
  simp only [netHandlePacket, FrameFits, ite_isSome, get16_bind, getBytes_bind, Option.pure_def,
    Option.isSome_some, implies_true, true_and, and_true, Nat.not_lt, ne_eq, handleArp_isSome,
    handleIpv4_isSome]
  refine imp_congr_right fun hlen => ?_
  have hlen : 14 ≤ f.length := hlen
  have hdst : (getBytes f 0 ETH_ALEN).getD [] = f.take ETH_ALEN := by
    rw [getBytes, if_pos (.inr (by rw [ETH_ALEN]; omega))]
    rfl
  rw [and_iff_right (by omega), hdst]
  constructor
  · intro h hip hmac
    exact (h (by rw [hip]; decide) hip).2 fun hno => hmac.elim hno.1 hno.2
  · intro h _ hip
    refine ⟨.inr (by rw [ETH_ALEN]; omega), fun hmac => h hip ?_⟩
    rwa [← not_or, Decidable.not_not] at hmac

-- ---------------------------------------------------------------------------
-- A frame that ends early
-- ---------------------------------------------------------------------------

/-- A reply of a DHCP server that ends with its 60th byte, where its lengths say 500. -/
def shortReply : Msg :=
  List.replicate 6 0xFF ++ [82, 85, 10, 0, 2, 2, 8, 0] ++
  [69, 0, 1, 244, 0, 0, 0, 0, 64, 17, 0, 0, 10, 0, 2, 2, 255, 255, 255, 255] ++
  [0, 67, 0, 68, 1, 224, 0, 0] ++
  [2, 1, 6, 0, 233, 0, 192, 222, 0, 0, 0, 0, 0, 0, 0, 0, 10, 0]

/-- The magic number of the options is read behind its end. -/
theorem shortReply_read_outside : ¬ ∀ (s : NetState) (f : Msg), (netHandlePacket s f).isSome := by
  intro h
  have := h (netInit [82, 84, 0, 18, 52, 86] 0) shortReply
  revert this
  decide +kernel

end EponaOS.Net
