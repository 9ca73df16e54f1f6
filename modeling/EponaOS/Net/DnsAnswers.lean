import EponaOS.Net.DnsNames
import EponaOS.Net.Reads
import EponaOS.Net.TcpRun

/-!
# What is taken of a DNS message

`handle_dns` depends on nothing but the bytes of the message. Of one that is a sequence of questions
and records it takes the address of the first answer that has one.
-/

namespace EponaOS.Net

open Msg

-- ---------------------------------------------------------------------------
-- Messages
-- ---------------------------------------------------------------------------

structure DnsQuestion where
  name : DnsName
  short : name.labels.length ≤ 64
  type : UInt16
  klass : UInt16

structure DnsRecord where
  name : DnsName
  short : name.labels.length ≤ 64
  type : UInt16
  klass : UInt16
  ttl : UInt32
  rdata : Msg
  rdataLt : rdata.length < 2 ^ 16

/-- A message with the id of the client. The sections behind the answers are not looked at. -/
structure DnsMessage where
  flags : UInt16
  questions : List DnsQuestion
  answers : List DnsRecord
  nscount : UInt16
  arcount : UInt16
  others : Msg
  questionsLt : questions.length < 2 ^ 16
  answersLt : answers.length < 2 ^ 16

def DnsQuestion.bytes (q : DnsQuestion) : Msg :=
  q.name.bytes ++ (put16 q.type.toNat ++ put16 q.klass.toNat)

def DnsRecord.fields (r : DnsRecord) : Msg :=
  put16 r.type.toNat ++ put16 r.klass.toNat ++ put32 r.ttl.toNat ++ put16 r.rdata.length

def DnsRecord.bytes (r : DnsRecord) : Msg := r.name.bytes ++ (r.fields ++ r.rdata)

def DnsMessage.header (m : DnsMessage) : Msg :=
  put16 DNS_XID ++ put16 m.flags.toNat ++ put16 m.questions.length ++ put16 m.answers.length ++
    put16 m.nscount.toNat ++ put16 m.arcount.toNat

def DnsMessage.bytes (m : DnsMessage) : Msg :=
  m.header ++ (m.questions.flatMap DnsQuestion.bytes ++
    (m.answers.flatMap DnsRecord.bytes ++ m.others))

def DnsRecord.isAddress (r : DnsRecord) : Bool :=
  r.type.toNat = DNS_TYPE_A ∧ r.klass.toNat = DNS_CLASS_IN ∧ r.rdata.length = 4

def DnsRecord.address (r : DnsRecord) : Nat := loadAt r.rdata 0

variable {f f' : Msg} {s s' : NetState}

-- ---------------------------------------------------------------------------
-- Only the message is read
-- ---------------------------------------------------------------------------

theorem dnsSkipName_same (h : SameBytes f i f' i' len) :
    dnsSkipName f i len k off = dnsSkipName f' i' len k off := by
  induction k generalizing off with
  | zero => rfl
  | succ k ih =>
    rw [dnsSkipName, dnsSkipName]
    by_cases hoff : off < len
    · rw [if_pos hoff, if_pos hoff, h.get8 hoff]
      simp only [ih]
    · rw [if_neg hoff, if_neg hoff]

theorem dnsQuestions_same (h : SameBytes f i f' i' len) :
    dnsQuestions f i len k off = dnsQuestions f' i' len k off := by
  induction k generalizing off with
  | zero => rfl
  | succ k ih => simp only [dnsQuestions, dnsSkipName_same h, ih]

theorem dnsAnswers_same (h : SameBytes f i f' i' len) :
    dnsAnswers f i len k off = dnsAnswers f' i' len k off := by
  induction k generalizing off with
  | zero => rfl
  | succ k ih =>
    rw [dnsAnswers, dnsAnswers, dnsSkipName_same h]
    refine congrArg _ (funext fun name => ?_)
    cases name with
    | none => rfl
    | some off =>
      dsimp only
      by_cases hlen : off + 10 > len
      · rw [if_pos hlen, if_pos hlen]
      rw [if_neg hlen, if_neg hlen, h.get16 (by omega), Nat.add_assoc i, Nat.add_assoc i',
        h.get16 (by omega), Nat.add_assoc i, Nat.add_assoc i', h.get16 (by omega)]
      refine congrArg _ (funext fun type => congrArg _ (funext fun klass =>
        congrArg _ (funext fun rdlen => ?_)))
      by_cases hdata : off + 10 + rdlen > len
      · rw [if_pos hdata, if_pos hdata]
      rw [if_neg hdata, if_neg hdata, ih]
      by_cases haddr : type = DNS_TYPE_A ∧ klass = DNS_CLASS_IN ∧ rdlen = 4
      · rw [if_pos haddr, if_pos haddr, h.load32 (by omega)]
      · rw [if_neg haddr, if_neg haddr]

theorem handleDns_same (h : SameBytes f (udp + UDP_HDR_LEN) f' (udp' + UDP_HDR_LEN) len) :
    handleDns s f udp len = handleDns s f' udp' len := by
  rw [handleDns, handleDns]
  by_cases hlen : len < DNS_HDR_LEN
  · rw [if_pos hlen, if_pos hlen]
  have hfits : 12 ≤ len := Nat.le_of_not_lt hlen
  have hid := h.get16 (j := 0) (by omega)
  rw [Nat.add_zero, Nat.add_zero] at hid
  rw [if_neg hlen, if_neg hlen, hid, h.get16 (by omega), h.get16 (by omega)]
  simp only [dnsQuestions_same h, dnsAnswers_same h]

theorem handleDns_inside (h : udp + UDP_HDR_LEN + len ≤ f.length) :
    (handleDns s f udp len).isSome := by
  rw [UDP_HDR_LEN] at h
  rw [handleDns_isSome, DnsFits, DNS_HDR_LEN]
  refine fun hlen => ⟨by omega, fun _ => ⟨by omega, fun n _ off _ => ?_, fun start _ n _ off _ => ?_⟩⟩
  · intro k _ off' _ hoff
    omega
  · refine ⟨fun k _ off' _ hoff => by omega, fun e _ he => ⟨by omega, fun hend _ => by omega⟩⟩

-- ---------------------------------------------------------------------------
-- What is found
-- ---------------------------------------------------------------------------

theorem get16_of_hasAt (h : HasAt f i (put16 v ++ bs)) (hv : v < 2 ^ 16) : get16 f i = some v := by
  rw [HasAt.get16 h, UInt8.toNat_ofNat', UInt8.toNat_ofNat']
  congr 1
  omega

theorem load32_of_hasAt (h : HasAt f i bs) (hlen : bs.length = 4) :
    load32 f i = some (loadAt bs 0) := by
  have hself : HasAt bs 0 bs := List.prefix_refl bs
  have hsame := (sameBytes_of_hasAt h hself).load32 (j := 0) (by omega)
  obtain ⟨v, hv⟩ := Option.isSome_iff_exists.mp
    (load32_isSome.mpr (show 0 + 4 ≤ bs.length by omega))
  rw [Nat.add_zero, Nat.add_zero] at hsame
  rw [hsame, loadAt, hv, Option.getD_some]

@[simp] theorem DnsRecord.fields_length (r : DnsRecord) : r.fields.length = 10 := by
  simp [DnsRecord.fields]

theorem dnsQuestions_all {qs : List DnsQuestion}
    (h : HasAt f (msg + off) (qs.flatMap DnsQuestion.bytes))
    (hle : off + (qs.flatMap DnsQuestion.bytes).length ≤ len) :
    dnsQuestions f msg len qs.length off =
      some (some (off + (qs.flatMap DnsQuestion.bytes).length)) := by
  induction qs generalizing off with
  | nil => rfl
  | cons q rest ih =>
    rw [List.flatMap_cons, DnsQuestion.bytes] at h hle ⊢
    obtain ⟨hq, hrest⟩ := hasAt_append.mp h
    simp only [List.length_append, put16_length] at hrest hle ⊢
    rw [List.length_cons, dnsQuestions,
      dnsSkipName_name q.name (hasAt_append.mp hq).1 (by omega) q.short]
    simp only [Option.bind_eq_bind, Option.bind_some]
    have hoff : msg + (off + q.name.bytes.length + 4) = msg + off + (q.name.bytes.length + (2 + 2)) := by
      omega
    rw [if_neg (by omega), ih (hoff ▸ hrest) (by omega)]
    congr 2
    omega

theorem dnsAnswers_record (r : DnsRecord) (h : HasAt f (msg + off) r.bytes)
    (hle : off + r.bytes.length ≤ len) :
    dnsAnswers f msg len (k + 1) off = if r.isAddress then some (some r.address)
      else dnsAnswers f msg len k (off + r.bytes.length) := by
  rw [DnsRecord.bytes] at h hle ⊢
  obtain ⟨hname, hfields⟩ := hasAt_append.mp h
  simp only [List.length_append, DnsRecord.fields_length] at hle ⊢
  obtain ⟨hfields, hdata⟩ := hasAt_append.mp hfields
  rw [DnsRecord.fields_length] at hdata
  simp only [DnsRecord.fields, List.append_assoc] at hfields
  have htype := get16_of_hasAt hfields r.type.toNat_lt
  have hklass := get16_of_hasAt (hasAt_append.mp hfields).2 r.klass.toNat_lt
  have hrdlen := (hasAt_append.mp (hasAt_append.mp (hasAt_append.mp hfields).2).2).2
  rw [← List.append_nil (put16 r.rdata.length)] at hrdlen
  have hrdlen := get16_of_hasAt hrdlen r.rdataLt
  simp only [put16_length, put32_length] at hklass hrdlen
  rw [dnsAnswers, dnsSkipName_name r.name hname (by omega) r.short]
  simp only [Option.bind_eq_bind, Option.bind_some]
  simp only [← Nat.add_assoc] at hrdlen ⊢
  have hrdlen : get16 f (msg + off + r.name.bytes.length + 8) = some r.rdata.length := hrdlen
  rw [if_neg (by omega), htype, hklass, hrdlen]
  simp only [Option.bind_some]
  rw [if_neg (by omega)]
  have hiff : r.isAddress = true ↔
      r.type.toNat = DNS_TYPE_A ∧ r.klass.toNat = DNS_CLASS_IN ∧ r.rdata.length = 4 :=
    decide_eq_true_iff
  by_cases haddr : r.isAddress = true
  · rw [if_pos (hiff.mp haddr), if_pos haddr, load32_of_hasAt hdata (hiff.mp haddr).2.2]
    rfl
  · rw [if_neg fun h => haddr (hiff.mpr h), if_neg haddr]

theorem dnsAnswers_first {rs : List DnsRecord}
    (h : HasAt f (msg + off) (rs.flatMap DnsRecord.bytes))
    (hle : off + (rs.flatMap DnsRecord.bytes).length ≤ len) :
    dnsAnswers f msg len rs.length off =
      some ((rs.find? DnsRecord.isAddress).map DnsRecord.address) := by
  induction rs generalizing off with
  | nil => rfl
  | cons r rest ih =>
    rw [List.flatMap_cons] at h hle
    obtain ⟨hr, hrest⟩ := hasAt_append.mp h
    rw [List.length_append] at hle
    rw [List.length_cons, dnsAnswers_record r hr (by omega)]
    cases haddr : r.isAddress with
    | true => rw [if_pos rfl, List.find?_cons_of_pos haddr, Option.map_some]
    | false =>
      rw [if_neg Bool.false_ne_true, List.find?_cons_of_neg (by simp [haddr])]
      exact ih (by rw [← Nat.add_assoc]; exact hrest) (by omega)

theorem tcpHttpStart_answerIp (s : NetState) (ip : Nat) :
    (tcpHttpStart s ip).gDnsAnswerIp = s.gDnsAnswerIp := by
  rw [tcpHttpStart]
  split
  · rfl
  · rfl

@[simp] theorem DnsMessage.header_length (m : DnsMessage) : m.header.length = 12 := by
  simp [DnsMessage.header]

/-- Of a message of questions and records the first address is taken, and nothing if there is none. -/
theorem handleDns_message (m : DnsMessage) (h : HasAt f (udp + UDP_HDR_LEN) m.bytes) :
    ∃ s', handleDns s f udp m.bytes.length = some s' ∧ s'.gDnsAnswerIp =
      ((m.answers.find? DnsRecord.isAddress).map DnsRecord.address).getD s.gDnsAnswerIp := by
  obtain ⟨hheader, hbody⟩ := hasAt_append.mp h
  obtain ⟨hquestions, hbody⟩ := hasAt_append.mp hbody
  have hanswers := (hasAt_append.mp hbody).1
  have hlen : m.bytes.length = 12 + ((m.questions.flatMap DnsQuestion.bytes).length +
      ((m.answers.flatMap DnsRecord.bytes).length + m.others.length)) := by
    rw [DnsMessage.bytes, List.length_append, List.length_append, List.length_append,
      DnsMessage.header_length]
  rw [DnsMessage.header_length] at hquestions hanswers
  simp only [DnsMessage.header, List.append_assoc] at hheader
  have hid := get16_of_hasAt hheader (by decide)
  have hcounts := (hasAt_append.mp (hasAt_append.mp hheader).2).2
  have hqd := get16_of_hasAt hcounts m.questionsLt
  have han := get16_of_hasAt (hasAt_append.mp hcounts).2 m.answersLt
  simp only [put16_length, Nat.add_assoc, Nat.reduceAdd] at hqd han
  rw [handleDns, if_neg (by rw [hlen, DNS_HDR_LEN]; omega), hid]
  simp only [Option.bind_eq_bind, Option.bind_some, ne_eq, not_true, if_false]
  rw [Nat.add_assoc, Nat.add_assoc, hqd, han]
  simp only [Option.bind_some]
  rw [show DNS_HDR_LEN = 12 from rfl, dnsQuestions_all hquestions (by rw [hlen]; omega)]
  simp only [Option.bind_some]
  rw [dnsAnswers_first (by rw [← Nat.add_assoc]; exact hanswers) (by rw [hlen]; omega)]
  cases hfound : m.answers.find? DnsRecord.isAddress with
  | none => exact ⟨s, rfl, rfl⟩
  | some r => exact ⟨_, rfl, tcpHttpStart_answerIp _ _⟩

/-- `handle_dns` returns for every message, whatever its bytes, and is a matter of them alone: of
what is before and behind the message nothing is read. Of a message of questions and records it
takes the data of the first answer that is an address of the internet, and none if there is none. -/
theorem handleDns_parses (s : NetState) (pre pre' m post post' : Msg) (udp udp' : Nat)
    (d : DnsMessage) (hpre : pre.length = udp + UDP_HDR_LEN) (hpre' : pre'.length = udp' + UDP_HDR_LEN) :
    (handleDns s (pre ++ m) udp m.length).isSome ∧
    handleDns s (pre ++ m ++ post) udp m.length = handleDns s (pre' ++ m ++ post') udp' m.length ∧
    ∃ s', handleDns s (pre ++ d.bytes ++ post) udp d.bytes.length = some s' ∧ s'.gDnsAnswerIp =
      ((d.answers.find? DnsRecord.isAddress).map DnsRecord.address).getD s.gDnsAnswerIp := by
  refine ⟨handleDns_inside ?_, handleDns_same (sameBytes_of_hasAt (m := m) ?_ ?_),
    handleDns_message d ?_⟩
  · rw [List.length_append, hpre]
  · rw [← hpre]
    exact hasAt_append_self pre m post
  · rw [← hpre']
    exact hasAt_append_self pre' m post'
  · rw [← hpre]
    exact hasAt_append_self pre d.bytes post

/-- `example.com` -/
def exampleName : DnsName :=
  nameOf [[101, 120, 97, 109, 112, 108, 101], [99, 111, 109]]
    (List.forall_mem_cons.mpr ⟨by decide, List.forall_mem_singleton.mpr (by decide)⟩)

def backToQuestion : DnsName where
  labels := []
  pointer := some (0xC0, 12)
  valid := fun l hl => absurd hl List.not_mem_nil
  pointerBits := by
    rintro p ⟨⟩
    rfl

def exampleAnswer : DnsMessage where
  flags := 0x8180
  questions := [⟨exampleName, by decide, 1, 1⟩]
  answers := [⟨backToQuestion, by decide, 5, 1, 300, [1, 97, 0xC0, 12], by decide⟩,
    ⟨⟨[[97]], some (0xC0, 12), by decide, by rintro p ⟨⟩; rfl⟩, by decide, 1, 1, 300,
      [93, 184, 216, 34], by decide⟩]
  nscount := 0
  arcount := 0
  others := []
  questionsLt := by decide
  answersLt := by decide

theorem handleDns_parses_example :
    (handleDns idleState (List.replicate 42 0 ++ [1]) 34 1).isSome ∧
    handleDns idleState (List.replicate 42 0 ++ [1] ++ []) 34 1 =
      handleDns idleState (List.replicate 8 0 ++ [1] ++ [7]) 0 1 ∧
    ∃ s', handleDns idleState (List.replicate 42 0 ++ exampleAnswer.bytes ++ []) 34
      exampleAnswer.bytes.length = some s' ∧ s'.gDnsAnswerIp = 584628317 :=
  handleDns_parses idleState (List.replicate 42 0) (List.replicate 8 0) [1] [] [7] 34 0 exampleAnswer
    rfl rfl

end EponaOS.Net
