import EponaOS.Net.Checksum

/-!
# Names in DNS messages

What `dns_write_name` writes for a host is its labels, each behind its length, and a 0. What
`dns_skip_name` does with a name: it counts labels, and gives up on more than 64 of them, which is
not a limit that `dns_write_name` has.
-/

namespace EponaOS.Net

open Msg

/-- A name in a message: labels, and a 0 or the two bytes of a compression pointer behind them. -/
structure DnsName where
  labels : List Msg
  pointer : Option (UInt8 × UInt8)
  valid : ∀ l ∈ labels, 0 < l.length ∧ l.length ≤ 63
  pointerBits : ∀ p ∈ pointer, p.1.toNat &&& 0xC0 = 0xC0

def encodeLabels (labels : List Msg) : Msg := labels.flatMap fun l => UInt8.ofNat l.length :: l

def DnsName.bytes (n : DnsName) : Msg :=
  encodeLabels n.labels ++ match n.pointer with
    | none => [0]
    | some (a, b) => [a, b]

def labelsOf (host : Msg) : List Msg := host.splitOn 46

theorem encodeLabels_cons (l : Msg) (rest : List Msg) :
    encodeLabels (l :: rest) = UInt8.ofNat l.length :: (l ++ encodeLabels rest) := rfl

-- ---------------------------------------------------------------------------
-- The writer
-- ---------------------------------------------------------------------------

/-- `label` is the part of the name before `host` that is not ended yet, and `pos` counts it. -/
theorem dnsWriteLabels_spec (h : dnsWriteLabels outLen host label pos = some out)
    (hlabel : label.length ≤ 63) :
    out = encodeLabels (host.splitOnPPrepend (· == 46) label.reverse) ++ [0] ∧
      (∀ l ∈ host.splitOnPPrepend (· == 46) label.reverse, 0 < l.length ∧ l.length ≤ 63) ∧
      out.length + pos ≤ outLen + if label.length = 0 then 0 else label.length + 1 := by
  induction host generalizing label pos out with
  | nil =>
    rw [dnsWriteLabels] at h
    split at h
    · cases h
    next hno =>
      cases h
      rw [List.splitOnPPrepend_nil, List.reverse_reverse, if_neg fun h0 => hno (.inl h0)]
      refine ⟨by simp [encodeLabels], fun l hl => ?_, ?_⟩
      · obtain rfl := List.mem_singleton.mp hl
        omega
      · simp only [List.length_cons, List.length_append, List.length_nil]
        omega
  | cons c host ih =>
    rw [dnsWriteLabels] at h
    dsimp only at h
    split at h
    · cases h
    next hroom =>
      split at h
      next hdot =>
        subst hdot
        rw [List.splitOnPPrepend_cons_eq_if, if_pos (beq_self_eq_true (46 : UInt8)), List.reverse_reverse,
          ← List.splitOnPPrepend_nil_right]
        split at h
        · cases h
        next hlen =>
          obtain ⟨rest, hrest, rfl⟩ := Option.map_eq_some_iff.mp h
          obtain ⟨rfl, hvalid, hle⟩ := ih hrest (Nat.zero_le _)
          refine ⟨?_, fun l hl => ?_, ?_⟩
          · simp [encodeLabels_cons]
          · obtain rfl | hl := List.mem_cons.mp hl
            · omega
            · exact hvalid l hl
          · rw [List.length_nil, if_pos rfl, if_neg fun h0 => hlen (.inl h0)] at hle
            rw [if_neg fun h0 => hlen (.inl h0), List.length_append, List.length_cons]
            omega
      next hdot =>
        rw [List.splitOnPPrepend_cons_eq_if, if_neg fun h => hdot (beq_iff_eq.mp h)]
        have hlen : ¬ ((if label.length = 0 then pos + 1 else pos) ≥ outLen ∨
            label.length + 1 > 63) := by
          intro hno
          rw [if_pos hno] at h
          cases h
        rw [if_neg hlen] at h
        have hnew : (label ++ [c]).length = label.length + 1 := by simp
        obtain ⟨hout, hvalid, hle⟩ := ih h (by omega)
        rw [List.reverse_append, List.reverse_singleton, List.singleton_append] at hout hvalid
        refine ⟨hout, hvalid, ?_⟩
        rw [hnew, if_neg (Nat.succ_ne_zero _)] at hle
        by_cases h0 : label.length = 0
        · rw [if_pos h0] at hle ⊢
          omega
        · rw [if_neg h0] at hle ⊢
          omega

theorem dnsWriteName_spec (h : dnsWriteName outLen host = some out) :
    out = encodeLabels (labelsOf host) ++ [0] ∧
      (∀ l ∈ labelsOf host, 0 < l.length ∧ l.length ≤ 63) ∧ out.length ≤ outLen := by
  obtain ⟨hout, hvalid, hle⟩ := dnsWriteLabels_spec h (Nat.zero_le _)
  exact ⟨hout, hvalid, hle⟩

-- ---------------------------------------------------------------------------
-- The skipper
-- ---------------------------------------------------------------------------

variable {f : Msg} {labels : List Msg}

theorem label_bits (h : n ≤ 63) : n &&& 0xC0 = 0 := by
  have hall : ∀ n < 64, n &&& 0xC0 = 0 := by decide
  exact hall n (Nat.lt_succ_of_le h)

theorem dnsSkipName_label (h : HasAt f (msg + off) (UInt8.ofNat l.length :: l))
    (hpos : 0 < l.length) (hmax : l.length ≤ 63) (hle : off + (l.length + 1) ≤ len) :
    dnsSkipName f msg len (k + 1) off =
      if k = 0 then some none else dnsSkipName f msg len k (off + (l.length + 1)) := by
  have hbyte : (UInt8.ofNat l.length).toNat = l.length := by
    rw [UInt8.toNat_ofNat']
    omega
  have hget := h.get8
  rw [hbyte] at hget
  rw [dnsSkipName, if_pos (by omega), hget]
  have hbits := label_bits hmax
  simp only [Option.bind_eq_bind, Option.bind_some, hbits, if_neg (Nat.ne_of_gt hpos), ne_eq,
    not_true, if_false, Option.pure_def]
  rw [if_neg (by decide)]
  have hoff : off + 1 + l.length = off + (l.length + 1) := by omega
  rw [hoff]
  by_cases hk : k = 0
  · rw [if_pos (.inr hk), if_pos hk]
  · rw [if_neg (by omega), if_neg hk]

theorem dnsSkipName_labels (hvalid : ∀ l ∈ labels, 0 < l.length ∧ l.length ≤ 63)
    (h : HasAt f (msg + off) (encodeLabels labels)) (hle : off + (encodeLabels labels).length ≤ len)
    (hk : 0 < k) :
    dnsSkipName f msg len (labels.length + k) off =
      dnsSkipName f msg len k (off + (encodeLabels labels).length) := by
  induction labels generalizing off with
  | nil => rw [List.length_nil, Nat.zero_add, encodeLabels, List.flatMap_nil, List.length_nil,
      Nat.add_zero]
  | cons l rest ih =>
    obtain ⟨hpos, hmax⟩ := hvalid l List.mem_cons_self
    have hlen : (encodeLabels (l :: rest)).length = l.length + 1 + (encodeLabels rest).length := by
      rw [encodeLabels_cons, List.length_cons, List.length_append]
      omega
    rw [encodeLabels_cons, ← List.cons_append, hasAt_append, List.length_cons] at h
    have hrest : HasAt f (msg + (off + (l.length + 1))) (encodeLabels rest) := by
      rw [← Nat.add_assoc]
      exact h.2
    rw [hlen] at hle
    rw [List.length_cons, Nat.add_right_comm, dnsSkipName_label h.1 hpos hmax (by omega),
      if_neg (by omega), ih (fun l hl => hvalid l (List.mem_cons_of_mem _ hl)) hrest (by omega), hlen]
    congr 1
    omega

theorem dnsSkipName_many (hvalid : ∀ l ∈ labels, 0 < l.length ∧ l.length ≤ 63)
    (h : HasAt f (msg + off) (encodeLabels labels)) (hle : off + (encodeLabels labels).length ≤ len)
    (hk : k ≤ labels.length) : dnsSkipName f msg len k off = some none := by
  induction labels generalizing off k with
  | nil =>
    obtain rfl := Nat.le_zero.mp hk
    rfl
  | cons l rest ih =>
    cases k with
    | zero => rfl
    | succ k =>
      obtain ⟨hpos, hmax⟩ := hvalid l List.mem_cons_self
      have hlen : (encodeLabels (l :: rest)).length =
          l.length + 1 + (encodeLabels rest).length := by
        rw [encodeLabels_cons, List.length_cons, List.length_append]
        omega
      rw [encodeLabels_cons, ← List.cons_append, hasAt_append, List.length_cons] at h
      have hrest : HasAt f (msg + (off + (l.length + 1))) (encodeLabels rest) := by
        rw [← Nat.add_assoc]
        exact h.2
      rw [hlen] at hle
      rw [dnsSkipName_label h.1 hpos hmax (by omega)]
      split
      · rfl
      · exact ih (fun l hl => hvalid l (List.mem_cons_of_mem _ hl)) hrest (by omega)
          (Nat.le_of_succ_le_succ hk)

theorem dnsSkipName_name (n : DnsName) (h : HasAt f (msg + off) n.bytes)
    (hle : off + n.bytes.length ≤ len) (hcount : n.labels.length ≤ 64) :
    dnsSkipName f msg len 65 off = some (some (off + n.bytes.length)) := by
  rw [DnsName.bytes, hasAt_append] at h
  rw [DnsName.bytes, List.length_append] at hle
  have hfuel : 65 = n.labels.length + (64 - n.labels.length + 1) := by omega
  rw [hfuel, dnsSkipName_labels n.valid h.1 (by omega) (Nat.succ_pos _), DnsName.bytes,
    List.length_append, dnsSkipName]
  have hend := h.2
  rw [Nat.add_assoc] at hend
  match hptr : n.pointer with
  | none =>
    rw [hptr] at hend hle
    rw [if_pos (by simp at hle; omega), hend.get8]
    rfl
  | some (a, b) =>
    rw [hptr] at hend hle
    have hbits := n.pointerBits (a, b) hptr
    have ha : a.toNat ≠ 0 := by
      intro h0
      rw [h0] at hbits
      cases hbits
    simp only [List.length_cons, List.length_nil] at hle
    rw [if_pos (by omega), hend.get8]
    simp only [Option.bind_eq_bind, Option.bind_some, if_neg ha, hbits, if_true, Option.pure_def,
      List.length_cons, List.length_nil]
    rw [if_neg (by omega)]
    rfl

-- ---------------------------------------------------------------------------
-- Writer and skipper
-- ---------------------------------------------------------------------------

/-- The message that `dns_query` sends for a host. -/
def dnsPayload (host : Msg) : Option Msg :=
  (dnsWriteName (256 - DNS_HDR_LEN - 4) host).map fun name =>
    put16 DNS_XID ++ put16 0x0100 ++ put16 1 ++ put16 0 ++ put16 0 ++ put16 0 ++
      (name ++ put16 DNS_TYPE_A ++ put16 DNS_CLASS_IN)

/-- What was written for the host is the encoding of its labels and fits in the buffer, and every
message that has it somewhere is gone over there. -/
structure Agrees (outLen : Nat) (host out : Msg) : Prop where
  fits : out.length ≤ outLen
  labels : ∀ l ∈ labelsOf host, 0 < l.length ∧ l.length ≤ 63
  encoding : out = encodeLabels (labelsOf host) ++ [0]
  skip : ∀ (f : Msg) (msg len off : Nat), HasAt f (msg + off) out → off + out.length ≤ len →
    dnsSkipName f msg len 65 off = some (some (off + out.length))

/-- A message of one question, the one of the query, is gone over up to its end. -/
def EchoAccepted (payload : Msg) : Prop :=
  ∀ (f : Msg) (msg len : Nat), HasAt f (msg + DNS_HDR_LEN) (payload.drop DNS_HDR_LEN) →
    payload.length ≤ len → dnsQuestions f msg len 1 DNS_HDR_LEN = some (some payload.length)

def nameOf (labels : List Msg) (valid : ∀ l ∈ labels, 0 < l.length ∧ l.length ≤ 63) : DnsName where
  labels := labels
  pointer := none
  valid := valid
  pointerBits := nofun

theorem dnsWriteName_agrees (h : dnsWriteName outLen host = some out)
    (hcount : (labelsOf host).length ≤ 64) : Agrees outLen host out := by
  obtain ⟨rfl, hvalid, hfits⟩ := dnsWriteName_spec h
  exact ⟨hfits, hvalid, rfl, fun f msg len off hat hle =>
    dnsSkipName_name (nameOf _ hvalid) hat hle hcount⟩

theorem dnsPayload_echo (h : dnsPayload host = some payload)
    (hcount : (labelsOf host).length ≤ 64) : EchoAccepted payload := by
  obtain ⟨name, hname, rfl⟩ := Option.map_eq_some_iff.mp h
  have hagrees := dnsWriteName_agrees hname hcount
  intro f msg len hat hle
  have hquestion : HasAt f (msg + DNS_HDR_LEN) (name ++ (put16 DNS_TYPE_A ++ put16 DNS_CLASS_IN)) := by
    rw [← List.append_assoc]
    exact hat
  simp only [List.length_append, put16_length] at hle
  rw [dnsQuestions, hagrees.skip f msg len _ (hasAt_append.mp hquestion).1
    (by rw [DNS_HDR_LEN]; omega)]
  simp only [Option.bind_eq_bind, Option.bind_some, List.length_append, put16_length]
  rw [if_neg (by rw [DNS_HDR_LEN]; omega), dnsQuestions, DNS_HDR_LEN]
  congr 2

/-- They agree on the hosts of at most 64 labels. -/
theorem dnsName_agrees_iff (h : dnsWriteName outLen host = some out) :
    (Agrees outLen host out ∧ ∀ payload, dnsPayload host = some payload → EchoAccepted payload) ↔
      (labelsOf host).length ≤ 64 := by
  constructor
  · rintro ⟨hagrees, -⟩
    by_contra hmany
    have hself : HasAt out 0 out := List.prefix_refl _
    have hskip := hagrees.skip out 0 out.length 0 hself (by omega)
    have hout := hagrees.encoding
    have hlabels : HasAt out (0 + 0) (encodeLabels (labelsOf host)) :=
      ⟨[0], hout.symm⟩
    have hle : (encodeLabels (labelsOf host)).length ≤ out.length := by
      rw [hout, List.length_append]
      omega
    rw [dnsSkipName_many hagrees.labels hlabels (by omega) (Nat.lt_of_not_le hmany)] at hskip
    cases hskip
  · intro hcount
    exact ⟨dnsWriteName_agrees h hcount, fun payload hp => dnsPayload_echo hp hcount⟩

theorem dnsName_agrees_example : ∃ out, dnsWriteName 240 exampleHost = some out ∧
    Agrees 240 exampleHost out ∧
      ∀ payload, dnsPayload exampleHost = some payload → EchoAccepted payload := by
  obtain ⟨out, h⟩ := Option.isSome_iff_exists.mp
    (show (dnsWriteName 240 exampleHost).isSome = true by decide)
  exact ⟨out, h, (dnsName_agrees_iff h).mpr (by decide)⟩

/-- `a.a. .. .a`, with 64 dots. -/
def longHost : Msg := (List.replicate 64 [97, 46]).flatten ++ [97]

/-- A query for the host is sent, but its question is refused. -/
theorem longHost_refused : ¬ ∀ (outLen : Nat) (host out : Msg),
    dnsWriteName outLen host = some out → Agrees outLen host out := by
  intro hall
  have hwrite : dnsWriteName 240 longHost = some ((List.replicate 65 [1, 97]).flatten ++ [0]) := by
    decide +kernel
  have hskip := (hall _ _ _ hwrite).skip _ 0 131 0 (List.prefix_refl _) (by decide +kernel)
  have hrefused : dnsSkipName ((List.replicate 65 [1, 97]).flatten ++ [0]) 0 131 65 0 =
      some none := by decide +kernel
  rw [hrefused] at hskip
  cases hskip

end EponaOS.Net
