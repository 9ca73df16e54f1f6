import EponaOS.Lib.Delimiter
import EponaOS.Net.Net

/-!
# The stored body of a response

`http_process_payload` gets the response segment by segment and looks for the blank line
behind the headers in each segment alone. Here `g_http_body` is the array itself, with
the final 0 that `http_store_body` writes; `NetState` keeps the bytes before it.
-/

namespace EponaOS.Net

open Msg

structure HttpBuf where
  headersDone : Bool
  body : Nat → UInt8
  bodyLen : Nat

def memcpy (dst : Nat → UInt8) (at_ : Nat) (src : Msg) : Nat → UInt8 :=
  fun k => if h : at_ ≤ k ∧ k - at_ < src.length then src[k - at_] else dst k

theorem memcpy_below (h : k < at_) : memcpy dst at_ src k = dst k :=
  dif_neg fun hk => absurd hk.1 (by omega)

theorem memcpy_in (hk : at_ ≤ k) (h : k - at_ < src.length) :
    memcpy dst at_ src k = src[k - at_] := dif_pos ⟨hk, h⟩

namespace HttpBuf

/-- What `net_http_reset` does to them. -/
def reset (s : HttpBuf) : HttpBuf := ⟨false, memcpy s.body 0 [0], 0⟩

def storeBody (s : HttpBuf) (data : Msg) : HttpBuf :=
  if data.length = 0 ∨ s.bodyLen ≥ HTTP_BODY_BUF_SIZE - 1 then s
  else
    let len := min data.length (HTTP_BODY_BUF_SIZE - 1 - s.bodyLen)
    let body := memcpy s.body s.bodyLen (data.take len)
    { s with body := memcpy body (s.bodyLen + len) [0], bodyLen := s.bodyLen + len }

/-- `"\\r\\n\\r\\n"` -/
def blankLine : Msg := [13, 10, 13, 10]

/-- The search for the blank line, from the position of `payload` on. -/
def findBody (s : HttpBuf) : Msg → HttpBuf
  | [] => s
  | c :: payload =>
    if blankLine.isPrefixOf (c :: payload) then
      storeBody { s with headersDone := true } ((c :: payload).drop 4)
    else findBody s payload

def processPayload (s : HttpBuf) (payload : Msg) : HttpBuf :=
  if s.headersDone then s.storeBody payload else s.findBody payload

/-- The array holds the string `b` and its final 0. -/
structure BodyIs (s : HttpBuf) (b : Msg) : Prop where
  len : s.bodyLen = b.length
  bytes : ∀ k (h : k < b.length), s.body k = b[k]
  nul : s.body b.length = 0

theorem BodyIs.unique (h : BodyIs s b) (h' : BodyIs s b') : b = b' := by
  refine List.ext_getElem (h.len.symm.trans h'.len) fun k hk hk' => ?_
  rw [← h.bytes k hk, h'.bytes k hk']

theorem reset_bodyIs (s : HttpBuf) : BodyIs s.reset [] where
  len := rfl
  bytes := fun k hk => absurd hk (Nat.not_lt_zero k)
  nul := rfl

theorem storeBody_headersDone (s : HttpBuf) (data : Msg) :
    (s.storeBody data).headersDone = s.headersDone := by
  rw [storeBody]
  split <;> rfl

/-- `memcpy` behind the stored bytes, and a final 0 behind that. -/
theorem BodyIs.append (h : BodyIs s b) (data : Msg) :
    BodyIs { s with
      body := memcpy (memcpy s.body s.bodyLen data) (s.bodyLen + data.length) [0]
      bodyLen := s.bodyLen + data.length } (b ++ data) := by
  have hlen := h.len
  refine ⟨?_, fun k hk => ?_, ?_⟩
  · rw [List.length_append, hlen]
  · rw [List.length_append] at hk
    dsimp only
    rw [memcpy_below (by omega)]
    by_cases hkb : k < b.length
    · rw [memcpy_below (by omega), List.getElem_append_left hkb, h.bytes k hkb]
    · rw [memcpy_in (by omega) (by omega), List.getElem_append_right (by omega)]
      simp only [hlen]
  · dsimp only
    rw [memcpy_in (by rw [List.length_append]; omega) (by simp [hlen])]
    simp

theorem storeBody_bodyIs (h : BodyIs s b) (hb : b.length ≤ HTTP_BODY_BUF_SIZE - 1) (data : Msg) :
    BodyIs (s.storeBody data) ((b ++ data).take (HTTP_BODY_BUF_SIZE - 1)) := by
  have hlen := h.len
  rw [storeBody]
  split
  · rename_i hskip
    have hsame : (b ++ data).take (HTTP_BODY_BUF_SIZE - 1) = b := by
      rcases hskip with hdata | hfull
      · rw [List.eq_nil_of_length_eq_zero hdata, List.append_nil, List.take_of_length_le hb]
      · have hfull : b.length = HTTP_BODY_BUF_SIZE - 1 := by omega
        rw [← hfull, List.take_left]
    rw [hsame]
    exact h
  · have hcut : (data.take (HTTP_BODY_BUF_SIZE - 1 - b.length)).length =
        min data.length (HTTP_BODY_BUF_SIZE - 1 - s.bodyLen) := by
      rw [List.length_take, hlen, Nat.min_comm]
    have htake : data.take (min data.length (HTTP_BODY_BUF_SIZE - 1 - s.bodyLen)) =
        data.take (HTTP_BODY_BUF_SIZE - 1 - b.length) := by
      rw [hlen, Nat.min_comm, ← List.take_take, List.take_of_length_le (Nat.le_refl _)]
    dsimp only
    rw [List.take_append, List.take_of_length_le hb, htake, ← hcut]
    exact h.append _

theorem findBody_eq (s : HttpBuf) (payload : Msg) :
    s.findBody payload = (firstAt blankLine payload).elim s fun i =>
      storeBody { s with headersDone := true } (payload.drop (i + blankLine.length)) := by
  induction payload with
  | nil => rfl
  | cons c payload ih =>
    rw [findBody, firstAt]
    split
    · rfl
    · rw [ih, Option.elim_map]
      congr 1

-- ---------------------------------------------------------------------------
-- The segments of a response
-- ---------------------------------------------------------------------------

theorem take_append_take (x y : Msg) (n : Nat) : (x.take n ++ y).take n = (x ++ y).take n := by
  rw [List.take_append, List.take_append, List.take_take, List.length_take, Nat.min_self]
  congr 2
  omega

theorem bodyIs_of_headersDone (h : BodyIs s b) (hdone : s.headersDone = true)
    (hb : b.length ≤ HTTP_BODY_BUF_SIZE - 1) (segs : List Msg) :
    BodyIs (segs.foldl processPayload s)
      ((b ++ segs.flatten).take (HTTP_BODY_BUF_SIZE - 1)) := by
  induction segs generalizing s b with
  | nil =>
    rw [List.flatten_nil, List.append_nil, List.take_of_length_le hb]
    exact h
  | cons p segs ih =>
    have hp : s.processPayload p = s.storeBody p := by rw [processPayload, if_pos hdone]
    have hnext := ih (storeBody_bodyIs h hb p) ((storeBody_headersDone s p).trans hdone)
      (List.length_take_le ..)
    rw [take_append_take, List.append_assoc] at hnext
    rw [List.foldl_cons, hp, List.flatten_cons]
    exact hnext

theorem processPayload_bodyIs (h : BodyIs s []) (hdone : s.headersDone = false)
    (segs : List Msg) :
    BodyIs (segs.foldl processPayload s)
      ((afterWhole blankLine segs).take (HTTP_BODY_BUF_SIZE - 1)) := by
  induction segs generalizing s with
  | nil => exact h
  | cons p segs ih =>
    have hp : s.processPayload p = s.findBody p := by rw [processPayload, hdone]; rfl
    rw [List.foldl_cons, hp, findBody_eq, afterWhole]
    rcases firstAt blankLine p with _ | i
    · exact ih h hdone
    · have hstart : BodyIs { s with headersDone := true } [] := ⟨h.len, h.bytes, h.nul⟩
      have hstore := storeBody_bodyIs hstart (Nat.zero_le _) (p.drop (i + blankLine.length))
      have hrest := bodyIs_of_headersDone hstore (storeBody_headersDone _ _)
        (List.length_take_le ..) segs
      rw [take_append_take, List.nil_append] at hrest
      exact hrest

def bodyOf (S : Msg) : Msg := (after blankLine S).take (HTTP_BODY_BUF_SIZE - 1)

theorem bodyIs_bodyOf_iff (s : HttpBuf) (segs : List Msg) :
    BodyIs (segs.foldl processPayload s.reset) (bodyOf segs.flatten) ↔
      (afterWhole blankLine segs).take (HTTP_BODY_BUF_SIZE - 1) = bodyOf segs.flatten := by
  have hstored := processPayload_bodyIs (reset_bodyIs s) rfl segs
  constructor
  · exact fun h => hstored.unique h
  · intro hsame
    rw [← hsame]
    exact hstored

/-- The stored body is that of the response exactly when no cut falls into its first blank
line, or what follows the first blank line without a cut begins with the same bytes. -/
theorem stored_body_iff (s : HttpBuf) (segs : List Msg) :
    BodyIs (segs.foldl processPayload s.reset) (bodyOf segs.flatten) ↔
      Uncut blankLine segs ∨
        (afterWhole blankLine segs).take (HTTP_BODY_BUF_SIZE - 1) = bodyOf segs.flatten := by
  rw [bodyIs_bodyOf_iff]
  refine (or_iff_right_of_imp fun hcut => ?_).symm
  have hd : blankLine ≠ [] := by decide
  rw [bodyOf, afterWhole_eq_after hd hcut]

/-- `"H\\r\\n\\r\\nbody"`, cut into `"H\\r\\n"` and `"\\r\\nbody"`. -/
theorem cut_blank_line_loses_body :
    let s : HttpBuf := reset ⟨false, fun _ => 0, 0⟩
    let segs : List Msg := [[72, 13, 10], [13, 10, 98, 111, 100, 121]]
    ¬ BodyIs (segs.foldl processPayload s) (bodyOf segs.flatten) ∧
      BodyIs ([segs.flatten].foldl processPayload s) (bodyOf segs.flatten) := by
  intro s segs
  constructor
  · intro h
    have hlen := h.len
    revert hlen
    decide
  · refine (bodyIs_bodyOf_iff _ _).mpr ?_
    decide

-- ---------------------------------------------------------------------------
-- The network stack keeps these bytes
-- ---------------------------------------------------------------------------

/-- `NetState` holds what the array holds. -/
structure Keeps (n : NetState) (s : HttpBuf) : Prop where
  done : s.headersDone = n.gHttpHeadersDone
  body : BodyIs s n.gHttpBody
  fits : n.gHttpBody.length ≤ HTTP_BODY_BUF_SIZE - 1

theorem getBytes_of_fits (h : off + len ≤ f.length) :
    getBytes f off len = some ((f.drop off).take len) := by
  rw [getBytes, if_pos (.inr h)]

theorem httpStoreBody_keeps (h : Keeps n s) (hf : off + len ≤ f.length) :
    ∃ n', httpStoreBody n f off len = some n' ∧
      Keeps n' (s.storeBody ((f.drop off).take len)) := by
  have hlen : ((f.drop off).take len).length = len := by
    rw [List.length_take, List.length_drop]
    omega
  have hbuf := h.body.len
  have hstore := storeBody_bodyIs h.body h.fits ((f.drop off).take len)
  rw [httpStoreBody]
  by_cases hskip : len = 0 ∨ n.gHttpBody.length ≥ HTTP_BODY_BUF_SIZE - 1
  · rw [if_pos hskip]
    refine ⟨n, rfl, ?_⟩
    rw [storeBody, if_pos (by rw [hlen, hbuf]; exact hskip)]
    exact h
  · rw [if_neg hskip, getBytes_of_fits (by omega)]
    refine ⟨_, rfl, (storeBody_headersDone _ _).trans h.done, ?_, ?_⟩
    · have hsplit : (n.gHttpBody ++ (f.drop off).take len).take (HTTP_BODY_BUF_SIZE - 1) =
          n.gHttpBody ++ (f.drop off).take
            (min len (HTTP_BODY_BUF_SIZE - 1 - n.gHttpBody.length)) := by
        rw [List.take_append, List.take_of_length_le h.fits, List.take_take, Nat.min_comm]
      rw [hsplit] at hstore
      exact hstore
    · dsimp only
      rw [List.length_append, List.length_take]
      omega

theorem get8_add (f : Msg) (p j : Nat) : get8 f (p + j) = ((f.drop p)[j]?).map UInt8.toNat := by
  rw [get8, List.getElem?_drop]

theorem toNat_eq_iff (a b : UInt8) : a.toNat = b.toNat ↔ b = a :=
  UInt8.toNat_inj.trans eq_comm

theorem four_bytes {l : Msg} (h : 4 ≤ l.length) : ∃ a b c d rest, l = a :: b :: c :: d :: rest := by
  rcases l with _ | ⟨a, _ | ⟨b, _ | ⟨c, _ | ⟨d, rest⟩⟩⟩⟩
  case cons.cons.cons.cons => exact ⟨a, b, c, d, rest, rfl⟩
  all_goals
    simp only [List.length_nil, List.length_cons] at h
    omega

theorem blankLineAt_eq (h : p + 4 ≤ f.length) :
    blankLineAt f p = some (blankLine.isPrefixOf (f.drop p)) := by
  have hp : get8 f p = ((f.drop p)[0]?).map UInt8.toNat := get8_add f p 0
  obtain ⟨a, b, c, d, rest, hdrop⟩ : ∃ a b c d rest, f.drop p = a :: b :: c :: d :: rest :=
    four_bytes (by rw [List.length_drop]; omega)
  have ha : a.toNat = 13 ↔ 13 = a := toNat_eq_iff a 13
  have hb : b.toNat = 10 ↔ 10 = b := toNat_eq_iff b 10
  have hc : c.toNat = 13 ↔ 13 = c := toNat_eq_iff c 13
  have hd : d.toNat = 10 ↔ 10 = d := toNat_eq_iff d 10
  simp only [blankLineAt, hp, get8_add, hdrop, blankLine, List.isPrefixOf_cons_cons,
    List.isPrefixOf_nil_left, List.getElem?_cons_zero, List.getElem?_cons_succ, Option.map_some,
    Option.bind_eq_bind, Option.bind_some, Option.pure_def, ne_eq, ha, hb, hc]
  by_cases h13 : 13 = a
  · subst h13
    by_cases h10 : 10 = b
    · subst h10
      by_cases h13' : 13 = c
      · subst h13'
        have hlast : (d.toNat == 10) = (10 == d) := by
          rw [Bool.eq_iff_iff, beq_iff_eq, hd, beq_iff_eq]
        simp [hlast]
      · simp [h13']
    · simp [h10]
  · simp [h13]

theorem findBody_short (s : HttpBuf) (h : data.length ≤ 3) : s.findBody data = s := by
  have hnone : firstAt blankLine data = none := by
    rcases hi : firstAt blankLine data with _ | i
    · rfl
    · have := length_of_prefix_drop (firstAt_some hi).1 (by decide)
      have hfour : blankLine.length = 4 := rfl
      omega
  rw [findBody_eq, hnone, Option.elim_none]

theorem httpFindBody_keeps (h : Keeps n s) (hf : off + len ≤ f.length) (hk : i + k = len - 3) :
    ∃ n', httpFindBody n f off len k i = some n' ∧
      Keeps n' (s.findBody (((f.drop off).take len).drop i)) := by
  have hdata : ((f.drop off).take len).length = len := by
    rw [List.length_take, List.length_drop]
    omega
  induction k generalizing i with
  | zero =>
    refine ⟨n, rfl, ?_⟩
    rw [findBody_short s (by rw [List.length_drop, hdata]; omega)]
    exact h
  | succ k ih =>
    have hi : i < ((f.drop off).take len).length := by omega
    have hpre : blankLine.isPrefixOf (f.drop (off + i)) =
        blankLine.isPrefixOf (((f.drop off).take len).drop i) := by
      have hsplit : f.drop (off + i) =
          ((f.drop off).take len).drop i ++ (f.drop off).drop len := by
        rw [← List.drop_drop, ← List.drop_append_of_le_length (by omega), List.take_append_drop]
      rw [hsplit, Bool.eq_iff_iff, List.isPrefixOf_iff_prefix, List.isPrefixOf_iff_prefix]
      have hfour : blankLine.length = 4 := rfl
      exact prefix_drop_append (p := ((f.drop off).take len).drop i) (j := 0)
        (by rw [List.length_drop, hdata]; omega)
    rw [httpFindBody, blankLineAt_eq (by omega), hpre, List.drop_eq_getElem_cons hi, findBody]
    dsimp only [Option.bind_eq_bind, Option.bind_some]
    split
    · have hstart : Keeps { n with gHttpHeadersDone := true } { s with headersDone := true } :=
        ⟨rfl, ⟨h.body.len, h.body.bytes, h.body.nul⟩, h.fits⟩
      have hstore := httpStoreBody_keeps hstart
        (by omega : off + i + 4 + (len - i - 4) ≤ f.length)
      have hrest : (((f.drop off).take len).drop i).drop 4 =
          (f.drop (off + i + 4)).take (len - i - 4) := by
        rw [List.drop_drop, List.drop_take, List.drop_drop, ← Nat.add_assoc, Nat.sub_sub]
      rw [← List.drop_eq_getElem_cons hi, hrest]
      exact hstore
    · exact ih (by omega)

/-- `http_process_payload` of the network stack stores what it stores here. -/
theorem httpProcessPayload_keeps (h : Keeps n s) (hf : off + len ≤ f.length) :
    ∃ n', httpProcessPayload n f off len = some n' ∧
      Keeps n' (s.processPayload ((f.drop off).take len)) := by
  have hemit : Keeps (n.emit (.payload ((f.drop off).take len))) s := ⟨h.done, h.body, h.fits⟩
  rw [httpProcessPayload, processPayload, h.done]
  by_cases hdone : n.gHttpHeadersDone = true
  · rw [if_pos hdone]
    exact (if_pos hdone).symm ▸ httpStoreBody_keeps hemit hf
  · rw [if_neg hdone]
    exact (if_neg hdone).symm ▸ httpFindBody_keeps hemit hf (Nat.zero_add _)

end HttpBuf

end EponaOS.Net
