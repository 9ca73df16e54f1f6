import EponaOS.Net.Reads

/-!
# DHCP options

`dhcp_add_option` writes a code, a length and the data; `parse_dhcp_options` reads them back, skips
pads and stops at the end mark or where the rest is too short. Of several options of one code that
are long enough the last one counts.
-/

namespace EponaOS.Net

open Msg

/-- An option that `parse_dhcp_options` can find: its code is neither the pad nor the end mark. -/
structure DhcpItem where
  code : UInt8
  data : Msg
  code_ne_pad : code ≠ 0
  code_ne_end : code ≠ 255
  data_le : data.length ≤ 255

/-- What is behind `opt`, where `out` was written so far. -/
def dhcpAddOption (out : Msg) (code len : UInt8) (data : Msg) : Msg :=
  out ++ [code, len] ++ data.take len.toNat

/-- The option behind `pads` pad bytes. -/
def layOut (out : Msg) (pads : Nat) (item : DhcpItem) : Msg :=
  dhcpAddOption (out ++ List.replicate pads 0) item.code (UInt8.ofNat item.data.length) item.data

/-- The options, each with the number of pads before it, then pads and the end mark. -/
def layOptions (items : List (Nat × DhcpItem)) (pads : Nat) : Msg :=
  items.foldl (fun out item => layOut out item.1 item.2) [] ++ List.replicate pads 0 ++ [255]

/-- The data of the last option of the code that has `need` bytes. -/
def lastOption (items : List DhcpItem) (code need : Nat) : Option Msg :=
  ((items.filter fun item => item.code.toNat = code ∧ need ≤ item.data.length).map
    DhcpItem.data).getLast?

def optionValues (items : List DhcpItem) (o : DhcpOptions) : DhcpOptions where
  msgType := ((lastOption items 53 1).map (byteAt · 0)).getD o.msgType
  serverIp := ((lastOption items 54 4).map (loadAt · 0)).getD o.serverIp
  routerIp := ((lastOption items 3 4).map (loadAt · 0)).getD o.routerIp
  dnsIp := ((lastOption items 6 4).map (loadAt · 0)).getD o.dnsIp

variable {f f' : Msg} {o : DhcpOptions} {item : DhcpItem} {items : List DhcpItem}

-- ---------------------------------------------------------------------------
-- The loop
-- ---------------------------------------------------------------------------

theorem parseDhcpOptions_done (h : ¬ i < len) : parseDhcpOptions f opt len k i o = some o := by
  cases k with
  | zero => rfl
  | succ k => rw [parseDhcpOptions, if_neg h]

theorem parseDhcpOptions_fuel (hk : len - i ≤ k) (hn : len - i ≤ n) :
    parseDhcpOptions f opt len k i o = parseDhcpOptions f opt len n i o := by
  induction k generalizing n i o with
  | zero => rw [parseDhcpOptions_done (by omega), parseDhcpOptions_done (by omega)]
  | succ k ih =>
    by_cases hi : i < len
    · obtain ⟨n, rfl⟩ : ∃ j, n = j + 1 := ⟨n - 1, by omega⟩
      rw [parseDhcpOptions, parseDhcpOptions, if_pos hi, if_pos hi]
      refine congrArg _ (funext fun code => ?_)
      dsimp only
      refine ite_congr rfl (fun _ => rfl) fun _ =>
        ite_congr rfl (fun _ => ih (by omega) (by omega)) fun _ =>
        ite_congr rfl (fun _ => rfl) fun _ => congrArg _ (funext fun olen => ?_)
      refine ite_congr rfl (fun _ => rfl) fun _ => congrArg _ (funext fun o' => ?_)
      exact ih (by omega) (by omega)
    · rw [parseDhcpOptions_done hi, parseDhcpOptions_done hi]

theorem dhcpOption_same (h : SameBytes f i f' i' n) (hlen : value + olen ≤ n) :
    dhcpOption f (i + value) code olen o = dhcpOption f' (i' + value) code olen o := by
  rw [dhcpOption, dhcpOption]
  refine ite_congr rfl (fun hc => by rw [h.get8 (by omega)]) fun _ => ?_
  refine ite_congr rfl (fun hc => by rw [h.load32 (by omega)]) fun _ => ?_
  refine ite_congr rfl (fun hc => by rw [h.load32 (by omega)]) fun _ => ?_
  exact ite_congr rfl (fun hc => by rw [h.load32 (by omega)]) fun _ => rfl

theorem parseDhcpOptions_same (h : SameBytes f opt f' opt' len) :
    parseDhcpOptions f opt len k i o = parseDhcpOptions f' opt' len k i o := by
  induction k generalizing i o with
  | zero => rfl
  | succ k ih =>
    rw [parseDhcpOptions, parseDhcpOptions]
    refine ite_congr rfl (fun hi => ?_) fun _ => rfl
    rw [h.get8 hi]
    refine congrArg _ (funext fun code => ?_)
    dsimp only
    rw [ih]
    refine ite_congr rfl (fun _ => rfl) fun _ => ite_congr rfl (fun _ => rfl) fun _ =>
      ite_congr rfl (fun _ => rfl) fun hlen => ?_
    rw [h.get8 (by omega)]
    refine congrArg _ (funext fun olen => ite_congr rfl (fun _ => rfl) fun hfits => ?_)
    rw [dhcpOption_same h (by omega)]
    exact congrArg _ (funext fun o' => ih)

theorem parseDhcpOptions_inside (h : opt + len ≤ f.length) :
    (parseDhcpOptions f opt len k i o).isSome := by
  induction k generalizing i o with
  | zero => rfl
  | succ k ih =>
    rw [parseDhcpOptions]
    split
    next hi =>
      obtain ⟨code, hcode⟩ : ∃ code, get8 f (opt + i) = some code := ⟨_, get8_of_lt (by omega)⟩
      rw [hcode]
      dsimp only [Option.bind_eq_bind, Option.bind_some]
      split
      · rfl
      split
      · exact ih
      split
      · rfl
      next hlen =>
      obtain ⟨olen, holen⟩ : ∃ olen, get8 f (opt + (i + 1)) = some olen :=
        ⟨_, get8_of_lt (by omega)⟩
      rw [holen]
      dsimp only [Option.bind_some]
      split
      · rfl
      next hfits =>
      have hoption : (dhcpOption f (opt + (i + 1 + 1)) code olen o).isSome := by
        rw [dhcpOption_isSome (by omega), optionReads]
        split
        · omega
        · split <;> omega
      obtain ⟨o', ho'⟩ := Option.isSome_iff_exists.mp hoption
      rw [ho']
      exact ih
    next => rfl

-- ---------------------------------------------------------------------------
-- What is read back
-- ---------------------------------------------------------------------------

theorem parseDhcpOptions_pads (h : HasAt f (opt + i) (List.replicate pads 0))
    (hlen : i + pads ≤ len) :
    parseDhcpOptions f opt len (len - i) i o =
      parseDhcpOptions f opt len (len - (i + pads)) (i + pads) o := by
  induction pads generalizing i with
  | zero => rfl
  | succ pads ih =>
    rw [List.replicate_succ, hasAt_cons] at h
    obtain ⟨h0, hrest⟩ := h
    have hcode : get8 f (opt + i) = some 0 := by rw [get8, h0]; rfl
    obtain ⟨k, hk⟩ : ∃ k, len - i = k + 1 := ⟨len - i - 1, by omega⟩
    rw [hk, parseDhcpOptions, if_pos (by omega), hcode]
    dsimp only [Option.bind_eq_bind, Option.bind_some]
    rw [if_neg (by decide), if_pos rfl, parseDhcpOptions_fuel (n := len - (i + 1)) (by omega)
      (Nat.le_refl _), ih (by rw [← Nat.add_assoc]; exact hrest) (by omega),
      show i + 1 + pads = i + (pads + 1) by omega]

theorem lastOption_single (item : DhcpItem) (code need : Nat) : lastOption [item] code need =
    if item.code.toNat = code ∧ need ≤ item.data.length then some item.data else none := by
  rw [lastOption, List.filter_cons]
  split
  next h => rw [if_pos (of_decide_eq_true h)]; rfl
  next h => rw [if_neg fun h' => h (decide_eq_true h')]; rfl

theorem lastOption_cons (item : DhcpItem) (items : List DhcpItem) (code need : Nat) :
    lastOption (item :: items) code need =
      (lastOption items code need).or (lastOption [item] code need) := by
  rw [lastOption, lastOption, lastOption, ← List.singleton_append, List.filter_append,
    List.map_append, List.getLast?_append]

theorem optionValues_cons (item : DhcpItem) (items : List DhcpItem) (o : DhcpOptions) :
    optionValues (item :: items) o = optionValues items (optionValues [item] o) := by
  have hor : ∀ (x y : Option Msg) (g : Msg → Nat) (v : Nat),
      ((x.or y).map g).getD v = (x.map g).getD ((y.map g).getD v) := by
    intro x y g v
    cases x with
    | none => rfl
    | some a => rfl
  simp only [optionValues, lastOption_cons item items, hor]

theorem dhcpOption_item (h : HasAt f value item.data) :
    dhcpOption f value item.code.toNat item.data.length o = some (optionValues [item] o) := by
  have hsame : SameBytes f value item.data 0 item.data.length :=
    sameBytes_of_hasAt h (List.prefix_refl item.data)
  have hbyte : 1 ≤ item.data.length → get8 f value = some (byteAt item.data 0) := by
    intro hlen
    obtain ⟨v, hv⟩ := Option.isSome_iff_exists.mp (get8_isSome.mpr hlen)
    rw [← Nat.add_zero value, hsame.get8 hlen, byteAt, hv, Option.getD_some]
  have hload : 4 ≤ item.data.length → load32 f value = some (loadAt item.data 0) := by
    intro hlen
    obtain ⟨v, hv⟩ := Option.isSome_iff_exists.mp (load32_isSome.mpr hlen)
    rw [← Nat.add_zero value, hsame.load32 hlen, loadAt, hv, Option.getD_some]
  simp only [dhcpOption, optionValues, lastOption_single]
  by_cases h53 : item.code.toNat = 53 ∧ item.data.length ≥ 1
  · rw [if_pos h53, hbyte h53.2]
    simp [h53.1, h53.2]
  rw [if_neg h53, if_neg h53]
  by_cases h54 : item.code.toNat = 54 ∧ item.data.length ≥ 4
  · rw [if_pos h54, hload h54.2]
    simp [h54.1, h54.2]
  rw [if_neg h54, if_neg h54]
  by_cases h3 : item.code.toNat = 3 ∧ item.data.length ≥ 4
  · rw [if_pos h3, hload h3.2]
    simp [h3.1, h3.2]
  rw [if_neg h3, if_neg h3]
  by_cases h6 : item.code.toNat = 6 ∧ item.data.length ≥ 4
  · rw [if_pos h6, hload h6.2]
    simp [h6.1, h6.2]
  · rw [if_neg h6, if_neg h6]
    rfl

theorem parseDhcpOptions_item (h : HasAt f (opt + i) (layOut [] 0 item))
    (hlen : i + (2 + item.data.length) ≤ len) :
    parseDhcpOptions f opt len (len - i) i o =
      parseDhcpOptions f opt len (len - (i + (2 + item.data.length))) (i + (2 + item.data.length))
        (optionValues [item] o) := by
  have hle := item.data_le
  have holen : (UInt8.ofNat item.data.length).toNat = item.data.length :=
    UInt8.toNat_ofNat_of_lt' (by rw [UInt8.size]; omega)
  simp only [layOut, dhcpAddOption, List.replicate_zero, List.nil_append, List.append_nil, holen,
    List.take_length, List.cons_append, hasAt_cons] at h
  obtain ⟨hcode, hl, hdata⟩ := h
  have hcode : get8 f (opt + i) = some item.code.toNat := by rw [get8, hcode]; rfl
  have hl : get8 f (opt + (i + 1)) = some item.data.length := by
    rw [get8, ← Nat.add_assoc, hl, Option.map_some, holen]
  have hpad : item.code.toNat ≠ 0 := fun h0 => item.code_ne_pad (UInt8.toNat_inj.mp h0)
  have hend : item.code.toNat ≠ 255 := fun h0 => item.code_ne_end (UInt8.toNat_inj.mp h0)
  obtain ⟨k, hk⟩ : ∃ k, len - i = k + 1 := ⟨len - i - 1, by omega⟩
  rw [hk, parseDhcpOptions, if_pos (by omega), hcode]
  dsimp only [Option.bind_eq_bind, Option.bind_some]
  rw [if_neg hend, if_neg hpad, if_neg (by omega), hl]
  dsimp only [Option.bind_some]
  rw [if_neg (by omega), show opt + (i + 1 + 1) = opt + i + 1 + 1 by omega, dhcpOption_item hdata]
  dsimp only [Option.bind_some]
  rw [show i + 1 + 1 + item.data.length = i + (2 + item.data.length) by omega]
  exact parseDhcpOptions_fuel (by omega) (Nat.le_refl _)

theorem layOut_eq (out : Msg) (pads : Nat) (item : DhcpItem) :
    layOut out pads item = out ++ (List.replicate pads 0 ++ layOut [] 0 item) := by
  simp only [layOut, dhcpAddOption, List.append_assoc, List.nil_append, List.replicate_zero]

@[simp] theorem layOut_length (item : DhcpItem) :
    (layOut [] 0 item).length = 2 + item.data.length := by
  have hle := item.data_le
  have holen : (UInt8.ofNat item.data.length).toNat = item.data.length :=
    UInt8.toNat_ofNat_of_lt' (by rw [UInt8.size]; omega)
  simp [layOut, dhcpAddOption, holen]
  omega

theorem foldl_layOut (out : Msg) (items : List (Nat × DhcpItem)) :
    items.foldl (fun out item => layOut out item.1 item.2) out =
      out ++ items.foldl (fun out item => layOut out item.1 item.2) [] := by
  induction items generalizing out with
  | nil => rw [List.foldl_nil, List.foldl_nil, List.append_nil]
  | cons item items ih =>
    rw [List.foldl_cons, List.foldl_cons, ih, ih (layOut [] item.1 item.2), layOut_eq out,
      layOut_eq [] item.1, List.nil_append, List.append_assoc]

/-- From the options at `i` on, what they say is filled in. -/
theorem parseDhcpOptions_items (items : List (Nat × DhcpItem)) (pads : Nat)
    (h : HasAt f (opt + i) (layOptions items pads))
    (hlen : i + (layOptions items pads).length ≤ len) :
    parseDhcpOptions f opt len (len - i) i o =
      some (optionValues (items.map Prod.snd) o) := by
  induction items generalizing i o with
  | nil =>
    simp only [layOptions, List.foldl_nil, List.nil_append, List.length_append,
      List.length_replicate, List.length_singleton] at h hlen
    obtain ⟨hpads, hend⟩ := hasAt_append.mp h
    rw [List.length_replicate, hasAt_cons, Nat.add_assoc] at hend
    have hcode : get8 f (opt + (i + pads)) = some 255 := by rw [get8, hend.1]; rfl
    obtain ⟨k, hk⟩ : ∃ k, len - (i + pads) = k + 1 := ⟨len - (i + pads) - 1, by omega⟩
    rw [parseDhcpOptions_pads hpads (by omega), hk, parseDhcpOptions, if_pos (by omega), hcode]
    rfl
  | cons item items ih =>
    have hsplit : layOptions (item :: items) pads =
        List.replicate item.1 0 ++ (layOut [] 0 item.2 ++ layOptions items pads) := by
      rw [layOptions, List.foldl_cons, foldl_layOut, layOut_eq, List.nil_append, layOptions]
      simp only [List.append_assoc]
    rw [hsplit] at h hlen
    simp only [List.length_append, List.length_replicate, layOut_length] at hlen
    obtain ⟨hpads, h⟩ := hasAt_append.mp h
    obtain ⟨hitem, hrest⟩ := hasAt_append.mp h
    simp only [List.length_replicate, layOut_length, Nat.add_assoc opt] at hitem hrest
    rw [parseDhcpOptions_pads hpads (by omega), parseDhcpOptions_item hitem (by omega),
      ih hrest (by omega), List.map_cons, optionValues_cons item.2 (items.map Prod.snd)]

/-- Options that are laid out are read back, the last of a code that is long enough, whatever is
behind their end mark. Of any bytes the loop reads nothing else, and comes to an end in as many
rounds as there are bytes. -/
theorem dhcpOptions_round_trip (items : List (Nat × DhcpItem)) (pads : Nat) (rest : Msg)
    (pre pre' bs post post' : Msg) (more : Nat) (o : DhcpOptions) :
    parseDhcpOptions (pre ++ (layOptions items pads ++ rest) ++ post) pre.length
        (layOptions items pads ++ rest).length ((layOptions items pads ++ rest).length + more) 0 o =
      some (optionValues (items.map Prod.snd) o) ∧
    (parseDhcpOptions (pre ++ bs) pre.length bs.length (bs.length + more) 0 o).isSome ∧
    parseDhcpOptions (pre ++ bs ++ post) pre.length bs.length (bs.length + more) 0 o =
      parseDhcpOptions (pre' ++ bs ++ post') pre'.length bs.length bs.length 0 o := by
  refine ⟨?_, parseDhcpOptions_inside ?_, ?_⟩
  · have hat := hasAt_append_self pre (layOptions items pads ++ rest) post
    rw [parseDhcpOptions_fuel (n := (layOptions items pads ++ rest).length - 0) (by omega)
      (by omega)]
    exact parseDhcpOptions_items items pads (hasAt_append.mp hat).1 (by simp)
  · rw [List.length_append]
  · rw [parseDhcpOptions_fuel (n := bs.length) (by omega) (by omega)]
    exact parseDhcpOptions_same (sameBytes_of_hasAt (hasAt_append_self pre bs post)
      (hasAt_append_self pre' bs post'))

end EponaOS.Net
