import EponaOS.Lib.CString
import EponaOS.Lib.Tokens
import EponaOS.Fs.Lookup

/-!
# strtok

`strtok` of `string.c` on the bytes of the string, which it cuts, with the pointer that it keeps
between two calls; and `vfs_resolve`, which is the only caller. `delim` has no NUL. Each loop has a
fuel; the length of the string and one is enough.
-/

namespace EponaOS.Fs

open Bytes Tokens

/-- The loop over `delim` -/
def isSep (delim : CStr) (c : UInt8) : Bool := delim.contains c

def skipSeps (delim : CStr) (m : Bytes) : Nat → Nat → Option Nat
  | 0, _ => none
  | n + 1, p =>
    if m p ≠ 0 then if isSep delim (m p) then skipSeps delim m n (p + 1) else some p
    else some p

def findSep (delim : CStr) (m : Bytes) : Nat → Nat → Option Nat
  | 0, _ => none
  | n + 1, p =>
    if m p ≠ 0 then if isSep delim (m p) then some p else findSep delim m n (p + 1)
    else some p

/-- A call of `strtok`: what it returns, `g_saved` and the memory; `n` is the fuel. -/
def strtokCall (n : Nat) (delim : CStr) (str saved : Option Nat) (m : Bytes) :
    Option (Option Nat × Option Nat × Bytes) :=
  match str.or saved with
  | none => some (none, none, m)
  | some p =>
    match skipSeps delim m n p with
    | none => none
    | some start =>
      if m start = 0 then some (none, none, m)
      else
        match findSep delim m n start with
        | none => none
        | some q =>
          if m q ≠ 0 then some (some start, some (q + 1), setByte m q 0)
          else some (some start, none, m)

def strtokNext (n : Nat) (delim : CStr) :
    Nat → Option Nat → Bytes → Option (List (Option Nat) × Option Nat × Bytes)
  | 0, saved, m => some ([], saved, m)
  | k + 1, saved, m =>
    match strtokCall n delim none saved m with
    | none => none
    | some (r, saved, m) => (strtokNext n delim k saved m).map fun x => (r :: x.1, x.2)

def strtokCalls (n : Nat) (delim : CStr) (a k : Nat) (saved : Option Nat) (m : Bytes) :
    Option (List (Option Nat) × Option Nat × Bytes) :=
  match strtokCall n delim (some a) saved m with
  | none => none
  | some (r, saved, m) => (strtokNext n delim k saved m).map fun x => (r :: x.1, x.2)

-- ---------------------------------------------------------------------------
-- One call
-- ---------------------------------------------------------------------------

variable {m : Bytes} {a p n k start q : Nat} {delim s l d t r : CStr} {c : UInt8}

theorem skipSeps_eq (hm : HasBytes m p (d ++ c :: r)) (hd : ∀ x ∈ d, isSep delim x = true)
    (h0 : 0 ∉ d) (hc : c = 0 ∨ isSep delim c = false) (hn : d.length < n) :
    skipSeps delim m n p = some (p + d.length) := by
  induction d generalizing p n with
  | nil =>
    obtain ⟨n, rfl⟩ := exists_succ hn
    have hmc : m p = c := hm.1
    rw [skipSeps, hmc]
    rcases hc with rfl | hc
    · rfl
    · rw [hc]
      simp
  | cons x d ih =>
    obtain ⟨n, rfl⟩ := exists_succ hn
    obtain ⟨hx, hrest⟩ := hm
    rw [List.mem_cons, not_or] at h0
    rw [skipSeps, hx, if_pos (Ne.symm h0.1), if_pos (hd x (List.mem_cons_self ..)),
      ih hrest (fun y hy => hd y (List.mem_cons_of_mem _ hy)) h0.2 (by simpa using hn),
      List.length_cons]
    congr 1
    omega

theorem findSep_eq (hm : HasBytes m p (t ++ c :: r)) (ht : ∀ x ∈ t, isSep delim x = false)
    (h0 : 0 ∉ t) (hc : c = 0 ∨ isSep delim c = true) (hn : t.length < n) :
    findSep delim m n p = some (p + t.length) := by
  induction t generalizing p n with
  | nil =>
    obtain ⟨n, rfl⟩ := exists_succ hn
    have hmc : m p = c := hm.1
    rw [findSep, hmc]
    rcases hc with rfl | hc
    · rfl
    · rw [hc]
      simp
  | cons x t ih =>
    obtain ⟨n, rfl⟩ := exists_succ hn
    obtain ⟨hx, hrest⟩ := hm
    rw [List.mem_cons, not_or] at h0
    have hsep : ¬ isSep delim x = true := by
      rw [ht x (List.mem_cons_self ..)]
      exact Bool.false_ne_true
    rw [findSep, hx, if_pos (Ne.symm h0.1), if_neg hsep,
      ih hrest (fun y hy => ht y (List.mem_cons_of_mem _ hy)) h0.2 (by simpa using hn),
      List.length_cons]
    congr 1
    omega

theorem strtokCall_none (hm : HasStr m p d) (h0 : 0 ∉ d) (hd : ∀ x ∈ d, isSep delim x = true)
    (hn : d.length < n) : strtokCall n delim none (some p) m = some (none, none, m) := by
  have hskip : skipSeps delim m n p = some (p + d.length) := skipSeps_eq hm hd h0 (.inl rfl) hn
  have hend : m (p + d.length) = 0 := (hasStr_iff.mp hm).2
  simp only [strtokCall, Option.or, hskip, if_pos hend]

theorem strtokCall_some (hm : HasBytes m p (d ++ (t ++ c :: r))) (h0 : 0 ∉ d ++ t)
    (hd : ∀ x ∈ d, isSep delim x = true) (ht : ∀ x ∈ t, isSep delim x = false) (hne : t ≠ [])
    (hc : c = 0 ∨ isSep delim c = true) (hn : d.length + t.length < n)
    (hstart : start = p + d.length) (hq : q = start + t.length) :
    strtokCall n delim none (some p) m =
      if c ≠ 0 then some (some start, some (q + 1), setByte m q 0)
      else some (some start, none, m) := by
  rw [List.mem_append, not_or] at h0
  obtain ⟨hmd, hmt⟩ := hasBytes_append.mp hm
  rw [← hstart] at hmt
  obtain ⟨-, hmc⟩ := hasBytes_append.mp hmt
  have hfind : findSep delim m n start = some q := hq ▸ findSep_eq hmt ht h0.2 hc (by omega)
  have hend : m q = c := hq ▸ hmc.1
  cases t with
  | nil => exact absurd rfl hne
  | cons x t =>
    have hx : m start = x := hmt.1
    have hx0 : x ≠ 0 := fun h => h0.2 (h ▸ List.mem_cons_self ..)
    have hskip : skipSeps delim m n p = some start :=
      hstart ▸ skipSeps_eq hm hd h0.1 (.inr (ht x (List.mem_cons_self ..))) (by omega)
    simp only [strtokCall, Option.or, hskip, hx, if_neg hx0, hfind, hend]

-- ---------------------------------------------------------------------------
-- All calls
-- ---------------------------------------------------------------------------

def cutAt (m : Bytes) (a : Nat) (toks : List (Nat × Nat)) : Bytes :=
  fun x => if ∃ t ∈ toks, x = a + t.1 + t.2 then 0 else m x

def tokenPtrs (a k : Nat) (toks : List (Nat × Nat)) : List (Option Nat) :=
  (toks.take k).map (fun t => some (a + t.1)) ++ List.replicate (k - toks.length) none

theorem cutAt_nil (m : Bytes) (a : Nat) : cutAt m a [] = m := by
  funext x
  simp [cutAt]

theorem cutAt_cons (m : Bytes) (a : Nat) (t : Nat × Nat) (toks : List (Nat × Nat)) :
    cutAt m a (t :: toks) = cutAt (setByte m (a + t.1 + t.2) 0) a toks := by
  funext x
  have hiff : (∃ u ∈ t :: toks, x = a + u.1 + u.2) ↔
      x = a + t.1 + t.2 ∨ ∃ u ∈ toks, x = a + u.1 + u.2 := by simp
  simp only [cutAt, setByte, if_congr hiff rfl rfl]
  by_cases hx : x = a + t.1 + t.2
  · simp [hx]
  · rw [if_neg hx]
    exact if_congr (or_iff_right hx) rfl rfl

theorem strtokNext_null (n : Nat) (delim : CStr) (k : Nat) (m : Bytes) :
    strtokNext n delim k none m = some (List.replicate k none, none, m) := by
  induction k with
  | zero => rfl
  | succ k ih =>
    have hcall : strtokCall n delim none none m = some (none, none, m) := rfl
    rw [strtokNext, hcall]
    simp only [ih, Option.map_some]
    rfl

theorem strtokCall_last (hm : HasStr m (a + i) (d ++ t)) (h0 : 0 ∉ d ++ t)
    (hd : ∀ x ∈ d, isSep delim x = true) (ht : ∀ x ∈ t, isSep delim x = false) (hne : t ≠ [])
    (hn : (d ++ t).length < n) :
    strtokCall n delim none (some (a + i)) m = some (some (a + (i + d.length)), none, m) ∧
      cutAt m a [(i + d.length, t.length)] = m := by
  have hm' : HasBytes m (a + i) (d ++ (t ++ 0 :: [])) := by
    rwa [HasStr, List.append_assoc] at hm
  have hcall := strtokCall_some hm' h0 hd ht hne (.inl rfl) (by simpa using hn)
    (Nat.add_assoc a i d.length).symm rfl
  rw [if_neg (not_not.mpr rfl)] at hcall
  refine ⟨hcall, funext fun x => ?_⟩
  have hend : m (a + (i + d.length) + t.length) = 0 := by
    have h := (hasStr_iff.mp hm).2
    rw [← h, List.length_append]
    congr 1
    omega
  simp only [cutAt, List.mem_singleton, exists_eq_left]
  split
  · next hx => rw [hx, hend]
  · rfl

theorem strtokCall_token (hm : HasStr m (a + i) (d ++ (t ++ c :: r))) (h0 : 0 ∉ d ++ (t ++ c :: r))
    (hd : ∀ x ∈ d, isSep delim x = true) (ht : ∀ x ∈ t, isSep delim x = false) (hne : t ≠ [])
    (hc : isSep delim c = true) (hn : (d ++ (t ++ c :: r)).length < n) :
    strtokCall n delim none (some (a + i)) m =
      some (some (a + (i + d.length)), some (a + (i + d.length + t.length + 1)),
        setByte m (a + (i + d.length) + t.length) 0) ∧
      HasStr (setByte m (a + (i + d.length) + t.length) 0)
        (a + (i + d.length + t.length + 1)) r := by
  have hm' : HasBytes m (a + i) (d ++ (t ++ c :: (r ++ [0]))) := by
    rwa [HasStr, List.append_assoc, List.append_assoc, List.cons_append] at hm
  have h0' : 0 ∉ d ++ t := fun h => h0 (by
    rw [← List.append_assoc]
    exact List.mem_append_left _ h)
  have hc0 : c ≠ 0 := fun h => h0 (by simp [h])
  have hlen : d.length + t.length < n := by
    simp only [List.length_append, List.length_cons] at hn
    omega
  have hcall := strtokCall_some hm' h0' hd ht hne (.inr hc) hlen
    (Nat.add_assoc a i d.length).symm rfl
  have haddr : a + (i + d.length) + t.length + 1 = a + (i + d.length + t.length + 1) := by omega
  rw [if_pos hc0, haddr] at hcall
  refine ⟨hcall, ?_⟩
  have h := ((hasBytes_append.mp ((hasBytes_append.mp hm').2)).2).2
  rw [Nat.add_assoc a i d.length, haddr] at h
  exact h.congr fun x hx _ => setByte_ne _ _ (by omega)

/-- What is left of the string from position `i` is split by the calls. -/
theorem strtokNext_tokens (delim : CStr) (hm : HasStr m (a + i) l) (h0 : 0 ∉ l)
    (hn : l.length < n) (k : Nat) :
    ∃ saved, strtokNext n delim k (some (a + i)) m =
      some (tokenPtrs a k (spans (isSep delim) i 0 l), saved,
        cutAt m a ((spans (isSep delim) i 0 l).take k)) := by
  induction k generalizing i l m with
  | zero => exact ⟨some (a + i), by rw [strtokNext, List.take_zero, cutAt_nil]; simp [tokenPtrs]⟩
  | succ k ih =>
    rw [strtokNext]
    rcases cut (isSep delim) l with hd | ⟨d, t, hd, ht, hne, rfl⟩ |
      ⟨d, t, c, r, hd, ht, hne, hc, rfl⟩
    · refine ⟨none, ?_⟩
      have hspans : spans (isSep delim) i 0 l = [] := by
        have h := spans_skip (i := i) (l := []) hd
        rw [List.append_nil] at h
        rw [h]
        rfl
      simp only [strtokCall_none hm h0 hd hn, strtokNext_null, hspans, List.take_nil, cutAt_nil,
        Option.map_some, tokenPtrs, List.map_nil, List.nil_append, List.length_nil, Nat.sub_zero]
      rfl
    · refine ⟨none, ?_⟩
      have hspans : spans (isSep delim) i 0 (d ++ t) = [(i + d.length, t.length)] := by
        rw [spans_skip hd, spans_last ht hne]
      obtain ⟨hcall, hcut⟩ := strtokCall_last hm h0 hd ht hne hn
      simp only [hcall, strtokNext_null, hspans, Option.map_some, List.take_succ_cons,
        List.take_nil, hcut, tokenPtrs, List.map_cons, List.map_nil, List.length_singleton,
        Nat.add_sub_cancel, List.cons_append, List.nil_append]
    · have hspans : spans (isSep delim) i 0 (d ++ (t ++ c :: r)) =
          (i + d.length, t.length) :: spans (isSep delim) (i + d.length + t.length + 1) 0 r := by
        rw [spans_skip hd, spans_token ht hne hc]
      obtain ⟨hcall, hrest⟩ := strtokCall_token hm h0 hd ht hne hc hn
      simp only [List.length_append, List.length_cons] at hn
      obtain ⟨saved, hnext⟩ := ih hrest (fun h => h0 (by simp [h])) (by omega)
      refine ⟨saved, ?_⟩
      simp only [hcall, hnext, Option.map_some, hspans, List.take_succ_cons, cutAt_cons,
        tokenPtrs, List.map_cons, List.length_cons, Nat.add_sub_add_right, List.cons_append]

theorem strtokCalls_eq (n : Nat) (delim : CStr) (a k : Nat) (saved : Option Nat) (m : Bytes) :
    strtokCalls n delim a k saved m = strtokNext n delim (k + 1) (some a) m := rfl

theorem cutAt_piece {sep : UInt8 → Bool} {i len : Nat} {toks : List (Nat × Nat)}
    (hm : HasStr m a s) (ht : IsToken sep s i len) (hmem : (i, len) ∈ toks)
    (hsub : ∀ u ∈ toks, IsToken sep s u.1 u.2) :
    HasStr (cutAt m a toks) (a + i) (piece s (i, len)) := by
  have hle := ht.le
  have hlen : (piece s (i, len)).length = len := by
    rw [piece, List.length_take, List.length_drop]
    omega
  rw [hasStr_iff, hlen]
  refine ⟨hasBytes_iff.mpr fun k hk => ?_, ?_⟩
  · rw [hlen] at hk
    have hno : ¬ ∃ u ∈ toks, a + i + k = a + u.1 + u.2 := by
      rintro ⟨u, hu, heq⟩
      have hfree := ht.free (i + k) (by omega) (by omega)
      have hat : u.1 + u.2 = i + k := by omega
      rcases (hsub u hu).right with hend | hsep
      · omega
      · rw [hat, hfree] at hsep
        cases hsep
    have hs : m (a + (i + k)) = s[i + k] :=
      hasBytes_iff.mp (hasStr_iff.mp hm).1 (i + k) (by omega)
    rw [cutAt, if_neg hno, Nat.add_assoc, hs]
    simp [piece]
  · exact if_pos ⟨(i, len), hmem, rfl⟩

-- ---------------------------------------------------------------------------
-- vfs_resolve
-- ---------------------------------------------------------------------------

/-- `"/"` -/
def slashDelim : CStr := [SLASH]

/-- The loop of `vfs_resolve`, `k` turns at most. -/
def walkTokens (n : Nat) (fp : FatPrivate) (fuel : Nat) :
    Nat → Option Nat → Option Nat → Bytes → Nat → Tree → Disk →
      Option (Option Nat × Tree × Disk)
  | 0, _, _, _, _, _, _ => none
  | _ + 1, none, _, _, curr, t, d => some (some curr, t, d)
  | k + 1, some part, saved, m, curr, t, d =>
    if t.hasFlag curr VFS_DIR then
      match vfsLoad fp fuel curr t d with
      | none => none
      | some (t, d) =>
        match readStr m n part with
        | none => none
        | some name =>
          match t.find name (t.children curr) with
          | none => some (none, t, d)
          | some child =>
            match strtokCall n slashDelim none saved m with
            | none => none
            | some (part, saved, m) => walkTokens n fp fuel k part saved m child t d
    else some (none, t, d)

/-- `vfs_resolve`; the bytes of the stack are `m` before, and `buf` is at `a`. -/
def resolveTokens (n : Nat) (fp : FatPrivate) (fuel : Nat) (path : CStr) (a : Nat)
    (saved : Option Nat) (m : Bytes) (t : Tree) (d : Disk) : Option (Option Nat × Tree × Disk) :=
  match t.root with
  | none => some (none, t, d)
  | some root =>
    if path = [] then some (some root, t, d)
    else
      match strtokCall n slashDelim (some a) saved (putBytes m a (path ++ [0])) with
      | none => none
      | some (part, saved, m) => walkTokens n fp fuel n part saved m root t d

theorem strtok_eq_pieces (pre l part : CStr) (h : ∃ front, pre = front ++ part) :
    strtok part l =
      (spans (isSep slashDelim) pre.length part.length l).map (piece (pre ++ l)) := by
  induction l generalizing pre part with
  | nil =>
    obtain ⟨front, rfl⟩ := h
    rw [strtok, spans]
    by_cases hpart : part = []
    · rw [if_pos hpart, if_pos (by rw [hpart]; rfl)]
      rfl
    · rw [if_neg hpart, if_neg (fun h => hpart (List.length_eq_zero_iff.mp h))]
      simp [piece]
  | cons c l ih =>
    have hsplit : pre ++ c :: l = (pre ++ [c]) ++ l := by
      rw [List.append_assoc, List.singleton_append]
    have hlen : (pre ++ [c]).length = pre.length + 1 := by simp
    have hrest := ih (pre ++ [c]) [] ⟨pre ++ [c], (List.append_nil _).symm⟩
    rw [strtok, spans]
    by_cases hc : c = SLASH
    · have hsep : isSep slashDelim c = true := by rw [hc]; rfl
      rw [if_pos hc, if_pos hsep]
      rw [hlen, List.length_nil, ← hsplit] at hrest
      by_cases hpart : part = []
      · rw [if_pos hpart, if_pos (by rw [hpart]; rfl), hrest]
      · rw [if_neg hpart, if_neg (fun h => hpart (List.length_eq_zero_iff.mp h)), List.map_cons,
          hrest]
        obtain ⟨front, rfl⟩ := h
        congr 1
        simp [piece]
    · have hsep : ¬ isSep slashDelim c = true := by
        simpa [isSep, slashDelim] using hc
      rw [if_neg hc, if_neg hsep]
      obtain ⟨front, rfl⟩ := h
      have hopen := ih (front ++ part ++ [c]) (part ++ [c]) ⟨front, List.append_assoc ..⟩
      rw [hopen, hlen, ← hsplit]
      simp

theorem isSep_slash (hc : isSep slashDelim c = true) : c = SLASH := by
  simpa [isSep, slashDelim] using hc

theorem strtok_seps (hd : ∀ x ∈ d, isSep slashDelim x = true) :
    strtok [] (d ++ l) = strtok [] l := by
  induction d with
  | nil => rfl
  | cons x d ih =>
    rw [List.cons_append, strtok, if_pos (isSep_slash (hd x (List.mem_cons_self ..))), if_pos rfl]
    exact ih fun y hy => hd y (List.mem_cons_of_mem _ hy)

theorem strtok_token (ht : ∀ x ∈ t, isSep slashDelim x = false) (hne : t ≠ []) :
    strtok [] t = [t] := by
  have hslash : SLASH ∉ t := fun h => by
    have hsep := ht _ h
    cases hsep
  exact strtok_name [] hslash hne

/-- A turn with the part at `p`, and the walk behind it. -/
theorem walkTokens_turn (fp : FatPrivate) (fuel : Nat) (saved : Option Nat)
    (parts : List CStr) (hread : readStr m n p = some s)
    (hstep : ∀ child tree disk,
      (match strtokCall n slashDelim none saved m with
        | none => none
        | some (part, saved, m) => walkTokens n fp fuel k part saved m child tree disk) =
      vfsWalk fp fuel parts child tree disk) (curr : Nat) (tree : Tree) (disk : Disk) :
    walkTokens n fp fuel (k + 1) (some p) saved m curr tree disk =
      vfsWalk fp fuel (s :: parts) curr tree disk := by
  rw [walkTokens, vfsWalk]
  split
  · cases vfsLoad fp fuel curr tree disk with
    | none => rfl
    | some loaded =>
      obtain ⟨tree, disk⟩ := loaded
      simp only [hread]
      cases tree.find s (tree.children curr) with
      | none => rfl
      | some child => exact hstep child tree disk
  · rfl

theorem walkTokens_eq (fp : FatPrivate) (fuel : Nat) (hm : HasStr m p l) (h0 : 0 ∉ l)
    (hn : l.length < n) (hk : l.length < k) (curr : Nat) (tree : Tree) (disk : Disk) :
    (match strtokCall n slashDelim none (some p) m with
      | none => none
      | some (part, saved, m) => walkTokens n fp fuel k part saved m curr tree disk) =
    vfsWalk fp fuel (strtok [] l) curr tree disk := by
  induction k generalizing p l m curr tree disk with
  | zero => omega
  | succ k ih =>
    rcases cut (isSep slashDelim) l with hd | ⟨d, t, hd, ht, hne, rfl⟩ |
      ⟨d, t, c, r, hd, ht, hne, hc, rfl⟩
    · have hparts : strtok [] l = [] := by
        have h := strtok_seps (l := []) hd
        rwa [List.append_nil] at h
      rw [strtokCall_none hm h0 hd hn, hparts]
      rfl
    · have hm' : HasBytes m p (d ++ (t ++ 0 :: [])) := by rwa [HasStr, List.append_assoc] at hm
      have hlen : d.length + t.length < n := by simpa using hn
      have hcall := strtokCall_some hm' h0 hd ht hne (.inl rfl) hlen rfl rfl
      rw [if_neg (not_not.mpr rfl)] at hcall
      have hread : readStr m n (p + d.length) = some t :=
        readStr_eq (hasBytes_append.mp hm').2 (fun h => h0 (List.mem_append_right _ h)) (by omega)
      obtain ⟨k, rfl⟩ : ∃ k', k = k' + 1 := by
        have hpos := List.length_pos_iff.mpr hne
        rw [List.length_append] at hk
        exact ⟨k - 1, by omega⟩
      rw [hcall, strtok_seps hd, strtok_token ht hne]
      exact walkTokens_turn fp fuel none [] hread (fun _ _ _ => rfl) curr tree disk
    · have hm' : HasBytes m p (d ++ (t ++ c :: (r ++ [0]))) := by
        rwa [HasStr, List.append_assoc, List.append_assoc, List.cons_append] at hm
      have h0' : 0 ∉ d ++ t := fun h => h0 (by
        rw [← List.append_assoc]
        exact List.mem_append_left _ h)
      have hc0 : c ≠ 0 := fun h => h0 (by simp [h])
      simp only [List.length_append, List.length_cons] at hn hk
      have hcall := strtokCall_some (n := n) hm' h0' hd ht hne (.inr hc) (by omega) rfl rfl
      rw [if_pos hc0] at hcall
      obtain ⟨-, htok⟩ := hasBytes_append.mp hm'
      obtain ⟨htok, hc', hrest⟩ := hasBytes_append.mp htok
      have hread : readStr (setByte m (p + d.length + t.length) 0) n (p + d.length) = some t := by
        refine readStr_eq (hasStr_iff.mpr ⟨?_, setByte_same ..⟩)
          (fun h => h0' (List.mem_append_right _ h)) (by omega)
        exact htok.congr fun x _ hx => setByte_ne _ _ (by omega)
      have hnext := @ih (setByte m (p + d.length + t.length) 0) (p + d.length + t.length + 1) r
        (HasBytes.congr hrest fun x hx _ => setByte_ne _ _ (by omega)) (fun h => h0 (by simp [h]))
        (by omega) (by omega)
      have hparts : strtok [] (d ++ (t ++ c :: r)) = t :: strtok [] r := by
        rw [strtok_seps hd, isSep_slash hc, strtok_slash, strtok_token ht hne]
        rfl
      rw [hcall, hparts]
      exact walkTokens_turn fp fuel _ _ hread hnext curr tree disk

/-- The calls return the tokens from left to right and then NULL, and write the NUL behind each of
them; so `vfs_resolve` walks over the tokens of its path. -/
theorem strtok_tokens (delim : CStr) (s : CStr) (h0 : 0 ∉ s) :
    ∃ toks : List (Nat × Nat),
      (∀ i len, (i, len) ∈ toks ↔ IsToken (isSep delim) s i len) ∧
      toks.Pairwise (fun t u => t.1 + t.2 < u.1) ∧
      (∀ (n a k : Nat) (saved : Option Nat) (m : Bytes), s.length < n → HasStr m a s →
        ∃ saved', strtokCalls n delim a k saved m =
            some (tokenPtrs a (k + 1) toks, saved', cutAt m a (toks.take (k + 1))) ∧
          ∀ t ∈ toks.take (k + 1),
            HasStr (cutAt m a (toks.take (k + 1))) (a + t.1) (piece s t)) ∧
      (delim = slashDelim → ∀ n fp fuel a saved m t d, s.length < n →
        resolveTokens n fp fuel s a saved m t d =
          match t.root with
          | none => some (none, t, d)
          | some root => vfsWalk fp fuel (toks.map (piece s)) root t d) := by
  have hall : ∀ i len, (i, len) ∈ spans (isSep delim) 0 0 s ↔ IsToken (isSep delim) s i len :=
    fun i len => mem_spans (isSep delim) s
  refine ⟨spans (isSep delim) 0 0 s, hall, spans_sorted (Nat.le_refl 0), ?_, ?_⟩
  · intro n a k saved m hn hm
    obtain ⟨saved', hcalls⟩ := strtokNext_tokens delim (i := 0) hm h0 hn (k + 1)
    refine ⟨saved', (strtokCalls_eq n delim a k saved m).trans hcalls, fun t ht => ?_⟩
    have hsub : ∀ u ∈ (spans (isSep delim) 0 0 s).take (k + 1), IsToken (isSep delim) s u.1 u.2 :=
      fun u hu => (hall u.1 u.2).mp (List.mem_of_mem_take hu)
    exact cutAt_piece hm (hsub t ht) ht hsub
  · rintro rfl n fp fuel a saved m t d hn
    have hpieces : strtok [] s = (spans (isSep slashDelim) 0 0 s).map (piece s) :=
      strtok_eq_pieces [] s [] ⟨[], rfl⟩
    rw [resolveTokens]
    cases t.root with
    | none => rfl
    | some root =>
      dsimp only
      by_cases hs : s = []
      · rw [if_pos hs, hs]
        rfl
      · rw [if_neg hs, ← hpieces]
        exact walkTokens_eq fp fuel (putBytes_nul m a s) h0 hn hn root t d

/-- `/a//b` -/
def twoParts : CStr := [SLASH, 97, SLASH, SLASH, 98]

theorem twoParts_token : IsToken (isSep slashDelim) twoParts 1 1 :=
  ⟨by decide, by decide, fun k hk hlt => by
    obtain rfl : k = 1 := by omega
    decide, .inr (by decide), .inr (by decide)⟩

theorem strtok_tokens_twoParts :
    ∃ toks : List (Nat × Nat), (1, 1) ∈ toks ∧
      ∃ saved', strtokCalls 6 slashDelim 0 2 none (putBytes (fun _ => 0) 0 (twoParts ++ [0])) =
        some (tokenPtrs 0 3 toks, saved',
          cutAt (putBytes (fun _ => 0) 0 (twoParts ++ [0])) 0 (toks.take 3)) := by
  obtain ⟨toks, hall, -, hcalls, -⟩ := strtok_tokens slashDelim twoParts (by decide)
  obtain ⟨saved', h, -⟩ := hcalls 6 0 2 none (putBytes (fun _ => 0) 0 (twoParts ++ [0])) (by decide)
    (putBytes_nul _ 0 twoParts)
  exact ⟨toks, (hall 1 1).mpr twoParts_token, saved', h⟩

end EponaOS.Fs
