import EponaOS.Fs.Fat
import EponaOS.Lib.PathStack

/-!
# Canonical paths

`normalize_path` and `resolve_path` of `shell.c`: one pass over the path keeps the parts on a
stack of 32 slices, and then the path is built from them in `out`. What is written to `out` starts
at its first byte and goes on without a gap, so that it is a list. Lengths are those of strings in
arrays of 512 bytes.
-/

namespace EponaOS.Kernel

open Fs

/-- `'/'` -/
abbrev SLASH : UInt8 := 0x2F

def DOT : CStr := [0x2E]
def DOT_DOT : CStr := [0x2E, 0x2E]

/-- The loop over `combined`; each turn takes a part, so that its length and one are enough. -/
def normalizeSegs : Nat → CStr → List CStr → Option (List CStr)
  | 0, _, segs => some segs
  | fuel + 1, p, segs =>
    if p = [] then some segs
    else
      let start := p.dropWhile (· == SLASH)
      if start = [] then some segs
      else
        let seg := start.takeWhile (· != SLASH)
        let p := start.dropWhile (· != SLASH)
        if seg = DOT then normalizeSegs fuel p segs
        else if seg = DOT_DOT then normalizeSegs fuel p segs.dropLast
        else if segs.length ≥ 32 then none
        else normalizeSegs fuel p (segs ++ [seg])

/-- The loop over the segments; `first` is `i = 0`. The value that is returned, and what was
written. -/
def rebuildPath (max : Nat) (first : Bool) : List CStr → CStr → Int × CStr
  | [], out => (0, out ++ [0])
  | seg :: segs, out =>
    if !first ∧ out.length ≥ max - 1 then (-1, out)
    else
      let out := if first then out else out ++ [SLASH]
      if out.length + seg.length ≥ max then (-1, out)
      else rebuildPath max false segs (out ++ seg)

def normalizePath (combined : CStr) (max : Nat) : Int × CStr :=
  match normalizeSegs (combined.length + 1) combined [] with
  | none => (-1, [])
  | some segs => if 0 ≥ max then (-1, []) else rebuildPath max true segs [SLASH]

/-- `CWD_MAX + SHELL_LINE_MAX` -/
def COMBINED_MAX : Nat := 512

/-- With `cwd` in `g_cwd`. -/
def resolvePath (cwd : CStr) (input : Option CStr) (max : Nat) : Int × CStr :=
  match input with
  | none | some [] => normalizePath (cwd.take (COMBINED_MAX - 1)) max
  | some (c :: rest) =>
    if c = SLASH then normalizePath ((c :: rest).take (COMBINED_MAX - 1)) max
    else if cwd.length + 1 + (c :: rest).length ≥ COMBINED_MAX then (-1, [])
    else normalizePath (cwd ++ SLASH :: c :: rest) max

-- ---------------------------------------------------------------------------
-- What is meant
-- ---------------------------------------------------------------------------

def pathRules : PathRules UInt8 where
  sep := SLASH
  skips part := part == [] || part == DOT
  ups part := part == DOT_DOT
  skips_nil := rfl

def pathParts (p : CStr) : List CStr := p.splitOn SLASH

def canonicalPath (p : CStr) : CStr := pathRules.join (pathRules.walk [] p)

/-- The stack of components never exceeds 32. -/
def StackBounded (p : CStr) : Prop := pathRules.Within 32 [] (pathParts p)

-- ---------------------------------------------------------------------------
-- The stack
-- ---------------------------------------------------------------------------

variable {p q : CStr} {segs stack : List CStr} {max : Nat}

theorem pushWithin_path (segs : List CStr) (seg : CStr) (hne : seg ≠ []) :
    pathRules.pushWithin 32 segs seg =
      if seg = DOT then some segs
      else if seg = DOT_DOT then some segs.dropLast
      else if segs.length ≥ 32 then none
      else some (segs ++ [seg]) := by
  simp [PathRules.pushWithin, pathRules, hne]

theorem foldlM_skip (segs : List CStr) (parts : List CStr) :
    ([] :: parts).foldlM (pathRules.pushWithin 32) segs =
      parts.foldlM (pathRules.pushWithin 32) segs := rfl

theorem pathParts_slash (p : CStr) : pathParts (SLASH :: p) = [] :: pathParts p := by
  rw [pathParts, List.splitOn_cons_eq_if_modifyHead, if_pos (beq_self_eq_true SLASH)]
  rfl

theorem parts_dropWhile (p : CStr) (segs : List CStr) :
    (pathParts (p.dropWhile (· == SLASH))).foldlM (pathRules.pushWithin 32) segs =
      (pathParts p).foldlM (pathRules.pushWithin 32) segs := by
  induction p with
  | nil => rfl
  | cons x p ih =>
    by_cases hx : x = SLASH
    · have hdrop : (x :: p).dropWhile (· == SLASH) = p.dropWhile (· == SLASH) := by simp [hx]
      rw [hdrop, ih, hx, pathParts_slash, foldlM_skip]
    · have hdrop : (x :: p).dropWhile (· == SLASH) = x :: p := by simp [hx]
      rw [hdrop]

theorem parts_takeWhile (p : CStr) (segs : List CStr) :
    (pathParts p).foldlM (pathRules.pushWithin 32) segs =
      (pathRules.pushWithin 32 segs (p.takeWhile (· != SLASH))).bind
        ((pathParts (p.dropWhile (· != SLASH))).foldlM (pathRules.pushWithin 32)) := by
  obtain ⟨seg, hseg⟩ : ∃ seg, seg = p.takeWhile (· != SLASH) := ⟨_, rfl⟩
  have hwhole : SLASH ∉ seg := by
    intro hmem
    rw [hseg] at hmem
    have := List.all_eq_true.mp List.all_takeWhile _ hmem
    simp at this
  have hsplit : p = seg ++ p.dropWhile (· != SLASH) := by
    rw [hseg, List.takeWhile_append_dropWhile]
  rw [← hseg]
  cases hrest : p.dropWhile (· != SLASH) with
  | nil =>
    rw [hrest, List.append_nil] at hsplit
    rw [hsplit, pathParts, List.splitOn_eq_singleton hwhole]
    rfl
  | cons x rest =>
    have hx : x = SLASH := by
      have := List.head?_dropWhile_not (· != SLASH) p
      rw [hrest] at this
      simpa using this
    rw [hrest, hx] at hsplit
    rw [hx, hsplit, pathParts_slash, pathParts, List.splitOn_append_cons_self,
      List.splitOn_eq_singleton hwhole]
    rfl

theorem normalizeSegs_eq (h : p.length < fuel) (segs : List CStr) :
    normalizeSegs fuel p segs = (pathParts p).foldlM (pathRules.pushWithin 32) segs := by
  induction fuel generalizing p segs with
  | zero => omega
  | succ fuel ih =>
    rw [normalizeSegs]
    by_cases hp : p = []
    · rw [if_pos hp, hp]
      rfl
    rw [if_neg hp]
    simp only
    rw [← parts_dropWhile]
    by_cases hstart : p.dropWhile (· == SLASH) = []
    · rw [if_pos hstart, hstart]
      rfl
    rw [if_neg hstart, parts_takeWhile]
    have hlen : (p.dropWhile (· == SLASH)).length ≤ p.length := (List.dropWhile_sublist _).length_le
    obtain ⟨start, hs⟩ : ∃ start, start = p.dropWhile (· == SLASH) := ⟨_, rfl⟩
    rw [← hs] at hstart hlen ⊢
    have hhead : start.takeWhile (· != SLASH) ≠ [] := by
      cases hcons : start with
      | nil => exact absurd hcons hstart
      | cons x rest =>
        have := List.head?_dropWhile_not (· == SLASH) p
        rw [← hs, hcons] at this
        simp only [List.head?_cons, beq_eq_false_iff_ne] at this
        simp [this]
    have hrest : (start.dropWhile (· != SLASH)).length < fuel := by
      have hcut := congrArg List.length
        (List.takeWhile_append_dropWhile (p := (· != SLASH)) (l := start))
      have hpos := List.length_pos_iff.mpr hhead
      rw [List.length_append] at hcut
      omega
    rw [pushWithin_path _ _ hhead]
    split
    · exact ih hrest segs
    · split
      · exact ih hrest segs.dropLast
      · split
        · rfl
        · exact ih hrest _

-- ---------------------------------------------------------------------------
-- The path in `out`
-- ---------------------------------------------------------------------------

/-- The path `full` is in `out` with its end, or there was no room for it. -/
def Rebuilt (max : Nat) (full : CStr) (r : Int × CStr) : Prop :=
  (r = (0, full ++ [0]) ∧ full.length < max) ∨ (r.1 = -1 ∧ max ≤ full.length ∧ r.2.length ≤ max)

def behindSlashes (segs : List CStr) : CStr := segs.flatMap (SLASH :: ·)

theorem rebuildPath_rest (segs : List CStr) (out : CStr) (h : out.length < max) :
    Rebuilt max (out ++ behindSlashes segs) (rebuildPath max false segs out) := by
  induction segs generalizing out with
  | nil =>
    rw [behindSlashes, List.flatMap_nil, List.append_nil]
    exact .inl ⟨rfl, h⟩
  | cons seg segs ih =>
    have hfull : out ++ behindSlashes (seg :: segs) =
        out ++ [SLASH] ++ seg ++ behindSlashes segs := by
      simp [behindSlashes]
    rw [hfull, rebuildPath]
    by_cases hslash : out.length ≥ max - 1
    · rw [if_pos ⟨rfl, hslash⟩]
      refine .inr ⟨rfl, ?_, Nat.le_of_lt h⟩
      simp only [List.length_append, List.length_singleton]
      omega
    rw [if_neg fun hboth => hslash hboth.2]
    simp only [Bool.false_eq_true, if_false]
    split
    · next hseg =>
      refine .inr ⟨rfl, ?_, ?_⟩
      · rw [List.length_append, List.length_append]
        omega
      · rw [List.length_append, List.length_singleton]
        omega
    · next hseg =>
      refine ih (out ++ [SLASH] ++ seg) ?_
      rw [List.length_append]
      omega

theorem join_cons (seg : CStr) (segs : List CStr) :
    pathRules.join (seg :: segs) = [SLASH] ++ seg ++ behindSlashes segs := by
  have hcat : [SLASH].intercalate (seg :: segs) = seg ++ behindSlashes segs := by
    induction segs generalizing seg with
    | nil => simp [behindSlashes]
    | cons seg' segs ih =>
      rw [List.intercalate_cons_cons, ih]
      simp [behindSlashes]
  rw [PathRules.join]
  change SLASH :: [SLASH].intercalate (seg :: segs) = _
  rw [hcat]
  rfl

theorem rebuildPath_join (hmax : 2 ≤ max) (segs : List CStr) :
    Rebuilt max (pathRules.join segs) (rebuildPath max true segs [SLASH]) := by
  cases segs with
  | nil => exact .inl ⟨rfl, hmax⟩
  | cons seg segs =>
    rw [join_cons, rebuildPath, if_neg (by simp)]
    simp only [if_true]
    split
    · next hseg =>
      refine .inr ⟨rfl, ?_, ?_⟩
      · rw [List.length_append, List.length_append]
        omega
      · rw [List.length_singleton]
        omega
    · next hseg =>
      refine rebuildPath_rest segs ([SLASH] ++ seg) ?_
      rw [List.length_append]
      omega

-- ---------------------------------------------------------------------------
-- The whole function
-- ---------------------------------------------------------------------------

theorem normalizePath_bounded (hmax : 2 ≤ max) (h : StackBounded p) :
    Rebuilt max (canonicalPath p) (normalizePath p max) := by
  rw [normalizePath, normalizeSegs_eq (Nat.lt_succ_self _),
    pathRules.foldlM_some (Nat.zero_le _) h]
  simp only
  rw [if_neg (by omega)]
  exact rebuildPath_join hmax _

theorem normalizePath_unbounded (h : ¬ StackBounded p) : normalizePath p max = (-1, []) := by
  rw [normalizePath, normalizeSegs_eq (Nat.lt_succ_self _),
    pathRules.foldlM_none (Nat.zero_le _) h]

theorem Rebuilt.value_iff (h : Rebuilt max full r) : r.1 = 0 ↔ full.length < max := by
  obtain ⟨rfl, hlt⟩ | ⟨hr, hle, -⟩ := h
  · exact ⟨fun _ => hlt, fun _ => rfl⟩
  · rw [hr]
    constructor
    · exact fun h => absurd h (by decide)
    · omega

/-- The call succeeds exactly when the stack has room for the components and `out` for the path. -/
theorem normalizePath_iff (hmax : 2 ≤ max) (p : CStr) :
    (normalizePath p max).1 = 0 ↔ StackBounded p ∧ (canonicalPath p).length < max := by
  by_cases h : StackBounded p
  · rw [(normalizePath_bounded hmax h).value_iff]
    exact (and_iff_right h).symm
  · rw [normalizePath_unbounded h]
    exact ⟨fun h0 => absurd h0 (by decide), fun h0 => absurd h0.1 h⟩

theorem normalizePath_ok (hmax : 2 ≤ max) (h : (normalizePath p max).1 = 0) :
    normalizePath p max = (0, canonicalPath p ++ [0]) := by
  have hok := (normalizePath_iff hmax p).mp h
  obtain ⟨hr, -⟩ | ⟨-, hle, -⟩ := normalizePath_bounded hmax hok.1
  · exact hr
  · omega

theorem normalizePath_writes (hmax : 2 ≤ max) (p : CStr) :
    (normalizePath p max).2.length ≤ max := by
  by_cases h : StackBounded p
  · obtain ⟨hr, hlt⟩ | ⟨-, -, hle⟩ := normalizePath_bounded hmax h
    · rw [hr, List.length_append, List.length_singleton]
      omega
    · exact hle
  · rw [normalizePath_unbounded h]
    exact Nat.zero_le _

theorem canonicalPath_canonical (p : CStr) : canonicalPath (canonicalPath p) = canonicalPath p := by
  rw [canonicalPath, canonicalPath, pathRules.walk_join (pathRules.walk_kept p)]

theorem canonicalPath_append (p q : CStr) :
    canonicalPath (canonicalPath p ++ SLASH :: q) = canonicalPath (p ++ SLASH :: q) := by
  have hwalk (p : CStr) : pathRules.walk [] (p ++ SLASH :: q) =
      pathRules.walk (pathRules.walk [] p) q := pathRules.walk_append [] p q
  rw [canonicalPath, hwalk, canonicalPath, pathRules.walk_join (pathRules.walk_kept p),
    canonicalPath, hwalk]

theorem stackBounded_canonical (h : StackBounded p) : StackBounded (canonicalPath p) := by
  refine pathRules.within_join (pathRules.walk_kept p) ?_
  have hend := h (pathParts p).length
  rwa [List.take_length] at hend

theorem normalizePath_again (hmax : 2 ≤ max) (h : (normalizePath p max).1 = 0) :
    normalizePath (canonicalPath p) max = normalizePath p max := by
  obtain ⟨hbound, hlt⟩ := (normalizePath_iff hmax p).mp h
  have hagain : (normalizePath (canonicalPath p) max).1 = 0 := by
    rw [normalizePath_iff hmax, canonicalPath_canonical]
    exact ⟨stackBounded_canonical hbound, hlt⟩
  rw [normalizePath_ok hmax hagain, normalizePath_ok hmax h, canonicalPath_canonical]

theorem normalizePath_append (hmax : 2 ≤ max)
    (hcanon : (normalizePath (canonicalPath p ++ SLASH :: q) max).1 = 0)
    (h : (normalizePath (p ++ SLASH :: q) max).1 = 0) :
    normalizePath (canonicalPath p ++ SLASH :: q) max = normalizePath (p ++ SLASH :: q) max := by
  rw [normalizePath_ok hmax hcanon, normalizePath_ok hmax h, canonicalPath_append]

/-- A path relative to the canonical `g_cwd` is one relative to the path that `cd` was given. -/
theorem resolvePath_relative (hmax : 2 ≤ max) (hc : c ≠ SLASH)
    (hcanon : (resolvePath (canonicalPath p) (some (c :: rest)) max).1 = 0)
    (h : (normalizePath (p ++ SLASH :: c :: rest) max).1 = 0) :
    resolvePath (canonicalPath p) (some (c :: rest)) max =
      normalizePath (p ++ SLASH :: c :: rest) max := by
  rw [resolvePath, if_neg hc] at hcanon ⊢
  split at hcanon
  · exact absurd hcanon (by decide)
  · next hroom =>
    rw [if_neg hroom]
    exact normalizePath_append hmax hcanon h

/-- What `normalize_path` computes, and how it goes together with itself. -/
theorem normalizePath_canonical (max : Nat) (hmax : 2 ≤ max) (p : CStr) :
    ((normalizePath p max).1 = 0 ↔ StackBounded p ∧ (canonicalPath p).length < max) ∧
    ((normalizePath p max).1 = 0 → (normalizePath p max).2 = canonicalPath p ++ [0]) ∧
    (normalizePath p max).2.length ≤ max ∧
    ((normalizePath p max).1 = 0 → normalizePath (canonicalPath p) max = normalizePath p max) ∧
    ∀ q, (normalizePath (canonicalPath p ++ SLASH :: q) max).1 = 0 →
      (normalizePath (p ++ SLASH :: q) max).1 = 0 →
      normalizePath (canonicalPath p ++ SLASH :: q) max = normalizePath (p ++ SLASH :: q) max := by
  refine ⟨normalizePath_iff hmax p, fun h => ?_, normalizePath_writes hmax p,
    normalizePath_again hmax, fun q => normalizePath_append hmax⟩
  rw [normalizePath_ok hmax h]

/-- `/a/..//./b` -/
def dottedPath : CStr := [0x2F, 0x61, 0x2F, 0x2E, 0x2E, 0x2F, 0x2F, 0x2E, 0x2F, 0x62]

/-- It becomes `/b`. -/
theorem normalizePath_canonical_dotted :
    2 ≤ 3 ∧ StackBounded dottedPath ∧ (canonicalPath dottedPath).length < 3 ∧
    normalizePath dottedPath 3 = (0, [0x2F, 0x62, 0]) ∧
    normalizePath (canonicalPath dottedPath) 3 = normalizePath dottedPath 3 := by
  obtain ⟨hiff, -, -, hagain, -⟩ := normalizePath_canonical 3 (by decide) dottedPath
  have hok : normalizePath dottedPath 3 = (0, [0x2F, 0x62, 0]) := by decide +kernel
  have hzero : (normalizePath dottedPath 3).1 = 0 := by rw [hok]
  obtain ⟨hbound, hlt⟩ := hiff.mp hzero
  exact ⟨by decide, hbound, hlt, hok, hagain hzero⟩

end EponaOS.Kernel
