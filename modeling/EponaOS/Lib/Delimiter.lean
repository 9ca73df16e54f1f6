import Mathlib.Data.List.Basic

/-!
# Searching a stream for a delimiter

`firstAt d S` is where the list `d` first occurs in `S`. A reader that gets the stream in
segments and looks at each one alone finds the first occurrence that lies whole in a
segment. That is the first one of the stream if no cut falls into it.
-/

namespace EponaOS

section
variable {α : Type} {d S p : List α}

theorem length_of_prefix_drop (h : d <+: S.drop i) (hd : d ≠ []) : i + d.length ≤ S.length := by
  have hle := h.length_le
  have hpos := List.length_pos_iff.mpr hd
  rw [List.length_drop] at hle
  omega

theorem drop_append_behind (h : p.length ≤ j) : (p ++ S).drop j = S.drop (j - p.length) := by
  rw [List.drop_append, List.drop_eq_nil_of_le h, List.nil_append]

/-- What comes behind the first segment does not matter to an occurrence inside it. -/
theorem prefix_drop_append (h : j + d.length ≤ p.length) :
    d <+: (p ++ S).drop j ↔ d <+: p.drop j := by
  rw [List.drop_append_of_le_length (by omega)]
  constructor
  · intro hpre
    refine List.prefix_of_prefix_length_le hpre (List.prefix_append ..) ?_
    rw [List.length_drop]
    omega
  · exact fun hpre => hpre.trans (List.prefix_append ..)

end

variable {α : Type} [DecidableEq α] {d S p : List α} {segs : List (List α)}

def firstAt (d : List α) : List α → Option Nat
  | [] => if d.isPrefixOf [] then some 0 else none
  | c :: S => if d.isPrefixOf (c :: S) then some 0 else (firstAt d S).map (· + 1)

theorem firstAt_some (h : firstAt d S = some i) :
    d <+: S.drop i ∧ ∀ j < i, ¬ d <+: S.drop j := by
  induction S generalizing i with
  | nil =>
    simp only [firstAt] at h
    split at h
    · rename_i hpre
      cases h
      exact ⟨List.isPrefixOf_iff_prefix.mp hpre, fun j hj => absurd hj (Nat.not_lt_zero j)⟩
    · cases h
  | cons c S ih =>
    simp only [firstAt] at h
    split at h
    · rename_i hpre
      cases h
      exact ⟨List.isPrefixOf_iff_prefix.mp hpre, fun j hj => absurd hj (Nat.not_lt_zero j)⟩
    · rename_i hpre
      obtain ⟨k, hk, rfl⟩ := Option.map_eq_some_iff.mp h
      obtain ⟨hat, hleast⟩ := ih hk
      refine ⟨hat, fun j hj => ?_⟩
      rcases j with _ | j
      · exact fun h0 => hpre (List.isPrefixOf_iff_prefix.mpr h0)
      · exact hleast j (by omega)

theorem firstAt_none (h : firstAt d S = none) (hj : j ≤ S.length) : ¬ d <+: S.drop j := by
  induction S generalizing j with
  | nil =>
    simp only [firstAt] at h
    split at h
    · cases h
    · rename_i hpre
      rw [List.drop_nil]
      exact fun h0 => hpre (List.isPrefixOf_iff_prefix.mpr h0)
  | cons c S ih =>
    simp only [firstAt] at h
    split at h
    · cases h
    · rename_i hpre
      rcases j with _ | j
      · exact fun h0 => hpre (List.isPrefixOf_iff_prefix.mpr h0)
      · exact ih (Option.map_eq_none_iff.mp h) (Nat.le_of_succ_le_succ hj)

theorem firstAt_eq_some (hi : i ≤ S.length) (hat : d <+: S.drop i)
    (hleast : ∀ j < i, ¬ d <+: S.drop j) : firstAt d S = some i := by
  rcases h : firstAt d S with _ | k
  · exact absurd hat (firstAt_none h hi)
  · obtain ⟨hk, hkleast⟩ := firstAt_some h
    rcases Nat.lt_trichotomy i k with hlt | rfl | hlt
    · exact absurd hat (hkleast i hlt)
    · rfl
    · exact absurd hk (hleast k hlt)

theorem firstAt_append_left (hd : d ≠ []) (h : firstAt d p = some i) :
    firstAt d (p ++ S) = some i := by
  obtain ⟨hat, hleast⟩ := firstAt_some h
  have hlen := length_of_prefix_drop hat hd
  refine firstAt_eq_some ?_ ((prefix_drop_append hlen).mpr hat) fun j hj => ?_
  · rw [List.length_append]
    omega
  · rw [prefix_drop_append (by omega)]
    exact hleast j hj

-- ---------------------------------------------------------------------------
-- Segment by segment
-- ---------------------------------------------------------------------------

def after (d S : List α) : List α := (firstAt d S).elim [] fun i => S.drop (i + d.length)

/-- What follows the first `d` that lies whole in a segment. -/
def afterWhole (d : List α) : List (List α) → List α
  | [] => []
  | p :: segs =>
    (firstAt d p).elim (afterWhole d segs) fun i => p.drop (i + d.length) ++ segs.flatten

/-- No cut between two segments falls into the first `d` of the stream. -/
def Uncut (d : List α) (segs : List (List α)) : Prop :=
  ∀ i, firstAt d segs.flatten = some i → ∀ k,
    ¬ (i < (segs.take k).flatten.length ∧ (segs.take k).flatten.length < i + d.length)

theorem firstAt_append_right (hnone : firstAt d p = none) (hi : firstAt d (p ++ S) = some i)
    (huncut : ¬ (i < p.length ∧ p.length < i + d.length)) :
    p.length ≤ i ∧ firstAt d S = some (i - p.length) := by
  obtain ⟨hat, hleast⟩ := firstAt_some hi
  have hge : p.length ≤ i := by
    by_contra hlt
    refine firstAt_none hnone (by omega : i ≤ p.length) ?_
    exact (prefix_drop_append (by omega)).mp hat
  rw [drop_append_behind hge] at hat
  refine ⟨hge, firstAt_eq_some ?_ hat fun j hj hpre => ?_⟩
  · by_contra hlt
    have hnil : d = [] := by
      rw [List.drop_eq_nil_of_le (by omega)] at hat
      exact List.prefix_nil.mp hat
    subst hnil
    exact hleast p.length (by omega) List.nil_prefix
  · refine hleast (j + p.length) (by omega) ?_
    rw [drop_append_behind (by omega), Nat.add_sub_cancel]
    exact hpre

theorem firstAt_append_none (hnone : firstAt d (p ++ S) = none) : firstAt d S = none := by
  rcases hS : firstAt d S with _ | i
  · rfl
  have hat := (firstAt_some hS).1
  by_cases hi : i ≤ S.length
  · refine absurd ?_ (firstAt_none hnone (j := p.length + i) (by rw [List.length_append]; omega))
    rw [drop_append_behind (by omega), Nat.add_sub_cancel_left]
    exact hat
  · refine absurd ?_ (firstAt_none hnone (Nat.zero_le _))
    rw [List.drop_eq_nil_of_le (by omega)] at hat
    rw [List.prefix_nil.mp hat]
    exact List.nil_prefix

theorem Uncut.head (h : Uncut d (p :: segs)) (hi : firstAt d (p ++ segs.flatten) = some i) :
    ¬ (i < p.length ∧ p.length < i + d.length) := by
  have h0 := h i hi 1
  simp only [List.take_succ_cons, List.take_zero, List.flatten_cons, List.flatten_nil,
    List.append_nil] at h0
  exact h0

theorem Uncut.tail (h : Uncut d (p :: segs)) (hnone : firstAt d p = none) : Uncut d segs := by
  intro i hi k hcut
  rcases hfirst : firstAt d (p ++ segs.flatten) with _ | j
  · rw [firstAt_append_none hfirst] at hi
    cases hi
  · obtain ⟨hge, hj⟩ := firstAt_append_right hnone hfirst (h.head hfirst)
    have hij : i = j - p.length := Option.some.inj (hi.symm.trans hj)
    refine h j hfirst (k + 1) ?_
    rw [List.take_succ_cons, List.flatten_cons, List.length_append]
    omega

theorem firstAt_nil (hd : d ≠ []) : firstAt d [] = none := by
  rcases hi : firstAt d [] with _ | i
  · rfl
  · have hlen := length_of_prefix_drop (firstAt_some hi).1 hd
    have hpos := List.length_pos_iff.mpr hd
    rw [List.length_nil] at hlen
    omega

theorem afterWhole_eq_after (hd : d ≠ []) (h : Uncut d segs) :
    afterWhole d segs = after d segs.flatten := by
  induction segs with
  | nil => rw [afterWhole, after, List.flatten_nil, firstAt_nil hd, Option.elim_none]
  | cons p segs ih =>
    rw [afterWhole, List.flatten_cons]
    rcases hp : firstAt d p with _ | i
    · rw [Option.elim_none, ih (h.tail hp), after, after]
      rcases hfirst : firstAt d (p ++ segs.flatten) with _ | j
      · rw [firstAt_append_none hfirst]
        rfl
      · obtain ⟨hge, hj⟩ := firstAt_append_right hp hfirst (h.head hfirst)
        have hbehind : p.length ≤ j + d.length := Nat.le_trans hge (Nat.le_add_right ..)
        have hsub : j - p.length + d.length = j + d.length - p.length := by omega
        rw [hj, Option.elim_some, Option.elim_some, drop_append_behind hbehind, hsub]
    · have hlen := length_of_prefix_drop (firstAt_some hp).1 hd
      rw [after, firstAt_append_left hd hp, Option.elim_some, Option.elim_some,
        List.drop_append_of_le_length hlen]

end EponaOS
