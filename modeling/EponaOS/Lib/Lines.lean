import Mathlib.Data.List.Basic

/-!
# Lines of a text

A text is lines with an end mark behind each, and what stands behind the last mark. Lines that are
cut to a length give a shorter text.
-/

namespace EponaOS.Lines

variable {α : Type} {nl : α} {rows : List (List α)} {cur t : List α} {n : Nat}

def joined (nl : α) (rows : List (List α)) : List α := rows.flatMap (· ++ [nl])

@[simp] theorem joined_nil (nl : α) : joined nl [] = [] := rfl

@[simp] theorem joined_cons (nl : α) (w : List α) (rows : List (List α)) :
    joined nl (w :: rows) = w ++ nl :: joined nl rows := by
  simp [joined]

theorem joined_append (nl : α) (rows rows' : List (List α)) :
    joined nl (rows ++ rows') = joined nl rows ++ joined nl rows' :=
  List.flatMap_append ..

theorem joined_getLast? (h : rows ≠ []) : (joined nl rows).getLast? = some nl := by
  obtain ⟨init, last, rfl⟩ := List.eq_nil_or_concat rows |>.resolve_left h
  rw [List.concat_eq_append, joined_append, joined_cons, joined_nil, ← List.append_assoc]
  exact List.getLast?_concat

theorem length_joined_take_le (n : Nat) (rows : List (List α)) :
    (joined nl (rows.map (List.take n))).length ≤ (joined nl rows).length := by
  induction rows with
  | nil => exact Nat.le_refl _
  | cons w rows ih =>
    rw [List.map_cons, joined_cons, joined_cons, List.length_append, List.length_append,
      List.length_cons, List.length_cons, List.length_take]
    omega

theorem short_of_length_joined_take
    (h : (joined nl rows).length ≤ (joined nl (rows.map (List.take n))).length) :
    ∀ w ∈ rows, w.length ≤ n := by
  induction rows with
  | nil => exact fun w hw => absurd hw List.not_mem_nil
  | cons w rows ih =>
    have hrest : (joined nl (rows.map (List.take n))).length ≤ (joined nl rows).length :=
      length_joined_take_le n rows
    rw [List.map_cons, joined_cons, joined_cons, List.length_append, List.length_append,
      List.length_cons, List.length_cons, List.length_take] at h
    refine List.forall_mem_cons.mpr ⟨by omega, ih (by omega)⟩

theorem map_take_of_short (h : ∀ w ∈ rows, w.length ≤ n) : rows.map (List.take n) = rows := by
  refine (List.map_congr_left fun w hw => ?_).trans (List.map_id rows)
  exact List.take_of_length_le (h w hw)

structure Split (nl : α) (t : List α) (rows : List (List α)) (cur : List α) : Prop where
  eq : t = joined nl rows ++ cur
  rows : ∀ w ∈ rows, nl ∉ w
  cur : nl ∉ cur

theorem Split.subset {w : List α} (h : Split nl t rows cur) (hw : w ∈ rows ∨ w = cur) :
    w ⊆ t := by
  intro c hc
  rw [h.eq]
  rcases hw with hw | rfl
  · exact List.mem_append_left _ (List.mem_flatMap.mpr ⟨w, hw, List.mem_append_left _ hc⟩)
  · exact List.mem_append_right _ hc

theorem exists_split [DecidableEq α] (nl : α) (t : List α) :
    ∃ rows cur, Split nl t rows cur ∧ t.splitOn nl = rows ++ [cur] ∧ t.count nl = rows.length := by
  induction t with
  | nil =>
    exact ⟨[], [], ⟨rfl, fun w hw => absurd hw List.not_mem_nil, List.not_mem_nil⟩,
      List.splitOn_nil nl, rfl⟩
  | cons c t ih =>
    obtain ⟨rows, cur, ⟨ht, hrows, hcur⟩, hsplit, hcount⟩ := ih
    rw [List.splitOn_cons_eq_if_modifyHead, hsplit]
    by_cases hc : c = nl
    · subst hc
      refine ⟨[] :: rows, cur, ⟨?_, ?_, hcur⟩, ?_, ?_⟩
      · rw [joined_cons, ht]
        rfl
      · exact List.forall_mem_cons.mpr ⟨List.not_mem_nil, hrows⟩
      · simp
      · rw [List.count_cons_self, hcount, List.length_cons]
    · have hne : ¬ (c == nl) = true := by simpa using hc
      rw [if_neg hne, List.count_cons_of_ne hc, hcount]
      cases rows with
      | nil =>
        refine ⟨[], c :: cur, ⟨?_, hrows, ?_⟩, rfl, rfl⟩
        · rw [ht]
          rfl
        · exact List.not_mem_cons_of_ne_of_not_mem (Ne.symm hc) hcur
      | cons w rows =>
        obtain ⟨hw, hrest⟩ := List.forall_mem_cons.mp hrows
        refine ⟨(c :: w) :: rows, cur, ⟨?_, ?_, hcur⟩, rfl, rfl⟩
        · rw [ht, joined_cons, joined_cons]
          rfl
        · exact List.forall_mem_cons.mpr
            ⟨List.not_mem_cons_of_ne_of_not_mem (Ne.symm hc) hw, hrest⟩

end EponaOS.Lines
