import Mathlib.Data.List.Basic

/-!
# Paths as stacks of parts

A path is cut at its separators. Some parts are skipped, the empty one among them, some remove the
part before them, and the others are kept. What is kept can be joined to a path again, which has
the same parts.
-/

namespace EponaOS

structure PathRules (α : Type) where
  sep : α
  skips : List α → Bool
  ups : List α → Bool
  skips_nil : skips [] = true

namespace PathRules

variable {α : Type} (R : PathRules α) {stack parts cs : List (List α)} {part c p q : List α}
  {n : Nat}

def push (stack : List (List α)) (part : List α) : List (List α) :=
  if R.skips part then stack else if R.ups part then stack.dropLast else stack ++ [part]

/-- `push` on a stack with `n` places. -/
def pushWithin (n : Nat) (stack : List (List α)) (part : List α) : Option (List (List α)) :=
  if R.skips part then some stack
  else if R.ups part then some stack.dropLast
  else if stack.length ≥ n then none
  else some (stack ++ [part])

theorem push_empty (stack : List (List α)) : R.push stack [] = stack := by
  rw [push, if_pos R.skips_nil]

def Within (n : Nat) (stack parts : List (List α)) : Prop :=
  ∀ k, ((parts.take k).foldl R.push stack).length ≤ n

theorem within_nil (h : stack.length ≤ n) : R.Within n stack [] := fun k => by
  rw [List.take_nil]
  exact h

theorem within_cons (h : stack.length ≤ n) :
    R.Within n stack (part :: parts) ↔ R.Within n (R.push stack part) parts := by
  constructor
  · exact fun hall k => hall (k + 1)
  · intro hall k
    cases k with
    | zero => exact h
    | succ k => exact hall k

/-- A stack with `n` places has room for the part, or the part does not need it. -/
theorem pushWithin_eq (h : stack.length ≤ n) :
    R.pushWithin n stack part =
      if (R.push stack part).length ≤ n then some (R.push stack part) else none := by
  rw [pushWithin, push]
  by_cases hskip : R.skips part
  · rw [if_pos hskip, if_pos hskip, if_pos h]
  by_cases hup : R.ups part
  · rw [if_neg hskip, if_neg hskip, if_pos hup, if_pos hup,
      if_pos (by rw [List.length_dropLast]; omega)]
  · rw [if_neg hskip, if_neg hskip, if_neg hup, if_neg hup, List.length_append,
      List.length_singleton]
    by_cases hfull : stack.length ≥ n
    · rw [if_pos hfull, if_neg (by omega)]
    · rw [if_neg hfull, if_pos (by omega)]

theorem foldlM_some (h : stack.length ≤ n) (hall : R.Within n stack parts) :
    parts.foldlM (R.pushWithin n) stack = some (parts.foldl R.push stack) := by
  induction parts generalizing stack with
  | nil => rfl
  | cons part parts ih =>
    have hnext : (R.push stack part).length ≤ n := hall 1
    rw [List.foldlM_cons, R.pushWithin_eq h, if_pos hnext, List.foldl_cons]
    exact ih hnext ((R.within_cons h).mp hall)

theorem foldlM_none (h : stack.length ≤ n) (hall : ¬ R.Within n stack parts) :
    parts.foldlM (R.pushWithin n) stack = none := by
  induction parts generalizing stack with
  | nil => exact absurd (R.within_nil h) hall
  | cons part parts ih =>
    rw [List.foldlM_cons, R.pushWithin_eq h]
    by_cases hnext : (R.push stack part).length ≤ n
    · rw [if_pos hnext]
      exact ih hnext (mt (R.within_cons h).mpr hall)
    · rw [if_neg hnext]
      rfl

-- ---------------------------------------------------------------------------
-- What is kept
-- ---------------------------------------------------------------------------

structure Kept (c : List α) : Prop where
  named : R.skips c = false
  down : R.ups c = false
  whole : R.sep ∉ c

variable {R}

theorem Kept.push (h : R.Kept c) (stack : List (List α)) : R.push stack c = stack ++ [c] := by
  rw [PathRules.push, if_neg (by rw [h.named]; decide), if_neg (by rw [h.down]; decide)]

theorem foldl_kept (h : ∀ c ∈ cs, R.Kept c) (stack : List (List α)) :
    cs.foldl R.push stack = stack ++ cs := by
  induction cs generalizing stack with
  | nil => rw [List.foldl_nil, List.append_nil]
  | cons c cs ih =>
    rw [List.foldl_cons, (h c (List.mem_cons_self ..)).push,
      ih fun c' hc' => h c' (List.mem_cons_of_mem _ hc'), List.append_assoc, List.singleton_append]

theorem push_kept (h : ∀ c ∈ stack, R.Kept c) (hpart : R.sep ∉ part) :
    ∀ c ∈ R.push stack part, R.Kept c := by
  rw [push]
  split
  · exact h
  · next hname =>
    split
    · exact fun c hc => h c ((List.dropLast_sublist stack).subset hc)
    · next hdown =>
      rw [List.forall_mem_append, List.forall_mem_singleton]
      exact ⟨h, Bool.eq_false_iff.mpr hname, Bool.eq_false_iff.mpr hdown, hpart⟩

theorem foldl_push_kept (h : ∀ c ∈ stack, R.Kept c) (hparts : ∀ part ∈ parts, R.sep ∉ part) :
    ∀ c ∈ parts.foldl R.push stack, R.Kept c := by
  induction parts generalizing stack with
  | nil => exact h
  | cons part parts ih =>
    exact ih (push_kept h (hparts part (List.mem_cons_self ..)))
      fun part' hpart' => hparts part' (List.mem_cons_of_mem _ hpart')

-- ---------------------------------------------------------------------------
-- Paths
-- ---------------------------------------------------------------------------

variable (R) in
theorem mem_foldl_push (h : c ∈ parts.foldl R.push stack) : c ∈ stack ∨ c ∈ parts := by
  induction parts generalizing stack with
  | nil => exact .inl h
  | cons part parts ih =>
    obtain h | h := ih h
    · rw [push] at h
      split at h
      · exact .inl h
      · split at h
        · exact .inl ((List.dropLast_sublist stack).subset h)
        · obtain h | h := List.mem_append.mp h
          · exact .inl h
          · exact .inr (List.mem_cons.mpr (.inl (List.mem_singleton.mp h)))
    · exact .inr (List.mem_cons_of_mem part h)

variable [DecidableEq α] (R)

def walk (stack : List (List α)) (p : List α) : List (List α) :=
  (p.splitOn R.sep).foldl R.push stack

def join (cs : List (List α)) : List α := R.sep :: [R.sep].intercalate cs

theorem walk_append (stack : List (List α)) (p q : List α) :
    R.walk stack (p ++ R.sep :: q) = R.walk (R.walk stack p) q := by
  rw [walk, List.splitOn_append_cons_self, List.foldl_append]
  rfl

theorem splitOn_whole (p : List α) : ∀ part ∈ p.splitOn R.sep, R.sep ∉ part := by
  induction p with
  | nil =>
    intro part hpart
    rw [List.splitOn_nil, List.mem_singleton] at hpart
    rw [hpart]
    exact List.not_mem_nil
  | cons x p ih =>
    rw [List.splitOn_cons_eq_if_modifyHead]
    split
    · rw [List.forall_mem_cons]
      exact ⟨List.not_mem_nil, ih⟩
    · next hx =>
      cases hparts : p.splitOn R.sep with
      | nil => exact absurd hparts (List.splitOn_ne_nil R.sep p)
      | cons part parts =>
        rw [hparts, List.forall_mem_cons] at ih
        rw [List.modifyHead_cons, List.forall_mem_cons]
        refine ⟨?_, ih.2⟩
        rw [List.mem_cons, not_or]
        exact ⟨fun heq => hx (beq_iff_eq.mpr heq.symm), ih.1⟩

theorem mem_of_mem_splitOn {x : α} (h : part ∈ p.splitOn R.sep) (hx : x ∈ part) : x ∈ p := by
  induction p generalizing part with
  | nil =>
    rw [List.splitOn_nil, List.mem_singleton] at h
    rwa [h] at hx
  | cons y p ih =>
    rw [List.splitOn_cons_eq_if_modifyHead] at h
    split at h
    · obtain rfl | h := List.mem_cons.mp h
      · cases hx
      · exact List.mem_cons_of_mem y (ih h hx)
    · cases hparts : p.splitOn R.sep with
      | nil => exact absurd hparts (List.splitOn_ne_nil R.sep p)
      | cons first parts =>
        rw [hparts] at h ih
        obtain rfl | h := List.mem_cons.mp h
        · obtain rfl | hx := List.mem_cons.mp hx
          · exact List.mem_cons_self ..
          · exact List.mem_cons_of_mem y (ih (List.mem_cons_self ..) hx)
        · exact List.mem_cons_of_mem y (ih (List.mem_cons_of_mem first h) hx)

theorem walk_kept (p : List α) : ∀ c ∈ R.walk [] p, R.Kept c :=
  foldl_push_kept (List.forall_mem_nil _) (R.splitOn_whole p)

theorem splitOn_join (h : ∀ c ∈ cs, R.Kept c) (hcs : cs ≠ []) :
    (R.join cs).splitOn R.sep = [] :: cs := by
  have hcut := List.splitOn_append_cons_self (a := R.sep) [] ([R.sep].intercalate cs)
  rw [List.nil_append] at hcut
  rw [join, hcut, List.splitOn_nil, List.splitOn_intercalate R.sep (fun c hc => (h c hc).whole) hcs]
  rfl

theorem splitOn_join_nil : (R.join []).splitOn R.sep = [[], []] := by
  have hcut := List.splitOn_append_cons_self (a := R.sep) [] []
  rw [List.nil_append] at hcut
  rw [join, List.intercalate_nil, hcut, List.splitOn_nil]
  rfl

theorem walk_join (h : ∀ c ∈ cs, R.Kept c) : R.walk [] (R.join cs) = cs := by
  rw [walk]
  by_cases hcs : cs = []
  · rw [hcs, splitOn_join_nil, List.foldl_cons, push_empty, List.foldl_cons, push_empty]
    rfl
  · rw [R.splitOn_join h hcs, List.foldl_cons, push_empty, foldl_kept h, List.nil_append]

theorem within_join (h : ∀ c ∈ cs, R.Kept c) (hlen : cs.length ≤ n) :
    R.Within n [] ((R.join cs).splitOn R.sep) := by
  have hempty : ([] : List (List α)).length ≤ n := Nat.zero_le n
  by_cases hcs : cs = []
  · rw [hcs, splitOn_join_nil, R.within_cons hempty, push_empty, R.within_cons hempty, push_empty]
    exact R.within_nil hempty
  · rw [R.splitOn_join h hcs, R.within_cons hempty, push_empty]
    intro k
    rw [foldl_kept (fun c hc => h c (List.mem_of_mem_take hc)), List.nil_append, List.length_take]
    omega

end PathRules

end EponaOS
