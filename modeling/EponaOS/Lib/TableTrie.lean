import Mathlib.Logic.Function.Basic
import Mathlib.Data.List.Infix

/-!
# Tries of tables in memory

A memory of tables: an address names a table, an index names an entry of it, and
`next n e` is the table an entry `e` at depth `n` points to, if it points to one.
A path of indices is walked from a root. `reach` is the table at the end of the
path, `trace` the entries met on the way.

The memory is a `Tree` below a root when no table is reached by two paths. Then one
write changes the walks through the entry written and no other, a table that no
path reaches can be filled freely, and linking it in adds one table to the tree.
-/

namespace EponaOS.TableTrie

variable {A I E : Type}

section
variable (next : Nat → E → Option A)

def reach (m : A → I → E) (n : Nat) (t : A) : List I → Option A
  | [] => some t
  | i :: p => (next n (m t i)).bind fun t' => reach m (n + 1) t' p

/-- The entries a walk along a path reads, up to the first that points to no table. -/
def trace (m : A → I → E) (n : Nat) (t : A) : List I → List E
  | [] => []
  | i :: p => m t i :: (next n (m t i)).elim [] fun t' => trace m (n + 1) t' p

/-- No table is reached by two paths. -/
def Tree (m : A → I → E) (root : A) : Prop :=
  ∀ p q a, reach next m 0 root p = some a → reach next m 0 root q = some a → p = q
end

variable {next : Nat → E → Option A} {m : A → I → E} {n : Nat} {root t t' a : A} {p q r : List I} {i j : I} {e : E}

theorem reach_append :
    reach next m n t (p ++ q) = (reach next m n t p).bind fun t' =>
      reach next m (n + p.length) t' q := by
  induction p generalizing n t with
  | nil => simp [reach]
  | cons i p ih =>
    simp only [List.cons_append, reach, List.length_cons]
    cases next n (m t i) with
    | none => rfl
    | some t' => simp only [Option.bind_some, ih, Nat.add_comm, Nat.add_left_comm]

theorem trace_append (h : reach next m n t p = some t') :
    trace next m n t (p ++ q) = trace next m n t p ++ trace next m (n + p.length) t' q := by
  induction p generalizing n t with
  | nil => cases h; simp [trace]
  | cons i p ih =>
    simp only [reach] at h
    cases hn : next n (m t i) with
    | none => simp [hn] at h
    | some t'' =>
      simp only [hn, Option.bind_some] at h
      simp only [List.cons_append, trace, hn, Option.elim_some, ih h, List.length_cons]
      rw [Nat.add_right_comm, Nat.add_assoc]

theorem length_trace (h : reach next m n t p = some t') :
    (trace next m n t p).length = p.length := by
  induction p generalizing n t with
  | nil => rfl
  | cons i p ih =>
    simp only [reach] at h
    cases hn : next n (m t i) with
    | none => simp [hn] at h
    | some t'' =>
      simp only [hn, Option.bind_some] at h
      simp [trace, hn, ih h]

theorem getElem?_trace (h : reach next m n t p = some t') :
    (trace next m n t (p ++ i :: r))[p.length]? = some (m t' i) := by
  rw [trace_append h, List.getElem?_append_right (by rw [length_trace h]), length_trace h]
  simp [trace]

theorem walk_congr {m' : A → I → E}
    (h : ∀ r j s a, q = r ++ j :: s → reach next m n t r = some a → m' a j = m a j) :
    reach next m' n t q = reach next m n t q ∧ trace next m' n t q = trace next m n t q := by
  induction q generalizing n t with
  | nil => exact ⟨rfl, rfl⟩
  | cons j q ih =>
    have hj : m' t j = m t j := h [] j q t rfl rfl
    simp only [reach, trace, hj]
    cases hn : next n (m t j) with
    | none => exact ⟨rfl, rfl⟩
    | some t' =>
      have hq := ih (n := n + 1) (t := t') fun r k s a hs ha =>
        h (j :: r) k s a (by simp [hs]) (by simp [reach, hn, ha])
      simp [hq.1, hq.2]

-- ---------------------------------------------------------------------------
-- Writing one entry of a reached table
-- ---------------------------------------------------------------------------

def setEntry [DecidableEq A] [DecidableEq I] (m : A → I → E) (t : A) (i : I) (e : E) : A → I → E :=
  fun t' i' => if t' = t ∧ i' = i then e else m t' i'

def fillTable [DecidableEq A] (m : A → I → E) (t : A) (f : I → E) : A → I → E :=
  fun t' => if t' = t then f else m t'

@[simp] theorem fillTable_same [DecidableEq A] (m : A → I → E) (t : A) (f : I → E) :
    fillTable m t f t = f := by simp [fillTable]

theorem fillTable_ne [DecidableEq A] (m : A → I → E) {t t' : A} (f : I → E) (h : t' ≠ t) :
    fillTable m t f t' = m t' := by simp [fillTable, h]

theorem not_prefix_self (p : List I) (i : I) : ¬ p ++ [i] <+: p := by
  intro h
  have := h.length_le
  rw [List.length_append, List.length_singleton] at this
  omega

variable [DecidableEq A] [DecidableEq I]

@[simp] theorem setEntry_same (m : A → I → E) (t : A) (i : I) (e : E) :
    setEntry m t i e t i = e := by simp [setEntry]

theorem setEntry_ne (m : A → I → E) {t t' : A} {i i' : I} (e : E) (h : ¬ (t' = t ∧ i' = i)) :
    setEntry m t i e t' i' = m t' i' := by simp [setEntry, h]

theorem setEntry_table_ne (m : A → I → E) {t t' : A} (i : I) (e : E) (h : t' ≠ t) :
    setEntry m t i e t' = m t' := by
  funext i'
  simp [setEntry, h]

theorem walk_setEntry_off (ht : Tree next m root) (hp : reach next m 0 root p = some t)
    (hq : ¬ p ++ [i] <+: q) :
    reach next (setEntry m t i e) 0 root q = reach next m 0 root q ∧
      trace next (setEntry m t i e) 0 root q = trace next m 0 root q := by
  apply walk_congr
  rintro r j s a rfl ha
  apply setEntry_ne
  rintro ⟨rfl, rfl⟩
  obtain rfl := ht _ _ _ ha hp
  exact hq (by simp [List.prefix_append_right_inj])

theorem reach_setEntry_self (ht : Tree next m root) (hp : reach next m 0 root p = some t) :
    reach next (setEntry m t i e) 0 root p = some t := by
  rw [(walk_setEntry_off ht hp (not_prefix_self p i)).1, hp]

theorem trace_setEntry_self (ht : Tree next m root) (hp : reach next m 0 root p = some t) :
    trace next (setEntry m t i e) 0 root p = trace next m 0 root p :=
  (walk_setEntry_off ht hp (not_prefix_self p i)).2

theorem reach_setEntry_keep (ht : Tree next m root) (hp : reach next m 0 root p = some t)
    (he : next p.length e = next p.length (m t i)) (q : List I) :
    reach next (setEntry m t i e) 0 root q = reach next m 0 root q := by
  by_cases hq : p ++ [i] <+: q
  · obtain ⟨r, rfl⟩ := hq
    rw [List.append_assoc, reach_append, reach_setEntry_self ht hp, reach_append, hp]
    simp only [Option.bind_some, Nat.zero_add, List.singleton_append, reach, setEntry_same, he]
    cases hn : next p.length (m t i) with
    | none => rfl
    | some t' =>
      -- below the entry the walk never comes back to it: that would be a second path to `t`
      refine (walk_congr fun s k u a hs ha => setEntry_ne _ _ ?_).1
      rintro ⟨rfl, rfl⟩
      have hpath : reach next m 0 root (p ++ k :: s) = some a := by
        rw [reach_append, hp]
        simp [reach, hn, ha]
      have := ht _ _ _ hp hpath
      simp at this
  · exact (walk_setEntry_off ht hp hq).1

theorem Tree.setEntry_keep (ht : Tree next m root) (hp : reach next m 0 root p = some t)
    (he : next p.length e = next p.length (m t i)) : Tree next (setEntry m t i e) root := by
  intro q r a hq hr
  rw [reach_setEntry_keep ht hp he] at hq hr
  exact ht _ _ _ hq hr

theorem trace_setEntry_keep (ht : Tree next m root) (hp : reach next m 0 root p = some t)
    (he : next p.length e = next p.length (m t i)) :
    trace next (setEntry m t i e) 0 root (p ++ i :: r) =
      (trace next m 0 root (p ++ i :: r)).set p.length e := by
  rw [trace_append (reach_setEntry_self ht hp), trace_append hp, trace_setEntry_self ht hp,
    List.set_append_right _ _ (by rw [length_trace hp]), length_trace hp]
  simp only [Nat.sub_self, trace, setEntry_same, List.set_cons_zero, Nat.zero_add, he]
  congr 2
  cases hn : next p.length (m t i) with
  | none => rfl
  | some t' =>
    refine (walk_congr fun s k u a hs ha => setEntry_ne _ _ ?_).2
    rintro ⟨rfl, rfl⟩
    have hpath : reach next m 0 root (p ++ k :: s) = some a := by
      rw [reach_append, hp]
      simp [reach, hn, ha]
    have := ht _ _ _ hp hpath
    simp at this

-- ---------------------------------------------------------------------------
-- Linking a fresh table
-- ---------------------------------------------------------------------------

omit [DecidableEq I] in
theorem walk_fillTable {f : I → E} (ht' : ∀ q, reach next m 0 root q ≠ some t') (q : List I) :
    reach next (fillTable m t' f) 0 root q = reach next m 0 root q ∧
      trace next (fillTable m t' f) 0 root q = trace next m 0 root q := by
  apply walk_congr
  intro r j s a _ ha
  rw [fillTable_ne]
  rintro rfl
  exact ht' r ha

/-- The fresh table `t'`, holding `f`, hung below entry `i` of the table `t`. -/
def linkTable (m : A → I → E) (t : A) (i : I) (e : E) (t' : A) (f : I → E) : A → I → E :=
  setEntry (fillTable m t' f) t i e

section
variable {f : I → E} (ht : Tree next m root) (hp : reach next m 0 root p = some t)
  (ht' : ∀ q, reach next m 0 root q ≠ some t') (he : next p.length e = some t')
  (hf : ∀ j, next (p.length + 1) (f j) = none)

omit [DecidableEq I] in
include ht ht' in
theorem Tree.fillTable : Tree next (fillTable m t' f) root := by
  intro q r a hq hr
  rw [(walk_fillTable ht' _).1] at hq hr
  exact ht _ _ _ hq hr

include ht hp ht' in
theorem walk_linkTable_off (hq : ¬ p ++ [i] <+: q) :
    reach next (linkTable m t i e t' f) 0 root q = reach next m 0 root q ∧
      trace next (linkTable m t i e t' f) 0 root q = trace next m 0 root q := by
  have hp' := hp
  rw [← (walk_fillTable (f := f) ht' p).1] at hp'
  have h := walk_setEntry_off (e := e) (ht.fillTable ht') hp' hq
  rw [(walk_fillTable ht' q).1, (walk_fillTable ht' q).2] at h
  exact h

include ht hp ht' he in
theorem reach_linkTable : reach next (linkTable m t i e t' f) 0 root (p ++ [i]) = some t' := by
  rw [reach_append, (walk_linkTable_off ht hp ht' (not_prefix_self p i)).1, hp]
  simp [reach, linkTable, he]

include hp ht' in
theorem linkTable_fresh : linkTable m t i e t' f t' = f := by
  have hne : t' ≠ t := by
    rintro rfl
    exact ht' p hp
  rw [linkTable, setEntry_table_ne _ _ _ hne, fillTable_same]

include ht hp ht' he hf in
theorem trace_linkTable (r : List I) :
    trace next (linkTable m t i e t' f) 0 root (p ++ i :: j :: r) =
      trace next m 0 root p ++ [e, f j] := by
  have hoff := walk_linkTable_off (e := e) (f := f) ht hp ht' (not_prefix_self p i)
  rw [trace_append (hoff.1.trans hp), hoff.2]
  have hrow : linkTable m t i e t' f t i = e := by simp [linkTable]
  simp [trace, hrow, he, linkTable_fresh hp ht', hf]

include ht hp ht' he hf in
theorem reach_linkTable_below (r : List I) :
    reach next (linkTable m t i e t' f) 0 root (p ++ i :: j :: r) = none := by
  rw [List.append_cons, reach_append, reach_linkTable ht hp ht' he]
  simp [reach, linkTable_fresh hp ht', hf]

include ht hp ht' he hf in
theorem reach_linkTable_cases (h : reach next (linkTable m t i e t' f) 0 root q = some a) :
    (q = p ++ [i] ∧ a = t') ∨ (¬ p ++ [i] <+: q ∧ reach next m 0 root q = some a) := by
  by_cases hq : p ++ [i] <+: q
  · obtain ⟨r, rfl⟩ := hq
    cases r with
    | nil =>
      rw [List.append_nil, reach_linkTable ht hp ht' he] at h
      exact .inl ⟨by simp, by simpa using h.symm⟩
    | cons j r =>
      rw [List.append_assoc, List.singleton_append, reach_linkTable_below ht hp ht' he hf] at h
      cases h
  · exact .inr ⟨hq, by rw [← (walk_linkTable_off ht hp ht' hq).1]; exact h⟩

include ht hp ht' he hf in
theorem Tree.linkTable : Tree next (linkTable m t i e t' f) root := by
  intro q r a hq hr
  obtain ⟨rfl, rfl⟩ | ⟨hq', hq⟩ := reach_linkTable_cases ht hp ht' he hf hq
  · obtain ⟨rfl, -⟩ | ⟨-, hr⟩ := reach_linkTable_cases ht hp ht' he hf hr
    · rfl
    · exact absurd hr (ht' r)
  · obtain ⟨-, ha⟩ | ⟨-, hr⟩ := reach_linkTable_cases ht hp ht' he hf hr
    · exact absurd (ha ▸ hq) (ht' q)
    · exact ht _ _ _ hq hr

end

end EponaOS.TableTrie
