import Mathlib.Algebra.BigOperators.Group.Finset.Basic
import Mathlib.Algebra.BigOperators.Group.Finset.Piecewise
import Mathlib.Data.List.InsertIdx
import Mathlib.Data.Set.Card
import Mathlib.Logic.Function.Basic

/-!
# Slots that refer to things

A table gives every slot the thing that it refers to, if any. A handle is made for a slot
and closed once, when the last slot that refers to it lets go of it. Where a thing keeps a
count of its slots instead, `refCount` is what the count has to be. Where the slots hold keys
with values, the table is a map.

Slots that hold the items of a list in order make room for an item, or give one up, while items
are copied one by one to the slot beside them. In between one slot is free, and the others hold
the list: each copy moves the gap, and the list stays.
-/

namespace EponaOS

open Function (update)

variable {S R : Type}

-- ---------------------------------------------------------------------------
-- Handles
-- ---------------------------------------------------------------------------

structure Handles (S R : Type) where
  refs : S → Option R
  made : R → Prop
  closes : R → Nat

structure Handles.Balanced (h : Handles S R) : Prop where
  made : ∀ s r, h.refs s = some r → h.made r
  held : ∀ s r, h.refs s = some r → h.closes r = 0
  done : ∀ r, h.made r → (∀ s, h.refs s ≠ some r) → h.closes r = 1

def Sole (refs : S → Option R) (s : S) : Prop :=
  ∀ r s', refs s = some r → refs s' = some r → s' = s

variable {h h' : Handles S R} {refs : S → Option R} {s s' : S} {r : R}

section

variable [DecidableEq S]

theorem update_eq_some {v : Option R} (hu : update refs s v s' = some r) :
    (s' = s ∧ v = some r) ∨ (s' ≠ s ∧ refs s' = some r) := by
  by_cases hs : s' = s
  · subst hs
    rw [Function.update_self] at hu
    exact .inl ⟨rfl, hu⟩
  · rw [Function.update_of_ne hs] at hu
    exact .inr ⟨hs, hu⟩

theorem Sole.update_none (hs : Sole refs s) : Sole (update refs s' none) s := by
  intro r s'' hr hr'
  obtain ⟨-, hr⟩ | ⟨-, hr⟩ := update_eq_some hr
  · cases hr
  obtain ⟨-, hr'⟩ | ⟨-, hr'⟩ := update_eq_some hr'
  · cases hr'
  exact hs r s'' hr hr'

theorem Handles.Balanced.make (b : h.Balanced) (hs : h.refs s = none) (hnew : ¬h.made r)
    (h0 : h.closes r = 0) (hr : h'.refs = update h.refs s (some r))
    (hm : ∀ x, h'.made x ↔ h.made x ∨ x = r) (hc : ∀ x, h'.closes x = h.closes x) :
    h'.Balanced := by
  refine ⟨fun s' x hx => ?_, fun s' x hx => ?_, fun x hx hno => ?_⟩
  · rw [hr] at hx
    rw [hm]
    obtain ⟨-, hx⟩ | ⟨-, hx⟩ := update_eq_some hx
    · exact .inr (Option.some.inj hx).symm
    · exact .inl (b.made s' x hx)
  · rw [hr] at hx
    rw [hc]
    obtain ⟨-, hx⟩ | ⟨-, hx⟩ := update_eq_some hx
    · exact Option.some.inj hx ▸ h0
    · exact b.held s' x hx
  · rw [hr] at hno
    rw [hc]
    obtain hx | rfl := (hm x).mp hx
    · refine b.done x hx fun s' hs' => ?_
      by_cases he : s' = s
      · rw [he, hs] at hs'
        cases hs'
      · exact hno s' ((Function.update_of_ne he ..).trans hs')
    · exact absurd (Function.update_self ..) (hno s)

theorem Handles.Balanced.drop [DecidableEq R] (b : h.Balanced) (hs : h.refs s = some r)
    (hsole : Sole h.refs s) (hr : h'.refs = update h.refs s none)
    (hm : ∀ x, h'.made x ↔ h.made x)
    (hc : ∀ x, h'.closes x = h.closes x + if x = r then 1 else 0) : h'.Balanced := by
  refine ⟨fun s' x hx => ?_, fun s' x hx => ?_, fun x hx hno => ?_⟩
  · rw [hr] at hx
    obtain ⟨-, hx⟩ | ⟨-, hx⟩ := update_eq_some hx
    · cases hx
    · exact (hm x).mpr (b.made s' x hx)
  · rw [hr] at hx
    obtain ⟨-, hx⟩ | ⟨hne, hx⟩ := update_eq_some hx
    · cases hx
    · rw [hc, b.held s' x hx, if_neg]
      rintro rfl
      exact hne (hsole x s' hs hx)
  · rw [hc]
    by_cases he : x = r
    · rw [if_pos he, he, b.held s r hs]
    · rw [if_neg he, Nat.add_zero]
      refine b.done x ((hm x).mp hx) fun s' hs' => hno s' ?_
      rw [hr]
      refine (Function.update_of_ne ?_ ..).trans hs'
      rintro rfl
      exact he (Option.some.inj (hs'.symm.trans hs))

theorem Handles.Balanced.copy (b : h.Balanced) (hs : h.refs s = none)
    (hr : h'.refs = update h.refs s (h.refs s')) (hm : ∀ x, h'.made x ↔ h.made x)
    (hc : ∀ x, h'.closes x = h.closes x) : h'.Balanced := by
  have hold : ∀ s'' x, h'.refs s'' = some x → ∃ s, h.refs s = some x := by
    intro s'' x hx
    rw [hr] at hx
    obtain ⟨-, hx⟩ | ⟨-, hx⟩ := update_eq_some hx
    · exact ⟨s', hx⟩
    · exact ⟨s'', hx⟩
  refine ⟨fun s'' x hx => ?_, fun s'' x hx => ?_, fun x hx hno => ?_⟩
  · obtain ⟨u, hu⟩ := hold s'' x hx
    exact (hm x).mpr (b.made u x hu)
  · obtain ⟨u, hu⟩ := hold s'' x hx
    exact (hc x).trans (b.held u x hu)
  · rw [hc]
    refine b.done x ((hm x).mp hx) fun u hu => hno u ?_
    rw [hr]
    refine (Function.update_of_ne ?_ ..).trans hu
    rintro rfl
    cases hs.symm.trans hu

end

-- ---------------------------------------------------------------------------
-- Counts
-- ---------------------------------------------------------------------------

variable [DecidableEq R] {slots slots' : Finset S}

def refCount (slots : Finset S) (refs : S → Option R) (r : R) : Nat :=
  (slots.filter fun s => refs s = some r).card

theorem refCount_update [DecidableEq S] (refs : S → Option R) (hs : s ∈ slots) (v : Option R)
    (r : R) :
    refCount slots (update refs s v) r + (if refs s = some r then 1 else 0) =
      refCount slots refs r + if v = some r then 1 else 0 := by
  rw [refCount, refCount, Finset.card_filter, Finset.card_filter,
    ← Finset.add_sum_erase slots _ hs, ← Finset.add_sum_erase slots _ hs, Function.update_self]
  have hrest : ∀ x ∈ slots.erase s, (if update refs s v x = some r then 1 else 0) =
      if refs x = some r then 1 else 0 := by
    intro x hx
    rw [Function.update_of_ne (Finset.ne_of_mem_erase hx)]
  rw [Finset.sum_congr rfl hrest]
  omega

theorem refCount_drop_self [DecidableEq S] (hs : s ∈ slots) (hr : refs s = some r) :
    refCount slots (update refs s none) r + 1 = refCount slots refs r := by
  have h := refCount_update refs hs none r
  rwa [if_pos hr, if_neg nofun] at h

theorem refCount_drop_of_ne [DecidableEq S] (hs : s ∈ slots) (hr : refs s ≠ some r) :
    refCount slots (update refs s none) r = refCount slots refs r := by
  have h := refCount_update refs hs none r
  rwa [if_neg hr, if_neg nofun] at h

theorem refCount_eq_zero : refCount slots refs r = 0 ↔ ∀ s ∈ slots, refs s ≠ some r := by
  rw [refCount, Finset.card_eq_zero, Finset.filter_eq_empty_iff]

theorem refCount_mono (hsub : slots ⊆ slots') (hno : ∀ s, refs s = some r → s ∈ slots) :
    refCount slots' refs r = refCount slots refs r := by
  have hfilter : (slots'.filter fun s => refs s = some r) = slots.filter fun s => refs s = some r := by
    ext s
    rw [Finset.mem_filter, Finset.mem_filter]
    exact ⟨fun ⟨_, hs⟩ => ⟨hno s hs, hs⟩, fun ⟨hm, hs⟩ => ⟨hsub hm, hs⟩⟩
  rw [refCount, refCount, hfilter]

-- ---------------------------------------------------------------------------
-- A table with keys
-- ---------------------------------------------------------------------------

section

variable {K V : Type} {t : Nat → Option (K × V)} {k : K} {v : V} {i n : Nat}

def freeSlot (n : Nat) (t : Nat → Option (K × V)) : Option Nat :=
  (List.range n).find? fun i => (t i).isNone

def OneEach (n : Nat) (t : Nat → Option (K × V)) : Prop :=
  ∀ i j k v w, i < n → j < n → t i = some (k, v) → t j = some (k, w) → i = j

theorem freeSlot_some (h : freeSlot n t = some i) : i < n ∧ t i = none := by
  have hnone := List.find?_some h
  exact ⟨List.mem_range.mp (List.mem_of_find?_eq_some h), Option.isNone_iff_eq_none.mp hnone⟩

variable [DecidableEq K]

def keySlot (n : Nat) (t : Nat → Option (K × V)) (k : K) : Option Nat :=
  (List.range n).find? fun i => (t i).any fun e => e.1 = k

def tableGet (n : Nat) (t : Nat → Option (K × V)) (k : K) : Option V :=
  (keySlot n t k).bind fun i => (t i).map Prod.snd

theorem keySlot_some (h : keySlot n t k = some i) : i < n ∧ ∃ v, t i = some (k, v) := by
  have hany := List.find?_some h
  obtain ⟨⟨k', v⟩, hi, hk⟩ := (Option.any_eq_true _ _).mp hany
  obtain rfl := of_decide_eq_true hk
  exact ⟨List.mem_range.mp (List.mem_of_find?_eq_some h), v, hi⟩

theorem keySlot_none (h : keySlot n t k = none) (hi : i < n) : t i ≠ some (k, v) := by
  intro ht
  have hno := List.find?_eq_none.mp h i (List.mem_range.mpr hi)
  simp [ht] at hno

theorem tableGet_eq_some (h : OneEach n t) :
    tableGet n t k = some v ↔ ∃ i, i < n ∧ t i = some (k, v) := by
  rw [tableGet]
  constructor
  · intro hget
    obtain ⟨i, hslot, hi⟩ := Option.bind_eq_some_iff.mp hget
    obtain ⟨hlt, w, hw⟩ := keySlot_some hslot
    rw [hw] at hi
    cases hi
    exact ⟨i, hlt, hw⟩
  · rintro ⟨i, hlt, hi⟩
    cases hslot : keySlot n t k with
    | none => exact absurd hi (keySlot_none hslot hlt)
    | some j =>
      obtain ⟨hlt', w, hw⟩ := keySlot_some hslot
      rw [h i j k v w hlt hlt' hi hw] at hi
      rw [Option.bind_some, hi]
      rfl

theorem OneEach.put (h : OneEach n t)
    (hi : keySlot n t k = some i ∨ (keySlot n t k = none ∧ freeSlot n t = some i)) (v : V) :
    OneEach n (update t i (some (k, v))) ∧
      tableGet n (update t i (some (k, v))) = update (tableGet n t) k (some v) := by
  have hlt : i < n := hi.elim (fun h => (keySlot_some h).1) fun h => (freeSlot_some h.2).1
  -- no other slot has the key
  have hsole : ∀ j w, j < n → t j = some (k, w) → j = i := by
    intro j w hj htj
    obtain hi | ⟨hi, -⟩ := hi
    · obtain ⟨hlt, u, hu⟩ := keySlot_some hi
      exact h j i k w u hj hlt htj hu
    · exact absurd htj (keySlot_none hi hj)
  have hother : ∀ k' w, t i = some (k', w) → k' = k := by
    intro k' w hti
    obtain hi | ⟨-, hi⟩ := hi
    · obtain ⟨-, u, hu⟩ := keySlot_some hi
      rw [hti] at hu
      cases hu
      rfl
    · rw [(freeSlot_some hi).2] at hti
      cases hti
  have hone : OneEach n (update t i (some (k, v))) := by
    intro a b k' x y ha hb hx hy
    obtain ⟨hai, hx⟩ | ⟨-, hx⟩ := update_eq_some hx
    · cases hx
      obtain ⟨hbi, -⟩ | ⟨-, hy⟩ := update_eq_some hy
      · exact hai.trans hbi.symm
      · exact hai.trans (hsole b y hb hy).symm
    · obtain ⟨hbi, hy⟩ | ⟨-, hy⟩ := update_eq_some hy
      · cases hy
        exact (hsole a x ha hx).trans hbi.symm
      · exact h a b k' x y ha hb hx hy
  refine ⟨hone, funext fun k' => Option.ext fun w => ?_⟩
  rw [tableGet_eq_some hone]
  by_cases hk : k' = k
  · subst hk
    rw [Function.update_self]
    constructor
    · rintro ⟨j, hj, hw⟩
      obtain ⟨-, hw⟩ | ⟨hne, hw⟩ := update_eq_some hw
      · cases hw
        rfl
      · exact absurd (hsole j w hj hw) hne
    · rintro ⟨⟩
      exact ⟨i, hlt, Function.update_self ..⟩
  · rw [Function.update_of_ne hk, tableGet_eq_some h]
    refine exists_congr fun j => and_congr_right fun hj => ?_
    constructor
    · intro hw
      obtain ⟨-, hw⟩ | ⟨-, hw⟩ := update_eq_some hw
      · cases hw
        exact absurd rfl hk
      · exact hw
    · intro hw
      have hne : j ≠ i := by
        rintro rfl
        exact hk (hother k' w hw)
      rw [Function.update_of_ne hne, hw]

theorem OneEach.drop (h : OneEach n t) (hi : keySlot n t k = some i) :
    OneEach n (update t i none) ∧ tableGet n (update t i none) = update (tableGet n t) k none := by
  obtain ⟨hlt, u, hu⟩ := keySlot_some hi
  have hone : OneEach n (update t i none) := by
    intro a b k' x y ha hb hx hy
    obtain ⟨-, hx⟩ | ⟨-, hx⟩ := update_eq_some hx
    · cases hx
    obtain ⟨-, hy⟩ | ⟨-, hy⟩ := update_eq_some hy
    · cases hy
    exact h a b k' x y ha hb hx hy
  refine ⟨hone, funext fun k' => Option.ext fun w => ?_⟩
  rw [tableGet_eq_some hone]
  constructor
  · rintro ⟨j, hj, hw⟩
    obtain ⟨-, hw⟩ | ⟨hne, hw⟩ := update_eq_some hw
    · cases hw
    have hk : k' ≠ k := by
      rintro rfl
      exact hne (h j i k' w u hj hlt hw hu)
    rw [Function.update_of_ne hk]
    exact (tableGet_eq_some h).mpr ⟨j, hj, hw⟩
  · intro hw
    obtain ⟨-, hw⟩ | ⟨hk, hw⟩ := update_eq_some hw
    · cases hw
    obtain ⟨j, hj, hw⟩ := (tableGet_eq_some h).mp hw
    have hne : j ≠ i := by
      rintro rfl
      rw [hu] at hw
      cases hw
      exact hk rfl
    exact ⟨j, hj, (Function.update_of_ne hne ..).trans hw⟩

theorem tableGet_of_keySlot_none (h : keySlot n t k = none) : tableGet n t k = none := by
  rw [tableGet, h, Option.bind_none]

theorem freeSlot_none_iff (h : OneEach n t) :
    freeSlot n t = none ↔ {k | tableGet n t k ≠ none}.ncard = n := by
  have hcard : {k | tableGet n t k ≠ none}.ncard =
      ((Finset.range n).filter fun i => (t i).isSome = true).card := by
    rw [← Set.ncard_coe_finset]
    symm
    refine Set.ncard_congr (fun i hi => ((t i).get (Finset.mem_filter.mp hi).2).1) ?_ ?_ ?_
    · intro i hi
      obtain ⟨hlt, hsome⟩ := Finset.mem_filter.mp hi
      refine Option.ne_none_iff_exists'.mpr ⟨((t i).get hsome).2, (tableGet_eq_some h).mpr ?_⟩
      exact ⟨i, Finset.mem_range.mp hlt, (Option.some_get hsome).symm⟩
    · intro i j hi hj heq
      obtain ⟨hlt, hsome⟩ := Finset.mem_filter.mp hi
      obtain ⟨hlt', hsome'⟩ := Finset.mem_filter.mp hj
      refine h i j ((t i).get hsome).1 ((t i).get hsome).2 ((t j).get hsome').2
        (Finset.mem_range.mp hlt) (Finset.mem_range.mp hlt') (Option.some_get hsome).symm ?_
      rw [heq]
      exact (Option.some_get hsome').symm
    · intro k hk
      obtain ⟨v, hv⟩ := Option.ne_none_iff_exists'.mp hk
      obtain ⟨i, hlt, hi⟩ := (tableGet_eq_some h).mp hv
      have hsome : (t i).isSome = true := by rw [hi, Option.isSome_some]
      refine ⟨i, Finset.mem_filter.mpr ⟨Finset.mem_range.mpr hlt, hsome⟩, ?_⟩
      simp only [hi, Option.get_some]
  have hall := Finset.card_filter_eq_iff (s := Finset.range n) (p := fun i => (t i).isSome = true)
  rw [Finset.card_range] at hall
  rw [hcard, hall, freeSlot, List.find?_eq_none]
  simp [Option.isSome_iff_ne_none]

end

-- ---------------------------------------------------------------------------
-- A row with a gap
-- ---------------------------------------------------------------------------

section Gap

variable {σ α : Type} {has : σ → Nat → α → Prop} {s s' : σ} {l : List α} {a : α} {hole n : Nat}

/-- `has s k a`: in state `s`, slot `k` holds `a`. -/
def Row (has : σ → Nat → α → Prop) (s : σ) (l : List α) : Prop :=
  ∀ k, (h : k < l.length) → has s k l[k]

/-- The slot `hole` is free; items from there on are one slot further. -/
def Gap (has : σ → Nat → α → Prop) (s : σ) (hole : Nat) (l : List α) : Prop :=
  ∀ k, (h : k < l.length) → has s (if k < hole then k else k + 1) l[k]

structure Copies (has : σ → Nat → α → Prop) (s s' : σ) (src dst : Nat) : Prop where
  copied : ∀ a, has s src a → has s' dst a
  kept : ∀ k a, k ≠ dst → has s k a → has s' k a

theorem gap_length : Gap has s l.length l ↔ Row has s l := by
  refine forall_congr' fun k => forall_congr' fun hk => ?_
  rw [if_pos hk]

theorem Gap.down (h : Gap has s (hole + 1) l) (hcopy : Copies has s s' hole (hole + 1)) :
    Gap has s' hole l := by
  intro k hk
  have hslot := h k hk
  by_cases hat : k = hole
  · subst hat
    rw [if_pos (Nat.lt_succ_self k)] at hslot
    rw [if_neg (Nat.lt_irrefl k)]
    exact hcopy.copied _ hslot
  · have hsame : (if k < hole then k else k + 1) = if k < hole + 1 then k else k + 1 := by
      split <;> split <;> omega
    rw [hsame]
    exact hcopy.kept _ _ (by split <;> omega) hslot

theorem Gap.up (h : Gap has s hole l) (hcopy : Copies has s s' (hole + 1) hole) :
    Gap has s' (hole + 1) l := by
  intro k hk
  have hslot := h k hk
  by_cases hat : k = hole
  · subst hat
    rw [if_neg (Nat.lt_irrefl k)] at hslot
    rw [if_pos (Nat.lt_succ_self k)]
    exact hcopy.copied _ hslot
  · have hsame : (if k < hole + 1 then k else k + 1) = if k < hole then k else k + 1 := by
      split <;> split <;> omega
    rw [hsame]
    exact hcopy.kept _ _ (by split <;> omega) hslot

theorem Gap.fill (h : Gap has s hole l) (hhole : hole ≤ l.length)
    (hkept : ∀ k b, k ≠ hole → has s k b → has s' k b) (hfilled : has s' hole a) :
    Row has s' (l.insertIdx hole a) := by
  intro k hk
  rw [List.length_insertIdx_of_le_length hhole] at hk
  rw [List.getElem_insertIdx]
  split
  · next hlt =>
    have hslot := h k (by omega)
    rw [if_pos hlt] at hslot
    exact hkept k _ (by omega) hslot
  · split
    · next hat => rwa [hat]
    · next hlt hne =>
      obtain ⟨k, rfl⟩ := Nat.exists_eq_succ_of_ne_zero (show k ≠ 0 by omega)
      have hslot := h k (by omega)
      rw [if_neg (by omega)] at hslot
      exact hkept (k + 1) _ (by omega) hslot

theorem Row.gap_eraseIdx (h : Row has s l) (n : Nat) : Gap has s n (l.eraseIdx n) := by
  intro k hk
  rw [List.getElem_eraseIdx]
  split
  · exact h k _
  · exact h (k + 1) _

end Gap

end EponaOS
