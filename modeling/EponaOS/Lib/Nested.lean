import Mathlib.Data.List.ProdSigma
import Mathlib.Data.List.TakeWhile

/-!
# Two nested loops

`nested ys xs f s` runs `f` for every row of `ys` and in it for every column of `xs`. What one
round sets and every other round keeps is there at the end.
-/

namespace EponaOS

def nested (ys xs : List Nat) (f : σ → Nat → Nat → σ) (s : σ) : σ :=
  ys.foldl (fun s y => xs.foldl (fun s x => f s y x) s) s

section Foldl

variable {f : σ → α → σ} {l : List α}

theorem foldl_stays (look : σ → β)
    (hround : ∀ b ∈ l, ∀ s, look (f s b) = look s ∨ look (f s b) = v) {s : σ} (hs : look s = v) :
    look (l.foldl f s) = v := by
  induction l generalizing s with
  | nil => exact hs
  | cons b l ih =>
    rw [List.foldl_cons]
    refine ih (fun c hc => hround c (List.mem_cons_of_mem _ hc)) ?_
    exact (hround b List.mem_cons_self s).elim (fun h => h.trans hs) id

theorem foldl_keeps (look : σ → β) (h : ∀ a ∈ l, ∀ s, look (f s a) = look s) (s : σ) :
    look (l.foldl f s) = look s :=
  foldl_stays look (fun a ha s => .inl (h a ha s)) rfl

/-- The round for `a` sets it to `v`, and every other round keeps it or sets it to `v`, too. -/
theorem foldl_settles (look : σ → β) {a : α} (ha : a ∈ l) (hset : ∀ s, look (f s a) = v)
    (hround : ∀ b ∈ l, ∀ s, look (f s b) = look s ∨ look (f s b) = v) (s : σ) :
    look (l.foldl f s) = v := by
  obtain ⟨l₁, l₂, rfl⟩ := List.append_of_mem ha
  rw [List.foldl_append, List.foldl_cons]
  exact foldl_stays look (fun b hb => hround b (by simp [hb])) (hset _)

theorem foldl_appends (view : σ → List β) {g : α → List β}
    (h : ∀ s a, view (f s a) = view s ++ g a) (l : List α) (s : σ) :
    view (l.foldl f s) = view s ++ l.flatMap g := by
  induction l generalizing s with
  | nil => simp
  | cons a l ih => rw [List.foldl_cons, ih, h, List.append_assoc, List.flatMap_cons]

end Foldl

variable {f : σ → Nat → Nat → σ} {ys xs : List Nat}

theorem nested_eq (ys xs : List Nat) (f : σ → Nat → Nat → σ) (s : σ) :
    nested ys xs f s = (ys.product xs).foldl (fun s p => f s p.1 p.2) s := by
  rw [nested, List.product, List.foldl_flatMap]
  simp only [List.foldl_map]

theorem nested_always {P : σ → Prop} (hs : P s)
    (hround : ∀ y ∈ ys, ∀ x ∈ xs, ∀ s, P s → P (f s y x)) : P (nested ys xs f s) :=
  List.foldlRecOn _ _ hs fun _ hs y hy =>
    List.foldlRecOn _ _ hs fun s hs x hx => hround y hy x hx s hs

theorem nested_keeps (look : σ → β) (h : ∀ y ∈ ys, ∀ x ∈ xs, ∀ s, look (f s y x) = look s) (s : σ) :
    look (nested ys xs f s) = look s := by
  rw [nested_eq]
  refine foldl_keeps look (fun p hp => ?_) s
  obtain ⟨hy, hx⟩ := List.mem_product.mp hp
  exact h p.1 hy p.2 hx

theorem nested_stays (look : σ → β)
    (hround : ∀ y ∈ ys, ∀ x ∈ xs, ∀ s, look (f s y x) = look s ∨ look (f s y x) = v) {s : σ}
    (hs : look s = v) : look (nested ys xs f s) = v := by
  rw [nested_eq]
  refine foldl_stays look (fun p hp => ?_) hs
  obtain ⟨hy, hx⟩ := List.mem_product.mp hp
  exact hround p.1 hy p.2 hx

theorem nested_settles (look : σ → β) (hy : y ∈ ys) (hx : x ∈ xs) (hset : ∀ s, look (f s y x) = v)
    (hround : ∀ y' ∈ ys, ∀ x' ∈ xs, ∀ s, look (f s y' x') = look s ∨ look (f s y' x') = v) (s : σ) :
    look (nested ys xs f s) = v := by
  rw [nested_eq]
  refine foldl_settles look (List.mem_product.mpr ⟨hy, hx⟩) hset (fun p hp => ?_) s
  obtain ⟨hy, hx⟩ := List.mem_product.mp hp
  exact hround p.1 hy p.2 hx

theorem nested_sets (look : σ → β) (hy : y ∈ ys) (hx : x ∈ xs) (hset : ∀ s, look (f s y x) = v)
    (hkeep : ∀ y' ∈ ys, ∀ x' ∈ xs, (y', x') ≠ (y, x) → ∀ s, look (f s y' x') = look s) (s : σ) :
    look (nested ys xs f s) = v := by
  refine nested_settles look hy hx hset (fun y' hy' x' hx' s => ?_) s
  by_cases hsame : (y', x') = (y, x)
  · cases hsame
    exact .inr (hset s)
  · exact .inl (hkeep y' hy' x' hx' hsame s)

theorem nested_appends (view : σ → List β) {g : Nat → Nat → List β}
    (h : ∀ s y x, view (f s y x) = view s ++ g y x) (ys xs : List Nat) (s : σ) :
    view (nested ys xs f s) = view s ++ ys.flatMap fun y => xs.flatMap (g y) :=
  foldl_appends view (fun s y => foldl_appends view (fun s x => h s y x) xs s) ys s

/-- The rows of a loop that breaks off at the first one without `p` -/
theorem mem_takeWhile_range {p : Nat → Bool} :
    i ∈ (List.range n).takeWhile p ↔ i < n ∧ ∀ j ≤ i, p j := by
  induction n with
  | zero => simp
  | succ n ih =>
    rw [List.range_succ, List.takeWhile_append]
    have hself : (List.range n).takeWhile p = List.range n ↔ ∀ j < n, p j := by
      rw [List.takeWhile_eq_self_iff]
      simp only [List.mem_range]
    split
    · rename_i hlen
      have hall := hself.mp ((List.takeWhile_prefix p).eq_of_length hlen)
      rw [List.mem_append, List.mem_range, List.takeWhile_cons, List.takeWhile_nil]
      constructor
      · rintro (hi | hi)
        · exact ⟨Nat.lt_succ_of_lt hi, fun j hj => hall j (by omega)⟩
        · split at hi
          · rename_i hn
            obtain rfl := List.mem_singleton.mp hi
            refine ⟨Nat.lt_succ_self i, fun j hj => ?_⟩
            obtain hj | rfl := Nat.lt_or_eq_of_le hj
            · exact hall j hj
            · exact hn
          · cases hi
      · rintro ⟨hi, hp⟩
        obtain hi | rfl := Nat.lt_succ_iff_lt_or_eq.mp hi
        · exact .inl hi
        · exact .inr (by rw [if_pos (hp i (Nat.le_refl i))]; exact List.mem_singleton_self i)
    · rename_i hlen
      rw [ih]
      refine ⟨fun ⟨hi, hp⟩ => ⟨Nat.lt_succ_of_lt hi, hp⟩, fun ⟨hi, hp⟩ => ⟨?_, hp⟩⟩
      obtain hi | rfl := Nat.lt_succ_iff_lt_or_eq.mp hi
      · exact hi
      · rw [hself.mpr fun j hj => hp j (Nat.le_of_lt hj)] at hlen
        exact absurd rfl hlen

/-- Cells of rows of `w` that are stored one behind the other. -/
theorem cell_inj {x x' y y' w : Nat} (hx : x < w) (hx' : x' < w)
    (h : y * w + x = y' * w + x') : (y, x) = (y', x') := by
  have hpos : 0 < w := Nat.lt_of_le_of_lt (Nat.zero_le x) hx
  have hcell : ∀ y x, x < w → (y * w + x) / w = y ∧ (y * w + x) % w = x := fun y x hx =>
    (Nat.div_mod_unique hpos).mpr ⟨by rw [Nat.mul_comm, Nat.add_comm], hx⟩
  obtain ⟨hy, hxe⟩ := hcell y x hx
  obtain ⟨hy', hxe'⟩ := hcell y' x' hx'
  exact Prod.ext (hy.symm.trans ((congrArg (· / w) h).trans hy'))
    (hxe.symm.trans ((congrArg (· % w) h).trans hxe'))

end EponaOS
