import Mathlib.Data.List.TakeWhile

/-!
# Tokens of a list

A token is a maximal piece without a separator that is not empty; it is given by its start and its
length. `spans` finds the tokens in one pass, `n` elements behind the start of the one that is open.
-/

namespace EponaOS.Tokens

variable {α : Type} {p : α → Bool} {s l : List α} {i j n m : Nat}

def sepAt (p : α → Bool) (s : List α) (k : Nat) : Bool := s[k]?.any p

structure IsToken (p : α → Bool) (s : List α) (start len : Nat) : Prop where
  pos : 0 < len
  le : start + len ≤ s.length
  free : ∀ k, start ≤ k → k < start + len → sepAt p s k = false
  left : start = 0 ∨ sepAt p s (start - 1) = true
  right : start + len = s.length ∨ sepAt p s (start + len) = true

def spans (p : α → Bool) : Nat → Nat → List α → List (Nat × Nat)
  | i, n, [] => if n = 0 then [] else [(i - n, n)]
  | i, n, c :: l =>
    if p c then if n = 0 then spans p (i + 1) 0 l else (i - n, n) :: spans p (i + 1) 0 l
    else spans p (i + 1) (n + 1) l

def piece (s : List α) (t : Nat × Nat) : List α := (s.drop t.1).take t.2

theorem sepAt_append_right (s l : List α) (k : Nat) :
    sepAt p (s ++ l) (s.length + k) = sepAt p l k := by
  rw [sepAt, List.getElem?_append_right (Nat.le_add_right ..), Nat.add_sub_cancel_left, sepAt]

theorem sepAt_cons (c : α) (l : List α) : sepAt p (c :: l) 0 = p c := rfl

-- ---------------------------------------------------------------------------
-- The pass finds the tokens
-- ---------------------------------------------------------------------------

structure Open (p : α → Bool) (s : List α) (i n : Nat) : Prop where
  le : n ≤ i
  free : ∀ k, i - n ≤ k → k < i → sepAt p s k = false
  left : i = n ∨ sepAt p s (i - n - 1) = true

theorem Open.zero : Open p s 0 0 :=
  ⟨Nat.le_refl _, fun _ _ h => absurd h (Nat.not_lt_zero _), .inl rfl⟩

theorem Open.sep (hsep : sepAt p s i = true) : Open p s (i + 1) 0 :=
  ⟨Nat.zero_le _, fun _ h h' => absurd h' (by omega), .inr hsep⟩

theorem Open.free_step (h : Open p s i n) (hsep : sepAt p s i = false) :
    Open p s (i + 1) (n + 1) := by
  have hle := h.le
  have heq : i + 1 - (n + 1) = i - n := by omega
  refine ⟨by omega, fun k hk hlt => ?_, ?_⟩
  · by_cases hki : k = i
    · rwa [hki]
    · exact h.free k (by omega) (by omega)
  · rw [heq]
    exact h.left.imp (fun h => by omega) id

theorem Open.isToken (h : Open p s i n) (hn : n ≠ 0)
    (hright : i = s.length ∨ sepAt p s i = true) (hlen : i ≤ s.length) :
    IsToken p s (i - n) n := by
  have hle := h.le
  have hend : i - n + n = i := by omega
  refine ⟨by omega, by omega, fun k hk hlt => h.free k hk (by omega), ?_, ?_⟩
  · exact h.left.imp (fun h => by omega) id
  · rwa [hend]

theorem Open.eq_of_end (h : Open p s i n) (ht : IsToken p s j m) (hend : j + m = i) :
    n ≠ 0 ∧ j = i - n ∧ m = n := by
  have hle := h.le
  have hpos := ht.pos
  have hnle : ¬ m < n := fun hlt => by
    -- the element before the token is one of the open one
    have hfree := h.free (j - 1) (by omega) (by omega)
    rcases ht.left with hzero | hsep
    · omega
    · rw [hsep] at hfree
      cases hfree
  have hmle : ¬ n < m := fun hlt => by
    have hfree := ht.free (i - n - 1) (by omega) (by omega)
    rcases h.left with hzero | hsep
    · omega
    · rw [hsep] at hfree
      cases hfree
  omega

theorem mem_spans_open (h : Open p (s ++ l) s.length n) :
    (j, m) ∈ spans p s.length n l ↔ IsToken p (s ++ l) j m ∧ s.length ≤ j + m := by
  induction l generalizing s n with
  | nil =>
    rw [List.append_nil] at h ⊢
    rw [spans]
    have hlast : IsToken p s j m → s.length ≤ j + m → j + m = s.length := fun ht hle => by
      have hlen := ht.le
      omega
    by_cases hn : n = 0
    · rw [if_pos hn]
      refine ⟨fun hmem => absurd hmem List.not_mem_nil, fun ⟨ht, hle⟩ => ?_⟩
      exact absurd hn (h.eq_of_end ht (hlast ht hle)).1
    · rw [if_neg hn, List.mem_singleton, Prod.mk.injEq]
      constructor
      · rintro ⟨rfl, rfl⟩
        have hle := h.le
        exact ⟨h.isToken hn (.inl rfl) (Nat.le_refl _), by omega⟩
      · rintro ⟨ht, hle⟩
        exact (h.eq_of_end ht (hlast ht hle)).2
  | cons c l ih =>
    have hat : sepAt p (s ++ c :: l) s.length = p c := by
      have hzero := sepAt_append_right (p := p) s (c :: l) 0
      rwa [Nat.add_zero, sepAt_cons] at hzero
    have hsplit : s ++ c :: l = (s ++ [c]) ++ l := by rw [List.append_assoc, List.singleton_append]
    have hlen : (s ++ [c]).length = s.length + 1 := by simp
    have hnext : ∀ n', Open p (s ++ c :: l) (s.length + 1) n' →
        ((j, m) ∈ spans p (s.length + 1) n' l ↔
          IsToken p (s ++ c :: l) j m ∧ s.length + 1 ≤ j + m) := by
      intro n' hopen
      rw [hsplit, ← hlen] at hopen ⊢
      exact ih hopen
    have hbound : s.length ≤ (s ++ c :: l).length := by simp
    rw [spans]
    by_cases hc : p c = true
    · rw [if_pos hc]
      have hrest := hnext 0 (Open.sep (hat.trans hc))
      by_cases hn : n = 0
      · rw [if_pos hn, hrest]
        refine and_congr_right fun ht => ⟨fun hle => by omega, fun hle => ?_⟩
        have hne : j + m ≠ s.length := fun hend => (h.eq_of_end ht hend).1 hn
        omega
      · rw [if_neg hn, List.mem_cons, hrest, Prod.mk.injEq]
        constructor
        · rintro (⟨rfl, rfl⟩ | ⟨ht, hle⟩)
          · have hle := h.le
            exact ⟨h.isToken hn (.inr (hat.trans hc)) hbound, by omega⟩
          · exact ⟨ht, by omega⟩
        · rintro ⟨ht, hle⟩
          by_cases hend : j + m = s.length
          · exact .inl (h.eq_of_end ht hend).2
          · exact .inr ⟨ht, by omega⟩
    · have hfree : p c = false := Bool.eq_false_iff.mpr hc
      rw [if_neg hc, hnext (n + 1) (h.free_step (hat.trans hfree))]
      refine and_congr_right fun ht => ⟨fun hle => by omega, fun hle => ?_⟩
      have hne : j + m ≠ s.length := fun hend => by
        -- a token that ends here has a separator behind it
        rcases ht.right with hstop | hsep
        · rw [hend] at hstop
          simp at hstop
        · rw [hend, hat, hfree] at hsep
          cases hsep
      omega

theorem mem_spans (p : α → Bool) (s : List α) :
    (j, m) ∈ spans p 0 0 s ↔ IsToken p s j m := by
  have h := mem_spans_open (p := p) (s := []) (l := s) (j := j) (m := m) Open.zero
  rw [List.nil_append, List.length_nil] at h
  rw [h, and_iff_left (Nat.zero_le _)]

theorem le_of_mem_spans (hn : n ≤ i) (hmem : (j, m) ∈ spans p i n l) : i - n ≤ j := by
  induction l generalizing i n with
  | nil =>
    rw [spans] at hmem
    split at hmem
    · cases hmem
    · rw [List.mem_singleton, Prod.mk.injEq] at hmem
      exact Nat.le_of_eq hmem.1.symm
  | cons c l ih =>
    rw [spans] at hmem
    split at hmem
    · split at hmem
      · have hle := ih (Nat.zero_le _) hmem
        omega
      · rcases List.mem_cons.mp hmem with heq | hrest
        · rw [Prod.mk.injEq] at heq
          exact Nat.le_of_eq heq.1.symm
        · have hle := ih (Nat.zero_le _) hrest
          omega
    · have hle := ih (by omega) hmem
      omega

theorem spans_sorted (hn : n ≤ i) :
    (spans p i n l).Pairwise fun t u => t.1 + t.2 < u.1 := by
  induction l generalizing i n with
  | nil =>
    rw [spans]
    split
    · exact .nil
    · exact List.pairwise_singleton _ _
  | cons c l ih =>
    rw [spans]
    split
    · split
      · exact ih (Nat.zero_le _)
      · refine List.pairwise_cons.mpr ⟨fun u hu => ?_, ih (Nat.zero_le _)⟩
        have hle := le_of_mem_spans (Nat.zero_le _) (show (u.1, u.2) ∈ _ from hu)
        omega
    · exact ih (by omega)

-- ---------------------------------------------------------------------------
-- One token after another
-- ---------------------------------------------------------------------------

theorem spans_skip {d : List α} (hd : ∀ c ∈ d, p c = true) :
    spans p i 0 (d ++ l) = spans p (i + d.length) 0 l := by
  induction d generalizing i with
  | nil => rfl
  | cons c d ih =>
    rw [List.cons_append, spans, if_pos (hd c (List.mem_cons_self ..)), if_pos rfl,
      ih fun c' hc' => hd c' (List.mem_cons_of_mem _ hc'), List.length_cons]
    congr 1
    omega

theorem spans_free {t : List α} (ht : ∀ c ∈ t, p c = false) :
    spans p i n (t ++ l) = spans p (i + t.length) (n + t.length) l := by
  induction t generalizing i n with
  | nil => rfl
  | cons c t ih =>
    have hc : ¬ p c = true := by rw [ht c (List.mem_cons_self ..)]; exact Bool.false_ne_true
    rw [List.cons_append, spans, if_neg hc, ih fun c' hc' => ht c' (List.mem_cons_of_mem _ hc'),
      List.length_cons]
    congr 1 <;> omega

theorem spans_last {t : List α} (ht : ∀ c ∈ t, p c = false) (hne : t ≠ []) :
    spans p i 0 t = [(i, t.length)] := by
  have hlen : 0 + t.length ≠ 0 := by
    have hpos := List.length_pos_iff.mpr hne
    omega
  have h := spans_free (l := []) (i := i) (n := 0) ht
  rw [List.append_nil, spans, if_neg hlen] at h
  rw [h]
  congr 2 <;> omega

theorem spans_token {t : List α} (ht : ∀ c ∈ t, p c = false) (hne : t ≠ []) (hc : p c = true) :
    spans p i 0 (t ++ c :: l) = (i, t.length) :: spans p (i + t.length + 1) 0 l := by
  have hlen : 0 + t.length ≠ 0 := by
    have hpos := List.length_pos_iff.mpr hne
    omega
  rw [spans_free ht, spans, if_pos hc, if_neg hlen]
  congr 2 <;> omega

/-- What a list starts with: separators, and a token that ends with the list or at a separator. -/
inductive Cut (p : α → Bool) (l : List α) : Prop
  | none (hd : ∀ c ∈ l, p c = true)
  | last (d t : List α) (hd : ∀ c ∈ d, p c = true) (ht : ∀ c ∈ t, p c = false) (hne : t ≠ [])
    (hl : l = d ++ t)
  | more (d t : List α) (c : α) (r : List α) (hd : ∀ c ∈ d, p c = true)
    (ht : ∀ c ∈ t, p c = false) (hne : t ≠ []) (hc : p c = true) (hl : l = d ++ (t ++ c :: r))

theorem head_dropWhile {q : α → Bool} {x : α} {r : List α} (h : l.dropWhile q = x :: r) :
    q x = false := by
  have hhead := List.head?_dropWhile_not q l
  rwa [h] at hhead

theorem cut (p : α → Bool) (l : List α) : Cut p l := by
  have hl := (List.takeWhile_append_dropWhile (p := p) (l := l)).symm
  have hd : ∀ c ∈ l.takeWhile p, p c = true := fun c hc => List.mem_takeWhile_imp hc
  cases hstart : l.dropWhile p with
  | nil =>
    rw [hstart, List.append_nil] at hl
    exact .none (hl ▸ hd)
  | cons x l' =>
    have hx : p x = false := head_dropWhile hstart
    have hl' := (List.takeWhile_append_dropWhile (p := fun c => !p c) (l := x :: l')).symm
    have ht : ∀ c ∈ (x :: l').takeWhile (fun c => !p c), p c = false := fun c hc => by
      simpa using List.mem_takeWhile_imp hc
    have hne : (x :: l').takeWhile (fun c => !p c) ≠ [] := by
      rw [List.takeWhile_cons, hx]
      exact List.cons_ne_nil _ _
    cases hend : (x :: l').dropWhile (fun c => !p c) with
    | nil =>
      rw [hend, List.append_nil] at hl'
      exact .last _ _ hd ht hne (hl' ▸ hstart ▸ hl)
    | cons c r =>
      have hc : p c = true := by simpa using head_dropWhile hend
      rw [hend] at hl'
      exact .more _ _ c r hd ht hne hc (hl' ▸ hstart ▸ hl)

end EponaOS.Tokens
