/-!
# Loops bounded by a fuel

A loop that the source does not bound is a function of a fuel here, `none` when the fuel
is used up. `Returns f r` says that the loop ends with `r`: every fuel from some bound on
gives it.
-/

namespace EponaOS

def Returns (f : Nat → Option α) (r : α) : Prop := ∃ N, ∀ fuel, N ≤ fuel → f fuel = some r

theorem Returns.unique (h : Returns f r) (h' : Returns f r') : r = r' := by
  obtain ⟨N, h⟩ := h
  obtain ⟨N', h'⟩ := h'
  have h1 := h (max N N') (Nat.le_max_left ..)
  have h2 := h' (max N N') (Nat.le_max_right ..)
  exact Option.some.inj (h1.symm.trans h2)

def FuelMono (f : Nat → Option α) : Prop := ∀ n r, f n = some r → f (n + 1) = some r

theorem FuelMono.returns (hf : FuelMono f) (h : f n = some r) : Returns f r := by
  refine ⟨n, fun fuel hn => ?_⟩
  induction fuel with
  | zero =>
    obtain rfl : n = 0 := by omega
    exact h
  | succ fuel ih =>
    by_cases hle : n ≤ fuel
    · exact hf _ _ (ih hle)
    · obtain rfl : n = fuel + 1 := by omega
      exact h

theorem Returns.pure (r : α) : Returns (fun _ => some r) r := ⟨0, fun _ _ => rfl⟩

theorem Returns.step (hstep : ∀ fuel, f (fuel + 1) = g fuel) (h : Returns g r) : Returns f r := by
  obtain ⟨N, h⟩ := h
  refine ⟨N + 1, fun fuel hf => ?_⟩
  cases fuel with
  | zero => omega
  | succ fuel =>
    rw [hstep]
    exact h fuel (by omega)

theorem Returns.bind {g : α → Nat → Option β} (h : Returns f a) (hg : Returns (g a) r) :
    Returns (fun fuel => (f fuel).bind fun a => g a fuel) r := by
  obtain ⟨N, h⟩ := h
  obtain ⟨N', hg⟩ := hg
  refine ⟨max N N', fun fuel hf => ?_⟩
  show (f fuel).bind _ = _
  rw [h fuel (by omega)]
  exact hg fuel (by omega)

theorem Returns.map (g : α → β) (h : Returns f a) : Returns (fun fuel => (f fuel).map g) (g a) := by
  obtain ⟨N, h⟩ := h
  refine ⟨N, fun fuel hf => ?_⟩
  show (f fuel).map g = _
  rw [h fuel hf]
  rfl

def Ends (f : Nat → Option α) : Prop := ∃ r, Returns f r

theorem Ends.bind {f : Nat → Option α} {g : α → Nat → Option β} (h : Ends f)
    (hg : ∀ a, Ends (g a)) :
    Ends fun fuel => (f fuel).bind fun a => g a fuel := by
  obtain ⟨a, h⟩ := h
  obtain ⟨r, hg⟩ := hg a
  exact ⟨r, h.bind hg⟩

theorem Ends.ite {f g : Nat → Option α} (c : Prop) [Decidable c] (hf : Ends f) (hg : Ends g) :
    Ends fun fuel => if c then f fuel else g fuel := by
  by_cases h : c
  · simp only [if_pos h]
    exact hf
  · simp only [if_neg h]
    exact hg

theorem Ends.pure (r : α) : Ends fun _ => some r := ⟨r, .pure r⟩

end EponaOS
