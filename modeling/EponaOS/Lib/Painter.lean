import Mathlib.Data.List.Induction

/-!
# Painting one picture over another

A picture has a color at some places and is transparent at the others. `Draws look f pic` says that
`f` puts the picture over what is there. To draw pictures one after the other is to draw one picture,
which shows at each place the last of them that is not transparent there.
-/

namespace EponaOS

abbrev Picture (P C : Type) := P → Option C

namespace Picture

variable {P C α : Type} {l : List α} {pic : α → Picture P C} {p : P} {a : α}

def atop (top below : Picture P C) : Picture P C := fun p => (top p).or (below p)

def stack (l : List α) (pic : α → Picture P C) : Picture P C :=
  l.foldl (fun below a => (pic a).atop below) fun _ => none

theorem stack_eq (l : List α) (pic : α → Picture P C) (p : P) :
    stack l pic p = (l.reverse.find? fun a => (pic a p).isSome).bind fun a => pic a p := by
  induction l using List.reverseRecOn with
  | nil => rfl
  | append_singleton l a ih =>
    have hstack : stack (l ++ [a]) pic p = (pic a p).or (stack l pic p) := by
      simp [stack, atop]
    rw [hstack, ih]
    cases hpic : pic a p <;> simp [hpic]

/-- Where the picture has a color, `has` holds of the place and the color. -/
def Within (pic : Picture P C) (has : P → C → Prop) : Prop := ∀ p c, pic p = some c → has p c

variable {pic top below : Picture P C} {has : P → C → Prop}

theorem within_none (has : P → C → Prop) : Within (fun _ => none) has := nofun

theorem Within.atop (htop : Within top has) (hbelow : Within below has) :
    Within (top.atop below) has := by
  intro p c hc
  obtain hc | ⟨-, hc⟩ := Option.or_eq_some_iff.mp hc
  · exact htop p c hc
  · exact hbelow p c hc

theorem Within.stack {pic : α → Picture P C} (h : ∀ a ∈ l, Within (pic a) has) :
    Within (stack l pic) has := by
  intro p c hc
  rw [stack_eq] at hc
  obtain ⟨a, ha, hc⟩ := Option.bind_eq_some_iff.mp hc
  exact h a (List.mem_reverse.mp (List.mem_of_find?_eq_some ha)) p c hc

theorem Within.mono {has' : P → C → Prop} (h : Within pic has) (himp : ∀ p c, has p c → has' p c) :
    Within pic has' := fun p c hc => himp p c (h p c hc)

theorem atop_isSome (top below : Picture P C) (p : P) :
    (top.atop below p).isSome = ((top p).isSome || (below p).isSome) := by
  rw [Picture.atop, Option.isSome_or]

end Picture

section Draws

variable {S P C α : Type} {look : S → P → C} {f f' : S → S} {pic pic' : Picture P C} {s : S} {p : P}

structure Draws (look : S → P → C) (f : S → S) (pic : Picture P C) : Prop where
  seen : ∀ s p, look (f s) p = (pic p).getD (look s p)

theorem Draws.none (h : Draws look f pic) (hp : pic p = none) (s : S) : look (f s) p = look s p := by
  rw [h.seen, hp, Option.getD_none]

theorem Draws.some {c : C} (h : Draws look f pic) (hp : pic p = some c) (s : S) :
    look (f s) p = c := by
  rw [h.seen, hp, Option.getD_some]

theorem Draws.nothing : Draws look id fun _ => Option.none := ⟨fun _ _ => rfl⟩

theorem Draws.congr (h : Draws look f pic) (heq : ∀ p, pic p = pic' p) : Draws look f pic' :=
  ⟨fun s p => by rw [h.seen, heq]⟩

theorem Draws.comp (h : Draws look f pic) (h' : Draws look f' pic') :
    Draws look (fun s => f' (f s)) (pic'.atop pic) :=
  ⟨fun s p => by rw [h'.seen, h.seen, Picture.atop, Option.getD_or]⟩

theorem Draws.foldl {g : S → α → S} {pic : α → Picture P C} (l : List α)
    (h : ∀ a ∈ l, Draws look (fun s => g s a) (pic a)) :
    Draws look (fun s => l.foldl g s) (Picture.stack l pic) := by
  induction l using List.reverseRecOn with
  | nil => exact .nothing
  | append_singleton l a ih =>
    have hlast := (ih fun b hb => h b (by simp [hb])).comp (h a (by simp))
    simpa [Picture.stack] using hlast

end Draws

end EponaOS
