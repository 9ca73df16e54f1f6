import Mathlib.Data.List.Nodup

/-!
# Circular lists

Cells that are linked to one another by `link`, which is a partial function: a cell that
was freed has no link. `Leads link a l b` says that the links lead from `a` over the cells
`l` to `b`, and `Cycle link g l` that they lead from `g` over the other cells `l` back to
`g`. A cell is put behind another one, or taken off, by a change of one link, and any of
the cells may be the one to start from.
-/

namespace EponaOS

def Leads {α : Type} (link : α → Option α) : α → List α → α → Prop
  | a, [], b => a = b
  | a, x :: l, b => a = x ∧ ∃ y, link x = some y ∧ Leads link y l b

structure Cycle {α : Type} (link : α → Option α) (g : α) (l : List α) : Prop where
  nodup : (g :: l).Nodup
  leads : Leads link g (g :: l) g

variable {α : Type} {link link' : α → Option α} {a b c g p x y : α} {l l₁ l₂ : List α}

namespace Leads

theorem append : Leads link a (l₁ ++ l₂) b ↔ ∃ c, Leads link a l₁ c ∧ Leads link c l₂ b := by
  induction l₁ generalizing a with
  | nil => exact ⟨fun h => ⟨a, rfl, h⟩, fun ⟨c, hac, h⟩ => hac ▸ h⟩
  | cons x l₁ ih =>
    constructor
    · rintro ⟨hax, y, hy, h⟩
      obtain ⟨c, h₁, h₂⟩ := ih.mp h
      exact ⟨c, ⟨hax, y, hy, h₁⟩, h₂⟩
    · rintro ⟨c, ⟨hax, y, hy, h₁⟩, h₂⟩
      exact ⟨hax, y, hy, ih.mpr ⟨c, h₁, h₂⟩⟩

theorem congr (h : Leads link a l b) (hl : ∀ x ∈ l, link' x = link x) : Leads link' a l b := by
  induction l generalizing a with
  | nil => exact h
  | cons x l ih =>
    obtain ⟨hax, y, hy, h⟩ := h
    exact ⟨hax, y, (hl x List.mem_cons_self).trans hy,
      ih h fun z hz => hl z (List.mem_cons_of_mem _ hz)⟩

theorem linked (h : Leads link a l b) (hx : x ∈ l) : ∃ y, link x = some y := by
  induction l generalizing a with
  | nil => cases hx
  | cons z l ih =>
    obtain ⟨-, y, hy, h⟩ := h
    obtain _ | ⟨_, hx⟩ := hx
    · exact ⟨y, hy⟩
    · exact ih h hx

theorem redirect (h : Leads link a (l ++ [p]) b) (hp : link' p = some c)
    (hl : ∀ x ∈ l, link' x = link x) : Leads link' a (l ++ [p]) c := by
  obtain ⟨q, h, hqp, -⟩ := append.mp h
  exact append.mpr ⟨q, h.congr hl, hqp, c, hp, rfl⟩

end Leads

namespace Cycle

theorem perm_rotate : (x :: (l₂ ++ g :: l₁)).Perm (g :: (l₁ ++ x :: l₂)) :=
  (List.perm_append_comm : ((x :: l₂) ++ (g :: l₁)).Perm ((g :: l₁) ++ (x :: l₂)))

theorem linked (h : Cycle link g l) (hx : x ∈ g :: l) : ∃ y, link x = some y := h.leads.linked hx

theorem split (h : Cycle link g (l₁ ++ x :: l₂)) :
    Leads link g (g :: l₁) x ∧ Leads link x (x :: l₂) g := by
  have hleads : Leads link g ((g :: l₁) ++ x :: l₂) g := h.leads
  obtain ⟨c, h₁, h₂⟩ := Leads.append.mp hleads
  obtain rfl := h₂.1
  exact ⟨h₁, h₂⟩

theorem rest (h : Cycle link' g (l₁ ++ l₂)) (hc : Leads link c l₂ g) : Leads link' c l₂ g := by
  cases l₂ with
  | nil => exact hc
  | cons x l₂ =>
    obtain ⟨rfl, -⟩ := hc
    exact h.split.2

theorem rotate (h : Cycle link g (l₁ ++ x :: l₂)) : Cycle link x (l₂ ++ g :: l₁) := by
  obtain ⟨h₁, h₂⟩ := h.split
  have hleads : Leads link x ((x :: l₂) ++ g :: l₁) x := Leads.append.mpr ⟨g, h₂, h₁⟩
  exact ⟨perm_rotate.nodup_iff.mpr h.nodup, hleads⟩

theorem insert (h : Cycle link g l) (hx : x ∉ g :: l) (hg : link' g = some x)
    (hlink : link' x = link g) (hl : ∀ y ∈ l, link' y = link y) : Cycle link' g (x :: l) := by
  obtain ⟨-, y, hy, hrest⟩ := h.leads
  have hnd : (x :: g :: l).Nodup := List.nodup_cons.mpr ⟨hx, h.nodup⟩
  exact ⟨(List.Perm.swap x g l).nodup_iff.mpr hnd, rfl, x, hg, rfl, y, hlink.trans hy,
    hrest.congr hl⟩

theorem remove (h : Cycle link g (l₁ ++ x :: l₂))
    (hp : link' ((g :: l₁).getLast (List.cons_ne_nil g l₁)) = link x)
    (hl : ∀ y ∈ g :: (l₁ ++ l₂), y ≠ (g :: l₁).getLast (List.cons_ne_nil g l₁) →
      link' y = link y) : Cycle link' g (l₁ ++ l₂) := by
  obtain ⟨h₁, -, y, hy, h₂⟩ := h.split
  have hsub : (g :: (l₁ ++ l₂)).Sublist (g :: (l₁ ++ x :: l₂)) :=
    ((List.sublist_cons_self x l₂).append_left l₁).cons_cons g
  have hnd : ((g :: l₁) ++ l₂).Nodup := h.nodup.sublist hsub
  obtain ⟨hnd₁, -, hdisj⟩ := List.nodup_append.mp hnd
  have hleads : Leads link' g ((g :: l₁) ++ l₂) g := by
    refine Leads.append.mpr ⟨y, ?_, h₂.congr fun z hz => hl z ?_ fun hzp => ?_⟩
    · have hlast := List.dropLast_append_getLast (List.cons_ne_nil g l₁)
      generalize (g :: l₁).getLast (List.cons_ne_nil g l₁) = p at *
      rw [← hlast] at h₁ hnd₁ ⊢
      refine h₁.redirect (hp.trans hy) fun z hz => hl z ?_ fun hzp => ?_
      · exact List.mem_append_left l₂ (List.dropLast_subset _ hz)
      · exact (List.nodup_append.mp hnd₁).2.2 z hz p (List.mem_singleton_self p) hzp
    · exact List.mem_append_right (g :: l₁) hz
    · exact hdisj _ (List.getLast_mem _) z hz hzp.symm
  exact ⟨hnd, hleads⟩

end Cycle
end EponaOS
