import EponaOS.Kernel.Term
import Mathlib.Data.List.Infix
import Mathlib.Data.List.TakeWhile

/-!
# Escape sequences

A text with escape sequences in it, some of them cut off by the next one, against what the
terminal makes of it. An `ESC` in the middle of a sequence should start a new one; the
parser takes it for the end of the sequence, or ignores it.
-/

namespace EponaOS.Kernel

-- ---------------------------------------------------------------------------
-- The parser alone
-- ---------------------------------------------------------------------------

def parserStep : TermState → UInt8 → TermState × List TermEvent
  | .ground, b => if b = ESC then (.escape, []) else (.ground, [.putc b])
  | .escape, b => if b = 0x5B then (.csi, []) else if b = 0x5D then (.osc, []) else (.ground, [])
  | .csi, b => if IsFinal b then (.ground, [.dispatch b]) else (.csi, [])
  | .osc, b => if b = BEL ∨ b = ESC then (.ground, []) else (.osc, [])

def parserRun : TermState → List UInt8 → TermState × List TermEvent
  | s, [] => (s, [])
  | s, b :: bs =>
    let r := parserRun (parserStep s b).1 bs
    (r.1, (parserStep s b).2 ++ r.2)

variable {s : TermState} {b : UInt8} {bs bs' : List UInt8} {ev ev' : List TermEvent}

theorem digit_not_final (h : IsDigit b) : ¬ IsFinal b := fun hf =>
  absurd (UInt8.le_trans hf.1 h.2) (by decide)

theorem termCtxPutc_spec (dev : Gpu G) (t : Terminal G) (b : UInt8) :
    (termCtxPutc dev t b).ctx.state = (parserStep t.ctx.state b).1 ∧
      (termCtxPutc dev t b).events = t.events ++ (parserStep t.ctx.state b).2 := by
  have hstate : ∀ (ctx : TermCtx) (d : Int), (paramDigit ctx d).state = ctx.state := by
    intro ctx d
    rw [paramDigit]
    dsimp only
    split <;> split <;> split <;> rfl
  have hsep : ∀ ctx : TermCtx, (paramSep ctx).state = ctx.state := by
    intro ctx
    rw [paramSep]
    split <;> rfl
  have hnil : t.events = t.events ++ [] := (List.append_nil _).symm
  rw [termCtxPutc]
  cases hs : t.ctx.state with
  | ground =>
    simp only [parserStep]
    split
    · exact ⟨rfl, hnil⟩
    · exact ⟨hs, rfl⟩
  | escape =>
    simp only [parserStep]
    split
    · exact ⟨rfl, hnil⟩
    split
    · exact ⟨rfl, hnil⟩
    · exact ⟨rfl, hnil⟩
  | csi =>
    simp only [parserStep]
    split
    · rename_i hdigit
      rw [if_neg (digit_not_final hdigit)]
      exact ⟨(hstate ..).trans hs, hnil⟩
    split
    · rename_i hb
      have hnot : ¬ IsFinal b := by
        rw [hb]
        decide
      rw [if_neg hnot]
      exact ⟨(hsep _).trans hs, hnil⟩
    split
    · exact ⟨rfl, rfl⟩
    · exact ⟨hs, hnil⟩
  | osc =>
    simp only [parserStep]
    split
    · exact ⟨rfl, hnil⟩
    · exact ⟨hs, hnil⟩

theorem foldl_putc_spec (dev : Gpu G) (t : Terminal G) (bs : List UInt8) :
    (bs.foldl (termCtxPutc dev) t).ctx.state = (parserRun t.ctx.state bs).1 ∧
      (bs.foldl (termCtxPutc dev) t).events = t.events ++ (parserRun t.ctx.state bs).2 := by
  induction bs generalizing t with
  | nil => exact ⟨rfl, (List.append_nil _).symm⟩
  | cons b bs ih =>
    obtain ⟨hs, he⟩ := termCtxPutc_spec dev t b
    obtain ⟨hs', he'⟩ := ih (termCtxPutc dev t b)
    rw [List.foldl_cons, parserRun, hs', he', hs, he, List.append_assoc]
    exact ⟨rfl, rfl⟩

theorem parserRun_append : parserRun s (bs ++ bs') =
    ((parserRun (parserRun s bs).1 bs').1,
      (parserRun s bs).2 ++ (parserRun (parserRun s bs).1 bs').2) := by
  induction bs generalizing s with
  | nil => rfl
  | cons b bs ih =>
    rw [List.cons_append, parserRun, parserRun, ih]
    dsimp only
    rw [List.append_assoc]

-- ---------------------------------------------------------------------------
-- Texts with escape sequences
-- ---------------------------------------------------------------------------

def IsParam (b : UInt8) : Prop := IsDigit b ∨ b = 0x3B

instance (b : UInt8) : Decidable (IsParam b) := inferInstanceAs (Decidable (_ ∨ _))

inductive TermItem
  | text (c : UInt8) (h : c ≠ ESC)
  | csi (params : List UInt8) (final : UInt8) (hp : ∀ b ∈ params, IsParam b) (hf : IsFinal final)
  /-- ended by `BEL` -/
  | osc (body : List UInt8) (h : ∀ b ∈ body, b ≠ BEL ∧ b ≠ ESC)
  /-- ended by `ESC \` -/
  | oscSt (body : List UInt8) (h : ∀ b ∈ body, b ≠ BEL ∧ b ≠ ESC)
  | esc (x : UInt8) (h : x ≠ 0x5B ∧ x ≠ 0x5D ∧ x ≠ ESC)
  /-- cut off behind `ESC` -/
  | cutEsc
  | cutCsi (params : List UInt8) (hp : ∀ b ∈ params, IsParam b)
  | cutOsc (body : List UInt8) (h : ∀ b ∈ body, b ≠ BEL ∧ b ≠ ESC)

namespace TermItem

def bytes : TermItem → List UInt8
  | text c _ => [c]
  | csi params final _ _ => ESC :: 0x5B :: (params ++ [final])
  | osc body _ => ESC :: 0x5D :: (body ++ [BEL])
  | oscSt body _ => ESC :: 0x5D :: (body ++ [ESC, 0x5C])
  | esc x _ => [ESC, x]
  | cutEsc => [ESC]
  | cutCsi params _ => ESC :: 0x5B :: params
  | cutOsc body _ => ESC :: 0x5D :: body

def expected : TermItem → List TermEvent
  | text c _ => [.putc c]
  | csi _ final _ _ => [.dispatch final]
  | _ => []

def IsText : TermItem → Prop
  | text _ _ => True
  | _ => False

def IsCut : TermItem → Prop
  | cutEsc => True
  | cutCsi _ _ => True
  | cutOsc _ _ => True
  | _ => False

/-- A parser that missed an `ESC` in a control sequence sees no final byte in it. -/
def Silent : TermItem → Prop
  | cutEsc => True
  | esc x _ => ¬ IsFinal x
  | _ => False

end TermItem

def itemBytes (items : List TermItem) : List UInt8 := items.flatMap TermItem.bytes

/-- A sequence is cut off by a new one. -/
def CutByEsc : List TermItem → Prop
  | [] => True
  | [i] => ¬ i.IsCut
  | i :: j :: items => (i.IsCut → ¬ j.IsText) ∧ CutByEsc (j :: items)

/-- The characters passed to `gpu_putc`. -/
def shown (ev : List TermEvent) : List UInt8 :=
  ev.filterMap fun
    | .putc c => some c
    | .dispatch _ => none

def dispatched (ev : List TermEvent) : List UInt8 :=
  ev.filterMap fun
    | .putc _ => none
    | .dispatch b => some b

/-- From the ground state, the text is shown and nothing else, and each complete control
sequence is dispatched. -/
def Recognised (items : List TermItem) : Prop :=
  ∀ (G : Type) (dev : Gpu G) (t : Terminal G), t.ctx.state = .ground →
    ∃ ev, ((itemBytes items).foldl (termCtxPutc dev) t).events = t.events ++ ev ∧
      shown ev = shown (items.flatMap TermItem.expected) ∧
      dispatched ev = dispatched (items.flatMap TermItem.expected)

/-- No OSC is ended by `ESC \`. Behind an `ESC` or OSC that was cut off there is an `ESC`
that is cut off itself (`again`), and behind a control sequence that was cut off there are
only two-byte sequences, without a final byte. -/
def Regular (again : Bool) : List TermItem → Prop
  | [] => True
  | i :: items =>
    match again, i with
    | true, .cutEsc => Regular false items
    | true, _ => False
    | false, .oscSt _ _ => False
    | false, .cutEsc => Regular true items
    | false, .cutOsc _ _ => Regular true items
    | false, .cutCsi _ _ => ∀ j ∈ items, j.Silent
    | false, _ => Regular false items

-- ---------------------------------------------------------------------------
-- One piece
-- ---------------------------------------------------------------------------

def Matches (ev ev' : List TermEvent) : Prop := shown ev = shown ev' ∧ dispatched ev = dispatched ev'

def Good (s : TermState) (items : List TermItem) : Prop :=
  ∀ q, q <+: items → Matches (parserRun s (itemBytes q)).2 (q.flatMap TermItem.expected)

variable {i : TermItem} {items : List TermItem}

theorem shown_append : shown (ev ++ ev') = shown ev ++ shown ev' := List.filterMap_append

theorem dispatched_append : dispatched (ev ++ ev') = dispatched ev ++ dispatched ev' :=
  List.filterMap_append

theorem Matches.append_iff (h : Matches ev ev') (ev₁ ev₁' : List TermEvent) :
    Matches (ev ++ ev₁) (ev' ++ ev₁') ↔ Matches ev₁ ev₁' := by
  rw [Matches, Matches, shown_append, shown_append, dispatched_append, dispatched_append, h.1, h.2,
    List.append_cancel_left_eq, List.append_cancel_left_eq]

theorem good_nil : Good s [] := fun q hq => by
  rw [List.prefix_nil.mp hq]
  exact ⟨rfl, rfl⟩

theorem good_cons : Good s (i :: items) ↔
    Matches (parserRun s i.bytes).2 i.expected ∧ Good (parserRun s i.bytes).1 items := by
  have hrun : ∀ q : List TermItem, (parserRun s (itemBytes (i :: q))).2 =
      (parserRun s i.bytes).2 ++ (parserRun (parserRun s i.bytes).1 (itemBytes q)).2 := fun q => by
    rw [itemBytes, List.flatMap_cons, parserRun_append]
    rfl
  constructor
  · intro h
    have hone := h [i] (List.prefix_append [i] items)
    rw [hrun, itemBytes, List.flatMap_nil, parserRun, List.append_nil, List.flatMap_cons,
      List.flatMap_nil, List.append_nil] at hone
    refine ⟨hone, fun q hq => ?_⟩
    have := h (i :: q) (List.cons_prefix_cons.mpr ⟨rfl, hq⟩)
    rw [hrun, List.flatMap_cons, hone.append_iff] at this
    exact this
  · rintro ⟨hone, h⟩ q hq
    cases q with
    | nil => exact ⟨rfl, rfl⟩
    | cons j q =>
      obtain ⟨rfl, hrest⟩ := List.cons_prefix_cons.mp hq
      rw [hrun, List.flatMap_cons, hone.append_iff]
      exact h q hrest

theorem not_matches_of_putc (ev : List TermEvent) (hs : shown ev' = []) : ¬ Matches (ev ++ .putc b :: bs₁) ev' := by
  rintro ⟨h, -⟩
  rw [hs, shown_append] at h
  exact absurd (List.append_eq_nil_iff.mp h).2 (List.cons_ne_nil _ _)

theorem not_matches_of_dispatch (hd : dispatched ev' = []) :
    ¬ Matches (.dispatch b :: ev) ev' := by
  rintro ⟨-, h⟩
  rw [hd] at h
  exact absurd h (List.cons_ne_nil _ _)

theorem param_not_final (h : IsParam b) : ¬ IsFinal b := by
  obtain h | rfl := h
  · exact digit_not_final h
  · decide

theorem run_params (h : ∀ b ∈ bs, IsParam b) : parserRun .csi bs = (.csi, []) := by
  induction bs with
  | nil => rfl
  | cons b bs ih =>
    have hb := param_not_final (h b List.mem_cons_self)
    rw [parserRun, parserStep, if_neg hb, ih fun c hc => h c (List.mem_cons_of_mem b hc)]
    rfl

theorem run_body (h : ∀ b ∈ bs, b ≠ BEL ∧ b ≠ ESC) : parserRun .osc bs = (.osc, []) := by
  induction bs with
  | nil => rfl
  | cons b bs ih =>
    obtain ⟨hbel, hesc⟩ := h b List.mem_cons_self
    rw [parserRun, parserStep, if_neg (not_or.mpr ⟨hbel, hesc⟩),
      ih fun c hc => h c (List.mem_cons_of_mem b hc)]
    rfl

/-- The first byte of a sequence is `ESC`; the second one is no `ESC`, if it has one. -/
theorem TermItem.bytes_cons (i : TermItem) (h : ¬ i.IsText) : i = .cutEsc ∨
    ∃ b bs, i.bytes = ESC :: b :: bs ∧ b ≠ ESC := by
  cases i with
  | text => exact absurd trivial h
  | csi => exact .inr ⟨_, _, rfl, by decide⟩
  | osc => exact .inr ⟨_, _, rfl, by decide⟩
  | oscSt => exact .inr ⟨_, _, rfl, by decide⟩
  | esc x hx => exact .inr ⟨_, _, rfl, hx.2.2⟩
  | cutEsc => exact .inl rfl
  | cutCsi => exact .inr ⟨_, _, rfl, by decide⟩
  | cutOsc => exact .inr ⟨_, _, rfl, by decide⟩

theorem TermItem.expected_shown (i : TermItem) (h : ¬ i.IsText) : shown i.expected = [] := by
  cases i with
  | text => exact absurd trivial h
  | _ => rfl

-- ---------------------------------------------------------------------------
-- Behind a sequence that was cut off
-- ---------------------------------------------------------------------------

/-- The `ESC` of the new sequence ends the old one, and the rest of it is shown. -/
theorem good_again (hs : s = .escape ∨ s = .osc) (h : ¬ i.IsText) :
    Good s (i :: items) ↔ i = .cutEsc ∧ Good .ground items := by
  have hesc : parserStep s ESC = (.ground, []) := by
    obtain rfl | rfl := hs <;> rfl
  rw [good_cons]
  obtain rfl | ⟨b, bs, hb, hne⟩ := i.bytes_cons h
  · have hrun : parserRun s TermItem.cutEsc.bytes = (.ground, []) := by
      rw [TermItem.bytes, parserRun, hesc]
      rfl
    rw [hrun]
    exact ⟨fun h => ⟨rfl, h.2⟩, fun h => ⟨⟨rfl, rfl⟩, h.2⟩⟩
  · constructor
    · rintro ⟨hm, -⟩
      rw [hb, parserRun, hesc, parserRun, parserStep, if_neg hne] at hm
      exact absurd hm (not_matches_of_putc [] (i.expected_shown h))
    · rintro ⟨rfl, -⟩
      cases hb

theorem good_csi_cons : Good .csi (i :: items) ↔ i.Silent ∧ Good .csi items := by
  have hesc : parserStep .csi ESC = (.csi, []) := by
    rw [parserStep, if_neg (by decide)]
  have hopen : ∀ b, b = 0x5B ∨ b = 0x5D → parserStep .csi b = (.ground, [.dispatch b]) := by
    have h5B : IsFinal 0x5B := by decide
    have h5D : IsFinal 0x5D := by decide
    rintro b (rfl | rfl)
    · rw [parserStep, if_pos h5B]
    · rw [parserStep, if_pos h5D]
  rw [good_cons]
  cases i with
  | text c hc =>
    refine ⟨fun h => ?_, fun h => h.1.elim⟩
    obtain ⟨⟨hshown, hdisp⟩, -⟩ := h
    rw [TermItem.bytes, parserRun, parserStep] at hshown
    split at hshown
    · cases hshown
    · cases hshown
  | csi params final hp hf =>
    refine ⟨fun h => ?_, fun h => h.1.elim⟩
    obtain ⟨b, bs, hb, hne⟩ : ∃ b bs, params ++ [final] = b :: bs ∧ b ≠ ESC := by
      cases params with
      | nil => exact ⟨final, [], rfl, fun h => absurd (h ▸ hf) (by decide)⟩
      | cons b bs =>
        exact ⟨b, bs ++ [final], rfl, fun h => absurd (h ▸ hp b List.mem_cons_self) (by decide)⟩
    rw [TermItem.bytes, parserRun, hesc, parserRun, hopen _ (.inl rfl), hb, parserRun, parserStep,
      if_neg hne] at h
    exact absurd h.1 (not_matches_of_putc [.dispatch 0x5B] rfl)
  | osc body hb =>
    refine ⟨fun h => ?_, fun h => h.1.elim⟩
    rw [TermItem.bytes, parserRun, hesc, parserRun, hopen _ (.inr rfl)] at h
    exact absurd h.1 (not_matches_of_dispatch rfl)
  | oscSt body hb =>
    refine ⟨fun h => ?_, fun h => h.1.elim⟩
    rw [TermItem.bytes, parserRun, hesc, parserRun, hopen _ (.inr rfl)] at h
    exact absurd h.1 (not_matches_of_dispatch rfl)
  | esc x hx =>
    rw [TermItem.bytes, parserRun, hesc, parserRun, parserStep]
    by_cases hf : IsFinal x
    · rw [if_pos hf]
      exact ⟨fun h => absurd h.1 (not_matches_of_dispatch rfl), fun h => absurd hf h.1⟩
    · rw [if_neg hf]
      exact ⟨fun h => ⟨hf, h.2⟩, fun h => ⟨⟨rfl, rfl⟩, h.2⟩⟩
  | cutEsc =>
    rw [TermItem.bytes, parserRun, hesc]
    exact ⟨fun h => ⟨trivial, h.2⟩, fun h => ⟨⟨rfl, rfl⟩, h.2⟩⟩
  | cutCsi params hp =>
    refine ⟨fun h => ?_, fun h => h.1.elim⟩
    rw [TermItem.bytes, parserRun, hesc, parserRun, hopen _ (.inl rfl)] at h
    exact absurd h.1 (not_matches_of_dispatch rfl)
  | cutOsc body hb =>
    refine ⟨fun h => ?_, fun h => h.1.elim⟩
    rw [TermItem.bytes, parserRun, hesc, parserRun, hopen _ (.inr rfl)] at h
    exact absurd h.1 (not_matches_of_dispatch rfl)

theorem good_csi : Good .csi items ↔ ∀ j ∈ items, j.Silent := by
  induction items with
  | nil => exact ⟨fun _ _ hj => absurd hj List.not_mem_nil, fun _ => good_nil⟩
  | cons i items ih => rw [good_csi_cons, ih, List.forall_mem_cons]

-- ---------------------------------------------------------------------------
-- The whole text
-- ---------------------------------------------------------------------------

theorem CutByEsc.tail (h : CutByEsc (i :: items)) : CutByEsc items := by
  cases items with
  | nil => trivial
  | cons j items => exact h.2

theorem good_cons_ground (h : parserRun s i.bytes = (.ground, i.expected)) :
    Good s (i :: items) ↔ Good .ground items := by
  rw [good_cons, h]
  exact ⟨And.right, fun hgood => ⟨⟨rfl, rfl⟩, hgood⟩⟩

theorem good_cons_cut (h : parserRun s i.bytes = (s', [])) (he : i.expected = []) :
    Good s (i :: items) ↔ Good s' items := by
  rw [good_cons, h, he]
  exact ⟨And.right, fun hgood => ⟨⟨rfl, rfl⟩, hgood⟩⟩

theorem run_csi_open : parserRun .ground (ESC :: 0x5B :: bs) = parserRun .csi bs := rfl

theorem run_osc_open : parserRun .ground (ESC :: 0x5D :: bs) = parserRun .osc bs := rfl

theorem regular_again : Regular true (i :: items) ↔ i = .cutEsc ∧ Regular false items := by
  cases i <;> simp [Regular]

theorem good_iff (h : CutByEsc items)
    (hs : (again = false ∧ s = .ground) ∨ (again = true ∧ (s = .escape ∨ s = .osc) ∧
      ∀ i, items.head? = some i → ¬ i.IsText)) :
    Good s items ↔ Regular again items := by
  induction items generalizing s again with
  | nil =>
    rw [Regular]
    exact ⟨fun _ => trivial, fun _ => good_nil⟩
  | cons i items ih =>
    obtain ⟨rfl, rfl⟩ | ⟨rfl, hs, htext⟩ := hs
    · have hground := @ih .ground false h.tail (.inl ⟨rfl, rfl⟩)
      have hagain : i.IsCut → ∀ s, s = .escape ∨ s = .osc →
          (Good s items ↔ Regular true items) := by
        intro hcut s hs
        refine ih h.tail (.inr ⟨rfl, hs, fun j hj => ?_⟩)
        cases items with
        | nil => cases hj
        | cons j' items =>
          cases hj
          exact h.1 hcut
      cases i with
      | text c hc =>
        refine (good_cons_ground ?_).trans hground
        rw [TermItem.bytes, parserRun, parserStep, if_neg hc]
        rfl
      | csi params final hp hf =>
        refine (good_cons_ground ?_).trans hground
        rw [TermItem.bytes, run_csi_open, parserRun_append, run_params hp]
        dsimp only
        rw [parserRun, parserStep, if_pos hf]
        rfl
      | osc body hb =>
        refine (good_cons_ground ?_).trans hground
        rw [TermItem.bytes, run_osc_open, parserRun_append, run_body hb]
        rfl
      | oscSt body hb =>
        refine ⟨fun hgood => ?_, False.elim⟩
        have hm := (good_cons.mp hgood).1
        rw [TermItem.bytes, run_osc_open, parserRun_append, run_body hb] at hm
        exact absurd hm (not_matches_of_putc [] rfl)
      | esc x hx =>
        refine (good_cons_ground ?_).trans hground
        rw [TermItem.bytes, parserRun, parserStep, if_pos rfl, parserRun, parserStep, if_neg hx.1,
          if_neg hx.2.1]
        rfl
      | cutEsc => exact (good_cons_cut rfl rfl).trans (hagain trivial _ (.inl rfl))
      | cutCsi params hp =>
        refine (good_cons_cut ?_ rfl).trans good_csi
        rw [TermItem.bytes, run_csi_open, run_params hp]
      | cutOsc body hb =>
        refine (good_cons_cut ?_ rfl).trans (hagain trivial _ (.inr rfl))
        rw [TermItem.bytes, run_osc_open, run_body hb]
    · rw [good_again hs (htext i rfl), @ih .ground false h.tail (.inl ⟨rfl, rfl⟩), regular_again]

theorem recognised_iff (q : List TermItem) : Recognised q ↔
    Matches (parserRun .ground (itemBytes q)).2 (q.flatMap TermItem.expected) := by
  constructor
  · intro h
    let dev : Gpu Unit := ⟨fun g _ => g, fun _ => (0, 0), fun g _ _ => g, fun g _ => g, fun g _ => g,
      fun g _ _ => g⟩
    let t : Terminal Unit := ⟨termCtxInit ⟨.ground, fun _ => 0, 0, false, 0, 0, 0, 0⟩, (), []⟩
    obtain ⟨ev, he, hm⟩ := h Unit dev t rfl
    rw [(foldl_putc_spec dev t (itemBytes q)).2] at he
    rwa [← List.append_cancel_left he] at hm
  · intro h G dev t ht
    refine ⟨_, ?_, h⟩
    rw [(foldl_putc_spec dev t (itemBytes q)).2, ht]

/-- A text whose sequences may be cut off is recognised, after each piece of it, if and only
if it is regular. -/
theorem escapes_recognised_iff (items : List TermItem) (h : CutByEsc items) :
    (∀ q, q <+: items → Recognised q) ↔ Regular false items := by
  rw [← good_iff h (.inl ⟨rfl, rfl⟩)]
  exact forall₂_congr fun q _ => recognised_iff q

theorem title_body : ∀ b ∈ [0x30, 0x3B, 0x74], b ≠ BEL ∧ b ≠ ESC := by
  simp [BEL, ESC]

theorem red_params : ∀ b ∈ [0x33, 0x31], IsParam b := by
  simp [IsParam, IsDigit]

def redWord : List TermItem :=
  [.osc [0x30, 0x3B, 0x74] title_body, .csi [0x33, 0x31] 0x6D red_params (by decide),
    .text 0x68 (by decide), .text 0x69 (by decide), .esc 0x37 (by decide), .cutEsc, .cutEsc,
    .csi [] 0x6D (List.forall_mem_nil _) (by decide)]

theorem redWord_recognised : Recognised redWord := by
  have hcut : CutByEsc redWord := by
    simp [redWord, CutByEsc, TermItem.IsCut, TermItem.IsText]
  have hreg : Regular false redWord := trivial
  exact (escapes_recognised_iff redWord hcut).2 hreg redWord (List.prefix_refl _)

/-- A title that ends with `ESC \`: the `\` is shown. -/
theorem title_shown : ¬ ∀ items, CutByEsc items → Recognised items := by
  intro h
  have hr := (recognised_iff _).mp (h [.oscSt [0x30, 0x3B, 0x74] title_body] fun hcut => hcut)
  exact absurd hr.1 (by decide)

theorem termCtxPrint_shown (items : List TermItem) (h : CutByEsc items)
    (hreg : Regular false items) (h0 : 0 ∉ itemBytes items) (dev : Gpu G) (t : Terminal G)
    (ht : t.ctx.state = .ground) : ∃ ev,
      (termCtxPrint dev t (itemBytes items)).events = t.events ++ ev ∧
      shown ev = shown (items.flatMap TermItem.expected) ∧
      dispatched ev = dispatched (items.flatMap TermItem.expected) := by
  have hall : (itemBytes items).takeWhile (· ≠ 0) = itemBytes items := by
    rw [List.takeWhile_eq_self_iff]
    intro b hb
    exact decide_eq_true fun hb0 => h0 (hb0 ▸ hb)
  rw [termCtxPrint, hall]
  have hgood := (good_iff h (.inl ⟨rfl, rfl⟩)).mpr hreg
  exact (recognised_iff items).mpr (hgood items (List.prefix_refl _)) G dev t ht

end EponaOS.Kernel
