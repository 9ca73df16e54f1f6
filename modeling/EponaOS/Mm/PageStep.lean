import EponaOS.Mm.PageWalk

/-!
# What `paging_map_page_on` writes

Four kinds of writes: a fresh table is linked in, `PAGE_USER` is added to an entry on
the way down, a 2 MiB page is replaced by a table of 512 pages, and the entry of the
page itself is set. Each keeps the tree well formed, and each says exactly which
entries the walks to mapped pages read afterwards.
-/

namespace EponaOS.Mm

open TableTrie

variable {s s' : Machine} {pml4 t : Word} {p q : List Index} {i : Index}

/-- An entry after `if (flags & PAGE_USER) *entry |= PAGE_USER`. -/
def grant (flags e : Word) : Word := if has flags PAGE_USER then e ||| PAGE_USER else e

-- ---------------------------------------------------------------------------
-- Adding PAGE_USER to an entry
-- ---------------------------------------------------------------------------

@[simp] theorem addr_grant (flags e : Word) : addr (grant flags e) = addr e := by
  unfold grant
  split
  · exact addr_or_of_low addr_user
  · rfl

@[simp] theorem grant_present (flags e : Word) :
    has (grant flags e) PAGE_PRESENT = has e PAGE_PRESENT := by
  unfold grant
  split <;> simp

@[simp] theorem grant_huge (flags e : Word) :
    has (grant flags e) PAGE_HUGE = has e PAGE_HUGE := by
  unfold grant
  split <;> simp

@[simp] theorem grant_rw (flags e : Word) : has (grant flags e) PAGE_RW = has e PAGE_RW := by
  unfold grant
  split <;> simp

@[simp] theorem grant_user (flags e : Word) :
    has (grant flags e) PAGE_USER = (has e PAGE_USER || has flags PAGE_USER) := by
  unfold grant
  split <;> simp_all

@[simp] theorem tableOf_grant (n : Nat) (flags e : Word) :
    tableOf n (grant flags e) = tableOf n e := by
  unfold tableOf
  split <;> simp

theorem EntryOk.grant (h : EntryOk n e) : EntryOk n (grant flags e) := by
  unfold EntryOk at *
  split at h <;> simp_all

theorem mapped_modify_grant (n : Nat) (es : List Word) :
    mapped (es.modify n (grant flags)) = mapped es := by
  rcases es with _ | ⟨e4, _ | ⟨e3, _ | ⟨e2, _ | ⟨e1, _ | ⟨e0, es⟩⟩⟩⟩⟩ <;>
    rcases n with _ | _ | _ | _ | _ | n <;> simp [mapped]

theorem grantUser_mem (s : Machine) (t : Word) (i : Index) (flags : Word) :
    (grantUser s t i flags).mem = setEntry s.mem t i (grant flags (s.mem t i)) := by
  unfold grantUser grant
  split
  · rfl
  · funext t' i'
    unfold setEntry
    split
    · rename_i h
      rw [h.1, h.2]
    · rfl

@[simp] theorem grantUser_pmm (s : Machine) (t : Word) (i : Index) (flags : Word) :
    (grantUser s t i flags).pmm = s.pmm := by
  unfold grantUser
  split <;> rfl

/-- The entries of a walk after `grantUser` on entry `i` of the table at `p`. -/
def grantAt (flags : Word) (p : List Index) (i : Index) (q : List Index) (es : List Word) :
    List Word :=
  if p ++ [i] <+: q then es.modify p.length (grant flags) else es

theorem grantUser_reach (flags : Word) (hw : WellFormed s pml4) (hp : reach tableOf s.mem 0 pml4 p = some t)
    (q : List Index) :
    reach tableOf (grantUser s t i flags).mem 0 pml4 q = reach tableOf s.mem 0 pml4 q := by
  rw [grantUser_mem, reach_setEntry_keep hw.tree hp (tableOf_grant ..)]

theorem grantUser_trace (hw : WellFormed s pml4) (hp : reach tableOf s.mem 0 pml4 p = some t)
    (q : List Index) :
    trace tableOf (grantUser s t i flags).mem 0 pml4 q =
      grantAt flags p i q (trace tableOf s.mem 0 pml4 q) := by
  rw [grantUser_mem, grantAt]
  split
  · rename_i hq
    obtain ⟨r, rfl⟩ := hq
    rw [List.append_assoc, List.singleton_append,
      trace_setEntry_keep hw.tree hp (tableOf_grant ..), List.modify_eq_set_getElem?,
      getElem?_trace hp]
    rfl
  · rename_i hq
    exact (walk_setEntry_off hw.tree hp hq).2

theorem grantUser_wellFormed (flags : Word) (hw : WellFormed s pml4)
    (hp : reach tableOf s.mem 0 pml4 p = some t) : WellFormed (grantUser s t i flags) pml4 := by
  refine ⟨?_, ?_, ?_⟩
  · rw [grantUser_mem]
    exact hw.tree.setEntry_keep hp (tableOf_grant ..)
  · intro q a hq
    rw [grantUser_reach _ hw hp] at hq
    rw [grantUser_pmm]
    exact hw.held q a hq
  · intro q k e hlen he
    rw [grantUser_trace hw hp, grantAt] at he
    split at he
    · rw [List.getElem?_modify] at he
      obtain ⟨e', he', rfl⟩ := Option.map_eq_some_iff.mp he
      have := hw.entries q k e' hlen he'
      split
      · exact this.grant
      · exact this
    · exact hw.entries q k e hlen he

theorem grantUser_pageEntries (flags : Word) (hw : WellFormed s pml4)
    (hp : reach tableOf s.mem 0 pml4 p = some t) (q : List Index) :
    pageEntries (grantUser s t i flags).mem pml4 q =
      (pageEntries s.mem pml4 q).map (grantAt flags p i q) := by
  simp only [pageEntries, grantUser_trace hw hp]
  have hm : mapped (grantAt flags p i q (trace tableOf s.mem 0 pml4 q)) =
      mapped (trace tableOf s.mem 0 pml4 q) := by
    unfold grantAt
    split
    · exact mapped_modify_grant _ _
    · rfl
  rw [hm]
  split <;> rfl

-- ---------------------------------------------------------------------------
-- Linking a fresh table
-- ---------------------------------------------------------------------------

theorem pmmAlloc_table (hw : WellFormed s pml4) (h : pmmAlloc s.pmm = (a, pmm)) (ha : a ≠ 0) :
    Aligned a ∧ (∀ q, reach tableOf s.mem 0 pml4 q ≠ some a) ∧ pmm.Held a ∧
      ∀ x, s.pmm.Held x → pmm.Held x := by
  obtain ⟨hnew, hheld⟩ := pmmAlloc_fresh h ha
  refine ⟨?_, fun q hq => hnew (hw.held q a hq), hheld, fun x => pmmAlloc_held h⟩
  obtain ⟨rfl, -⟩ | ⟨f, hf, -, rfl, -⟩ := pmmAlloc_cases h
  · exact absurd rfl ha
  · have hmax := s.pmm.totalFrames_le
    apply aligned_ofNat
    simp only [maxFrames, pageSize] at *
    omega

theorem exists_below (hlen : q.length = 4) (hn : p.length < 3) (hq : p ++ [i] <+: q) :
    ∃ j r, q = p ++ i :: j :: r := by
  obtain ⟨r, rfl⟩ := hq
  cases r with
  | nil => simp at hlen; omega
  | cons j r => exact ⟨j, r, by simp⟩

section
variable {e t' : Word} {f : Index → Word} {pmm : Pmm} (hw : WellFormed s pml4)
  (hp : reach tableOf s.mem 0 pml4 p = some t) (hn : p.length < 3)
  (ht' : ∀ q, reach tableOf s.mem 0 pml4 q ≠ some t') (he : tableOf p.length e = some t')
  (hf : ∀ j, tableOf (p.length + 1) (f j) = none)

include hw hp hn ht' he hf in
theorem linkTable_wellFormed (hheld : pmm.Held t') (hmono : ∀ x, s.pmm.Held x → pmm.Held x)
    (hoe : EntryOk p.length e) (hof : ∀ j, EntryOk (p.length + 1) (f j)) :
    WellFormed { s with mem := linkTable s.mem t i e t' f, pmm } pml4 := by
  refine ⟨hw.tree.linkTable hp ht' he hf, ?_, ?_⟩
  · intro q a hq
    obtain ⟨-, rfl⟩ | ⟨-, hq⟩ := reach_linkTable_cases hw.tree hp ht' he hf hq
    · exact hheld
    · exact hmono a (hw.held q a hq)
  · intro q k e' hlen hk
    change (trace tableOf (linkTable s.mem t i e t' f) 0 pml4 q)[k]? = some e' at hk
    by_cases hq : p ++ [i] <+: q
    · obtain ⟨j, r, rfl⟩ := exists_below hlen hn hq
      have hl := length_trace hp
      rw [trace_linkTable hw.tree hp ht' he hf] at hk
      rcases Nat.lt_or_ge k p.length with hk' | hk'
      · rw [List.getElem?_append_left (by omega)] at hk
        apply hw.entries (p ++ i :: j :: r) k e' hlen
        rw [trace_append hp, List.getElem?_append_left (by omega), hk]
      · rw [List.getElem?_append_right (by omega), hl] at hk
        obtain ⟨d, rfl⟩ := Nat.exists_eq_add_of_le hk'
        rw [Nat.add_sub_cancel_left] at hk
        rcases d with _ | _ | d
        · cases hk
          exact hoe
        · cases hk
          exact hof j
        · simp at hk
    · rw [(walk_linkTable_off hw.tree hp ht' hq).2] at hk
      exact hw.entries q k e' hlen hk

end

/-- Above the table at `p` a walk reads `p.length` entries. -/
theorem trace_cases (hp : reach tableOf m 0 pml4 p = some t) (hn : p.length < 3) :
    (p.length = 0 ∧ trace tableOf m 0 pml4 p = []) ∨
    (∃ e4, p.length = 1 ∧ trace tableOf m 0 pml4 p = [e4]) ∨
    (∃ e4 e3, p.length = 2 ∧ trace tableOf m 0 pml4 p = [e4, e3]) := by
  have hl := length_trace hp
  rcases htr : trace tableOf m 0 pml4 p with _ | ⟨e4, _ | ⟨e3, _ | ⟨e2, es⟩⟩⟩
  · exact .inl ⟨by simp [← hl, htr], rfl⟩
  · exact .inr (.inl ⟨e4, by simp [← hl, htr], rfl⟩)
  · exact .inr (.inr ⟨e4, e3, by simp [← hl, htr], rfl⟩)
  · simp [htr] at hl
    omega

@[simp] theorem tableOf_three (e : Word) : tableOf 3 e = none := rfl

theorem tableOf_present (hn : n < 3) (hh : has e PAGE_HUGE = false) (he : has e PAGE_PRESENT = true) :
    tableOf n e = some (addr e) := by
  rcases n with _ | _ | _ | n
  · simp [tableOf, he]
  · simp [tableOf, he]
  · simp [tableOf, he, hh]
  · omega

theorem tableOf_absent (he : has e PAGE_PRESENT = false) : tableOf n e = none := by
  rcases n with _ | _ | _ | n <;> simp [tableOf, he]

theorem tableOf_cases (h : tableOf n e = some a) :
    has e PAGE_PRESENT = true ∧ a = addr e ∧ (n = 2 → has e PAGE_HUGE = false) := by
  rcases n with _ | _ | _ | n <;> simp [tableOf] at h <;> simp [h]

theorem EntryOk.of_not_huge (hh : has e PAGE_HUGE = false) : EntryOk n e := by
  rcases n with _ | _ | _ | n <;> simp [EntryOk, hh]

/-- Below an entry that points to no table nothing is mapped, unless it is a 2 MiB page. -/
theorem pageEntries_none (hp : reach tableOf m 0 pml4 p = some t) (hn : p.length < 3)
    (he : tableOf p.length (m t i) = none) (hh : p.length = 2 → has (m t i) PAGE_HUGE = false)
    (r : List Index) : pageEntries m pml4 (p ++ i :: r) = none := by
  have htr : trace tableOf m 0 pml4 (p ++ i :: r) = trace tableOf m 0 pml4 p ++ [m t i] := by
    rw [trace_append hp]
    simp [trace, he]
  simp only [pageEntries, htr]
  obtain ⟨-, h0⟩ | ⟨e4, -, h1⟩ | ⟨e4, e3, h2, h2'⟩ := trace_cases hp hn
  · simp [h0, mapped]
  · simp [h1, mapped]
  · simp [h2', mapped, hh h2]

/-- What `paging_get_or_create_table` can do: nothing is mapped or unmapped, and unless it
fails the table it returns is the one the entry points to. -/
theorem pagingGetOrCreateTable_spec (hw : WellFormed s pml4)
    (hp : reach tableOf s.mem 0 pml4 p = some t) (hn : p.length < 3)
    (hh : p.length = 2 → has (s.mem t i) PAGE_HUGE = false)
    (h : pagingGetOrCreateTable s t i flags = (c, s')) :
    WellFormed s' pml4 ∧ reach tableOf s'.mem 0 pml4 p = some t ∧
      (∀ q, q.length = 4 → pageEntries s'.mem pml4 q = pageEntries s.mem pml4 q) ∧
      (c ≠ 0 → reach tableOf s'.mem 0 pml4 (p ++ [i]) = some c) := by
  unfold pagingGetOrCreateTable at h
  split at h
  · rename_i hpres
    cases h
    refine ⟨hw, hp, fun _ _ => rfl, fun _ => ?_⟩
    have : tableOf p.length (s.mem t i) = some (addr (s.mem t i)) := by
      by_cases h2 : p.length = 2
      · exact tableOf_present hn (hh h2) hpres
      · have : p.length = 0 ∨ p.length = 1 := by omega
        rcases this with h0 | h0 <;> simp [h0, tableOf, hpres]
    rw [reach_append, hp]
    simp [reach, this]
  · rename_i hpres
    have habs : has (s.mem t i) PAGE_PRESENT = false := by simpa using hpres
    split at h
    rename_i a pmm halloc
    split at h
    · cases h
      refine ⟨?_, hp, fun _ _ => rfl, fun hc => absurd rfl hc⟩
      exact ⟨hw.tree, fun q a hq => pmmAlloc_held halloc (hw.held q a hq), hw.entries⟩
    · rename_i ha
      cases h
      obtain ⟨hal, hnew, hheld, hmono⟩ := pmmAlloc_table hw halloc ha
      have hhuge : has (linkEntry c flags) PAGE_HUGE = false := linkEntry_huge hal
      have he : tableOf p.length (linkEntry c flags) = some c := by
        rw [tableOf_present hn hhuge linkEntry_present, addr_linkEntry hal]
      have hf : ∀ j : Index, tableOf (p.length + 1) ((fun _ : Index => (0 : Word)) j) = none :=
        fun _ => tableOf_absent (zero_has _)
      refine ⟨linkTable_wellFormed hw hp hn hnew he hf hheld hmono (.of_not_huge hhuge)
          fun _ => .of_not_huge (zero_has _), ?_, ?_, fun _ => reach_linkTable hw.tree hp hnew he⟩
      · exact (walk_linkTable_off hw.tree hp hnew (not_prefix_self p i)).1.trans hp
      · intro q hlen
        by_cases hq : p ++ [i] <+: q
        · obtain ⟨j, r, rfl⟩ := exists_below hlen hn hq
          -- before: the entry is not present; afterwards: an entry of the zeroed table
          rw [pageEntries_none hp hn (tableOf_absent habs) hh (j :: r)]
          simp only [pageEntries]
          rw [← linkEntry, trace_linkTable hw.tree hp hnew he hf]
          obtain ⟨-, h0⟩ | ⟨e4, -, h1⟩ | ⟨e4, e3, -, h2⟩ := trace_cases hp hn
          · simp [h0, mapped]
          · simp [h1, mapped]
          · simp [h2, mapped]
        · exact pageEntries_congr (walk_linkTable_off hw.tree hp hnew hq).2

-- ---------------------------------------------------------------------------
-- Splitting a 2 MiB page
-- ---------------------------------------------------------------------------

theorem splitEntry_eq (a flags : Word) (j : Index) :
    splitEntry a (flags &&& PAGE_USER) j = linkEntry (a + BitVec.ofNat 64 j * 4096) flags := rfl

/-- The entries of a walk after the 2 MiB page at entry `i` of the table at `p` was split. -/
def splitAt (flags ptNew : Word) (p : List Index) (i : Index) (q : List Index) :
    List Word → List Word
  | [pml4E, pdptE, pdE] =>
    if p ++ [i] <+: q then
      [pml4E, pdptE, linkEntry ptNew flags, splitEntry (addr pdE) (flags &&& PAGE_USER) (q.getD 3 i)]
    else [pml4E, pdptE, pdE]
  | es => es

theorem splitAt_off (h : ¬ (p ++ [i] <+: q ∧ es.length = 3)) : splitAt flags a p i q es = es := by
  unfold splitAt
  split
  · rename_i pml4E pdptE pdE
    have : ¬ p ++ [i] <+: q := by simpa using h
    rw [if_neg this]
  · rfl

/-- A walk through entry `i` of the table at `p` ends there only in a 2 MiB page. -/
theorem pageEntries_length_ne (hp : reach tableOf m 0 pml4 p = some t) (h2 : p.length = 2)
    (hh : has (m t i) PAGE_HUGE = false) (hq : p ++ [i] <+: q)
    (he : pageEntries m pml4 q = some es) : es.length ≠ 3 := by
  obtain ⟨rfl, hm⟩ := pageEntries_some he
  obtain ⟨r, rfl⟩ := hq
  intro h3
  have hi := getElem?_trace (r := r) (i := i) hp
  rw [h2, ← List.singleton_append (x := i), ← List.append_assoc] at hi
  match htr : trace tableOf m 0 pml4 (p ++ [i] ++ r), h3 with
  | [e4, e3, e2], _ =>
    rw [htr] at hi hm
    cases hi
    rw [mapped, hh] at hm
    cases hm

theorem splitHuge_spec (hw : WellFormed s pml4) (hp : reach tableOf s.mem 0 pml4 p = some t)
    (h2 : p.length = 2) (h : splitHuge s t i (flags &&& PAGE_USER) = (ok, s')) :
    WellFormed s' pml4 ∧ reach tableOf s'.mem 0 pml4 p = some t ∧
      (ok = false → ∀ q, pageEntries s'.mem pml4 q = pageEntries s.mem pml4 q) ∧
      (ok = true → has (s'.mem t i) PAGE_HUGE = false ∧ ∃ ptNew, Aligned ptNew ∧
        ∀ q, q.length = 4 →
          pageEntries s'.mem pml4 q = (pageEntries s.mem pml4 q).map (splitAt flags ptNew p i q)) := by
  have hn : p.length < 3 := by omega
  unfold splitHuge at h
  split at h
  · rename_i hhuge
    split at h
    rename_i a pmm halloc
    split at h
    · cases h
      refine ⟨⟨hw.tree, fun q a hq => pmmAlloc_held halloc (hw.held q a hq), hw.entries⟩, hp,
        fun _ _ => rfl, by simp⟩
    · rename_i ha
      cases h
      obtain ⟨hal, hnew, hheld, hmono⟩ := pmmAlloc_table hw halloc ha
      have hhuge' : has (linkEntry a flags) PAGE_HUGE = false := linkEntry_huge hal
      have he : tableOf p.length (linkEntry a flags) = some a := by
        rw [tableOf_present hn hhuge' linkEntry_present, addr_linkEntry hal]
      have hf : ∀ j, tableOf (p.length + 1)
          (splitEntry (addr (s.mem t i)) (flags &&& PAGE_USER) j) = none := by
        rw [h2]
        exact fun _ => rfl
      have hok : ∀ j, EntryOk (p.length + 1)
          (splitEntry (addr (s.mem t i)) (flags &&& PAGE_USER) j) := by
        rw [h2]
        exact fun _ => trivial
      refine ⟨linkTable_wellFormed hw hp hn hnew he hf hheld hmono (.of_not_huge hhuge') hok,
        (walk_linkTable_off hw.tree hp hnew (not_prefix_self p i)).1.trans hp,
        by simp, fun _ => ⟨?_, a, hal, ?_⟩⟩
      · rw [← hhuge']
        exact congrArg (has · PAGE_HUGE) (setEntry_same ..)
      · intro q hlen
        by_cases hq : p ++ [i] <+: q
        · obtain ⟨j, r, rfl⟩ := exists_below hlen hn hq
          have hr : r = [] := by
            rw [List.length_append, h2, List.length_cons, List.length_cons] at hlen
            exact List.eq_nil_of_length_eq_zero (by omega)
          subst hr
          have hnone : tableOf p.length (s.mem t i) = none := by
            rw [h2]
            simp [tableOf, hhuge]
          have htr : trace tableOf s.mem 0 pml4 (p ++ [i, j]) =
              trace tableOf s.mem 0 pml4 p ++ [s.mem t i] := by
            rw [trace_append hp]
            simp [trace, hnone]
          have hj : (p ++ [i, j]).getD 3 i = j := by
            obtain ⟨x, y, rfl⟩ := List.length_eq_two.mp h2
            rfl
          simp only [pageEntries]
          rw [← linkEntry, trace_linkTable hw.tree hp hnew he hf, htr]
          obtain ⟨h0, -⟩ | ⟨-, h1, -⟩ | ⟨e4, e3, -, htr2⟩ := trace_cases hp hn
          · omega
          · omega
          · simp only [htr2, List.cons_append, List.nil_append, mapped, hhuge, splitEntry_eq,
              linkEntry_present, if_true, Option.map_some, splitAt, hq, hj]
        · rw [pageEntries_congr (walk_linkTable_off hw.tree hp hnew hq).2]
          have : splitAt flags a p i q = id := by
            funext es
            exact splitAt_off fun h => hq h.1
          simp [this]
  · rename_i hhuge
    have hhuge : has (s.mem t i) PAGE_HUGE = false := by simpa using hhuge
    cases h
    refine ⟨hw, hp, fun _ _ => rfl, fun _ => ⟨hhuge, 0, rfl, fun q _ => ?_⟩⟩
    cases hes : pageEntries s.mem pml4 q with
    | none => rfl
    | some es =>
      rw [Option.map_some, splitAt_off]
      rintro ⟨hq, h3⟩
      exact pageEntries_length_ne hp h2 hhuge hq hes h3

-- ---------------------------------------------------------------------------
-- Setting the entry of the page, and the whole function
-- ---------------------------------------------------------------------------

theorem setPage_spec (hw : WellFormed s pml4) (hp : reach tableOf s.mem 0 pml4 p = some t)
    (h3 : p.length = 3) (he : has e PAGE_PRESENT = true) :
    WellFormed { s with mem := setEntry s.mem t i e } pml4 ∧
      (∃ es, es.length = 3 ∧ pageEntries (setEntry s.mem t i e) pml4 (p ++ [i]) = some (es ++ [e])) ∧
      ∀ q, q.length = 4 → q ≠ p ++ [i] →
        pageEntries (setEntry s.mem t i e) pml4 q = pageEntries s.mem pml4 q := by
  have hkeep : tableOf p.length e = tableOf p.length (s.mem t i) := by rw [h3]; rfl
  have hoff : ∀ q, q.length = 4 → q ≠ p ++ [i] → ¬ p ++ [i] <+: q := by
    intro q hlen hne hq
    exact hne (hq.eq_of_length (by simp [h3, hlen])).symm
  have hpage : trace tableOf (setEntry s.mem t i e) 0 pml4 (p ++ [i]) =
      trace tableOf s.mem 0 pml4 p ++ [e] := by
    rw [trace_append (reach_setEntry_self hw.tree hp), trace_setEntry_self hw.tree hp]
    simp [trace, h3]
  have hl := length_trace hp
  refine ⟨⟨hw.tree.setEntry_keep hp hkeep, ?_, ?_⟩, ⟨_, hl.trans h3, ?_⟩, ?_⟩
  · intro q a hq
    exact hw.held q a ((reach_setEntry_keep hw.tree hp hkeep q).symm.trans hq)
  · intro q k e' hlen hk
    by_cases hq : q = p ++ [i]
    · subst hq
      replace hk := (congrArg (·[k]?) hpage).symm.trans hk
      rcases Nat.lt_or_ge k 3 with hk3 | hk3
      · rw [List.getElem?_append_left (by omega)] at hk
        apply hw.entries (p ++ [i]) k e' hlen
        rw [trace_append hp, List.getElem?_append_left (by omega), hk]
      · obtain ⟨d, rfl⟩ := Nat.exists_eq_add_of_le' hk3
        trivial
    · rw [(walk_setEntry_off hw.tree hp (hoff q hlen hq)).2] at hk
      exact hw.entries q k e' hlen hk
  · rw [h3] at hl
    simp only [pageEntries, hpage]
    obtain ⟨e4, e3, e2, htr⟩ := List.length_eq_three.mp hl
    simp [htr, mapped, he]
  · intro q hlen hq
    exact pageEntries_congr (walk_setEntry_off hw.tree hp (hoff q hlen hq)).2

/-- What mapping `virt` does to the entries of the walk `q` to another page. -/
def mapOther (flags ptNew virt : Word) (q : List Index) (es : List Word) : List Word :=
  grantAt flags [idxPml4 virt, idxPdpt virt] (idxPd virt) q
    (splitAt flags ptNew [idxPml4 virt, idxPdpt virt] (idxPd virt) q
      (grantAt flags [idxPml4 virt] (idxPdpt virt) q
        (grantAt flags [] (idxPml4 virt) q es)))

/-- A partial run of `mapOther`: what the walks read where the function gave up. -/
inductive Partway (flags virt : Word) (q : List Index) : List Word → List Word → Prop
  | start : Partway flags virt q es es
  | pml4 : Partway flags virt q es (grantAt flags [] (idxPml4 virt) q es)
  | pdpt : Partway flags virt q es
      (grantAt flags [idxPml4 virt] (idxPdpt virt) q (grantAt flags [] (idxPml4 virt) q es))
  | pd (ptNew : Word) (h : Aligned ptNew) : Partway flags virt q es (mapOther flags ptNew virt q es)

/-- The specification of `paging_map_page_on`. On success the walk to `virt` ends in the new
entry and the walk to every other page reads what `mapOther` says. On failure the walks read
what the stages done so far left. The tree stays well formed either way. -/
theorem pagingMapPageOn_spec (hw : WellFormed s pml4)
    (h : pagingMapPageOn s pml4 virt phys flags = (ret, s')) :
    WellFormed s' pml4 ∧
      ((ret = -1 ∧ ∀ q, q.length = 4 → ∃ f, (∀ es, Partway flags virt q es (f es)) ∧
          pageEntries s'.mem pml4 q = (pageEntries s.mem pml4 q).map f) ∨
        (ret = 0 ∧
          (∃ es, es.length = 3 ∧ pageEntries s'.mem pml4 (pathOf virt) =
            some (es ++ [addr phys ||| (flags ||| PAGE_PRESENT)])) ∧
          ∃ ptNew, Aligned ptNew ∧ ∀ q, q.length = 4 → q ≠ pathOf virt →
            pageEntries s'.mem pml4 q =
              (pageEntries s.mem pml4 q).map (mapOther flags ptNew virt q))) := by
  unfold pagingMapPageOn at h
  dsimp only at h
  rcases h1 : pagingGetOrCreateTable s pml4 (idxPml4 virt) (flags &&& PAGE_USER) with ⟨pdpt, s1⟩
  rw [h1] at h
  dsimp only at h
  have hroot : reach tableOf s.mem 0 pml4 [] = some pml4 := rfl
  obtain ⟨hw1, hp1, hpe1, hc1⟩ := pagingGetOrCreateTable_spec hw hroot (by simp) (by simp) h1
  split at h
  · cases h
    exact ⟨hw1, .inl ⟨rfl, fun q hq => ⟨id, fun _ => .start, by simp [hpe1 q hq]⟩⟩⟩
  rename_i hpdpt
  have hw2 := grantUser_wellFormed flags (i := idxPml4 virt) hw1 hp1
  have hpe2 := grantUser_pageEntries flags (i := idxPml4 virt) hw1 hp1
  have hp2 := (grantUser_reach flags (i := idxPml4 virt) hw1 hp1 _).trans (hc1 hpdpt)
  rcases h3 : pagingGetOrCreateTable (grantUser s1 pml4 (idxPml4 virt) flags) pdpt (idxPdpt virt)
    (flags &&& PAGE_USER) with ⟨pd, s3⟩
  rw [h3] at h
  dsimp only at h
  obtain ⟨hw3, hp3, hpe3, hc3⟩ := pagingGetOrCreateTable_spec hw2 hp2 (by simp) (by simp) h3
  have hpe3' : ∀ q, q.length = 4 → pageEntries s3.mem pml4 q =
      (pageEntries s.mem pml4 q).map (grantAt flags [] (idxPml4 virt) q) := by
    intro q hq
    rw [hpe3 q hq, hpe2, hpe1 q hq]
  split at h
  · cases h
    exact ⟨hw3, .inl ⟨rfl, fun q hq => ⟨_, fun _ => .pml4, hpe3' q hq⟩⟩⟩
  rename_i hpd
  have hw4 := grantUser_wellFormed flags (i := idxPdpt virt) hw3 hp3
  have hpe4 := grantUser_pageEntries flags (i := idxPdpt virt) hw3 hp3
  have hp4 := (grantUser_reach flags (i := idxPdpt virt) hw3 hp3 _).trans (hc3 hpd)
  have hpe4' : ∀ q, q.length = 4 →
      pageEntries (grantUser s3 pdpt (idxPdpt virt) flags).mem pml4 q =
        (pageEntries s.mem pml4 q).map fun es =>
          grantAt flags [idxPml4 virt] (idxPdpt virt) q (grantAt flags [] (idxPml4 virt) q es) := by
    intro q hq
    rw [hpe4, hpe3' q hq, Option.map_map]
    rfl
  rcases h5 : splitHuge (grantUser s3 pdpt (idxPdpt virt) flags) pd (idxPd virt)
    (flags &&& PAGE_USER) with ⟨ok, s5⟩
  rw [h5] at h
  dsimp only at h
  obtain ⟨hw5, hp5, hfail5, hok5⟩ := splitHuge_spec hw4 hp4 rfl h5
  split at h
  · rename_i hok
    cases h
    refine ⟨hw5, .inl ⟨rfl, fun q hq => ⟨_, fun _ => .pdpt, ?_⟩⟩⟩
    rw [hfail5 (by simpa using hok) q, hpe4' q hq]
  rename_i hok
  obtain ⟨hh5, ptNew, hal, hpe5⟩ := hok5 (by simpa using hok)
  have hw6 := grantUser_wellFormed flags (i := idxPd virt) hw5 hp5
  have hpe6 := grantUser_pageEntries flags (i := idxPd virt) hw5 hp5
  have hp6 := (grantUser_reach flags (i := idxPd virt) hw5 hp5 _).trans hp5
  have hh6 : has ((grantUser s5 pd (idxPd virt) flags).mem pd (idxPd virt)) PAGE_HUGE = false := by
    rw [grantUser_mem, setEntry_same, grant_huge, hh5]
  have hpe6' : ∀ q, q.length = 4 →
      pageEntries (grantUser s5 pd (idxPd virt) flags).mem pml4 q =
        (pageEntries s.mem pml4 q).map (mapOther flags ptNew virt q) := by
    intro q hq
    rw [hpe6, hpe5 q hq, hpe4' q hq, Option.map_map, Option.map_map]
    rfl
  rcases h7 : pagingGetOrCreateTable (grantUser s5 pd (idxPd virt) flags) pd (idxPd virt)
    (flags &&& PAGE_USER) with ⟨pt, s7⟩
  rw [h7] at h
  dsimp only at h
  obtain ⟨hw7, hp7, hpe7, hc7⟩ :=
    pagingGetOrCreateTable_spec hw6 hp6 (by simp) (fun _ => hh6) h7
  split at h
  · cases h
    refine ⟨hw7, .inl ⟨rfl, fun q hq => ⟨_, fun _ => .pd ptNew hal, ?_⟩⟩⟩
    rw [hpe7 q hq, hpe6' q hq]
  rename_i hpt
  cases h
  obtain ⟨hw8, hpage, hother⟩ := setPage_spec (i := idxPt virt)
    (e := addr phys ||| (flags ||| PAGE_PRESENT)) hw7 (hc7 hpt) rfl (by simp)
  refine ⟨hw8, .inr ⟨rfl, hpage, ptNew, hal, fun q hq hne => ?_⟩⟩
  rw [← hpe6' q hq, ← hpe7 q hq]
  exact hother q hq hne

end EponaOS.Mm
