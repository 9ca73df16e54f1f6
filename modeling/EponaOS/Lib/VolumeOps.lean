import EponaOS.Lib.Volume

/-!
# Operations on a volume

A write makes the chain of a file longer by free clusters. Making an entry takes a free slot
and a free cluster; removing one frees its chain. Each keeps a sound volume sound, the last
one if it does not remove a directory that has entries.
-/

namespace EponaOS.Volume

variable {N : Type} {L : Layout} {V V' : State N} {st st₀ : Start} {l l' k : List Nat}
  {s s₀ : Slot} {x : Nat} {e : Dirent N}

-- ---------------------------------------------------------------------------
-- Writing a file
-- ---------------------------------------------------------------------------

/-- The chain `l` of `st₀` grows to `l'`, and of the entries outside of it only that of `st₀`
changes, in its size. -/
structure Written (L : Layout) (V V' : State N) (st₀ : Start) (l l' : List Nat) : Prop where
  chain : IsChain L V' (V.first L st₀) l'
  pre : l <+: l'
  fresh : ∀ x ∈ l', x ∉ l → V.next x = 0
  next : ∀ x, L.valid x → x ∉ l' → V'.next x = V.next x
  entry : ∀ s, L.valid s.1 → s.2 < L.perCluster → s.1 ∉ l' → V'.entry s = V.entry s ∨
    (st₀ = .entry s ∧ (V'.entry s).noSize = (V.entry s).noSize)

section
variable (hs : Owned L V) (h₀ : Reached L V st₀) (hfile : V.isDir st₀ = false)
  (hl : IsChain L V (V.first L st₀) l) (hw : Written L V V' st₀ l l')
include hs h₀ hl hw

theorem Written.apart (hr : Reached L V st) (hne : st ≠ st₀) (hk : IsChain L V (V.first L st) k)
    (hx : x ∈ k) : x ∉ l' := by
  intro hx'
  by_cases hxl : x ∈ l
  · exact hne (hs.apart st st₀ k l x hr h₀ hk hl hx hxl)
  · exact hk.next_ne_zero hx (hw.fresh x hx' hxl)

theorem Written.chain_iff (hr : Reached L V st) (hne : st ≠ st₀) :
    IsChain L V' (V.first L st) k ↔ IsChain L V (V.first L st) k :=
  hs.chain_iff hr fun _ hk x hx => hw.next x (hk.2 x hx) (hw.apart hs h₀ hl hr hne hk hx)

include hfile

theorem Written.off (hin : InDir L V st s) : s.1 ∉ l' := by
  have hne : st ≠ st₀ := by
    rintro rfl
    rw [hin.2.1] at hfile
    cases hfile
  obtain ⟨hr, -, k, hk, hsk⟩ := hin
  exact hw.apart hs h₀ hl hr hne hk (mem_slots.mp hsk).1

theorem Written.noSize (hin : InDir L V st s) : (V'.entry s).noSize = (V.entry s).noSize := by
  obtain h | ⟨-, h⟩ := hw.entry s hin.valid.1 hin.valid.2 (hw.off hs h₀ hfile hl hin)
  · rw [h]
  · exact h

theorem Written.same (hr : Reached L V st) :
    V'.isDir st = V.isDir st ∧ V'.first L st = V.first L st := by
  cases st with
  | root => exact ⟨rfl, rfl⟩
  | entry s =>
    obtain ⟨p, hin⟩ := hr.inDir
    have h := hw.noSize hs h₀ hfile hl hin
    exact ⟨Dirent.isDir_congr h, Dirent.first_congr h⟩

theorem Written.change : Change L V V' (fun _ => True) (fun _ => False) where
  root := trivial
  same _ hr _ := hw.same hs h₀ hfile hl hr
  dir st k hr _ hd hk := by
    refine (hw.chain_iff hs h₀ hl hr ?_).mpr hk
    rintro rfl
    rw [hd] at hfile
    cases hfile
  live st s hin _ := by
    rw [Dirent.isLive_congr (hw.noSize hs h₀ hfile hl hin)]
    simp
  leaf _ _ _ hk := absurd trivial hk
  inDir _ hn := hn.elim
  newLeaf _ _ _ hn := hn.elim

theorem Written.reached : Reached L V' st ↔ Reached L V st := by
  rw [(hw.change hs h₀ hfile hl).reached hs]
  simp

theorem Written.chain_cases (hr : Reached L V st) (hk : IsChain L V' (V'.first L st) k) :
    (st = st₀ ∧ k = l') ∨ (st ≠ st₀ ∧ IsChain L V (V.first L st) k) := by
  rw [(hw.same hs h₀ hfile hl hr).2] at hk
  by_cases hst : st = st₀
  · subst hst
    exact .inl ⟨rfl, hk.unique hw.chain⟩
  · exact .inr ⟨hst, (hw.chain_iff hs h₀ hl hr hst).mp hk⟩

theorem Owned.write : Owned L V' where
  chain st hr := by
    have hr := (hw.reached hs h₀ hfile hl).mp hr
    obtain ⟨hdir, hfirst⟩ := hw.same hs h₀ hfile hl hr
    rw [hdir, hfirst]
    obtain h | ⟨k, hne, hk⟩ := hs.chain st hr
    · exact .inl h
    · by_cases hst : st = st₀
      · subst hst
        refine .inr ⟨l', ?_, hw.chain⟩
        rintro rfl
        rw [hk.unique hl] at hne
        exact hne (List.prefix_nil.mp hw.pre)
      · exact .inr ⟨k, hne, (hw.chain_iff hs h₀ hl hr hst).mpr hk⟩
  apart st st' k k' x hr hr' hk hk' hx hx' := by
    refine apart_of_owner hs st₀ (fun st k x hr hk hx => ?_) hr hr' hk hk' hx hx'
    have hr := (hw.reached hs h₀ hfile hl).mp hr
    obtain ⟨rfl, rfl⟩ | ⟨-, hk⟩ := hw.chain_cases hs h₀ hfile hl hr hk
    · by_cases hxl : x ∈ l
      · exact .inr ⟨hr, l, hl, hxl⟩
      · exact .inl ⟨hw.fresh x hx hxl, rfl⟩
    · exact .inr ⟨hr, k, hk, hx⟩
  ended st k hr hd hk := by
    have hr := (hw.reached hs h₀ hfile hl).mp hr
    rw [(hw.same hs h₀ hfile hl hr).1] at hd
    have hk := ((hw.change hs h₀ hfile hl).chain_eq hs hr trivial hd).mp hk
    have hlast : ∀ s ∈ slots L k, V'.entry s = .last ↔ V.entry s = .last := fun s hsk =>
      Dirent.last_congr (hw.noSize hs h₀ hfile hl (.of_chain hr hd hk hsk))
    refine (hs.ended st k hr hd hk).imp_of_mem fun hs₁ hs₂ h => ?_
    rw [hlast _ hs₁, hlast _ hs₂]
    exact h

theorem UniqueNames.write (hu : UniqueNames L V) : UniqueNames L V' := by
  intro st s s' n hin hin' hn hn'
  have hch := hw.change hs h₀ hfile hl
  obtain ⟨hin, -⟩ | ⟨hnew, -⟩ := hch.inDir_of hs hin
  · obtain ⟨hin', -⟩ | ⟨hnew, -⟩ := hch.inDir_of hs hin'
    · rw [Dirent.name_congr (hw.noSize hs h₀ hfile hl hin)] at hn
      rw [Dirent.name_congr (hw.noSize hs h₀ hfile hl hin')] at hn'
      exact hu st s s' n hin hin' hn hn'
    · exact hnew.elim
  · exact hnew.elim

end

theorem Sound.write (hs : Sound L V) (h₀ : Reached L V st₀) (hfile : V.isDir st₀ = false)
    (hl : IsChain L V (V.first L st₀) l) (hw : Written L V V' st₀ l l') : Sound L V' where
  toOwned := hs.toOwned.write h₀ hfile hl hw
  used x hv hx := by
    by_cases hxl : x ∈ l'
    · refine ⟨st₀, l', (hw.reached hs.toOwned h₀ hfile hl).mpr h₀, ?_, hxl⟩
      rw [(hw.same hs.toOwned h₀ hfile hl h₀).2]
      exact hw.chain
    · rw [hw.next x hv hxl] at hx
      obtain ⟨st, k, hr, hk, hxk⟩ := hs.used x hv hx
      have hne : st ≠ st₀ := by
        rintro rfl
        exact hxl (hw.pre.subset (hk.unique hl ▸ hxk))
      refine ⟨st, k, (hw.reached hs.toOwned h₀ hfile hl).mpr hr, ?_, hxk⟩
      rw [(hw.same hs.toOwned h₀ hfile hl hr).2]
      exact (hw.chain_iff hs.toOwned h₀ hl hr hne).mpr hk

-- ---------------------------------------------------------------------------
-- Making an entry
-- ---------------------------------------------------------------------------

/-- The slot `s₀` gets the entry `e` with the free cluster `x`, which has no entries if it is
a directory's. -/
structure Created (L : Layout) (V V' : State N) (s₀ : Slot) (e : Dirent N) (x : Nat) : Prop where
  live : e.isLive = true
  first : e.first = x
  valid : L.valid x
  free : V.next x = 0
  stop : L.stop (V'.next x)
  next : ∀ y, L.valid y → y ≠ x → V'.next y = V.next y
  new : V'.entry s₀ = e
  entry : ∀ s, L.valid s.1 → s.2 < L.perCluster → s.1 ≠ x → s ≠ s₀ → V'.entry s = V.entry s
  bare : e.isDir = true → ∀ s ∈ slots L [x], (V'.entry s).isLive = false
  ended : e.isDir = true →
    (slots L [x]).Pairwise fun s s' => V'.entry s = .last → V'.entry s' = .last

structure FreeSlot (L : Layout) (V : State N) (st₀ : Start) (s₀ : Slot) : Prop where
  inDir : InDir L V st₀ s₀
  free : (V.entry s₀).isLive = false
  before : ∃ l pre post, IsChain L V (V.first L st₀) l ∧ slots L l = pre ++ s₀ :: post ∧
    ∀ s ∈ pre, V.entry s ≠ .last

section
variable (hs : Owned L V) (h₀ : FreeSlot L V st₀ s₀) (hc : Created L V V' s₀ e x)
include hs h₀ hc

omit hs h₀ in
theorem Created.chain_eq (hk : IsChain L V (V.first L st) k) (hx : y ∈ k) :
    V'.next y = V.next y :=
  hc.next y (hk.2 y hx) fun h => hk.next_ne_zero hx (h ▸ hc.free)

omit h₀ in
theorem Created.chain_iff (hr : Reached L V st) :
    IsChain L V' (V.first L st) k ↔ IsChain L V (V.first L st) k :=
  hs.chain_iff hr fun _ hk _ hx => hc.chain_eq hk hx

omit hs h₀ in
theorem Created.entry_eq (hin : InDir L V st s) (hne : s ≠ s₀) : V'.entry s = V.entry s :=
  hc.entry s hin.valid.1 hin.valid.2 (fun h => hin.next_ne_zero (h ▸ hc.free)) hne

omit hs in
theorem Created.same (hr : Reached L V st) :
    V'.isDir st = V.isDir st ∧ V'.first L st = V.first L st := by
  cases st with
  | root => exact ⟨rfl, rfl⟩
  | entry s =>
    obtain ⟨p, hin⟩ := hr.inDir
    have hne : s ≠ s₀ := by
      rintro rfl
      have h := hr.live
      rw [h₀.free] at h
      cases h
    have h := hc.entry_eq hin hne
    exact ⟨congrArg Dirent.isDir h, congrArg Dirent.first h⟩

omit hs h₀ in
theorem Created.new_chain : IsChain L V' (V'.first L (.entry s₀)) [x] := by
  have hfirst : V'.first L (.entry s₀) = x := by
    rw [State.first, hc.new, hc.first]
  rw [hfirst]
  exact isChain_single hc.valid hc.stop

theorem Created.change : Change L V V' (fun _ => True) (· = .entry s₀) where
  root := trivial
  same _ hr _ := hc.same h₀ hr
  dir _ _ hr _ _ hk := (hc.chain_iff hs hr).mpr hk
  live st s hin _ := by
    by_cases hne : s = s₀
    · subst hne
      rw [hc.new, hc.live]
      simp
    · rw [hc.entry_eq hin hne]
      simp [hne]
  leaf _ _ _ hk := absurd trivial hk
  inDir _ hn := ⟨st₀, s₀, hn, trivial, h₀.inDir⟩
  newLeaf st l s hn hd hl hsl := by
    subst hn
    obtain rfl := hl.unique hc.new_chain
    rw [State.isDir, hc.new] at hd
    exact hc.bare hd s hsl

theorem Created.reached : Reached L V' st ↔ Reached L V st ∨ st = .entry s₀ := by
  rw [(hc.change hs h₀).reached hs, and_iff_left trivial]

theorem Owned.create : Owned L V' where
  chain st hr := by
    obtain hr | rfl := (hc.reached hs h₀).mp hr
    · obtain ⟨hdir, hfirst⟩ := hc.same h₀ hr
      rw [hdir, hfirst]
      obtain h | ⟨k, hne, hk⟩ := hs.chain st hr
      · exact .inl h
      · exact .inr ⟨k, hne, (hc.chain_iff hs hr).mpr hk⟩
    · exact .inr ⟨[x], List.cons_ne_nil _ _, hc.new_chain⟩
  apart st st' k k' y hr hr' hk hk' hy hy' := by
    refine apart_of_owner hs (.entry s₀) (fun st k y hr hk hy => ?_) hr hr' hk hk' hy hy'
    obtain hr | rfl := (hc.reached hs h₀).mp hr
    · rw [(hc.same h₀ hr).2, hc.chain_iff hs hr] at hk
      exact .inr ⟨hr, k, hk, hy⟩
    · rw [hk.unique hc.new_chain, List.mem_singleton] at hy
      exact .inl ⟨hy ▸ hc.free, rfl⟩
  ended st k hr hd hk := by
    obtain hr | rfl := (hc.reached hs h₀).mp hr
    · rw [(hc.same h₀ hr).1] at hd
      rw [(hc.same h₀ hr).2, hc.chain_iff hs hr] at hk
      have hold := hs.ended st k hr hd hk
      have hsame : ∀ s ∈ slots L k, s ≠ s₀ → V'.entry s = V.entry s := fun s hsk =>
        hc.entry_eq (.of_chain hr hd hk hsk)
      by_cases hmem : s₀ ∈ slots L k
      · -- the entries before the new one do not end the directory, and nor does it
        obtain rfl := hs.one_dir (.of_chain hr hd hk hmem) h₀.inDir
        obtain ⟨k', pre, post, hk', hsplit, hpre⟩ := h₀.before
        obtain rfl := hk.unique hk'
        have hnd := slots_nodup hk.1.nodup (L := L)
        rw [hsplit] at hold hsame hnd ⊢
        obtain ⟨-, hnd', hdis⟩ := List.nodup_append.mp hnd
        have hne : ∀ s ∈ pre, s ≠ s₀ := fun s h => hdis s h s₀ List.mem_cons_self
        have hne' : ∀ s ∈ post, s ≠ s₀ := fun s h h' => (List.nodup_cons.mp hnd').1 (h' ▸ h)
        have hnew : V'.entry s₀ ≠ .last := by
          rw [hc.new]
          intro h
          have hlive := hc.live
          rw [h] at hlive
          cases hlive
        have hpre' : ∀ s ∈ pre, V'.entry s ≠ .last := fun s h => by
          rw [hsame s (List.mem_append_left _ h) (hne s h)]
          exact hpre s h
        obtain ⟨-, hold', -⟩ := List.pairwise_append.mp hold
        refine List.pairwise_append.mpr ⟨?_, List.pairwise_cons.mpr ⟨fun _ _ h => absurd h hnew, ?_⟩,
          fun s h _ _ h' => absurd h' (hpre' s h)⟩
        · exact List.pairwise_of_forall_mem_list fun s h _ _ h' => absurd h' (hpre' s h)
        · refine (List.pairwise_cons.mp hold').2.imp_of_mem fun h₁ h₂ h => ?_
          have hmem' : ∀ s ∈ post, s ∈ pre ++ s₀ :: post := fun s h =>
            List.mem_append_right _ (List.mem_cons_of_mem _ h)
          rw [hsame _ (hmem' _ h₁) (hne' _ h₁), hsame _ (hmem' _ h₂) (hne' _ h₂)]
          exact h
      · refine hold.imp_of_mem fun h₁ h₂ h => ?_
        rw [hsame _ h₁ fun h => hmem (h ▸ h₁), hsame _ h₂ fun h => hmem (h ▸ h₂)]
        exact h
    · rw [hk.unique hc.new_chain]
      rw [State.isDir, hc.new] at hd
      exact hc.ended hd

theorem UniqueNames.create (hu : UniqueNames L V)
    (hfresh : ∀ s, InDir L V st₀ s → (V.entry s).isLive = true → (V.entry s).name ≠ e.name) :
    UniqueNames L V' := by
  intro st s s' n hin hin' hn hn'
  have hch := hc.change hs h₀
  obtain ⟨hin, -⟩ | ⟨-, hbare⟩ := hch.inDir_of hs hin
  · obtain ⟨hin', -⟩ | ⟨-, hbare⟩ := hch.inDir_of hs hin'
    · have hold : ∀ s, InDir L V st s → s ≠ s₀ → (V'.entry s).name = (V.entry s).name :=
        fun s hin hne => congrArg Dirent.name (hc.entry_eq hin hne)
      have hclash : ∀ s, InDir L V st s → InDir L V st s₀ → (V.entry s).name = some n →
          e.name ≠ some n := by
        intro s hin hin₀ hn he
        obtain rfl := hs.one_dir hin₀ h₀.inDir
        exact hfresh s hin (Dirent.isLive_of_name hn) (hn.trans he.symm)
      by_cases hs₀ : s = s₀
      · subst hs₀
        by_cases hs₀' : s' = s
        · exact hs₀'.symm
        · rw [hold s' hin' hs₀'] at hn'
          rw [hc.new] at hn
          exact absurd hn (hclash s' hin' hin hn')
      · by_cases hs₀' : s' = s₀
        · subst hs₀'
          rw [hold s hin hs₀] at hn
          rw [hc.new] at hn'
          exact absurd hn' (hclash s hin hin' hn)
        · rw [hold s hin hs₀] at hn
          rw [hold s' hin' hs₀'] at hn'
          exact hu st s s' n hin hin' hn hn'
    · rw [Dirent.isLive_of_name hn'] at hbare
      cases hbare
  · rw [Dirent.isLive_of_name hn] at hbare
    cases hbare

end

theorem Sound.create (hs : Sound L V) (h₀ : FreeSlot L V st₀ s₀) (hc : Created L V V' s₀ e x) :
    Sound L V' where
  toOwned := hs.toOwned.create h₀ hc
  used y hv hy := by
    by_cases hyx : y = x
    · exact ⟨.entry s₀, [x], (hc.reached hs.toOwned h₀).mpr (.inr rfl), hc.new_chain,
        List.mem_singleton.mpr hyx⟩
    · rw [hc.next y hv hyx] at hy
      obtain ⟨st, k, hr, hk, hyk⟩ := hs.used y hv hy
      refine ⟨st, k, (hc.reached hs.toOwned h₀).mpr (.inl hr), ?_, hyk⟩
      rw [(hc.same h₀ hr).2]
      exact (hc.chain_iff hs.toOwned hr).mpr hk

-- ---------------------------------------------------------------------------
-- Removing an entry
-- ---------------------------------------------------------------------------

structure Removed (L : Layout) (V V' : State N) (s₀ : Slot) (l : List Nat) : Prop where
  gone : V'.entry s₀ = .skipped
  free : ∀ x ∈ l, V'.next x = 0
  next : ∀ x, L.valid x → x ∉ l → V'.next x = V.next x
  entry : ∀ s, L.valid s.1 → s.2 < L.perCluster → s ≠ s₀ → V'.entry s = V.entry s

structure Holds (L : Layout) (V : State N) (s₀ : Slot) (l : List Nat) : Prop where
  reached : Reached L V (.entry s₀)
  chain : ∀ k, IsChain L V (V.first L (.entry s₀)) k → k = l
  mem : ∀ x ∈ l, IsChain L V (V.first L (.entry s₀)) l

def Bare (L : Layout) (V : State N) (s₀ : Slot) : Prop :=
  ∀ s, InDir L V (.entry s₀) s → (V.entry s).isLive = false

section
variable (hs : Owned L V) (h₀ : Holds L V s₀ l) (hr : Removed L V V' s₀ l)
include hs h₀ hr

omit hr in
theorem Removed.apart (hst : Reached L V st) (hne : st ≠ .entry s₀)
    (hk : IsChain L V (V.first L st) k) (hx : x ∈ k) : x ∉ l := fun hxl =>
  hne (hs.apart st _ k l x hst h₀.reached hk (h₀.mem x hxl) hx hxl)

theorem Removed.chain_iff (hst : Reached L V st) (hne : st ≠ .entry s₀) :
    IsChain L V' (V.first L st) k ↔ IsChain L V (V.first L st) k :=
  hs.chain_iff hst fun _ hk x hx => hr.next x (hk.2 x hx) (Removed.apart hs h₀ hst hne hk hx)

omit hs h₀ in
theorem Removed.entry_eq (hin : InDir L V st s) (hne : s ≠ s₀) : V'.entry s = V.entry s :=
  hr.entry s hin.valid.1 hin.valid.2 hne

omit hs h₀ in
theorem Removed.same (hst : Reached L V st) (hne : st ≠ .entry s₀) :
    V'.isDir st = V.isDir st ∧ V'.first L st = V.first L st := by
  cases st with
  | root => exact ⟨rfl, rfl⟩
  | entry s =>
    obtain ⟨p, hin⟩ := hst.inDir
    have h := hr.entry_eq hin fun h => hne (h ▸ rfl)
    exact ⟨congrArg Dirent.isDir h, congrArg Dirent.first h⟩

omit hs h₀ in
theorem Removed.ne_of_live (hlive : (V'.entry s).isLive = true) : s ≠ s₀ := by
  rintro rfl
  rw [hr.gone] at hlive
  cases hlive

theorem Removed.reached_of (hst : Reached L V' st) : Reached L V st ∧ st ≠ .entry s₀ := by
  induction hst with
  | root => exact ⟨.root, Start.noConfusion⟩
  | @entry st k s _ hd hk hsk hlive ih =>
    obtain ⟨hst, hne⟩ := ih
    rw [(hr.same hst hne).1] at hd
    rw [(hr.same hst hne).2, hr.chain_iff hs h₀ hst hne] at hk
    have hss := hr.ne_of_live hlive
    rw [hr.entry_eq (.of_chain hst hd hk hsk) hss] at hlive
    exact ⟨.entry hst hd hk hsk hlive, fun h => hss (Start.entry.inj h)⟩

theorem Removed.inDir_of (hin : InDir L V' st s) : InDir L V st s ∧ st ≠ .entry s₀ := by
  obtain ⟨hst, hd, k, hk, hsk⟩ := hin
  obtain ⟨hst, hne⟩ := hr.reached_of hs h₀ hst
  rw [(hr.same hst hne).1] at hd
  rw [(hr.same hst hne).2, hr.chain_iff hs h₀ hst hne] at hk
  exact ⟨.of_chain hst hd hk hsk, hne⟩

theorem Removed.inDir_kept (hin : InDir L V st s) (hst : Reached L V' st) : InDir L V' st s := by
  obtain ⟨hst₀, hd, k, hk, hsk⟩ := hin
  have hne := (hr.reached_of hs h₀ hst).2
  obtain ⟨hdir, hfirst⟩ := hr.same hst₀ hne
  refine .of_chain hst (hdir.trans hd) (l := k) ?_ hsk
  rw [hfirst]
  exact (hr.chain_iff hs h₀ hst₀ hne).mpr hk

theorem Owned.remove : Owned L V' where
  chain st hst := by
    obtain ⟨hst, hne⟩ := hr.reached_of hs h₀ hst
    obtain ⟨hdir, hfirst⟩ := hr.same hst hne
    rw [hdir, hfirst]
    obtain h | ⟨k, hk0, hk⟩ := hs.chain st hst
    · exact .inl h
    · exact .inr ⟨k, hk0, (hr.chain_iff hs h₀ hst hne).mpr hk⟩
  apart st st' k k' x hst hst' hk hk' hx hx' := by
    obtain ⟨hst, hne⟩ := hr.reached_of hs h₀ hst
    obtain ⟨hst', hne'⟩ := hr.reached_of hs h₀ hst'
    rw [(hr.same hst hne).2, hr.chain_iff hs h₀ hst hne] at hk
    rw [(hr.same hst' hne').2, hr.chain_iff hs h₀ hst' hne'] at hk'
    exact hs.apart st st' k k' x hst hst' hk hk' hx hx'
  ended st k hst hd hk := by
    obtain ⟨hst, hne⟩ := hr.reached_of hs h₀ hst
    rw [(hr.same hst hne).1] at hd
    rw [(hr.same hst hne).2, hr.chain_iff hs h₀ hst hne] at hk
    have hlast : ∀ s ∈ slots L k, V'.entry s = .last ↔ V.entry s = .last := by
      intro s hsk
      by_cases hss : s = s₀
      · subst hss
        have hlive := h₀.reached.live
        rw [hr.gone]
        constructor
        · intro h
          cases h
        · intro h
          rw [h] at hlive
          cases hlive
      · rw [hr.entry_eq (.of_chain hst hd hk hsk) hss]
    refine (hs.ended st k hst hd hk).imp_of_mem fun h₁ h₂ h => ?_
    rw [hlast _ h₁, hlast _ h₂]
    exact h

theorem UniqueNames.remove (hu : UniqueNames L V) : UniqueNames L V' := by
  intro st s s' n hin hin' hn hn'
  have hne := hr.ne_of_live (Dirent.isLive_of_name hn)
  have hne' := hr.ne_of_live (Dirent.isLive_of_name hn')
  have hin := (hr.inDir_of hs h₀ hin).1
  have hin' := (hr.inDir_of hs h₀ hin').1
  rw [hr.entry_eq hin hne] at hn
  rw [hr.entry_eq hin' hne'] at hn'
  exact hu st s s' n hin hin' hn hn'

theorem Removed.change (hb : Bare L V s₀) : Change L V V' (· ≠ .entry s₀) (fun _ => False) where
  root := Start.noConfusion
  same _ hst hne := hr.same hst hne
  dir _ _ hst hne _ hk := (hr.chain_iff hs h₀ hst hne).mpr hk
  live st s hin _ := by
    by_cases hne : s = s₀
    · subst hne
      rw [hr.gone]
      simp [Dirent.isLive]
    · rw [hr.entry_eq hin hne]
      simp [hne]
  leaf st s hin hk := by
    obtain rfl := not_not.mp hk
    exact hb s hin
  inDir _ hn := hn.elim
  newLeaf _ _ _ hn := hn.elim

end

theorem Sound.remove (hs : Sound L V) (h₀ : Holds L V s₀ l) (hb : Bare L V s₀)
    (hr : Removed L V V' s₀ l) : Sound L V' where
  toOwned := hs.toOwned.remove h₀ hr
  used x hv hx := by
    have hxl : x ∉ l := fun h => hx (hr.free x h)
    rw [hr.next x hv hxl] at hx
    obtain ⟨st, k, hst, hk, hxk⟩ := hs.used x hv hx
    have hne : st ≠ .entry s₀ := by
      rintro rfl
      exact hxl (h₀.chain k hk ▸ hxk)
    refine ⟨st, k, (hr.change hs.toOwned h₀ hb).kept hst hne, ?_, hxk⟩
    rw [(hr.same hst hne).2]
    exact (hr.chain_iff hs.toOwned h₀ hst hne).mpr hk

-- ---------------------------------------------------------------------------
-- One operation after the other
-- ---------------------------------------------------------------------------

/-- One of the operations, or none: entries come only with names that `makes` has for their
directory, and only those of `removes` go. -/
inductive Step (L : Layout) (makes : Start → N → Prop) (removes : Slot → Prop)
    (V : State N) : State N → Prop
  | same : Step L makes removes V V
  | write {V' : State N} {st : Start} {l l' : List Nat} : Reached L V st → V.isDir st = false →
    IsChain L V (V.first L st) l → Written L V V' st l l' → Step L makes removes V V'
  | make {V' : State N} {st : Start} {n : N} {s : Slot} {e : Dirent N} {x : Nat} : makes st n →
    e.name = some n → FreeSlot L V st s → Created L V V' s e x → Step L makes removes V V'
  | remove {V' : State N} {s : Slot} {l : List Nat} : removes s → Holds L V s l →
    Removed L V V' s l → Step L makes removes V V'

section

variable {makes makes' : Start → N → Prop} {removes removes' : Slot → Prop}

theorem Step.mono (h : Step L makes removes V V') (hm : ∀ st n, makes st n → makes' st n)
    (hr : ∀ s, removes s → removes' s) : Step L makes' removes' V V' := by
  cases h with
  | same => exact .same
  | write h₀ hfile hl hw => exact .write h₀ hfile hl hw
  | make hn he h₀ hc => exact .make (hm _ _ hn) he h₀ hc
  | remove hn h₀ hd => exact .remove (hr _ hn) h₀ hd

theorem Owned.step (hs : Owned L V) (h : Step L makes removes V V') : Owned L V' := by
  cases h with
  | same => exact hs
  | write h₀ hfile hl hw => exact hs.write h₀ hfile hl hw
  | make _ _ h₀ hc => exact hs.create h₀ hc
  | remove _ h₀ hr => exact hs.remove h₀ hr

theorem Sound.step (hs : Sound L V) (hb : ∀ s, removes s → Bare L V s)
    (h : Step L makes removes V V') : Sound L V' := by
  cases h with
  | same => exact hs
  | write h₀ hfile hl hw => exact hs.write h₀ hfile hl hw
  | make _ _ h₀ hc => exact hs.create h₀ hc
  | remove hn h₀ hr => exact hs.remove h₀ (hb _ hn) hr

/-- Names stay unique where a directory gets only names that it does not have. -/
theorem UniqueNames.step (hu : UniqueNames L V) (hs : Owned L V)
    (hfresh : ∀ st n s, makes st n → InDir L V st s → (V.entry s).name ≠ some n)
    (h : Step L makes removes V V') : UniqueNames L V' := by
  cases h with
  | same => exact hu
  | write h₀ hfile hl hw => exact hu.write hs h₀ hfile hl hw
  | make hn he h₀ hc =>
    refine hu.create hs h₀ hc fun s hin _ => ?_
    rw [he]
    exact hfresh _ _ s hn hin
  | remove _ h₀ hr => exact hu.remove hs h₀ hr

end

end EponaOS.Volume
