import EponaOS.Lib.Chain
import Mathlib.Data.List.Nodup

/-!
# Volumes of linked clusters

Clusters are linked into chains by a table. A chain holds a file or the slots of a
directory; a slot may hold an entry, with the first cluster of a file or of a directory
below. A volume is sound when every chain is that of the root or of one entry that the root
leads to, and no cluster is on two of them, or on none though the table has it in use.
Writing a file, making an entry and removing one keep a volume sound.
-/

namespace EponaOS.Volume

/-- Which numbers are clusters, which end a chain, how many slots a cluster has, and where
the root starts. -/
structure Layout where
  valid : Nat → Prop
  stop : Nat → Prop
  perCluster : Nat
  root : Nat
  zero_invalid : ¬ valid 0
  zero_goes_on : ¬ stop 0
  valid_goes_on : ∀ x, valid x → ¬ stop x

/-- A cluster and the number of a slot in it. -/
abbrev Slot := Nat × Nat

/-- What a slot holds: the end of the directory, something that is passed over, or the entry
of a file or directory. -/
inductive Dirent (N : Type)
  | last
  | skipped
  | live (name : N) (isDir : Bool) (first size : Nat)
  deriving DecidableEq

structure State (N : Type) where
  next : Nat → Nat
  entry : Slot → Dirent N

inductive Start
  | root
  | entry (s : Slot)
  deriving DecidableEq

variable {N : Type}

namespace Dirent

def isLive : Dirent N → Bool
  | .live .. => true
  | _ => false

def isDir : Dirent N → Bool
  | .live _ isDir _ _ => isDir
  | _ => false

def first : Dirent N → Nat
  | .live _ _ first _ => first
  | _ => 0

def name : Dirent N → Option N
  | .live name _ _ _ => some name
  | _ => none

def noSize : Dirent N → Dirent N
  | .live name isDir first _ => .live name isDir first 0
  | e => e

variable {e e' : Dirent N}

theorem isLive_of_name (h : e.name = some n) : e.isLive = true := by
  cases e <;> simp_all [name, isLive]

theorem isLive_congr (h : e'.noSize = e.noSize) : e'.isLive = e.isLive := by
  cases e <;> cases e' <;> simp_all [noSize, isLive]

theorem isDir_congr (h : e'.noSize = e.noSize) : e'.isDir = e.isDir := by
  cases e <;> cases e' <;> simp_all [noSize, isDir]

theorem first_congr (h : e'.noSize = e.noSize) : e'.first = e.first := by
  cases e <;> cases e' <;> simp_all [noSize, first]

theorem name_congr (h : e'.noSize = e.noSize) : e'.name = e.name := by
  cases e <;> cases e' <;> simp_all [noSize, name]

theorem last_congr (h : e'.noSize = e.noSize) : e' = .last ↔ e = .last := by
  cases e <;> cases e' <;> simp_all [noSize]

end Dirent

def slots (L : Layout) (l : List Nat) : List Slot :=
  l.flatMap fun c => (List.range L.perCluster).map (c, ·)

namespace State

def isDir (V : State N) : Start → Bool
  | .root => true
  | .entry s => (V.entry s).isDir

def first (L : Layout) (V : State N) : Start → Nat
  | .root => L.root
  | .entry s => (V.entry s).first

end State

def IsChain (L : Layout) (V : State N) (c : Nat) (l : List Nat) : Prop :=
  Chain V.next L.stop c l ∧ ∀ x ∈ l, L.valid x

inductive Reached (L : Layout) (V : State N) : Start → Prop
  | root : Reached L V .root
  | entry : Reached L V st → V.isDir st = true → IsChain L V (V.first L st) l → s ∈ slots L l →
      (V.entry s).isLive = true → Reached L V (.entry s)

def InDir (L : Layout) (V : State N) (st : Start) (s : Slot) : Prop :=
  Reached L V st ∧ V.isDir st = true ∧ ∃ l, IsChain L V (V.first L st) l ∧ s ∈ slots L l

/-- What the root leads to has chains of its own, and no directory goes on behind its end. An
empty file may have no chain. -/
structure Owned (L : Layout) (V : State N) : Prop where
  chain : ∀ st, Reached L V st →
    (V.isDir st = false ∧ V.first L st = 0) ∨ ∃ l, l ≠ [] ∧ IsChain L V (V.first L st) l
  apart : ∀ st st' l l' x, Reached L V st → Reached L V st' → IsChain L V (V.first L st) l →
    IsChain L V (V.first L st') l' → x ∈ l → x ∈ l' → st = st'
  ended : ∀ st l, Reached L V st → V.isDir st = true → IsChain L V (V.first L st) l →
    (slots L l).Pairwise fun s s' => V.entry s = .last → V.entry s' = .last

/-- Nor is a cluster lost. -/
structure Sound (L : Layout) (V : State N) : Prop extends Owned L V where
  used : ∀ x, L.valid x → V.next x ≠ 0 →
    ∃ st l, Reached L V st ∧ IsChain L V (V.first L st) l ∧ x ∈ l

/-- No directory has two entries of one name. -/
def UniqueNames (L : Layout) (V : State N) : Prop :=
  ∀ st s s' n, InDir L V st s → InDir L V st s' → (V.entry s).name = some n →
    (V.entry s').name = some n → s = s'

variable {L : Layout} {V V' : State N} {st st' st₀ : Start} {l l' l₀ : List Nat} {s s' s₀ : Slot}
  {c x y : Nat} {keep new : Start → Prop}

-- ---------------------------------------------------------------------------
-- Slots and chains
-- ---------------------------------------------------------------------------

theorem mem_slots : s ∈ slots L l ↔ s.1 ∈ l ∧ s.2 < L.perCluster := by
  simp only [slots, List.mem_flatMap, List.mem_map, List.mem_range]
  constructor
  · rintro ⟨c, hc, i, hi, rfl⟩
    exact ⟨hc, hi⟩
  · rintro ⟨hc, hi⟩
    exact ⟨s.1, hc, s.2, hi, rfl⟩

theorem slots_nodup (h : l.Nodup) : (slots L l).Nodup := by
  refine List.nodup_flatMap.mpr ⟨fun c _ => ?_, ?_⟩
  · exact List.nodup_range.map fun i j h => (Prod.mk.inj h).2
  · refine h.imp fun hne s hs hs' => hne ?_
    obtain ⟨i, -, rfl⟩ := List.mem_map.mp hs
    obtain ⟨j, -, h⟩ := List.mem_map.mp hs'
    exact (Prod.mk.inj h).1.symm

theorem IsChain.unique (h : IsChain L V c l) (h' : IsChain L V c l') : l = l' := h.1.unique h'.1

theorem IsChain.congr (h : IsChain L V c l) (hn : ∀ x ∈ l, V'.next x = V.next x) :
    IsChain L V' c l := ⟨h.1.congr hn, h.2⟩

theorem IsChain.next_ne_zero (h : IsChain L V c l) (hx : x ∈ l) : V.next x ≠ 0 := by
  obtain ⟨l₁, l₂, rfl⟩ := List.append_of_mem hx
  intro h0
  cases h.1.of_append with
  | link _ ht =>
    rw [h0] at ht
    cases ht with
    | nil hs => exact L.zero_goes_on hs
    | link _ _ => exact L.zero_invalid (h.2 0 (by simp))

theorem IsChain.ne_zero (h : IsChain L V c l) : c ≠ 0 := by
  rintro rfl
  cases h.1 with
  | nil hs => exact L.zero_goes_on hs
  | link _ _ => exact L.zero_invalid (h.2 0 List.mem_cons_self)

theorem isChain_single (hx : L.valid x) (hs : L.stop (V.next x)) : IsChain L V x [x] :=
  ⟨.link (L.valid_goes_on x hx) (.nil hs), fun y hy => by rwa [List.mem_singleton.mp hy]⟩

-- ---------------------------------------------------------------------------
-- Directories
-- ---------------------------------------------------------------------------

theorem InDir.entry (h : InDir L V st s) (hlive : (V.entry s).isLive = true) :
    Reached L V (.entry s) := by
  obtain ⟨hr, hd, l, hl, hs⟩ := h
  exact .entry hr hd hl hs hlive

theorem Reached.live (h : Reached L V (.entry s)) : (V.entry s).isLive = true := by
  cases h with
  | entry _ _ _ _ h => exact h

theorem Reached.inDir (h : Reached L V (.entry s)) : ∃ st, InDir L V st s := by
  cases h with
  | entry hr hd hl hs _ => exact ⟨_, hr, hd, _, hl, hs⟩

theorem InDir.of_chain (hr : Reached L V st) (hd : V.isDir st = true)
    (hl : IsChain L V (V.first L st) l) (hs : s ∈ slots L l) : InDir L V st s :=
  ⟨hr, hd, l, hl, hs⟩

theorem InDir.valid (h : InDir L V st s) : L.valid s.1 ∧ s.2 < L.perCluster := by
  obtain ⟨-, -, l, hl, hs⟩ := h
  obtain ⟨hc, hi⟩ := mem_slots.mp hs
  exact ⟨hl.2 _ hc, hi⟩

theorem InDir.next_ne_zero (h : InDir L V st s) : V.next s.1 ≠ 0 := by
  obtain ⟨-, -, l, hl, hs⟩ := h
  exact hl.next_ne_zero (mem_slots.mp hs).1

theorem Owned.dir_chain (hs : Owned L V) (hr : Reached L V st) (hd : V.isDir st = true) :
    ∃ l, l ≠ [] ∧ IsChain L V (V.first L st) l := by
  obtain ⟨hfile, -⟩ | h := hs.chain st hr
  · rw [hd] at hfile
    cases hfile
  · exact h

theorem Owned.one_dir (hs : Owned L V) (h : InDir L V st s) (h' : InDir L V st' s) : st = st' := by
  obtain ⟨hr, -, l, hl, hm⟩ := h
  obtain ⟨hr', -, l', hl', hm'⟩ := h'
  exact hs.apart st st' l l' s.1 hr hr' hl hl' (mem_slots.mp hm).1 (mem_slots.mp hm').1

-- ---------------------------------------------------------------------------
-- Changes
-- ---------------------------------------------------------------------------

/-- From `V` to `V'` the entries of `keep` stay and those of `new` come. A directory that
goes has no entries, nor has one that comes. -/
structure Change (L : Layout) (V V' : State N) (keep new : Start → Prop) : Prop where
  root : keep .root
  same : ∀ st, Reached L V st → keep st →
    V'.isDir st = V.isDir st ∧ V'.first L st = V.first L st
  dir : ∀ st l, Reached L V st → keep st → V.isDir st = true → IsChain L V (V.first L st) l →
    IsChain L V' (V.first L st) l
  live : ∀ st s, InDir L V st s → keep st →
    ((V'.entry s).isLive = true ↔
      (V.entry s).isLive = true ∧ keep (.entry s) ∨ new (.entry s))
  leaf : ∀ st s, InDir L V st s → ¬ keep st → (V.entry s).isLive = false
  inDir : ∀ st, new st → ∃ p s, st = .entry s ∧ keep p ∧ InDir L V p s
  newLeaf : ∀ st l s, new st → V'.isDir st = true → IsChain L V' (V'.first L st) l →
    s ∈ slots L l → (V'.entry s).isLive = false

theorem Change.chain_eq (h : Change L V V' keep new) (hs : Owned L V) (hr : Reached L V st)
    (hk : keep st) (hd : V.isDir st = true) :
    IsChain L V' (V'.first L st) l ↔ IsChain L V (V.first L st) l := by
  obtain ⟨l₁, -, hl₁⟩ := hs.dir_chain hr hd
  have hl' := h.dir st l₁ hr hk hd hl₁
  rw [(h.same st hr hk).2]
  constructor
  · intro hl
    rwa [hl.unique hl']
  · exact h.dir st l hr hk hd

theorem Change.kept (h : Change L V V' keep new) (hr : Reached L V st) (hk : keep st) :
    Reached L V' st := by
  induction hr with
  | root => exact .root
  | @entry st l s hr hd hl hs hlive ih =>
    have hin := InDir.of_chain hr hd hl hs
    by_cases hp : keep st
    · obtain ⟨hdir, hfirst⟩ := h.same st hr hp
      refine .entry (ih hp) (hdir.trans hd) (l := l) ?_ hs ((h.live st s hin hp).mpr (.inl ⟨hlive, hk⟩))
      rw [hfirst]
      exact h.dir st l hr hp hd hl
    · rw [h.leaf st s hin hp] at hlive
      cases hlive

theorem Change.inDir_kept (h : Change L V V' keep new) (hin : InDir L V st s) (hk : keep st) :
    InDir L V' st s := by
  obtain ⟨hr, hd, l, hl, hs⟩ := hin
  obtain ⟨hdir, hfirst⟩ := h.same st hr hk
  refine .of_chain (h.kept hr hk) (hdir.trans hd) (l := l) ?_ hs
  rw [hfirst]
  exact h.dir st l hr hk hd hl

theorem Change.reached (h : Change L V V' keep new) (hs : Owned L V) :
    Reached L V' st ↔ Reached L V st ∧ keep st ∨ new st := by
  constructor
  · intro hr
    induction hr with
    | root => exact .inl ⟨.root, h.root⟩
    | @entry st l s _ hd hl hsl hlive ih =>
      obtain ⟨hr, hk⟩ | hn := ih
      · rw [(h.same st hr hk).1] at hd
        have hin := InDir.of_chain hr hd ((h.chain_eq hs hr hk hd).mp hl) hsl
        obtain ⟨hlive, hks⟩ | hn := (h.live st s hin hk).mp hlive
        · exact .inl ⟨hin.entry hlive, hks⟩
        · exact .inr hn
      · rw [h.newLeaf st l s hn hd hl hsl] at hlive
        cases hlive
  · rintro (⟨hr, hk⟩ | hn)
    · exact h.kept hr hk
    · obtain ⟨p, s, rfl, hk, hin⟩ := h.inDir st hn
      have hlive := (h.live p s hin hk).mpr (.inr hn)
      obtain ⟨hr, hd, l, hl, hsl⟩ := hin
      exact .entry (h.kept hr hk) ((h.same p hr hk).1.trans hd)
        ((h.chain_eq hs hr hk hd).mpr hl) hsl hlive

theorem Change.inDir_of (h : Change L V V' keep new) (hs : Owned L V) (hin : InDir L V' st s) :
    InDir L V st s ∧ keep st ∨ new st ∧ (V'.entry s).isLive = false := by
  obtain ⟨hr, hd, l, hl, hsl⟩ := hin
  obtain ⟨hr, hk⟩ | hn := (h.reached hs).mp hr
  · rw [(h.same st hr hk).1] at hd
    exact .inl ⟨.of_chain hr hd ((h.chain_eq hs hr hk hd).mp hl) hsl, hk⟩
  · exact .inr ⟨hn, h.newLeaf st l s hn hd hl hsl⟩

theorem apart_of_owner (hs : Owned L V) (owner : Start)
    (h : ∀ st l x, Reached L V' st → IsChain L V' (V'.first L st) l → x ∈ l →
      (V.next x = 0 ∧ st = owner) ∨
        Reached L V st ∧ ∃ k, IsChain L V (V.first L st) k ∧ x ∈ k)
    (hr : Reached L V' st) (hr' : Reached L V' st') (hl : IsChain L V' (V'.first L st) l)
    (hl' : IsChain L V' (V'.first L st') l') (hx : x ∈ l) (hx' : x ∈ l') : st = st' := by
  obtain ⟨h0, rfl⟩ | ⟨hv, k, hk, hxk⟩ := h st l x hr hl hx
  · obtain ⟨-, rfl⟩ | ⟨-, k', hk', hxk'⟩ := h st' l' x hr' hl' hx'
    · rfl
    · exact absurd h0 (hk'.next_ne_zero hxk')
  · obtain ⟨h0, -⟩ | ⟨hv', k', hk', hxk'⟩ := h st' l' x hr' hl' hx'
    · exact absurd h0 (hk.next_ne_zero hxk)
    · exact hs.apart st st' k k' x hv hv' hk hk' hxk hxk'

theorem Owned.chain_iff (hs : Owned L V) (hr : Reached L V st)
    (hn : ∀ k, IsChain L V (V.first L st) k → ∀ x ∈ k, V'.next x = V.next x) :
    IsChain L V' (V.first L st) l ↔ IsChain L V (V.first L st) l := by
  constructor
  · intro hl
    obtain ⟨-, h0⟩ | ⟨k, -, hk⟩ := hs.chain st hr
    · exact absurd h0 hl.ne_zero
    · rwa [hl.unique (hk.congr (hn k hk))]
  · exact fun hl => hl.congr (hn l hl)

end EponaOS.Volume
