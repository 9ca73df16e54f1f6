import EponaOS.Fs.FatDir

/-!
# The mount table

`vfs_mount` and `vfs_split_path` of `vfs.c`. A path belongs to the longest mount that is the
path or a directory above it; the loop compares bytes, and takes a mount whose name is only
the first part of a component as well.
-/

namespace EponaOS.Fs

def VFS_MAX_MOUNTS : Nat := 16

def SLASH : UInt8 := 0x2F

/-- `g_mount_paths` with `g_mounts`, whatever stands for a file system. -/
abbrev Mounts (F : Type) := List (CStr × F)

variable {F : Type} {mounts : Mounts F} {paths ms : List CStr} {m m' p rest : CStr} {i k len : Nat}

-- ---------------------------------------------------------------------------
-- The functions
-- ---------------------------------------------------------------------------

def vfsMount (mounts : Mounts F) (path : CStr) (fs : F) : Int × Mounts F :=
  if path ∈ mounts.map Prod.fst then (-1, mounts)
  else if mounts.length ≥ VFS_MAX_MOUNTS then (-1, mounts)
  else (0, mounts ++ [(path, fs)])

/-- The loop of `vfs_split_path` from mount `i` on. -/
def bestMount (full : CStr) : Nat → List CStr → Option Nat → Nat → Option Nat × Nat
  | _, [], best, bestLen => (best, bestLen)
  | i, m :: ms, best, bestLen =>
    if m <+: full ∧ m.length > bestLen then bestMount full (i + 1) ms (some i) m.length
    else bestMount full (i + 1) ms best bestLen

def behind : CStr → CStr
  | [] => []
  | c :: cs => if c = SLASH then cs else c :: cs

/-- The number of the mount and the rest of the path, `none` for -1. -/
def vfsSplitPath (mounts : Mounts F) (full : CStr) : Option (Nat × CStr) :=
  if full.head? ≠ some SLASH then none
  else
    let best := bestMount full 0 (mounts.map Prod.fst) none 0
    best.1.map fun i => (i, behind (full.drop best.2))

-- ---------------------------------------------------------------------------
-- What it should pick
-- ---------------------------------------------------------------------------

/-- An absolute path without empty components, and with no `/` at its end but for the root. -/
def Normalised (m : CStr) : Prop :=
  m = [SLASH] ∨ ∃ names : List CStr, names ≠ [] ∧ (∀ n ∈ names, n ≠ [] ∧ SLASH ∉ n) ∧
    m = names.flatMap fun n => SLASH :: n

def Covers (m p : CStr) : Prop := p = m ∨ (m = [SLASH] ∧ m <+: p) ∨ m ++ [SLASH] <+: p

/-- Mount `i` is the longest one that covers the path, and `rest` is what comes behind it. -/
structure Picked (paths : List CStr) (p : CStr) (i : Nat) (rest : CStr) : Prop where
  covers : ∃ m, paths[i]? = some m ∧ Covers m p ∧
    (p = m ++ SLASH :: rest ∨ p = m ++ rest ∧ rest.head? ≠ some SLASH)
  longest : ∀ m ∈ paths, Covers m p → ∃ m', paths[i]? = some m' ∧ m.length ≤ m'.length

/-- The mount is picked, and there is none only if no mount covers the path. -/
def SplitsRight (mounts : Mounts F) (p : CStr) : Prop :=
  match vfsSplitPath mounts p with
  | some (i, rest) => Picked (mounts.map Prod.fst) p i rest
  | none => ∀ m ∈ mounts.map Prod.fst, ¬ Covers m p

/-- Each mount that is the first part of the path, byte by byte, covers it, or a longer one
does. -/
def EndsAtSlash (paths : List CStr) (p : CStr) : Prop :=
  ∀ m ∈ paths, m <+: p → Covers m p ∨ ∃ m' ∈ paths, Covers m' p ∧ m.length < m'.length

-- ---------------------------------------------------------------------------
-- The loop
-- ---------------------------------------------------------------------------

theorem Covers.isPrefix (h : Covers m p) : m <+: p := by
  obtain rfl | ⟨-, h⟩ | h := h
  · exact List.prefix_refl _
  · exact h
  · exact (List.prefix_append m [SLASH]).trans h

/-- What the loop has found so far: the longest of the mounts before `i` that the path
starts with. -/
structure BestOf (full : CStr) (paths : List CStr) (best : Option Nat) (len : Nat) : Prop where
  found : ∀ k, best = some k → ∃ m, paths[k]? = some m ∧ m <+: full ∧ m.length = len
  none : best = none → len = 0
  longest : ∀ m ∈ paths, m <+: full → m.length ≤ len

theorem bestMount_spec {full : CStr} (h : BestOf full paths best len) (hi : i = paths.length) :
    BestOf full (paths ++ ms) (bestMount full i ms best len).1 (bestMount full i ms best len).2 := by
  induction ms generalizing paths i best len with
  | nil => simpa [bestMount] using h
  | cons m ms ih =>
    rw [List.append_cons]
    rw [bestMount]
    split
    · rename_i hm
      refine ih ⟨fun k hk => ?_, fun hk => ?_, fun x hx hpre => ?_⟩ (by simp [hi])
      · cases hk
        exact ⟨m, by simp [hi], hm.1, rfl⟩
      · cases hk
      · obtain hx | hx := List.mem_append.mp hx
        · exact Nat.le_trans (h.longest x hx hpre) (Nat.le_of_lt hm.2)
        · rw [List.mem_singleton.mp hx]
    · rename_i hm
      refine ih ⟨fun k hk => ?_, h.none, fun x hx hpre => ?_⟩ (by simp [hi])
      · obtain ⟨x, hx, hrest⟩ := h.found k hk
        obtain ⟨hlt, -⟩ := List.getElem?_eq_some_iff.mp hx
        exact ⟨x, by rw [List.getElem?_append_left hlt, hx], hrest⟩
      · obtain hx | hx := List.mem_append.mp hx
        · exact h.longest x hx hpre
        · rw [List.mem_singleton.mp hx] at hpre ⊢
          exact Nat.le_of_not_lt fun hlt => hm ⟨hpre, hlt⟩

theorem bestMount_best (full : CStr) (paths : List CStr) :
    BestOf full paths (bestMount full 0 paths none 0).1 (bestMount full 0 paths none 0).2 := by
  have h : BestOf full [] none 0 := ⟨by simp, fun _ => rfl, by simp⟩
  have hspec : BestOf full ([] ++ paths) _ _ := bestMount_spec h rfl
  rwa [List.nil_append] at hspec

theorem behind_spec (m after : CStr) : m ++ after = m ++ SLASH :: behind after ∨
    m ++ after = m ++ behind after ∧ (behind after).head? ≠ some SLASH := by
  cases after with
  | nil => exact .inr ⟨rfl, by simp [behind]⟩
  | cons c cs =>
    rw [behind]
    split
    · rename_i hc
      exact .inl (by rw [hc])
    · rename_i hc
      exact .inr ⟨rfl, by simpa using hc⟩

theorem splitsRight_iff_of_ne_nil (hp : p.head? = some SLASH)
    (hne : ∀ m ∈ mounts.map Prod.fst, m ≠ []) :
    SplitsRight mounts p ↔ EndsAtSlash (mounts.map Prod.fst) p := by
  generalize hpaths : mounts.map Prod.fst = paths at hne
  have hbest := bestMount_best p paths
  generalize hb : bestMount p 0 paths none 0 = b at hbest
  have hsplit : vfsSplitPath mounts p = b.1.map fun i => (i, behind (p.drop b.2)) := by
    rw [vfsSplitPath, if_neg (by simp [hp]), hpaths, hb]
  unfold SplitsRight
  rw [hsplit, hpaths]
  obtain ⟨best, len⟩ := b
  dsimp only at hbest ⊢
  cases best with
  | none =>
    -- no mount is the first part of the path
    have hno : ∀ m ∈ paths, ¬ m <+: p := by
      intro m hm hpre
      have hle := hbest.longest m hm hpre
      rw [hbest.none rfl] at hle
      exact hne m hm (List.eq_nil_of_length_eq_zero (Nat.le_zero.mp hle))
    exact ⟨fun _ m hm hpre => absurd hpre (hno m hm), fun _ m hm hc => hno m hm hc.isPrefix⟩
  | some i =>
    obtain ⟨m, hm, hpre, hlen⟩ := hbest.found i rfl
    have hmem : m ∈ paths := List.mem_of_getElem? hm
    obtain ⟨after, rfl⟩ := hpre
    have hrest : (m ++ after).drop len = after := by rw [← hlen, List.drop_left]
    simp only [Option.map_some, hrest]
    constructor
    · intro hpick x hx hxp
      obtain ⟨m₁, hm₁, hcov, -⟩ := hpick.covers
      obtain rfl : m = m₁ := Option.some.inj (hm.symm.trans hm₁)
      obtain hlt | heq := Nat.lt_or_eq_of_le (hbest.longest x hx hxp)
      · exact .inr ⟨m, hmem, hcov, by omega⟩
      · have hlen' : x.length = m.length := heq.trans hlen.symm
        have hxm := List.prefix_of_prefix_length_le hxp (List.prefix_append m after)
          (Nat.le_of_eq hlen')
        exact .inl (hxm.eq_of_length hlen' ▸ hcov)
    · intro hends
      have hcov : Covers m (m ++ after) := by
        obtain hcov | ⟨m', hm', hcov, hlt⟩ := hends m hmem (List.prefix_append m after)
        · exact hcov
        · have hle := hbest.longest m' hm' hcov.isPrefix
          omega
      refine ⟨⟨m, hm, hcov, behind_spec m after⟩, fun x hx hxc => ⟨m, hm, ?_⟩⟩
      rw [hlen]
      exact hbest.longest x hx hxc.isPrefix

-- ---------------------------------------------------------------------------
-- Tables made by calls of `vfs_mount`
-- ---------------------------------------------------------------------------

def mountAll (calls : List (CStr × F)) : Mounts F :=
  calls.foldl (fun mounts c => (vfsMount mounts c.1 c.2).2) []

theorem Normalised.ne_nil (h : Normalised m) : m ≠ [] := by
  obtain rfl | ⟨names, hne, -, rfl⟩ := h
  · simp
  · obtain ⟨n, ns, rfl⟩ := List.exists_cons_of_ne_nil hne
    simp

theorem vfsMount_mem {path : CStr} {fs : F} (h : m ∈ (vfsMount mounts path fs).2.map Prod.fst) :
    m ∈ mounts.map Prod.fst ∨ m = path := by
  unfold vfsMount at h
  split at h
  · exact .inl h
  · split at h
    · exact .inl h
    · simpa using h

theorem mountAll_mem {calls : List (CStr × F)} (h : m ∈ (mountAll calls).map Prod.fst) :
    m ∈ calls.map Prod.fst := by
  suffices hfold : ∀ mounts : Mounts F, m ∈ (calls.foldl (fun mounts c => (vfsMount mounts c.1 c.2).2)
      mounts).map Prod.fst → m ∈ mounts.map Prod.fst ∨ m ∈ calls.map Prod.fst by
    simpa using hfold [] h
  clear h
  induction calls with
  | nil => exact fun _ h => .inl h
  | cons c calls ih =>
    intro mounts h
    obtain h | h := ih _ h
    · obtain h | rfl := vfsMount_mem h
      · exact .inl h
      · exact .inr (by simp)
    · exact .inr (List.mem_cons_of_mem _ h)

/-- The split is right if and only if the path goes on at a component behind the longest of
the mounts that it starts with. -/
theorem vfsSplitPath_right_iff (calls : List (CStr × F)) (hcalls : ∀ c ∈ calls, Normalised c.1)
    (hp : p.head? = some SLASH) :
    SplitsRight (mountAll calls) p ↔ EndsAtSlash ((mountAll calls).map Prod.fst) p := by
  refine splitsRight_iff_of_ne_nil hp fun m hm => ?_
  obtain ⟨c, hc, rfl⟩ := List.mem_map.mp (mountAll_mem hm)
  exact (hcalls c hc).ne_nil

def threeMounts : List (CStr × Nat) :=
  [(cstr ['/'], 0), (cstr ['/', 'a'], 1), (cstr ['/', 'a', '/', 'b'], 2)]

theorem threeMounts_normalised : ∀ c ∈ threeMounts, Normalised c.1 := by
  have h0 : Normalised (cstr ['/']) := .inl (by decide)
  have h1 : Normalised (cstr ['/', 'a']) := .inr ⟨[cstr ['a']], by decide, by decide, by decide⟩
  have h2 : Normalised (cstr ['/', 'a', '/', 'b']) :=
    .inr ⟨[cstr ['a'], cstr ['b']], by decide, by decide, by decide⟩
  simp [threeMounts, h0, h1, h2]

theorem threeMounts_split : SplitsRight (mountAll threeMounts) (cstr ['/', 'a', '/', 'b', '/', 'c']) := by
  refine (vfsSplitPath_right_iff threeMounts threeMounts_normalised (by decide)).mpr ?_
  have hpaths : (mountAll threeMounts).map Prod.fst =
      [cstr ['/'], cstr ['/', 'a'], cstr ['/', 'a', '/', 'b']] := by decide
  rw [hpaths]
  intro m hm _
  simp only [List.mem_cons, List.not_mem_nil, or_false] at hm
  obtain rfl | rfl | rfl := hm
  · exact .inl (.inr (.inl (by decide)))
  · exact .inl (.inr (.inr (by decide)))
  · exact .inl (.inr (.inr (by decide)))

/-- A path whose first component only starts like the mount is taken for one below it. -/
theorem sibling_split : ¬ ∀ (calls : List (CStr × Nat)) (p : CStr), (∀ c ∈ calls, Normalised c.1) →
    p.head? = some SLASH → SplitsRight (mountAll calls) p := by
  intro hall
  have hcalls : ∀ c ∈ [(cstr ['/', 'a'], 0)], Normalised c.1 := by
    have h : Normalised (cstr ['/', 'a']) := .inr ⟨[cstr ['a']], by decide, by decide, by decide⟩
    simpa using h
  have hright := hall _ (cstr ['/', 'a', 'b']) hcalls (by decide)
  have hpick : Picked [cstr ['/', 'a']] (cstr ['/', 'a', 'b']) 0 (cstr ['b']) := hright
  obtain ⟨m, hm, hcov, -⟩ := hpick.covers
  obtain rfl : cstr ['/', 'a'] = m := Option.some.inj hm
  obtain h | ⟨h, -⟩ | h := hcov <;> revert h <;> decide

end EponaOS.Fs
