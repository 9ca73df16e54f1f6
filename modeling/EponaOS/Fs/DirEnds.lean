import EponaOS.Lib.Chain
import EponaOS.Fs.FatDir
import EponaOS.Fs.FatFree

/-!
# Directory walks that end

`fat_readdir`, `fat_create` and `fat_unlink` follow the clusters of a directory until an end
mark, an access that fails, or an entry at which they return. There is no other bound, so
they end on exactly those images where one of the three comes.
-/

namespace EponaOS.Fs

open Bytes

-- ---------------------------------------------------------------------------
-- Where a walk ends
-- ---------------------------------------------------------------------------

/-- The sector with entry `e` of the cluster at `lba`. -/
def entrySector (sectors : Nat → Bytes) (lba e : Nat) : Bytes :=
  sectors ((lba + e * 32 / 512) % 2 ^ 32 % 2 ^ 28)

def StopsIn (fp : FatPrivate) (sectors : Nat → Bytes) (Stops : Bytes → Nat → Prop) (c : Nat) :
    Prop :=
  ∃ e, e < fp.bytesPerCluster / 32 ∧
    Stops (entrySector sectors (fatClusterToLba fp c) e) (e * 32 % 512)

def WalkEnd (fp : FatPrivate) (sectors : Nat → Bytes) (Stops : Bytes → Nat → Prop) (c : Nat) :
    Prop := FAT_EOC ≤ c ∨ StopsIn fp sectors Stops c

/-- An access fails some time, or the links lead from `c` to an end of the walk before they
can have met every number of a cluster. -/
def DirEnds (fp : FatPrivate) (d : Disk) (Stops : Bytes → Nat → Prop) (c : Nat) : Prop :=
  true ∈ d.faults ∨ ∃ k, k ≤ FAT_EOC ∧ WalkEnd fp d.sectors Stops ((linkOf fp d.sectors)^[k] c)

theorem dirEnds_iff_chain {fp : FatPrivate} {d : Disk} {Stops : Bytes → Nat → Prop} {c : Nat} :
    DirEnds fp d Stops c ↔ true ∈ d.faults ∨
      ∃ l, Chain (linkOf fp d.sectors) (WalkEnd fp d.sectors Stops) c l := by
  refine or_congr_right ⟨?_, ?_⟩
  · rintro ⟨k, -, h⟩
    exact Chain.of_iterate h
  · rintro ⟨l, hl⟩
    refine ⟨l.length, hl.length_le fun x hx => ?_, hl.stop_iterate⟩
    rw [WalkEnd] at hx
    omega

-- ---------------------------------------------------------------------------
-- The walk
-- ---------------------------------------------------------------------------

/-- The function returns at the entries `Stops` says and goes on at all others. -/
structure StopsAt {R S : Type} (visit : Nat → Nat → Bytes → S → Disk → Visit R S)
    (Stops : Bytes → Nat → Prop) : Prop where
  stop : ∀ lba off buf st d, Stops buf off → ∃ r d', visit lba off buf st d = .done r d'
  go : ∀ lba off buf st d, ¬ Stops buf off → ∃ st', visit lba off buf st d = .next st'

section Walk

variable {R S : Type} {fp : FatPrivate} {fail : S → R}
  {visit : Nat → Nat → Bytes → S → Disk → Visit R S} {Stops : Bytes → Nat → Prop}

/-- The entries of one cluster from number `e` on: the walk ends there, or all that has
happened to the drive is that some accesses are done. -/
theorem dirWalkCluster_spec (hv : StopsAt visit Stops) (lba k e : Nat) (buf : Bytes) (st : S)
    (d : Disk)
    (hbuf : e * 32 / 512 = 0 ∨ e * 32 % 512 = 0 ∨ buf = entrySector d.sectors lba e) :
    (∃ r d', dirWalkCluster fail visit lba k e buf st d = (.inl r, d') ∧
      (true ∈ d.faults ∨ ∃ i, e ≤ i ∧ i < e + k ∧
        Stops (entrySector d.sectors lba i) (i * 32 % 512))) ∨
    (∃ st' d', dirWalkCluster fail visit lba k e buf st d = (.inr st', d') ∧ Accessed d d' ∧
      ∀ i, e ≤ i → i < e + k → ¬ Stops (entrySector d.sectors lba i) (i * 32 % 512)) := by
  induction k generalizing e buf st d with
  | zero =>
    refine .inr ⟨st, d, rfl, .refl d, fun i h1 h2 => ?_⟩
    omega
  | succ k ih =>
    rw [dirWalkCluster]
    -- the buffer holds the sector of the entry, unless reading it fails
    have hread : (∃ d₁, (if e * 32 / 512 = 0 ∨ e * 32 % 512 = 0 then
          ataReadSectors d ((lba + e * 32 / 512) % 2 ^ 32) else (some buf, d)) = (none, d₁) ∧
          true ∈ d.faults) ∨
        ∃ d₁, (if e * 32 / 512 = 0 ∨ e * 32 % 512 = 0 then
          ataReadSectors d ((lba + e * 32 / 512) % 2 ^ 32) else (some buf, d)) =
            (some (entrySector d.sectors lba e), d₁) ∧ Accessed d d₁ := by
      by_cases hr : e * 32 / 512 = 0 ∨ e * 32 % 512 = 0
      · rw [if_pos hr]
        obtain ⟨h, hf⟩ | ⟨h, ht⟩ := ataReadSectors_cases d ((lba + e * 32 / 512) % 2 ^ 32)
        · exact .inl ⟨_, h, hf⟩
        · exact .inr ⟨_, h, ht⟩
      · rw [if_neg hr]
        have hb : buf = entrySector d.sectors lba e := by
          obtain h | h | h := hbuf
          · exact absurd (.inl h) hr
          · exact absurd (.inr h) hr
          · exact h
        rw [hb]
        exact .inr ⟨d, rfl, .refl d⟩
    obtain ⟨d₁, h, hf⟩ | ⟨d₁, h, hacc⟩ := hread
    · rw [h]
      exact .inl ⟨_, _, rfl, .inl hf⟩
    · rw [h]
      dsimp only
      by_cases hs : Stops (entrySector d.sectors lba e) (e * 32 % 512)
      · obtain ⟨r, d', hdone⟩ := hv.stop ((lba + e * 32 / 512) % 2 ^ 32) _ _ st d₁ hs
        rw [hdone]
        exact .inl ⟨r, d', rfl, .inr ⟨e, Nat.le_refl e, by omega, hs⟩⟩
      · obtain ⟨st', hnext⟩ := hv.go ((lba + e * 32 / 512) % 2 ^ 32) _ _ st d₁ hs
        rw [hnext]
        have hbuf' : (e + 1) * 32 / 512 = 0 ∨ (e + 1) * 32 % 512 = 0 ∨
            entrySector d.sectors lba e = entrySector d₁.sectors lba (e + 1) := by
          by_cases h0 : (e + 1) * 32 % 512 = 0
          · exact .inr (.inl h0)
          · have : (e + 1) * 32 / 512 = e * 32 / 512 := by omega
            rw [entrySector, entrySector, hacc.sectors, this]
            exact .inr (.inr rfl)
        obtain ⟨r, d', he, hend⟩ | ⟨st'', d', he, hacc', hno⟩ :=
          ih (e + 1) (entrySector d.sectors lba e) st' d₁ hbuf'
        · refine .inl ⟨r, d', he, ?_⟩
          obtain hf | ⟨i, h1, h2, hi⟩ := hend
          · exact .inl (hacc.faults.subset hf)
          · rw [hacc.sectors] at hi
            exact .inr ⟨i, by omega, by omega, hi⟩
        · refine .inr ⟨st'', d', he, hacc.trans hacc', fun i h1 h2 => ?_⟩
          obtain rfl | hlt := Nat.eq_or_lt_of_le h1
          · exact hs
          · rw [← hacc.sectors]
            exact hno i hlt (by omega)

theorem dirWalkCluster_whole (hv : StopsAt visit Stops) (fp : FatPrivate) (c : Nat) (st : S)
    (d : Disk) :
    (∃ r d', dirWalkCluster fail visit (fatClusterToLba fp c) (fp.bytesPerCluster / 32) 0
        (fun _ => 0) st d = (.inl r, d') ∧ (true ∈ d.faults ∨ StopsIn fp d.sectors Stops c)) ∨
    (∃ st' d', dirWalkCluster fail visit (fatClusterToLba fp c) (fp.bytesPerCluster / 32) 0
        (fun _ => 0) st d = (.inr st', d') ∧ Accessed d d' ∧ ¬ StopsIn fp d.sectors Stops c) := by
  obtain ⟨r, d', he, hend⟩ | ⟨st', d', he, hacc, hno⟩ :=
    dirWalkCluster_spec hv (fatClusterToLba fp c) (fp.bytesPerCluster / 32) 0 (fun _ => 0) st d
      (.inl rfl)
  · refine .inl ⟨r, d', he, hend.imp_right ?_⟩
    rintro ⟨i, -, hi, hs⟩
    exact ⟨i, by omega, hs⟩
  · refine .inr ⟨st', d', he, hacc, ?_⟩
    rintro ⟨i, hi, hs⟩
    exact hno i (Nat.zero_le i) (by omega) hs

theorem ends_of_dirWalk (hv : StopsAt visit Stops)
    (h : dirWalk fp fail visit fuel c st d = some r) : true ∈ d.faults ∨
      ∃ l, Chain (linkOf fp d.sectors) (WalkEnd fp d.sectors Stops) c l := by
  induction fuel generalizing c st d with
  | zero => cases h
  | succ fuel ih =>
    rw [dirWalk] at h
    by_cases hc : c < FAT_EOC
    · rw [if_pos hc] at h
      obtain ⟨r, d', he, hend⟩ | ⟨st', d', he, hacc, hno⟩ :=
        dirWalkCluster_whole hv fp c st d
      · exact hend.imp_right fun hs => ⟨[], .nil (.inr hs)⟩
      · rw [he] at h
        dsimp only at h
        obtain ⟨-, hf⟩ | ⟨hn, ht⟩ := fatNextCluster_cases fp d' c
        · exact .inl (hacc.faults.subset hf)
        · rw [hn] at h
          have hacc' := hacc.trans ht
          obtain hf | ⟨l, hl⟩ := ih h
          · exact .inl (hacc'.faults.subset hf)
          · rw [hacc'.sectors, hacc.sectors] at hl
            refine .inr ⟨c :: l, .link ?_ hl⟩
            rintro (heoc | hs)
            · omega
            · exact hno hs
    · exact .inr ⟨[], .nil (.inl (Nat.le_of_not_lt hc))⟩

theorem dirWalk_mono (fp : FatPrivate) (fail : S → R)
    (visit : Nat → Nat → Bytes → S → Disk → Visit R S) (c : Nat) (st : S) (d : Disk) :
    FuelMono fun fuel => dirWalk fp fail visit fuel c st d := by
  intro fuel r h
  induction fuel generalizing c st d with
  | zero => cases h
  | succ fuel ih =>
    dsimp only at h ⊢
    rw [dirWalk] at h ⊢
    split at h
    · rename_i hc
      rw [if_pos hc]
      split at h
      · exact h
      · exact ih _ _ _ h
    · rename_i hc
      rw [if_neg hc]
      exact h

theorem dirWalk_stops (hv : StopsAt visit Stops) (h : WalkEnd fp d.sectors Stops c) (st : S) :
    ∃ r, dirWalk fp fail visit 1 c st d = some r := by
  rw [dirWalk]
  by_cases hc : c < FAT_EOC
  · obtain heoc | hs := h
    · omega
    · obtain ⟨r, d', he, -⟩ | ⟨-, -, -, -, hno⟩ :=
        dirWalkCluster_whole hv fp c st d
      · rw [if_pos hc, he]
        exact ⟨_, rfl⟩
      · exact absurd hs hno
  · rw [if_neg hc]
    exact ⟨_, rfl⟩

theorem dirWalk_unroll (hv : StopsAt visit Stops) (hc : c < FAT_EOC)
    (h : ∀ st' d', Accessed d d' →
      d'.faults.length < d.faults.length ∨ d.faults = [] →
      ∃ fuel r, dirWalk fp fail visit fuel (linkOf fp d.sectors c) st' d' = some r) :
    ∃ fuel r, dirWalk fp fail visit fuel c st d = some r := by
  obtain ⟨r, d', he, -⟩ | ⟨st', d', he, hacc, -⟩ :=
    dirWalkCluster_whole hv fp c st d
  · refine ⟨1, (.inl r, d'), ?_⟩
    rw [dirWalk, if_pos hc, he]
  · obtain ⟨hn, -⟩ | ⟨hn, ht⟩ := fatNextCluster_cases fp d' c
    · refine ⟨2, (.inr st', d'.tick), ?_⟩
      rw [dirWalk, if_pos hc, he]
      dsimp only
      rw [hn, dirWalk, if_neg (Nat.lt_irrefl _)]
    · have hlen : d'.tick.faults.length < d.faults.length ∨ d.faults = [] := by
        have hle := hacc.faults.length_le
        cases hfaults : d.faults with
        | nil => exact .inr rfl
        | cons f fs =>
          rw [hfaults] at hle
          simp only [Disk.tick, List.length_tail, List.length_cons] at hle ⊢
          omega
      obtain ⟨fuel, r, hr⟩ := h st' d'.tick (hacc.trans ht) hlen
      refine ⟨fuel + 1, r, ?_⟩
      rw [dirWalk, if_pos hc, he]
      dsimp only
      rw [hn, hacc.sectors]
      exact hr

theorem dirWalk_of_chain (hv : StopsAt visit Stops) {sectors : Nat → Bytes}
    (hl : Chain (linkOf fp sectors) (WalkEnd fp sectors Stops) c l) :
    ∀ st d, d.sectors = sectors → ∃ fuel r, dirWalk fp fail visit fuel c st d = some r := by
  induction hl with
  | @nil c hs =>
    rintro st d rfl
    exact ⟨1, dirWalk_stops hv hs st⟩
  | @link c l hns _ ih =>
    rintro st d rfl
    have hc : c < FAT_EOC := Nat.lt_of_not_le fun h => hns (.inl h)
    exact dirWalk_unroll hv hc fun st' d' hacc _ => ih st' d' hacc.sectors

theorem dirWalk_of_fault (hv : StopsAt visit Stops) (c : Nat) (st : S) (d : Disk)
    (hf : true ∈ d.faults) : ∃ fuel r, dirWalk fp fail visit fuel c st d = some r := by
  generalize hn : d.faults.length = n
  induction n using Nat.strong_induction_on generalizing c st d with
  | _ n ih =>
    by_cases hc : c < FAT_EOC
    · refine dirWalk_unroll hv hc fun st' d' hacc hlen => ?_
      obtain hlt | hnil := hlen
      · exact ih _ (by omega) _ st' d' (hacc.keeps hf) rfl
      · rw [hnil] at hf
        cases hf
    · exact ⟨1, dirWalk_stops hv (.inl (Nat.le_of_not_lt hc)) st⟩

theorem dirWalk_iff (hv : StopsAt visit Stops) (c : Nat) (st : S) (d : Disk) :
    (∃ fuel r, dirWalk fp fail visit fuel c st d = some r) ↔ DirEnds fp d Stops c := by
  rw [dirEnds_iff_chain]
  constructor
  · rintro ⟨fuel, r, h⟩
    exact ends_of_dirWalk hv h
  · rintro (hf | ⟨l, hl⟩)
    · exact dirWalk_of_fault hv c st d hf
    · exact dirWalk_of_chain hv hl st d rfl

end Walk

-- ---------------------------------------------------------------------------
-- The entry at which a walk returns
-- ---------------------------------------------------------------------------

section Point

variable {R : Type} {fp : FatPrivate} {failed : R}
  {visit : Nat → Nat → Bytes → Unit → Disk → Visit R Unit} {Stops : Bytes → Nat → Prop}
  [∀ buf off, Decidable (Stops buf off)] {act : Nat → Nat → Bytes → Disk → R × Disk}

/-- A walk that only looks for the entry: its sector, its offset and the sector's bytes. -/
def pointVisit (Stops : Bytes → Nat → Prop) [∀ buf off, Decidable (Stops buf off)]
    (lba off : Nat) (buf : Bytes) (_ : Unit) (d : Disk) :
    Visit (Option (Nat × Nat × Bytes)) Unit :=
  if Stops buf off then .done (some (lba, off, buf)) d else .next ()

theorem pointVisit_stops : StopsAt (pointVisit Stops) Stops where
  stop _ _ _ _ _ h := ⟨_, _, if_pos h⟩
  go _ _ _ _ _ h := ⟨_, if_neg h⟩

/-- What a function returns that does `act` at the entry. -/
def atPoint (failed : R) (act : Nat → Nat → Bytes → Disk → R × Disk) :
    (Option (Nat × Nat × Bytes) ⊕ Unit) × Disk → (R ⊕ Unit) × Disk
  | (.inl none, d) => (.inl failed, d)
  | (.inl (some (lba, off, buf)), d) => (.inl (act lba off buf d).1, (act lba off buf d).2)
  | (.inr (), d) => (.inr (), d)

theorem dirWalkCluster_point
    (hact : ∀ lba off buf d, visit lba off buf () d =
      if Stops buf off then .done (act lba off buf d).1 (act lba off buf d).2 else .next ())
    (lba k e : Nat) (buf : Bytes) (d : Disk) :
    dirWalkCluster (fun _ => failed) visit lba k e buf () d =
      atPoint failed act
        (dirWalkCluster (fun _ => none) (pointVisit Stops) lba k e buf () d) := by
  induction k generalizing e buf d with
  | zero => rfl
  | succ k ih =>
    rw [dirWalkCluster, dirWalkCluster]
    generalize (if e * 32 / 512 = 0 ∨ e * 32 % 512 = 0 then
      ataReadSectors d ((lba + e * 32 / 512) % 2 ^ 32) else (some buf, d)) = r
    cases r.1 with
    | none => rfl
    | some buf =>
      dsimp only
      rw [hact, pointVisit]
      by_cases hs : Stops buf (e * 32 % 512)
      · rw [if_pos hs, if_pos hs]
        rfl
      · rw [if_neg hs, if_neg hs]
        exact ih _ _ _

theorem dirWalk_point
    (hact : ∀ lba off buf d, visit lba off buf () d =
      if Stops buf off then .done (act lba off buf d).1 (act lba off buf d).2 else .next ())
    (fuel c : Nat) (d : Disk) :
    dirWalk fp (fun _ => failed) visit fuel c () d =
      (dirWalk fp (fun _ => none) (pointVisit Stops) fuel c () d).map (atPoint failed act) := by
  induction fuel generalizing c d with
  | zero => rfl
  | succ fuel ih =>
    rw [dirWalk, dirWalk, dirWalkCluster_point hact]
    by_cases hc : c < FAT_EOC
    · rw [if_pos hc, if_pos hc]
      generalize dirWalkCluster (fun _ => none) (pointVisit Stops) (fatClusterToLba fp c)
        (fp.bytesPerCluster / 32) 0 (fun _ => 0) () d = r
      obtain ⟨(_ | ⟨lba, off, buf⟩) | _, d'⟩ := r
      · rfl
      · rfl
      · exact ih _ _
    · rw [if_neg hc, if_neg hc]
      rfl

end Point

-- ---------------------------------------------------------------------------
-- The three functions
-- ---------------------------------------------------------------------------

section Functions

variable {fp : FatPrivate} {d : Disk}

/-- Behind it there are no entries; `fat_readdir` returns at it. -/
def LastEntry (buf : Bytes) (off : Nat) : Prop := buf off = 0

/-- `fat_create` returns at it, whether it succeeds or not. -/
def FreeEntry (buf : Bytes) (off : Nat) : Prop := buf off = 0 ∨ buf off = 0xE5

/-- `fat_unlink` returns at it. -/
def LastOrNamed (fatName : FatName) (buf : Bytes) (off : Nat) : Prop :=
  buf off = 0 ∨ (deSkipped buf off = false ∧ deName buf off = fatName)

instance (fatName : FatName) (buf : Bytes) (off : Nat) : Decidable (LastOrNamed fatName buf off) :=
  inferInstanceAs (Decidable (_ ∨ _))

theorem readdirVisit_stops (node : Nat) : StopsAt (readdirVisit node) LastEntry where
  stop _ _ _ st d h := ⟨st, d, if_pos h⟩
  go _ _ _ _ _ h := by
    rw [LastEntry] at h
    rw [readdirVisit, if_neg h]
    split
    · exact ⟨_, rfl⟩
    · dsimp only
      split
      · exact ⟨_, rfl⟩
      · split <;> exact ⟨_, rfl⟩

theorem createVisit_stops (fp : FatPrivate) (t : Tree) (parent : Nat) (name : CStr)
    (fatName : FatName) (flags : Nat) :
    StopsAt (createVisit fp t parent name fatName flags) FreeEntry where
  stop _ off buf _ _ h := by
    have hfree : ¬(buf off ≠ 0 ∧ buf off ≠ 0xE5) := by
      rintro ⟨h1, h2⟩
      exact h.elim h1 h2
    rw [createVisit, if_neg hfree]
    split
    split
    · exact ⟨_, _, rfl⟩
    · dsimp only
      split
      · exact ⟨_, _, rfl⟩
      · split <;> exact ⟨_, _, rfl⟩
  go _ _ _ _ _ h := by
    rw [FreeEntry, not_or] at h
    exact ⟨(), if_pos h⟩

/-- What `fat_unlink` does at the entry where it returns; `none` while it frees the chain. -/
def unlinkAct (fp : FatPrivate) (fuel lba off : Nat) (buf : Bytes) (d : Disk) :
    Option Int × Disk :=
  if buf off = 0 then (some (-1), (ataWriteSectors d lba buf).2)
  else
    match ataWriteSectors d lba (setByte buf off 0xE5) with
    | (false, d) => (some (-1), d)
    | (true, d) =>
      if 2 ≤ deCluster buf off ∧ deCluster buf off < FAT_EOC then
        match fatFreeClusterChain fp fuel (deCluster buf off) d with
        | none => (none, d)
        | some d => (some 0, d)
      else (some 0, d)

theorem unlinkVisit_eq (fp : FatPrivate) (fuel : Nat) (fatName : FatName) (lba off : Nat)
    (buf : Bytes) (d : Disk) :
    unlinkVisit fp fuel fatName lba off buf () d =
      if LastOrNamed fatName buf off then
        .done (unlinkAct fp fuel lba off buf d).1 (unlinkAct fp fuel lba off buf d).2
      else .next () := by
  rw [unlinkVisit, unlinkAct]
  by_cases h0 : buf off = 0
  · rw [if_pos h0, if_pos (show LastOrNamed fatName buf off from .inl h0), if_pos h0]
  · rw [if_neg h0, if_neg h0]
    by_cases hs : deSkipped buf off = true
    · rw [if_pos hs, if_neg]
      rintro (h | ⟨h, -⟩)
      · exact h0 h
      · rw [hs] at h
        cases h
    · rw [if_neg hs]
      by_cases hn : deName buf off = fatName
      · rw [if_neg (not_not.mpr hn),
          if_pos (show LastOrNamed fatName buf off from .inr ⟨eq_false_of_ne_true hs, hn⟩)]
        generalize ataWriteSectors d lba (setByte buf off 0xE5) = w
        obtain ⟨_ | _, d'⟩ := w
        · rfl
        · dsimp only
          by_cases hc : 2 ≤ deCluster buf off ∧ deCluster buf off < FAT_EOC
          · rw [if_pos hc, if_pos hc]
            cases fatFreeClusterChain fp fuel (deCluster buf off) d' <;> rfl
          · rw [if_neg hc, if_neg hc]
      · rw [if_pos hn, if_neg]
        rintro (h | ⟨-, h⟩)
        · exact h0 h
        · exact hn h

theorem fatReaddir_ends (fp : FatPrivate) (node : Nat) (t : Tree) (d : Disk) :
    (∃ fuel r, fatReaddir fp fuel node t d = some r) ↔ DirEnds fp d LastEntry (t.cluster node) := by
  rw [← dirWalk_iff (readdirVisit_stops node) (t.cluster node) (0, t) d]
  refine exists_congr fun fuel => ?_
  rw [fatReaddir]
  split
  · rename_i h
    rw [h]
    exact ⟨fun hr => absurd hr.choose_spec.symm (Option.some_ne_none _),
      fun hr => absurd hr.choose_spec.symm (Option.some_ne_none _)⟩
  · rename_i h
    rw [h]
    exact ⟨fun _ => ⟨_, rfl⟩, fun _ => ⟨_, rfl⟩⟩
  · rename_i h
    rw [h]
    exact ⟨fun _ => ⟨_, rfl⟩, fun _ => ⟨_, rfl⟩⟩

theorem fatReaddir_mono (fp : FatPrivate) (n : Nat) (t : Tree) (d : Disk) :
    FuelMono fun fuel => fatReaddir fp fuel n t d := by
  intro fuel r h
  dsimp only at h ⊢
  rw [fatReaddir] at h ⊢
  cases hw : dirWalk fp (fun st => (-1, st.2)) (readdirVisit n) fuel (t.cluster n) (0, t) d with
  | none =>
    rw [hw] at h
    cases h
  | some w =>
    have hw' := dirWalk_mono fp _ (readdirVisit n) (t.cluster n) (0, t) d fuel w hw
    dsimp only at hw'
    rw [hw] at h
    rw [hw']
    exact h

theorem fatCreate_ends (fp : FatPrivate) (parent : Nat) (name : CStr) (flags : Nat) (t : Tree)
    (d : Disk) :
    (∃ fuel r, fatCreate fp fuel parent name flags t d = some r) ↔
      (flags &&& (VFS_FILE ||| VFS_DIR) ≠ 0 → fatNameTo83 name ≠ none →
        DirEnds fp d FreeEntry (t.cluster parent)) := by
  by_cases hflags : flags &&& (VFS_FILE ||| VFS_DIR) = 0
  · refine ⟨fun _ h => absurd hflags h, fun _ => ⟨0, (none, t, d), ?_⟩⟩
    rw [fatCreate, if_pos hflags]
  · cases hname : fatNameTo83 name with
    | none =>
      refine ⟨fun _ _ h => absurd rfl h, fun _ => ⟨0, (none, t, d), ?_⟩⟩
      rw [fatCreate, if_neg hflags, hname]
    | some fatName =>
      have himp : (flags &&& (VFS_FILE ||| VFS_DIR) ≠ 0 → some fatName ≠ none →
          DirEnds fp d FreeEntry (t.cluster parent)) ↔
            DirEnds fp d FreeEntry (t.cluster parent) :=
        ⟨fun h => h hflags (Option.some_ne_none _), fun h _ _ => h⟩
      rw [himp, ← dirWalk_iff (createVisit_stops fp t parent name fatName flags)
        (t.cluster parent) () d]
      refine exists_congr fun fuel => ?_
      rw [fatCreate, if_neg hflags, hname]
      dsimp only
      split
      · rename_i h
        rw [h]
        exact ⟨fun hr => absurd hr.choose_spec.symm (Option.some_ne_none _),
          fun hr => absurd hr.choose_spec.symm (Option.some_ne_none _)⟩
      · rename_i h
        rw [h]
        exact ⟨fun _ => ⟨_, rfl⟩, fun _ => ⟨_, rfl⟩⟩
      · rename_i h
        rw [h]
        exact ⟨fun _ => ⟨_, rfl⟩, fun _ => ⟨_, rfl⟩⟩

/-- At its entry `fat_unlink` returns too: with enough rounds the chain is free. -/
theorem unlinkAct_returns (hf : TableFits fp) (lba off : Nat) (buf : Bytes) (d : Disk) :
    ∃ N, ∀ fuel, N ≤ fuel → (unlinkAct fp fuel lba off buf d).1 ≠ none := by
  obtain ⟨r, N, hN⟩ := fatFree_returns hf (deCluster buf off)
    (ataWriteSectors d lba (setByte buf off 0xE5)).2
  refine ⟨N, fun fuel hfuel => ?_⟩
  rw [unlinkAct]
  split
  · exact Option.some_ne_none _
  · split
    · exact Option.some_ne_none _
    · rename_i hw
      have h := hN fuel hfuel
      rw [hw] at h
      dsimp only at h
      rw [h]
      split <;> exact Option.some_ne_none _

theorem fatUnlink_ends (hf : TableFits fp) (parent : Nat) (name : CStr) (t : Tree) (d : Disk) :
    (∃ fuel r, fatUnlink fp fuel parent name t d = some r) ↔
      ∀ fatName, fatNameTo83 name = some fatName →
        DirEnds fp d (LastOrNamed fatName) (t.cluster parent) := by
  cases hname : fatNameTo83 name with
  | none =>
    refine ⟨fun _ fatName h => absurd h.symm (Option.some_ne_none _), fun _ =>
      ⟨0, (-1, d), ?_⟩⟩
    rw [fatUnlink, hname]
  | some fatName =>
    have himp : (∀ fatName', some fatName = some fatName' →
        DirEnds fp d (LastOrNamed fatName') (t.cluster parent)) ↔
          DirEnds fp d (LastOrNamed fatName) (t.cluster parent) :=
      ⟨fun h => h fatName rfl, fun h _ he => Option.some.inj he ▸ h⟩
    rw [himp, ← dirWalk_iff pointVisit_stops (t.cluster parent) () d]
    have hwalk : ∀ fuel, dirWalk fp (fun _ => some (-1)) (unlinkVisit fp fuel fatName) fuel
        (t.cluster parent) () d =
          (dirWalk fp (fun _ => none) (pointVisit (LastOrNamed fatName)) fuel
            (t.cluster parent) () d).map (atPoint (some (-1)) (unlinkAct fp fuel)) :=
      fun fuel => dirWalk_point (unlinkVisit_eq fp fuel fatName) fuel (t.cluster parent) d
    constructor
    · rintro ⟨fuel, r, h⟩
      rw [fatUnlink, hname] at h
      dsimp only at h
      rw [hwalk] at h
      cases hp : dirWalk fp (fun _ => none) (pointVisit (LastOrNamed fatName)) fuel
          (t.cluster parent) () d with
      | none =>
        rw [hp] at h
        cases h
      | some p => exact ⟨fuel, p, hp⟩
    · rintro ⟨n, p, hp⟩
      obtain ⟨N, hN⟩ := (dirWalk_mono fp _ _ _ _ _).returns hp
      dsimp only at hN
      obtain ⟨(_ | ⟨lba, off, buf⟩) | _, d'⟩ := p
      · refine ⟨N, (-1, d'), ?_⟩
        rw [fatUnlink, hname]
        dsimp only
        rw [hwalk, hN N (Nat.le_refl N)]
        rfl
      · obtain ⟨M, hM⟩ := unlinkAct_returns hf lba off buf d'
        have hact := hM (max N M) (Nat.le_max_right ..)
        obtain ⟨r, hr⟩ := Option.ne_none_iff_exists'.mp hact
        refine ⟨max N M, (r, (unlinkAct fp (max N M) lba off buf d').2), ?_⟩
        rw [fatUnlink, hname]
        dsimp only
        rw [hwalk, hN _ (Nat.le_max_left ..)]
        simp only [Option.map_some, atPoint, hr]
      · refine ⟨N, (-1, d'), ?_⟩
        rw [fatUnlink, hname]
        dsimp only
        rw [hwalk, hN N (Nat.le_refl N)]
        rfl

/-- Which walks end: those that meet a failing access, an end mark or an entry at which the
function returns. -/
theorem dirLoops_end_iff (hf : TableFits fp) (node : Nat) (name : CStr) (flags : Nat) (t : Tree)
    (d : Disk) :
    ((∃ fuel r, fatReaddir fp fuel node t d = some r) ↔
      DirEnds fp d LastEntry (t.cluster node)) ∧
    ((∃ fuel r, fatCreate fp fuel node name flags t d = some r) ↔
      (flags &&& (VFS_FILE ||| VFS_DIR) ≠ 0 → fatNameTo83 name ≠ none →
        DirEnds fp d FreeEntry (t.cluster node))) ∧
    ((∃ fuel r, fatUnlink fp fuel node name t d = some r) ↔
      ∀ fatName, fatNameTo83 name = some fatName →
        DirEnds fp d (LastOrNamed fatName) (t.cluster node)) :=
  ⟨fatReaddir_ends fp node t d, fatCreate_ends fp node name flags t d,
    fatUnlink_ends hf node name t d⟩

end Functions

theorem mirrored_fits : TableFits mirroredFp := by
  constructor <;> decide

/-- The entry at the start of a directory is the last one. -/
theorem readdir_returns :
    ∃ fuel r, fatReaddir mirroredFp fuel 0 (rootTree mirroredFp.bpb) mirroredDisk = some r :=
  (dirLoops_end_iff mirrored_fits 0 [] 0 (rootTree mirroredFp.bpb) mirroredDisk).1.mpr
    (.inr ⟨0, Nat.zero_le _, .inr ⟨0, by decide, show mirroredDisk.sectors _ _ = 0 by decide +kernel⟩⟩)

/-- A boot sector: one copy of a table of one sector, 8 clusters of one sector. -/
def cyclicBoot : Bytes :=
  let buf := putLE (putLE (putLE (fun _ => 0) 11 2 512) 13 1 1) 14 2 1
  let buf := putLE (putLE (putLE buf 16 1 1) 32 4 10) 36 4 1
  putLE (putLE buf 44 4 2) 66 1 0x29

/-- The cluster of the root directory is linked to itself, and all its entries are files
named `AAAAAAAA.AAA`. -/
def cyclicDisk : Disk where
  sectors n := if n = 0 then cyclicBoot else if n = 1 then putLE (fun _ => 0) 8 4 2
    else fun _ => 0x41
  faults := []

def cyclicFp : FatPrivate := fatPrivateOf (readBpb cyclicBoot)

theorem cyclic_not_ends (Stops : Bytes → Nat → Prop) (h : ∀ off, ¬ Stops (fun _ => 0x41) off) :
    ¬ DirEnds cyclicFp cyclicDisk Stops 2 := by
  have hlink : linkOf cyclicFp cyclicDisk.sectors 2 = 2 := by decide +kernel
  have hlba : fatClusterToLba cyclicFp 2 = 2 := by decide +kernel
  have hentries : cyclicFp.bytesPerCluster / 32 = 16 := by decide +kernel
  rintro (hf | ⟨k, -, hend⟩)
  · cases hf
  · rw [Function.iterate_fixed hlink] at hend
    obtain heoc | ⟨e, he, hs⟩ := hend
    · exact absurd heoc (by decide)
    · rw [hentries] at he
      have hsector : entrySector cyclicDisk.sectors 2 e = fun _ => 0x41 := by
        have : (2 + e * 32 / 512) % 2 ^ 32 % 2 ^ 28 = 2 := by omega
        rw [entrySector, this]
        rfl
      rw [hlba, hsector] at hs
      exact h _ hs

theorem cyclic_accepted : Accepted (readBpb cyclicBoot) :=
  ⟨by decide +kernel, .inl (by decide +kernel), by decide +kernel⟩

/-- A volume that is mounted, and whose root directory is never read to its end. -/
theorem cyclic_directory : ∃ fp t, (fatMount [] cyclicDisk).1 = some (fp, t) ∧ TableFits fp ∧
    t.root = some 0 ∧ (∀ fuel, fatReaddir fp fuel 0 t cyclicDisk = none) ∧
    (∀ fuel, fatCreate fp fuel 0 (cstr ['b']) VFS_FILE t cyclicDisk = none) ∧
    ∀ fuel, fatUnlink fp fuel 0 (cstr ['b']) t cyclicDisk = none := by
  have hfits : TableFits cyclicFp := by
    constructor <;> decide +kernel
  refine ⟨cyclicFp, rootTree (readBpb cyclicBoot), fatMount_accepts rfl cyclic_accepted, hfits, rfl,
    fun fuel => ?_, fun fuel => ?_, fun fuel => ?_⟩
  all_goals
    refine Option.eq_none_iff_forall_ne_some.mpr fun r h => ?_
  · refine cyclic_not_ends LastEntry (fun off h => ?_)
      ((fatReaddir_ends cyclicFp 0 _ cyclicDisk).mp ⟨fuel, r, h⟩)
    exact absurd (show (0x41 : UInt8) = 0 from h) (by decide)
  · refine cyclic_not_ends FreeEntry (fun off h => ?_)
      ((fatCreate_ends cyclicFp 0 _ _ _ cyclicDisk).mp ⟨fuel, r, h⟩ (by decide) (by decide))
    obtain h | h := h
    · exact absurd (show (0x41 : UInt8) = 0 from h) (by decide)
    · exact absurd (show (0x41 : UInt8) = 0xE5 from h) (by decide)
  · obtain ⟨fatName, hname⟩ := Option.ne_none_iff_exists'.mp
      (show fatNameTo83 (cstr ['b']) ≠ none by decide)
    refine cyclic_not_ends (LastOrNamed fatName) (fun off h => ?_)
      ((fatUnlink_ends hfits 0 _ _ cyclicDisk).mp ⟨fuel, r, h⟩ fatName hname)
    obtain h | ⟨-, h⟩ := h
    · exact absurd (show (0x41 : UInt8) = 0 from h) (by decide)
    · rw [← h] at hname
      exact absurd (show fatNameTo83 (cstr ['b']) =
        some ⟨List.replicate 8 0x41, List.replicate 3 0x41⟩ from hname) (by decide)

end EponaOS.Fs
