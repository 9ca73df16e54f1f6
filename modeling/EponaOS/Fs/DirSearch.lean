import EponaOS.Fs.DirSlots
import EponaOS.Fs.FatFree

/-!
# Searching a directory

A walk that ends at the first slot of some kind is a search for the slot and what is done there.
The search only reads. Accesses may fail: then it finds nothing, or it finds the same slot as on
a drive without errors.
-/

namespace EponaOS.Fs

open Bytes

variable {P : Bytes → Nat → Bool}

abbrev FoundSlot := Nat × Nat × Bytes

def findVisit (P : Bytes → Nat → Bool) (lba off : Nat) (buf : Bytes) (_ : Unit) (d : Disk) :
    Visit (Option FoundSlot) Unit :=
  if P buf off then .done (some (lba, off, buf)) d else .next ()

/-- The first slot that fits, in the directory whose first cluster is `cluster`. -/
def dirFind (fp : FatPrivate) (P : Bytes → Nat → Bool) (fuel cluster : Nat) (d : Disk) :
    Option (Option FoundSlot × Disk) :=
  (dirWalk fp (fun _ => none) (findVisit P) fuel cluster () d).map fun r =>
    (r.1.elim id fun _ => none, r.2)

-- ---------------------------------------------------------------------------
-- A walk as a search
-- ---------------------------------------------------------------------------

section Walk

variable {R : Type} {fp : FatPrivate} {visit : Nat → Nat → Bytes → Unit → Disk → Visit R Unit}
  {found : FoundSlot → Disk → R × Disk} {none' : R}

def afterFind (found : FoundSlot → Disk → R × Disk) (none' : R) : Option FoundSlot × Disk → R × Disk
  | (some s, d) => found s d
  | (none, d) => (none', d)

structure EndsAt (P : Bytes → Nat → Bool) (visit : Nat → Nat → Bytes → Unit → Disk → Visit R Unit)
    (found : FoundSlot → Disk → R × Disk) : Prop where
  fits : ∀ lba off buf d, P buf off = true →
    visit lba off buf () d = .done (found (lba, off, buf) d).1 (found (lba, off, buf) d).2
  goesOn : ∀ lba off buf d, P buf off = false → visit lba off buf () d = .next ()

def SameWalk (found : FoundSlot → Disk → R × Disk) (none' : R) (r : (R ⊕ Unit) × Disk)
    (r' : (Option FoundSlot ⊕ Unit) × Disk) : Prop :=
  (r = (.inr (), r'.2) ∧ r'.1 = .inr ()) ∨
    ∃ s, r'.1 = .inl s ∧ r = (.inl (afterFind found none' (s, r'.2)).1,
      (afterFind found none' (s, r'.2)).2)

theorem dirWalkCluster_find (hv : EndsAt P visit found) (none' : R) (lba k e : Nat) (buf : Bytes)
    (d : Disk) : SameWalk found none' (dirWalkCluster (fun _ => none') visit lba k e buf () d)
      (dirWalkCluster (fun _ => none) (findVisit P) lba k e buf () d) := by
  induction k generalizing e buf d with
  | zero => exact .inl ⟨rfl, rfl⟩
  | succ k ih =>
    rw [dirWalkCluster, dirWalkCluster]
    generalize (if e * 32 / 512 = 0 ∨ e * 32 % 512 = 0 then
      ataReadSectors d ((lba + e * 32 / 512) % 2 ^ 32) else (some buf, d)) = r
    obtain ⟨buf', d₁⟩ := r
    cases buf' with
    | none => exact .inr ⟨none, rfl, rfl⟩
    | some buf' =>
      dsimp only
      cases hp : P buf' (e * 32 % 512) with
      | true =>
        rw [hv.fits _ _ _ _ hp, findVisit, if_pos hp]
        exact .inr ⟨some _, rfl, rfl⟩
      | false =>
        rw [hv.goesOn _ _ _ _ hp, findVisit, if_neg (by rw [hp]; exact Bool.false_ne_true)]
        exact ih (e + 1) buf' d₁

theorem dirWalk_find (hv : EndsAt P visit found) (fuel c : Nat) (d : Disk) :
    (dirWalk fp (fun _ => none') visit fuel c () d).map
        (fun r => (r.1.elim id fun _ => none', r.2)) =
      (dirFind fp P fuel c d).map (afterFind found none') := by
  rw [dirFind]
  induction fuel generalizing c d with
  | zero => rfl
  | succ fuel ih =>
    rw [dirWalk, dirWalk]
    by_cases hc : c < FAT_EOC
    · rw [if_pos hc, if_pos hc]
      have hsame := dirWalkCluster_find hv none' (fatClusterToLba fp c)
        (fp.bytesPerCluster / 32) 0 (fun _ => 0) d
      generalize dirWalkCluster (fun _ => none') visit (fatClusterToLba fp c)
        (fp.bytesPerCluster / 32) 0 (fun _ => 0) () d = r at hsame ⊢
      generalize dirWalkCluster (fun _ => none) (findVisit P) (fatClusterToLba fp c)
        (fp.bytesPerCluster / 32) 0 (fun _ => 0) () d = r' at hsame ⊢
      obtain ⟨r', d'⟩ := r'
      obtain ⟨rfl, hr⟩ | ⟨s, hs, rfl⟩ := hsame
      · dsimp only at hr
        rw [hr]
        exact ih _ _
      · dsimp only at hs
        rw [hs]
        rfl
    · rw [if_neg hc, if_neg hc]
      rfl

end Walk

-- ---------------------------------------------------------------------------
-- What a search finds
-- ---------------------------------------------------------------------------

variable {fp : FatPrivate} {d d' : Disk} {l : List Nat} {c : Nat} {slots : List (Nat × Nat)}
  {sectors : Nat → Bytes} {r : Option FoundSlot}

def FirstSlot (P : Bytes → Nat → Bool) (sectors : Nat → Bytes) (slots : List (Nat × Nat))
    (s : FoundSlot) : Prop :=
  ∃ pre post, slots = pre ++ (s.1, s.2.1) :: post ∧ s.2.2 = sectors s.1 ∧ P s.2.2 s.2.1 = true ∧
    ∀ x ∈ pre, P (sectors x.1) x.2 = false

theorem FirstSlot.append (h : FirstSlot P sectors slots s) (more : List (Nat × Nat)) :
    FirstSlot P sectors (slots ++ more) s := by
  obtain ⟨pre, post, rfl, hrest⟩ := h
  exact ⟨pre, post ++ more, by simp, hrest⟩

theorem FirstSlot.prepend (h : FirstSlot P sectors slots s) {before : List (Nat × Nat)}
    (hb : ∀ x ∈ before, P (sectors x.1) x.2 = false) :
    FirstSlot P sectors (before ++ slots) s := by
  obtain ⟨pre, post, rfl, hbuf, hp, hpre⟩ := h
  refine ⟨before ++ pre, post, by simp, hbuf, hp, fun x hx => ?_⟩
  obtain hx | hx := List.mem_append.mp hx
  · exact hb x hx
  · exact hpre x hx

structure Reads (d d' : Disk) : Prop where
  sectors : d'.sectors = d.sectors
  faults : d'.faults <:+ d.faults

theorem Reads.refl (d : Disk) : Reads d d := ⟨rfl, List.suffix_refl _⟩

theorem Reads.trans {d₁ d₂ d₃ : Disk} (h : Reads d₁ d₂) (h' : Reads d₂ d₃) : Reads d₁ d₃ :=
  ⟨h'.sectors.trans h.sectors, h'.faults.trans h.faults⟩

theorem Reads.tick (d : Disk) : Reads d d.tick := ⟨rfl, d.tick_suffix⟩

theorem Reads.eq (hd : NoFaults d) (h : Reads d d') : d' = d := by
  obtain ⟨sectors, faults⟩ := d
  obtain ⟨sectors', faults'⟩ := d'
  obtain rfl : faults = [] := hd
  obtain ⟨hs, hf⟩ := h
  obtain rfl : sectors' = sectors := hs
  obtain rfl : faults' = [] := List.suffix_nil.mp hf
  rfl

theorem ataReadSectors_reads (d : Disk) (lba : Nat) : Reads d (ataReadSectors d lba).2 := by
  obtain ⟨h, -⟩ | ⟨h, -⟩ := ataReadSectors_cases d lba <;> rw [h] <;> exact .tick d

/-- Over the entries of a cluster from number `e` on: the search fails, finds the first slot that
fits, or goes on where none does. -/
theorem findCluster_spec (hg : Geometry fp) (hlba : lba + fp.bpb.sectorsPerCluster ≤ 2 ^ 28)
    (he : e + k = fp.bytesPerCluster / 32)
    (hbuf : e * 32 / 512 = 0 ∨ e * 32 % 512 = 0 ∨ buf = d.sectors (lba + e * 32 / 512))
    (h : dirWalkCluster (fun _ => none) (findVisit P) lba k e buf () d = (res, d')) :
    Reads d d' ∧ (res = .inl none ∨
      (∃ s, res = .inl (some s) ∧ FirstSlot P d.sectors
        ((List.range' e k).map fun e => (lba + e * 32 / 512, e * 32 % 512)) s) ∨
      (res = .inr () ∧ ∀ x ∈ (List.range' e k).map fun e => (lba + e * 32 / 512, e * 32 % 512),
        P (d.sectors x.1) x.2 = false)) := by
  induction k generalizing e buf d with
  | zero =>
    cases h
    exact ⟨.refl _, .inr (.inr ⟨rfl, fun x hx => by cases hx⟩)⟩
  | succ k ih =>
    have hlt := slot_lt hg (show e < fp.bytesPerCluster / 32 by omega)
    have hmod : (lba + e * 32 / 512) % 2 ^ 32 = lba + e * 32 / 512 := Nat.mod_eq_of_lt (by omega)
    have hmod' : (lba + e * 32 / 512) % 2 ^ 28 = lba + e * 32 / 512 := Nat.mod_eq_of_lt (by omega)
    rw [dirWalkCluster, hmod] at h
    -- the buffer holds the sector of the entry, unless reading it fails
    have hread : ∃ d₁, Reads d d₁ ∧
        ((if e * 32 / 512 = 0 ∨ e * 32 % 512 = 0 then ataReadSectors d (lba + e * 32 / 512)
          else (some buf, d)) = (none, d₁) ∨
        (if e * 32 / 512 = 0 ∨ e * 32 % 512 = 0 then ataReadSectors d (lba + e * 32 / 512)
          else (some buf, d)) = (some (d.sectors (lba + e * 32 / 512)), d₁)) := by
      by_cases hr : e * 32 / 512 = 0 ∨ e * 32 % 512 = 0
      · rw [if_pos hr]
        obtain ⟨h, -⟩ | ⟨h, -⟩ := ataReadSectors_cases d (lba + e * 32 / 512)
        · exact ⟨d.tick, .tick d, .inl h⟩
        · rw [hmod'] at h
          exact ⟨d.tick, .tick d, .inr h⟩
      · obtain h | h | h := hbuf
        · exact absurd (.inl h) hr
        · exact absurd (.inr h) hr
        · rw [if_neg hr, h]
          exact ⟨d, .refl d, .inr rfl⟩
    obtain ⟨d₁, hreads, hr | hr⟩ := hread
    · rw [hr] at h
      cases h
      exact ⟨hreads, .inl rfl⟩
    · rw [hr] at h
      dsimp only at h
      rw [List.range'_succ, List.map_cons]
      cases hp : P (d.sectors (lba + e * 32 / 512)) (e * 32 % 512) with
      | true =>
        rw [findVisit, if_pos hp] at h
        cases h
        exact ⟨hreads, .inr (.inl ⟨_, rfl, [], _, rfl, rfl, hp, fun x hx => by cases hx⟩)⟩
      | false =>
        rw [findVisit, if_neg (by rw [hp]; exact Bool.false_ne_true)] at h
        have hbuf' : (e + 1) * 32 / 512 = 0 ∨ (e + 1) * 32 % 512 = 0 ∨
            d.sectors (lba + e * 32 / 512) = d₁.sectors (lba + (e + 1) * 32 / 512) := by
          by_cases h0 : (e + 1) * 32 % 512 = 0
          · exact .inr (.inl h0)
          · have : (e + 1) * 32 / 512 = e * 32 / 512 := by omega
            rw [hreads.sectors, this]
            exact .inr (.inr rfl)
        obtain ⟨hreads', hres⟩ := ih (by omega) hbuf' h
        rw [hreads.sectors] at hres
        have hfirst : ∀ x ∈ [(lba + e * 32 / 512, e * 32 % 512)], P (d.sectors x.1) x.2 = false := by
          intro x hx
          rw [List.mem_singleton.mp hx]
          exact hp
        refine ⟨hreads.trans hreads', ?_⟩
        obtain hres | ⟨s, hres, hs⟩ | ⟨hres, hno⟩ := hres
        · exact .inl hres
        · exact .inr (.inl ⟨s, hres, hs.prepend hfirst⟩)
        · refine .inr (.inr ⟨hres, fun x hx => ?_⟩)
          obtain rfl | hx := List.mem_cons.mp hx
          · exact hp
          · exact hno x hx

theorem linkOf_valid (hg : Geometry fp) (hc : Valid fp c) (d : Disk) :
    linkOf fp d.sectors c = fatEntry fp d.image c := by
  have h := fatNextCluster_eq (d := ⟨d.sectors, []⟩) hg rfl hc.2
  obtain ⟨-, hf⟩ | ⟨hlink, -⟩ := fatNextCluster_cases fp ⟨d.sectors, []⟩ c
  · cases hf
  · exact congrArg Prod.fst (hlink.symm.trans h)

theorem findWalk_spec (hg : Geometry fp) (hl : FatChain fp d.image c l)
    (h : dirWalk fp (fun _ => none) (findVisit P) fuel c () d = some (res, d')) :
    Reads d d' ∧ ∀ s, res = .inl (some s) → FirstSlot P d.sectors (dirSlots fp l) s := by
  obtain ⟨hchain, hvalid⟩ := hl
  generalize hm : d.image = m at hchain
  induction hchain generalizing fuel d with
  | nil hs =>
    cases fuel with
    | zero => cases h
    | succ fuel =>
      rw [dirWalk, if_neg (Nat.not_lt.mpr hs)] at h
      cases h
      exact ⟨.refl _, fun s hs => by cases hs⟩
  | @link c l hns hchain ih =>
    cases fuel with
    | zero => cases h
    | succ fuel =>
      have hc := hvalid c List.mem_cons_self
      rw [dirWalk, if_pos (Nat.lt_of_not_le hns)] at h
      rcases hw : dirWalkCluster (fun _ => none) (findVisit P) (fatClusterToLba fp c)
        (fp.bytesPerCluster / 32) 0 (fun _ => 0) () d with ⟨res', d₁⟩
      rw [hw] at h
      rw [fatClusterToLba_eq hg hc] at hw
      obtain ⟨hreads, hres⟩ := findCluster_spec hg (clusterLba_lt hg hc) (Nat.zero_add _) (.inl rfl) hw
      rw [dirSlots, List.flatMap_cons, clusterSlots, List.range_eq_range']
      obtain rfl | ⟨s, rfl, hs⟩ | ⟨rfl, hno⟩ := hres
      · cases h
        exact ⟨hreads, fun s hs => by cases hs⟩
      · cases h
        refine ⟨hreads, fun s' hs' => ?_⟩
        cases hs'
        exact hs.append _
      · dsimp only at h
        -- a link that cannot be read ends the search
        obtain ⟨hnext, -⟩ | ⟨hnext, -⟩ := fatNextCluster_cases fp d₁ c
        · rw [hnext] at h
          cases fuel with
          | zero => cases h
          | succ fuel =>
            rw [dirWalk, if_neg (Nat.lt_irrefl _)] at h
            cases h
            exact ⟨hreads.trans (.tick d₁), fun s hs => by cases hs⟩
        · have himage : d₁.tick.image = d.image := Disk.image_congr hreads.sectors
          rw [hnext, linkOf_valid hg hc, show d₁.image = d₁.tick.image from rfl, himage, hm] at h
          obtain ⟨hreads', hfound⟩ := ih h
            (fun x hx => hvalid x (List.mem_cons_of_mem _ hx)) (himage.trans hm)
          refine ⟨(hreads.trans (.tick d₁)).trans hreads', fun s hs => ?_⟩
          have hfirst := hfound s hs
          rw [show d₁.tick.sectors = d.sectors from hreads.sectors] at hfirst
          exact hfirst.prepend hno

theorem dirFind_spec (hg : Geometry fp) (hl : FatChain fp d.image c l)
    (h : dirFind fp P fuel c d = some (r, d')) :
    Reads d d' ∧ ∀ s, r = some s → FirstSlot P d.sectors (dirSlots fp l) s := by
  obtain ⟨⟨res, d₁⟩, hwalk, heq⟩ := Option.map_eq_some_iff.mp h
  cases heq
  obtain ⟨hreads, hfound⟩ := findWalk_spec hg hl hwalk
  refine ⟨hreads, fun s hs => hfound s ?_⟩
  cases res with
  | inl o => exact congrArg Sum.inl hs
  | inr => cases hs

def foundAt (sectors : Nat → Bytes) (s : Nat × Nat) : FoundSlot := (s.1, s.2, sectors s.1)

theorem visitSlots_find (P : Bytes → Nat → Bool) (d : Disk) (slots : List (Nat × Nat)) :
    visitSlots (findVisit P) d slots () = ((slots.find? fun s => P (d.sectors s.1) s.2).elim
      (.inr ()) fun s => .inl (some (foundAt d.sectors s)), d) := by
  induction slots with
  | nil => rfl
  | cons s slots ih =>
    rw [visitSlots, List.find?_cons, findVisit]
    cases P (d.sectors s.1) s.2 with
    | true => rfl
    | false => exact ih

theorem dirFind_noFaults (hg : Geometry fp) (hd : NoFaults d) (hl : FatChain fp d.image c l) :
    Returns (fun fuel => dirFind fp P fuel c d)
      (((dirSlots fp l).find? fun s => P (d.sectors s.1) s.2).map (foundAt d.sectors), d) := by
  have hwalk : Returns (fun fuel => dirWalk fp (fun _ => none) (findVisit P) fuel c () d)
      (visitSlots (findVisit P) d (dirSlots fp l) ()) := dirWalk_slots hg hd hl ()
  have h := hwalk.map fun r => (r.1.elim id fun _ => none, r.2)
  rw [visitSlots_find] at h
  unfold dirFind
  cases hf : (dirSlots fp l).find? fun s => P (d.sectors s.1) s.2 <;>
    · rw [hf] at h
      exact h

end EponaOS.Fs
