import EponaOS.Fs.FatCopies
import Mathlib.Data.Finset.Sort
import Mathlib.Data.List.GetD

/-!
# What a write does

The loops of `fat_write` on a sound chain: the chain is walked, and grown out of the free
clusters where it ends; in each cluster a run of bytes is replaced. The run in the first
cluster can be shorter than what the cluster has room for (`firstRun`), and what is left
then goes to the start of the following one.
-/

namespace EponaOS.Fs

open Bytes

/-- The chain `l` from `c` became `l'`: free clusters were put behind it, and no entry but
those of the chain changed. -/
structure Grown (fp : FatPrivate) (c : Nat) (m m' : Bytes) (l l' : List Nat) : Prop where
  chain : FatChain fp m' c l'
  pre : l <+: l'
  fresh : ∀ x ∈ l', x ∉ l → fatEntry fp m x = 0
  entry : ∀ x, Valid fp x → x ∉ l' → fatEntry fp m' x = fatEntry fp m x

def freeList (fp : FatPrivate) (m : Bytes) : List Nat := (freeClusters fp m).sort

structure GrownInOrder (fp : FatPrivate) (c : Nat) (m m' : Bytes) (l l' : List Nat) : Prop
    extends Grown fp c m m' l l' where
  order : ∃ t, l' = l ++ t ∧ freeList fp m = t ++ freeList fp m'

def chainAddr (fp : FatPrivate) (l : List Nat) (j : Nat) : Nat :=
  clusterAddr fp (l.getD (j / fp.bytesPerCluster) 0) + j % fp.bytesPerCluster

def chainByte (fp : FatPrivate) (m : Bytes) (l : List Nat) (j : Nat) : UInt8 := m (chainAddr fp l j)

/-- How many of the `rest` bytes to write `fat_write` puts into a cluster of `cs` bytes from
`o` on: the number of sectors is computed from the bytes alone, whatever `o` is. -/
def firstRun (cs o rest : Nat) : Nat :=
  min rest (512 * ((min (cs - o) rest + 511) / 512) - o % 512)

/-- The clusters that a chain has gained, and the one they were linked behind. -/
def Linked (l l' : List Nat) (x : Nat) : Prop :=
  x ∈ l' ∧ (x ∉ l ∨ (l.length < l'.length ∧ l.getLast? = some x))

def LinkSector (fp : FatPrivate) (l l' : List Nat) (n : Nat) : Prop :=
  ∃ x, Linked l l' x ∧ EntrySector fp x n

def ClusterSector (fp : FatPrivate) (x n : Nat) : Prop :=
  clusterLba fp x ≤ n ∧ n < clusterLba fp x + fp.bpb.sectorsPerCluster

def WriteSector (fp : FatPrivate) (l l' : List Nat) (n : Nat) : Prop :=
  LinkSector fp l l' n ∨ ∃ x ∈ l', ClusterSector fp x n

def clustersFor (cs n : Nat) : Nat := (n + cs - 1) / cs

variable {fp : FatPrivate} {d d' : Disk} {m m' m'' : Bytes} {c x i j o n : Nat} {l l' l'' : List Nat}

-- ---------------------------------------------------------------------------
-- Growing
-- ---------------------------------------------------------------------------

theorem Grown.refl (h : FatChain fp m c l) : Grown fp c m m l l :=
  ⟨h, List.prefix_refl l, fun _ hx hn => absurd hx hn, fun _ _ _ => rfl⟩

theorem Grown.trans (h : Grown fp c m m' l l') (h' : Grown fp c m' m'' l' l'') :
    Grown fp c m m'' l l'' := by
  refine ⟨h'.chain, h.pre.trans h'.pre, fun x hx hn => ?_, fun x hv hx => ?_⟩
  · by_cases hx' : x ∈ l'
    · exact h.fresh x hx' hn
    · rw [← h.entry x (h'.chain.2 x hx) hx']
      exact h'.fresh x hx hx'
  · rw [h'.entry x hv hx]
    exact h.entry x hv fun hx' => hx (h'.pre.subset hx')

theorem Grown.of_table (h : Grown fp c m m' l l') (hg : Geometry fp)
    (ht : ∀ a, InTable fp a → m'' a = m' a) : Grown fp c m m'' l l' := by
  have he : ∀ x, Valid fp x → fatEntry fp m'' x = fatEntry fp m' x := fun x hv =>
    fatEntry_congr fun i hi => ht _ (fatAddr_table hg hv hi)
  exact ⟨h.chain.congr fun x hx => he x (h.chain.2 x hx), h.pre, h.fresh,
    fun x hv hx => (he x hv).trans (h.entry x hv hx)⟩

theorem GrownInOrder.refl (h : FatChain fp m c l) : GrownInOrder fp c m m l l :=
  ⟨.refl h, [], (List.append_nil l).symm, (List.nil_append _).symm⟩

theorem GrownInOrder.trans (h : GrownInOrder fp c m m' l l') (h' : GrownInOrder fp c m' m'' l' l'') :
    GrownInOrder fp c m m'' l l'' := by
  obtain ⟨t, hl, hfree⟩ := h.order
  obtain ⟨t', hl', hfree'⟩ := h'.order
  refine ⟨h.toGrown.trans h'.toGrown, t ++ t', ?_, ?_⟩
  · rw [hl', hl, List.append_assoc]
  · rw [hfree, hfree', List.append_assoc]

theorem GrownInOrder.of_table (h : GrownInOrder fp c m m' l l') (hg : Geometry fp)
    (ht : ∀ a, InTable fp a → m'' a = m' a) : GrownInOrder fp c m m'' l l' := by
  obtain ⟨t, hl, hfree⟩ := h.order
  have he : ∀ x, Valid fp x → fatEntry fp m'' x = fatEntry fp m' x := fun x hv =>
    fatEntry_congr fun i hi => ht _ (fatAddr_table hg hv hi)
  refine ⟨h.toGrown.of_table hg ht, t, hl, ?_⟩
  rw [hfree, freeList, freeList, freeClusters_congr he]

theorem freeList_cons (hmem : x ∈ freeClusters fp m) (hleast : ∀ y ∈ freeClusters fp m, x ≤ y)
    (hset : ∀ y, Valid fp y → y ≠ x → (fatEntry fp m' y = 0 ↔ fatEntry fp m y = 0))
    (hx : fatEntry fp m' x ≠ 0) : freeList fp m = x :: freeList fp m' := by
  have hfree : freeClusters fp m = insert x (freeClusters fp m') := by
    ext y
    rw [Finset.mem_insert, mem_freeClusters, mem_freeClusters]
    by_cases hy : y = x
    · subst hy
      exact ⟨fun _ => .inl rfl, fun _ => mem_freeClusters.mp hmem⟩
    · constructor
      · exact fun h => .inr ⟨h.1, (hset y h.1 hy).mpr h.2⟩
      · exact fun h => ⟨(h.resolve_left hy).1, (hset y (h.resolve_left hy).1 hy).mp (h.resolve_left hy).2⟩
  have hnot : x ∉ freeClusters fp m' := fun h => hx (mem_freeClusters.mp h).2
  have hlow : ∀ y ∈ freeClusters fp m', x ≤ y := by
    intro y hy
    refine hleast y ?_
    rw [hfree]
    exact Finset.mem_insert_of_mem hy
  rw [freeList, hfree, Finset.sort_insert _ hlow hnot, freeList]

theorem Grown.count (h : Grown fp c m m' l l') (hl : FatChain fp m c l) :
    (freeClusters fp m').card + l'.length = (freeClusters fp m).card + l.length := by
  obtain ⟨t, rfl⟩ := h.pre
  have hnd := List.nodup_append.mp h.chain.nodup
  have ht : ∀ x ∈ t, x ∉ l := fun x hx hxl => hnd.2.2 x hxl x hx rfl
  have hfree : freeClusters fp m = freeClusters fp m' ∪ t.toFinset := by
    ext x
    simp only [Finset.mem_union, mem_freeClusters, List.mem_toFinset]
    constructor
    · rintro ⟨hv, h0⟩
      by_cases hx : x ∈ l ++ t
      · obtain hx | hx := List.mem_append.mp hx
        · exact absurd h0 (hl.entry_ne_zero hx)
        · exact .inr hx
      · exact .inl ⟨hv, (h.entry x hv hx).trans h0⟩
    · rintro (⟨hv, h0⟩ | hx)
      · refine ⟨hv, ?_⟩
        rw [← h.entry x hv fun hx => h.chain.entry_ne_zero hx h0]
        exact h0
      · exact ⟨h.chain.2 x (List.mem_append_right _ hx),
          h.fresh x (List.mem_append_right _ hx) (ht x hx)⟩
  have hdis : Disjoint (freeClusters fp m') t.toFinset := by
    rw [Finset.disjoint_left]
    intro x hx hxt
    exact h.chain.entry_ne_zero (List.mem_append_right _ (List.mem_toFinset.mp hxt))
      (mem_freeClusters.mp hx).2
  rw [hfree, Finset.card_union_of_disjoint hdis, List.toFinset_card_of_nodup hnd.2.1,
    List.length_append]
  omega

theorem Linked.grow (h : Linked l l' x) (hpre : l' <+: l'') : Linked l l'' x := by
  refine ⟨hpre.subset h.1, h.2.imp_right fun hlast => ⟨?_, hlast.2⟩⟩
  exact Nat.lt_of_lt_of_le hlast.1 hpre.length_le

theorem Linked.since (h : Linked l' l'' x) (hpre : l <+: l') (hnd : l'.Nodup) :
    Linked l l'' x := by
  obtain ⟨hx, hnew | ⟨hlen, hlast⟩⟩ := h
  · exact ⟨hx, .inl fun hl => hnew (hpre.subset hl)⟩
  · obtain ⟨t, rfl⟩ := hpre
    by_cases ht : t = []
    · subst ht
      rw [List.append_nil] at hlen hlast
      exact ⟨hx, .inr ⟨hlen, hlast⟩⟩
    · rw [List.getLast?_append_of_ne_nil l ht] at hlast
      have hxt := List.mem_of_getLast? hlast
      exact ⟨hx, .inl fun hl => (List.nodup_append.mp hnd).2.2 x hl x hxt rfl⟩

theorem LinkSector.grow (h : LinkSector fp l l' n) (hpre : l' <+: l'') :
    LinkSector fp l l'' n := by
  obtain ⟨x, hx, hn⟩ := h
  exact ⟨x, hx.grow hpre, hn⟩

theorem LinkSector.since (h : LinkSector fp l' l'' n) (hpre : l <+: l') (hnd : l'.Nodup) :
    LinkSector fp l l'' n := by
  obtain ⟨x, hx, hn⟩ := h
  exact ⟨x, hx.since hpre hnd, hn⟩

theorem fatAllocCluster_first (hg : Geometry fp) (hd : NoFaults d) (h : fatAllocCluster fp d = (x, d'))
    (h0 : x ≠ 0) : ∀ y ∈ freeClusters fp d.image, x ≤ y := by
  obtain ⟨z, he, hleast⟩ | ⟨he, -⟩ := fatAllocCluster_least hg.table hd
  · cases he.symm.trans h
    exact fun y hy => hleast.2 (mem_freeClusters.mp hy)
  · cases he.symm.trans h
    exact absurd rfl h0

/-- The cluster behind the one at `i`: the chain has it, gets it, or the volume is full. -/
theorem fatNextOrNew_spec (hg : Geometry fp) (hd : NoFaults d) (hl : FatChain fp d.image c l)
    (hi : i < l.length) :
    (fatNextOrNew fp d l[i] = (0, true, d) ∧ i + 1 = l.length ∧
      freeClusters fp d.image = ∅) ∨
    ∃ y new d₁ d' l', fatNextOrNew fp d l[i] = (y, new, d₁) ∧ y ≠ 0 ∧
      (if new then (fatSetCluster fp d₁ l[i] y).2 else d₁) = d' ∧ NoFaults d' ∧
      GrownInOrder fp c d.image d'.image l l' ∧ (∀ a, ¬ InTable fp a → d'.image a = d.image a) ∧
      Touches (LinkSector fp l l') d d' ∧
      l'[i + 1]? = some y ∧ l'.length = max l.length (i + 2) := by
  have hv : Valid fp l[i] := hl.2 _ (List.getElem_mem hi)
  have hnext := fatNextCluster_eq hg hd hv.2
  by_cases hlast : i + 1 < l.length
  · -- the chain goes on
    refine .inr ⟨l[i + 1], false, d, d, l, ?_, ?_, rfl, hd, .refl hl, fun _ _ => rfl, .refl _ d, ?_,
      by omega⟩
    · have hv1 := hl.2 _ (List.getElem_mem hlast)
      have he := hl.1.next_getElem hlast
      have hlt := hv1.lt_eoc hg
      have h2 := hv1.1
      rw [fatNextOrNew, hnext, he]
      dsimp only
      rw [if_neg (by omega)]
    · have := (hl.2 _ (List.getElem_mem hlast)).1
      omega
    · exact List.getElem?_eq_getElem hlast
  · have hlen : i + 1 = l.length := by omega
    have hstop : FAT_EOC ≤ fatEntry fp d.image l[i] := hl.1.stop_next hlen
    have hon : fatNextOrNew fp d l[i] = ((fatAllocCluster fp d).1, true, (fatAllocCluster fp d).2) := by
      rw [fatNextOrNew, hnext]
      dsimp only
      rw [if_pos (.inl hstop)]
    obtain ⟨y, d₁, he, hfree, hd₁, hset⟩ | ⟨he, hnone⟩ := fatAllocCluster_spec hg hd
    · right
      obtain ⟨hvy, h0⟩ := mem_freeClusters.mp hfree
      have hleast := fatAllocCluster_first hg hd he (by have := hvy.1; omega)
      have hy : y ∉ l := fun hm => hl.entry_ne_zero hm h0
      have hyi : y ≠ l[i] := fun h => hy (h ▸ List.getElem_mem hi)
      obtain ⟨d₂, he₂, hd₂, hset₂⟩ := fatSetCluster_spec hg hd₁ hv.2 y
      have hylt := hvy.lt_eoc hg
      have hmod : y % 2 ^ 28 = y := Nat.mod_eq_of_lt (by unfold FAT_EOC at hylt; omega)
      rw [hmod] at hset₂
      have hentry : ∀ z, Valid fp z → fatEntry fp d₂.image z =
          if z = l[i] then y else if z = y then FAT_EOC else fatEntry fp d.image z := by
        intro z hz
        rw [hset₂.entry z hz, hset.entry z hz]
      have hother : ∀ a, ¬ InTable fp a → d₂.image a = d.image a := fun a ha =>
        (hset₂.other a ha).trans (hset.other a ha)
      have hchain : FatChain fp d₂.image c (l ++ [y]) := by
        refine ⟨hl.1.extend hlen (fun z hz hne => ?_) ?_ (Nat.not_le.mpr hylt) ?_, ?_⟩
        · rw [hentry z (hl.2 z hz), if_neg hne, if_neg fun h => hy (by rwa [h] at hz)]
        · rw [hentry _ hv, if_pos rfl]
        · rw [hentry _ hvy, if_neg hyi, if_pos rfl]
        · intro z hz
          obtain hz | hz := List.mem_append.mp hz
          · exact hl.2 z hz
          · rw [List.mem_singleton.mp hz]
            exact hvy
      have hgrown : Grown fp c d.image d₂.image l (l ++ [y]) := by
        refine ⟨hchain, List.prefix_append l [y], fun z hz hn => ?_, fun z hz hn => ?_⟩
        · obtain hz | hz := List.mem_append.mp hz
          · exact absurd hz hn
          · rw [List.mem_singleton.mp hz]
            exact h0
        · rw [List.mem_append, List.mem_singleton, not_or] at hn
          rw [hentry z hz, if_neg fun h : z = l[i] => hn.1 (h ▸ List.getElem_mem hi),
            if_neg hn.2]
      have horder : freeList fp d.image = y :: freeList fp d₂.image := by
        refine freeList_cons hfree hleast (fun z hz hne => ?_) ?_
        · by_cases hzi : z = l[i]
          · rw [hentry z hz, if_pos hzi, hzi]
            exact ⟨fun h => absurd h (by have := hvy.1; omega), fun h => absurd h (hl.entry_ne_zero (List.getElem_mem hi))⟩
          · rw [hentry z hz, if_neg hzi, if_neg hne]
        · rw [hentry _ hvy, if_neg hyi, if_pos rfl]
          exact Nat.succ_ne_zero _
      have hlast : l.getLast? = some l[i] := by
        rw [List.getLast?_eq_getElem?, show l.length - 1 = i by omega, List.getElem?_eq_getElem hi]
      have htouch : Touches (LinkSector fp l (l ++ [y])) d d₂ := by
        have h1 := fatAllocCluster_touches hg.table hd he (by have := hvy.1; omega)
        have h2 := fatSetCluster_touches hg.table hd₁ hv.2 y
        rw [he₂] at h2
        refine (h1.mono fun n hn => ?_).trans (h2.mono fun n hn => ?_)
        · exact ⟨y, ⟨by simp, .inl hy⟩, hn⟩
        · exact ⟨l[i], ⟨by simp, .inr ⟨by simp, hlast⟩⟩, hn⟩
      refine ⟨y, true, d₁, d₂, l ++ [y], ?_, ?_, ?_, hd₂, ⟨hgrown, [y], rfl, horder⟩,
        hother, htouch, ?_, ?_⟩
      · rw [hon, he]
      · have := hvy.1
        omega
      · rw [if_pos rfl, he₂]
      · rw [hlen, List.getElem?_concat_length]
      · simp
        omega
    · exact .inl ⟨by rw [hon, he], hlen, hnone⟩

-- ---------------------------------------------------------------------------
-- Bytes of a chain
-- ---------------------------------------------------------------------------

theorem Geometry.bytes_pos (hg : Geometry fp) : 512 ≤ fp.bytesPerCluster := by
  have := hg.cluster
  have := hg.spc_pos
  omega

theorem div_lt_of_chain (hg : Geometry fp) (hj : j < l.length * fp.bytesPerCluster) :
    j / fp.bytesPerCluster < l.length :=
  (Nat.div_lt_iff_lt_mul (by have := hg.bytes_pos; omega)).mpr hj

theorem chainAddr_in (hg : Geometry fp) (hj : j < l.length * fp.bytesPerCluster) :
    ∃ x ∈ l, InCluster fp x (chainAddr fp l j) := by
  have hlt := div_lt_of_chain hg hj
  refine ⟨l[j / fp.bytesPerCluster], List.getElem_mem hlt, ?_⟩
  have := Nat.mod_lt j (show 0 < fp.bytesPerCluster by have := hg.bytes_pos; omega)
  rw [chainAddr, List.getD_eq_getElem _ _ hlt, InCluster]
  omega

/-- A run of bytes copied into the cluster at `i`, seen along the chain. -/
theorem chainByte_blit (hg : Geometry fp) (hl : FatChain fp m c l) (hi : i < l.length)
    (ho : o + n ≤ fp.bytesPerCluster) (hj : j < l.length * fp.bytesPerCluster) (m₀ src : Bytes)
    (s : Nat) : chainByte fp (blit m₀ (clusterAddr fp l[i] + o) n src s) l j =
      if i * fp.bytesPerCluster + o ≤ j ∧ j < i * fp.bytesPerCluster + o + n
      then src (s + (j - (i * fp.bytesPerCluster + o))) else chainByte fp m₀ l j := by
  have hlt := div_lt_of_chain hg hj
  have hpos : 0 < fp.bytesPerCluster := by
    have := hg.bytes_pos
    omega
  have hmod := Nat.mod_lt j hpos
  have hdm := Nat.div_add_mod j fp.bytesPerCluster
  rw [Nat.mul_comm] at hdm
  rw [chainByte, chainByte, chainAddr, List.getD_eq_getElem _ _ hlt]
  by_cases hji : j / fp.bytesPerCluster = i
  · subst hji
    by_cases hin : o ≤ j % fp.bytesPerCluster ∧ j % fp.bytesPerCluster < o + n
    · rw [if_pos (by omega), blit_in _ _ _ (by omega)]
      congr 1
      omega
    · rw [if_neg (by omega), blit_off _ _ _ (by omega)]
  · -- another cluster of the chain, so other bytes
    have hne : l[j / fp.bytesPerCluster] ≠ l[i] := fun he =>
      hji ((List.Nodup.getElem_inj_iff hl.nodup).mp he)
    have hnot : ¬ (i * fp.bytesPerCluster + o ≤ j ∧ j < i * fp.bytesPerCluster + o + n) := by
      rintro ⟨h1, h2⟩
      apply hji
      apply Nat.div_eq_of_lt_le
      · omega
      · rw [Nat.add_mul, Nat.one_mul]
        omega
    rw [if_neg hnot, blit_off]
    by_contra hin
    have hx : InCluster fp l[i] (clusterAddr fp l[j / fp.bytesPerCluster] + j % fp.bytesPerCluster) := by
      rw [InCluster]
      omega
    have hy : InCluster fp l[j / fp.bytesPerCluster]
        (clusterAddr fp l[j / fp.bytesPerCluster] + j % fp.bytesPerCluster) := by
      rw [InCluster]
      omega
    exact hne (hy.eq hg (hl.2 _ (List.getElem_mem hlt)) (hl.2 _ (List.getElem_mem hi)) hx)

-- ---------------------------------------------------------------------------
-- The loops
-- ---------------------------------------------------------------------------

/-- The sectors of a cluster: `k` rounds replace a run of bytes, as far as `size` goes. -/
theorem fatWriteSectors_spec (hd : NoFaults d) (buf : Bytes) (hb : byteOff < 512)
    (hlba : lba + sectorOff + s + k ≤ 2 ^ 28) (hdone : done < size) (tmp : Bytes) :
    ∃ d', fatWriteSectors buf size lba sectorOff k s byteOff tmp done d =
        (done + min (512 * k - byteOff) (size - done), d') ∧ NoFaults d' ∧
      Touches (fun n => lba + sectorOff + s ≤ n ∧ n < lba + sectorOff + s + k) d d' ∧
      d'.image = blit d.image (512 * (lba + sectorOff + s) + byteOff)
        (min (512 * k - byteOff) (size - done)) buf done := by
  induction k generalizing s byteOff done d tmp with
  | zero =>
    have h0 : min (512 * 0 - byteOff) (size - done) = 0 := by omega
    rw [h0]
    exact ⟨d, rfl, hd, .refl _ d, (blit_zero _ _ _ _).symm⟩
  | succ k ih =>
    generalize hcur : lba + sectorOff + s = cur
    have hlt : cur < 2 ^ 28 := by omega
    have hmod : cur % 2 ^ 32 = cur := Nat.mod_eq_of_lt (by omega)
    generalize hcb : min (512 - byteOff) (size - done) = cb
    -- the bytes of the sector that the run leaves alone were read from it
    obtain ⟨old, hr, hold⟩ : ∃ old, (if byteOff > 0 ∨ cb < 512 then
          ((ataReadSectors d cur).1.getD tmp, (ataReadSectors d cur).2) else (tmp, d)) = (old, d) ∧
        ∀ i, i < 512 → ¬ (byteOff ≤ i ∧ i < byteOff + cb) → old i = d.image (512 * cur + i) := by
      by_cases hp : byteOff > 0 ∨ cb < 512
      · refine ⟨d.sectors cur, ?_, fun i hi _ => sector_image d cur hi⟩
        rw [if_pos hp, ataReadSectors_eq hd hlt]
        rfl
      · exact ⟨tmp, if_neg hp, fun i hi hn => absurd hi (by omega)⟩
    obtain ⟨d₁, hw, hd₁, him⟩ := ataWriteSectors_eq hd hlt (blit old byteOff cb buf done)
    have himage : d₁.image = blit d.image (512 * cur + byteOff) cb buf done := by
      rw [him]
      funext a
      by_cases ha : 512 * cur ≤ a ∧ a < 512 * cur + 512
      · rw [blit_in _ _ _ ha]
        by_cases hin : byteOff ≤ a - 512 * cur ∧ a - 512 * cur < byteOff + cb
        · rw [blit_in _ _ _ (by omega), blit_in _ _ _ (by omega)]
          congr 1
          omega
        · rw [blit_off _ _ _ (by omega), blit_off _ _ _ (by omega), hold _ (by omega) (by omega)]
          congr 1
          omega
      · rw [blit_off _ _ _ (by omega), blit_off _ _ _ (by omega)]
    have htouch₁ : Touches (fun n => cur ≤ n ∧ n < cur + (k + 1)) d d₁ := by
      have h := ataWriteSectors_touches d hlt (blit old byteOff cb buf done)
      rw [hw] at h
      exact h.mono fun n hn => by omega
    simp only [fatWriteSectors, hcur, hmod, hcb, hr, hw]
    by_cases hend : done + cb ≥ size
    · have hn : min (512 * (k + 1) - byteOff) (size - done) = cb := by omega
      rw [if_pos hend, hn]
      exact ⟨d₁, rfl, hd₁, htouch₁, himage⟩
    · rw [if_neg hend]
      obtain ⟨d₂, he, hd₂, htouch₂, him₂⟩ := ih hd₁ (show 0 < 512 by decide)
        (show lba + sectorOff + (s + 1) + k ≤ 2 ^ 28 by omega) (show done + cb < size by omega)
        (blit old byteOff cb buf done)
      have hn : min (512 * (k + 1) - byteOff) (size - done) =
          cb + min (512 * k - 0) (size - (done + cb)) := by omega
      refine ⟨d₂, ?_, hd₂, htouch₁.trans (htouch₂.mono fun n hn => by omega), ?_⟩
      · rw [he, hn]
        simp only [Prod.mk.injEq, and_true]
        omega
      · have hat : 512 * (lba + sectorOff + (s + 1)) + 0 = 512 * cur + byteOff + cb := by omega
        rw [him₂, himage, hat, hn, blit_blit]

theorem firstRun_spec (hg : Geometry fp) (ho : o < fp.bytesPerCluster) (hr : 0 < rest) :
    0 < firstRun fp.bytesPerCluster o rest ∧ firstRun fp.bytesPerCluster o rest ≤ rest ∧
      o + firstRun fp.bytesPerCluster o rest ≤ fp.bytesPerCluster := by
  have h := hg.cluster
  rw [firstRun]
  omega

theorem firstRun_zero (hg : Geometry fp) (rest : Nat) :
    firstRun fp.bytesPerCluster 0 rest = min fp.bytesPerCluster rest := by
  have h := hg.cluster
  rw [firstRun]
  omega

theorem fatWriteRound (hg : Geometry fp) (hd : NoFaults d) (hx : Valid fp x)
    (ho : o < fp.bytesPerCluster) (hdone : done < size) (junk buf : Bytes) :
    ∃ d', fatWriteSectors buf size (fatClusterToLba fp x) (o / 512)
        ((min (fp.bytesPerCluster - o) (size - done) + 511) / 512) 0 (o % 512) junk done d =
        (done + firstRun fp.bytesPerCluster o (size - done), d') ∧ NoFaults d' ∧
      Touches (ClusterSector fp x) d d' ∧
      d'.image = blit d.image (clusterAddr fp x + o)
        (firstRun fp.bytesPerCluster o (size - done)) buf done := by
  have hcl := hg.cluster
  have hlt := clusterLba_lt hg hx
  obtain ⟨d', he, hd', htouch, him⟩ := fatWriteSectors_spec hd buf (Nat.mod_lt o (show 0 < 512 by decide))
    (show clusterLba fp x + o / 512 + 0 + (min (fp.bytesPerCluster - o) (size - done) + 511) / 512
      ≤ 2 ^ 28 by omega) hdone junk
  have hrun : min (512 * ((min (fp.bytesPerCluster - o) (size - done) + 511) / 512) - o % 512)
      (size - done) = firstRun fp.bytesPerCluster o (size - done) := by
    rw [firstRun, Nat.min_comm]
  have hat : 512 * (clusterLba fp x + o / 512 + 0) + o % 512 = clusterAddr fp x + o := by
    rw [clusterAddr]
    omega
  rw [hrun] at he him
  rw [hat] at him
  refine ⟨d', ?_, hd', htouch.mono fun n hn => ?_, him⟩
  · rw [fatClusterToLba_eq hg hx]
    exact he
  · rw [ClusterSector]
    omega

theorem clustersFor_of_le (hn : 0 < n) (h : n ≤ cs) : clustersFor cs n = 1 := by
  rw [clustersFor]
  apply Nat.div_eq_of_lt_le <;> omega

theorem clustersFor_of_gt (hcs : 0 < cs) (h : cs < n) :
    clustersFor cs n = 1 + clustersFor cs (n - cs) := by
  rw [clustersFor, clustersFor, show n + cs - 1 = n - cs + cs - 1 + cs by omega,
    Nat.add_div_right _ hcs, Nat.add_comm]

@[simp] theorem clustersFor_zero (cs : Nat) : clustersFor cs 0 = 0 := by
  by_cases h : cs = 0
  · subst h
    rfl
  · rw [clustersFor]
    exact Nat.div_eq_of_lt (by omega)

theorem fatWriteSkip_spec (hg : Geometry fp) (hd : NoFaults d) (hl : FatChain fp d.image c l)
    (hi : i < l.length) (hf : skip < fuel) (node : VfsNode) :
    ∃ r d' l', fatWriteSkip fp fuel node l[i] skip d = some (r, node, d') ∧ NoFaults d' ∧
      GrownInOrder fp c d.image d'.image l l' ∧ (∀ a, ¬ InTable fp a → d'.image a = d.image a) ∧
      Touches (LinkSector fp l l') d d' ∧
      ∀ k, k = i + skip / fp.bytesPerCluster →
        (k + 1 ≤ l.length + (freeClusters fp d.image).card → l'.length = max l.length (k + 1) ∧
          ∃ x, r = some (x, skip % fp.bytesPerCluster) ∧ l'[k]? = some x) ∧
        (l.length + (freeClusters fp d.image).card < k + 1 →
          r = none ∧ l'.length = l.length + (freeClusters fp d.image).card) := by
  induction fuel generalizing i skip d l with
  | zero => omega
  | succ fuel ih =>
    have hcs := hg.bytes_pos
    by_cases hs : fp.bytesPerCluster ≤ skip
    · have hdiv : skip / fp.bytesPerCluster =
          (skip - fp.bytesPerCluster) / fp.bytesPerCluster + 1 := by
        rw [← Nat.add_div_right _ (by omega), Nat.sub_add_cancel hs]
      have hmod : (skip - fp.bytesPerCluster) % fp.bytesPerCluster = skip % fp.bytesPerCluster := by
        rw [← Nat.mod_eq_sub_mod hs]
      have h0 : l[i] ≠ 0 := by
        have := (hl.2 _ (List.getElem_mem hi)).1
        omega
      simp only [fatWriteSkip, ge_iff_le, if_pos hs]
      obtain ⟨hon, hlast, hnone⟩ |
          ⟨y, new, d₁, d₂, l₂, hon, hy, hlink, hd₂, hg₂, hsame, htouch₂, hyl, hlen⟩ :=
        fatNextOrNew_spec hg hd hl hi
      · simp only [hon, if_pos]
        refine ⟨none, d, l, rfl, hd, .refl hl, fun _ _ => rfl, .refl _ d,
          fun k hk => ⟨fun h => ?_, fun _ => ⟨rfl, ?_⟩⟩⟩
        · rw [hnone, Finset.card_empty] at h
          generalize (skip - fp.bytesPerCluster) / fp.bytesPerCluster = q at hdiv
          omega
        · rw [hnone, Finset.card_empty, Nat.add_zero]
      · -- the node keeps its first cluster: the chain has one
        have hstate : (if new = true then
            if l[i] ≠ 0 then (node, (fatSetCluster fp d₁ l[i] y).2)
            else ({ node with cluster := y }, d₁) else (node, d₁)) = (node, d₂) := by
          rw [if_pos h0, ← hlink]
          cases new <;> rfl
        simp only [hon, if_neg hy, hstate]
        have hi₂ : i + 1 < l₂.length := by omega
        have hyi : l₂[i + 1] = y := by
          rw [List.getElem?_eq_getElem hi₂] at hyl
          exact Option.some.inj hyl
        obtain ⟨r, d', l', he, hd', hg₃, hout, htouch₃, hfull⟩ := ih hd₂ hg₂.chain hi₂
          (show skip - fp.bytesPerCluster < fuel by omega)
        rw [hyi] at he
        rw [hmod] at hfull
        generalize (skip - fp.bytesPerCluster) / fp.bytesPerCluster = q at hdiv hfull
        have htouch : Touches (LinkSector fp l l') d d' :=
          (htouch₂.mono fun n hn => hn.grow hg₃.pre).trans
            (htouch₃.mono fun n hn => hn.since hg₂.pre hg₂.chain.nodup)
        refine ⟨r, d', l', he, hd', hg₂.trans hg₃, fun a ha => (hout a ha).trans (hsame a ha),
          htouch, fun k hk => ?_⟩
        have hcount := hg₂.count hl
        obtain ⟨hyes, hno⟩ := hfull k (by omega)
        refine ⟨fun h => ?_, fun h => ?_⟩
        · obtain ⟨hlen', hx⟩ := hyes (by omega)
          exact ⟨by omega, hx⟩
        · obtain ⟨hr, hlen'⟩ := hno (by omega)
          exact ⟨hr, by omega⟩
    · simp only [fatWriteSkip, ge_iff_le, if_neg hs]
      have hz : skip / fp.bytesPerCluster = 0 := Nat.div_eq_of_lt (by omega)
      have hm : skip % fp.bytesPerCluster = skip := Nat.mod_eq_of_lt (by omega)
      refine ⟨_, d, l, rfl, hd, .refl hl, fun _ _ => rfl, .refl _ d,
        fun k hk => ⟨fun _ => ⟨by omega, l[i], ?_, ?_⟩, fun h => absurd h (by omega)⟩⟩
      · rw [hm]
      · rw [hk, hz]
        exact List.getElem?_eq_getElem hi

/-- What a write of `rest` bytes at offset `o` of cluster `i` does along the chain: `run` of
them go there, the others to the start of the following cluster. -/
def placed (cs i o run rest done : Nat) (buf old : Bytes) : Bytes := fun j =>
  if i * cs + o ≤ j ∧ j < i * cs + o + run then buf (done + (j - (i * cs + o)))
  else if (i + 1) * cs ≤ j ∧ j < (i + 1) * cs + (rest - run) then
    buf (done + run + (j - (i + 1) * cs))
  else old j

/-- The loop over the clusters, from offset `o` in the one at `i`. -/
theorem fatWriteClusters_spec (hg : Geometry fp) (hd : NoFaults d)
    (hl : FatChain fp d.image c l) (hi : i < l.length) (ho : o < fp.bytesPerCluster)
    (hdone : done < size) (hf : size - done < fuel) (junk buf : Bytes) :
    ∃ done' room d' l', fatWriteClusters fp junk buf size fuel l[i] o done d =
        some (done', room, d') ∧ NoFaults d' ∧ GrownInOrder fp c d.image d'.image l l' ∧
      (∀ a, ¬ InTable fp a → (∀ x ∈ l', ¬ InCluster fp x a) → d'.image a = d.image a) ∧
      Touches (WriteSector fp l l') d d' ∧
      (∀ j, j < l'.length * fp.bytesPerCluster → chainByte fp d'.image l' j =
        placed fp.bytesPerCluster i o (firstRun fp.bytesPerCluster o (size - done)) (size - done)
          done buf (chainByte fp d.image l') j) ∧
      (∀ n, n = i + 1 + clustersFor fp.bytesPerCluster
          (size - done - firstRun fp.bytesPerCluster o (size - done)) →
        (n ≤ l.length + (freeClusters fp d.image).card → room = true ∧ done' = size ∧
          l'.length = max l.length n) ∧
        (l.length + (freeClusters fp d.image).card < n → room = false ∧ done' < size ∧
          i < l'.length ∧ done' = done + firstRun fp.bytesPerCluster o (size - done) +
            (l'.length - (i + 1)) * fp.bytesPerCluster ∧
          l'.length = l.length + (freeClusters fp d.image).card)) := by
  induction fuel generalizing i o done d l with
  | zero => omega
  | succ fuel ih =>
    have hx : Valid fp l[i] := hl.2 _ (List.getElem_mem hi)
    obtain ⟨hpos, hle, hfit⟩ := firstRun_spec hg ho (show 0 < size - done by omega)
    obtain ⟨d₁, he₁, hd₁, htouch₁, him₁⟩ := fatWriteRound hg hd hx ho hdone junk buf
    generalize hrun : firstRun fp.bytesPerCluster o (size - done) = run at *
    -- the round itself changes bytes of the cluster only
    have htab₁ : ∀ a, InTable fp a → d₁.image a = d.image a := by
      intro a ha
      rw [him₁, blit_off]
      by_contra hn
      exact InCluster.not_table (c := l[i]) ⟨by omega, by omega⟩ ha
    have hg₁ : GrownInOrder fp c d.image d₁.image l l := (GrownInOrder.refl hl).of_table hg htab₁
    have hout₁ : ∀ a, (∀ x ∈ l, ¬ InCluster fp x a) → d₁.image a = d.image a := by
      intro a ha
      rw [him₁, blit_off]
      have := ha _ (List.getElem_mem hi)
      rw [InCluster] at this
      omega
    have hwrite₁ : ∀ l', l <+: l' → Touches (WriteSector fp l l') d d₁ := fun l' hpre =>
      htouch₁.mono fun n hn => .inr ⟨l[i], hpre.subset (List.getElem_mem hi), hn⟩
    simp only [fatWriteClusters, if_pos hdone, he₁]
    by_cases hend : done + run ≥ size
    · rw [if_pos hend]
      have hz : size - done - run = 0 := by omega
      refine ⟨_, _, _, l, rfl, hd₁, hg₁, fun a _ ha => hout₁ a ha, hwrite₁ l (List.prefix_refl l),
        fun j hj => ?_, fun n hn => ⟨fun _ => ?_, fun h => ?_⟩⟩
      · rw [him₁, chainByte_blit hg hl hi hfit hj, placed]
        by_cases hin : i * fp.bytesPerCluster + o ≤ j ∧ j < i * fp.bytesPerCluster + o + run
        · rw [if_pos hin, if_pos hin]
        · rw [if_neg hin, if_neg hin, if_neg (by omega)]
      · rw [hz, clustersFor_zero] at hn
        exact ⟨rfl, by omega, by omega⟩
      · rw [hz, clustersFor_zero] at hn
        omega
    · rw [if_neg hend]
      have hl₁ := hg₁.chain
      have hfree₁ : (freeClusters fp d₁.image).card = (freeClusters fp d.image).card := by
        have := hg₁.count hl
        omega
      have hcs := hg.bytes_pos
      have hneed : 0 < clustersFor fp.bytesPerCluster (size - done - run) := by
        by_cases h : size - done - run ≤ fp.bytesPerCluster
        · rw [clustersFor_of_le (by omega) h]
          exact Nat.one_pos
        · rw [clustersFor_of_gt (by omega) (by omega)]
          omega
      obtain ⟨hon, hlast, hnone⟩ |
          ⟨y, new, d₂, d₃, l₂, hon, hy, hlink, hd₃, hg₂, hsame, htouch₂, hyl, hlen⟩ :=
        fatNextOrNew_spec hg hd₁ hl₁ hi
      · -- the volume is full
        simp only [hon, if_pos]
        have h0 : (freeClusters fp d.image).card = 0 := by
          rw [← hfree₁, hnone, Finset.card_empty]
        refine ⟨_, _, _, l, rfl, hd₁, hg₁, fun a _ ha => hout₁ a ha,
          hwrite₁ l (List.prefix_refl l), fun j hj => ?_,
          fun n hn => ⟨fun h => ?_, fun _ => ⟨rfl, by omega, hi, ?_, by omega⟩⟩⟩
        · rw [him₁, chainByte_blit hg hl hi hfit hj, placed, hlast]
          by_cases hin : i * fp.bytesPerCluster + o ≤ j ∧ j < i * fp.bytesPerCluster + o + run
          · rw [if_pos hin, if_pos hin]
          · rw [if_neg hin, if_neg hin, if_neg (by omega)]
        · omega
        · rw [hlast, Nat.sub_self, Nat.zero_mul, Nat.add_zero]
      · simp only [hon, if_neg hy, hlink]
        have hi₂ : i + 1 < l₂.length := by omega
        have hyi : l₂[i + 1] = y := by
          rw [List.getElem?_eq_getElem hi₂] at hyl
          exact Option.some.inj hyl
        obtain ⟨done', room, d', l', he, hd', hg₃, hout, htouch₃, hbytes, hfull⟩ := ih hd₃ hg₂.chain hi₂
          (show 0 < fp.bytesPerCluster by omega) (show done + run < size by omega) (by omega)
        rw [hyi] at he
        have hall := (hg₁.trans hg₂).trans hg₃
        have htouch : Touches (WriteSector fp l l') d d' := by
          refine ((hwrite₁ l' hall.pre).trans
            (htouch₂.mono fun n hn => .inl (hn.grow hg₃.pre))).trans (htouch₃.mono fun n hn => ?_)
          exact hn.imp_left fun h => h.since hg₂.pre hg₂.chain.nodup
        refine ⟨done', room, d', l', he, hd', hall, fun a ha hc => ?_, htouch, fun j hj => ?_,
          fun n hn => ?_⟩
        · rw [hout a ha hc, hsame a ha]
          exact hout₁ a fun x hx => hc x (hall.pre.subset hx)
        · have hil' : i < l'.length := by
            have := hall.pre.length_le
            omega
          have hli : l'[i] = l[i] := by
            obtain ⟨t, rfl⟩ := hall.pre
            exact List.getElem_append_left hi
          have hbase : chainByte fp d₃.image l' j =
              if i * fp.bytesPerCluster + o ≤ j ∧ j < i * fp.bytesPerCluster + o + run
              then buf (done + (j - (i * fp.bytesPerCluster + o)))
              else chainByte fp d.image l' j := by
            obtain ⟨x, hx, hin⟩ := chainAddr_in hg hj
            have h3 : chainByte fp d₃.image l' j = chainByte fp d₁.image l' j :=
              hsame _ hin.not_table
            rw [h3, him₁, ← hli, chainByte_blit hg hall.chain hil' hfit hj]
          rw [hbytes j hj, firstRun_zero hg, placed, placed]
          rw [show (i + 1 + 1) * fp.bytesPerCluster =
            (i + 1) * fp.bytesPerCluster + fp.bytesPerCluster by rw [Nat.add_mul, Nat.one_mul]]
          have hi1 : (i + 1) * fp.bytesPerCluster = i * fp.bytesPerCluster + fp.bytesPerCluster := by
            rw [Nat.add_mul, Nat.one_mul]
          rw [hi1]
          by_cases h1 : i * fp.bytesPerCluster + o ≤ j ∧ j < i * fp.bytesPerCluster + o + run
          · rw [if_pos h1, if_neg (by omega), if_neg (by omega), hbase, if_pos h1]
          · rw [if_neg h1]
            by_cases h2 : i * fp.bytesPerCluster + fp.bytesPerCluster ≤ j ∧
                j < i * fp.bytesPerCluster + fp.bytesPerCluster + (size - done - run)
            · rw [if_pos h2]
              by_cases h3 : j < i * fp.bytesPerCluster + fp.bytesPerCluster +
                  min fp.bytesPerCluster (size - (done + run))
              · rw [if_pos (by omega)]
                congr 1
              · rw [if_neg (by omega), if_pos (by omega)]
                congr 1
                omega
            · rw [if_neg h2, if_neg (by omega), if_neg (by omega), hbase, if_neg h1]
        · -- the clusters that the rest needs are the ones counted here
          have hcount := (hg₁.trans hg₂).count hl
          obtain ⟨hyes, hno⟩ := hfull n (by
            rw [firstRun_zero hg, hn]
            by_cases h : size - done - run ≤ fp.bytesPerCluster
            · rw [clustersFor_of_le (by omega) h, Nat.min_eq_right (by omega),
                show size - (done + run) - (size - (done + run)) = 0 by omega, clustersFor_zero]
            · rw [clustersFor_of_gt (by omega) (by omega), Nat.min_eq_left (by omega),
                show size - (done + run) - fp.bytesPerCluster =
                  size - done - run - fp.bytesPerCluster by omega]
              omega)
          refine ⟨fun h => ?_, fun h => ?_⟩
          · obtain ⟨hroom, hsize, hlen'⟩ := hyes (by omega)
            exact ⟨hroom, hsize, by omega⟩
          · obtain ⟨hroom, hlt, hil', hdone', hlen'⟩ := hno (by omega)
            rw [firstRun_zero hg] at hdone'
            refine ⟨hroom, hlt, by omega, ?_, by omega⟩
            have hsucc : (l'.length - (i + 1)) * fp.bytesPerCluster =
                fp.bytesPerCluster + (l'.length - (i + 1 + 1)) * fp.bytesPerCluster := by
              rw [show l'.length - (i + 1) = l'.length - (i + 1 + 1) + 1 by omega, Nat.add_mul,
                Nat.one_mul, Nat.add_comm]
            rw [hsucc]
            omega

-- ---------------------------------------------------------------------------
-- The directory entry
-- ---------------------------------------------------------------------------

/-- The place of a directory entry: its cluster and its number there. -/
structure Slot where
  cluster : Nat
  index : Nat
  deriving DecidableEq

def Slot.lba (fp : FatPrivate) (s : Slot) : Nat := clusterLba fp s.cluster + s.index / 16

def Slot.off (s : Slot) : Nat := 32 * (s.index % 16)

def Slot.addr (fp : FatPrivate) (s : Slot) : Nat := clusterAddr fp s.cluster + 32 * s.index

def Slot.Ok (fp : FatPrivate) (s : Slot) : Prop :=
  Valid fp s.cluster ∧ s.index < 16 * fp.bpb.sectorsPerCluster

def VfsNode.At (fp : FatPrivate) (node : VfsNode) (s : Slot) : Prop :=
  node.dirLba = s.lba fp ∧ node.dirOff = s.off

theorem Slot.addr_eq (fp : FatPrivate) (s : Slot) : 512 * s.lba fp + s.off = s.addr fp := by
  rw [Slot.lba, Slot.off, Slot.addr, clusterAddr]
  omega

theorem Slot.in_cluster (hg : Geometry fp) {s : Slot} (hs : s.Ok fp) (hk : k < 32) :
    InCluster fp s.cluster (s.addr fp + k) := by
  have h1 := hg.cluster
  have h2 := hs.2
  rw [InCluster, Slot.addr]
  omega

theorem Slot.lba_lt (hg : Geometry fp) {s : Slot} (hs : s.Ok fp) :
    0 < s.lba fp ∧ s.lba fp < 2 ^ 28 := by
  have h1 := clusterLba_lt hg hs.1
  have h2 := hs.2
  have h3 := hg.start
  have h4 := hg.fat_le
  rw [Slot.lba]
  rw [clusterLba] at h1 ⊢
  omega

theorem fatUpdateDirentSize_spec (hg : Geometry fp) (hd : NoFaults d) {s : Slot} (hs : s.Ok fp)
    (hn : node.At fp s) : ∃ d', fatUpdateDirentSize node d = (true, d') ∧ NoFaults d' ∧
      d'.image = setDirentCluster (putLE d.image (s.addr fp + DE_SIZE) 4 node.size) (s.addr fp)
        node.cluster := by
  obtain ⟨h0, hlt⟩ := Slot.lba_lt hg hs
  have hoff : s.off + 32 ≤ 512 := by
    rw [Slot.off]
    omega
  obtain ⟨d', he, hd', him⟩ := ataWriteSectors_eq hd hlt
    (setDirentCluster (putLE (d.sectors (s.lba fp)) (s.off + DE_SIZE) 4 node.size) s.off node.cluster)
  refine ⟨d', ?_, hd', ?_⟩
  · rw [fatUpdateDirentSize, hn.1, hn.2, if_neg (by omega), ataReadSectors_eq hd hlt]
    exact he
  · rw [him, setDirentCluster, blit_putLE _ _ _ _ (by rw [DE_CLUSTER_LO]; omega),
      blit_putLE _ _ _ _ (by rw [DE_CLUSTER_HI]; omega),
      blit_putLE _ _ _ _ (by rw [DE_SIZE]; omega), blit_sector, ← Slot.addr_eq, setDirentCluster]
    simp only [Nat.add_assoc]

theorem setDirent_off (m : Bytes) (a size cluster : Nat) (h : b < a + 20 ∨ a + 32 ≤ b) :
    setDirentCluster (putLE m (a + DE_SIZE) 4 size) a cluster b = m b := by
  rw [setDirentCluster, putLE_off _ _ (by rw [DE_CLUSTER_LO]; omega),
    putLE_off _ _ (by rw [DE_CLUSTER_HI]; omega), putLE_off _ _ (by rw [DE_SIZE]; omega)]

end EponaOS.Fs
