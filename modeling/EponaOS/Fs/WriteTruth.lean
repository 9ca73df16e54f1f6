import EponaOS.Fs.CallAccesses
import EponaOS.Fs.FaultyWrite

/-!
# When the count of a write is true

With any pattern of errors: the cluster of the offset is not found and nothing is counted, or no
access of the call fails and the count is one of those that are right without errors, or the write
keeps to the chain that is on the drive and each sector comes out right.
-/

namespace EponaOS.Fs

open Bytes

variable {fp : FatPrivate} {d d' d₁ d₂ : Disk} {node node' : VfsNode} {l l' : List Nat}
  {m m' m₁ m₂ buf junk : Bytes} {S : Nat → Prop} {s s' : Nat → Bytes} {f g : List Bool}
  {offset size done run c i j k n o p x y skip fuel lo mid hi : Nat} {room : Bool}

-- ---------------------------------------------------------------------------
-- The loop over the clusters
-- ---------------------------------------------------------------------------

/-- `to_write`: how many bytes are to be written to the cluster. -/
def toWrite (fp : FatPrivate) (size skip done : Nat) : Nat :=
  min (fp.bytesPerCluster - skip) (size - done)

def afterCluster (fp : FatPrivate) (junk buf : Bytes) (size x skip done : Nat) (d : Disk) : Disk :=
  (fatWriteSectors buf size (fatClusterToLba fp x) (skip / 512)
    ((toWrite fp size skip done + 511) / 512) 0 (skip % 512) junk done d).2

/-- From `x` on, at `i` of the chain from `c`, each cluster that the write goes on with is the one
that the chain on the drive leads to. -/
def Leads (fp : FatPrivate) (junk buf : Bytes) (size c : Nat) :
    Nat → Nat → Nat → Nat → Nat → Disk → Prop
  | 0, _, _, _, _, _ => True
  | k + 1, i, x, skip, done, d =>
    let next := fatNextLinked fp (afterCluster fp junk buf size x skip done d) x
    let done := done + toWrite fp size skip done
    done < size → next.1 ≠ 0 → (∃ l, FatChain fp next.2.image c l ∧ l[i + 1]? = some next.1) ∧
      Leads fp junk buf size c k (i + 1) next.1 0 done next.2

/-- The buffer from `lo` to `hi` is in the file behind `offset`, and every other byte behind the
table is as before. -/
structure Stored (fp : FatPrivate) (l : List Nat) (offset lo hi : Nat) (buf m m' : Bytes) : Prop where
  bytes : ∀ j, lo ≤ j → j < hi → chainByte fp m' l (offset + j) = buf j
  others : ∀ a, ¬ InTable fp a → (∀ j, lo ≤ j → j < hi → a ≠ chainAddr fp l (offset + j)) → m' a = m a

theorem Stored.congr (h : ∀ a, ¬ InTable fp a → m₁ a = m a) :
    Stored fp l offset lo hi buf m m' ↔ Stored fp l offset lo hi buf m₁ m' :=
  ⟨fun hs => ⟨hs.bytes, fun a ha hout => (hs.others a ha hout).trans (h a ha).symm⟩,
    fun hs => ⟨hs.bytes, fun a ha hout => (hs.others a ha hout).trans (h a ha)⟩⟩

theorem FatChain.take_eq (hl : FatChain fp m c l) (hx : l[i]? = some x) (hl' : FatChain fp m' c l')
    (hlen : i < l'.length)
    (he : ∀ z, Valid fp z → z ≠ x → fatEntry fp m z ≠ 0 → fatEntry fp m' z = fatEntry fp m z) :
    l'.take (i + 1) = l.take (i + 1) := by
  obtain ⟨hi, rfl⟩ := List.getElem?_eq_some_iff.mp hx
  have hsame : ∀ j (hj : j ≤ i), l'[j] = l[j] := by
    intro j hj
    induction j with
    | zero => rw [hl'.1.getElem_zero (by omega), hl.1.getElem_zero (by omega)]
    | succ j ih =>
      have hmem := List.getElem_mem (show j < l.length by omega)
      have hne : l[j] ≠ l[i] := by
        rw [Ne, hl.nodup.getElem_inj_iff]
        omega
      rw [← hl'.1.next_getElem (show j + 1 < l'.length by omega),
        ← hl.1.next_getElem (show j + 1 < l.length by omega), ih (by omega)]
      exact he _ (hl.2 _ hmem) hne (hl.entry_ne_zero hmem)
  apply List.ext_getElem
  · rw [List.length_take, List.length_take]
    omega
  · intro j hj hj'
    rw [List.length_take] at hj
    rw [List.getElem_take, List.getElem_take]
    exact hsame j (by omega)

theorem FatChain.not_mem_drop (hl : FatChain fp m c l) (hx : l[i]? = some x) :
    x ∉ l.drop (i + 1) := by
  obtain ⟨hi, rfl⟩ := List.getElem?_eq_some_iff.mp hx
  have hnodup := hl.nodup.sublist (List.drop_sublist i l)
  rw [List.drop_eq_getElem_cons hi] at hnodup
  exact (List.nodup_cons.mp hnodup).1

theorem mem_drop_self (hx : l[i]? = some x) : x ∈ l.drop i := by
  obtain ⟨hi, rfl⟩ := List.getElem?_eq_some_iff.mp hx
  rw [List.drop_eq_getElem_cons hi]
  exact List.mem_cons_self

theorem getElem?_of_take_eq (h : l'.take (i + 1) = l.take (i + 1)) : l'[i]? = l[i]? := by
  rw [← List.getElem?_take_of_lt (Nat.lt_succ_self i), h,
    List.getElem?_take_of_lt (Nat.lt_succ_self i)]

/-- What the loop comes to from cluster `x` on, `x` at `i` of the chain `l`: `n` bytes are counted,
and `room` says whether the volume had the clusters for all. -/
structure WroteTo (fp : FatPrivate) (S : Nat → Prop) (c i offset size done : Nat) (l : List Nat)
    (d : Disk) (n : Nat) (room : Bool) (d' : Disk) (l' : List Nat) : Prop where
  count : done < n ∧ n ≤ size ∧ (room = true → n = size)
  confined : Confined fp S d'.image
  chain : FatChain fp d'.image c l'
  same : l'.take (i + 1) = l.take (i + 1)
  length : offset + n ≤ l'.length * fp.bytesPerCluster
  others : ∀ a, ¬ InTable fp a → (∀ y ∈ l'.drop i, ¬ InCluster fp y a) → d'.image a = d.image a

/-- The clusters behind `x` are written after it. -/
theorem WroteTo.behind (hg : Geometry fp) (hl : FatChain fp d.image c l) (hx : l[i]? = some x)
    (h₁ : ∀ a, ¬ InCluster fp x a → d₁.image a = d.image a) (hstep : StepsTo fp S x d₁ y d₂)
    (hl₂ : FatChain fp d₂.image c l₂) (hy : l₂[i + 1]? = some y) (hmid : done ≤ mid)
    (h : WroteTo fp S c (i + 1) offset size mid l₂ d₂ n room d' l') :
    WroteTo fp S c i offset size done l d n room d' l' ∧ l'[i]? = some x ∧
      ∀ a, InCluster fp x a → d'.image a = d₂.image a := by
  obtain ⟨⟨hlt, hle, hroom⟩, hconf, hchain, hsame, hlength, hothers⟩ := h
  have hv : Valid fp x := hl.2 x (List.mem_of_getElem? hx)
  obtain ⟨hi, -⟩ := List.getElem?_eq_some_iff.mp hy
  have htable : ∀ a, InTable fp a → d₁.image a = d.image a := fun a ha =>
    h₁ a fun hxa => hxa.not_table ha
  have hl₁ : FatChain fp d₁.image c l := hl.congr fun z hz =>
    fatEntry_congr fun b hb => htable _ (fatAddr_table hg (hl.2 z hz) hb)
  have hsame₂ := hl₁.take_eq hx hl₂ (by omega) hstep.entries
  have htake : l'.take (i + 1) = l.take (i + 1) := by
    have h := congrArg (List.take (i + 1)) hsame
    rw [List.take_take, List.take_take, Nat.min_eq_left (Nat.le_succ _)] at h
    exact h.trans hsame₂
  have hx' : l'[i]? = some x := (getElem?_of_take_eq htake).trans hx
  have hsub : ∀ z ∈ l'.drop (i + 1), z ∈ l'.drop i := fun z hz => by
    rw [List.drop_eq_getElem_cons (List.getElem?_eq_some_iff.mp hx').1]
    exact List.mem_cons_of_mem _ hz
  refine ⟨⟨⟨by omega, hle, hroom⟩, hconf, hchain, htake, hlength, fun a ha hout => ?_⟩, hx',
    fun a ha => hothers a ha.not_table fun z hz hza => hchain.not_mem_drop hx' ?_⟩
  · rw [hothers a ha fun z hz => hout z (hsub z hz), hstep.others a ha]
    exact h₁ a (hout x (mem_drop_self hx'))
  · rwa [ha.eq hg hv (hchain.2 z (List.mem_of_mem_drop hz)) hza]

/-- Nothing is written behind `x`. -/
theorem WroteTo.last (hl : FatChain fp d'.image c l) (hx : l[i]? = some x)
    (h₁ : ∀ a, ¬ InCluster fp x a → d'.image a = d.image a) (hS : Confined fp S d'.image)
    (hcount : done < n ∧ n ≤ size ∧ (room = true → n = size))
    (hlen : offset + n ≤ l.length * fp.bytesPerCluster) :
    WroteTo fp S c i offset size done l d n room d' l :=
  ⟨hcount, hS, hl, rfl, hlen, fun a _ hout => h₁ a (hout x (mem_drop_self hx))⟩

theorem FileNode.first_mem (hn : FileNode fp m node l) (hg : Geometry fp) : node.cluster ∈ l := by
  have hpos : 0 < l.length := List.length_pos_iff.mpr (hn.chain.ne_nil hg hn.first)
  rw [← hn.chain.1.getElem_zero hpos]
  exact List.getElem_mem hpos

theorem FileNode.found (hn : FileNode fp d.image node l) (hg : Geometry fp)
    (h : Returns (fun fuel => fatWriteSkip fp fuel node node.cluster offset d) (r, node', d')) :
    node' = node ∧ Confined fp (fun x => x ∈ l ∨ x ∈ freeClusters fp d.image) d'.image ∧
      ∀ a, ¬ InTable fp a → d'.image a = d.image a := by
  obtain ⟨r', d₁, he, hconf, hoff, -⟩ := fatWriteSkip_confined hg hn.confined
    (.inl (hn.first_mem hg)) (Nat.lt_succ_self offset) node
  cases h.unique ((fatWriteSkip_mono fp node node.cluster offset d).returns he)
  exact ⟨rfl, hconf, hoff⟩

end EponaOS.Fs
