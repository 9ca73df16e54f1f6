import EponaOS.Fs.FatWrite

/-!
# A write is an overlay

`fat_write` puts the buffer over the bytes of the file, extends the chain as far as needed
and returns the size, except in one case: the write ends inside its first cluster and
spans one sector more than its length alone accounts for. Then the tail goes to the start
of the following cluster (`Misplaced`).
-/

namespace EponaOS.Fs

open Bytes

variable {fp : FatPrivate} {d d' : Disk} {m m' : Bytes} {node : VfsNode} {l l' : List Nat}

-- ---------------------------------------------------------------------------
-- The whole call
-- ---------------------------------------------------------------------------

/-- What is done when the volume is full and the chain has `len` clusters: nothing, or the
chain is written to its end. -/
def Short (cs len offset size done : Nat) : Prop :=
  (done = 0 ∧ len ≤ offset / cs) ∨
    (offset / cs < len ∧
      done = firstRun cs (offset % cs) size + (len - (offset / cs + 1)) * cs)

/-- `fat_write` up to the update of the directory entry. -/
theorem fatWrite_spec (hg : Geometry fp) (hd : NoFaults d)
    (hl : FatChain fp d.image node.cluster l) (hne : l ≠ []) (hsize : 0 < size)
    (hf : offset + size < fuel) (junk buf : Bytes) :
    ∃ done room d' l', fatWrite fp junk fuel node offset size buf d =
        (if room then some (asInt done, fatWritten node offset done,
          (fatUpdateDirentSize (fatWritten node offset done) d').2)
        else some (asInt done, node, d')) ∧
      NoFaults d' ∧ GrownInOrder fp node.cluster d.image d'.image l l' ∧
      (∀ a, ¬ InTable fp a → (∀ x ∈ l', ¬ InCluster fp x a) → d'.image a = d.image a) ∧
      Touches (WriteSector fp l l') d d' ∧
      (∀ j, j < l'.length * fp.bytesPerCluster → chainByte fp d'.image l' j =
        placed fp.bytesPerCluster (offset / fp.bytesPerCluster) (offset % fp.bytesPerCluster)
          (firstRun fp.bytesPerCluster (offset % fp.bytesPerCluster) size) size 0 buf
          (chainByte fp d.image l') j) ∧
      ∀ n, n = offset / fp.bytesPerCluster + 1 + clustersFor fp.bytesPerCluster
          (size - firstRun fp.bytesPerCluster (offset % fp.bytesPerCluster) size) →
        (n ≤ l.length + (freeClusters fp d.image).card → room = true ∧ done = size ∧
          l'.length = max l.length n) ∧
        (l.length + (freeClusters fp d.image).card < n → room = false ∧ done < size ∧
          Short fp.bytesPerCluster l'.length offset size done ∧
          l'.length = l.length + (freeClusters fp d.image).card) := by
  have hpos : 0 < l.length := List.length_pos_iff.mpr hne
  have hcs := hg.bytes_pos
  have h0 : l[0] = node.cluster := hl.1.getElem_zero hpos
  obtain ⟨r, d₁, l₁, hskip, hd₁, hg₁, hsame, htouch₁, hfull⟩ :=
    fatWriteSkip_spec hg hd hl hpos (show offset < fuel by omega) node
  obtain ⟨hyes, hno⟩ := hfull _ rfl
  rw [Nat.zero_add] at hyes hno
  rw [h0] at hskip
  rw [fatWrite, if_neg (by omega), hskip]
  have hcount := hg₁.count hl
  by_cases hroom : offset / fp.bytesPerCluster + 1 ≤ l.length + (freeClusters fp d.image).card
  · obtain ⟨hlen₁, x, rfl, hx⟩ := hyes hroom
    obtain ⟨hi, rfl⟩ := List.getElem?_eq_some_iff.mp hx
    obtain ⟨done, room, d₂, l₂, he, hd₂, hg₂, hout, htouch₂, hbytes, hfull₂⟩ :=
      fatWriteClusters_spec hg hd₁ hg₁.chain hi (Nat.mod_lt offset (by omega)) hsize
        (show size - 0 < fuel by omega) junk buf
    have htouch : Touches (WriteSector fp l l₂) d d₂ :=
      (htouch₁.mono fun n hn => .inl (hn.grow hg₂.pre)).trans
        (htouch₂.mono fun n hn => hn.imp_left fun h => h.since hg₁.pre hg₁.chain.nodup)
    refine ⟨done, room, d₂, l₂, ?_, hd₂, hg₁.trans hg₂, fun a ha hc => ?_, htouch, fun j hj => ?_,
      fun n hn => ?_⟩
    · dsimp only
      rw [he]
      cases room <;> rfl
    · rw [hout a ha hc, hsame a ha]
    · -- finding the cluster changed the table only
      have hold : chainByte fp d₁.image l₂ j = chainByte fp d.image l₂ j := by
        obtain ⟨y, -, hy⟩ := chainAddr_in hg hj
        exact hsame _ hy.not_table
      rw [hbytes j hj, Nat.sub_zero, placed, placed, hold]
    · obtain ⟨hyes₂, hno₂⟩ := hfull₂ n (by rw [hn, Nat.sub_zero])
      refine ⟨fun h => ?_, fun h => ?_⟩
      · obtain ⟨hr, hdone, hlen₂⟩ := hyes₂ (by omega)
        exact ⟨hr, hdone, by omega⟩
      · obtain ⟨hr, hlt, hi₂, hdone, hlen₂⟩ := hno₂ (by omega)
        rw [Nat.zero_add, Nat.sub_zero] at hdone
        exact ⟨hr, hlt, .inr ⟨hi₂, hdone⟩, by omega⟩
  · obtain ⟨rfl, hlen₁⟩ := hno (by omega)
    have hlen : l₁.length ≤ offset / fp.bytesPerCluster := by omega
    refine ⟨0, false, d₁, l₁, rfl, hd₁, hg₁, fun a ha _ => hsame a ha,
      htouch₁.mono fun n hn => .inl hn, fun j hj => ?_, fun n hn => ⟨fun h => ?_, fun _ => ⟨rfl, hsize, .inl ⟨rfl, hlen⟩, hlen₁⟩⟩⟩
    · have hold : chainByte fp d₁.image l₁ j = chainByte fp d.image l₁ j := by
        obtain ⟨y, -, hy⟩ := chainAddr_in hg hj
        exact hsame _ hy.not_table
      have hle := Nat.mul_le_mul_right fp.bytesPerCluster hlen
      rw [hold, placed, Nat.add_mul, if_neg (by omega), if_neg (by omega)]
    · omega

theorem asInt_le (n : Nat) : asInt n ≤ n := by
  rw [asInt]
  split <;> omega

theorem asInt_of_lt (h : n < 2 ^ 31) : asInt n = n := by
  rw [asInt]
  split <;> omega

theorem asInt_lt (n : Nat) : asInt n < (2 ^ 31 : Nat) := by
  rw [asInt]
  split <;> omega

@[simp] theorem fatWritten_cluster (node : VfsNode) (offset done : Nat) :
    (fatWritten node offset done).cluster = node.cluster := by
  rw [fatWritten]
  split <;> rfl

theorem fatWritten_at (node : VfsNode) (offset done : Nat) (s : Slot) :
    (fatWritten node offset done).At fp s ↔ node.At fp s := by
  rw [fatWritten]
  split <;> rfl

theorem fatWritten_size (hn : node.size < 2 ^ 32) (h : offset + done < 2 ^ 32) :
    (fatWritten node offset done).size = max node.size (offset + done) := by
  rw [fatWritten]
  split
  · show (offset + done) % 2 ^ 64 % 2 ^ 32 = _
    omega
  · omega

theorem fatWritten_size_lt (hn : node.size < 2 ^ 32) (offset done : Nat) :
    (fatWritten node offset done).size < 2 ^ 32 := by
  rw [fatWritten]
  split
  · exact Nat.mod_lt _ (by decide)
  · exact hn

-- ---------------------------------------------------------------------------
-- The clusters of a write
-- ---------------------------------------------------------------------------

/-- The tail of the write goes to the following cluster although the first one has room. -/
def Misplaced (fp : FatPrivate) (offset size : Nat) : Prop :=
  0 < size ∧ offset % fp.bytesPerCluster + size < fp.bytesPerCluster ∧
    512 * ((size + 511) / 512) < offset % 512 + size

theorem clustersFor_add (hcs : 0 < cs) (k r : Nat) :
    clustersFor cs (k * cs + r) = k + clustersFor cs r := by
  by_cases hr : r = 0
  · subst hr
    rw [clustersFor_zero, clustersFor, Nat.add_zero, Nat.add_zero]
    by_cases hk : k = 0
    · subst hk
      exact Nat.div_eq_of_lt (by omega)
    · apply Nat.div_eq_of_lt_le
      · omega
      · rw [Nat.add_mul, Nat.one_mul]
        omega
  · rw [clustersFor, clustersFor, show k * cs + r + cs - 1 = r + cs - 1 + cs * k by
      rw [Nat.mul_comm k]; omega, Nat.add_mul_div_left _ _ hcs, Nat.add_comm]

theorem offset_mod (hg : Geometry fp) (offset : Nat) :
    offset % fp.bytesPerCluster % 512 = offset % 512 := by
  rw [hg.cluster]
  exact Nat.mod_mod_of_dvd _ (Nat.dvd_mul_right _ _)

theorem firstRun_of_misplaced (hg : Geometry fp) (h : Misplaced fp offset size) :
    firstRun fp.bytesPerCluster (offset % fp.bytesPerCluster) size =
      512 * ((size + 511) / 512) - offset % 512 := by
  obtain ⟨h1, h2, h3⟩ := h
  rw [firstRun, offset_mod hg, Nat.min_eq_right (a := fp.bytesPerCluster - _) (by omega)]
  omega

theorem firstRun_of_not_misplaced (hg : Geometry fp) (hsize : 0 < size)
    (h : ¬ Misplaced fp offset size) :
    firstRun fp.bytesPerCluster (offset % fp.bytesPerCluster) size =
      min size (fp.bytesPerCluster - offset % fp.bytesPerCluster) := by
  have hcl := hg.cluster
  have ho := Nat.mod_lt offset (show 0 < fp.bytesPerCluster by have := hg.bytes_pos; omega)
  have hmod := offset_mod hg offset
  rw [Misplaced] at h
  rw [firstRun]
  omega

/-- The clusters that the loops ask for are those of the bytes written, and one more for a
misplaced tail. -/
theorem clusters_asked (hg : Geometry fp) (hsize : 0 < size) (offset : Nat) :
    (¬ Misplaced fp offset size → offset / fp.bytesPerCluster + 1 + clustersFor fp.bytesPerCluster
        (size - firstRun fp.bytesPerCluster (offset % fp.bytesPerCluster) size) =
      clustersFor fp.bytesPerCluster (offset + size)) ∧
    (Misplaced fp offset size → offset / fp.bytesPerCluster + 1 + clustersFor fp.bytesPerCluster
        (size - firstRun fp.bytesPerCluster (offset % fp.bytesPerCluster) size) =
      offset / fp.bytesPerCluster + 2 ∧
      clustersFor fp.bytesPerCluster (offset + size) = offset / fp.bytesPerCluster + 1) := by
  have hcs := hg.bytes_pos
  have hdm := Nat.div_add_mod offset fp.bytesPerCluster
  rw [Nat.mul_comm] at hdm
  have ho := Nat.mod_lt offset (show 0 < fp.bytesPerCluster by omega)
  have hsum : offset + size = offset / fp.bytesPerCluster * fp.bytesPerCluster +
      (offset % fp.bytesPerCluster + size) := by omega
  rw [hsum, clustersFor_add (by omega)]
  constructor
  · intro h
    rw [firstRun_of_not_misplaced hg hsize h]
    by_cases hin : offset % fp.bytesPerCluster + size ≤ fp.bytesPerCluster
    · rw [Nat.min_eq_left (by omega), Nat.sub_self, clustersFor_zero, clustersFor_of_le (by omega) hin]
    · have hgt : fp.bytesPerCluster < offset % fp.bytesPerCluster + size := by omega
      rw [Nat.min_eq_right (by omega), clustersFor_of_gt (by omega) hgt,
        show offset % fp.bytesPerCluster + size - fp.bytesPerCluster =
          size - (fp.bytesPerCluster - offset % fp.bytesPerCluster) by omega]
      omega
  · intro h
    rw [firstRun_of_misplaced hg h]
    obtain ⟨h1, h2, h3⟩ := h
    rw [clustersFor_of_le (by omega) (by omega), clustersFor_of_le (by omega) (by omega)]
    exact ⟨rfl, rfl⟩

-- ---------------------------------------------------------------------------
-- The overlay
-- ---------------------------------------------------------------------------

/-- The node of a file with the chain `l`: the chain has room for the size, and the entry
is in a cluster of a directory. -/
structure FileNode (fp : FatPrivate) (m : Bytes) (node : VfsNode) (l : List Nat) : Prop where
  chain : FatChain fp m node.cluster l
  first : Valid fp node.cluster
  size_lt : node.size < 2 ^ 32
  size_le : node.size ≤ l.length * fp.bytesPerCluster
  entry : ∃ s : Slot, s.Ok fp ∧ node.At fp s ∧ s.cluster ∉ l ∧ fatEntry fp m s.cluster ≠ 0

/-- The call returns `size`; then the file's data are the old ones with the buffer over the
bytes from `offset` on, and the chain is as long as these need. -/
def Overlay (fp : FatPrivate) (junk : Bytes) (node : VfsNode) (l : List Nat) (offset size : Nat)
    (buf : Bytes) (d : Disk) : Prop :=
  ∃ N, ∀ fuel, N ≤ fuel → ∃ node' d' l',
    fatWrite fp junk fuel node offset size buf d = some ((size : Int), node', d') ∧
    node'.size = max node.size (offset + size) ∧
    FatChain fp d'.image node'.cluster l' ∧ l <+: l' ∧
    l'.length = max l.length (clustersFor fp.bytesPerCluster (offset + size)) ∧
    ∀ j, j < l'.length * fp.bytesPerCluster → chainByte fp d'.image l' j =
      if offset ≤ j ∧ j < offset + size then buf (j - offset) else chainByte fp d.image l' j

/-- The bytes of a misplaced tail are in the file already, where they belong and where they
go to. -/
def TailThere (fp : FatPrivate) (m : Bytes) (l : List Nat) (offset size : Nat) (buf : Bytes) : Prop :=
  offset / fp.bytesPerCluster + 1 < l.length ∧
    ∀ k, 512 * ((size + 511) / 512) - offset % 512 ≤ k → k < size →
      chainByte fp m l (offset + k) = buf k ∧
      chainByte fp m l ((offset / fp.bytesPerCluster + 1) * fp.bytesPerCluster +
        (k - (512 * ((size + 511) / 512) - offset % 512))) = buf k

/-- The bytes placed are the first `done` of the buffer where they belong, when no tail is
misplaced or the misplaced one changes nothing. -/
theorem placed_overlay (hg : Geometry fp) (hsize : 0 < size)
    (hdone : done = size ∨ done < size ∧ Short fp.bytesPerCluster len offset size done)
    (hmis : Misplaced fp offset size → done = size ∧
      ∀ k, 512 * ((size + 511) / 512) - offset % 512 ≤ k → k < size →
        old (offset + k) = buf k ∧
        old ((offset / fp.bytesPerCluster + 1) * fp.bytesPerCluster +
          (k - (512 * ((size + 511) / 512) - offset % 512))) = buf k)
    (hj : j < len * fp.bytesPerCluster) :
    placed fp.bytesPerCluster (offset / fp.bytesPerCluster) (offset % fp.bytesPerCluster)
        (firstRun fp.bytesPerCluster (offset % fp.bytesPerCluster) size) size 0 buf old j =
      if offset ≤ j ∧ j < offset + done then buf (j - offset) else old j := by
  have hcs := hg.bytes_pos
  have hdm := Nat.div_add_mod offset fp.bytesPerCluster
  rw [Nat.mul_comm] at hdm
  have hom := Nat.mod_lt offset (show 0 < fp.bytesPerCluster by omega)
  have hi : (offset / fp.bytesPerCluster + 1) * fp.bytesPerCluster =
      offset / fp.bytesPerCluster * fp.bytesPerCluster + fp.bytesPerCluster := by
    rw [Nat.add_mul, Nat.one_mul]
  rw [placed, hi, Nat.zero_add]
  by_cases hm : Misplaced fp offset size
  · -- the tail is there already
    obtain ⟨rfl, htail⟩ := hmis hm
    rw [firstRun_of_misplaced hg hm]
    obtain ⟨-, h2, h3⟩ := hm
    rw [hi] at htail
    generalize hrun : 512 * ((done + 511) / 512) - offset % 512 = run at *
    by_cases hj1 : offset ≤ j ∧ j < offset + run
    · rw [if_pos (by omega), if_pos (by omega)]
      congr 1
      omega
    · rw [if_neg (by omega)]
      by_cases hj2 : offset ≤ j ∧ j < offset + done
      · rw [if_neg (by omega), if_pos hj2, ← (htail (j - offset) (by omega) (by omega)).1]
        congr 1
        omega
      · rw [if_neg hj2]
        split
        · have := (htail (run + (j - (offset / fp.bytesPerCluster * fp.bytesPerCluster +
            fp.bytesPerCluster))) (by omega) (by omega)).2
          rw [Nat.zero_add, ← this]
          congr 1
          omega
        · rfl
  · have hin := hdone
    rw [Short, firstRun_of_not_misplaced hg hsize hm] at hin
    rw [firstRun_of_not_misplaced hg hsize hm]
    have hend : done = size ∨ done < size ∧ offset + done = max offset (len * fp.bytesPerCluster) := by
      obtain h | ⟨hlt, ⟨h, hlen⟩ | ⟨hlen, h⟩⟩ := hin
      · exact .inl h
      · have hle := Nat.mul_le_mul_right fp.bytesPerCluster hlen
        exact .inr ⟨hlt, by omega⟩
      · have hle := Nat.mul_le_mul_right fp.bytesPerCluster hlen
        have hrest : (len - (offset / fp.bytesPerCluster + 1)) * fp.bytesPerCluster +
            (offset / fp.bytesPerCluster + 1) * fp.bytesPerCluster = len * fp.bytesPerCluster := by
          rw [← Nat.add_mul, Nat.sub_add_cancel hlen]
        exact .inr ⟨hlt, by omega⟩
    by_cases hj1 : offset ≤ j ∧ j < offset + done
    · rw [if_pos hj1]
      by_cases hj2 : j < offset + min size (fp.bytesPerCluster - offset % fp.bytesPerCluster)
      · rw [if_pos (by omega)]
        congr 1
        omega
      · rw [if_neg (by omega), if_pos (by omega)]
        congr 1
        omega
    · rw [if_neg hj1, if_neg (by omega), if_neg (by omega)]

theorem FileNode.entry_grown (hn : FileNode fp m node l) (hgrown : Grown fp node.cluster m m' l l') :
    ∃ s : Slot, s.Ok fp ∧ node.At fp s ∧ s.cluster ∉ l' ∧ fatEntry fp m' s.cluster ≠ 0 := by
  obtain ⟨s, hs, hat, hsl, hne⟩ := hn.entry
  have hsl' : s.cluster ∉ l' := fun h => hne (hgrown.fresh _ h hsl)
  exact ⟨s, hs, hat, hsl', by rwa [hgrown.entry _ hs.1 hsl']⟩

theorem FileNode.update (hn : FileNode fp m node l) (hg : Geometry fp) (hd : NoFaults d)
    (hgrown : Grown fp node.cluster m d.image l l') (offset done : Nat) :
    ∃ d', fatUpdateDirentSize (fatWritten node offset done) d = (true, d') ∧ NoFaults d' ∧
      Grown fp node.cluster m d'.image l l' ∧
      ∀ j, j < l'.length * fp.bytesPerCluster →
        chainByte fp d'.image l' j = chainByte fp d.image l' j := by
  obtain ⟨s, hs, hat, hsl', -⟩ := hn.entry_grown hgrown
  obtain ⟨d', he, hd', him⟩ := fatUpdateDirentSize_spec hg hd hs ((fatWritten_at node offset done s).mpr hat)
  have hoff : ∀ a, ¬ InCluster fp s.cluster a → d'.image a = d.image a := by
    intro a ha
    rw [him, setDirent_off]
    by_contra hin
    have := Slot.in_cluster hg hs (show a - s.addr fp < 32 by omega)
    rw [show s.addr fp + (a - s.addr fp) = a by omega] at this
    exact ha this
  refine ⟨d', he, hd', ?_, fun j hj => ?_⟩
  · exact hgrown.of_table hg fun a ha => hoff a fun hin => hin.not_table ha
  · obtain ⟨x, hx, hin⟩ := chainAddr_in hg hj
    exact hoff _ fun h => hsl' (h.eq hg hs.1 (hgrown.chain.2 x hx) hin ▸ hx)

section Call

variable (hg : Geometry fp) (hd : NoFaults d) (hn : FileNode fp d.image node l)
  (ho : offset ≤ node.size)
  (hfree : clustersFor fp.bytesPerCluster (offset + size) ≤
    l.length + (freeClusters fp d.image).card)
include hg hn

include ho in
theorem overlay_of_empty (junk buf : Bytes) (hsize : size = 0) :
    Overlay fp junk node l offset size buf d := by
  subst hsize
  have hle : clustersFor fp.bytesPerCluster offset ≤ l.length := by
    have hcs := hg.bytes_pos
    have h := hn.size_le
    have hmul : (l.length + 1) * fp.bytesPerCluster = l.length * fp.bytesPerCluster +
        fp.bytesPerCluster := by rw [Nat.add_mul, Nat.one_mul]
    have hlt : (offset + fp.bytesPerCluster - 1) / fp.bytesPerCluster < l.length + 1 :=
      (Nat.div_lt_iff_lt_mul (by omega)).mpr (by omega)
    exact Nat.lt_succ_iff.mp hlt
  refine ⟨0, fun fuel _ => ⟨node, d, l, ?_, by omega, hn.chain, List.prefix_refl l, ?_, fun j _ => ?_⟩⟩
  · rw [fatWrite, if_pos rfl]
    rfl
  · rw [Nat.add_zero]
    omega
  · rw [if_neg (by omega)]

include hd hfree

theorem overlay_of_fits (junk buf : Bytes) (hsize : 0 < size) (h31 : size < 2 ^ 31)
    (h32 : offset + size < 2 ^ 32)
    (hmis : Misplaced fp offset size → TailThere fp d.image l offset size buf) :
    Overlay fp junk node l offset size buf d := by
  obtain ⟨hask, haskm⟩ := clusters_asked hg hsize offset
  refine ⟨offset + size + 1, fun fuel hf => ?_⟩
  obtain ⟨done, room, d₁, l₁, he, hd₁, hg₁, -, -, hbytes, hfull⟩ := fatWrite_spec hg hd hn.chain
    (hn.chain.ne_nil hg hn.first) hsize (show offset + size < fuel by omega) junk buf
  obtain ⟨hyes, -⟩ := hfull _ rfl
  have hroom : offset / fp.bytesPerCluster + 1 + clustersFor fp.bytesPerCluster
      (size - firstRun fp.bytesPerCluster (offset % fp.bytesPerCluster) size) ≤
      l.length + (freeClusters fp d.image).card := by
    by_cases hm : Misplaced fp offset size
    · have := (hmis hm).1
      rw [(haskm hm).1]
      omega
    · rw [hask hm]
      exact hfree
  obtain ⟨rfl, rfl, hlen⟩ := hyes hroom
  obtain ⟨d₂, hup, -, ⟨hchain, -, -, -⟩, hdata⟩ := hn.update hg hd₁ hg₁.toGrown offset done
  have hll : Misplaced fp offset done → l₁ = l := by
    intro hm
    have := (hmis hm).1
    rw [(haskm hm).1] at hlen
    exact (hg₁.pre.eq_of_length (by omega)).symm
  refine ⟨_, d₂, l₁, ?_, fatWritten_size hn.size_lt h32, ?_, hg₁.pre, ?_, fun j hj => ?_⟩
  · rw [he, if_pos rfl, hup, asInt_of_lt h31]
  · rw [fatWritten_cluster]
    exact hchain
  · by_cases hm : Misplaced fp offset done
    · have := (hmis hm).1
      rw [(haskm hm).1] at hlen
      rw [(haskm hm).2]
      omega
    · rw [hlen, hask hm]
  · rw [hdata j hj, hbytes j hj]
    exact placed_overlay hg hsize (.inl rfl) (fun hm => ⟨rfl, hll hm ▸ (hmis hm).2⟩) hj

theorem fits_of_overlay {junk buf : Bytes} (hsize : 0 < size)
    (hov : Overlay fp junk node l offset size buf d) :
    size < 2 ^ 31 ∧ offset + size < 2 ^ 32 ∧
      (Misplaced fp offset size → TailThere fp d.image l offset size buf) := by
  have hcs := hg.bytes_pos
  obtain ⟨hask, haskm⟩ := clusters_asked hg hsize offset
  obtain ⟨N, hov⟩ := hov
  obtain ⟨node', d', l', hres, hsz, hch, hpre, hlen', hdata'⟩ :=
    hov (max N (offset + size + 1)) (by omega)
  obtain ⟨done, room, d₁, l₁, he, hd₁, hg₁, -, -, hbytes, hfull⟩ := fatWrite_spec hg hd hn.chain
    (hn.chain.ne_nil hg hn.first) hsize (show offset + size < max N (offset + size + 1) by omega)
    junk buf
  obtain ⟨hyes, hno⟩ := hfull _ rfl
  rw [hres] at he
  by_cases hroom : offset / fp.bytesPerCluster + 1 + clustersFor fp.bytesPerCluster
      (size - firstRun fp.bytesPerCluster (offset % fp.bytesPerCluster) size) ≤
      l.length + (freeClusters fp d.image).card
  · obtain ⟨rfl, rfl, hlen⟩ := hyes hroom
    obtain ⟨d₂, hup, -, ⟨hchain, -, -, -⟩, hdata⟩ := hn.update hg hd₁ hg₁.toGrown offset done
    rw [if_pos rfl, hup] at he
    simp only [Option.some.injEq, Prod.mk.injEq] at he
    obtain ⟨hint, rfl, rfl⟩ := he
    have h31 : done < 2 ^ 31 := by
      have := asInt_lt done
      omega
    have h32 : offset + done < 2 ^ 32 := by
      have := fatWritten_size_lt hn.size_lt offset done
      omega
    refine ⟨h31, h32, fun hm => ?_⟩
    rw [fatWritten_cluster] at hch
    obtain rfl := hch.unique hchain
    obtain ⟨hn1, hn2⟩ := haskm hm
    rw [hn1] at hlen
    rw [hn2] at hlen'
    have hll : l' = l := (hpre.eq_of_length (by omega)).symm
    subst hll
    have hdm := Nat.div_add_mod offset fp.bytesPerCluster
    rw [Nat.mul_comm] at hdm
    have hi : ∀ k, (k + 1) * fp.bytesPerCluster = k * fp.bytesPerCluster + fp.bytesPerCluster :=
      fun k => by rw [Nat.add_mul, Nat.one_mul]
    have hlast : offset / fp.bytesPerCluster * fp.bytesPerCluster + fp.bytesPerCluster +
        fp.bytesPerCluster ≤ l'.length * fp.bytesPerCluster := by
      rw [← hi, ← hi]
      exact Nat.mul_le_mul_right _ (by omega)
    have hrun := firstRun_of_misplaced hg hm
    have hm' := hm
    obtain ⟨-, h2, h3⟩ := hm
    rw [hrun] at hbytes
    refine ⟨by omega, fun k hk hks => ?_⟩
    rw [hi]
    generalize hr : 512 * ((done + 511) / 512) - offset % 512 = run at *
    constructor
    · -- where the byte belongs the old one stayed
      have h := hdata' (offset + k) (by omega)
      rw [hdata _ (by omega), hbytes _ (by omega), placed] at h
      simp only [hi] at h
      rw [if_neg (by omega), if_neg (by omega), if_pos (by omega)] at h
      rw [h]
      congr 1
      omega
    · have h := hdata' (offset / fp.bytesPerCluster * fp.bytesPerCluster + fp.bytesPerCluster +
        (k - run)) (by omega)
      rw [hdata _ (by omega), hbytes _ (by omega), placed] at h
      simp only [hi] at h
      rw [if_neg (by omega), if_pos (by omega), if_neg (by omega)] at h
      rw [← h]
      congr 1
      omega
  · obtain ⟨rfl, hlt, -⟩ := hno (by omega)
    rw [if_neg (by simp)] at he
    simp only [Option.some.injEq, Prod.mk.injEq] at he
    have := asInt_le done
    omega

include ho

/-- Exactly when a write is the overlay that it should be. -/
theorem fatWrite_overlay_iff (junk buf : Bytes) :
    Overlay fp junk node l offset size buf d ↔
      size < 2 ^ 31 ∧ offset + size < 2 ^ 32 ∧
        (Misplaced fp offset size → TailThere fp d.image l offset size buf) := by
  by_cases hsize : 0 < size
  · exact ⟨fits_of_overlay hg hd hn hfree hsize, fun h =>
      overlay_of_fits hg hd hn hfree junk buf hsize h.1 h.2.1 h.2.2⟩
  · have h0 : size = 0 := by omega
    refine ⟨fun _ => ⟨by omega, ?_, fun h => absurd h.1 hsize⟩, fun _ =>
      overlay_of_empty hg hn ho junk buf h0⟩
    have := hn.size_lt
    omega

end Call

/-- A volume with clusters of two sectors: a boot sector, a table, and 8 clusters. -/
def overlayFp : FatPrivate where
  bpb := {
    bytesPerSector := 512
    sectorsPerCluster := 2
    reservedSectors := 1
    fatCount := 1
    rootMaxEntries := 0
    totalSectors16 := 0
    totalSectors32 := 18
    fatSize32 := 1
    rootCluster := 2
    sig := 0x29 }
  fatStart := 1
  dataStart := 2
  sectorsPerFat := 1
  rootCluster := 2
  bytesPerCluster := 1024

/-- The root directory is cluster 2, a file of 2000 bytes has the clusters 3 and 4. -/
def overlayDisk : Disk where
  sectors n := if n = 1 then
      putLE (putLE (putLE (fun _ => 0) 8 4 FAT_EOC) 12 4 4) 16 4 FAT_EOC
    else fun _ => 0
  faults := []

def overlayNode : VfsNode where
  name := []
  size := 2000
  flags := VFS_FILE
  cluster := 3
  dirLba := 2
  dirOff := 0
  parent := none
  children := []

theorem overlay_geometry : Geometry overlayFp := by
  constructor <;> decide

theorem overlay_fileNode : FileNode overlayFp overlayDisk.image overlayNode [3, 4] where
  chain := by
    refine ⟨.link (by decide) (.link (by decide +kernel) (.nil (by decide +kernel))), fun x hx => ?_⟩
    simp only [List.mem_cons, List.not_mem_nil, or_false] at hx
    obtain rfl | rfl := hx <;> exact ⟨by decide, by decide⟩
  first := ⟨by decide, by decide⟩
  size_lt := by decide
  size_le := by decide
  entry := ⟨⟨2, 0⟩, ⟨⟨by decide, by decide⟩, by decide⟩, ⟨by decide, by decide⟩, by decide,
    by decide +kernel⟩

/-- 1000 bytes written at offset 500 of that file are an overlay. -/
theorem overlay_across_clusters :
    Overlay overlayFp (fun _ => 0) overlayNode [3, 4] 500 1000 (fun _ => 1) overlayDisk :=
  (fatWrite_overlay_iff overlay_geometry (show NoFaults overlayDisk from rfl) overlay_fileNode
    (by decide) (by decide +kernel) _ _).mpr
    ⟨by decide, by decide, fun h => absurd h.2.1 (by decide)⟩

/-- 500 bytes written at offset 100 are not: they span two sectors of the first cluster, and
the loop over sectors makes one round. -/
theorem tail_misplaced : Geometry overlayFp ∧ NoFaults overlayDisk ∧
    FileNode overlayFp overlayDisk.image overlayNode [3, 4] ∧ 100 ≤ overlayNode.size ∧
    clustersFor overlayFp.bytesPerCluster (100 + 500) ≤
      [3, 4].length + (freeClusters overlayFp overlayDisk.image).card ∧
    ¬ Overlay overlayFp (fun _ => 0) overlayNode [3, 4] 100 500 (fun _ => 1) overlayDisk := by
  have hfree : clustersFor overlayFp.bytesPerCluster (100 + 500) ≤
      [3, 4].length + (freeClusters overlayFp overlayDisk.image).card := by decide +kernel
  refine ⟨overlay_geometry, rfl, overlay_fileNode, by decide, hfree, fun h => ?_⟩
  have htail := (fits_of_overlay overlay_geometry (show NoFaults overlayDisk from rfl) overlay_fileNode
    hfree (by decide) h).2.2 ⟨by decide, by decide, by decide⟩
  exact absurd (htail.2 412 (by decide) (by decide)).1 (by decide +kernel)

end EponaOS.Fs
