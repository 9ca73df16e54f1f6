import EponaOS.Fs.Vfs

/-!
# What a truncated file returns

`vfs_create` on an existing file only sets the size in the node to 0: the clusters stay,
with their bytes, and so do the offsets of other handles. A handle that stands past the
end reads the old bytes, since `size - offset` wraps, and a write past the end leaves the
old bytes in between. As long as every read and every write starts in the file, or where
it ends, only bytes stored since are returned.
-/

namespace EponaOS.Fs

open Bytes

variable {fp : FatPrivate} {d d' : Disk} {m m' : Bytes} {node : VfsNode} {l l' : List Nat}
  {s s' s₀ t t' : FileState} {a : FileAct}

def EndsBy (fp : FatPrivate) (d : Disk) (node : VfsNode) (n : Nat) : Prop :=
  ∀ l, FatChain fp d.image node.cluster l → l.length ≤ n

/-- The read starts within the file or behind its last cluster, and takes no byte from a
following cluster that is not its turn. -/
def ReadOk (fp : FatPrivate) (node : VfsNode) (d : Disk) (offset size : Nat) : Prop :=
  size = 0 ∨ EndsBy fp d node (offset / fp.bytesPerCluster) ∨
    (offset ≤ node.size ∧ (Misplaced fp offset (min size (node.size - offset)) →
      EndsBy fp d node (offset / fp.bytesPerCluster + 1)))

/-- The write starts within the file or at its end, and its tail is not misplaced. -/
def WriteOk (fp : FatPrivate) (node : VfsNode) (d : Disk) (offset size : Nat) (buf : Bytes) : Prop :=
  size = 0 ∨ (size < 2 ^ 31 ∧ offset ≤ node.size ∧ (Misplaced fp offset size →
    ∀ l, FatChain fp d.image node.cluster l → TailThere fp d.image l offset size buf))

def FileOk (fp : FatPrivate) (s : FileState) : FileAct → Prop
  | .vfsRead h size _ _ => ∀ offset, s.files h = some offset → ReadOk fp s.node s.disk offset size
  | .vfsWrite h size buf =>
    ∀ offset, s.files h = some offset → WriteOk fp s.node s.disk offset size buf
  | _ => True

/-- A read returns what was stored since the truncation, and 0 where nothing was. -/
def ReturnsStored (s : FileState) : FileAct → Prop
  | .vfsRead h _ ret buf => ∀ offset, s.files h = some offset →
      ∀ k, k < ret.toNat → buf k = (s.stored (offset + k)).getD 0
  | _ => True

-- ---------------------------------------------------------------------------
-- One read
-- ---------------------------------------------------------------------------

theorem asInt_toNat_le (n : Nat) : (asInt n).toNat ≤ n := by
  have := asInt_le n
  omega

theorem vfsRead_returns (hg : Geometry fp) (hd : NoFaults d) (hn : FileNode fp d.image node l)
    (hok : ReadOk fp node d offset size) (before : Bytes) :
    ∃ ret offset' buf,
      Returns (fun fuel => vfsRead fp fuel node offset size before d) (ret, offset', buf, d) ∧
      ∀ k, k < ret.toNat → offset + k < node.size ∧ buf k = chainByte fp d.image l (offset + k) := by
  generalize hsz : min size (remaining node offset) = n
  have hne := hn.chain.ne_nil hg hn.first
  have hcall : ∀ r, fatRead fp (offset + n + 1) node offset n before d = some r →
      Returns (fun fuel => vfsRead fp fuel node offset size before d) (readResult offset n r) := by
    intro r hr
    rw [← hsz] at hr ⊢
    exact vfsRead_returns_of hr
  by_cases hin : offset / fp.bytesPerCluster < l.length
  · obtain ⟨buf, hread, -, hbytes⟩ := fatRead_spec hg hd hn.chain hne (Nat.lt_succ_self (offset + n)) hin
      rfl before
    have hend := readEnd_le fp.bytesPerCluster l.length (offset / fp.bytesPerCluster)
      (firstRun fp.bytesPerCluster (offset % fp.bytesPerCluster) n) 0 n
    have hlast : ∀ i, l.length ≤ i + 1 →
        readEnd fp.bytesPerCluster l.length i
            (firstRun fp.bytesPerCluster (offset % fp.bytesPerCluster) n) 0 n ≤
          firstRun fp.bytesPerCluster (offset % fp.bytesPerCluster) n := by
      intro i hi
      rw [readEnd, show l.length - (i + 1) = 0 by omega, Nat.zero_mul]
      omega
    generalize he : readEnd fp.bytesPerCluster l.length (offset / fp.bytesPerCluster)
      (firstRun fp.bytesPerCluster (offset % fp.bytesPerCluster) n) 0 n = e at hread hbytes hend
    have hres := hcall _ hread
    rw [readResult_eq (show asInt e ≤ (n : Int) by have := asInt_le e; omega)] at hres
    refine ⟨_, _, buf, hres, fun k hk => ?_⟩
    · dsimp only at hk
      have hke : k < e := Nat.lt_of_lt_of_le hk (asInt_toNat_le e)
      obtain rfl | hbehind | ⟨ho, hmis⟩ := hok
      · omega
      · have := hbehind l hn.chain
        omega
      · have hrem := remaining_eq hn.size_lt ho
        have hkn : k < n := by omega
        refine ⟨by omega, ?_⟩
        rw [hbytes k hke]
        congr 1
        by_cases hm : Misplaced fp offset n
        · -- nothing is taken from behind the last cluster
          have hle := hlast _ (hmis (by rwa [← hrem, hsz]) l hn.chain)
          rw [he] at hle
          have hdm := Nat.div_add_mod offset fp.bytesPerCluster
          rw [Nat.mul_comm] at hdm
          rw [readPos, if_pos (by omega)]
          omega
        · exact readPos_eq hg (by omega) hm hkn
  · have hread := fatRead_behind hg hd hn.chain hne (Nat.lt_succ_self (offset + n)) (Nat.not_lt.mp hin)
      before
    exact ⟨-1, offset, before, hcall _ hread, fun k hk => absurd hk (by simp)⟩

-- ---------------------------------------------------------------------------
-- One write
-- ---------------------------------------------------------------------------

theorem le_clustersFor (hcs : 0 < cs) (n : Nat) : n ≤ clustersFor cs n * cs := by
  have h1 := Nat.div_add_mod (n + cs - 1) cs
  have h2 := Nat.mod_lt (n + cs - 1) hcs
  rw [Nat.mul_comm] at h1
  rw [clustersFor]
  omega

theorem fatWritten_size_le (node : VfsNode) (offset done : Nat) :
    (fatWritten node offset done).size ≤ max node.size (offset + done) := by
  rw [fatWritten]
  split
  · have h1 := Nat.mod_le (offset + done) (2 ^ 64)
    have h2 := Nat.mod_le ((offset + done) % 2 ^ 64) (2 ^ 32)
    show (offset + done) % 2 ^ 64 % 2 ^ 32 ≤ _
    omega
  · exact Nat.le_max_left ..

/-- `done` bytes of the buffer are in the file, all others of the chain are as before. -/
structure Overlaid (fp : FatPrivate) (d d' : Disk) (node node' : VfsNode) (l l' : List Nat)
    (offset done : Nat) (buf : Bytes) : Prop where
  disk : NoFaults d'
  file : FileNode fp d'.image node' l'
  pre : l <+: l'
  within : 0 < done → offset + done ≤ l'.length * fp.bytesPerCluster
  size_le : node'.size ≤ node.size ∨ (offset ≤ node.size ∧ node'.size ≤ offset + done)
  bytes : ∀ j, j < l'.length * fp.bytesPerCluster → chainByte fp d'.image l' j =
    if offset ≤ j ∧ j < offset + done then buf (j - offset) else chainByte fp d.image l' j

theorem fatWrite_overlaid (hg : Geometry fp) (hd : NoFaults d) (hn : FileNode fp d.image node l)
    (hok : WriteOk fp node d offset size buf) (junk : Bytes) :
    ∃ (fuel done : Nat) (node' : VfsNode) (d' : Disk) (l' : List Nat), fatWrite fp junk fuel node offset size buf d =
        some ((done : Int), node', d') ∧ Overlaid fp d d' node node' l l' offset done buf := by
  by_cases hsize : size = 0
  · subst hsize
    refine ⟨0, 0, node, d, l, ?_, hd, hn, List.prefix_refl l, fun h => absurd h (by decide),
      .inl (Nat.le_refl _), fun j _ => ?_⟩
    · rw [fatWrite, if_pos rfl]
      rfl
    · rw [if_neg (by omega)]
  obtain ⟨h31, ho, hmis⟩ := hok.resolve_left hsize
  have hcs := hg.bytes_pos
  have hpos : 0 < size := Nat.pos_of_ne_zero hsize
  obtain ⟨hask, haskm⟩ := clusters_asked hg hpos offset
  obtain ⟨done, room, d₁, l₁, he, hd₁, hg₁, -, -, hbytes, hfull⟩ := fatWrite_spec hg hd hn.chain
    (hn.chain.ne_nil hg hn.first) hpos (Nat.lt_succ_self (offset + size)) junk buf
  obtain ⟨hyes, hno⟩ := hfull _ rfl
  have htail : Misplaced fp offset size → TailThere fp d.image l offset size buf :=
    fun hm => hmis hm l hn.chain
  have hchain := hn.size_le
  have hlen := Nat.mul_le_mul_right fp.bytesPerCluster hg₁.pre.length_le
  have hdm := Nat.div_add_mod offset fp.bytesPerCluster
  rw [Nat.mul_comm] at hdm
  have hom := Nat.mod_lt offset (show 0 < fp.bytesPerCluster by omega)
  by_cases hroom : offset / fp.bytesPerCluster + 1 + clustersFor fp.bytesPerCluster
      (size - firstRun fp.bytesPerCluster (offset % fp.bytesPerCluster) size) ≤
      l.length + (freeClusters fp d.image).card
  · obtain ⟨rfl, rfl, hlen₁⟩ := hyes hroom
    obtain ⟨d₂, hup, hd₂, hg₂, hdata⟩ := hn.update hg hd₁ hg₁.toGrown offset done
    have hwithin : offset + done ≤ l₁.length * fp.bytesPerCluster := by
      by_cases hm : Misplaced fp offset done
      · have h1 := Nat.mul_le_mul_right fp.bytesPerCluster (Nat.le_of_lt (htail hm).1)
        have h2 := hm.2.1
        rw [Nat.add_mul, Nat.one_mul] at h1
        omega
      · have h1 := le_clustersFor (show 0 < fp.bytesPerCluster by omega) (offset + done)
        rw [← hask hm] at h1
        exact Nat.le_trans h1 (Nat.mul_le_mul_right _ (by omega))
    have hll : Misplaced fp offset done → l₁ = l := by
      intro hm
      have := (htail hm).1
      rw [(haskm hm).1] at hlen₁
      exact (hg₁.pre.eq_of_length (by omega)).symm
    have hsz := fatWritten_size_le node offset done
    refine ⟨offset + done + 1, done, fatWritten node offset done, d₂, l₁, ?_, hd₂, ?_, hg₂.pre, fun _ => hwithin,
      by omega, fun j hj => ?_⟩
    · rw [he, if_pos rfl, hup, asInt_of_lt h31]
    · refine ⟨?_, ?_, fatWritten_size_lt hn.size_lt .., by omega, ?_⟩
      · rw [fatWritten_cluster]
        exact hg₂.chain
      · rw [fatWritten_cluster]
        exact hn.first
      · obtain ⟨s, hs, hat, hout, hne⟩ := hn.entry_grown hg₂
        exact ⟨s, hs, (fatWritten_at node offset done s).mpr hat, hout, hne⟩
    · rw [hdata j hj, hbytes j hj]
      exact placed_overlay hg hpos (.inl rfl) (fun hm => ⟨rfl, hll hm ▸ (htail hm).2⟩) hj
  · obtain ⟨rfl, hlt, hshort, -⟩ := hno (by omega)
    -- a full volume: no tail is misplaced, since the chain would have room for it
    have hm : ¬ Misplaced fp offset size := by
      intro hm
      have := (htail hm).1
      rw [(haskm hm).1] at hroom
      omega
    refine ⟨offset + size + 1, done, node, d₁, l₁, ?_, hd₁, ?_, hg₁.pre, fun h0 => ?_,
      .inl (Nat.le_refl _), fun j hj => ?_⟩
    · rw [he, if_neg (by simp), asInt_of_lt (by omega)]
    · exact ⟨hg₁.chain, hn.first, hn.size_lt, by omega, hn.entry_grown hg₁.toGrown⟩
    · rw [Short, firstRun_of_not_misplaced hg hpos hm] at hshort
      obtain ⟨h, -⟩ | ⟨hin, h⟩ := hshort
      · omega
      · have hrest : (l₁.length - (offset / fp.bytesPerCluster + 1)) * fp.bytesPerCluster +
            (offset / fp.bytesPerCluster + 1) * fp.bytesPerCluster =
            l₁.length * fp.bytesPerCluster := by
          rw [← Nat.add_mul, Nat.sub_add_cancel hin]
        rw [Nat.add_mul (offset / fp.bytesPerCluster), Nat.one_mul] at hrest
        omega
    · rw [hbytes j hj]
      exact placed_overlay hg hpos (.inr ⟨hlt, hshort⟩) (fun h => absurd h hm) hj

-- ---------------------------------------------------------------------------
-- Whole runs
-- ---------------------------------------------------------------------------

/-- What was stored is what the chain has, and every position of the file was stored. -/
structure Kept (fp : FatPrivate) (s : FileState) (l : List Nat) : Prop where
  disk : NoFaults s.disk
  file : FileNode fp s.disk.image s.node l
  stored : ∀ j b, s.stored j = some b →
    j < l.length * fp.bytesPerCluster ∧ chainByte fp s.disk.image l j = b
  below : ∀ j, j < s.node.size → ∃ b, s.stored j = some b

theorem chainByte_pre (hg : Geometry fp) (h : l <+: l') (hj : j < l.length * fp.bytesPerCluster)
    (m : Bytes) : chainByte fp m l' j = chainByte fp m l j := by
  have hlt := div_lt_of_chain hg hj
  obtain ⟨t, rfl⟩ := h
  rw [chainByte, chainByte, chainAddr, chainAddr, List.getD_append _ _ _ _ hlt]

theorem FileNode.truncated (hn : FileNode fp m node l) :
    FileNode fp m (vfsCreateExisting node) l :=
  ⟨hn.chain, hn.first, show 0 < 2 ^ 32 by decide, Nat.zero_le _, hn.entry⟩

theorem Kept.of_create (hd : NoFaults s.disk) (hn : FileNode fp s.disk.image s.node l)
    (h : fileStep fp s (.vfsCreate k) s₀) : Kept fp s₀ l := by
  obtain ⟨-, rfl⟩ := h
  exact ⟨hd, hn.truncated, fun _ _ h => absurd h (Option.some_ne_none _).symm, fun _ h => absurd h (Nat.not_lt_zero _)⟩

theorem Kept.step (hg : Geometry fp) (hs : Kept fp s l) (hok : FileOk fp s a)
    (h : fileStep fp s a s') : ∃ l', Kept fp s' l' := by
  cases a with
  | vfsOpen k =>
    obtain ⟨-, rfl⟩ := h
    exact ⟨l, hs.disk, hs.file, hs.stored, hs.below⟩
  | vfsCreate k => exact ⟨l, .of_create hs.disk hs.file h⟩
  | vfsClose k =>
    obtain rfl := h
    exact ⟨l, hs.disk, hs.file, hs.stored, hs.below⟩
  | seek k offset =>
    obtain ⟨-, -, rfl⟩ := h
    exact ⟨l, hs.disk, hs.file, hs.stored, hs.below⟩
  | vfsRead k size ret buf =>
    obtain ⟨offset, offset', before, d, hk, hret, rfl⟩ := h
    obtain ⟨_, _, _, hret', -⟩ := vfsRead_returns hg hs.disk hs.file (hok offset hk) before
    cases hret.unique hret'
    exact ⟨l, hs.disk, hs.file, hs.stored, hs.below⟩
  | vfsWrite k size buf =>
    obtain ⟨offset, offset', junk, ret, node, d, hk, hret, rfl⟩ := h
    have hwok := hok offset hk
    obtain ⟨fuel, done, node', d', l', he, hover⟩ :=
      fatWrite_overlaid hg hs.disk hs.file hwok junk
    cases hret.unique (vfsWrite_returns_of he)
    refine ⟨l', hover.disk, hover.file, fun j b hj => ?_, fun j hj => ?_⟩
    · change store s.stored offset done buf j = some b at hj
      rw [store] at hj
      split at hj
      · rename_i hin
        have hw := hover.within (by omega)
        obtain rfl := Option.some.inj hj
        exact ⟨by omega, (hover.bytes j (by omega)).trans (if_pos hin)⟩
      · rename_i hout
        obtain ⟨hlt, hb⟩ := hs.stored j b hj
        have hle := Nat.mul_le_mul_right fp.bytesPerCluster hover.pre.length_le
        refine ⟨by omega, ?_⟩
        rw [hover.bytes j (by omega), if_neg hout, chainByte_pre hg hover.pre hlt, hb]
    · have hle := hover.size_le
      change j < node.size at hj
      change ∃ b, store s.stored offset done buf j = some b
      rw [store]
      by_cases hin : offset ≤ j ∧ j < offset + done
      · exact ⟨_, if_pos hin⟩
      · obtain ⟨b, hb⟩ := hs.below j (by omega)
        exact ⟨b, by rw [if_neg hin, hb]⟩

theorem Kept.returns (hg : Geometry fp) (hs : Kept fp s l) (hok : FileOk fp s a)
    (h : fileStep fp s a s') : ReturnsStored s a := by
  cases a with
  | vfsRead k size ret buf =>
    obtain ⟨offset, offset', before, d, hk, hret, -⟩ := h
    obtain ⟨_, _, _, hret', hbytes⟩ := vfsRead_returns hg hs.disk hs.file (hok offset hk) before
    cases hret.unique hret'
    intro o ho i hi
    obtain rfl := Option.some.inj (hk.symm.trans ho)
    obtain ⟨hlt, hb⟩ := hbytes i hi
    obtain ⟨b, hstored⟩ := hs.below _ hlt
    rw [hb, (hs.stored _ _ hstored).2, hstored, Option.getD_some]
  | _ => trivial

/-- In a run after a truncation whose reads and writes all start within the file or at its
end, each read returns what was stored since the truncation and nothing older. -/
theorem truncated_reads (hg : Geometry fp) (hd : NoFaults s.disk)
    (hn : FileNode fp s.disk.image s.node l) (hcreate : fileStep fp s (.vfsCreate h) s₀)
    (hrun : Run (fileStep fp) (FileOk fp) s₀ acts t) (hok : FileOk fp t a)
    (hstep : fileStep fp t a t') : ReturnsStored t a := by
  have hinv : ∃ l, Kept fp t l := by
    refine hrun.invariant (fun s => ∃ l, Kept fp s l) ⟨l, .of_create hd hn hcreate⟩ ?_
    rintro s a s' ⟨l, hs⟩ hok hstep
    exact hs.step hg hok hstep
  obtain ⟨l', hkept⟩ := hinv
  exact hkept.returns hg hok hstep

-- ---------------------------------------------------------------------------
-- A file of 2000 bytes, all 1
-- ---------------------------------------------------------------------------

def oldDisk : Disk :=
  { overlayDisk with
    sectors := fun n => if 4 ≤ n ∧ n < 8 then fun _ => 1 else overlayDisk.sectors n }

theorem old_fileNode : FileNode overlayFp oldDisk.image overlayNode [3, 4] where
  chain := by
    refine ⟨.link (by decide) (.link (by decide +kernel) (.nil (by decide +kernel))), fun x hx => ?_⟩
    exact overlay_fileNode.chain.2 x hx
  first := overlay_fileNode.first
  size_lt := overlay_fileNode.size_lt
  size_le := overlay_fileNode.size_le
  entry := ⟨⟨2, 0⟩, ⟨⟨by decide, by decide⟩, by decide⟩, ⟨by decide, by decide⟩, by decide,
    by decide +kernel⟩

def oldState : FileState where
  node := overlayNode
  disk := oldDisk
  files h := if h = 0 then some 100 else none
  stored _ := none

def truncatedState : FileState :=
  { oldState with
    node := vfsCreateExisting overlayNode
    files := setFile oldState.files 1 (some 0) }

theorem old_create : fileStep overlayFp oldState (.vfsCreate (some 1)) truncatedState := by
  refine ⟨fun k hk => ?_, rfl⟩
  obtain rfl := Option.some.inj hk
  rfl

/-- Three bytes written through the new handle are read back, and nothing else. -/
theorem truncated_reads_written : ∃ t ret buf t',
    Run (fileStep overlayFp) (FileOk overlayFp) truncatedState
      [.vfsWrite 1 3 (fun _ => 7), .seek 1 0] t ∧
    fileStep overlayFp t (.vfsRead 1 3 ret buf) t' ∧ ReturnsStored t (.vfsRead 1 3 ret buf) := by
  have hmis : ¬ Misplaced overlayFp 0 3 := fun h => absurd h.2.2 (by decide)
  have hwok : WriteOk overlayFp truncatedState.node truncatedState.disk 0 3 (fun _ => 7) :=
    .inr ⟨by decide, by decide, fun h => absurd h hmis⟩
  obtain ⟨fuel, done, node, d, l, he, hover⟩ := fatWrite_overlaid overlay_geometry
    (show NoFaults oldDisk from rfl) old_fileNode.truncated hwok (fun _ => 0)
  have hrok : ReadOk overlayFp node d 0 3 := by
    refine .inr (.inr ⟨Nat.zero_le _, fun h => absurd h.2.2 ?_⟩)
    generalize node.size - 0 = n
    omega
  obtain ⟨ret, offset', buf, hread, -⟩ := vfsRead_returns overlay_geometry hover.disk hover.file hrok
    (fun _ => 0)
  obtain ⟨t, hrun, hnode, hdisk, hfile⟩ : ∃ t, Run (fileStep overlayFp) (FileOk overlayFp)
      truncatedState [.vfsWrite 1 3 (fun _ => 7), .seek 1 0] t ∧
      t.node = node ∧ t.disk = d ∧ t.files 1 = some 0 := by
    refine ⟨_, .cons (fun o ho => ?_) ⟨0, _, _, _, _, _, rfl, vfsWrite_returns_of he, rfl⟩
      (.cons trivial ⟨Option.some_ne_none _, by decide, rfl⟩ .nil), rfl, rfl, rfl⟩
    obtain rfl : 0 = o := Option.some.inj ho
    exact hwok
  have hok : FileOk overlayFp t (.vfsRead 1 3 ret buf) := by
    intro o ho
    obtain rfl : 0 = o := Option.some.inj (hfile.symm.trans ho)
    rw [hnode, hdisk]
    exact hrok
  have hstep : ∃ t', fileStep overlayFp t (.vfsRead 1 3 ret buf) t' :=
    ⟨_, 0, offset', fun _ => 0, d, hfile, by rw [hnode, hdisk]; exact hread, rfl⟩
  obtain ⟨t', hstep⟩ := hstep
  exact ⟨t, ret, buf, t', hrun, hstep, truncated_reads overlay_geometry
    (show NoFaults oldDisk from rfl) old_fileNode old_create hrun hok hstep⟩

theorem old_handle_read : ∃ offset' buf,
    Returns (fun fuel => vfsRead overlayFp fuel truncatedState.node 100 10 (fun _ => 0) oldDisk)
      (10, offset', buf, oldDisk) ∧
    ∀ k, k < 10 → buf k = chainByte overlayFp oldDisk.image [3, 4] (readPos overlayFp.bytesPerCluster
      (100 / overlayFp.bytesPerCluster) (100 % overlayFp.bytesPerCluster)
      (firstRun overlayFp.bytesPerCluster (100 % overlayFp.bytesPerCluster) 10) 0 k) := by
  have hsize : min 10 (remaining truncatedState.node 100) = 10 := by
    show min 10 ((0 + 2 ^ 64 - 100) % 2 ^ 64) = 10
    omega
  obtain ⟨buf, hread, -, hbytes⟩ := fatRead_spec overlay_geometry (show NoFaults oldDisk from rfl)
    old_fileNode.truncated.chain (by decide) (show 100 + 10 < 200 by decide)
    (show 100 / overlayFp.bytesPerCluster < 2 by decide) rfl (fun _ => 0)
  have hend : readEnd overlayFp.bytesPerCluster [3, 4].length (100 / overlayFp.bytesPerCluster)
      (firstRun overlayFp.bytesPerCluster (100 % overlayFp.bytesPerCluster) 10) 0 10 = 10 := by decide
  rw [hend] at hread hbytes
  rw [asInt_of_lt (by decide)] at hread
  have hcall : fatRead overlayFp 200 truncatedState.node 100
      (min 10 (remaining truncatedState.node 100)) (fun _ => 0) oldDisk = some (10, buf, oldDisk) := by
    rw [hsize]
    exact hread
  have hret := vfsRead_returns_of hcall
  rw [hsize, readResult_eq (Int.le_refl 10)] at hret
  exact ⟨_, buf, hret, hbytes⟩

/-- Ten bytes read through the old handle are bytes from before the truncation. -/
theorem old_bytes_read : Geometry overlayFp ∧ NoFaults oldState.disk ∧
    FileNode overlayFp oldState.disk.image oldState.node [3, 4] ∧
    ∃ s₀ buf t, fileStep overlayFp oldState (.vfsCreate (some 1)) s₀ ∧
      fileStep overlayFp s₀ (.vfsRead 0 10 10 buf) t ∧ ¬ ReturnsStored s₀ (.vfsRead 0 10 10 buf) := by
  obtain ⟨offset', buf, hret, hbytes⟩ := old_handle_read
  refine ⟨overlay_geometry, rfl, old_fileNode, truncatedState, buf, _, old_create,
    ⟨100, _, fun _ => 0, oldDisk, rfl, hret, rfl⟩, fun h => ?_⟩
  have h0 := h 100 rfl 0 (by decide)
  rw [hbytes 0 (by decide)] at h0
  exact absurd h0 (by decide +kernel)

end EponaOS.Fs
