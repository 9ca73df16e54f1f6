import EponaOS.Lib.BlockChain
import EponaOS.Lib.Fuel
import EponaOS.User.Malloc

/-!
# The blocks of a user heap

What each write of the allocator does to the headers, and what taking, growing and merging
do to the list of blocks that the headers link.
-/

namespace EponaOS.User

open Bytes BlockList

variable {m m' : Bytes} {h x v lo hi first n grow : Nat} {s : UserHeap} {b c e : Blk}
  {bs pre mid mid' post : List Blk}

-- ---------------------------------------------------------------------------
-- Headers
-- ---------------------------------------------------------------------------

def cell (m : Bytes) (h : Nat) : Cell := ⟨blkSize m h + BLOCK_SIZE, blkFree m h != 0, blkNext m h⟩

def Apart (x h : Nat) : Prop := x + BLOCK_SIZE ≤ h ∨ h + BLOCK_SIZE ≤ x

theorem cell_congr (hm : ∀ i, i < BLOCK_SIZE → m' (x + i) = m (x + i)) : cell m' x = cell m x := by
  have hget : ∀ o n, o + n ≤ BLOCK_SIZE → getLE m' (x + o) n = getLE m (x + o) n := by
    intro o n hon
    apply getLE_congr
    intro i hi
    rw [Nat.add_assoc]
    exact hm (o + i) (by omega)
  simp only [cell, blkSize, blkFree, blkNext]
  rw [hget 4 4 (by decide), hget 8 8 (by decide)]
  congr 2
  exact hget 0 4 (by decide)

theorem cell_setBlkSize (m : Bytes) (h v : Nat) :
    cell (setBlkSize m h v) h = { cell m h with size := v % 2 ^ 32 + BLOCK_SIZE } := by
  have hfield : 256 ^ 4 = 2 ^ 32 := by norm_num
  simp only [cell, blkSize, blkFree, blkNext, setBlkSize]
  rw [getLE_putLE_same, hfield, getLE_putLE_off _ _ (by omega), getLE_putLE_off _ _ (by omega)]

theorem cell_setBlkFree (m : Bytes) (h v : Nat) :
    cell (setBlkFree m h v) h = { cell m h with free := v % 2 ^ 32 != 0 } := by
  have hfield : 256 ^ 4 = 2 ^ 32 := by norm_num
  simp only [cell, blkSize, blkFree, blkNext, setBlkFree]
  rw [getLE_putLE_same, hfield, getLE_putLE_off _ _ (by omega), getLE_putLE_off _ _ (by omega)]

theorem cell_setBlkNext (m : Bytes) (h v : Nat) :
    cell (setBlkNext m h v) h = { cell m h with next := v % 2 ^ 64 } := by
  have hfield : 256 ^ 8 = 2 ^ 64 := by norm_num
  simp only [cell, blkSize, blkFree, blkNext, setBlkNext]
  rw [getLE_putLE_same, hfield, getLE_putLE_off _ _ (by omega), getLE_putLE_off _ _ (by omega)]

theorem cell_newBlock (m : Bytes) (h size : Nat) :
    cell (newBlock m h size) h = ⟨size % 2 ^ 32 + BLOCK_SIZE, true, 0⟩ := by
  rw [newBlock, cell_setBlkNext, cell_setBlkFree, cell_setBlkSize]
  rfl

section
variable (ha : Apart x h)

include ha in
theorem cell_putLE_off (o n : Nat) (ho : o + n ≤ BLOCK_SIZE) :
    cell (putLE m (h + o) n v) x = cell m x := by
  apply cell_congr
  intro i hi
  unfold Apart at ha
  exact putLE_off _ _ (by omega)

include ha in
theorem cell_setBlkSize_off : cell (setBlkSize m h v) x = cell m x :=
  cell_putLE_off ha 0 4 (by decide)

include ha in
theorem cell_setBlkFree_off : cell (setBlkFree m h v) x = cell m x :=
  cell_putLE_off ha 4 4 (by decide)

include ha in
theorem cell_setBlkNext_off : cell (setBlkNext m h v) x = cell m x :=
  cell_putLE_off ha 8 8 (by decide)

include ha in
theorem cell_newBlock_off : cell (newBlock m h v) x = cell m x := by
  rw [newBlock, cell_setBlkNext_off ha, cell_setBlkFree_off ha, cell_setBlkSize_off ha]
end

theorem blkSize_eq (m : Bytes) (h : Nat) : blkSize m h = (cell m h).size - BLOCK_SIZE := rfl
theorem blkNext_eq (m : Bytes) (h : Nat) : blkNext m h = (cell m h).next := rfl

theorem blkFree_ne_zero (m : Bytes) (h : Nat) : blkFree m h ≠ 0 ↔ (cell m h).free = true := by
  simp [cell]

-- ---------------------------------------------------------------------------
-- The loops over the list
-- ---------------------------------------------------------------------------

theorem findFree_returns (hc : Chained (cell m) bs 0) (hpos : ∀ b ∈ bs, 0 < b.addr) (size : Nat) :
    ∃ blk, Returns (fun fuel => findFree m size fuel (headAddr bs 0)) blk ∧
      (blk = 0 ∨ ∃ pre b post, bs = pre ++ [b] ++ post ∧ b.free = true ∧
        size + BLOCK_SIZE ≤ b.size ∧ blk = b.addr) := by
  induction bs with
  | nil => exact ⟨0, .step (fun _ => rfl) (.pure 0), .inl rfl⟩
  | cons b bs ih =>
    obtain ⟨hcell, hrest⟩ := hc
    have hb := hpos b (by simp)
    have hne : b.addr ≠ 0 := by omega
    have hnext : blkNext m b.addr = headAddr bs 0 := by rw [blkNext_eq, hcell]
    have hfree := blkFree_ne_zero m b.addr
    have hsize : blkSize m b.addr + BLOCK_SIZE = b.size := congrArg Cell.size hcell
    rw [hcell] at hfree
    by_cases hfit : blkFree m b.addr ≠ 0 ∧ size ≤ blkSize m b.addr
    · refine ⟨b.addr, .step (fun _ => ?_) (.pure b.addr), .inr ⟨[], b, bs, rfl, hfree.mp hfit.1, ?_, rfl⟩⟩
      · rw [headAddr_cons, findFree, if_neg hne, if_pos hfit]
      · omega
    · obtain ⟨blk, hret, hblk⟩ := ih hrest fun c hc => hpos c (List.mem_cons_of_mem _ hc)
      refine ⟨blk, .step (fun fuel => ?_) hret, hblk.imp_right ?_⟩
      · rw [headAddr_cons, findFree, if_neg hne, if_neg hfit, hnext]
      · rintro ⟨pre, d, post, rfl, hd⟩
        exact ⟨b :: pre, d, post, rfl, hd⟩

theorem lastBlock_returns (hc : Chained (cell m) bs 0) (hpos : ∀ b ∈ bs, 0 < b.addr) :
    Returns (fun fuel => lastBlock m fuel (headAddr bs 0)) (lastAddr 0 bs) := by
  induction bs with
  | nil => exact .step (fun _ => rfl) (.pure 0)
  | cons b bs ih =>
    obtain ⟨hcell, hrest⟩ := hc
    have hb := hpos b (by simp)
    have hne : b.addr ≠ 0 := by omega
    have hnext : blkNext m b.addr = headAddr bs 0 := by rw [blkNext_eq, hcell]
    rcases bs with _ | ⟨c, cs⟩
    · refine .step (fun fuel => ?_) (.pure b.addr)
      rw [headAddr_cons, lastBlock, if_neg (by simp [hnext])]
    · have hc := hpos c (by simp)
      refine .step (fun fuel => ?_) (ih hrest fun d hd => hpos d (List.mem_cons_of_mem _ hd))
      rw [headAddr_cons, lastBlock, hnext, headAddr_cons, if_pos ⟨hne, by omega⟩]

/-- The loop of `free` leaves the merged list, and what lies before it alone. -/
theorem coalesce_returns (hc : Chained (cell m) (b :: bs) 0) (ht : Tiles BLOCK_SIZE lo (b :: bs) hi)
    (hpos : 0 < lo) (hstays : hi < lo + 2 ^ 32) (hword : hi < 2 ^ 64) :
    ∃ m', Returns (fun fuel => coalesce fuel m b.addr) m' ∧ Chained (cell m') (mergeFrom b bs) 0 ∧
      ∀ x, x + BLOCK_SIZE ≤ b.addr → cell m' x = cell m x := by
  induction bs generalizing b m lo with
  | nil =>
    have hnext : blkNext m b.addr = 0 := by
      rw [blkNext_eq, hc.1]
      rfl
    refine ⟨m, .step (fun fuel => ?_) (.pure m), hc, fun _ _ => rfl⟩
    rw [coalesce, if_neg (by simp [hnext])]
  | cons c cs ih =>
    obtain ⟨hb, hcc, hcs⟩ := hc
    obtain ⟨hlo, hbsize, hcaddr, hcsize, hrest⟩ := ht
    have hle := hrest.le
    simp only [Blk.fin] at hcaddr hrest hle
    have hnext : blkNext m b.addr = c.addr := by rw [blkNext_eq, hb, headAddr_cons]
    have hloop : b.addr ≠ 0 ∧ blkNext m b.addr ≠ 0 := by omega
    have hfb := blkFree_ne_zero m b.addr
    have hfc := blkFree_ne_zero m c.addr
    rw [hb] at hfb
    rw [hcc] at hfc
    unfold mergeFrom
    by_cases hfree : b.free = true ∧ c.free = true
    · have hsz : blkSize m b.addr + (BLOCK_SIZE + blkSize m c.addr) = b.size + c.size - BLOCK_SIZE := by
        rw [blkSize_eq, blkSize_eq, hb, hcc]
        simp only
        omega
      generalize hm1 : setBlkSize m b.addr (b.size + c.size - BLOCK_SIZE) = m1
      generalize hm2 : setBlkNext m1 b.addr (headAddr cs 0) = m2
      have hoff : ∀ y, Apart y b.addr → cell m2 y = cell m y := by
        intro y hy
        rw [← hm2, cell_setBlkNext_off hy, ← hm1, cell_setBlkSize_off hy]
      have hnext' : headAddr cs 0 < 2 ^ 64 := by
        rcases cs with _ | ⟨d, ds⟩
        · simp
        · have hd := (hrest.mem (b := d) (by simp)).2.1
          simp only [headAddr_cons, Blk.fin] at hd ⊢
          omega
      have hcell : cell m2 b.addr = ⟨b.size + c.size, b.free, headAddr cs 0⟩ := by
        rw [← hm2, cell_setBlkNext, ← hm1, cell_setBlkSize, hb, Nat.mod_eq_of_lt hnext',
          Nat.mod_eq_of_lt (by omega), Nat.sub_add_cancel (by omega)]
      have hchain : Chained (cell m2) ({ b with size := b.size + c.size } :: cs) 0 := by
        refine ⟨hcell, hcs.congr fun d hd => hoff d.addr (.inr ?_)⟩
        have := (hrest.mem hd).1
        omega
      have htiles : Tiles BLOCK_SIZE lo ({ b with size := b.size + c.size } :: cs) hi := by
        refine ⟨hlo, by simp only; omega, ?_⟩
        simp only [Blk.fin]
        rwa [← Nat.add_assoc, ← hcaddr]
      obtain ⟨m', hret, hm', hbefore⟩ := ih hchain htiles hpos hstays
      refine ⟨m', .step (fun fuel => ?_) hret, ?_, fun x hx => ?_⟩
      · have hnext1 : blkNext m1 b.addr = c.addr := by
          rw [blkNext_eq, ← hm1, cell_setBlkSize, hb, headAddr_cons]
        have hcn : blkNext m1 c.addr = headAddr cs 0 := by
          rw [blkNext_eq, ← hm1, cell_setBlkSize_off (.inr (by omega)), hcc]
        rw [coalesce, if_pos hloop, hnext, if_pos ⟨hfb.mpr hfree.1, hfc.mpr hfree.2⟩]
        simp only [hsz, hm1, hnext1, hcn, hm2]
      · rwa [if_pos (by simp [hfree])]
      · rw [hbefore x hx, hoff x (.inl hx)]
    · have hrest' : Tiles BLOCK_SIZE c.addr (c :: cs) hi := ⟨rfl, hcsize, hrest⟩
      obtain ⟨m', hret, hm', hbefore⟩ := ih ⟨hcc, hcs⟩ hrest' (by omega) (by omega)
      refine ⟨m', .step (fun fuel => ?_) hret, ?_, fun x hx => hbefore x (by omega)⟩
      · rw [coalesce, if_pos hloop, hnext, if_neg (by rw [hfb, hfc]; exact hfree)]
      · rw [if_neg (by simpa using hfree)]
        refine ⟨?_, hm'⟩
        rw [hbefore b.addr (by omega), hb, headAddr_mergeFrom, headAddr_cons]

-- ---------------------------------------------------------------------------
-- The list of blocks
-- ---------------------------------------------------------------------------

/-- The blocks of the heap: they tile it from the first break to the current one, and the
headers link them. The heap is shorter than 2 ^ 32 bytes and does not wrap. -/
structure UserRep (first : Nat) (s : UserHeap) (bs : List Blk) : Prop where
  tiles : Tiles BLOCK_SIZE first bs s.brk
  chained : Chained (cell s.mem) bs 0
  base : s.heapBase = headAddr bs 0
  nonempty : bs ≠ []
  inited : s.heapInited = true
  pos : 0 < first
  stays : s.brk < first + 2 ^ 32
  word : s.brk < 2 ^ 64

theorem UserRep.addr_pos (hr : UserRep first s bs) : ∀ b ∈ bs, 0 < b.addr :=
  fun _ hb => Nat.lt_of_lt_of_le hr.pos (hr.tiles.mem hb).1

theorem UserRep.next_lt (hr : UserRep first s (pre ++ post)) : headAddr post 0 < 2 ^ 64 := by
  rcases post with _ | ⟨c, cs⟩
  · simp
  · have hc := (hr.tiles.mem (b := c) (by simp)).2.1
    have := hr.word
    simp only [headAddr_cons, Blk.fin] at hc ⊢
    omega

theorem UserRep.splice (hr : UserRep first s (pre ++ mid ++ post)) (hne : mid' ≠ [])
    (hhead : ∀ nxt, headAddr mid' nxt = headAddr mid nxt)
    (hmid : ∀ y z, Tiles BLOCK_SIZE y mid z → first ≤ y → z ≤ s.brk →
      Tiles BLOCK_SIZE y mid' z ∧ Chained (cell m) mid' (headAddr post 0) ∧
        ∀ x, x + BLOCK_SIZE ≤ y ∨ z ≤ x → cell m x = cell s.mem x) :
    UserRep first { s with mem := m } (pre ++ mid' ++ post) := by
  obtain ⟨y, z, hpre, hm, hpost, hbefore, hafter⟩ := hr.tiles.around
  obtain ⟨htiles, hchained, hout⟩ := hmid y z hm hpre.le hpost.le
  refine ⟨?_, hr.chained.splice (hhead _) hchained ?_, ?_, by simp [hne], hr.inited, hr.pos,
    hr.stays, hr.word⟩
  · rw [List.append_assoc, tiles_append]
    exact ⟨y, hpre, tiles_append.mpr ⟨z, htiles, hpost⟩⟩
  · rintro x (hx | hx)
    · have hfin := hbefore x hx
      have hsize := (hpre.mem hx).2.2
      unfold Blk.fin at hfin
      exact hout _ (.inl (by omega))
    · exact hout _ (.inr (hafter x hx))
  · rw [hr.base]
    simp [hhead]

theorem UserRep.takeBlock (hr : UserRep first s (pre ++ [b] ++ post)) (hfit : n + BLOCK_SIZE ≤ b.size)
    (hn : n < 2 ^ 32) :
    UserRep first (User.takeBlock s b.addr n).2
      (pre ++ cut (BLOCK_SIZE + 16) b (n + BLOCK_SIZE) ++ post) := by
  have hcell := hr.chained.cell
  have hnext := hr.next_lt
  have hblk := hr.tiles.mem (b := b) (by simp)
  have hstays := hr.stays
  have hword := hr.word
  have hsize : blkSize s.mem b.addr = b.size - BLOCK_SIZE := by rw [blkSize_eq, hcell]
  unfold Blk.fin at hblk
  refine hr.splice (by unfold cut; split <;> simp) (fun _ => by simp) fun y z hmid hy hz => ?_
  refine ⟨hmid.cut (Nat.le_add_left ..) (by decide), ?_⟩
  obtain ⟨rfl, -, rfl⟩ := hmid
  unfold Blk.fin at hz
  unfold splitBlock cut
  simp only [hsize]
  by_cases hcut : n + BLOCK_SIZE + (BLOCK_SIZE + 16) ≤ b.size
  · rw [if_pos hcut, if_pos (by omega)]
    rw [Nat.add_assoc b.addr, Nat.add_comm BLOCK_SIZE n]
    have hab : Apart b.addr (b.addr + (n + BLOCK_SIZE)) := .inl (by omega)
    generalize hm1 : setBlkFree (setBlkSize s.mem (b.addr + (n + BLOCK_SIZE))
      (b.size - BLOCK_SIZE - n - BLOCK_SIZE)) (b.addr + (n + BLOCK_SIZE)) 1 = m1
    have hnext1 : blkNext m1 b.addr = headAddr post 0 := by
      rw [blkNext_eq, ← hm1, cell_setBlkFree_off hab, cell_setBlkSize_off hab, hcell]
    simp only [hnext1]
    have hout : ∀ x, Apart x b.addr → Apart x (b.addr + (n + BLOCK_SIZE)) → cell (setBlkFree
        (setBlkSize (setBlkNext (setBlkNext m1 (b.addr + (n + BLOCK_SIZE)) (headAddr post 0)) b.addr
          (b.addr + (n + BLOCK_SIZE))) b.addr n) b.addr 0) x = cell s.mem x := by
      intro x hx hx'
      rw [cell_setBlkFree_off hx, cell_setBlkSize_off hx, cell_setBlkNext_off hx,
        cell_setBlkNext_off hx', ← hm1, cell_setBlkFree_off hx', cell_setBlkSize_off hx']
    refine ⟨⟨?_, ?_, trivial⟩, fun x hx => hout x ?_ ?_⟩
    · rw [cell_setBlkFree, cell_setBlkSize, cell_setBlkNext, Nat.mod_eq_of_lt hn,
        Nat.mod_eq_of_lt (by omega)]
      rfl
    · have hba : Apart (b.addr + (n + BLOCK_SIZE)) b.addr := .inr (by omega)
      simp only
      rw [cell_setBlkFree_off hba, cell_setBlkSize_off hba, cell_setBlkNext_off hba,
        cell_setBlkNext, ← hm1, cell_setBlkFree, cell_setBlkSize, Nat.mod_eq_of_lt (by omega),
        Nat.mod_eq_of_lt hnext, Nat.sub_add_cancel (by omega)]
      simp only [headAddr_nil, Cell.mk.injEq]
      exact ⟨by omega, rfl, trivial⟩
    · unfold Apart Blk.fin at *
      omega
    · unfold Apart Blk.fin at *
      omega
  · rw [if_neg hcut, if_neg (by omega)]
    refine ⟨⟨?_, trivial⟩, fun x hx => cell_setBlkFree_off ?_⟩
    · rw [cell_setBlkFree, hcell]
      rfl
    · unfold Apart Blk.fin at *
      omega

theorem UserRep.addBytes (hr : UserRep first s bs) (hm : Merged bs) (hgrow : BLOCK_SIZE ≤ grow)
    (hstays : s.brk + grow < first + 2 ^ 32) (hword : s.brk + grow < 2 ^ 64) (newEnd : Nat) :
    ∃ pre b, (User.addBytes { s with brk := s.brk + grow, heapEnd := newEnd } s.brk grow
        (lastAddr 0 bs)).1 = b.addr ∧
      UserRep first (User.addBytes { s with brk := s.brk + grow, heapEnd := newEnd } s.brk grow
        (lastAddr 0 bs)).2 (pre ++ [b]) ∧
      Merged (pre ++ [b]) ∧ b.free = true ∧ grow ≤ b.size ∧
      ∀ c, c.free = false → (c ∈ pre ++ [b] ↔ c ∈ bs) := by
  obtain ⟨pre, e, rfl⟩ : ∃ pre e, bs = pre ++ [e] :=
    ⟨_, _, (List.dropLast_concat_getLast hr.nonempty).symm⟩
  have hsplit : UserRep first s (pre ++ [e] ++ []) := by simpa using hr
  have hcell := hsplit.chained.cell
  have hpos := hr.addr_pos e (by simp)
  have hlast : lastAddr 0 (pre ++ [e]) = e.addr := by simp
  obtain ⟨y, z, hpre, ⟨hy, hesize, hz⟩, hend, hbefore, -⟩ := hsplit.tiles.around
  have hfirst := hpre.le
  have hfree := blkFree_ne_zero s.mem e.addr
  rw [hcell] at hfree
  simp only [Tiles, Blk.fin] at hz hend
  subst hy hz
  have hapart : ∀ x ∈ pre, x.addr + BLOCK_SIZE ≤ e.addr := by
    intro x hx
    have hfin := hbefore x hx
    have hsize := (hpre.mem hx).2.2
    unfold Blk.fin at hfin
    omega
  have hbase : s.heapBase = headAddr pre e.addr := by
    rw [hr.base]
    simp
  unfold User.addBytes
  rw [hlast]
  by_cases he : e.free = true
  · -- the last block is free: it grows
    rw [if_pos ⟨by omega, hfree.mpr he⟩]
    have hsz : blkSize s.mem e.addr + grow = e.size + grow - BLOCK_SIZE := by
      rw [blkSize_eq, hcell]
      simp only
      omega
    refine ⟨pre, { e with size := e.size + grow }, rfl, ⟨?_, ?_, ?_, by simp, hr.inited, hr.pos,
      hstays, hword⟩, hm.resize _, he, Nat.le_add_left .., fun c hc => ?_⟩
    · refine tiles_append.mpr ⟨e.addr, hpre, rfl, Nat.le_trans hesize (Nat.le_add_right ..), ?_⟩
      simp only [Tiles, Blk.fin]
      omega
    · suffices Chained (cell (setBlkSize s.mem e.addr (blkSize s.mem e.addr + grow)))
          (pre ++ [{ e with size := e.size + grow }] ++ []) 0 by simpa using this
      refine hsplit.chained.splice rfl ⟨?_, trivial⟩ ?_
      · rw [hsz, cell_setBlkSize, hcell, Nat.mod_eq_of_lt (by omega), Nat.sub_add_cancel (by omega)]
        rfl
      · rintro x (hx | hx)
        · exact cell_setBlkSize_off (.inl (hapart x hx))
        · simp at hx
    · rw [hbase]
      simp
    · have hce : c ≠ e := by
        rintro rfl
        rw [he] at hc
        cases hc
      have hce' : c ≠ { e with size := e.size + grow } := by
        intro heq
        rw [heq] at hc
        simp [he] at hc
      simp [hce, hce']
  · -- it is in use: a new block behind it
    have heb : Apart e.addr s.brk := .inl (by omega)
    have hbe : Apart s.brk e.addr := .inr (by omega)
    rw [if_neg (fun hand => he (hfree.mp hand.2)), if_pos (by omega)]
    refine ⟨pre ++ [e], ⟨s.brk, grow, true⟩, rfl, ⟨?_, ?_, ?_, by simp, hr.inited, hr.pos,
      hstays, hword⟩, hm.push (by simpa using he) _, rfl, Nat.le_refl _, fun c hc => ?_⟩
    · exact tiles_append.mpr ⟨s.brk, hr.tiles, rfl, hgrow, rfl⟩
    · suffices Chained (cell (setBlkNext (newBlock s.mem s.brk (grow - BLOCK_SIZE)) e.addr s.brk))
          (pre ++ [e, ⟨s.brk, grow, true⟩] ++ []) 0 by simpa using this
      refine hsplit.chained.splice rfl ⟨?_, ?_, trivial⟩ ?_
      · rw [cell_setBlkNext, cell_newBlock_off heb, hcell, Nat.mod_eq_of_lt (by omega)]
        rfl
      · simp only
        rw [cell_setBlkNext_off hbe, cell_newBlock, Nat.mod_eq_of_lt (by omega),
          Nat.sub_add_cancel hgrow]
        rfl
      · rintro x (hx | hx)
        · have := hapart x hx
          rw [cell_setBlkNext_off (.inl this), cell_newBlock_off (.inl (by omega))]
        · simp at hx
    · rw [hbase]
      simp
    · have hcn : c ≠ ⟨s.brk, grow, true⟩ := by
        rintro rfl
        cases hc
      simp [hcn]

end EponaOS.User
