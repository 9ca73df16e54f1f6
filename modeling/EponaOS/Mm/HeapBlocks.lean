import EponaOS.Mm.Heap
import EponaOS.Mm.PageFrames

/-!
# The blocks of the kernel heap

What each write of `heap.c` does to the headers, and what taking, splitting, freeing,
merging and growing do to the list of blocks that the headers link.
-/

namespace EponaOS.Mm

open Bytes BlockList

variable {m : Bytes} {h x v : Nat} {s s' : Heap} {b c : Blk} {bs pre post : List Blk}

-- ---------------------------------------------------------------------------
-- Headers
-- ---------------------------------------------------------------------------

def header (m : Bytes) (h : Nat) : Header := ⟨hdrSize m h, hdrFree m h != 0, hdrNext m h, hdrPrev m h⟩

def Apart (x h : Nat) : Prop := x + HEADER_SIZE ≤ h ∨ h + HEADER_SIZE ≤ x

theorem header_congr {m' : Bytes} (hm : ∀ i, i < HEADER_SIZE → m' (x + i) = m (x + i)) :
    header m' x = header m x := by
  have hget : ∀ o n, o + n ≤ HEADER_SIZE → getLE m' (x + o) n = getLE m (x + o) n := by
    intro o n hon
    apply getLE_congr
    intro i hi
    rw [Nat.add_assoc]
    exact hm (o + i) (by omega)
  have hsize : getLE m' x 8 = getLE m x 8 := hget 0 8 (by decide)
  simp only [header, hdrSize, hdrFree, hdrNext, hdrPrev]
  rw [hsize, hm 8 (by decide), hget 9 8 (by decide), hget 17 8 (by decide)]

theorem field_size : 256 ^ 8 = 2 ^ 64 := by norm_num

theorem header_setSize (m : Bytes) (h v : Nat) :
    header (setSize m h v) h = { header m h with size := v % 2 ^ 64 } := by
  simp only [header, hdrSize, hdrFree, hdrNext, hdrPrev, setSize]
  rw [getLE_putLE_same, field_size, putLE_off _ _ (by omega), getLE_putLE_off _ _ (by omega),
    getLE_putLE_off _ _ (by omega)]

theorem header_setFree (m : Bytes) (h : Nat) (v : UInt8) :
    header (setFree m h v) h = { header m h with free := v != 0 } := by
  simp only [header, hdrSize, hdrFree, hdrNext, hdrPrev, setFree]
  rw [setByte_same, getLE_setByte_off _ _ (by omega), getLE_setByte_off _ _ (by omega),
    getLE_setByte_off _ _ (by omega)]

theorem header_setNext (m : Bytes) (h v : Nat) :
    header (setNext m h v) h = { header m h with next := v % 2 ^ 64 } := by
  simp only [header, hdrSize, hdrFree, hdrNext, hdrPrev, setNext]
  rw [getLE_putLE_same, field_size, putLE_off _ _ (by omega), getLE_putLE_off _ _ (by omega),
    getLE_putLE_off _ _ (by omega)]

theorem header_setPrev (m : Bytes) (h v : Nat) :
    header (setPrev m h v) h = { header m h with prev := v % 2 ^ 64 } := by
  simp only [header, hdrSize, hdrFree, hdrNext, hdrPrev, setPrev]
  rw [getLE_putLE_same, field_size, putLE_off _ _ (by omega), getLE_putLE_off _ _ (by omega),
    getLE_putLE_off _ _ (by omega)]

section
variable (ha : Apart x h)

include ha in
theorem header_putLE_off (o n : Nat) (ho : o + n ≤ HEADER_SIZE) :
    header (putLE m (h + o) n v) x = header m x := by
  apply header_congr
  intro i hi
  unfold Apart at ha
  exact putLE_off _ _ (by omega)

include ha in
theorem header_setSize_off : header (setSize m h v) x = header m x :=
  header_putLE_off ha 0 8 (by decide)

include ha in
theorem header_setFree_off (v : UInt8) : header (setFree m h v) x = header m x := by
  apply header_congr
  intro i hi
  unfold Apart at ha
  unfold HEADER_SIZE at ha hi
  exact setByte_ne _ _ (by omega)

include ha in
theorem header_setNext_off : header (setNext m h v) x = header m x :=
  header_putLE_off ha 9 8 (by decide)

include ha in
theorem header_setPrev_off : header (setPrev m h v) x = header m x :=
  header_putLE_off ha 17 8 (by decide)
end

theorem hdrSize_eq (m : Bytes) (h : Nat) : hdrSize m h = (header m h).size := rfl
theorem hdrNext_eq (m : Bytes) (h : Nat) : hdrNext m h = (header m h).next := rfl
theorem hdrPrev_eq (m : Bytes) (h : Nat) : hdrPrev m h = (header m h).prev := rfl

theorem hdrFree_ne_zero (m : Bytes) (h : Nat) : hdrFree m h ≠ 0 ↔ (header m h).free = true := by
  simp [header]

theorem header_heapCreateBlock (m : Bytes) (h v : Nat) :
    header (heapCreateBlock m h v) h = ⟨v % 2 ^ 64, true, 0, 0⟩ := by
  rw [heapCreateBlock, header_setPrev, header_setNext, header_setFree, header_setSize]
  rfl

theorem header_heapCreateBlock_off (ha : Apart x h) :
    header (heapCreateBlock m h v) x = header m x := by
  rw [heapCreateBlock, header_setPrev_off ha, header_setNext_off ha, header_setFree_off ha,
    header_setSize_off ha]

/-- The header of what is left, with `b` the block that is cut. -/
theorem header_remainder (total : Nat) (hb : header m h = ⟨b.size, b.free, nxt, prv⟩) (ht : HEADER_SIZE ≤ total)
    (hsize : b.size < 2 ^ 64) (hnxt : nxt < 2 ^ 64) (hh : h < 2 ^ 64) :
    header (remainder m h total) (h + total) = ⟨b.size - total, true, nxt, h⟩ := by
  have ha : Apart h (h + total) := .inl (by omega)
  have hs : hdrSize m h = b.size := by rw [hdrSize_eq, hb]
  have hn : hdrNext (setFree (setSize m (h + total) (hdrSize m h - total)) (h + total) 1) h = nxt := by
    rw [hdrNext_eq, header_setFree_off ha, header_setSize_off ha, hb]
  rw [remainder, header_setPrev, header_setNext, header_setFree, header_setSize, hn, hs,
    Nat.mod_eq_of_lt hnxt, Nat.mod_eq_of_lt hh, Nat.mod_eq_of_lt (by omega)]
  rfl

theorem header_remainder_off (ha : Apart x (h + total)) :
    header (remainder m h total) x = header m x := by
  rw [remainder, header_setPrev_off ha, header_setNext_off ha, header_setFree_off ha,
    header_setSize_off ha]

-- ---------------------------------------------------------------------------
-- The list of blocks
-- ---------------------------------------------------------------------------

/-- The blocks of the heap: they tile it, the headers link them, and what the heap has grown
by is paid for in frames, so no address of the heap wraps. -/
structure HeapRep (s : Heap) (bs : List Blk) : Prop where
  tiles : Tiles MIN_BLOCK HEAP_START bs s.gHeapVirtTop
  linked : Linked (header s.mem) 0 bs 0
  start : s.gHeapStart = headAddr bs 0
  nonempty : bs ≠ []
  frames : s.gHeapVirtTop + pageSize * s.machine.pmm.freeFrames ≤
    HEAP_START + pageSize * (256 + maxFrames)

theorem HeapRep.top_lt (hr : HeapRep s bs) : s.gHeapVirtTop + 2 ^ 46 < 2 ^ 64 := by
  have := hr.frames
  simp only [HEAP_START, pageSize, maxFrames] at this
  omega

theorem HeapRep.block (hr : HeapRep s bs) (hb : b ∈ bs) :
    0 < b.addr ∧ b.fin ≤ s.gHeapVirtTop ∧ MIN_BLOCK ≤ b.size := by
  obtain ⟨hlo, hfin, hsize⟩ := hr.tiles.mem hb
  exact ⟨Nat.lt_of_lt_of_le (by decide) hlo, hfin, hsize⟩

theorem HeapRep.header (hr : HeapRep s (pre ++ [b] ++ post)) :
    Mm.header s.mem b.addr = ⟨b.size, b.free, headAddr post 0, lastAddr 0 pre⟩ := by
  have h := hr.linked
  rw [List.append_assoc] at h
  exact h.header

theorem HeapRep.around (hr : HeapRep s (pre ++ mid ++ post)) :
    ∃ y z, Tiles MIN_BLOCK y mid z ∧ z ≤ s.gHeapVirtTop ∧
      (∀ x ∈ pre, x.addr + MIN_BLOCK ≤ y) ∧ (∀ x ∈ post, z ≤ x.addr) ∧
      ∀ c cs, post = c :: cs → ∀ x ∈ cs, c.addr + MIN_BLOCK ≤ x.addr := by
  obtain ⟨y, z, hpre, hmid, hpost, hy, hz⟩ := hr.tiles.around
  refine ⟨y, z, hmid, hpost.le, fun x hx => ?_, hz, ?_⟩
  · have := hy x hx
    have := (hpre.mem hx).2.2
    unfold Blk.fin at *
    omega
  · rintro c cs rfl x hx
    have := (hpost.2.2.mem hx).1
    have := hpost.2.1
    unfold Blk.fin at *
    omega

theorem HeapRep.splice (hr : HeapRep s (pre ++ mid ++ post)) (hne : mid' ≠ [])
    (hhead : ∀ nxt, headAddr mid' nxt = headAddr mid nxt)
    (htiles : ∀ y z, Tiles MIN_BLOCK y mid z → Tiles MIN_BLOCK y mid' z)
    (hpre : ∀ x ∈ pre, Mm.header m x.addr = Mm.header s.mem x.addr)
    (hmid : Linked (Mm.header m) (lastAddr 0 pre) mid' (headAddr post 0))
    (hpost : ∀ c cs, post = c :: cs →
      Mm.header m c.addr = { Mm.header s.mem c.addr with prev := lastAddr (lastAddr 0 pre) mid' } ∧
        ∀ x ∈ cs, Mm.header m x.addr = Mm.header s.mem x.addr) :
    HeapRep { s with mem := m } (pre ++ mid' ++ post) := by
  refine ⟨hr.tiles.splice htiles, hr.linked.splice (hhead _) hpre hmid hpost, ?_, by simp [hne],
    hr.frames⟩
  rw [hr.start]
  simp [hhead]

theorem HeapRep.setFree (hr : HeapRep s (pre ++ [b] ++ post)) (v : UInt8) :
    HeapRep { s with mem := Mm.setFree s.mem b.addr v } (pre ++ [{ b with free := v != 0 }] ++ post) := by
  obtain ⟨y, z, ⟨hy, hsize, hz⟩, -, hpre, hpost, hcs⟩ := hr.around
  simp only [Tiles, Blk.fin, MIN_BLOCK] at *
  have hoff : ∀ x, x + 25 ≤ b.addr ∨ b.addr + 25 ≤ x →
      Mm.header (Mm.setFree s.mem b.addr v) x = Mm.header s.mem x :=
    fun x hx => header_setFree_off hx v
  refine hr.splice (by simp) (fun _ => rfl) (fun _ _ h => h) (fun x hx => ?_) ⟨?_, trivial⟩ ?_
  · exact hoff _ (by have := hpre x hx; omega)
  · rw [header_setFree, hr.header]
    rfl
  · rintro c cs rfl
    have hc := hpost c (by simp)
    refine ⟨?_, fun x hx => hoff _ (by have := hpost x (by simp [hx]); omega)⟩
    rw [hoff _ (by omega)]
    have := (linked_append.mp hr.linked).2.1
    simp only [lastAddr_append, lastAddr] at this ⊢
    rw [this]

-- ---------------------------------------------------------------------------
-- Taking a block
-- ---------------------------------------------------------------------------

/-- A free block taken for `total` bytes: cut in two if enough is left for another block. -/
def takeBlk (b : Blk) (total : Nat) : List Blk :=
  if total + MIN_BLOCK ≤ b.size then
    [⟨b.addr, total, false⟩, ⟨b.addr + total, b.size - total, true⟩]
  else [{ b with free := false }]

theorem HeapRep.takeFit (hr : HeapRep s (pre ++ [b] ++ post)) (ht : MIN_BLOCK ≤ total)
    (hfit : total ≤ b.size) :
    HeapRep { s with mem := Mm.takeFit s.mem b.addr total } (pre ++ takeBlk b total ++ post) := by
  have hb := hr.header
  have hsz : hdrSize s.mem b.addr = b.size := by rw [hdrSize_eq, hb]
  have htop := hr.top_lt
  have hbfin := (hr.block (b := b) (by simp)).2.1
  have hpos := (hr.block (b := b) (by simp)).1
  unfold Blk.fin at hbfin
  have hwrap : (total + MIN_BLOCK) % 2 ^ 64 = total + MIN_BLOCK :=
    Nat.mod_eq_of_lt (by unfold MIN_BLOCK; omega)
  unfold Mm.takeFit takeBlk
  rw [hwrap, hsz]
  split
  · rename_i hcut
    obtain ⟨y, z, ⟨hy, -, hz⟩, hztop, hpre, hpost, hcs⟩ := hr.around
    simp only [Tiles, Blk.fin, MIN_BLOCK] at *
    subst hy hz
    have hnxt : headAddr post 0 < 2 ^ 64 := by
      rcases post with _ | ⟨c, cs⟩
      · simp [headAddr]
      · have := (hr.block (b := c) (by simp)).2.1
        simp only [headAddr_cons, Blk.fin] at *
        omega
    have hrem := header_remainder total hb (by unfold HEADER_SIZE; omega) (by omega)
      hnxt (by omega)
    have hremn : hdrNext (remainder s.mem b.addr total) (b.addr + total) = headAddr post 0 := by
      rw [hdrNext_eq, hrem]
    generalize hm1 : remainder s.mem b.addr total = m1 at *
    have hoff1 : ∀ x, Apart x (b.addr + total) → Mm.header m1 x = Mm.header s.mem x := by
      intro x hx
      rw [← hm1, header_remainder_off hx]
    simp only [hremn]
    generalize hm2 : (if headAddr post 0 ≠ 0 then setPrev m1 (headAddr post 0) (b.addr + total)
      else m1) = m2
    have hoff2 : ∀ x, (∀ c cs, post = c :: cs → Apart x c.addr) → Mm.header m2 x = Mm.header m1 x := by
      intro x hx
      rw [← hm2]
      rcases post with _ | ⟨c, cs⟩
      · simp [headAddr]
      · split
        · exact header_setPrev_off (hx c cs rfl)
        · rfl
    have hoff : ∀ x, Apart x b.addr → Mm.header (Mm.setFree (setSize (setNext m2 b.addr
        (b.addr + total)) b.addr total) b.addr 0) x = Mm.header m2 x := by
      intro x hx
      rw [header_setFree_off hx, header_setSize_off hx, header_setNext_off hx]
    unfold Apart HEADER_SIZE at *
    refine hr.splice (by simp) (fun _ => rfl) ?_ (fun x hx => ?_) ⟨?_, ?_, trivial⟩ ?_
    · rintro y z ⟨rfl, -, hz⟩
      refine ⟨rfl, ht, rfl, Nat.le_sub_of_add_le' hcut, ?_⟩
      simp only [Tiles, Blk.fin] at hz ⊢
      omega
    · have := hpre x hx
      rw [hoff x.addr (by omega), hoff2 x.addr, hoff1 x.addr (by omega)]
      rintro c cs rfl
      have := hpost c (by simp)
      omega
    · rw [header_setFree, header_setSize, header_setNext, hoff2 b.addr, hoff1 b.addr (by omega), hb,
        Nat.mod_eq_of_lt (by omega), Nat.mod_eq_of_lt (by omega)]
      · rfl
      · rintro c cs rfl
        have := hpost c (by simp)
        omega
    · rw [hoff _ (by simp only; omega), hoff2, hrem]
      · rfl
      · rintro c cs rfl
        have := hpost c (by simp)
        simp only
        omega
    · rintro c cs rfl
      have hc := hpost c (by simp)
      have hcpos := (hr.block (b := c) (by simp)).1
      refine ⟨?_, fun x hx => ?_⟩
      · rw [hoff _ (by omega), ← hm2, headAddr, if_pos (by omega), header_setPrev,
          hoff1 _ (by omega), Nat.mod_eq_of_lt (by omega)]
        rfl
      · have hx1 := hpost x (by simp [hx])
        have hx2 := hcs c cs rfl x hx
        rw [hoff x.addr (by omega), hoff2 x.addr, hoff1 x.addr (by omega)]
        rintro c' cs' heq
        cases heq
        omega
  · exact hr.setFree 0

theorem takeNew_eq (h : hdrNext (remainder m x total) (x + total) = 0) :
    takeNew m x total = Mm.takeFit m x total := by
  unfold takeNew Mm.takeFit
  simp [h]

-- ---------------------------------------------------------------------------
-- Freeing and merging
-- ---------------------------------------------------------------------------

/-- `heap_coalesce` does nothing unless the next block is free. -/
theorem HeapRep.heapCoalesce_used (hr : HeapRep s (pre ++ [b] ++ post))
    (hused : ∀ c cs, post = c :: cs → c.free = false) : heapCoalesce s.mem b.addr = s.mem := by
  have hn : hdrNext s.mem b.addr = headAddr post 0 := by rw [hdrNext_eq, hr.header]
  unfold heapCoalesce
  rw [hn, if_neg]
  rcases post with _ | ⟨c, cs⟩
  · simp [headAddr]
  · have hr' : HeapRep s ((pre ++ [b]) ++ [c] ++ cs) := by simpa using hr
    rw [hdrFree_ne_zero, headAddr, hr'.header, hused c cs rfl]
    simp

theorem HeapRep.heapCoalesce (hr : HeapRep s (pre ++ [b, c] ++ post)) (hfree : c.free = true) :
    HeapRep { s with mem := Mm.heapCoalesce s.mem b.addr }
      (pre ++ [{ b with size := b.size + c.size }] ++ post) := by
  have hrb : HeapRep s (pre ++ [b] ++ ([c] ++ post)) := by simpa using hr
  have hrc : HeapRep s ((pre ++ [b]) ++ [c] ++ post) := by simpa using hr
  have hb := hrb.header
  have hc := hrc.header
  have htop := hr.top_lt
  have hcpos := (hr.block (b := c) (by simp)).1
  obtain ⟨y, z, ⟨hy, hbs, hbc, hcs, hz⟩, hztop, hpre, hpost, hafter⟩ := hr.around
  simp only [Tiles, Blk.fin, MIN_BLOCK, List.singleton_append, headAddr_cons] at *
  subst hy hz
  have hnxt : headAddr post 0 < 2 ^ 64 := by
    rcases post with _ | ⟨d, ds⟩
    · simp [headAddr]
    · have := (hr.block (b := d) (by simp)).2.1
      simp only [headAddr_cons, Blk.fin] at *
      omega
  have hbn : hdrNext s.mem b.addr = c.addr := by rw [hdrNext_eq, hb]
  have hcf : hdrFree s.mem c.addr ≠ 0 := by rw [hdrFree_ne_zero, hc, hfree]
  have hsum : (hdrSize s.mem b.addr + hdrSize s.mem c.addr) % 2 ^ 64 = b.size + c.size := by
    rw [hdrSize_eq, hdrSize_eq, hb, hc]
    exact Nat.mod_eq_of_lt (by simp only; omega)
  have hcond : c.addr ≠ 0 ∧ hdrFree s.mem c.addr ≠ 0 := ⟨by omega, hcf⟩
  unfold Mm.heapCoalesce
  rw [hbn, if_pos hcond, hsum]
  have hacb : Apart c.addr b.addr := by
    unfold Apart HEADER_SIZE
    omega
  generalize hm1 : setSize s.mem b.addr (b.size + c.size) = m1
  have hoff1 : ∀ x, Apart x b.addr → Mm.header m1 x = Mm.header s.mem x := by
    intro x hx
    rw [← hm1, header_setSize_off hx]
  have hb1 : Mm.header m1 b.addr = { Mm.header s.mem b.addr with size := b.size + c.size } := by
    rw [← hm1, header_setSize, Nat.mod_eq_of_lt (by omega)]
  have hn1 : hdrNext m1 b.addr = c.addr := by rw [hdrNext_eq, hb1, hb]
  have hcn1 : hdrNext m1 c.addr = headAddr post 0 := by rw [hdrNext_eq, hoff1 _ hacb, hc]
  simp only [hn1, hcn1]
  generalize hm2 : setNext m1 b.addr (headAddr post 0) = m2
  have hoff2 : ∀ x, Apart x b.addr → Mm.header m2 x = Mm.header s.mem x := by
    intro x hx
    rw [← hm2, header_setNext_off hx, hoff1 x hx]
  have hb2 : Mm.header m2 b.addr =
      { Mm.header s.mem b.addr with size := b.size + c.size, next := headAddr post 0 } := by
    rw [← hm2, header_setNext, hb1, Nat.mod_eq_of_lt hnxt]
  have hn2 : hdrNext m2 b.addr = headAddr post 0 := by rw [hdrNext_eq, hb2]
  rw [hn2]
  generalize hm3 : (if headAddr post 0 ≠ 0 then setPrev m2 (headAddr post 0) b.addr else m2) = m3
  have hoff3 : ∀ x, (∀ d ds, post = d :: ds → Apart x d.addr) → Mm.header m3 x = Mm.header m2 x := by
    intro x hx
    rw [← hm3]
    rcases post with _ | ⟨d, ds⟩
    · simp [headAddr]
    · split
      · exact header_setPrev_off (hx d ds rfl)
      · rfl
  unfold Apart HEADER_SIZE at *
  refine hr.splice (by simp) (fun _ => rfl) ?_ (fun x hx => ?_) ⟨?_, trivial⟩ ?_
  · rintro y z ⟨rfl, hs, -, -, hz⟩
    refine ⟨rfl, Nat.le_trans hs (Nat.le_add_right ..), ?_⟩
    simp only [Tiles, Blk.fin] at hz ⊢
    omega
  · have := hpre x hx
    rw [hoff3 x.addr, hoff2 x.addr (by omega)]
    rintro d ds rfl
    have := hpost d (by simp)
    omega
  · simp only
    rw [hoff3, hb2, hb]
    · rfl
    · rintro d ds rfl
      have := hpost d (by simp)
      omega
  · rintro d ds rfl
    have hd := hpost d (by simp)
    have hdpos := (hr.block (b := d) (by simp)).1
    refine ⟨?_, fun x hx => ?_⟩
    · rw [← hm3, headAddr, if_pos (by omega), header_setPrev, hoff2 _ (by omega),
        Nat.mod_eq_of_lt (by omega)]
      rfl
    · have hx1 := hpost x (by simp [hx])
      have hx2 := hafter d ds rfl x hx
      rw [hoff3 x.addr, hoff2 x.addr (by omega)]
      rintro d' ds' heq
      cases heq
      omega

-- ---------------------------------------------------------------------------
-- Searching
-- ---------------------------------------------------------------------------

def Fits (total : Nat) (b : Blk) : Prop := b.free = true ∧ total ≤ b.size

theorem firstFit_linked (hl : Linked (header m) prev bs 0) (hpos : ∀ b ∈ bs, 0 < b.addr)
    (h : firstFit m total fuel (headAddr bs 0) = some curr) :
    (curr = 0 ∧ ∀ b ∈ bs, ¬ Fits total b) ∨
      ∃ pre b post, bs = pre ++ [b] ++ post ∧ Fits total b ∧ curr = b.addr ∧
        ∀ x ∈ pre, ¬ Fits total x := by
  induction bs generalizing prev fuel with
  | nil =>
    rcases fuel with _ | fuel
    · cases h
    · simp [firstFit] at h
      simp [h]
  | cons b bs ih =>
    obtain ⟨hb, hl⟩ := hl
    rcases fuel with _ | fuel
    · cases h
    have h0 := hpos b (by simp)
    have hsz : hdrSize m b.addr = b.size := by rw [hdrSize_eq, hb]
    have hnx : hdrNext m b.addr = headAddr bs 0 := by rw [hdrNext_eq, hb]
    have hcond : hdrFree m b.addr ≠ 0 ∧ total ≤ hdrSize m b.addr ↔ Fits total b := by
      rw [hdrFree_ne_zero, hsz, hb]
      rfl
    rw [firstFit, headAddr_cons, if_neg (by omega), hnx] at h
    split at h
    · rename_i hfit
      rw [hcond] at hfit
      exact .inr ⟨[], b, bs, rfl, hfit, (Option.some.inj h).symm, by simp⟩
    · rename_i hfit
      rw [hcond] at hfit
      obtain ⟨h0, hall⟩ | ⟨pre, c, post, rfl, hc, hcurr, hall⟩ :=
        ih hl (fun c hc => hpos c (by simp [hc])) h
      · exact .inl ⟨h0, by simpa using ⟨hfit, hall⟩⟩
      · exact .inr ⟨b :: pre, c, post, rfl, hc, hcurr, by simpa using ⟨hfit, hall⟩⟩

theorem firstFit_returns (total : Nat) (hl : Linked (header m) prev bs 0) (hpos : ∀ b ∈ bs, 0 < b.addr)
    (hfuel : bs.length < fuel) : ∃ curr, firstFit m total fuel (headAddr bs 0) = some curr := by
  induction bs generalizing prev fuel with
  | nil =>
    obtain ⟨fuel, rfl⟩ := Nat.exists_eq_succ_of_ne_zero (Nat.ne_of_gt hfuel)
    exact ⟨0, by simp [firstFit]⟩
  | cons b bs ih =>
    obtain ⟨hb, hl⟩ := hl
    obtain ⟨fuel, rfl⟩ := Nat.exists_eq_succ_of_ne_zero (Nat.ne_of_gt (Nat.zero_lt_of_lt hfuel))
    have h0 := hpos b (by simp)
    rw [firstFit, headAddr_cons, if_neg (by omega)]
    split
    · exact ⟨_, rfl⟩
    · rw [hdrNext_eq, hb]
      exact ih hl (fun c hc => hpos c (by simp [hc])) (by simpa using hfuel)

-- ---------------------------------------------------------------------------
-- Growing
-- ---------------------------------------------------------------------------

theorem growPages_freeFrames {s s' : Machine} {virt : Word} (h : growPages s virt pages = (ok, s')) :
    s'.pmm.freeFrames + (if ok then pages else 0) ≤ s.pmm.freeFrames := by
  induction pages generalizing s virt with
  | zero =>
    cases h
    exact Nat.le_refl _
  | succ pages ih =>
    rw [growPages] at h
    split at h
    rename_i frame pmm halloc
    have hframe := pmmAlloc_freeFrames halloc
    split at h
    · cases h
      simpa using Nat.le_trans (Nat.le_add_right ..) hframe
    · rename_i h0
      rw [if_neg h0] at hframe
      rcases hmap : pagingMapPage { s with pmm } virt frame PAGE_RW with ⟨ret, s1⟩
      rw [hmap] at h
      have hfree : s1.pmm.freeFrames ≤ pmm.freeFrames := pagingMapPageOn_freeFrames hmap
      have hrest := ih h
      cases ok <;> simp only [if_true, Bool.false_eq_true, if_false] at hrest ⊢ <;> omega

end EponaOS.Mm
