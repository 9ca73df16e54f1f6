import EponaOS.Mm.HeapSizes

/-!
# What `krealloc` keeps

`kmalloc` and `kfree` write to headers, to free blocks and to new pages. The payload of a block in
use is none of these, so it survives a new block, the copy into it and the merging that follows.
-/

namespace EponaOS.Mm

open Bytes BlockList

variable {s s' : Heap} {m : Bytes} {b c : Blk} {bs bs' pre post : List Blk} {live : List (Nat × Nat)}
  {h x n i p q r fuel size total : Nat}

def Off (h x : Nat) : Prop := x < h ∨ h + HEADER_SIZE ≤ x

def InUse (bs : List Blk) (x : Nat) : Prop :=
  ∃ b ∈ bs, b.free = false ∧ b.addr + HEADER_SIZE ≤ x ∧ x < b.fin

/-- The blocks in use are the live allocations. Where the list ends is left open. -/
def HeapLive (s : Heap) (live : List (Nat × Nat)) : Prop := ∃ bs, HeapRep s bs ∧ LiveIn bs live

-- ---------------------------------------------------------------------------
-- Writes to one header
-- ---------------------------------------------------------------------------

theorem setSize_off (v : Nat) (hx : Off h x) : setSize m h v x = m x := by
  unfold Off HEADER_SIZE at hx
  exact putLE_off _ _ (by omega)

theorem setFree_off (v : UInt8) (hx : Off h x) : setFree m h v x = m x := by
  unfold Off HEADER_SIZE at hx
  exact setByte_ne _ _ (by omega)

theorem setNext_off (v : Nat) (hx : Off h x) : setNext m h v x = m x := by
  unfold Off HEADER_SIZE at hx
  exact putLE_off _ _ (by omega)

theorem setPrev_off (v : Nat) (hx : Off h x) : setPrev m h v x = m x := by
  unfold Off HEADER_SIZE at hx
  exact putLE_off _ _ (by omega)

theorem heapCreateBlock_off (v : Nat) (hx : Off h x) : heapCreateBlock m h v x = m x := by
  rw [heapCreateBlock, setPrev_off _ hx, setNext_off _ hx, setFree_off _ hx, setSize_off _ hx]

theorem remainder_off (hx : Off (h + total) x) : remainder m h total x = m x := by
  dsimp only [remainder]
  rw [setPrev_off _ hx, setNext_off _ hx, setFree_off _ hx, setSize_off _ hx]

-- ---------------------------------------------------------------------------
-- Taking and merging blocks
-- ---------------------------------------------------------------------------

/-- A payload in use is apart from every header of the list, and from the whole of a free block. -/
theorem HeapRep.inUse_off (hr : HeapRep s bs) (hx : InUse bs x) (hb : b ∈ bs) :
    Off b.addr x ∧ (b.free = true → x < b.addr ∨ b.fin ≤ x) := by
  obtain ⟨c, hc, hused, hlo, hhi⟩ := hx
  have hbs := (hr.block hb).2.2
  simp only [Off, HEADER_SIZE, MIN_BLOCK, Blk.fin] at *
  obtain rfl | hlt | hlt := hr.tiles.apart hb hc
  · refine ⟨by omega, fun hfree => ?_⟩
    rw [hused] at hfree
    cases hfree
  · unfold Blk.fin at hlt
    omega
  · unfold Blk.fin at hlt
    omega

theorem HeapRep.inUse_lt (hr : HeapRep s bs) (hx : InUse bs x) : x < s.gHeapVirtTop := by
  obtain ⟨c, hc, -, -, hhi⟩ := hx
  exact Nat.lt_of_lt_of_le hhi (hr.block hc).2.1

theorem HeapRep.next_off (hr : HeapRep s (pre ++ post)) (hx : InUse (pre ++ post) x)
    (hne : headAddr post 0 ≠ 0) : Off (headAddr post 0) x := by
  rcases post with _ | ⟨d, ds⟩
  · exact absurd rfl hne
  · exact (hr.inUse_off hx (b := d) (by simp)).1

theorem HeapRep.takeFit_off (hr : HeapRep s (pre ++ [b] ++ post)) (ht : MIN_BLOCK ≤ total)
    (hfit : total ≤ b.size) (hfree : b.free = true) (hx : InUse (pre ++ [b] ++ post) x) :
    Mm.takeFit s.mem b.addr total x = s.mem x := by
  have hb := hr.header
  have hsz : hdrSize s.mem b.addr = b.size := by rw [hdrSize_eq, hb]
  have htop := hr.top_lt
  have hbfin := (hr.block (b := b) (by simp)).2.1
  obtain ⟨hoff, hout⟩ := hr.inUse_off hx (b := b) (by simp)
  have hout := hout hfree
  unfold Mm.takeFit
  rw [hsz]
  simp only [Blk.fin] at hbfin hout
  by_cases hcut : (total + MIN_BLOCK) % 2 ^ 64 ≤ b.size
  · rw [if_pos hcut]
    simp only [MIN_BLOCK] at hcut ht
    have hrest : Off (b.addr + total) x := by
      simp only [Off, HEADER_SIZE]
      omega
    have hnxt : headAddr post 0 < 2 ^ 64 := by
      rcases post with _ | ⟨d, ds⟩
      · simp
      · have hd := (hr.block (b := d) (by simp)).2.1
        simp only [headAddr_cons, Blk.fin] at hd ⊢
        omega
    have hn : hdrNext (remainder s.mem b.addr total) (b.addr + total) = headAddr post 0 := by
      rw [hdrNext_eq, header_remainder total hb (Nat.le_trans (by decide) ht)
        (by omega) hnxt (by omega)]
    rw [setFree_off _ hoff, setSize_off _ hoff, setNext_off _ hoff, hn]
    by_cases hne : headAddr post 0 ≠ 0
    · rw [if_pos hne, setPrev_off _ (hr.next_off hx hne), remainder_off hrest]
    · rw [if_neg hne, remainder_off hrest]
  · rw [if_neg hcut]
    exact setFree_off _ hoff

theorem HeapRep.heapCoalesce_off (hr : HeapRep s (pre ++ [b] ++ post))
    (hx : InUse (pre ++ [b] ++ post) x) : Mm.heapCoalesce s.mem b.addr x = s.mem x := by
  have hb := hr.header
  have hoff := (hr.inUse_off hx (b := b) (by simp)).1
  have hn : hdrNext s.mem b.addr = headAddr post 0 := by rw [hdrNext_eq, hb]
  unfold Mm.heapCoalesce
  by_cases hcond : hdrNext s.mem b.addr ≠ 0 ∧ hdrFree s.mem (hdrNext s.mem b.addr) ≠ 0
  · rw [if_pos hcond]
    rcases post with _ | ⟨c, cs⟩
    · exact absurd hn hcond.1
    · have hrc : HeapRep s (pre ++ [b] ++ [c] ++ cs) := by simpa using hr
      have hrcs : HeapRep s ((pre ++ [b] ++ [c]) ++ cs) := hrc
      have hxc : InUse ((pre ++ [b] ++ [c]) ++ cs) x := by simpa using hx
      have hc := hrc.header
      have hmid : HeapRep s (pre ++ [b, c] ++ cs) := by simpa using hr
      obtain ⟨y, z, ⟨hy, hbs, hbc, -⟩, -⟩ := hmid.around
      simp only [Blk.fin, MIN_BLOCK] at hy hbs hbc
      have hapart : Apart c.addr b.addr := by
        simp only [Apart, HEADER_SIZE]
        omega
      rw [hn]
      generalize (hdrSize s.mem b.addr + hdrSize s.mem (headAddr (c :: cs) 0)) % 2 ^ 64 = sum
      have hn1 : hdrNext (setSize s.mem b.addr sum) b.addr = c.addr := by
        rw [hdrNext_eq, header_setSize, hb]
        rfl
      have hc1 : hdrNext (setSize s.mem b.addr sum) c.addr = headAddr cs 0 := by
        rw [hdrNext_eq, header_setSize_off hapart, hc]
      have hnxt : headAddr cs 0 < 2 ^ 64 := by
        rw [← hc1]
        have := getLE_lt (setSize s.mem b.addr sum) (c.addr + 9) 8
        rwa [field_size] at this
      rw [hn1, hc1]
      have hn2 : hdrNext (setNext (setSize s.mem b.addr sum) b.addr (headAddr cs 0)) b.addr =
          headAddr cs 0 := by
        rw [hdrNext_eq, header_setNext, Nat.mod_eq_of_lt hnxt]
      rw [hn2]
      by_cases hne : headAddr cs 0 ≠ 0
      · rw [if_pos hne, setPrev_off _ (hrcs.next_off hxc hne), setNext_off _ hoff, setSize_off _ hoff]
      · rw [if_neg hne, setNext_off _ hoff, setSize_off _ hoff]
  · rw [if_neg hcond]

theorem InUse.mono (h : InUse bs x) (hbs : ∀ b ∈ bs, b.free = false → b ∈ bs') : InUse bs' x := by
  obtain ⟨b, hb, hused, hx⟩ := h
  exact ⟨b, hbs b hb hused, hused, hx⟩

-- ---------------------------------------------------------------------------
-- The calls
-- ---------------------------------------------------------------------------

theorem takeNew_off (total : Nat) (hx : x < h) : takeNew m h total x = m x := by
  have hoff : Off h x := .inl hx
  have hrest : Off (h + total) x := .inl (by omega)
  unfold takeNew
  split
  · rw [setFree_off _ hoff, setSize_off _ hoff, setNext_off _ hoff, remainder_off hrest]
  · exact setFree_off _ hoff

theorem growHeap_keeps (hr : HeapRep s bs) (hend : s.gHeapEnd = lastAddr 0 bs) (hx : InUse bs x)
    (h : growHeap s total = (p, s')) : s'.mem x = s.mem x := by
  have hlt := hr.inUse_lt hx
  have hlast : Off s.gHeapEnd x := by
    obtain ⟨e, he, heq⟩ := lastAddr_mem 0 hr.nonempty
    rw [hend, heq]
    exact (hr.inUse_off hx he).1
  unfold growHeap at h
  dsimp only at h
  split at h
  · cases h
    rfl
  · generalize hsize : growCount total * pageSize = size at h
    have hm : setNext (setPrev (heapCreateBlock s.mem s.gHeapVirtTop size) s.gHeapVirtTop s.gHeapEnd)
        s.gHeapEnd s.gHeapVirtTop x = s.mem x := by
      rw [setNext_off _ hlast, setPrev_off _ (.inl hlt), heapCreateBlock_off _ (.inl hlt)]
    split at h
    · cases h
      exact (takeNew_off _ hlt).trans hm
    · cases h
      exact hm

theorem kmalloc_keeps (hr : HeapRep s bs) (hend : s.gHeapEnd = lastAddr 0 bs) (hx : InUse bs x)
    (h : kmalloc fuel s size = some (p, s')) : s'.mem x = s.mem x := by
  unfold kmalloc at h
  split at h
  · cases h
    rfl
  dsimp only at h
  split at h
  · cases h
  rename_i curr hcurr
  rw [hr.start] at hcurr
  obtain ⟨rfl, -⟩ | ⟨pre, b, post, rfl, ⟨hfree, hfit⟩, rfl, -⟩ :=
    firstFit_linked hr.linked (fun b hb => (hr.block hb).1) hcurr
  · rw [if_neg (not_not.mpr rfl)] at h
    exact growHeap_keeps hr hend hx (Option.some.inj h)
  · have hb := (hr.block (b := b) (by simp)).1
    rw [if_pos (by omega)] at h
    cases h
    exact hr.takeFit_off (allocTotal_min size) hfit hfree hx

theorem kfree_keeps (hr : HeapRep s (pre ++ [b] ++ post)) (hx : InUse (pre ++ post) x) :
    (kfree s (b.addr + HEADER_SIZE)).mem x = s.mem x := by
  have hpos := (hr.block (b := b) (by simp)).1
  have hr1 : HeapRep { s with mem := Mm.setFree s.mem b.addr 1 }
      (pre ++ [{ b with free := true }] ++ post) := hr.setFree 1
  have hsub : b.addr + HEADER_SIZE - HEADER_SIZE = b.addr := Nat.add_sub_cancel ..
  have hxb : InUse (pre ++ [b] ++ post) x := hx.mono fun c hc _ => by grind
  have hx1 : InUse (pre ++ [{ b with free := true }] ++ post) x := hx.mono fun c hc _ => by grind
  have hset : Mm.setFree s.mem b.addr 1 x = s.mem x := setFree_off _ (hr.inUse_off hxb (by simp)).1
  unfold kfree
  rw [if_neg (by omega)]
  dsimp only
  rw [hsub]
  generalize Mm.setFree s.mem b.addr 1 = m1 at hr1 hset ⊢
  split
  · rename_i hprev
    obtain ⟨a, as, rfl, hfree⟩ := hr1.prev_free.mp hprev
    have hra : HeapRep { s with mem := m1 } (as ++ [a] ++ ({ b with free := true } :: post)) := by
      simpa using hr1
    have hp : hdrPrev m1 b.addr = a.addr := by
      have hhdr := hr1.header
      dsimp only at hhdr
      rw [hdrPrev_eq, hhdr]
      simp
    have hxa : InUse (as ++ [a] ++ ({ b with free := true } :: post)) x := by
      simpa only [List.append_assoc, List.cons_append, List.nil_append] using hx1
    have hmerge : Mm.heapCoalesce m1 a.addr x = m1 x := hra.heapCoalesce_off hxa
    rw [hp]
    dsimp only
    rw [hmerge, hset]
  · have hmerge : Mm.heapCoalesce m1 b.addr x = m1 x := hr1.heapCoalesce_off hx1
    dsimp only
    rw [hmerge, hset]

-- ---------------------------------------------------------------------------
-- `krealloc`
-- ---------------------------------------------------------------------------

theorem HeapRep.ksize (hr : HeapRep s bs) (hb : b ∈ bs) :
    Mm.ksize s (b.addr + HEADER_SIZE) = b.size - HEADER_SIZE := by
  obtain ⟨hpos, -, hsize⟩ := hr.block hb
  obtain ⟨pre, post, rfl⟩ := List.append_of_mem hb
  have hhdr : Mm.header s.mem b.addr = _ := HeapRep.header (by simpa using hr)
  have hsz : hdrSize s.mem (b.addr + HEADER_SIZE - HEADER_SIZE) = b.size := by
    rw [Nat.add_sub_cancel, hdrSize_eq, hhdr]
  rw [ksize_eq s (by omega) (by rw [hsz]; exact Nat.le_trans (by decide) hsize), hsz]

theorem copyBytes_in (m : Bytes) {dst src : Nat} (hapart : dst + n ≤ src ∨ src + n ≤ dst) (hi : i < n) :
    copyBytes m dst src n (dst + i) = m (src + i) := by
  induction n with
  | zero => omega
  | succ n ih =>
    rw [copyBytes]
    by_cases heq : i = n
    · rw [heq, setByte_same]
      exact copyBytes_off _ (by omega)
    · rw [setByte_ne _ _ (by omega)]
      exact ih (by omega) (by omega)

/-- What a request does to the live allocations, wherever `g_heap_end` is afterwards. -/
theorem kmalloc_live (hr : HeapRep s bs) (hend : s.gHeapEnd = lastAddr 0 bs) (hlive : LiveIn bs live)
    (hsize : size ≤ MAX_ALLOC) (h : kmalloc fuel s size = some (q, s')) :
    (q = 0 ∧ HeapRep s' bs) ∨ (q ≠ 0 ∧ ∃ bs', HeapRep s' bs' ∧ LiveIn bs' ((q, size) :: live) ∧
      ∀ b ∈ bs, b.free = false → b ∈ bs') := by
  have hn := (allocTotal_spec hsize).2.1
  have hheader : 0 < HEADER_SIZE := by decide
  obtain ⟨rfl, -, -, hr'⟩ | ⟨pre, b, post, rfl, ⟨hfree, hbs⟩, -, -, rfl, -, hr'⟩ |
    ⟨-, -, rfl, -, hr'⟩ := kmalloc_spec hr hend hsize h
  · exact .inl ⟨rfl, hr'⟩
  · refine .inr ⟨by omega, _, hr', hlive.take hr.tiles hfree hn hbs, fun c hc hused => ?_⟩
    have hcb : c ≠ b := by
      rintro rfl
      rw [hused] at hfree
      cases hfree
    grind
  · exact .inr ⟨by omega, _, hr', hlive.grow hr hsize, fun c hc _ => List.mem_append_left _ hc⟩

theorem LiveIn.inUse (hlive : LiveIn bs live) (hr : HeapRep s bs) (hp : r ∈ live.map Prod.fst) :
    ∃ b ∈ bs, b.free = false ∧ r = b.addr + HEADER_SIZE ∧
      ∀ i < Mm.ksize s r, r + i < b.fin := by
  obtain ⟨x, hx, rfl⟩ := List.mem_map.mp hp
  obtain ⟨b, hb, hused, haddr, -⟩ := hlive.block x.1 x.2 hx
  refine ⟨b, hb, hused, haddr, fun i hi => ?_⟩
  rw [haddr, hr.ksize hb] at hi
  unfold Blk.fin
  omega

theorem HeapRep.copied (hr : HeapRep s bs) (hb : b ∈ bs) (hpb : p = b.addr + HEADER_SIZE) (n : Nat) :
    (if hdrSize s.mem (p - HEADER_SIZE) - HEADER_SIZE > n then n
      else hdrSize s.mem (p - HEADER_SIZE) - HEADER_SIZE) = min (Mm.ksize s p) n := by
  have hhdr := hr.ksize hb
  obtain ⟨pre, post, rfl⟩ := List.append_of_mem hb
  have hsz : Mm.header s.mem b.addr = _ := HeapRep.header (by simpa using hr)
  rw [hpb, hhdr, Nat.add_sub_cancel, hdrSize_eq, hsz]
  dsimp only
  split <;> omega

theorem krealloc_returns (hr : HeapRep s bs) (hp : p ≠ 0) (hn : n ≠ 0) :
    ∃ fuel q s', krealloc fuel s p n = some (q, s') := by
  obtain ⟨q, s₁, hq⟩ : ∃ q s₁, kmalloc (bs.length + 1) s n = some (q, s₁) :=
    kmalloc_returns hr (Nat.lt_succ_self _)
  refine ⟨bs.length + 1, ?_⟩
  unfold krealloc
  rw [if_neg hp, if_neg hn]
  dsimp only
  rw [hq]
  dsimp only
  split
  · exact ⟨_, _, rfl⟩
  · exact ⟨_, _, rfl⟩

theorem kfree_others {pre post : List Blk} (hr : HeapRep s (pre ++ [b] ++ post))
    (hd : d ∈ pre ++ b :: post) (hused : d.free = false) (hne : d ≠ b)
    (hlo : d.addr + HEADER_SIZE ≤ x) (hhi : x < d.fin) :
    (kfree s (b.addr + HEADER_SIZE)).mem x = s.mem x := by
  have hin : InUse (pre ++ post) x := ⟨d, by grind, hused, hlo, hhi⟩
  exact kfree_keeps hr hin

/-- `krealloc` keeps the data: what fits of the old block is in the new one, the other live blocks
are as before, and the old one is free only if there is a new one. -/
theorem krealloc_keeps (hI : HeapInv s live) (hp : p ∈ live.map Prod.fst) (hlo : 1 ≤ n)
    (hhi : n ≤ 2 ^ 63) :
    (∃ fuel q s', krealloc fuel s p n = some (q, s')) ∧
      ∀ fuel q s', krealloc fuel s p n = some (q, s') →
        (q ≠ 0 → HeapLive s' ((q, n) :: dropLive live p) ∧ p ∉ ((q, n) :: dropLive live p).map Prod.fst ∧
          (∀ i < min (ksize s p) n, s'.mem (q + i) = s.mem (p + i)) ∧
          ∀ r ∈ live.map Prod.fst, r ≠ p → ∀ i < ksize s r, s'.mem (r + i) = s.mem (r + i)) ∧
        (q = 0 → HeapLive s' live ∧
          ∀ r ∈ live.map Prod.fst, ∀ i < ksize s r, s'.mem (r + i) = s.mem (r + i)) := by
  have hp0 : p ≠ 0 := by
    rintro rfl
    exact hI.zero_not_live hp
  obtain ⟨bs, hr, hend, hlive⟩ := hI
  obtain ⟨b, hb, hbused, hpb, hpin⟩ := hlive.inUse hr hp
  have hkeep : ∀ {fuel q s₁} (_ : kmalloc fuel s n = some (q, s₁)), ∀ r ∈ live.map Prod.fst,
      ∀ i < ksize s r, s₁.mem (r + i) = s.mem (r + i) := by
    intro fuel q s₁ hq r hrl i hi
    obtain ⟨d, hd, hused, rfl, hin⟩ := hlive.inUse hr hrl
    exact kmalloc_keeps hr hend ⟨d, hd, hused, Nat.le_add_right .., hin i hi⟩ hq
  refine ⟨?_, fun fuel q s' h => ?_⟩
  · exact krealloc_returns hr hp0 (by omega)
  unfold krealloc at h
  rw [if_neg hp0, if_neg (by omega)] at h
  dsimp only at h
  rw [hr.copied hb hpb n] at h
  split at h
  · cases h
  rename_i t s₁ ht
  obtain ⟨rfl, hr₁⟩ | ⟨hne, bs₁, hr₁, hlive₁, hstay⟩ :=
    kmalloc_live hr hend hlive (Nat.le_trans hhi (by decide)) ht
  · -- no new block: nothing is copied or freed
    rw [if_neg (not_not.mpr rfl)] at h
    cases h
    exact ⟨fun h0 => absurd rfl h0, fun _ => ⟨⟨bs, hr₁, hlive⟩, hkeep ht⟩⟩
  rw [if_pos hne] at h
  obtain ⟨rfl, rfl⟩ := Prod.mk.inj (Option.some.inj h)
  refine ⟨fun _ => ?_, fun h0 => absurd h0 hne⟩
  have hnew : t ∉ live.map Prod.fst := (List.nodup_cons.mp hlive₁.nodup).1
  have hpt : p ≠ t := fun heq => hnew (heq ▸ hp)
  -- the copy into the new block changes no header
  have hrc := hr₁.data (m := copyBytes s₁.mem t p (min (ksize s p) n)) hlive₁
    (List.mem_cons_self ..) (Nat.min_le_right ..) fun x hx => copyBytes_off _ hx
  obtain ⟨c, hc, hcused, htc, hcn⟩ := hlive₁.block t n (List.mem_cons_self ..)
  obtain ⟨pre, post, rfl⟩ := List.append_of_mem (hstay b hb hbused)
  have hsplit : pre ++ b :: post = pre ++ [b] ++ post := by simp
  rw [hsplit] at hrc hlive₁ hr₁
  obtain ⟨bs', hfreed, hr'⟩ := kfree_spec hrc
  rw [← hpb] at hr'
  have hdrop : dropLive ((t, n) :: live) p = (t, n) :: dropLive live p := by
    simp [dropLive, Ne.symm hpt]
  have hlive' := hlive₁.freed hrc hfreed
  rw [← hpb, hdrop] at hlive'
  have hfree : ∀ d ∈ pre ++ b :: post, d.free = false → d ≠ b → ∀ x, d.addr + HEADER_SIZE ≤ x →
      x < d.fin → (kfree { s₁ with mem := copyBytes s₁.mem t p (min (ksize s p) n) } p).mem x =
        copyBytes s₁.mem t p (min (ksize s p) n) x := by
    intro d hd hused hdb x hlo hhi
    have hkept := kfree_others hrc hd hused hdb hlo hhi
    rw [← hpb] at hkept
    exact hkept
  have happ : ∀ d ∈ pre ++ b :: post, d.addr ≠ c.addr → d.fin ≤ c.addr ∨ c.fin ≤ d.addr := by
    intro d hd hne
    rw [hsplit] at hd hc
    obtain rfl | happ := hr₁.tiles.apart hd hc
    · exact absurd rfl hne
    · exact happ
  refine ⟨⟨bs', hr', hlive'⟩, ?_, fun i hi => ?_, fun r hrl hrp i hi => ?_⟩
  · rw [List.map_cons, List.mem_cons, not_or]
    refine ⟨hpt, fun hmem => ?_⟩
    simp [dropLive] at hmem
  · have hbc : b.addr ≠ c.addr := by omega
    have hapart := happ b (by simp) hbc
    have hin := hpin i (by omega)
    have hmin : p + min (ksize s p) n ≤ b.fin := by
      have hk := hr.ksize hb
      have hbs := (hr.block hb).2.2
      rw [← hpb] at hk
      unfold Blk.fin
      simp only [HEADER_SIZE, MIN_BLOCK] at *
      omega
    rw [hfree c hc hcused (fun heq => hbc (heq ▸ rfl)) (t + i) (by omega)
      (by unfold Blk.fin; omega), copyBytes_in _ (by unfold Blk.fin at *; omega) hi]
    exact hkeep ht p hp i (by omega)
  · obtain ⟨d, hd, hused, hrd, hin⟩ := hlive.inUse hr hrl
    have hdc : d.addr ≠ c.addr := by
      intro heq
      exact hnew (by rw [htc, ← heq, ← hrd]; exact hrl)
    have hdb : d ≠ b := by
      rintro rfl
      exact hrp (hrd.trans hpb.symm)
    have hd₁ := hstay d hd hused
    have hapart := happ d hd₁ hdc
    have hri := hin i hi
    rw [hfree d hd₁ hused hdb (r + i) (by omega) hri,
      copyBytes_off _ (by unfold Blk.fin at *; omega)]
    exact hkeep ht r hrl i hi

theorem first_block_shrunk :
    ∃ s fuel q s', kmalloc 2 (heapInit (fun _ => 0) bootMachine) 1048544 =
        some (HEAP_START + HEADER_SIZE, s) ∧
      krealloc fuel s (HEAP_START + HEADER_SIZE) 100 = some (q, s') ∧
      (q ≠ 0 → ∀ i < min (ksize s (HEAP_START + HEADER_SIZE)) 100,
        s'.mem (q + i) = s.mem (HEAP_START + HEADER_SIZE + i)) := by
  obtain ⟨hok, hcall⟩ := heapInit_whole
  have hI := kmalloc_inv (heapInit_inv _ _) hok hcall
  rw [if_neg (by decide)] at hI
  obtain ⟨⟨fuel, q, s', h⟩, hkept⟩ := krealloc_keeps (n := 100) hI (List.mem_cons_self ..) (by decide)
    (by decide)
  exact ⟨_, fuel, q, s', hcall, h, fun hq => ((hkept fuel q s' h).1 hq).2.2.1⟩

end EponaOS.Mm
