import EponaOS.Lib.BlockList
import Mathlib.Data.List.Chain

/-!
# Blocks linked one way, cut and merged

A header may link to the next block only: `Chained` is `Linked` without the way back. A
free block that is taken is cut in two when enough is left (`cut`). One pass over the list
merges each run of free blocks (`mergeFrom`), and after it no two neighbours are both free
(`Merged`). `Uses` says that the live allocations are the blocks in use.
-/

namespace EponaOS.BlockList

structure Cell where
  size : Nat
  free : Bool
  next : Nat

/-- The headers in memory are those of the blocks, the last one linked to `nxt`. -/
def Chained (C : Nat → Cell) : List Blk → Nat → Prop
  | [], _ => True
  | b :: bs, nxt => C b.addr = ⟨b.size, b.free, headAddr bs nxt⟩ ∧ Chained C bs nxt

/-- A block taken for `total` bytes: what is left is a block if it has `room` bytes. -/
def cut (room : Nat) (b : Blk) (total : Nat) : List Blk :=
  if total + room ≤ b.size then
    [⟨b.addr, total, false⟩, ⟨b.addr + total, b.size - total, true⟩]
  else [{ b with free := false }]

def mergeFrom (b : Blk) : List Blk → List Blk
  | [] => [b]
  | c :: cs =>
    if b.free && c.free then mergeFrom { b with size := b.size + c.size } cs
    else b :: mergeFrom c cs

def Merged (bs : List Blk) : Prop := bs.IsChain fun b c => ¬ (b.free = true ∧ c.free = true)

/-- The live allocations, each an address and the size asked for, are the blocks in use. -/
structure Uses (hdr : Nat) (bs : List Blk) (live : List (Nat × Nat)) : Prop where
  nodup : (live.map Prod.fst).Nodup
  block : ∀ p n, (p, n) ∈ live → ∃ b ∈ bs, b.free = false ∧ p = b.addr + hdr ∧ n + hdr ≤ b.size
  used : ∀ b ∈ bs, b.free = false → ∃ n, (b.addr + hdr, n) ∈ live

def release (live : List (Nat × Nat)) (p : Nat) : List (Nat × Nat) := live.filter fun x => x.1 != p

variable {hdr least room total lo hi nxt n p q k : Nat} {C C' : Nat → Cell} {a b c d : Blk}
  {bs bs' pre mid mid' post : List Blk} {live : List (Nat × Nat)}

-- ---------------------------------------------------------------------------
-- Chains of headers
-- ---------------------------------------------------------------------------

theorem chained_append :
    Chained C (pre ++ post) nxt ↔ Chained C pre (headAddr post nxt) ∧ Chained C post nxt := by
  induction pre with
  | nil => simp [Chained]
  | cons b pre ih => simp only [List.cons_append, Chained, headAddr_append, ih, and_assoc]

theorem Chained.congr (h : Chained C bs nxt) (hC : ∀ b ∈ bs, C' b.addr = C b.addr) :
    Chained C' bs nxt := by
  induction bs with
  | nil => trivial
  | cons b bs ih =>
    refine ⟨?_, ih h.2 fun c hc => hC c (List.mem_cons_of_mem _ hc)⟩
    rw [hC b (by simp)]
    exact h.1

theorem Chained.cell (h : Chained C (pre ++ [b] ++ post) nxt) :
    C b.addr = ⟨b.size, b.free, headAddr post nxt⟩ := by
  rw [List.append_assoc] at h
  exact (chained_append.mp h).2.1

theorem Chained.splice (h : Chained C (pre ++ mid ++ post) nxt)
    (hhead : headAddr mid' (headAddr post nxt) = headAddr mid (headAddr post nxt))
    (hmid : Chained C' mid' (headAddr post nxt))
    (hout : ∀ x, x ∈ pre ∨ x ∈ post → C' x.addr = C x.addr) : Chained C' (pre ++ mid' ++ post) nxt := by
  rw [List.append_assoc, chained_append, chained_append] at h ⊢
  obtain ⟨hpre, -, hpost⟩ := h
  rw [headAddr_append] at hpre ⊢
  rw [hhead]
  exact ⟨hpre.congr fun x hx => hout x (.inl hx), hmid, hpost.congr fun x hx => hout x (.inr hx)⟩

-- ---------------------------------------------------------------------------
-- Cutting a block
-- ---------------------------------------------------------------------------

@[simp] theorem headAddr_cut : headAddr (cut room b total) nxt = b.addr := by
  unfold cut
  split <;> rfl

theorem Tiles.cut (h : Tiles hdr lo [b] hi) (ht : hdr ≤ total) (hr : hdr ≤ room) :
    Tiles hdr lo (cut room b total) hi := by
  obtain ⟨rfl, hsize, hhi⟩ := h
  unfold BlockList.cut
  split
  · rename_i hfit
    refine ⟨rfl, ht, rfl, ?_, ?_⟩
    · simp only
      omega
    · simp only [Tiles, Blk.fin] at hhi ⊢
      omega
  · exact ⟨rfl, hsize, hhi⟩

theorem cut_used (room : Nat) (hfit : total ≤ b.size) : ∃ d, d.addr = b.addr ∧ d.free = false ∧ total ≤ d.size ∧
    ∀ c, c.free = false → (c ∈ cut room b total ↔ c = d) := by
  unfold cut
  split
  · refine ⟨⟨b.addr, total, false⟩, rfl, rfl, Nat.le_refl _, fun c hc => ?_⟩
    have hne : c ≠ ⟨b.addr + total, b.size - total, true⟩ := by
      rintro rfl
      cases hc
    simp [hne]
  · exact ⟨{ b with free := false }, rfl, rfl, hfit, fun c _ => by simp⟩

-- ---------------------------------------------------------------------------
-- Free neighbours
-- ---------------------------------------------------------------------------

theorem Merged.cut (h : Merged (pre ++ [b] ++ post)) (hfree : b.free = true) :
    Merged (pre ++ cut room b total ++ post) := by
  unfold Merged at h ⊢
  simp only [List.isChain_append] at h ⊢
  obtain ⟨⟨hpre, -, -⟩, hpost, hbp⟩ := h
  unfold BlockList.cut
  split
  · refine ⟨⟨hpre, by simp, by simp⟩, hpost, fun x hx y hy => ?_⟩
    have hused := hbp b (by simp) y hy
    simp only [List.getLast?_append, List.getLast?_cons_cons, List.getLast?_singleton,
      Option.some_or, Option.mem_some_iff] at hx
    subst hx
    simpa [hfree] using hused
  · refine ⟨⟨hpre, by simp, by simp⟩, hpost, fun x hx y hy => ?_⟩
    simp only [List.getLast?_append, List.getLast?_singleton, Option.some_or,
      Option.mem_some_iff] at hx
    subst hx
    simp

theorem Merged.resize (h : Merged (pre ++ [b])) (n : Nat) : Merged (pre ++ [{ b with size := n }]) := by
  unfold Merged at h ⊢
  simp only [List.isChain_append] at h ⊢
  obtain ⟨hpre, -, hbp⟩ := h
  refine ⟨hpre, by simp, fun x hx y hy => ?_⟩
  have hb := hbp x hx b (by simp)
  simp only [List.head?_cons, Option.mem_some_iff] at hy
  subst hy
  exact hb

theorem Merged.push (h : Merged (pre ++ [b])) (hused : b.free = false) (c : Blk) :
    Merged (pre ++ [b] ++ [c]) := by
  unfold Merged at h ⊢
  rw [List.isChain_append]
  refine ⟨h, by simp, fun x hx y _ => ?_⟩
  simp only [List.getLast?_append, List.getLast?_singleton, Option.some_or,
    Option.mem_some_iff] at hx
  subst hx
  simp [hused]

theorem mergeFrom_head (b : Blk) (bs : List Blk) :
    ∃ n t, mergeFrom b bs = { b with size := n } :: t := by
  induction bs generalizing b with
  | nil => exact ⟨b.size, [], rfl⟩
  | cons c cs ih =>
    unfold mergeFrom
    split
    · exact ih { b with size := b.size + c.size }
    · exact ⟨b.size, mergeFrom c cs, rfl⟩

@[simp] theorem headAddr_mergeFrom : headAddr (mergeFrom b bs) nxt = b.addr := by
  obtain ⟨n, t, ht⟩ := mergeFrom_head b bs
  rw [ht]
  rfl

theorem Tiles.mergeFrom (h : Tiles hdr lo (b :: bs) hi) : Tiles hdr lo (mergeFrom b bs) hi := by
  induction bs generalizing b lo with
  | nil => exact h
  | cons c cs ih =>
    obtain ⟨rfl, hb, hc, hs, hrest⟩ := h
    unfold BlockList.mergeFrom
    split
    · refine ih ⟨rfl, Nat.le_trans hb (Nat.le_add_right ..), ?_⟩
      simp only [Blk.fin] at hc hrest ⊢
      rwa [← Nat.add_assoc, ← hc]
    · exact ⟨rfl, hb, ih ⟨hc, hs, hrest⟩⟩

theorem merged_mergeFrom (b : Blk) (bs : List Blk) : Merged (mergeFrom b bs) := by
  induction bs generalizing b with
  | nil => exact List.isChain_singleton b
  | cons c cs ih =>
    unfold mergeFrom
    split
    · exact ih _
    · rename_i hbc
      obtain ⟨n, t, ht⟩ := mergeFrom_head c cs
      have htail := ih c
      unfold Merged at htail ⊢
      rw [ht] at htail ⊢
      exact List.isChain_cons_cons.mpr ⟨by simpa using hbc, htail⟩

theorem mem_mergeFrom (hused : d.free = false) : d ∈ mergeFrom b bs ↔ d ∈ b :: bs := by
  induction bs generalizing b with
  | nil => exact Iff.rfl
  | cons c cs ih =>
    unfold mergeFrom
    split
    · rename_i hbc
      obtain ⟨hb, hc⟩ := Bool.and_eq_true_iff.mp hbc
      have hdb : d ≠ b := by
        rintro rfl
        simp [hused] at hb
      have hdc : d ≠ c := by
        rintro rfl
        simp [hused] at hc
      have hdm : d ≠ { b with size := b.size + c.size } := by
        intro heq
        rw [heq] at hused
        simp [hb] at hused
      rw [ih]
      simp [hdb, hdc, hdm]
    · rw [List.mem_cons, ih]
      simp

-- ---------------------------------------------------------------------------
-- Live allocations
-- ---------------------------------------------------------------------------

theorem mem_release {x : Nat × Nat} : x ∈ release live p ↔ x ∈ live ∧ x.1 ≠ p := by
  simp [release]

theorem release_of_not_mem (h : p ∉ live.map Prod.fst) : release live p = live := by
  rw [release, List.filter_eq_self]
  intro x hx
  simp only [bne_iff_ne, ne_eq]
  rintro rfl
  exact h (List.mem_map_of_mem hx)

theorem Uses.congr (h : Uses hdr bs live) (hbs : ∀ b, b.free = false → (b ∈ bs' ↔ b ∈ bs)) :
    Uses hdr bs' live := by
  refine ⟨h.nodup, fun p n hp => ?_, fun b hb hf => h.used b ((hbs b hf).mp hb) hf⟩
  obtain ⟨b, hb, hf, hrest⟩ := h.block p n hp
  exact ⟨b, (hbs b hf).mpr hb, hf, hrest⟩

theorem Tiles.eq_of_addr (h : Tiles hdr lo bs hi) (hpos : 0 < hdr) (hb : b ∈ bs) (hc : c ∈ bs)
    (haddr : b.addr = c.addr) : b = c := by
  have hbs := (h.mem hb).2.2
  have hcs := (h.mem hc).2.2
  obtain heq | hlt | hlt := h.apart hb hc
  · exact heq
  · unfold Blk.fin at hlt
    omega
  · unfold Blk.fin at hlt
    omega

theorem Uses.disjoint (h : Uses hdr bs live) (ht : Tiles least lo bs hi) (hp : (p, n) ∈ live)
    (hq : (q, k) ∈ live) (hne : p ≠ q) : p + n ≤ q ∨ q + k ≤ p := by
  obtain ⟨b, hb, -, rfl, hn⟩ := h.block p n hp
  obtain ⟨c, hc, -, rfl, hk⟩ := h.block q k hq
  obtain rfl | hlt | hlt := ht.apart hb hc
  · exact absurd rfl hne
  · unfold Blk.fin at hlt
    omega
  · unfold Blk.fin at hlt
    omega

theorem Uses.split (h : Uses hdr bs live) (hp : p ∈ live.map Prod.fst) :
    ∃ pre b post, bs = pre ++ [b] ++ post ∧ b.free = false ∧ p = b.addr + hdr := by
  obtain ⟨x, hx, rfl⟩ := List.mem_map.mp hp
  obtain ⟨b, hb, hf, heq, -⟩ := h.block x.1 x.2 hx
  obtain ⟨pre, post, rfl⟩ := List.append_of_mem hb
  exact ⟨pre, b, post, by simp, hf, heq⟩

theorem Uses.take (h : Uses hdr (pre ++ [b] ++ post) live)
    (htiles : Tiles least lo (pre ++ [b] ++ post) hi) (hpos : 0 < least) (hfree : b.free = true)
    (hn : n + hdr ≤ total) (hfit : total ≤ b.size) :
    Uses hdr (pre ++ cut room b total ++ post) ((b.addr + hdr, n) :: live) := by
  obtain ⟨d, haddr, hdfree, hsize, hd⟩ := cut_used room hfit
  have hmem : ∀ c, c.free = false →
      (c ∈ pre ++ cut room b total ++ post ↔ c = d ∨ c ∈ pre ++ [b] ++ post) := by
    intro c hc
    have hcb : c ≠ b := by
      rintro rfl
      rw [hfree] at hc
      cases hc
    simp only [List.mem_append, hd c hc, List.mem_singleton, hcb]
    tauto
  refine ⟨?_, fun p k hp => ?_, fun c hc hcf => ?_⟩
  · rw [List.map_cons, List.nodup_cons]
    refine ⟨fun hin => ?_, h.nodup⟩
    obtain ⟨x, hx, hxb⟩ := List.mem_map.mp hin
    obtain ⟨c, hc, hcf, hpc, -⟩ := h.block x.1 x.2 hx
    have hcb : c = b := htiles.eq_of_addr hpos hc (by simp) (by simp only at hxb; omega)
    rw [hcb, hfree] at hcf
    cases hcf
  · rcases List.mem_cons.mp hp with heq | hp
    · cases heq
      exact ⟨d, (hmem d hdfree).mpr (.inl rfl), hdfree, by rw [haddr], Nat.le_trans hn hsize⟩
    · obtain ⟨c, hc, hcf, hrest⟩ := h.block p k hp
      exact ⟨c, (hmem c hcf).mpr (.inr hc), hcf, hrest⟩
  · obtain rfl | hc := (hmem c hcf).mp hc
    · exact ⟨n, by simp [haddr]⟩
    · obtain ⟨k, hk⟩ := h.used c hc hcf
      exact ⟨k, List.mem_cons_of_mem _ hk⟩

theorem Uses.drop (h : Uses hdr (pre ++ [b] ++ post) live)
    (htiles : Tiles least lo (pre ++ [b] ++ post) hi) (hpos : 0 < least)
    (hbs : ∀ c, c.free = false → (c ∈ bs' ↔ c ∈ pre ∨ c ∈ post)) :
    Uses hdr bs' (release live (b.addr + hdr)) := by
  have hne : ∀ c, c ∈ pre ∨ c ∈ post → c.addr ≠ b.addr := by
    obtain ⟨y, z, -, ⟨hy, hs, hz⟩, -, hpre, hpost⟩ := htiles.around
    rintro c (hc | hc) heq
    · have := hpre c hc
      have := (htiles.mem (b := c) (by simp [hc])).2.2
      unfold Blk.fin at *
      omega
    · have := hpost c hc
      simp only [Tiles, Blk.fin] at hz
      omega
  refine ⟨?_, fun p n hp => ?_, fun c hc hcf => ?_⟩
  · exact h.nodup.sublist (List.Sublist.map _ List.filter_sublist)
  · obtain ⟨hp, hpb⟩ := mem_release.mp hp
    obtain ⟨c, hc, hcf, hpc, hn⟩ := h.block p n hp
    have hcb : c ≠ b := by
      rintro rfl
      exact hpb hpc
    refine ⟨c, (hbs c hcf).mpr ?_, hcf, hpc, hn⟩
    simpa [hcb] using hc
  · have hc' := (hbs c hcf).mp hc
    obtain ⟨n, hn⟩ := h.used c (by simp only [List.mem_append]; tauto) hcf
    refine ⟨n, mem_release.mpr ⟨hn, ?_⟩⟩
    have := hne c hc'
    simp only
    omega

end EponaOS.BlockList
