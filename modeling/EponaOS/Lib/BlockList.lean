import Mathlib.Tactic.Ring

/-!
# Linked lists of blocks that tile an interval

An allocator keeps a header in front of each block: its size, whether it is free, and the
headers of the blocks after and before it (0 for none). `Tiles` says that the blocks lie
next to each other and fill an interval, `Linked` that the headers in memory are those of
the list. Replacing a few neighbouring blocks by others over the same addresses, which is
what splitting, merging, taking, freeing and growing do, keeps both: `Tiles.splice`,
`Linked.splice`.
-/

namespace EponaOS.BlockList

structure Header where
  size : Nat
  free : Bool
  next : Nat
  prev : Nat

/-- A block: the address of its header, its size with the header, whether it is free. -/
structure Blk where
  addr : Nat
  size : Nat
  free : Bool

def Blk.fin (b : Blk) : Nat := b.addr + b.size

/-- The blocks fill `[lo, hi)` in order, each with room for its header of `hdr` bytes. -/
def Tiles (hdr : Nat) : Nat → List Blk → Nat → Prop
  | lo, [], hi => lo = hi
  | lo, b :: bs, hi => b.addr = lo ∧ hdr ≤ b.size ∧ Tiles hdr b.fin bs hi

/-- The header of the first block, or `nxt` if there is none. -/
def headAddr : List Blk → Nat → Nat
  | [], nxt => nxt
  | b :: _, _ => b.addr

/-- The header of the last block, or `prev` if there is none. -/
def lastAddr : Nat → List Blk → Nat
  | prev, [] => prev
  | _, b :: bs => lastAddr b.addr bs

/-- The headers in memory are those of the blocks, linked both ways, after a block at `prev`
and before one at `nxt`. -/
def Linked (H : Nat → Header) : Nat → List Blk → Nat → Prop
  | _, [], _ => True
  | prev, b :: bs, nxt => H b.addr = ⟨b.size, b.free, headAddr bs nxt, prev⟩ ∧ Linked H b.addr bs nxt

variable {hdr lo hi prev nxt : Nat} {H H' : Nat → Header} {b c : Blk} {bs pre mid mid' post : List Blk}

-- ---------------------------------------------------------------------------
-- Tilings
-- ---------------------------------------------------------------------------

theorem tiles_append : Tiles hdr lo (pre ++ post) hi ↔
    ∃ z, Tiles hdr lo pre z ∧ Tiles hdr z post hi := by
  induction pre generalizing lo with
  | nil => simp [Tiles]
  | cons b pre ih => simp only [List.cons_append, Tiles, ih]; grind

theorem Tiles.le (h : Tiles hdr lo bs hi) : lo ≤ hi := by
  induction bs generalizing lo with
  | nil => exact Nat.le_of_eq h
  | cons b bs ih =>
    obtain ⟨rfl, -, h⟩ := h
    exact Nat.le_trans (Nat.le_add_right ..) (ih h)

theorem Tiles.mem (h : Tiles hdr lo bs hi) (hb : b ∈ bs) :
    lo ≤ b.addr ∧ b.fin ≤ hi ∧ hdr ≤ b.size := by
  induction bs generalizing lo with
  | nil => simp at hb
  | cons c bs ih =>
    obtain ⟨rfl, hsize, h⟩ := h
    rcases List.mem_cons.mp hb with rfl | hb
    · exact ⟨Nat.le_refl _, h.le, hsize⟩
    · obtain ⟨hlo, hfin, hs⟩ := ih h hb
      exact ⟨Nat.le_trans (Nat.le_add_right ..) hlo, hfin, hs⟩

/-- The blocks around a run of blocks: those before end where it starts, those after start
where it ends. -/
theorem Tiles.around (h : Tiles hdr lo (pre ++ mid ++ post) hi) :
    ∃ y z, Tiles hdr lo pre y ∧ Tiles hdr y mid z ∧ Tiles hdr z post hi ∧
      (∀ x ∈ pre, x.fin ≤ y) ∧ ∀ x ∈ post, z ≤ x.addr := by
  rw [List.append_assoc, tiles_append] at h
  obtain ⟨y, hpre, h⟩ := h
  obtain ⟨z, hmid, hpost⟩ := tiles_append.mp h
  exact ⟨y, z, hpre, hmid, hpost, fun x hx => (hpre.mem hx).2.1, fun x hx => (hpost.mem hx).1⟩

theorem Tiles.splice (h : Tiles hdr lo (pre ++ mid ++ post) hi)
    (hmid : ∀ y z, Tiles hdr y mid z → Tiles hdr y mid' z) :
    Tiles hdr lo (pre ++ mid' ++ post) hi := by
  obtain ⟨y, z, hpre, hm, hpost, -⟩ := h.around
  rw [List.append_assoc, tiles_append]
  exact ⟨y, hpre, tiles_append.mpr ⟨z, hmid y z hm, hpost⟩⟩

theorem Tiles.apart (h : Tiles hdr lo bs hi) (hb : b ∈ bs) (hc : c ∈ bs) :
    b = c ∨ b.fin ≤ c.addr ∨ c.fin ≤ b.addr := by
  induction bs generalizing lo with
  | nil => simp at hb
  | cons d bs ih =>
    obtain ⟨rfl, -, h⟩ := h
    rcases List.mem_cons.mp hb with rfl | hb' <;> rcases List.mem_cons.mp hc with rfl | hc'
    · exact .inl rfl
    · exact .inr (.inl (h.mem hc').1)
    · exact .inr (.inr (h.mem hb').1)
    · exact ih h hb' hc'

-- ---------------------------------------------------------------------------
-- Links
-- ---------------------------------------------------------------------------

@[simp] theorem headAddr_nil : headAddr [] nxt = nxt := rfl
@[simp] theorem headAddr_cons : headAddr (b :: bs) nxt = b.addr := rfl
@[simp] theorem lastAddr_nil : lastAddr prev [] = prev := rfl
@[simp] theorem lastAddr_cons : lastAddr prev (b :: bs) = lastAddr b.addr bs := rfl

@[simp] theorem headAddr_append : headAddr (pre ++ post) nxt = headAddr pre (headAddr post nxt) := by
  cases pre <;> rfl

@[simp] theorem lastAddr_append (pre post : List Blk) : lastAddr prev (pre ++ post) = lastAddr (lastAddr prev pre) post := by
  induction pre generalizing prev with
  | nil => rfl
  | cons b pre ih => exact ih

theorem linked_append : Linked H prev (pre ++ post) nxt ↔
    Linked H prev pre (headAddr post nxt) ∧ Linked H (lastAddr prev pre) post nxt := by
  induction pre generalizing prev with
  | nil => simp [Linked, lastAddr]
  | cons b pre ih => simp only [List.cons_append, Linked, headAddr_append, ih, lastAddr, and_assoc]

theorem Linked.congr (h : Linked H prev bs nxt) (hH : ∀ b ∈ bs, H' b.addr = H b.addr) :
    Linked H' prev bs nxt := by
  induction bs generalizing prev with
  | nil => trivial
  | cons b bs ih =>
    exact ⟨(hH b (by simp)).trans h.1, ih h.2 fun c hc => hH c (List.mem_cons_of_mem _ hc)⟩

theorem Linked.header (h : Linked H prev (pre ++ b :: post) nxt) :
    H b.addr = ⟨b.size, b.free, headAddr post nxt, lastAddr prev pre⟩ :=
  (linked_append.mp h).2.1

/-- Neighbouring blocks replaced by others that start with the same header: the headers
before keep, the one after gets a new `prev`. -/
theorem Linked.splice (h : Linked H prev (pre ++ mid ++ post) nxt)
    (hhead : headAddr mid' (headAddr post nxt) = headAddr mid (headAddr post nxt))
    (hpre : ∀ x ∈ pre, H' x.addr = H x.addr)
    (hmid : Linked H' (lastAddr prev pre) mid' (headAddr post nxt))
    (hpost : ∀ c cs, post = c :: cs →
      H' c.addr = { H c.addr with prev := lastAddr (lastAddr prev pre) mid' } ∧
        ∀ x ∈ cs, H' x.addr = H x.addr) :
    Linked H' prev (pre ++ mid' ++ post) nxt := by
  rw [List.append_assoc, linked_append, linked_append] at h ⊢
  obtain ⟨hp, -, hq⟩ := h
  rw [headAddr_append] at hp ⊢
  refine ⟨hhead ▸ hp.congr hpre, hmid, ?_⟩
  rcases post with _ | ⟨c, cs⟩
  · trivial
  · obtain ⟨hc, hcs⟩ := hpost c cs rfl
    exact ⟨by rw [hc, hq.1], hq.2.congr hcs⟩

theorem lastAddr_mem (prev : Nat) (hne : bs ≠ []) : ∃ b ∈ bs, lastAddr prev bs = b.addr := by
  induction bs generalizing prev with
  | nil => exact absurd rfl hne
  | cons b bs ih =>
    rcases bs with _ | ⟨c, cs⟩
    · exact ⟨b, by simp, rfl⟩
    · obtain ⟨d, hd, heq⟩ := ih b.addr (by simp)
      exact ⟨d, List.mem_cons_of_mem _ hd, heq⟩

end EponaOS.BlockList
