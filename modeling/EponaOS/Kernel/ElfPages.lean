import EponaOS.Kernel.ElfFrames
import EponaOS.Mm.PageData

/-!
# An address space that is filled

What is known of the address space that `elf_load` builds, as a partial map from addresses
to bytes. Mapping pages, copying bytes and clearing bytes lay bytes over that map. All of
them work on addresses, 48 bits of which tell two apart.
-/

namespace EponaOS.Kernel.Elf

open Bytes Fs Mm TableTrie

variable {s s' : Machine} {pml4 page v w a : Word} {m m' : Word → Option UInt8} {n k : Nat}
  {src src' : Bytes}

-- ---------------------------------------------------------------------------
-- Laying bytes over what is known
-- ---------------------------------------------------------------------------

def ahead (w v : Word) : Nat := (v - w).toNat % 2 ^ 48

/-- The `n` bytes from `w` on are those of `src`. -/
def overlaid (m : Word → Option UInt8) (w : Word) (n : Nat) (src : Bytes) : Word → Option UInt8 :=
  fun v => if ahead w v < n then some (src (ahead w v)) else m v

theorem ahead_eq (w v : Word) : ahead w v = (v.toNat + 2 ^ 64 - w.toNat) % 2 ^ 48 := by
  have := w.isLt
  rw [ahead, BitVec.toNat_sub]
  omega

theorem ahead_add (w : Word) (hk : k < 2 ^ 48) : ahead w (w + BitVec.ofNat 64 k) = k := by
  have := w.isLt
  rw [ahead_eq, BitVec.toNat_add, BitVec.toNat_ofNat]
  omega

/-- The addresses less than `n` ahead of `w + k`, by their distance from `w`. -/
theorem ahead_add_lt (hkn : k + n ≤ 2 ^ 48) :
    ahead (w + BitVec.ofNat 64 k) v < n ↔ k ≤ ahead w v ∧ ahead w v < k + n := by
  have := w.isLt
  have := v.isLt
  rw [ahead_eq, ahead_eq, BitVec.toNat_add, BitVec.toNat_ofNat]
  omega

theorem ahead_of_add (hkn : k + n ≤ 2 ^ 48) (h : ahead (w + BitVec.ofNat 64 k) v < n) :
    ahead w v = k + ahead (w + BitVec.ofNat 64 k) v := by
  have := w.isLt
  have := v.isLt
  rw [ahead_eq, BitVec.toNat_add, BitVec.toNat_ofNat] at h
  rw [ahead_eq, ahead_eq, BitVec.toNat_add, BitVec.toNat_ofNat]
  omega

theorem pageNo_eq_iff (hp : page.toNat % 4096 = 0) :
    pageNo v = pageNo page ↔ ahead page v < 4096 := by
  have := page.isLt
  have := v.isLt
  rw [pageNo, pageNo, ahead_eq]
  omega

theorem overlaid_congr (h : ∀ i, i < n → src i = src' i) :
    overlaid m w n src = overlaid m w n src' := by
  funext v
  rw [overlaid, overlaid]
  split
  · rename_i hv
    rw [h _ hv]
  · rfl

theorem overlaid_append (m : Word → Option UInt8) (w : Word) (hkn : k + n ≤ 2 ^ 48) (src : Bytes) :
    overlaid (overlaid m w k src) (w + BitVec.ofNat 64 k) n (fun i => src (k + i)) =
      overlaid m w (k + n) src := by
  funext v
  rw [overlaid, overlaid, overlaid]
  by_cases h : ahead (w + BitVec.ofNat 64 k) v < n
  · have hlt := (ahead_add_lt hkn).mp h
    rw [if_pos h, if_pos hlt.2, ahead_of_add hkn h]
  · rw [if_neg h]
    rw [ahead_add_lt hkn] at h
    by_cases hk : ahead w v < k
    · rw [if_pos hk, if_pos (by omega)]
    · rw [if_neg hk, if_neg (by omega)]

-- ---------------------------------------------------------------------------
-- An address space that has what is known of it
-- ---------------------------------------------------------------------------

def Shows (s : Machine) (pml4 : Word) (m : Word → Option UInt8) : Prop :=
  ∃ F, Owned s pml4 F ∧ ∀ v b, m v = some b → (∃ a, F (pageNo v) = some a) ∧ byteAt s.mem pml4 v = b

theorem Shows.byteAt (h : Shows s pml4 m) (hv : m v = some b) : byteAt s.mem pml4 v = b := by
  obtain ⟨F, -, hbytes⟩ := h
  exact (hbytes v b hv).2

theorem Shows.phys_ne_zero (h : Shows s pml4 m) (hv : m v = some b) :
    pagingGetPhysOn s.mem pml4 v ≠ 0 := by
  obtain ⟨F, ho, hbytes⟩ := h
  obtain ⟨⟨a, ha⟩, -⟩ := hbytes v b hv
  exact ho.phys_ne_zero ha

theorem Shows.store (h : Shows s pml4 m) (hw : m w = some b) (hin : w.toNat % 4096 + n ≤ 4096)
    (src : Bytes) :
    Shows { s with mem := storeBytes s.mem (pagingGetPhysOn s.mem pml4 w) src n } pml4
      (overlaid m w n src) := by
  obtain ⟨F, ho, hbytes⟩ := h
  obtain ⟨⟨a, ha⟩, -⟩ := hbytes w b hw
  obtain ⟨ho', hstored⟩ := ho.store ha hin src
  refine ⟨F, ho', fun v c hv => ?_⟩
  rw [overlaid] at hv
  split at hv
  · rename_i hlt
    obtain rfl := Option.some.inj hv
    have hpage : pageNo v = pageNo w := by
      have := w.isLt
      have := v.isLt
      rw [ahead_eq] at hlt
      rw [pageNo, pageNo]
      omega
    have hF : F (pageNo v) = some a := hpage ▸ ha
    exact ⟨⟨a, hF⟩, (hstored v a hF).trans (if_pos hlt)⟩
  · rename_i hge
    obtain ⟨⟨a', ha'⟩, hv'⟩ := hbytes v c hv
    exact ⟨⟨a', ha'⟩, (hstored v a' ha').trans ((if_neg hge).trans hv')⟩

theorem overlaid_self (hw : ∀ v, ahead w v < 1 → m v = some b) :
    overlaid m w 1 (fun _ => b) = m := by
  funext v
  rw [overlaid]
  split
  · rename_i h
    exact (hw v h).symm
  · rfl

-- ---------------------------------------------------------------------------
-- Mapping
-- ---------------------------------------------------------------------------

theorem userFlags_lt : (PAGE_USER ||| PAGE_RW).toNat < 4096 := by decide

theorem mapFresh_ok (hw : WellFormed s pml4) (h : mapFresh s pml4 page = (true, s')) :
    ∃ a pmm, pmmAlloc s.pmm = (a, pmm) ∧ a ≠ 0 ∧
      pagingMapPageOn { s with mem := fillTable s.mem a fun _ => 0, pmm } pml4 page a
        (PAGE_USER ||| PAGE_RW) = (0, s') := by
  rcases halloc : pmmAlloc s.pmm with ⟨a, pmm⟩
  simp only [mapFresh, halloc] at h
  split at h
  · cases h
  rename_i ha
  rcases hmap : pagingMapPageOn { s with mem := fillTable s.mem a fun _ => 0, pmm } pml4 page a
    (PAGE_USER ||| PAGE_RW) with ⟨ret, s₁⟩
  simp only [hmap] at h
  injection h with hret hs
  have hret' : ¬ ret < 0 := by simpa using hret
  obtain ⟨-, ⟨rfl, -⟩ | ⟨rfl, -⟩⟩ := pagingMapPageOn_spec (hw.cleared halloc ha).1 hmap
  · exact absurd (show (-1 : Int) < 0 by decide) hret'
  · exact ⟨a, pmm, rfl, ha, by rw [hmap, hs]⟩

/-- The page in the frame `a` holds zeros, and what was known of other pages stays. If the
page had its page table, nothing of the address space lies directly behind `a`. -/
theorem Shows.mapFresh_frame (h : Shows s pml4 m) (hp : page.toNat % 4096 = 0)
    (hmap : mapFresh s pml4 page = (true, s')) : ∃ F a, Owned s' pml4 F ∧
      F (pageNo page) = some a ∧
      (∀ v b, overlaid m page 4096 (fun _ => 0) v = some b →
        (∃ a, F (pageNo v) = some a) ∧ Mm.byteAt s'.mem pml4 v = b) ∧
      ∀ pt, reach tableOf s.mem 0 pml4 (tablePath page) = some pt →
        (∀ q, reach tableOf s'.mem 0 pml4 q ≠ some (a + 4096)) ∧ ∀ n, F n ≠ some (a + 4096) := by
  obtain ⟨F, ho, hbytes⟩ := h
  obtain ⟨a, pmm, halloc, ha, hcall⟩ := mapFresh_ok ho.wellFormed hmap
  obtain ⟨ho', hzero, hkept⟩ := ho.map halloc ha hcall userFlags_lt
  have hpage : Function.update F (pageNo page) (some a) (pageNo page) = some a :=
    Function.update_self ..
  refine ⟨_, a, ho', hpage, fun v b hv => ?_, fun pt hpt => ho.map_behind halloc ha hcall hpt⟩
  rw [overlaid] at hv
  split at hv
  · rename_i hlt
    obtain rfl := Option.some.inj hv
    have hF : Function.update F (pageNo page) (some a) (pageNo v) = some a := by
      rw [(pageNo_eq_iff hp).mpr hlt, hpage]
    refine ⟨⟨a, hF⟩, ?_⟩
    rw [Mm.byteAt, ho'.phys v a hF, loadByte, frameOf_inFrame (ho'.aligned _ a hF), hzero]
    simp [byteOf]
  · rename_i hge
    obtain ⟨⟨a', ha'⟩, hv'⟩ := hbytes v b hv
    have hF : Function.update F (pageNo page) (some a) (pageNo v) = some a' := by
      rw [Function.update_of_ne (fun he => hge ((pageNo_eq_iff hp).mp he)), ha']
    exact ⟨⟨a', hF⟩, (ho.byteAt_eq ha' (hkept _ a' ha') ho' hF).trans hv'⟩

theorem Shows.mapFresh (h : Shows s pml4 m) (hp : page.toNat % 4096 = 0)
    (hmap : mapFresh s pml4 page = (true, s')) :
    Shows s' pml4 (overlaid m page 4096 fun _ => 0) := by
  obtain ⟨F, a, ho, -, hbytes, -⟩ := h.mapFresh_frame hp hmap
  exact ⟨F, ho, hbytes⟩

theorem Shows.mapPages (h : Shows s pml4 m) (hp : page.toNat % 4096 = 0)
    (hn : 4096 * n ≤ 2 ^ 48) (hmap : mapPages pml4 n page s = (true, s')) :
    Shows s' pml4 (overlaid m page (4096 * n) fun _ => 0) := by
  induction n generalizing s m page with
  | zero =>
    cases hmap
    exact h
  | succ n ih =>
    rcases hf : Elf.mapFresh s pml4 page with ⟨ok, s₁⟩
    rw [Elf.mapPages] at hmap
    simp only [hf] at hmap
    cases ok with
    | false => cases hmap
    | true =>
      have hp' : (page + 4096).toNat % 4096 = 0 := by
        rw [BitVec.toNat_add, show (4096 : Word).toNat = 4096 from rfl]
        omega
      have := ih (h.mapFresh hp hf) hp' (by omega) hmap
      rw [show page + 4096 = page + BitVec.ofNat 64 4096 from rfl,
        overlaid_append m page (by omega) (fun _ => 0)] at this
      rwa [show 4096 * (n + 1) = 4096 + 4096 * n by omega]

theorem mapPages_last (h : mapPages pml4 (n + 1) page s = (true, s')) :
    ∃ s₁, mapPages pml4 n page s = (true, s₁) ∧
      mapFresh s₁ pml4 (page + BitVec.ofNat 64 (4096 * n)) = (true, s') := by
  induction n generalizing s page with
  | zero =>
    rcases hf : mapFresh s pml4 page with ⟨ok, s₁⟩
    simp only [mapPages, hf] at h
    cases ok with
    | false => cases h
    | true =>
      cases h
      exact ⟨s, rfl, by simpa using hf⟩
  | succ n ih =>
    rcases hf : mapFresh s pml4 page with ⟨ok, s₁⟩
    rw [mapPages] at h
    simp only [hf] at h
    cases ok with
    | false => cases h
    | true =>
      obtain ⟨s₂, h1, h2⟩ := ih h
      have hat : page + 4096 + BitVec.ofNat 64 (4096 * n) =
          page + BitVec.ofNat 64 (4096 * (n + 1)) := by
        rw [BitVec.add_assoc, Nat.mul_succ, Nat.add_comm, BitVec.ofNat_add]
        rfl
      refine ⟨s₂, ?_, by rwa [hat] at h2⟩
      rw [mapPages]
      simp only [hf, if_true]
      exact h1

/-- The zeros for `argc` and `argv` end up in the frame behind the last page of the stack,
which is no part of the address space. -/
theorem Shows.mapStack (h : Shows s pml4 m) (hmap : mapStack s pml4 = (true, s')) :
    Shows s' pml4 (overlaid m stackBase ELF_USER_STACK_SIZE fun _ => 0) := by
  rcases hm : Elf.mapPages pml4 (ELF_USER_STACK_SIZE / 4096) stackBase s with ⟨ok, s₁⟩
  simp only [Elf.mapStack, hm] at hmap
  split at hmap
  swap
  · rename_i hok
    cases hmap
    exact absurd rfl hok
  rename_i hok
  obtain rfl : ok = true := hok
  cases hmap
  -- the last two of the five pages
  obtain ⟨s₂, hm₂, hlast⟩ := mapPages_last (n := 4) hm
  obtain ⟨s₃, hm₃, hprev⟩ := mapPages_last hm₂
  have h₃ := h.mapPages (by decide) (by decide) hm₃
  have h₂ := h.mapPages (by decide) (by decide) hm₂
  obtain ⟨pt, hpt⟩ : ∃ pt, reach tableOf s₂.mem 0 pml4
      (tablePath (stackBase + BitVec.ofNat 64 (4096 * 4))) = some pt := by
    obtain ⟨F, ho, -⟩ := h₃
    obtain ⟨a, pmm, halloc, ha, hcall⟩ := mapFresh_ok ho.wellFormed hprev
    rw [show tablePath (stackBase + BitVec.ofNat 64 (4096 * 4)) =
      tablePath (stackBase + BitVec.ofNat 64 (4096 * 3)) by decide]
    exact pagingMapPageOn_table (ho.wellFormed.cleared halloc ha).1 hcall
  obtain ⟨F, a, ho, hpage, hbytes, hbehind⟩ := h₂.mapFresh_frame (by decide) hlast
  obtain ⟨hnotable, hnopage⟩ := hbehind pt hpt
  rw [show overlaid (overlaid m stackBase (4096 * 4) fun _ => 0)
    (stackBase + BitVec.ofNat 64 (4096 * 4)) 4096 (fun _ => 0) =
    overlaid m stackBase ELF_USER_STACK_SIZE fun _ => 0 from
    overlaid_append m stackBase (by decide) fun _ => 0] at hbytes
  -- where the zeros go
  have hal := ho.aligned _ a hpage
  have htop : F (pageNo (stackTop - 16)) = some a := by
    rw [show pageNo (stackTop - 16) = pageNo (stackBase + BitVec.ofNat 64 (4096 * 4)) by decide,
      hpage]
  have hto : (pagingGetPhysOn s₁.mem pml4 (stackTop - 16) + ((stackTop - 16) &&& 0xFFF)).toNat =
      a.toNat + 0x1FE0 := by
    have hlt := hal.lt
    rw [BitVec.toNat_add, ho.phys_toNat htop,
      show ((stackTop - 16) &&& 0xFFF).toNat = 0xFF0 by decide,
      show (stackTop - 16).toNat % 4096 = 0xFF0 by decide]
    omega
  have hkept : ∀ t, t ≠ a + 4096 → writeArgs pml4 s₁.mem t = s₁.mem t := by
    intro t ht
    have hmul := hal.mod
    refine storeBytes_table_ne _ (by omega) fun he => ht (he.trans ?_)
    apply BitVec.eq_of_toNat_eq
    have hlt := hal.lt
    rw [frameOf_toNat, hto, BitVec.toNat_add, show (4096 : Word).toNat = 4096 from rfl]
    omega
  have ho' : Owned { s₁ with mem := writeArgs pml4 s₁.mem } pml4 F :=
    ho.of_data fun q t ht => hkept t fun he => hnotable q (he ▸ ht)
  refine ⟨F, ho', fun v b hv => ?_⟩
  obtain ⟨⟨a', ha'⟩, hv'⟩ := hbytes v b hv
  exact ⟨⟨a', ha'⟩, (ho.byteAt_eq ha' (hkept a' fun he => hnopage _ (he ▸ ha')) ho' ha').trans hv'⟩

-- ---------------------------------------------------------------------------
-- Clearing
-- ---------------------------------------------------------------------------

theorem Shows.zeroTail (h : Shows s pml4 m) (hn : n ≤ 2 ^ 48)
    (hzero : ∀ v, ahead w v < n → m v = some 0) :
    Shows { s with mem := zeroTail pml4 n w s.mem } pml4 m := by
  induction n generalizing s w with
  | zero => exact h
  | succ n ih =>
    have hat : ahead w w = 0 := by
      rw [ahead_eq]
      have := w.isLt
      omega
    have hw := hzero w (by omega)
    have hstore := h.store hw (n := 1) (by have := Nat.mod_lt w.toNat (y := 4096); omega) fun _ => 0
    rw [overlaid_self fun v hv => hzero v (by omega)] at hstore
    have hone : storeBytes s.mem (pagingGetPhysOn s.mem pml4 w) (fun _ => 0) 1 =
        storeByte s.mem (pagingGetPhysOn s.mem pml4 w) 0 := by
      rw [storeBytes, storeBytes]
      exact congrArg (fun p => storeByte s.mem p 0) (BitVec.add_zero _)
    rw [hone] at hstore
    have := ih hstore (by omega) (w := w + 1) fun v hv =>
      hzero v (by have := (ahead_add_lt (w := w) (k := 1) (by omega)).mp hv; omega)
    rwa [Elf.zeroTail, if_pos (h.phys_ne_zero hw)]

end EponaOS.Kernel.Elf
