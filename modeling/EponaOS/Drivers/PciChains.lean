import EponaOS.Drivers.Pci
import EponaOS.Lib.Earliest
import Mathlib.Data.List.Count
import Mathlib.Data.List.Induction
import Mathlib.Data.List.Lex
import Mathlib.Data.List.Nodup

/-!
# What the enumeration covers

The driver takes the bus behind a bridge from register 0x44, the standard has it in 0x18. A
function is met once for each chain of bridges that leads to it by the register the driver
reads, and the first 256 chains are recorded.
-/

namespace EponaOS.Drivers

section

variable (cfg : PciConfig)

structure Bdf.Present (f : Bdf) : Prop where
  dev : f.dev < 32
  func : f.func < 8
  device : (Bdf.mk f.bus f.dev 0).Answers cfg
  answers : f.func = 0 ∨ multiFunction cfg f.bus f.dev ∧ f.Answers cfg

def Bdf.secondaryBus (f : Bdf) : BitVec 8 :=
  (pciReadConfig cfg f.bus f.dev f.func 0x18).extractLsb' 8 8

inductive Reachable : BitVec 8 → Prop
  | zero : Reachable 0
  | behind {f : Bdf} : Reachable f.bus → f.Present cfg → f.IsBridge cfg →
    Reachable (f.secondaryBus cfg)

def PciDevice.bdf (d : PciDevice) : Bdf := ⟨d.bus, d.device, d.func⟩

def RecordsOnce : Prop :=
  ∃ s, pciEnumerate cfg (MAX_DEVICES + 1) = some s ∧
    ∀ f : Bdf, Reachable cfg f.bus → f.Present cfg → (s.devices.map PciDevice.bdf).count f = 1

/-- Functions of which each is a bridge that the driver follows to the bus of the next one. -/
def ChainFrom : BitVec 8 → List Bdf → Prop
  | _, [] => False
  | bus, f :: c =>
    f.bus = bus ∧ f.Present cfg ∧ (c = [] ∨ ∃ b, f.next cfg = some b ∧ ChainFrom b c)

def Chain (c : List Bdf) : Prop := ∃ b ∈ startBuses cfg, ChainFrom cfg b c

def Bdf.number (f : Bdf) : Nat := f.bus.toNat * 65536 + f.dev.toNat * 256 + f.func.toNat

def Bdf.Before (f g : Bdf) : Prop := f.number < g.number

/-- A chain comes before those that go on from it, and before those that branch off to a
higher function. -/
def ChainBefore : List Bdf → List Bdf → Prop := List.Lex Bdf.Before

/-- Fewer than 256 chains come before it. -/
def Early (c : List Bdf) : Prop := FewBelow ChainBefore (Chain cfg) MAX_DEVICES c

-- ---------------------------------------------------------------------------
-- The chains in their order
-- ---------------------------------------------------------------------------

def chains : Nat → BitVec 8 → List (List Bdf)
  | 0, _ => []
  | depth + 1, bus =>
    (busFunctions cfg bus).flatMap fun f =>
      [f] :: ((f.next cfg).map fun b => (chains depth b).map (f :: ·)).getD []

def fullChains (depth : Nat) : List (List Bdf) := (startBuses cfg).flatMap (chains cfg depth)

end

variable {cfg : PciConfig} {bus : BitVec 8} {f g : Bdf} {c c' : List Bdf}

theorem mem_deviceFunctions (dev : BitVec 8) :
    f ∈ deviceFunctions cfg bus dev ↔
      f.bus = bus ∧ f.dev = dev ∧ f.func < 8 ∧ (Bdf.mk bus dev 0).Answers cfg ∧
        (f.func = 0 ∨ multiFunction cfg bus dev ∧ f.Answers cfg) := by
  obtain ⟨b, d, n⟩ := f
  rw [deviceFunctions]
  have hfunc : n < 8 ∧ n ≠ 0 ↔ ∃ k ∈ List.range' 1 7, BitVec.ofNat 8 k = n := by
    revert n
    decide
  have hfirst : (0 : BitVec 8) < 8 := by decide
  by_cases hans : (Bdf.mk bus dev 0).Answers cfg
  · rw [if_pos hans, List.mem_cons, Bdf.mk.injEq]
    by_cases hmulti : multiFunction cfg bus dev
    · rw [if_pos hmulti, List.mem_filter, List.mem_map, decide_eq_true_eq]
      constructor
      · rintro (⟨rfl, rfl, rfl⟩ | ⟨⟨k, hk, heq⟩, hself⟩)
        · exact ⟨rfl, rfl, hfirst, hans, .inl rfl⟩
        · cases heq
          exact ⟨rfl, rfl, (hfunc.mpr ⟨k, hk, rfl⟩).1, hans, .inr ⟨hmulti, hself⟩⟩
      · rintro ⟨rfl, rfl, hlt, -, hself⟩
        by_cases hzero : n = 0
        · exact .inl ⟨rfl, rfl, hzero⟩
        · obtain ⟨k, hk, rfl⟩ := hfunc.mp ⟨hlt, hzero⟩
          exact .inr ⟨⟨k, hk, rfl⟩, (hself.resolve_left hzero).2⟩
    · rw [if_neg hmulti]
      constructor
      · rintro (⟨rfl, rfl, rfl⟩ | h)
        · exact ⟨rfl, rfl, hfirst, hans, .inl rfl⟩
        · cases h
      · rintro ⟨rfl, rfl, -, -, hzero | h⟩
        · exact .inl ⟨rfl, rfl, hzero⟩
        · exact absurd h.1 hmulti
  · rw [if_neg hans]
    constructor
    · intro h
      cases h
    · rintro ⟨rfl, rfl, -, h, -⟩
      exact absurd h hans

theorem mem_busFunctions : f ∈ busFunctions cfg bus ↔ f.bus = bus ∧ f.Present cfg := by
  have hdev (d : BitVec 8) : d < 32 ↔ ∃ k ∈ List.range 32, BitVec.ofNat 8 k = d := by
    revert d
    decide
  rw [busFunctions, List.mem_flatMap]
  constructor
  · rintro ⟨k, hk, hf⟩
    obtain ⟨rfl, hfdev, hlt, hans, hself⟩ := (mem_deviceFunctions _).mp hf
    rw [← hfdev] at hans hself
    exact ⟨rfl, (hdev f.dev).mpr ⟨k, hk, hfdev.symm⟩, hlt, hans, hself⟩
  · rintro ⟨rfl, hpresent⟩
    obtain ⟨k, hk, hfdev⟩ := (hdev f.dev).mp hpresent.dev
    refine ⟨k, hk, (mem_deviceFunctions _).mpr ⟨rfl, hfdev.symm, hpresent.func, ?_⟩⟩
    rw [hfdev]
    exact ⟨hpresent.device, hpresent.answers⟩

theorem ChainFrom.ne_nil (h : ChainFrom cfg bus c) : c ≠ [] := by
  rintro rfl
  exact h

theorem mem_chains (depth : Nat) (bus : BitVec 8) (c : List Bdf) :
    c ∈ chains cfg depth bus ↔ ChainFrom cfg bus c ∧ c.length ≤ depth := by
  induction depth generalizing bus c with
  | zero =>
    constructor
    · intro h
      cases h
    · rintro ⟨h, hlen⟩
      exact absurd (List.eq_nil_of_length_eq_zero (Nat.le_zero.mp hlen)) h.ne_nil
  | succ depth ih =>
    rw [chains, List.mem_flatMap]
    constructor
    · rintro ⟨f, hf, hc⟩
      obtain ⟨hbus, hpresent⟩ := mem_busFunctions.mp hf
      rcases List.mem_cons.mp hc with rfl | hc
      · exact ⟨⟨hbus, hpresent, .inl rfl⟩, Nat.succ_le_succ (Nat.zero_le _)⟩
      · cases hnext : f.next cfg with
        | none =>
          rw [hnext] at hc
          cases hc
        | some b =>
          rw [hnext, Option.map_some, Option.getD_some] at hc
          obtain ⟨rest, hrest, rfl⟩ := List.mem_map.mp hc
          obtain ⟨hchain, hlen⟩ := (ih b rest).mp hrest
          exact ⟨⟨hbus, hpresent, .inr ⟨b, hnext, hchain⟩⟩, Nat.succ_le_succ hlen⟩
    · rintro ⟨h, hlen⟩
      cases c with
      | nil => cases h
      | cons f rest =>
        obtain ⟨hbus, hpresent, hrest⟩ := h
        refine ⟨f, mem_busFunctions.mpr ⟨hbus, hpresent⟩, ?_⟩
        rcases hrest with rfl | ⟨b, hnext, hchain⟩
        · exact List.mem_cons_self
        · rw [hnext, Option.map_some, Option.getD_some]
          refine List.mem_cons_of_mem _ (List.mem_map_of_mem ?_)
          exact (ih b rest).mpr ⟨hchain, Nat.le_of_succ_le_succ hlen⟩

theorem chains_ends (depth : Nat) (bus : BitVec 8) :
    (chains cfg depth bus).map List.getLast? = (walk cfg depth bus).map some := by
  induction depth generalizing bus with
  | zero => rfl
  | succ depth ih =>
    rw [chains, walk, List.map_flatMap, List.map_flatMap]
    congr 1
    funext f
    rw [List.map_cons, List.map_cons]
    cases hnext : f.next cfg with
    | none => rfl
    | some b =>
      rw [Option.map_some, Option.map_some, Option.getD_some, Option.getD_some, ← ih,
        List.map_map]
      congr 1
      apply List.map_congr_left
      intro c hc
      have hne := ((mem_chains depth b c).mp hc).1.ne_nil
      exact List.getLast?_cons_of_ne_nil hne

-- ---------------------------------------------------------------------------
-- The order
-- ---------------------------------------------------------------------------

theorem ChainBefore.asymm (h : ChainBefore c c') : ¬ ChainBefore c' c :=
  List.lex_asymm (fun hlt => Nat.lt_asymm hlt) h

theorem ChainBefore.trans (h : ChainBefore c c') (h' : ChainBefore c' c'') : ChainBefore c c'' :=
  List.lex_trans (fun hxy hyz => Nat.lt_trans hxy hyz) h h'

theorem before_of_func (hbus : f.bus = g.bus) (hdev : f.dev = g.dev) (h : f.func < g.func) :
    f.Before g := by
  rw [Bdf.Before, Bdf.number, Bdf.number, hbus, hdev]
  exact Nat.add_lt_add_left h _

theorem before_of_dev (hbus : f.bus = g.bus) (h : f.dev.toNat < g.dev.toNat) : f.Before g := by
  have hf := f.func.isLt
  rw [Bdf.Before, Bdf.number, Bdf.number, hbus]
  omega

theorem before_of_bus (h : f.bus.toNat < g.bus.toNat) : f.Before g := by
  have hdev := f.dev.isLt
  have hfunc := f.func.isLt
  rw [Bdf.Before, Bdf.number, Bdf.number]
  omega

theorem deviceFunctions_sorted (dev : BitVec 8) :
    (deviceFunctions cfg bus dev).Pairwise Bdf.Before := by
  have hfuncs : ((List.range' 1 7).map fun func => Bdf.mk bus dev (BitVec.ofNat 8 func)).Pairwise
      Bdf.Before := by
    rw [List.pairwise_map]
    refine List.Pairwise.imp_of_mem (fun {i j} _ hj hij => ?_) List.pairwise_lt_range'
    have hj7 : j < 8 := (List.mem_range'_1.mp hj).2
    refine before_of_func rfl rfl ?_
    rw [BitVec.lt_def, BitVec.toNat_ofNat, BitVec.toNat_ofNat]
    omega
  rw [deviceFunctions]
  split
  · refine List.pairwise_cons.mpr ⟨fun g hg => ?_, ?_⟩
    · split at hg
      · obtain ⟨k, hk, rfl⟩ := List.mem_map.mp (List.mem_of_mem_filter hg)
        have hk1 := List.mem_range'_1.mp hk
        refine before_of_func rfl rfl ?_
        rw [BitVec.lt_def, BitVec.toNat_ofNat]
        change 0 < _
        omega
      · cases hg
    · split
      · exact hfuncs.filter _
      · exact .nil
  · exact .nil

theorem busFunctions_sorted : (busFunctions cfg bus).Pairwise Bdf.Before := by
  rw [busFunctions, List.pairwise_flatMap]
  refine ⟨fun dev _ => deviceFunctions_sorted _, ?_⟩
  refine List.Pairwise.imp_of_mem (fun {i j} _ hj hij f hf g hg => ?_) List.pairwise_lt_range
  have hj32 := List.mem_range.mp hj
  obtain ⟨hfbus, hfdev, -⟩ := (mem_deviceFunctions _).mp hf
  obtain ⟨hgbus, hgdev, -⟩ := (mem_deviceFunctions _).mp hg
  refine before_of_dev (hfbus.trans hgbus.symm) ?_
  rw [hfdev, hgdev, BitVec.toNat_ofNat, BitVec.toNat_ofNat]
  omega

theorem chains_sorted (depth : Nat) (bus : BitVec 8) :
    (chains cfg depth bus).Pairwise ChainBefore := by
  induction depth generalizing bus with
  | zero => exact .nil
  | succ depth ih =>
    rw [chains, List.pairwise_flatMap]
    -- all chains of a block begin with its function
    have hhead (f : Bdf) (c : List Bdf) (hc : c ∈ [f] ::
        ((f.next cfg).map fun b => (chains cfg depth b).map (f :: ·)).getD []) :
        ∃ rest, c = f :: rest := by
      rcases List.mem_cons.mp hc with rfl | hc
      · exact ⟨[], rfl⟩
      · cases hnext : f.next cfg with
        | none =>
          rw [hnext] at hc
          cases hc
        | some b =>
          rw [hnext, Option.map_some, Option.getD_some] at hc
          obtain ⟨rest, -, rfl⟩ := List.mem_map.mp hc
          exact ⟨rest, rfl⟩
    constructor
    · intro f _
      cases hnext : f.next cfg with
      | none => exact List.pairwise_singleton ..
      | some b =>
        rw [Option.map_some, Option.getD_some, List.pairwise_cons, List.pairwise_map]
        constructor
        · intro c hc
          obtain ⟨rest, hrest, rfl⟩ := List.mem_map.mp hc
          have hne := ((mem_chains depth b rest).mp hrest).1.ne_nil
          obtain ⟨g, rest, rfl⟩ := List.exists_cons_of_ne_nil hne
          exact .cons .nil
        · exact (ih b).imp .cons
    · refine busFunctions_sorted.imp fun {f g} hfg c hc c' hc' => ?_
      obtain ⟨rest, rfl⟩ := hhead f c hc
      obtain ⟨rest', rfl⟩ := hhead g c' hc'
      exact .rel hfg

theorem startBuses_sorted : (startBuses cfg).Pairwise fun b b' => b.toNat < b'.toNat := by
  rw [startBuses]
  split
  · refine List.Pairwise.filter _ ?_
    decide
  · exact List.pairwise_singleton ..

theorem ChainFrom.head (h : ChainFrom cfg bus c) : ∃ f rest, c = f :: rest ∧ f.bus = bus := by
  cases c with
  | nil => cases h
  | cons f rest => exact ⟨f, rest, rfl, h.1⟩

theorem mem_fullChains (depth : Nat) :
    c ∈ fullChains cfg depth ↔ Chain cfg c ∧ c.length ≤ depth := by
  rw [fullChains, List.mem_flatMap]
  constructor
  · rintro ⟨b, hb, hc⟩
    obtain ⟨hchain, hlen⟩ := (mem_chains depth b c).mp hc
    exact ⟨⟨b, hb, hchain⟩, hlen⟩
  · rintro ⟨⟨b, hb, hchain⟩, hlen⟩
    exact ⟨b, hb, (mem_chains depth b c).mpr ⟨hchain, hlen⟩⟩

theorem fullChains_sorted (cfg : PciConfig) (depth : Nat) :
    (fullChains cfg depth).Pairwise ChainBefore := by
  rw [fullChains, List.pairwise_flatMap]
  refine ⟨fun b _ => chains_sorted depth b, startBuses_sorted.imp fun {b b'} hlt c hc c' hc' => ?_⟩
  obtain ⟨f, rest, rfl, hf⟩ := ((mem_chains depth b c).mp hc).1.head
  obtain ⟨g, rest', rfl, hg⟩ := ((mem_chains depth b' c').mp hc').1.head
  exact .rel (before_of_bus (by rw [hf, hg]; exact hlt))

-- ---------------------------------------------------------------------------
-- The first chains
-- ---------------------------------------------------------------------------

theorem ChainFrom.take (h : ChainFrom cfg bus c) (k : Nat) :
    ChainFrom cfg bus (c.take (k + 1)) := by
  induction c generalizing bus k with
  | nil => exact h
  | cons f c ih =>
    obtain ⟨hbus, hpresent, hrest⟩ := h
    refine ⟨hbus, hpresent, ?_⟩
    cases k with
    | zero => exact .inl rfl
    | succ k =>
      rcases hrest with rfl | ⟨b, hnext, hchain⟩
      · exact .inl rfl
      · exact .inr ⟨b, hnext, ih hchain k⟩

theorem take_before {k : Nat} (h : k < c.length) : ChainBefore (c.take k) c := by
  have hne : c.drop k ≠ [] := by
    intro hnil
    exact absurd (List.drop_eq_nil_iff.mp hnil) (Nat.not_le.mpr h)
  obtain ⟨f, rest, hdrop⟩ := List.exists_cons_of_ne_nil hne
  have happ := List.Lex.append_left Bdf.Before (.nil (a := f) (l := rest)) (c.take k)
  rwa [List.append_nil, ← hdrop, List.take_append_drop] at happ

theorem many_before (h : Chain cfg c) (hlong : MAX_DEVICES < c.length) :
    ∃ P : List (List Bdf), P.Nodup ∧ P.length = MAX_DEVICES ∧
      ∀ p ∈ P, Chain cfg p ∧ p.length ≤ MAX_DEVICES ∧ ChainBefore p c := by
  obtain ⟨b, hb, hchain⟩ := h
  refine ⟨(List.range MAX_DEVICES).map fun i => c.take (i + 1), ?_, ?_, ?_⟩
  · rw [List.nodup_iff_pairwise_ne, List.pairwise_map]
    refine List.Pairwise.imp_of_mem (fun {i j} hi hj hij heq => ?_) List.pairwise_lt_range
    have hlen := congrArg List.length heq
    have hi' := List.mem_range.mp hi
    have hj' := List.mem_range.mp hj
    rw [List.length_take, List.length_take] at hlen
    omega
  · rw [List.length_map, List.length_range]
  · intro p hp
    obtain ⟨i, hi, rfl⟩ := List.mem_map.mp hp
    have hi' := List.mem_range.mp hi
    refine ⟨⟨b, hb, hchain.take i⟩, ?_, take_before (by omega)⟩
    rw [List.length_take]
    omega

theorem mem_firstChains :
    c ∈ (fullChains cfg (MAX_DEVICES + 1)).take MAX_DEVICES ↔ Chain cfg c ∧ Early cfg c := by
  rw [mem_take_iff_fewBelow (fun _ _ => ChainBefore.asymm) (fullChains_sorted cfg _), mem_fullChains]
  constructor
  · rintro ⟨⟨hc, -⟩, hfew⟩
    refine ⟨hc, fun M hnodup hM => ?_⟩
    by_cases hshort : ∀ m ∈ M, m.length ≤ MAX_DEVICES
    · refine hfew M hnodup fun m hm => ?_
      obtain ⟨hchain, hbefore⟩ := hM m hm
      exact ⟨(mem_fullChains _).mpr ⟨hchain, Nat.le_succ_of_le (hshort m hm)⟩, hbefore⟩
    · simp only [not_forall, Nat.not_le] at hshort
      obtain ⟨m, hm, hlong⟩ := hshort
      obtain ⟨hchain, hbefore⟩ := hM m hm
      obtain ⟨P, hP, hlen, hall⟩ := many_before hchain hlong
      have hless := hfew P hP fun p hp => by
        obtain ⟨hpchain, hplen, hpm⟩ := hall p hp
        exact ⟨(mem_fullChains _).mpr ⟨hpchain, Nat.le_succ_of_le hplen⟩, hpm.trans hbefore⟩
      exact absurd hlen (Nat.ne_of_lt hless)
  · rintro ⟨hc, hearly⟩
    refine ⟨⟨hc, ?_⟩, fun M hnodup hM => hearly M hnodup fun m hm => ?_⟩
    · by_contra hlong
      obtain ⟨P, hP, hlen, hall⟩ := many_before hc (by omega)
      have hless := hearly P hP fun p hp => ⟨(hall p hp).1, (hall p hp).2.2⟩
      exact absurd hlen (Nat.ne_of_lt hless)
    · obtain ⟨hmem, hbefore⟩ := hM m hm
      exact ⟨((mem_fullChains _).mp hmem).1, hbefore⟩

theorem fullChains_ends (depth : Nat) :
    (fullChains cfg depth).map List.getLast? = (fullWalk cfg depth).map some := by
  rw [fullChains, fullWalk, List.map_flatMap, List.map_flatMap]
  congr 1
  funext b
  exact chains_ends depth b

theorem recorded_ends (cfg : PciConfig) : ∃ s, pciEnumerate cfg (MAX_DEVICES + 1) = some s ∧
    (s.devices.map PciDevice.bdf).map some =
      ((fullChains cfg (MAX_DEVICES + 1)).take MAX_DEVICES).map List.getLast? := by
  refine ⟨_, pciEnumerate_eq (Nat.lt_succ_self _), ?_⟩
  have hbdf : PciDevice.bdf ∘ Bdf.device cfg = id := rfl
  rw [recordAll_devices (Nat.zero_le _), List.nil_append, List.map_take, List.map_map, hbdf,
    List.map_id, List.map_take, ← fullChains_ends, List.map_take]

theorem countP_eq_one_iff {p : α → Bool} {l : List α} (h : l.Nodup) :
    l.countP p = 1 ↔ ∃! x, x ∈ l ∧ p x := by
  rw [List.countP_eq_length_filter, List.length_eq_one_iff]
  constructor
  · rintro ⟨x, hx⟩
    have hmem (y : α) : y ∈ l ∧ p y ↔ y = x := by
      rw [← List.mem_filter, hx, List.mem_singleton]
    exact ⟨x, (hmem x).mpr rfl, fun y hy => (hmem y).mp hy⟩
  · rintro ⟨x, hx, honly⟩
    refine ⟨x, ?_⟩
    have hmem (y : α) : y ∈ l.filter p ↔ y ∈ [x] := by
      rw [List.mem_filter, List.mem_singleton]
      exact ⟨honly y, fun heq => heq ▸ hx⟩
    exact List.perm_singleton.mp
      ((List.perm_ext_iff_of_nodup (h.filter p) (List.nodup_singleton x)).mpr hmem)

theorem recorded_count (hs : pciEnumerate cfg (MAX_DEVICES + 1) = some s) (f : Bdf) :
    (s.devices.map PciDevice.bdf).count f = 1 ↔
      ∃! c, (Chain cfg c ∧ Early cfg c) ∧ c.getLast? = some f := by
  obtain ⟨s', hs', hends⟩ := recorded_ends cfg
  cases hs.symm.trans hs'
  have hnodup := (nodup_of_sorted (fun _ _ => ChainBefore.asymm)
    (fullChains_sorted cfg (MAX_DEVICES + 1))).take (i := MAX_DEVICES)
  rw [← List.count_map_of_injective _ some (Option.some_injective _), hends, List.count,
    List.countP_map, countP_eq_one_iff hnodup]
  simp only [mem_firstChains, Function.comp_apply, beq_iff_eq]

/-- A reachable function is recorded once where exactly one of the first 256 chains ends in
it. -/
theorem recordsOnce_iff (cfg : PciConfig) :
    RecordsOnce cfg ↔ ∀ f : Bdf, Reachable cfg f.bus → f.Present cfg →
      ∃! c, (Chain cfg c ∧ Early cfg c) ∧ c.getLast? = some f := by
  constructor
  · rintro ⟨s, hs, h⟩ f hf hpresent
    exact (recorded_count hs f).mp (h f hf hpresent)
  · intro h
    obtain ⟨s, hs, -⟩ := recorded_ends cfg
    exact ⟨s, hs, fun f hf hpresent => (recorded_count hs f).mpr (h f hf hpresent)⟩

-- ---------------------------------------------------------------------------
-- Trees of buses
-- ---------------------------------------------------------------------------

def Bdf.Findable (cfg : PciConfig) (f : Bdf) : Prop := Reachable cfg f.bus ∧ f.Present cfg

structure Topology (cfg : PciConfig) : Prop where
  few : ∀ L : List Bdf, L.Nodup → (∀ f ∈ L, f.Findable cfg) → L.length ≤ MAX_DEVICES
  behind : ∀ f : Bdf, f.Findable cfg → f.IsBridge cfg → f.secondaryBus cfg ≠ 0
  apart : ∀ f g : Bdf, f.Findable cfg → g.Findable cfg → f.IsBridge cfg → g.IsBridge cfg →
    f.secondaryBus cfg = g.secondaryBus cfg → f = g

def SameRegister (cfg : PciConfig) : Prop :=
  ∀ f : Bdf, f.Findable cfg → f.IsBridge cfg →
    (pciReadConfig cfg f.bus f.dev f.func 0x44).extractLsb' 8 8 = f.secondaryBus cfg

theorem next_some (h : f.next cfg = some bus) :
    f.IsBridge cfg ∧ (pciReadConfig cfg f.bus f.dev f.func 0x44).extractLsb' 8 8 = bus := by
  rw [Bdf.next] at h
  split at h
  · rename_i hbridge
    exact ⟨hbridge.1, Option.some.inj h⟩
  · cases h

theorem ChainFrom.concat (h : ChainFrom cfg bus c) (hend : c.getLast? = some g)
    (hnext : g.next cfg = some f.bus) (hpresent : f.Present cfg) :
    ChainFrom cfg bus (c ++ [f]) := by
  induction c generalizing bus with
  | nil => cases h
  | cons e c ih =>
    obtain ⟨hbus, he, hrest⟩ := h
    refine ⟨hbus, he, .inr ?_⟩
    rcases hrest with rfl | ⟨b, hb, hchain⟩
    · cases hend
      exact ⟨f.bus, hnext, rfl, hpresent, .inl rfl⟩
    · rw [List.getLast?_cons_of_ne_nil hchain.ne_nil] at hend
      exact ⟨b, hb, ih hchain hend⟩

theorem ChainFrom.of_concat (h : ChainFrom cfg bus (c ++ [f])) :
    f.Present cfg ∧ (c = [] ∧ f.bus = bus ∨
      ChainFrom cfg bus c ∧ ∃ g, c.getLast? = some g ∧ g.next cfg = some f.bus) := by
  induction c generalizing bus with
  | nil => exact ⟨h.2.1, .inl ⟨rfl, h.1⟩⟩
  | cons e c ih =>
    obtain ⟨hbus, he, hrest⟩ := h
    rcases hrest with hnil | ⟨b, hb, hchain⟩
    · exact absurd hnil (by simp)
    · obtain ⟨hpresent, hc⟩ := ih hchain
      refine ⟨hpresent, .inr ?_⟩
      rcases hc with ⟨rfl, hf⟩ | ⟨hc, g, hg, hnext⟩
      · exact ⟨⟨hbus, he, .inl rfl⟩, e, rfl, hf ▸ hb⟩
      · refine ⟨⟨hbus, he, .inr ⟨b, hb, hc⟩⟩, g, ?_, hnext⟩
        rw [List.getLast?_cons_of_ne_nil hc.ne_nil, hg]

theorem Topology.secondaryBus_ne (hcfg : Topology cfg) (hf : f.Findable cfg)
    (hbridge : f.IsBridge cfg) : f.secondaryBus cfg ≠ f.bus := by
  obtain ⟨hreach, hpresent⟩ := hf
  generalize hb : f.bus = b at hreach
  induction hreach generalizing f with
  | zero => exact hb ▸ hcfg.behind f ⟨hb ▸ .zero, hpresent⟩ hbridge
  | @behind g hg hgpresent hgbridge ih =>
    intro hown
    have hfound : f.Findable cfg := ⟨hb ▸ .behind hg hgpresent hgbridge, hpresent⟩
    obtain rfl := hcfg.apart f g hfound ⟨hg, hgpresent⟩ hbridge hgbridge hown
    exact ih hgbridge hgpresent rfl hb.symm

section

variable (hcfg : Topology cfg) (hsame : SameRegister cfg)

include hsame

theorem findable_of_chain (h : ChainFrom cfg 0 c) (hend : c.getLast? = some f) :
    f.Findable cfg := by
  induction c using List.reverseRecOn generalizing f with
  | nil => cases hend
  | append_singleton c e ih =>
    rw [List.getLast?_concat] at hend
    cases hend
    obtain ⟨hpresent, ⟨-, hbus⟩ | ⟨hc, g, hg, hnext⟩⟩ := h.of_concat
    · exact ⟨hbus ▸ .zero, hpresent⟩
    · obtain ⟨hreach, hgpresent⟩ := ih hc hg
      obtain ⟨hbridge, hreg⟩ := next_some hnext
      rw [hsame g ⟨hreach, hgpresent⟩ hbridge] at hreg
      exact ⟨hreg ▸ .behind hreach hgpresent hbridge, hpresent⟩

include hcfg

theorem chain_exists (hf : f.Findable cfg) : ∃ c, ChainFrom cfg 0 c ∧ c.getLast? = some f := by
  obtain ⟨hreach, hpresent⟩ := hf
  generalize hb : f.bus = b at hreach
  induction hreach generalizing f with
  | zero => exact ⟨[f], ⟨hb, hpresent, .inl rfl⟩, rfl⟩
  | @behind g hg hgpresent hgbridge ih =>
    obtain ⟨c, hc, hend⟩ := ih hgpresent rfl
    have hfound : g.Findable cfg := ⟨hg, hgpresent⟩
    have hown := hcfg.secondaryBus_ne hfound hgbridge
    have hnext : g.next cfg = some f.bus := by
      rw [Bdf.next, hsame g hfound hgbridge, hb]
      exact if_pos ⟨hgbridge, hown⟩
    exact ⟨c ++ [f], hc.concat hend hnext hpresent, List.getLast?_concat⟩

theorem bridge_before (h : ChainFrom cfg 0 c) (hend : c.getLast? = some g)
    (hnext : g.next cfg = some bus) :
    g.Findable cfg ∧ g.IsBridge cfg ∧ g.secondaryBus cfg = bus ∧ bus ≠ 0 := by
  have hfound := findable_of_chain hsame h hend
  obtain ⟨hbridge, hreg⟩ := next_some hnext
  rw [hsame g hfound hbridge] at hreg
  exact ⟨hfound, hbridge, hreg, hreg ▸ hcfg.behind g hfound hbridge⟩

theorem chain_unique (h : ChainFrom cfg 0 c) (h' : ChainFrom cfg 0 c')
    (hend : c.getLast? = c'.getLast?) : c = c' := by
  induction c using List.reverseRecOn generalizing c' with
  | nil => cases h
  | append_singleton c f ih =>
    rcases List.eq_nil_or_concat' c' with rfl | ⟨c', f', rfl⟩
    · cases h'
    rw [List.getLast?_concat, List.getLast?_concat] at hend
    cases hend
    congr 1
    obtain ⟨-, ⟨rfl, hbus⟩ | ⟨hc, g, hg, hnext⟩⟩ := h.of_concat
    · obtain ⟨-, ⟨rfl, -⟩ | ⟨hc', g', hg', hnext'⟩⟩ := h'.of_concat
      · rfl
      · exact absurd hbus (bridge_before hcfg hsame hc' hg' hnext').2.2.2
    · obtain ⟨hfound, hbridge, hsec, hne⟩ := bridge_before hcfg hsame hc hg hnext
      obtain ⟨-, ⟨-, hbus⟩ | ⟨hc', g', hg', hnext'⟩⟩ := h'.of_concat
      · exact absurd hbus hne
      · obtain ⟨hfound', hbridge', hsec', -⟩ := bridge_before hcfg hsame hc' hg' hnext'
        obtain rfl := hcfg.apart g g' hfound hfound' hbridge hbridge' (hsec.trans hsec'.symm)
        exact ih hc hc' (hg.trans hg'.symm)

theorem early_of_topology (hstart : ¬ multiFunction cfg 0 0) (h : ChainFrom cfg 0 c) :
    Early cfg c := by
  intro M hnodup hM
  have hfrom (m : List Bdf) (hm : Chain cfg m) : ChainFrom cfg 0 m := by
    obtain ⟨b, hb, hchain⟩ := hm
    rw [startBuses, if_neg hstart, List.mem_singleton] at hb
    exact hb ▸ hchain
  have hself : c ∉ M := fun hc => ((hM c hc).2.asymm (hM c hc).2)
  have hall (m : List Bdf) (hm : m ∈ c :: M) : ChainFrom cfg 0 m := by
    rcases List.mem_cons.mp hm with rfl | hm
    · exact h
    · exact hfrom m (hM m hm).1
  -- the functions that the chains end in are different ones
  let ends (m : List Bdf) : Bdf := m.getLast?.getD ⟨0, 0, 0⟩
  have hends (m : List Bdf) (hm : m ∈ c :: M) : m.getLast? = some (ends m) := by
    have hlast := List.getLast?_eq_some_getLast (hall m hm).ne_nil
    change m.getLast? = some (m.getLast?.getD _)
    rw [hlast, Option.getD_some]
  have hdistinct : ((c :: M).map ends).Nodup := by
    rw [List.nodup_iff_pairwise_ne, List.pairwise_map]
    have hne := List.nodup_iff_pairwise_ne.mp (List.nodup_cons.mpr ⟨hself, hnodup⟩)
    refine hne.imp_of_mem fun {m m'} hm hm' hne heq => hne ?_
    refine chain_unique hcfg hsame (hall m hm) (hall m' hm') ?_
    rw [hends m hm, hends m' hm', heq]
  have hfew := hcfg.few _ hdistinct fun f hf => by
    obtain ⟨m, hm, rfl⟩ := List.mem_map.mp hf
    exact findable_of_chain hsame (hall m hm) (hends m hm)
  rw [List.length_map, List.length_cons] at hfew
  exact hfew

/-- With the right register, and function 0 of the host bridge its only one, every tree is
recorded. -/
theorem recordsOnce_of_topology (hstart : ¬ multiFunction cfg 0 0) : RecordsOnce cfg := by
  have hstarts : startBuses cfg = [0] := if_neg hstart
  have hfrom (c : List Bdf) : Chain cfg c ↔ ChainFrom cfg 0 c := by
    rw [Chain, hstarts]
    simp only [List.mem_singleton, exists_eq_left]
  obtain ⟨s, hs, -⟩ := recorded_ends cfg
  refine ⟨s, hs, fun f hreach hpresent => ?_⟩
  obtain ⟨c, hc, hend⟩ := chain_exists hcfg hsame ⟨hreach, hpresent⟩
  rw [recorded_count hs]
  refine ⟨c, ⟨⟨(hfrom c).mpr hc, early_of_topology hcfg hsame hstart hc⟩, hend⟩, ?_⟩
  rintro c' ⟨⟨hc', -⟩, hend'⟩
  exact chain_unique hcfg hsame ((hfrom c').mp hc') hc (hend'.trans hend.symm)

end

-- ---------------------------------------------------------------------------
-- A bridge that is not followed
-- ---------------------------------------------------------------------------

/-- A host bridge, a bridge to bus 1 with nothing in register 0x44, and a device on bus 1. -/
def lostBus : PciConfig := fun bus dev func offset =>
  if func ≠ 0 then 0xFFFFFFFF
  else if bus = 0 ∧ dev = 0 then
    if offset = 0x00 then 0x12378086 else if offset = 0x08 then 0x06000002 else 0
  else if bus = 0 ∧ dev = 1 then
    if offset = 0x00 then 0x00011B36
    else if offset = 0x08 then 0x06040000
    else if offset = 0x0C then 0x00010000
    else if offset = 0x18 then 0x00010100
    else 0
  else if bus = 1 ∧ dev = 0 then
    if offset = 0x00 then 0x813910EC else if offset = 0x08 then 0x02000020 else 0
  else 0xFFFFFFFF

theorem not_answers (h : cfg f.bus f.dev f.func 0 = 0xFFFFFFFF) : ¬ f.Answers cfg := by
  intro hans
  refine hans (.inr ?_)
  change (cfg f.bus f.dev f.func 0).extractLsb' 0 16 = PCI_VENDOR_NONE
  rw [h]
  rfl

theorem lostBus_present (h : f.Present lostBus) : f ∈ [⟨0, 0, 0⟩, ⟨0, 1, 0⟩, ⟨1, 0, 0⟩] := by
  obtain ⟨b, d, n⟩ := f
  have hzero : n = 0 := by
    by_contra hne
    rcases h.answers with h0 | ⟨-, hans⟩
    · exact hne h0
    · exact not_answers (if_pos hne) hans
  subst hzero
  have hsome : b = 0 ∧ d = 0 ∨ b = 0 ∧ d = 1 ∨ b = 1 ∧ d = 0 := by
    by_contra hnone
    simp only [not_or] at hnone
    refine not_answers ?_ h.device
    change lostBus b d 0 0 = _
    rw [lostBus, if_neg (not_not.mpr rfl), if_neg hnone.1, if_neg hnone.2.1, if_neg hnone.2.2]
  rcases hsome with ⟨rfl, rfl⟩ | ⟨rfl, rfl⟩ | ⟨rfl, rfl⟩
  · exact List.mem_cons_self
  · exact List.mem_cons_of_mem _ List.mem_cons_self
  · exact List.mem_cons_of_mem _ (List.mem_cons_of_mem _ List.mem_cons_self)

theorem lostBus_bridge (h : f.Present lostBus) (hbridge : f.IsBridge lostBus) :
    f = ⟨0, 1, 0⟩ := by
  have hmem := lostBus_present h
  simp only [List.mem_cons, List.not_mem_nil, or_false] at hmem
  rcases hmem with rfl | rfl | rfl
  · exact absurd hbridge (by decide)
  · rfl
  · exact absurd hbridge (by decide)

theorem lostBus_secondaryBus : (Bdf.mk 0 1 0).secondaryBus lostBus = 1 := by decide

theorem lostBus_topology : Topology lostBus where
  few L hnodup hL := by
    have hsub : L ⊆ [⟨0, 0, 0⟩, ⟨0, 1, 0⟩, ⟨1, 0, 0⟩] := fun f hf => lostBus_present (hL f hf).2
    have hlen := (List.subperm_of_subset hnodup hsub).length_le
    exact hlen.trans (by decide)
  behind f hf hbridge := by
    obtain rfl := lostBus_bridge hf.2 hbridge
    decide
  apart f g hf hg hbridge hbridge' _ :=
    (lostBus_bridge hf.2 hbridge).trans (lostBus_bridge hg.2 hbridge').symm

theorem lostBus_recorded :
    (pciEnumerate lostBus (MAX_DEVICES + 1)).map (fun s => s.devices.map PciDevice.bdf) =
      some [⟨0, 0, 0⟩, ⟨0, 1, 0⟩] := by decide +kernel

theorem lostBus_not_recorded : Topology lostBus ∧ ¬ RecordsOnce lostBus := by
  refine ⟨lostBus_topology, ?_⟩
  rintro ⟨s, hs, honce⟩
  have hbridge : (Bdf.mk 0 1 0).Present lostBus :=
    ⟨by decide, by decide, by decide, .inl rfl⟩
  have hdevice : (Bdf.mk 1 0 0).Present lostBus :=
    ⟨by decide, by decide, by decide, .inl rfl⟩
  have hreach : Reachable lostBus 1 :=
    lostBus_secondaryBus ▸ .behind .zero hbridge (by decide)
  have hrecorded : s.devices.map PciDevice.bdf = [⟨0, 0, 0⟩, ⟨0, 1, 0⟩] := by
    have hmap := lostBus_recorded
    rw [hs] at hmap
    exact Option.some.inj hmap
  have hcount := honce ⟨1, 0, 0⟩ hreach hdevice
  rw [hrecorded] at hcount
  exact absurd hcount (by decide)

end EponaOS.Drivers
