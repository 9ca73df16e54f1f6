import EponaOS.Kernel.Term
import Mathlib.Data.List.GetD
import Mathlib.Data.List.Induction

/-!
# The parameters of a control sequence

`param_digit` and `param_sep` fill `params` as the bytes come. A separator in front of the first
digit is not counted, digits behind the 16th parameter go on with it, and no digit is checked for
overflow.
-/

namespace EponaOS.Kernel

open Function (update)

-- ---------------------------------------------------------------------------
-- What is listed
-- ---------------------------------------------------------------------------

abbrev Param := List (Fin 10)

def paramValue (p : Param) : Nat := p.foldl (fun v (d : Fin 10) => v * 10 + d.val) 0

inductive ParamKey
  | digit (d : Fin 10)
  | sep

def ParamKey.byte : ParamKey → UInt8
  | .digit d => UInt8.ofNat (0x30 + d.val)
  | .sep => 0x3B

/-- The parameters `d :: ds` with separators between them. -/
def paramKeys (d : Param) (ds : List Param) : List ParamKey :=
  d.map .digit ++ ds.flatMap fun p => .sep :: p.map .digit

def csiBytes (d : Param) (ds : List Param) : List UInt8 :=
  ESC :: 0x5B :: (paramKeys d ds).map ParamKey.byte

-- ---------------------------------------------------------------------------
-- What each byte does
-- ---------------------------------------------------------------------------

def paramKey (ctx : TermCtx) : ParamKey → TermCtx
  | .digit d => paramDigit ctx d.val
  | .sep => paramSep ctx

/-- The indices at which `params` is used. -/
def keyIndices (ctx : TermCtx) : ParamKey → List Nat
  | .digit _ => [(if ctx.nparams = 0 then 1 else ctx.nparams) - 1]
  | .sep => if ctx.nparams < 16 then [ctx.nparams + 1 - 1] else []

/-- The number is one of an `int`. -/
def IntFits (x : Int) : Prop := -2 ^ 31 ≤ x ∧ x < 2 ^ 31

def digitBase (ctx : TermCtx) : Int :=
  if ctx.nparams = 0 ∨ ctx.paramActive = false then 0 else ctx.params (ctx.nparams - 1)

def KeyFits (ctx : TermCtx) : ParamKey → Prop
  | .digit d => IntFits (digitBase ctx * 10) ∧ IntFits (digitBase ctx * 10 + d.val)
  | .sep => True

def AtKeys (P : TermCtx → ParamKey → Prop) : TermCtx → List ParamKey → Prop
  | _, [] => True
  | ctx, k :: ks => P ctx k ∧ AtKeys P (paramKey ctx k) ks

/-- `params` are the numbers that are listed when the final byte of the sequence comes. -/
structure ParamsListed (dev : Gpu G) (t : Terminal G) (d : Param) (ds : List Param) : Prop where
  values : ∀ i < min 16 (d :: ds).length, paramValue ((d :: ds).getD i []) < 2 ^ 31 →
    ((csiBytes d ds).foldl (termCtxPutc dev) t).ctx.params i = paramValue ((d :: ds).getD i [])
  /-- The parameters behind the 16th change nothing. -/
  first16 : ∀ i < 16, ((csiBytes d ds).foldl (termCtxPutc dev) t).ctx.params i =
    ((csiBytes d (ds.take 15)).foldl (termCtxPutc dev) t).ctx.params i
  countFirst16 : ((csiBytes d ds).foldl (termCtxPutc dev) t).ctx.nparams =
    ((csiBytes d (ds.take 15)).foldl (termCtxPutc dev) t).ctx.nparams
  indices : AtKeys (fun ctx k => ∀ i ∈ keyIndices ctx k, i < 16) (paramsReset t.ctx)
    (paramKeys d ds)
  count : ((csiBytes d ds).foldl (termCtxPutc dev) t).ctx.nparams ≤ 16
  noOverflow : AtKeys KeyFits (paramsReset t.ctx) (paramKeys d ds)

/-- The first parameter has a digit, the first 16 are numbers of an `int`, and the digits behind
them would not change the 16th; or it has none, there are at most 16, and all digits are 0. -/
def ReadAsListed (d : Param) (ds : List Param) : Prop :=
  (d = [] ∧ ds.length ≤ 15 ∧ paramValue ds.flatten = 0) ∨
  (d ≠ [] ∧ (∀ p ∈ (d :: ds).take 16, paramValue p < 2 ^ 31) ∧
    paramValue ((d :: ds).drop 15).flatten = paramValue ((d :: ds).getD 15 []))

-- ---------------------------------------------------------------------------
-- Slots
-- ---------------------------------------------------------------------------

structure ParamSlots where
  n : Nat
  digits : Nat → Param

def ParamSlots.key (s : ParamSlots) : ParamKey → ParamSlots
  | .digit d =>
    ⟨max s.n 1, update s.digits (max s.n 1 - 1) (s.digits (max s.n 1 - 1) ++ [d])⟩
  | .sep => ⟨min (s.n + 1) 16, s.digits⟩

def ParamSlots.empty : ParamSlots := ⟨0, fun _ => []⟩

/-- Where the digits of the parameters `es` go that come behind `n` numbers. -/
def slotsBehind (n : Nat) (es : List Param) (i : Nat) : Param :=
  if i < 15 then if i < n then [] else es.getD (i - n) []
  else (es.drop (15 - n)).flatten

variable {ctx : TermCtx} {s : ParamSlots} {k : ParamKey} {ks : List ParamKey} {d : Param}
  {ds es : List Param}

structure ParamSlots.Ok (s : ParamSlots) : Prop where
  count : s.n ≤ 16
  unused : ∀ i, s.n ≤ i → s.digits i = []

theorem ParamSlots.Ok.key (h : s.Ok) (k : ParamKey) : (s.key k).Ok := by
  cases k with
  | digit d =>
    refine ⟨?_, fun i hi => ?_⟩
    · have := h.count
      simp only [ParamSlots.key]
      omega
    · simp only [ParamSlots.key] at hi ⊢
      rw [Function.update_of_ne (by omega)]
      exact h.unused i (by omega)
  | sep =>
    refine ⟨Nat.min_le_right .., fun i hi => h.unused i ?_⟩
    have := h.count
    simp only [ParamSlots.key] at hi
    omega

theorem ParamSlots.Ok.run (h : s.Ok) (ks : List ParamKey) : (ks.foldl ParamSlots.key s).Ok := by
  induction ks generalizing s with
  | nil => exact h
  | cons k ks ih => exact ih (h.key k)

theorem slots_grow (ks : List ParamKey) (s : ParamSlots) (i : Nat) :
    s.digits i <+: (ks.foldl ParamSlots.key s).digits i := by
  induction ks generalizing s with
  | nil => exact List.prefix_refl _
  | cons k ks ih =>
    refine List.IsPrefix.trans ?_ (ih (s.key k))
    cases k with
    | digit d =>
      simp only [ParamSlots.key]
      by_cases hi : i = max s.n 1 - 1
      · rw [← hi, Function.update_self]
        exact List.prefix_append ..
      · simp only [Function.update_of_ne hi, List.prefix_refl]
    | sep => exact List.prefix_refl _

theorem slots_digits (p : Param) (s : ParamSlots) (hn : 0 < s.n) :
    (p.map ParamKey.digit).foldl ParamSlots.key s =
      ⟨s.n, update s.digits (s.n - 1) (s.digits (s.n - 1) ++ p)⟩ := by
  induction p generalizing s with
  | nil => rw [List.append_nil, Function.update_eq_self]; rfl
  | cons d p ih =>
    have hkey : s.key (.digit d) =
        ⟨s.n, update s.digits (s.n - 1) (s.digits (s.n - 1) ++ [d])⟩ := by
      rw [ParamSlots.key, Nat.max_eq_left hn]
    rw [List.map_cons, List.foldl_cons, hkey, ih]
    · simp only [Function.update_self, Function.update_idem, List.append_assoc,
        List.singleton_append]
    · exact hn

theorem slots_seps (es : List Param) (s : ParamSlots) (h : s.Ok) (hi : i < 16) :
    ((es.flatMap fun p => ParamKey.sep :: p.map .digit).foldl ParamSlots.key s).digits i =
      s.digits i ++ slotsBehind s.n es i := by
  induction es generalizing s with
  | nil => simp [slotsBehind]
  | cons p es ih =>
    have hn : 0 < (s.key .sep).n := by simp only [ParamSlots.key]; omega
    have hok := (h.key .sep).run (p.map .digit)
    rw [slots_digits p _ hn] at hok
    rw [List.flatMap_cons, List.foldl_append, List.foldl_cons, slots_digits p _ hn, ih _ hok]
    simp only [ParamSlots.key]
    have hcount := h.count
    obtain hfull | hfree : s.n = 16 ∨ s.n < 16 := by omega
    · -- no more numbers: the digits go on with the last one
      rw [hfull]
      by_cases h15 : i = 15
      · subst h15
        simp [slotsBehind]
      · have hlt : i < 15 := by omega
        simp [slotsBehind, hlt, h15, hi]
    · have hmin : min (s.n + 1) 16 = s.n + 1 := by omega
      rw [hmin, Nat.add_sub_cancel, h.unused s.n (Nat.le_refl _), List.nil_append, slotsBehind,
        slotsBehind]
      by_cases hin : i = s.n
      · subst hin
        rw [Function.update_self, h.unused s.n (Nat.le_refl _), List.nil_append]
        split
        · rw [if_pos (Nat.lt_succ_self _), if_neg (Nat.lt_irrefl _), Nat.sub_self]
          simp
        · have h15 : s.n = 15 := by omega
          simp [h15]
      · rw [Function.update_of_ne hin]
        refine congrArg (s.digits i ++ ·) ?_
        split
        · by_cases hlt : i < s.n
          · rw [if_pos (by omega), if_pos hlt]
          · rw [if_neg (by omega), if_neg hlt, show i - s.n = i - (s.n + 1) + 1 by omega,
              List.getD_cons_succ]
        · rw [show 15 - s.n = 15 - (s.n + 1) + 1 by omega, List.drop_succ_cons]

theorem slots_seps_n (es : List Param) (s : ParamSlots) (h : s.n ≤ 16) :
    ((es.flatMap fun p => ParamKey.sep :: p.map .digit).foldl ParamSlots.key s).n =
      min 16 (s.n + es.length) := by
  induction es generalizing s with
  | nil =>
    rw [List.length_nil, Nat.add_zero, Nat.min_eq_right h]
    rfl
  | cons p es ih =>
    have hn : 0 < (s.key .sep).n := by simp only [ParamSlots.key]; omega
    have hle : (s.key .sep).n ≤ 16 := Nat.min_le_right ..
    rw [List.flatMap_cons, List.foldl_append, List.foldl_cons, slots_digits p _ hn, ih,
      List.length_cons]
    · simp only [ParamSlots.key]
      omega
    · exact hle

def listedSlots (d : Param) (ds : List Param) : List Param := if d = [] then ds else d :: ds

theorem slots_run (d : Param) (ds : List Param) (hi : i < 16) :
    ((paramKeys d ds).foldl ParamSlots.key .empty).digits i =
      slotsBehind 0 (listedSlots d ds) i := by
  have hempty : ParamSlots.empty.Ok := ⟨Nat.zero_le _, fun _ _ => rfl⟩
  rw [paramKeys, List.foldl_append, listedSlots]
  cases d with
  | nil =>
    rw [if_pos rfl, List.map_nil, List.foldl_nil, slots_seps ds _ hempty hi]
    rfl
  | cons x xs =>
    have hone : (ParamSlots.empty.key (.digit x)).n = 1 := rfl
    have hok := hempty.run ((x :: xs).map .digit)
    rw [List.map_cons, List.foldl_cons, slots_digits xs _ (by rw [hone]; decide)] at hok
    rw [if_neg (List.cons_ne_nil x xs), List.map_cons, List.foldl_cons,
      slots_digits xs _ (by rw [hone]; decide), slots_seps ds _ hok hi]
    simp only [ParamSlots.key, ParamSlots.empty, Nat.zero_max, Nat.sub_self, Function.update_self,
      Function.update_idem, List.nil_append, List.singleton_append]
    rw [slotsBehind, slotsBehind]
    obtain rfl | ⟨j, rfl⟩ : i = 0 ∨ ∃ j, i = j + 1 := by
      cases i with
      | zero => exact .inl rfl
      | succ j => exact .inr ⟨j, rfl⟩
    · simp
    · rw [Function.update_of_ne (Nat.succ_ne_zero j), List.nil_append]
      simp

theorem slots_run_n (d : Param) (ds : List Param) :
    ((paramKeys d ds).foldl ParamSlots.key .empty).n = min 16 (listedSlots d ds).length := by
  rw [paramKeys, List.foldl_append, listedSlots]
  cases d with
  | nil =>
    rw [if_pos rfl, List.map_nil, List.foldl_nil, slots_seps_n ds _ (Nat.zero_le _)]
    exact congrArg (min 16) (Nat.zero_add _)
  | cons x xs =>
    have hone : (ParamSlots.empty.key (.digit x)).n = 1 := rfl
    rw [if_neg (List.cons_ne_nil x xs), List.map_cons, List.foldl_cons,
      slots_digits xs _ (by rw [hone]; decide), slots_seps_n ds _ (by rw [hone]; decide), hone,
      List.length_cons, Nat.add_comm]

-- ---------------------------------------------------------------------------
-- The array
-- ---------------------------------------------------------------------------

/-- The number that the digits leave in an `int`. -/
def wrapParam (p : Param) : Int := p.foldl (fun v (d : Fin 10) => wrapInt (v * 10 + d.val)) 0

theorem wrapParam_concat (p : Param) (d : Fin 10) :
    wrapParam (p ++ [d]) = wrapInt (wrapParam p * 10 + d.val) := by
  rw [wrapParam, List.foldl_append]
  rfl

theorem paramValue_concat (p : Param) (d : Fin 10) :
    paramValue (p ++ [d]) = paramValue p * 10 + d.val := by
  rw [paramValue, List.foldl_append]
  rfl

theorem paramValue_le_append (p q : Param) : paramValue p ≤ paramValue (p ++ q) := by
  induction q using List.reverseRecOn with
  | nil => rw [List.append_nil]
  | append_singleton q d ih =>
    rw [← List.append_assoc, paramValue_concat]
    omega

theorem paramValue_mono {q : Param} (h : p <+: q) : paramValue p ≤ paramValue q := by
  obtain ⟨rest, rfl⟩ := h
  exact paramValue_le_append p rest

theorem wrapInt_of_fits (h : IntFits x) : wrapInt x = x := by
  obtain ⟨hlo, hhi⟩ := h
  rw [wrapInt, Int.bmod_eq_of_le_mul_two]
  · omega
  · omega

theorem wrapParam_of_lt (h : paramValue p < 2 ^ 31) : wrapParam p = paramValue p := by
  induction p using List.reverseRecOn with
  | nil => rfl
  | append_singleton p d ih =>
    have hp := ih (Nat.lt_of_le_of_lt (paramValue_le_append p [d]) h)
    rw [paramValue_concat] at h
    rw [wrapParam_concat, hp, paramValue_concat, wrapInt_of_fits ⟨by omega, by omega⟩]
    omega

/-- The context that has the digits of the slots in `params`. -/
structure Holds (ctx : TermCtx) (s : ParamSlots) : Prop where
  count : ctx.nparams = s.n
  active : 0 < s.n → (ctx.paramActive = true ↔ s.digits (s.n - 1) ≠ [])
  params : ∀ i < 16, ctx.params i = wrapParam (s.digits i)

theorem holds_reset (ctx : TermCtx) (state : TermState) :
    Holds { paramsReset ctx with state } .empty where
  count := rfl
  active h := absurd h (Nat.lt_irrefl 0)
  params _ hi := if_pos hi

theorem Holds.digitBase (h : Holds ctx s) (hok : s.Ok) :
    digitBase ctx = wrapParam (s.digits (max s.n 1 - 1)) := by
  have hcount := hok.count
  rw [Kernel.digitBase, h.count]
  obtain hn | hn : s.n = 0 ∨ 0 < s.n := by omega
  · rw [if_pos (.inl hn), hn, hok.unused _ (by omega)]
    rfl
  · have hone : max s.n 1 - 1 = s.n - 1 := by omega
    rw [hone]
    by_cases hd : s.digits (s.n - 1) = []
    · have hact : ctx.paramActive = false := by
        rw [Bool.eq_false_iff]
        exact fun hact => (h.active hn).mp hact hd
      rw [if_pos (.inr hact), hd]
      rfl
    · have hact := (h.active hn).mpr hd
      rw [if_neg (by rw [hact]; simp; omega), h.params _ (by omega)]

theorem paramDigit_eq (ctx : TermCtx) (d : Int) (h : ctx.nparams ≤ 16) :
    paramDigit ctx d =
      { ctx with
        nparams := max ctx.nparams 1
        paramActive := true
        params :=
          update ctx.params (max ctx.nparams 1 - 1) (wrapInt (digitBase ctx * 10 + d)) } := by
  obtain ⟨state, params, n, active, fg, bg, savedRow, savedCol⟩ := ctx
  cases n with
  | zero => simp [paramDigit, digitBase]
  | succ n =>
    cases active with
    | true => simp [paramDigit, digitBase, show n + 1 ≤ 16 from h]
    | false => simp [paramDigit, digitBase, show n + 1 ≤ 16 from h]

theorem Holds.key (h : Holds ctx s) (hok : s.Ok) (k : ParamKey) :
    Holds (paramKey ctx k) (s.key k) := by
  have hcount := hok.count
  cases k with
  | digit d =>
    rw [paramKey, paramDigit_eq ctx _ (by rw [h.count]; exact hcount), h.digitBase hok, h.count]
    refine ⟨rfl, fun _ => ?_, fun i hi => ?_⟩
    · simp [ParamSlots.key]
    · simp only [ParamSlots.key]
      by_cases heq : i = max s.n 1 - 1
      · rw [heq, Function.update_self, Function.update_self, wrapParam_concat]
      · rw [Function.update_of_ne heq, Function.update_of_ne heq, h.params i hi]
  | sep =>
    rw [paramKey, paramSep, h.count]
    obtain hfull | hfree : s.n = 16 ∨ s.n < 16 := by omega
    · rw [if_neg (by omega)]
      have hkey : s.key .sep = s := by
        rw [ParamSlots.key, hfull]
        simp [← hfull]
      rw [hkey]
      exact h
    · rw [if_pos hfree]
      have hmin : min (s.n + 1) 16 = s.n + 1 := by omega
      refine ⟨?_, fun _ => ?_, fun i hi => ?_⟩
      · simp [ParamSlots.key, hmin]
      · simp [ParamSlots.key, hmin, hok.unused s.n (Nat.le_refl _)]
      · simp only [ParamSlots.key, Nat.add_sub_cancel]
        by_cases heq : i = s.n
        · rw [heq, Function.update_self, hok.unused s.n (Nat.le_refl _)]
          rfl
        · rw [Function.update_of_ne heq, h.params i hi]

theorem Holds.run (h : Holds ctx s) (hok : s.Ok) (ks : List ParamKey) :
    Holds (ks.foldl paramKey ctx) (ks.foldl ParamSlots.key s) := by
  induction ks generalizing ctx s with
  | nil => exact h
  | cons k ks ih => exact ih (h.key hok k) (hok.key k)

theorem Holds.indices (h : Holds ctx s) (hok : s.Ok) (ks : List ParamKey) :
    AtKeys (fun ctx k => ∀ i ∈ keyIndices ctx k, i < 16) ctx ks := by
  induction ks generalizing ctx s with
  | nil => trivial
  | cons k ks ih =>
    refine ⟨fun i hi => ?_, ih (h.key hok k) (hok.key k)⟩
    have hcount := hok.count
    rw [← h.count] at hcount
    cases k with
    | digit d =>
      rw [keyIndices, List.mem_singleton] at hi
      split at hi <;> omega
    | sep =>
      rw [keyIndices] at hi
      split at hi
      · rw [List.mem_singleton] at hi
        omega
      · cases hi

-- ---------------------------------------------------------------------------
-- Overflow
-- ---------------------------------------------------------------------------

def ParamSlots.Fit (s : ParamSlots) : Prop := ∀ i < 16, paramValue (s.digits i) < 2 ^ 31

theorem Holds.keyFits_iff (h : Holds ctx s) (hok : s.Ok) (hfit : s.Fit) (k : ParamKey) :
    KeyFits ctx k ↔ (s.key k).Fit := by
  have hcount := hok.count
  cases k with
  | sep => exact ⟨fun _ => hfit, fun _ => trivial⟩
  | digit d =>
    have hlast := hfit (max s.n 1 - 1) (by omega)
    have hvalue := paramValue_concat (s.digits (max s.n 1 - 1)) d
    rw [KeyFits, h.digitBase hok, wrapParam_of_lt hlast]
    constructor
    · intro hfits i hi
      simp only [ParamSlots.key]
      by_cases heq : i = max s.n 1 - 1
      · rw [heq, Function.update_self, hvalue]
        have := hfits.2.2
        omega
      · rw [Function.update_of_ne heq]
        exact hfit i hi
    · intro hkey
      have := hkey (max s.n 1 - 1) (by omega)
      simp only [ParamSlots.key, Function.update_self, hvalue] at this
      refine ⟨⟨?_, ?_⟩, ?_, ?_⟩ <;> omega

/-- No digit overflows exactly when the numbers in the end are ones of an `int`. -/
theorem Holds.noOverflow_iff (h : Holds ctx s) (hok : s.Ok) (hfit : s.Fit) (ks : List ParamKey) :
    AtKeys KeyFits ctx ks ↔ (ks.foldl ParamSlots.key s).Fit := by
  induction ks generalizing ctx s with
  | nil => exact ⟨fun _ => hfit, fun _ => trivial⟩
  | cons k ks ih =>
    rw [AtKeys, h.keyFits_iff hok hfit k]
    constructor
    · intro ⟨hkey, hrest⟩
      exact (ih (h.key hok k) (hok.key k) hkey).mp hrest
    · intro hend
      have hkey : (s.key k).Fit := fun i hi =>
        Nat.lt_of_le_of_lt (paramValue_mono (slots_grow ks (s.key k) i)) (hend i hi)
      exact ⟨hkey, (ih (h.key hok k) (hok.key k) hkey).mpr hend⟩

-- ---------------------------------------------------------------------------
-- The whole sequence
-- ---------------------------------------------------------------------------

variable {dev : Gpu G} {t : Terminal G}

theorem ParamKey.digit_byte (d : Fin 10) :
    IsDigit (digit d).byte ∧ (digit d).byte.toNat - 0x30 = d.val := by
  revert d
  decide

theorem paramKey_state (ctx : TermCtx) (k : ParamKey) : (paramKey ctx k).state = ctx.state := by
  cases k with
  | digit d =>
    simp only [paramKey, paramDigit]
    split_ifs <;> rfl
  | sep =>
    rw [paramKey, paramSep]
    split_ifs <;> rfl

theorem termCtxPutc_key (ht : t.ctx.state = .csi) (k : ParamKey) :
    termCtxPutc dev t k.byte = t.setCtx (paramKey t.ctx k) := by
  rw [termCtxPutc, ht]
  cases k with
  | digit d =>
    obtain ⟨hdigit, hval⟩ := ParamKey.digit_byte d
    simp only
    rw [if_pos hdigit, paramKey]
    have hle : 0x30 ≤ (ParamKey.digit d).byte.toNat := UInt8.le_iff_toNat_le.mp hdigit.1
    congr 2
    omega
  | sep => rfl

theorem termCtxPutc_keys (ht : t.ctx.state = .csi) (ks : List ParamKey) :
    (ks.map ParamKey.byte).foldl (termCtxPutc dev) t = t.setCtx (ks.foldl paramKey t.ctx) := by
  induction ks generalizing t with
  | nil => rfl
  | cons k ks ih =>
    rw [List.map_cons, List.foldl_cons, termCtxPutc_key ht,
      ih (by rw [← ht]; exact paramKey_state t.ctx k)]
    rfl

theorem termCtxPutc_csi (ht : t.ctx.state = .ground) (d : Param) (ds : List Param) :
    (csiBytes d ds).foldl (termCtxPutc dev) t =
      t.setCtx ((paramKeys d ds).foldl paramKey { paramsReset t.ctx with state := .csi }) := by
  have hesc : termCtxPutc dev t ESC = t.setState .escape := by
    rw [termCtxPutc, ht]
    rfl
  have hcsi : termCtxPutc dev (t.setState .escape) 0x5B =
      t.setCtx { paramsReset t.ctx with state := .csi } := rfl
  rw [csiBytes, List.foldl_cons, List.foldl_cons, hesc, hcsi, termCtxPutc_keys rfl]
  rfl

theorem empty_ok : ParamSlots.empty.Ok := ⟨Nat.zero_le _, fun _ _ => rfl⟩

theorem empty_fit : ParamSlots.empty.Fit := fun _ _ => Nat.two_pow_pos 31

theorem csi_holds (ht : t.ctx.state = .ground) (d : Param) (ds : List Param) :
    Holds ((csiBytes d ds).foldl (termCtxPutc dev) t).ctx
      ((paramKeys d ds).foldl ParamSlots.key .empty) := by
  rw [termCtxPutc_csi ht]
  exact (holds_reset t.ctx .csi).run empty_ok (paramKeys d ds)

theorem csi_params (ht : t.ctx.state = .ground) (d : Param) (ds : List Param) (hi : i < 16) :
    ((csiBytes d ds).foldl (termCtxPutc dev) t).ctx.params i =
      wrapParam (slotsBehind 0 (listedSlots d ds) i) := by
  rw [(csi_holds ht d ds).params i hi, slots_run d ds hi]

structure SlotsListed (d : Param) (ds : List Param) : Prop where
  fit : ∀ i < 16, paramValue (slotsBehind 0 (listedSlots d ds) i) < 2 ^ 31
  values : ∀ i < min 16 (d :: ds).length, paramValue ((d :: ds).getD i []) < 2 ^ 31 →
    paramValue (slotsBehind 0 (listedSlots d ds) i) = paramValue ((d :: ds).getD i [])
  first16 : ∀ i < 16, paramValue (slotsBehind 0 (listedSlots d ds) i) =
    paramValue (slotsBehind 0 (listedSlots d (ds.take 15)) i)
  count : min 16 (listedSlots d ds).length = min 16 (listedSlots d (ds.take 15)).length

theorem slotsBehind_zero (es : List Param) (i : Nat) :
    slotsBehind 0 es i = if i < 15 then es.getD i [] else (es.drop 15).flatten := by
  rw [slotsBehind, if_neg (Nat.not_lt_zero i), Nat.sub_zero, Nat.sub_zero]

theorem slotsBehind_low (es : List Param) (hi : i < 15) : slotsBehind 0 es i = es.getD i [] := by
  rw [slotsBehind_zero, if_pos hi]

theorem slotsBehind_last (es : List Param) : slotsBehind 0 es 15 = (es.drop 15).flatten := by
  rw [slotsBehind_zero, if_neg (Nat.lt_irrefl 15)]

theorem slots_take_grow (d : Param) (ds : List Param) (hi : i < 16) :
    slotsBehind 0 (listedSlots d (ds.take 15)) i <+: slotsBehind 0 (listedSlots d ds) i := by
  have hkeys : paramKeys d ds =
      paramKeys d (ds.take 15) ++ (ds.drop 15).flatMap fun p => ParamKey.sep :: p.map .digit := by
    rw [paramKeys, paramKeys, List.append_assoc, ← List.flatMap_append, List.take_append_drop]
  rw [← slots_run d ds hi, ← slots_run d _ hi, hkeys, List.foldl_append]
  exact slots_grow ..

theorem paramsListed_iff_slots (ht : t.ctx.state = .ground) (d : Param) (ds : List Param) :
    ParamsListed dev t d ds ↔ SlotsListed d ds := by
  have hreset : Holds (paramsReset t.ctx) .empty := holds_reset t.ctx t.ctx.state
  have hcount (ds : List Param) : ((csiBytes d ds).foldl (termCtxPutc dev) t).ctx.nparams =
      min 16 (listedSlots d ds).length := by
    rw [(csi_holds ht d ds).count, slots_run_n]
  have hfit : AtKeys KeyFits (paramsReset t.ctx) (paramKeys d ds) ↔
      ∀ i < 16, paramValue (slotsBehind 0 (listedSlots d ds) i) < 2 ^ 31 := by
    rw [hreset.noOverflow_iff empty_ok empty_fit]
    exact forall₂_congr fun i hi => by rw [slots_run d ds hi]
  constructor
  · intro h
    have hslot := hfit.mp h.noOverflow
    refine ⟨hslot, fun i hi hlt => ?_, fun i hi => ?_, ?_⟩
    · have := h.values i hi hlt
      rw [csi_params ht d ds (by omega), wrapParam_of_lt (hslot i (by omega))] at this
      omega
    · have htake := Nat.lt_of_le_of_lt (paramValue_mono (slots_take_grow d ds hi)) (hslot i hi)
      have := h.first16 i hi
      rw [csi_params ht d ds hi, csi_params ht d _ hi, wrapParam_of_lt (hslot i hi),
        wrapParam_of_lt htake] at this
      omega
    · rw [← hcount, ← hcount]
      exact h.countFirst16
  · intro h
    refine ⟨fun i hi hlt => ?_, fun i hi => ?_, ?_, ?_, ?_, hfit.mpr h.fit⟩
    · rw [csi_params ht d ds (by omega), wrapParam_of_lt (h.fit i (by omega)), h.values i hi hlt]
    · have htake := Nat.lt_of_le_of_lt (paramValue_mono (slots_take_grow d ds hi)) (h.fit i hi)
      rw [csi_params ht d ds hi, csi_params ht d _ hi, wrapParam_of_lt (h.fit i hi),
        wrapParam_of_lt htake, h.first16 i hi]
    · rw [hcount, hcount]
      exact h.count
    · exact hreset.indices empty_ok _
    · rw [hcount]
      exact Nat.min_le_left ..

-- ---------------------------------------------------------------------------
-- When they are the listed ones
-- ---------------------------------------------------------------------------

theorem paramValue_eq_zero : paramValue p = 0 ↔ ∀ x ∈ p, x = 0 := by
  induction p using List.reverseRecOn with
  | nil => simp [paramValue]
  | append_singleton p d ih =>
    have hdigit : d.val = 0 ↔ d = 0 := Fin.val_eq_zero_iff
    rw [paramValue_concat, List.forall_mem_append, ← ih, List.forall_mem_singleton, ← hdigit]
    omega

theorem paramValue_flatten_eq_zero : paramValue es.flatten = 0 ↔ ∀ p ∈ es, paramValue p = 0 := by
  simp only [paramValue_eq_zero, List.mem_flatten]
  constructor
  · intro h p hp x hx
    exact h x ⟨p, hp, hx⟩
  · intro h x ⟨p, hp, hx⟩
    exact h p hp x hx

theorem take_fit_iff : (∀ p ∈ es.take 16, paramValue p < 2 ^ 31) ↔
    ∀ i < 16, paramValue (es.getD i []) < 2 ^ 31 := by
  constructor
  · intro h i hi
    obtain hlt | hge : i < es.length ∨ es.length ≤ i := by omega
    · refine h _ (List.mem_take_iff_getElem.mpr ⟨i, by omega, ?_⟩)
      rw [List.getD_eq_getElem _ _ hlt]
    · rw [List.getD_eq_default _ _ hge]
      decide
  · intro h p hp
    obtain ⟨i, hi, rfl⟩ := List.mem_take_iff_getElem.mp hp
    have := h i (by omega)
    rwa [List.getD_eq_getElem _ _ (by omega)] at this

theorem drop_take_flatten (es : List Param) :
    ((es.take 16).drop 15).flatten = es.getD 15 [] := by
  obtain hlt | hge : 15 < es.length ∨ es.length ≤ 15 := by omega
  · rw [List.drop_take, List.drop_eq_getElem_cons hlt, List.getD_eq_getElem _ _ hlt]
    exact List.append_nil _
  · rw [List.getD_eq_default _ _ hge, List.drop_eq_nil_of_le (by simp; omega)]
    rfl

theorem slotsListed_of_first (hd : d ≠ []) : SlotsListed d ds ↔
    (∀ p ∈ (d :: ds).take 16, paramValue p < 2 ^ 31) ∧
      paramValue ((d :: ds).drop 15).flatten = paramValue ((d :: ds).getD 15 []) := by
  have hslots : listedSlots d ds = d :: ds := if_neg hd
  have htake : listedSlots d (ds.take 15) = (d :: ds).take 16 := if_neg hd
  rw [take_fit_iff]
  constructor
  · intro h
    have hlast := h.first16 15 (by decide)
    rw [hslots, htake, slotsBehind_last, slotsBehind_last, drop_take_flatten] at hlast
    refine ⟨fun i hi => ?_, hlast⟩
    have hfit := h.fit i hi
    rw [hslots] at hfit
    obtain hlt | rfl : i < 15 ∨ i = 15 := by omega
    · rwa [slotsBehind_low _ hlt] at hfit
    · rwa [slotsBehind_last, hlast] at hfit
  · intro ⟨hfit, hlast⟩
    have hvalue : ∀ i < 16, paramValue (slotsBehind 0 (d :: ds) i) =
        paramValue ((d :: ds).getD i []) := by
      intro i hi
      obtain hlt | rfl : i < 15 ∨ i = 15 := by omega
      · rw [slotsBehind_low _ hlt]
      · rw [slotsBehind_last, hlast]
    refine ⟨fun i hi => ?_, fun i hi _ => ?_, fun i hi => ?_, ?_⟩
    · rw [hslots, hvalue i hi]
      exact hfit i hi
    · rw [hslots]
      exact hvalue i (by omega)
    · rw [hslots, htake, hvalue i hi]
      obtain hlt | rfl : i < 15 ∨ i = 15 := by omega
      · rw [slotsBehind_low _ hlt, List.getD_eq_getElem?_getD, List.getD_eq_getElem?_getD,
          List.getElem?_take_of_lt hi]
      · rw [slotsBehind_last, drop_take_flatten]
    · rw [hslots, htake, List.length_take]
      omega

theorem paramValue_getD (h : ∀ p ∈ es, paramValue p = 0) (i : Nat) :
    paramValue (es.getD i []) = 0 := by
  obtain hlt | hge : i < es.length ∨ es.length ≤ i := by omega
  · rw [List.getD_eq_getElem _ _ hlt]
    exact h _ (List.getElem_mem hlt)
  · rw [List.getD_eq_default _ _ hge]
    rfl

theorem listedSlots_nil (ds : List Param) : listedSlots [] ds = ds := if_pos rfl

theorem SlotsListed.values_zero (h : SlotsListed [] ds) (hlen : ds.length ≤ 15) :
    ∀ i ≤ ds.length, paramValue (([] :: ds).getD i []) = 0 := by
  have hvalues := h.values
  rw [listedSlots_nil] at hvalues
  intro i
  induction i with
  | zero => exact fun _ => rfl
  | succ i ih =>
    intro hi
    have := hvalues i (by rw [List.length_cons]; omega) (by rw [ih (by omega)]; decide)
    rwa [slotsBehind_low _ (by omega), ih (by omega)] at this

theorem slotsListed_of_empty :
    SlotsListed [] ds ↔ ds.length ≤ 15 ∧ paramValue ds.flatten = 0 := by
  rw [paramValue_flatten_eq_zero]
  constructor
  · intro h
    have hcount := h.count
    rw [listedSlots_nil, listedSlots_nil, List.length_take] at hcount
    have hlen : ds.length ≤ 15 := by omega
    refine ⟨hlen, fun p hp => ?_⟩
    obtain ⟨i, hi, rfl⟩ := List.mem_iff_getElem.mp hp
    have := h.values_zero hlen (i + 1) hi
    rwa [List.getD_cons_succ, List.getD_eq_getElem _ _ hi] at this
  · intro ⟨hlen, h⟩
    have hslot (i : Nat) : paramValue (slotsBehind 0 ds i) = 0 := by
      rw [slotsBehind_zero]
      split
      · exact paramValue_getD h i
      · exact paramValue_flatten_eq_zero.mpr fun p hp => h p (List.mem_of_mem_drop hp)
    have hall : ∀ p ∈ [] :: ds, paramValue p = 0 := by
      intro p hp
      obtain rfl | hp := List.mem_cons.mp hp
      · rfl
      · exact h p hp
    refine ⟨fun i _ => ?_, fun i _ _ => ?_, fun i _ => ?_, ?_⟩
    · rw [listedSlots_nil, hslot i]
      decide
    · rw [listedSlots_nil, hslot i, paramValue_getD hall i]
    · rw [listedSlots_nil, listedSlots_nil, List.take_of_length_le hlen]
    · rw [listedSlots_nil, listedSlots_nil, List.take_of_length_le hlen]

theorem csiParams_iff (dev : Gpu G) (t : Terminal G) (d : Param) (ds : List Param)
    (ht : t.ctx.state = .ground) : ParamsListed dev t d ds ↔ ReadAsListed d ds := by
  rw [paramsListed_iff_slots ht, ReadAsListed]
  by_cases hd : d = []
  · rw [hd, slotsListed_of_empty]
    simp
  · rw [slotsListed_of_first hd]
    simp [hd]

def idleTerminal : Terminal Unit where
  ctx := termCtxInit
    { state := .ground, params := fun _ => 0, nparams := 0, paramActive := false
      fg := 0x0F, bg := 0x00, savedRow := 0, savedCol := 0 }
  gpu := ()
  events := []

def idleGpu : Gpu Unit where
  putc g _ := g
  getCursor _ := (0, 0)
  setCursor g _ _ := g
  eraseDisplay g _ := g
  eraseLine g _ := g
  setColor g _ _ := g

/-- `CSI 12;;7` -/
theorem csiParams_iff_three :
    idleTerminal.ctx.state = .ground ∧ ParamsListed idleGpu idleTerminal [1, 2] [[], [7]] :=
  ⟨rfl, (csiParams_iff idleGpu idleTerminal [1, 2] [[], [7]] rfl).mpr (.inr (by decide))⟩

/-- `CSI ;5`: the 5 is the first number and there is no second. -/
theorem leading_separator_not_counted : ¬ ParamsListed idleGpu idleTerminal [] [[5]] := by
  intro h
  have := h.values 1 (by decide) (by decide)
  revert this
  decide

end EponaOS.Kernel
