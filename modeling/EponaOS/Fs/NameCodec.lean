import EponaOS.Fs.FatDir

/-!
# The 8.3 names

`fat_name_to_83` makes the 11 bytes of an entry from a name, `fat_trim_name` the name that a
listing shows from the 11 bytes. The first takes letters, digits, `_` and `-` only, and a dot
with nothing behind it; the second shows whatever is there.
-/

namespace EponaOS.Fs

variable {a b l n cs : List UInt8} {c : UInt8} {e r : FatName} {k : Nat}

-- ---------------------------------------------------------------------------
-- Characters
-- ---------------------------------------------------------------------------

theorem forall_byte {P : UInt8 → Prop} (h : ∀ k < 256, P (UInt8.ofNat k)) (c : UInt8) : P c := by
  have hc := h c.toNat c.toNat_lt
  rwa [UInt8.ofNat_toNat] at hc

theorem lowerCase_upperCase (c : UInt8) : lowerCase (upperCase c) = lowerCase c :=
  forall_byte (P := fun c => lowerCase (upperCase c) = lowerCase c) (by decide +kernel) c

theorem nameChar_upper (h : nameChar c = true) : upperCase (lowerCase c) = c ∧ upperCase c = c := by
  revert h
  exact forall_byte (P := fun c => nameChar c = true → upperCase (lowerCase c) = c ∧ upperCase c = c)
    (by decide +kernel) c

theorem nameChar_ne (h : nameChar c = true) : c ≠ 0 ∧ c ≠ SPACE ∧ c ≠ DOT := by
  revert h
  exact forall_byte (P := fun c => nameChar c = true → c ≠ 0 ∧ c ≠ SPACE ∧ c ≠ DOT)
    (by decide +kernel) c

theorem upperCase_dot : upperCase DOT = DOT := by decide

theorem lowerCase_dot : lowerCase DOT = DOT := by decide

-- ---------------------------------------------------------------------------
-- Padding
-- ---------------------------------------------------------------------------

def GoodChars (l : List UInt8) : Prop := ∀ c ∈ l, nameChar (upperCase c) = true

theorem GoodChars.dot_not_mem (h : GoodChars l) : DOT ∉ l := by
  intro hdot
  have hchar := h DOT hdot
  rw [upperCase_dot] at hchar
  exact (nameChar_ne hchar).2.2 rfl

theorem GoodChars.upper (h : GoodChars l) : ∀ c ∈ l.map upperCase, nameChar c = true := by
  intro c hc
  obtain ⟨x, hx, rfl⟩ := List.mem_map.mp hc
  exact h x hx

theorem unpadded_pad (h : ∀ c ∈ l, nameChar c = true) (k : Nat) : unpadded (pad k l) = l := by
  have hall : l.takeWhile (fun c => c ≠ 0 ∧ c ≠ SPACE) = l := by
    induction l with
    | nil => rfl
    | cons c l ih =>
      obtain ⟨h0, hs, -⟩ := nameChar_ne (h c List.mem_cons_self)
      rw [List.takeWhile_cons_of_pos (by simp [h0, hs]), ih fun x hx => h x (List.mem_cons_of_mem _ hx)]
  unfold unpadded pad
  rw [List.takeWhile_append, hall, if_pos rfl, List.takeWhile_replicate]
  simp

-- ---------------------------------------------------------------------------
-- `fat_name_to_83`
-- ---------------------------------------------------------------------------

theorem fatNameLoop_ext : fatNameLoop cs true e = some r ↔
    GoodChars cs ∧ (cs = [] ∨ e.ext.length + cs.length ≤ 3) ∧
      r = { e with ext := e.ext ++ cs.map upperCase } := by
  induction cs generalizing e with
  | nil =>
    simp only [fatNameLoop, Option.some.injEq, List.map_nil, List.append_nil, true_or, true_and]
    exact ⟨fun h => ⟨by simp [GoodChars], h.symm⟩, fun h => h.2.symm⟩
  | cons c cs ih =>
    rw [fatNameLoop]
    by_cases hdot : c = DOT
    · subst hdot
      simp only [if_true]
      constructor
      · intro h
        cases h
      · rintro ⟨hgood, -⟩
        exact absurd List.mem_cons_self hgood.dot_not_mem
    · rw [if_neg hdot]
      by_cases hchar : nameChar (upperCase c) = true
      · by_cases hfull : 3 ≤ e.ext.length
        · simp only [hchar, not_true_eq_false, if_false, if_pos hfull]
          constructor
          · intro h
            cases h
          · rintro ⟨-, hlen, -⟩
            simp only [List.length_cons, reduceCtorEq, false_or] at hlen
            omega
        · simp only [hchar, not_true_eq_false, if_false, if_neg hfull, ih]
          have hgood : GoodChars (c :: cs) ↔ GoodChars cs := by simp [GoodChars, hchar]
          rw [hgood]
          simp only [List.length_append, List.length_cons, List.length_nil, reduceCtorEq, false_or,
            List.map_cons, List.append_assoc, List.singleton_append]
          refine and_congr_right fun _ => and_congr_left fun _ => ?_
          constructor
          · rintro (rfl | hlen)
            · simp only [List.length_nil]
              omega
            · omega
          · intro hlen
            exact .inr (by omega)
      · simp only [hchar]
        constructor
        · intro h
          cases h
        · rintro ⟨hgood, -⟩
          exact absurd (hgood c List.mem_cons_self) hchar

theorem fatNameLoop_append (hgood : GoodChars a) (hlen : a = [] ∨ e.name.length + a.length ≤ 8) :
    fatNameLoop (a ++ cs) false e = fatNameLoop cs false { e with name := e.name ++ a.map upperCase } := by
  induction a generalizing e with
  | nil => simp
  | cons c a ih =>
    have hc := hgood c List.mem_cons_self
    have hdot : c ≠ DOT := by
      rintro rfl
      exact hgood.dot_not_mem List.mem_cons_self
    simp only [List.length_cons, reduceCtorEq, false_or] at hlen
    have hrest := ih (e := { e with name := e.name ++ [upperCase c] })
      (fun x hx => hgood x (List.mem_cons_of_mem _ hx)) (.inr (by simp; omega))
    rw [List.cons_append, fatNameLoop, if_neg hdot]
    simp only [hc, not_true_eq_false, if_false, Bool.false_eq_true, not_false_eq_true, if_true]
    rw [if_neg (by omega), hrest]
    simp

theorem fatNameLoop_name (h : fatNameLoop cs false e = some r) :
    ∃ a b, GoodChars a ∧ (a = [] ∨ e.name.length + a.length ≤ 8) ∧
      ((cs = a ∧ r = { e with name := e.name ++ a.map upperCase }) ∨
        (cs = a ++ DOT :: b ∧
          fatNameLoop b true { e with name := e.name ++ a.map upperCase } = some r)) := by
  induction cs generalizing e with
  | nil =>
    cases h
    exact ⟨[], [], by simp [GoodChars], .inl rfl, .inl ⟨rfl, by simp⟩⟩
  | cons c cs ih =>
    rw [fatNameLoop] at h
    by_cases hdot : c = DOT
    · subst hdot
      simp only [if_true] at h
      exact ⟨[], cs, by simp [GoodChars], .inl rfl, .inr ⟨rfl, by simpa using h⟩⟩
    · rw [if_neg hdot] at h
      by_cases hchar : nameChar (upperCase c) = true
      · simp only [hchar, not_true_eq_false, if_false, Bool.false_eq_true, not_false_eq_true,
          if_true] at h
        split at h
        · cases h
        · rename_i hfull
          obtain ⟨a, b, hgood, hlen, hcs⟩ := ih h
          refine ⟨c :: a, b, ?_, .inr ?_, ?_⟩
          · intro x hx
            obtain rfl | hx := List.mem_cons.mp hx
            · exact hchar
            · exact hgood x hx
          · simp only [List.length_append, List.length_cons, List.length_nil] at hlen ⊢
            obtain rfl | hlen := hlen
            · simp only [List.length_nil]
              omega
            · omega
          · simpa using hcs
      · simp only [hchar] at h
        cases h

/-- What `fat_name_to_83` accepts: a name of up to 8 characters, and behind a dot, if there
is one, an extension of up to 3. -/
theorem fatNameTo83_eq_some : fatNameTo83 n = some e ↔
    ∃ a b, GoodChars a ∧ GoodChars b ∧ a ≠ [] ∧ a.length ≤ 8 ∧ b.length ≤ 3 ∧
      ((n = a ∧ b = []) ∨ n = a ++ DOT :: b) ∧
      e = ⟨pad 8 (a.map upperCase), pad 3 (b.map upperCase)⟩ := by
  constructor
  · intro h
    unfold fatNameTo83 at h
    split at h
    · cases h
    · rename_i r hloop
      split at h
      · rename_i hne
        cases h
        obtain ⟨a, b, hgood, hlen, ⟨rfl, rfl⟩ | ⟨rfl, hext⟩⟩ := fatNameLoop_name hloop
        · simp only [List.nil_append, List.length_map] at hne hlen ⊢
          refine ⟨n, [], hgood, by simp [GoodChars], List.ne_nil_of_length_pos hne, ?_, by simp,
            .inl ⟨rfl, rfl⟩, by simp⟩
          obtain rfl | hlen := hlen
          · simp
          · simpa using hlen
        · obtain ⟨hgoodb, hlenb, rfl⟩ := fatNameLoop_ext.mp hext
          simp only [List.nil_append, List.length_map] at hne hlen hlenb ⊢
          refine ⟨a, b, hgood, hgoodb, List.ne_nil_of_length_pos hne, ?_, ?_, .inr rfl, rfl⟩
          · obtain rfl | hlen := hlen
            · simp
            · simpa using hlen
          · obtain rfl | hlenb := hlenb
            · simp
            · simpa using hlenb
      · cases h
  · rintro ⟨a, b, hgood, hgoodb, hne, hlen, hlenb, hn, rfl⟩
    have hpos : 0 < (a.map upperCase).length := by
      rw [List.length_map]
      exact List.length_pos_iff.mpr hne
    have hname : ∀ cs, fatNameLoop (a ++ cs) false ⟨[], []⟩ =
        fatNameLoop cs false ⟨a.map upperCase, []⟩ :=
      fun cs => fatNameLoop_append hgood (.inr (by simpa using hlen))
    have hloop : fatNameLoop n false ⟨[], []⟩ = some ⟨a.map upperCase, b.map upperCase⟩ := by
      obtain ⟨rfl, rfl⟩ | rfl := hn
      · have h := hname []
        rw [List.append_nil] at h
        rw [h]
        rfl
      · rw [hname, fatNameLoop, if_pos rfl, if_neg (by simp)]
        exact fatNameLoop_ext.mpr ⟨hgoodb, .inr (by simpa using hlenb), rfl⟩
    rw [fatNameTo83, hloop]
    simp only [hpos, if_true]

-- ---------------------------------------------------------------------------
-- Round trips
-- ---------------------------------------------------------------------------

/-- Each character in front of the padding is a capital letter, a digit, `_` or `-`, and there
is one in the name. -/
structure PlainName (e : FatName) : Prop where
  name : e.name = pad 8 (unpadded e.name)
  ext : e.ext = pad 3 (unpadded e.ext)
  nonempty : unpadded e.name ≠ []
  chars : ∀ c ∈ unpadded e.name ++ unpadded e.ext, nameChar c = true

theorem map_lower_upper (l : List UInt8) : (l.map upperCase).map lowerCase = l.map lowerCase := by
  rw [List.map_map]
  exact List.map_congr_left fun c _ => lowerCase_upperCase c

theorem map_upper_lower (h : ∀ c ∈ l, nameChar c = true) : (l.map lowerCase).map upperCase = l := by
  rw [List.map_map]
  conv_rhs => rw [← List.map_id l]
  exact List.map_congr_left fun c hc => (nameChar_upper (h c hc)).1

theorem fatTrimName_pad (ha : GoodChars a) (hb : GoodChars b) :
    fatTrimName ⟨pad 8 (a.map upperCase), pad 3 (b.map upperCase)⟩ =
      (if b = [] then a else a ++ DOT :: b).map lowerCase := by
  unfold fatTrimName
  dsimp only
  rw [unpadded_pad ha.upper, unpadded_pad hb.upper]
  by_cases hnil : b = []
  · subst hnil
    rw [List.map_nil, if_pos rfl, if_pos rfl, List.append_nil, map_lower_upper]
  · rw [if_neg hnil, if_neg (by simpa using hnil)]
    simp only [List.map_append, List.map_cons, map_lower_upper]

/-- A name that is accepted is shown in lower case, unless it ends with a dot. -/
theorem fatTrimName_to83 (h : fatNameTo83 n = some e) :
    fatTrimName e = n.map lowerCase ↔ n.getLast? ≠ some DOT := by
  obtain ⟨a, b, ha, hb, hne, -, -, hn, rfl⟩ := fatNameTo83_eq_some.mp h
  rw [fatTrimName_pad ha hb]
  have hlast : ∀ l : List UInt8, GoodChars l → l.getLast? ≠ some DOT :=
    fun l hl hdot => hl.dot_not_mem (List.mem_of_getLast? hdot)
  obtain ⟨rfl, rfl⟩ | rfl := hn
  · simp [hlast n ha]
  · by_cases hnil : b = []
    · subst hnil
      simp
    · rw [if_neg hnil, List.getLast?_append, List.getLast?_cons]
      obtain ⟨c, hc⟩ := Option.ne_none_iff_exists'.mp (mt List.getLast?_eq_none_iff.mp hnil)
      have hcd := hlast b hb
      rw [hc] at hcd
      simpa [hc] using hcd

theorem unpadded_length_le (l : List UInt8) : (unpadded l).length ≤ l.length :=
  (List.takeWhile_sublist _).length_le

theorem fatNameTo83_trim (hname : e.name.length = 8) (hext : e.ext.length = 3) :
    fatNameTo83 (fatTrimName e) = some e ↔ PlainName e := by
  constructor
  · intro h
    obtain ⟨a, b, ha, hb, hne, -, -, -, rfl⟩ := fatNameTo83_eq_some.mp h
    refine ⟨?_, ?_, ?_, ?_⟩ <;> dsimp only
    · rw [unpadded_pad ha.upper]
    · rw [unpadded_pad hb.upper]
    · rw [unpadded_pad ha.upper]
      simpa using hne
    · rw [unpadded_pad ha.upper, unpadded_pad hb.upper]
      intro c hc
      obtain hc | hc := List.mem_append.mp hc
      · exact ha.upper c hc
      · exact hb.upper c hc
  · intro h
    have hgood : ∀ l : List UInt8, (∀ c ∈ l, nameChar c = true) → GoodChars (l.map lowerCase) := by
      intro l hl c hc
      obtain ⟨x, hx, rfl⟩ := List.mem_map.mp hc
      rw [(nameChar_upper (hl x hx)).1]
      exact hl x hx
    have hn : ∀ c ∈ unpadded e.name, nameChar c = true :=
      fun c hc => h.chars c (List.mem_append_left _ hc)
    have he : ∀ c ∈ unpadded e.ext, nameChar c = true :=
      fun c hc => h.chars c (List.mem_append_right _ hc)
    have hlen := unpadded_length_le e.name
    have hlenb := unpadded_length_le e.ext
    refine fatNameTo83_eq_some.mpr ⟨(unpadded e.name).map lowerCase, (unpadded e.ext).map lowerCase,
      hgood _ hn, hgood _ he, by simpa using h.nonempty, by rw [List.length_map]; omega,
      by rw [List.length_map]; omega, ?_, ?_⟩
    · unfold fatTrimName
      by_cases hnil : unpadded e.ext = []
      · simp [hnil]
      · simp [hnil, lowerCase_dot]
    · rw [map_upper_lower hn, map_upper_lower he, ← h.name, ← h.ext]

theorem deName_length (buf : Bytes) (off : Nat) :
    (deName buf off).name.length = 8 ∧ (deName buf off).ext.length = 3 := by
  simp [deName]

/-- Both directions: names that are accepted, and entries on the disk. -/
theorem name_codec_iff (n : CStr) (e : FatName) (buf : Bytes) (off : Nat) :
    (fatNameTo83 n = some e → (fatTrimName e = n.map lowerCase ↔ n.getLast? ≠ some DOT)) ∧
      (fatNameTo83 (fatTrimName (deName buf off)) = some (deName buf off) ↔
        PlainName (deName buf off)) :=
  ⟨fatTrimName_to83, fatNameTo83_trim (deName_length buf off).1 (deName_length buf off).2⟩

/-- The characters of short names: those of the driver, some signs, and those above 127. -/
def legalChar (c : UInt8) : Bool :=
  nameChar c ∨ 128 ≤ c ∨ c ∈ cstr ['!', '#', '$', '%', '&', '(', ')', '@', '^', '{', '}', '~']

/-- The entry of a file that another system named `A~1`. -/
def tildeEntry : Bytes := fun i =>
  (pad 8 (cstr ['A', '~', '1']) ++ pad 3 [] ++ [FAT_ATTR_ARCHIVE]).getD i 0

/-- `a.` is accepted and shown as `a`; `A~1` is shown as `a~1`, which is not accepted. -/
theorem codec_one_way :
    (¬ ∀ n e, fatNameTo83 n = some e → fatTrimName e = n.map lowerCase) ∧
      ¬ ∀ buf off, buf off ≠ 0 → deSkipped buf off = false →
        (∀ c ∈ unpadded (deName buf off).name ++ unpadded (deName buf off).ext, legalChar c = true) →
        fatNameTo83 (fatTrimName (deName buf off)) = some (deName buf off) := by
  constructor
  · intro hall
    have h := hall (cstr ['a', '.']) ⟨pad 8 (cstr ['A']), pad 3 []⟩ (by decide)
    exact absurd h (by decide)
  · intro hall
    have h := hall tildeEntry 0 (by decide) (by decide) (List.all_eq_true.mp (by decide))
    exact absurd h (by decide)

end EponaOS.Fs
