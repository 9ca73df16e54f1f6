import EponaOS.Lib.CString
import EponaOS.Lib.Fuel
import EponaOS.Lib.Lines

/-!
# The text editor

`read_file` and `save_file` of the user program `edit.c`. `g_lines` is one piece of memory with
`LINE_MAX` bytes a line; the addresses in it that are written to are recorded. `sys_read` gives any
number of the bytes that are left, `sys_write` takes all.
-/

namespace EponaOS.User.Edit

open Bytes Lines

def MAX_LINES : Nat := 512
def LINE_MAX : Nat := 256
def BUF_SIZE : Nat := 65536

/-- `'\n'` -/
abbrev NEWLINE : UInt8 := 0x0A

/-- A text file without NUL bytes and shorter than 65535 bytes -/
structure TextFile where
  bytes : List UInt8
  noNul : 0 ∉ bytes
  short : bytes.length < 65535

/-- What `sys_read` returns at offset `off` of a file, when `count` bytes are asked for -/
structure Reads (f : TextFile) where
  n : Nat → Nat → Nat
  some_left : ∀ off count, off < f.bytes.length → 0 < count →
    0 < n off count ∧ n off count ≤ count ∧ off + n off count ≤ f.bytes.length
  at_end : ∀ off count, f.bytes.length ≤ off → n off count = 0

/-- `g_lines` and `g_num`, the local `pos`, and the writes to `g_lines` -/
structure Table where
  mem : Bytes
  num : Nat
  pos : Nat
  writes : List Nat

/-- `g_lines[g_num][pos] = c` -/
def Table.store (s : Table) (c : UInt8) : Table :=
  { s with
    mem := setByte s.mem (s.num * LINE_MAX + s.pos) c
    writes := s.writes ++ [s.num * LINE_MAX + s.pos] }

/-- The loop that reads the file to `buf`: `total`, and the buffer -/
def readLoop (f : TextFile) (r : Reads f) : Nat → Nat → Bytes → Option (Nat × Bytes)
  | 0, _, _ => none
  | k + 1, total, buf =>
    if total < BUF_SIZE - 1 then
      let n := r.n total (BUF_SIZE - 1 - total)
      if n = 0 then some (total, buf)
      else readLoop f r k (total + n) (blit buf total n (fun i => f.bytes.getD i 0) total)
    else some (total, buf)

/-- A turn of the loop over `buf` -/
def lineChar (s : Table) (c : UInt8) : Table :=
  if c = NEWLINE then { s.store 0 with num := s.num + 1, pos := 0 }
  else if s.pos < LINE_MAX - 1 then { s.store c with pos := s.pos + 1 }
  else s

def lineLoop (buf : Bytes) : Nat → Nat → Table → Option Table
  | 0, _, _ => none
  | k + 1, i, s =>
    if buf i ≠ 0 ∧ s.num < MAX_LINES then lineLoop buf k (i + 1) (lineChar s (buf i)) else some s

def lastLine (s : Table) (total : Nat) (buf : Bytes) : Table :=
  if s.pos > 0 ∨ total > 0 ∧ buf (total - 1) = NEWLINE then
    if s.pos > 0 ∨ s.num = 0 then { s.store 0 with num := s.num + 1 } else s.store 0
  else s

/-- `read_file` of a file that can be opened; it returns 0. -/
def readFile (fuel : Nat) (f : TextFile) (r : Reads f) (buf lines : Bytes) : Option Table :=
  match readLoop f r fuel 0 buf with
  | none => none
  | some (total, buf) =>
    let buf := setByte buf total 0
    match lineLoop buf fuel 0 ⟨lines, 0, 0, []⟩ with
    | none => none
    | some s => some (lastLine s total buf)

/-- The bytes that `save_file` writes for lines from `i` on, to a file that can be created -/
def saveLoop (fuel : Nat) (mem : Bytes) : Nat → Nat → Option (List UInt8)
  | 0, _ => some []
  | n + 1, i =>
    match readStr mem fuel (i * LINE_MAX) with
    | none => none
    | some line => (saveLoop fuel mem n (i + 1)).map fun rest => line ++ [NEWLINE] ++ rest

def saveFile (fuel : Nat) (s : Table) : Option (List UInt8) := saveLoop fuel s.mem s.num 0

-- ---------------------------------------------------------------------------
-- Reading
-- ---------------------------------------------------------------------------

variable {f : TextFile} {r : Reads f} {buf mem : Bytes} {s : Table} {rows : List (List UInt8)}
  {cur w t : List UInt8} {c : UInt8} {k i total fuel : Nat}

theorem blit_take (buf : Bytes) (t : List UInt8) (hle : total + k ≤ t.length) :
    blit (putBytes buf 0 (t.take total)) total k (fun i => t.getD i 0) total =
      putBytes buf 0 (t.take (total + k)) := by
  refine (putBytes_eq (hasBytes_iff.mpr fun i hi => ?_) fun x hx => ?_).symm
  · rw [List.length_take] at hi
    rw [Nat.zero_add, List.getElem_take]
    by_cases hnew : total ≤ i
    · have hat : total + (i - total) = i := by omega
      rw [blit_in _ _ _ (by omega), hat]
      exact (List.getElem_eq_getD 0).symm
    · have hold := hasBytes_iff.mp (putBytes_has buf 0 (t.take total)) i
        (by rw [List.length_take]; omega)
      rw [Nat.zero_add, List.getElem_take] at hold
      rw [blit_off _ _ _ (by omega), hold]
  · rw [List.length_take] at hx
    rw [blit_off _ _ _ (by omega), putBytes_off _ _ (by rw [List.length_take]; omega)]

theorem readLoop_eq (r : Reads f) (buf : Bytes) (htotal : total ≤ f.bytes.length)
    (hk : f.bytes.length - total < k) :
    readLoop f r k total (putBytes buf 0 (f.bytes.take total)) =
      some (f.bytes.length, putBytes buf 0 f.bytes) := by
  induction k generalizing total with
  | zero => omega
  | succ k ih =>
    have hshort := f.short
    rw [readLoop, if_pos (by rw [BUF_SIZE]; omega)]
    dsimp only
    by_cases hend : total = f.bytes.length
    · have hzero := r.at_end total (BUF_SIZE - 1 - total) (by omega)
      rw [hend] at hzero ⊢
      rw [if_pos hzero, List.take_length]
    · obtain ⟨hpos, -, hle⟩ := r.some_left total (BUF_SIZE - 1 - total) (by omega)
        (by rw [BUF_SIZE]; omega)
      rw [if_neg (by omega), blit_take buf f.bytes hle]
      exact ih hle (by omega)

def lineChars : Table → List UInt8 → Table
  | s, [] => s
  | s, c :: t => if s.num < MAX_LINES then lineChars (lineChar s c) t else s

theorem lineLoop_eq (hbuf : HasStr buf i t) (h0 : 0 ∉ t) (hk : t.length < k) :
    lineLoop buf k i s = some (lineChars s t) := by
  induction t generalizing i k s with
  | nil =>
    obtain ⟨k, rfl⟩ := exists_succ hk
    have hnul : buf i = 0 := hbuf.1
    rw [lineLoop, if_neg (fun h => h.1 hnul)]
    rfl
  | cons c t ih =>
    obtain ⟨k, rfl⟩ := exists_succ hk
    obtain ⟨hc, hrest⟩ := hbuf
    rw [List.mem_cons, not_or] at h0
    rw [lineLoop, lineChars, hc]
    by_cases hnum : s.num < MAX_LINES
    · rw [if_pos ⟨Ne.symm h0.1, hnum⟩, if_pos hnum]
      exact ih hrest h0.2 (by simpa using hk)
    · rw [if_neg (fun h => hnum h.2), if_neg hnum]

-- ---------------------------------------------------------------------------
-- The table
-- ---------------------------------------------------------------------------

/-- The table has the lines `rows`, and `cur` of the line that is open. -/
structure Table.Has (s : Table) (rows : List (List UInt8)) (cur : List UInt8) : Prop where
  num : s.num = rows.length
  pos : s.pos = cur.length
  row : ∀ k, (h : k < rows.length) → HasStr s.mem (k * LINE_MAX) rows[k]
  last : HasBytes s.mem (s.num * LINE_MAX) cur
  short : ∀ w ∈ rows, w.length < LINE_MAX
  cur_short : cur.length < LINE_MAX
  writes : ∀ a ∈ s.writes, a < s.num * LINE_MAX + s.pos

/-- A byte of the open line, or of a line below it, does not change the lines in front of it. -/
theorem Table.Has.rows_store (h : s.Has rows cur) (c : UInt8) (hk : k < rows.length) :
    HasStr (s.store c).mem (k * LINE_MAX) rows[k] := by
  have hshort := h.short _ (List.getElem_mem hk)
  refine HasBytes.congr (h.row k hk) fun x _ hx => setByte_ne _ _ ?_
  rw [List.length_append, List.length_singleton] at hx
  have hbelow : (k + 1) * LINE_MAX ≤ s.num * LINE_MAX :=
    Nat.mul_le_mul_right _ (by rw [h.num]; exact hk)
  rw [Nat.succ_mul] at hbelow
  omega

theorem Table.Has.writes_store (h : s.Has rows cur) (c : UInt8) :
    ∀ a ∈ (s.store c).writes, a < s.num * LINE_MAX + s.pos + 1 := by
  intro a ha
  rcases List.mem_append.mp ha with hold | hnew
  · have hlt := h.writes a hold
    omega
  · rw [List.mem_singleton.mp hnew]
    exact Nat.lt_succ_self _

theorem Table.Has.cur_store (h : s.Has rows cur) (c : UInt8) :
    HasBytes (s.store c).mem (s.num * LINE_MAX) (cur ++ [c]) := by
  rw [hasBytes_append]
  refine ⟨h.last.congr fun x _ hx => setByte_ne _ _ ?_, ?_, trivial⟩
  · rw [h.pos]
    omega
  · rw [Table.store, h.pos]
    exact setByte_same ..

theorem Table.Has.char (h : s.Has rows cur) (hc : c ≠ NEWLINE) :
    (lineChar s c).Has rows (if cur.length < LINE_MAX - 1 then cur ++ [c] else cur) := by
  rw [lineChar, if_neg hc, h.pos]
  by_cases hroom : cur.length < LINE_MAX - 1
  · rw [if_pos hroom, if_pos hroom]
    refine ⟨h.num, ?_, fun k hk => h.rows_store c hk, h.cur_store c, h.short, ?_, fun a ha => ?_⟩
    · rw [List.length_append, List.length_singleton]
    · rw [List.length_append, List.length_singleton]
      omega
    · have hlt := h.writes_store c a ha
      change a < s.num * LINE_MAX + (cur.length + 1)
      rw [h.pos] at hlt
      omega
  · rw [if_neg hroom, if_neg hroom]
    exact h

theorem Table.Has.newline (h : s.Has rows cur) :
    (lineChar s NEWLINE).Has (rows ++ [cur]) [] := by
  rw [lineChar, if_pos rfl]
  refine ⟨?_, rfl, fun k hk => ?_, trivial, ?_, by decide, fun a ha => ?_⟩
  · rw [List.length_append, List.length_singleton, ← h.num]
  · rw [List.length_append, List.length_singleton] at hk
    by_cases hlast : k = rows.length
    · subst hlast
      rw [List.getElem_concat_length rfl, ← h.num]
      exact h.cur_store 0
    · rw [List.getElem_append_left (by omega)]
      exact h.rows_store 0 (by omega)
  · exact List.forall_mem_append.mpr ⟨h.short, by simpa using h.cur_short⟩
  · have hlt := h.writes_store 0 a ha
    have hcur := h.cur_short
    change a < (s.num + 1) * LINE_MAX + 0
    rw [h.pos] at hlt
    rw [Nat.succ_mul]
    omega

-- ---------------------------------------------------------------------------
-- The lines of a file
-- ---------------------------------------------------------------------------

abbrev cutLine : List UInt8 → List UInt8 := List.take (LINE_MAX - 1)

theorem cutLine_snoc (w : List UInt8) (c : UInt8) :
    cutLine (w ++ [c]) =
      if (cutLine w).length < LINE_MAX - 1 then cutLine w ++ [c] else cutLine w := by
  change (w ++ [c]).take (LINE_MAX - 1) =
    if (w.take (LINE_MAX - 1)).length < LINE_MAX - 1 then w.take (LINE_MAX - 1) ++ [c]
    else w.take (LINE_MAX - 1)
  rw [List.length_take, List.take_append]
  split
  · next h =>
    have hlt : w.length < LINE_MAX - 1 := by omega
    have hone : [c].take (LINE_MAX - 1 - w.length) = [c] := List.take_of_length_le (by simp; omega)
    rw [hone]
  · next h =>
    have hzero : LINE_MAX - 1 - w.length = 0 := by omega
    rw [hzero, List.take_zero, List.append_nil]

theorem Table.Has.line (h : s.Has rows (cutLine w)) (ht : NEWLINE ∉ t)
    (hnum : rows.length < MAX_LINES) (rest : List UInt8) :
    ∃ s', lineChars s (t ++ rest) = lineChars s' rest ∧ s'.Has rows (cutLine (w ++ t)) := by
  induction t generalizing s w with
  | nil => exact ⟨s, rfl, by rwa [List.append_nil]⟩
  | cons c t ih =>
    rw [List.mem_cons, not_or] at ht
    have hchar := h.char (Ne.symm ht.1)
    rw [← cutLine_snoc] at hchar
    obtain ⟨s', hrest, hs'⟩ := ih hchar ht.2
    refine ⟨s', ?_, by rwa [List.append_assoc] at hs'⟩
    rw [List.cons_append, lineChars, if_pos (by rw [h.num]; exact hnum), hrest]

theorem lineChars_full (h : s.Has rows cur) (hfull : rows.length = MAX_LINES) :
    lineChars s t = s := by
  cases t with
  | nil => rfl
  | cons c t =>
    rw [lineChars, if_neg]
    rw [h.num, hfull]
    exact Nat.lt_irrefl _

theorem Table.Has.lines {more : List (List UInt8)} (h : s.Has rows [])
    (hmore : ∀ w ∈ more, NEWLINE ∉ w) (ht : NEWLINE ∉ t) (hroom : rows.length ≤ MAX_LINES) :
    (lineChars s (joined NEWLINE more ++ t)).Has
      (rows ++ (more.take (MAX_LINES - rows.length)).map cutLine)
      (if rows.length + more.length < MAX_LINES then cutLine t else []) := by
  induction more generalizing s rows with
  | nil =>
    rw [List.take_nil, List.map_nil, List.append_nil, joined_nil, List.nil_append,
      List.length_nil, Nat.add_zero]
    by_cases hlt : rows.length < MAX_LINES
    · obtain ⟨s', hrest, hs'⟩ := Table.Has.line (w := []) h ht hlt []
      rw [List.append_nil] at hrest
      rw [hrest, if_pos hlt]
      exact hs'
    · rw [lineChars_full h (by omega), if_neg hlt]
      exact h
  | cons w more ih =>
    obtain ⟨hw, hmore⟩ := List.forall_mem_cons.mp hmore
    by_cases hlt : rows.length < MAX_LINES
    · obtain ⟨s', hrest, hs'⟩ := Table.Has.line (w := []) h hw hlt
        (NEWLINE :: (joined NEWLINE more ++ t))
      have hnum : s'.num < MAX_LINES := by rw [hs'.num]; exact hlt
      have hnext := ih hs'.newline hmore (by rwa [List.length_append, List.length_singleton])
      obtain ⟨m, hm⟩ : ∃ m, MAX_LINES - rows.length = m + 1 :=
        ⟨MAX_LINES - rows.length - 1, by omega⟩
      have hm' : MAX_LINES - (rows ++ [cutLine ([] ++ w)]).length = m := by
        rw [List.length_append, List.length_singleton]
        omega
      have hcount : (rows ++ [cutLine ([] ++ w)]).length + more.length =
          rows.length + (w :: more).length := by
        rw [List.length_append, List.length_singleton, List.length_cons]
        omega
      rw [hm', hcount, List.append_assoc] at hnext
      rw [joined_cons, List.append_assoc, List.cons_append, hrest, lineChars, if_pos hnum, hm,
        List.take_succ_cons, List.map_cons]
      exact hnext
    · have hzero : MAX_LINES - rows.length = 0 := by omega
      rw [lineChars_full h (by omega), hzero, List.take_zero, List.map_nil, List.append_nil,
        if_neg (by omega)]
      exact h

-- ---------------------------------------------------------------------------
-- Opening and saving
-- ---------------------------------------------------------------------------

def kept (rows : List (List UInt8)) (cur : List UInt8) : List (List UInt8) :=
  (rows.take MAX_LINES).map cutLine ++
    if rows.length < MAX_LINES ∧ cur ≠ [] then [cutLine cur] else []

def HasRoom (rows : List (List UInt8)) (cur : List UInt8) : Prop :=
  rows.length < MAX_LINES ∨ cur ≠ []

theorem last_newline (h : Split NEWLINE t rows cur) :
    t.getLast? = some NEWLINE ↔ rows ≠ [] ∧ cur = [] := by
  rw [h.eq]
  by_cases hcur : cur = []
  · subst hcur
    rw [List.append_nil]
    by_cases hrows : rows = []
    · simp [hrows]
    · simp [hrows, joined_getLast? hrows]
  · rw [List.getLast?_append_of_ne_nil _ hcur]
    refine ⟨fun hlast => ?_, fun hno => absurd hno.2 hcur⟩
    exact absurd (List.mem_of_getLast? hlast) h.cur

/-- `s` has exactly the lines `rows` to be saved. -/
structure Table.Saves (s : Table) (rows : List (List UInt8)) : Prop where
  num : s.num = rows.length
  row : ∀ k, (h : k < rows.length) → HasStr s.mem (k * LINE_MAX) rows[k]

def Table.InTable (s : Table) : Prop := ∀ a ∈ s.writes, a < MAX_LINES * LINE_MAX

theorem row_end_le (hk : k < MAX_LINES) : k * LINE_MAX + LINE_MAX ≤ MAX_LINES * LINE_MAX := by
  have h := Nat.mul_le_mul_right LINE_MAX (show k + 1 ≤ MAX_LINES from hk)
  rwa [Nat.succ_mul] at h

theorem lastLine_of_open (total : Nat) (buf : Bytes) (h : s.Has rows cur) (hcur : cur ≠ [])
    (hnum : rows.length < MAX_LINES) :
    (lastLine s total buf).Saves (rows ++ [cur]) ∧ (lastLine s total buf).InTable := by
  have hpos : s.pos > 0 := by
    rw [h.pos]
    exact List.length_pos_iff.mpr hcur
  have hlast : lastLine s total buf = { s.store 0 with num := s.num + 1 } := by
    rw [lastLine, if_pos (.inl hpos), if_pos (.inl hpos)]
  have hnew := h.newline
  rw [lineChar, if_pos rfl] at hnew
  rw [hlast]
  refine ⟨⟨hnew.num, hnew.row⟩, fun a ha => ?_⟩
  have hlt := hnew.writes a ha
  have hend := row_end_le hnum
  rw [← h.num] at hend
  change a < (s.num + 1) * LINE_MAX + 0 at hlt
  rw [Nat.succ_mul] at hlt
  omega

theorem lastLine_of_newline (h : s.Has rows []) (hrows : rows ≠ [])
    (hlast : total > 0 ∧ buf (total - 1) = NEWLINE) :
    (lastLine s total buf).Saves rows ∧
      ((lastLine s total buf).InTable ↔ rows.length < MAX_LINES) := by
  have hpos : ¬ (s.pos > 0 ∨ s.num = 0) := by
    have hlen := List.length_pos_iff.mpr hrows
    rw [h.pos, h.num, List.length_nil]
    omega
  have hstore : lastLine s total buf = s.store 0 := by
    rw [lastLine, if_pos (.inr hlast), if_neg hpos]
  rw [hstore]
  refine ⟨⟨h.num, fun k hk => h.rows_store 0 hk⟩, fun hin => ?_, fun hlt a ha => ?_⟩
  · have hwritten := hin (s.num * LINE_MAX + s.pos)
      (List.mem_append_right _ (List.mem_singleton_self _))
    by_contra hge
    have hle := Nat.mul_le_mul_right LINE_MAX (Nat.le_of_not_lt hge)
    rw [← h.num] at hle
    omega
  · have hwrite := h.writes_store 0 a ha
    have hend := row_end_le hlt
    have hmax : LINE_MAX = 256 := rfl
    rw [← h.num] at hend
    rw [h.pos, List.length_nil] at hwrite
    omega

theorem lastLine_of_none (h : s.Has rows []) (hrows : rows.length ≤ MAX_LINES)
    (hlast : ¬ (total > 0 ∧ buf (total - 1) = NEWLINE)) :
    (lastLine s total buf).Saves rows ∧ (lastLine s total buf).InTable := by
  have hpos : ¬ (s.pos > 0 ∨ total > 0 ∧ buf (total - 1) = NEWLINE) := by
    rw [h.pos, List.length_nil]
    exact not_or.mpr ⟨Nat.lt_irrefl 0, hlast⟩
  have hsame : lastLine s total buf = s := by rw [lastLine, if_neg hpos]
  rw [hsame]
  refine ⟨⟨h.num, h.row⟩, fun a ha => ?_⟩
  have hlt := h.writes a ha
  have hle := Nat.mul_le_mul_right LINE_MAX hrows
  rw [← h.num] at hle
  rw [h.pos, List.length_nil] at hlt
  omega

theorem lastLine_spec {rows₀ : List (List UInt8)} {cur₀ : List UInt8}
    (h : s.Has ((rows₀.take MAX_LINES).map cutLine)
      (if rows₀.length < MAX_LINES then cutLine cur₀ else []))
    (hsplit : Split NEWLINE t rows₀ cur₀)
    (hlast : (total > 0 ∧ buf (total - 1) = NEWLINE) ↔ t.getLast? = some NEWLINE) :
    (lastLine s total buf).Saves (kept rows₀ cur₀) ∧
      ((lastLine s total buf).InTable ↔ HasRoom rows₀ cur₀) := by
  have hlen : ((rows₀.take MAX_LINES).map cutLine).length = min MAX_LINES rows₀.length := by
    rw [List.length_map, List.length_take]
  rw [last_newline hsplit] at hlast
  by_cases hopen : rows₀.length < MAX_LINES ∧ cur₀ ≠ []
  · obtain ⟨hlt, hne⟩ := hopen
    rw [if_pos hlt] at h
    have hcut : cutLine cur₀ ≠ [] := fun hnil => hne (by
      have hzero := congrArg List.length hnil
      have hmax : LINE_MAX = 256 := rfl
      rw [List.length_take, List.length_nil] at hzero
      exact List.length_eq_zero_iff.mp (by omega))
    rw [kept, if_pos ⟨hlt, hne⟩]
    obtain ⟨hsaves, hin⟩ := lastLine_of_open total buf h hcut (by omega)
    exact ⟨hsaves, fun _ => .inl hlt, fun _ => hin⟩
  · have hcur : (if rows₀.length < MAX_LINES then cutLine cur₀ else []) = [] := by
      split
      · next hlt =>
        have hnil : cur₀ = [] := Classical.byContradiction fun hne => hopen ⟨hlt, hne⟩
        rw [hnil]
        rfl
      · rfl
    rw [hcur] at h
    rw [kept, if_neg hopen, List.append_nil]
    by_cases hnl : rows₀ ≠ [] ∧ cur₀ = []
    · have hne : (rows₀.take MAX_LINES).map cutLine ≠ [] := by
        have hpos := List.length_pos_iff.mpr hnl.1
        have hmax : MAX_LINES = 512 := rfl
        exact List.ne_nil_of_length_pos (by omega)
      obtain ⟨hsaves, hin⟩ := lastLine_of_newline h hne (hlast.mpr hnl)
      refine ⟨hsaves, hin.trans ?_⟩
      rw [HasRoom, or_iff_left (not_not.mpr hnl.2)]
      omega
    · obtain ⟨hsaves, hin⟩ := lastLine_of_none h (by omega) (fun hyes => hnl (hlast.mp hyes))
      refine ⟨hsaves, fun _ => ?_, fun _ => hin⟩
      by_cases hcur₀ : cur₀ = []
      · have hrows : rows₀ = [] := Classical.byContradiction fun hne => hnl ⟨hne, hcur₀⟩
        exact .inl (by rw [hrows]; decide)
      · exact .inr hcur₀

theorem saveLoop_eq (hrows : ∀ k, (h : k < rows.length) → HasStr mem ((i + k) * LINE_MAX) rows[k])
    (h0 : ∀ w ∈ rows, 0 ∉ w) (hfuel : ∀ w ∈ rows, w.length < fuel) :
    saveLoop fuel mem rows.length i = some (joined NEWLINE rows) := by
  induction rows generalizing i with
  | nil => rfl
  | cons w rows ih =>
    obtain ⟨hw, h0⟩ := List.forall_mem_cons.mp h0
    obtain ⟨hlen, hfuel⟩ := List.forall_mem_cons.mp hfuel
    have hread : readStr mem fuel (i * LINE_MAX) = some w :=
      readStr_eq (hrows 0 (by simp)) hw hlen
    have hrest := @ih (i + 1) (fun k hk => by
      have hrow := hrows (k + 1) (by simpa using hk)
      have hat : i + (k + 1) = i + 1 + k := by omega
      rwa [hat] at hrow) h0 hfuel
    rw [List.length_cons, saveLoop, hread]
    simp only [hrest, Option.map_some, joined_cons, List.append_assoc, List.singleton_append]

theorem cutLine_length_lt (w : List UInt8) : (cutLine w).length < LINE_MAX := by
  rw [List.length_take]
  have hmax : LINE_MAX = 256 := rfl
  omega

theorem kept_mem (hw : w ∈ kept rows cur) : ∃ v, (v ∈ rows ∨ v = cur) ∧ w = cutLine v := by
  rcases List.mem_append.mp hw with hw | hw
  · obtain ⟨v, hv, rfl⟩ := List.mem_map.mp hw
    exact ⟨v, .inl (List.mem_of_mem_take hv), rfl⟩
  · split at hw
    · exact ⟨cur, .inr rfl, List.mem_singleton.mp hw⟩
    · exact absurd hw List.not_mem_nil

theorem buf_last (hbuf : HasBytes buf 0 t) :
    (t.length > 0 ∧ setByte buf t.length 0 (t.length - 1) = NEWLINE) ↔
      t.getLast? = some NEWLINE := by
  by_cases hnil : t = []
  · subst hnil
    simp
  · have hpos := List.length_pos_iff.mpr hnil
    have hat := hasBytes_iff.mp hbuf (t.length - 1) (by omega)
    rw [Nat.zero_add] at hat
    rw [setByte_ne _ _ (by omega), hat, List.getLast?_eq_getElem?,
      List.getElem?_eq_getElem (by omega), Option.some_inj, and_iff_right hpos]

theorem readFile_saves (r : Reads f) (buf lines : Bytes) (h : Split NEWLINE f.bytes rows cur) :
    ∃ s, Returns (fun fuel => readFile fuel f r buf lines) s ∧ s.Saves (kept rows cur) ∧
      (s.InTable ↔ HasRoom rows cur) := by
  have hempty : Table.Has ⟨lines, 0, 0, []⟩ [] [] :=
    ⟨rfl, rfl, fun k hk => absurd hk (Nat.not_lt_zero k), trivial,
      fun w hw => absurd hw List.not_mem_nil, by decide, fun a ha => absurd ha List.not_mem_nil⟩
  have hbytes := putBytes_has buf 0 f.bytes
  have hstr : HasStr (setByte (putBytes buf 0 f.bytes) f.bytes.length 0) 0 f.bytes := by
    refine hasStr_iff.mpr ⟨hbytes.congr fun x _ hx => setByte_ne _ _ (by omega), ?_⟩
    rw [Nat.zero_add]
    exact setByte_same ..
  have htable := hempty.lines h.rows h.cur (Nat.zero_le _)
  rw [← h.eq, List.nil_append, List.length_nil, Nat.zero_add, Nat.sub_zero] at htable
  refine ⟨_, ⟨f.bytes.length + 1, fun fuel hfuel => ?_⟩, lastLine_spec htable h (buf_last hbytes)⟩
  have hread : readLoop f r fuel 0 buf = some (f.bytes.length, putBytes buf 0 f.bytes) :=
    readLoop_eq r buf (Nat.zero_le _) (by omega)
  change readFile fuel f r buf lines = _
  rw [readFile, hread]
  dsimp only
  rw [lineLoop_eq hstr f.noNul (by omega)]

theorem kept_noNul (h : Split NEWLINE f.bytes rows cur) (hw : w ∈ kept rows cur) : 0 ∉ w := by
  obtain ⟨v, hv, rfl⟩ := kept_mem hw
  exact fun hc => f.noNul (h.subset hv (List.mem_of_mem_take hc))

theorem kept_short (hw : w ∈ kept rows cur) : w.length < LINE_MAX := by
  obtain ⟨v, -, rfl⟩ := kept_mem hw
  exact cutLine_length_lt v

theorem readFile_saveFile (r : Reads f) (buf lines : Bytes)
    (h : Split NEWLINE f.bytes rows cur) :
    ∃ s, Returns (fun fuel => readFile fuel f r buf lines) s ∧
      Returns (fun fuel => saveFile fuel s) (joined NEWLINE (kept rows cur)) ∧
      (s.InTable ↔ HasRoom rows cur) := by
  obtain ⟨s, hread, hsaves, hin⟩ := readFile_saves r buf lines h
  refine ⟨s, hread, ⟨LINE_MAX, fun fuel hfuel => ?_⟩, hin⟩
  change saveFile fuel s = _
  rw [saveFile, hsaves.num]
  refine saveLoop_eq (fun k hk => ?_) (fun w hw => kept_noNul h hw)
    fun w hw => (kept_short hw).trans_le hfuel
  rw [Nat.zero_add]
  exact hsaves.row k hk

/-- What is saved is the file, perhaps with a newline behind it, and `g_lines` is not left. -/
def LosesNothing (f : TextFile) (r : Reads f) (buf lines : Bytes) : Prop :=
  ∃ s out, Returns (fun fuel => readFile fuel f r buf lines) s ∧
    Returns (fun fuel => saveFile fuel s) out ∧
    (out = f.bytes ∨ out = f.bytes ++ [NEWLINE]) ∧ s.InTable

theorem kept_of_fits (hrows : rows.length < MAX_LINES)
    (hshort : ∀ w ∈ rows ++ [cur], w.length ≤ LINE_MAX - 1) :
    kept rows cur = rows ++ if cur ≠ [] then [cur] else [] := by
  obtain ⟨hshort, hcur⟩ := List.forall_mem_append.mp hshort
  have hcut : cutLine cur = cur := List.take_of_length_le (hcur cur (List.mem_singleton_self _))
  rw [kept, List.take_of_length_le (by omega), map_take_of_short hshort, hcut]
  simp only [hrows, true_and]

theorem rows_lt_of_kept (h : Split NEWLINE t rows cur)
    (hout : joined NEWLINE (kept rows cur) = t ∨ joined NEWLINE (kept rows cur) = t ++ [NEWLINE])
    (hroom : HasRoom rows cur) : rows.length < MAX_LINES := by
  by_contra hlt
  have hkept : kept rows cur = (rows.take MAX_LINES).map cutLine := by
    rw [kept, if_neg fun hno => hlt hno.1, List.append_nil]
  have hle : (joined NEWLINE ((rows.take MAX_LINES).map cutLine)).length ≤
      (joined NEWLINE (rows.take MAX_LINES)).length :=
    length_joined_take_le (LINE_MAX - 1) (rows.take MAX_LINES)
  have htext : t = joined NEWLINE (rows.take MAX_LINES) ++
      (joined NEWLINE (rows.drop MAX_LINES) ++ cur) := by
    rw [← List.append_assoc, ← joined_append, List.take_append_drop, h.eq]
  have hlen := congrArg List.length htext
  rw [List.length_append, List.length_append] at hlen
  rw [hkept] at hout
  have hsaved : t.length ≤ (joined NEWLINE ((rows.take MAX_LINES).map cutLine)).length := by
    rcases hout with hout | hout
    · exact Nat.le_of_eq (congrArg List.length hout).symm
    · have hout := congrArg List.length hout
      rw [List.length_append, List.length_singleton] at hout
      omega
  have hcur : cur = [] := List.length_eq_zero_iff.mp (by omega)
  exact absurd hroom (not_or.mpr ⟨hlt, not_not.mpr hcur⟩)

theorem fits_of_kept (h : Split NEWLINE t rows cur)
    (hout : joined NEWLINE (kept rows cur) = t ∨ joined NEWLINE (kept rows cur) = t ++ [NEWLINE])
    (hroom : HasRoom rows cur) :
    rows.length < MAX_LINES ∧ ∀ w ∈ rows ++ [cur], w.length ≤ LINE_MAX - 1 := by
  have hlt := rows_lt_of_kept h hout hroom
  refine ⟨hlt, ?_⟩
  have htake : rows.take MAX_LINES = rows := List.take_of_length_le (by omega)
  by_cases hcur : cur = []
  · subst hcur
    have hkept : kept rows [] = rows.map cutLine := by
      rw [kept, htake, if_neg fun hno => hno.2 rfl, List.append_nil]
    have heq := h.eq
    rw [List.append_nil] at heq
    rw [hkept, heq] at hout
    have hge : (joined NEWLINE rows).length ≤ (joined NEWLINE (rows.map cutLine)).length := by
      rcases hout with hout | hout
      · exact Nat.le_of_eq (congrArg List.length hout).symm
      · have hle : (joined NEWLINE (rows.map cutLine)).length ≤ (joined NEWLINE rows).length :=
          length_joined_take_le (LINE_MAX - 1) rows
        have hlen := congrArg List.length hout
        rw [List.length_append, List.length_singleton] at hlen
        omega
    exact List.forall_mem_append.mpr ⟨short_of_length_joined_take hge, by simp⟩
  · have hkept : kept rows cur = (rows ++ [cur]).map cutLine := by
      rw [kept, htake, if_pos ⟨hlt, hcur⟩, List.map_append]
      rfl
    have htext : joined NEWLINE (rows ++ [cur]) = t ++ [NEWLINE] := by
      rw [joined_append, joined_cons, joined_nil, h.eq, List.append_assoc]
    rcases hout with hout | hout
    · -- what is saved ends with a newline, and the file does not
      have hlast := (last_newline h).mp (hout ▸ joined_getLast? (by rw [hkept]; simp))
      exact absurd hlast.2 hcur
    · rw [hkept] at hout
      exact short_of_length_joined_take
        (Nat.le_of_eq (congrArg List.length (htext.trans hout.symm)))

theorem LosesNothing.fits {lines : Bytes} (h : LosesNothing f r buf lines) :
    f.bytes.count NEWLINE < MAX_LINES ∧
      ∀ w ∈ f.bytes.splitOn NEWLINE, w.length ≤ LINE_MAX - 1 := by
  obtain ⟨rows, cur, hsplit, hlines, hcount⟩ := exists_split NEWLINE f.bytes
  obtain ⟨s, hread, hsave, hin⟩ := readFile_saveFile r buf lines hsplit
  obtain ⟨s', out, hread', hsave', hout, hin'⟩ := h
  cases hread'.unique hread
  cases hsave'.unique hsave
  rw [hcount, hlines]
  exact fits_of_kept hsplit hout (hin.mp hin')

/-- Nothing is lost exactly when there are fewer than 512 newlines and no line has more than 255
bytes. -/
theorem losesNothing_iff (f : TextFile) (r : Reads f) (buf lines : Bytes) :
    LosesNothing f r buf lines ↔
      f.bytes.count NEWLINE < MAX_LINES ∧
        ∀ w ∈ f.bytes.splitOn NEWLINE, w.length ≤ LINE_MAX - 1 := by
  refine ⟨LosesNothing.fits, ?_⟩
  obtain ⟨rows, cur, hsplit, hlines, hcount⟩ := exists_split NEWLINE f.bytes
  obtain ⟨s, hread, hsave, hin⟩ := readFile_saveFile r buf lines hsplit
  rw [hcount, hlines]
  rintro ⟨hrows, hshort⟩
  refine ⟨s, _, hread, hsave, ?_, hin.mpr (.inl hrows)⟩
  rw [kept_of_fits hrows hshort, hsplit.eq]
  by_cases hcur : cur = []
  · left
    rw [hcur, if_neg (not_not.mpr rfl), List.append_nil, List.append_nil]
  · right
    rw [if_pos hcur, joined_append, joined_cons, joined_nil, List.append_assoc]

def longLine : TextFile where
  bytes := List.replicate 256 97
  noNul h := absurd (List.eq_of_mem_replicate h) (by decide)
  short := by
    rw [List.length_replicate]
    decide

def readAll (f : TextFile) : Reads f where
  n off count := min count (f.bytes.length - off)
  some_left off count hoff hcount := by omega
  at_end off count hoff := by omega

theorem longLine_shortened :
    ¬ LosesNothing longLine (readAll longLine) (fun _ => 0) fun _ => 0 := by
  intro hkeeps
  have hnl : NEWLINE ∉ longLine.bytes := fun h =>
    absurd (List.eq_of_mem_replicate h) (by decide)
  have hline := hkeeps.fits.2 longLine.bytes (by simp [List.splitOn_eq_singleton hnl])
  have hlen : longLine.bytes.length = 256 := List.length_replicate ..
  rw [hlen] at hline
  exact absurd hline (by decide)

end EponaOS.User.Edit
