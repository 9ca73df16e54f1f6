import EponaOS.Lib.Bytes
import Mathlib.Data.List.GetD
import Mathlib.Data.List.TakeWhile

/-!
# The user shell

`tokenize` of `shell.c` cuts a line into words where it stands: a token is a position in the
line, and what ends it is overwritten by a 0. Every write to one of the shell's arrays is
recorded.
-/

namespace EponaOS.User

open Bytes

def LINE_MAX : Nat := 256
def TOKEN_MAX : Nat := 32
def EPP_MAX_INSTALLED : Nat := 32

abbrev CStr := List UInt8

def chars (l : List Char) : CStr := l.map Char.toUInt8

/-- The arrays of the shell; the last three are the fields of an entry of the table. -/
inductive Buf
  | line
  | pipeBuf
  | tokens
  | path
  | repo
  | manifest
  | name
  | version
  | file
  | installedName (i : Nat)
  | installedVersion (i : Nat)
  | installedFile (i : Nat)
  deriving DecidableEq

def Buf.size : Buf → Nat
  | .line => LINE_MAX
  | .pipeBuf => LINE_MAX
  | .tokens => TOKEN_MAX
  | .path => 64
  | .repo => 512
  | .manifest => 512
  | .name => 32
  | .version => 16
  | .file => 64
  | .installedName i => if i < EPP_MAX_INSTALLED then 32 else 0
  | .installedVersion i => if i < EPP_MAX_INSTALLED then 16 else 0
  | .installedFile i => if i < EPP_MAX_INSTALLED then 64 else 0

structure Write where
  buf : Buf
  index : Nat
  deriving DecidableEq

def Write.Inside (w : Write) : Prop := w.index < w.buf.size

def cstrFrom (m : Bytes) : Nat → Nat → CStr
  | 0, _ => []
  | n + 1, p => if m p = 0 then [] else m p :: cstrFrom m n (p + 1)

def cstrAt (line : Bytes) (p : Nat) : CStr := cstrFrom line (LINE_MAX - p) p

-- ---------------------------------------------------------------------------
-- Words
-- ---------------------------------------------------------------------------

def isBlank (c : UInt8) : Bool := c = ' '.toUInt8 || c = '\t'.toUInt8

/-- What `tokenize` stops at. -/
def isDelim (c : UInt8) : Bool :=
  isBlank c || c = '|'.toUInt8 || c = '>'.toUInt8 || c = '<'.toUInt8

structure Tokens where
  line : Bytes
  tokens : List Nat
  writes : List Write

/-- The loop of `tokenize` from `p` on, a bound on its turns first. `buf` is the array that
the line is in. -/
def tokenizeLoop (buf : Buf) (max : Nat) : Nat → Nat → Tokens → Option Tokens
  | 0, _, _ => none
  | n + 1, p, t =>
    if t.line p = 0 then some t
    else
      let p := p + ((cstrAt t.line p).takeWhile isBlank).length
      if t.line p = 0 then some t
      else if max - 1 ≤ t.tokens.length then some t
      else
        let t := { t with
          tokens := t.tokens ++ [p]
          writes := t.writes ++ [⟨.tokens, t.tokens.length⟩] }
        let p := p + ((cstrAt t.line p).takeWhile (!isDelim ·)).length
        if t.line p = 0 then tokenizeLoop buf max n p t
        else
          tokenizeLoop buf max n (p + 1)
            { t with line := setByte t.line p 0, writes := t.writes ++ [⟨buf, p⟩] }

def tokenize (buf : Buf) (line : Bytes) (max : Nat) : Option Tokens :=
  (tokenizeLoop buf max LINE_MAX 0 { line := line, tokens := [], writes := [] }).map fun t =>
    { t with writes := t.writes ++ [⟨.tokens, t.tokens.length⟩] }

def Tokens.args (t : Tokens) : List CStr := t.tokens.map (cstrAt t.line)

def hasPipe (line : CStr) : Bool := line.any (· = '|'.toUInt8)

/-- `strcmp` with `>` and with `>>`. -/
def isRedir (s : CStr) : Bool := s = chars ['>'] || s = chars ['>', '>']

/-- The token behind the operator; behind the last token there is none, and no more turn. -/
def findRedirOut (line : Bytes) : List Nat → Option Nat
  | [] => none
  | t :: tokens => if isRedir (cstrAt line t) then tokens.head? else findRedirOut line tokens

/-- What `exec_cmd` makes of the tokens: the file to redirect to, and the arguments. -/
def redirect (t : Tokens) : Option CStr × List CStr × List Write :=
  match findRedirOut t.line t.tokens with
  | none => (none, t.args, [])
  | some file =>
    let i := t.args.findIdx isRedir
    (some (cstrAt t.line file), t.args.take i, [⟨.tokens, i⟩])

-- ---------------------------------------------------------------------------
-- What the words of a line are
-- ---------------------------------------------------------------------------

structure Line where
  text : CStr
  fits : text.length < LINE_MAX
  noNul : 0 ∉ text

def lineBytes (text : CStr) : Bytes := fun i => text.getD i 0

/-- Words, each one ended by the character behind it; the bound is on how many. -/
def wordsFrom : Nat → CStr → List CStr
  | 0, _ => []
  | n + 1, s =>
    match s.dropWhile isBlank with
    | [] => []
    | c :: rest =>
      (c :: rest).takeWhile (!isDelim ·) ::
        wordsFrom n (((c :: rest).dropWhile (!isDelim ·)).drop 1)

def words (text : CStr) : List CStr := (wordsFrom LINE_MAX text).take (TOKEN_MAX - 1)

def HoldsStr (m : Bytes) : Nat → CStr → Prop
  | p, [] => m p = 0
  | p, c :: s => m p = c ∧ c ≠ 0 ∧ HoldsStr m (p + 1) s

variable {m m' : Bytes} {p : Nat} {s : CStr}

theorem HoldsStr.cstrFrom_eq (h : HoldsStr m p s) (hn : s.length ≤ n) : cstrFrom m n p = s := by
  induction s generalizing p n with
  | nil =>
    cases n with
    | zero => rfl
    | succ n => exact if_pos h
  | cons c s ih =>
    obtain ⟨hc, hne, hrest⟩ := h
    cases n with
    | zero => cases hn
    | succ n =>
      rw [cstrFrom, hc, if_neg hne, ih hrest (Nat.le_of_succ_le_succ hn)]

theorem HoldsStr.cstrAt_eq (h : HoldsStr m p s) (hn : p + s.length < LINE_MAX) :
    cstrAt m p = s := h.cstrFrom_eq (by omega)

theorem HoldsStr.congr (h : HoldsStr m p s) (heq : ∀ i, p ≤ i → i ≤ p + s.length → m' i = m i) :
    HoldsStr m' p s := by
  induction s generalizing p with
  | nil => exact (heq p (Nat.le_refl p) (Nat.le_add_right ..)).trans h
  | cons c s ih =>
    obtain ⟨hc, hne, hrest⟩ := h
    rw [List.length_cons] at heq
    refine ⟨(heq p (Nat.le_refl p) (Nat.le_add_right ..)).trans hc, hne, ih hrest ?_⟩
    intro i hlo hhi
    exact heq i (by omega) (by omega)

theorem HoldsStr.skip (h : HoldsStr m p s) (f : UInt8 → Bool) :
    HoldsStr m (p + (s.takeWhile f).length) (s.dropWhile f) := by
  induction s generalizing p with
  | nil => exact h
  | cons c s ih =>
    rw [List.takeWhile_cons, List.dropWhile_cons]
    split
    · have hrest := ih h.2.2
      rw [Nat.add_assoc, Nat.add_comm 1] at hrest
      exact hrest
    · exact h

theorem HoldsStr.cut (h : HoldsStr m p (s ++ c :: rest)) :
    HoldsStr (setByte m (p + s.length) 0) p s ∧
      HoldsStr (setByte m (p + s.length) 0) (p + s.length + 1) rest := by
  induction s generalizing p with
  | nil =>
    obtain ⟨-, -, hrest⟩ := h
    refine ⟨setByte_same .., hrest.congr fun i hlo _ => setByte_ne _ _ ?_⟩
    rw [List.length_nil]
    omega
  | cons d s ih =>
    obtain ⟨hd, hne, hrest⟩ := h
    obtain ⟨hword, hbehind⟩ := ih hrest
    have hat : p + 1 + s.length = p + (d :: s).length := by
      rw [List.length_cons]
      omega
    rw [hat] at hword hbehind
    refine ⟨⟨?_, hne, hword⟩, hbehind⟩
    rw [setByte_ne _ _ (by rw [List.length_cons]; omega), hd]

theorem holdsStr_lineBytes (l : Line) : HoldsStr (lineBytes l.text) 0 l.text := by
  have hfrom (done rest : CStr) (hnul : 0 ∉ rest) :
      HoldsStr (lineBytes (done ++ rest)) done.length rest := by
    induction rest generalizing done with
    | nil =>
      rw [HoldsStr, lineBytes, List.append_nil, List.getD_eq_default _ _ (Nat.le_refl _)]
    | cons c rest ih =>
      rw [List.mem_cons, not_or] at hnul
      have hnext := ih (done ++ [c]) hnul.2
      rw [List.append_assoc, List.length_append] at hnext
      refine ⟨?_, fun h => hnul.1 h.symm, hnext⟩
      rw [lineBytes, List.getD_append_right _ _ _ _ (Nat.le_refl _), Nat.sub_self]
      rfl
  exact hfrom [] l.text l.noNul

-- ---------------------------------------------------------------------------
-- The loop finds the words
-- ---------------------------------------------------------------------------

theorem HoldsStr.zero_iff (h : HoldsStr m p s) : m p = 0 ↔ s = [] := by
  cases s with
  | nil => exact iff_of_true h rfl
  | cons c s =>
    have hne : m p ≠ 0 := fun hzero => h.2.1 (h.1.symm.trans hzero)
    exact iff_of_false hne (List.cons_ne_nil c s)

theorem wordsFrom_nil (n : Nat) : wordsFrom n [] = [] := by
  cases n <;> rfl

theorem wordsFrom_blank (h : s.dropWhile isBlank = []) : wordsFrom (n + 1) s = [] := by
  rw [wordsFrom, h]

theorem wordsFrom_cons (h : s.dropWhile isBlank = c :: rest) :
    wordsFrom (n + 1) s = (c :: rest).takeWhile (!isDelim ·) ::
      wordsFrom n (((c :: rest).dropWhile (!isDelim ·)).drop 1) := by
  rw [wordsFrom, h]

structure Scanned (t t' : Tokens) (p : Nat) (ws : List CStr) : Prop where
  kept : ∀ i < p, t'.line i = t.line i
  added : ∃ new, t'.tokens = t.tokens ++ new ∧ new.map (cstrAt t'.line) = ws
  room : t'.tokens.length ≤ TOKEN_MAX - 1
  inside : (∀ w ∈ t.writes, w.Inside) → ∀ w ∈ t'.writes, w.Inside

theorem Scanned.none (hroom : t.tokens.length ≤ TOKEN_MAX - 1) : Scanned t t p [] :=
  ⟨fun _ _ => rfl, ⟨[], (List.append_nil _).symm, rfl⟩, hroom, fun h => h⟩

theorem inside_append {ws ws' : List Write} (h : ∀ w ∈ ws, w.Inside) (h' : ∀ w ∈ ws', w.Inside) :
    ∀ w ∈ ws ++ ws', w.Inside := by
  intro w hw
  rcases List.mem_append.mp hw with hw | hw
  · exact h w hw
  · exact h' w hw

theorem tokenizeLoop_spec (hbuf : buf.size = LINE_MAX) (n : Nat) :
    ∀ {p s t}, HoldsStr t.line p s → p + s.length < LINE_MAX → s.length < n →
      t.tokens.length ≤ TOKEN_MAX - 1 →
      ∃ t', tokenizeLoop buf TOKEN_MAX n p t = some t' ∧
        Scanned t t' p ((wordsFrom n s).take (TOKEN_MAX - 1 - t.tokens.length)) := by
  induction n with
  | zero => exact fun _ _ hn => absurd hn (Nat.not_lt_zero _)
  | succ n ih =>
    intro p s t h hfits hn hroom
    rw [tokenizeLoop]
    by_cases hend : t.line p = 0
    · rw [if_pos hend, h.zero_iff.mp hend, wordsFrom_nil, List.take_nil]
      exact ⟨t, rfl, .none hroom⟩
    rw [if_neg hend]
    dsimp only
    rw [h.cstrAt_eq hfits]
    have hlens := congrArg List.length (List.takeWhile_append_dropWhile (p := isBlank) (l := s))
    rw [List.length_append] at hlens
    have hword := h.skip isBlank
    generalize hat : p + (s.takeWhile isBlank).length = p1 at hword
    cases hs1 : s.dropWhile isBlank with
    | nil =>
      rw [hs1] at hword
      rw [if_pos (hword.zero_iff.mpr rfl), wordsFrom_blank hs1, List.take_nil]
      exact ⟨t, rfl, .none hroom⟩
    | cons c rest =>
      rw [hs1] at hword hlens
      have hgo : ¬ t.line p1 = 0 := fun hzero => List.cons_ne_nil c rest (hword.zero_iff.mp hzero)
      rw [if_neg hgo]
      by_cases hfull : TOKEN_MAX - 1 ≤ t.tokens.length
      · rw [if_pos hfull, Nat.sub_eq_zero_of_le hfull, List.take_zero]
        exact ⟨t, rfl, .none hroom⟩
      have htoken : (⟨.tokens, t.tokens.length⟩ : Write).Inside := by
        change t.tokens.length < TOKEN_MAX
        omega
      rw [if_neg hfull, wordsFrom_cons hs1, hword.cstrAt_eq (by omega)]
      have hbehind := hword.skip (!isDelim ·)
      have hsplit := List.takeWhile_append_dropWhile (p := (!isDelim ·)) (l := c :: rest)
      generalize (c :: rest).takeWhile (!isDelim ·) = w at hbehind hsplit ⊢
      cases hs2 : (c :: rest).dropWhile (!isDelim ·) with
      | nil =>
        -- the word is the last one of the line
        rw [hs2] at hbehind hsplit
        rw [List.append_nil] at hsplit
        rw [if_pos (hbehind.zero_iff.mpr rfl), List.drop_nil, wordsFrom_nil]
        have hsome : s ≠ [] := fun hnil => hend (h.zero_iff.mpr hnil)
        have hpos := List.length_pos_iff.mpr hsome
        obtain ⟨k, rfl⟩ : ∃ k, n = k + 1 := ⟨n - 1, by omega⟩
        rw [tokenizeLoop, if_pos (hbehind.zero_iff.mpr rfl)]
        refine ⟨_, rfl, fun _ _ => rfl, ⟨[p1], rfl, ?_⟩, ?_, fun hall => ?_⟩
        · have hstr : cstrAt t.line p1 = c :: rest := hword.cstrAt_eq (by omega)
          have hone : [w].length ≤ TOKEN_MAX - 1 - t.tokens.length := by
            rw [List.length_singleton]
            omega
          rw [List.take_of_length_le hone, hsplit]
          exact congrArg (· :: []) hstr
        · rw [List.length_append, List.length_singleton]
          omega
        · exact inside_append hall (List.forall_mem_singleton.mpr htoken)
      | cons d rest' =>
        rw [hs2] at hbehind hsplit
        have hlen := congrArg List.length hsplit
        rw [List.length_append, List.length_cons] at hlen
        have hgo' : ¬ t.line (p1 + w.length) = 0 :=
          fun hzero => List.cons_ne_nil d rest' (hbehind.zero_iff.mp hzero)
        rw [← hsplit] at hword
        obtain ⟨hcut, hrest⟩ := hword.cut
        rw [if_neg hgo', List.drop_one, List.tail_cons]
        obtain ⟨t', hloop, hscan⟩ := ih (t := ⟨setByte t.line (p1 + w.length) 0, t.tokens ++ [p1],
          t.writes ++ [⟨.tokens, t.tokens.length⟩] ++ [⟨buf, p1 + w.length⟩]⟩) hrest (by omega)
          (by omega) (by rw [List.length_append, List.length_singleton]; omega)
        refine ⟨t', hloop, fun i hi => ?_, ?_, hscan.room, fun hall => hscan.inside ?_⟩
        · rw [hscan.kept i (by omega)]
          exact setByte_ne _ _ (by omega)
        · obtain ⟨new, htokens, hnew⟩ := hscan.added
          refine ⟨p1 :: new, ?_, ?_⟩
          · rw [htokens, List.append_assoc, List.singleton_append]
          · have hmore : TOKEN_MAX - 1 - t.tokens.length =
                TOKEN_MAX - 1 - (t.tokens ++ [p1]).length + 1 := by
              rw [List.length_append, List.length_singleton]
              omega
            have hw := hcut.congr fun i _ hhi => hscan.kept i (by omega)
            rw [List.map_cons, hnew, hw.cstrAt_eq (by omega), hmore, List.take_succ_cons]
        · refine inside_append (inside_append hall (List.forall_mem_singleton.mpr htoken)) ?_
          refine List.forall_mem_singleton.mpr ?_
          rw [Write.Inside, hbuf]
          change p1 + w.length < LINE_MAX
          omega

theorem tokenize_spec (hbuf : buf.size = LINE_MAX) (l : Line) :
    ∃ t, tokenize buf (lineBytes l.text) TOKEN_MAX = some t ∧ t.args = words l.text ∧
      ∀ w ∈ t.writes, w.Inside := by
  have hfits := l.fits
  obtain ⟨t, hloop, hscan⟩ := tokenizeLoop_spec hbuf LINE_MAX (t := ⟨lineBytes l.text, [], []⟩)
    (holdsStr_lineBytes l) (by omega) hfits (Nat.zero_le _)
  obtain ⟨new, htokens, hnew⟩ := hscan.added
  rw [List.nil_append] at htokens
  refine ⟨_, congrArg (Option.map _) hloop, ?_, ?_⟩
  · rw [words, ← htokens] at *
    exact hnew
  · refine inside_append (hscan.inside (List.forall_mem_nil _)) (List.forall_mem_singleton.mpr ?_)
    have hroom := hscan.room
    change t.tokens.length < TOKEN_MAX
    have hmax : TOKEN_MAX = 32 := rfl
    omega

theorem mem_wordsFrom (n : Nat) (s : CStr) : ∀ w ∈ wordsFrom n s, ∀ c ∈ w, isDelim c = false := by
  induction n generalizing s with
  | zero => exact List.forall_mem_nil _
  | succ n ih =>
    cases hs : s.dropWhile isBlank with
    | nil =>
      rw [wordsFrom_blank hs]
      exact List.forall_mem_nil _
    | cons c rest =>
      rw [wordsFrom_cons hs, List.forall_mem_cons]
      refine ⟨fun d hd => ?_, ih _⟩
      have hnot := List.mem_takeWhile_imp hd
      rwa [Bool.not_eq_true'] at hnot

theorem word_delim {w : CStr} (h : w ∈ words text) : ∀ c ∈ w, isDelim c = false :=
  mem_wordsFrom LINE_MAX text w (List.mem_of_mem_take h)

end EponaOS.User
