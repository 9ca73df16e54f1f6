import EponaOS.User.Shell

/-!
# Redirection in the user shell

`find_redir_out` looks for a token that is `>` or `>>`. The tokenizer ends a word at a `>`
and overwrites it, so no token has one in it.
-/

namespace EponaOS.User

def IsGap (g : CStr) : Prop := ∀ c ∈ g, isBlank c

def IsWord (w : CStr) : Prop := w ≠ [] ∧ ∀ c ∈ w, isDelim c = false ∧ c ≠ 0

theorem isGap_of_all (h : g.all isBlank = true) : IsGap g := List.all_eq_true.mp h

theorem isWord_of_all (hne : w ≠ []) (h : w.all (fun c => !isDelim c && c != 0) = true) :
    IsWord w := by
  refine ⟨hne, fun c hc => ?_⟩
  have hboth := List.all_eq_true.mp h c hc
  rw [Bool.and_eq_true, Bool.not_eq_true', bne_iff_ne] at hboth
  exact hboth

structure Spaced where
  gap : CStr
  word : CStr
  isGap : IsGap gap
  isWord : IsWord word

def Spaced.text (s : Spaced) : CStr := s.gap ++ s.word

structure RedirLine where
  command : Spaced
  /-- The gaps between words are not empty. -/
  arguments : List {s : Spaced // s.gap ≠ []}
  before : CStr
  append : Bool
  file : Spaced
  behind : CStr
  isGap : IsGap before ∧ IsGap behind
  fits : ((command :: arguments.map Subtype.val).flatMap Spaced.text ++ before ++
    (if append then chars ['>', '>'] else chars ['>']) ++ file.text ++ behind).length < LINE_MAX

def RedirLine.spaced (r : RedirLine) : List Spaced := r.command :: r.arguments.map Subtype.val

def RedirLine.words (r : RedirLine) : List CStr := r.spaced.map Spaced.word

def RedirLine.operator (r : RedirLine) : CStr :=
  if r.append then chars ['>', '>'] else chars ['>']

def RedirLine.text (r : RedirLine) : CStr :=
  r.spaced.flatMap Spaced.text ++ r.before ++ r.operator ++ r.file.text ++ r.behind

/-- The file is found, and the command gets the words in front of the operator. -/
def Recognised (r : RedirLine) : Prop :=
  ∃ t, tokenize .line (lineBytes r.text) TOKEN_MAX = some t ∧
    (findRedirOut t.line t.tokens).map (cstrAt t.line) = some r.file.word ∧
    (redirect t).2.1 = r.words

theorem IsGap.noNul (h : IsGap g) : 0 ∉ g := fun hmem => absurd (h 0 hmem) (by decide)

theorem Spaced.noNul (s : Spaced) : 0 ∉ s.text := by
  intro hmem
  rcases List.mem_append.mp hmem with h | h
  · exact s.isGap.noNul h
  · exact (s.isWord.2 0 h).2 rfl

theorem RedirLine.noNul (r : RedirLine) : 0 ∉ r.text := by
  have hop : 0 ∉ r.operator := by
    rw [operator]
    split <;> decide
  have hspaced : 0 ∉ r.spaced.flatMap Spaced.text := by
    intro hmem
    obtain ⟨s, -, hs⟩ := List.mem_flatMap.mp hmem
    exact s.noNul hs
  simp only [text, List.mem_append, not_or]
  exact ⟨⟨⟨⟨hspaced, r.isGap.1.noNul⟩, hop⟩, r.file.noNul⟩, r.isGap.2.noNul⟩

def RedirLine.line (r : RedirLine) : Line := ⟨r.text, r.fits, r.noNul⟩

theorem findRedirOut_none (h : ∀ t ∈ tokens, isRedir (cstrAt line t) = false) :
    findRedirOut line tokens = none := by
  induction tokens with
  | nil => rfl
  | cons t tokens ih =>
    rw [List.forall_mem_cons] at h
    rw [findRedirOut, h.1, if_neg Bool.false_ne_true, ih h.2]

theorem isRedir_word {w : CStr} (h : ∀ c ∈ w, isDelim c = false) : isRedir w = false := by
  rw [isRedir, Bool.or_eq_false_iff, decide_eq_false_iff_not, decide_eq_false_iff_not]
  have hdelim : isDelim '>'.toUInt8 ≠ false := by decide
  constructor
  · rintro rfl
    exact hdelim (h _ List.mem_cons_self)
  · rintro rfl
    exact hdelim (h _ List.mem_cons_self)

theorem findRedirOut_tokenize (l : Line)
    (h : tokenize buf (lineBytes l.text) TOKEN_MAX = some t) (hbuf : buf.size = LINE_MAX) :
    findRedirOut t.line t.tokens = none := by
  obtain ⟨t', ht', hargs, -⟩ := tokenize_spec hbuf l
  cases h.symm.trans ht'
  refine findRedirOut_none fun p hp => isRedir_word ?_
  have hword : cstrAt t.line p ∈ words l.text := hargs ▸ List.mem_map_of_mem hp
  exact word_delim hword

/-- Whatever the words and the spaces are, the file is not found. -/
theorem never_recognised (r : RedirLine) : ¬ Recognised r := by
  rintro ⟨t, ht, hfile, -⟩
  rw [findRedirOut_tokenize r.line ht rfl] at hfile
  cases hfile

def blank : CStr := chars [' ']

theorem blank_isGap : IsGap blank := isGap_of_all rfl

def echoLine : RedirLine where
  command := ⟨[], chars ['e', 'c', 'h', 'o'], List.forall_mem_nil _,
    isWord_of_all (List.cons_ne_nil _ _) rfl⟩
  arguments := [⟨⟨blank, chars ['h', 'i'], blank_isGap, isWord_of_all (List.cons_ne_nil _ _) rfl⟩,
    List.cons_ne_nil _ _⟩]
  before := blank
  append := false
  file := ⟨blank, chars ['f'], blank_isGap, isWord_of_all (List.cons_ne_nil _ _) rfl⟩
  behind := []
  isGap := ⟨blank_isGap, List.forall_mem_nil _⟩
  fits := by decide

/-- `echo hi > f` prints `hi`, an empty word and `f`. -/
theorem echo_not_redirected : ¬ Recognised echoLine ∧
    (tokenize .line (lineBytes echoLine.text) TOKEN_MAX).map (fun t => (redirect t).2.1) =
      some [chars ['e', 'c', 'h', 'o'], chars ['h', 'i'], [], chars ['f']] := by
  constructor
  · rintro ⟨t, ht, hfile, -⟩
    rw [findRedirOut_tokenize echoLine.line ht rfl] at hfile
    cases hfile
  · decide +kernel

end EponaOS.User
