import EponaOS.Lib.Run
import EponaOS.Lib.Slots
import EponaOS.User.ShellWrites

/-!
# Packages

What `epp` keeps. The table of the installed packages is a map from names to versions and
files: an installation adds a name or replaces what it had, unless the table is full, and a
removal takes the name out. A manifest is found again as it was written, each value cut to
the array that it goes to.
-/

namespace EponaOS.User

open Function (update)

def Installed.table (inst : Installed) : Nat → Option (CStr × CStr × CStr) := fun i =>
  if (inst i).used then some ((inst i).name, (inst i).version, (inst i).file) else none

/-- What `installed_list` prints for these packages. -/
def listing (ps : List (CStr × CStr × CStr)) : CStr :=
  if ps = [] then chars [' ', ' ', '(', 'n', 'o', 'n', 'e', ')', '\n']
  else ps.flatMap fun p => chars [' ', ' '] ++ p.1 ++ chars [' '] ++ p.2.1 ++
    chars [' ', '-', '>', ' '] ++ p.2.2 ++ chars ['\n']

def installedList (inst : Installed) : CStr :=
  listing ((List.range EPP_MAX_INSTALLED).filterMap inst.table)

def epkEntry (env : Env) (path : CStr) : Option (CStr × CStr × CStr) := do
  let manifest ← (readFile env path .manifest 512).1
  let name ← (getValue manifest (chars ['n', 'a', 'm', 'e']) .name 32).1
  let version ← (getValue manifest (chars ['v', 'e', 'r', 's', 'i', 'o', 'n']) .version 16).1
  let file ← (getValue manifest (chars ['f', 'i', 'l', 'e']) .file 64).1
  if (env.files file).isNone then none else some (name, version, file)

-- ---------------------------------------------------------------------------
-- What the table stands for
-- ---------------------------------------------------------------------------

abbrev Db := CStr → Option (CStr × CStr)

inductive DbOp
  | install (name version file : CStr)
  | remove (name : CStr)

def Db.Full (db : Db) : Prop := {name | db name ≠ none}.ncard = EPP_MAX_INSTALLED

open Classical in
noncomputable def Db.apply (db : Db) : DbOp → Db
  | .install name version file =>
    if db name = none ∧ db.Full then db else update db name (some (version, file))
  | .remove name => update db name none

noncomputable def Db.step (db : Db) (op : Option DbOp) : Db := op.elim db db.apply

def eppOp (env : Env) : List CStr → Option DbOp
  | cmd :: sub :: pkg :: _ =>
    if cmd ≠ eppName then none
    else if sub = chars ['r', 'e', 'm', 'o', 'v', 'e'] then some (.remove pkg)
    else if sub = chars ['i', 'n', 's', 't', 'a', 'l', 'l'] then
      (epkEntry env (packagePath pkg).1).map fun p => .install p.1 p.2.1 p.2.2
    else none
  | _ => none

def lineOp (env : Env) (l : Line) : Option DbOp :=
  if l.text = [] then none
  else if hasPipe l.text then
    if env.pipe then eppOp env (words (pipeSide l.text env.fork)) else none
  else eppOp env (words l.text)

def Installed.db (inst : Installed) : Db := tableGet EPP_MAX_INSTALLED inst.table

def Installed.Distinct (inst : Installed) : Prop := OneEach EPP_MAX_INSTALLED inst.table

variable {inst inst' : Installed} {env : Env} {name version file path : CStr}

theorem installedFind_eq (inst : Installed) (name : CStr) :
    installedFind inst name = keySlot EPP_MAX_INSTALLED inst.table name := by
  rw [installedFind, keySlot]
  congr 1
  funext i
  rw [Installed.table]
  cases (inst i).used <;> simp

theorem freeSlot_eq (inst : Installed) :
    freeSlot EPP_MAX_INSTALLED inst.table =
      (List.range EPP_MAX_INSTALLED).find? fun i => !(inst i).used := by
  rw [freeSlot]
  congr 1
  funext i
  rw [Installed.table]
  cases (inst i).used <;> simp

theorem installedRemove_db (h : inst.Distinct) (name : CStr) :
    (installedRemove inst name).Distinct ∧
      (installedRemove inst name).db = inst.db.apply (.remove name) := by
  rw [installedRemove, installedFind_eq, Db.apply]
  cases hslot : keySlot EPP_MAX_INSTALLED inst.table name with
  | none =>
    have hnone : inst.db name = none := tableGet_of_keySlot_none hslot
    exact ⟨h, (Function.update_eq_self_iff.mpr hnone.symm).symm⟩
  | some idx =>
    have htable : Installed.table (fun i => if i = idx then { inst i with used := false }
        else inst i) = update inst.table idx none := by
      funext i
      by_cases hi : i = idx
      · subst hi
        simp [Installed.table]
      · simp [Installed.table, hi]
    have hdrop := OneEach.drop h hslot
    rw [← htable] at hdrop
    exact hdrop

theorem installedAdd_db (h : inst.Distinct) (name version file : CStr) :
    ((installedAdd inst name version file).1.getD inst).Distinct ∧
      ((installedAdd inst name version file).1.getD inst).db =
        inst.db.apply (.install name version file) := by
  have hput : ∀ idx, keySlot EPP_MAX_INSTALLED inst.table name = some idx ∨
      (keySlot EPP_MAX_INSTALLED inst.table name = none ∧
        freeSlot EPP_MAX_INSTALLED inst.table = some idx) →
      Installed.Distinct (fun i => if i = idx then ⟨name, version, file, true⟩ else inst i) ∧
        Installed.db (fun i => if i = idx then ⟨name, version, file, true⟩ else inst i) =
          update inst.db name (some (version, file)) := by
    intro idx hidx
    have htable : Installed.table (fun i => if i = idx then ⟨name, version, file, true⟩
        else inst i) = update inst.table idx (some (name, version, file)) := by
      funext i
      by_cases hi : i = idx
      · subst hi
        simp [Installed.table]
      · simp [Installed.table, hi]
    have hput := OneEach.put h hidx (version, file)
    rw [← htable] at hput
    exact hput
  rw [installedAdd, installedSlot, installedFind_eq, ← freeSlot_eq, Db.apply]
  cases hslot : keySlot EPP_MAX_INSTALLED inst.table name with
  | some idx =>
    have hthere : inst.db name ≠ none := by
      obtain ⟨hlt, v, hv⟩ := keySlot_some hslot
      rw [Installed.db, (tableGet_eq_some h).mpr ⟨idx, hlt, hv⟩]
      exact Option.some_ne_none v
    rw [if_neg fun hfull => hthere hfull.1]
    exact hput idx (.inl hslot)
  | none =>
    have hnone : inst.db name = none := tableGet_of_keySlot_none hslot
    have hfull := freeSlot_none_iff h
    cases hfree : freeSlot EPP_MAX_INSTALLED inst.table with
    | none =>
      rw [if_pos ⟨hnone, hfull.mp hfree⟩]
      exact ⟨h, rfl⟩
    | some idx =>
      rw [if_neg fun hno => by rw [hfull.mpr hno.2] at hfree; cases hfree]
      exact hput idx (.inr ⟨hslot, hfree⟩)

-- ---------------------------------------------------------------------------
-- Commands
-- ---------------------------------------------------------------------------

theorem epkInstall_eq (env : Env) (inst : Installed) (path : CStr) :
    (epkInstall env inst path).1 = (epkEntry env path).elim inst
      fun p => (installedAdd inst p.1 p.2.1 p.2.2).1.getD inst := by
  rw [epkInstall, epkEntry]
  rcases readFile env path .manifest 512 with ⟨_ | manifest, ws⟩
  · rfl
  dsimp only
  rcases hname : getValue manifest (chars ['n', 'a', 'm', 'e']) .name 32 with ⟨_ | name, ws1⟩
  · simp [hname]
  dsimp only
  rcases hversion : getValue manifest (chars ['v', 'e', 'r', 's', 'i', 'o', 'n']) .version 16 with
    ⟨_ | version, ws2⟩
  · simp [hname, hversion]
  dsimp only
  rcases hfile : getValue manifest (chars ['f', 'i', 'l', 'e']) .file 64 with ⟨_ | file, ws3⟩
  · simp [hname, hversion, hfile]
  dsimp only
  simp only [Option.bind_eq_bind, Option.bind_some, hname, hversion, hfile]
  split <;> rfl

theorem Db.step_none (db : Db) : db.step none = db := rfl

theorem cmdEpp_db (h : inst.Distinct) (env : Env) (rest : List CStr) :
    (cmdEpp env inst (eppName :: rest)).1.Distinct ∧
      (cmdEpp env inst (eppName :: rest)).1.db = inst.db.step (eppOp env (eppName :: rest)) := by
  rcases rest with _ | ⟨sub, rest⟩
  · exact ⟨h, rfl⟩
  unfold cmdEpp
  dsimp only
  by_cases hrem : sub = chars ['r', 'e', 'm', 'o', 'v', 'e']
  · subst hrem
    rw [if_neg (by decide), if_neg (by decide), if_neg (by decide), if_neg (by decide), if_pos rfl]
    cases rest with
    | nil => exact ⟨h, rfl⟩
    | cons pkg rest => exact installedRemove_db h pkg
  by_cases hins : sub = chars ['i', 'n', 's', 't', 'a', 'l', 'l']
  · subst hins
    rw [if_neg (by decide), if_neg (by decide), if_neg (by decide), if_neg (by decide),
      if_neg (by decide), if_neg (by decide), if_pos rfl]
    cases rest with
    | nil => exact ⟨h, rfl⟩
    | cons pkg rest =>
      rw [eppOp, if_neg (not_not.mpr rfl), if_neg hrem, if_pos rfl]
      dsimp only
      rw [epkInstall_eq]
      cases epkEntry env (packagePath pkg).1 with
      | none => exact ⟨h, rfl⟩
      | some p => exact installedAdd_db h p.1 p.2.1 p.2.2
  · have hop : eppOp env (eppName :: sub :: rest) = none := by
      cases rest with
      | nil => rfl
      | cons pkg rest => rw [eppOp, if_neg (not_not.mpr rfl), if_neg hrem, if_neg hins]
    rw [hop, Db.step_none, if_neg hrem, if_neg hins]
    split_ifs
    · exact ⟨h, rfl⟩
    · exact ⟨h, rfl⟩
    · exact ⟨h, rfl⟩
    · exact ⟨h, rfl⟩
    · cases rest <;> exact ⟨h, rfl⟩
    · exact ⟨h, rfl⟩

theorem eppOp_of_ne (env : Env) {cmd : CStr} {rest : List CStr} (h : cmd ≠ eppName) :
    eppOp env (cmd :: rest) = none := by
  rcases rest with _ | ⟨sub, _ | ⟨pkg, rest⟩⟩
  · rfl
  · rfl
  · rw [eppOp, if_pos h]

theorem execCmd_db (h : inst.Distinct) (env : Env) {t : Tokens}
    (hredir : findRedirOut t.line t.tokens = none) :
    (execCmd env inst t).1.Distinct ∧
      (execCmd env inst t).1.db = inst.db.step (eppOp env t.args) := by
  have hredirect : redirect t = (none, t.args, []) := by rw [redirect, hredir]
  rw [execCmd, hredirect]
  dsimp only
  cases t.args with
  | nil => exact ⟨h, rfl⟩
  | cons cmd rest =>
    dsimp only
    by_cases hepp : cmd = eppName
    · subst hepp
      rw [if_neg (by decide), if_pos rfl]
      exact cmdEpp_db h env rest
    · rw [eppOp_of_ne env hepp, Db.step_none]
      split_ifs <;> exact ⟨h, rfl⟩

theorem runText_db (h : inst.Distinct) (env : Env) (buf : Buf) (hbuf : buf.size = LINE_MAX)
    (l : Line) : (runText env inst buf l.text).1.Distinct ∧
      (runText env inst buf l.text).1.db = inst.db.step (eppOp env (words l.text)) := by
  obtain ⟨t, htokens, hargs, -⟩ := tokenize_spec hbuf l
  rw [runText, htokens, ← hargs]
  exact execCmd_db h env (findRedirOut_tokenize l htokens hbuf)

theorem mainLine_db (h : inst.Distinct) (env : Env) (l : Line) (hexit : ¬ isExit l.text) :
    (mainLine env inst l).1.Distinct ∧
      (mainLine env inst l).1.db = inst.db.step (lineOp env l) := by
  rw [mainLine, lineOp]
  by_cases hempty : l.text = []
  · rw [if_pos hempty, if_pos hempty]
    exact ⟨h, rfl⟩
  rw [if_neg hempty, if_neg hempty, if_neg hexit]
  by_cases hpipe : hasPipe l.text = true
  · rw [if_pos hpipe, if_pos hpipe, execPipe]
    split
    · unfold pipeBranch pipeSide
      split
      · exact runText_db h env .pipeBuf rfl l.left
      · exact runText_db h env .pipeBuf rfl l.right
    · exact ⟨h, rfl⟩
  · rw [if_neg hpipe, if_neg hpipe]
    exact runText_db h env .line rfl l

-- ---------------------------------------------------------------------------
-- Manifests
-- ---------------------------------------------------------------------------

def NEWLINE : UInt8 := '\n'.toUInt8
def EQUALS : UInt8 := '='.toUInt8

/-- A line `key=value` for each entry. -/
def manifestText (es : List (CStr × CStr)) : CStr :=
  es.flatMap fun e => e.1 ++ EQUALS :: (e.2 ++ [NEWLINE])

structure Entry (e : CStr × CStr) : Prop where
  key : ∀ c ∈ e.1, c ≠ EQUALS ∧ c ≠ NEWLINE ∧ c ≠ 0
  value : ∀ c ∈ e.2, c ≠ NEWLINE ∧ c ≠ 0

def entryValue (es : List (CStr × CStr)) (key : CStr) : Option CStr :=
  (es.find? fun e => e.1 = key).map Prod.snd

theorem skipLine_eq (h : ∀ c ∈ s, c ≠ NEWLINE) (rest : CStr) :
    skipLine (s ++ NEWLINE :: rest) = rest := by
  have hall : ∀ c ∈ s, decide (c ≠ '\n'.toUInt8) = true := fun c hc => decide_eq_true (h c hc)
  rw [skipLine, List.dropWhile_append_of_pos hall]
  rfl

theorem takeWhile_before {a : UInt8} (h : ∀ c ∈ s, c ≠ a) (rest : CStr) :
    (s ++ a :: rest).takeWhile (· ≠ a) = s := by
  have hall : ∀ c ∈ s, decide (c ≠ a) = true := fun c hc => decide_eq_true (h c hc)
  rw [List.takeWhile_append_of_pos hall, List.takeWhile_cons_of_neg (by simp), List.append_nil]

/-- A line starts with the key and `=` exactly when it is a line of the key. -/
theorem startsWith_entry {k : CStr} (hk : ∀ c ∈ k, c ≠ EQUALS) (hkey : ∀ c ∈ key, c ≠ EQUALS)
    (rest : CStr) :
    (startsWith (k ++ EQUALS :: rest) key &&
      (k ++ EQUALS :: rest)[key.length]? = some '='.toUInt8) = true ↔ k = key := by
  rw [Bool.and_eq_true, decide_eq_true_eq, startsWith, List.isPrefixOf_iff_prefix]
  constructor
  · rintro ⟨⟨t, ht⟩, hat⟩
    rw [← ht, List.getElem?_append_right (Nat.le_refl _), Nat.sub_self] at hat
    cases t with
    | nil => cases hat
    | cons c t =>
      obtain rfl : c = EQUALS := Option.some.inj hat
      rw [← takeWhile_before hk rest, ← ht, takeWhile_before hkey]
  · rintro rfl
    refine ⟨List.prefix_append .., ?_⟩
    rw [List.getElem?_append_right (Nat.le_refl _), Nat.sub_self]
    rfl

theorem manifestText_cons (e : CStr × CStr) (es : List (CStr × CStr)) :
    manifestText (e :: es) = e.1 ++ EQUALS :: (e.2 ++ NEWLINE :: manifestText es) := by
  rw [manifestText, List.flatMap_cons, List.append_assoc, List.cons_append, List.append_assoc,
    List.singleton_append]
  rfl

theorem findValue_manifest (hes : ∀ e ∈ es, Entry e) (hkey : ∀ c ∈ key, c ≠ EQUALS)
    (hn : (manifestText es).length ≤ n) :
    (findValue key n (manifestText es)).map (·.takeWhile (· ≠ '\n'.toUInt8)) =
      entryValue es key := by
  induction es generalizing n with
  | nil => cases n <;> rfl
  | cons e es ih =>
    have he := hes e List.mem_cons_self
    rw [manifestText_cons] at hn ⊢
    simp only [List.length_append, List.length_cons] at hn
    obtain ⟨n, rfl⟩ : ∃ m, n = m + 1 := ⟨n - 1, by omega⟩
    have hstart := startsWith_entry (fun c hc => (he.key c hc).1) hkey
      (e.2 ++ NEWLINE :: manifestText es)
    rw [findValue, if_neg (by simp), entryValue, List.find?_cons]
    by_cases hk : e.1 = key
    · have hdrop : (e.1 ++ EQUALS :: (e.2 ++ NEWLINE :: manifestText es)).drop (key.length + 1) =
          e.2 ++ NEWLINE :: manifestText es := by
        rw [← hk, ← List.drop_drop, List.drop_left, List.drop_one, List.tail_cons]
      rw [if_pos (hstart.mpr hk), hdrop, decide_eq_true hk]
      exact congrArg some (takeWhile_before (fun c hc => (he.value c hc).1) _)
    · rw [if_neg fun h => hk (hstart.mp h), decide_eq_false hk]
      have hskip : skipLine (e.1 ++ EQUALS :: (e.2 ++ NEWLINE :: manifestText es)) =
          manifestText es := by
        have hline : ∀ c ∈ e.1 ++ EQUALS :: e.2, c ≠ NEWLINE := by
          intro c hc
          obtain hc | hc := List.mem_append.mp hc
          · exact (he.key c hc).2.1
          obtain rfl | hc := List.mem_cons.mp hc
          · decide
          · exact (he.value c hc).1
        have h := skipLine_eq hline (manifestText es)
        rwa [List.append_assoc, List.cons_append] at h
      rw [hskip]
      exact ih (fun e' he' => hes e' (List.mem_cons_of_mem e he')) (by omega)

theorem getValue_manifest (hes : ∀ e ∈ es, Entry e) (hkey : EQUALS ∉ key) (out : Buf) (cap : Nat) :
    (getValue (manifestText es) key out cap).1 =
      (entryValue es key).map (·.take (cap - 1)) := by
  rw [← findValue_manifest hes (fun c hc => ne_of_mem_of_not_mem hc hkey) (Nat.le_refl _), getValue]
  cases findValue key (manifestText es).length (manifestText es) <;> rfl

theorem readFileLoop_all {chunks : List CStr} (buf : Buf) (hne : [] ∉ chunks)
    (hfits : got.length + chunks.flatten.length ≤ cap - 1) :
    (readFileLoop buf cap chunks got).1 = got ++ chunks.flatten := by
  induction chunks generalizing got with
  | nil => exact (List.append_nil got).symm
  | cons chunk chunks ih =>
    rw [List.mem_cons, not_or] at hne
    rw [List.flatten_cons, List.length_append] at hfits
    have hpos : 0 < chunk.length := List.length_pos_iff.mpr (Ne.symm hne.1)
    have htake : chunk.take (cap - 1 - got.length) = chunk := List.take_of_length_le (by omega)
    rw [readFileLoop, if_pos (by omega)]
    dsimp only
    rw [htake, if_neg (Ne.symm hne.1), ih hne.2 (by rw [List.length_append]; omega),
      List.flatten_cons, List.append_assoc]

theorem manifestText_noNul (hes : ∀ e ∈ es, Entry e) : ∀ c ∈ manifestText es, c ≠ 0 := by
  intro c hc
  obtain ⟨e, he, hc⟩ := List.mem_flatMap.mp hc
  obtain hc | hc := List.mem_append.mp hc
  · exact ((hes e he).key c hc).2.2
  obtain rfl | hc := List.mem_cons.mp hc
  · decide
  obtain hc | hc := List.mem_append.mp hc
  · exact ((hes e he).value c hc).2
  · obtain rfl := List.mem_singleton.mp hc
    decide

/-- The file has the text of a manifest, in whatever pieces it is read. -/
structure HasManifest (env : Env) (path : CStr) (es : List (CStr × CStr)) : Prop where
  entries : ∀ e ∈ es, Entry e
  file : ∃ chunks, env.files path = some chunks ∧ [] ∉ chunks ∧ chunks.flatten = manifestText es
  fits : (manifestText es).length < 512

theorem HasManifest.readFile (h : HasManifest env path es) :
    (readFile env path .manifest 512).1 = some (manifestText es) := by
  obtain ⟨chunks, hchunks, hne, htext⟩ := h.file
  have hfits := h.fits
  rw [User.readFile, hchunks]
  dsimp only
  rw [readFileLoop_all .manifest hne (by rw [htext, List.length_nil]; omega), List.nil_append,
    htext, List.takeWhile_eq_self_iff.mpr fun c hc =>
      decide_eq_true (manifestText_noNul h.entries c hc)]

theorem HasManifest.entry (h : HasManifest env path es)
    (hname : entryValue es (chars ['n', 'a', 'm', 'e']) = some name)
    (hversion : entryValue es (chars ['v', 'e', 'r', 's', 'i', 'o', 'n']) = some version)
    (hfile : entryValue es (chars ['f', 'i', 'l', 'e']) = some file)
    (hpayload : env.files (file.take 63) ≠ none) :
    epkEntry env path = some (name.take 31, version.take 15, file.take 63) := by
  have hn := getValue_manifest h.entries (show EQUALS ∉ chars ['n', 'a', 'm', 'e'] by decide)
    .name 32
  have hv := getValue_manifest h.entries (show EQUALS ∉ chars ['v', 'e', 'r', 's', 'i', 'o', 'n'] by
    decide) .version 16
  have hf := getValue_manifest h.entries (show EQUALS ∉ chars ['f', 'i', 'l', 'e'] by decide)
    .file 64
  rw [hname] at hn
  rw [hversion] at hv
  rw [hfile] at hf
  rw [epkEntry, h.readFile]
  simp only [Option.bind_eq_bind, Option.bind_some, hn, hv, hf, Option.map_some]
  rw [if_neg]
  simpa using hpayload

-- ---------------------------------------------------------------------------
-- A package
-- ---------------------------------------------------------------------------

/-- `test.epk` -/
def testManifest : List (CStr × CStr) :=
  [(chars ['n', 'a', 'm', 'e'], chars ['t', 'e', 's', 't']),
    (chars ['v', 'e', 'r', 's', 'i', 'o', 'n'], chars ['0', '.', '1']),
    (chars ['f', 'i', 'l', 'e'], chars ['t', 'e', 's', 't', '.', 'e', 'l', 'f']),
    (chars ['d', 'e', 's', 'c', 'r', 'i', 'p', 't', 'i', 'o', 'n'],
      chars ['R', 'i', 'n', 'g', ' ', '3', ' ', 's', 'y', 's', 'c', 'a', 'l', 'l', ' ', 'a', 'n',
        'd', ' ', 'f', 'i', 'l', 'e', 's', 'y', 's', 't', 'e', 'm', ' ', 't', 'e', 's', 't'])]

def testFile : CStr := chars ['t', 'e', 's', 't', '.', 'e', 'l', 'f']

def testEnv : Env where
  files path :=
    if path = chars ['t', 'e', 's', 't', '.', 'e', 'p', 'k'] then some [manifestText testManifest]
    else if path = testFile then some []
    else none
  pipe := true
  fork := 0
  child := none

/-- `epp install test` -/
def testLine : Line where
  text := eppName ++ chars [' ', 'i', 'n', 's', 't', 'a', 'l', 'l', ' ', 't', 'e', 's', 't']
  fits := by decide
  noNul := by decide

theorem testLine_words : words testLine.text =
    [eppName, chars ['i', 'n', 's', 't', 'a', 'l', 'l'], chars ['t', 'e', 's', 't']] := by
  decide +kernel

theorem testManifest_has : HasManifest testEnv (packagePath (chars ['t', 'e', 's', 't'])).1
    testManifest := by
  have hentry : ∀ e ∈ testManifest, (∀ c ∈ e.1, c ≠ EQUALS ∧ c ≠ NEWLINE ∧ c ≠ 0) ∧
      ∀ c ∈ e.2, c ≠ NEWLINE ∧ c ≠ 0 := by decide +kernel
  refine ⟨fun e he => ⟨(hentry e he).1, (hentry e he).2⟩, ?_, by decide +kernel⟩
  exact ⟨[manifestText testManifest], by decide +kernel, by decide +kernel, List.append_nil _⟩

-- ---------------------------------------------------------------------------
-- Sessions
-- ---------------------------------------------------------------------------

/-- `exit`, and a pipe in which the shell gets 0: it runs the left side then and exits, as a child
would. -/
def EndsShell (env : Env) (l : Line) : Prop :=
  isExit l.text = true ∨ (hasPipe l.text = true ∧ env.pipe = true ∧ env.fork = 0)

/-- A line that does not end the shell, and what the kernel answers meanwhile. -/
def shellStep (inst : Installed) (a : Env × Line) (inst' : Installed) : Prop :=
  ¬ EndsShell a.1 a.2 ∧ inst' = (mainLine a.1 inst a.2).1

/-- The line writes to its own arrays only. -/
def StaysInside (_ : Installed) (a : Env × Line) : Prop :=
  ∀ c ∈ commands a.1 a.2, ¬ LongPackage (words c)

theorem noPackages_distinct : noPackages.Distinct := fun _ _ _ _ _ _ _ hi _ => by cases hi

theorem noPackages_db : noPackages.db = fun _ => none :=
  funext fun _ => rfl

noncomputable def sessionDb (ls : List (Env × Line)) : Db :=
  ls.foldl (fun db a => Db.step db (lineOp a.1 a.2)) fun _ => none

theorem Installed.Distinct.packages (h : inst.Distinct) :
    (((List.range EPP_MAX_INSTALLED).filterMap inst.table).map Prod.fst).Nodup ∧
      ∀ p, p ∈ (List.range EPP_MAX_INSTALLED).filterMap inst.table ↔ inst.db p.1 = some p.2 := by
  constructor
  · rw [List.map_filterMap, List.Nodup, List.pairwise_filterMap]
    refine List.nodup_range.imp_of_mem fun ha hb hne x hx y hy hxy => ?_
    obtain ⟨p, hp, rfl⟩ := Option.map_eq_some_iff.mp hx
    obtain ⟨q, hq, rfl⟩ := Option.map_eq_some_iff.mp hy
    refine hne (h _ _ p.1 p.2 q.2 (List.mem_range.mp ha) (List.mem_range.mp hb) hp ?_)
    rw [hq, hxy]
  · intro p
    rw [Installed.db, tableGet_eq_some h, List.mem_filterMap]
    simp [List.mem_range]

theorem session_spec (h : Run shellStep StaysInside inst ls inst') (hd : inst.Distinct) :
    inst'.Distinct ∧
      inst'.db = ls.foldl (fun db a => Db.step db (lineOp a.1 a.2)) inst.db := by
  induction h with
  | nil => exact ⟨hd, rfl⟩
  | cons _ hstep _ ih =>
    obtain ⟨hexit, rfl⟩ := hstep
    obtain ⟨hd', hdb⟩ := mainLine_db hd _ _ fun h => hexit (.inl h)
    rw [List.foldl_cons, ← hdb]
    exact ih hd'

theorem sessionDb_nil_room : ¬ (sessionDb []).Full := by
  have hnone : {name : CStr | sessionDb [] name ≠ none} = ∅ :=
    Set.eq_empty_of_forall_notMem fun _ hne => hne rfl
  rw [Db.Full, hnone, Set.ncard_empty]
  decide

theorem testLine_step : shellStep noPackages (testEnv, testLine)
    (mainLine testEnv noPackages testLine).1 := by
  have hplain : isExit testLine.text = false ∧ hasPipe testLine.text = false := by decide
  exact ⟨fun h => by simp [EndsShell, hplain] at h, rfl⟩

theorem testLine_inside : StaysInside noPackages (testEnv, testLine) := by
  intro c hc
  obtain rfl := List.mem_singleton.mp (show c ∈ [testLine.text] from hc)
  rw [testLine_words]
  rintro ⟨sub, pkg, rest, heq, -, hlong⟩
  cases heq
  exact absurd hlong (by decide)

/-- In every session the table is the map that the commands make, and `epp installed` prints
that map, each package once. -/
theorem session_db (h : Run shellStep StaysInside noPackages ls inst) :
    inst.db = sessionDb ls ∧ ∃ ps : List (CStr × CStr × CStr), (ps.map Prod.fst).Nodup ∧
      (∀ p, p ∈ ps ↔ sessionDb ls p.1 = some p.2) ∧ installedList inst = listing ps := by
  obtain ⟨hd, hdb⟩ := session_spec h noPackages_distinct
  rw [noPackages_db] at hdb
  obtain ⟨hnodup, hmem⟩ := hd.packages
  rw [hdb] at hmem
  exact ⟨hdb, _, hnodup, hmem, rfl⟩

theorem session_db_test : (mainLine testEnv noPackages testLine).1.db =
    sessionDb [(testEnv, testLine)] :=
  (session_db (.cons testLine_inside testLine_step .nil)).1

theorem lineOp_command (hpipe : hasPipe l.text = false) (hwords : words l.text = w :: ws) :
    lineOp env l = eppOp env (w :: ws) := by
  have hempty : l.text ≠ [] := by
    intro hnil
    rw [hnil, words, wordsFrom_nil] at hwords
    cases hwords
  rw [lineOp, if_neg hempty, hpipe, hwords]
  rfl

/-- Behind any session, the installation of a package with a manifest puts its values into the
map, where there is room. -/
theorem installs_manifest (h : Run shellStep StaysInside noPackages ls inst)
    (hstep : shellStep inst (env, l) inst') (hpipe : hasPipe l.text = false)
    (hwords : words l.text = eppName :: chars ['i', 'n', 's', 't', 'a', 'l', 'l'] :: pkg :: rest)
    (hm : HasManifest env (packagePath pkg).1 es)
    (hname : entryValue es (chars ['n', 'a', 'm', 'e']) = some name)
    (hversion : entryValue es (chars ['v', 'e', 'r', 's', 'i', 'o', 'n']) = some version)
    (hfile : entryValue es (chars ['f', 'i', 'l', 'e']) = some file)
    (hpayload : env.files (file.take 63) ≠ none)
    (hroom : sessionDb ls (name.take 31) ≠ none ∨ ¬ (sessionDb ls).Full) :
    inst'.db = update (sessionDb ls) (name.take 31) (some (version.take 15, file.take 63)) := by
  obtain ⟨hexit, rfl⟩ := hstep
  obtain ⟨hd, hdb⟩ := session_spec h noPackages_distinct
  have hop : lineOp env l =
      some (.install (name.take 31) (version.take 15) (file.take 63)) := by
    rw [lineOp_command hpipe hwords, eppOp, if_neg (not_not.mpr rfl), if_neg (by decide),
      if_pos rfl, hm.entry hname hversion hfile hpayload]
    rfl
  rw [(mainLine_db hd env l fun h => hexit (.inl h)).2, hop, hdb, noPackages_db]
  refine if_neg fun hfull => ?_
  exact hroom.elim (fun hthere => hthere hfull.1) fun hroom => hroom hfull.2

theorem installs_manifest_test : (mainLine testEnv noPackages testLine).1.db
    (chars ['t', 'e', 's', 't']) = some (chars ['0', '.', '1'], testFile) := by
  have hname : entryValue testManifest (chars ['n', 'a', 'm', 'e']) =
      some (chars ['t', 'e', 's', 't']) := rfl
  have h := installs_manifest .nil testLine_step (by decide) testLine_words testManifest_has
    hname rfl rfl (by decide +kernel) (.inr sessionDb_nil_room)
  rw [h]
  exact Function.update_self ..

end EponaOS.User
