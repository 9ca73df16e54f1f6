import EponaOS.User.ShellRedirect

/-!
# The arrays of the user shell

From a line to the writes that `exec_cmd`, `exec_pipe`, `cmd_epp` and the functions for
packages make into their arrays. What comes from a manifest is cut to the array it goes to;
the name of a package on the command line is not.
-/

namespace EponaOS.User

open Bytes

structure InstalledPkg where
  name : CStr
  version : CStr
  file : CStr
  used : Bool

/-- `g_installed` -/
abbrev Installed := Nat → InstalledPkg

/-- What the kernel answers. Nothing is assumed of `sys_fork`: `fork` is what the shell gets from
it, and `child` what a second process gets that returns from it. -/
structure Env where
  /-- What the reads of a file return one after the other, unless it cannot be opened. -/
  files : CStr → Option (List CStr)
  pipe : Bool
  fork : Int
  child : Option Int

-- ---------------------------------------------------------------------------
-- Strings
-- ---------------------------------------------------------------------------

def strcpyTo (dst : Buf) (src : CStr) : List Write :=
  (List.range (src.length + 1)).map fun i => ⟨dst, i⟩

/-- `strcat` behind the string `old`. -/
def strcatTo (dst : Buf) (old src : CStr) : List Write :=
  (List.range (src.length + 1)).map fun i => ⟨dst, old.length + i⟩

def startsWith (s pre : CStr) : Bool := pre.isPrefixOf s

def endsWith (s suffix : CStr) : Bool :=
  if suffix.length > s.length then false else s.drop (s.length - suffix.length) = suffix

/-- The loop of `read_file`; each read gets at most what is asked for. -/
def readFileLoop (buf : Buf) (cap : Nat) : List CStr → CStr → CStr × List Write
  | [], got => (got, [])
  | chunk :: chunks, got =>
    if got.length < cap - 1 then
      let new := chunk.take (cap - 1 - got.length)
      if new = [] then (got, [])
      else
        let r := readFileLoop buf cap chunks (got ++ new)
        (r.1, (List.range new.length).map (fun i => ⟨buf, got.length + i⟩) ++ r.2)
    else (got, [])

def readFile (env : Env) (path : CStr) (buf : Buf) (cap : Nat) : Option CStr × List Write :=
  match env.files path with
  | none => (none, [])
  | some chunks =>
    let r := readFileLoop buf cap chunks []
    (some (r.1.takeWhile (· ≠ 0)), r.2 ++ [⟨buf, r.1.length⟩])

def skipLine (p : CStr) : CStr := (p.dropWhile (· ≠ '\n'.toUInt8)).drop 1

/-- Behind `key=` at the start of a line; the bound is on the lines. -/
def findValue (key : CStr) : Nat → CStr → Option CStr
  | 0, _ => none
  | n + 1, p =>
    if p = [] then none
    else if startsWith p key && p[key.length]? = some '='.toUInt8 then
      some (p.drop (key.length + 1))
    else findValue key n (skipLine p)

def getValue (manifest key : CStr) (out : Buf) (cap : Nat) : Option CStr × List Write :=
  match findValue key manifest.length manifest with
  | none => (none, [⟨out, 0⟩])
  | some p =>
    let value := (p.takeWhile (· ≠ '\n'.toUInt8)).take (cap - 1)
    (some value, strcpyTo out value)

-- ---------------------------------------------------------------------------
-- Packages
-- ---------------------------------------------------------------------------

def epkSuffix : CStr := chars ['.', 'e', 'p', 'k']

def packagePath (name : CStr) : CStr × List Write :=
  if endsWith name epkSuffix then (name, strcpyTo .path name)
  else (name ++ epkSuffix, strcpyTo .path name ++ strcatTo .path name epkSuffix)

def installedFind (inst : Installed) (name : CStr) : Option Nat :=
  (List.range EPP_MAX_INSTALLED).find? fun i => (inst i).used && (inst i).name = name

def installedSlot (inst : Installed) (name : CStr) : Option Nat :=
  match installedFind inst name with
  | some i => some i
  | none => (List.range EPP_MAX_INSTALLED).find? fun i => !(inst i).used

def installedAdd (inst : Installed) (name version file : CStr) : Option Installed × List Write :=
  match installedSlot inst name with
  | none => (none, [])
  | some idx =>
    (some fun i => if i = idx then ⟨name, version, file, true⟩ else inst i,
      strcpyTo (.installedName idx) name ++ strcpyTo (.installedVersion idx) version ++
        strcpyTo (.installedFile idx) file)

def installedRemove (inst : Installed) (name : CStr) : Installed :=
  match installedFind inst name with
  | none => inst
  | some idx => fun i => if i = idx then { inst i with used := false } else inst i

def epkExecute (env : Env) (path : CStr) : List Write :=
  match readFile env path .manifest 512 with
  | (none, ws) => ws
  | (some manifest, ws) => ws ++ (getValue manifest (chars ['f', 'i', 'l', 'e']) .file 64).2

def epkInstall (env : Env) (inst : Installed) (path : CStr) : Installed × List Write :=
  match readFile env path .manifest 512 with
  | (none, ws) => (inst, ws)
  | (some manifest, ws) =>
    match getValue manifest (chars ['n', 'a', 'm', 'e']) .name 32 with
    | (none, ws1) => (inst, ws ++ ws1)
    | (some name, ws1) =>
      match getValue manifest (chars ['v', 'e', 'r', 's', 'i', 'o', 'n']) .version 16 with
      | (none, ws2) => (inst, ws ++ ws1 ++ ws2)
      | (some version, ws2) =>
        match getValue manifest (chars ['f', 'i', 'l', 'e']) .file 64 with
        | (none, ws3) => (inst, ws ++ ws1 ++ ws2 ++ ws3)
        | (some file, ws3) =>
          if (env.files file).isNone then (inst, ws ++ ws1 ++ ws2 ++ ws3)
          else
            let r := installedAdd inst name version file
            (r.1.getD inst, ws ++ ws1 ++ ws2 ++ ws3 ++ r.2)

-- ---------------------------------------------------------------------------
-- Commands
-- ---------------------------------------------------------------------------

def repoFile : CStr := chars ['r', 'e', 'p', 'o'] ++ epkSuffix

def cmdEpp (env : Env) (inst : Installed) (args : List CStr) : Installed × List Write :=
  match args with
  | _ :: sub :: rest =>
    if sub = chars ['h', 'e', 'l', 'p'] then (inst, [])
    else if sub = chars ['u', 'p', 'd', 'a', 't', 'e'] then
      (inst, (readFile env repoFile .repo 512).2)
    else if sub = chars ['l', 'i', 's', 't'] then (inst, (readFile env repoFile .repo 512).2)
    else if sub = chars ['i', 'n', 's', 't', 'a', 'l', 'l', 'e', 'd'] then (inst, [])
    else if sub = chars ['r', 'e', 'm', 'o', 'v', 'e'] then
      match rest with
      | [] => (inst, [])
      | name :: _ => (installedRemove inst name, [])
    else if sub = chars ['i', 'n', 'f', 'o'] then
      match rest with
      | [] => (inst, [])
      | name :: _ => (inst, (packagePath name).2 ++ epkExecute env (packagePath name).1)
    else if sub = chars ['i', 'n', 's', 't', 'a', 'l', 'l'] then
      match rest with
      | [] => (inst, [])
      | name :: _ =>
        let r := epkInstall env inst (packagePath name).1
        (r.1, (packagePath name).2 ++ r.2)
    else (inst, [])
  | _ => (inst, [])

def builtins : List CStr :=
  [chars ['h', 'e', 'l', 'p'], chars ['c', 'l', 'e', 'a', 'r'], chars ['p', 'w', 'd'],
    chars ['l', 's'], chars ['c', 'a', 't'], chars ['w', 'r', 'i', 't', 'e'], chars ['r', 'm'],
    chars ['s', 't', 'a', 't'], chars ['r', 'u', 'n'], chars ['m', 'k', 'd', 'i', 'r'],
    chars ['e', 'c', 'h', 'o'], chars ['p', 'i', 'd'], chars ['e', 'd', 'i', 't'],
    chars ['s', 'h', 'u', 't', 'd', 'o', 'w', 'n'], chars ['r', 'e', 'b', 'o', 'o', 't']]

def eppName : CStr := chars ['e', 'p', 'p']

def execCmd (env : Env) (inst : Installed) (t : Tokens) : Installed × List Write :=
  match (redirect t).2.1 with
  | [] => (inst, (redirect t).2.2)
  | cmd :: rest =>
    if builtins.contains cmd then (inst, (redirect t).2.2)
    else if cmd = eppName then
      let r := cmdEpp env inst (cmd :: rest)
      (r.1, (redirect t).2.2 ++ r.2)
    else if endsWith cmd epkSuffix then (inst, (redirect t).2.2 ++ epkExecute env cmd)
    else (inst, (redirect t).2.2)

def runText (env : Env) (inst : Installed) (buf : Buf) (text : CStr) : Installed × List Write :=
  match tokenize buf (lineBytes text) TOKEN_MAX with
  | none => (inst, [])
  | some t =>
    let r := execCmd env inst t
    (r.1, t.writes ++ r.2)

def leftSide (text : CStr) : CStr := text.takeWhile (· ≠ '|'.toUInt8)

def rightSide (text : CStr) : CStr :=
  (text.drop ((leftSide text).length + 1)).dropWhile (· = ' '.toUInt8)

/-- The part of the line that a process runs to which `sys_fork` has returned `pid`. -/
def pipeSide (text : CStr) (pid : Int) : CStr := if pid = 0 then leftSide text else rightSide text

def pipeBranch (env : Env) (inst : Installed) (text : CStr) (pid : Int) : Installed × List Write :=
  let side := pipeSide text pid
  let r := runText env inst .pipeBuf side
  (r.1, strcpyTo .pipeBuf side ++ r.2)

def execPipe (env : Env) (inst : Installed) (text : CStr) : Installed × List Write :=
  let cut : List Write := [⟨.line, (leftSide text).length⟩]
  if env.pipe then
    let shell := pipeBranch env inst text env.fork
    let child := env.child.toList.flatMap fun pid => (pipeBranch env inst text pid).2
    (shell.1, cut ++ shell.2 ++ child)
  else (inst, cut)

def isExit (text : CStr) : Bool :=
  startsWith (text.dropWhile (· = ' '.toUInt8)) (chars ['e', 'x', 'i', 't'])

/-- A turn of `main` -/
def mainLine (env : Env) (inst : Installed) (l : Line) : Installed × List Write :=
  if l.text = [] then (inst, [])
  else if isExit l.text then (inst, [])
  else if hasPipe l.text then execPipe env inst l.text
  else runText env inst .line l.text

-- ---------------------------------------------------------------------------
-- Which commands write where they should
-- ---------------------------------------------------------------------------

def commands (env : Env) (l : Line) : List CStr :=
  if l.text = [] ∨ isExit l.text then []
  else if hasPipe l.text then
    if env.pipe then (env.fork :: env.child.toList).map (pipeSide l.text) else []
  else [l.text]

/-- `epp info` or `epp install` with a name that is, with `.epk`, too long for a path. -/
def LongPackage (args : List CStr) : Prop :=
  ∃ sub pkg rest, args = eppName :: sub :: pkg :: rest ∧
    (sub = chars ['i', 'n', 'f', 'o'] ∨ sub = chars ['i', 'n', 's', 't', 'a', 'l', 'l']) ∧
    64 ≤ pkg.length + if endsWith pkg epkSuffix then 0 else 4

def AllInside (ws : List Write) : Prop := ∀ w ∈ ws, w.Inside

theorem AllInside.nil : AllInside [] := List.forall_mem_nil _

theorem allInside_append {ws ws' : List Write} :
    AllInside (ws ++ ws') ↔ AllInside ws ∧ AllInside ws' := List.forall_mem_append

theorem allInside_range {buf : Buf} {base n : Nat} (h : base + n ≤ buf.size) :
    AllInside ((List.range n).map fun i => ⟨buf, base + i⟩) := by
  intro w hw
  obtain ⟨i, hi, rfl⟩ := List.mem_map.mp hw
  have hlt := List.mem_range.mp hi
  change base + i < buf.size
  omega

theorem strcpyTo_inside {buf : Buf} {src : CStr} :
    AllInside (strcpyTo buf src) ↔ src.length < buf.size := by
  constructor
  · intro h
    exact h ⟨buf, src.length⟩ (List.mem_map_of_mem (List.mem_range.mpr (Nat.lt_succ_self _)))
  · intro h w hw
    obtain ⟨i, hi, rfl⟩ := List.mem_map.mp hw
    have hlt := List.mem_range.mp hi
    change i < buf.size
    omega

theorem strcatTo_inside {buf : Buf} {old src : CStr} :
    AllInside (strcatTo buf old src) ↔ old.length + src.length < buf.size := by
  constructor
  · intro h
    exact h ⟨buf, old.length + src.length⟩
      (List.mem_map.mpr ⟨src.length, List.mem_range.mpr (Nat.lt_succ_self _), rfl⟩)
  · intro h
    exact allInside_range (by omega)

theorem readFileLoop_inside {buf : Buf} {cap : Nat} (hcap : cap ≤ buf.size) (chunks : List CStr)
    (got : CStr) (hgot : got.length ≤ cap - 1) :
    AllInside (readFileLoop buf cap chunks got).2 ∧
      (readFileLoop buf cap chunks got).1.length ≤ cap - 1 := by
  induction chunks generalizing got with
  | nil => exact ⟨.nil, hgot⟩
  | cons chunk chunks ih =>
    rw [readFileLoop]
    split
    · dsimp only
      split
      · exact ⟨.nil, hgot⟩
      · have hnew : (chunk.take (cap - 1 - got.length)).length ≤ cap - 1 - got.length := by
          rw [List.length_take]
          omega
        have hall : (got ++ chunk.take (cap - 1 - got.length)).length ≤ cap - 1 := by
          rw [List.length_append]
          omega
        obtain ⟨hinside, hlen⟩ := ih _ hall
        exact ⟨allInside_append.mpr ⟨allInside_range (by omega), hinside⟩, hlen⟩
    · exact ⟨.nil, hgot⟩

theorem readFile_inside (env : Env) (path : CStr) (buf : Buf) (cap : Nat) (hcap : cap ≤ buf.size)
    (hpos : 0 < cap) : AllInside (readFile env path buf cap).2 := by
  rw [readFile]
  split
  · exact .nil
  · rename_i chunks _
    obtain ⟨hinside, hlen⟩ := readFileLoop_inside hcap chunks [] (Nat.zero_le _)
    refine allInside_append.mpr ⟨hinside, List.forall_mem_singleton.mpr ?_⟩
    change (readFileLoop buf cap chunks []).1.length < buf.size
    omega

theorem getValue_inside (manifest key : CStr) (out : Buf) (cap : Nat) (hcap : cap ≤ out.size)
    (hpos : 0 < cap) :
    AllInside (getValue manifest key out cap).2 ∧
      ∀ v, (getValue manifest key out cap).1 = some v → v.length < cap := by
  rw [getValue]
  split
  · refine ⟨List.forall_mem_singleton.mpr ?_, fun v hv => by cases hv⟩
    change 0 < out.size
    omega
  · rename_i p _
    have hlen : ((p.takeWhile (· ≠ '\n'.toUInt8)).take (cap - 1)).length < cap := by
      rw [List.length_take]
      omega
    refine ⟨strcpyTo_inside.mpr (by omega), fun v hv => ?_⟩
    cases hv
    exact hlen

theorem epkExecute_inside (env : Env) (path : CStr) : AllInside (epkExecute env path) := by
  have hread := readFile_inside env path .manifest 512 (Nat.le_refl _) (by decide)
  rw [epkExecute]
  split
  · rename_i ws heq
    rw [heq] at hread
    exact hread
  · rename_i manifest ws heq
    rw [heq] at hread
    have hfile := getValue_inside manifest (chars ['f', 'i', 'l', 'e']) .file 64
      (Nat.le_refl _) (by decide)
    exact allInside_append.mpr ⟨hread, hfile.1⟩

theorem installedSlot_lt {inst : Installed} {name : CStr} (h : installedSlot inst name = some i) :
    i < EPP_MAX_INSTALLED := by
  rw [installedSlot] at h
  split at h
  · rename_i hfind
    cases h
    exact List.mem_range.mp (List.mem_of_find?_eq_some hfind)
  · exact List.mem_range.mp (List.mem_of_find?_eq_some h)

theorem installedAdd_inside (inst : Installed) {name version file : CStr} (hname : name.length < 32)
    (hversion : version.length < 16) (hfile : file.length < 64) :
    AllInside (installedAdd inst name version file).2 := by
  rw [installedAdd]
  split
  · exact .nil
  · rename_i idx hslot
    have hidx := installedSlot_lt hslot
    have hsizes : (Buf.installedName idx).size = 32 ∧ (Buf.installedVersion idx).size = 16 ∧
        (Buf.installedFile idx).size = 64 := ⟨if_pos hidx, if_pos hidx, if_pos hidx⟩
    refine allInside_append.mpr ⟨allInside_append.mpr ⟨?_, ?_⟩, ?_⟩ <;>
      rw [strcpyTo_inside] <;> omega

theorem epkInstall_inside (env : Env) (inst : Installed) (path : CStr) :
    AllInside (epkInstall env inst path).2 := by
  have hread := readFile_inside env path .manifest 512 (Nat.le_refl _) (by decide)
  rw [epkInstall]
  split
  · rename_i ws heq
    rw [heq] at hread
    exact hread
  rename_i manifest ws heq
  rw [heq] at hread
  obtain ⟨hws1, hname⟩ := getValue_inside manifest (chars ['n', 'a', 'm', 'e']) .name 32
    (Nat.le_refl _) (by decide)
  obtain ⟨hws2, hversion⟩ := getValue_inside manifest (chars ['v', 'e', 'r', 's', 'i', 'o', 'n'])
    .version 16 (Nat.le_refl _) (by decide)
  obtain ⟨hws3, hfile⟩ := getValue_inside manifest (chars ['f', 'i', 'l', 'e']) .file 64
    (Nat.le_refl _) (by decide)
  split
  · rename_i heq1
    rw [heq1] at hws1
    exact allInside_append.mpr ⟨hread, hws1⟩
  rename_i name ws1 heq1
  rw [heq1] at hws1 hname
  have h1 := allInside_append.mpr ⟨hread, hws1⟩
  split
  · rename_i heq2
    rw [heq2] at hws2
    exact allInside_append.mpr ⟨h1, hws2⟩
  rename_i version ws2 heq2
  rw [heq2] at hws2 hversion
  have h2 := allInside_append.mpr ⟨h1, hws2⟩
  split
  · rename_i heq3
    rw [heq3] at hws3
    exact allInside_append.mpr ⟨h2, hws3⟩
  rename_i file ws3 heq3
  rw [heq3] at hws3 hfile
  have h3 := allInside_append.mpr ⟨h2, hws3⟩
  split
  · exact h3
  · exact allInside_append.mpr
      ⟨h3, installedAdd_inside inst (hname _ rfl) (hversion _ rfl) (hfile _ rfl)⟩

theorem packagePath_inside (name : CStr) :
    AllInside (packagePath name).2 ↔
      name.length + (if endsWith name epkSuffix then 0 else 4) < 64 := by
  rw [packagePath]
  split
  · exact strcpyTo_inside
  · have hsuffix : epkSuffix.length = 4 := rfl
    have hpath : Buf.path.size = 64 := rfl
    rw [allInside_append, strcpyTo_inside, strcatTo_inside, hsuffix, hpath]
    omega

theorem not_longPackage_iff {sub pkg : CStr} {rest : List CStr}
    (hsub : sub = chars ['i', 'n', 'f', 'o'] ∨ sub = chars ['i', 'n', 's', 't', 'a', 'l', 'l']) :
    AllInside (packagePath pkg).2 ↔ ¬ LongPackage (eppName :: sub :: pkg :: rest) := by
  rw [packagePath_inside, ← Nat.not_le]
  apply not_congr
  constructor
  · exact fun h => ⟨sub, pkg, rest, rfl, hsub, h⟩
  · rintro ⟨sub', pkg', rest', heq, -, h⟩
    cases heq
    exact h

theorem not_longPackage_of_sub {sub : CStr} {rest : List CStr}
    (hinfo : sub ≠ chars ['i', 'n', 'f', 'o'])
    (hinstall : sub ≠ chars ['i', 'n', 's', 't', 'a', 'l', 'l']) :
    ¬ LongPackage (eppName :: sub :: rest) := by
  rintro ⟨sub', pkg, rest', heq, hsub, -⟩
  cases heq
  exact hsub.elim hinfo hinstall

theorem not_longPackage_of_short {sub : CStr} : ¬ LongPackage [eppName, sub] := by
  rintro ⟨sub', pkg, rest, heq, -⟩
  cases heq

theorem cmdEpp_inside (env : Env) (inst : Installed) (rest : List CStr) :
    AllInside (cmdEpp env inst (eppName :: rest)).2 ↔ ¬ LongPackage (eppName :: rest) := by
  have hrepo := readFile_inside env repoFile .repo 512 (Nat.le_refl _) (by decide)
  cases rest with
  | nil =>
    refine iff_of_true .nil ?_
    rintro ⟨sub, pkg, rest, heq, -⟩
    cases heq
  | cons sub rest =>
    by_cases hinfo : sub = chars ['i', 'n', 'f', 'o']
    · subst hinfo
      cases rest with
      | nil => exact iff_of_true .nil not_longPackage_of_short
      | cons pkg rest =>
        rw [← not_longPackage_iff (.inl rfl)]
        exact allInside_append.trans (and_iff_left (epkExecute_inside env _))
    by_cases hinstall : sub = chars ['i', 'n', 's', 't', 'a', 'l', 'l']
    · subst hinstall
      cases rest with
      | nil => exact iff_of_true .nil not_longPackage_of_short
      | cons pkg rest =>
        rw [← not_longPackage_iff (.inr rfl)]
        exact allInside_append.trans (and_iff_left (epkInstall_inside env inst _))
    refine iff_of_true ?_ (not_longPackage_of_sub hinfo hinstall)
    unfold cmdEpp
    dsimp only
    rw [if_neg hinfo, if_neg hinstall]
    split_ifs
    · exact .nil
    · exact hrepo
    · exact hrepo
    · exact .nil
    · cases rest <;> exact .nil
    · exact .nil

theorem not_longPackage_of_cmd {cmd : CStr} {rest : List CStr} (h : cmd ≠ eppName) :
    ¬ LongPackage (cmd :: rest) := by
  rintro ⟨sub, pkg, rest', heq, -⟩
  cases heq
  exact h rfl

theorem execCmd_inside (env : Env) (inst : Installed) {t : Tokens}
    (h : findRedirOut t.line t.tokens = none) :
    AllInside (execCmd env inst t).2 ↔ ¬ LongPackage t.args := by
  have hredirect : redirect t = (none, t.args, []) := by rw [redirect, h]
  rw [execCmd, hredirect]
  dsimp only
  cases hargs : t.args with
  | nil =>
    refine iff_of_true .nil ?_
    rintro ⟨sub, pkg, rest, heq, -⟩
    cases heq
  | cons cmd rest =>
    dsimp only
    split
    · rename_i hbuiltin
      refine iff_of_true .nil (not_longPackage_of_cmd ?_)
      rintro rfl
      exact absurd hbuiltin (by decide)
    · split
      · rename_i hepp
        subst hepp
        rw [List.nil_append]
        exact cmdEpp_inside env inst rest
      · rename_i hepp
        refine iff_of_true ?_ (not_longPackage_of_cmd hepp)
        split
        · rw [List.nil_append]
          exact epkExecute_inside env cmd
        · exact .nil

theorem runText_inside (env : Env) (inst : Installed) (buf : Buf) (hbuf : buf.size = LINE_MAX)
    (l : Line) : AllInside (runText env inst buf l.text).2 ↔ ¬ LongPackage (words l.text) := by
  obtain ⟨t, htokens, hargs, hinside⟩ := tokenize_spec hbuf l
  rw [runText, htokens, ← hargs, ← execCmd_inside env inst (findRedirOut_tokenize l htokens hbuf)]
  exact allInside_append.trans (and_iff_right hinside)

/-- The part of a line in front of the pipe is a line, and so is the part behind it. -/
def Line.left (l : Line) : Line where
  text := leftSide l.text
  fits := Nat.lt_of_le_of_lt (List.takeWhile_prefix _).length_le l.fits
  noNul h := l.noNul ((List.takeWhile_prefix _).subset h)

def Line.right (l : Line) : Line where
  text := rightSide l.text
  fits := by
    have hdrop := (List.dropWhile_suffix (· = ' '.toUInt8)
      (l := l.text.drop ((leftSide l.text).length + 1))).length_le
    have hsub := List.drop_sublist ((leftSide l.text).length + 1) l.text
    exact Nat.lt_of_le_of_lt (hdrop.trans hsub.length_le) l.fits
  noNul h := by
    have hdrop := (List.dropWhile_suffix (· = ' '.toUInt8)).subset h
    exact l.noNul (List.mem_of_mem_drop hdrop)

theorem leftSide_lt (l : Line) (hpipe : hasPipe l.text) :
    (leftSide l.text).length < l.text.length := by
  have hin : '|'.toUInt8 ∈ l.text := by
    obtain ⟨c, hc, hbar⟩ := List.any_eq_true.mp hpipe
    rw [decide_eq_true_eq] at hbar
    exact hbar ▸ hc
  refine Nat.lt_of_le_of_ne (List.takeWhile_prefix _).length_le fun heq => ?_
  have hall := (List.takeWhile_prefix (· ≠ '|'.toUInt8)).eq_of_length heq
  have hne := List.takeWhile_eq_self_iff.mp hall _ hin
  exact absurd rfl (of_decide_eq_true hne)

theorem pipeBranch_inside (env : Env) (inst : Installed) (l : Line) (pid : Int) :
    AllInside (pipeBranch env inst l.text pid).2 ↔ ¬ LongPackage (words (pipeSide l.text pid)) := by
  obtain ⟨side, hside⟩ : ∃ side : Line, side.text = pipeSide l.text pid := by
    unfold pipeSide
    split
    · exact ⟨l.left, rfl⟩
    · exact ⟨l.right, rfl⟩
  rw [pipeBranch, ← hside]
  have hcopy : AllInside (strcpyTo .pipeBuf side.text) := strcpyTo_inside.mpr side.fits
  exact allInside_append.trans ((and_iff_right hcopy).trans (runText_inside env inst .pipeBuf rfl side))

theorem execPipe_inside (env : Env) (inst : Installed) (l : Line) (hpipe : hasPipe l.text) :
    AllInside (execPipe env inst l.text).2 ↔
      ∀ c ∈ (if env.pipe then (env.fork :: env.child.toList).map (pipeSide l.text) else []),
        ¬ LongPackage (words c) := by
  have hcut : AllInside [⟨.line, (leftSide l.text).length⟩] :=
    List.forall_mem_singleton.mpr ((leftSide_lt l hpipe).trans l.fits)
  rw [execPipe]
  dsimp only
  by_cases hp : env.pipe = true
  · rw [if_pos hp, if_pos hp, List.forall_mem_map, List.forall_mem_cons, allInside_append,
      allInside_append, and_iff_right hcut]
    refine and_congr (pipeBranch_inside env inst l env.fork) ?_
    rw [AllInside, List.forall_mem_flatMap]
    exact forall₂_congr fun pid _ => pipeBranch_inside env inst l pid
  · rw [if_neg hp, if_neg hp]
    exact iff_of_true hcut (List.forall_mem_nil _)

/-- Every write of a line is inside of its array exactly when no command that it executes has
too long a package name. -/
theorem writes_inside_iff (env : Env) (inst : Installed) (l : Line) :
    AllInside (mainLine env inst l).2 ↔ ∀ c ∈ commands env l, ¬ LongPackage (words c) := by
  rw [mainLine, commands]
  by_cases hempty : l.text = []
  · rw [if_pos hempty, if_pos (.inl hempty)]
    exact iff_of_true .nil (List.forall_mem_nil _)
  by_cases hexit : isExit l.text = true
  · rw [if_neg hempty, if_pos hexit, if_pos (.inr hexit)]
    exact iff_of_true .nil (List.forall_mem_nil _)
  have hruns : ¬ (l.text = [] ∨ isExit l.text = true) := not_or.mpr ⟨hempty, hexit⟩
  rw [if_neg hempty, if_neg hexit, if_neg hruns]
  by_cases hpipe : hasPipe l.text = true
  · rw [if_pos hpipe, if_pos hpipe]
    exact execPipe_inside env inst l hpipe
  · rw [if_neg hpipe, if_neg hpipe, List.forall_mem_singleton]
    exact runText_inside env inst .line rfl l

def longName : CStr := List.replicate 60 'a'.toUInt8

def longLine : Line where
  text := eppName ++ chars [' ', 'i', 'n', 'f', 'o', ' '] ++ longName
  fits := by decide
  noNul := by decide

def noFiles : Env := ⟨fun _ => none, true, 0, none⟩

def noPackages : Installed := fun _ => ⟨[], [], [], false⟩

theorem longLine_overruns : ¬ AllInside (mainLine noFiles noPackages longLine).2 := by
  intro h
  have hmem : ⟨.path, 64⟩ ∈ (mainLine noFiles noPackages longLine).2 := by decide +kernel
  exact Nat.lt_irrefl 64 (h _ hmem)

end EponaOS.User
