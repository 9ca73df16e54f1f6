import Mathlib.Tactic.Ring
import EponaOS.Kernel.CanonicalPath
import EponaOS.Kernel.Desktop
import EponaOS.Lib.Digits

/-!
# The commands of the shell

`shell_dispatch_line` of `shell.c` with the commands that take a path. Whatever was typed before,
`g_cwd` is `/` or a path of parts that are neither empty nor dots, and each path that the file
system gets is of this form too. The commands are written once, over `g_cwd` as text and over its
parts. The addresses of `ping` and `dns` are read and printed here as well.
-/

namespace EponaOS.Kernel.Commands

open Fs

def SHELL_TOKEN_MAX : Nat := 16
def CWD_MAX : Nat := 256
def VFS_DIR : UInt8 := 0x02

-- ---------------------------------------------------------------------------
-- What the commands use
-- ---------------------------------------------------------------------------

/-- `g_cwd` -/
structure Dirs (D : Type) where
  /-- `resolve_path` with room for `CWD_MAX` bytes -/
  resolve : D → CStr → Option D
  path : D → CStr
  /-- `strncpy` to `g_cwd` -/
  copy : D → D

def textDirs : Dirs CStr where
  resolve cwd input :=
    let r := resolvePath cwd (some input) CWD_MAX
    if r.1 < 0 then none else some (r.2.takeWhile (· != 0))
  path := id
  copy := List.take (CWD_MAX - 1)

/-- What `vfs.c` and `elf.c` answer while a line is executed -/
structure Answers where
  /-- names, sizes and flags -/
  readdir : CStr → List (CStr × UInt32 × UInt8)
  /-- the flags -/
  stat : CStr → Option UInt8
  mkdir : CStr → Bool
  create : CStr → Bool
  /-- the first 255 bytes of a file that can be opened -/
  read : CStr → Option CStr
  load : CStr → Bool

inductive PathCall
  | readdir
  | stat
  | mkdir
  | create
  | openFile
  | elfLoad
  deriving DecidableEq

inductive Effect
  | print (s : CStr)
  | setColor (fg bg : UInt8)
  | call (f : PathCall) (path : CStr)
  | close
  | enterUsermode
  /-- a command that takes no path does its work -/
  | command (tokens : List CStr)
  deriving DecidableEq

structure Session (D : Type) where
  cwd : D
  effects : List Effect

variable {D : Type}

def Session.emit (s : Session D) (es : List Effect) : Session D :=
  { s with effects := s.effects ++ es }

def Session.print (s : Session D) (text : String) : Session D := s.emit [.print (asciiBytes text)]

def Session.complain (s : Session D) (text : String) (path : CStr) : Session D :=
  s.emit [.print (asciiBytes text), .print path, .print (asciiBytes "\n")]

-- ---------------------------------------------------------------------------
-- The commands
-- ---------------------------------------------------------------------------

/-- `tokenize`; there is room for `room` more tokens. -/
def tokens : Nat → CStr → List CStr
  | 0, _ => []
  | room + 1, p =>
    let p := p.dropWhile IsBlank
    if p = [] then []
    else
      (p.takeWhile fun b => !IsBlank b) :: tokens room ((p.dropWhile fun b => !IsBlank b).drop 1)

def tokenize (line : CStr) (max : Nat) : List CStr := tokens (max - 1) line

def printU64Loop : Nat → Nat → CStr → CStr
  | 0, _, buf => buf
  | i + 1, v, buf =>
    if v = 0 then buf else printU64Loop i (v / 10) (UInt8.ofNat (0x30 + v % 10) :: buf)

/-- `print_u64`; its array has room for 20 digits. -/
def printU64 (v : Nat) : CStr := if v = 0 then [0x30] else printU64Loop 20 v []

def lsCb (entry : CStr × UInt32 × UInt8) : List Effect :=
  let isDir := entry.2.2 &&& VFS_DIR ≠ 0
  [.print (asciiBytes "  ")] ++ (if isDir then [.setColor 0x0B 0x00] else []) ++
    [.print entry.1, .setColor 0x0F 0x00] ++
    (if isDir then []
      else [.print (asciiBytes " ("), .print (printU64 entry.2.1.toNat),
        .print (asciiBytes " bytes)")]) ++ [.print (asciiBytes "\n")]

def endsWith (s suffix : CStr) : Bool := suffix.isSuffixOf s

section Commands

variable (S : Dirs D) (env : Answers)

def withPath (name : String) (input : CStr) (k : D → Session D) (s : Session D) : Session D :=
  match S.resolve s.cwd input with
  | none => s.print (name ++ ": caminho invalido\n")
  | some d => k d

def cmdLs (arg : CStr) (s : Session D) : Session D :=
  withPath S "ls" arg (fun d =>
    let resolved := S.path d
    let s := s.emit ([.print resolved, .print (asciiBytes ":\n"), .call .readdir resolved] ++
      (env.readdir resolved).flatMap lsCb)
    if env.readdir resolved = [] then s.print "  (vazio)\n" else s) s

def cmdCd (args : List CStr) (s : Session D) : Session D :=
  withPath S "cd" (args.getD 1 [SLASH]) (fun d =>
    let resolved := S.path d
    let s := s.emit [.call .stat resolved]
    match env.stat resolved with
    | none => s.complain "cd: nao encontrado: " resolved
    | some flags =>
      if flags &&& VFS_DIR = 0 then s.complain "cd: nao e um diretorio: " resolved
      else { s with cwd := S.copy d }) s

def cmdMkdir (args : List CStr) (s : Session D) : Session D :=
  match args[1]? with
  | none => s.print "Uso: mkdir <dir>\n"
  | some arg =>
    withPath S "mkdir" arg (fun d =>
      let resolved := S.path d
      let s := s.emit [.call .mkdir resolved]
      if env.mkdir resolved then s else s.complain "mkdir: falha ao criar: " resolved) s

def cmdTouch (args : List CStr) (s : Session D) : Session D :=
  match args[1]? with
  | none => s.print "Uso: touch <arquivo>\n"
  | some arg =>
    withPath S "touch" arg (fun d =>
      let resolved := S.path d
      let s := s.emit [.call .create resolved]
      if env.create resolved then s.emit [.close]
      else s.complain "touch: falha ao criar: " resolved) s

/-- The bytes are printed up to the first NUL, and a new line unless they end with one. -/
def catBytes (bytes : CStr) : List Effect :=
  if bytes = [] then []
  else
    .print (bytes.takeWhile (· != 0)) ::
      if bytes.getLast? = some 0x0A then [] else [.print (asciiBytes "\n")]

def cmdCat (path : CStr) (s : Session D) : Session D :=
  withPath S "cat" path (fun d =>
    let resolved := S.path d
    let s := s.emit [.call .openFile resolved]
    match env.read resolved with
    | none => s.complain "Arquivo nao encontrado: " resolved
    | some bytes => s.emit (catBytes bytes ++ [.close])) s

def echoArgs : List CStr → List Effect
  | [] => []
  | arg :: args => .print arg :: args.flatMap fun arg => [.print (asciiBytes " "), .print arg]

def cmdEcho (args : List CStr) (s : Session D) : Session D :=
  s.emit (echoArgs (args.drop 1) ++ [.print (asciiBytes "\n")])

/-- `gui` is `g_shell_context_gui`. -/
def cmdRun (gui : Bool) (args : List CStr) (s : Session D) : Session D :=
  if gui then s.print "run: desabilitado no Terminal da GUI; use o console.\n"
  else
    match args[1]? with
    | none => s.print "Uso: run <elf>\n"
    | some arg =>
      if endsWith arg (asciiBytes ".epk") then
        s.print "Pacotes .epk nao sao executaveis ELF. Use: run shell.elf\n"
      else
        withPath S "run" arg (fun d =>
          let resolved := S.path d
          let s := s.emit [.call .elfLoad resolved]
          if env.load resolved then (s.print "Executando ELF...\n").emit [.enterUsermode]
          else s.complain "Falha ao carregar ELF: " resolved) s

/-- The commands of `shell_dispatch_line` without a path -/
def otherCommands : List String :=
  ["help", "clear", "gpuinfo", "gui", "neofetch", "ip", "http", "ping", "dns", "fetch", "date",
    "uptime", "ps", "shutdown", "reboot"]

def shellDispatchLine (gui : Bool) (line : CStr) (s : Session D) : Session D :=
  match tokenize line SHELL_TOKEN_MAX with
  | [] => s
  | cmd :: rest =>
    let args := cmd :: rest
    if cmd = asciiBytes "ls" then cmdLs S env (args.getD 1 []) s
    else if cmd = asciiBytes "cd" then cmdCd S env args s
    else if cmd = asciiBytes "cat" then cmdCat S env (args.getD 1 []) s
    else if cmd = asciiBytes "mkdir" then cmdMkdir S env args s
    else if cmd = asciiBytes "touch" then cmdTouch S env args s
    else if cmd = asciiBytes "echo" then cmdEcho args s
    else if cmd = asciiBytes "run" then cmdRun S env gui args s
    else if (otherCommands.map asciiBytes).contains cmd then s.emit [.command args]
    else
      s.emit [.setColor 0x0C 0x00, .print (asciiBytes "Comando nao encontrado: "),
        .setColor 0x0F 0x00, .print cmd, .print (asciiBytes "\n")]

end Commands

structure Line where
  text : CStr
  gui : Bool
  env : Answers

def shellRun (S : Dirs D) (s : Session D) (ls : List Line) : Session D :=
  ls.foldl (fun s l => shellDispatchLine S l.env l.gui l.text s) s

def bootSession : Session CStr := ⟨[SLASH], []⟩

-- ---------------------------------------------------------------------------
-- Directories as parts
-- ---------------------------------------------------------------------------

/-- A directory that `g_cwd` has room for -/
structure WorkDir where
  parts : List CStr
  kept : ∀ c ∈ parts, pathRules.Kept c
  depth : parts.length ≤ 32
  short : (pathRules.join parts).length < CWD_MAX

namespace WorkDir

def root : WorkDir := ⟨[], List.forall_mem_nil _, Nat.zero_le _, by decide⟩

def path (d : WorkDir) : CStr := pathRules.join d.parts

def start (d : WorkDir) (input : CStr) : List CStr :=
  if input.head? = some SLASH then [] else d.parts

def walk (d : WorkDir) (input : CStr) : List CStr := pathRules.walk (d.start input) input

structure Room (d : WorkDir) (input : CStr) : Prop where
  within : pathRules.Within 32 (d.start input) (pathParts input)
  short : (pathRules.join (d.walk input)).length < CWD_MAX

variable {d : WorkDir} {input : CStr}

theorem start_kept (d : WorkDir) (input : CStr) : ∀ c ∈ d.start input, pathRules.Kept c := by
  rw [start]
  split
  · exact List.forall_mem_nil _
  · exact d.kept

theorem start_depth (d : WorkDir) (input : CStr) : (d.start input).length ≤ 32 := by
  rw [start]
  split
  · exact Nat.zero_le _
  · exact d.depth

def goto (d : WorkDir) (h : d.Room input) : WorkDir where
  parts := d.walk input
  kept := PathRules.foldl_push_kept (d.start_kept input) (pathRules.splitOn_whole input)
  depth := by
    have hend := h.within (pathParts input).length
    rwa [List.take_length] at hend
  short := h.short

open Classical in
/-- What `resolve_path` is for -/
noncomputable def resolve (d : WorkDir) (input : CStr) : Option WorkDir :=
  if h : d.Room input then some (d.goto h) else none

/-- What `resolve_path` has in `combined` -/
def combined (d : WorkDir) (input : CStr) : CStr :=
  if input = [] then d.path
  else if input.head? = some SLASH then input
  else d.path ++ SLASH :: input

theorem resolvePath_combined (d : WorkDir) (hlen : input.length < SHELL_LINE_MAX) :
    resolvePath d.path (some input) CWD_MAX = normalizePath (d.combined input) CWD_MAX := by
  have hshort : d.path.length < 256 := d.short
  rw [SHELL_LINE_MAX] at hlen
  cases input with
  | nil =>
    rw [resolvePath, combined, if_pos rfl, List.take_of_length_le]
    rw [COMBINED_MAX]
    omega
  | cons c rest =>
    rw [resolvePath, combined, if_neg (List.cons_ne_nil c rest), List.head?_cons]
    by_cases hc : c = SLASH
    · rw [if_pos hc, if_pos (congrArg some hc), List.take_of_length_le]
      rw [COMBINED_MAX]
      omega
    · rw [if_neg hc, if_neg fun h => hc (Option.some.inj h), if_neg]
      rw [COMBINED_MAX]
      omega

theorem foldlM_path (d : WorkDir) :
    (pathParts d.path).foldlM (pathRules.pushWithin 32) [] = some d.parts := by
  rw [pathParts, path]
  have hwithin := pathRules.within_join d.kept d.depth
  have hwalk := pathRules.walk_join d.kept
  exact (pathRules.foldlM_some (Nat.zero_le _) hwithin).trans (congrArg some hwalk)

/-- The parts of `g_cwd` are pushed first, and then those of the path. -/
theorem foldlM_combined (d : WorkDir) (input : CStr) :
    (pathParts (d.combined input)).foldlM (pathRules.pushWithin 32) [] =
      (pathParts input).foldlM (pathRules.pushWithin 32) (d.start input) := by
  rw [combined, start]
  split
  · next hnil =>
    subst hnil
    exact d.foldlM_path
  · split
    · rfl
    · rw [pathParts, List.splitOn_append_cons_self, List.foldlM_append, ← pathParts, foldlM_path]
      rfl

theorem resolvePath_room (h : d.Room input) (hlen : input.length < SHELL_LINE_MAX) :
    resolvePath d.path (some input) CWD_MAX = (0, (d.goto h).path ++ [0]) := by
  rw [resolvePath_combined d hlen, normalizePath, normalizeSegs_eq (Nat.lt_succ_self _),
    foldlM_combined, pathRules.foldlM_some (d.start_depth input) h.within]
  obtain ⟨hr, -⟩ | ⟨-, hle, -⟩ := rebuildPath_join (show 2 ≤ CWD_MAX by decide) (d.walk input)
  · exact hr
  · exact absurd h.short (Nat.not_lt.mpr hle)

theorem resolvePath_noRoom (h : ¬ d.Room input) (hlen : input.length < SHELL_LINE_MAX) :
    (resolvePath d.path (some input) CWD_MAX).1 = -1 := by
  rw [resolvePath_combined d hlen, normalizePath, normalizeSegs_eq (Nat.lt_succ_self _),
    foldlM_combined]
  by_cases hwithin : pathRules.Within 32 (d.start input) (pathParts input)
  · rw [pathRules.foldlM_some (d.start_depth input) hwithin]
    obtain ⟨-, hlt⟩ | ⟨hr, -, -⟩ := rebuildPath_join (show 2 ≤ CWD_MAX by decide) (d.walk input)
    · exact absurd ⟨hwithin, hlt⟩ h
    · exact hr
  · rw [pathRules.foldlM_none (d.start_depth input) hwithin]

end WorkDir

noncomputable def partDirs : Dirs WorkDir := ⟨WorkDir.resolve, WorkDir.path, id⟩

section Sessions

-- ---------------------------------------------------------------------------
-- Words
-- ---------------------------------------------------------------------------

variable {d : WorkDir} {w input line : CStr} {args : List CStr} {cs : List CStr} {x : UInt8}

structure Typed (w : CStr) : Prop where
  short : w.length < SHELL_LINE_MAX
  noNul : 0 ∉ w

theorem Typed.sublist (h : Typed line) (hw : w.Sublist line) : Typed w :=
  ⟨hw.length_le.trans_lt h.short, fun h0 => h.noNul (hw.subset h0)⟩

theorem Typed.empty : Typed [] := ⟨by decide, List.not_mem_nil⟩

theorem Typed.slash : Typed [SLASH] := ⟨by decide, by decide⟩

theorem Typed.getD (h : ∀ w ∈ args, Typed w) (hx : Typed w) (i : Nat) : Typed (args.getD i w) := by
  rw [List.getD_eq_getElem?_getD]
  cases hi : args[i]? with
  | none => exact hx
  | some a => exact h a (List.mem_of_getElem? hi)

theorem tokens_sublist (room : Nat) (p : CStr) : ∀ w ∈ tokens room p, w.Sublist p := by
  induction room generalizing p with
  | zero => exact List.forall_mem_nil _
  | succ room ih =>
    rw [tokens]
    have hfront := List.dropWhile_sublist (l := p) IsBlank
    split
    · exact List.forall_mem_nil _
    · rw [List.forall_mem_cons]
      refine ⟨(List.takeWhile_sublist _).trans hfront, fun w hw => ?_⟩
      have hbehind := (List.dropWhile_sublist (fun b => !IsBlank b)).trans hfront
      exact (ih _ w hw).trans ((List.drop_sublist ..).trans hbehind)

theorem tokenize_typed (h : Typed line) : ∀ w ∈ tokenize line SHELL_TOKEN_MAX, Typed w :=
  fun w hw => h.sublist (tokens_sublist _ line w hw)

theorem mem_join : x ∈ pathRules.join cs ↔ x = SLASH ∨ ∃ c ∈ cs, x ∈ c := by
  cases cs with
  | nil => simp [PathRules.join, pathRules]
  | cons c cs =>
    simp only [join_cons, behindSlashes, List.mem_append, List.mem_flatMap, List.mem_cons,
      List.not_mem_nil, or_false, exists_eq_or_imp]
    grind

theorem noNul_walk (hd : 0 ∉ d.path) (hin : 0 ∉ input) : 0 ∉ pathRules.join (d.walk input) := by
  rw [mem_join, not_or]
  refine ⟨by decide, ?_⟩
  rintro ⟨c, hc, h0⟩
  obtain hstart | hpart := pathRules.mem_foldl_push hc
  · rw [WorkDir.start] at hstart
    split at hstart
    · exact absurd hstart List.not_mem_nil
    · exact hd (mem_join.mpr (.inr ⟨c, hstart, h0⟩))
  · exact hin (pathRules.mem_of_mem_splitOn hpart h0)

theorem textDirs_resolve (hd : 0 ∉ d.path) (hin : Typed input) :
    textDirs.resolve d.path input = (d.resolve input).map WorkDir.path := by
  simp only [textDirs, WorkDir.resolve]
  by_cases h : d.Room input
  · have hclean : ∀ b ∈ (d.goto h).path, (b != 0) = true := fun b hb =>
      bne_iff_ne.mpr (ne_of_mem_of_not_mem hb (noNul_walk hd hin.noNul))
    rw [dif_pos h, WorkDir.resolvePath_room h hin.short, if_neg (Int.lt_irrefl 0),
      List.takeWhile_append_of_pos hclean]
    exact congrArg some (List.append_nil _)
  · rw [dif_neg h, WorkDir.resolvePath_noRoom h hin.short]
    rfl

-- ---------------------------------------------------------------------------
-- The sessions
-- ---------------------------------------------------------------------------

/-- `g_cwd` is the path of the directory, and the two have done the same with such paths only. -/
structure Follows (s : Session CStr) (t : Session WorkDir) : Prop where
  cwd : s.cwd = t.cwd.path
  noNul : 0 ∉ t.cwd.path
  effects : s.effects = t.effects
  paths : ∀ f path, .call f path ∈ t.effects → ∃ d : WorkDir, path = d.path

variable {s : Session CStr} {t : Session WorkDir} {ls : List Line} {env : Answers} {name : String}
  {k : CStr → Session CStr} {k' : WorkDir → Session WorkDir}

theorem Follows.emit (h : Follows s t) (es : List Effect)
    (hes : ∀ f path, .call f path ∈ es → ∃ d : WorkDir, path = d.path) :
    Follows (s.emit es) (t.emit es) := by
  refine ⟨h.cwd, h.noNul, congrArg (· ++ es) h.effects, fun f path hpath => ?_⟩
  exact (List.mem_append.mp hpath).elim (h.paths f path) (hes f path)

theorem Follows.call (h : Follows s t) (f : PathCall) (d : WorkDir) :
    Follows (s.emit [.call f d.path]) (t.emit [.call f d.path]) := by
  refine h.emit _ fun f' path hpath => ⟨d, ?_⟩
  cases List.mem_singleton.mp hpath
  rfl

theorem Follows.print (h : Follows s t) (text : String) : Follows (s.print text) (t.print text) :=
  h.emit _ (by simp)

theorem Follows.complain (h : Follows s t) (text : String) (path : CStr) :
    Follows (s.complain text path) (t.complain text path) := h.emit _ (by simp)

theorem Follows.ite {c : Prop} [Decidable c] {s' : Session CStr} {t' : Session WorkDir}
    (h : Follows s t) (h' : Follows s' t') :
    Follows (if c then s else s') (if c then t else t') := by
  split
  · exact h
  · exact h'

theorem Follows.withPath (h : Follows s t) (hin : Typed input)
    (hk : ∀ d : WorkDir, 0 ∉ d.path → Follows (k d.path) (k' d)) :
    Follows (withPath textDirs name input k s) (withPath partDirs name input k' t) := by
  have hpart : partDirs.resolve t.cwd input = t.cwd.resolve input := rfl
  rw [Commands.withPath, Commands.withPath, h.cwd, textDirs_resolve h.noNul hin, hpart,
    WorkDir.resolve]
  by_cases hroom : t.cwd.Room input
  · rw [dif_pos hroom]
    exact hk _ (noNul_walk h.noNul hin.noNul)
  · rw [dif_neg hroom]
    exact h.print _

theorem lsCb_calls (entry : CStr × UInt32 × UInt8) (f : PathCall) (path : CStr) :
    .call f path ∉ lsCb entry := by
  by_cases hdir : entry.2.2 &&& VFS_DIR = 0 <;> simp [lsCb, hdir]

theorem Follows.cmdLs (h : Follows s t) (hin : Typed input) :
    Follows (cmdLs textDirs env input s) (cmdLs partDirs env input t) := by
  refine h.withPath hin fun d hd => ?_
  have hlist := h.emit ([.print d.path, .print (asciiBytes ":\n"), .call .readdir d.path] ++
    (env.readdir d.path).flatMap lsCb) fun f path hpath => by
      simp only [List.mem_append, List.mem_cons, List.mem_flatMap, lsCb_calls, reduceCtorEq,
        false_or, Effect.call.injEq, List.not_mem_nil, or_false, and_false, exists_false] at hpath
      exact ⟨d, hpath.2⟩
  exact (hlist.print _).ite hlist

theorem Follows.cmdCd (h : Follows s t) (hargs : ∀ w ∈ args, Typed w) :
    Follows (cmdCd textDirs env args s) (cmdCd partDirs env args t) := by
  refine h.withPath (Typed.getD hargs .slash 1) fun d hd => ?_
  have hstat := h.call .stat d
  dsimp only [textDirs, partDirs, id]
  split
  · exact hstat.complain _ _
  · split
    · exact hstat.complain _ _
    · have hcopy : d.path.take (CWD_MAX - 1) = d.path :=
        List.take_of_length_le (Nat.le_pred_of_lt d.short)
      exact ⟨hcopy, hd, hstat.effects, hstat.paths⟩

theorem Follows.cmdMkdir (h : Follows s t) (hargs : ∀ w ∈ args, Typed w) :
    Follows (cmdMkdir textDirs env args s) (cmdMkdir partDirs env args t) := by
  unfold Commands.cmdMkdir
  split
  · exact h.print _
  · next arg harg =>
    refine h.withPath (hargs arg (List.mem_of_getElem? harg)) fun d hd => ?_
    have hcall := h.call .mkdir d
    exact hcall.ite (hcall.complain _ _)

theorem Follows.cmdTouch (h : Follows s t) (hargs : ∀ w ∈ args, Typed w) :
    Follows (cmdTouch textDirs env args s) (cmdTouch partDirs env args t) := by
  unfold Commands.cmdTouch
  split
  · exact h.print _
  · next arg harg =>
    refine h.withPath (hargs arg (List.mem_of_getElem? harg)) fun d hd => ?_
    have hcall := h.call .create d
    exact .ite (hcall.emit _ (by simp)) (hcall.complain _ _)

theorem catBytes_calls (bytes : CStr) (f : PathCall) (path : CStr) :
    .call f path ∉ catBytes bytes := by
  rw [catBytes]
  split
  · simp
  · split <;> simp

theorem Follows.cmdCat (h : Follows s t) (hin : Typed input) :
    Follows (cmdCat textDirs env input s) (cmdCat partDirs env input t) := by
  refine h.withPath hin fun d hd => ?_
  have hcall := h.call .openFile d
  dsimp only [textDirs, partDirs, id]
  split
  · exact hcall.complain _ _
  · refine hcall.emit _ fun f path hpath => ?_
    simp [catBytes_calls] at hpath

theorem Follows.cmdEcho (h : Follows s t) (args : List CStr) :
    Follows (cmdEcho args s) (cmdEcho args t) := by
  refine h.emit _ fun f path hpath => ?_
  cases hdrop : args.drop 1 <;> simp [hdrop, echoArgs] at hpath

theorem Follows.cmdRun (h : Follows s t) (gui : Bool) (hargs : ∀ w ∈ args, Typed w) :
    Follows (cmdRun textDirs env gui args s) (cmdRun partDirs env gui args t) := by
  unfold Commands.cmdRun
  split
  · exact h.print _
  split
  · exact h.print _
  · next arg harg =>
    split
    · exact h.print _
    refine h.withPath (hargs arg (List.mem_of_getElem? harg)) fun d hd => ?_
    have hcall := h.call .elfLoad d
    exact .ite ((hcall.print _).emit _ (by simp)) (hcall.complain _ _)

theorem Follows.shellDispatchLine (h : Follows s t) (gui : Bool) (hline : Typed line) :
    Follows (shellDispatchLine textDirs env gui line s)
      (shellDispatchLine partDirs env gui line t) := by
  have hargs := tokenize_typed hline
  unfold Commands.shellDispatchLine
  split
  · exact h
  · next cmd rest htokens =>
    rw [htokens] at hargs
    have hfirst := Typed.getD hargs .empty 1
    refine .ite (h.cmdLs hfirst) (.ite (h.cmdCd hargs) (.ite (h.cmdCat hfirst) ?_))
    refine .ite (h.cmdMkdir hargs) (.ite (h.cmdTouch hargs) (.ite (h.cmdEcho _) ?_))
    refine .ite (h.cmdRun gui hargs) (.ite ?_ ?_)
    · exact h.emit _ (by simp)
    · exact h.emit _ (by simp)

theorem Follows.run (h : Follows s t) (hls : ∀ l ∈ ls, Typed l.text) :
    Follows (shellRun textDirs s ls) (shellRun partDirs t ls) := by
  induction ls generalizing s t with
  | nil => exact h
  | cons l ls ih =>
    rw [List.forall_mem_cons] at hls
    exact ih (h.shellDispatchLine l.gui hls.1) hls.2

theorem bootSession_follows : Follows bootSession ⟨.root, []⟩ := ⟨rfl, by decide, rfl, by simp⟩

/-- In every session `g_cwd` is the path of the directory that the lines lead to, and the file
system gets paths of directories only. -/
theorem session_paths (ls : List Line) (hls : ∀ l ∈ ls, Typed l.text) :
    let s := shellRun textDirs bootSession ls
    let t := shellRun partDirs ⟨.root, []⟩ ls
    s.cwd = t.cwd.path ∧ s.effects = t.effects ∧
      ∀ f path, .call f path ∈ s.effects → ∃ d : WorkDir, path = d.path := by
  have h := bootSession_follows.run hls
  exact ⟨h.cwd, h.effects, h.effects ▸ h.paths⟩

def allDirs : Answers where
  readdir _ := []
  stat _ := some VFS_DIR
  mkdir _ := true
  create _ := true
  read _ := none
  load _ := false

/-- `cd a/../b`, and `ls` in a window -/
def cdAndLs : List Line :=
  [⟨asciiBytes "cd a/../b", false, allDirs⟩, ⟨asciiBytes "ls", true, allDirs⟩]

theorem session_paths_cd :
    (shellRun textDirs bootSession cdAndLs).cwd = asciiBytes "/b" ∧
      (∃ d : WorkDir, (shellRun textDirs bootSession cdAndLs).cwd = d.path) ∧
      ∀ f path, .call f path ∈ (shellRun textDirs bootSession cdAndLs).effects →
        ∃ d : WorkDir, path = d.path := by
  have htyped : ∀ l ∈ cdAndLs, Typed l.text := by
    simp only [cdAndLs, List.forall_mem_cons]
    exact ⟨⟨by decide, by decide⟩, ⟨by decide, by decide⟩, List.forall_mem_nil _⟩
  obtain ⟨hcwd, -, hpaths⟩ := session_paths cdAndLs htyped
  exact ⟨by decide +kernel, ⟨_, hcwd⟩, hpaths⟩

end Sessions

-- ---------------------------------------------------------------------------
-- Addresses
-- ---------------------------------------------------------------------------

def FULL_STOP : UInt8 := 0x2E

def IsDigit (c : UInt8) : Bool := c ≥ 0x30 ∧ c ≤ 0x39

/-- The `while` loop of `parse_ip`: the number and what is behind it -/
def parseNumber : Nat → CStr → Option (Nat × CStr)
  | n, [] => some (n, [])
  | n, c :: s =>
    if IsDigit c then
      let n := n * 10 + (c.toNat - 0x30)
      if n > 255 then none else parseNumber n s
    else some (n, c :: s)

/-- The loop over the parts; all numbers are below 256, so that 32 bits are enough. -/
def parseParts : List Nat → Nat → CStr → Option Nat
  | [], ip, _ => some ip
  | part :: rest, ip, s =>
    if !s.head?.any IsDigit then none
    else
      match parseNumber 0 s with
      | none => none
      | some (n, s) =>
        if part < 3 then
          match s with
          | [] => none
          | c :: s => if c ≠ FULL_STOP then none else parseParts rest (ip ||| n <<< (part * 8)) s
        else parseParts rest (ip ||| n <<< (part * 8)) s

def parseIp (s : CStr) : Option Nat := parseParts (List.range 4) 0 s

/-- A round of the loop of `print_ip` up to its point -/
def printPart (n : Nat) : CStr :=
  (if n ≥ 100 then [UInt8.ofNat (0x30 + n / 100)] else []) ++
    (if n ≥ 10 then [UInt8.ofNat (0x30 + n / 10 % 10)] else []) ++ [UInt8.ofNat (0x30 + n % 10)]

def ipPart (ip part : Nat) : Nat := ip >>> (part * 8) &&& 0xFF

def printIp (ip : Nat) : CStr :=
  (List.range 4).flatMap fun part =>
    printPart (ipPart ip part) ++ if part < 3 then [FULL_STOP] else []

def digitsValue (n : Nat) (w : CStr) : Nat := w.foldl (fun n c => n * 10 + (c.toNat - 0x30)) n

theorem printU64Loop_eq (hv : v < 10 ^ i) (buf : CStr) :
    printU64Loop i v buf =
      (Nat.digits 10 v).reverse.map (fun d => UInt8.ofNat (0x30 + d)) ++ buf := by
  induction i generalizing v buf with
  | zero =>
    obtain rfl : v = 0 := Nat.lt_one_iff.mp hv
    rfl
  | succ i ih =>
    rw [printU64Loop]
    by_cases hzero : v = 0
    · rw [if_pos hzero, hzero]
      rfl
    · have hsmall : v / 10 < 10 ^ i := Nat.div_lt_of_lt_mul (by rwa [Nat.pow_succ'] at hv)
      rw [if_neg hzero, ih hsmall, Nat.digits_def' (by decide) (Nat.pos_of_ne_zero hzero)]
      simp

theorem printU64_eq (hv : v < 2 ^ 64) :
    printU64 v = (digitsOf 10 v).map fun d => UInt8.ofNat (0x30 + d) := by
  rw [printU64, digitsOf]
  split
  · rfl
  · exact (printU64Loop_eq (hv.trans (by decide)) []).trans (List.append_nil _)

structure Octet (w : CStr) (n : Nat) : Prop where
  ne : w ≠ []
  digits : ∀ c ∈ w, IsDigit c = true
  value : digitsValue 0 w = n
  small : n < 256

/-- Numerals with points between them; what is behind the last one does not go on with a digit. -/
inductive Dotted : List Nat → CStr → Prop
  | last (hw : Octet w n) (hrest : rest.head?.any IsDigit = false) : Dotted [n] (w ++ rest)
  | cons (hw : Octet w n) (h : Dotted ns s) : Dotted (n :: ns) (w ++ FULL_STOP :: s)

theorem digitsValue_le (n : Nat) (w : CStr) : n ≤ digitsValue n w := by
  induction w generalizing n with
  | nil => exact Nat.le_refl n
  | cons c w ih => exact Nat.le_trans (by omega) (ih (n * 10 + (c.toNat - 0x30)))

theorem parseNumber_eq (hn : n ≤ 255) (s : CStr) :
    parseNumber n s =
      if digitsValue n (s.takeWhile IsDigit) ≤ 255 then
        some (digitsValue n (s.takeWhile IsDigit), s.dropWhile IsDigit)
      else none := by
  induction s generalizing n with
  | nil => simp [parseNumber, digitsValue, hn]
  | cons c s ih =>
    rw [parseNumber]
    by_cases hc : IsDigit c
    · rw [if_pos hc, List.takeWhile_cons_of_pos hc, List.dropWhile_cons_of_pos hc]
      have hstep : digitsValue n (c :: s.takeWhile IsDigit) =
        digitsValue (n * 10 + (c.toNat - 0x30)) (s.takeWhile IsDigit) := rfl
      have hle := digitsValue_le (n * 10 + (c.toNat - 0x30)) (s.takeWhile IsDigit)
      rw [hstep]
      dsimp only
      split
      · rw [if_neg (by omega)]
      · exact ih (by omega)
    · rw [if_neg hc, List.takeWhile_cons_of_neg hc, List.dropWhile_cons_of_neg hc]
      exact (if_pos hn).symm

theorem takeWhile_octet (hw : Octet w n) (hrest : rest.head?.any IsDigit = false) :
    (w ++ rest).takeWhile IsDigit = w ∧ (w ++ rest).dropWhile IsDigit = rest := by
  rw [List.takeWhile_append_of_pos hw.digits, List.dropWhile_append_of_pos hw.digits]
  cases rest with
  | nil => exact ⟨List.append_nil w, rfl⟩
  | cons c rest =>
    have hc : ¬ IsDigit c = true := by simpa using hrest
    rw [List.takeWhile_cons_of_neg hc, List.dropWhile_cons_of_neg hc]
    exact ⟨List.append_nil w, rfl⟩

theorem parseNumber_iff (s : CStr) (n : Nat) (rest : CStr) :
    (s.head?.any IsDigit = true ∧ parseNumber 0 s = some (n, rest)) ↔
      ∃ w, Octet w n ∧ s = w ++ rest ∧ rest.head?.any IsDigit = false := by
  rw [parseNumber_eq (Nat.zero_le 255)]
  constructor
  · rintro ⟨hhead, hread⟩
    split at hread
    · next hsmall =>
      cases hread
      refine ⟨s.takeWhile IsDigit, ⟨?_, fun c hc => ?_, rfl, Nat.lt_succ_of_le hsmall⟩,
        (List.takeWhile_append_dropWhile ..).symm, ?_⟩
      · cases s with
        | nil => cases hhead
        | cons c s =>
          rw [List.takeWhile_cons_of_pos (by simpa using hhead)]
          exact List.cons_ne_nil _ _
      · exact List.all_eq_true.mp List.all_takeWhile c hc
      · have := List.head?_dropWhile_not IsDigit s
        cases hdrop : s.dropWhile IsDigit with
        | nil => rfl
        | cons c rest =>
          rw [hdrop] at this
          simpa using this
    · cases hread
  · rintro ⟨w, hw, rfl, hrest⟩
    obtain ⟨htake, hdrop⟩ := takeWhile_octet hw hrest
    rw [htake, hdrop, hw.value, if_pos (Nat.le_of_lt_succ hw.small)]
    refine ⟨?_, rfl⟩
    obtain ⟨c, w, rfl⟩ := List.exists_cons_of_ne_nil hw.ne
    simpa using hw.digits c (List.mem_cons_self ..)

theorem parseParts_cons (part : Nat) (parts : List Nat) (ip : Nat) (s : CStr) (v : Nat) :
    parseParts (part :: parts) ip s = some v ↔
      ∃ w n rest, Octet w n ∧ s = w ++ rest ∧ rest.head?.any IsDigit = false ∧
        if part < 3 then
          ∃ s', rest = FULL_STOP :: s' ∧ parseParts parts (ip ||| n <<< (part * 8)) s' = some v
        else parseParts parts (ip ||| n <<< (part * 8)) rest = some v := by
  have hround : parseParts (part :: parts) ip s = some v ↔
      ∃ n rest, (s.head?.any IsDigit = true ∧ parseNumber 0 s = some (n, rest)) ∧
        if part < 3 then
          ∃ s', rest = FULL_STOP :: s' ∧ parseParts parts (ip ||| n <<< (part * 8)) s' = some v
        else parseParts parts (ip ||| n <<< (part * 8)) rest = some v := by
    rw [parseParts]
    cases hhead : s.head?.any IsDigit with
    | false => simp
    | true =>
      cases hread : parseNumber 0 s with
      | none => simp
      | some r =>
        obtain ⟨n, rest⟩ := r
        by_cases hpart : part < 3
        · cases rest with
          | nil => simp [hpart]
          | cons c rest => by_cases hc : c = FULL_STOP <;> simp [hpart, hc]
        · simp [hpart]
  rw [hround]
  constructor
  · rintro ⟨n, rest, hread, hnext⟩
    obtain ⟨w, hw, hs, hrest⟩ := (parseNumber_iff s n rest).mp hread
    exact ⟨w, n, rest, hw, hs, hrest, hnext⟩
  · rintro ⟨w, n, rest, hw, hs, hrest, hnext⟩
    exact ⟨n, rest, (parseNumber_iff s n rest).mpr ⟨w, hw, hs, hrest⟩, hnext⟩

theorem or_shiftLeft (hip : ip < 256 ^ part) (n : Nat) :
    ip ||| n <<< (part * 8) = ip + 256 ^ part * n := by
  have hpow : 2 ^ (part * 8) = 256 ^ part := by rw [Nat.mul_comm, Nat.pow_mul]
  rw [Nat.or_comm, ← Nat.shiftLeft_add_eq_or_of_lt (by rwa [hpow]), Nat.shiftLeft_eq, hpow]
  ring

theorem parseParts_iff (m part : Nat) (hpart : part + m = 3) (hip : ip < 256 ^ part) (s : CStr)
    (v : Nat) : parseParts (List.range' part (m + 1)) ip s = some v ↔
      ∃ ns, ns.length = m + 1 ∧ Dotted ns s ∧ v = ip + 256 ^ part * Nat.ofDigits 256 ns := by
  induction m generalizing part ip s with
  | zero =>
    rw [List.range'_succ, parseParts_cons]
    simp only [show ¬ part < 3 by omega, if_false, List.range'_zero, parseParts, Option.some_inj]
    constructor
    · rintro ⟨w, n, rest, hw, rfl, hrest, rfl⟩
      refine ⟨[n], rfl, .last hw hrest, ?_⟩
      rw [or_shiftLeft hip, Nat.ofDigits_singleton]
    · rintro ⟨ns, hlen, hdotted, rfl⟩
      cases hdotted with
      | last hw hrest =>
        refine ⟨_, _, _, hw, rfl, hrest, ?_⟩
        rw [or_shiftLeft hip, Nat.ofDigits_singleton]
      | cons hw h => cases List.length_eq_zero_iff.mp (Nat.succ.inj hlen); cases h
  | succ m ih =>
    rw [List.range'_succ, parseParts_cons]
    simp only [show part < 3 by omega, if_true]
    have hnext : ∀ n < 256, ip ||| n <<< (part * 8) < 256 ^ (part + 1) := by
      intro n hn
      have hroom := Nat.mul_le_mul_left (256 ^ part) (Nat.succ_le_of_lt hn)
      rw [Nat.mul_succ] at hroom
      rw [or_shiftLeft hip, Nat.pow_succ]
      omega
    constructor
    · rintro ⟨w, n, rest, hw, rfl, hrest, s, rfl, hparse⟩
      obtain ⟨ns, hlen, hdotted, rfl⟩ := (ih (part + 1) (by omega) (hnext n hw.small) s).mp hparse
      refine ⟨n :: ns, congrArg (· + 1) hlen, .cons hw hdotted, ?_⟩
      rw [or_shiftLeft hip, Nat.ofDigits_cons, Nat.pow_succ]
      ring
    · rintro ⟨ns, hlen, hdotted, rfl⟩
      cases hdotted with
      | last => cases hlen
      | cons hw h =>
        refine ⟨_, _, _, hw, rfl, rfl, _, rfl, ?_⟩
        refine (ih (part + 1) (by omega) (hnext _ hw.small) _).mpr ⟨_, Nat.succ.inj hlen, h, ?_⟩
        rw [or_shiftLeft hip, Nat.ofDigits_cons, Nat.pow_succ]
        ring

theorem octet_printPart (h : n < 256) : Octet (printPart n) n := by
  have hall : ∀ n < 256, printPart n ≠ [] ∧ (printPart n).all IsDigit = true ∧
      digitsValue 0 (printPart n) = n := by decide +kernel
  obtain ⟨hne, hdigits, hvalue⟩ := hall n h
  exact ⟨hne, List.all_eq_true.mp hdigits, hvalue, h⟩

theorem ipPart_lt (ip part : Nat) : ipPart ip part < 256 :=
  Nat.and_lt_two_pow _ (show 0xFF < 2 ^ 8 by decide)

/-- `parse_ip` takes four numerals below 256 with points between them, and what `print_ip` prints
is read as the same address. -/
theorem addresses :
    (∀ s ip, parseIp s = some ip ↔
      ∃ ns, ns.length = 4 ∧ Dotted ns s ∧ ip = Nat.ofDigits 256 ns) ∧
    ∀ ip < 2 ^ 32, ∀ rest : CStr, rest.head?.any IsDigit = false →
      parseIp (printIp ip ++ rest) = some ip := by
  have hiff : ∀ s ip, parseIp s = some ip ↔
      ∃ ns, ns.length = 4 ∧ Dotted ns s ∧ ip = Nat.ofDigits 256 ns := by
    intro s ip
    rw [parseIp, List.range_eq_range', parseParts_iff 3 0 rfl (by decide)]
    simp
  refine ⟨hiff, fun ip hip rest hrest => (hiff _ _).mpr ?_⟩
  refine ⟨(List.range 4).map (ipPart ip), rfl, ?_, ?_⟩
  · have hpart := fun part => octet_printPart (ipPart_lt ip part)
    have hall := Dotted.cons (hpart 0) (.cons (hpart 1) (.cons (hpart 2) (.last (hpart 3) hrest)))
    have htext : printIp ip ++ rest = printPart (ipPart ip 0) ++ FULL_STOP ::
        (printPart (ipPart ip 1) ++ FULL_STOP :: (printPart (ipPart ip 2) ++ FULL_STOP ::
          (printPart (ipPart ip 3) ++ rest))) := by
      simp [printIp, List.range_succ]
    rw [htext]
    exact hall
  · have hand : ∀ n, n &&& 0xFF = n % 256 := fun n => Nat.and_two_pow_sub_one_eq_mod n 8
    simp only [List.range_succ, List.range_zero, List.nil_append, List.cons_append, List.map_cons,
      List.map_nil, ipPart, hand, Nat.ofDigits_cons, Nat.ofDigits_nil, Nat.shiftRight_eq_div_pow]
    omega

end EponaOS.Kernel.Commands
