import EponaOS.Fs.FatDir
import EponaOS.Fs.ReadCopies
import EponaOS.Fs.Vfs
import EponaOS.Kernel.Descriptors
import EponaOS.Kernel.PipeBytes
import EponaOS.Kernel.UserPtr

/-!
# Reading and writing through descriptors

`SYS_READ` and `SYS_WRITE` with all that they work on: the table of the current task, the
pipes and their bytes, the files, the memory of the user, the terminal and the keyboard.
Descriptor 0 of a read is the keyboard, and descriptors 1 and 2 of a write are the terminal,
whatever the table says.
-/

namespace EponaOS.Kernel.Io

open Bytes Fs Mm PipeBytes
open Function (update)

structure IoState where
  k : KernelState
  machine : Machine
  mem : Word → UInt8
  /-- `buf` of each of `g_pipes` -/
  pipeBufs : Nat → Nat → UInt8
  tree : Tree
  disk : Disk
  /-- what `term_putc` and `serial_putc` got -/
  term : List UInt8
  /-- what `keyboard_getc` will return -/
  keys : List Nat

/-- A call that waits for the other end of a pipe, in `task_yield`. -/
structure PipeWait where
  writes : Bool
  pipe : Nat
  buf : Word
  n : Word

inductive IoEnd
  /-- with what is in `rax` -/
  | returns (rax : Int) (s : IoState)
  /-- `keyboard_getc` is called again and again -/
  | polls (s : IoState)
  | yields (w : PipeWait) (s : IoState)
  /-- a struct that was freed, or a loop that does not end -/
  | lost

/-- The volume that is mounted, what a fresh buffer of the driver holds, and a bound for its loops. -/
structure Driver where
  fp : FatPrivate
  junk : Bytes
  fuel : Nat

-- ---------------------------------------------------------------------------
-- The memory of the user
-- ---------------------------------------------------------------------------

/-- The buffer at `buf`. -/
def bytesAt (mem : Word → UInt8) (buf : Word) (i : Nat) : UInt8 := mem (buf + BitVec.ofNat 64 i)

/-- The memory where the buffer at `buf` holds `out`. -/
def putBytes (buf : Word) (out : Bytes) (a : Word) : UInt8 := out (a - buf).toNat

def Valid (s : IoState) (buf n : Word) : Prop := validateUserPtr s.machine buf n = some true

instance : Decidable (Valid s buf n) := inferInstanceAs (Decidable (_ = _))

-- ---------------------------------------------------------------------------
-- Pipes
-- ---------------------------------------------------------------------------

def IoState.pipe (s : IoState) (p : Nat) : PipeBuf :=
  ⟨s.pipeBufs p, (s.k.gPipes p).head, (s.k.gPipes p).count⟩

def IoState.setPipe (s : IoState) (p : Nat) (b : PipeBuf) : IoState :=
  let pipe := { s.k.gPipes p with head := b.head, count := b.count }
  { s with
    k := { s.k with gPipes := update s.k.gPipes p pipe }
    pipeBufs := update s.pipeBufs p b.buf }

/-- From the loop around `task_yield` on; the call comes back here with the state that it finds then. -/
def pipeWriteCall (s : IoState) (p : Nat) (buf n : Word) : IoEnd :=
  if (s.k.gPipes p).count = PIPE_BUF_SIZE ∧ (s.k.gPipes p).readers > 0 then
    .yields ⟨true, p, buf, n⟩ s
  else if (s.k.gPipes p).readers = 0 then .returns (-1) s
  else
    match pipeWrite (s.pipe p) n.toNat (bytesAt s.mem buf) with
    | (r, b) => .returns r (s.setPipe p b)

def pipeReadCall (s : IoState) (p : Nat) (buf n : Word) : IoEnd :=
  if (s.k.gPipes p).count = 0 ∧ (s.k.gPipes p).writers > 0 then
    .yields ⟨false, p, buf, n⟩ s
  else if (s.k.gPipes p).count = 0 then .returns 0 s
  else
    match pipeRead (s.pipe p) n.toNat (bytesAt s.mem buf) with
    | (r, dst, b) => .returns r { s.setPipe p b with mem := putBytes buf dst }

/-- The call goes on behind `task_yield`. -/
def PipeWait.resume (w : PipeWait) (s : IoState) : IoEnd :=
  if w.writes then pipeWriteCall s w.pipe w.buf w.n else pipeReadCall s w.pipe w.buf w.n

-- ---------------------------------------------------------------------------
-- Files
-- ---------------------------------------------------------------------------

/-- `r->rax = (uint64_t)(n < 0 ? -1 : n)` -/
def fileRax (n : Int) : Int := if n < 0 then -1 else n

def IoState.setFile (s : IoState) (f : Nat) (file : OpenFile) : IoState :=
  { s with k := { s.k with files := update s.k.files f (some file) } }

def fileWriteCall (dr : Driver) (s : IoState) (f : Nat) (buf n : Word) : IoEnd :=
  match s.k.files f with
  | none => .lost
  | some file =>
    match s.tree.nodes file.node with
    | none => .lost
    | some node =>
      match vfsWrite dr.fp dr.junk dr.fuel node file.offset n.toNat (bytesAt s.mem buf) s.disk with
      | none => .lost
      | some (r, offset, node, disk) =>
        .returns (fileRax r) { s.setFile f { file with offset := offset } with
          tree := s.tree.setNode file.node node
          disk := disk }

def fileReadCall (dr : Driver) (s : IoState) (f : Nat) (buf n : Word) : IoEnd :=
  match s.k.files f with
  | none => .lost
  | some file =>
    match s.tree.nodes file.node with
    | none => .lost
    | some node =>
      match vfsRead dr.fp dr.fuel node file.offset n.toNat (bytesAt s.mem buf) s.disk with
      | none => .lost
      | some (r, offset, _, disk) =>
        let size := min n.toNat (remaining node file.offset)
        let copies := fatReadCopies dr.fp dr.fuel node file.offset size s.disk
        .returns (fileRax r) { s.setFile f { file with offset := offset } with
          mem := putBytes buf (copies.foldl Copied.put (bytesAt s.mem buf))
          disk := disk }

-- ---------------------------------------------------------------------------
-- The calls
-- ---------------------------------------------------------------------------

/-- `task_fd_get` in the current task, and the entry; `none` for `NULL`. -/
def IoState.entry (s : IoState) (fd : Nat) : Option FdEntry :=
  if s.k.gCurrent = 0 then none
  else
    match s.k.tasks s.k.gCurrent with
    | none => none
    | some cur =>
      if fd ≥ TASK_MAX_FD ∨ (cur.fd fd).used = false ∨ (cur.fd fd).ptr = 0 then none
      else some (cur.fd fd)

def termWrite (s : IoState) (buf n : Word) : IoEnd :=
  if ¬ Valid s buf n then .returns (-1) s
  else .returns n.toNat { s with term := s.term ++ (List.range n.toNat).map (bytesAt s.mem buf) }

def entryWrite (dr : Driver) (s : IoState) (e : Option FdEntry) (buf n : Word) : IoEnd :=
  match e with
  | none => .returns (-1) s
  | some e =>
    if e.type = FD_TYPE_PIPE_W then
      if ¬ Valid s buf n then .returns (-1) s else pipeWriteCall s (e.ptr - 1) buf n
    else if e.type = FD_TYPE_FILE then
      if ¬ Valid s buf n then .returns (-1) s else fileWriteCall dr s e.ptr buf n
    else .returns (-1) s

def sysWrite (dr : Driver) (s : IoState) (fd : Nat) (buf n : Word) : IoEnd :=
  if fd = FD_STDOUT ∨ fd = FD_STDERR then termWrite s buf n else entryWrite dr s (s.entry fd) buf n

/-- The loop of a read from the keyboard: what is stored for these keys when `n` more bytes are
wanted, and the keys that are left, `none` while it still polls. -/
def stdinLoop : List Nat → Nat → List UInt8 × Option (List Nat)
  | [], n => ([], if n = 0 then some [] else none)
  | c :: keys, n =>
    if n = 0 then ([], some (c :: keys))
    else if c = 0 ∨ c > 255 then stdinLoop keys n
    else if c = 10 then ([10], some keys)
    else
      match stdinLoop keys (n - 1) with
      | (stored, rest) => (UInt8.ofNat c :: stored, rest)

def storeFront (out : Bytes) (bs : List UInt8) (i : Nat) : UInt8 := (bs[i]?).getD (out i)

def stdinRead (s : IoState) (buf n : Word) : IoEnd :=
  if ¬ Valid s buf n then .returns (-1) s
  else
    match stdinLoop s.keys n.toNat with
    | (stored, rest) =>
      let s := { s with mem := putBytes buf (storeFront (bytesAt s.mem buf) stored) }
      match rest with
      | some keys => .returns stored.length { s with keys := keys }
      | none => .polls { s with keys := [] }

def entryRead (dr : Driver) (s : IoState) (e : Option FdEntry) (buf n : Word) : IoEnd :=
  match e with
  | none => .returns (-1) s
  | some e =>
    if e.type = FD_TYPE_PIPE_R then
      if ¬ Valid s buf n then .returns (-1) s else pipeReadCall s (e.ptr - 1) buf n
    else if e.type = FD_TYPE_FILE then
      if ¬ Valid s buf n then .returns (-1) s else fileReadCall dr s e.ptr buf n
    else .returns (-1) s

def sysRead (dr : Driver) (s : IoState) (fd : Nat) (buf n : Word) : IoEnd :=
  if fd = FD_STDIN then stdinRead s buf n else entryRead dr s (s.entry fd) buf n

-- ---------------------------------------------------------------------------
-- Behind a call
-- ---------------------------------------------------------------------------

variable {s' t : IoState}

def IoEnd.With (e : IoEnd) (s' : IoState) : Prop :=
  (∃ rax, e = .returns rax s') ∨ e = .polls s' ∨ ∃ w, e = .yields w s'

theorem IoEnd.with_returns (h : (IoEnd.returns rax t).With s') : s' = t := by
  obtain ⟨_, h⟩ | h | ⟨_, h⟩ := h
  · cases h
    rfl
  · cases h
  · cases h

theorem IoEnd.with_yields (h : (IoEnd.yields w t).With s') : s' = t := by
  obtain ⟨_, h⟩ | h | ⟨_, h⟩ := h
  · cases h
  · cases h
  · cases h
    rfl

theorem IoEnd.with_polls (h : (IoEnd.polls t).With s') : s' = t := by
  obtain ⟨_, h⟩ | h | ⟨_, h⟩ := h
  · cases h
  · cases h
    rfl
  · cases h

theorem IoEnd.not_lost : ¬ IoEnd.lost.With s' := by
  rintro (⟨_, h⟩ | h | ⟨_, h⟩) <;> cases h

end EponaOS.Kernel.Io
