import EponaOS.Fs.VfsPath
import EponaOS.Kernel.DescriptorIo
import EponaOS.Kernel.UserPath
import EponaOS.Mm.BootTables
import Mathlib.Data.Nat.Digits.Defs

/-!
# What system calls store for the user

The bytes that `SYS_READ`, `SYS_READDIR`, `SYS_STAT`, `SYS_PIPE` and `SYS_GETCWD` store, and
the ranges that they checked before. Two of them store a byte also into a buffer of length
0, which the check lets pass: `SYS_READDIR` its NUL and `SYS_GETCWD` the `/`.
-/

namespace EponaOS.Kernel.Io

open Bytes Fs Mm PipeBytes
open Function (update)

/-- The ranges that `validate_user_ptr` accepted, `rax`, and what is stored, in order. -/
structure Stores where
  checked : List (Word × Word)
  rax : Int
  stores : List (Word × UInt8)

def InRange (a : Word) (r : Word × Word) : Prop :=
  r.1.toNat ≤ a.toNat ∧ a.toNat < r.1.toNat + r.2.toNat

/-- Every byte that is stored lies in a range that was checked. -/
def Stores.Checked (r : Stores) : Prop := ∀ w ∈ r.stores, ∃ p ∈ r.checked, InRange w.1 p

def storeAt (p : Word) : Nat → List UInt8 → List (Word × UInt8)
  | _, [] => []
  | i, c :: cs => (p + BitVec.ofNat 64 i, c) :: storeAt p (i + 1) cs

def applyStores (mem : Word → UInt8) (stores : List (Word × UInt8)) : Word → UInt8 :=
  stores.foldl (fun m w => update m w.1 w.2) mem

-- ---------------------------------------------------------------------------
-- SYS_READDIR
-- ---------------------------------------------------------------------------

/-- The loop of `readdir_append`; `text` is what the buffer holds so far. -/
def readdirAppend (cap : Nat) : CStr → CStr → CStr
  | text, [] => text
  | text, c :: s => if text.length + 1 < cap then readdirAppend cap (text ++ [c]) s else text

/-- The digits in front of `num[i]`. -/
def sizeDigits : Nat → Nat → CStr → CStr
  | 0, _, num => num
  | i + 1, size, num =>
    if size ≠ 0 then sizeDigits i (size / 10) (UInt8.ofNat (48 + size % 10) :: num) else num

/-- `num` behind the conversion of `readdir_cb`. -/
def sizeText (size : Nat) : CStr := if size = 0 then [48] else sizeDigits 10 size []

/-- What `readdir_cb` appends for a node, one string after the other; it takes the size as `uint32_t`. -/
def entryParts (node : VfsNode) : List CStr :=
  node.name ::
    (if node.flags &&& VFS_DIR ≠ 0 then [cstr ['/']]
      else [cstr [' ', ' '], sizeText (node.size % 2 ^ 32), cstr [' ', 'b', 'y', 't', 'e', 's']]) ++
    [cstr ['\n']]

def readdirCb (cap : Nat) (text : CStr) (node : VfsNode) : CStr :=
  (entryParts node).foldl (readdirAppend cap) text

/-- The children that the callback gets, in order; the inner `none` is -1. -/
def vfsReaddir (fp : FatPrivate) (fuel : Nat) (path : CStr) (t : Tree) (d : Disk) :
    Option (Option (List VfsNode) × Tree × Disk) :=
  match vfsRest path with
  | none => some (none, t, d)
  | some rest =>
    match vfsResolve fp fuel rest t d with
    | none => none
    | some (none, t, d) => some (none, t, d)
    | some (some node, t, d) =>
      if t.hasFlag node VFS_DIR then
        (vfsLoad fp fuel node t d).map fun r =>
          (some ((r.1.children node).filterMap r.1.nodes), r)
      else some (none, t, d)

/-- Behind the checks of `SYS_READDIR`. -/
def readdirStores (out cap : Word) (found : Option (List VfsNode)) : Int × List (Word × UInt8) :=
  match found with
  | none => (-1, [(out, 0)])
  | some nodes =>
    let text := nodes.foldl (readdirCb cap.toNat) []
    let last := if text.length < cap.toNat then BitVec.ofNat 64 text.length else cap - 1
    (text.length, storeAt out 0 text ++ [(out + last, 0)])

/-- `none` while a directory is still read, or where a byte of the path cannot be. -/
def sysReaddir (dr : Driver) (s : Machine) (mem : Word → Option UInt8) (t : Tree) (d : Disk)
    (rdi rsi rdx : Word) : Option Stores :=
  match (resolveUserPath s mem rdi 256).ends with
  | .fault => none
  | .failed => some ⟨[], -1, []⟩
  | .copied path =>
    if validateUserPtr s rsi rdx ≠ some true then some ⟨[(rdi, 1)], -1, []⟩
    else
      (vfsReaddir dr.fp dr.fuel path t d).map fun r =>
        let out := readdirStores rsi rdx r.1
        ⟨[(rdi, 1), (rsi, rdx)], out.1, out.2⟩

-- ---------------------------------------------------------------------------
-- The other calls
-- ---------------------------------------------------------------------------

def storeLE (p : Word) (n v : Nat) : List (Word × UInt8) :=
  storeAt p 0 ((List.range n).map fun i => UInt8.ofNat (v / 256 ^ i))

def vfsStat (fp : FatPrivate) (fuel : Nat) (path : CStr) (t : Tree) (d : Disk) :
    Option (Option (Nat × Nat) × Tree × Disk) :=
  match vfsRest path with
  | none => some (none, t, d)
  | some rest =>
    (vfsResolve fp fuel rest t d).map fun r =>
      ((r.1.bind r.2.1.nodes).map fun node => (node.size, node.flags), r.2)

def sysStat (dr : Driver) (s : Machine) (mem : Word → Option UInt8) (t : Tree) (d : Disk)
    (rdi rsi rdx : Word) : Option Stores :=
  match (resolveUserPath s mem rdi 256).ends with
  | .fault => none
  | .failed => some ⟨[], -1, []⟩
  | .copied path =>
    if rsi ≠ 0 ∧ validateUserPtr s rsi 4 ≠ some true then some ⟨[(rdi, 1)], -1, []⟩
    else
      let sizeRange := if rsi ≠ 0 then [(rsi, 4#64)] else []
      if rdx ≠ 0 ∧ validateUserPtr s rdx 1 ≠ some true then some ⟨(rdi, 1) :: sizeRange, -1, []⟩
      else
        let flagsRange := if rdx ≠ 0 then [(rdx, 1#64)] else []
        (vfsStat dr.fp dr.fuel path t d).map fun r =>
          match r.1 with
          | none => ⟨(rdi, 1) :: sizeRange ++ flagsRange, -1, []⟩
          | some (size, flags) =>
            ⟨(rdi, 1) :: sizeRange ++ flagsRange, size,
              (if rsi ≠ 0 then storeLE rsi 4 size else []) ++
              (if rdx ≠ 0 then storeLE rdx 1 flags else [])⟩

/-- `SYS_PIPE`, with what it stores; see `Kernel.sysPipe` for the tables. -/
def sysPipeStores (s : Machine) (k : KernelState) (rdi : Word) : Stores :=
  if validateUserPtr s rdi 8 ≠ some true then ⟨[], -1, []⟩
  else
    let failed : Stores := ⟨[(rdi, 8)], -1, []⟩
    match Kernel.pipeAlloc k with
    | none => failed
    | some (p, k) =>
      if k.gCurrent = 0 then failed
      else
        match k.tasks k.gCurrent with
        | none => failed
        | some cur =>
          match taskFdAlloc cur (p + 1) FD_TYPE_PIPE_R with
          | none => failed
          | some (rfd, cur) =>
            match taskFdAlloc cur (p + 1) FD_TYPE_PIPE_W with
            | none => failed
            | some (wfd, _) =>
              ⟨[(rdi, 8)], 0, storeLE rdi 4 rfd ++ storeLE (rdi + 4) 4 wfd⟩

def sysGetcwd (s : Machine) (rdi rsi : Word) : Stores :=
  if validateUserPtr s rdi rsi ≠ some true then ⟨[], 0, []⟩
  else ⟨[(rdi, rsi)], 0, (rdi, 47) :: if rsi > 1 then [(rdi + 1, 0)] else []⟩

-- ---------------------------------------------------------------------------
-- SYS_READ
-- ---------------------------------------------------------------------------

/-- What changes lies in a range that was checked, also behind a wait for the pipe. -/
structure ReadChecked (dr : Driver) (s : IoState) (fd : Nat) (buf n : Word) : Prop where
  ends : ∀ s', (sysRead dr s fd buf n).With s' → ∀ a, s'.mem a ≠ s.mem a →
    Valid s buf n ∧ InRange a (buf, n)
  waits : ∀ w s', sysRead dr s fd buf n = .yields w s' → Valid s buf n ∧
    ∀ s₁ s₂, (w.resume s₁).With s₂ → ∀ a, s₂.mem a ≠ s₁.mem a → InRange a (buf, n)

variable {dr : Driver} {s s' s₁ s₂ : IoState} {m : Machine} {p buf n a : Word} {mem : Word → UInt8}

theorem valid_range (h : validateUserPtr m buf n = some true) :
    buf.toNat + n.toNat ≤ 0x7FFFFFFFFF := by
  obtain ⟨b, hb, hiff⟩ := validateUserPtr_spec m buf n
  cases h.symm.trans hb
  exact (hiff.mp rfl).2.1

theorem inRange_offset (h : validateUserPtr m buf n = some true) (hi : i < n.toNat) :
    InRange (buf + BitVec.ofNat 64 i) (buf, n) := by
  have hrange := valid_range h
  have hto : (buf + BitVec.ofNat 64 i).toNat = buf.toNat + i := by
    rw [BitVec.toNat_add, BitVec.toNat_ofNat, Nat.mod_eq_of_lt (b := 2 ^ 64) (by omega),
      Nat.mod_eq_of_lt (by omega)]
  exact ⟨by rw [hto]; exact Nat.le_add_right .., by rw [hto]; exact Nat.add_lt_add_left hi _⟩

theorem offset_of (buf a : Word) : buf + BitVec.ofNat 64 (a - buf).toNat = a := by
  rw [BitVec.ofNat_toNat, BitVec.setWidth_eq, BitVec.add_comm, BitVec.sub_add_cancel]

/-- A buffer that is as it was behind its first `n` bytes. -/
theorem putBytes_changed {out : Bytes} (h : ∀ i, n.toNat ≤ i → out i = bytesAt mem buf i)
    (hne : putBytes buf out a ≠ mem a) : (a - buf).toNat < n.toNat := by
  refine Nat.lt_of_not_le fun hle => hne ?_
  rw [putBytes, h _ hle, bytesAt, offset_of]

theorem putBytes_inRange {out : Bytes} (hv : validateUserPtr m buf n = some true)
    (h : ∀ i, n.toNat ≤ i → out i = bytesAt mem buf i) (hne : putBytes buf out a ≠ mem a) :
    InRange a (buf, n) := by
  have hin := inRange_offset hv (putBytes_changed h hne)
  rwa [offset_of] at hin

theorem pipeReadFrom_frame (b : PipeBuf) (dst : Bytes) (hi : r + k ≤ i) :
    (pipeReadFrom k r dst b).2.1 i = dst i := by
  induction k generalizing r dst b with
  | zero => rfl
  | succ k ih =>
    rw [pipeReadFrom]
    split
    · refine (ih _ _ (by omega)).trans ?_
      exact if_neg (by omega)
    · rfl

theorem stdinLoop_length (keys : List Nat) (n : Nat) : (stdinLoop keys n).1.length ≤ n := by
  induction keys generalizing n with
  | nil => exact Nat.zero_le n
  | cons c keys ih =>
    rw [stdinLoop]
    split
    · exact Nat.zero_le n
    split
    · exact ih n
    split
    · exact Nat.pos_of_ne_zero ‹_›
    · have := ih (n - 1)
      simp only [List.length_cons]
      omega

theorem storeFront_frame (out : Bytes) {bs : List UInt8} (h : bs.length ≤ i) :
    storeFront out bs i = out i := by
  rw [storeFront, List.getElem?_eq_none h, Option.getD_none]

theorem pipeReadCall_inRange (hv : validateUserPtr m buf n = some true)
    (h : (pipeReadCall s₁ p' buf n).With s₂) (hne : s₂.mem a ≠ s₁.mem a) : InRange a (buf, n) := by
  rw [pipeReadCall] at h
  split at h
  · exact absurd (congrArg (·.mem a) (IoEnd.with_yields h)) hne
  split at h
  · exact absurd (congrArg (·.mem a) (IoEnd.with_returns h)) hne
  · rw [IoEnd.with_returns h] at hne
    refine putBytes_inRange hv (fun i hi => ?_) hne
    exact pipeReadFrom_frame _ _ (by omega)

theorem fileReadCall_inRange (hv : validateUserPtr m buf n = some true)
    (h : (fileReadCall dr s f buf n).With s') (hne : s'.mem a ≠ s.mem a) : InRange a (buf, n) := by
  rw [fileReadCall] at h
  split at h
  · exact absurd h IoEnd.not_lost
  split at h
  · exact absurd h IoEnd.not_lost
  split at h
  · exact absurd h IoEnd.not_lost
  · rw [IoEnd.with_returns h] at hne
    refine putBytes_inRange hv (fun i hi => ?_) hne
    exact put_of_le fatReadCopies_le (Nat.le_trans (Nat.min_le_left ..) hi) _

theorem stdinRead_checked (h : (stdinRead s buf n).With s') (hne : s'.mem a ≠ s.mem a) :
    Valid s buf n ∧ InRange a (buf, n) := by
  rw [stdinRead] at h
  split at h
  · exact absurd (congrArg (·.mem a) (IoEnd.with_returns h)) hne
  · next hv =>
    have hv : Valid s buf n := not_not.mp hv
    have hlen := stdinLoop_length s.keys n.toNat
    have hmem : s'.mem = putBytes buf (storeFront (bytesAt s.mem buf) (stdinLoop s.keys n.toNat).1) := by
      dsimp only at h
      split at h
      · rw [IoEnd.with_returns h]
      · rw [IoEnd.with_polls h]
    rw [hmem] at hne
    exact ⟨hv, putBytes_inRange hv (fun i hi => storeFront_frame _ (Nat.le_trans hlen hi)) hne⟩

theorem entryRead_checked (h : (entryRead dr s entry buf n).With s') (hne : s'.mem a ≠ s.mem a) :
    Valid s buf n ∧ InRange a (buf, n) := by
  have hsame : ∀ {rax}, (IoEnd.returns rax s).With s' → False := fun hs =>
    hne (congrArg (·.mem a) (IoEnd.with_returns hs))
  cases entry with
  | none => exact absurd h hsame
  | some e =>
    rw [entryRead] at h
    split at h
    · split at h
      · exact absurd h hsame
      · next hv => exact ⟨not_not.mp hv, pipeReadCall_inRange (not_not.mp hv) h hne⟩
    split at h
    · split at h
      · exact absurd h hsame
      · next hv => exact ⟨not_not.mp hv, fileReadCall_inRange (not_not.mp hv) h hne⟩
    · exact absurd h hsame

theorem sysRead_yields (h : sysRead dr s fd buf n = .yields w s') :
    Valid s buf n ∧ ∃ p', w = ⟨false, p', buf, n⟩ := by
  rw [sysRead] at h
  split at h
  · rw [stdinRead] at h
    split at h
    · cases h
    · dsimp only at h
      split at h <;> cases h
  · generalize s.entry fd = entry at h
    cases entry with
    | none => cases h
    | some e =>
      rw [entryRead] at h
      split at h
      · split at h
        · cases h
        · next hv =>
          rw [pipeReadCall] at h
          split at h
          · cases h
            exact ⟨not_not.mp hv, _, rfl⟩
          split at h <;> cases h
      split at h
      · split at h
        · cases h
        · rw [fileReadCall] at h
          split at h
          · cases h
          split at h
          · cases h
          split at h <;> cases h
      · cases h

theorem sysRead_checked (dr : Driver) (s : IoState) (fd : Nat) (buf n : Word) :
    ReadChecked dr s fd buf n := by
  refine ⟨fun s' h a hne => ?_, fun w s' h => ?_⟩
  · rw [sysRead] at h
    split at h
    · exact stdinRead_checked h hne
    · exact entryRead_checked h hne
  · obtain ⟨hv, p', rfl⟩ := sysRead_yields h
    exact ⟨hv, fun s₁ s₂ h a hne => pipeReadCall_inRange hv h hne⟩

-- ---------------------------------------------------------------------------
-- Bytes one behind the other
-- ---------------------------------------------------------------------------

theorem mem_storeAt {bs : List UInt8} {w : Word × UInt8} (h : w ∈ storeAt p i bs) :
    ∃ j, j < i + bs.length ∧ w.1 = p + BitVec.ofNat 64 j := by
  induction bs generalizing i with
  | nil => cases h
  | cons c bs ih =>
    obtain rfl | h := List.mem_cons.mp h
    · exact ⟨i, Nat.lt_add_of_pos_right (Nat.succ_pos _), rfl⟩
    · obtain ⟨j, hj, hw⟩ := ih h
      exact ⟨j, by rw [List.length_cons]; omega, hw⟩

theorem storeAt_append (bs cs : List UInt8) :
    storeAt p i (bs ++ cs) = storeAt p i bs ++ storeAt p (i + bs.length) cs := by
  induction bs generalizing i with
  | nil => rfl
  | cons c bs ih =>
    rw [List.cons_append, storeAt, ih, storeAt, List.cons_append, List.length_cons,
      Nat.add_right_comm, Nat.add_assoc]

theorem offset_ne (hi : i < 2 ^ 64) (hj : j < 2 ^ 64) (hne : j ≠ i) :
    p + BitVec.ofNat 64 j ≠ p + BitVec.ofNat 64 i := by
  intro heq
  have hoff := congrArg BitVec.toNat ((BitVec.add_right_inj p).mp heq)
  rw [BitVec.toNat_ofNat, BitVec.toNat_ofNat, Nat.mod_eq_of_lt hi, Nat.mod_eq_of_lt hj] at hoff
  exact hne hoff

theorem applyStores_behind {bs : List UInt8} (h : i + bs.length ≤ 2 ^ 64) (hj : j < i) :
    applyStores mem (storeAt p i bs) (p + BitVec.ofNat 64 j) = mem (p + BitVec.ofNat 64 j) := by
  induction bs generalizing i mem with
  | nil => rfl
  | cons c bs ih =>
    rw [List.length_cons] at h
    refine (ih (by omega) (Nat.lt_succ_of_lt hj)).trans ?_
    exact Function.update_of_ne (offset_ne (by omega) (by omega) (Nat.ne_of_lt hj)) ..

theorem applyStores_at (mem : Word → UInt8) {bs : List UInt8} (h : i + bs.length ≤ 2 ^ 64)
    (hj : j < bs.length) :
    applyStores mem (storeAt p i bs) (p + BitVec.ofNat 64 (i + j)) = bs[j] := by
  induction bs generalizing i j mem with
  | nil => exact absurd hj (Nat.not_lt_zero j)
  | cons c bs ih =>
    rw [List.length_cons] at h hj
    cases j with
    | zero =>
      refine (applyStores_behind (by omega) (Nat.lt_succ_self i)).trans ?_
      exact Function.update_self ..
    | succ j =>
      rw [← Nat.add_assoc, Nat.add_right_comm]
      exact ih _ (by omega) (Nat.lt_of_succ_lt_succ hj)

theorem storeAt_inRange {bs : List UInt8} {w : Word × UInt8}
    (hv : validateUserPtr m p n = some true) (hle : i + bs.length ≤ n.toNat)
    (hw : w ∈ storeAt p i bs) : InRange w.1 (p, n) := by
  obtain ⟨j, hj, heq⟩ := mem_storeAt hw
  rw [heq]
  exact inRange_offset hv (Nat.lt_of_lt_of_le hj hle)

-- ---------------------------------------------------------------------------
-- The listing
-- ---------------------------------------------------------------------------

def decimal (n : Nat) : CStr :=
  if n = 0 then [48] else (Nat.digits 10 n).reverse.map fun d => UInt8.ofNat (48 + d)

def entryLine (node : VfsNode) : CStr :=
  node.name ++
    (if node.flags &&& VFS_DIR ≠ 0 then cstr ['/']
      else cstr [' ', ' '] ++ decimal (node.size % 2 ^ 32) ++ cstr [' ', 'b', 'y', 't', 'e', 's']) ++
    cstr ['\n']

def listing (nodes : List VfsNode) : CStr := nodes.flatMap entryLine

/-- The loop of `readdir_cb` gives the digits of the number. -/
theorem sizeDigits_eq (h : size < 10 ^ i) (num : CStr) : sizeDigits i size num =
    ((Nat.digits 10 size).reverse.map fun d => UInt8.ofNat (48 + d)) ++ num := by
  induction i generalizing size num with
  | zero =>
    obtain rfl : size = 0 := by omega
    rfl
  | succ i ih =>
    rw [sizeDigits]
    split
    · next hne =>
      rw [ih (by rw [Nat.pow_succ] at h; omega), Nat.digits_def' (by decide) (Nat.pos_of_ne_zero hne),
        List.reverse_cons, List.map_append, List.map_singleton, List.append_assoc,
        List.singleton_append]
    · next hzero =>
      rw [not_not.mp hzero]
      rfl

theorem sizeText_eq (h : size < 2 ^ 32) : sizeText size = decimal size := by
  rw [sizeText, decimal]
  split
  · rfl
  · rw [sizeDigits_eq (by omega), List.append_nil]

theorem entryParts_flatten (node : VfsNode) : (entryParts node).flatten = entryLine node := by
  rw [entryParts, entryLine, sizeText_eq (Nat.mod_lt _ (by decide))]
  split
  · simp
  · simp

theorem readdirAppend_eq (cap : Nat) (text str : CStr) :
    readdirAppend cap text str = text ++ str.take (cap - 1 - text.length) := by
  induction str generalizing text with
  | nil => rw [readdirAppend, List.take_nil, List.append_nil]
  | cons c str ih =>
    rw [readdirAppend]
    split
    · next hroom =>
      have hsub : cap - 1 - text.length = (cap - 1 - (text ++ [c]).length) + 1 := by
        rw [List.length_append, List.length_singleton]
        omega
      rw [ih, hsub, List.take_succ_cons, List.append_assoc, List.singleton_append]
    · next hroom =>
      have hsub : cap - 1 - text.length = 0 := by omega
      rw [hsub, List.take_zero, List.append_nil]

theorem readdirAppend_take (cap : Nat) (text str : CStr) :
    readdirAppend cap (text.take (cap - 1)) str = (text ++ str).take (cap - 1) := by
  rw [readdirAppend_eq, List.take_append, List.length_take]
  congr 2
  omega

theorem readdirAppends_take (cap : Nat) (text : CStr) (parts : List CStr) :
    parts.foldl (readdirAppend cap) (text.take (cap - 1)) =
      (text ++ parts.flatten).take (cap - 1) := by
  induction parts generalizing text with
  | nil => rw [List.foldl_nil, List.flatten_nil, List.append_nil]
  | cons str parts ih =>
    rw [List.foldl_cons, readdirAppend_take, ih, List.flatten_cons, List.append_assoc]

theorem readdirCbs_take (cap : Nat) (text : CStr) (nodes : List VfsNode) :
    nodes.foldl (readdirCb cap) (text.take (cap - 1)) = (text ++ listing nodes).take (cap - 1) := by
  induction nodes generalizing text with
  | nil => rw [List.foldl_nil, listing, List.flatMap_nil, List.append_nil]
  | cons node nodes ih =>
    rw [List.foldl_cons, readdirCb, readdirAppends_take, ih, entryParts_flatten, listing, listing,
      List.flatMap_cons, List.append_assoc]

theorem readdir_text (cap : Nat) (nodes : List VfsNode) :
    nodes.foldl (readdirCb cap) [] = (listing nodes).take (cap - 1) := by
  have h := readdirCbs_take cap [] nodes
  rwa [List.take_nil, List.nil_append] at h

-- ---------------------------------------------------------------------------
-- Ranges
-- ---------------------------------------------------------------------------

theorem inRange_one : InRange a (p, 1) ↔ a = p := by
  have hone : (1 : Word).toNat = 1 := rfl
  constructor
  · rintro ⟨hlo, hhi⟩
    apply BitVec.eq_of_toNat_eq
    dsimp only at hlo hhi
    omega
  · rintro rfl
    exact ⟨Nat.le_refl _, by dsimp only; omega⟩

theorem not_inRange_zero : ¬ InRange a (p, 0) := by
  have hzero : (0 : Word).toNat = 0 := rfl
  rintro ⟨hlo, hhi⟩
  dsimp only at hlo hhi
  omega

theorem inRange_start (hv : validateUserPtr m p n = some true) (hn : n ≠ 0) : InRange p (p, n) := by
  have hpos : 0 < n.toNat := Nat.pos_of_ne_zero fun h => hn (BitVec.eq_of_toNat_eq h)
  have hin := inRange_offset hv hpos
  rwa [BitVec.add_zero] at hin

/-- The buffer holds as much of the text as there is room for, with a NUL behind it. -/
def HoldsPrefix (mem : Word → UInt8) (out : Word) (cap : Nat) (text : CStr) (rax : Int) : Prop :=
  ∃ k : Nat, rax = k ∧ k = min (cap - 1) text.length ∧
    (∀ i, i < k → text[i]? = some (mem (out + BitVec.ofNat 64 i))) ∧
    mem (out + BitVec.ofNat 64 k) = 0

variable {cap rdi rsi rdx : Word} {nodes : List VfsNode} {found : Option (List VfsNode)}

theorem readdirStores_room (hcap : cap ≠ 0) :
    readdirStores p cap (some nodes) =
      ((((listing nodes).take (cap.toNat - 1)).length : Int),
        storeAt p 0 ((listing nodes).take (cap.toNat - 1) ++ [0])) := by
  have hpos : 0 < cap.toNat := Nat.pos_of_ne_zero fun h => hcap (BitVec.eq_of_toNat_eq h)
  rw [readdirStores, readdir_text]
  rw [if_pos (by rw [List.length_take]; omega), storeAt_append, Nat.zero_add]
  rfl

theorem readdirStores_zero : readdirStores p 0 (some nodes) = (0, [(p - 1, 0)]) := by
  have hzero : (0 : Word).toNat = 0 := rfl
  have hlast : (0 : Word) - 1 = -1 := rfl
  rw [readdirStores, readdir_text, hzero, List.take_zero, List.length_nil,
    if_neg (Nat.lt_irrefl 0), hlast, ← BitVec.sub_eq_add_neg]
  rfl

theorem readdirStores_holdsPrefix (hcap : cap ≠ 0) (mem : Word → UInt8) :
    HoldsPrefix (applyStores mem (readdirStores p cap (some nodes)).2) p cap.toNat (listing nodes)
      (readdirStores p cap (some nodes)).1 := by
  have hlt := cap.isLt
  rw [readdirStores_room hcap]
  generalize htext : (listing nodes).take (cap.toNat - 1) = text
  have hlen : text.length = min (cap.toNat - 1) (listing nodes).length := by
    rw [← htext, List.length_take]
  have hroom : 0 + (text ++ [0]).length ≤ 2 ^ 64 := by
    rw [List.length_append, List.length_singleton]
    omega
  refine ⟨text.length, rfl, hlen, fun i hi => ?_, ?_⟩
  · have hat := applyStores_at (p := p) mem hroom (j := i) (by simp; omega)
    rw [Nat.zero_add] at hat
    rw [hat, List.getElem_append_left hi, ← List.getElem?_eq_getElem, ← htext, List.getElem?_take,
      if_pos (by omega)]
  · have hat := applyStores_at (p := p) mem hroom (j := text.length) (by simp)
    rw [Nat.zero_add] at hat
    rw [hat, List.getElem_append_right (Nat.le_refl _)]
    simp

-- ---------------------------------------------------------------------------
-- The calls
-- ---------------------------------------------------------------------------

/-- The byte that `SYS_READDIR` stores where the buffer has none. -/
def strayByte (out : Word) (found : Option (List VfsNode)) : Word :=
  match found with
  | none => out
  | some _ => out - 1

theorem readdirStores_checked_iff (hv : validateUserPtr m rsi rdx = some true) (rax : Int) :
    (⟨[(rdi, 1), (rsi, rdx)], rax, (readdirStores rsi rdx found).2⟩ : Stores).Checked ↔
      (rdx = 0 → strayByte rsi found = rdi) := by
  by_cases hrdx : rdx = 0
  · subst hrdx
    have hstray : (readdirStores rsi 0 found).2 = [(strayByte rsi found, 0)] := by
      cases found with
      | none => rfl
      | some nodes => rw [readdirStores_zero, strayByte]
    rw [hstray]
    constructor
    · intro h _
      obtain ⟨q, hq, hin⟩ := h _ List.mem_cons_self
      obtain rfl | hq := List.mem_cons.mp hq
      · exact inRange_one.mp hin
      · rw [List.mem_singleton.mp hq] at hin
        exact absurd hin not_inRange_zero
    · intro h w hw
      rw [List.mem_singleton.mp hw]
      exact ⟨_, List.mem_cons_self, inRange_one.mpr (h rfl)⟩
  · refine iff_of_true (fun w hw => ⟨(rsi, rdx), by simp, ?_⟩) fun h => absurd h hrdx
    cases found with
    | none =>
      rw [List.mem_singleton.mp hw]
      exact inRange_start hv hrdx
    | some nodes =>
      have hpos : 0 < rdx.toNat := Nat.pos_of_ne_zero fun h => hrdx (BitVec.eq_of_toNat_eq h)
      rw [readdirStores_room hrdx] at hw
      refine storeAt_inRange hv ?_ hw
      simp only [List.length_append, List.length_take, List.length_singleton]
      omega

theorem sysReaddir_cases {mem : Word → Option UInt8}
    (h : sysReaddir dr m mem t d rdi rsi rdx = some r) :
    (r.stores = [] ∧ ¬ ∃ path, (resolveUserPath m mem rdi 256).ends = .copied path ∧
      validateUserPtr m rsi rdx = some true) ∨
    ∃ path found t' d', (resolveUserPath m mem rdi 256).ends = .copied path ∧
      validateUserPtr m rsi rdx = some true ∧
      vfsReaddir dr.fp dr.fuel path t d = some (found, t', d') ∧
      r = ⟨[(rdi, 1), (rsi, rdx)], (readdirStores rsi rdx found).1,
        (readdirStores rsi rdx found).2⟩ := by
  rw [sysReaddir] at h
  split at h
  · cases h
  · next hends =>
    cases h
    refine .inl ⟨rfl, ?_⟩
    rintro ⟨path, hpath, -⟩
    cases hends.symm.trans hpath
  · next path hends =>
    split at h
    · next hv =>
      cases h
      exact .inl ⟨rfl, fun ⟨_, _, hvalid⟩ => hv hvalid⟩
    · next hv =>
      obtain ⟨⟨found, t', d'⟩, hread, rfl⟩ := Option.map_eq_some_iff.mp h
      exact .inr ⟨path, found, t', d', hends, not_not.mp hv, hread, rfl⟩

theorem sysReaddir_checked_iff {mem : Word → Option UInt8}
    (h : sysReaddir dr m mem t d rdi rsi rdx = some r) : r.Checked ↔
      ∀ path found t' d', rdx = 0 → (resolveUserPath m mem rdi 256).ends = .copied path →
        validateUserPtr m rsi rdx = some true →
        vfsReaddir dr.fp dr.fuel path t d = some (found, t', d') → strayByte rsi found = rdi := by
  obtain ⟨hnone, hno⟩ | ⟨path, found, t', d', hends, hv, hread, rfl⟩ := sysReaddir_cases h
  · refine iff_of_true (fun w hw => ?_) fun path _ _ _ _ hends hv _ => absurd ⟨path, hends, hv⟩ hno
    rw [hnone] at hw
    cases hw
  · rw [readdirStores_checked_iff hv]
    refine ⟨fun hstray path' found' t₁ d₁ hzero hends' _ hread' => ?_, fun hall hzero =>
      hall path found t' d' hzero hends hv hread⟩
    cases hends.symm.trans hends'
    cases hread.symm.trans hread'
    exact hstray hzero

theorem storeLE_length (n v : Nat) :
    ((List.range n).map fun i => UInt8.ofNat (v / 256 ^ i)).length = n := by
  rw [List.length_map, List.length_range]

theorem storeLE_inRange {w : Word × UInt8} (hv : validateUserPtr m p n = some true)
    (hle : k ≤ n.toNat) (hw : w ∈ storeLE p k v) : InRange w.1 (p, n) := by
  refine storeAt_inRange hv ?_ hw
  rw [storeLE_length, Nat.zero_add]
  exact hle

theorem sysStat_checked {mem : Word → Option UInt8}
    (h : sysStat dr m mem t d rdi rsi rdx = some r) : r.Checked := by
  have hnothing : ∀ {checked rax}, (⟨checked, rax, []⟩ : Stores).Checked := fun w hw => by cases hw
  rw [sysStat] at h
  split at h
  · cases h
  · cases h
    exact hnothing
  · next path hends =>
    split at h
    · cases h
      exact hnothing
    next hsize =>
    dsimp only at h
    split at h
    · cases h
      exact hnothing
    next hflags =>
    obtain ⟨⟨found, t', d'⟩, -, rfl⟩ := Option.map_eq_some_iff.mp h
    cases found with
    | none => exact hnothing
    | some found =>
      obtain ⟨size, flags⟩ := found
      intro w hw
      obtain hw | hw := List.mem_append.mp hw
      · split at hw
        · next hrsi =>
          have hv := Decidable.not_not.mp fun hn => hsize ⟨hrsi, hn⟩
          refine ⟨(rsi, 4#64), ?_, storeLE_inRange hv (Nat.le_refl 4) hw⟩
          rw [if_pos hrsi]
          exact List.mem_cons_of_mem _ List.mem_cons_self
        · cases hw
      · split at hw
        · next hrdx =>
          have hv := Decidable.not_not.mp fun hn => hflags ⟨hrdx, hn⟩
          refine ⟨(rdx, 1#64), ?_, storeLE_inRange hv (Nat.le_refl 1) hw⟩
          rw [if_pos hrdx]
          exact List.mem_append_right _ List.mem_cons_self
        · cases hw

theorem sysPipeStores_checked (m : Machine) (k : KernelState) (rdi : Word) :
    (sysPipeStores m k rdi).Checked := by
  have hnothing : ∀ {checked rax}, (⟨checked, rax, []⟩ : Stores).Checked := fun w hw => by cases hw
  rw [sysPipeStores]
  split
  · exact hnothing
  next hv =>
  have hv := not_not.mp hv
  split
  · exact hnothing
  split
  · exact hnothing
  split
  · exact hnothing
  split
  · exact hnothing
  split
  · exact hnothing
  · next rfd _ _ _ wfd _ _ =>
    intro w hw
    refine ⟨(rdi, 8), List.mem_cons_self, ?_⟩
    obtain hw | hw := List.mem_append.mp hw
    · exact storeLE_inRange hv (show 4 ≤ 8 by decide) hw
    · obtain ⟨j, hj, heq⟩ := mem_storeAt hw
      rw [storeLE_length] at hj
      have hadd : (4 : Word) + BitVec.ofNat 64 j = BitVec.ofNat 64 (4 + j) :=
        (BitVec.ofNat_add ..).symm
      rw [heq, BitVec.add_assoc, hadd]
      exact inRange_offset hv (show 4 + j < 8 by omega)

/-- What it returns is what the call on the tables returns. -/
theorem sysPipeStores_rax (m : Machine) (k : KernelState) (rdi : Word)
    (hcur : k.gCurrent ≠ 0 → ∃ cur, k.tasks k.gCurrent = some cur) :
    (Kernel.sysPipe k (validateUserPtr m rdi 8 = some true)).map Prod.fst =
      some (sysPipeStores m k rdi).rax := by
  rw [Kernel.sysPipe, sysPipeStores]
  by_cases hv : validateUserPtr m rdi 8 = some true
  · rw [decide_eq_true hv, if_neg (by decide), if_neg (not_not.mpr hv)]
    cases hp : Kernel.pipeAlloc k with
    | none => rfl
    | some alloc =>
      obtain ⟨p', k₁⟩ := alloc
      obtain ⟨-, -, rfl⟩ := pipeAlloc_spec hp
      dsimp only
      by_cases h0 : k.gCurrent = 0
      · rw [if_pos h0, if_pos h0]
        rfl
      · obtain ⟨cur, hcur⟩ := hcur h0
        rw [if_neg h0, if_neg h0, hcur]
        simp only [Option.bind_eq_bind, Option.bind_some]
        cases taskFdAlloc cur (p' + 1) FD_TYPE_PIPE_R with
        | none => rfl
        | some first =>
          dsimp only
          cases taskFdAlloc first.2 (p' + 1) FD_TYPE_PIPE_W with
          | none => rfl
          | some second => rfl
  · rw [decide_eq_false hv, if_pos (by decide), if_pos hv]
    rfl

theorem sysGetcwd_checked_iff (m : Machine) (rdi rsi : Word) :
    (sysGetcwd m rdi rsi).Checked ↔ (validateUserPtr m rdi rsi = some true → rsi ≠ 0) := by
  by_cases hv : validateUserPtr m rdi rsi = some true
  · rw [sysGetcwd, if_neg (not_not.mpr hv)]
    constructor
    · rintro h - rfl
      obtain ⟨q, hq, hin⟩ := h _ List.mem_cons_self
      rw [List.mem_singleton.mp hq] at hin
      exact not_inRange_zero hin
    · intro h w hw
      refine ⟨(rdi, rsi), List.mem_cons_self, ?_⟩
      obtain rfl | hw := List.mem_cons.mp hw
      · exact inRange_start hv (h hv)
      · split at hw
        · next hone =>
          rw [List.mem_singleton.mp hw]
          exact inRange_offset hv (show 1 < rsi.toNat from hone)
        · cases hw
  · rw [sysGetcwd, if_pos hv]
    refine iff_of_true (fun w hw => ?_) fun h => absurd h hv
    cases hw

/-- The calls store only where they checked, if and only if `SYS_READDIR` and `SYS_GETCWD` get a
buffer of a length other than 0, or fail before, or the byte that `SYS_READDIR` stores beside an
empty buffer is the first one of the path. With a length other than 0 the listing is there up to a
NUL. -/
theorem user_stores_checked_iff (dr : Driver) (m : Machine) :
    (∀ s fd buf n, ReadChecked dr s fd buf n) ∧
    (∀ mem t d rdi rsi rdx r, sysReaddir dr m mem t d rdi rsi rdx = some r → (r.Checked ↔
      ∀ path found t' d', rdx = 0 → (resolveUserPath m mem rdi 256).ends = .copied path →
        validateUserPtr m rsi rdx = some true →
        vfsReaddir dr.fp dr.fuel path t d = some (found, t', d') → strayByte rsi found = rdi)) ∧
    (∀ mem t d rdi rsi rdx r, sysStat dr m mem t d rdi rsi rdx = some r → r.Checked) ∧
    (∀ k rdi, (sysPipeStores m k rdi).Checked) ∧
    (∀ rdi rsi, (sysGetcwd m rdi rsi).Checked ↔
      (validateUserPtr m rdi rsi = some true → rsi ≠ 0)) ∧
    ∀ mem t d rdi rsi rdx r path nodes t' d' before,
      sysReaddir dr m mem t d rdi rsi rdx = some r → rdx ≠ 0 →
      (resolveUserPath m mem rdi 256).ends = .copied path → validateUserPtr m rsi rdx = some true →
      vfsReaddir dr.fp dr.fuel path t d = some (some nodes, t', d') →
        HoldsPrefix (applyStores before r.stores) rsi rdx.toNat (listing nodes) r.rax := by
  refine ⟨sysRead_checked dr, fun _ _ _ _ _ _ _ => sysReaddir_checked_iff,
    fun _ _ _ _ _ _ _ => sysStat_checked, sysPipeStores_checked m, sysGetcwd_checked_iff m, ?_⟩
  intro mem t d rdi rsi rdx r path nodes t' d' before h hcap hends hv hread
  obtain ⟨-, hno⟩ | ⟨path', found, t₁, d₁, hends', -, hread', rfl⟩ := sysReaddir_cases h
  · exact absurd ⟨path, hends, hv⟩ hno
  · cases hends.symm.trans hends'
    cases hread.symm.trans hread'
    exact readdirStores_holdsPrefix hcap before

/-- `SYS_GETCWD` stores the `/` into a buffer of length 0. -/
theorem getcwd_stores_unchecked : ¬ ∀ (m : Machine) (rdi rsi : Word), (sysGetcwd m rdi rsi).Checked := by
  intro hall
  have hvalid : validateUserPtr bootMachine 0x100000 0 = some true := by decide +kernel
  exact (sysGetcwd_checked_iff ..).mp (hall bootMachine 0x100000 0) hvalid rfl

end EponaOS.Kernel.Io
