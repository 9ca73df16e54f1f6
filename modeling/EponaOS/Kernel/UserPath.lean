import EponaOS.Kernel.Elf
import EponaOS.Kernel.UserPtr

/-!
# Strings of the user

`copy_from_user` and `resolve_user_path` of `syscall.c`. Only the first byte is checked, and
the copy then goes on up to the NUL or the end of its buffer. The path goes through up to
three buffers, each of which cuts it off without an error: 256 bytes in `resolve_user_path`,
256 in the system call and 64 in `elf_load`.
-/

namespace EponaOS.Kernel

open Fs Mm

inductive Copy
  /-- the processor could not read a byte -/
  | fault
  /-- -1 -/
  | failed
  | copied (buf : CStr)
  deriving DecidableEq

structure UserCopy where
  reads : List Word
  ends : Copy
  deriving DecidableEq

def UserCopy.cons (a : Word) (c : UInt8) (r : UserCopy) : UserCopy where
  reads := a :: r.reads
  ends :=
    match r.ends with
    | .copied buf => .copied (c :: buf)
    | e => e

/-- The loop of `copy_from_user` from byte `i` on, for `n` more bytes. A byte that the processor
cannot read has no value in `mem`. -/
def copyLoop (mem : Word → Option UInt8) (userPtr : Word) : Nat → Nat → UserCopy
  | 0, _ => ⟨[], .copied []⟩
  | n + 1, i =>
    let a := userPtr + BitVec.ofNat 64 i
    match mem a with
    | none => ⟨[a], .fault⟩
    | some c => if c = 0 then ⟨[a], .copied []⟩ else (copyLoop mem userPtr n (i + 1)).cons a c

def copyFromUser (s : Machine) (mem : Word → Option UInt8) (userPtr : Word) (max : Nat) : UserCopy :=
  if userPtr = 0 ∨ max = 0 then ⟨[], .failed⟩
  else if validateUserPtr s userPtr 1 ≠ some true then ⟨[], .failed⟩
  else copyLoop mem userPtr (max - 1) 0

/-- What `resolve_user_path` puts into `out`. -/
def resolved (path : CStr) (max : Nat) : CStr :=
  if path.head? = some 47 then path.take (max - 1) else 47 :: path.take (max - 2)

def resolveUserPath (s : Machine) (mem : Word → Option UInt8) (userPath : Word) (max : Nat) : UserCopy :=
  if userPath = 0 ∨ validateUserPtr s userPath 1 ≠ some true then ⟨[], .failed⟩
  else
    let r := copyFromUser s mem userPath 256
    { r with ends :=
        match r.ends with
        | .copied path => .copied (resolved path max)
        | e => e }

variable {s : Machine} {mem : Word → Option UInt8} {ptr : Word} {path : CStr}

-- ---------------------------------------------------------------------------
-- Where they read
-- ---------------------------------------------------------------------------

/-- `validate_user_ptr` accepts the page of the address. -/
def AcceptedPage (s : Machine) (a : Word) : Prop := validateUserPtr s (a &&& ~~~0xFFF#64) 1 = some true

def MappedByte (s : Machine) (mem : Word → Option UInt8) (a : Word) : Prop :=
  AcceptedPage s a ∧ (mem a).isSome

def Continues (mem : Word → Option UInt8) (ptr : Word) (n : Nat) : Prop :=
  ∀ i < n, ∃ c, mem (ptr + BitVec.ofNat 64 i) = some c ∧ c ≠ 0

/-- The string runs into a byte that is not mapped before its NUL. -/
def RunsOff (s : Machine) (mem : Word → Option UInt8) (ptr : Word) : Prop :=
  ∃ n, Continues mem ptr n ∧ ¬ MappedByte s mem (ptr + BitVec.ofNat 64 n)

/-- Only accepted pages are dereferenced, and a string that runs off them gives -1. -/
structure ReadsWhereMapped (s : Machine) (mem : Word → Option UInt8) (ptr : Word) (r : UserCopy) :
    Prop where
  accepted : ∀ a ∈ r.reads, AcceptedPage s a
  runsOff : RunsOff s mem ptr → r.ends = .failed

theorem UserCopy.cons_ends (h : r.ends ≠ .failed) : (UserCopy.cons a c r).ends ≠ .failed := by
  rw [UserCopy.cons]
  cases hends : r.ends with
  | failed => exact absurd hends h
  | fault => simp
  | copied buf => simp

theorem copyLoop_spec (h : Continues mem ptr i) :
    (copyLoop mem ptr n i).ends ≠ .failed ∧ ∀ a ∈ (copyLoop mem ptr n i).reads,
      ∃ j, Continues mem ptr j ∧ a = ptr + BitVec.ofNat 64 j := by
  induction n generalizing i with
  | zero => simp [copyLoop]
  | succ n ih =>
    have hhead : ∃ j, Continues mem ptr j ∧ ptr + BitVec.ofNat 64 i = ptr + BitVec.ofNat 64 j :=
      ⟨i, h, rfl⟩
    rw [copyLoop]
    split
    · exact ⟨by simp, fun a ha => List.mem_singleton.mp ha ▸ hhead⟩
    · next c hc =>
      split
      · exact ⟨by simp, fun a ha => List.mem_singleton.mp ha ▸ hhead⟩
      · next hzero =>
        have hnext : Continues mem ptr (i + 1) := fun j hj => by
          obtain hj | rfl := Nat.lt_succ_iff_lt_or_eq.mp hj
          · exact h j hj
          · exact ⟨c, hc, hzero⟩
        obtain ⟨hends, hreads⟩ := ih hnext
        refine ⟨UserCopy.cons_ends hends, fun a ha => ?_⟩
        obtain rfl | ha := List.mem_cons.mp ha
        · exact hhead
        · exact hreads a ha

theorem zero_rejected : validateUserPtr s 0 1 = some false := rfl

theorem ne_zero_of_valid (h : validateUserPtr s ptr 1 = some true) : ptr ≠ 0 := by
  rintro rfl
  cases zero_rejected.symm.trans h

theorem failed_readsWhereMapped : ReadsWhereMapped s mem ptr ⟨[], .failed⟩ :=
  ⟨by simp, fun _ => rfl⟩

theorem copyLoop_readsWhereMapped_iff (hreads : r.reads = (copyLoop mem ptr n 0).reads)
    (hends : r.ends ≠ .failed) : ReadsWhereMapped s mem ptr r ↔ ¬ RunsOff s mem ptr := by
  constructor
  · exact fun h hoff => hends (h.runsOff hoff)
  · intro hoff
    refine ⟨fun a ha => ?_, fun h => absurd h hoff⟩
    have hstart : Continues mem ptr 0 := fun i hi => absurd hi (Nat.not_lt_zero i)
    obtain ⟨j, hj, rfl⟩ := (copyLoop_spec hstart).2 a (hreads ▸ ha)
    exact (not_not.mp fun hn => hoff ⟨j, hj, hn⟩).1

theorem copyFromUser_readsWhereMapped_iff (s : Machine) (mem : Word → Option UInt8) (ptr : Word)
    (max : Nat) : ReadsWhereMapped s mem ptr (copyFromUser s mem ptr max) ↔
      max = 0 ∨ validateUserPtr s ptr 1 ≠ some true ∨ ¬ RunsOff s mem ptr := by
  rw [copyFromUser]
  by_cases hvalid : validateUserPtr s ptr 1 = some true
  · by_cases hmax : max = 0
    · rw [if_pos (.inr hmax)]
      exact iff_of_true failed_readsWhereMapped (.inl hmax)
    · rw [if_neg (not_or.mpr ⟨ne_zero_of_valid hvalid, hmax⟩), if_neg (not_not.mpr hvalid),
        copyLoop_readsWhereMapped_iff rfl (copyLoop_spec fun i hi => absurd hi (Nat.not_lt_zero i)).1]
      exact ⟨fun h => .inr (.inr h), fun h => (h.resolve_left hmax).resolve_left (not_not.mpr hvalid)⟩
  · refine iff_of_true ?_ (.inr (.inl hvalid))
    rw [if_pos hvalid]
    split
    · exact failed_readsWhereMapped
    · exact failed_readsWhereMapped

theorem resolveUserPath_of_valid (mem : Word → Option UInt8)
    (h : validateUserPtr s ptr 1 = some true) (max : Nat) :
    (resolveUserPath s mem ptr max).reads = (copyLoop mem ptr 255 0).reads ∧
      (resolveUserPath s mem ptr max).ends =
        match (copyLoop mem ptr 255 0).ends with
        | .copied path => .copied (resolved path max)
        | e => e := by
  have hcopy : copyFromUser s mem ptr 256 = copyLoop mem ptr 255 0 := by
    rw [copyFromUser, if_neg (not_or.mpr ⟨ne_zero_of_valid h, by decide⟩), if_neg (not_not.mpr h)]
  rw [resolveUserPath, if_neg (not_or.mpr ⟨ne_zero_of_valid h, not_not.mpr h⟩), hcopy]
  exact ⟨rfl, rfl⟩

/-- The string is read only where it is mapped if and only if its first byte is rejected, or it
does not run off the mapped pages. -/
theorem userStrings_mapped_iff (s : Machine) (mem : Word → Option UInt8) (ptr : Word) (max : Nat) :
    (ReadsWhereMapped s mem ptr (copyFromUser s mem ptr max) ↔
      max = 0 ∨ validateUserPtr s ptr 1 ≠ some true ∨ ¬ RunsOff s mem ptr) ∧
    (ReadsWhereMapped s mem ptr (resolveUserPath s mem ptr max) ↔
      validateUserPtr s ptr 1 ≠ some true ∨ ¬ RunsOff s mem ptr) := by
  refine ⟨copyFromUser_readsWhereMapped_iff s mem ptr max, ?_⟩
  by_cases hvalid : validateUserPtr s ptr 1 = some true
  · obtain ⟨hreads, hends⟩ := resolveUserPath_of_valid mem hvalid max
    have hstart : Continues mem ptr 0 := fun i hi => absurd hi (Nat.not_lt_zero i)
    have hcopied := (copyLoop_spec (n := 255) hstart).1
    rw [copyLoop_readsWhereMapped_iff hreads]
    · exact ⟨.inr, fun h => h.resolve_left (not_not.mpr hvalid)⟩
    · rw [hends]
      cases h : (copyLoop mem ptr 255 0).ends with
      | failed => exact absurd h hcopied
      | fault => simp
      | copied buf => simp
  · rw [resolveUserPath, if_pos (.inr hvalid)]
    exact iff_of_true failed_readsWhereMapped (.inl hvalid)

def lastByte (a : Word) : Option UInt8 := if a = 0x3FFFFFFF#64 then some 97 else none

/-- The byte behind the end of the memory is dereferenced. -/
theorem last_byte_read_past : ¬ ∀ (s : Machine) (mem : Word → Option UInt8) (ptr : Word),
    ReadsWhereMapped s mem ptr (resolveUserPath s mem ptr 256) := by
  intro hall
  have hread : 0x40000000#64 ∈ (resolveUserPath bootMachine lastByte 0x3FFFFFFF#64 256).reads := by
    decide +kernel
  have hpage : validateUserPtr bootMachine (0x40000000#64 &&& ~~~0xFFF#64) 1 = some false := by
    decide +kernel
  cases hpage.symm.trans ((hall bootMachine lastByte 0x3FFFFFFF#64).accepted _ hread)

-- ---------------------------------------------------------------------------
-- The path that is passed on
-- ---------------------------------------------------------------------------

def StrAt (mem : Word → Option UInt8) (ptr : Word) : Nat → CStr → Prop
  | i, [] => mem (ptr + BitVec.ofNat 64 i) = some 0
  | i, c :: rest => (mem (ptr + BitVec.ofNat 64 i) = some c ∧ c ≠ 0) ∧ StrAt mem ptr (i + 1) rest

instance : ∀ i path, Decidable (StrAt mem ptr i path)
  | i, [] => inferInstanceAs (Decidable (mem (ptr + BitVec.ofNat 64 i) = some 0))
  | i, c :: rest =>
    have := instDecidableStrAt (i + 1) rest
    inferInstanceAs (Decidable ((mem (ptr + BitVec.ofNat 64 i) = some c ∧ c ≠ 0) ∧
      StrAt mem ptr (i + 1) rest))

inductive PathCall
  | sysOpen
  | sysCreate
  | sysReaddir
  | sysExec
  | sysUnlink
  | sysStat
  deriving DecidableEq

/-- The path that reaches the vfs functions; `SYS_EXEC` passes it through `elf_load`. -/
def pathGiven (c : PathCall) (s : Machine) (mem : Word → Option UInt8) (ptr : Word) : Copy :=
  match (resolveUserPath s mem ptr 256).ends with
  | .copied path => .copied (if c = .sysExec then Elf.fullPath path else path)
  | e => e

def PathCall.room (c : PathCall) : Nat := if c = .sysExec then 63 else 255

/-- `path` itself where it starts with `/`. -/
def absolutePath (path : CStr) : CStr := if path.head? = some 47 then path else 47 :: path

/-- The path reaches the vfs functions as it was given, or the call fails; it does where the path is
too long. -/
structure PathKept (c : PathCall) (s : Machine) (mem : Word → Option UInt8) (ptr : Word)
    (path : CStr) : Prop where
  given : pathGiven c s mem ptr = .failed ∨ pathGiven c s mem ptr = .copied (absolutePath path)
  tooLong : c.room < (absolutePath path).length → pathGiven c s mem ptr = .failed

theorem copyLoop_str (h : StrAt mem ptr i path) :
    (copyLoop mem ptr n i).ends = .copied (path.take n) := by
  induction n generalizing i path with
  | zero => rw [copyLoop, List.take_zero]
  | succ n ih =>
    rw [copyLoop]
    cases path with
    | nil =>
      have hmem : mem (ptr + BitVec.ofNat 64 i) = some 0 := h
      rw [hmem]
      rfl
    | cons c rest =>
      obtain ⟨⟨hmem, hzero⟩, hrest⟩ := h
      simp only [hmem]
      rw [if_neg hzero, UserCopy.cons, ih hrest, List.take_succ_cons]

theorem head_take (h : 0 < n) : (path.take n).head? = path.head? := by
  cases path with
  | nil => rw [List.take_nil]
  | cons c rest =>
    obtain ⟨m, rfl⟩ := Nat.exists_eq_succ_of_ne_zero (Nat.ne_of_gt h)
    rfl

/-- Behind `resolve_user_path` the path is cut off to what fits. -/
theorem resolved_take (path : CStr) : resolved (path.take 255) 256 = (absolutePath path).take 255 := by
  rw [resolved, head_take (by decide), absolutePath]
  split
  · rw [List.take_take]
    rfl
  · rw [List.take_take, List.take_succ_cons]
    rfl

theorem absolutePath_head (path : CStr) : (absolutePath path).head? = some 47 := by
  rw [absolutePath]
  split
  · assumption
  · rfl

theorem pathGiven_of_valid (c : PathCall) (h : StrAt mem ptr 0 path)
    (hvalid : validateUserPtr s ptr 1 = some true) :
    pathGiven c s mem ptr = .copied ((absolutePath path).take c.room) := by
  have hends : (resolveUserPath s mem ptr 256).ends = .copied ((absolutePath path).take 255) := by
    rw [(resolveUserPath_of_valid mem hvalid 256).2, copyLoop_str h]
    exact congrArg Copy.copied (resolved_take path)
  rw [pathGiven, hends, PathCall.room]
  dsimp only
  split
  · rw [Elf.fullPath, head_take (by decide), absolutePath_head, if_pos rfl, List.take_take]
    rfl
  · rfl

/-- The path is kept if and only if its first byte is rejected or it fits into every buffer, and it
is passed on where it is accepted and fits. -/
theorem paths_kept_iff (c : PathCall) (h : StrAt mem ptr 0 path) :
    (PathKept c s mem ptr path ↔
      validateUserPtr s ptr 1 ≠ some true ∨ (absolutePath path).length ≤ c.room) ∧
    (validateUserPtr s ptr 1 = some true → (absolutePath path).length ≤ c.room →
      pathGiven c s mem ptr = .copied (absolutePath path)) := by
  by_cases hvalid : validateUserPtr s ptr 1 = some true
  · have hgiven := pathGiven_of_valid c h hvalid
    have hfits : (absolutePath path).length ≤ c.room →
        pathGiven c s mem ptr = .copied (absolutePath path) := fun hle => by
      rw [hgiven, List.take_of_length_le hle]
    refine ⟨⟨fun hkept => .inr (Nat.le_of_not_lt fun hlt => ?_), fun hor => ?_⟩, fun _ => hfits⟩
    · cases hgiven.symm.trans (hkept.tooLong hlt)
    · have hle := hor.resolve_left (not_not.mpr hvalid)
      exact ⟨.inr (hfits hle), fun hlt => absurd hle (Nat.not_le.mpr hlt)⟩
  · have hfailed : pathGiven c s mem ptr = .failed := by
      rw [pathGiven, resolveUserPath, if_pos (.inr hvalid)]
    exact ⟨iff_of_true ⟨.inl hfailed, fun _ => hfailed⟩ (.inl hvalid), fun hv => absurd hv hvalid⟩

def memOf (path : CStr) (a : Word) : Option UInt8 := some ((path[a.toNat - 0x100000]?).getD 0)

/-- `bin/sh` -/
def shPath : CStr := [98, 105, 110, 47, 115, 104]

theorem paths_kept_iff_sh :
    pathGiven .sysOpen bootMachine (memOf shPath) 0x100000 = .copied (47 :: shPath) := by
  have hstr : StrAt (memOf shPath) 0x100000 0 shPath := by decide +kernel
  have hvalid : validateUserPtr bootMachine 0x100000 1 = some true := by decide +kernel
  exact (paths_kept_iff .sysOpen hstr).2 hvalid (by decide)

def longPath : CStr := 47 :: List.replicate 63 97

/-- The last letter is cut off, and another file is executed. -/
theorem long_path_cut : ¬ ∀ (c : PathCall) (s : Machine) (mem : Word → Option UInt8) (ptr : Word)
    (path : CStr), StrAt mem ptr 0 path → PathKept c s mem ptr path := by
  intro hall
  have hgiven : pathGiven .sysExec bootMachine (memOf longPath) 0x100000 =
      .copied (longPath.take 63) := by decide +kernel
  have hkept := hall .sysExec bootMachine (memOf longPath) 0x100000 longPath (by decide +kernel)
  cases hgiven.symm.trans (hkept.tooLong (by decide))

end EponaOS.Kernel
