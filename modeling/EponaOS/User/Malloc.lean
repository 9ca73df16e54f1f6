import EponaOS.Lib.Bytes

/-!
# The heap of a user program

`malloc`, `calloc` and `free` of `stdlib.c`: first fit over a list of blocks linked one
way, each with a header `block_t` of 16 bytes in front, in the memory that `sys_brk` gives.
What the kernel answers to `sys_brk` is a parameter. Addresses are `uint64_t`, sizes of
blocks `uint32_t`, and a null pointer is 0.
-/

namespace EponaOS.User

open Bytes

def HEAP_SIZE : Nat := 0x10000

/-- `sizeof(block_t)` -/
def BLOCK_SIZE : Nat := 16

structure UserHeap where
  mem : Bytes
  brk : Nat -- what the kernel keeps for `sys_brk`
  heapBase : Nat
  heapEnd : Nat
  heapInited : Bool

/-- The static variables as the program starts, its break at `first`. -/
def startHeap (mem : Bytes) (first : Nat) : UserHeap := ⟨mem, first, 0, 0, false⟩

/-- The kernel's side of `sys_brk`: from what it keeps for the program and the argument, the
answer and what it keeps then. -/
abbrev BrkCall := Nat → Nat → Nat × Nat

/-- `SYS_BRK` of `syscall.c`: success, and nothing is kept. -/
def sysBrkStub : BrkCall := fun brk _ => (0, brk)

/-- `SYS_BRK` as its comment has it, and as `stdlib.c` relies on: 0 asks for the break, anything
else sets it. -/
def sysBrkSets : BrkCall := fun brk addr => if addr = 0 then (brk, brk) else (addr, addr)

section Calls

variable (call : BrkCall)

def sysBrk (s : UserHeap) (addr : Nat) : Nat × UserHeap :=
  ((call s.brk addr).1, { s with brk := (call s.brk addr).2 })

-- ---------------------------------------------------------------------------
-- `block_t`
-- ---------------------------------------------------------------------------

def blkSize (m : Bytes) (b : Nat) : Nat := getLE m b 4
def blkFree (m : Bytes) (b : Nat) : Nat := getLE m (b + 4) 4
def blkNext (m : Bytes) (b : Nat) : Nat := getLE m (b + 8) 8

def setBlkSize (m : Bytes) (b v : Nat) : Bytes := putLE m b 4 v
def setBlkFree (m : Bytes) (b v : Nat) : Bytes := putLE m (b + 4) 4 v
def setBlkNext (m : Bytes) (b v : Nat) : Bytes := putLE m (b + 8) 8 v

def newBlock (m : Bytes) (b size : Nat) : Bytes :=
  setBlkNext (setBlkFree (setBlkSize m b size) b 1) b 0

-- ---------------------------------------------------------------------------
-- `malloc`
-- ---------------------------------------------------------------------------

/-- The break moved up by `grow` bytes, with `heap_end`; the old one is returned. -/
def raiseBreak (s : UserHeap) (grow : Nat) : Nat × UserHeap :=
  let (curBreak, s) := sysBrk call s 0
  let newBreak := (curBreak + grow) % 2 ^ 64
  let (_, s) := sysBrk call s newBreak
  (curBreak, { s with heapEnd := newBreak })

def heapInit (s : UserHeap) : UserHeap :=
  if s.heapInited then s else
  let (curBreak, s) := raiseBreak call { s with heapInited := true } HEAP_SIZE
  { s with
    mem := newBlock s.mem curBreak (HEAP_SIZE - BLOCK_SIZE)
    heapBase := curBreak }

/-- The loop over the list: the first free block of at least `size` bytes, 0 if there is
none, `none` while the loop still runs. -/
def findFree (m : Bytes) (size : Nat) : Nat → Nat → Option Nat
  | 0, _ => none
  | fuel + 1, cur =>
    if cur = 0 then some 0
    else if blkFree m cur ≠ 0 ∧ size ≤ blkSize m cur then some cur
    else findFree m size fuel (blkNext m cur)

def splitBlock (m : Bytes) (blk size : Nat) : Bytes :=
  if size + BLOCK_SIZE + 16 ≤ blkSize m blk then
    let newBlk := blk + BLOCK_SIZE + size
    let m := setBlkSize m newBlk (blkSize m blk - size - BLOCK_SIZE)
    let m := setBlkFree m newBlk 1
    let m := setBlkNext m newBlk (blkNext m blk)
    let m := setBlkNext m blk newBlk
    setBlkSize m blk size
  else m

/-- `while (last && last->next) last = last->next;` -/
def lastBlock (m : Bytes) : Nat → Nat → Option Nat
  | 0, _ => none
  | fuel + 1, last =>
    if last ≠ 0 ∧ blkNext m last ≠ 0 then lastBlock m fuel (blkNext m last) else some last

/-- How many bytes the heap grows by when no free block has `size` bytes. -/
def growSize (size : Nat) : Nat :=
  let need := BLOCK_SIZE + size
  if need > HEAP_SIZE then need else HEAP_SIZE

def addBytes (s : UserHeap) (curBreak grow last : Nat) : Nat × UserHeap :=
  if last ≠ 0 ∧ blkFree s.mem last ≠ 0 then
    (last, { s with mem := setBlkSize s.mem last (blkSize s.mem last + grow) })
  else
    let m := newBlock s.mem curBreak (grow - BLOCK_SIZE)
    if last ≠ 0 then (curBreak, { s with mem := setBlkNext m last curBreak })
    else (curBreak, { s with mem := m, heapBase := curBreak })

def growHeap (fuel : Nat) (s : UserHeap) (size : Nat) : Option (Nat × UserHeap) :=
  let grow := growSize size
  let (curBreak, s) := raiseBreak call s grow
  (lastBlock s.mem fuel s.heapBase).map fun last => addBytes s curBreak grow last

/-- Block `blk` cut and taken. -/
def takeBlock (s : UserHeap) (blk size : Nat) : Nat × UserHeap :=
  (blk + BLOCK_SIZE, { s with mem := setBlkFree (splitBlock s.mem blk size) blk 0 })

/-- `malloc` once the heap is there. -/
def allocate (fuel : Nat) (s : UserHeap) (size : Nat) : Option (Nat × UserHeap) :=
  (findFree s.mem size fuel s.heapBase).bind fun blk =>
    (if blk ≠ 0 then some (blk, s) else growHeap call fuel s size).map fun r => takeBlock r.2 r.1 size

def malloc (fuel : Nat) (s : UserHeap) (size : UInt32) : Option (Nat × UserHeap) :=
  if size = 0 then some (0, s) else allocate call fuel (heapInit call s) size.toNat

-- ---------------------------------------------------------------------------
-- `free`, `calloc`
-- ---------------------------------------------------------------------------

def coalesce : Nat → Bytes → Nat → Option Bytes
  | 0, _, _ => none
  | fuel + 1, m, cur =>
    if cur ≠ 0 ∧ blkNext m cur ≠ 0 then
      if blkFree m cur ≠ 0 ∧ blkFree m (blkNext m cur) ≠ 0 then
        let m := setBlkSize m cur (blkSize m cur + (BLOCK_SIZE + blkSize m (blkNext m cur)))
        let m := setBlkNext m cur (blkNext m (blkNext m cur))
        coalesce fuel m cur
      else coalesce fuel m (blkNext m cur)
    else some m

def free (fuel : Nat) (s : UserHeap) (ptr : Nat) : Option UserHeap :=
  if ptr = 0 then some s else
  let blk := ptr - BLOCK_SIZE
  (coalesce fuel (setBlkFree s.mem blk 1) s.heapBase).map fun mem => { s with mem }

/-- The product is a `uint32_t`, and the loop sets its bytes to 0. -/
def calloc (fuel : Nat) (s : UserHeap) (count size : UInt32) : Option (Nat × UserHeap) :=
  let total := count * size
  (malloc call fuel s total).map fun r =>
    if r.1 ≠ 0 then (r.1, { r.2 with mem := putLE r.2.mem r.1 total.toNat 0 }) else r

end Calls

end EponaOS.User
