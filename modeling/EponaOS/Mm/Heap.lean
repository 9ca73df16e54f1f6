import EponaOS.Lib.Bytes
import EponaOS.Lib.BlockList
import EponaOS.Mm.Paging

/-!
# The kernel heap

`heap.c`: first fit over a doubly linked list of blocks, each with a packed header of 25
bytes in front. The bytes of the heap are named by their virtual address; the pages
behind them are mapped by `heap_init` and when the heap grows. Sizes and addresses are
`size_t` and pointers: arithmetic on them is modulo 2 ^ 64, and a null pointer is 0.
-/

namespace EponaOS.Mm

open Bytes

def HEAP_START : Nat := 0xFFFF880000000000
def HEAP_ALIGN : Nat := 16
def HEADER_SIZE : Nat := 25
def MIN_BLOCK : Nat := 64

structure Heap where
  mem : Bytes
  machine : Machine
  gHeapStart : Nat
  gHeapEnd : Nat
  gHeapVirtTop : Nat

-- ---------------------------------------------------------------------------
-- `heap_header_t`
-- ---------------------------------------------------------------------------

def hdrSize (m : Bytes) (h : Nat) : Nat := getLE m h 8
def hdrFree (m : Bytes) (h : Nat) : UInt8 := m (h + 8)
def hdrNext (m : Bytes) (h : Nat) : Nat := getLE m (h + 9) 8
def hdrPrev (m : Bytes) (h : Nat) : Nat := getLE m (h + 17) 8

def setSize (m : Bytes) (h v : Nat) : Bytes := putLE m h 8 v
def setFree (m : Bytes) (h : Nat) (v : UInt8) : Bytes := setByte m (h + 8) v
def setNext (m : Bytes) (h v : Nat) : Bytes := putLE m (h + 9) 8 v
def setPrev (m : Bytes) (h v : Nat) : Bytes := putLE m (h + 17) 8 v

def heapCreateBlock (m : Bytes) (virt size : Nat) : Bytes :=
  setPrev (setNext (setFree (setSize m virt size) virt 1) virt 0) virt 0

def heapCoalesce (m : Bytes) (h : Nat) : Bytes :=
  if hdrNext m h ≠ 0 ∧ hdrFree m (hdrNext m h) ≠ 0 then
    let m := setSize m h ((hdrSize m h + hdrSize m (hdrNext m h)) % 2 ^ 64)
    let m := setNext m h (hdrNext m (hdrNext m h))
    if hdrNext m h ≠ 0 then setPrev m (hdrNext m h) h else m
  else m

/-- `mem` is what the memory holds before: nothing is known of it. -/
def heapInit (mem : Bytes) (machine : Machine) : Heap :=
  let frames := pmmAllocContiguous machine.pmm 256
  { mem := heapCreateBlock mem HEAP_START (256 * pageSize)
    machine := (pagingMapRange { machine with pmm := frames.2 } (BitVec.ofNat 64 HEAP_START)
      frames.1 PAGE_RW 256).2
    gHeapStart := HEAP_START
    gHeapEnd := HEAP_START
    gHeapVirtTop := HEAP_START + 256 * pageSize }

-- ---------------------------------------------------------------------------
-- `kmalloc`
-- ---------------------------------------------------------------------------

/-- The size of the block for `size` bytes: rounded up, with a header, at least `MIN_BLOCK`. -/
def allocTotal (size : Nat) : Nat :=
  let size := if size % HEAP_ALIGN ≠ 0 then
      (size + HEAP_ALIGN - 1) % 2 ^ 64 / HEAP_ALIGN * HEAP_ALIGN
    else size
  let total := (size + HEADER_SIZE) % 2 ^ 64
  if total < MIN_BLOCK then MIN_BLOCK else total

/-- The loop over the list: the first free block of at least `total` bytes, 0 if there is
none, `none` while the loop still runs. -/
def firstFit (m : Bytes) (total : Nat) : Nat → Nat → Option Nat
  | 0, _ => none
  | fuel + 1, curr =>
    if curr = 0 then some 0
    else if hdrFree m curr ≠ 0 ∧ total ≤ hdrSize m curr then some curr
    else firstFit m total fuel (hdrNext m curr)

/-- The header of what is left of block `h` behind its first `total` bytes. -/
def remainder (m : Bytes) (h total : Nat) : Bytes :=
  let newH := h + total
  let m := setSize m newH (hdrSize m h - total)
  let m := setFree m newH 1
  let m := setNext m newH (hdrNext m h)
  setPrev m newH h

/-- A block found in the list is cut to `total` bytes if enough is left, and taken. -/
def takeFit (m : Bytes) (curr total : Nat) : Bytes :=
  if (total + MIN_BLOCK) % 2 ^ 64 ≤ hdrSize m curr then
    let newH := curr + total
    let m := remainder m curr total
    let m := if hdrNext m newH ≠ 0 then setPrev m (hdrNext m newH) newH else m
    setFree (setSize (setNext m curr newH) curr total) curr 0
  else setFree m curr 0

/-- The same for the block just created: it is the last, so no block after it is told. -/
def takeNew (m : Bytes) (newH total : Nat) : Bytes :=
  if (total + MIN_BLOCK) % 2 ^ 64 ≤ hdrSize m newH then
    setFree (setSize (setNext (remainder m newH total) newH (newH + total)) newH total) newH 0
  else setFree m newH 0

/-- How many pages the heap grows by when no block of `total` bytes is free. -/
def growCount (total : Nat) : Nat :=
  let grow := if total > 0x10000 then total else 0x10000
  (grow + pageSize - 1) % 2 ^ 64 / pageSize

/-- The loop that maps a fresh frame behind each new page; `false` when it runs out of frames. -/
def growPages (s : Machine) (virt : Word) : Nat → Bool × Machine
  | 0 => (true, s)
  | pages + 1 =>
    match pmmAlloc s.pmm with
    | (frame, pmm) =>
      if frame = 0 then (false, { s with pmm })
      else growPages (pagingMapPage { s with pmm } virt frame PAGE_RW).2 (virt + 4096) pages

def growHeap (s : Heap) (total : Nat) : Nat × Heap :=
  let pages := growCount total
  let virt := s.gHeapVirtTop
  match growPages s.machine (BitVec.ofNat 64 virt) pages with
  | (false, machine) => (0, { s with machine })
  | (true, machine) =>
    let m := heapCreateBlock s.mem virt (pages * pageSize)
    let m := setPrev m virt s.gHeapEnd
    let m := setNext m s.gHeapEnd virt
    let s := { s with
      machine
      gHeapEnd := virt
      gHeapVirtTop := (s.gHeapVirtTop + pages * pageSize) % 2 ^ 64 }
    if total ≤ hdrSize m virt then (virt + HEADER_SIZE, { s with mem := takeNew m virt total })
    else (0, { s with mem := m })

def kmalloc (fuel : Nat) (s : Heap) (size : Nat) : Option (Nat × Heap) :=
  if size = 0 then some (0, s) else
  let total := allocTotal size
  match firstFit s.mem total fuel s.gHeapStart with
  | none => none
  | some curr =>
    if curr ≠ 0 then some (curr + HEADER_SIZE, { s with mem := takeFit s.mem curr total })
    else some (growHeap s total)

-- ---------------------------------------------------------------------------
-- `kfree`, `kcalloc`, `krealloc`
-- ---------------------------------------------------------------------------

def kfree (s : Heap) (ptr : Nat) : Heap :=
  if ptr = 0 then s else
  let h := ptr - HEADER_SIZE
  let m := setFree s.mem h 1
  if hdrPrev m h ≠ 0 ∧ hdrFree m (hdrPrev m h) ≠ 0 then
    { s with mem := heapCoalesce m (hdrPrev m h) }
  else { s with mem := heapCoalesce m h }

/-- `for (i = 0; i < n; i++) p[i] = 0` -/
def zeroBytes (m : Bytes) (p : Nat) : Nat → Bytes
  | 0 => m
  | n + 1 => setByte (zeroBytes m p n) (p + n) 0

/-- `for (i = 0; i < n; i++) dst[i] = src[i]` -/
def copyBytes (m : Bytes) (dst src : Nat) : Nat → Bytes
  | 0 => m
  | n + 1 => setByte (copyBytes m dst src n) (dst + n) (copyBytes m dst src n (src + n))

def kcalloc (fuel : Nat) (s : Heap) (count size : Nat) : Option (Nat × Heap) :=
  let total := count * size % 2 ^ 64
  match kmalloc fuel s total with
  | none => none
  | some (ptr, s) =>
    if ptr ≠ 0 then some (ptr, { s with mem := zeroBytes s.mem ptr total }) else some (ptr, s)

def krealloc (fuel : Nat) (s : Heap) (ptr newSize : Nat) : Option (Nat × Heap) :=
  if ptr = 0 then kmalloc fuel s newSize else
  if newSize = 0 then some (0, kfree s ptr) else
  let oldData := hdrSize s.mem (ptr - HEADER_SIZE) - HEADER_SIZE
  let oldData := if oldData > newSize then newSize else oldData
  match kmalloc fuel s newSize with
  | none => none
  | some (newPtr, s) =>
    if newPtr ≠ 0 then
      some (newPtr, kfree { s with mem := copyBytes s.mem newPtr ptr oldData } ptr)
    else some (newPtr, s)

end EponaOS.Mm
