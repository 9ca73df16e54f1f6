import EponaOS.Fs.Vfs
import EponaOS.Mm.Heap
import EponaOS.Mm.PhysBytes

/-!
# The ELF loader

`elf.c`. The kernel reaches physical memory at its own addresses, so a pointer that comes
from the frame allocator or from `paging_get_phys_on` is an address of the memory that also
holds the page tables. What `vfs_open` finds comes as an argument, with the pages that its
calls of `kmalloc` add to the heap; the messages on the serial line, and the 32 bytes of code
that are read for one, are left out.
-/

namespace EponaOS.Kernel.Elf

open Bytes Fs Mm TableTrie

def ELF_USER_STACK_SIZE : Nat := 0x5000
def ELF_MAGIC : Nat := 0x464C457F
def PT_LOAD : Nat := 1

def sizeofHdr : Nat := 64
def sizeofPhdr : Nat := 56

/-- The fields of `elf64_hdr_t` that are read. -/
structure Elf64Hdr where
  magic : Nat
  eEntry : Word
  ePhoff : Nat
  ePhnum : Nat

/-- The fields of `elf64_phdr_t` that are read. -/
structure Elf64Phdr where
  pType : Nat
  pOffset : Nat
  pVaddr : Word
  pFilesz : Nat
  pMemsz : Nat
deriving DecidableEq

def readHdr (b : Bytes) : Elf64Hdr where
  magic := getLE b 0 4
  eEntry := BitVec.ofNat 64 (getLE b 24 8)
  ePhoff := getLE b 32 8
  ePhnum := getLE b 56 2

def readPhdr (b : Bytes) (a : Nat) : Elf64Phdr where
  pType := getLE b a 4
  pOffset := getLE b (a + 8) 8
  pVaddr := BitVec.ofNat 64 (getLE b (a + 16) 8)
  pFilesz := getLE b (a + 32) 8
  pMemsz := getLE b (a + 40) 8

def fullPath (path : CStr) : CStr :=
  if path.head? = some 47 then path.take 63 else 47 :: path.take 62

-- ---------------------------------------------------------------------------
-- The open
-- ---------------------------------------------------------------------------

/-- What `vfs_open` gives: the node, if it returns a file, and the growths of the heap, each with
the place and the number of the pages, for nodes of directories and the `file_t`. -/
structure Opened where
  node : Option VfsNode
  growths : List (Word × Nat)

def Opened.grow (o : Opened) (s : Machine) : Machine :=
  o.growths.foldl (fun s g => (growPages s g.1 g.2).2) s

def Opened.found (node : VfsNode) : Opened := ⟨some node, []⟩

-- ---------------------------------------------------------------------------
-- Pages
-- ---------------------------------------------------------------------------

/-- One round of the loops that map pages: a zeroed frame for `page`, or `false`. -/
def mapFresh (s : Machine) (pml4 page : Word) : Bool × Machine :=
  let a := pmmAlloc s.pmm
  if a.1 = 0 then (false, { s with pmm := a.2 })
  else
    let s := { s with mem := fillTable s.mem a.1 fun _ => 0, pmm := a.2 }
    let r := pagingMapPageOn s pml4 page a.1 (PAGE_USER ||| PAGE_RW)
    (!(r.1 < 0), r.2)

def mapPages (pml4 : Word) : Nat → Word → Machine → Bool × Machine
  | 0, _, s => (true, s)
  | n + 1, page, s =>
    let r := mapFresh s pml4 page
    if r.1 then mapPages pml4 n (page + 4096) r.2 else (false, r.2)

/-- `vaddr & ~0xFFF` -/
def startPage (ph : Elf64Phdr) : Word := frameOf ph.pVaddr

/-- `(vaddr + memsz + 0xFFF) & ~0xFFF`, where the sums wrap. -/
def endPage (ph : Elf64Phdr) : Word :=
  frameOf (ph.pVaddr + BitVec.ofNat 64 ph.pMemsz + BitVec.ofNat 64 0xFFF)

/-- The rounds of the loop from `start_page` to `end_page`. -/
def pageCount (ph : Elf64Phdr) : Nat := ((endPage ph).toNat - (startPage ph).toNat) / 4096

-- ---------------------------------------------------------------------------
-- Contents
-- ---------------------------------------------------------------------------

/-- The loop over chunks. Each round that does not end it takes a byte at least, so as many
rounds as there are bytes are enough. `tmp` is the buffer of 512 bytes. -/
def copyChunks (fp : FatPrivate) (fuel : Nat) (node : VfsNode) (pml4 : Word) :
    Nat → Nat → Word → Bytes → Nat → Machine → Disk → Option (Machine × Disk)
  | 0, _, _, _, _, s, d => some (s, d)
  | rounds + 1, remaining, writeAddr, tmp, offset, s, d =>
    if remaining > 0 then
      match vfsRead fp fuel node offset (min remaining 512) tmp d with
      | none => none
      | some (nr, offset, tmp, d) =>
        if nr ≤ 0 then some (s, d)
        else
          let phys := pagingGetPhysOn s.mem pml4 writeAddr
          let s := if phys ≠ 0 then { s with mem := storeBytes s.mem phys tmp nr.toNat } else s
          copyChunks fp fuel node pml4 rounds (remaining - nr.toNat)
            (writeAddr + BitVec.ofNat 64 nr.toNat) tmp offset s d
    else some (s, d)

/-- The loop behind it, which clears the byte at `addr` and `n - 1` more. -/
def zeroTail (pml4 : Word) : Nat → Word → PhysMem → PhysMem
  | 0, _, m => m
  | n + 1, addr, m =>
    let phys := pagingGetPhysOn m pml4 addr
    zeroTail pml4 n (addr + 1) (if phys ≠ 0 then storeByte m phys 0 else m)

/-- One program header; `false` is a `return -1`. -/
def loadSegment (fp : FatPrivate) (fuel : Nat) (node : VfsNode) (junk : Bytes) (pml4 : Word)
    (ph : Elf64Phdr) (s : Machine) (d : Disk) : Option (Bool × Machine × Disk) :=
  if ph.pType ≠ PT_LOAD then some (true, s, d)
  else
    let r := mapPages pml4 (pageCount ph) (startPage ph) s
    if !r.1 then some (false, r.2, d)
    else
      (copyChunks fp fuel node pml4 ph.pFilesz ph.pFilesz ph.pVaddr junk ph.pOffset r.2 d).map
        fun r => (true, { r.1 with
          mem := zeroTail pml4 (ph.pMemsz - ph.pFilesz)
            (ph.pVaddr + BitVec.ofNat 64 ph.pFilesz) r.1.mem }, r.2)

def loadSegments (fp : FatPrivate) (fuel : Nat) (node : VfsNode) (junk : Bytes) (pml4 : Word) :
    List Elf64Phdr → Machine → Disk → Option (Bool × Machine × Disk)
  | [], s, d => some (true, s, d)
  | ph :: phs, s, d =>
    match loadSegment fp fuel node junk pml4 ph s d with
    | none => none
    | some (false, s, d) => some (false, s, d)
    | some (true, s, d) => loadSegments fp fuel node junk pml4 phs s d

-- ---------------------------------------------------------------------------
-- The stack, and the whole function
-- ---------------------------------------------------------------------------

def stackTop : Word := 0x70000000
def stackBase : Word := 0x6FFFB000

/-- `argc` and `argv`, both 0. The address that `paging_get_phys_on` gives has the offset in
the page already, which is then added once more. -/
def writeArgs (pml4 : Word) (m : PhysMem) : PhysMem :=
  let stackTopPhys := pagingGetPhysOn m pml4 (stackTop - 16)
  storeBytes m (stackTopPhys + ((stackTop - 16) &&& 0xFFF)) (fun _ => 0) 16

def mapStack (s : Machine) (pml4 : Word) : Bool × Machine :=
  let r := mapPages pml4 (ELF_USER_STACK_SIZE / 4096) stackBase s
  if r.1 then (true, { r.2 with mem := writeArgs pml4 r.2.mem }) else r

structure ElfImage where
  entry : Word
  stackTop : Word
  pml4 : Word

/-- What is done with the headers read; `none` for -1. -/
def elfBuild (fp : FatPrivate) (fuel : Nat) (node : VfsNode) (junk : Bytes) (hdr : Elf64Hdr)
    (phdrs : List Elf64Phdr) (s : Machine) (d : Disk) : Option (Option ElfImage × Machine × Disk) :=
  let c := pagingCloneCurrent s
  if c.1 = 0 then some (none, c.2, d)
  else
    match loadSegments fp fuel node junk c.1 phdrs c.2 d with
    | none => none
    | some (false, s, d) => some (none, s, d)
    | some (true, s, d) =>
      let r := mapStack s c.1
      if r.1 then some (some ⟨hdr.eEntry, stackTop - 16, c.1⟩, r.2, d) else some (none, r.2, d)

/-- `elf_load` of a file that was opened. -/
def elfLoadFile (fp : FatPrivate) (fuel : Nat) (node : VfsNode) (junk : Bytes) (s : Machine)
    (d : Disk) : Option (Option ElfImage × Machine × Disk) :=
  match vfsRead fp fuel node 0 sizeofHdr junk d with
  | none => none
  | some (n, _, buf, d) =>
    let hdr := readHdr buf
    if n < sizeofHdr ∨ hdr.magic ≠ ELF_MAGIC ∨ hdr.ePhnum > 16 then some (none, s, d)
    else
      match vfsRead fp fuel node hdr.ePhoff (hdr.ePhnum * sizeofPhdr) junk d with
      | none => none
      | some (n, _, buf, d) =>
        if n < hdr.ePhnum * sizeofPhdr then some (none, s, d)
        else elfBuild fp fuel node junk hdr
          ((List.range hdr.ePhnum).map fun i => readPhdr buf (i * sizeofPhdr)) s d

/-- `elf_load`: `none` inside for -1. `junk` is what the buffers on the stack hold at first, and `d`
is the disk as `vfs_open` leaves it. -/
def elfLoad (fp : FatPrivate) (fuel : Nat) (vfsOpen : CStr → Opened) (junk : Bytes)
    (path : CStr) (s : Machine) (d : Disk) : Option (Option ElfImage × Machine × Disk) :=
  let o := vfsOpen (fullPath path)
  match o.node with
  | none => some (none, o.grow s, d)
  | some node => elfLoadFile fp fuel node junk (o.grow s) d

end EponaOS.Kernel.Elf
