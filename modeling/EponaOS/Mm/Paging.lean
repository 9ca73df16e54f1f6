import EponaOS.Lib.TableTrie
import EponaOS.Mm.Pmm

/-!
# Four-level page tables

`paging.c`. A table is named by its physical address, so the memory the tables
live in is a memory of tables in the sense of `TableTrie`: `entries[i]` of the table
at `t` is `mem t i`. Every table address comes from `PAGE_ADDR_MASK` or from the
frame allocator and is page aligned; two tables therefore never overlap in part.
-/

namespace EponaOS.Mm

open TableTrie

def PAGE_PRESENT : Word := 1
def PAGE_RW : Word := 2
def PAGE_USER : Word := 4
def PAGE_HUGE : Word := 0x80
def PAGE_ADDR_MASK : Word := 0x000FFFFFFFFFF000

/-- `PAGE_TABLE_ENTRIES` -/
abbrev Index := Fin 512

abbrev PhysMem := Word → Index → Word

/-- The memory of the page tables, the frame allocator and `g_pml4`. -/
structure Machine where
  mem : PhysMem
  pmm : Pmm
  gPml4 : Word

/-- `e & PAGE_ADDR_MASK`: the table or page an entry points to. -/
def addr (e : Word) : Word := e &&& PAGE_ADDR_MASK

/-- `e & flag`, as the condition of an `if`. -/
def has (e flag : Word) : Bool := e &&& flag != 0

def index (virt : Word) (shift : Nat) : Index := ⟨(virt >>> shift).toNat % 512, Nat.mod_lt _ (by decide)⟩

def idxPml4 (virt : Word) : Index := index virt 39
def idxPdpt (virt : Word) : Index := index virt 30
def idxPd (virt : Word) : Index := index virt 21
def idxPt (virt : Word) : Index := index virt 12

def pagingGetOrCreateTable (s : Machine) (t : Word) (i : Index) (flags : Word) : Word × Machine :=
  if has (s.mem t i) PAGE_PRESENT then (addr (s.mem t i), s)
  else
    match pmmAlloc s.pmm with
    | (table, pmm) =>
      if table = 0 then (0, { s with pmm })
      else (table, { s with
        mem := linkTable s.mem t i (table ||| PAGE_PRESENT ||| PAGE_RW ||| (flags &&& PAGE_USER))
          table fun _ => 0
        pmm })

/-- `if (flags & PAGE_USER) *entry |= PAGE_USER` -/
def grantUser (s : Machine) (t : Word) (i : Index) (flags : Word) : Machine :=
  if has flags PAGE_USER then { s with mem := setEntry s.mem t i (s.mem t i ||| PAGE_USER) } else s

def splitEntry (hugePhys tableFlags : Word) (i : Index) : Word :=
  (hugePhys + BitVec.ofNat 64 i * 4096) ||| PAGE_PRESENT ||| PAGE_RW ||| tableFlags

/-- The block of `paging_map_page_on` under `*pd_e & PAGE_HUGE`; `false` is its `return -1`. -/
def splitHuge (s : Machine) (pd : Word) (i : Index) (tableFlags : Word) : Bool × Machine :=
  if has (s.mem pd i) PAGE_HUGE then
    match pmmAlloc s.pmm with
    | (ptNew, pmm) =>
      if ptNew = 0 then (false, { s with pmm })
      else (true, { s with
        mem := linkTable s.mem pd i (ptNew ||| PAGE_PRESENT ||| PAGE_RW ||| tableFlags) ptNew
          (splitEntry (addr (s.mem pd i)) tableFlags)
        pmm })
  else (true, s)

def pagingMapPageOn (s : Machine) (pml4 virt phys flags : Word) : Int × Machine :=
  let pteFlags := flags ||| PAGE_PRESENT
  let tableFlags := flags &&& PAGE_USER
  match pagingGetOrCreateTable s pml4 (idxPml4 virt) tableFlags with
  | (pdpt, s) =>
  if pdpt = 0 then (-1, s) else
  let s := grantUser s pml4 (idxPml4 virt) flags
  match pagingGetOrCreateTable s pdpt (idxPdpt virt) tableFlags with
  | (pd, s) =>
  if pd = 0 then (-1, s) else
  let s := grantUser s pdpt (idxPdpt virt) flags
  match splitHuge s pd (idxPd virt) tableFlags with
  | (split, s) =>
  if !split then (-1, s) else
  let s := grantUser s pd (idxPd virt) flags
  match pagingGetOrCreateTable s pd (idxPd virt) tableFlags with
  | (pt, s) =>
  if pt = 0 then (-1, s) else
  (0, { s with mem := setEntry s.mem pt (idxPt virt) (addr phys ||| pteFlags) })

def pagingMapPage (s : Machine) (virt phys flags : Word) : Int × Machine :=
  pagingMapPageOn s s.gPml4 virt phys flags

/-- The loop moves on by one page of `virt` and one of `phys`. -/
def pagingMapRange (s : Machine) (virt phys flags : Word) : Nat → Int × Machine
  | 0 => (0, s)
  | pages + 1 =>
    match pagingMapPage s virt phys flags with
    | (ret, s) =>
      if ret < 0 then (-1, s)
      else pagingMapRange s (virt + 4096) (phys + 4096) flags pages

/-- The frame is given to `pmm_free` before its entry is cleared, unless it is the null pointer. -/
def pagingUnmapPage (s : Machine) (virt : Word) : Int × Machine :=
  let pml4E := s.mem s.gPml4 (idxPml4 virt)
  if !has pml4E PAGE_PRESENT then (-1, s) else
  let pdptE := s.mem (addr pml4E) (idxPdpt virt)
  if !has pdptE PAGE_PRESENT then (-1, s) else
  let pdE := s.mem (addr pdptE) (idxPd virt)
  if !has pdE PAGE_PRESENT then (-1, s) else
  let pt := addr pdE
  let ptE := s.mem pt (idxPt virt)
  if !has ptE PAGE_PRESENT then (-1, s) else
  let phys := addr ptE
  let pmm := if phys ≠ 0 then pmmFree s.pmm phys else s.pmm
  (0, { s with mem := setEntry s.mem pt (idxPt virt) 0, pmm })

def pagingGetPhysOn (m : PhysMem) (pml4 virt : Word) : Word :=
  let pml4E := m pml4 (idxPml4 virt)
  if !has pml4E PAGE_PRESENT then 0 else
  let pdptE := m (addr pml4E) (idxPdpt virt)
  if !has pdptE PAGE_PRESENT then 0 else
  let pdE := m (addr pdptE) (idxPd virt)
  if has pdE PAGE_HUGE then addr pdE ||| (virt &&& 0x1FFFFF) else
  if !has pdE PAGE_PRESENT then 0 else
  let ptE := m (addr pdE) (idxPt virt)
  if !has ptE PAGE_PRESENT then 0 else
  addr ptE ||| (virt &&& 0xFFF)

def pagingGetPhys (s : Machine) (virt : Word) : Word := pagingGetPhysOn s.mem s.gPml4 virt

def pagingCloneCurrent (s : Machine) : Word × Machine :=
  match pmmAlloc s.pmm with
  | (newPml4, pmm) =>
    if newPml4 = 0 then (0, { s with pmm })
    else (newPml4, { s with mem := fillTable s.mem newPml4 (s.mem s.gPml4), pmm })

end EponaOS.Mm
