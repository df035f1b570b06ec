import Xv6.File.Basic

/-!
# The mmap table of `proc.c`

`mmap_areas[64]` with `mmap_status_flag[64]` (`0` free, `-1` recorded without pages, `1` with pages), and what
`mmap`, `page_fault_handler`, `munmap` and the copy loop of `fork` do to it and to the file table.  Owners are
process slots, `none` for the null pointer of a never used entry.  Addresses are `uint`: `mmap` adds `MMAPBASE`
modulo `2^32`, and the end of an area is `addr + length` modulo `2^32`.

The pages behind an area are not part of this model: where the C code allocates or walks page tables, an argument
says how that turned out (`pop`, `ok`, `walk`, `oom`), so that every outcome of the allocator is covered;
`Xv6.Mmap.Fault` runs `page_fault_handler` on the pages themselves.
-/

namespace Xv6

/-- `struct mmap_area`. -/
structure MmapArea where
  f : Option Nat := none
  addr : Nat := 0
  length : Int := 0
  offset : Int := 0
  prot : Int := 0
  flags : Int := 0
  p : Option Nat := none
  deriving DecidableEq, Repr

structure MmapTable where
  mmap_areas : Nat → MmapArea
  mmap_status_flag : Nat → Int

/-- The table of `mmap_areas`: its 64 entries. -/
def NMMAP : Nat := 64

/-- `addr + length` in `uint` arithmetic. -/
def uintAdd (addr : Nat) (length : Int) : Nat := ((addr + length) % (UINT_MOD : Int)).toNat

/-- The end of an area, as `mmap` and `page_fault_handler` compute it. -/
def MmapArea.uend (a : MmapArea) : Nat := uintAdd a.addr a.length

/-- `mmap`'s overlap test passes for `[addr, addr_end)` against the area `a`. -/
def MmapArea.apart (addr addr_end : Nat) (a : MmapArea) : Bool := addr_end ≤ a.addr ∨ a.uend ≤ addr

namespace MmapTable

def empty : MmapTable := ⟨fun _ => {}, fun _ => 0⟩

/-- Write entry `j`. -/
def set (mt : MmapTable) (j : Nat) (a : MmapArea) (s : Int) : MmapTable :=
  ⟨Function.update mt.mmap_areas j a, Function.update mt.mmap_status_flag j s⟩

/-- Change the status of entry `j`. -/
def setStatus (mt : MmapTable) (j : Nat) (s : Int) : MmapTable :=
  { mt with mmap_status_flag := Function.update mt.mmap_status_flag j s }

/-- The first free entry. -/
def free? (mt : MmapTable) : Option Nat := (List.range NMMAP).find? fun j => mt.mmap_status_flag j = 0

end MmapTable

/-! ### `mmap` -/

/-- The checks `mmap` makes of the file for a file mapping: `none` for the null dereference. -/
def mmapFileOk (prot flags : Int) (pfile : Option Nat) (ft : FTable) : Option Bool :=
  if Int.land flags MAP_ANONYMOUS ≠ 0 then some true
  else pfile.map fun f =>
    (ft f).type = .FD_INODE ∧ (Int.land prot PROT_READ = PROT_READ → (ft f).readable) ∧
      (Int.land prot PROT_WRITE = PROT_WRITE → (ft f).writable)

/-- The part of `mmap` from the file checks on, at the shifted address `addr` and with the file `pfile`. -/
def mmapArea (i addr : Nat) (length prot flags offset : Int) (pfile : Option Nat) (pop : Bool) (ft : FTable)
    (mt : MmapTable) : Option (Nat × FTable × MmapTable) := do
  let ok ← mmapFileOk prot flags pfile ft
  if !ok then return (0, ft, mt)
  let addr_end := uintAdd addr length
  if !(List.range NMMAP).all (fun j => mt.mmap_status_flag j = 0 ∨ (mt.mmap_areas j).apart addr addr_end) then
    return (0, ft, mt)
  match mt.free? with
  | none => return (0, ft, mt)
  | some j =>
    let ft ← match pfile with
      | none => pure ft
      | some f => filedup ft f
    let mt := mt.set j ⟨pfile, addr, length, offset, prot, flags, some i⟩ (-1)
    if flags = 0 ∨ flags = MAP_ANONYMOUS then return (addr, ft, mt)
    -- the `MAP_POPULATE` loops run only for a positive length
    else if length ≤ 0 ∨ pop then return (addr, ft, mt.setStatus j 1)
    else return (0, ft, mt)

/-- `mmap(addr, length, prot, flags, fd, offset)` by slot `i` with descriptors `o`: the returned address, `0` when
it fails.  `pop` says whether the allocations of the `MAP_POPULATE` loops succeed.  `none` where the kernel faults:
a file mapping through a null descriptor, or a descriptor past `ofile[NOFILE]`. -/
def mmap (i addr : Nat) (length prot flags fd offset : Int) (pop : Bool) (o : Ofile) (ft : FTable)
    (mt : MmapTable) : Option (Nat × FTable × MmapTable) :=
  if addr % PGSIZE ≠ 0 then some (0, ft, mt)
  else
    let addr := (addr + MMAPBASE) % UINT_MOD
    if length = 0 ∨ length.tmod PGSIZE ≠ 0 then some (0, ft, mt)
    else if prot ≠ PROT_READ ∧ prot ≠ Int.lor PROT_READ PROT_WRITE then some (0, ft, mt)
    else if flags ≠ 0 ∧ flags ≠ MAP_ANONYMOUS ∧ flags ≠ MAP_POPULATE ∧
        flags ≠ Int.lor MAP_ANONYMOUS MAP_POPULATE then some (0, ft, mt)
    else if Int.land flags MAP_ANONYMOUS = 0 ∧ fd = -1 then some (0, ft, mt)
    else if fd = -1 then mmapArea i addr length prot flags offset none pop ft mt
    else if fd < 0 ∨ offset < 0 then some (0, ft, mt)
    else if NOFILE ≤ fd then none
    else mmapArea i addr length prot flags offset (o fd.toNat) pop ft mt

/-! ### `page_fault_handler` and `munmap` -/

/-- The part of `page_fault_handler(error)` by slot `i` at the faulting address `va` before it allocates: the
first area of `i` around `va`, whatever its status, if the access passes its protection and the area has no pages
yet. -/
def pfArea (i va error : Nat) (mt : MmapTable) : Option Nat :=
  match (List.range NMMAP).find? fun j =>
      (mt.mmap_areas j).addr ≤ va ∧ va < (mt.mmap_areas j).uend ∧ (mt.mmap_areas j).p = some i with
  | none => none
  | some j =>
    let a := mt.mmap_areas j
    if Int.land a.prot PROT_READ ≠ 1 ∧ error &&& 2 = 0 then none
    else if Int.land a.prot PROT_WRITE ≠ 2 ∧ error &&& 2 = 2 then none
    else if mt.mmap_status_flag j ≠ -1 then none
    else some j

/-- `page_fault_handler(error)` by slot `i` at `va`; `ok` says whether `kalloc`, `fileread` and `mappages`
succeed. -/
def page_fault_handler (i va error : Nat) (ok : Bool) (mt : MmapTable) : Int × MmapTable :=
  match pfArea i va error mt with
  | none => (-1, mt)
  | some j => if ok then (1, mt.setStatus j 1) else (-1, mt)

/-- `munmap(addr)` by slot `i`; `walk` says whether `walkpgdir` finds a page table for every page of a populated
area.  The file reference the area holds is kept. -/
def munmap (i addr : Nat) (walk : Bool) (mt : MmapTable) : Int × MmapTable :=
  if addr % PGSIZE ≠ 0 then (-1, mt)
  else match (List.range NMMAP).find? fun j =>
      (mt.mmap_areas j).addr = addr ∧ (mt.mmap_areas j).p = some i ∧ mt.mmap_status_flag j ≠ 0 with
    | none => (-1, mt)
    | some j =>
      if mt.mmap_status_flag j = -1 then (1, mt.setStatus j 0)
      else if (mt.mmap_areas j).length ≤ 0 ∨ walk then (1, mt.setStatus j 0)
      else (-1, mt)

/-! ### The copy loop of `fork` -/

/-- One round of `fork`'s loop over the table, at entry `j`, copying for the child `c` the areas of the parent
`i`.  The error carries `fork`'s return value and the table so far: `-1` when no entry is free, `0` when `kalloc`
fails copying a populated area (at entry `oom`). -/
def copyArea (i c : Nat) (oom : Option Nat) (mt : MmapTable) (j : Nat) : Except (Int × MmapTable) MmapTable :=
  if (mt.mmap_areas j).p = some i ∧ mt.mmap_status_flag j ≠ 0 then
    match mt.free? with
    | none => .error (-1, mt)
    | some e =>
      let mt' := mt.set e { mt.mmap_areas j with p := some c } (mt.mmap_status_flag j)
      if mt.mmap_status_flag j = 1 ∧ 0 < (mt.mmap_areas j).length ∧ oom = some j then .error (0, mt')
      else .ok mt'
  else .ok mt

def fork_mmap (i c : Nat) (oom : Option Nat) (mt : MmapTable) : Except (Int × MmapTable) MmapTable :=
  (List.range NMMAP).foldlM (copyArea i c oom) mt

end Xv6
