import Xv6.Mmap.Fault
import Xv6.Kernel.Mmap

/-!
# The page loops of `munmap` and of `fork`'s copy

`munmap` on a populated area walks its pages with `walkpgdir(pgdir, addr + i, 0)`, frees each present page and
clears its entry, and returns `-1` at the first page whose page table does not exist (`munmap_mem`).  What it does
to the mmap table is what the table-level `munmap` does, with `walk` the success of that loop
(`munmap_mem_table`).  A page table exists only where a page was mapped, so an area that crosses a 4 MB boundary
and was faulted on its first page only stops the loop on its first page of the next 4 MB: `munmap` returns `-1`
with the caller's area still active and the pages before it freed (`munmap_stops_at_missing_table`).

`fork` copies a populated area page by page: a page from `kalloc`, filled from the parent's page, and mapped in
the child with `mappages`, whose result is not checked (`forkCopy`).  When `mappages` cannot allocate the child's
page table, the page is neither mapped nor freed and the loop goes on, so `fork` succeeds with an area of
status 1 in the child and no page behind it (`fork_copy_unmapped`).
-/

namespace Xv6

/-- Clear the entry of `va`: `*pte = 0`. -/
def Pgdir.unmap (pd : Pgdir) (va : Nat) : Pgdir := { pd with ptes := pd.ptes.filter fun e => e.1 != va }

/-- The turns of `for (i = 0; i < length; i += PGSIZE)`: one for each page begun, none for a length that is not
positive. -/
def pageTurns (length : Int) : Nat := ((length + PGSIZE - 1) / PGSIZE).toNat

/-! ### `munmap` -/

/-- The loop of `munmap` over a populated area at `addr`, `k` turns left at offset `i`: `-1` where `walkpgdir`
finds no page table, and a present page freed with `kfree` and its entry cleared.  `none` is the panic of
`kfree`. -/
def munmapLoop (kend addr : Nat) : Nat → Nat → Pgdir → Freelist → Option (Int × Pgdir × Freelist)
  | 0, _, pd, fl => some (1, pd, fl)
  | k + 1, i, pd, fl =>
    let va := (addr + i) % UINT_MOD
    match pd.tables.lookup (PDX va) with
    | none => some (-1, pd, fl)
    | some _ =>
      match pd.ptes.lookup va with
      | none => munmapLoop kend addr k (i + PGSIZE) pd fl
      | some pa =>
        match kfree kend fl pa with
        | none => none
        | some fl => munmapLoop kend addr k (i + PGSIZE) (pd.unmap va) fl

/-- The entry `munmap(addr)` by slot `i` looks for: an active area of `i` starting at `addr`. -/
def munmapArea? (i addr : Nat) (mt : MmapTable) : Option Nat :=
  (List.range NMMAP).find? fun j =>
    (mt.mmap_areas j).addr = addr ∧ (mt.mmap_areas j).p = some i ∧ mt.mmap_status_flag j ≠ 0

/-- `munmap(addr)` by slot `i` on its page directory and the free list. -/
def munmap_mem (i addr kend : Nat) (mt : MmapTable) (pd : Pgdir) (fl : Freelist) :
    Option (Int × MmapTable × Pgdir × Freelist) :=
  if addr % PGSIZE ≠ 0 then some (-1, mt, pd, fl)
  else match munmapArea? i addr mt with
    | none => some (-1, mt, pd, fl)
    | some j =>
      if mt.mmap_status_flag j = -1 then some (1, mt.setStatus j 0, pd, fl)
      else (munmapLoop kend addr (pageTurns (mt.mmap_areas j).length) 0 pd fl).map fun (r, pd, fl) =>
        if r = -1 then (-1, mt, pd, fl) else (1, mt.setStatus j 0, pd, fl)

/-- The turns of an area of positive length up to a page: one. -/
theorem pageTurns_one {length : Int} (h0 : 0 < length) (h1 : length ≤ PGSIZE) : pageTurns length = 1 := by
  have : (length + PGSIZE - 1) / PGSIZE = 1 := by
    unfold PGSIZE at h1 ⊢
    omega
  unfold pageTurns
  rw [this]
  rfl

/-- `munmap` of a populated area of slot `i` at `addr` whose first page is present and whose second page lies
under a directory entry without a page table: the first page is freed and its entry cleared, and then the loop
returns `-1`, with the area still active in the table. -/
theorem munmap_stops_at_missing_table {i addr kend j tb pa : Nat} {mt : MmapTable} {pd : Pgdir} {fl : Freelist}
    (hj : munmapArea? i addr mt = some j) (hal : addr % PGSIZE = 0) (hs : mt.mmap_status_flag j = 1)
    (hlen : (PGSIZE : Int) < (mt.mmap_areas j).length)
    (ht0 : pd.tables.lookup (PDX (addr % UINT_MOD)) = some tb) (hp0 : pd.ptes.lookup (addr % UINT_MOD) = some pa)
    (hfree : kfree kend fl pa = some (pa :: fl))
    (ht1 : pd.tables.lookup (PDX ((addr + PGSIZE) % UINT_MOD)) = none) :
    munmap_mem i addr kend mt pd fl = some (-1, mt, pd.unmap (addr % UINT_MOD), pa :: fl) ∧
      mt.mmap_status_flag j ≠ 0 := by
  obtain ⟨k, hk⟩ : ∃ k, pageTurns (mt.mmap_areas j).length = k + 2 := by
    refine ⟨pageTurns (mt.mmap_areas j).length - 2, ?_⟩
    have : (2 : Int) ≤ ((mt.mmap_areas j).length + PGSIZE - 1) / PGSIZE := by
      rw [Int.le_ediv_iff_mul_le (by decide)]
      unfold PGSIZE at hlen ⊢
      omega
    unfold pageTurns
    omega
  have hs' : mt.mmap_status_flag j ≠ -1 := by rw [hs]; decide
  refine ⟨?_, by rw [hs]; decide⟩
  -- the first turn frees the first page; the second finds no page table
  have ht1' : (pd.unmap (addr % UINT_MOD)).tables.lookup (PDX ((addr + PGSIZE) % UINT_MOD)) = none := ht1
  simp [munmap_mem, hal, hj, hs', hk, munmapLoop, ht0, hp0, hfree, ht1']

/-- A lazily mapped area of two pages at `0x403FF000`, across the 4 MB boundary, faulted on its first page: the
page table of `0x40400000` was never allocated, so `munmap` frees the first page and returns `-1`, with the area
still active. -/
theorem munmap_across_boundary :
    munmapArea? 0 0x403FF000 ((MmapTable.empty.set 0
        ⟨none, 0x403FF000, 8192, 0, PROT_READ, MAP_ANONYMOUS, some 0⟩ (-1)).setStatus 0 1) = some 0 ∧
      munmap_mem 0 0x403FF000 0x80200000 ((MmapTable.empty.set 0
          ⟨none, 0x403FF000, 8192, 0, PROT_READ, MAP_ANONYMOUS, some 0⟩ (-1)).setStatus 0 1)
          ⟨[(256, 0x80401000)], [(0x403FF000, 0x80400000)]⟩ [] =
        some (-1, (MmapTable.empty.set 0 ⟨none, 0x403FF000, 8192, 0, PROT_READ, MAP_ANONYMOUS, some 0⟩ (-1)).setStatus
          0 1, Pgdir.unmap ⟨[(256, 0x80401000)], [(0x403FF000, 0x80400000)]⟩ (0x403FF000 % UINT_MOD), [0x80400000]) ∧
      ((MmapTable.empty.set 0 ⟨none, 0x403FF000, 8192, 0, PROT_READ, MAP_ANONYMOUS, some 0⟩ (-1)).setStatus
          0 1).mmap_status_flag 0 ≠ 0 := by
  have hj : munmapArea? 0 0x403FF000 ((MmapTable.empty.set 0
      ⟨none, 0x403FF000, 8192, 0, PROT_READ, MAP_ANONYMOUS, some 0⟩ (-1)).setStatus 0 1) = some 0 := by decide
  exact ⟨hj, @munmap_stops_at_missing_table 0 0x403FF000 0x80200000 0 0x80401000 0x80400000 _
    ⟨[(256, 0x80401000)], [(0x403FF000, 0x80400000)]⟩ [] hj (by decide) (by decide) (by decide) (by decide)
    (by decide) (by decide) (by decide)⟩

/-! ### The copy in `fork` -/

/-- The page loop of `fork`'s copy of a populated area at `addr`, `k` turns left at offset `i`: a page from
`kalloc`, filled from the parent's page at `addr + i` through the parent's page directory `ppd`, and mapped in the
child's directory with `mappages`, whose result is not checked.  `false` for the `return 0` when `kalloc` fails;
`none` where the parent's page is not present, so that the copy faults in the kernel, and for the panic
"remap". -/
def forkCopyLoop (addr : Nat) (ppd : Pgdir) : Nat → Nat → Pgdir → Freelist → Option (Bool × Pgdir × Freelist)
  | 0, _, cpd, fl => some (true, cpd, fl)
  | k + 1, i, cpd, fl =>
    match kalloc fl with
    | none => some (false, cpd, fl)
    | some (mem, fl) =>
      match ppd.ptes.lookup ((addr + i) % UINT_MOD) with
      | none => none
      | some _ =>
        match mappages cpd ((addr + i) % UINT_MOD) mem fl with
        | none => none
        | some (_, cpd, fl) => forkCopyLoop addr ppd k (i + PGSIZE) cpd fl

/-- The copy of a populated area of `length` bytes at `addr` from the parent's directory `ppd` into the child's
`cpd`. -/
def forkCopy (addr : Nat) (length : Int) (ppd cpd : Pgdir) (fl : Freelist) : Option (Bool × Pgdir × Freelist) :=
  forkCopyLoop addr ppd (pageTurns length) 0 cpd fl

/-- The copy of a populated area of one page whose page table the child does not have, with one page free:
`kalloc` takes the page, `mappages` fails to allocate the page table, and the copy ends normally with the child's
directory unchanged and the page on no list. -/
theorem fork_copy_unmapped {addr pa p : Nat} {length : Int} {ppd cpd : Pgdir} (h0 : 0 < length)
    (h1 : length ≤ PGSIZE) (hpar : ppd.ptes.lookup (addr % UINT_MOD) = some pa)
    (htab : cpd.tables.lookup (PDX (addr % UINT_MOD)) = none) :
    forkCopy addr length ppd cpd [p] = some (true, cpd, []) ∧ held cpd [] = (held cpd [p]).erase p := by
  refine ⟨?_, by simp [held]⟩
  unfold forkCopy
  rw [pageTurns_one h0 h1]
  simp [forkCopyLoop, kalloc, hpar, mappages, walkpgdir, htab]

/-- `fork` of a process with a populated page at `0x40000000` when one page is free: the child's area gets no
page. -/
theorem fork_copy_one_free_page :
    forkCopy 0x40000000 4096 ⟨[(256, 0x80401000)], [(0x40000000, 0x80400000)]⟩ ⟨[(0, 0x80500000)], []⟩
        [0x80600000] = some (true, ⟨[(0, 0x80500000)], []⟩, []) ∧
      held ⟨[(0, 0x80500000)], []⟩ [] = (held ⟨[(0, 0x80500000)], []⟩ [0x80600000]).erase 0x80600000 :=
  @fork_copy_unmapped 0x40000000 0x80400000 0x80600000 4096 ⟨[(256, 0x80401000)], [(0x40000000, 0x80400000)]⟩
    ⟨[(0, 0x80500000)], []⟩ (by decide) (by decide) (by decide) (by decide)

end Xv6
