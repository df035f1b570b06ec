import Mathlib
import Xv6.Mem.Vm
import Xv6.Mmap.Table

/-!
# The page `page_fault_handler` allocates

`Xv6.Mmap.Basic` leaves the pages of an area out and lets an argument say whether `page_fault_handler`'s
allocations succeed.  Here the handler runs on the free list and the page directory of the faulting process
(`page_fault_handler_mem`), and the table-level handler is what it does to the mmap table
(`page_fault_handler_mem_table`).

Two things follow from the C code's tail, which allocates one page, reads the file into it for a file mapping and
maps it at the area's start:
* it returns `-1` without `kfree` when `fileread` or `mappages` fails, so the page it took is held by nothing and
  the `exit` that `trap` calls does not free it (`page_fault_leaks_page`);
* it maps the area's first page whatever page faulted, and marks the whole area as having pages, so a fault
  beyond the first page of a lazily mapped area leaves the faulting page unmapped and the retried access finds
  nothing to do (`lazy_fault_beyond_first_page`);
* so a successful fault on an area of more than one page gives it status 1 while its second page is unmapped
  (`fault_status_one_page_unmapped`).

The `MAP_POPULATE` loops of `mmap` run here on the pages too (`populate`).  `mmap` records the area with status -1
before them and returns 0 when one of their allocations fails, so an area can keep status -1 with the pages the
loop mapped before the failure (`populate_fails_after_first_page`).
-/

namespace Xv6

/-- The tail of `page_fault_handler` for the area `a`: a page from `kalloc`, zeroed; for a file mapping the file
read into it from the area's offset (`readOk` says whether `fileread` succeeds, which `readi` refuses past the end
of the file); and the page mapped at the area's start. -/
def pfFill (a : MmapArea) (readOk : Bool) (pd : Pgdir) (fl : Freelist) : Option (Int × Pgdir × Freelist) :=
  match kalloc fl with
  | none => some (-1, pd, fl)
  | some (mem, fl) =>
    if Int.land a.flags MAP_ANONYMOUS = 0 ∧ readOk = false then some (-1, pd, fl)
    else (mappages pd a.addr mem fl).map fun (r, pd, fl) => (if r = -1 then -1 else 1, pd, fl)

/-- `page_fault_handler(error)` by slot `i` at `va`, on its page directory and the free list; `none` for the
panic "remap" of `mappages`. -/
def page_fault_handler_mem (i va error : Nat) (readOk : Bool) (mt : MmapTable) (pd : Pgdir) (fl : Freelist) :
    Option (Int × MmapTable × Pgdir × Freelist) :=
  match pfArea i va error mt with
  | none => some (-1, mt, pd, fl)
  | some j =>
    (pfFill (mt.mmap_areas j) readOk pd fl).map fun (r, pd, fl) =>
      (r, if r = 1 then mt.setStatus j 1 else mt, pd, fl)

/-! ### The tail -/

@[simp] private theorem held_cons (pd : Pgdir) (p : Nat) (fl : Freelist) : held pd (p :: fl) = p :: held pd fl := rfl

/-- The tail either maps a page from the free list at the area's start, keeping every page held, or gives up:
before `kalloc` succeeds, changing nothing, or after, with the page it took off the free list held by nothing. -/
theorem pfFill_held {a : MmapArea} {readOk : Bool} {pd pd' : Pgdir} {fl fl' : Freelist} {r : Int}
    (h : pfFill a readOk pd fl = some (r, pd', fl')) :
    (r = 1 ∧ (held pd' fl').Perm (held pd fl) ∧ ∃ mem, pd'.ptes = (a.addr, mem) :: pd.ptes) ∨
      (r = -1 ∧ pd' = pd ∧ fl' = fl) ∨
      (r = -1 ∧ pd' = pd ∧ ∃ mem, fl = mem :: fl') := by
  unfold pfFill at h
  split at h
  · cases h
    exact .inr (.inl ⟨rfl, rfl, rfl⟩)
  rename_i mem fl₁ hk
  have hfl := kalloc_eq_some.1 hk
  split at h
  · -- `fileread` failed
    cases h
    exact .inr (.inr ⟨rfl, rfl, mem, hfl⟩)
  obtain ⟨⟨r₀, pd₀, fl₀⟩, hm, heq⟩ := Option.map_eq_some_iff.1 h
  cases heq
  rcases mappages_held hm with ⟨rfl, hheld, hptes⟩ | ⟨rfl, rfl, rfl⟩
  · -- mapped: the page left the free list for the directory
    refine .inl ⟨by decide, ?_, mem, hptes⟩
    rw [hfl, held_cons]
    exact hheld
  · exact .inr (.inr ⟨by decide, rfl, mem, hfl⟩)

/-- A fault on a file mapping whose `fileread` fails, with a page on the free list: the handler returns `-1` and
the page it took is held neither by the free list nor by the page directory, so freeing the directory when `trap`
makes the process exit does not return it. -/
theorem page_fault_leaks_page {i va error j kend p : Nat} {mt : MmapTable} {pd : Pgdir} {fl : Freelist}
    (hj : pfArea i va error mt = some j) (hfile : Int.land (mt.mmap_areas j).flags MAP_ANONYMOUS = 0)
    (hnd : (held pd (p :: fl)).Nodup) :
    page_fault_handler_mem i va error false mt pd (p :: fl) = some (-1, mt, pd, fl) ∧ p ∉ held pd fl ∧
      ∀ fl', freevm kend pd fl = some fl' → p ∉ fl' := by
  have hp : p ∉ held pd fl := (List.nodup_cons.1 hnd).1
  refine ⟨?_, hp, fun fl' hfree hmem => hp ((freevm_held hfree).mem_iff.1 hmem)⟩
  simp [page_fault_handler_mem, hj, pfFill, kalloc, hfile]

/-- `mmap(0, PGSIZE, PROT_READ, 0, fd, 2 * PGSIZE)` by `initproc` on a file of one page: the first access faults,
`fileread` at offset `8192` fails, and the one free page is lost. -/
theorem page_fault_leaks_page_past_eof :
    pfArea 0 0x40000000 0 (MmapTable.empty.set 0 ⟨some 0, 0x40000000, 4096, 8192, PROT_READ, 0, some 0⟩ (-1)) =
        some 0 ∧
      Int.land ((MmapTable.empty.set 0 ⟨some 0, 0x40000000, 4096, 8192, PROT_READ, 0, some 0⟩ (-1)).mmap_areas 0).flags
        MAP_ANONYMOUS = 0 ∧
      (held ⟨[], []⟩ [0x80400000]).Nodup ∧
      (page_fault_handler_mem 0 0x40000000 0 false
          (MmapTable.empty.set 0 ⟨some 0, 0x40000000, 4096, 8192, PROT_READ, 0, some 0⟩ (-1)) ⟨[], []⟩
          [0x80400000] =
        some (-1, MmapTable.empty.set 0 ⟨some 0, 0x40000000, 4096, 8192, PROT_READ, 0, some 0⟩ (-1), ⟨[], []⟩, []) ∧
      0x80400000 ∉ held ⟨[], []⟩ [] ∧ ∀ fl', freevm 0x80200000 ⟨[], []⟩ [] = some fl' → 0x80400000 ∉ fl') := by
  have hj : pfArea 0 0x40000000 0
      (MmapTable.empty.set 0 ⟨some 0, 0x40000000, 4096, 8192, PROT_READ, 0, some 0⟩ (-1)) = some 0 := by decide
  have hfile : Int.land ((MmapTable.empty.set 0 ⟨some 0, 0x40000000, 4096, 8192, PROT_READ, 0, some 0⟩
      (-1)).mmap_areas 0).flags MAP_ANONYMOUS = 0 := by decide
  have hnd : (held ⟨[], []⟩ [0x80400000]).Nodup := by decide
  exact ⟨hj, hfile, hnd, page_fault_leaks_page hj hfile hnd⟩

/-- After a handler call that succeeded on an area, the next fault in it finds nothing to do. -/
theorem pfArea_setStatus_one {i va error j : Nat} {mt : MmapTable} (h : pfArea i va error mt = some j) :
    pfArea i va error (mt.setStatus j 1) = none := by
  unfold pfArea at h ⊢
  split at h
  · cases h
  rename_i j' hj'
  dsimp only at h
  split_ifs at h with hr hw hs
  cases h
  -- the search reads only the areas, which `setStatus` keeps, so it finds the same entry, now with status `1`
  split
  · rfl
  rename_i j'' hj''
  have hjj : j'' = j := Option.some.inj (hj''.symm.trans hj')
  subst hjj
  simp

/-- A fault in a page after the first of an area without pages: the handler maps the area's first page, not the
faulting one, so the faulting page stays unmapped; and either the handler failed, or it marked the area as having
pages and the retried access faults into a handler that finds nothing to do.  Either way `trap` makes the process
exit. -/
theorem lazy_fault_beyond_first_page {i va error j : Nat} {readOk : Bool} {mt mt' : MmapTable} {pd pd' : Pgdir}
    {fl fl' : Freelist} {r : Int} (hj : pfArea i va error mt = some j) (hva : (mt.mmap_areas j).addr + PGSIZE ≤ va)
    (hpte : pd.ptes.lookup (PGROUNDDOWN va) = none)
    (h : page_fault_handler_mem i va error readOk mt pd fl = some (r, mt', pd', fl')) :
    pd'.ptes.lookup (PGROUNDDOWN va) = none ∧ (r = -1 ∨ pfArea i va error mt' = none) := by
  unfold page_fault_handler_mem at h
  rw [hj] at h
  obtain ⟨⟨r₀, pd₀, fl₀⟩, hf, heq⟩ := Option.map_eq_some_iff.1 h
  cases heq
  have hne : PGROUNDDOWN va ≠ (mt.mmap_areas j).addr := by
    unfold PGROUNDDOWN
    unfold PGSIZE at hva ⊢
    omega
  rcases pfFill_held hf with ⟨rfl, -, mem, hptes⟩ | ⟨rfl, rfl, -⟩ | ⟨rfl, rfl, -⟩
  · refine ⟨?_, .inr ?_⟩
    · rw [hptes]
      simp only [List.lookup, beq_false_of_ne hne]
      exact hpte
    · simpa using pfArea_setStatus_one hj
  · exact ⟨hpte, .inl rfl⟩
  · exact ⟨hpte, .inl rfl⟩

/-- A lazily mapped anonymous area of two pages: a fault on its second page maps the first, from the two free pages
one goes to the page and one to the page table, and the second page stays unmapped. -/
theorem lazy_fault_second_page :
    pfArea 0 0x40001000 0 (MmapTable.empty.set 0 ⟨none, 0x40000000, 8192, 0, PROT_READ, MAP_ANONYMOUS, some 0⟩ (-1)) =
        some 0 ∧
      ((MmapTable.empty.set 0 ⟨none, 0x40000000, 8192, 0, PROT_READ, MAP_ANONYMOUS, some 0⟩ (-1)).mmap_areas 0).addr +
        PGSIZE ≤ 0x40001000 ∧
      (Pgdir.ptes ⟨[], []⟩).lookup (PGROUNDDOWN 0x40001000) = none ∧
      page_fault_handler_mem 0 0x40001000 0 true
          (MmapTable.empty.set 0 ⟨none, 0x40000000, 8192, 0, PROT_READ, MAP_ANONYMOUS, some 0⟩ (-1)) ⟨[], []⟩
          [0x80400000, 0x80401000] =
        some (1, (MmapTable.empty.set 0 ⟨none, 0x40000000, 8192, 0, PROT_READ, MAP_ANONYMOUS, some 0⟩ (-1)).setStatus 0 1,
          ⟨[(256, 0x80401000)], [(0x40000000, 0x80400000)]⟩, []) ∧
      (Pgdir.ptes ⟨[(256, 0x80401000)], [(0x40000000, 0x80400000)]⟩).lookup (PGROUNDDOWN 0x40001000) = none ∧
      ((1 : Int) = -1 ∨
        pfArea 0 0x40001000 0 ((MmapTable.empty.set 0 ⟨none, 0x40000000, 8192, 0, PROT_READ, MAP_ANONYMOUS, some 0⟩
          (-1)).setStatus 0 1) = none) := by
  have hj : pfArea 0 0x40001000 0
      (MmapTable.empty.set 0 ⟨none, 0x40000000, 8192, 0, PROT_READ, MAP_ANONYMOUS, some 0⟩ (-1)) = some 0 := by decide
  have hva : ((MmapTable.empty.set 0 ⟨none, 0x40000000, 8192, 0, PROT_READ, MAP_ANONYMOUS, some 0⟩
      (-1)).mmap_areas 0).addr + PGSIZE ≤ 0x40001000 := by decide
  have hpte : (Pgdir.ptes ⟨[], []⟩).lookup (PGROUNDDOWN 0x40001000) = none := by decide
  have h : page_fault_handler_mem 0 0x40001000 0 true
      (MmapTable.empty.set 0 ⟨none, 0x40000000, 8192, 0, PROT_READ, MAP_ANONYMOUS, some 0⟩ (-1)) ⟨[], []⟩
      [0x80400000, 0x80401000] =
      some (1, (MmapTable.empty.set 0 ⟨none, 0x40000000, 8192, 0, PROT_READ, MAP_ANONYMOUS, some 0⟩ (-1)).setStatus 0 1,
        ⟨[(256, 0x80401000)], [(0x40000000, 0x80400000)]⟩, []) := by
    simp [page_fault_handler_mem, hj, pfFill, kalloc, mappages, walkpgdir, PDX]
  exact ⟨hj, hva, hpte, h, lazy_fault_beyond_first_page hj hva hpte h⟩

/-- A successful fault on an area of more than one page, wherever in the area it is: the area gets status 1 while
its second page, unmapped before, is still unmapped. -/
theorem fault_status_one_page_unmapped {i va error j : Nat} {readOk : Bool} {mt mt' : MmapTable} {pd pd' : Pgdir}
    {fl fl' : Freelist} (hj : pfArea i va error mt = some j)
    (hlen : (mt.mmap_areas j).addr + PGSIZE < (mt.mmap_areas j).uend)
    (hpte : pd.ptes.lookup ((mt.mmap_areas j).addr + PGSIZE) = none)
    (h : page_fault_handler_mem i va error readOk mt pd fl = some (1, mt', pd', fl')) :
    mt'.mmap_status_flag j = 1 ∧
      ∃ va', (mt'.mmap_areas j).addr ≤ va' ∧ va' < (mt'.mmap_areas j).uend ∧ pd'.ptes.lookup va' = none := by
  unfold page_fault_handler_mem at h
  rw [hj] at h
  obtain ⟨⟨r₀, pd₀, fl₀⟩, hf, heq⟩ := Option.map_eq_some_iff.1 h
  simp only [Prod.mk.injEq] at heq
  obtain ⟨rfl, rfl, rfl, rfl⟩ := heq
  have hne : (mt.mmap_areas j).addr + PGSIZE ≠ (mt.mmap_areas j).addr := by
    unfold PGSIZE
    omega
  rcases pfFill_held hf with ⟨-, -, mem, hptes⟩ | ⟨h1, -⟩ | ⟨h1, -⟩
  · -- the handler mapped the area's first page only
    refine ⟨by simp [MmapTable.setStatus], (mt.mmap_areas j).addr + PGSIZE, ?_, ?_, ?_⟩
    · simp [MmapTable.setStatus]
    · simpa [MmapTable.setStatus] using hlen
    · rw [hptes]
      simp only [List.lookup, beq_false_of_ne hne]
      exact hpte
  · cases h1
  · cases h1

/-- A lazily mapped anonymous area of two pages faulted on its first page: the handler maps that page and gives the
area status 1, and the second page stays unmapped. -/
theorem fault_first_page_of_two :
    pfArea 0 0x40000000 0 (MmapTable.empty.set 0 ⟨none, 0x40000000, 8192, 0, PROT_READ, MAP_ANONYMOUS, some 0⟩ (-1)) =
        some 0 ∧
      ((MmapTable.empty.set 0 ⟨none, 0x40000000, 8192, 0, PROT_READ, MAP_ANONYMOUS, some 0⟩ (-1)).mmap_areas 0).addr +
        PGSIZE < ((MmapTable.empty.set 0 ⟨none, 0x40000000, 8192, 0, PROT_READ, MAP_ANONYMOUS, some 0⟩
          (-1)).mmap_areas 0).uend ∧
      (Pgdir.ptes ⟨[], []⟩).lookup (((MmapTable.empty.set 0 ⟨none, 0x40000000, 8192, 0, PROT_READ, MAP_ANONYMOUS,
        some 0⟩ (-1)).mmap_areas 0).addr + PGSIZE) = none ∧
      page_fault_handler_mem 0 0x40000000 0 true
          (MmapTable.empty.set 0 ⟨none, 0x40000000, 8192, 0, PROT_READ, MAP_ANONYMOUS, some 0⟩ (-1)) ⟨[], []⟩
          [0x80400000, 0x80401000] =
        some (1, (MmapTable.empty.set 0 ⟨none, 0x40000000, 8192, 0, PROT_READ, MAP_ANONYMOUS, some 0⟩ (-1)).setStatus 0 1,
          ⟨[(256, 0x80401000)], [(0x40000000, 0x80400000)]⟩, []) ∧
      (((MmapTable.empty.set 0 ⟨none, 0x40000000, 8192, 0, PROT_READ, MAP_ANONYMOUS, some 0⟩ (-1)).setStatus 0 1).mmap_status_flag 0 = 1 ∧
        ∃ va', (((MmapTable.empty.set 0 ⟨none, 0x40000000, 8192, 0, PROT_READ, MAP_ANONYMOUS, some 0⟩
          (-1)).setStatus 0 1).mmap_areas 0).addr ≤ va' ∧
          va' < (((MmapTable.empty.set 0 ⟨none, 0x40000000, 8192, 0, PROT_READ, MAP_ANONYMOUS, some 0⟩
            (-1)).setStatus 0 1).mmap_areas 0).uend ∧
          (Pgdir.ptes ⟨[(256, 0x80401000)], [(0x40000000, 0x80400000)]⟩).lookup va' = none) := by
  have hj : pfArea 0 0x40000000 0
      (MmapTable.empty.set 0 ⟨none, 0x40000000, 8192, 0, PROT_READ, MAP_ANONYMOUS, some 0⟩ (-1)) = some 0 := by decide
  have hlen : ((MmapTable.empty.set 0 ⟨none, 0x40000000, 8192, 0, PROT_READ, MAP_ANONYMOUS, some 0⟩
      (-1)).mmap_areas 0).addr + PGSIZE < ((MmapTable.empty.set 0 ⟨none, 0x40000000, 8192, 0, PROT_READ,
        MAP_ANONYMOUS, some 0⟩ (-1)).mmap_areas 0).uend := by decide
  have hpte : (Pgdir.ptes ⟨[], []⟩).lookup (((MmapTable.empty.set 0 ⟨none, 0x40000000, 8192, 0, PROT_READ,
      MAP_ANONYMOUS, some 0⟩ (-1)).mmap_areas 0).addr + PGSIZE) = none := by decide
  have h : page_fault_handler_mem 0 0x40000000 0 true
      (MmapTable.empty.set 0 ⟨none, 0x40000000, 8192, 0, PROT_READ, MAP_ANONYMOUS, some 0⟩ (-1)) ⟨[], []⟩
      [0x80400000, 0x80401000] =
      some (1, (MmapTable.empty.set 0 ⟨none, 0x40000000, 8192, 0, PROT_READ, MAP_ANONYMOUS, some 0⟩ (-1)).setStatus 0 1,
        ⟨[(256, 0x80401000)], [(0x40000000, 0x80400000)]⟩, []) := by
    simp [page_fault_handler_mem, hj, pfFill, kalloc, mappages, walkpgdir, PDX]
  exact ⟨hj, hlen, hpte, h, fault_status_one_page_unmapped hj hlen hpte h⟩

/-! ### The `MAP_POPULATE` loops -/

/-- The `MAP_POPULATE` loops of `mmap` at offset `i` with `k` turns left: a page from `kalloc`, zeroed (for a file
mapping filled by `fileread`, whose result is not checked), mapped at `addr + i`; `false` when `kalloc` fails or
`mappages` returns `-1`, after which `mmap` returns 0, and `none` for the panic "remap". -/
def populateLoop (addr : Nat) : Nat → Nat → Pgdir → Freelist → Option (Bool × Pgdir × Freelist)
  | 0, _, pd, fl => some (true, pd, fl)
  | k + 1, i, pd, fl =>
    match kalloc fl with
    | none => some (false, pd, fl)
    | some (mem, fl) =>
      match mappages pd ((addr + i) % UINT_MOD) mem fl with
      | none => none
      | some (r, pd, fl) => if r = -1 then some (false, pd, fl) else populateLoop addr k (i + PGSIZE) pd fl

/-- `for (i = 0; i < length; i += PGSIZE)`: a turn for each page begun, none for a length that is not positive. -/
def populate (addr : Nat) (length : Int) (pd : Pgdir) (fl : Freelist) : Option (Bool × Pgdir × Freelist) :=
  populateLoop addr ((length + PGSIZE - 1) / PGSIZE).toNat 0 pd fl

/-- `mmap` with `MAP_POPULATE` of an area of more than one page when one page is free and the first page's page
table exists: the loop maps the first page, fails to allocate the second and makes `mmap` return 0, which leaves
the area with status -1 and its first page mapped. -/
theorem populate_fails_after_first_page (addr : Nat) (length : Int) (p : Nat) (pd : Pgdir)
    (hlen : (PGSIZE : Int) < length) (htab : (pd.tables.lookup (PDX (addr % UINT_MOD))).isSome)
    (hpte : pd.ptes.lookup (addr % UINT_MOD) = none) :
    populate addr length pd [p] = some (false, { pd with ptes := (addr % UINT_MOD, p) :: pd.ptes }, []) := by
  obtain ⟨k, hk⟩ : ∃ k, ((length + PGSIZE - 1) / PGSIZE).toNat = k + 2 := by
    refine ⟨((length + PGSIZE - 1) / PGSIZE).toNat - 2, ?_⟩
    have : (2 : Int) ≤ (length + PGSIZE - 1) / PGSIZE := by
      rw [Int.le_ediv_iff_mul_le (by decide)]
      unfold PGSIZE at hlen ⊢
      omega
    omega
  obtain ⟨tb, htb⟩ := Option.isSome_iff_exists.1 htab
  unfold populate
  rw [hk]
  simp [populateLoop, kalloc, mappages, walkpgdir, htb, hpte]

end Xv6
