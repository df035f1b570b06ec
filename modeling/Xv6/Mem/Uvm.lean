import Xv6.Mem.Vm
import Xv6.Lib.Ram
import Xv6.Fs.Data

/-!
# User memory: the rest of `vm.c` that `exec` runs

`Xv6.Mem.Vm` keeps the user half of a page directory.  A whole directory (`Vmspace`) adds the directory's own page,
the page tables of the kernel mappings that `setupkvm` allocates, and the user pages whose `PTE_U` `clearpteu` has
cleared.  Memory is now kept too, byte by byte, at the kernel addresses of the direct map (`Kmem`): `allocuvm` zeroes
the pages it maps, `loaduvm` reads a file into them through `readi`, and `copyout` writes to them through `uva2ka`.

Each function moves pages between the free list and a directory without losing one: `setupkvm_held`,
`Vmspace.freevm_held`, `deallocuvm_held` and `allocuvm_held` say where every page goes, whichever exit is taken.

`uva2ka` does not check the pointer `walkpgdir` returns.  For an address whose page table does not exist, the PTE it
reads is the word at address 0 of the page directory in use, the caller's, so `copyout` then writes wherever that
word points.
-/

namespace Xv6

def DEVSPACE : Nat := 0xFE000000
def NPDENTRIES : Nat := 1024
def PTE_P : Nat := 0x001
def PTE_U : Nat := 0x004

/-- The address in a page table entry, `pte & ~0xFFF`. -/
def PTE_ADDR (pte : Nat) : Nat := pte / PGSIZE * PGSIZE

/-- `P2V(a)` as a `uint`. -/
def P2V (a : Nat) : Nat := (a + KERNBASE) % UINT_MOD

/-- `PGROUNDUP(sz)` for a size below `2^32 - PGSIZE`, which every size `exec` rounds is. -/
def PGROUNDUP (sz : Nat) : Nat := (sz + PGSIZE - 1) / PGSIZE * PGSIZE

/-- Kernel memory, byte by byte, at the kernel virtual addresses of the direct map, where the pages of the free list
are.  The bytes of page-table pages are kept as the structure of `Pgdir` and `Vmspace` instead. -/
abbrev Kmem := Nat → UInt8

/-- A page directory as `setupkvm` builds it: its own page, the page tables of the kernel mappings by directory index,
the user half, and the user pages whose `PTE_U` is cleared. -/
structure Vmspace where
  pgdir : Nat
  ktables : List (Nat × Nat)
  user : Pgdir
  guard : List Nat
  deriving DecidableEq, Repr

namespace Vmspace

/-- The page table of directory index `x`, as `walkpgdir(pgdir, va, 0)` finds it. -/
def table? (vm : Vmspace) (x : Nat) : Option Nat := (vm.user.tables ++ vm.ktables).lookup x

/-- The pages the free list and a directory hold: the directory's page, the kernel page tables, and what `held`
counts of the user half. -/
def held (vm : Vmspace) (fl : Freelist) : List Nat := vm.pgdir :: (vm.ktables.map Prod.snd ++ Xv6.held vm.user fl)

/-- `freevm(pgdir)`: the user pages and the user page tables (`Xv6.freevm`), then the kernel page tables in directory
order, then the directory's page. -/
def freevm (kend : Nat) (vm : Vmspace) (fl : Freelist) : Option Freelist := do
  let fl ← Xv6.freevm kend vm.user fl
  let fl ← ((vm.ktables.mergeSort fun a b => a.1 ≤ b.1).map Prod.snd).foldlM (kfree kend) fl
  kfree kend fl vm.pgdir

end Vmspace

/-! ### `setupkvm` -/

/-- The directory indices of `kmap`'s entries: `KERNBASE` up to `KERNBASE + PHYSTOP` (the first three entries, which
meet end to end), and `DEVSPACE` up to the top of the address space.  `mappages` allocates a page table for each. -/
def kpdx : List Nat :=
  List.range' (PDX KERNBASE) (PDX (KERNBASE + PHYSTOP - 1) + 1 - PDX KERNBASE) ++
    List.range' (PDX DEVSPACE) (NPDENTRIES - PDX DEVSPACE)

/-- The page tables `setupkvm`'s `mappages` calls allocate, one index at a time; `.error` with the directory so far
when `kalloc` fails. -/
def setupkvmLoop (vm : Vmspace) (fl : Freelist) : List Nat → Except Vmspace Vmspace × Freelist
  | [] => (.ok vm, fl)
  | x :: xs =>
    match kalloc fl with
    | none => (.error vm, fl)
    | some (pg, fl) => setupkvmLoop { vm with ktables := (x, pg) :: vm.ktables } fl xs

/-- `setupkvm()`: inside, the directory, or `none` for the `0` it returns; outside, `none` for a panic of the
`freevm` that undoes a failed mapping. -/
def setupkvm (kend : Nat) (fl : Freelist) : Option (Option Vmspace × Freelist) :=
  match kalloc fl with
  | none => some (none, fl)
  | some (d, fl) =>
    match setupkvmLoop ⟨d, [], ⟨[], []⟩, []⟩ fl kpdx with
    | (.ok vm, fl) => some (some vm, fl)
    | (.error vm, fl) => (vm.freevm kend fl).map fun fl => (none, fl)

private theorem setupkvmLoop_of_le (vm : Vmspace) (xs : List Nat) {fl : Freelist} (h : xs.length ≤ fl.length) :
    setupkvmLoop vm fl xs = (.ok { vm with ktables := (xs.zip fl).reverse ++ vm.ktables }, fl.drop xs.length) := by
  induction xs generalizing vm fl with
  | nil => rfl
  | cons x xs ih =>
    obtain ⟨p, fl, rfl⟩ : ∃ p fl', fl = p :: fl' := List.exists_cons_of_length_pos (by simp at h; omega)
    simp only [List.length_cons, Nat.add_le_add_iff_right] at h
    rw [setupkvmLoop, kalloc]
    dsimp only
    rw [ih _ h]
    simp only [List.zip_cons_cons, List.reverse_cons, List.append_assoc, List.cons_append, List.nil_append,
      List.length_cons, List.drop_succ_cons]

/-- With a page for the directory and one for each kernel page table, `setupkvm` takes them from the head of the
free list. -/
theorem setupkvm_of_le (kend d : Nat) {fl : Freelist} (h : kpdx.length ≤ fl.length) :
    setupkvm kend (d :: fl) = some (some ⟨d, (kpdx.zip fl).reverse, ⟨[], []⟩, []⟩, fl.drop kpdx.length) := by
  rw [setupkvm, kalloc]
  dsimp only
  rw [setupkvmLoop_of_le _ _ h]
  simp

/-! ### Growing and shrinking the user half -/

/-- `deallocuvm(pgdir, oldsz, newsz)`: the present pages from `PGROUNDUP(newsz)` below `oldsz` are freed in address
order and unmapped.  Its own panic for a page at physical address 0 is `kfree`'s too. -/
def deallocuvm (kend : Nat) (pd : Pgdir) (oldsz newsz : Nat) (fl : Freelist) : Option (Pgdir × Freelist) :=
  if newsz ≥ oldsz then some (pd, fl)
  else
    let gone : Nat × Nat → Bool := fun e => decide (PGROUNDUP newsz ≤ e.1 ∧ e.1 < oldsz)
    ((((pd.ptes.filter gone).mergeSort fun a b => a.1 ≤ b.1).map Prod.snd).foldlM (kfree kend) fl).map
      fun fl => ({ pd with ptes := pd.ptes.filter fun e => !gone e }, fl)

/-- The page addresses `allocuvm`'s loop steps through, from `a` while below `newsz`. -/
def pagesUpTo (a newsz : Nat) : List Nat := List.range' a ((newsz - a + PGSIZE - 1) / PGSIZE) PGSIZE

/-- The loop of `allocuvm` over the pages `as`: each gets a zeroed page from `kalloc`, mapped by `mappages`.  A
failed `kalloc`, or a `mappages` that cannot allocate a page table, frees what the loop mapped (`deallocuvm`) and
returns 0; the page of the failed `mappages` is freed after that. -/
def allocuvmLoop (kend oldsz newsz : Nat) (pd : Pgdir) (fl : Freelist) (mem : Kmem) :
    List Nat → Option (Nat × Pgdir × Freelist × Kmem)
  | [] => some (newsz, pd, fl, mem)
  | a :: as =>
    match kalloc fl with
    | none => (deallocuvm kend pd newsz oldsz fl).map fun (pd, fl) => (0, pd, fl, mem)
    | some (pg, fl) =>
      let mem := Ram.fill mem pg PGSIZE 0
      match mappages pd a pg fl with
      | none => none
      | some (r, pd, fl) =>
        if r < 0 then
          (deallocuvm kend pd newsz oldsz fl).bind fun (pd, fl) => (kfree kend fl pg).map fun fl => (0, pd, fl, mem)
        else allocuvmLoop kend oldsz newsz pd fl mem as

/-- `allocuvm(pgdir, oldsz, newsz)`: the new size, or 0; `none` for a panic. -/
def allocuvm (kend : Nat) (pd : Pgdir) (oldsz newsz : Nat) (fl : Freelist) (mem : Kmem) :
    Option (Nat × Pgdir × Freelist × Kmem) :=
  if newsz ≥ KERNBASE then some (0, pd, fl, mem)
  else if newsz < oldsz then some (oldsz, pd, fl, mem)
  else allocuvmLoop kend oldsz newsz pd fl mem (pagesUpTo (PGROUNDUP oldsz) newsz)

/-! ### Reading a file into pages, and `clearpteu` -/

/-- The loop of `loaduvm`, one page at `addr + i` per round.  A PTE that is not present reads as physical address
0, whose kernel address is `KERNBASE`; `readi` copies what it read there before its count is checked. -/
def loaduvmLoop (sb : Superblock) (vm : Vmspace) (addr ip offset sz : Nat) (fs : Fs) (mem : Kmem) :
    List Nat → Option (Int × Fs × Kmem)
  | [] => some (0, fs, mem)
  | i :: is =>
    match vm.table? (PDX (addr + i)) with
    | none => none
    | some _ =>
      let pa := (vm.user.ptes.lookup (addr + i)).getD KERNBASE
      let n := if sz - i < PGSIZE then sz - i else PGSIZE
      match Bytes.readi sb fs ip ((offset + i) % UINT_MOD) n with
      | none => none
      | some (r, dst, fs) =>
        let mem := Ram.write mem pa dst
        if r ≠ n then some (-1, fs, mem) else loaduvmLoop sb vm addr ip offset sz fs mem is

/-- `loaduvm(pgdir, addr, ip, offset, sz)`, for `sz` below `2^32 - PGSIZE`: `none` for its panics and for those of
`readi`. -/
def loaduvm (sb : Superblock) (vm : Vmspace) (addr ip offset sz : Nat) (fs : Fs) (mem : Kmem) :
    Option (Int × Fs × Kmem) :=
  if addr % PGSIZE ≠ 0 then none
  else loaduvmLoop sb vm addr ip offset sz fs mem (List.range' 0 ((sz + PGSIZE - 1) / PGSIZE) PGSIZE)

/-- `clearpteu(pgdir, uva)`; `none` for its panic. -/
def clearpteu (vm : Vmspace) (uva : Nat) : Option Vmspace :=
  match vm.table? (PDX uva) with
  | none => none
  | some _ => some { vm with guard := uva :: vm.guard }

/-! ### `uva2ka` and `copyout` -/

/-- `uva2ka(pgdir, uva)` for a page address, run while `cur` is the directory in use: inside, the kernel address of
a present user page, or `none` for the 0 it returns.  With no page table for `uva`, `walkpgdir` returns 0 and the
PTE read is the word at address 0 of `cur`; `none` outside when that address is not mapped either. -/
def uva2ka (cur vm : Vmspace) (mem : Kmem) (uva : Nat) : Option (Option Nat) :=
  match vm.table? (PDX uva) with
  | some _ =>
    -- the kernel mappings are present without `PTE_U`
    match vm.user.ptes.lookup uva with
    | some pa => some (if uva ∈ vm.guard then none else some pa)
    | none => some none
  | none =>
    match cur.user.ptes.lookup 0 with
    | none => none
    | some pg =>
      let pte := Ram.getU32 mem pg
      some (if pte &&& PTE_P = 0 ∨ pte &&& PTE_U = 0 then none else some (P2V (PTE_ADDR pte)))

/-- A `memmove` by the kernel to `a`: kept when it lands in the direct map.  `none` otherwise: from
`KERNBASE + PHYSTOP` to `DEVSPACE` nothing is mapped and the kernel faults; below `KERNBASE` and from `DEVSPACE` on
the write goes to the user pages in use or to a device, which the model does not follow. -/
def kmemmove (mem : Kmem) (a : Nat) (src : List UInt8) : Option Kmem :=
  if KERNBASE ≤ a ∧ a + src.length ≤ KERNBASE + PHYSTOP then some (Ram.write mem a src) else none

private theorem sub_pgrounddown_lt (va : Nat) : va - PGROUNDDOWN va < PGSIZE := by
  unfold PGROUNDDOWN PGSIZE
  omega

/-- `copyout(pgdir, va, p, len)` run while `cur` is in use: the bytes of `src` copied a page at a time; `-1` at the
first page `uva2ka` refuses, and `none` for a fault. -/
def copyout (cur vm : Vmspace) (mem : Kmem) (va : Nat) (src : List UInt8) : Option (Int × Kmem) :=
  if _h : src = [] then some (0, mem)
  else
    let va0 := PGROUNDDOWN va
    match uva2ka cur vm mem va0 with
    | none => none
    | some none => some (-1, mem)
    | some (some pa0) =>
      let n := min (PGSIZE - (va - va0)) src.length
      match kmemmove mem (pa0 + (va - va0)) (src.take n) with
      | none => none
      | some mem => copyout cur vm mem ((va0 + PGSIZE) % UINT_MOD) (src.drop n)
termination_by src.length
decreasing_by
  have hva := sub_pgrounddown_lt va
  have hs : 0 < src.length := List.length_pos_iff.2 _h
  simp only [List.length_drop]
  omega

/-- With no page table for `uva`, `uva2ka` reads the word at address 0 of the directory in use as the PTE, and
returns the kernel address of the frame it names when it is a present user PTE. -/
theorem uva2ka_of_missing_table {cur vm : Vmspace} {mem : Kmem} {uva pg : Nat} (ht : vm.table? (PDX uva) = none)
    (hpg : cur.user.ptes.lookup 0 = some pg) (hP : Ram.getU32 mem pg &&& PTE_P ≠ 0)
    (hU : Ram.getU32 mem pg &&& PTE_U ≠ 0) :
    uva2ka cur vm mem uva = some (some (P2V (PTE_ADDR (Ram.getU32 mem pg)))) := by
  unfold uva2ka
  rw [ht, hpg]
  dsimp only
  -- `simp`, not `rw [if_neg _]`: the rewrite unfolds the bit tests and runs out of recursion depth
  simp only [hP, hU, or_self, if_false]

/-- `copyout` faults on its first page when `uva2ka` returns an address above the direct map. -/
theorem copyout_fault {cur vm : Vmspace} {mem : Kmem} {va pa : Nat} {src : List UInt8} (hsrc : src ≠ [])
    (hu : uva2ka cur vm mem (PGROUNDDOWN va) = some (some pa)) (hhigh : KERNBASE + PHYSTOP < pa) :
    copyout cur vm mem va src = none := by
  rw [copyout, dif_neg hsrc]
  have hno : ¬(KERNBASE ≤ pa + (va - PGROUNDDOWN va) ∧
      pa + (va - PGROUNDDOWN va) + (src.take (min (PGSIZE - (va - PGROUNDDOWN va)) src.length)).length ≤
        KERNBASE + PHYSTOP) := by
    omega
  -- no `dsimp` here: the kernel checks its step by unfolding the recursive call
  simp only [hu, kmemmove, hno, if_false]

/-! ### Where the pages go -/

/-- `freevm` puts every page the directory holds on the free list. -/
theorem Vmspace.freevm_held {kend : Nat} {vm : Vmspace} {fl fl' : Freelist} (h : vm.freevm kend fl = some fl') :
    fl'.Perm (vm.held fl) := by
  unfold Vmspace.freevm at h
  obtain ⟨fl₁, h₁, h⟩ := Option.bind_eq_some_iff.1 h
  obtain ⟨fl₂, h₂, h₃⟩ := Option.bind_eq_some_iff.1 h
  rw [kfree_eq_some h₃]
  refine List.Perm.cons _ ?_
  -- the user half first, then the kernel page tables in directory order
  have hk : (fl₁ ++ (vm.ktables.mergeSort fun a b => a.1 ≤ b.1).map Prod.snd).Perm
      (Xv6.held vm.user fl ++ vm.ktables.map Prod.snd) :=
    (Xv6.freevm_held h₁).append ((List.mergeSort_perm _ _).map _)
  exact (foldlM_kfree_perm _ h₂).trans (hk.trans List.perm_append_comm)

private theorem setupkvmLoop_held (vm : Vmspace) (fl : Freelist) (xs : List Nat) :
    ∃ vm', ((setupkvmLoop vm fl xs).1 = .ok vm' ∨ (setupkvmLoop vm fl xs).1 = .error vm') ∧
      (vm'.held (setupkvmLoop vm fl xs).2).Perm (vm.held fl) ∧ vm'.pgdir = vm.pgdir ∧ vm'.user = vm.user ∧
      vm'.guard = vm.guard := by
  induction xs generalizing vm fl with
  | nil => exact ⟨vm, .inl rfl, .refl _, rfl, rfl, rfl⟩
  | cons x xs ih =>
    unfold setupkvmLoop
    split
    · exact ⟨vm, .inr rfl, .refl _, rfl, rfl, rfl⟩
    · rename_i pg fl₁ hk
      obtain ⟨vm', hr, hp, hd, hu, hg⟩ := ih { vm with ktables := (x, pg) :: vm.ktables } fl₁
      refine ⟨vm', hr, hp.trans ?_, hd, hu, hg⟩
      -- the page moves from the head of the free list to the kernel page tables
      rw [kalloc_eq_some.1 hk]
      simp only [Vmspace.held, Xv6.held, List.map_cons, List.cons_append, List.append_assoc]
      exact .cons _ List.perm_middle.symm

/-- `setupkvm` either returns a directory holding pages taken from the free list, with an empty user half, or
returns 0 with every page it took back on the free list. -/
theorem setupkvm_held {kend : Nat} {fl fl' : Freelist} {r : Option Vmspace} (h : setupkvm kend fl = some (r, fl')) :
    (r = none ∧ fl'.Perm fl) ∨
      (∃ vm, r = some vm ∧ (vm.held fl').Perm fl ∧ vm.user = ⟨[], []⟩ ∧ vm.guard = []) := by
  unfold setupkvm at h
  split at h
  · cases h
    exact .inl ⟨rfl, .refl _⟩
  · rename_i d fl₁ hk
    rw [kalloc_eq_some.1 hk]
    obtain ⟨vm, hr, hp, -, hu, hg⟩ := setupkvmLoop_held ⟨d, [], ⟨[], []⟩, []⟩ fl₁ kpdx
    -- the empty directory holds its own page only
    have hd : (Vmspace.held ⟨d, [], ⟨[], []⟩, []⟩ fl₁) = d :: fl₁ := by simp [Vmspace.held, Xv6.held]
    rw [hd] at hp
    split at h
    · rename_i vm₁ fl₂ e
      cases h
      rw [e] at hr hp
      simp only [Except.ok.injEq, reduceCtorEq, or_false] at hr
      subst hr
      exact .inr ⟨vm₁, rfl, hp, hu, hg⟩
    · rename_i vm₁ fl₂ e
      rw [e] at hr hp
      simp only [Except.error.injEq, reduceCtorEq, false_or] at hr
      subst hr
      obtain ⟨fl₃, hf, he⟩ := Option.map_eq_some_iff.1 h
      cases he
      exact .inl ⟨rfl, (Vmspace.freevm_held hf).trans hp⟩

/-- `deallocuvm` moves the pages it unmaps to the free list and keeps the page tables. -/
theorem deallocuvm_held {kend oldsz newsz : Nat} {pd pd' : Pgdir} {fl fl' : Freelist}
    (h : deallocuvm kend pd oldsz newsz fl = some (pd', fl')) : (held pd' fl').Perm (held pd fl) ∧ pd'.tables = pd.tables := by
  unfold deallocuvm at h
  split at h
  · cases h
    exact ⟨.refl _, rfl⟩
  · obtain ⟨fl₁, hf, he⟩ := Option.map_eq_some_iff.1 h
    have hfree := foldlM_kfree_perm _ hf
    cases he
    refine ⟨?_, rfl⟩
    set gone : Nat × Nat → Bool := fun e => decide (PGROUNDUP newsz ≤ e.1 ∧ e.1 < oldsz)
    set freed := (pd.ptes.filter gone).map Prod.snd
    set kept := (pd.ptes.filter fun e => !gone e).map Prod.snd
    -- the freed pages and the pages kept make up the pages mapped before
    have hsplit : (freed ++ kept).Perm (pd.ptes.map Prod.snd) := by
      rw [← List.map_append]
      exact (List.filter_append_perm gone pd.ptes).map _
    have hfl := hfree.trans (.append_left fl ((List.mergeSort_perm (pd.ptes.filter gone) _).map Prod.snd))
    simp only [held]
    refine ((hfl.append_right _).append_right _).trans ?_
    -- the freed pages move past the page tables, next to the pages kept
    simp only [List.append_assoc]
    refine .append_left fl ?_
    refine List.perm_append_comm.trans ?_
    rw [List.append_assoc]
    exact .append_left _ (List.perm_append_comm.trans hsplit)

private theorem allocuvmLoop_held {kend oldsz newsz : Nat} (as : List Nat) {pd pd' : Pgdir} {fl fl' : Freelist}
    {mem mem' : Kmem} {r : Nat} (h : allocuvmLoop kend oldsz newsz pd fl mem as = some (r, pd', fl', mem')) :
    (held pd' fl').Perm (held pd fl) := by
  induction as generalizing pd fl mem with
  | nil =>
    cases h
    exact .refl _
  | cons a as ih =>
    unfold allocuvmLoop at h
    split at h
    · obtain ⟨⟨pd₁, fl₁⟩, hd, he⟩ := Option.map_eq_some_iff.1 h
      cases he
      exact (deallocuvm_held hd).1
    · rename_i pg fl₁ hk
      rw [kalloc_eq_some.1 hk]
      split at h
      · cases h
      · rename_i r₁ pd₁ fl₂ hm
        split at h
        · -- `mappages` could not allocate a page table: undo, then free the page
          rename_i hneg
          obtain ⟨⟨pd₂, fl₃⟩, hd, h⟩ := Option.bind_eq_some_iff.1 h
          obtain ⟨fl₄, hf, he⟩ := Option.map_eq_some_iff.1 h
          have hheld := (deallocuvm_held hd).1
          cases he
          rw [kfree_eq_some hf]
          obtain ⟨hr0, -, -⟩ | ⟨-, rfl, rfl⟩ := mappages_held hm
          · omega
          · simp only [held, List.cons_append] at hheld ⊢
            exact .cons _ hheld
        · rename_i hr
          obtain ⟨-, hp, -⟩ | ⟨hr', -, -⟩ := mappages_held hm
          · refine (ih h).trans (hp.trans ?_)
            simp only [held, List.cons_append]
            exact .refl _
          · omega

/-- Whatever `allocuvm` returns, every page is still held, by the free list or by the user half. -/
theorem allocuvm_held {kend oldsz newsz : Nat} {pd pd' : Pgdir} {fl fl' : Freelist} {mem mem' : Kmem} {r : Nat}
    (h : allocuvm kend pd oldsz newsz fl mem = some (r, pd', fl', mem')) : (held pd' fl').Perm (held pd fl) := by
  unfold allocuvm at h
  split at h
  · cases h
    exact .refl _
  · split at h
    · cases h
      exact .refl _
    · exact allocuvmLoop_held _ h

/-- The pages a directory holds. -/
def Vmspace.pages (vm : Vmspace) : List Nat := vm.held []

private theorem Vmspace.held_perm (vm : Vmspace) (fl : Freelist) : (vm.held fl).Perm (vm.pages ++ fl) := by
  simp only [Vmspace.pages, Vmspace.held, Xv6.held, List.nil_append, List.cons_append, List.append_assoc]
  refine .cons _ (.append_left _ ?_)
  rw [← List.append_assoc (vm.user.tables.map Prod.snd)]
  exact List.perm_append_comm

theorem Vmspace.held_congr (vm : Vmspace) {fl fl' : Freelist} (h : fl.Perm fl') : (vm.held fl).Perm (vm.held fl') :=
  (vm.held_perm fl).trans ((h.append_left _).trans (vm.held_perm fl').symm)

/-- Two directories' pages on top of a free list, in either order. -/
theorem Vmspace.held_comm (vm vm' : Vmspace) (fl : Freelist) :
    (vm.held (vm'.held fl)).Perm (vm'.held (vm.held fl)) := by
  refine (vm.held_perm _).trans (.trans ?_ (vm'.held_perm _).symm)
  refine (List.Perm.append_left _ (vm'.held_perm fl)).trans ?_
  refine .trans ?_ (List.Perm.append_left _ (vm.held_perm fl).symm)
  simp only [← List.append_assoc]
  exact .append_right _ List.perm_append_comm

theorem Vmspace.held_user {vm : Vmspace} {pd : Pgdir} {fl fl' : Freelist} (h : (Xv6.held pd fl').Perm (Xv6.held vm.user fl)) :
    (Vmspace.held { vm with user := pd } fl').Perm (vm.held fl) :=
  .cons _ (.append_left _ h)

theorem clearpteu_held {vm vm' : Vmspace} {uva : Nat} (h : clearpteu vm uva = some vm') (fl : Freelist) :
    vm'.held fl = vm.held fl := by
  unfold clearpteu at h
  split at h
  · cases h
  · cases h
    rfl

end Xv6
