import Mathlib
import Xv6.Param

/-!
# Physical pages: `kalloc.c` and the page tables of `vm.c`

Pages are named by their kernel virtual address, as `kalloc` returns them (`P2V` and `V2P` cancel).  The free
list `kmem.freelist` is a list, head first.  A page directory is the list of its page-table pages, by directory
index, and the list of its present user mappings, from page address to page; the page of the directory itself and
the kernel half every directory maps are left out.

`held pd fl` lists, with repetition, the pages that the free list and one page directory hold.  `walkpgdir` moves
a page from the free list to the directory, `mappages` adds the page it maps (`mappages_held`), and `freevm` puts
every page of the directory back on the free list (`freevm_held`).  A page that a caller takes from `kalloc` and
neither maps nor frees is therefore held by nothing, and no later `kfree` returns it.
-/

namespace Xv6

def PHYSTOP : Nat := 0xE000000

/-- `kmem.freelist`, head first. -/
abbrev Freelist := List Nat

def kalloc : Freelist → Option (Nat × Freelist)
  | [] => none
  | r :: fl => some (r, fl)

/-- `kfree(v)`, with `kend` the address of `end`, the first after the kernel image; `none` for its panic. -/
def kfree (kend : Nat) (fl : Freelist) (v : Nat) : Option Freelist :=
  if v % PGSIZE ≠ 0 ∨ v < kend ∨ PHYSTOP ≤ v - KERNBASE then none else some (v :: fl)

/-- `freemem`: the loop counts the nodes of the list. -/
def freemem (fl : Freelist) : Nat := fl.length

/-- The directory index of a virtual address, `PDX(va)` for a `uint`. -/
def PDX (va : Nat) : Nat := va / 2 ^ 22 % 1024

def PGROUNDDOWN (a : Nat) : Nat := a / PGSIZE * PGSIZE

/-- A process's page directory: its page-table pages by directory index, and its present user pages by page
address. -/
structure Pgdir where
  tables : List (Nat × Nat)
  ptes : List (Nat × Nat)
  deriving DecidableEq, Repr

/-- `walkpgdir(pgdir, va, 1)`: the page table for `va`, allocated from the free list when the directory has none;
`none` when `kalloc` fails. -/
def walkpgdir (pd : Pgdir) (va : Nat) (fl : Freelist) : Option (Pgdir × Freelist) :=
  match pd.tables.lookup (PDX va) with
  | some _ => some (pd, fl)
  | none => (kalloc fl).map fun (pg, fl) => ({ pd with tables := (PDX va, pg) :: pd.tables }, fl)

/-- `mappages(pgdir, va, PGSIZE, pa, perm)` for a page-aligned `va`: `-1` when `walkpgdir` cannot allocate the page
table, `none` for the panic "remap". -/
def mappages (pd : Pgdir) (va pa : Nat) (fl : Freelist) : Option (Int × Pgdir × Freelist) :=
  match walkpgdir pd va fl with
  | none => some (-1, pd, fl)
  | some (pd, fl) =>
    if (pd.ptes.lookup va).isSome then none else some (0, { pd with ptes := (va, pa) :: pd.ptes }, fl)

/-- `freevm(pgdir)`: `deallocuvm` frees the present user pages in address order, then the page tables are freed
in directory order. -/
def freevm (kend : Nat) (pd : Pgdir) (fl : Freelist) : Option Freelist :=
  ((pd.ptes.mergeSort (fun a b => a.1 ≤ b.1)).map Prod.snd ++
    (pd.tables.mergeSort (fun a b => a.1 ≤ b.1)).map Prod.snd).foldlM (kfree kend) fl

/-- The pages the free list and the page directory `pd` hold. -/
def held (pd : Pgdir) (fl : Freelist) : List Nat := fl ++ pd.tables.map Prod.snd ++ pd.ptes.map Prod.snd

/-! ### How pages move -/

theorem kalloc_eq_some {fl fl' : Freelist} {p : Nat} : kalloc fl = some (p, fl') ↔ fl = p :: fl' := by
  cases fl with
  | nil => simp [kalloc]
  | cons r fl => simp [kalloc, eq_comm]

theorem kfree_eq_some {kend v : Nat} {fl fl' : Freelist} (h : kfree kend fl v = some fl') : fl' = v :: fl := by
  unfold kfree at h
  split at h
  · cases h
  · cases h
    rfl

/-- `walkpgdir` takes at most a page from the free list, into the directory, and leaves the user pages. -/
theorem walkpgdir_held {pd pd' : Pgdir} {va : Nat} {fl fl' : Freelist} (h : walkpgdir pd va fl = some (pd', fl')) :
    (held pd' fl').Perm (held pd fl) ∧ pd'.ptes = pd.ptes := by
  unfold walkpgdir at h
  split at h
  · cases h
    exact ⟨.refl _, rfl⟩
  · obtain ⟨⟨pg, fl₁⟩, hk, hpd⟩ := Option.map_eq_some_iff.1 h
    cases hpd
    rw [kalloc_eq_some.1 hk]
    refine ⟨?_, rfl⟩
    -- the page moves from the head of the free list to the front of the page tables
    simp only [held, List.map_cons, List.cons_append, List.append_assoc]
    exact List.perm_middle

private theorem held_map (pd : Pgdir) (fl : Freelist) (va pa : Nat) :
    (held { pd with ptes := (va, pa) :: pd.ptes } fl).Perm (pa :: held pd fl) := by
  simp only [held, List.map_cons]
  exact List.perm_middle

/-- `mappages` either maps `va` to `pa`, adding `pa` to what is held and changing no other mapping, or fails in
`walkpgdir` and changes nothing. -/
theorem mappages_held {pd pd' : Pgdir} {va pa : Nat} {fl fl' : Freelist} {r : Int}
    (h : mappages pd va pa fl = some (r, pd', fl')) :
    (r = 0 ∧ (held pd' fl').Perm (pa :: held pd fl) ∧ pd'.ptes = (va, pa) :: pd.ptes) ∨
      (r = -1 ∧ pd' = pd ∧ fl' = fl) := by
  unfold mappages at h
  split at h
  · cases h
    exact .inr ⟨rfl, rfl, rfl⟩
  · rename_i pd₁ fl₁ hw
    obtain ⟨hheld, hptes⟩ := walkpgdir_held hw
    split at h
    · cases h
    · cases h
      refine .inl ⟨rfl, ?_, by rw [hptes]⟩
      exact (held_map _ _ va pa).trans (.cons pa hheld)

/-- A run of `kfree` puts the pages it frees on top of the free list, in reverse order. -/
theorem foldlM_kfree_perm {kend : Nat} (l : List Nat) {fl₀ fl₁ : Freelist}
    (h : l.foldlM (kfree kend) fl₀ = some fl₁) : fl₁.Perm (fl₀ ++ l) := by
  induction l generalizing fl₀ with
  | nil =>
    cases h
    simp
  | cons v l ih =>
    rw [List.foldlM_cons] at h
    obtain ⟨fl₂, h₂, hrest⟩ := Option.bind_eq_some_iff.1 h
    rw [kfree_eq_some h₂] at hrest
    -- each freed page goes to the head, so the list grows by the freed pages in reverse order
    exact (ih hrest).trans List.perm_middle.symm

/-- What `freevm` frees comes on top of the free list, in some order: every page the directory held. -/
theorem freevm_held {kend : Nat} {pd : Pgdir} {fl fl' : Freelist} (h : freevm kend pd fl = some fl') :
    fl'.Perm (held pd fl) := by
  have hsorted := foldlM_kfree_perm _ h
  refine hsorted.trans ?_
  simp only [held, List.append_assoc]
  refine List.Perm.append_left fl ?_
  refine List.Perm.trans ?_ List.perm_append_comm
  exact List.Perm.append ((List.mergeSort_perm _ _).map _) ((List.mergeSort_perm _ _).map _)

end Xv6
