import Mathlib
import Xv6.Param

/-!
# The user allocator of `umalloc.c`

The allocator of Kernighan and Ritchie.  The free blocks form a circular list through the static header `base`;
a block is a run of 8-byte headers, the first of which holds the link to the next free block and the block's size
in headers.  `malloc(nbytes)` rounds up to `nunits` headers, walks the list from `freep` to the first block large
enough, and unlinks it or cuts its tail; when the walk is back at `freep` it asks `morecore` for at least 4096
headers from `sbrk`, which `free` puts on the list.  `free(ap)` walks to the free block after which `ap`'s block
belongs by address, the highest block being followed by the lowest, and merges the block with its neighbours where
they touch.

Memory is the two header fields at each address (`Heap.ptr`, `Heap.size`), with pointers as byte addresses; sizes
and the unit count are `uint`, and a `Header*` sum is taken modulo `2^32`.  The loops take fuel, `none` being a loop
that did not finish.  `sbrk` runs `growproc`, whose `allocuvm` can map pages up to `top`.

For `nbytes` within 7 of `2^32`, `nbytes + sizeof(Header) - 1` wraps and `nunits` is 1: from a first call,
`malloc` returns the last header of the 4096 that `morecore` got, a block with no usable byte that ends at the top
of the process's memory (`malloc_wraps`).
-/

namespace Xv6.Umalloc

/-- `sizeof(Header)`: a pointer and a `uint`. -/
def HSIZE : Nat := 8

/-- What the allocator reads and writes: the header fields at each address, `freep` (0 for null), and the size of
the process, where `sbrk` puts new memory. -/
structure Heap where
  ptr : Nat → Nat
  size : Nat → Nat
  freep : Nat
  sz : Nat

/-- `hp + k` for a `Header*` `hp`. -/
def hadd (a k : Nat) : Nat := (a + HSIZE * k) % UINT_MOD

/-- An `int` argument that receives the `uint` value `x`. -/
def toInt32 (x : Nat) : Int := if x < 2 ^ 31 then x else (x : Int) - UINT_MOD

/-- `growproc(n)` with `allocuvm` able to map up to `top`: the new process size, `none` for `-1`.  `sz + n` is
`uint` arithmetic; `allocuvm` refuses a size from `KERNBASE` on and keeps the old size for a smaller one, and
`deallocuvm` keeps the old size for a larger one. -/
def growproc (top sz : Nat) (n : Int) : Option Nat :=
  let newsz := ((sz + n) % (UINT_MOD : Int)).toNat
  if 0 < n then
    if KERNBASE ≤ newsz then none
    else if newsz < sz then some sz
    else if newsz ≤ top then some newsz
    else none
  else if n < 0 then
    let r := if sz ≤ newsz then sz else newsz
    if r = 0 then none else some r
  else some sz

section Alloc

-- `base` is the address of the static header that starts the free list, `top` how far `allocuvm` can grow the
-- process
variable (base top : Nat)

/-- The search loop of `free(ap)` from `p`, for the header `bp` of the freed block: the free block after which it
belongs. -/
def freeFind (h : Heap) (bp : Nat) : Nat → Nat → Option Nat
  | 0, _ => none
  | fuel + 1, p =>
    if bp > p ∧ bp < h.ptr p then some p
    else if p ≥ h.ptr p ∧ (bp > p ∨ bp < h.ptr p) then some p
    else freeFind h bp fuel (h.ptr p)

/-- `free(ap)`: link the block in after `p`, joined with the block after it and with `p` where they touch. -/
def free (h : Heap) (ap fuel : Nat) : Option Heap :=
  let bp := (ap + UINT_MOD - HSIZE) % UINT_MOD
  (freeFind h bp fuel h.freep).map fun p =>
    let h :=
      if hadd bp (h.size bp) = h.ptr p then
        { h with size := Function.update h.size bp ((h.size bp + h.size (h.ptr p)) % UINT_MOD),
                 ptr := Function.update h.ptr bp (h.ptr (h.ptr p)) }
      else { h with ptr := Function.update h.ptr bp (h.ptr p) }
    let h :=
      if hadd p (h.size p) = bp then
        { h with size := Function.update h.size p ((h.size p + h.size bp) % UINT_MOD),
                 ptr := Function.update h.ptr p (h.ptr bp) }
      else { h with ptr := Function.update h.ptr p bp }
    { h with freep := p }

/-- `morecore(nu)`: at least 4096 headers from `sbrk`, freed onto the list; the new `freep`, 0 where `sbrk`
failed. -/
def morecore (h : Heap) (nu fuel : Nat) : Option (Nat × Heap) :=
  let nu := if nu < 4096 then 4096 else nu
  match growproc top h.sz (toInt32 (nu * HSIZE % UINT_MOD)) with
  | none => some (0, h)
  | some sz =>
    -- `hp = (Header*)p; hp->s.size = nu; free((void*)(hp + 1));` with `p` the old size
    (free { h with sz := sz, size := Function.update h.size h.sz nu } (hadd h.sz 1) fuel).map
      fun h => (h.freep, h)

/-- The loop of `malloc` for `nunits` headers, at the block `p` after `prevp`: the pointer returned, 0 for null. -/
def mallocLoop (nunits : Nat) : Nat → Nat → Nat → Heap → Option (Nat × Heap)
  | 0, _, _, _ => none
  | fuel + 1, prevp, p, h =>
    if nunits ≤ h.size p then
      if h.size p = nunits then
        some (hadd p 1, { h with ptr := Function.update h.ptr prevp (h.ptr p), freep := prevp })
      else
        -- `p->s.size -= nunits; p += p->s.size; p->s.size = nunits;`
        let q := hadd p (h.size p - nunits)
        some (hadd q 1,
          { h with size := Function.update (Function.update h.size p (h.size p - nunits)) q nunits,
                   freep := prevp })
    else if p = h.freep then
      match morecore top h nunits fuel with
      | none => none
      | some (0, h) => some (0, h)
      | some (p, h) => mallocLoop nunits fuel p (h.ptr p) h
    else mallocLoop nunits fuel p (h.ptr p) h

/-- `nunits` for `malloc(nbytes)`, in `uint` arithmetic. -/
def nunitsOf (nbytes : Nat) : Nat := (nbytes + HSIZE - 1) % UINT_MOD / HSIZE + 1

/-- `malloc(nbytes)`: the pointer returned, 0 for null.  The first call makes `base` an empty block linked to
itself. -/
def malloc (h : Heap) (nbytes fuel : Nat) : Option (Nat × Heap) :=
  let h := if h.freep = 0 then
      { h with ptr := Function.update h.ptr base base, size := Function.update h.size base 0, freep := base }
    else h
  mallocLoop top (nunitsOf nbytes) fuel h.freep (h.ptr h.freep) h

end Alloc

/-! ### The unit count and `sbrk` -/

/-- `nunits` wraps to 1 for the last seven `uint` values. -/
theorem nunitsOf_wrap {nbytes : Nat} (h : UINT_MOD - 7 ≤ nbytes) (hlt : nbytes < UINT_MOD) : nunitsOf nbytes = 1 := by
  unfold nunitsOf HSIZE
  simp only [UINT_MOD] at h hlt ⊢
  omega

/-- `growproc` by a positive `n` that keeps the process below `KERNBASE` and within `top` grows it by `n`. -/
theorem growproc_grow {top sz n : Nat} (hn : 0 < n) (hk : sz + n < KERNBASE) (ht : sz + n ≤ top) :
    growproc top sz n = some (sz + n) := by
  have hmod : (((sz : Int) + n) % (UINT_MOD : Int)).toNat = sz + n := by
    simp only [KERNBASE] at hk
    simp only [UINT_MOD]
    omega
  simp only [growproc, hmod, Int.natCast_pos.2 hn, if_true, Nat.not_le.2 hk, if_false, Nat.not_lt.2 (Nat.le_add_right sz n),
    ht]

private theorem hadd_of_lt {a k : Nat} (h : a + HSIZE * k < UINT_MOD) : hadd a k = a + HSIZE * k := by
  unfold hadd
  exact Nat.mod_eq_of_lt h

/-- `(Header*)ap - 1` for `ap = hp + 1` is `hp`. -/
theorem hdr_hadd_one {a : Nat} (h : a + HSIZE < UINT_MOD) : (hadd a 1 + UINT_MOD - HSIZE) % UINT_MOD = a := by
  rw [hadd_of_lt (by simpa using h)]
  unfold HSIZE UINT_MOD at *
  omega

/-- The bytes `morecore` asks of `sbrk` for fewer than 4096 headers. -/
theorem toInt32_morecore : toInt32 (4096 * HSIZE % UINT_MOD) = ((32768 : Nat) : Int) := by
  decide

/-- The 4096 headers that `morecore` adds to a process below `KERNBASE` end below `2^32`. -/
theorem units_lt_of_kernbase {sz : Nat} (hk : sz + 32768 < KERNBASE) : sz + HSIZE * 4096 < UINT_MOD := by
  unfold KERNBASE at hk
  unfold HSIZE UINT_MOD
  omega

section First

variable {base top : Nat} {h : Heap}

/-- The first `morecore` from the list of `base` alone: `sbrk` gives the 4096 headers above the old size, and
`free` links them in after `base`. -/
theorem morecore_first (hbase : base + HSIZE ≤ h.sz) (hk : h.sz + 32768 < KERNBASE)
    (ht : h.sz + 32768 ≤ top) (hp : h.ptr base = base) (hs : h.size base = 0) (hf : h.freep = base) (fuel : Nat) :
    morecore top h 1 (fuel + 1) = some (base,
      { h with sz := h.sz + 32768,
               size := Function.update h.size h.sz 4096,
               ptr := Function.update (Function.update h.ptr h.sz base) base h.sz }) := by
  have hsz : base < h.sz := by unfold HSIZE at hbase; omega
  have hk' : h.sz + HSIZE * 4096 < UINT_MOD := units_lt_of_kernbase hk
  have hb0 : base + HSIZE * 0 < UINT_MOD := Nat.lt_of_le_of_lt (by omega) hk'
  have hlow : hadd base 0 ≠ h.sz := by rw [hadd_of_lt hb0]; omega
  have hup : hadd h.sz 4096 ≠ base := by
    rw [hadd_of_lt hk']
    exact Nat.ne_of_gt (Nat.lt_of_lt_of_le hsz (Nat.le_add_right _ _))
  have hne : h.sz ≠ base := Nat.ne_of_gt hsz
  -- `free` finds `bp` at the old size, and `base` as the block it follows
  have hbp : (hadd h.sz 1 + UINT_MOD - HSIZE) % UINT_MOD = h.sz := hdr_hadd_one (by unfold HSIZE at hk' ⊢; omega)
  have hfind : freeFind { h with sz := h.sz + 32768, size := Function.update h.size h.sz 4096, freep := base } h.sz
      (fuel + 1) base = some base := by
    simp only [freeFind, hp, Nat.lt_asymm hsz, and_false, if_false, ge_iff_le, Nat.le_refl, hsz, true_or, and_self,
      if_true]
  unfold morecore
  simp only [show (if 1 < 4096 then 4096 else 1) = 4096 from rfl, toInt32_morecore,
    growproc_grow (by decide : 0 < 32768) hk ht]
  simp only [free, hbp, hf, hfind, Option.map_some, Function.update_self,
    Function.update_of_ne hne.symm, hp, hup, hlow, hs, if_false]

/-- `malloc` cuts `nunits` headers from the tail of a larger block `p`, and returns the header after the cut. -/
theorem mallocLoop_cut {nunits prevp p : Nat} (hlt : nunits < h.size p) (fuel : Nat) :
    mallocLoop top nunits (fuel + 1) prevp p h =
      some (hadd (hadd p (h.size p - nunits)) 1,
        { h with size := Function.update (Function.update h.size p (h.size p - nunits)) (hadd p (h.size p - nunits))
                   nunits,
                 freep := prevp }) := by
  simp only [mallocLoop, Nat.le_of_lt hlt, if_true, Nat.ne_of_gt hlt, if_false]

/-- Back at `freep` without a block large enough, `malloc` goes on from the block `morecore` returns. -/
theorem mallocLoop_morecore {nunits q : Nat} (prevp p : Nat) {h' : Heap} (hlt : h.size p < nunits) (hp : p = h.freep)
    (fuel : Nat) (hm : morecore top h nunits fuel = some (q, h')) (hq : q ≠ 0) :
    mallocLoop top nunits (fuel + 1) prevp p h = mallocLoop top nunits fuel q (h'.ptr q) h' := by
  rw [mallocLoop, if_neg (Nat.not_le.2 hlt), if_pos hp, hm]
  -- the `some (0, h)` branch of the match is the null pointer
  cases q with
  | zero => exact absurd rfl hq
  | succ q => rfl

end First

/-! ### A request within 7 of `2^32` -/

/-- `malloc(nbytes)` for `nbytes` within 7 of `2^32`, as the first call: `nunits` wraps to 1, `morecore` adds 4096
headers above the old size, and `malloc` cuts the last of them: the pointer it returns is the new size of the
process, past its last byte, and its block is the header alone. -/
theorem malloc_wraps {base top nbytes : Nat} {h : Heap} (hb : 0 < base) (hbase : base + HSIZE ≤ h.sz)
    (hk : h.sz + 32768 < KERNBASE) (ht : h.sz + 32768 ≤ top) (hf : h.freep = 0) (hn : UINT_MOD - 7 ≤ nbytes)
    (hlt : nbytes < UINT_MOD) (fuel : Nat) :
    ∃ h', malloc base top h nbytes (fuel + 2) = some (h'.sz, h') ∧ h'.size (h'.sz - HSIZE) = 1 ∧
      h'.sz = h.sz + 32768 := by
  -- the first call links `base` to itself as an empty block
  let h₁ : Heap :=
    { h with ptr := Function.update h.ptr base base, size := Function.update h.size base 0, freep := base }
  have hsz : base < h.sz := by unfold HSIZE at hbase; omega
  have hk' : h.sz + HSIZE * 4096 < UINT_MOD := units_lt_of_kernbase hk
  have h₁size : h₁.size base = 0 := Function.update_self _ _ _
  have hm := morecore_first (h := h₁) hbase hk ht (Function.update_self _ _ _) h₁size rfl fuel
  let h₂ : Heap :=
    { h₁ with sz := h.sz + 32768, size := Function.update h₁.size h.sz 4096,
              ptr := Function.update (Function.update h₁.ptr h.sz base) base h.sz }
  have h₂ptr : h₂.ptr base = h.sz := Function.update_self _ _ _
  have h₂size : h₂.size h.sz = 4096 := Function.update_self _ _ _
  -- the cut leaves 4095 headers and returns the one after the last
  have hq : hadd h.sz (h₂.size h.sz - 1) = h.sz + 32760 := by
    rw [h₂size, hadd_of_lt (Nat.lt_of_le_of_lt (by unfold HSIZE; omega) hk')]
    rfl
  have hret : hadd (h.sz + 32760) 1 = h.sz + 32768 := by
    rw [hadd_of_lt (Nat.lt_of_le_of_lt (by unfold HSIZE; omega) hk')]
    rfl
  have hloop := mallocLoop_morecore (h := h₁) base base (by rw [h₁size]; exact Nat.zero_lt_one) rfl (fuel + 1) hm
    (Nat.ne_of_gt hb)
  rw [h₂ptr] at hloop
  let h₃ : Heap :=
    { h₂ with size := Function.update (Function.update h₂.size h.sz 4095) (h.sz + 32760) 1, freep := base }
  refine ⟨h₃, ?_, ?_, rfl⟩
  · unfold malloc
    rw [if_pos hf, nunitsOf_wrap hn hlt]
    simp only [Function.update_self]
    rw [hloop, mallocLoop_cut (h := h₂) (by rw [h₂size]; decide), hq, hret, h₂size]
  · have h₃sz : h₃.sz - HSIZE = h.sz + 32760 := by
      show h.sz + 32768 - HSIZE = h.sz + 32760
      unfold HSIZE
      omega
    have h₃size : h₃.size = Function.update (Function.update h₂.size h.sz 4095) (h.sz + 32760) 1 := rfl
    rw [h₃sz, h₃size, Function.update_self]

/-- `malloc(0xffffffff)` as the first call of a process of two pages whose `base` is at 4096. -/
theorem malloc_wraps_first :
    ∃ h', malloc 4096 KERNBASE ⟨fun _ => 0, fun _ => 0, 0, 8192⟩ (UINT_MOD - 1) 2 = some (h'.sz, h') ∧
      h'.size (h'.sz - HSIZE) = 1 ∧ h'.sz = 8192 + 32768 :=
  malloc_wraps (by decide) (by decide) (by decide) (by decide) rfl (by decide) (by decide) 0

end Xv6.Umalloc
