import Xv6.Lib.Ram

/-!
# `memmove`: the kernel's in `string.c` and the user library's in `ulib.c`

Memory is a function from addresses to bytes, and a region `[a, a + n)` lies in the address space, so that the
pointer sums of the C code do not wrap.  Both functions are built from two loops: `copyFwd` stores byte `i` of the
source at byte `i` of the destination for `i` going up, `copyBack` for `i` going down.

A forward copy is right when the destination does not start inside the source (`copyFwd_eq`), a backward copy when
it does not start below it (`copyBack_eq`).  The kernel's `memmove` picks the backward copy exactly when the
destination starts inside the source, so it always leaves the destination holding what the source held
(`memmove_eq_write`).  The user library's always copies forward (`umemmove_eq_write`), and for a destination starting
inside the source it copies bytes it has already overwritten (`umemmove_overlap`).
-/

namespace Xv6

/-- The `n` bytes of `m` from `s`. -/
def readBytes (m : Nat → UInt8) (s n : Nat) : List UInt8 := (List.range n).map fun i => m (s + i)

/-- `while(n-- > 0) *d++ = *s++;`, with `k` bytes to go. -/
def copyFwd (m : Nat → UInt8) : Nat → Nat → Nat → Nat → UInt8
  | _, _, 0 => m
  | d, s, k + 1 => copyFwd (Function.update m d (m s)) (d + 1) (s + 1) k

/-- `s += n; d += n; while(n-- > 0) *--d = *--s;` from `dst` and `src`: with `k` bytes to go, the next store is
byte `k - 1`. -/
def copyBack (m : Nat → UInt8) (dst src : Nat) : Nat → Nat → UInt8
  | 0 => m
  | k + 1 => copyBack (Function.update m (dst + k) (m (src + k))) dst src k

/-- `memmove(dst, src, n)` of `string.c`. -/
def memmove (m : Nat → UInt8) (dst src n : Nat) : Nat → UInt8 :=
  if src < dst ∧ src + n > dst then copyBack m dst src n else copyFwd m dst src n

/-- `memmove(vdst, vsrc, n)` of `ulib.c`, whose count is an `int`. -/
def umemmove (m : Nat → UInt8) (dst src : Nat) (n : Int) : Nat → UInt8 := copyFwd m dst src n.toNat

/-! ### Reading and the two loops -/

section Loops

variable {m : Nat → UInt8}

private theorem readBytes_eq (m : Nat → UInt8) (s n : Nat) : readBytes m s n = (List.range n).map fun i => m (s + i) := rfl

@[simp] private theorem readBytes_zero (m : Nat → UInt8) (s : Nat) : readBytes m s 0 = [] := rfl

private theorem copyFwd_zero (m : Nat → UInt8) (d s : Nat) : copyFwd m d s 0 = m := rfl

private theorem copyFwd_succ (m : Nat → UInt8) (d s k : Nat) :
    copyFwd m d s (k + 1) = copyFwd (Function.update m d (m s)) (d + 1) (s + 1) k := rfl

private theorem copyBack_zero (m : Nat → UInt8) (dst src : Nat) : copyBack m dst src 0 = m := rfl

private theorem copyBack_succ (m : Nat → UInt8) (dst src k : Nat) :
    copyBack m dst src (k + 1) = copyBack (Function.update m (dst + k) (m (src + k))) dst src k := rfl

@[simp] private theorem length_readBytes (m : Nat → UInt8) (s n : Nat) : (readBytes m s n).length = n := by
  simp [readBytes_eq]

private theorem readBytes_succ (m : Nat → UInt8) (s n : Nat) : readBytes m s (n + 1) = m s :: readBytes m (s + 1) n := by
  simp only [readBytes_eq, List.range_succ_eq_map, List.map_cons, List.map_map, Nat.add_zero]
  congr 1
  apply List.map_congr_left
  intro i _
  simp only [Function.comp_apply]
  congr 1
  omega

private theorem readBytes_concat (m : Nat → UInt8) (s n : Nat) : readBytes m s (n + 1) = readBytes m s n ++ [m (s + n)] := by
  simp [readBytes_eq, List.range_succ]

@[simp] private theorem getElem_readBytes (m : Nat → UInt8) (s n i : Nat) (h : i < (readBytes m s n).length) :
    (readBytes m s n)[i] = m (s + i) := by
  simp [readBytes_eq]

/-- A store outside a region leaves the bytes read from it alone. -/
theorem readBytes_update {s n a : Nat} (h : a < s ∨ s + n ≤ a) (c : UInt8) :
    readBytes (Function.update m a c) s n = readBytes m s n := by
  apply List.map_congr_left
  intro i hi
  have hi := List.mem_range.1 hi
  exact Function.update_of_ne (by omega) _ _

/-- The forward loop copies the source when the destination does not start inside it: each store lands below the
bytes still to be read, or past the whole source. -/
theorem copyFwd_eq {d s k : Nat} (h : d ≤ s ∨ s + k ≤ d) : copyFwd m d s k = Ram.write m d (readBytes m s k) := by
  induction k generalizing m d s with
  | zero => rw [copyFwd_zero, readBytes_zero, Ram.write_nil]
  | succ k ih =>
    rw [copyFwd_succ, ih (by omega), readBytes_succ, Ram.write_cons]
    -- the store at `d` is outside the bytes the rest of the loop reads
    rw [readBytes_update (by omega)]

/-- The forward loop stores nothing below its destination. -/
theorem copyFwd_of_lt {d s k x : Nat} (h : x < d) : copyFwd m d s k x = m x := by
  induction k generalizing m d s with
  | zero => rfl
  | succ k ih => rw [copyFwd_succ, ih (by omega), Function.update_of_ne (by omega)]

/-- The forward loop run for `a + b` bytes is the loop for `a` bytes and then for `b` more. -/
theorem copyFwd_add (d s a b : Nat) : copyFwd m d s (a + b) = copyFwd (copyFwd m d s a) (d + a) (s + a) b := by
  induction a generalizing m d s with
  | zero =>
    rw [Nat.zero_add, Nat.add_zero, Nat.add_zero, copyFwd_zero]
  | succ a ih =>
    rw [Nat.add_right_comm, copyFwd_succ, copyFwd_succ, ih]
    simp only [Nat.add_right_comm _ 1 a, Nat.add_assoc]

/-- The backward loop copies the source when the destination does not start below it: each store lands above the
bytes still to be read. -/
theorem copyBack_eq {dst src : Nat} (h : src ≤ dst) (k : Nat) :
    copyBack m dst src k = Ram.write m dst (readBytes m src k) := by
  induction k generalizing m with
  | zero => rw [copyBack_zero, readBytes_zero, Ram.write_nil]
  | succ k ih =>
    rw [copyBack_succ, ih, readBytes_concat, Ram.write_concat, length_readBytes]
    -- the store at `dst + k` is above the bytes the rest of the loop reads
    rw [readBytes_update (by omega)]
    funext x
    by_cases hx : x = dst + k
    · subst hx
      rw [Function.update_self, Ram.write_of_le (by simp)]
      exact Function.update_self _ _ _
    · rw [Function.update_of_ne hx]
      by_cases hlt : x < dst
      · rw [Ram.write_of_lt hlt, Ram.write_of_lt hlt, Function.update_of_ne hx]
      · rw [Ram.write_apply, Ram.write_apply]
        simp only [length_readBytes]
        split
        · rfl
        · exact Function.update_of_ne hx _ _

end Loops

/-! ### The two `memmove`s -/

/-- The kernel's `memmove` leaves the destination holding exactly what the source held, whether the two overlap or
not, and changes nothing else. -/
theorem memmove_eq_write (m : Nat → UInt8) (dst src n : Nat) :
    memmove m dst src n = Ram.write m dst (readBytes m src n) := by
  unfold memmove
  split
  · rename_i h
    exact copyBack_eq (by omega) n
  · rename_i h
    exact copyFwd_eq (by omega)

/-- The user library's `memmove` is right when the destination does not start inside the source. -/
theorem umemmove_eq_write (m : Nat → UInt8) {dst src : Nat} (n : Nat) (h : dst ≤ src ∨ src + n ≤ dst) :
    umemmove m dst src n = Ram.write m dst (readBytes m src n) := by
  unfold umemmove
  rw [Int.toNat_natCast]
  exact copyFwd_eq h

/-- When the destination starts `k > 0` bytes inside the source, the user library's loop has stored the source's
first byte at `src + k = dst` before it reads that byte for destination byte `k`: destination byte `k` gets the
source's byte 0 instead of its byte `k`. -/
theorem umemmove_apply_overlap (m : Nat → UInt8) {dst src n : Nat} (h : src < dst ∧ dst < src + n) :
    umemmove m dst src n (dst + (dst - src)) = m src := by
  obtain ⟨k, r, hk, hn⟩ : ∃ k r, dst = src + (k + 1) ∧ n = (k + 1) + (r + 1) := ⟨dst - src - 1, n - (dst - src) - 1,
    by omega, by omega⟩
  subst hk hn
  -- the first `k + 1` stores read bytes below the destination, so they are a plain copy
  have hpre : copyFwd m (src + (k + 1)) src (k + 1) = Ram.write m (src + (k + 1)) (readBytes m src (k + 1)) :=
    copyFwd_eq (by omega)
  have hfirst : Ram.write m (src + (k + 1)) (readBytes m src (k + 1)) (src + (k + 1)) = m src := by
    have e := Ram.write_add (m := m) (a := src + (k + 1)) (l := readBytes m src (k + 1)) (i := 0) (by simp)
    simpa only [Nat.add_zero, getElem_readBytes] using e
  unfold umemmove
  rw [Int.toNat_natCast, copyFwd_add, hpre, copyFwd_succ]
  -- the store at destination byte `k + 1` reads the cell the first store wrote; later stores lie above it
  rw [copyFwd_of_lt (by omega), show src + (k + 1) + (src + (k + 1) - src) = src + (k + 1) + (k + 1) by omega,
    Function.update_self, hfirst]

/-- The user library's `memmove` is not a `memmove`: for a destination that starts inside the source, and a
source whose first byte differs from the byte the destination starts at, the destination does not end up holding the
source, and the kernel's `memmove` gives another memory. -/
theorem umemmove_overlap (m : Nat → UInt8) {dst src n : Nat} (h : src < dst ∧ dst < src + n) (hne : m src ≠ m dst) :
    readBytes (umemmove m dst src n) dst n ≠ readBytes m src n ∧ umemmove m dst src n ≠ memmove m dst src n := by
  have hk : dst - src < n := by omega
  have hu := umemmove_apply_overlap m h
  -- destination byte `dst - src` against source byte `dst - src`, which is the byte at `dst`
  have hsrc : src + (dst - src) = dst := by omega
  have hbytes : readBytes (umemmove m dst src n) dst n ≠ readBytes m src n := by
    intro heq
    have hi := List.getElem_of_eq heq (i := dst - src) (by simpa using hk)
    rw [getElem_readBytes, getElem_readBytes, hu, hsrc] at hi
    exact hne hi
  refine ⟨hbytes, fun heq => hbytes ?_⟩
  rw [heq, memmove_eq_write]
  apply List.ext_getElem (by simp)
  intro i hi _
  rw [getElem_readBytes, Ram.write_add (by simpa using hi)]

theorem umemmove_overlap_one :
    ((0 : Nat) < 1 ∧ 1 < 0 + 2) ∧ (fun a : Nat => UInt8.ofNat a) 0 ≠ (fun a : Nat => UInt8.ofNat a) 1 ∧
      readBytes (umemmove (fun a => UInt8.ofNat a) 1 0 2) 1 2 ≠ readBytes (fun a => UInt8.ofNat a) 0 2 ∧
        umemmove (fun a => UInt8.ofNat a) 1 0 2 ≠ memmove (fun a => UInt8.ofNat a) 1 0 2 :=
  ⟨by decide, by decide, umemmove_overlap (fun a => UInt8.ofNat a) (by decide) (by decide)⟩

end Xv6
