import Mathlib

/-!
# Byte-addressed memory

A memory is a function from addresses to cells.  `Ram.fill m a n c` sets the `n` cells from `a` to `c`, as `memset`
does, and `Ram.write m a l` copies the list `l` to the cells from `a`, as `memmove` does.  Each reads back what it
stored (`write_add`, `fill_of_mem`) and leaves every other cell as it was (`write_of_lt`, `write_of_le`,
`fill_of_not_mem`).  A write of `l₁ ++ l₂` is the write of `l₁` followed by the write of `l₂` after it
(`write_append`, and `write_cons`/`write_concat` for one cell at either end), which is how a copy cut into pieces is
put back together.

`Ram.getU32` reads the little-endian word of four bytes at an address (`Ram.getU16` the half word of two), and
`Ram.u32Bytes` are the four bytes of a word, so that a word written as its bytes reads back (`getU32_write_u32Bytes`).
-/

namespace Ram

variable {α : Type}

/-- `memset(a, c, n)`. -/
def fill (m : Nat → α) (a n : Nat) (c : α) : Nat → α := fun x => if a ≤ x ∧ x < a + n then c else m x

/-- `memmove(a, l, l.length)`. -/
def write (m : Nat → α) (a : Nat) (l : List α) : Nat → α := fun x => if a ≤ x then l.getD (x - a) (m x) else m x

section Write

variable {m : Nat → α} {a x : Nat} {l : List α}

theorem write_of_lt (h : x < a) : write m a l x = m x := by
  simp [write, Nat.not_le.2 h]

theorem write_of_le (h : a + l.length ≤ x) : write m a l x = m x := by
  unfold write
  rw [if_pos (by omega), List.getD_eq_default _ _ (by omega)]

theorem write_add {i : Nat} (h : i < l.length) : write m a l (a + i) = l[i] := by
  simp [write, List.getElem?_eq_getElem h]

/-- A cell in the written range reads the list, every other cell what it read before. -/
theorem write_apply (m : Nat → α) (a : Nat) (l : List α) (x : Nat) :
    write m a l x = if h : a ≤ x ∧ x < a + l.length then l[x - a] else m x := by
  split
  · rename_i h
    have e := write_add (m := m) (a := a) (l := l) (i := x - a) (by omega)
    rwa [Nat.add_sub_cancel' h.1] at e
  · rename_i h
    by_cases hx : x < a
    · exact write_of_lt hx
    · exact write_of_le (by omega)

@[simp] theorem write_nil (m : Nat → α) (a : Nat) : write m a [] = m := by
  funext x
  unfold write
  split <;> rfl

private theorem write_append (m : Nat → α) (a : Nat) (l₁ l₂ : List α) :
    write m a (l₁ ++ l₂) = write (write m a l₁) (a + l₁.length) l₂ := by
  funext x
  rw [write_apply, write_apply, write_apply]
  simp only [List.length_append]
  -- three ranges: in `l₁`, in `l₂`, and outside both
  by_cases h₁ : a ≤ x ∧ x < a + l₁.length
  · rw [dif_pos ⟨h₁.1, by omega⟩, dif_neg (by omega), dif_pos h₁, List.getElem_append_left]
  · by_cases h₂ : a + l₁.length ≤ x ∧ x < a + l₁.length + l₂.length
    · rw [dif_pos ⟨by omega, by omega⟩, dif_pos h₂, List.getElem_append_right (by omega)]
      congr 1
      omega
    · rw [dif_neg (by omega), dif_neg h₂, dif_neg h₁]

private theorem write_singleton (m : Nat → α) (a : Nat) (c : α) : write m a [c] = Function.update m a c := by
  funext x
  rw [write_apply]
  by_cases hx : x = a
  · subst hx
    simp
  · rw [dif_neg (by simp only [List.length_singleton]; omega), Function.update_of_ne hx]

/-- A store of one cell followed by the write of the rest after it. -/
theorem write_cons (m : Nat → α) (a : Nat) (c : α) (l : List α) :
    write m a (c :: l) = write (Function.update m a c) (a + 1) l := by
  rw [← List.singleton_append, write_append, write_singleton, List.length_singleton]

/-- The write of a list followed by the store of one cell after it. -/
theorem write_concat (m : Nat → α) (a : Nat) (l : List α) (c : α) :
    write m a (l ++ [c]) = Function.update (write m a l) (a + l.length) c := by
  rw [write_append, write_singleton]

end Write

section Fill

variable {m : Nat → α} {a n x : Nat} {c : α}

private theorem fill_of_mem (h : a ≤ x ∧ x < a + n) : fill m a n c x = c := if_pos h

private theorem fill_of_not_mem (h : ¬(a ≤ x ∧ x < a + n)) : fill m a n c x = m x := if_neg h

end Fill

/-! ### Little-endian words -/

/-- The word of the four bytes from `a`, lowest first. -/
def getU32 (m : Nat → UInt8) (a : Nat) : Nat :=
  (m a).toNat + 256 * ((m (a + 1)).toNat + 256 * ((m (a + 2)).toNat + 256 * (m (a + 3)).toNat))

/-- The half word of the two bytes from `a`, lowest first. -/
def getU16 (m : Nat → UInt8) (a : Nat) : Nat := (m a).toNat + 256 * (m (a + 1)).toNat

/-- The four bytes of the word `x mod 2^32`, lowest first. -/
def u32Bytes (x : Nat) : List UInt8 :=
  [UInt8.ofNat x, UInt8.ofNat (x / 256), UInt8.ofNat (x / 65536), UInt8.ofNat (x / 16777216)]

@[simp] theorem length_u32Bytes (x : Nat) : (u32Bytes x).length = 4 := rfl

private theorem getU32_write_u32Bytes (m : Nat → UInt8) (a : Nat) {x : Nat} (hx : x < 2 ^ 32) :
    getU32 (write m a (u32Bytes x)) a = x := by
  have h : ∀ i (hi : i < 4), write m a (u32Bytes x) (a + i) = (u32Bytes x).get ⟨i, by simpa using hi⟩ :=
    fun i hi => write_add _
  have h0 := h 0 (by decide)
  rw [Nat.add_zero] at h0
  unfold getU32
  rw [h0, h 1 (by decide), h 2 (by decide), h 3 (by decide)]
  simp only [u32Bytes, List.get_eq_getElem, List.getElem_cons_zero, List.getElem_cons_succ, UInt8.toNat_ofNat']
  omega

end Ram
