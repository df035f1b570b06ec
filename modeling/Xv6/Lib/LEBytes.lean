import Mathlib

/-!
# Little-endian words in a byte block

A block of `n` bytes is a function `Fin n → UInt8`.  `getU32` reads the unsigned 32-bit little-endian word at a
byte offset (bytes past the end read as `0`), `setU32` stores one, and `getI32`/`setI32` are the two's-complement
`int` views.  A word reads back what was stored (`getU32_setU32_self`) and a store leaves the other words alone
(`getU32_setU32_of_disjoint`).

A table of `uint` words `Nat → Nat` is read the other way, byte by byte (`wordByte`); `storeBytes` copies bytes
into it and rebuilds only the words the copy reaches, and each byte then reads what was copied there or what it
read before (`wordByte_storeBytes`).
-/

namespace LEBytes

variable {n : Nat}

/-- Byte `k` of the block as a number, `0` past the end. -/
def byteAt (b : Fin n → UInt8) (k : Nat) : Nat := if h : k < n then (b ⟨k, h⟩).toNat else 0

/-- The little-endian word of the four bytes at `off`. -/
def getU32 (b : Fin n → UInt8) (off : Nat) : Nat :=
  byteAt b off + 256 * (byteAt b (off + 1) + 256 * (byteAt b (off + 2) + 256 * byteAt b (off + 3)))

/-- Store `x mod 2^32` little-endian at `off`. -/
def setU32 (b : Fin n → UInt8) (off x : Nat) : Fin n → UInt8 :=
  fun k => if off ≤ k.val ∧ k.val < off + 4 then UInt8.ofNat (x / 256 ^ (k.val - off)) else b k

/-- A 32-bit word read as a two's-complement `int`. -/
def toInt32 (u : Nat) : Int := if u < 2 ^ 31 then u else (u : Int) - 2 ^ 32

/-- The `int` at `off`. -/
def getI32 (b : Fin n → UInt8) (off : Nat) : Int := toInt32 (getU32 b off)

/-- Store an `int` at `off`, as its two's-complement word. -/
def setI32 (b : Fin n → UInt8) (off : Nat) (x : Int) : Fin n → UInt8 := setU32 b off (x % 2 ^ 32).toNat

theorem toInt32_of_lt {u : Nat} (h : u < 2 ^ 31) : toInt32 u = u := if_pos h

private theorem byteAt_setU32_in (b : Fin n → UInt8) {off x k : Nat} (hk : k < n) (h1 : off ≤ k) (h2 : k < off + 4) :
    byteAt (setU32 b off x) k = x / 256 ^ (k - off) % 256 := by
  simp [byteAt, setU32, hk, h1, h2]

private theorem byteAt_setU32_out (b : Fin n → UInt8) {off x k : Nat} (h : k < off ∨ off + 4 ≤ k) :
    byteAt (setU32 b off x) k = byteAt b k := by
  unfold byteAt setU32
  split
  · have : ¬(off ≤ k ∧ k < off + 4) := by omega
    simp [this]
  · rfl

private theorem getU32_setU32_self (b : Fin n → UInt8) {off : Nat} (h : off + 4 ≤ n) (x : Nat) :
    getU32 (setU32 b off x) off = x % 2 ^ 32 := by
  unfold getU32
  rw [byteAt_setU32_in b (by omega) (Nat.le_refl off) (by omega),
    byteAt_setU32_in b (by omega) (by omega) (by omega), byteAt_setU32_in b (by omega) (by omega) (by omega),
    byteAt_setU32_in b (by omega) (by omega) (by omega)]
  simp only [Nat.sub_self, Nat.add_sub_cancel_left, Nat.pow_zero, Nat.div_one]
  omega

private theorem getU32_setU32_of_disjoint (b : Fin n → UInt8) {off off' : Nat} (h : off + 4 ≤ off' ∨ off' + 4 ≤ off)
    (x : Nat) : getU32 (setU32 b off x) off' = getU32 b off' := by
  unfold getU32
  rw [byteAt_setU32_out b (by omega), byteAt_setU32_out b (by omega), byteAt_setU32_out b (by omega),
    byteAt_setU32_out b (by omega)]

theorem getI32_setI32_self (b : Fin n → UInt8) {off : Nat} (h : off + 4 ≤ n) {x : Int} (h0 : 0 ≤ x)
    (h1 : x < 2 ^ 31) : getI32 (setI32 b off x) off = x := by
  unfold getI32 setI32 toInt32
  rw [getU32_setU32_self b h]
  have : (x % 2 ^ 32).toNat % 2 ^ 32 = x.toNat := by omega
  rw [this, if_pos (by omega)]
  omega

private theorem getI32_setI32_of_disjoint (b : Fin n → UInt8) {off off' : Nat} (h : off + 4 ≤ off' ∨ off' + 4 ≤ off)
    (x : Int) : getI32 (setI32 b off x) off' = getI32 b off' := by
  unfold getI32 setI32
  rw [getU32_setU32_of_disjoint b h]

private theorem getU32_setI32_self (b : Fin n → UInt8) {off : Nat} (h : off + 4 ≤ n) {x : Int} (h0 : 0 ≤ x)
    (h1 : x < 2 ^ 32) : getU32 (setI32 b off x) off = x.toNat := by
  unfold setI32
  rw [getU32_setU32_self b h]
  omega

private theorem getU32_setI32_of_disjoint (b : Fin n → UInt8) {off off' : Nat} (h : off + 4 ≤ off' ∨ off' + 4 ≤ off)
    (x : Int) : getU32 (setI32 b off x) off' = getU32 b off' :=
  getU32_setU32_of_disjoint b h _

/-! ### Tables of words -/

section Table

variable (base : Nat) (f : Nat → Int)

/-- Entry `i` of a table of words stored one by one from `base` reads back, as long as it is a `uint`. -/
theorem getU32_foldl_setI32 (b : Fin n → UInt8) {m : Nat} (hm : base + 4 * m ≤ n) {i : Nat} (hi : i < m)
    (h0 : 0 ≤ f i) (h1 : f i < 2 ^ 32) :
    getU32 ((List.range m).foldl (fun b j => setI32 b (base + 4 * j) (f j)) b) (base + 4 * i) = (f i).toNat := by
  induction m with
  | zero => omega
  | succ m ih =>
    rw [List.range_succ, List.foldl_append, List.foldl_cons, List.foldl_nil]
    by_cases him : i = m
    · subst him
      exact getU32_setI32_self _ (by omega) h0 h1
    · -- the last store is at another entry
      rw [getU32_setI32_of_disjoint _ (by omega)]
      exact ih (by omega) (by omega)

/-- Storing a table from `base` leaves the words below `base` alone. -/
theorem getI32_foldl_setI32_below (b : Fin n → UInt8) (m : Nat) {off : Nat} (h : off + 4 ≤ base) :
    getI32 ((List.range m).foldl (fun b j => setI32 b (base + 4 * j) (f j)) b) off = getI32 b off := by
  induction m with
  | zero => rfl
  | succ m ih =>
    rw [List.range_succ, List.foldl_append, List.foldl_cons, List.foldl_nil,
      getI32_setI32_of_disjoint _ (by omega), ih]

end Table

/-! ### Bytes of a table of words -/

section Words

/-- Byte `k` of a table of `uint` words laid out little-endian: byte `k % 4` of word `k / 4`. -/
def wordByte (w : Nat → Nat) (k : Nat) : UInt8 := UInt8.ofNat (w (k / 4) / 256 ^ (k % 4))

/-- The word whose bytes, from the lowest, are `g (4 * j)` to `g (4 * j + 3)`. -/
def wordOf (g : Nat → UInt8) (j : Nat) : Nat :=
  (g (4 * j)).toNat + 256 * ((g (4 * j + 1)).toNat + 256 * ((g (4 * j + 2)).toNat + 256 * (g (4 * j + 3)).toNat))

/-- `memmove(data + o, f, m)` into a table of words: bytes `o` to `o + m - 1` take `f 0` to `f (m - 1)`, and the
words the copy does not reach keep their value. -/
def storeBytes (w : Nat → Nat) (o m : Nat) (f : Nat → UInt8) (j : Nat) : Nat :=
  if o < 4 * j + 4 ∧ 4 * j < o + m then
    wordOf (fun k => if o ≤ k ∧ k < o + m then f (k - o) else wordByte w k) j
  else w j

private theorem wordByte_wordOf (g : Nat → UInt8) (j r : Nat) (hr : r < 4) :
    UInt8.ofNat (wordOf g j / 256 ^ r) = g (4 * j + r) := by
  apply UInt8.toNat_inj.1
  have h0 := UInt8.toNat_lt (g (4 * j))
  have h1 := UInt8.toNat_lt (g (4 * j + 1))
  have h2 := UInt8.toNat_lt (g (4 * j + 2))
  have h3 := UInt8.toNat_lt (g (4 * j + 3))
  rw [UInt8.toNat_ofNat']
  unfold wordOf
  -- one case for each byte of the word
  rcases (by omega : r = 0 ∨ r = 1 ∨ r = 2 ∨ r = 3) with rfl | rfl | rfl | rfl
  · simp only [Nat.pow_zero, Nat.div_one, Nat.add_zero]
    omega
  · simp only [Nat.pow_one]
    omega
  · show _ / 65536 % 256 = _
    omega
  · show _ / 16777216 % 256 = _
    omega

/-- After `storeBytes`, a byte in the copied range reads what was copied there, and every other byte what it read
before. -/
theorem wordByte_storeBytes (w : Nat → Nat) (o m : Nat) (f : Nat → UInt8) (k : Nat) :
    wordByte (storeBytes w o m f) k = if o ≤ k ∧ k < o + m then f (k - o) else wordByte w k := by
  have hk : k = 4 * (k / 4) + k % 4 := (Nat.div_add_mod k 4).symm
  unfold wordByte storeBytes
  by_cases hw : o < 4 * (k / 4) + 4 ∧ 4 * (k / 4) < o + m
  · -- the word of byte `k` is rebuilt from its four bytes
    rw [if_pos hw, wordByte_wordOf _ _ _ (Nat.mod_lt _ (by decide)), ← hk]
    rfl
  · -- the copy does not reach the word of byte `k`, so neither byte `k`
    have hout : ¬(o ≤ k ∧ k < o + m) := by omega
    rw [if_neg hw, if_neg hout]

end Words

end LEBytes
