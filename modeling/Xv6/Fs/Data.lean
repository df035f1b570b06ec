import Mathlib.Order.Interval.Finset.Nat
import Xv6.Fs.Owner
import Xv6.Lib.LEBytes

/-!
# The bytes of a file: `readi` and `writei` of `fs.c`

A block holds `BSIZE` bytes, which the disk model keeps as the `uint` words an indirect block is read as; byte `k`
of a block is byte `k % 4` of word `k / 4` (`Fs.byte`), and byte `k` of a file is byte `k % BSIZE` of the block at
the file position of `k / BSIZE` (`fileByte`).  `readi` and `writei` cut the range `[off, off + n)` at multiples of
`BSIZE` and move one piece per round, through `bmap` and `memmove`.

The rounds of `writei` compose (`Written.append`): a round writes its piece and leaves every other byte of an
allocated block of the file as it was, because `bmap` rewrites only free blocks and the inode's indirect block
(`bmap_words`), and the blocks of the file are distinct (`BlocksOk`).  `bmap` can allocate two blocks, the indirect
one and a data block (`bmapNeed`), and panics when `balloc` finds none: a write goes through when as many blocks are
free as it allocates, the blocks it visits that the file does not have and the indirect block if the range reaches
it and the inode has none (`allocNeed`, `writeiLoop_spec`).  On
a full disk it panics as soon as it needs a block (`writei_of_full`).

A file whose blocks below its size are all allocated (`Filled`) is read back by `readi` without allocating
(`readiLoop_spec`); `writei_readi` puts the two together: after `writei`, `readi` returns the old bytes overwritten
by the new ones.
-/

namespace Xv6

namespace Fs

/-- Byte `k` of block `b`: the words of a block laid out little-endian. -/
def byte (s : Fs) (b k : Nat) : UInt8 := LEBytes.wordByte (s.words b) k

/-- `memmove(bp->data + o, src, m)` into block `b`. -/
def copyIn (s : Fs) (b o m : Nat) (src : Nat → UInt8) : Fs :=
  s.setBlock b (LEBytes.storeBytes (s.words b) o m src)

@[simp] private theorem copyIn_dinode (s : Fs) (b o m : Nat) (src : Nat → UInt8) : (s.copyIn b o m src).dinode = s.dinode :=
  rfl

@[simp] private theorem copyIn_bitmap (s : Fs) (b o m : Nat) (src : Nat → UInt8) : (s.copyIn b o m src).bitmap = s.bitmap :=
  rfl

@[simp] private theorem copyIn_words_self (s : Fs) (b o m : Nat) (src : Nat → UInt8) :
    (s.copyIn b o m src).words b = LEBytes.storeBytes (s.words b) o m src := by
  simp [copyIn, setBlock]

private theorem copyIn_words_ne (s : Fs) {b c : Nat} (o m : Nat) (src : Nat → UInt8) (h : c ≠ b) :
    (s.copyIn b o m src).words c = s.words c := by
  simp [copyIn, setBlock, Function.update_of_ne h]

end Fs

/-- Byte `k` of the file of inode `i`. -/
def fileByte (s : Fs) (i k : Nat) : UInt8 := s.byte (blockAt s i (filePos (k / BSIZE))) (k % BSIZE)

/-- The blocks `balloc` can still hand out: those below `sb.size` whose bit is clear. -/
def freeBlocks (sb : Superblock) (s : Fs) : Nat := ((Finset.range sb.size).filter fun b => s.bitmap b = false).card

/-- The blocks `bmap` allocates for block `bn` of inode `i`: a data block where the inode has none, and the
indirect block for `bn ≥ NDIRECT` when the inode has none. -/
def bmapNeed (s : Fs) (i bn : Nat) : Nat :=
  (if blockAt s i (filePos bn) = 0 then 1 else 0) + if NDIRECT ≤ bn ∧ (s.dinode i).addrs NDIRECT = 0 then 1 else 0

/-- The number of blocks the loop of `writei` visits to write `len` bytes from `off`: `off / BSIZE` to
`(off + len - 1) / BSIZE`. -/
def blocksTouched (off len : Nat) : Nat := if len = 0 then 0 else (off + len - 1) / BSIZE - off / BSIZE + 1

/-- The blocks a write of `len` bytes from `off` allocates: each block it visits that the inode does not have, and
the indirect block when the range reaches past the direct blocks and the inode has none. -/
def allocNeed (s : Fs) (i off len : Nat) : Nat :=
  (List.range' (off / BSIZE) (blocksTouched off len)).countP (fun bn => blockAt s i (filePos bn) = 0) +
    if 0 < len ∧ NDIRECT ≤ (off + len - 1) / BSIZE ∧ (s.dinode i).addrs NDIRECT = 0 then 1 else 0

/-- The blocks of inode `i` below its size are allocated, and the size fits in `MAXFILE` blocks. -/
structure Filled (s : Fs) (i : Nat) : Prop where
  size_le : (s.dinode i).size ≤ MAXFILE * BSIZE
  held : ∀ k < (s.dinode i).size, blockAt s i (filePos (k / BSIZE)) ≠ 0

namespace Bytes

/-! ### The functions of `fs.c` -/

/-- The loop of `readi`: `tot` of the `n` bytes copied to `dst`, the next one from byte `off` of the file.  Each
round maps the block of `off` with `bmap` and copies up to the end of that block. -/
def readiLoop (sb : Superblock) (i n tot off : Nat) (dst : List UInt8) (s : Fs) : Option (List UInt8 × Fs) :=
  if _h : tot < n then do
    let (b, s) ← bmap sb s i (off / BSIZE)
    let m := min (n - tot) (BSIZE - off % BSIZE)
    readiLoop sb i n (tot + m) (off + m) (dst ++ (List.range m).map fun j => s.byte b (off % BSIZE + j)) s
  else some (dst, s)
termination_by n - tot
decreasing_by
  have hoff : off % BSIZE < BSIZE := Nat.mod_lt _ (by decide)
  omega

/-- `readi(ip, dst, off, n)` on a file: `-1` for an offset past the end or a range that wraps, and otherwise the
count, cut at the end of the file, with the bytes read.  `none` is a panic of `bmap`, or a device, whose read goes
to `devsw`. -/
def readi (sb : Superblock) (s : Fs) (i off n : Nat) : Option (Int × List UInt8 × Fs) :=
  if (s.dinode i).type = T_DEV then none
  else if off > (s.dinode i).size ∨ UINT_MOD ≤ off + n then some (-1, [], s)
  else
    let n := if off + n > (s.dinode i).size then (s.dinode i).size - off else n
    (readiLoop sb i n 0 off [] s).map fun (dst, s) => (LEBytes.toInt32 n, dst, s)

/-- The loop of `writei`: `tot` of the `n` bytes of `src` copied, the next one to byte `off` of the file.  Each
round maps the block of `off` with `bmap` and copies up to the end of that block into it. -/
def writeiLoop (sb : Superblock) (i n : Nat) (src : Nat → UInt8) (tot off : Nat) (s : Fs) : Option Fs :=
  if _h : tot < n then do
    let (b, s) ← bmap sb s i (off / BSIZE)
    let m := min (n - tot) (BSIZE - off % BSIZE)
    writeiLoop sb i n src (tot + m) (off + m) (s.copyIn b (off % BSIZE) m fun j => src (tot + j))
  else some s
termination_by n - tot
decreasing_by
  have hoff : off % BSIZE < BSIZE := Nat.mod_lt _ (by decide)
  omega

/-- `writei(ip, src, off, n)` on a file: `-1` for an offset past the end, a range that wraps or one past
`MAXFILE` blocks, and otherwise `n`, the size growing to the end of the write.  `none` is a panic of `bmap`, or a
device, whose write goes to `devsw`. -/
def writei (sb : Superblock) (s : Fs) (i : Nat) (src : Nat → UInt8) (off n : Nat) : Option (Int × Fs) :=
  if (s.dinode i).type = T_DEV then none
  else if off > (s.dinode i).size ∨ UINT_MOD ≤ off + n then some (-1, s)
  else if off + n > MAXFILE * BSIZE then some (-1, s)
  else (writeiLoop sb i n src 0 off s).map fun s =>
    (LEBytes.toInt32 n,
      if n > 0 ∧ off + n > (s.dinode i).size then s.setInode i fun ip => { ip with size := off + n } else s)

end Bytes

/-! ### Free blocks -/

section Free

variable {sb : Superblock} {s s' : Fs}

private theorem freeBlocks_congr (h : s'.bitmap = s.bitmap) : freeBlocks sb s' = freeBlocks sb s := by
  unfold freeBlocks
  rw [h]

/-- `balloc` finds a block when one is free. -/
theorem balloc_isSome (h : 0 < freeBlocks sb s) : ∃ b s', balloc sb s = some (b, s') := by
  obtain ⟨b, hb⟩ := Finset.card_pos.1 h
  rw [Finset.mem_filter, Finset.mem_range] at hb
  unfold balloc
  cases hf : (List.range sb.size).find? (fun b => !s.bitmap b) with
  | none =>
    rw [List.find?_eq_none] at hf
    exact absurd (by simp [hb.2]) (hf b (List.mem_range.2 hb.1))
  | some b' => exact ⟨_, _, rfl⟩

/-- `balloc` takes one free block. -/
theorem freeBlocks_balloc {b : Nat} (h : balloc sb s = some (b, s')) : freeBlocks sb s' + 1 = freeBlocks sb s := by
  obtain ⟨hlt, hfree, rfl⟩ := balloc_spec h
  have hmem : b ∈ (Finset.range sb.size).filter fun c => s.bitmap c = false := by simp [hlt, hfree]
  -- the free blocks are those of `s` but `b`
  have hset : ((Finset.range sb.size).filter fun c => Function.update s.bitmap b true c = false) =
      ((Finset.range sb.size).filter fun c => s.bitmap c = false).erase b := by
    ext c
    by_cases hc : c = b
    · subst hc
      simp
    · simp [hc]
  have hpos := Finset.card_pos.2 ⟨b, hmem⟩
  unfold freeBlocks
  rw [Fs.setBlock_bitmap]
  dsimp only
  rw [hset, Finset.card_erase_of_mem hmem]
  omega

private theorem balloc_words {b c : Nat} (h : balloc sb s = some (b, s')) (hc : s.bitmap c = true) :
    s'.words c = s.words c := by
  obtain ⟨-, hfree, rfl⟩ := balloc_spec h
  have hne : c ≠ b := by
    rintro rfl
    rw [hc] at hfree
    cases hfree
  simp [Fs.setBlock, Function.update_of_ne hne]

private theorem allocSlot_isSome {addr : Nat} {store : Fs → Nat → Fs} (h : addr = 0 → 0 < freeBlocks sb s) :
    ∃ b s', allocSlot sb s addr store = some (b, s') := by
  unfold allocSlot
  by_cases h0 : addr = 0
  · obtain ⟨b, s₁, hb⟩ := balloc_isSome (h h0)
    exact ⟨b, store s₁ b, by rw [if_pos h0, hb]; rfl⟩
  · exact ⟨addr, s, by rw [if_neg h0]⟩

/-- An `allocSlot` whose store keeps the bitmap takes one free block for an empty slot, and none otherwise. -/
theorem freeBlocks_allocSlot {addr b : Nat} {store : Fs → Nat → Fs} (h : allocSlot sb s addr store = some (b, s'))
    (hstore : ∀ s₁ b, (store s₁ b).bitmap = s₁.bitmap) :
    freeBlocks sb s' + (if addr = 0 then 1 else 0) = freeBlocks sb s := by
  rcases allocSlot_spec h with ⟨h0, -, rfl⟩ | ⟨h0, s₁, hb, rfl⟩
  · rw [if_neg h0]
    rfl
  · rw [if_pos h0, freeBlocks_congr (hstore s₁ b), freeBlocks_balloc hb]

/-- An `allocSlot` whose store keeps the words of `c` keeps them, when `c` is marked. -/
theorem allocSlot_words {addr b c : Nat} {store : Fs → Nat → Fs} (h : allocSlot sb s addr store = some (b, s'))
    (hstore : ∀ s₁ b, (store s₁ b).words c = s₁.words c) (hc : s.bitmap c = true) : s'.words c = s.words c := by
  rcases allocSlot_spec h with ⟨-, -, rfl⟩ | ⟨-, s₁, hb, rfl⟩
  · rfl
  · rw [hstore, balloc_words hb hc]

/-- With no free block `balloc` panics. -/
theorem balloc_of_full (h : freeBlocks sb s = 0) : balloc sb s = none := by
  unfold balloc
  cases hf : (List.range sb.size).find? (fun b => !s.bitmap b) with
  | none => rfl
  | some b =>
    -- the block found is free, so the count is not zero
    have hmem : b ∈ (Finset.range sb.size).filter fun c => s.bitmap c = false := by
      have hb := List.find?_some hf
      simp only [Bool.not_eq_eq_eq_not, Bool.not_true] at hb
      simp [List.mem_range.1 (List.mem_of_find?_eq_some hf), hb]
    have := Finset.card_pos.2 ⟨b, hmem⟩
    unfold freeBlocks at h
    omega

end Free

/-! ### `bmap` -/

section Bmap

variable {sb : Superblock} {s s' : Fs} {i bn b : Nat}

/-- A block at a position past `NDIRECT` is read through the indirect block, which is then allocated. -/
theorem indirect_ne_zero_of_blockAt {k : Nat} (h : blockAt s i k ≠ 0) (hk : NDIRECT < k) :
    (s.dinode i).addrs NDIRECT ≠ 0 := by
  intro h0
  apply h
  simp [blockAt, show ¬ k ≤ NDIRECT by omega, h0]

private theorem filePos_of_indirect (hd : ¬ bn < NDIRECT) : filePos bn = NDIRECT + 1 + (bn - NDIRECT) := by
  unfold filePos
  rw [if_neg hd]
  omega

/-- `bmap` of a block the inode has returns it and changes nothing. -/
theorem bmap_of_held (hbn : bn < MAXFILE) (h : blockAt s i (filePos bn) ≠ 0) :
    bmap sb s i bn = some (blockAt s i (filePos bn), s) := by
  unfold bmap
  by_cases hd : bn < NDIRECT
  · have hpos : filePos bn = bn := if_pos hd
    rw [hpos, blockAt_direct s (Nat.le_of_lt hd)] at h ⊢
    rw [if_pos hd, allocSlot, if_neg h]
  · have hr : bn - NDIRECT < NINDIRECT := by
      unfold MAXFILE at hbn
      omega
    have hpos := filePos_of_indirect hd
    have h0 : (s.dinode i).addrs NDIRECT ≠ 0 := indirect_ne_zero_of_blockAt h (by rw [hpos]; omega)
    rw [hpos, blockAt_entry s i _ h0] at h ⊢
    rw [if_neg hd, if_pos hr, allocSlot, if_neg h0]
    exact if_neg h

/-- The entry of the indirect block that `bmap` reads for block `bn ≥ NDIRECT`, once it has an indirect block: the
block the inode held there, or 0 in a new indirect block, which `balloc` zeroed. -/
theorem bmap_entry {ind : Nat} {s₁ : Fs} (hd : ¬ bn < NDIRECT)
    (h : allocSlot sb s ((s.dinode i).addrs NDIRECT) (fun s b => s.setAddr i NDIRECT b) = some (ind, s₁)) :
    s₁.words ind (bn - NDIRECT) = blockAt s i (filePos bn) := by
  rw [filePos_of_indirect hd]
  rcases allocSlot_spec h with ⟨h0, hind, hs⟩ | ⟨h0, s₂, hb, rfl⟩
  · rw [hs, hind, blockAt_entry s i _ h0]
  · obtain ⟨-, -, rfl⟩ := balloc_spec hb
    simp [Fs.setBlock, blockAt, h0, show ¬ NDIRECT + 1 + (bn - NDIRECT) ≤ NDIRECT by omega]

/-- `bmap` finds its block when the blocks it allocates are free. -/
theorem bmap_isSome (hbn : bn < MAXFILE) (hfree : bmapNeed s i bn ≤ freeBlocks sb s) :
    ∃ b s', bmap sb s i bn = some (b, s') := by
  unfold bmapNeed at hfree
  unfold bmap
  by_cases hd : bn < NDIRECT
  · have hpos : filePos bn = bn := if_pos hd
    rw [hpos, blockAt_direct s (Nat.le_of_lt hd)] at hfree
    rw [if_pos hd]
    exact allocSlot_isSome fun h0 => by rw [if_pos h0] at hfree; omega
  · have hr : bn - NDIRECT < NINDIRECT := by
      unfold MAXFILE at hbn
      omega
    rw [if_neg hd, if_pos hr]
    obtain ⟨ind, s₁, h₁⟩ := @allocSlot_isSome sb s _ (fun s b => s.setAddr i NDIRECT b)
      fun h0 => by
        rw [if_pos (show NDIRECT ≤ bn ∧ (s.dinode i).addrs NDIRECT = 0 from ⟨Nat.le_of_not_lt hd, h0⟩)] at hfree
        omega
    -- an empty entry is an empty position, counted with the indirect block if that is new
    have hf₁ := freeBlocks_allocSlot h₁ fun _ _ => rfl
    have hentry := bmap_entry hd h₁
    obtain ⟨b, s', h₂⟩ := @allocSlot_isSome sb s₁ (s₁.words ind (bn - NDIRECT))
      (fun s b => s.setWord ind (bn - NDIRECT) b) fun h0 => by
        rw [hentry] at h0
        rw [if_pos h0] at hfree
        split at hf₁ <;> split at hfree <;> omega
    exact ⟨b, s', by rw [h₁]; exact h₂⟩

/-- `bmap` takes exactly the blocks `bmapNeed` counts. -/
theorem bmap_freeBlocks (h : bmap sb s i bn = some (b, s')) : freeBlocks sb s = freeBlocks sb s' + bmapNeed s i bn := by
  unfold bmapNeed
  unfold bmap at h
  by_cases hd : bn < NDIRECT
  · have hpos : filePos bn = bn := if_pos hd
    rw [if_pos hd] at h
    simp only [hpos, blockAt_direct s (Nat.le_of_lt hd), show ¬ NDIRECT ≤ bn by omega, false_and, if_false,
      Nat.add_zero]
    exact (freeBlocks_allocSlot h fun _ _ => rfl).symm
  · rw [if_neg hd] at h
    split at h
    · obtain ⟨⟨ind, s₁⟩, h₁, h₂⟩ := Option.bind_eq_some_iff.1 h
      dsimp only at h₂
      have hf₁ := freeBlocks_allocSlot h₁ fun _ _ => rfl
      have hf₂ := freeBlocks_allocSlot h₂ fun _ _ => rfl
      rw [bmap_entry hd h₁] at hf₂
      have hn : NDIRECT ≤ bn := Nat.le_of_not_lt hd
      by_cases hz : blockAt s i (filePos bn) = 0 <;> by_cases ha : (s.dinode i).addrs NDIRECT = 0 <;>
        simp only [hz, ha, hn, true_and, if_true, if_false] at hf₁ hf₂ ⊢ <;> omega
    · cases h

/-- `bmap` rewrites only blocks that were free and the inode's indirect block: any other marked block keeps its
words. -/
theorem bmap_words {c : Nat} (h : bmap sb s i bn = some (b, s')) (hc : s.bitmap c = true)
    (hind : (s.dinode i).addrs NDIRECT ≠ c) : s'.words c = s.words c := by
  unfold bmap at h
  by_cases hd : bn < NDIRECT
  · rw [if_pos hd] at h
    exact allocSlot_words h (fun _ _ => rfl) hc
  · rw [if_neg hd] at h
    split at h
    · obtain ⟨⟨ind, s₁⟩, h₁, h₂⟩ := Option.bind_eq_some_iff.1 h
      dsimp only at h₂
      have hw₁ := allocSlot_words h₁ (fun _ _ => rfl) hc
      -- the indirect block is the old one, or one that was free, so not `c`
      have hne : ind ≠ c := by
        rcases allocSlot_spec h₁ with ⟨-, rfl, -⟩ | ⟨-, s₂, hb, -⟩
        · exact hind
        · rintro rfl
          rw [(balloc_spec hb).2.1] at hc
          cases hc
      have hc₁ : s₁.bitmap c = true := by
        rcases allocSlot_spec h₁ with ⟨-, -, rfl⟩ | ⟨-, s₂, hb, rfl⟩
        · exact hc
        · exact (balloc_bitmap hb c).2 (.inr hc)
      rw [← hw₁]
      exact allocSlot_words h₂ (fun _ _ => by simp [Fs.setWord, Fs.setBlock, Function.update_of_ne hne.symm]) hc₁
    · cases h

/-- `bmap` writes no size. -/
theorem bmap_size (h : bmap sb s i bn = some (b, s')) (j : Nat) : (s'.dinode j).size = (s.dinode j).size := by
  -- every store of `bmap` is an address or an indirect entry, and `balloc` writes no dinode
  have hslot : ∀ {s₀ s₁ : Fs} {addr b' : Nat} {store : Fs → Nat → Fs}, allocSlot sb s₀ addr store = some (b', s₁) →
      (∀ s₂ b'', ∀ j, ((store s₂ b'').dinode j).size = (s₂.dinode j).size) →
      ∀ j, (s₁.dinode j).size = (s₀.dinode j).size := by
    intro s₀ s₁ addr b' store h hstore j
    rcases allocSlot_spec h with ⟨-, -, rfl⟩ | ⟨-, s₂, hb, rfl⟩
    · rfl
    · rw [hstore, balloc_dinode hb]
  have hsetAddr : ∀ (s₂ : Fs) (k b'' j : Nat), ((s₂.setAddr i k b'').dinode j).size = (s₂.dinode j).size := by
    intro s₂ k b'' j
    by_cases hj : j = i
    · subst hj
      simp [Fs.setAddr, Fs.setInode]
    · simp [Fs.setAddr, Fs.setInode, Function.update_of_ne hj]
  unfold bmap at h
  split at h
  · exact hslot h (fun s₂ b'' => hsetAddr s₂ bn b'') j
  · split at h
    · obtain ⟨⟨ind, s₁⟩, h₁, h₂⟩ := Option.bind_eq_some_iff.1 h
      dsimp only at h₂
      rw [hslot h₂ (fun _ _ _ => rfl) j, hslot h₁ (fun s₂ b'' => hsetAddr s₂ NDIRECT b'') j]
    · cases h

/-- With no free block, `bmap` of a block the inode does not have panics. -/
theorem bmap_of_full (hfull : freeBlocks sb s = 0) (h0 : blockAt s i (filePos bn) = 0) : bmap sb s i bn = none := by
  unfold bmap
  by_cases hd : bn < NDIRECT
  · have hpos : filePos bn = bn := if_pos hd
    rw [hpos, blockAt_direct s (Nat.le_of_lt hd)] at h0
    rw [if_pos hd, allocSlot, if_pos h0, balloc_of_full hfull]
    rfl
  · rw [if_neg hd]
    split
    · by_cases hind : (s.dinode i).addrs NDIRECT = 0
      · -- no indirect block: its allocation panics
        rw [allocSlot, if_pos hind, balloc_of_full hfull]
        rfl
      · -- the entry of the indirect block is empty: the allocation of the data block panics
        rw [filePos_of_indirect hd, blockAt_entry s i _ hind] at h0
        rw [allocSlot, if_neg hind]
        dsimp only [Option.bind_eq_bind, Option.bind_some]
        rw [allocSlot, if_pos h0, balloc_of_full hfull]
        rfl
    · rfl

/-- A block an allocated inode holds at a position other than its indirect block keeps its words through `bmap` on
that inode. -/
theorem bmap_words_held (hok : BlocksOk sb s) (ht : (s.dinode i).type ≠ 0) (h : bmap sb s i bn = some (b, s'))
    {k : Nat} (hk : Holds s i k) (hkn : k ≠ NDIRECT) : s'.words (blockAt s i k) = s.words (blockAt s i k) := by
  refine bmap_words h (hok.marked hk) fun heq => hkn ?_
  -- the block would be the indirect block, held at position `NDIRECT`
  have h0 : (s.dinode i).addrs NDIRECT ≠ 0 := by
    rw [heq]
    exact hk.2.2
  obtain ⟨hh, hread⟩ := holds_indirect ht h0
  exact (hok.unique hk hh (by rw [hread, heq])).2

end Bmap

/-! ### The pieces of a range -/

/-- A round's piece `[off, off + m)`, with `m ≤ BSIZE - off % BSIZE`, lies in the block of `off`. -/
theorem piece_div {off j : Nat} (hj : j < BSIZE - off % BSIZE) : (off + j) / BSIZE = off / BSIZE := by
  unfold BSIZE at *
  omega

private theorem piece_mod {off j : Nat} (hj : j < BSIZE - off % BSIZE) : (off + j) % BSIZE = off % BSIZE + j := by
  unfold BSIZE at *
  omega

/-- The blocks a range visits: the block of `off`, then those the rest of the range visits after the round's
piece. -/
theorem touched_cons (off : Nat) {r : Nat} (hr : 0 < r) :
    List.range' (off / BSIZE) (blocksTouched off r) =
      off / BSIZE :: List.range' ((off + min r (BSIZE - off % BSIZE)) / BSIZE)
        (blocksTouched (off + min r (BSIZE - off % BSIZE)) (r - min r (BSIZE - off % BSIZE))) := by
  have hcount : blocksTouched off r =
      blocksTouched (off + min r (BSIZE - off % BSIZE)) (r - min r (BSIZE - off % BSIZE)) + 1 := by
    unfold blocksTouched BSIZE
    split <;> split <;> omega
  rw [hcount, List.range'_succ]
  by_cases hlast : r - min r (BSIZE - off % BSIZE) = 0
  · simp [hlast, blocksTouched]
  · -- the rest starts at the next block
    have hnext : (off + min r (BSIZE - off % BSIZE)) / BSIZE = off / BSIZE + 1 := by
      unfold BSIZE at *
      omega
    rw [hnext]

private theorem filePos_inj {a b : Nat} (h : filePos a = filePos b) : a = b := by
  unfold filePos at h
  split at h <;> split at h <;> omega

/-- The blocks below `MAXFILE` sit at the positions an inode can hold. -/
theorem filePos_lt_of_lt {bn : Nat} (hbn : bn < MAXFILE) : filePos bn < NDIRECT + 1 + NINDIRECT := by
  unfold filePos
  unfold MAXFILE NINDIRECT NDIRECT at *
  split <;> omega

private theorem filePos_lt {k : Nat} (hk : k < MAXFILE * BSIZE) : filePos (k / BSIZE) < NDIRECT + 1 + NINDIRECT :=
  filePos_lt_of_lt (by unfold MAXFILE NINDIRECT NDIRECT BSIZE at *; omega)

private theorem div_lt_maxfile {k : Nat} (hk : k < MAXFILE * BSIZE) : k / BSIZE < MAXFILE := by
  unfold MAXFILE NINDIRECT NDIRECT BSIZE at *
  omega

/-! ### The blocks a write allocates -/

section Need

variable {s s₁ : Fs} {i : Nat}

private theorem allocNeed_congr (hb : ∀ k, blockAt s₁ i k = blockAt s i k)
    (hd : (s₁.dinode i).addrs NDIRECT = (s.dinode i).addrs NDIRECT) (off len : Nat) :
    allocNeed s₁ i off len = allocNeed s i off len := by
  simp only [allocNeed, hb, hd]

/-- The first round's `bmap` allocates among the blocks the whole write allocates. -/
theorem bmapNeed_le_allocNeed (s : Fs) (i off : Nat) {r : Nat} (hr : 0 < r) :
    bmapNeed s i (off / BSIZE) ≤ allocNeed s i off r := by
  have hle : off / BSIZE ≤ (off + r - 1) / BSIZE := Nat.div_le_div_right (by omega)
  have hI : (if NDIRECT ≤ off / BSIZE ∧ (s.dinode i).addrs NDIRECT = 0 then 1 else 0) ≤
      if 0 < r ∧ NDIRECT ≤ (off + r - 1) / BSIZE ∧ (s.dinode i).addrs NDIRECT = 0 then 1 else 0 := by
    split_ifs <;> omega
  unfold bmapNeed allocNeed
  rw [touched_cons off hr, List.countP_cons]
  simp only [decide_eq_true_eq]
  omega

/-- After the first round, the rest of the write allocates what the whole write does but the round's blocks:
the positions `s₁` holds include those `s` holds, and the round leaves an indirect block when its block is past
the direct ones or the inode had one. -/
theorem allocNeed_step {off r : Nat} (hr : 0 < r) (hmax : off + r ≤ MAXFILE * BSIZE)
    (hkeep : ∀ bn < MAXFILE, blockAt s i (filePos bn) ≠ 0 → blockAt s₁ i (filePos bn) ≠ 0)
    (hind : NDIRECT ≤ off / BSIZE → (s₁.dinode i).addrs NDIRECT ≠ 0)
    (hind' : (s.dinode i).addrs NDIRECT ≠ 0 → (s₁.dinode i).addrs NDIRECT ≠ 0) :
    allocNeed s₁ i (off + min r (BSIZE - off % BSIZE)) (r - min r (BSIZE - off % BSIZE)) +
      bmapNeed s i (off / BSIZE) ≤ allocNeed s i off r := by
  have hle : off / BSIZE ≤ (off + r - 1) / BSIZE := Nat.div_le_div_right (by omega)
  have hend : off + min r (BSIZE - off % BSIZE) + (r - min r (BSIZE - off % BSIZE)) - 1 = off + r - 1 := by
    omega
  -- the rest of the range has no more empty positions in `s₁` than in `s`
  have hmono : (List.range' ((off + min r (BSIZE - off % BSIZE)) / BSIZE)
        (blocksTouched (off + min r (BSIZE - off % BSIZE)) (r - min r (BSIZE - off % BSIZE)))).countP
        (fun bn => blockAt s₁ i (filePos bn) = 0) ≤
      (List.range' ((off + min r (BSIZE - off % BSIZE)) / BSIZE)
        (blocksTouched (off + min r (BSIZE - off % BSIZE)) (r - min r (BSIZE - off % BSIZE)))).countP
        (fun bn => blockAt s i (filePos bn) = 0) := by
    refine List.countP_mono_left fun bn hbn hz => ?_
    have hbn' : bn < MAXFILE := by
      rw [List.mem_range'_1] at hbn
      unfold blocksTouched at hbn
      unfold MAXFILE NINDIRECT NDIRECT BSIZE at *
      split at hbn <;> omega
    simp only [decide_eq_true_eq] at hz ⊢
    by_contra h0
    exact hkeep bn hbn' h0 hz
  -- the indirect block: allocated by the round, or needed by the rest only if the whole write needs it
  have hI : (if 0 < r - min r (BSIZE - off % BSIZE) ∧ NDIRECT ≤ (off + r - 1) / BSIZE ∧
        (s₁.dinode i).addrs NDIRECT = 0 then 1 else 0) +
      (if NDIRECT ≤ off / BSIZE ∧ (s.dinode i).addrs NDIRECT = 0 then 1 else 0) ≤
      if 0 < r ∧ NDIRECT ≤ (off + r - 1) / BSIZE ∧ (s.dinode i).addrs NDIRECT = 0 then 1 else 0 := by
    by_cases ha : (s.dinode i).addrs NDIRECT = 0
    · by_cases hn : NDIRECT ≤ off / BSIZE
      · have h₁ := hind hn
        have h₂ : NDIRECT ≤ (off + r - 1) / BSIZE := by omega
        simp only [h₁, hn, ha, h₂, hr, and_false, and_true, if_true, if_false, Nat.zero_add, le_refl]
      · simp only [hn, false_and, if_false, Nat.add_zero]
        split_ifs <;> omega
    · have h₁ := hind' ha
      simp only [h₁, ha, and_false, if_false, Nat.add_zero, le_refl]
  unfold allocNeed bmapNeed
  rw [touched_cons off hr, List.countP_cons, hend]
  simp only [decide_eq_true_eq]
  omega

end Need

/-! ### Writing -/

section Write

variable {sb : Superblock} {i : Nat}

/-- `s'` is `s` with bytes `off` to `off + len - 1` of the file of inode `i` set to `f 0` to `f (len - 1)`: those
bytes sit in allocated blocks, and every other byte of an allocated block among the first `MAXFILE` keeps its block
and its value. -/
structure Written (s s' : Fs) (i off len : Nat) (f : Nat → UInt8) : Prop where
  held : ∀ k, off ≤ k → k < off + len → blockAt s' i (filePos (k / BSIZE)) ≠ 0
  copied : ∀ k, off ≤ k → k < off + len → fileByte s' i k = f (k - off)
  frame : ∀ k, k < MAXFILE * BSIZE → ¬(off ≤ k ∧ k < off + len) → blockAt s i (filePos (k / BSIZE)) ≠ 0 →
    blockAt s' i (filePos (k / BSIZE)) = blockAt s i (filePos (k / BSIZE)) ∧ fileByte s' i k = fileByte s i k

theorem Written.nil (s : Fs) (i off : Nat) (f : Nat → UInt8) : Written s s i off 0 f where
  held _ _ h := absurd h (by omega)
  copied _ _ h := absurd h (by omega)
  frame _ _ _ _ := ⟨rfl, rfl⟩

/-- Two writes, the second from where the first ended, make one. -/
theorem Written.append {s₁ s₂ s₃ : Fs} {off m len : Nat} {f : Nat → UInt8} (h₁ : Written s₁ s₂ i off m f)
    (h₂ : Written s₂ s₃ i (off + m) len fun j => f (m + j)) (hmax : off + m + len ≤ MAXFILE * BSIZE) :
    Written s₁ s₃ i off (m + len) f where
  held k hk₁ hk₂ := by
    by_cases hk : k < off + m
    · -- in the first piece, which the second write leaves alone
      rw [(h₂.frame k (by omega) (by omega) (h₁.held k hk₁ hk)).1]
      exact h₁.held k hk₁ hk
    · exact h₂.held k (by omega) (by omega)
  copied k hk₁ hk₂ := by
    by_cases hk : k < off + m
    · rw [(h₂.frame k (by omega) (by omega) (h₁.held k hk₁ hk)).2]
      exact h₁.copied k hk₁ hk
    · rw [h₂.copied k (by omega) (by omega)]
      congr 1
      omega
  frame k hk hout h0 := by
    obtain ⟨e₁, b₁⟩ := h₁.frame k hk (by omega) h0
    obtain ⟨e₂, b₂⟩ := h₂.frame k hk (by omega) (by rw [e₁]; exact h0)
    exact ⟨e₂.trans e₁, b₂.trans b₁⟩

/-- A round of the loop of `writei`: `bmap` maps the block of `off`, and the piece `[off, off + m)` is copied into
it. -/
theorem write_round {s s₁ : Fs} {off m b : Nat} (f : Nat → UInt8) (hok : BlocksOk sb s)
    (ht : (s.dinode i).type ≠ 0) (h : bmap sb s i (off / BSIZE) = some (b, s₁)) (hm : m ≤ BSIZE - off % BSIZE) :
    BlocksOk sb (s₁.copyIn b (off % BSIZE) m f) ∧ Written s (s₁.copyIn b (off % BSIZE) m f) i off m f := by
  obtain ⟨hok₁, htype₁, hh, hblk, hg⟩ := bmap_blocks_ok hok ht h
  have ht₁ : (s₁.dinode i).type ≠ 0 := by rw [htype₁]; exact ht
  -- the copy rewrites block `b`, which `i` holds at the position of `off`, and changes no position
  have hpos : ∀ k', blockAt (s₁.copyIn b (off % BSIZE) m f) i k' = blockAt s₁ i k' := by
    intro k'
    rw [Fs.copyIn, ← hblk]
    exact hok₁.blockAt_setBlock_held hh (filePos_ne_indirect _) _ ht₁ k'
  have hok₂ := (hok₁.setBlock_held hh (filePos_ne_indirect _) (LEBytes.storeBytes (s₁.words b) (off % BSIZE) m f)).1
  rw [hblk] at hok₂
  refine ⟨hok₂, ⟨fun k hk₁ hk₂ => ?_, fun k hk₁ hk₂ => ?_, fun k hk hout h0 => ?_⟩⟩
  · have hj : k - off < BSIZE - off % BSIZE := by omega
    rw [hpos, show k = off + (k - off) by omega, piece_div hj]
    exact hh.2.2
  · -- a byte of the piece reads what was copied
    have hj : k - off < BSIZE - off % BSIZE := by omega
    rw [fileByte, hpos, show k = off + (k - off) by omega, piece_div hj, piece_mod hj, hblk, Fs.byte,
      Fs.copyIn_words_self, LEBytes.wordByte_storeBytes, if_pos (by omega)]
    congr 1
    omega
  · -- a byte outside the piece, in a block `i` held before
    have hq : Holds s i (filePos (k / BSIZE)) := ⟨ht, filePos_lt hk, h0⟩
    obtain ⟨hq₁, e₁⟩ := hg.keeps hq
    refine ⟨by rw [hpos, e₁], ?_⟩
    rw [fileByte, fileByte, hpos, e₁, Fs.byte, Fs.byte]
    by_cases hc : blockAt s i (filePos (k / BSIZE)) = b
    · -- the block of the piece: `k` is in it outside the piece, and `bmap` kept its words
      have hsame : k / BSIZE = off / BSIZE :=
        filePos_inj (hok₁.unique hq₁ hh (by rw [e₁, hc, hblk])).2
      have hw := bmap_words_held hok ht h hq (filePos_ne_indirect _)
      rw [hc] at hw ⊢
      rw [Fs.copyIn_words_self, LEBytes.wordByte_storeBytes, if_neg, hw]
      unfold BSIZE at *
      omega
    · rw [Fs.copyIn_words_ne _ _ _ _ hc, bmap_words_held hok ht h hq (filePos_ne_indirect _)]

/-- The loop of `writei` from `tot`, with as many free blocks as the rest of the range allocates: it copies the rest
of `src` to the file, keeping the invariant, the type and the size. -/
theorem writeiLoop_spec (src : Nat → UInt8) {n : Nat} (tot off : Nat) {s : Fs} (hok : BlocksOk sb s)
    (ht : (s.dinode i).type ≠ 0) (hmax : off + (n - tot) ≤ MAXFILE * BSIZE)
    (hfree : allocNeed s i off (n - tot) ≤ freeBlocks sb s) :
    ∃ s', Bytes.writeiLoop sb i n src tot off s = some s' ∧ BlocksOk sb s' ∧
      (s'.dinode i).type = (s.dinode i).type ∧ (s'.dinode i).size = (s.dinode i).size ∧
      Written s s' i off (n - tot) fun j => src (tot + j) := by
  -- on the bytes left to copy, which every round decreases
  induction hr : n - tot using Nat.strongRecOn generalizing tot off s with
  | _ r ih =>
  subst hr
  by_cases hlt : tot < n
  · have hneed := bmapNeed_le_allocNeed s i off (show 0 < n - tot by omega)
    obtain ⟨b, s₁, hb⟩ := bmap_isSome (div_lt_maxfile (k := off) (by omega))
      (show bmapNeed s i (off / BSIZE) ≤ freeBlocks sb s by omega)
    obtain ⟨m, hm⟩ : ∃ m, m = min (n - tot) (BSIZE - off % BSIZE) := ⟨_, rfl⟩
    have hm0 : 0 < m := by
      have : off % BSIZE < BSIZE := Nat.mod_lt _ (by decide)
      omega
    obtain ⟨hok₂, hw⟩ := write_round (m := m) (fun j => src (tot + j)) hok ht hb (by omega)
    obtain ⟨hok₁, htype₁, hh, hblk, hg⟩ := bmap_blocks_ok hok ht hb
    have ht₁ : (s₁.dinode i).type ≠ 0 := by rw [htype₁]; exact ht
    have hsize₁ := bmap_size hb i
    -- the copy into the round's block moves no block of the inode
    have hpos : ∀ k, blockAt (s₁.copyIn b (off % BSIZE) m fun j => src (tot + j)) i k = blockAt s₁ i k := by
      intro k
      rw [Fs.copyIn, ← hblk]
      exact hok₁.blockAt_setBlock_held hh (filePos_ne_indirect _) _ ht₁ k
    -- the round takes the blocks `bmapNeed` counts, and the rest of the range allocates the others
    have hstep := @allocNeed_step _ s₁ _ _ _ (show 0 < n - tot by omega) hmax
      (fun bn hbn h0 => by
        rw [(hg.keeps ⟨ht, filePos_lt_of_lt hbn, h0⟩).2]
        exact h0)
      (fun hn => indirect_ne_zero_of_blockAt hh.2.2 (by rw [filePos_of_indirect (by omega)]; omega))
      (fun ha => by
        have hq : Holds s i NDIRECT := ⟨ht, by omega, by rw [blockAt_direct s le_rfl]; exact ha⟩
        have hkeep := (hg.keeps hq).2
        rw [blockAt_direct _ le_rfl, blockAt_direct _ le_rfl] at hkeep
        rw [hkeep]
        exact ha)
    rw [← hm] at hstep
    have hfree₁ := bmap_freeBlocks hb
    have hfree₂ : allocNeed (s₁.copyIn b (off % BSIZE) m fun j => src (tot + j)) i (off + m) (n - (tot + m)) ≤
        freeBlocks sb (s₁.copyIn b (off % BSIZE) m fun j => src (tot + j)) := by
      rw [freeBlocks_congr (Fs.copyIn_bitmap _ _ _ _ _), allocNeed_congr hpos (by rw [Fs.copyIn_dinode]),
        Nat.sub_add_eq]
      omega
    obtain ⟨s', hloop, hok', htype', hsize', hw'⟩ := ih (n - (tot + m)) (by omega) (tot + m) (off + m) hok₂
      (by rw [Fs.copyIn_dinode, htype₁]; exact ht) (by omega) hfree₂ rfl
    refine ⟨s', by rw [Bytes.writeiLoop, dif_pos hlt, hb, ← hm]; exact hloop, hok',
      by rw [htype', Fs.copyIn_dinode, htype₁], by rw [hsize', Fs.copyIn_dinode, hsize₁], ?_⟩
    -- the round's piece and the rest of the loop make the whole range
    have hsrc : (fun j => src (tot + m + j)) = fun j => (fun j => src (tot + j)) (m + j) := by
      funext j
      rw [Nat.add_assoc]
    rw [hsrc] at hw'
    rw [show n - tot = m + (n - (tot + m)) by omega]
    exact hw.append hw' (by omega)
  · rw [show n - tot = 0 by omega]
    exact ⟨s, by rw [Bytes.writeiLoop, dif_neg hlt], hok, rfl, rfl, Written.nil s i off _⟩

end Write

/-! ### Reading -/

/-- The loop of `readi` from `tot`, over allocated blocks: it appends the file's bytes of the rest of the range to
`dst`, and allocates nothing. -/
theorem readiLoop_spec {sb : Superblock} {s : Fs} {i n : Nat} (tot off : Nat) (dst : List UInt8)
    (hmax : off + (n - tot) ≤ MAXFILE * BSIZE)
    (hheld : ∀ k, off ≤ k → k < off + (n - tot) → blockAt s i (filePos (k / BSIZE)) ≠ 0) :
    Bytes.readiLoop sb i n tot off dst s =
      some (dst ++ (List.range (n - tot)).map (fun j => fileByte s i (off + j)), s) := by
  induction hr : n - tot using Nat.strongRecOn generalizing tot off dst with
  | _ r ih =>
  subst hr
  rw [Bytes.readiLoop]
  by_cases hlt : tot < n
  · rw [dif_pos hlt, bmap_of_held (div_lt_maxfile (by omega)) (hheld off (Nat.le_refl _) (by omega))]
    dsimp only [Option.bind_eq_bind, Option.bind_some]
    obtain ⟨m, hm⟩ : ∃ m, m = min (n - tot) (BSIZE - off % BSIZE) := ⟨_, rfl⟩
    have hm0 : 0 < m := by
      have : off % BSIZE < BSIZE := Nat.mod_lt _ (by decide)
      omega
    rw [← hm]
    -- the piece read is the file's bytes from `off`
    have hpiece : ((List.range m).map fun j => s.byte (blockAt s i (filePos (off / BSIZE))) (off % BSIZE + j)) =
        (List.range m).map fun j => fileByte s i (off + j) := by
      apply List.map_congr_left
      intro j hj
      have hj' : j < BSIZE - off % BSIZE := by
        have := List.mem_range.1 hj
        omega
      rw [fileByte, piece_div hj', piece_mod hj']
    rw [hpiece, ih (n - (tot + m)) (by omega) (tot + m) (off + m) _ (by omega)
      (fun k hk₁ hk₂ => hheld k (by omega) (by omega)) rfl]
    -- and the range splits after the piece
    rw [show n - tot = m + (n - (tot + m)) by omega, List.range_add, List.map_append, List.map_map,
      List.append_assoc]
    simp only [Function.comp_def, Nat.add_assoc]
  · rw [dif_neg hlt, show n - tot = 0 by omega]
    simp

/-! ### `writei`, then `readi` -/

section ReadWrite

variable {sb : Superblock} {s : Fs} {i : Nat}

private theorem readi_of_refused (hdev : (s.dinode i).type ≠ T_DEV) {off n : Nat}
    (h : off > (s.dinode i).size ∨ UINT_MOD ≤ off + n) : Bytes.readi sb s i off n = some (-1, [], s) := by
  rw [Bytes.readi, if_neg hdev, if_pos h]

private theorem writei_of_refused (hdev : (s.dinode i).type ≠ T_DEV) (src : Nat → UInt8) {off n : Nat}
    (h : off > (s.dinode i).size ∨ UINT_MOD ≤ off + n ∨ off + n > MAXFILE * BSIZE) :
    Bytes.writei sb s i src off n = some (-1, s) := by
  rw [Bytes.writei, if_neg hdev]
  by_cases h₁ : off > (s.dinode i).size ∨ UINT_MOD ≤ off + n
  · rw [if_pos h₁]
  · rw [if_neg h₁, if_pos (by omega)]

/-- `readi` of a file whose blocks are allocated returns the count, cut at the end of the file, and the file's
bytes, and allocates nothing. -/
theorem readi_filled (hdev : (s.dinode i).type ≠ T_DEV) (hfill : Filled s i) {off n : Nat}
    (hoff : off ≤ (s.dinode i).size) (hn : off + n < UINT_MOD) :
    Bytes.readi sb s i off n = some (((min n ((s.dinode i).size - off) : Nat) : Int),
      (List.range (min n ((s.dinode i).size - off))).map (fun j => fileByte s i (off + j)), s) := by
  have hsize := hfill.size_le
  have hcount : (if off + n > (s.dinode i).size then (s.dinode i).size - off else n) =
      min n ((s.dinode i).size - off) := by
    split <;> omega
  rw [Bytes.readi, if_neg hdev, if_neg (by omega)]
  dsimp only
  rw [hcount, readiLoop_spec 0 off [] (by omega) (fun k _ hk => hfill.held k (by omega)), Option.map_some,
    LEBytes.toInt32_of_lt (by unfold MAXFILE NINDIRECT NDIRECT BSIZE at hsize; omega)]
  simp

/-- The size `writei` leaves: the end of the write when it passes the old size. -/
def grown (s : Fs) (i off n : Nat) : Fs :=
  if n > 0 ∧ off + n > (s.dinode i).size then s.setInode i fun ip => { ip with size := off + n } else s

private theorem grown_blockAt (s : Fs) (i off n j k : Nat) : blockAt (grown s i off n) j k = blockAt s j k := by
  unfold grown
  split
  · exact blockAt_setInode_addrs s i rfl j k
  · rfl

private theorem grown_fileByte (s : Fs) (i off n j k : Nat) : fileByte (grown s i off n) j k = fileByte s j k := by
  unfold grown
  split
  · rw [fileByte, fileByte, blockAt_setInode_addrs s i rfl]
    rfl
  · rfl

private theorem grown_size (s : Fs) (i off n : Nat) :
    ((grown s i off n).dinode i).size = if n > 0 then max (s.dinode i).size (off + n) else (s.dinode i).size := by
  unfold grown
  split
  · rename_i h
    simp [Fs.setInode_dinode, h.1]
    omega
  · rename_i h
    split
    · omega
    · rfl

private theorem grown_type (s : Fs) (i off n j : Nat) : ((grown s i off n).dinode j).type = (s.dinode j).type := by
  unfold grown
  split
  · by_cases hj : j = i
    · subst hj
      simp [Fs.setInode_dinode]
    · simp [Fs.setInode_dinode, hj]
  · rfl

/-- `writei` of `n` bytes at an offset within the file, with as many free blocks as it allocates: it returns `n`, the file grows to `max size (off + n)`, and bytes `off` to
`off + n - 1` are those of `src`, the others of its allocated blocks unchanged. -/
theorem writei_spec (src : Nat → UInt8) (hok : BlocksOk sb s) (ht : (s.dinode i).type ≠ 0)
    (hdev : (s.dinode i).type ≠ T_DEV) {off n : Nat} (hoff : off ≤ (s.dinode i).size)
    (hmax : off + n ≤ MAXFILE * BSIZE) (hfree : allocNeed s i off n ≤ freeBlocks sb s) :
    ∃ s₁, Bytes.writei sb s i src off n = some ((n : Int), grown s₁ i off n) ∧ BlocksOk sb (grown s₁ i off n) ∧
      ((grown s₁ i off n).dinode i).type = (s.dinode i).type ∧
      ((grown s₁ i off n).dinode i).size = max (s.dinode i).size (off + n) ∧ Written s (grown s₁ i off n) i off n src := by
  obtain ⟨s₁, hloop, hok₁, htype₁, hsize₁, hw⟩ :=
    writeiLoop_spec (n := n) src 0 off hok ht (by rw [Nat.sub_zero]; exact hmax) (by rw [Nat.sub_zero]; exact hfree)
  simp only [Nat.sub_zero, Nat.zero_add] at hw
  refine ⟨s₁, ?_, ?_, by rw [grown_type, htype₁], by rw [grown_size, hsize₁]; split <;> omega, ?_⟩
  · rw [Bytes.writei, if_neg hdev, if_neg (by unfold MAXFILE NINDIRECT NDIRECT BSIZE UINT_MOD at *; omega),
      if_neg (by omega), hloop, Option.map_some,
      LEBytes.toInt32_of_lt (by unfold MAXFILE NINDIRECT NDIRECT BSIZE at hmax; omega)]
    rfl
  · -- growing the size keeps the type and the addresses
    unfold grown
    split
    · exact (hok₁.setInode_frame rfl rfl).1
    · exact hok₁
  · exact ⟨fun k hk₁ hk₂ => by rw [grown_blockAt]; exact hw.held k hk₁ hk₂,
      fun k hk₁ hk₂ => by rw [grown_fileByte]; exact hw.copied k hk₁ hk₂,
      fun k hk hout h0 => by rw [grown_blockAt, grown_fileByte]; exact hw.frame k hk hout h0⟩

/-- A write at an offset within a filled file leaves it filled. -/
theorem Written.filled {s' : Fs} {off n : Nat} {f : Nat → UInt8} (hfill : Filled s i) (hw : Written s s' i off n f)
    (hoff : off ≤ (s.dinode i).size) (hsize : (s'.dinode i).size = max (s.dinode i).size (off + n))
    (hmax : off + n ≤ MAXFILE * BSIZE) : Filled s' i where
  size_le := by
    have := hfill.size_le
    omega
  held k hk := by
    by_cases hin : off ≤ k ∧ k < off + n
    · exact hw.held k hin.1 hin.2
    · -- below the old size, in a block the file had
      have hks : k < (s.dinode i).size := by omega
      have := hfill.size_le
      rw [(hw.frame k (by omega) hin (hfill.held k hks)).1]
      exact hfill.held k hks

/-- After such a write, a byte below the new size reads what was written there, or the old byte. -/
theorem Written.fileByte_of_filled {s' : Fs} {off n : Nat} {f : Nat → UInt8} (hfill : Filled s i)
    (hw : Written s s' i off n f) (hoff : off ≤ (s.dinode i).size)
    (hsize : (s'.dinode i).size = max (s.dinode i).size (off + n)) {k : Nat} (hk : k < (s'.dinode i).size) :
    fileByte s' i k = if off ≤ k ∧ k < off + n then f (k - off) else fileByte s i k := by
  split
  · rename_i hin
    exact hw.copied k hin.1 hin.2
  · rename_i hin
    have hks : k < (s.dinode i).size := by omega
    have := hfill.size_le
    exact (hw.frame k (by omega) hin (hfill.held k hks)).2

/-- `writei` and `readi` on a file, in a state where every block is owned once (`BlocksOk`) and the file's blocks
below its size are allocated.  A write of `n` bytes at `off ≤ size`, within `MAXFILE` blocks and with as many free
blocks as it allocates (the blocks it visits that the file does not have, and the indirect block if the range
reaches it and the inode has none), returns `n` and grows the size to
`max size (off + n)`; the file stays filled, and `readi` from any `off' ≤ size` then returns
`min m (size - off')` bytes, the old ones overwritten on `[off, off + n)` by `src`.  Both return `-1` for an offset
past the end or a range that wraps, and `writei` also for one past `MAXFILE` blocks. -/
theorem writei_readi (src : Nat → UInt8) (hok : BlocksOk sb s) (ht : (s.dinode i).type ≠ 0)
    (hdev : (s.dinode i).type ≠ T_DEV) (hfill : Filled s i) {off n : Nat} (hoff : off ≤ (s.dinode i).size)
    (hmax : off + n ≤ MAXFILE * BSIZE) (hfree : allocNeed s i off n ≤ freeBlocks sb s) :
    (∃ s', Bytes.writei sb s i src off n = some ((n : Int), s') ∧ (s'.dinode i).size = max (s.dinode i).size (off + n) ∧
      BlocksOk sb s' ∧ Filled s' i ∧
      ∀ off' m, off' ≤ (s'.dinode i).size → off' + m < UINT_MOD →
        Bytes.readi sb s' i off' m = some (((min m ((s'.dinode i).size - off') : Nat) : Int),
          (List.range (min m ((s'.dinode i).size - off'))).map (fun j =>
            if off ≤ off' + j ∧ off' + j < off + n then src (off' + j - off) else fileByte s i (off' + j)), s')) ∧
    (∀ off' m, off' > (s.dinode i).size ∨ UINT_MOD ≤ off' + m → Bytes.readi sb s i off' m = some (-1, [], s)) ∧
    (∀ (src' : Nat → UInt8) off' m, off' > (s.dinode i).size ∨ UINT_MOD ≤ off' + m ∨ off' + m > MAXFILE * BSIZE →
      Bytes.writei sb s i src' off' m = some (-1, s)) := by
  obtain ⟨s₁, hwr, hok', htype', hsize', hw⟩ := writei_spec src hok ht hdev hoff hmax hfree
  have hfill' := hw.filled hfill hoff hsize' hmax
  refine ⟨⟨grown s₁ i off n, hwr, hsize', hok', hfill', fun off' m hoff' hm => ?_⟩,
    fun _ _ h => readi_of_refused hdev h, fun src' _ _ h => writei_of_refused hdev src' h⟩
  -- the new file is filled, so `readi` returns its bytes
  rw [readi_filled (by rw [htype']; exact hdev) hfill' hoff' hm]
  congr 3
  apply List.map_congr_left
  intro j hj
  rw [hw.fileByte_of_filled hfill hoff hsize' (by have := List.mem_range.1 hj; omega)]

end ReadWrite

/-! ### Every file stays filled -/

/-- Every allocated inode is filled. -/
def FilesFilled (s : Fs) : Prop := ∀ j, (s.dinode j).type ≠ 0 → Filled s j

section Fill

variable {sb : Superblock} {s s' : Fs} {i : Nat}

/-- A file keeps being filled through a change that keeps its size and its blocks. -/
theorem Filled.congr {j : Nat} (hfill : Filled s j) (hsize : (s'.dinode j).size = (s.dinode j).size)
    (hblk : ∀ k, blockAt s' j k = blockAt s j k) : Filled s' j where
  size_le := hsize ▸ hfill.size_le
  held k hk := by
    rw [hblk]
    exact hfill.held k (hsize ▸ hk)

/-- A step that keeps the blocks an inode holds and its size keeps it filled. -/
theorem Filled.of_grows {j : Nat} (hfill : Filled s j) (ht : (s.dinode j).type ≠ 0) (hg : Grows s s')
    (hsize : (s'.dinode j).size = (s.dinode j).size) : Filled s' j where
  size_le := hsize ▸ hfill.size_le
  held k hk := by
    rw [hsize] at hk
    have hq : Holds s j (filePos (k / BSIZE)) :=
      ⟨ht, filePos_lt (by have := hfill.size_le; omega), hfill.held k hk⟩
    rw [(hg.keeps hq).2]
    exact hfill.held k hk

private theorem grown_dinode_ne (s : Fs) {i j : Nat} (off n : Nat) (h : j ≠ i) : (grown s i off n).dinode j = s.dinode j := by
  unfold grown
  split
  · simp [Fs.setInode_dinode, h]
  · rfl

/-- The loop of `writei` on the words of the disk leaves a block at every position of the range it writes, and
writes no size. -/
theorem writeiLoop_held {src : Nat → Nat → Nat} {n : Nat} (tot off : Nat) (hok : BlocksOk sb s)
    (ht : (s.dinode i).type ≠ 0) (h : writeiLoop sb i n src tot off s = some s') :
    (∀ k, off ≤ k → k < off + (n - tot) → blockAt s' i (filePos (k / BSIZE)) ≠ 0) ∧
      ∀ j, (s'.dinode j).size = (s.dinode j).size := by
  induction hr : n - tot using Nat.strongRecOn generalizing tot off s with
  | _ r ih =>
  subst hr
  rw [writeiLoop] at h
  by_cases hlt : tot < n
  · rw [dif_pos hlt] at h
    obtain ⟨⟨b, s₁⟩, hb, hrest⟩ := Option.bind_eq_some_iff.1 h
    dsimp only at hrest
    obtain ⟨hok₁, htype₁, hh, hblk, -⟩ := bmap_blocks_ok hok ht hb
    have ht₁ : (s₁.dinode i).type ≠ 0 := by rw [htype₁]; exact ht
    have hok₂ := (hok₁.setBlock_held hh (filePos_ne_indirect _) (src (off / BSIZE))).1
    rw [hblk] at hok₂
    obtain ⟨m, hm⟩ : ∃ m, m = min (n - tot) (BSIZE - off % BSIZE) := ⟨_, rfl⟩
    have hm0 : 0 < m := by
      have : off % BSIZE < BSIZE := Nat.mod_lt _ (by decide)
      omega
    rw [← hm] at hrest
    have ht₂ : ((s₁.setBlock b (src (off / BSIZE))).dinode i).type ≠ 0 := ht₁
    obtain ⟨hrange, hsize⟩ := ih (n - (tot + m)) (by omega) (tot + m) (off + m) hok₂ ht₂ hrest rfl
    have hg := (writeiLoop_blocks_ok (tot + m) (off + m) hok₂ ht₂ hrest).2.2
    refine ⟨fun k hk₁ hk₂ => ?_, fun j => by rw [hsize j]; exact bmap_size hb j⟩
    by_cases hk : k < off + m
    · -- in the round's piece: the block `bmap` mapped, which the rest of the loop keeps
      have hj : k - off < BSIZE - off % BSIZE := by omega
      have hpos : blockAt (s₁.setBlock b (src (off / BSIZE))) i (filePos (off / BSIZE)) = b := by
        rw [← hblk]
        exact hok₁.blockAt_setBlock_held hh (filePos_ne_indirect _) _ ht₁ _
      have hheld : Holds (s₁.setBlock b (src (off / BSIZE))) i (filePos (k / BSIZE)) := by
        rw [show k = off + (k - off) by omega, piece_div hj]
        exact ⟨ht₂, hh.2.1, by rw [hpos, ← hblk]; exact hh.2.2⟩
      rw [(hg.keeps hheld).2]
      exact hheld.2.2
    · exact hrange k (by omega) (by omega)
  · rw [dif_neg hlt] at h
    cases h
    exact ⟨fun k hk₁ hk₂ => absurd hk₂ (by omega), fun _ => rfl⟩

/-- `writei` on the words of the disk keeps every allocated file filled: the blocks of the range it writes are
allocated, and the size grows to the end of the range only. -/
theorem writei_filesFilled (hok : BlocksOk sb s) (hall : FilesFilled s) (ht : (s.dinode i).type ≠ 0)
    {src : Nat → Nat → Nat} {off n : Nat} (h : writei sb s i src off n = some s') : FilesFilled s' := by
  unfold writei at h
  split_ifs at h with hdev hbad hmax
  · cases h
    exact hall
  · cases h
    exact hall
  · cases h
    exact hall
  obtain ⟨s₁, hloop, rfl⟩ := Option.map_eq_some_iff.1 h
  obtain ⟨hrange, hsize⟩ := writeiLoop_held 0 off hok ht hloop
  obtain ⟨-, htype₁, hg⟩ := writeiLoop_blocks_ok 0 off hok ht hloop
  simp only [Nat.sub_zero] at hrange
  change FilesFilled (grown s₁ i off n)
  intro j hj
  rw [grown_type, htype₁] at hj
  by_cases hji : j = i
  · -- the written file: below the old size by the old blocks, above it by the loop's
    subst hji
    have hsj := hsize j
    have hfill₁ := (hall j hj).of_grows hj hg hsj
    refine ⟨by rw [grown_size, hsize]; have := hfill₁.size_le; rw [hsize] at this; split <;> omega,
      fun k hk => ?_⟩
    rw [grown_blockAt]
    rw [grown_size] at hk
    by_cases hks : k < (s₁.dinode j).size
    · exact hfill₁.held k hks
    · rw [hsize] at hks
      split at hk
      · exact hrange k (by omega) (by omega)
      · omega
  · exact ((hall j hj).of_grows hj hg (hsize j)).congr (by rw [grown_dinode_ne _ _ _ hji])
      (grown_blockAt s₁ i off n j)

/-- Every operation keeps every allocated file filled. -/
theorem fsStep_filesFilled (hok : BlocksOk sb s) (hall : FilesFilled s) {op : FsOp} (h : fsStep sb s op = some s') :
    FilesFilled s' := by
  cases op with
  | ialloc type =>
    obtain ⟨⟨inum, s₁⟩, hs, rfl⟩ := Option.map_eq_some_iff.1 h
    unfold ialloc at hs
    obtain ⟨_, -, hpair⟩ := Option.map_eq_some_iff.1 hs
    cases hpair
    dsimp only
    intro j hj
    by_cases hji : j = inum
    · -- the new inode is empty
      subst hji
      have hsize : ((s.setInode j fun _ => { type }).dinode j).size = 0 := by simp [Fs.setInode_dinode]
      exact ⟨by rw [hsize]; exact Nat.zero_le _, fun k hk => absurd hk (by rw [hsize]; exact Nat.not_lt_zero k)⟩
    · have hd : (s.setInode inum fun _ => { type }).dinode j = s.dinode j := by simp [Fs.setInode_dinode, hji]
      rw [hd] at hj
      exact (hall j hj).congr (by rw [hd]) (blockAt_setInode_ne _ _ hji)
  | writei i src off n =>
    simp only [fsStep] at h
    split_ifs at h with ht
    exact writei_filesFilled hok hall ht h
  | link i =>
    simp only [fsStep] at h
    split_ifs at h
    cases h
    intro j hj
    have htype : ((s.setInode i fun ip => { ip with nlink := ip.nlink + 1 }).dinode j).type = (s.dinode j).type := by
      by_cases hji : j = i <;> simp [Fs.setInode_dinode, hji]
    have hsize : ((s.setInode i fun ip => { ip with nlink := ip.nlink + 1 }).dinode j).size = (s.dinode j).size := by
      by_cases hji : j = i <;> simp [Fs.setInode_dinode, hji]
    rw [htype] at hj
    exact (hall j hj).congr hsize (blockAt_setInode_addrs s i rfl j)
  | unlink i =>
    simp only [fsStep] at h
    split_ifs at h
    cases h
    intro j hj
    have htype : ((s.setInode i fun ip => { ip with nlink := ip.nlink - 1 }).dinode j).type = (s.dinode j).type := by
      by_cases hji : j = i <;> simp [Fs.setInode_dinode, hji]
    have hsize : ((s.setInode i fun ip => { ip with nlink := ip.nlink - 1 }).dinode j).size = (s.dinode j).size := by
      by_cases hji : j = i <;> simp [Fs.setInode_dinode, hji]
    rw [htype] at hj
    exact (hall j hj).congr hsize (blockAt_setInode_addrs s i rfl j)
  | iput i last =>
    rcases iput_spec hok h with rfl | ⟨-, hzero, hother, hw⟩
    · exact hall
    · -- the freed inode has type 0; the others keep their dinodes and the disk its words
      intro j hj
      have hji : j ≠ i := by
        rintro rfl
        exact hj hzero
      rw [hother j hji] at hj
      exact (hall j hj).congr (by rw [hother j hji]) (blockAt_congr (hother j hji) hw)

end Fill

/-- From a disk where every held block is owned once and every allocated file is filled, every run of operations
keeps every allocated file filled: its blocks below its size are allocated, so that `readi` reads them without
allocating, and its size fits in `MAXFILE` blocks. -/
theorem reachable_files_filled {sb : Superblock} {s₀ s : Fs} (h₀ : BlocksOk sb s₀) (hf₀ : FilesFilled s₀)
    (h : StepSys.Reachable (fsStep sb) s₀ s) : FilesFilled s :=
  (@StepSys.Reachable.induct_inv _ _ (fsStep sb) s₀ (fun s => BlocksOk sb s ∧ FilesFilled s) ⟨h₀, hf₀⟩
    (fun _ _ _ ⟨hok, hall⟩ hstep => ⟨fsStep_blocks_ok hok hstep, fsStep_filesFilled hok hall hstep⟩) s h).2

/-! ### The image of `mkfs` -/

private theorem freeBlocks_mkfs (w : Nat → Nat → Nat) : freeBlocks mkfsSb (mkfsImage w) = FSSIZE - (nmeta + 1) := by
  have h : ((Finset.range mkfsSb.size).filter fun b => (mkfsImage w).bitmap b = false) =
      Finset.Ico (nmeta + 1) FSSIZE := by
    ext b
    simp only [Finset.mem_filter, Finset.mem_range, Finset.mem_Ico, mkfsImage, decide_eq_false_iff_not]
    show b < FSSIZE ∧ ¬b < nmeta + 1 ↔ _
    omega
  rw [freeBlocks, h, Nat.card_Ico]

/-- In the image of `mkfs` every file is filled: the root directory holds block `nmeta`, and the others are
empty. -/
theorem mkfs_filled (w : Nat → Nat → Nat) (j : Nat) : Filled (mkfsImage w) j := by
  by_cases hj : j = ROOTINO
  · subst hj
    have hroot : (mkfsImage w).dinode ROOTINO =
        { type := T_DIR, nlink := 1, size := BSIZE, addrs := fun k => if k = 0 then nmeta else 0 } := rfl
    refine ⟨by rw [hroot]; decide, fun k hk => ?_⟩
    rw [hroot] at hk
    rw [Nat.div_eq_of_lt hk, show filePos 0 = 0 from rfl, blockAt_direct _ (by decide), hroot]
    decide
  · have hsize : ((mkfsImage w).dinode j).size = 0 := by simp [mkfsImage, hj]
    exact ⟨by rw [hsize]; exact Nat.zero_le _, fun k hk => absurd hk (by rw [hsize]; exact Nat.not_lt_zero k)⟩

/-- In the image of `mkfs`, twelve blocks written to the end of the root directory, the last of them through the
indirect block: the write returns `12 * BSIZE` and the root directory reads back its old block and the new
bytes. -/
theorem writei_readi_across_indirect :
    BlocksOk mkfsSb (mkfsImage fun _ _ => 0) ∧ ((mkfsImage fun _ _ => 0).dinode ROOTINO).type ≠ 0 ∧
      ((mkfsImage fun _ _ => 0).dinode ROOTINO).type ≠ T_DEV ∧ Filled (mkfsImage fun _ _ => 0) ROOTINO ∧
      BSIZE ≤ ((mkfsImage fun _ _ => 0).dinode ROOTINO).size ∧ BSIZE + 12 * BSIZE ≤ MAXFILE * BSIZE ∧
      allocNeed (mkfsImage fun _ _ => 0) ROOTINO BSIZE (12 * BSIZE) ≤ freeBlocks mkfsSb (mkfsImage fun _ _ => 0) ∧
    ((∃ s', Bytes.writei mkfsSb (mkfsImage fun _ _ => 0) ROOTINO (fun _ => 7) BSIZE (12 * BSIZE) =
        some (((12 * BSIZE : Nat) : Int), s') ∧
      (s'.dinode ROOTINO).size = max ((mkfsImage fun _ _ => 0).dinode ROOTINO).size (BSIZE + 12 * BSIZE) ∧
      BlocksOk mkfsSb s' ∧ Filled s' ROOTINO ∧
      ∀ off' m, off' ≤ (s'.dinode ROOTINO).size → off' + m < UINT_MOD →
        Bytes.readi mkfsSb s' ROOTINO off' m = some (((min m ((s'.dinode ROOTINO).size - off') : Nat) : Int),
          (List.range (min m ((s'.dinode ROOTINO).size - off'))).map (fun j =>
            if BSIZE ≤ off' + j ∧ off' + j < BSIZE + 12 * BSIZE then (fun _ => 7) (off' + j - BSIZE)
            else fileByte (mkfsImage fun _ _ => 0) ROOTINO (off' + j)), s')) ∧
    (∀ off' m, off' > ((mkfsImage fun _ _ => 0).dinode ROOTINO).size ∨ UINT_MOD ≤ off' + m →
      Bytes.readi mkfsSb (mkfsImage fun _ _ => 0) ROOTINO off' m = some (-1, [], mkfsImage fun _ _ => 0)) ∧
    (∀ (src' : Nat → UInt8) off' m, off' > ((mkfsImage fun _ _ => 0).dinode ROOTINO).size ∨ UINT_MOD ≤ off' + m ∨
        off' + m > MAXFILE * BSIZE →
      Bytes.writei mkfsSb (mkfsImage fun _ _ => 0) ROOTINO src' off' m = some (-1, mkfsImage fun _ _ => 0))) := by
  have hfree : allocNeed (mkfsImage fun _ _ => 0) ROOTINO BSIZE (12 * BSIZE) ≤
      freeBlocks mkfsSb (mkfsImage fun _ _ => 0) := by
    rw [freeBlocks_mkfs]
    decide
  exact ⟨mkfs_blocks_ok _, by decide, by decide, mkfs_filled _ _, by decide, by decide, hfree,
    writei_readi (fun _ => 7) (mkfs_blocks_ok _) (by decide) (by decide) (mkfs_filled _ _) (by decide) (by decide)
      hfree⟩

/-- A full disk: the image of `mkfs` with every bit of the bitmap set.  It keeps the invariant and the root
directory stays filled, but a write of one byte at the end of the root directory needs a new block, and `balloc`
panics. -/
theorem writei_full_disk :
    BlocksOk mkfsSb { mkfsImage (fun _ _ => 0) with bitmap := fun _ => true } ∧
      Filled { mkfsImage (fun _ _ => 0) with bitmap := fun _ => true } ROOTINO ∧
      (({ mkfsImage (fun _ _ => 0) with bitmap := fun _ => true } : Fs).dinode ROOTINO).type = T_DIR ∧
      (({ mkfsImage (fun _ _ => 0) with bitmap := fun _ => true } : Fs).dinode ROOTINO).size = BSIZE ∧
      BSIZE + 1 ≤ MAXFILE * BSIZE ∧
      Bytes.writei mkfsSb { mkfsImage (fun _ _ => 0) with bitmap := fun _ => true } ROOTINO (fun _ => 0) BSIZE 1 =
        none := by
  have hok : BlocksOk mkfsSb { mkfsImage (fun _ _ => 0) with bitmap := fun _ => true } :=
    (mkfs_blocks_ok fun _ _ => 0).of_frame (fun _ => rfl) (fun _ _ => rfl) (fun _ _ => rfl)
  have hfill : Filled { mkfsImage (fun _ _ => 0) with bitmap := fun _ => true } ROOTINO :=
    ⟨(mkfs_filled (fun _ _ => 0) ROOTINO).size_le, (mkfs_filled (fun _ _ => 0) ROOTINO).held⟩
  have hfull : freeBlocks mkfsSb { mkfsImage (fun _ _ => 0) with bitmap := fun _ => true } = 0 := by
    simp [freeBlocks]
  refine ⟨hok, hfill, rfl, rfl, by decide, ?_⟩
  -- the loop's first round maps block 1 of the root directory, which it does not have
  rw [Bytes.writei, if_neg (by decide), if_neg (by decide), if_neg (by decide), Bytes.writeiLoop, dif_pos (by decide),
    bmap_of_full hfull (by decide)]
  rfl

/-- After `unlinkTrace`, which frees inode 2 and leaves inode 3 a file of one block, every allocated file is
filled. -/
theorem files_filled_after_unlink :
    ∃ s, StepSys.Reachable (fsStep mkfsSb) (mkfsImage fun _ _ => 0) s ∧ (s.dinode 2).type = 0 ∧
      (s.dinode 3).type = T_FILE ∧ (s.dinode 3).size = BSIZE ∧ FilesFilled s := by
  obtain ⟨s, hs, h₂, h₃, -, hsize⟩ := reachable_unlinkTrace
  exact ⟨s, hs, h₂, h₃, hsize, reachable_files_filled (mkfs_blocks_ok _) (fun j _ => mkfs_filled _ j) hs⟩

end Xv6
