import Mathlib.Logic.Function.Basic
import Xv6.Param

/-!
# Disk blocks of the file system: `balloc`, `bfree`, `bmap`, `itrunc` and their callers in `fs.c`

The disk is seen through the buffer cache and the log, one operation at a time: the bit of every block in the
bitmap, the dinodes by number, and the contents of every block read as `uint` words, the way `bmap` and `itrunc`
read an indirect block.  A write by `writei` gives a block new words; what they are does not matter to which blocks
are held, so the model takes them as an argument.

A block of inode `i` sits at a position `k`: `addrs[k]` for `k ≤ NDIRECT` (the direct blocks, then the indirect
block), and entry `k - NDIRECT - 1` of the indirect block after (`blockAt`).  The lemmas of this file say how each
update of the disk changes `blockAt`; `Xv6.Fs.Owner` proves from them that every held block is a data block, marked
in the bitmap and held at one position only.
-/

namespace Xv6

/-- `NDIRECT`: direct block addresses in an inode. -/
def NDIRECT : Nat := 12
/-- `NINDIRECT`: addresses in the indirect block, `BSIZE / sizeof(uint)`. -/
def NINDIRECT : Nat := BSIZE / 4
/-- `MAXFILE`: blocks of the largest file. -/
def MAXFILE : Nat := NDIRECT + NINDIRECT

def T_DIR : Nat := 1
def T_FILE : Nat := 2
def T_DEV : Nat := 3

/-- The fields of the superblock that `balloc` and `ialloc` read.  `mkfs` writes `nblocks = size - nmeta`, so the
data blocks start after the `nmeta` metadata blocks, of which there is at least the boot block. -/
structure Superblock where
  size : Nat
  nblocks : Nat
  ninodes : Nat
  nblocks_lt_size : nblocks < size

/-- The first data block, `nmeta` in `mkfs`. -/
def dataStart (sb : Superblock) : Nat := sb.size - sb.nblocks

theorem dataStart_pos (sb : Superblock) : 0 < dataStart sb := by
  have := sb.nblocks_lt_size
  unfold dataStart
  omega

/-- The fields of `struct dinode` that the block code reads and writes. -/
structure Dinode where
  type : Nat := 0
  nlink : Nat := 0
  size : Nat := 0
  addrs : Nat → Nat := fun _ => 0

/-- The disk: the bitmap bit of each block, the dinodes by number, and each block's `uint` words. -/
structure Fs where
  bitmap : Nat → Bool
  dinode : Nat → Dinode
  words : Nat → Nat → Nat

namespace Fs

/-- Write dinode `i` back, changed by `f` (the `iupdate` after a change to `ip`). -/
def setInode (s : Fs) (i : Nat) (f : Dinode → Dinode) : Fs :=
  { s with dinode := Function.update s.dinode i (f (s.dinode i)) }

/-- `ip->addrs[k] = b`. -/
def setAddr (s : Fs) (i k b : Nat) : Fs :=
  s.setInode i fun ip => { ip with addrs := Function.update ip.addrs k b }

/-- Block `blk` gets the words `w`. -/
def setBlock (s : Fs) (blk : Nat) (w : Nat → Nat) : Fs :=
  { s with words := Function.update s.words blk w }

/-- Word `j` of block `blk` becomes `x`: `a[bn] = addr` in `bmap`. -/
def setWord (s : Fs) (blk j x : Nat) : Fs :=
  s.setBlock blk (Function.update (s.words blk) j x)

theorem setInode_dinode (s : Fs) (i : Nat) (f : Dinode → Dinode) (j : Nat) :
    (s.setInode i f).dinode j = if j = i then f (s.dinode i) else s.dinode j := by
  simp [setInode, Function.update_apply]

@[simp] theorem setInode_words (s : Fs) (i : Nat) (f : Dinode → Dinode) : (s.setInode i f).words = s.words := rfl
@[simp] theorem setInode_bitmap (s : Fs) (i : Nat) (f : Dinode → Dinode) : (s.setInode i f).bitmap = s.bitmap := rfl
@[simp] theorem setBlock_dinode (s : Fs) (blk : Nat) (w : Nat → Nat) : (s.setBlock blk w).dinode = s.dinode := rfl
@[simp] theorem setBlock_bitmap (s : Fs) (blk : Nat) (w : Nat → Nat) : (s.setBlock blk w).bitmap = s.bitmap := rfl

@[simp] theorem setAddr_words (s : Fs) (i k b : Nat) : (s.setAddr i k b).words = s.words := rfl
@[simp] theorem setAddr_bitmap (s : Fs) (i k b : Nat) : (s.setAddr i k b).bitmap = s.bitmap := rfl

@[simp] theorem setAddr_type (s : Fs) (i k b j : Nat) : ((s.setAddr i k b).dinode j).type = (s.dinode j).type := by
  by_cases hj : j = i <;> simp [setAddr, setInode_dinode, hj]

end Fs

/-! ### The functions of `fs.c` -/

/-- `balloc`: the bitmap is scanned from block 0 up to `sb.size`, and the first block whose bit is clear is marked
in use and zeroed by `bzero`.  `none` is the panic "balloc: out of blocks". -/
def balloc (sb : Superblock) (s : Fs) : Option (Nat × Fs) :=
  ((List.range sb.size).find? fun b => !s.bitmap b).map fun b =>
    (b, { s with bitmap := Function.update s.bitmap b true }.setBlock b fun _ => 0)

/-- `bfree(dev, b)`: clears the bit of `b`; `none` is the panic "freeing free block". -/
def bfree (s : Fs) (b : Nat) : Option Fs :=
  if s.bitmap b then some { s with bitmap := Function.update s.bitmap b false } else none

/-- The idiom of `bmap`, `if((addr = slot) == 0) slot = addr = balloc(dev)`: the block in a slot holding `addr`,
allocated with `balloc` and stored by `store` when the slot holds 0. -/
def allocSlot (sb : Superblock) (s : Fs) (addr : Nat) (store : Fs → Nat → Fs) : Option (Nat × Fs) :=
  if addr = 0 then (balloc sb s).map fun (b, s) => (b, store s b) else some (addr, s)

/-- `bmap(ip, bn)`: the `bn`-th block of inode `i`, allocated if it has none; for `bn ≥ NDIRECT` the indirect block
is allocated first if needed.  `none` is a panic of `balloc` or "bmap: out of range". -/
def bmap (sb : Superblock) (s : Fs) (i bn : Nat) : Option (Nat × Fs) :=
  if bn < NDIRECT then
    allocSlot sb s ((s.dinode i).addrs bn) fun s b => s.setAddr i bn b
  else if bn - NDIRECT < NINDIRECT then do
    let (ind, s) ← allocSlot sb s ((s.dinode i).addrs NDIRECT) fun s b => s.setAddr i NDIRECT b
    allocSlot sb s (s.words ind (bn - NDIRECT)) fun s b => s.setWord ind (bn - NDIRECT) b
  else none

/-- A round of the first loop of `itrunc`: the direct block `k`, if any, is freed and its address cleared. -/
def itruncDirect (i : Nat) (s : Fs) (k : Nat) : Option Fs :=
  if (s.dinode i).addrs k ≠ 0 then (bfree s ((s.dinode i).addrs k)).map fun s => s.setAddr i k 0 else some s

/-- A round of the second loop of `itrunc`, over the words `a` of the indirect block read before it. -/
def itruncEntry (a : Nat → Nat) (s : Fs) (j : Nat) : Option Fs :=
  if a j ≠ 0 then bfree s (a j) else some s

/-- The second half of `itrunc`: when the inode has an indirect block, the blocks it lists, read before the loop,
are freed, then the indirect block itself, and `addrs[NDIRECT]` is cleared. -/
def itruncIndirect (s : Fs) (i : Nat) : Option Fs :=
  if (s.dinode i).addrs NDIRECT ≠ 0 then do
    let s ← (List.range NINDIRECT).foldlM (itruncEntry (s.words ((s.dinode i).addrs NDIRECT))) s
    let s ← bfree s ((s.dinode i).addrs NDIRECT)
    pure (s.setAddr i NDIRECT 0)
  else some s

/-- `itrunc(ip)`: frees the direct blocks, then the indirect ones, and sets the size to 0. -/
def itrunc (s : Fs) (i : Nat) : Option Fs := do
  let s ← (List.range NDIRECT).foldlM (itruncDirect i) s
  let s ← itruncIndirect s i
  pure (s.setInode i fun ip => { ip with size := 0 })

/-- `ialloc(dev, type)`: the first inode from 1 below `sb.ninodes` with type 0 is cleared and given `type`; `none`
is the panic "ialloc: no inodes". -/
def ialloc (sb : Superblock) (s : Fs) (type : Nat) : Option (Nat × Fs) :=
  ((List.range' 1 (sb.ninodes - 1)).find? fun inum => (s.dinode inum).type == 0).map fun inum =>
    (inum, s.setInode inum fun _ => { type })

/-- The loop of `writei`: `tot` of the `n` bytes copied, the next one at byte `off` of the file.  Each round maps
the block of `off` with `bmap` and copies up to the end of that block into it; the block's words after the copy
are `src` of its number in the file. -/
def writeiLoop (sb : Superblock) (i n : Nat) (src : Nat → Nat → Nat) (tot off : Nat) (s : Fs) : Option Fs :=
  if _h : tot < n then do
    let (b, s) ← bmap sb s i (off / BSIZE)
    let m := min (n - tot) (BSIZE - off % BSIZE)
    writeiLoop sb i n src (tot + m) (off + m) (s.setBlock b (src (off / BSIZE)))
  else some s
termination_by n - tot
decreasing_by
  have hoff : off % BSIZE < BSIZE := Nat.mod_lt _ (by decide)
  omega

/-- `writei(ip, src, off, n)` on the disk.  A device's write touches no block; the count `writei` returns is left
out. -/
def writei (sb : Superblock) (s : Fs) (i : Nat) (src : Nat → Nat → Nat) (off n : Nat) : Option Fs :=
  if (s.dinode i).type = T_DEV then some s
  else if off > (s.dinode i).size ∨ UINT_MOD ≤ off + n then some s
  else if off + n > MAXFILE * BSIZE then some s
  else (writeiLoop sb i n src 0 off s).map fun s =>
    if n > 0 ∧ off + n > (s.dinode i).size then s.setInode i fun ip => { ip with size := off + n } else s

/-- `iput(ip)` on the disk: when `ip` held the last reference (`last`, `ip->ref == 1`) to a valid inode with no
links, the inode is truncated and its type set to 0. -/
def iput (s : Fs) (i : Nat) (last : Bool) : Option Fs :=
  if (s.dinode i).type ≠ 0 ∧ (s.dinode i).nlink = 0 ∧ last = true then
    (itrunc s i).map fun s => s.setInode i fun ip => { ip with type := 0 }
  else some s

/-- The operations of the file-system calls on the disk, each under the inode's lock, so that `ilock` has read the
inode and panicked ("ilock: no type") if its type is 0.  `create` is an `ialloc`, a `link` of the new inode (its
`nlink = 1`) and `writei`s of directory entries; `sys_link` and `sys_unlink` are a `link` or an `unlink` and a
`writei` of the directory. -/
inductive FsOp
  | ialloc (type : Nat)
  | writei (i : Nat) (src : Nat → Nat → Nat) (off n : Nat)
  | link (i : Nat)
  | unlink (i : Nat)
  | iput (i : Nat) (last : Bool)

def fsStep (sb : Superblock) (s : Fs) : FsOp → Option Fs
  | .ialloc type => (ialloc sb s type).map Prod.snd
  | .writei i src off n => if (s.dinode i).type = 0 then none else writei sb s i src off n
  | .link i => if (s.dinode i).type = 0 then none else some (s.setInode i fun ip => { ip with nlink := ip.nlink + 1 })
  | .unlink i =>
    if (s.dinode i).type = 0 then none
    -- the panic "unlink: nlink < 1"
    else if (s.dinode i).nlink < 1 then none
    else some (s.setInode i fun ip => { ip with nlink := ip.nlink - 1 })
  | .iput i last => iput s i last

/-! ### The image `mkfs` writes -/

def NINODES : Nat := 200
def ROOTINO : Nat := 1
/-- `IPB`: dinodes per block; a `struct dinode` takes 64 bytes. -/
def IPB : Nat := BSIZE / 64

/-- `nmeta`: the boot block, the superblock, the log, the inode blocks and the bitmap. -/
def nmeta : Nat := 2 + LOGSIZE + (NINODES / IPB + 1) + (FSSIZE / (BSIZE * 8) + 1)

def mkfsSb : Superblock := ⟨FSSIZE, FSSIZE - nmeta, NINODES, by decide⟩

/-- The disk `mkfs` writes with no file besides the root directory: `ROOTINO` is a directory with one link whose
entries "." and ".." sit in block `nmeta`, the size rounded up to a block, and the bitmap marks the blocks below
`freeblock = nmeta + 1`.  The words of the blocks are what `mkfs` wrote. -/
def mkfsImage (words : Nat → Nat → Nat) : Fs where
  bitmap b := decide (b < nmeta + 1)
  dinode i :=
    if i = ROOTINO then { type := T_DIR, nlink := 1, size := BSIZE, addrs := fun k => if k = 0 then nmeta else 0 }
    else {}
  words := words

/-! ### Positions of blocks -/

/-- The block at position `k` of inode `i`; 0 for none. -/
def blockAt (s : Fs) (i k : Nat) : Nat :=
  if k ≤ NDIRECT then (s.dinode i).addrs k
  else if (s.dinode i).addrs NDIRECT = 0 then 0
  else s.words ((s.dinode i).addrs NDIRECT) (k - (NDIRECT + 1))

/-- The position of block `bn` of a file: the entries of the indirect block come after `addrs[NDIRECT]`. -/
def filePos (bn : Nat) : Nat := if bn < NDIRECT then bn else bn + 1

theorem filePos_ne_indirect (bn : Nat) : filePos bn ≠ NDIRECT := by
  unfold filePos
  split <;> omega

theorem blockAt_direct (s : Fs) {i k : Nat} (hk : k ≤ NDIRECT) : blockAt s i k = (s.dinode i).addrs k := by
  simp [blockAt, hk]

/-- An inode whose addresses are all 0 holds no block. -/
theorem blockAt_eq_zero {s : Fs} {i : Nat} (h : ∀ k ≤ NDIRECT, (s.dinode i).addrs k = 0) (k : Nat) :
    blockAt s i k = 0 := by
  unfold blockAt
  by_cases hk : k ≤ NDIRECT
  · rw [if_pos hk, h k hk]
  · rw [if_neg hk, if_pos (h NDIRECT (Nat.le_refl _))]

/-- The blocks of inode `j` depend on its dinode and on the words of the disk only. -/
theorem blockAt_congr {s s' : Fs} {j : Nat} (hd : s'.dinode j = s.dinode j) (hw : s'.words = s.words) (k : Nat) :
    blockAt s' j k = blockAt s j k := by
  simp [blockAt, hd, hw]

@[simp] theorem blockAt_bitmap (s : Fs) (f : Nat → Bool) (i k : Nat) :
    blockAt { s with bitmap := f } i k = blockAt s i k := rfl

theorem blockAt_setInode_ne (s : Fs) {i j : Nat} (f : Dinode → Dinode) (h : j ≠ i) (k : Nat) :
    blockAt (s.setInode i f) j k = blockAt s j k := by
  simp [blockAt, Fs.setInode, Function.update_of_ne h]

/-- An update of dinode `i` that keeps its addresses keeps its blocks. -/
theorem blockAt_setInode_addrs (s : Fs) (i : Nat) {f : Dinode → Dinode} (hf : (f (s.dinode i)).addrs = (s.dinode i).addrs)
    (j k : Nat) : blockAt (s.setInode i f) j k = blockAt s j k := by
  by_cases hj : j = i
  · subst hj
    simp [blockAt, Fs.setInode, hf]
  · exact blockAt_setInode_ne s f hj k

/-- New words for a block change only the positions that read them: the entries of an indirect block. -/
theorem blockAt_setBlock (s : Fs) (blk : Nat) (w : Nat → Nat) (i k : Nat) :
    blockAt (s.setBlock blk w) i k =
      if NDIRECT < k ∧ (s.dinode i).addrs NDIRECT ≠ 0 ∧ (s.dinode i).addrs NDIRECT = blk then w (k - (NDIRECT + 1))
      else blockAt s i k := by
  unfold blockAt Fs.setBlock
  by_cases hk : k ≤ NDIRECT
  · have hlt : ¬ NDIRECT < k := by omega
    simp [hk, hlt]
  · have hlt : NDIRECT < k := by omega
    by_cases h0 : (s.dinode i).addrs NDIRECT = 0
    · simp [hk, h0]
    · by_cases hb : (s.dinode i).addrs NDIRECT = blk
      · subst hb
        simp [hk, hlt, h0]
      · simp [hk, h0, hb]

/-- A block that is not the indirect block of inode `i` can be rewritten without changing `i`'s blocks. -/
theorem blockAt_setBlock_of_ne (s : Fs) {blk : Nat} (w : Nat → Nat) {i : Nat}
    (h : (s.dinode i).addrs NDIRECT ≠ 0 → (s.dinode i).addrs NDIRECT ≠ blk) (k : Nat) :
    blockAt (s.setBlock blk w) i k = blockAt s i k := by
  rw [blockAt_setBlock, if_neg]
  rintro ⟨_, h0, hb⟩
  exact h h0 hb

/-- Setting a direct address changes that position only. -/
theorem blockAt_setAddr_direct (s : Fs) {i k : Nat} (hk : k < NDIRECT) (b k' : Nat) :
    blockAt (s.setAddr i k b) i k' = if k' = k then b else blockAt s i k' := by
  have hN : NDIRECT ≠ k := by omega
  by_cases hk' : k' = k
  · subst hk'
    simp [blockAt, Fs.setAddr, Fs.setInode, Nat.le_of_lt hk]
  · simp [blockAt, Fs.setAddr, Fs.setInode, hk', Function.update_of_ne hN]

/-- Setting the indirect address to `b` makes the entries read the words of `b`. -/
theorem blockAt_setAddr_indirect (s : Fs) (i b k' : Nat) :
    blockAt (s.setAddr i NDIRECT b) i k' =
      if k' < NDIRECT then blockAt s i k' else if k' = NDIRECT then b
      else if b = 0 then 0 else s.words b (k' - (NDIRECT + 1)) := by
  unfold blockAt Fs.setAddr Fs.setInode
  by_cases hlt : k' < NDIRECT
  · have hne : k' ≠ NDIRECT := by omega
    simp [hlt, Nat.le_of_lt hlt, hne]
  · by_cases heq : k' = NDIRECT
    · subst heq
      simp
    · have hgt : ¬ k' ≤ NDIRECT := by omega
      simp [hlt, heq, hgt]

/-- Word `j` of block `blk` is the position `NDIRECT + 1 + j` of an inode whose indirect block is `blk`. -/
theorem blockAt_setWord (s : Fs) (blk j x i k : Nat) :
    blockAt (s.setWord blk j x) i k =
      if NDIRECT < k ∧ (s.dinode i).addrs NDIRECT ≠ 0 ∧ (s.dinode i).addrs NDIRECT = blk ∧ k - (NDIRECT + 1) = j
      then x else blockAt s i k := by
  rw [Fs.setWord, blockAt_setBlock]
  by_cases hc : NDIRECT < k ∧ (s.dinode i).addrs NDIRECT ≠ 0 ∧ (s.dinode i).addrs NDIRECT = blk
  · obtain ⟨hk, h0, hb⟩ := hc
    subst hb
    have hread : blockAt s i k = s.words ((s.dinode i).addrs NDIRECT) (k - (NDIRECT + 1)) := by
      simp [blockAt, show ¬ k ≤ NDIRECT by omega, h0]
    by_cases hj : k - (NDIRECT + 1) = j
    · simp [hk, h0, hj]
    · simp [hk, h0, hj, hread]
  · rw [if_neg hc, if_neg]
    rintro ⟨hk, h0, hb, _⟩
    exact hc ⟨hk, h0, hb⟩

/-! ### The allocator -/

/-- What `balloc` returns: a block below `sb.size` whose bit was clear, now set, with its words zeroed. -/
theorem balloc_spec {sb : Superblock} {s s' : Fs} {b : Nat} (h : balloc sb s = some (b, s')) :
    b < sb.size ∧ s.bitmap b = false ∧
      s' = { s with bitmap := Function.update s.bitmap b true }.setBlock b fun _ => 0 := by
  unfold balloc at h
  obtain ⟨b₀, hfind, hpair⟩ := Option.map_eq_some_iff.1 h
  cases hpair
  have hmem := List.mem_of_find?_eq_some hfind
  have hfree := List.find?_some hfind
  refine ⟨List.mem_range.1 hmem, ?_, rfl⟩
  simpa using hfree

/-- `allocSlot` returns the block already in the slot, or a block `balloc` allocated, stored. -/
theorem allocSlot_spec {sb : Superblock} {s s' : Fs} {addr b : Nat} {store : Fs → Nat → Fs}
    (h : allocSlot sb s addr store = some (b, s')) :
    (addr ≠ 0 ∧ b = addr ∧ s' = s) ∨ (addr = 0 ∧ ∃ s₁, balloc sb s = some (b, s₁) ∧ s' = store s₁ b) := by
  unfold allocSlot at h
  by_cases h0 : addr = 0
  · rw [if_pos h0] at h
    obtain ⟨⟨b₁, s₁⟩, hb, hpair⟩ := Option.map_eq_some_iff.1 h
    cases hpair
    exact .inr ⟨h0, s₁, hb, rfl⟩
  · rw [if_neg h0] at h
    cases h
    exact .inl ⟨h0, rfl, rfl⟩

end Xv6
