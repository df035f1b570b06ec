import Mathlib.Tactic.SplitIfs
import Xv6.Fs.Block
import Xv6.Lib.StepSys

/-!
# Who holds a disk block

`BlocksOk` is the ownership invariant of the block layer: every block an allocated inode holds, at a direct
address, as its indirect block or as an entry of its indirect block, is a data block, is marked in the bitmap, and
is held at no other position of any inode; the metadata blocks stay marked.  Two rules carry it through every
operation: `BlocksOk.mono` for a step that adds no holding and clears only bits of blocks no remaining holding
needs, and `BlocksOk.extend` for a step that puts a block whose bit was clear at one empty position.  `bmap` is
three uses of the second; `itrunc` is computed in closed form (`itrunc_spec`): it frees exactly the blocks the
inode held.
-/

namespace Xv6

/-- Inode `i` is allocated and holds a block at position `k`. -/
def Holds (s : Fs) (i k : Nat) : Prop :=
  (s.dinode i).type ≠ 0 ∧ k < NDIRECT + 1 + NINDIRECT ∧ blockAt s i k ≠ 0

/-- Inode `i` holds block `b`, at some position. -/
def HeldBy (s : Fs) (i b : Nat) : Prop := ∃ k, Holds s i k ∧ blockAt s i k = b

structure BlocksOk (sb : Superblock) (s : Fs) : Prop where
  meta_marked : ∀ b < dataStart sb, s.bitmap b = true
  data_block : ∀ {i k}, Holds s i k → dataStart sb ≤ blockAt s i k ∧ blockAt s i k < sb.size
  marked : ∀ {i k}, Holds s i k → s.bitmap (blockAt s i k) = true
  unique : ∀ {i k i' k'}, Holds s i k → Holds s i' k' → blockAt s i k = blockAt s i' k' → i = i' ∧ k = k'

theorem holds_indirect {s : Fs} {i : Nat} (ht : (s.dinode i).type ≠ 0) (h0 : (s.dinode i).addrs NDIRECT ≠ 0) :
    Holds s i NDIRECT ∧ blockAt s i NDIRECT = (s.dinode i).addrs NDIRECT := by
  have hread : blockAt s i NDIRECT = (s.dinode i).addrs NDIRECT := by simp [blockAt]
  exact ⟨⟨ht, by decide, by rwa [hread]⟩, hread⟩

/-- Entry `j` of the indirect block is position `NDIRECT + 1 + j`. -/
theorem blockAt_entry (s : Fs) (i j : Nat) (h0 : (s.dinode i).addrs NDIRECT ≠ 0) :
    blockAt s i (NDIRECT + 1 + j) = s.words ((s.dinode i).addrs NDIRECT) j := by
  have hk : ¬ NDIRECT + 1 + j ≤ NDIRECT := by omega
  simp [blockAt, h0, hk]

namespace BlocksOk

variable {sb : Superblock} {s s' : Fs}

/-- A block whose bit is clear is held by no inode. -/
theorem not_held (hok : BlocksOk sb s) {b : Nat} (hb : s.bitmap b = false) {i k : Nat} (h : Holds s i k) :
    blockAt s i k ≠ b := by
  intro heq
  have hm := hok.marked h
  rw [heq, hb] at hm
  cases hm

/-- A block whose bit is clear is a data block: the metadata stay marked. -/
theorem data_of_free (hok : BlocksOk sb s) {b : Nat} (hb : s.bitmap b = false) : dataStart sb ≤ b := by
  by_contra hlt
  have hm := hok.meta_marked b (by omega)
  rw [hb] at hm
  cases hm

private theorem indirect_ne_free (hok : BlocksOk sb s) {b i : Nat} (hb : s.bitmap b = false) (ht : (s.dinode i).type ≠ 0) :
    (s.dinode i).addrs NDIRECT ≠ 0 → (s.dinode i).addrs NDIRECT ≠ b := by
  intro h0
  obtain ⟨hh, hread⟩ := holds_indirect ht h0
  rw [← hread]
  exact hok.not_held hb hh

/-- A step that adds no holding, and clears no bit that the metadata or a remaining holding needs, keeps the
invariant. -/
theorem mono (hok : BlocksOk sb s)
    (hh : ∀ {i k}, Holds s' i k → Holds s i k ∧ blockAt s' i k = blockAt s i k)
    (hmeta : ∀ b < dataStart sb, s.bitmap b = true → s'.bitmap b = true)
    (hkeep : ∀ {i k}, Holds s' i k → s.bitmap (blockAt s i k) = true → s'.bitmap (blockAt s i k) = true) :
    BlocksOk sb s' where
  meta_marked b hb := hmeta b hb (hok.meta_marked b hb)
  data_block h := by
    obtain ⟨h₀, heq⟩ := hh h
    rw [heq]
    exact hok.data_block h₀
  marked h := by
    obtain ⟨h₀, heq⟩ := hh h
    rw [heq]
    exact hkeep h (hok.marked h₀)
  unique h h' heq := by
    obtain ⟨h₀, e⟩ := hh h
    obtain ⟨h₀', e'⟩ := hh h'
    exact hok.unique h₀ h₀' (by rw [← e, ← e', heq])

/-- `mono` for a step that clears no bit and keeps the type and the blocks of every allocated inode. -/
theorem of_frame (hok : BlocksOk sb s) (htype : ∀ i, (s'.dinode i).type = (s.dinode i).type)
    (hblk : ∀ {i} k, (s.dinode i).type ≠ 0 → blockAt s' i k = blockAt s i k)
    (hbits : ∀ b, s.bitmap b = true → s'.bitmap b = true) : BlocksOk sb s' := by
  refine hok.mono (fun {i k} h => ?_) (fun b _ => hbits b) (fun _ => hbits _)
  obtain ⟨ht, hk, h0⟩ := h
  rw [htype] at ht
  rw [hblk k ht] at h0 ⊢
  exact ⟨⟨ht, hk, h0⟩, rfl⟩

/-- A step that puts a block `b` whose bit was clear at position `k` of inode `i`, marks it, and keeps every other
holding, keeps the invariant. -/
theorem extend (hok : BlocksOk sb s) {i k b : Nat} (hfree : s.bitmap b = false) (hb : b < sb.size)
    (hnew : Holds s' i k → blockAt s' i k = b)
    (hother : ∀ {i' k'}, ¬ (i' = i ∧ k' = k) → Holds s' i' k' → Holds s i' k' ∧ blockAt s' i' k' = blockAt s i' k')
    (hbits : ∀ b', s.bitmap b' = true → s'.bitmap b' = true) (hbit : s'.bitmap b = true) : BlocksOk sb s' where
  meta_marked b' hb' := hbits b' (hok.meta_marked b' hb')
  data_block {i' k'} h := by
    by_cases hp : i' = i ∧ k' = k
    · obtain ⟨rfl, rfl⟩ := hp
      rw [hnew h]
      exact ⟨hok.data_of_free hfree, hb⟩
    · obtain ⟨h₀, heq⟩ := hother hp h
      rw [heq]
      exact hok.data_block h₀
  marked {i' k'} h := by
    by_cases hp : i' = i ∧ k' = k
    · obtain ⟨rfl, rfl⟩ := hp
      rw [hnew h]
      exact hbit
    · obtain ⟨h₀, heq⟩ := hother hp h
      rw [heq]
      exact hbits _ (hok.marked h₀)
  unique {i₁ k₁ i₂ k₂} h₁ h₂ heq := by
    by_cases hp₁ : i₁ = i ∧ k₁ = k <;> by_cases hp₂ : i₂ = i ∧ k₂ = k
    · exact ⟨hp₁.1.trans hp₂.1.symm, hp₁.2.trans hp₂.2.symm⟩
    -- the new holding shares its block with no old one: the block was free
    · obtain ⟨rfl, rfl⟩ := hp₁
      obtain ⟨h₀, e⟩ := hother hp₂ h₂
      exact absurd (by rw [← e, ← heq, hnew h₁]) (hok.not_held hfree h₀)
    · obtain ⟨rfl, rfl⟩ := hp₂
      obtain ⟨h₀, e⟩ := hother hp₁ h₁
      exact absurd (by rw [← e, heq, hnew h₂]) (hok.not_held hfree h₀)
    · obtain ⟨h₀, e⟩ := hother hp₁ h₁
      obtain ⟨h₀', e'⟩ := hother hp₂ h₂
      exact hok.unique h₀ h₀' (by rw [← e, ← e', heq])

end BlocksOk

/-- `s'` keeps every block an allocated inode of `s` holds, at its position, and every bit set in `s`; a bit it
sets anew is of a block some inode holds in `s'`.  Allocation and writing grow the disk this way. -/
structure Grows (s s' : Fs) : Prop where
  keeps : ∀ {j k}, Holds s j k → Holds s' j k ∧ blockAt s' j k = blockAt s j k
  old_bits : ∀ b, s.bitmap b = true → s'.bitmap b = true
  new_bits : ∀ b, s'.bitmap b = true → s.bitmap b = true ∨ ∃ j, HeldBy s' j b

theorem Grows.refl (s : Fs) : Grows s s :=
  ⟨fun h => ⟨h, rfl⟩, fun _ h => h, fun _ h => .inl h⟩

theorem Grows.trans {s₁ s₂ s₃ : Fs} (h₁ : Grows s₁ s₂) (h₂ : Grows s₂ s₃) : Grows s₁ s₃ where
  keeps hh := by
    obtain ⟨hh₂, e₂⟩ := h₁.keeps hh
    obtain ⟨hh₃, e₃⟩ := h₂.keeps hh₂
    exact ⟨hh₃, e₃.trans e₂⟩
  old_bits b hb := h₂.old_bits b (h₁.old_bits b hb)
  new_bits b hb := by
    rcases h₂.new_bits b hb with hb₂ | hheld
    · rcases h₁.new_bits b hb₂ with hb₁ | ⟨j, k, hh, rfl⟩
      · exact .inl hb₁
      -- a block held in the middle state is still held at the end
      · obtain ⟨hh₃, e₃⟩ := h₂.keeps hh
        exact .inr ⟨j, k, hh₃, e₃⟩
    · exact .inr hheld

/-- A step that keeps the bitmap, and the type and the blocks of every allocated inode, grows the disk. -/
theorem Grows.of_frame {s s' : Fs} (htype : ∀ i, (s'.dinode i).type = (s.dinode i).type)
    (hblk : ∀ {i} k, (s.dinode i).type ≠ 0 → blockAt s' i k = blockAt s i k) (hbits : s'.bitmap = s.bitmap) :
    Grows s s' where
  keeps {j k} hh := by
    obtain ⟨ht, hk, h0⟩ := hh
    rw [← hblk k ht] at h0
    exact ⟨⟨by rw [htype]; exact ht, hk, h0⟩, hblk k ht⟩
  old_bits b hb := by rw [hbits]; exact hb
  new_bits b hb := by rw [hbits] at hb; exact .inl hb

/-! ### Allocation: `balloc` and `bmap` -/

section Alloc

variable {sb : Superblock} {s s' : Fs}

theorem balloc_dinode {b : Nat} {s₁ : Fs} (h : balloc sb s = some (b, s₁)) : s₁.dinode = s.dinode := by
  obtain ⟨_, _, rfl⟩ := balloc_spec h
  rfl

theorem balloc_bitmap {b : Nat} {s₁ : Fs} (h : balloc sb s = some (b, s₁)) (b' : Nat) :
    s₁.bitmap b' = true ↔ b' = b ∨ s.bitmap b' = true := by
  obtain ⟨_, _, rfl⟩ := balloc_spec h
  by_cases hb : b' = b
  · subst hb
    simp
  · simp [hb]

/-- `balloc` changes no holding: the block it zeroes is free, so it is no allocated inode's indirect block. -/
theorem balloc_blockAt (hok : BlocksOk sb s) {b : Nat} {s₁ : Fs} (h : balloc sb s = some (b, s₁)) {j : Nat}
    (ht : (s.dinode j).type ≠ 0) (k : Nat) : blockAt s₁ j k = blockAt s j k := by
  obtain ⟨_, hfree, rfl⟩ := balloc_spec h
  exact blockAt_setBlock_of_ne _ _ (hok.indirect_ne_free hfree ht) k

/-- Storing block `b` at position `k` of inode `i` turns `s₁` into `s₂`: the block is there, and no bit, no type
and no other block of an inode allocated in `s` changes. -/
structure StoresAt (s s₁ s₂ : Fs) (i k b : Nat) : Prop where
  at_pos : blockAt s₂ i k = b
  bitmap_eq : s₂.bitmap = s₁.bitmap
  type_eq : ∀ j, (s₂.dinode j).type = (s₁.dinode j).type
  other : ∀ {j k'}, ¬ (j = i ∧ k' = k) → (s.dinode j).type ≠ 0 → blockAt s₂ j k' = blockAt s₁ j k'

/-- `ip->addrs[bn] = balloc(dev)` for a direct block. -/
theorem stores_setAddr_direct {s₁ : Fs} {i k : Nat} (hk : k < NDIRECT) (b : Nat) :
    StoresAt s s₁ (s₁.setAddr i k b) i k b where
  at_pos := by rw [blockAt_setAddr_direct _ hk, if_pos rfl]
  bitmap_eq := rfl
  type_eq _ := Fs.setAddr_type _ _ _ _ _
  other {j k'} hne _ := by
    by_cases hj : j = i
    · subst hj
      rw [blockAt_setAddr_direct _ hk, if_neg (fun h => hne ⟨rfl, h⟩)]
    · exact blockAt_setInode_ne _ _ hj k'

/-- `ip->addrs[NDIRECT] = balloc(dev)`: a freshly zeroed indirect block for an inode that had none; its entries
read zero words, as they read nothing before. -/
theorem stores_setAddr_indirect {s₁ : Fs} {i b : Nat} (h0 : (s₁.dinode i).addrs NDIRECT = 0)
    (hz : s₁.words b = fun _ => 0) : StoresAt s s₁ (s₁.setAddr i NDIRECT b) i NDIRECT b where
  at_pos := by
    rw [blockAt_setAddr_indirect]
    simp
  bitmap_eq := rfl
  type_eq _ := Fs.setAddr_type _ _ _ _ _
  other {j k'} hne _ := by
    by_cases hj : j = i
    · subst hj
      have hk : k' ≠ NDIRECT := fun h => hne ⟨rfl, h⟩
      rw [blockAt_setAddr_indirect]
      by_cases hlt : k' < NDIRECT
      · rw [if_pos hlt]
      · have hgt : ¬ k' ≤ NDIRECT := by omega
        simp [hlt, hk, hz, blockAt, hgt, h0]
    · exact blockAt_setInode_ne _ _ hj k'

/-- `a[bn] = balloc(dev)` in the indirect block `ind` of inode `i`: no other inode has `ind` as its indirect
block, so only the position of the entry changes. -/
theorem stores_setWord (hok : BlocksOk sb s) {i ind : Nat} (ht : (s.dinode i).type ≠ 0)
    (hind0 : (s.dinode i).addrs NDIRECT ≠ 0) (hind : (s.dinode i).addrs NDIRECT = ind) {s₁ : Fs}
    (hd : s₁.dinode = s.dinode) (j₀ b : Nat) :
    StoresAt s s₁ (s₁.setWord ind j₀ b) i (NDIRECT + 1 + j₀) b where
  at_pos := by
    rw [blockAt_setWord, if_pos]
    refine ⟨by omega, by rw [hd]; exact hind0, by rw [hd]; exact hind, by omega⟩
  bitmap_eq := rfl
  type_eq _ := rfl
  other {j k'} hne hj := by
    rw [blockAt_setWord, if_neg]
    rintro ⟨hk', hj0, hjind, hjk⟩
    rw [hd] at hj0 hjind
    -- an inode whose indirect block is `ind` is `i`: `ind` has one holder
    obtain ⟨hhj, hreadj⟩ := holds_indirect hj hj0
    obtain ⟨hhi, hreadi⟩ := holds_indirect ht hind0
    have hji := hok.unique hhj hhi (by rw [hreadj, hreadi, hjind, hind])
    exact hne ⟨hji.1, by omega⟩

/-- One `allocSlot` for position `k` of an allocated inode `i`, whose slot holds the block at that position: the
block it returns is held there afterwards, and the invariant holds. -/
theorem allocSlot_blocks_ok (hok : BlocksOk sb s) {i k addr b : Nat} {store : Fs → Nat → Fs}
    (ht : (s.dinode i).type ≠ 0) (hk : k < NDIRECT + 1 + NINDIRECT) (haddr : blockAt s i k = addr)
    (hstore : ∀ s₁ b, addr = 0 → balloc sb s = some (b, s₁) → StoresAt s s₁ (store s₁ b) i k b)
    (h : allocSlot sb s addr store = some (b, s')) :
    BlocksOk sb s' ∧ (∀ j, (s'.dinode j).type = (s.dinode j).type) ∧ Holds s' i k ∧ blockAt s' i k = b ∧
      Grows s s' := by
  rcases allocSlot_spec h with ⟨h0, rfl, rfl⟩ | ⟨h0, s₁, hb, rfl⟩
  · -- the slot already held a block
    exact ⟨hok, fun _ => rfl, ⟨ht, hk, by rw [haddr]; exact h0⟩, haddr, Grows.refl _⟩
  · obtain ⟨hlt, hfree, -⟩ := balloc_spec hb
    have hst := hstore s₁ b h0 hb
    have htype : ∀ j, ((store s₁ b).dinode j).type = (s.dinode j).type := fun j => by
      rw [hst.type_eq, balloc_dinode hb]
    have hpos : 0 < b := Nat.lt_of_lt_of_le (dataStart_pos sb) (hok.data_of_free hfree)
    have hheld : Holds (store s₁ b) i k := ⟨by rw [htype]; exact ht, hk, by rw [hst.at_pos]; omega⟩
    -- every other position keeps its block
    have hsame : ∀ {j k'}, ¬ (j = i ∧ k' = k) → (s.dinode j).type ≠ 0 → blockAt (store s₁ b) j k' = blockAt s j k' :=
      fun hne hj => by rw [hst.other hne hj, balloc_blockAt hok hb hj]
    have hbits : ∀ b', (store s₁ b).bitmap b' = true ↔ b' = b ∨ s.bitmap b' = true := fun b' => by
      rw [hst.bitmap_eq, balloc_bitmap hb]
    refine ⟨hok.extend hfree hlt (fun _ => hst.at_pos) (fun {j k'} hne hh => ?_) (fun b' hb' => (hbits b').2 (.inr hb'))
      ((hbits b).2 (.inl rfl)), htype, hheld, hst.at_pos, ⟨fun {j k'} hh => ?_, fun b' hb' => (hbits b').2 (.inr hb'),
      fun b' hb' => ?_⟩⟩
    · obtain ⟨hj, hk', h0'⟩ := hh
      rw [htype] at hj
      rw [hsame hne hj] at h0' ⊢
      exact ⟨⟨hj, hk', h0'⟩, rfl⟩
    · -- the slot held nothing, so an old holding is at another position
      have hne : ¬ (j = i ∧ k' = k) := by
        rintro ⟨rfl, rfl⟩
        exact hh.2.2 (haddr.trans h0)
      obtain ⟨hj, hk', h0'⟩ := hh
      rw [← hsame hne hj] at h0'
      exact ⟨⟨by rw [htype]; exact hj, hk', h0'⟩, hsame hne hj⟩
    · rcases (hbits b').1 hb' with rfl | hb'
      · exact .inr ⟨i, k, hheld, hst.at_pos⟩
      · exact .inl hb'

/-- `bmap` returns the block at the file position of `bn`, held there afterwards, and keeps the invariant: it
allocates at most the indirect block and one block, each at an empty position. -/
theorem bmap_blocks_ok (hok : BlocksOk sb s) {i bn b : Nat} (ht : (s.dinode i).type ≠ 0)
    (h : bmap sb s i bn = some (b, s')) :
    BlocksOk sb s' ∧ (∀ j, (s'.dinode j).type = (s.dinode j).type) ∧ Holds s' i (filePos bn) ∧
      blockAt s' i (filePos bn) = b ∧ Grows s s' := by
  unfold bmap at h
  by_cases hd : bn < NDIRECT
  · -- a direct block
    rw [if_pos hd] at h
    have hpos : filePos bn = bn := if_pos hd
    rw [hpos]
    exact allocSlot_blocks_ok hok ht (by omega) (by simp [blockAt, Nat.le_of_lt hd])
      (fun _ b _ _ => stores_setAddr_direct hd b) h
  rw [if_neg hd] at h
  have hr : bn - NDIRECT < NINDIRECT := by
    by_contra hr
    rw [if_neg hr] at h
    cases h
  rw [if_pos hr] at h
  obtain ⟨⟨ind, s₁⟩, h₁, h₂⟩ := Option.bind_eq_some_iff.1 h
  -- first the indirect block, allocated if the inode has none
  have hstore₁ : ∀ s₂ b, (s.dinode i).addrs NDIRECT = 0 → balloc sb s = some (b, s₂) →
      StoresAt s s₂ (s₂.setAddr i NDIRECT b) i NDIRECT b := by
    intro s₂ b h0 hb
    obtain ⟨-, -, hz⟩ := balloc_spec hb
    refine stores_setAddr_indirect (by rw [balloc_dinode hb]; exact h0) ?_
    rw [hz]
    simp [Fs.setBlock]
  obtain ⟨hok₁, htype₁, hh₁, hb₁, hg₁⟩ := allocSlot_blocks_ok hok ht (by decide) (by simp [blockAt]) hstore₁ h₁
  -- then the entry `bn - NDIRECT` of the indirect block
  have ht₁ : (s₁.dinode i).type ≠ 0 := by rw [htype₁]; exact ht
  have hread : blockAt s₁ i NDIRECT = (s₁.dinode i).addrs NDIRECT := by simp [blockAt]
  have hind : (s₁.dinode i).addrs NDIRECT = ind := hread.symm.trans hb₁
  have hind0 : (s₁.dinode i).addrs NDIRECT ≠ 0 := by rw [← hread]; exact hh₁.2.2
  have hpos : filePos bn = NDIRECT + 1 + (bn - NDIRECT) := by
    unfold filePos
    rw [if_neg hd]
    omega
  rw [hpos]
  obtain ⟨hok₂, htype₂, hh₂, hb₂, hg₂⟩ := allocSlot_blocks_ok hok₁ ht₁ (by omega)
    (by rw [blockAt_entry _ _ _ hind0, hind])
    (fun _ b _ hb => stores_setWord hok₁ ht₁ hind0 hind (balloc_dinode hb) _ b) h₂
  exact ⟨hok₂, fun j => (htype₂ j).trans (htype₁ j), hh₂, hb₂, hg₁.trans hg₂⟩

end Alloc

/-! ### Writing: `writei` -/

section Write

variable {sb : Superblock} {s s' : Fs}

/-- New words for a block an inode holds anywhere but as its indirect block change no block of an allocated
inode. -/
theorem BlocksOk.blockAt_setBlock_held (hok : BlocksOk sb s) {i k : Nat} (hh : Holds s i k) (hk : k ≠ NDIRECT)
    (w : Nat → Nat) {j : Nat} (hj : (s.dinode j).type ≠ 0) (k' : Nat) :
    blockAt (s.setBlock (blockAt s i k) w) j k' = blockAt s j k' := by
  refine blockAt_setBlock_of_ne _ _ (fun h0 heq => ?_) k'
  -- the block would be `j`'s indirect block, held at position `NDIRECT`, so `k = NDIRECT`
  obtain ⟨hhj, hread⟩ := holds_indirect hj h0
  exact hk (hok.unique hhj hh (hread.trans heq)).2.symm

theorem BlocksOk.setBlock_held (hok : BlocksOk sb s) {i k : Nat} (hh : Holds s i k) (hk : k ≠ NDIRECT)
    (w : Nat → Nat) : BlocksOk sb (s.setBlock (blockAt s i k) w) ∧ Grows s (s.setBlock (blockAt s i k) w) :=
  ⟨hok.of_frame (fun _ => rfl) (fun k' hj => hok.blockAt_setBlock_held hh hk w hj k') (fun _ h => h),
    Grows.of_frame (fun _ => rfl) (fun k' hj => hok.blockAt_setBlock_held hh hk w hj k') rfl⟩

/-- An update of one dinode that keeps its type and its addresses keeps the invariant. -/
theorem BlocksOk.setInode_frame (hok : BlocksOk sb s) {i : Nat} {f : Dinode → Dinode}
    (htype : (f (s.dinode i)).type = (s.dinode i).type) (haddrs : (f (s.dinode i)).addrs = (s.dinode i).addrs) :
    BlocksOk sb (s.setInode i f) ∧ Grows s (s.setInode i f) := by
  have htype' : ∀ j, ((s.setInode i f).dinode j).type = (s.dinode j).type := fun j => by
    by_cases hj : j = i
    · subst hj
      simp [Fs.setInode_dinode, htype]
    · simp [Fs.setInode_dinode, hj]
  exact ⟨hok.of_frame htype' (fun {j} k _ => blockAt_setInode_addrs s i haddrs j k) (fun _ h => h),
    Grows.of_frame htype' (fun {j} k _ => blockAt_setInode_addrs s i haddrs j k) rfl⟩

/-- Every round of the loop of `writei` maps a block with `bmap` and rewrites a data block. -/
theorem writeiLoop_blocks_ok {i n : Nat} {src : Nat → Nat → Nat} (tot off : Nat) {s s' : Fs}
    (hok : BlocksOk sb s) (ht : (s.dinode i).type ≠ 0) (h : writeiLoop sb i n src tot off s = some s') :
    BlocksOk sb s' ∧ (∀ j, (s'.dinode j).type = (s.dinode j).type) ∧ Grows s s' := by
  -- on the bytes left to copy, which every round decreases
  induction hm : n - tot using Nat.strongRecOn generalizing tot off s with
  | _ m ih =>
  rw [writeiLoop] at h
  by_cases hlt : tot < n
  · rw [dif_pos hlt] at h
    obtain ⟨⟨b, s₁⟩, hb, hrest⟩ := Option.bind_eq_some_iff.1 h
    obtain ⟨hok₁, htype₁, hh, hblk, hg₁⟩ := bmap_blocks_ok hok ht hb
    have hok₂ := hok₁.setBlock_held hh (filePos_ne_indirect _) (src (off / BSIZE))
    rw [hblk] at hok₂
    have hoff : off % BSIZE < BSIZE := Nat.mod_lt _ (by decide)
    obtain ⟨hok', htype', hg'⟩ := ih _ (by omega) _ _ hok₂.1 (by simp [htype₁, ht]) hrest rfl
    exact ⟨hok', fun j => (htype' j).trans (htype₁ j), hg₁.trans (hok₂.2.trans hg')⟩
  · rw [dif_neg hlt] at h
    cases h
    exact ⟨hok, fun _ => rfl, Grows.refl _⟩

private theorem writei_blocks_ok (hok : BlocksOk sb s) {i off n : Nat} {src : Nat → Nat → Nat}
    (ht : (s.dinode i).type ≠ 0) (h : writei sb s i src off n = some s') : BlocksOk sb s' ∧ Grows s s' := by
  unfold writei at h
  split_ifs at h
  -- a device, or a write `writei` refuses
  · cases h
    exact ⟨hok, Grows.refl s⟩
  · cases h
    exact ⟨hok, Grows.refl s⟩
  · cases h
    exact ⟨hok, Grows.refl s⟩
  · obtain ⟨s₁, hloop, rfl⟩ := Option.map_eq_some_iff.1 h
    obtain ⟨hok₁, -, hg₁⟩ := writeiLoop_blocks_ok 0 off hok ht hloop
    -- the size grows at the end
    split_ifs
    · have h₂ := hok₁.setInode_frame (i := i) (f := fun ip => { ip with size := off + n }) rfl rfl
      exact ⟨h₂.1, hg₁.trans h₂.2⟩
    · exact ⟨hok₁, hg₁⟩

end Write

/-! ### Freeing: `itrunc` -/

/-- Some `g k` with `k < m` is the nonzero block `b`: `b` is among the blocks a loop over `k < m` frees. -/
def Freed (g : Nat → Nat) (m b : Nat) : Prop := ∃ k < m, g k ≠ 0 ∧ g k = b

private theorem freed_zero (g : Nat → Nat) (b : Nat) : ¬ Freed g 0 b := by
  rintro ⟨k, hk, -⟩
  omega

private theorem freed_succ {g : Nat → Nat} {m b : Nat} : Freed g (m + 1) b ↔ Freed g m b ∨ (g m ≠ 0 ∧ g m = b) := by
  constructor
  · rintro ⟨k, hk, h0, rfl⟩
    by_cases hkm : k = m
    · subst hkm
      exact .inr ⟨h0, rfl⟩
    · exact .inl ⟨k, by omega, h0, rfl⟩
  · rintro (⟨k, hk, h0, rfl⟩ | ⟨h0, rfl⟩)
    · exact ⟨k, by omega, h0, rfl⟩
    · exact ⟨m, by omega, h0, rfl⟩

section Loops

variable {bit₀ bit : Nat → Bool} {g : Nat → Nat} {m : Nat}

/-- A round of a freeing loop that finds no block frees nothing. -/
theorem bits_skip_succ (h : ∀ b, bit b = true ↔ bit₀ b = true ∧ ¬ Freed g m b) (h0 : g m = 0) (b : Nat) :
    bit b = true ↔ bit₀ b = true ∧ ¬ Freed g (m + 1) b := by
  rw [freed_succ, h]
  simp [h0]

/-- A round of a freeing loop that finds the block `g m` clears its bit. -/
theorem bits_free_succ (h : ∀ b, bit b = true ↔ bit₀ b = true ∧ ¬ Freed g m b) (h0 : g m ≠ 0) (b : Nat) :
    Function.update bit (g m) false b = true ↔ bit₀ b = true ∧ ¬ Freed g (m + 1) b := by
  rw [freed_succ]
  by_cases hb : b = g m
  · subst hb
    simp [h0]
  · have hne : ¬ (g m ≠ 0 ∧ g m = b) := fun hc => hb hc.2.symm
    rw [Function.update_of_ne hb, h]
    simp only [hne, or_false]

/-- The block a freeing loop finds in round `m` is still marked: it was marked, and none of the blocks freed before
is the same. -/
theorem still_marked (h : ∀ b, bit b = true ↔ bit₀ b = true ∧ ¬ Freed g m b) (hm : bit₀ (g m) = true)
    (hdist : ∀ k < m, g k ≠ 0 → g k = g m → k = m) : bit (g m) = true := by
  rw [h]
  refine ⟨hm, ?_⟩
  rintro ⟨k, hk, hk0, heq⟩
  have := hdist k hk hk0 heq
  omega

end Loops

/-- After `m` rounds of the first loop of `itrunc`: the direct blocks below `m` are freed and their addresses
cleared, given that they were marked and pairwise distinct. -/
theorem itruncDirect_loop (i : Nat) (s : Fs) : ∀ m,
    (∀ k < m, (s.dinode i).addrs k ≠ 0 → s.bitmap ((s.dinode i).addrs k) = true) →
    (∀ k < m, ∀ k' < m, (s.dinode i).addrs k ≠ 0 → (s.dinode i).addrs k = (s.dinode i).addrs k' → k = k') →
    ∃ s', (List.range m).foldlM (itruncDirect i) s = some s' ∧
      (∀ b, s'.bitmap b = true ↔ s.bitmap b = true ∧ ¬ Freed (s.dinode i).addrs m b) ∧
      s'.words = s.words ∧ (∀ j, j ≠ i → s'.dinode j = s.dinode j) ∧ (s'.dinode i).type = (s.dinode i).type ∧
      ∀ k, (s'.dinode i).addrs k = if k < m then 0 else (s.dinode i).addrs k
  | 0, _, _ => ⟨s, rfl, fun b => by simp [freed_zero], rfl, fun _ _ => rfl, rfl, fun k => by simp⟩
  | m + 1, hmark, hdist => by
    obtain ⟨s₁, h₁, hbit₁, hw₁, hother₁, htype₁, haddr₁⟩ := itruncDirect_loop i s m
      (fun k hk => hmark k (by omega)) (fun k hk k' hk' => hdist k (by omega) k' (by omega))
    have hm : (s₁.dinode i).addrs m = (s.dinode i).addrs m := by rw [haddr₁, if_neg (Nat.lt_irrefl m)]
    rw [List.range_succ, List.foldlM_append, h₁]
    by_cases h0 : (s.dinode i).addrs m = 0
    · -- no block at `m`: the round changes nothing
      refine ⟨s₁, by simp [itruncDirect, hm, h0], bits_skip_succ hbit₁ h0, hw₁, hother₁, htype₁, fun k => ?_⟩
      rw [haddr₁]
      by_cases hk : k = m
      · subst hk
        simp [h0]
      · by_cases hlt : k < m
        · simp [hlt, show k < m + 1 by omega]
        · simp [hlt, show ¬ k < m + 1 by omega]
    · have hmarked := still_marked hbit₁ (hmark m (by omega) h0)
        (fun k hk hk0 heq => hdist k (by omega) m (by omega) hk0 heq)
      refine ⟨{ s₁ with bitmap := Function.update s₁.bitmap ((s.dinode i).addrs m) false }.setAddr i m 0, ?_,
        bits_free_succ hbit₁ h0, hw₁, fun j hj => ?_, by simp [htype₁], fun k => ?_⟩
      · simp [itruncDirect, hm, h0, bfree, hmarked]
      · simp [Fs.setAddr, Fs.setInode_dinode, hj, hother₁ j hj]
      · simp only [Fs.setAddr, Fs.setInode_dinode, if_pos, Function.update_apply, haddr₁]
        by_cases hk : k = m
        · simp [hk]
        · by_cases hlt : k < m
          · simp [hk, hlt, show k < m + 1 by omega]
          · simp [hk, hlt, show ¬ k < m + 1 by omega]

/-- After `m` rounds of the second loop of `itrunc`, over the words `a`: the nonzero words below `m` are freed,
given that they were marked and pairwise distinct. -/
theorem itruncEntry_loop (a : Nat → Nat) (s : Fs) : ∀ m,
    (∀ j < m, a j ≠ 0 → s.bitmap (a j) = true) → (∀ j < m, ∀ j' < m, a j ≠ 0 → a j = a j' → j = j') →
    ∃ s', (List.range m).foldlM (itruncEntry a) s = some s' ∧
      (∀ b, s'.bitmap b = true ↔ s.bitmap b = true ∧ ¬ Freed a m b) ∧ s'.dinode = s.dinode ∧ s'.words = s.words
  | 0, _, _ => ⟨s, rfl, fun b => by simp [freed_zero], rfl, rfl⟩
  | m + 1, hmark, hdist => by
    obtain ⟨s₁, h₁, hbit₁, hd₁, hw₁⟩ := itruncEntry_loop a s m
      (fun j hj => hmark j (by omega)) (fun j hj j' hj' => hdist j (by omega) j' (by omega))
    rw [List.range_succ, List.foldlM_append, h₁]
    by_cases h0 : a m = 0
    · exact ⟨s₁, by simp [itruncEntry, h0], bits_skip_succ hbit₁ h0, hd₁, hw₁⟩
    · have hmarked := still_marked hbit₁ (hmark m (by omega) h0)
        (fun j hj hj0 heq => hdist j (by omega) m (by omega) hj0 heq)
      exact ⟨{ s₁ with bitmap := Function.update s₁.bitmap (a m) false },
        by simp [itruncEntry, h0, bfree, hmarked], bits_free_succ hbit₁ h0, hd₁, hw₁⟩

/-- The blocks of an allocated inode: its direct blocks, its indirect block and the nonzero entries of it. -/
theorem heldBy_iff {s : Fs} {i b : Nat} (ht : (s.dinode i).type ≠ 0) :
    HeldBy s i b ↔ Freed (s.dinode i).addrs NDIRECT b ∨
      ((s.dinode i).addrs NDIRECT ≠ 0 ∧
        ((s.dinode i).addrs NDIRECT = b ∨ Freed (s.words ((s.dinode i).addrs NDIRECT)) NINDIRECT b)) := by
  constructor
  · rintro ⟨k, ⟨-, hk, h0⟩, rfl⟩
    rcases Nat.lt_trichotomy k NDIRECT with hlt | rfl | hgt
    · rw [blockAt_direct _ (Nat.le_of_lt hlt)] at h0 ⊢
      exact .inl ⟨k, hlt, h0, rfl⟩
    · rw [blockAt_direct _ (Nat.le_refl _)] at h0 ⊢
      exact .inr ⟨h0, .inl rfl⟩
    · obtain ⟨j, rfl⟩ : ∃ j, k = NDIRECT + 1 + j := ⟨k - (NDIRECT + 1), by omega⟩
      have hN : (s.dinode i).addrs NDIRECT ≠ 0 := by
        intro hN
        apply h0
        simp [blockAt, hN, show ¬ NDIRECT + 1 + j ≤ NDIRECT by omega]
      rw [blockAt_entry _ _ _ hN] at h0 ⊢
      exact .inr ⟨hN, .inr ⟨j, by omega, h0, rfl⟩⟩
  · rintro (⟨k, hk, h0, rfl⟩ | ⟨hN, rfl | ⟨j, hj, h0, rfl⟩⟩)
    · have hread := blockAt_direct s (i := i) (Nat.le_of_lt hk)
      exact ⟨k, ⟨ht, by omega, by rw [hread]; exact h0⟩, hread⟩
    · exact ⟨NDIRECT, holds_indirect ht hN⟩
    · refine ⟨NDIRECT + 1 + j, ⟨ht, by omega, ?_⟩, blockAt_entry _ _ _ hN⟩
      rw [blockAt_entry _ _ _ hN]
      exact h0

section Truncate

variable {sb : Superblock} {s : Fs}

/-- The second half of `itrunc`, from the state `s₁` the first loop leaves: the entries and the indirect block are
freed, and with them every block of the inode in `s` is. -/
theorem itruncIndirect_spec (hok : BlocksOk sb s) {i : Nat} (ht : (s.dinode i).type ≠ 0) {s₁ : Fs}
    (hbit₁ : ∀ b, s₁.bitmap b = true ↔ s.bitmap b = true ∧ ¬ Freed (s.dinode i).addrs NDIRECT b)
    (hN₁ : (s₁.dinode i).addrs NDIRECT = (s.dinode i).addrs NDIRECT) (hw₁ : s₁.words = s.words) :
    ∃ s₃, itruncIndirect s₁ i = some s₃ ∧ (∀ b, s₃.bitmap b = true ↔ s.bitmap b = true ∧ ¬ HeldBy s i b) ∧
      (s₃.dinode i).addrs NDIRECT = 0 ∧ (∀ k, k ≠ NDIRECT → (s₃.dinode i).addrs k = (s₁.dinode i).addrs k) ∧
      (∀ j, j ≠ i → s₃.dinode j = s₁.dinode j) ∧ (s₃.dinode i).type = (s₁.dinode i).type ∧ s₃.words = s₁.words := by
  have hdirect : ∀ {b}, Freed (s.dinode i).addrs NDIRECT b → ∀ {k'}, Holds s i k' → blockAt s i k' = b →
      k' < NDIRECT := by
    rintro b ⟨k, hk, hk0, rfl⟩ k' hh' heq
    have hh : Holds s i k := ⟨ht, by omega, by rw [blockAt_direct _ (by omega)]; exact hk0⟩
    have := (hok.unique hh' hh (by rw [heq, blockAt_direct _ (by omega)])).2
    omega
  unfold itruncIndirect
  rw [hN₁]
  by_cases hN : (s.dinode i).addrs NDIRECT = 0
  · -- no indirect block: the direct blocks were all the inode held
    refine ⟨s₁, by simp [hN], fun b => ?_, by rw [hN₁, hN], fun _ _ => rfl, fun _ _ => rfl, rfl, rfl⟩
    rw [hbit₁, heldBy_iff ht]
    simp [hN]
  -- the entries of the indirect block, read before the loop
  have hentry : ∀ j < NINDIRECT, s.words ((s.dinode i).addrs NDIRECT) j ≠ 0 → Holds s i (NDIRECT + 1 + j) := fun j hj h0 =>
    ⟨ht, by omega, by rw [blockAt_entry _ _ _ hN]; exact h0⟩
  obtain ⟨s₂, h₂, hbit₂, hd₂, hw₂⟩ := itruncEntry_loop (s.words ((s.dinode i).addrs NDIRECT)) s₁ NINDIRECT
    (fun j hj h0 => by
      rw [hbit₁]
      refine ⟨by simpa [blockAt_entry _ _ _ hN] using hok.marked (hentry j hj h0), fun hf => ?_⟩
      have := hdirect hf (hentry j hj h0) (blockAt_entry _ _ _ hN)
      omega)
    (fun j hj j' hj' h0 heq => by
      have hh' : Holds s i (NDIRECT + 1 + j') := hentry j' hj' (heq ▸ h0)
      have := (hok.unique (hentry j hj h0) hh' (by rw [blockAt_entry _ _ _ hN, blockAt_entry _ _ _ hN, heq])).2
      omega)
  -- the indirect block itself is still marked: no direct block or entry is the same block
  obtain ⟨hhN, hreadN⟩ := holds_indirect ht hN
  have hmarked : s₂.bitmap ((s.dinode i).addrs NDIRECT) = true := by
    rw [hbit₂, hbit₁]
    refine ⟨⟨by simpa [hreadN] using hok.marked hhN, fun hf => ?_⟩, ?_⟩
    · have := hdirect hf hhN hreadN
      omega
    · rintro ⟨j, hj, h0, heq⟩
      have := (hok.unique (hentry j hj h0) hhN (by rw [blockAt_entry _ _ _ hN, heq, hreadN])).2
      omega
  refine ⟨{ s₂ with bitmap := Function.update s₂.bitmap ((s.dinode i).addrs NDIRECT) false }.setAddr i NDIRECT 0, ?_, fun b => ?_, ?_,
    fun k hk => ?_, fun j hj => ?_, by simp [hd₂], by simp [hw₂]⟩
  · simp [hN, hw₁, h₂, bfree, hd₂, hN₁, hmarked]
  · rw [heldBy_iff ht]
    by_cases hb : b = (s.dinode i).addrs NDIRECT
    · rw [hb]
      simp [hN]
    · rw [Fs.setAddr_bitmap]
      dsimp only
      rw [Function.update_of_ne hb, hbit₂, hbit₁]
      simp [hN, Ne.symm hb, and_assoc]
  · simp [Fs.setAddr, Fs.setInode_dinode]
  · simp [Fs.setAddr, Fs.setInode_dinode, Function.update_of_ne hk, hd₂]
  · simp [Fs.setAddr, Fs.setInode_dinode, hj, hd₂]

/-- `itrunc` of an allocated inode does not panic, and frees exactly the blocks the inode held: a bit is set
afterwards iff it was set and the block was not the inode's.  The inode holds nothing afterwards, and no other
dinode and no block contents change. -/
theorem itrunc_spec (hok : BlocksOk sb s) {i : Nat} (ht : (s.dinode i).type ≠ 0) :
    ∃ s', itrunc s i = some s' ∧ (∀ b, s'.bitmap b = true ↔ s.bitmap b = true ∧ ¬ HeldBy s i b) ∧
      (∀ k, blockAt s' i k = 0) ∧ (∀ j, j ≠ i → s'.dinode j = s.dinode j) ∧
      (s'.dinode i).type = (s.dinode i).type ∧ s'.words = s.words := by
  -- the direct blocks are marked and pairwise distinct
  have hholds : ∀ k < NDIRECT, (s.dinode i).addrs k ≠ 0 → Holds s i k := fun k hk h0 =>
    ⟨ht, by omega, by rw [blockAt_direct _ (by omega)]; exact h0⟩
  obtain ⟨s₁, h₁, hbit₁, hw₁, hother₁, htype₁, haddr₁⟩ := itruncDirect_loop i s NDIRECT
    (fun k hk h0 => by simpa [blockAt_direct _ (Nat.le_of_lt hk)] using hok.marked (hholds k hk h0))
    (fun k hk k' hk' h0 heq => (hok.unique (hholds k hk h0) (hholds k' hk' (heq ▸ h0))
      (by rw [blockAt_direct _ (by omega), blockAt_direct _ (by omega), heq])).2)
  obtain ⟨s₃, h₃, hbit₃, hN₃, haddr₃, hother₃, htype₃, hw₃⟩ :=
    itruncIndirect_spec hok ht hbit₁ (by rw [haddr₁, if_neg (Nat.lt_irrefl _)]) hw₁
  refine ⟨s₃.setInode i fun ip => { ip with size := 0 }, by simp [itrunc, h₁, h₃], hbit₃, fun k => ?_,
    fun j hj => ?_, by simp [Fs.setInode_dinode, htype₃, htype₁], by simp [hw₃, hw₁]⟩
  · refine blockAt_eq_zero (fun k hk => ?_) k
    simp only [Fs.setInode_dinode, if_pos]
    by_cases hkN : k = NDIRECT
    · subst hkN
      exact hN₃
    · rw [haddr₃ k hkN, haddr₁, if_pos (by omega)]
  · simp [Fs.setInode_dinode, hj, hother₃ j hj, hother₁ j hj]

end Truncate

/-! ### Inodes: `ialloc` and `iput` -/

section Inodes

variable {sb : Superblock} {s s' : Fs}

/-- `ialloc` clears a dinode of type 0, which held nothing and holds nothing, and touches no other. -/
theorem ialloc_blocks_ok (hok : BlocksOk sb s) {type inum : Nat} (h : ialloc sb s type = some (inum, s')) :
    BlocksOk sb s' ∧ Grows s s' := by
  unfold ialloc at h
  obtain ⟨_, hfind, hpair⟩ := Option.map_eq_some_iff.1 h
  cases hpair
  have hfree : (s.dinode inum).type = 0 := by simpa using List.find?_some hfind
  have hsame : ∀ {j}, j ≠ inum → ∀ k, blockAt (s.setInode inum fun _ => { type }) j k = blockAt s j k :=
    fun hj k => blockAt_setInode_ne _ _ hj k
  have hnone : ∀ k, ¬ Holds (s.setInode inum fun _ => { type }) inum k := fun k hh =>
    hh.2.2 (blockAt_eq_zero (fun k _ => by simp [Fs.setInode_dinode]) k)
  refine ⟨hok.mono (fun {j k} hh => ?_) (fun _ _ h => h) (fun _ h => h), ⟨fun {j k} hh => ?_, fun _ h => h,
    fun _ h => .inl h⟩⟩
  · have hj : j ≠ inum := by
      rintro rfl
      exact hnone k hh
    obtain ⟨ht, hk, h0⟩ := hh
    rw [Fs.setInode_dinode, if_neg hj] at ht
    rw [hsame hj] at h0 ⊢
    exact ⟨⟨ht, hk, h0⟩, rfl⟩
  · have hj : j ≠ inum := by
      rintro rfl
      exact hh.1 hfree
    obtain ⟨ht, hk, h0⟩ := hh
    rw [← hsame hj] at h0
    refine ⟨⟨?_, hk, h0⟩, hsame hj k⟩
    rw [Fs.setInode_dinode, if_neg hj]
    exact ht

/-- What `iput` does to the disk: nothing, or, for the last reference to an allocated inode with no links, it frees
exactly the blocks the inode held and sets its type to 0, leaving the other dinodes and the block contents alone. -/
theorem iput_spec (hok : BlocksOk sb s) {i : Nat} {last : Bool} (h : iput s i last = some s') :
    s' = s ∨ ((∀ b, s'.bitmap b = true ↔ s.bitmap b = true ∧ ¬ HeldBy s i b) ∧ (s'.dinode i).type = 0 ∧
      (∀ j, j ≠ i → s'.dinode j = s.dinode j) ∧ s'.words = s.words) := by
  unfold iput at h
  by_cases hc : (s.dinode i).type ≠ 0 ∧ (s.dinode i).nlink = 0 ∧ last = true
  case neg =>
    rw [if_neg hc] at h
    cases h
    exact .inl rfl
  rw [if_pos hc] at h
  obtain ⟨s₁, hs₁, hbit, -, hother, -, hw⟩ := itrunc_spec hok hc.1
  rw [hs₁, Option.map_some, Option.some.injEq] at h
  subst h
  refine .inr ⟨hbit, by simp [Fs.setInode_dinode], fun j hj => ?_, hw⟩
  rw [Fs.setInode_dinode, if_neg hj, hother j hj]

/-- `iput` keeps the invariant: the blocks it frees are data blocks, and they were the freed inode's only. -/
theorem iput_blocks_ok (hok : BlocksOk sb s) {i : Nat} {last : Bool} (h : iput s i last = some s') :
    BlocksOk sb s' := by
  rcases iput_spec hok h with rfl | ⟨hbit, hzero, hother, hw⟩
  · exact hok
  -- an inode that holds a block afterwards is another one, unchanged
  have hne : ∀ {j k}, Holds s' j k → j ≠ i := by
    rintro j k ⟨ht, -, -⟩ rfl
    exact ht hzero
  refine hok.mono (fun {j k} hh => ?_) (fun b hb hm => ?_) (fun {j k} hh hm => ?_)
  · have hj := hne hh
    obtain ⟨ht, hk, h0⟩ := hh
    rw [hother j hj] at ht
    rw [blockAt_congr (hother j hj) hw] at h0 ⊢
    exact ⟨⟨ht, hk, h0⟩, rfl⟩
  · -- the freed blocks are data blocks
    rw [hbit]
    refine ⟨hm, fun ⟨k, hh, heq⟩ => ?_⟩
    have := (hok.data_block hh).1
    omega
  · -- the freed blocks are `i`'s, and a block has one holder
    have hj := hne hh
    obtain ⟨ht, hk, h0⟩ := hh
    rw [hother j hj] at ht
    rw [blockAt_congr (hother j hj) hw] at h0
    rw [hbit]
    refine ⟨hm, fun ⟨k', hh', heq⟩ => hj ?_⟩
    exact (hok.unique ⟨ht, hk, h0⟩ hh' heq.symm).1

end Inodes

/-! ### Whole runs -/

section Runs

variable {sb : Superblock} {s s' : Fs}

/-- Every operation but `iput` only grows the disk and keeps the invariant; `iput` is handled on its own. -/
theorem fsStep_grows_or_iput (hok : BlocksOk sb s) {op : FsOp} (h : fsStep sb s op = some s') :
    (BlocksOk sb s' ∧ Grows s s') ∨ ∃ i last, iput s i last = some s' := by
  cases op with
  | ialloc type =>
    obtain ⟨⟨inum, s₁⟩, hs, rfl⟩ := Option.map_eq_some_iff.1 h
    exact .inl (ialloc_blocks_ok hok hs)
  | writei i src off n =>
    simp only [fsStep] at h
    split_ifs at h with ht
    exact .inl (writei_blocks_ok hok ht h)
  | link i =>
    simp only [fsStep] at h
    split_ifs at h
    cases h
    exact .inl (hok.setInode_frame rfl rfl)
  | unlink i =>
    simp only [fsStep] at h
    split_ifs at h
    cases h
    exact .inl (hok.setInode_frame rfl rfl)
  | iput i last => exact .inr ⟨i, last, h⟩

/-- Every operation keeps the invariant. -/
theorem fsStep_blocks_ok (hok : BlocksOk sb s) {op : FsOp} (h : fsStep sb s op = some s') : BlocksOk sb s' := by
  rcases fsStep_grows_or_iput hok h with ⟨hok', -⟩ | ⟨i, last, hi⟩
  · exact hok'
  · exact iput_blocks_ok hok hi

/-- From a disk where the invariant holds, it holds after any run of operations. -/
theorem reachable_blocks_ok {s₀ : Fs} (h₀ : BlocksOk sb s₀) (h : StepSys.Reachable (fsStep sb) s₀ s) :
    BlocksOk sb s :=
  h.induct_inv h₀ fun _ _ _ hs hstep => fsStep_blocks_ok hs hstep

end Runs

/-- In the image `mkfs` writes, the root directory holds block `nmeta` and nothing else. -/
theorem mkfs_holds {w : Nat → Nat → Nat} {i k : Nat} (h : Holds (mkfsImage w) i k) :
    i = ROOTINO ∧ k = 0 ∧ blockAt (mkfsImage w) i k = nmeta := by
  obtain ⟨ht, -, h0⟩ := h
  have hi : i = ROOTINO := by
    by_contra hi
    simp [mkfsImage, hi] at ht
  subst hi
  by_cases hk : k ≤ NDIRECT
  · rw [blockAt_direct _ hk] at h0 ⊢
    by_cases hk0 : k = 0
    · subst hk0
      exact ⟨rfl, rfl, by simp [mkfsImage]⟩
    · simp [mkfsImage, hk0] at h0
  · -- the root directory has no indirect block
    have hN : ((mkfsImage w).dinode ROOTINO).addrs NDIRECT = 0 := by simp [mkfsImage, NDIRECT]
    exact absurd (by simp [blockAt, hk, hN]) h0

theorem mkfs_blocks_ok (w : Nat → Nat → Nat) : BlocksOk mkfsSb (mkfsImage w) where
  meta_marked b hb := by
    have hstart : dataStart mkfsSb = nmeta := by decide
    simp only [mkfsImage, decide_eq_true_eq]
    omega
  data_block h := by
    rw [(mkfs_holds h).2.2]
    decide
  marked h := by
    rw [(mkfs_holds h).2.2]
    simp [mkfsImage]
  unique h h' _ := ⟨(mkfs_holds h).1.trans (mkfs_holds h').1.symm, (mkfs_holds h).2.1.trans (mkfs_holds h').2.1.symm⟩

/-- From a disk where every held block is a data block, marked and held once (the image `mkfs` writes is one,
`mkfs_blocks_ok`), every run of operations keeps it so; in every such state `balloc` returns a block that was free
and held by no inode, and `itrunc` of an allocated inode frees exactly the blocks the inode held. -/
theorem reachable_blocks_owned {sb : Superblock} {s₀ s : Fs} (h₀ : BlocksOk sb s₀)
    (h : StepSys.Reachable (fsStep sb) s₀ s) :
    BlocksOk sb s ∧
      (∀ b s', balloc sb s = some (b, s') → s.bitmap b = false ∧ ∀ i k, Holds s i k → blockAt s i k ≠ b) ∧
      ∀ i, (s.dinode i).type ≠ 0 →
        ∃ s', itrunc s i = some s' ∧ ∀ b, s'.bitmap b = true ↔ s.bitmap b = true ∧ ¬ HeldBy s i b := by
  have hok := reachable_blocks_ok h₀ h
  refine ⟨hok, fun b s' hb => ?_, fun i ht => ?_⟩
  · have hfree := (balloc_spec hb).2.1
    exact ⟨hfree, fun i k hh => hok.not_held hfree hh⟩
  · obtain ⟨s', hs', hbits, -⟩ := itrunc_spec hok ht
    exact ⟨s', hs', hbits⟩

/-- From the image of `mkfs`: a file (inode 2) is created, linked and written with two blocks, a second one (inode
3) is created and written with one block, and the first is unlinked and put for the last time, which frees its
blocks and its inode. -/
def unlinkTrace : List FsOp :=
  [.ialloc T_FILE, .link 2, .writei 2 (fun _ _ => 7) 0 (2 * BSIZE), .ialloc T_FILE, .writei 3 (fun _ _ => 9) 0 BSIZE,
    .unlink 2, .iput 2 true]

theorem reachable_unlinkTrace :
    ∃ s, StepSys.Reachable (fsStep mkfsSb) (mkfsImage fun _ _ => 0) s ∧ (s.dinode 2).type = 0 ∧
      (s.dinode 3).type = T_FILE ∧ blockAt s 3 0 ≠ 0 ∧ (s.dinode 3).size = BSIZE := by
  obtain ⟨s, hs, hp⟩ := StepSys.reachable_of_run (fsStep mkfsSb) (mkfsImage fun _ _ => 0) unlinkTrace
    (fun s => decide ((s.dinode 2).type = 0 ∧ (s.dinode 3).type = T_FILE ∧ blockAt s 3 0 ≠ 0 ∧
      (s.dinode 3).size = BSIZE)) (by decide +kernel)
  exact ⟨s, hs, of_decide_eq_true hp⟩

/-- After `unlinkTrace`, with a file freed and another holding a block: the blocks are owned once, `balloc` hands
out a free block held by no inode, and `itrunc` frees exactly what an inode holds. -/
theorem blocks_owned_after_unlink :
    ∃ s, StepSys.Reachable (fsStep mkfsSb) (mkfsImage fun _ _ => 0) s ∧ (s.dinode 2).type = 0 ∧
      (s.dinode 3).type = T_FILE ∧ blockAt s 3 0 ≠ 0 ∧ BlocksOk mkfsSb s ∧
      (∀ b s', balloc mkfsSb s = some (b, s') → s.bitmap b = false ∧ ∀ i k, Holds s i k → blockAt s i k ≠ b) ∧
      ∀ i, (s.dinode i).type ≠ 0 →
        ∃ s', itrunc s i = some s' ∧ ∀ b, s'.bitmap b = true ↔ s.bitmap b = true ∧ ¬ HeldBy s i b := by
  obtain ⟨s, hs, h₂, h₃, hb, -⟩ := reachable_unlinkTrace
  exact ⟨s, hs, h₂, h₃, hb, reachable_blocks_owned (mkfs_blocks_ok _) hs⟩

end Xv6
