import Mathlib.Data.Set.Function
import Xv6.Fs.Owner

/-!
# The bitmap describes ownership exactly

`BlocksOk` says that a block an inode holds is marked in the bitmap.  The converse, that every marked data block
is held, is `BitmapExact`: no operation leaks a block.  Allocation, writing and the updates of a dinode only grow
the disk (`Grows`), and `iput` clears exactly the bits of the blocks of the inode it frees; so a run from an exact
image stays exact.  With `BlocksOk`, `blockAt` is then a bijection from the positions at which allocated inodes
hold blocks onto the marked data blocks (`reachable_blocks_bijOn`).
-/

namespace Xv6

/-- Every marked data block is held by some inode. -/
def BitmapExact (sb : Superblock) (s : Fs) : Prop :=
  ∀ b, dataStart sb ≤ b → b < sb.size → s.bitmap b = true → ∃ j, HeldBy s j b

section

variable {sb : Superblock} {s s' : Fs}

theorem BitmapExact.grow (hx : BitmapExact sb s) (hg : Grows s s') : BitmapExact sb s' := by
  intro b hlo hhi hb
  rcases hg.new_bits b hb with hb₀ | hheld
  · -- marked before: held before, and kept
    obtain ⟨j, k, hh, rfl⟩ := hx b hlo hhi hb₀
    exact ⟨j, k, hg.keeps hh⟩
  · exact hheld

/-- `iput` clears the bits of the blocks it frees only; every other marked block stays held by its inode. -/
theorem iput_exact (hok : BlocksOk sb s) (hx : BitmapExact sb s) {i : Nat} {last : Bool}
    (h : iput s i last = some s') : BitmapExact sb s' := by
  rcases iput_spec hok h with rfl | ⟨hbit, -, hother, hw⟩
  · exact hx
  intro b hlo hhi hb
  obtain ⟨hb₀, hnot⟩ := (hbit b).1 hb
  obtain ⟨j, k, hh, rfl⟩ := hx b hlo hhi hb₀
  have hj : j ≠ i := by
    rintro rfl
    exact hnot ⟨k, hh, rfl⟩
  have hsame : blockAt s' j k = blockAt s j k := blockAt_congr (hother j hj) hw k
  obtain ⟨ht, hk, h0⟩ := hh
  refine ⟨j, k, ⟨?_, hk, by rw [hsame]; exact h0⟩, hsame⟩
  rw [hother j hj]
  exact ht

/-- Every operation keeps the bitmap exact. -/
theorem fsStep_exact (hok : BlocksOk sb s) (hx : BitmapExact sb s) {op : FsOp} (h : fsStep sb s op = some s') :
    BitmapExact sb s' := by
  rcases fsStep_grows_or_iput hok h with ⟨-, hg⟩ | ⟨i, last, hi⟩
  · exact hx.grow hg
  · exact iput_exact hok hx hi

end

/-- In the image `mkfs` writes, the one marked data block is the root directory's. -/
theorem mkfs_bitmap_exact (w : Nat → Nat → Nat) : BitmapExact mkfsSb (mkfsImage w) := by
  intro b hlo _ hb
  have hstart : dataStart mkfsSb = nmeta := by decide
  have hb' : b < nmeta + 1 := by simpa [mkfsImage] using hb
  have hroot : blockAt (mkfsImage w) ROOTINO 0 = nmeta := by simp [blockAt, mkfsImage, NDIRECT]
  refine ⟨ROOTINO, 0, ⟨by simp [mkfsImage, T_DIR], by decide, by rw [hroot]; decide⟩, ?_⟩
  rw [hroot]
  omega

/-- The two invariants over a run; they are carried together, since `iput` needs the first to keep the second. -/
theorem reachable_ok_exact {sb : Superblock} {s₀ s : Fs} (h₀ : BlocksOk sb s₀) (hx₀ : BitmapExact sb s₀)
    (h : StepSys.Reachable (fsStep sb) s₀ s) : BlocksOk sb s ∧ BitmapExact sb s := by
  induction h with
  | init => exact ⟨h₀, hx₀⟩
  | step _ _ hs ih => exact ⟨fsStep_blocks_ok ih.1 hs, fsStep_exact ih.1 ih.2 hs⟩

/-- From a disk where the held blocks are data blocks, marked and held once, and the marked data blocks are held,
every run of operations keeps it so: `blockAt` maps the positions at which allocated inodes hold blocks one to one
onto the marked data blocks.  No operation loses a block or hands one out twice. -/
theorem reachable_blocks_bijOn {sb : Superblock} {s₀ s : Fs} (h₀ : BlocksOk sb s₀) (hx₀ : BitmapExact sb s₀)
    (h : StepSys.Reachable (fsStep sb) s₀ s) :
    Set.BijOn (fun p : Nat × Nat => blockAt s p.1 p.2) {p | Holds s p.1 p.2}
      {b | dataStart sb ≤ b ∧ b < sb.size ∧ s.bitmap b = true} := by
  obtain ⟨hok, hx⟩ := reachable_ok_exact h₀ hx₀ h
  refine ⟨fun p hp => ?_, fun p hp q hq heq => ?_, fun b hb => ?_⟩
  · obtain ⟨hlo, hhi⟩ := hok.data_block hp
    exact ⟨hlo, hhi, hok.marked hp⟩
  · obtain ⟨h1, h2⟩ := hok.unique hp hq heq
    exact Prod.ext h1 h2
  · obtain ⟨hlo, hhi, hm⟩ := hb
    obtain ⟨j, k, hh, hblk⟩ := hx b hlo hhi hm
    exact ⟨(j, k), hh, hblk⟩

/-- After `unlinkTrace`, with a file freed and another holding a block, the positions held map one to one onto the
marked data blocks. -/
theorem blocks_bijOn_after_unlink :
    ∃ s, StepSys.Reachable (fsStep mkfsSb) (mkfsImage fun _ _ => 0) s ∧ (s.dinode 2).type = 0 ∧
      (s.dinode 3).type = T_FILE ∧ blockAt s 3 0 ≠ 0 ∧
      Set.BijOn (fun p : Nat × Nat => blockAt s p.1 p.2) {p | Holds s p.1 p.2}
        {b | dataStart mkfsSb ≤ b ∧ b < mkfsSb.size ∧ s.bitmap b = true} := by
  obtain ⟨s, hs, h₂, h₃, hb, -⟩ := reachable_unlinkTrace
  exact ⟨s, hs, h₂, h₃, hb, reachable_blocks_bijOn (mkfs_blocks_ok _) (mkfs_bitmap_exact _) hs⟩

end Xv6
