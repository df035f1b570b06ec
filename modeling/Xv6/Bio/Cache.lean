import Mathlib.Data.List.GetD
import Mathlib.Tactic.SplitIfs
import Xv6.Log.Basic

/-!
# The buffer cache of `bio.c` and the disk requests of `ide.c`

`bcache.buf[NBUF]` with the list through `prev`/`next`, here the list of buffer indices from `head.next` (most
recently used) on.  `flags` is kept as its two bits `B_VALID` and `B_DIRTY`, and a buffer's sleep lock as whether
it is held.  Only the root device holds the file system, so `disk` is the contents of `ROOTDEV`.

`iderw` runs a request to its end: the caller sleeps until `ideintr` has read or written the block and set
`B_VALID` and cleared `B_DIRTY`.  `bget` returns a buffer without its lock; the lock (`readBuf` reads the block
once it is held) is taken as a step of its own in `Xv6.Log.Cache`, where other threads run in between.

For `commit`, which runs on one thread, `bread` is `bget`, the lock and the read in one, and `Bio.commit` is the
sequence of `bread`, `bwrite` and `brelse` that `write_log`, `write_head` and `install_trans` issue.  What a
commit keeps of the cache (`Kept`): the set of buffers in the list, the reference counts, the block of a
referenced or dirty buffer, and no buffer becomes dirty.  `install_trans` leaves every block of the header clean
(`Bio.install_trans_clean`).
-/

namespace Xv6

def ROOTDEV : Nat := 1

/-- `struct buf`. -/
structure Buf where
  dev : Nat := 0
  blockno : Nat := 0
  /-- `B_VALID` -/
  valid : Bool := false
  /-- `B_DIRTY` -/
  dirty : Bool := false
  locked : Bool := false
  refcnt : Nat := 0
  data : Block := fun _ => 0

/-- `bcache`: the buffers, and their indices in list order from `head.next`. -/
structure Bcache where
  buf : Nat → Buf
  lru : List Nat

namespace Bcache

def set (c : Bcache) (i : Nat) (b : Buf) : Bcache := { c with buf := Function.update c.buf i b }

@[simp] theorem set_lru (c : Bcache) (i : Nat) (b : Buf) : (c.set i b).lru = c.lru := rfl

@[simp] theorem set_buf (c : Bcache) (i : Nat) (b : Buf) : (c.set i b).buf = Function.update c.buf i b := rfl

end Bcache

/-- `binit`: each buffer in turn goes to the front of the list. -/
def binit : Bcache := ⟨fun _ => {}, (List.range NBUF).reverse⟩

/-- `bget(dev, blockno)`: the cached buffer of the block with one more reference, or else the least recently used
buffer without references that is not dirty, now for the block; `none` for the panic "bget: no buffers". -/
def bget (dev blockno : Nat) (c : Bcache) : Option (Nat × Bcache) :=
  match c.lru.find? (fun i => (c.buf i).dev = dev ∧ (c.buf i).blockno = blockno) with
  | some i => some (i, c.set i { c.buf i with refcnt := (c.buf i).refcnt + 1 })
  | none =>
    -- a buffer that `log_write` marked dirty stays, even without references
    match c.lru.reverse.find? (fun i => (c.buf i).refcnt = 0 ∧ (c.buf i).dirty = false) with
    | some i => some (i, c.set i { c.buf i with dev, blockno, valid := false, dirty := false, refcnt := 1 })
    | none => none

/-- `iderw(b)` up to the wake-up by `ideintr`: write a dirty buffer, read one that is not valid; `none` for the
panic "iderw: nothing to do". -/
def iderw (b : Buf) (disk : Disk) : Option (Buf × Disk) :=
  if b.valid = true ∧ b.dirty = false then none
  else if b.dirty then some ({ b with valid := true, dirty := false }, Function.update disk b.blockno b.data)
  else some ({ b with data := disk b.blockno, valid := true }, disk)

/-- The end of `bread` once the caller holds the buffer: read the block unless the buffer is valid. -/
def readBuf (i : Nat) (c : Bcache) (disk : Disk) : Option (Bcache × Disk) :=
  if (c.buf i).valid then some (c, disk)
  else (iderw (c.buf i) disk).map fun (b, disk) => (c.set i b, disk)

def bwrite (i : Nat) (c : Bcache) (disk : Disk) : Option (Bcache × Disk) :=
  (iderw { c.buf i with dirty := true } disk).map fun (b, disk) => (c.set i b, disk)

/-- `brelse(b)`: release the lock and a reference; without references the buffer moves to the front. -/
def brelse (i : Nat) (c : Bcache) : Bcache :=
  let b := { c.buf i with locked := false, refcnt := (c.buf i).refcnt - 1 }
  if b.refcnt = 0 then ⟨Function.update c.buf i b, i :: c.lru.erase i⟩ else c.set i b

/-- `bread` by a thread that finds the lock free. -/
def bread (dev blockno : Nat) (c : Bcache) (disk : Disk) : Option (Nat × Bcache × Disk) := do
  let (i, c) ← bget dev blockno c
  let (c, disk) ← readBuf i (c.set i { c.buf i with locked := true }) disk
  pure (i, c, disk)

namespace Bio

/-- The loop body of `write_log` and of `install_trans`: `bread` the log block and the home block, copy the home
block into the log block (`write_log`) or back (`install_trans`), `bwrite` the copy, and `brelse` the source and
then the copy. -/
def copyBlock (logb home : Nat) (install : Bool) (c : Bcache) (disk : Disk) : Option (Bcache × Disk) := do
  let (lb, c, disk) ← bread ROOTDEV logb c disk
  let (hb, c, disk) ← bread ROOTDEV home c disk
  let src := if install then lb else hb
  let dst := if install then hb else lb
  let (c, disk) ← bwrite dst (c.set dst { c.buf dst with data := (c.buf src).data }) disk
  pure (brelse dst (brelse src c), disk)

/-- One round of the loop of `write_log` (`install = false`) or `install_trans` (`install = true`). -/
def copyStep (start : Nat) (lh : List Nat) (install : Bool) (s : Bcache × Disk) (tail : Nat) :
    Option (Bcache × Disk) :=
  copyBlock (start + tail + 1) (lh.getD tail 0) install s.1 s.2

def write_log (start : Nat) (lh : List Nat) (c : Bcache) (disk : Disk) : Option (Bcache × Disk) :=
  (List.range lh.length).foldlM (copyStep start lh false) (c, disk)

def install_trans (start : Nat) (lh : List Nat) (c : Bcache) (disk : Disk) : Option (Bcache × Disk) :=
  (List.range lh.length).foldlM (copyStep start lh true) (c, disk)

def write_head (start : Nat) (lh : List Nat) (c : Bcache) (disk : Disk) : Option (Bcache × Disk) := do
  let (i, c, disk) ← bread ROOTDEV start c disk
  let (c, disk) ← bwrite i (c.set i { c.buf i with data := headBlock (c.buf i).data lh }) disk
  pure (brelse i c, disk)

def commit (start : Nat) (lh : List Nat) (c : Bcache) (disk : Disk) : Option (Bcache × Disk) :=
  if 0 < lh.length then do
    let (c, disk) ← write_log start lh c disk
    let (c, disk) ← write_head start lh c disk
    let (c, disk) ← install_trans start lh c disk
    write_head start [] c disk
  else some (c, disk)

end Bio

/-! ### Each routine on the cache -/

/-- No two buffers of the root device hold the same block. -/
def Uniq (c : Bcache) : Prop :=
  ∀ i ∈ c.lru, ∀ j ∈ c.lru, (c.buf i).dev = ROOTDEV → (c.buf j).dev = ROOTDEV →
    (c.buf i).blockno = (c.buf j).blockno → i = j

/-- The two cases of `bget`: the cached buffer of the block, or a recycled one that no one referenced, that was not
dirty, and that no buffer of the block was cached. -/
theorem bget_cases {dev blk i : Nat} {c c' : Bcache} (h : bget dev blk c = some (i, c')) :
    i ∈ c.lru ∧ c'.lru = c.lru ∧ (∀ j, j ≠ i → c'.buf j = c.buf j) ∧
      (((c.buf i).dev = dev ∧ (c.buf i).blockno = blk ∧
          c'.buf i = { c.buf i with refcnt := (c.buf i).refcnt + 1 }) ∨
        ((c.buf i).refcnt = 0 ∧ (c.buf i).dirty = false ∧
          (∀ j ∈ c.lru, ¬((c.buf j).dev = dev ∧ (c.buf j).blockno = blk)) ∧
          c'.buf i = { c.buf i with dev, blockno := blk, valid := false, dirty := false, refcnt := 1 })) := by
  unfold bget at h
  split at h
  · rename_i i' hi
    cases h
    have hz := List.find?_some hi
    simp only [decide_eq_true_eq] at hz
    refine ⟨List.mem_of_find?_eq_some hi, rfl, fun j hj => by simp [Function.update_of_ne hj], .inl ⟨hz.1, hz.2, ?_⟩⟩
    simp
  · rename_i hnone
    split at h
    · rename_i i' hi
      cases h
      have hz := List.find?_some hi
      simp only [Bool.decide_and, Bool.and_eq_true, decide_eq_true_eq] at hz
      have hnot : ∀ j ∈ c.lru, ¬((c.buf j).dev = dev ∧ (c.buf j).blockno = blk) := by
        intro j hj hb
        have := List.find?_eq_none.1 hnone j hj
        simp [hb] at this
      refine ⟨List.mem_reverse.1 (List.mem_of_find?_eq_some hi), rfl,
        fun j hj => by simp [Function.update_of_ne hj], .inr ⟨hz.1, hz.2, hnot, by simp⟩⟩
    · cases h

/-- `bget` adds one reference to the buffer it returns. -/
theorem bget_refcnt {dev blk i : Nat} {c c' : Bcache} (h : bget dev blk c = some (i, c')) (j : Nat) :
    (c'.buf j).refcnt = (c.buf j).refcnt + if j = i then 1 else 0 := by
  obtain ⟨-, -, hother, hcase⟩ := bget_cases h
  by_cases hj : j = i
  · subst hj
    rcases hcase with ⟨-, -, hb⟩ | ⟨h0, -, -, hb⟩ <;> simp [*]
  · simp [hother j hj, hj]

theorem bget_dev {dev blk i : Nat} {c c' : Bcache} (h : bget dev blk c = some (i, c')) :
    (c'.buf i).dev = dev ∧ (c'.buf i).blockno = blk := by
  obtain ⟨-, -, -, hcase⟩ := bget_cases h
  rcases hcase with ⟨hd, hb', hb⟩ | ⟨-, -, -, hb⟩ <;> simp [*]

theorem bget_uniq {dev blk i : Nat} {c c' : Bcache} (h : bget dev blk c = some (i, c')) (hu : Uniq c) :
    Uniq c' := by
  obtain ⟨hi, hlru, hother, hcase⟩ := bget_cases h
  -- the fields `Uniq` reads change only on a recycled buffer
  rcases hcase with ⟨-, -, hb⟩ | ⟨-, -, hnot, hb⟩
  · intro j₁ h₁ j₂ h₂
    rw [hlru] at h₁ h₂
    have key : ∀ j, (c'.buf j).dev = (c.buf j).dev ∧ (c'.buf j).blockno = (c.buf j).blockno := by
      intro j
      by_cases hj : j = i
      · subst hj; simp [hb]
      · simp [hother j hj]
    rw [(key j₁).1, (key j₂).1, (key j₁).2, (key j₂).2]
    exact hu j₁ h₁ j₂ h₂
  · intro j₁ h₁ j₂ h₂ hd₁ hd₂ hblk
    rw [hlru] at h₁ h₂
    -- a recycled buffer takes a block that no buffer of its device held
    have hfresh : ∀ j ∈ c.lru, j ≠ i → (c'.buf i).dev = ROOTDEV → (c'.buf j).dev = ROOTDEV →
        (c'.buf j).blockno ≠ (c'.buf i).blockno := by
      intro j hj hji hdi hdj hbj
      rw [hother j hji] at hdj hbj
      rw [hb] at hdi hbj
      exact hnot j hj ⟨hdj.trans hdi.symm, hbj⟩
    by_cases hj₁ : j₁ = i <;> by_cases hj₂ : j₂ = i
    · rw [hj₁, hj₂]
    · subst hj₁
      exact absurd hblk.symm (hfresh j₂ h₂ hj₂ hd₁ hd₂)
    · subst hj₂
      exact absurd hblk (hfresh j₁ h₁ hj₁ hd₂ hd₁)
    · rw [hother j₁ hj₁] at hd₁ hblk
      rw [hother j₂ hj₂] at hd₂ hblk
      exact hu j₁ h₁ j₂ h₂ hd₁ hd₂ hblk

/-- A referenced or dirty buffer is not recycled: `bget` changes at most its reference count. -/
theorem bget_keep {dev blk i : Nat} {c c' : Bcache} (h : bget dev blk c = some (i, c')) (j : Nat)
    (hj : 1 ≤ (c.buf j).refcnt ∨ (c.buf j).dirty = true) :
    c'.buf j = { c.buf j with refcnt := (c'.buf j).refcnt } := by
  obtain ⟨-, -, hother, hcase⟩ := bget_cases h
  by_cases hji : j = i
  · subst hji
    rcases hcase with ⟨-, -, hb⟩ | ⟨h0, hd, -, -⟩
    · rw [hb]
    · -- only a buffer without references that is not dirty is recycled
      rcases hj with hj | hj
      · omega
      · rw [hd] at hj
        cases hj
  · rw [hother j hji]

private theorem iderw_spec {b b' : Buf} {disk disk' : Disk} (h : iderw b disk = some (b', disk')) :
    b'.valid = true ∧ b'.dirty = false ∧ b'.dev = b.dev ∧ b'.blockno = b.blockno ∧ b'.refcnt = b.refcnt ∧
      b'.locked = b.locked := by
  unfold iderw at h
  split at h
  · cases h
  · split at h
    · cases h
      simp
    · rename_i hd
      cases h
      simpa using hd

theorem readBuf_spec {i : Nat} {c c' : Bcache} {disk disk' : Disk} (h : readBuf i c disk = some (c', disk')) :
    c'.lru = c.lru ∧ (∀ j, j ≠ i → c'.buf j = c.buf j) ∧ (c'.buf i).valid = true ∧
      (c'.buf i).dev = (c.buf i).dev ∧ (c'.buf i).blockno = (c.buf i).blockno ∧
      (c'.buf i).refcnt = (c.buf i).refcnt ∧ ((c'.buf i).dirty = true → c'.buf i = c.buf i) := by
  unfold readBuf at h
  split at h
  · rename_i hv
    cases h
    exact ⟨rfl, fun _ _ => rfl, hv, rfl, rfl, rfl, fun _ => rfl⟩
  · obtain ⟨⟨b, d⟩, hw, heq⟩ := Option.map_eq_some_iff.1 h
    cases heq
    obtain ⟨hv, hd, hdev, hblk, href, -⟩ := iderw_spec hw
    refine ⟨rfl, fun j hj => by simp [Function.update_of_ne hj], ?_⟩
    simp only [Bcache.set_buf, Function.update_self]
    refine ⟨hv, hdev, hblk, href, fun hd' => ?_⟩
    rw [hd] at hd'
    cases hd'

theorem readBuf_valid {i : Nat} {c : Bcache} (disk : Disk) (hv : (c.buf i).valid = true) :
    readBuf i c disk = some (c, disk) := by
  unfold readBuf
  rw [if_pos hv]

private theorem bwrite_spec {i : Nat} {c c' : Bcache} {disk disk' : Disk} (h : bwrite i c disk = some (c', disk')) :
    c'.lru = c.lru ∧ (∀ j, j ≠ i → c'.buf j = c.buf j) ∧ (c'.buf i).dirty = false ∧
      (c'.buf i).dev = (c.buf i).dev ∧ (c'.buf i).blockno = (c.buf i).blockno ∧
      (c'.buf i).refcnt = (c.buf i).refcnt := by
  unfold bwrite at h
  obtain ⟨⟨b, d⟩, hw, heq⟩ := Option.map_eq_some_iff.1 h
  cases heq
  obtain ⟨-, hd, hdev, hblk, href, -⟩ := iderw_spec hw
  refine ⟨rfl, fun j hj => by simp [Function.update_of_ne hj], ?_⟩
  simp only [Bcache.set_buf, Function.update_self]
  exact ⟨hd, hdev, hblk, href⟩

private theorem brelse_buf (i : Nat) (c : Bcache) :
    (brelse i c).buf = Function.update c.buf i { c.buf i with locked := false, refcnt := (c.buf i).refcnt - 1 } := by
  unfold brelse
  dsimp only
  split <;> rfl

theorem brelse_mem {i : Nat} {c : Bcache} (hi : i ∈ c.lru) (j : Nat) : j ∈ (brelse i c).lru ↔ j ∈ c.lru := by
  unfold brelse
  dsimp only
  split
  · simp only [List.mem_cons]
    by_cases hji : j = i
    · subst hji
      simp [hi]
    · simp [hji, List.mem_erase_of_ne hji]
  · rfl

theorem brelse_nodup {i : Nat} {c : Bcache} (hnd : c.lru.Nodup) : (brelse i c).lru.Nodup := by
  unfold brelse
  dsimp only
  split
  · exact List.nodup_cons.2 ⟨List.Nodup.not_mem_erase hnd, hnd.erase i⟩
  · exact hnd

/-- `brelse` changes only the lock and the reference count. -/
theorem brelse_fields (i : Nat) (c : Bcache) (j : Nat) :
    ((brelse i c).buf j).dev = (c.buf j).dev ∧ ((brelse i c).buf j).blockno = (c.buf j).blockno ∧
      ((brelse i c).buf j).dirty = (c.buf j).dirty ∧ ((brelse i c).buf j).valid = (c.buf j).valid ∧
      ((brelse i c).buf j).data = (c.buf j).data ∧
      ((brelse i c).buf j).refcnt = (c.buf j).refcnt - if j = i then 1 else 0 := by
  rw [brelse_buf]
  by_cases hji : j = i
  · subst hji
    simp
  · simp [hji]

theorem brelse_uniq {i : Nat} {c : Bcache} (hi : i ∈ c.lru) (hu : Uniq c) : Uniq (brelse i c) := by
  intro j₁ h₁ j₂ h₂ hd₁ hd₂ hblk
  rw [brelse_mem hi] at h₁ h₂
  rw [(brelse_fields i c j₁).1] at hd₁
  rw [(brelse_fields i c j₂).1] at hd₂
  rw [(brelse_fields i c j₁).2.1, (brelse_fields i c j₂).2.1] at hblk
  exact hu j₁ h₁ j₂ h₂ hd₁ hd₂ hblk

/-- A change of one buffer's lock, validity, dirtiness or contents keeps `Uniq`. -/
theorem uniq_of_fields {c c' : Bcache} (hlru : c'.lru = c.lru)
    (hf : ∀ j, (c'.buf j).dev = (c.buf j).dev ∧ (c'.buf j).blockno = (c.buf j).blockno) (hu : Uniq c) :
    Uniq c' := by
  intro j₁ h₁ j₂ h₂ hd₁ hd₂ hblk
  rw [hlru] at h₁ h₂
  rw [(hf j₁).1] at hd₁
  rw [(hf j₂).1] at hd₂
  rw [(hf j₁).2, (hf j₂).2] at hblk
  exact hu j₁ h₁ j₂ h₂ hd₁ hd₂ hblk

/-- What `bread` does: one more reference to the buffer it returns, now valid and for the block; a dirty buffer
stays dirty only as it was; a referenced or dirty buffer keeps its block. -/
theorem bread_spec {dev blk i : Nat} {c c' : Bcache} {disk disk' : Disk}
    (h : bread dev blk c disk = some (i, c', disk')) :
    i ∈ c.lru ∧ c'.lru = c.lru ∧ (∀ j, j ≠ i → c'.buf j = c.buf j) ∧
      (c'.buf i).refcnt = (c.buf i).refcnt + 1 ∧ (c'.buf i).dev = dev ∧ (c'.buf i).blockno = blk ∧
      (c'.buf i).valid = true ∧
      ((c'.buf i).dirty = true → (c.buf i).dirty = true ∧ (c.buf i).dev = dev ∧ (c.buf i).blockno = blk) ∧
      (1 ≤ (c.buf i).refcnt → (c.buf i).dev = dev ∧ (c.buf i).blockno = blk) ∧
      (Uniq c → Uniq c') := by
  unfold bread at h
  obtain ⟨⟨i₁, c₁⟩, hg, h⟩ := Option.bind_eq_some_iff.1 h
  dsimp only at h
  obtain ⟨⟨c₂, d₂⟩, hr, heq⟩ := Option.bind_eq_some_iff.1 h
  simp only [pure, Option.some.injEq, Prod.mk.injEq] at heq
  obtain ⟨rfl, rfl, rfl⟩ := heq
  obtain ⟨hi, hlru₁, hother₁, hcase⟩ := bget_cases hg
  obtain ⟨hlru₂, hother₂, hv, hdev₂, hblk₂, href₂, hdirty₂⟩ := readBuf_spec hr
  obtain ⟨hdev₁, hblk₁⟩ := bget_dev hg
  simp only [Bcache.set_lru, Bcache.set_buf, Function.update_self] at hlru₂ hdev₂ hblk₂ href₂ hdirty₂
  have hother : ∀ j, j ≠ i₁ → c₂.buf j = c.buf j := fun j hj => by
    rw [hother₂ j hj, Bcache.set_buf, Function.update_of_ne hj, hother₁ j hj]
  refine ⟨hi, hlru₂.trans hlru₁, hother, ?_, hdev₂.trans hdev₁, hblk₂.trans hblk₁, hv, ?_, ?_, ?_⟩
  · rw [href₂, bget_refcnt hg i₁, if_pos rfl]
  · -- a buffer dirty after the read was dirty before, so `bget` found it cached
    intro hd
    have hd₁ := hdirty₂ hd
    rw [hd₁] at hd
    rcases hcase with ⟨hdv, hbk, hb⟩ | ⟨-, -, -, hb⟩
    · rw [hb] at hd
      exact ⟨hd, hdv, hbk⟩
    · rw [hb] at hd
      cases hd
  · intro h1
    rcases hcase with ⟨hdv, hbk, -⟩ | ⟨h0, -, -, -⟩
    · exact ⟨hdv, hbk⟩
    · omega
  · intro hu
    refine uniq_of_fields (hlru₂.trans rfl) (fun j => ?_) (bget_uniq hg hu)
    by_cases hj : j = i₁
    · subst hj
      exact ⟨hdev₂, hblk₂⟩
    · rw [hother₂ j hj, Bcache.set_buf, Function.update_of_ne hj]
      exact ⟨rfl, rfl⟩

/-- `bread` as seen from any buffer: a referenced buffer keeps its block, a buffer dirty afterwards was dirty with
the same block before, and the returned buffer has one more reference. -/
theorem bread_frame {dev blk i : Nat} {c c' : Bcache} {disk disk' : Disk}
    (h : bread dev blk c disk = some (i, c', disk')) (j : Nat) :
    (1 ≤ (c.buf j).refcnt → (c'.buf j).dev = (c.buf j).dev ∧ (c'.buf j).blockno = (c.buf j).blockno) ∧
      ((c'.buf j).dirty = true →
        (c.buf j).dirty = true ∧ (c'.buf j).dev = (c.buf j).dev ∧ (c'.buf j).blockno = (c.buf j).blockno) ∧
      (c'.buf j).refcnt = (c.buf j).refcnt + if j = i then 1 else 0 := by
  obtain ⟨-, -, hother, href, hdev, hblk, -, hdirty, hpin, -⟩ := bread_spec h
  by_cases hji : j = i
  · subst hji
    refine ⟨fun h1 => ?_, fun hd => ?_, by simp [href]⟩
    · obtain ⟨hd', hb'⟩ := hpin h1
      exact ⟨hdev.trans hd'.symm, hblk.trans hb'.symm⟩
    · obtain ⟨hd₀, hd', hb'⟩ := hdirty hd
      exact ⟨hd₀, hdev.trans hd'.symm, hblk.trans hb'.symm⟩
  · rw [hother j hji]
    exact ⟨fun _ => ⟨rfl, rfl⟩, fun hd => ⟨hd, rfl, rfl⟩, by simp [hji]⟩

/-- `bwrite` after a change of the contents, as seen from any buffer: only the written buffer changes, and it is
no longer dirty. -/
theorem bwrite_frame {i : Nat} {x : Block} {c c' : Bcache} {disk disk' : Disk}
    (h : bwrite i (c.set i { c.buf i with data := x }) disk = some (c', disk')) (j : Nat) :
    (c'.buf j).dev = (c.buf j).dev ∧ (c'.buf j).blockno = (c.buf j).blockno ∧
      (c'.buf j).refcnt = (c.buf j).refcnt ∧ ((c'.buf j).dirty = true → (c.buf j).dirty = true ∧ j ≠ i) := by
  obtain ⟨-, hother, hd, hdev, hblk, href⟩ := bwrite_spec h
  simp only [Bcache.set_buf, Function.update_self] at hdev hblk href
  by_cases hji : j = i
  · subst hji
    exact ⟨hdev, hblk, href, fun h' => absurd (h'.symm.trans hd) (by decide)⟩
  · rw [hother j hji, Bcache.set_buf, Function.update_of_ne hji]
    exact ⟨rfl, rfl, rfl, fun h' => ⟨h', hji⟩⟩

/-! ### What a commit keeps -/

/-- What a sequence of balanced `bread`/`brelse` pairs keeps of the cache. -/
structure Kept (c c' : Bcache) : Prop where
  mem : ∀ j, j ∈ c'.lru ↔ j ∈ c.lru
  nodup : c.lru.Nodup → c'.lru.Nodup
  refcnt : ∀ j, (c'.buf j).refcnt = (c.buf j).refcnt
  pinned : ∀ j, 1 ≤ (c.buf j).refcnt →
    (c'.buf j).dev = (c.buf j).dev ∧ (c'.buf j).blockno = (c.buf j).blockno
  dirty : ∀ j, (c'.buf j).dirty = true →
    (c.buf j).dirty = true ∧ (c'.buf j).dev = (c.buf j).dev ∧ (c'.buf j).blockno = (c.buf j).blockno
  uniq : Uniq c → Uniq c'

theorem Kept.refl (c : Bcache) : Kept c c :=
  ⟨fun _ => Iff.rfl, id, fun _ => rfl, fun _ _ => ⟨rfl, rfl⟩, fun _ h => ⟨h, rfl, rfl⟩, id⟩

theorem Kept.trans {c₁ c₂ c₃ : Bcache} (h₁ : Kept c₁ c₂) (h₂ : Kept c₂ c₃) : Kept c₁ c₃ where
  mem j := (h₂.mem j).trans (h₁.mem j)
  nodup h := h₂.nodup (h₁.nodup h)
  refcnt j := (h₂.refcnt j).trans (h₁.refcnt j)
  pinned j hj := by
    have hj₂ : 1 ≤ (c₂.buf j).refcnt := by rw [h₁.refcnt j]; exact hj
    obtain ⟨hd, hb⟩ := h₁.pinned j hj
    obtain ⟨hd', hb'⟩ := h₂.pinned j hj₂
    exact ⟨hd'.trans hd, hb'.trans hb⟩
  dirty j hj := by
    obtain ⟨hd₂, hd', hb'⟩ := h₂.dirty j hj
    obtain ⟨hd₁, hd, hb⟩ := h₁.dirty j hd₂
    exact ⟨hd₁, hd'.trans hd, hb'.trans hb⟩
  uniq h := h₂.uniq (h₁.uniq h)

/-- No buffer of the root device that holds block `b` is dirty. -/
def CleanAt (c : Bcache) (b : Nat) : Prop :=
  ∀ j ∈ c.lru, (c.buf j).dev = ROOTDEV → (c.buf j).blockno = b → (c.buf j).dirty = false

/-- A clean block stays clean: what is dirty afterwards was dirty, with the same block, before. -/
theorem Kept.cleanAt {c c' : Bcache} {b : Nat} (hk : Kept c c') (h : CleanAt c b) : CleanAt c' b := by
  intro j hj hdev hblk
  cases hd : (c'.buf j).dirty with
  | false => rfl
  | true =>
    obtain ⟨hd₀, hdev', hblk'⟩ := hk.dirty j hd
    rw [hdev'] at hdev
    rw [hblk'] at hblk
    rw [h j ((hk.mem j).1 hj) hdev hblk] at hd₀
    cases hd₀

/-! ### The dirty buffers through a commit's reads -/

/-- What a commit reads of a buffer is the same in `b'` as in `b`: device, block, validity, dirtiness and
contents. -/
structure Buf.Same (b b' : Buf) : Prop where
  dev : b'.dev = b.dev
  blockno : b'.blockno = b.blockno
  valid : b'.valid = b.valid
  dirty : b'.dirty = b.dirty
  data : b'.data = b.data

theorem Buf.Same.refl (b : Buf) : Buf.Same b b := ⟨rfl, rfl, rfl, rfl, rfl⟩

theorem Buf.Same.trans {b₁ b₂ b₃ : Buf} (h₁ : Buf.Same b₁ b₂) (h₂ : Buf.Same b₂ b₃) : Buf.Same b₁ b₃ :=
  ⟨h₂.dev.trans h₁.dev, h₂.blockno.trans h₁.blockno, h₂.valid.trans h₁.valid, h₂.dirty.trans h₁.dirty,
    h₂.data.trans h₁.data⟩

private theorem brelse_same (i : Nat) (c : Bcache) (j : Nat) : Buf.Same (c.buf j) ((brelse i c).buf j) := by
  obtain ⟨hd, hb, hdi, hv, hda, -⟩ := brelse_fields i c j
  exact ⟨hd, hb, hv, hdi, hda⟩

/-- A buffer dirty after `bget` was dirty before: a recycled buffer is clean. -/
theorem bget_dirty {dev blk i j : Nat} {c c' : Bcache} (h : bget dev blk c = some (i, c'))
    (hd : (c'.buf j).dirty = true) : (c.buf j).dirty = true := by
  obtain ⟨-, -, hother, hcase⟩ := bget_cases h
  by_cases hji : j = i
  · subst hji
    rcases hcase with ⟨-, -, hb⟩ | ⟨-, -, -, hb⟩ <;> rw [hb] at hd
    · exact hd
    · cases hd
  · rwa [hother j hji] at hd

/-- `iderw` of a clean buffer only reads. -/
theorem iderw_clean {b b' : Buf} {disk disk' : Disk} (h : iderw b disk = some (b', disk'))
    (hcl : b.dirty = false) : disk' = disk := by
  unfold iderw at h
  split at h
  · cases h
  · split at h
    · rename_i hd
      rw [hcl] at hd
      cases hd
    · cases h
      rfl

/-- `readBuf` writes nothing back when the buffer is valid or clean. -/
theorem readBuf_disk {i : Nat} {c c' : Bcache} {disk disk' : Disk} (h : readBuf i c disk = some (c', disk'))
    (hv : (c.buf i).dirty = true → (c.buf i).valid = true) : disk' = disk := by
  unfold readBuf at h
  split at h
  · cases h
    rfl
  · rename_i hnv
    obtain ⟨⟨b, d⟩, hw, heq⟩ := Option.map_eq_some_iff.1 h
    cases heq
    refine iderw_clean hw ?_
    cases hd : (c.buf i).dirty with
    | false => rfl
    | true => exact absurd (hv hd) hnv

/-- `bwrite` writes the buffer's contents to its block. -/
theorem bwrite_disk {i : Nat} {c c' : Bcache} {disk disk' : Disk} (h : bwrite i c disk = some (c', disk')) :
    disk' = Function.update disk (c.buf i).blockno (c.buf i).data := by
  unfold bwrite at h
  obtain ⟨⟨b, d⟩, hw, heq⟩ := Option.map_eq_some_iff.1 h
  cases heq
  unfold iderw at hw
  simp only [Bool.true_eq_false, and_false, ↓reduceIte, Option.some.injEq, Prod.mk.injEq] at hw
  exact hw.2.symm

/-- `bread` when every dirty buffer is valid: it writes nothing back, and a dirty buffer keeps its device, block,
validity, dirtiness and contents. -/
theorem bread_dirty {dev blk i : Nat} {c c' : Bcache} {disk disk' : Disk}
    (h : bread dev blk c disk = some (i, c', disk'))
    (hv : ∀ j ∈ c.lru, (c.buf j).dirty = true → (c.buf j).valid = true) :
    disk' = disk ∧ ∀ j ∈ c.lru, (c.buf j).dirty = true → Buf.Same (c.buf j) (c'.buf j) := by
  unfold bread at h
  obtain ⟨⟨i₁, c₁⟩, hg, h⟩ := Option.bind_eq_some_iff.1 h
  dsimp only at h
  obtain ⟨⟨c₂, d₂⟩, hr, heq⟩ := Option.bind_eq_some_iff.1 h
  simp only [pure, Option.some.injEq, Prod.mk.injEq] at heq
  obtain ⟨rfl, rfl, rfl⟩ := heq
  obtain ⟨hi, -, -, -⟩ := bget_cases hg
  -- `bget` changes a dirty buffer's reference count only
  have hkeep : ∀ j, (c.buf j).dirty = true → c₁.buf j = { c.buf j with refcnt := (c₁.buf j).refcnt } :=
    fun j hd => bget_keep hg j (.inr hd)
  refine ⟨readBuf_disk hr fun hd => ?_, fun j hj hd => ?_⟩
  · simp only [Bcache.set_buf, Function.update_self] at hd ⊢
    have hd₀ := bget_dirty hg hd
    rw [hkeep i₁ hd₀]
    exact hv i₁ hi hd₀
  · by_cases hji : j = i₁
    · -- the buffer read is dirty, hence valid: the read takes its lock and changes nothing else
      subst hji
      have hval : ((c₁.set j { c₁.buf j with locked := true }).buf j).valid = true := by
        simp only [Bcache.set_buf, Function.update_self]
        rw [hkeep j hd]
        exact hv j hj hd
      rw [readBuf_valid disk hval] at hr
      cases hr
      simp only [Bcache.set_buf, Function.update_self]
      rw [hkeep j hd]
      exact ⟨rfl, rfl, rfl, rfl, rfl⟩
    · rw [(readBuf_spec hr).2.1 j hji, Bcache.set_buf, Function.update_of_ne hji, hkeep j hd]
      exact ⟨rfl, rfl, rfl, rfl, rfl⟩

namespace Bio

/-- The end of `copyBlock` and `write_head`: two releases, of buffers the caller got with `bread`. -/
theorem release_two {src dst : Nat} {c₀ c : Bcache} (hsrc : src ∈ c.lru) (hdst : dst ∈ c.lru)
    (hlru : ∀ j, j ∈ c.lru ↔ j ∈ c₀.lru) :
    (∀ j, j ∈ (brelse dst (brelse src c)).lru ↔ j ∈ c₀.lru) ∧
      (c.lru.Nodup → (brelse dst (brelse src c)).lru.Nodup) := by
  have hdst' : dst ∈ (brelse src c).lru := (brelse_mem hsrc dst).2 hdst
  exact ⟨fun j => ((brelse_mem hdst' j).trans (brelse_mem hsrc j)).trans (hlru j),
    fun hnd => brelse_nodup (brelse_nodup hnd)⟩

private theorem copyBlock_kept {logb home : Nat} {install : Bool} {c c' : Bcache} {disk disk' : Disk}
    (h : copyBlock logb home install c disk = some (c', disk')) :
    Kept c c' ∧ (install = true → Uniq c → CleanAt c' home) := by
  unfold copyBlock at h
  obtain ⟨⟨lb, c₁, d₁⟩, h₁, h⟩ := Option.bind_eq_some_iff.1 h
  dsimp only at h
  obtain ⟨⟨hb, c₂, d₂⟩, h₂, h⟩ := Option.bind_eq_some_iff.1 h
  dsimp only at h
  -- the source and the copy are the two buffers just read, in one order or the other
  have hinst : install = true → (if install then hb else lb) = hb := fun hi => by rw [if_pos hi]
  have hsd : ((if install then lb else hb) = lb ∧ (if install then hb else lb) = hb) ∨
      ((if install then lb else hb) = hb ∧ (if install then hb else lb) = lb) := by
    cases install <;> simp
  generalize (if install then lb else hb) = src at h hsd
  generalize (if install then hb else lb) = dst at h hsd hinst
  obtain ⟨⟨c₃, d₃⟩, h₃, h⟩ := Option.bind_eq_some_iff.1 h
  simp only [pure, Option.some.injEq, Prod.mk.injEq] at h
  obtain ⟨rfl, rfl⟩ := h
  obtain ⟨hlb, hlru₁, -, -, -, -, -, -, -, hu₁⟩ := bread_spec h₁
  obtain ⟨hhb, hlru₂, -, -, hdev₂, hblk₂, -, -, -, hu₂⟩ := bread_spec h₂
  obtain ⟨hlru₃, -, -, -, -, -⟩ := bwrite_spec h₃
  simp only [Bcache.set_lru] at hlru₃
  have hmem₃ : ∀ j, j ∈ c₃.lru ↔ j ∈ c.lru := fun j => by rw [hlru₃, hlru₂, hlru₁]
  have hlb₃ : lb ∈ c₃.lru := (hmem₃ lb).2 hlb
  have hhb₃ : hb ∈ c₃.lru := by rw [hlru₃, hlru₂]; exact hhb
  have hsrc : src ∈ c₃.lru := by rcases hsd with ⟨rfl, -⟩ | ⟨rfl, -⟩ <;> assumption
  have hdst : dst ∈ c₃.lru := by rcases hsd with ⟨-, rfl⟩ | ⟨-, rfl⟩ <;> assumption
  obtain ⟨hmem, hnd⟩ := release_two hsrc hdst hmem₃
  -- what the copy and the write do to each buffer, and the two releases
  have hfields : ∀ j, ((brelse dst (brelse src c₃)).buf j).dev = (c₂.buf j).dev ∧
      ((brelse dst (brelse src c₃)).buf j).blockno = (c₂.buf j).blockno ∧
      (((brelse dst (brelse src c₃)).buf j).dirty = true → (c₂.buf j).dirty = true ∧ j ≠ dst) := by
    intro j
    obtain ⟨hd, hbk, hdi, -, -, -⟩ := brelse_fields dst (brelse src c₃) j
    obtain ⟨hd', hbk', hdi', -, -, -⟩ := brelse_fields src c₃ j
    obtain ⟨hd₃, hb₃, -, hdi₃⟩ := bwrite_frame h₃ j
    exact ⟨by rw [hd, hd', hd₃], by rw [hbk, hbk', hb₃], fun hx => hdi₃ (by rw [← hdi', ← hdi]; exact hx)⟩
  have hu₃ : Uniq c → Uniq c₃ := fun hu => by
    refine uniq_of_fields (by rw [hlru₃]) (fun j => ?_) (hu₂ (hu₁ hu))
    obtain ⟨hd₃, hb₃, -, -⟩ := bwrite_frame h₃ j
    exact ⟨hd₃, hb₃⟩
  have huc : Uniq c → Uniq (brelse dst (brelse src c₃)) := fun hu =>
    brelse_uniq ((brelse_mem hsrc _).2 hdst) (brelse_uniq hsrc (hu₃ hu))
  refine ⟨⟨hmem, fun h => hnd (by rw [hlru₃, hlru₂, hlru₁]; exact h), fun j => ?_, fun j hj => ?_, fun j hj => ?_,
    huc⟩, fun hi hu => ?_⟩
  · -- two references taken, the same two given back
    obtain ⟨-, -, -, -, -, hr⟩ := brelse_fields dst (brelse src c₃) j
    obtain ⟨-, -, -, -, -, hr'⟩ := brelse_fields src c₃ j
    obtain ⟨-, -, hr₃, -⟩ := bwrite_frame h₃ j
    rw [hr, hr', hr₃, (bread_frame h₂ j).2.2, (bread_frame h₁ j).2.2]
    rcases hsd with ⟨rfl, rfl⟩ | ⟨rfl, rfl⟩ <;> split_ifs <;> omega
  · obtain ⟨hd₁, hb₁⟩ := (bread_frame h₁ j).1 hj
    have hj₁ : 1 ≤ (c₁.buf j).refcnt := by rw [(bread_frame h₁ j).2.2]; omega
    obtain ⟨hd₂, hb₂⟩ := (bread_frame h₂ j).1 hj₁
    exact ⟨(hfields j).1.trans (hd₂.trans hd₁), (hfields j).2.1.trans (hb₂.trans hb₁)⟩
  · obtain ⟨hj₂, -⟩ := (hfields j).2.2 hj
    obtain ⟨hj₁, hd₂, hb₂⟩ := (bread_frame h₂ j).2.1 hj₂
    obtain ⟨hj₀, hd₁, hb₁⟩ := (bread_frame h₁ j).2.1 hj₁
    exact ⟨hj₀, (hfields j).1.trans (hd₂.trans hd₁), (hfields j).2.1.trans (hb₂.trans hb₁)⟩
  · -- `install_trans` writes the home buffer back, which leaves it clean
    have hdst_hb := hinst hi
    subst hdst_hb
    intro j hj hdj hbj
    have hhb' : dst ∈ (brelse dst (brelse src c₃)).lru := (hmem dst).2 (hlru₁ ▸ hhb)
    have hjhb : j = dst := huc hu j hj dst hhb' hdj (by rw [(hfields dst).1, hdev₂])
      (by rw [hbj, (hfields dst).2.1, hblk₂])
    subst hjhb
    cases hx : ((brelse j (brelse src c₃)).buf j).dirty with
    | false => rfl
    | true => exact absurd rfl ((hfields j).2.2 hx).2

private theorem write_head_kept {start : Nat} {lh : List Nat} {c c' : Bcache} {disk disk' : Disk}
    (h : write_head start lh c disk = some (c', disk')) : Kept c c' := by
  unfold write_head at h
  obtain ⟨⟨i, c₁, d₁⟩, h₁, h⟩ := Option.bind_eq_some_iff.1 h
  dsimp only at h
  obtain ⟨⟨c₂, d₂⟩, h₂, h⟩ := Option.bind_eq_some_iff.1 h
  simp only [pure, Option.some.injEq, Prod.mk.injEq] at h
  obtain ⟨rfl, rfl⟩ := h
  obtain ⟨hi, hlru₁, -, -, -, -, -, -, -, hu₁⟩ := bread_spec h₁
  obtain ⟨hlru₂, -, -, -, -, -⟩ := bwrite_spec h₂
  simp only [Bcache.set_lru] at hlru₂
  have hi₂ : i ∈ c₂.lru := by rw [hlru₂, hlru₁]; exact hi
  have hfields : ∀ j, ((brelse i c₂).buf j).dev = (c₁.buf j).dev ∧
      ((brelse i c₂).buf j).blockno = (c₁.buf j).blockno ∧
      (((brelse i c₂).buf j).dirty = true → (c₁.buf j).dirty = true) := by
    intro j
    obtain ⟨hd, hbk, hdi, -, -, -⟩ := brelse_fields i c₂ j
    obtain ⟨hd₂, hb₂, -, hdi₂⟩ := bwrite_frame h₂ j
    exact ⟨by rw [hd, hd₂], by rw [hbk, hb₂], fun hx => (hdi₂ (by rw [← hdi]; exact hx)).1⟩
  refine ⟨fun j => ?_, fun hnd => ?_, fun j => ?_, fun j hj => ?_, fun j hj => ?_, fun hu => ?_⟩
  · rw [brelse_mem hi₂, hlru₂, hlru₁]
  · exact brelse_nodup (by rw [hlru₂, hlru₁]; exact hnd)
  · rw [(brelse_fields i c₂ j).2.2.2.2.2, (bwrite_frame h₂ j).2.2.1, (bread_frame h₁ j).2.2]
    split_ifs <;> omega
  · obtain ⟨hd₁, hb₁⟩ := (bread_frame h₁ j).1 hj
    exact ⟨(hfields j).1.trans hd₁, (hfields j).2.1.trans hb₁⟩
  · obtain ⟨hj₀, hd₁, hb₁⟩ := (bread_frame h₁ j).2.1 ((hfields j).2.2 hj)
    exact ⟨hj₀, (hfields j).1.trans hd₁, (hfields j).2.1.trans hb₁⟩
  · refine brelse_uniq hi₂ (uniq_of_fields (by rw [hlru₂]) (fun j => ?_) (hu₁ hu))
    obtain ⟨hd₂, hb₂, -, -⟩ := bwrite_frame h₂ j
    exact ⟨hd₂, hb₂⟩

/-- The loop of `write_log` or `install_trans` over any rounds: the cache is kept, and after `install_trans` the
blocks of the rounds run are clean. -/
theorem copyLoop_kept {start : Nat} {lh : List Nat} {install : Bool} (L : List Nat) {c c' : Bcache}
    {disk disk' : Disk} (h : L.foldlM (copyStep start lh install) (c, disk) = some (c', disk')) :
    Kept c c' ∧ (install = true → Uniq c → ∀ t ∈ L, CleanAt c' (lh.getD t 0)) := by
  induction L generalizing c disk with
  | nil =>
    simp only [List.foldlM_nil, pure, Option.some.injEq, Prod.mk.injEq] at h
    obtain ⟨rfl, rfl⟩ := h
    exact ⟨Kept.refl c, fun _ _ t ht => absurd ht List.not_mem_nil⟩
  | cons t L ih =>
    rw [List.foldlM_cons] at h
    obtain ⟨⟨c₁, d₁⟩, h₁, h⟩ := Option.bind_eq_some_iff.1 h
    obtain ⟨hk₁, hcl₁⟩ := copyBlock_kept h₁
    obtain ⟨hk, hcl⟩ := ih h
    refine ⟨hk₁.trans hk, fun hi hu t' ht' => ?_⟩
    -- the block of this round is clean now and stays clean through the later rounds
    rcases List.mem_cons.1 ht' with rfl | ht'
    · exact hk.cleanAt (hcl₁ hi hu)
    · exact hcl hi (hk₁.uniq hu) t' ht'

/-- `commit()` through the cache keeps it, and leaves no buffer dirty when the dirty buffers were the header's
blocks. -/
theorem commit_kept {start : Nat} {lh : List Nat} {c c' : Bcache} {disk disk' : Disk}
    (h : commit start lh c disk = some (c', disk')) (hu : Uniq c)
    (hdirty : ∀ j ∈ c.lru, (c.buf j).dirty = true → (c.buf j).dev = ROOTDEV ∧ (c.buf j).blockno ∈ lh) :
    Kept c c' ∧ ∀ j ∈ c'.lru, (c'.buf j).dirty = false := by
  unfold commit at h
  split at h
  · obtain ⟨⟨c₁, d₁⟩, h₁, h⟩ := Option.bind_eq_some_iff.1 h
    dsimp only at h
    obtain ⟨⟨c₂, d₂⟩, h₂, h⟩ := Option.bind_eq_some_iff.1 h
    dsimp only at h
    obtain ⟨⟨c₃, d₃⟩, h₃, h₄⟩ := Option.bind_eq_some_iff.1 h
    have hk₁ := (copyLoop_kept _ h₁).1
    have hk₂ := write_head_kept h₂
    obtain ⟨hk₃, hcl₃⟩ := copyLoop_kept _ h₃
    have hk₄ := write_head_kept h₄
    have hk := hk₁.trans (hk₂.trans (hk₃.trans hk₄))
    refine ⟨hk, fun j hj => ?_⟩
    -- a buffer dirty at the end was dirty at the start, with a block of the header, which `install_trans` cleaned
    cases hx : (c'.buf j).dirty with
    | false => rfl
    | true =>
      obtain ⟨hd₀, hdev, hblk⟩ := hk.dirty j hx
      obtain ⟨hroot, hmem⟩ := hdirty j ((hk.mem j).1 hj) hd₀
      obtain ⟨t, ht, hget⟩ := List.mem_iff_getElem.1 hmem
      have hclean := hk₄.cleanAt (hcl₃ rfl (hk₂.uniq (hk₁.uniq hu)) t (List.mem_range.2 ht))
      have hd := hclean j hj (hdev.trans hroot) (by rw [hblk, List.getD_eq_getElem lh 0 ht, hget])
      rw [hx] at hd
      cases hd
  · -- an empty header, and so no dirty buffer
    rename_i hlen
    cases h
    refine ⟨Kept.refl c, fun j hj => ?_⟩
    cases hx : (c.buf j).dirty with
    | false => rfl
    | true =>
      have hmem := (hdirty j hj hx).2
      have : lh = [] := List.eq_nil_of_length_eq_zero (by omega)
      rw [this] at hmem
      cases hmem

/-! ### What `write_log` copies -/

/-- One round of `write_log`, when the dirty buffers are valid and none holds the log block: the log block
receives the contents of the dirty buffer of the home block, and every dirty buffer stays as it was. -/
theorem copyBlock_log {logb home i : Nat} {c c' : Bcache} {disk disk' : Disk}
    (h : copyBlock logb home false c disk = some (c', disk')) (hu : Uniq c)
    (hdv : ∀ j ∈ c.lru, (c.buf j).dirty = true → (c.buf j).valid = true ∧ (c.buf j).blockno ≠ logb)
    (hi : i ∈ c.lru) (hdev : (c.buf i).dev = ROOTDEV) (hblk : (c.buf i).blockno = home)
    (hd : (c.buf i).dirty = true) :
    disk' = Function.update disk logb (c.buf i).data ∧
      ∀ j ∈ c.lru, (c.buf j).dirty = true → Buf.Same (c.buf j) (c'.buf j) := by
  unfold copyBlock at h
  obtain ⟨⟨lb, c₁, d₁⟩, h₁, h⟩ := Option.bind_eq_some_iff.1 h
  dsimp only at h
  obtain ⟨⟨hb, c₂, d₂⟩, h₂, h⟩ := Option.bind_eq_some_iff.1 h
  simp only [Bool.false_eq_true, ↓reduceIte] at h
  obtain ⟨⟨c₃, d₃⟩, h₃, h⟩ := Option.bind_eq_some_iff.1 h
  simp only [pure, Option.some.injEq, Prod.mk.injEq] at h
  obtain ⟨rfl, rfl⟩ := h
  obtain ⟨-, hlru₁, -, -, -, hblk₁, -, -, -, hu₁⟩ := bread_spec h₁
  obtain ⟨hhb, hlru₂, hother₂, -, hdev₂, hblk₂, -, -, -, hu₂⟩ := bread_spec h₂
  -- the two reads write nothing back and keep the dirty buffers
  obtain ⟨rfl, hsame₁⟩ := bread_dirty h₁ fun j hj hd => (hdv j hj hd).1
  have hdv₁ : ∀ j ∈ c₁.lru, (c₁.buf j).dirty = true → (c₁.buf j).valid = true := by
    intro j hj hd₁
    rw [hlru₁] at hj
    obtain ⟨hd₀, -, -⟩ := (bread_frame h₁ j).2.1 hd₁
    rw [(hsame₁ j hj hd₀).valid]
    exact (hdv j hj hd₀).1
  obtain ⟨rfl, hsame₂⟩ := bread_dirty h₂ hdv₁
  have hsame : ∀ j ∈ c.lru, (c.buf j).dirty = true → Buf.Same (c.buf j) (c₂.buf j) := fun j hj hd =>
    (hsame₁ j hj hd).trans (hsame₂ j (hlru₁ ▸ hj) (by rw [(hsame₁ j hj hd).dirty]; exact hd))
  have hsi := hsame i hi hd
  -- the home buffer read is `i`, the one buffer of the device holding `home`
  have hbi : hb = i := hu₂ (hu₁ hu) hb (by rw [hlru₂]; exact hhb) i (by rw [hlru₂, hlru₁]; exact hi) hdev₂
    (hsi.dev.trans hdev) (hblk₂.trans (hsi.blockno.trans hblk).symm)
  subst hbi
  -- the log buffer holds `logb`, which no dirty buffer holds
  have hne : ∀ j ∈ c.lru, (c.buf j).dirty = true → j ≠ lb := fun j hj hdj he =>
    (hdv j hj hdj).2 (by rw [← (hsame₁ j hj hdj).blockno, he, hblk₁])
  refine ⟨?_, fun j hj hdj => ?_⟩
  · rw [bwrite_disk h₃]
    simp only [Bcache.set_buf, Function.update_self]
    rw [hother₂ lb (hne hb hi hd).symm, hblk₁, hsi.data]
  · have h₃j : c₃.buf j = c₂.buf j := by
      rw [(bwrite_spec h₃).2.1 j (hne j hj hdj), Bcache.set_buf, Function.update_of_ne (hne j hj hdj)]
    have hs₃ : Buf.Same (c₂.buf j) (c₃.buf j) := h₃j ▸ Buf.Same.refl _
    exact (hsame j hj hdj).trans (hs₃.trans ((brelse_same hb c₃ j).trans (brelse_same lb _ j)))

/-- The rounds `L` of `write_log`, each run once: each writes its log block with the contents of the dirty
buffer of its home block, and no other block is written. -/
theorem write_log_loop {start : Nat} {lh : List Nat} (L : List Nat) {c c' : Bcache} {disk disk' : Disk}
    (h : L.foldlM (copyStep start lh false) (c, disk) = some (c', disk')) (hnd : L.Nodup) (hu : Uniq c)
    (hdv : ∀ j ∈ c.lru, (c.buf j).dirty = true →
      (c.buf j).valid = true ∧ ∀ t ∈ L, (c.buf j).blockno ≠ start + t + 1)
    (hpin : ∀ t ∈ L, ∃ i ∈ c.lru, (c.buf i).dev = ROOTDEV ∧ (c.buf i).blockno = lh.getD t 0 ∧
      (c.buf i).dirty = true) :
    (∀ b, (∀ t ∈ L, b ≠ start + t + 1) → disk' b = disk b) ∧
      ∀ t ∈ L, ∃ i ∈ c.lru, (c.buf i).dev = ROOTDEV ∧ (c.buf i).blockno = lh.getD t 0 ∧
        (c.buf i).dirty = true ∧ disk' (start + t + 1) = (c.buf i).data := by
  induction L generalizing c disk with
  | nil =>
    simp only [List.foldlM_nil, pure, Option.some.injEq, Prod.mk.injEq] at h
    obtain ⟨rfl, rfl⟩ := h
    exact ⟨fun _ _ => rfl, fun t ht => absurd ht List.not_mem_nil⟩
  | cons t L ih =>
    rw [List.foldlM_cons] at h
    obtain ⟨⟨c₁, d₁⟩, h₁, h⟩ := Option.bind_eq_some_iff.1 h
    obtain ⟨htL, hnd'⟩ := List.nodup_cons.1 hnd
    obtain ⟨i, hi, hdev, hblk, hd⟩ := hpin t List.mem_cons_self
    obtain ⟨hd₁, hsame⟩ := copyBlock_log h₁ hu
      (fun j hj hdj => ⟨(hdv j hj hdj).1, (hdv j hj hdj).2 t List.mem_cons_self⟩) hi hdev hblk hd
    have hk := (copyBlock_kept h₁).1
    -- a buffer dirty after the round was dirty before it, and is the same
    have hback : ∀ j ∈ c₁.lru, (c₁.buf j).dirty = true →
        j ∈ c.lru ∧ (c.buf j).dirty = true ∧ Buf.Same (c.buf j) (c₁.buf j) := by
      intro j hj hdj
      have hj₀ := (hk.mem j).1 hj
      have hd₀ := (hk.dirty j hdj).1
      exact ⟨hj₀, hd₀, hsame j hj₀ hd₀⟩
    have hdv₁ : ∀ j ∈ c₁.lru, (c₁.buf j).dirty = true →
        (c₁.buf j).valid = true ∧ ∀ t' ∈ L, (c₁.buf j).blockno ≠ start + t' + 1 := by
      intro j hj hdj
      obtain ⟨hj₀, hd₀, hs⟩ := hback j hj hdj
      obtain ⟨hv, hne⟩ := hdv j hj₀ hd₀
      exact ⟨hs.valid.trans hv, fun t' ht' => hs.blockno ▸ hne t' (List.mem_cons_of_mem _ ht')⟩
    have hpin₁ : ∀ t' ∈ L, ∃ i ∈ c₁.lru, (c₁.buf i).dev = ROOTDEV ∧ (c₁.buf i).blockno = lh.getD t' 0 ∧
        (c₁.buf i).dirty = true := by
      intro t' ht'
      obtain ⟨i', hi', hdev', hblk', hd'⟩ := hpin t' (List.mem_cons_of_mem _ ht')
      have hs := hsame i' hi' hd'
      exact ⟨i', (hk.mem i').2 hi', hs.dev.trans hdev', hs.blockno.trans hblk', hs.dirty.trans hd'⟩
    obtain ⟨hframe, hlog⟩ := ih h hnd' (hk.uniq hu) hdv₁ hpin₁
    -- the later rounds write other log blocks than this one
    have hlater : ∀ t' ∈ L, start + t + 1 ≠ start + t' + 1 := fun t' ht' he =>
      htL (by rw [show t = t' by omega]; exact ht')
    refine ⟨fun b hb => ?_, fun t' ht' => ?_⟩
    · rw [hframe b (fun t' ht' => hb t' (List.mem_cons_of_mem _ ht')), hd₁,
        Function.update_of_ne (hb t List.mem_cons_self)]
    · rcases List.mem_cons.1 ht' with rfl | ht'
      · refine ⟨i, hi, hdev, hblk, hd, ?_⟩
        rw [hframe _ hlater, hd₁, Function.update_self]
      · obtain ⟨i', hi', hdev', hblk', hd', hdisk⟩ := hlog t' ht'
        obtain ⟨hi₀, hd₀, hs⟩ := hback i' hi' hd'
        exact ⟨i', hi₀, hs.dev.symm.trans hdev', hs.blockno.symm.trans hblk', hd₀, hdisk.trans hs.data⟩

/-- `write_log`, when the dirty buffers are valid, hold no log block, and include one for each block of the
header: log block `start + t + 1` receives the contents of the dirty buffer of `lh[t]`. -/
theorem write_log_copies {start : Nat} {lh : List Nat} {c c' : Bcache} {disk disk' : Disk}
    (h : write_log start lh c disk = some (c', disk')) (hu : Uniq c)
    (hdv : ∀ j ∈ c.lru, (c.buf j).dirty = true →
      (c.buf j).valid = true ∧ ∀ t < lh.length, (c.buf j).blockno ≠ start + t + 1)
    (hpin : ∀ b ∈ lh, ∃ i ∈ c.lru, (c.buf i).dev = ROOTDEV ∧ (c.buf i).blockno = b ∧ (c.buf i).dirty = true) :
    ∀ t < lh.length, ∃ i ∈ c.lru, (c.buf i).dev = ROOTDEV ∧ (c.buf i).blockno = lh.getD t 0 ∧
      (c.buf i).dirty = true ∧ disk' (start + t + 1) = (c.buf i).data := by
  have hmem : ∀ t ∈ List.range lh.length, lh.getD t 0 ∈ lh := fun t ht => by
    rw [List.getD_eq_getElem _ _ (List.mem_range.1 ht)]
    exact List.getElem_mem _
  have hloop := write_log_loop (List.range lh.length) h List.nodup_range hu
    (fun j hj hdj => ⟨(hdv j hj hdj).1, fun t ht => (hdv j hj hdj).2 t (List.mem_range.1 ht)⟩)
    (fun t ht => hpin _ (hmem t ht))
  exact fun t ht => hloop.2 t (List.mem_range.2 ht)

end Bio

end Xv6
