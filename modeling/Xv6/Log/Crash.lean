import Mathlib
import Xv6.Log.Protocol

/-!
# Crashes during `commit` and `recover_from_log`

`commit` writes the transaction's blocks into the log, then the header (the commit point), then the home
blocks, then the empty header.  Every boot runs `recover_from_log`, which installs what the header names and
empties it.  The disk may stop after any write of either, and a recovery that stopped runs again at the next
boot.

Whatever the crash points, the disk ends with an empty header and, outside the log region, with every block as it
was or every block as the transaction wrote it (`commit_recover_atomic`).  Inside the log region the blocks
`write_log` managed to write stay changed (`commit_crash_changes_log_block`).  The proof follows the three phases a
crash can leave: nothing of the transaction on disk, the transaction committed, the transaction installed.
-/

namespace Xv6

open CrashWrites

/-- A block outside the log region `[start, start + size)`. -/
def outsideLog (start size b : Nat) : Prop := b < start ∨ start + size ≤ b

instance (start size b : Nat) : Decidable (outsideLog start size b) :=
  inferInstanceAs (Decidable (b < start ∨ start + size ≤ b))

/-- A transaction as `commit` finds it: the in-memory header and the cached contents of its blocks.  `log_write`
keeps `lh.n` below `LOGSIZE` and `log.size - 1`, and file-system code logs only blocks outside the log; block
numbers are `uint`. -/
structure Txn (start size : Nat) where
  lh : List Nat
  cached : Nat → Block
  length_lt : lh.length < size
  length_le : lh.length ≤ LOGSIZE
  outside : ∀ b ∈ lh, outsideLog start size b
  lt_uint : ∀ b ∈ lh, b < 2 ^ 32

/-- The disk `d` as the transaction leaves it: its blocks hold the cached contents. -/
def Txn.written {start size : Nat} (t : Txn start size) (d : Disk) : Disk :=
  fun b => if b ∈ t.lh then t.cached b else d b

/-- In a reachable log `log_write`'s checks keep the header within what the log and the header block hold. -/
theorem LogSys.header_fits {s : LogSys} (h : s.Reachable) (hp : s.panicked = none) :
    s.log.lh.length < s.log.size ∧ s.log.lh.length ≤ LOGSIZE := by
  have hi := LogSys.reachable_safe h
  simp only [LogSys.Safe, hp] at hi
  have hl := hi.lh_length
  rw [hi.size_eq] at hl ⊢
  omega

/-- The transaction a reachable log commits, with the cached contents of its blocks, given that file-system code
logs only `uint` block numbers outside the log. -/
def LogSys.txn (s : LogSys) (h : s.Reachable) (hp : s.panicked = none) (cached : Nat → Block)
    (hout : ∀ b ∈ s.log.lh, outsideLog s.log.start s.log.size b) (hu : ∀ b ∈ s.log.lh, b < 2 ^ 32) :
    Txn s.log.start s.log.size where
  lh := s.log.lh
  cached := cached
  length_lt := (LogSys.header_fits h hp).1
  length_le := (LogSys.header_fits h hp).2
  outside := hout
  lt_uint := hu

/-- Each boot runs `recover_from_log`; on the boots of `ks` it stops after `k` writes, and the last one runs to the
end. -/
def recoverAfterCrashes (start : Nat) : List Nat → Disk → Disk
  | [], d => exec (recover_from_log start d) d
  | k :: ks, d => recoverAfterCrashes start ks (exec ((recover_from_log start d).take k) d)

/-! ### The header block -/

private theorem headBlock_fits {lh : List Nat} (h : lh.length ≤ LOGSIZE) : 4 + 4 * lh.length ≤ BSIZE := by
  unfold LOGSIZE MAXOPBLOCKS at h
  unfold BSIZE
  omega

private theorem getI32_headBlock (hb : Block) {lh : List Nat} (h : lh.length ≤ LOGSIZE) :
    LEBytes.getI32 (headBlock hb lh) 0 = lh.length := by
  unfold LOGSIZE MAXOPBLOCKS at h
  unfold headBlock
  rw [LEBytes.getI32_foldl_setI32_below _ _ _ _ (Nat.le_refl 4),
    LEBytes.getI32_setI32_self _ (by unfold BSIZE; omega) (by omega) (by omega)]

private theorem getU32_headBlock (hb : Block) {lh : List Nat} (h : lh.length ≤ LOGSIZE) {i : Nat} (hi : i < lh.length)
    (hu : lh.getD i 0 < 2 ^ 32) : LEBytes.getU32 (headBlock hb lh) (4 + 4 * i) = lh.getD i 0 := by
  have := LEBytes.getU32_foldl_setI32 4 (fun j => (lh.getD j 0 : Int)) (LEBytes.setI32 hb 0 lh.length)
    (headBlock_fits h) hi (by omega) (by omega)
  simp only [Int.toNat_natCast] at this
  exact this

private theorem getD_mem {l : List Nat} {i : Nat} (h : i < l.length) : l.getD i 0 ∈ l := by
  rw [List.getD_eq_getElem?_getD, List.getElem?_eq_getElem h]
  exact List.getElem_mem h

private theorem map_getD_range (l : List Nat) : (List.range l.length).map (fun i => l.getD i 0) = l := by
  apply List.ext_getElem (by simp)
  intro i h1 h2
  simp [List.getD_eq_getElem?_getD, List.getElem?_eq_getElem h2]

/-- `write_head` followed by `read_head` gives back the header. -/
theorem read_head_headBlock (hb : Block) {lh : List Nat} (h : lh.length ≤ LOGSIZE) (hu : ∀ b ∈ lh, b < 2 ^ 32) :
    read_head (headBlock hb lh) = lh := by
  unfold read_head
  rw [getI32_headBlock hb h, Int.toNat_natCast]
  apply List.ext_getElem (by simp)
  intro i h1 h2
  rw [List.getElem_map, List.getElem_range, getU32_headBlock hb h h2 (hu _ (getD_mem h2)),
    List.getD_eq_getElem?_getD, List.getElem?_eq_getElem h2, Option.getD_some]

private theorem read_head_of_empty {hb : Block} (h : LEBytes.getI32 hb 0 = 0) : read_head hb = [] := by
  simp [read_head, h]

/-! ### The phases a crash can leave -/

section Phases

variable {start size : Nat} (t : Txn start size) (d : Disk)

/-- The header is empty and, outside the log, the disk `e` agrees with `r`: nothing left to recover. -/
structure Clean (start size : Nat) (r e : Disk) : Prop where
  head : LEBytes.getI32 (e start) 0 = 0
  home : ∀ b, outsideLog start size b → e b = r b

/-- The transaction is committed on `e`: the header names its blocks, the log holds their cached contents, and
the blocks outside the log that it does not write are as in `d`. -/
structure Committed (e : Disk) : Prop where
  head : read_head (e start) = t.lh
  logged : ∀ i < t.lh.length, e (start + i + 1) = t.cached (t.lh.getD i 0)
  home : ∀ b, outsideLog start size b → b ∉ t.lh → e b = d b

/-- What a crash can leave: nothing of the transaction, the transaction committed, or all of it installed. -/
def Phase (e : Disk) : Prop := Clean start size d e ∨ Committed t d e ∨ Clean start size (t.written d) e

variable {t d}

private theorem Txn.size_pos (t : Txn start size) : 0 < size := Nat.lt_of_le_of_lt (Nat.zero_le _) t.length_lt

private theorem ne_start_of_outside {b : Nat} (hs : 0 < size) (hb : outsideLog start size b) : b ≠ start := by
  unfold outsideLog at hb
  omega

/-- The log's data blocks are inside the log region. -/
theorem Txn.ne_log {b i : Nat} (hb : outsideLog start size b) (hi : i < t.lh.length) : b ≠ start + i + 1 := by
  have := t.length_lt
  unfold outsideLog at hb
  omega

/-- Emptying the header makes the disk clean, with whatever the blocks outside the log hold. -/
theorem clean_write_head_nil {r e : Disk} (hs : 0 < size) (h : ∀ b, outsideLog start size b → e b = r b) :
    Clean start size r (apply (write_head start []) e) := by
  constructor
  · show LEBytes.getI32 (Function.update e start (headBlock (e start) []) start) 0 = 0
    rw [Function.update_self, getI32_headBlock _ (Nat.zero_le _), List.length_nil]
    rfl
  · intro b hb
    show Function.update e start _ b = r b
    rw [Function.update_of_ne (ne_start_of_outside hs hb)]
    exact h b hb

private theorem recover_from_log_clean {r e : Disk} (h : Clean start size r e) :
    recover_from_log start e = [write_head start []] := by
  unfold recover_from_log
  rw [read_head_of_empty h.head]
  rfl

/-- A recovery that finds nothing to install keeps the disk clean, wherever it stops. -/
theorem clean_recover_take {r e : Disk} (hs : 0 < size) (h : Clean start size r e) (k : Nat) :
    Clean start size r (exec ((recover_from_log start e).take k) e) := by
  rw [recover_from_log_clean h]
  refine exec_take_inv _ (fun a ha m hm => ?_) k h
  rw [List.mem_singleton] at ha
  subst ha
  exact clean_write_head_nil hs hm.home

/-! ### Installing a committed transaction -/

private theorem committed_install_step {e : Disk} (h : Committed t d e) {j : Nat} (hj : j < t.lh.length) :
    Committed t d (Function.update e (t.lh.getD j 0) (e (start + j + 1))) := by
  have hout := t.outside _ (getD_mem hj)
  constructor
  · rw [Function.update_of_ne (ne_start_of_outside t.size_pos hout).symm]
    exact h.head
  · intro i hi
    rw [Function.update_of_ne (t.ne_log hout hi).symm]
    exact h.logged i hi
  · intro b hb hbl
    have hne : b ≠ t.lh.getD j 0 := fun hbj => hbl (hbj ▸ getD_mem hj)
    rw [Function.update_of_ne hne]
    exact h.home b hb hbl

private theorem committed_install_take {e : Disk} (h : Committed t d e) (k : Nat) :
    Committed t d (exec ((install_trans start t.lh).take k) e) := by
  refine exec_take_inv _ (fun a ha m hm => ?_) k h
  obtain ⟨j, hj, rfl⟩ := List.mem_map.1 ha
  exact committed_install_step hm (List.mem_range.1 hj)

/-- Installing a committed transaction puts every block it logged at its cached contents. -/
theorem exec_install_trans {e : Disk} (h : Committed t d e) (c : Nat) :
    exec (install_trans start t.lh) e c = if c ∈ t.lh then t.cached c else e c := by
  have := exec_map_eq (P := Committed t d) (List.range t.lh.length) (fun j => t.lh.getD j 0)
    (fun j m => m (start + j + 1)) t.cached
    (fun j hj m hm => committed_install_step hm (List.mem_range.1 hj))
    (fun j hj m hm => hm.logged j (List.mem_range.1 hj)) h c
  rw [map_getD_range] at this
  exact this

/-- The rest of `commit` after its commit point, which is also the whole of a recovery that finds it: install,
then empty the header. -/
theorem committed_finish {e : Disk} (h : Committed t d e) :
    Clean start size (t.written d) (exec (install_trans start t.lh ++ [write_head start []]) e) := by
  rw [exec_concat]
  refine clean_write_head_nil t.size_pos fun b hb => ?_
  rw [exec_install_trans h, Txn.written]
  split
  · rfl
  · exact h.home b hb ‹_›

private theorem recover_from_log_committed {e : Disk} (h : Committed t d e) :
    recover_from_log start e = install_trans start t.lh ++ [write_head start []] := by
  unfold recover_from_log
  rw [h.head]

/-- Stopped after the commit point, in `commit` or in a recovery, the transaction is still committed or is
installed. -/
theorem committed_finish_take {e : Disk} (h : Committed t d e) (k : Nat) :
    Phase t d (exec ((install_trans start t.lh ++ [write_head start []]).take k) e) := by
  by_cases hk : k ≤ (install_trans start t.lh).length
  · rw [exec_take_append_of_le hk]
    exact Or.inr (Or.inl (committed_install_take h k))
  · rw [exec_take_append_of_ge (by omega), List.take_of_length_le (by simp; omega), ← exec_append]
    exact Or.inr (Or.inr (committed_finish h))

private theorem clean_recover {r e : Disk} (hs : 0 < size) (h : Clean start size r e) :
    Clean start size r (exec (recover_from_log start e) e) := by
  have := clean_recover_take hs h (recover_from_log start e).length
  rwa [List.take_length] at this

/-- A recovery stopped anywhere leaves one of the phases. -/
theorem phase_recover_take {e : Disk} (h : Phase t d e) (k : Nat) :
    Phase t d (exec ((recover_from_log start e).take k) e) := by
  rcases h with h | h | h
  · exact Or.inl (clean_recover_take t.size_pos h k)
  · rw [recover_from_log_committed h]
    exact committed_finish_take h k
  · exact Or.inr (Or.inr (clean_recover_take t.size_pos h k))

/-- A recovery run to the end leaves nothing to recover, and the transaction all undone or all done. -/
theorem phase_recover {e : Disk} (h : Phase t d e) :
    Clean start size d (exec (recover_from_log start e) e) ∨
      Clean start size (t.written d) (exec (recover_from_log start e) e) := by
  rcases h with h | h | h
  · exact Or.inl (clean_recover t.size_pos h)
  · rw [recover_from_log_committed h]
    exact Or.inr (committed_finish h)
  · exact Or.inr (clean_recover t.size_pos h)

private theorem phase_recoverAfterCrashes {e : Disk} (h : Phase t d e) (ks : List Nat) :
    Clean start size d (recoverAfterCrashes start ks e) ∨
      Clean start size (t.written d) (recoverAfterCrashes start ks e) := by
  -- each stopped boot leaves a phase, and the last boot finishes
  induction ks generalizing e with
  | nil => exact phase_recover h
  | cons k ks ih => exact ih (phase_recover_take h k)

/-! ### The writes of `commit` -/

/-- Writing the log changes no block outside it and not the header. -/
theorem clean_write_log_take {r e : Disk} (h : Clean start size r e) (k : Nat) :
    Clean start size r (exec ((write_log start t.lh t.cached).take k) e) := by
  refine exec_take_inv _ (fun a ha m hm => ?_) k h
  obtain ⟨j, hj, rfl⟩ := List.mem_map.1 ha
  have hj := List.mem_range.1 hj
  constructor
  · show LEBytes.getI32 (Function.update m (start + j + 1) _ start) 0 = 0
    rw [Function.update_of_ne (by omega)]
    exact hm.head
  · intro b hb
    show Function.update m (start + j + 1) _ b = r b
    rw [Function.update_of_ne (t.ne_log hb hj)]
    exact hm.home b hb

private theorem exec_write_log (e : Disk) (c : Nat) :
    exec (write_log start t.lh t.cached) e c =
      if c ∈ (List.range t.lh.length).map (fun j => start + j + 1) then t.cached (t.lh.getD (c - (start + 1)) 0)
      else e c :=
  exec_map_eq (P := fun _ => True) (List.range t.lh.length) (fun j => start + j + 1)
    (fun j _ => t.cached (t.lh.getD j 0)) (fun c => t.cached (t.lh.getD (c - (start + 1)) 0))
    (fun _ _ _ _ => trivial) (fun j _ _ _ => by simp) trivial c

/-- The commit point: with the log written, writing the header commits the transaction. -/
theorem committed_write_head : Committed t d (apply (write_head start t.lh) (exec (write_log start t.lh t.cached) d)) := by
  constructor
  · show read_head (Function.update (exec (write_log start t.lh t.cached) d) start (headBlock _ t.lh) start) = t.lh
    rw [Function.update_self]
    exact read_head_headBlock _ t.length_le t.lt_uint
  · intro i hi
    show Function.update (exec (write_log start t.lh t.cached) d) start _ (start + i + 1) = _
    rw [Function.update_of_ne (by omega), exec_write_log,
      if_pos (List.mem_map.2 ⟨i, List.mem_range.2 hi, rfl⟩), show start + i + 1 - (start + 1) = i by omega]
  · intro b hb _
    show Function.update (exec (write_log start t.lh t.cached) d) start _ b = d b
    rw [Function.update_of_ne (ne_start_of_outside t.size_pos hb), exec_write_log, if_neg]
    -- the log's data blocks are all inside the log region
    intro hm
    obtain ⟨j, hj, hjb⟩ := List.mem_map.1 hm
    exact t.ne_log hb (List.mem_range.1 hj) hjb.symm

/-- A crash anywhere in `commit` leaves one of the phases. -/
theorem phase_commit_take (hn : LEBytes.getI32 (d start) 0 = 0) (k : Nat) :
    Phase t d (exec ((commit start t.lh t.cached).take k) d) := by
  have hd : Clean start size d d := ⟨hn, fun _ _ => rfl⟩
  unfold commit
  split
  · simp only [List.append_assoc]
    by_cases hk : k ≤ (write_log start t.lh t.cached).length
    · -- before the commit point the header is still empty
      rw [exec_take_append_of_le hk]
      exact Or.inl (clean_write_log_take hd k)
    · rw [exec_take_append_of_ge (by omega)]
      obtain ⟨k', hk'⟩ : ∃ k', k - (write_log start t.lh t.cached).length = k' + 1 := ⟨_, (Nat.succ_pred_eq_of_pos (by omega)).symm⟩
      rw [hk', List.singleton_append, List.take_succ_cons, exec_cons]
      exact committed_finish_take committed_write_head k'
  · rw [List.take_nil]
    exact Or.inl hd

end Phases

/-- Whatever prefix of `commit` reaches the disk, and however often the following recoveries are cut short, the
last recovery leaves an empty header and, outside the log, the transaction all undone or all done. -/
theorem commit_recover_atomic {start size : Nat} (t : Txn start size) (d : Disk) (hn : LEBytes.getI32 (d start) 0 = 0)
    (k : Nat) (ks : List Nat) :
    Clean start size d (recoverAfterCrashes start ks (exec ((commit start t.lh t.cached).take k) d)) ∨
      Clean start size (t.written d) (recoverAfterCrashes start ks (exec ((commit start t.lh t.cached).take k) d)) :=
  phase_recoverAfterCrashes (phase_commit_take hn k) ks

theorem commit_recover_atomic_one_block :
    LEBytes.getI32 ((fun _ _ => 0 : Disk) 2) 0 = 0 ∧
      (Clean 2 LOGSIZE (fun _ _ => 0)
          (recoverAfterCrashes 2 [] (exec ((commit 2 [100] fun _ _ => 255).take 1) fun _ _ => 0)) ∨
        Clean 2 LOGSIZE (fun b => if b ∈ [100] then fun _ => 255 else fun _ => 0)
          (recoverAfterCrashes 2 [] (exec ((commit 2 [100] fun _ _ => 255).take 1) fun _ _ => 0))) :=
  ⟨by decide, commit_recover_atomic ⟨[100], fun _ _ => 255, by decide, by decide, by decide, by decide⟩ _ (by decide) 1 []⟩

/-- The blocks of the log region are not restored: a commit stopped after its first write and then recovered
leaves log block `start + 1` with the transaction's contents. -/
theorem commit_crash_changes_log_block :
    LEBytes.getI32 ((fun _ _ => 0 : Disk) 2) 0 = 0 ∧ 3 ∉ [100] ∧
      recoverAfterCrashes 2 [] (exec ((commit 2 [100] fun _ _ => 255).take 1) fun _ _ => 0) 3 ≠ fun _ => 0 := by
  refine ⟨by decide, by decide, fun h => ?_⟩
  have h0 := congrFun h ⟨0, by decide⟩
  revert h0
  decide

end Xv6
