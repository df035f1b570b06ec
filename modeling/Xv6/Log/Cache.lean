import Mathlib.Data.List.Nodup
import Xv6.Bio.Cache
import Xv6.Log.Crash

/-!
# The log and the buffer cache together

Threads run file-system operations as `LogSys` has them, and reach blocks through the buffer cache: `bget`, then
the buffer's sleep lock (with the read of the block if the buffer is not valid), then a change of the contents
followed by `log_write`, then `brelse`.  `refcnt` counts the threads between `bget` and `brelse`, waiting for the
lock or holding it.  The commit runs `Bio.commit` through the cache at a moment when no thread holds a buffer
lock; the other threads cannot begin an operation while it runs.  `txn` records, for the proof only, what the
current transaction last wrote to each block.

In every reachable state without a panic, each block of the header `lh` is cached in exactly one buffer, which is
dirty and holds what the transaction last wrote to the block; so `write_log`, run through the cache, gives log
block `start + t + 1` what the transaction last wrote to `lh[t]` (`reachable_logged_buffer`).  The invariant `Inv`
carries it: a dirty buffer is valid, of the root device, holds a block of the header and its last contents; no two
buffers of the device hold one block; the header's blocks lie outside the log; and a buffer's `refcnt` is the
number of threads that have it, so that `bget` recycles neither a buffer in use nor a dirty one.  Until a panic the
log protocol's part of a state is a reachable state of `LogSys` (`reachable_sys`), so the header fits the log.
-/

namespace Xv6

/-- A thread with a buffer from `bget`: waiting for its lock, or holding it. -/
structure Holder where
  tid : Nat
  buf : Nat
  holds : Bool
  deriving DecidableEq, Repr

/-- The threads that have buffer `i`. -/
def users (hs : List Holder) (i : Nat) : Nat := (hs.filter (·.buf = i)).length

structure CacheSys where
  sys : LogSys
  bc : Bcache
  disk : Disk
  holders : List Holder
  txn : Nat → Option Block

/-- The events: the log protocol's, and a thread's `bget`, taking of the lock, write with `log_write`, and
`brelse`. -/
inductive CacheEvent where
  | begin (k : Nat)
  | finish (k : Nat)
  | commit
  | bget (k blockno : Nat)
  | acquire (k : Nat)
  | write (k : Nat) (d : Block)
  | brelse (k : Nat)

namespace CacheSys

def init (disk : Disk) : CacheSys := ⟨LogSys.init, binit, disk, [], fun _ => none⟩

def panic (s : CacheSys) (e : String) : CacheSys := { s with sys := { s.sys with panicked := some e } }

def step (s : CacheSys) : CacheEvent → Option CacheSys
  | .begin k => (LogSys.step s.sys (.begin k)).map fun sys => { s with sys }
  | .finish k => (LogSys.step s.sys (.finish k)).map fun sys => { s with sys }
  | .commit =>
    if s.holders.any (·.holds) then none
    else match LogSys.step s.sys .commit with
      | none => none
      | some sys =>
        match Bio.commit s.sys.log.start s.sys.log.lh s.bc s.disk with
        | none => some (s.panic "bget: no buffers")
        | some (bc, disk) => some { s with sys, bc, disk, txn := fun _ => none }
  | .bget k blockno =>
    if s.sys.panicked.isSome ∨ k ∈ s.holders.map Holder.tid then none
    else match bget ROOTDEV blockno s.bc with
      | none => some (s.panic "bget: no buffers")
      | some (i, bc) => some { s with bc, holders := s.holders ++ [⟨k, i, false⟩] }
  | .acquire k =>
    if s.sys.panicked.isSome then none
    else match s.holders.find? (·.tid = k) with
      | some ⟨_, i, false⟩ =>
        if (s.bc.buf i).locked then none
        else match readBuf i (s.bc.set i { s.bc.buf i with locked := true }) s.disk with
          | none => some (s.panic "iderw: nothing to do")
          | some (bc, disk) =>
            some { s with bc, disk,
                          holders := s.holders.map fun h => if h.tid = k then { h with holds := true } else h }
      | _ => none
  | .write k d =>
    match s.holders.find? (·.tid = k) with
    | some ⟨_, i, true⟩ =>
      let b := (s.bc.buf i).blockno
      -- file-system code logs only blocks outside the log
      if outsideLog s.sys.log.start s.sys.log.size b then
        (LogSys.step s.sys (.write k b)).map fun sys =>
          -- the caller changes the contents, then `log_write` pins the buffer with `B_DIRTY` unless it panics
          if sys.panicked.isSome then { s with sys, bc := s.bc.set i { s.bc.buf i with data := d } }
          else { s with sys, bc := s.bc.set i { s.bc.buf i with data := d, dirty := true },
                        txn := Function.update s.txn b (some d) }
      else none
    | _ => none
  | .brelse k =>
    if s.sys.panicked.isSome then none
    else match s.holders.find? (·.tid = k) with
      | some ⟨_, i, true⟩ => some { s with bc := brelse i s.bc, holders := s.holders.filter (·.tid ≠ k) }
      | _ => none

def Reachable (disk : Disk) (s : CacheSys) : Prop := StepSys.Reachable step (init disk) s

/-! ### The log protocol's steps, as the cache sees them -/

private theorem step_begin_lh {s s' : LogSys} {k : Nat} (h : LogSys.step s (.begin k) = some s') :
    s'.log.lh = s.log.lh := by
  simp only [LogSys.step] at h
  split at h
  · cases h
  · obtain ⟨l, hb, rfl⟩ := Option.map_eq_some_iff.1 h
    obtain ⟨-, rfl⟩ := begin_op_eq hb
    rfl

private theorem step_finish_lh {s s' : LogSys} {k : Nat} (h : LogSys.step s (.finish k) = some s') :
    s'.log.lh = s.log.lh := by
  simp only [LogSys.step] at h
  split at h
  · cases h
  · split at h
    · cases h
      rfl
    · rename_i c l he
      cases h
      obtain ⟨-, rfl⟩ := end_op_ok he
      rfl

private theorem step_write_lh {s s' : LogSys} {k b : Nat} (h : LogSys.step s (.write k b) = some s')
    (hp : s'.panicked = none) : s'.log.lh = if b ∈ s.log.lh then s.log.lh else s.log.lh ++ [b] := by
  simp only [LogSys.step] at h
  split at h
  · cases h
  · split at h
    · cases h
    · split at h
      · split at h
        · cases h
          cases hp
        · rename_i l hw
          cases h
          obtain ⟨-, rfl⟩ := log_write_ok hw
          rfl
      · cases h

private theorem step_commit_lh {s s' : LogSys} (h : LogSys.step s .commit = some s') : s'.log.lh = [] := by
  simp only [LogSys.step] at h
  split at h
  · cases h
    rfl
  · cases h

/-- No step of the log protocol moves the log region. -/
theorem step_region {s s' : LogSys} {e : LogEvent} (h : LogSys.step s e = some s') :
    s'.log.start = s.log.start ∧ s'.log.size = s.log.size := by
  cases e with
  | begin k =>
    simp only [LogSys.step] at h
    split at h
    · cases h
    · obtain ⟨l, hb, rfl⟩ := Option.map_eq_some_iff.1 h
      obtain ⟨-, rfl⟩ := begin_op_eq hb
      exact ⟨rfl, rfl⟩
  | write k b =>
    simp only [LogSys.step] at h
    split at h
    · cases h
    · split at h
      · cases h
      · split at h
        · split at h
          · cases h
            exact ⟨rfl, rfl⟩
          · rename_i l hw
            cases h
            obtain ⟨-, rfl⟩ := log_write_ok hw
            exact ⟨rfl, rfl⟩
        · cases h
  | finish k =>
    simp only [LogSys.step] at h
    split at h
    · cases h
    · split at h
      · cases h
        exact ⟨rfl, rfl⟩
      · rename_i c l he
        cases h
        obtain ⟨-, rfl⟩ := end_op_ok he
        exact ⟨rfl, rfl⟩
  | commit =>
    simp only [LogSys.step] at h
    split at h
    · cases h
      exact ⟨rfl, rfl⟩
    · cases h

/-! ### Counting the threads that have a buffer -/

private theorem users_append (hs : List Holder) (h : Holder) (i : Nat) :
    users (hs ++ [h]) i = users hs i + if h.buf = i then 1 else 0 := by
  unfold users
  rw [List.filter_append, List.length_append]
  by_cases hi : h.buf = i <;> simp [hi]

private theorem users_map (hs : List Holder) {f : Holder → Holder} (hf : ∀ h, (f h).buf = h.buf) (i : Nat) :
    users (hs.map f) i = users hs i := by
  unfold users
  rw [List.filter_map, List.length_map]
  congr 1
  exact List.filter_congr fun h _ => by simp [hf]

/-- `brelse` removes the one entry of its thread. -/
theorem users_filter {hs : List Holder} {h : Holder} (hnd : (hs.map Holder.tid).Nodup) (hh : h ∈ hs) (i : Nat) :
    users (hs.filter (·.tid ≠ h.tid)) i = users hs i - if h.buf = i then 1 else 0 := by
  induction hs with
  | nil => cases hh
  | cons h' hs ih =>
    simp only [List.map_cons, List.nodup_cons, List.mem_map] at hnd
    unfold users at ih ⊢
    by_cases hh' : h' = h
    · -- the entry of the thread: the rest has no other
      subst hh'
      have hrest : hs.filter (·.tid ≠ h'.tid) = hs :=
        List.filter_eq_self.2 fun x hx => by simpa using fun he => hnd.1 ⟨x, hx, he⟩
      rw [List.filter_cons_of_neg (by simp), hrest]
      by_cases hb : h'.buf = i <;> simp [hb]
    · have hmem : h ∈ hs := (List.mem_cons.1 hh).resolve_left (Ne.symm hh')
      have htid : h'.tid ≠ h.tid := fun he => hnd.1 ⟨h, hmem, he.symm⟩
      have hih := ih hnd.2 hmem
      -- the entry is further on, so a count that loses it was at least one
      have hpos : (if h.buf = i then 1 else 0) ≤ (hs.filter (·.buf = i)).length := by
        split
        · exact List.length_pos_of_mem (List.mem_filter.2 ⟨hmem, by simpa⟩)
        · exact Nat.zero_le _
      rw [List.filter_cons_of_pos (by simpa using htid)]
      by_cases hb : h'.buf = i
      · rw [List.filter_cons_of_pos (by simpa using hb), List.filter_cons_of_pos (by simpa using hb),
          List.length_cons, List.length_cons, hih]
        omega
      · rw [List.filter_cons_of_neg (by simpa using hb), List.filter_cons_of_neg (by simpa using hb), hih]

private theorem find?_holder {hs : List Holder} {k : Nat} {h : Holder} (hf : hs.find? (·.tid = k) = some h) :
    h ∈ hs ∧ h.tid = k := by
  refine ⟨List.mem_of_find?_eq_some hf, ?_⟩
  simpa using List.find?_some hf

/-! ### The invariant -/

structure Inv (s : CacheSys) : Prop where
  lru_nodup : s.bc.lru.Nodup
  uniq : Uniq s.bc
  refcnt : ∀ i ∈ s.bc.lru, (s.bc.buf i).refcnt = users s.holders i
  holder : ∀ h ∈ s.holders, h.buf ∈ s.bc.lru ∧ (s.bc.buf h.buf).dev = ROOTDEV ∧
    (h.holds = true → (s.bc.buf h.buf).valid = true)
  tids : (s.holders.map Holder.tid).Nodup
  dirty : ∀ i ∈ s.bc.lru, (s.bc.buf i).dirty = true →
    (s.bc.buf i).dev = ROOTDEV ∧ (s.bc.buf i).valid = true ∧ (s.bc.buf i).blockno ∈ s.sys.log.lh ∧
      s.txn (s.bc.buf i).blockno = some (s.bc.buf i).data
  logged : ∀ b ∈ s.sys.log.lh, ∃ i ∈ s.bc.lru,
    (s.bc.buf i).dev = ROOTDEV ∧ (s.bc.buf i).blockno = b ∧ (s.bc.buf i).dirty = true
  outside : ∀ b ∈ s.sys.log.lh, outsideLog s.sys.log.start s.sys.log.size b

theorem inv_init (disk : Disk) : Inv (init disk) where
  lru_nodup := (List.reverse_perm _).nodup_iff.2 List.nodup_range
  uniq := fun _ _ _ _ hd => by simp [init, binit, ROOTDEV] at hd
  refcnt := fun _ _ => rfl
  holder := fun _ h => by cases h
  tids := List.nodup_nil
  dirty := fun _ _ hd => by simp [init, binit] at hd
  logged := fun _ hb => by simp [init, LogSys.init] at hb
  outside := fun _ hb => by simp [init, LogSys.init] at hb

/-- A step of the log protocol that keeps the header keeps the invariant. -/
theorem Inv.sys {s : CacheSys} {sys : LogSys} (hi : Inv s) (hlh : sys.log.lh = s.sys.log.lh)
    (hreg : sys.log.start = s.sys.log.start ∧ sys.log.size = s.sys.log.size) :
    Inv { s with sys } where
  lru_nodup := hi.lru_nodup
  uniq := hi.uniq
  refcnt := hi.refcnt
  holder := hi.holder
  tids := hi.tids
  dirty := fun i hi' hd => by rw [hlh]; exact hi.dirty i hi' hd
  logged := fun b hb => hi.logged b (hlh ▸ hb)
  outside := fun b hb => by
    rw [hreg.1, hreg.2]
    exact hi.outside b (hlh ▸ hb)

theorem Inv.commit {s : CacheSys} {sys : LogSys} {bc : Bcache} {disk : Disk} (hi : Inv s)
    (hh : s.holders.any (·.holds) = false) (hlh : sys.log.lh = [])
    (hc : Bio.commit s.sys.log.start s.sys.log.lh s.bc s.disk = some (bc, disk)) :
    Inv { s with sys, bc, disk, txn := fun _ => none } := by
  obtain ⟨hk, hclean⟩ := Bio.commit_kept hc hi.uniq fun i hi' hd =>
    ⟨(hi.dirty i hi' hd).1, (hi.dirty i hi' hd).2.2.1⟩
  refine ⟨hk.nodup hi.lru_nodup, hk.uniq hi.uniq, fun i hi' => ?_, fun h hh' => ?_, hi.tids,
    fun i hi' hd => ?_, fun b hb => ?_, fun b hb => by rw [hlh] at hb; cases hb⟩
  · rw [hk.refcnt i]
    exact hi.refcnt i ((hk.mem i).1 hi')
  · -- a thread waiting for a buffer keeps it referenced, so the commit does not recycle it
    obtain ⟨hmem, hdev, -⟩ := hi.holder h hh'
    have hpos : 1 ≤ (s.bc.buf h.buf).refcnt := by
      rw [hi.refcnt _ hmem]
      exact List.length_pos_of_mem (List.mem_filter.2 ⟨hh', by simp⟩)
    have hnot : h.holds = false := by
      simpa using (List.any_eq_false.1 hh) h hh'
    refine ⟨(hk.mem _).2 hmem, by rw [(hk.pinned _ hpos).1, hdev], fun h' => ?_⟩
    rw [hnot] at h'
    cases h'
  · rw [hclean i hi'] at hd
    cases hd
  · rw [hlh] at hb
    cases hb

theorem Inv.bget {s : CacheSys} {k blockno i : Nat} {bc : Bcache} (hi : Inv s)
    (hk : k ∉ s.holders.map Holder.tid) (hg : bget ROOTDEV blockno s.bc = some (i, bc)) :
    Inv { s with bc, holders := s.holders ++ [⟨k, i, false⟩] } := by
  obtain ⟨hmem, hlru, -, -⟩ := bget_cases hg
  obtain ⟨hdev, -⟩ := bget_dev hg
  -- a buffer in use or dirty keeps everything but its reference count
  have hkeep := bget_keep hg
  refine ⟨hlru ▸ hi.lru_nodup, bget_uniq hg hi.uniq, fun j hj => ?_, fun h hh => ?_, ?_, fun j hj hd => ?_,
    fun b hb => ?_, hi.outside⟩
  · rw [hlru] at hj
    simp only
    rw [bget_refcnt hg j, hi.refcnt j hj, users_append]
    by_cases hji : j = i
    · simp [hji]
    · simp [hji, Ne.symm hji]
  · rcases List.mem_append.1 hh with hh | hh
    · obtain ⟨hm, hd, hv⟩ := hi.holder h hh
      have hpos : 1 ≤ (s.bc.buf h.buf).refcnt := by
        rw [hi.refcnt _ hm]
        exact List.length_pos_of_mem (List.mem_filter.2 ⟨hh, by simp⟩)
      have hb := hkeep h.buf (.inl hpos)
      refine ⟨hlru ▸ hm, by rw [hb]; exact hd, fun h' => by rw [hb]; exact hv h'⟩
    · rw [List.mem_singleton] at hh
      subst hh
      exact ⟨hlru ▸ hmem, hdev, fun h' => by cases h'⟩
  · rw [List.map_append, List.nodup_append]
    refine ⟨hi.tids, by simp, fun a ha b hb hab => ?_⟩
    simp only [List.map_cons, List.map_nil, List.mem_singleton] at hb
    subst hb hab
    exact hk ha
  · rw [hlru] at hj
    -- a dirty buffer was dirty before: a recycled one is clean
    have hd₀ := bget_dirty hg hd
    have hb := hkeep j (.inr hd₀)
    rw [hb]
    exact hi.dirty j hj hd₀
  · obtain ⟨j, hj, hd, hbk, hdi⟩ := hi.logged b hb
    have hb' := hkeep j (.inr hdi)
    exact ⟨j, hlru ▸ hj, by rw [hb']; exact hd, by rw [hb']; exact hbk, by rw [hb']; exact hdi⟩

theorem Inv.acquire {s : CacheSys} {k k' i : Nat} {bc : Bcache} {disk : Disk} (hi : Inv s)
    (hf : s.holders.find? (·.tid = k) = some ⟨k', i, false⟩)
    (hr : readBuf i (s.bc.set i { s.bc.buf i with locked := true }) s.disk = some (bc, disk)) :
    Inv { s with bc, disk,
                 holders := s.holders.map fun h => if h.tid = k then { h with holds := true } else h } := by
  obtain ⟨hmemh, htid⟩ := find?_holder hf
  obtain ⟨hlru, hother, hv, hdev, hblk, href, hdirty⟩ := readBuf_spec hr
  simp only [Bcache.set_lru, Bcache.set_buf, Function.update_self] at hlru hdev hblk href hdirty
  have hoth : ∀ j, j ≠ i → bc.buf j = s.bc.buf j := fun j hj => by
    rw [hother j hj, Bcache.set_buf, Function.update_of_ne hj]
  -- the buffer whose lock is taken keeps everything but its lock, its validity and its contents
  have hfields : ∀ j, (bc.buf j).dev = (s.bc.buf j).dev ∧ (bc.buf j).blockno = (s.bc.buf j).blockno ∧
      (bc.buf j).refcnt = (s.bc.buf j).refcnt := by
    intro j
    by_cases hj : j = i
    · subst hj
      exact ⟨hdev, hblk, href⟩
    · rw [hoth j hj]
      exact ⟨rfl, rfl, rfl⟩
  -- a dirty buffer was dirty before, with the same contents
  have hdirty' : ∀ j, (bc.buf j).dirty = true → bc.buf j = { s.bc.buf j with locked := (bc.buf j).locked } := by
    intro j hd
    by_cases hj : j = i
    · subst hj
      rw [hdirty hd]
    · rw [hoth j hj]
  have hmap : ∀ h : Holder, (if h.tid = k then { h with holds := true } else h).buf = h.buf := fun h => by
    split <;> rfl
  refine ⟨hlru ▸ hi.lru_nodup, uniq_of_fields hlru (fun j => ⟨(hfields j).1, (hfields j).2.1⟩) hi.uniq,
    fun j hj => ?_, fun h hh => ?_, ?_, fun j hj hd => ?_, fun b hb => ?_, hi.outside⟩
  · rw [hlru] at hj
    simp only
    rw [(hfields j).2.2, hi.refcnt j hj, users_map _ hmap]
  · obtain ⟨h₀, hh₀, rfl⟩ := List.mem_map.1 hh
    obtain ⟨hm, hd, hval⟩ := hi.holder h₀ hh₀
    rw [hmap]
    refine ⟨hlru ▸ hm, by rw [(hfields _).1]; exact hd, fun hholds => ?_⟩
    by_cases hb : h₀.buf = i
    · rw [hb]
      exact hv
    · -- the thread taking the lock has buffer `i`, so this is another thread, holding its own lock already
      have hk : h₀.tid ≠ k := fun htk =>
        hb (congrArg Holder.buf (List.inj_on_of_nodup_map hi.tids hh₀ hmemh (htk.trans htid.symm)))
      simp only [hk, ↓reduceIte] at hholds
      rw [hoth _ hb]
      exact hval hholds
  · have htids : (s.holders.map fun h => if h.tid = k then { h with holds := true } else h).map Holder.tid =
        s.holders.map Holder.tid := by
      rw [List.map_map]
      exact List.map_congr_left fun h _ => by simp only [Function.comp_apply]; split <;> rfl
    simp only
    rw [htids]
    exact hi.tids
  · rw [hlru] at hj
    have hb := hdirty' j hd
    rw [hb] at hd ⊢
    exact hi.dirty j hj hd
  · obtain ⟨j, hj, hd, hbk, hdi⟩ := hi.logged b hb
    refine ⟨j, hlru ▸ hj, by rw [(hfields j).1]; exact hd, by rw [(hfields j).2.1]; exact hbk, ?_⟩
    by_cases hji : j = i
    · -- a dirty buffer is valid, so taking its lock reads nothing
      subst hji
      have hval := (hi.dirty j hj hdi).2.1
      rw [readBuf_valid s.disk (by simpa using hval)] at hr
      cases hr
      simpa using hdi
    · rw [hoth j hji]
      exact hdi

theorem Inv.write {s : CacheSys} {k k' i : Nat} {d : Block} {sys : LogSys} (hi : Inv s)
    (hf : s.holders.find? (·.tid = k) = some ⟨k', i, true⟩)
    (hw : LogSys.step s.sys (.write k (s.bc.buf i).blockno) = some sys) (hp : sys.panicked = none)
    (hout : outsideLog s.sys.log.start s.sys.log.size (s.bc.buf i).blockno) :
    Inv { s with sys, bc := s.bc.set i { s.bc.buf i with data := d, dirty := true },
                 txn := Function.update s.txn (s.bc.buf i).blockno (some d) } := by
  have hlh := step_write_lh hw hp
  obtain ⟨hmemh, -⟩ := find?_holder hf
  obtain ⟨him, hdevi, hvi⟩ := hi.holder _ hmemh
  have hvi' : (s.bc.buf i).valid = true := hvi rfl
  have hsub : ∀ b ∈ s.sys.log.lh, b ∈ sys.log.lh := fun b hb => by
    rw [hlh]
    split
    · exact hb
    · exact List.mem_append_left _ hb
  have hfields : ∀ j, ((s.bc.set i { s.bc.buf i with data := d, dirty := true }).buf j).dev = (s.bc.buf j).dev ∧
      ((s.bc.set i { s.bc.buf i with data := d, dirty := true }).buf j).blockno = (s.bc.buf j).blockno := by
    intro j
    by_cases hj : j = i
    · subst hj
      simp
    · simp [Function.update_of_ne hj]
  refine ⟨hi.lru_nodup, uniq_of_fields (by rfl) hfields hi.uniq, fun j hj => ?_, fun h hh => ?_, hi.tids,
    fun j hj hd => ?_, fun b hb => ?_, fun b hb => ?_⟩
  · by_cases hji : j = i
    · subst hji
      simpa using hi.refcnt j hj
    · simpa [Function.update_of_ne hji] using hi.refcnt j hj
  · obtain ⟨hm, hd, hv⟩ := hi.holder h hh
    by_cases hji : h.buf = i
    · rw [hji] at hm hd hv ⊢
      simpa using ⟨hm, hd, hv⟩
    · simpa [Function.update_of_ne hji] using ⟨hm, hd, hv⟩
  · by_cases hji : j = i
    · -- the written buffer: dirty, valid, of the header, with what was just written
      subst hji
      simp only [Bcache.set_buf, Function.update_self]
      refine ⟨hdevi, hvi', ?_, by simp⟩
      rw [hlh]
      split
      · assumption
      · exact List.mem_append_right _ (List.mem_singleton_self _)
    · simp only [Bcache.set_buf, Function.update_of_ne hji] at hd ⊢
      obtain ⟨hdev, hval, hmem, htxn⟩ := hi.dirty j hj hd
      -- another buffer of the device holds another block
      have hne : (s.bc.buf j).blockno ≠ (s.bc.buf i).blockno := fun he => hji (hi.uniq j hj i him hdev hdevi he)
      exact ⟨hdev, hval, hsub _ hmem, by rw [Function.update_of_ne hne]; exact htxn⟩
  · by_cases hb' : b ∈ s.sys.log.lh
    · obtain ⟨j, hj, hd, hbk, hdi⟩ := hi.logged b hb'
      refine ⟨j, hj, by rw [(hfields j).1]; exact hd, by rw [(hfields j).2]; exact hbk, ?_⟩
      by_cases hji : j = i
      · subst hji
        simp
      · simpa [Function.update_of_ne hji] using hdi
    · -- the block just logged
      rw [hlh, if_neg ?_] at hb
      · have hbi : b = (s.bc.buf i).blockno := by simpa [hb'] using hb
        exact ⟨i, him, by rw [(hfields i).1]; exact hdevi, by rw [(hfields i).2, hbi], by simp⟩
      · intro hin
        rw [if_pos hin] at hb
        exact hb' hb
  · -- the block logged is outside the log, which does not move
    obtain ⟨hst, hsz⟩ := step_region hw
    simp only [hst, hsz]
    rw [hlh] at hb
    split at hb
    · exact hi.outside b hb
    · rcases List.mem_append.1 hb with hb | hb
      · exact hi.outside b hb
      · rw [List.mem_singleton.1 hb]
        exact hout

theorem Inv.brelse {s : CacheSys} {k k' i : Nat} (hi : Inv s)
    (hf : s.holders.find? (·.tid = k) = some ⟨k', i, true⟩) :
    Inv { s with bc := brelse i s.bc, holders := s.holders.filter (·.tid ≠ k) } := by
  obtain ⟨hmemh, htid⟩ := find?_holder hf
  simp only at htid
  subst htid
  obtain ⟨him, -, -⟩ := hi.holder _ hmemh
  have hmem := brelse_mem him
  refine ⟨brelse_nodup hi.lru_nodup, brelse_uniq him hi.uniq, fun j hj => ?_, fun h hh => ?_,
    ((List.filter_sublist).map Holder.tid).nodup hi.tids, fun j hj hd => ?_, fun b hb => ?_, hi.outside⟩
  · rw [hmem] at hj
    simp only
    rw [(brelse_fields i s.bc j).2.2.2.2.2, hi.refcnt j hj, users_filter hi.tids hmemh j]
    by_cases hji : j = i
    · simp [hji]
    · simp [hji, Ne.symm hji]
  · obtain ⟨hh, -⟩ := List.mem_filter.1 hh
    obtain ⟨hm, hd, hv⟩ := hi.holder h hh
    obtain ⟨hd', -, -, hv', -, -⟩ := brelse_fields i s.bc h.buf
    exact ⟨(hmem _).2 hm, by rw [hd']; exact hd, fun h' => by rw [hv']; exact hv h'⟩
  · rw [hmem] at hj
    obtain ⟨hd', hb', hdi', hv', hdata, -⟩ := brelse_fields i s.bc j
    rw [hdi'] at hd
    rw [hd', hb', hv', hdata]
    exact hi.dirty j hj hd
  · obtain ⟨j, hj, hd, hbk, hdi⟩ := hi.logged b hb
    obtain ⟨hd', hb', hdi', -, -, -⟩ := brelse_fields i s.bc j
    exact ⟨j, (hmem _).2 hj, by rw [hd']; exact hd, by rw [hb']; exact hbk, by rw [hdi']; exact hdi⟩

/-- The log protocol takes no step after a panic. -/
theorem LogSys.panicked_of_step {s s' : LogSys} {e : LogEvent} (h : LogSys.step s e = some s') :
    s.panicked = none := by
  cases hp : s.panicked with
  | none => rfl
  | some _ => cases e <;> simp [LogSys.step, hp] at h

/-- Everything a step that leaves no panic can do; there was no panic before it either. -/
theorem step_cases {s s' : CacheSys} {e : CacheEvent} (h : step s e = some s') (hp : s'.sys.panicked = none) :
    s.sys.panicked = none ∧
    -- `begin_op` and `end_op`: a step of the protocol alone, which keeps the header
    ((∃ ev sys, LogSys.step s.sys ev = some sys ∧ sys.log.lh = s.sys.log.lh ∧ s' = { s with sys }) ∨
    (∃ sys bc disk, s.holders.any (·.holds) = false ∧ LogSys.step s.sys .commit = some sys ∧
      Bio.commit s.sys.log.start s.sys.log.lh s.bc s.disk = some (bc, disk) ∧
      s' = { s with sys, bc, disk, txn := fun _ => none }) ∨
    (∃ k blockno i bc, k ∉ s.holders.map Holder.tid ∧ bget ROOTDEV blockno s.bc = some (i, bc) ∧
      s' = { s with bc, holders := s.holders ++ [⟨k, i, false⟩] }) ∨
    (∃ k k' i bc disk, s.holders.find? (·.tid = k) = some ⟨k', i, false⟩ ∧
      readBuf i (s.bc.set i { s.bc.buf i with locked := true }) s.disk = some (bc, disk) ∧
      s' = { s with bc, disk, holders := s.holders.map fun h => if h.tid = k then { h with holds := true } else h }) ∨
    (∃ k k' i d sys, s.holders.find? (·.tid = k) = some ⟨k', i, true⟩ ∧
      outsideLog s.sys.log.start s.sys.log.size (s.bc.buf i).blockno ∧
      LogSys.step s.sys (.write k (s.bc.buf i).blockno) = some sys ∧ sys.panicked = none ∧
      s' = { s with sys, bc := s.bc.set i { s.bc.buf i with data := d, dirty := true },
                    txn := Function.update s.txn (s.bc.buf i).blockno (some d) }) ∨
    (∃ k k' i, s.holders.find? (·.tid = k) = some ⟨k', i, true⟩ ∧
      s' = { s with bc := brelse i s.bc, holders := s.holders.filter (·.tid ≠ k) })) := by
  cases e with
  | begin k =>
    obtain ⟨sys, hst, rfl⟩ := Option.map_eq_some_iff.1 h
    exact ⟨LogSys.panicked_of_step hst, .inl ⟨_, sys, hst, step_begin_lh hst, rfl⟩⟩
  | finish k =>
    obtain ⟨sys, hst, rfl⟩ := Option.map_eq_some_iff.1 h
    exact ⟨LogSys.panicked_of_step hst, .inl ⟨_, sys, hst, step_finish_lh hst, rfl⟩⟩
  | commit =>
    simp only [step] at h
    split at h
    · cases h
    rename_i hh
    split at h
    · cases h
    rename_i sys hst
    split at h
    · -- the commit ran out of buffers
      cases h
      cases hp
    · rename_i bc disk hc
      cases h
      exact ⟨LogSys.panicked_of_step hst, .inr (.inl ⟨sys, bc, disk, by simpa using hh, hst, hc, rfl⟩)⟩
  | bget k blockno =>
    simp only [step] at h
    split at h
    · cases h
    rename_i hpk
    split at h
    · cases h
      cases hp
    · rename_i i bc hg
      cases h
      exact ⟨by simpa using (not_or.1 hpk).1, .inr (.inr (.inl ⟨k, blockno, i, bc, (not_or.1 hpk).2, hg, rfl⟩))⟩
  | acquire k =>
    simp only [step] at h
    split at h
    · cases h
    rename_i hp₀
    split at h
    · rename_i k' i hf
      split at h
      · cases h
      split at h
      · cases h
        cases hp
      · rename_i bc disk hr
        cases h
        exact ⟨by simpa using hp₀, .inr (.inr (.inr (.inl ⟨k, k', i, bc, disk, hf, hr, rfl⟩)))⟩
    · cases h
  | write k d =>
    simp only [step] at h
    split at h
    · rename_i k' i hf
      split at h
      · rename_i hout
        obtain ⟨sys, hst, heq⟩ := Option.map_eq_some_iff.1 h
        split at heq
        · -- `log_write` panicked
          cases heq
          rename_i hpan
          rw [hp] at hpan
          cases hpan
        · rename_i hpan
          cases heq
          exact ⟨LogSys.panicked_of_step hst,
            .inr (.inr (.inr (.inr (.inl ⟨k, k', i, d, sys, hf, hout, hst, by simpa using hpan, rfl⟩))))⟩
      · cases h
    · cases h
  | brelse k =>
    simp only [step] at h
    split at h
    · cases h
    rename_i hp₀
    split at h
    · rename_i k' i hf
      cases h
      exact ⟨by simpa using hp₀, .inr (.inr (.inr (.inr (.inr ⟨k, k', i, hf, rfl⟩))))⟩
    · cases h

/-- Every step keeps the invariant, until a panic. -/
theorem inv_step {s s' : CacheSys} {e : CacheEvent} (hs : s.sys.panicked = none → Inv s) (h : step s e = some s') :
    s'.sys.panicked = none → Inv s' := by
  intro hp'
  obtain ⟨hp, hc⟩ := step_cases h hp'
  have hi := hs hp
  rcases hc with ⟨ev, sys, hst, hlh, rfl⟩ | ⟨sys, bc, disk, hh, hst, hcm, rfl⟩ | ⟨k, blockno, i, bc, hk, hg, rfl⟩ |
    ⟨k, k', i, bc, disk, hf, hr, rfl⟩ | ⟨k, k', i, d, sys, hf, hout, hst, hpan, rfl⟩ | ⟨k, k', i, hf, rfl⟩
  · exact hi.sys hlh (step_region hst)
  · exact hi.commit hh (step_commit_lh hst) hcm
  · exact hi.bget hk hg
  · exact hi.acquire hf hr
  · exact hi.write hf hst hpan hout
  · exact hi.brelse hf

private theorem reachable_inv {disk : Disk} {s : CacheSys} (h : Reachable disk s) : s.sys.panicked = none → Inv s := by
  induction h with
  | init => exact fun _ => inv_init disk
  | step e _ hs ih => exact inv_step ih hs

/-- A step that leaves no panic is a step of the log protocol or keeps the protocol's state. -/
theorem step_sys {s s' : CacheSys} {e : CacheEvent} (h : step s e = some s') (hp : s'.sys.panicked = none) :
    s'.sys = s.sys ∨ ∃ ev, LogSys.step s.sys ev = some s'.sys := by
  obtain ⟨-, hc⟩ := step_cases h hp
  -- the buffer events leave the protocol's state
  rcases hc with ⟨ev, sys, hst, -, rfl⟩ | ⟨sys, bc, disk, -, hst, -, rfl⟩ | ⟨k, blockno, i, bc, -, -, rfl⟩ |
    ⟨k, k', i, bc, disk, -, -, rfl⟩ | ⟨k, k', i, d, sys, -, -, hst, -, rfl⟩ | ⟨k, k', i, -, rfl⟩
  · exact .inr ⟨ev, hst⟩
  · exact .inr ⟨.commit, hst⟩
  · exact .inl rfl
  · exact .inl rfl
  · exact .inr ⟨_, hst⟩
  · exact .inl rfl

/-- Until a panic, the log protocol's part of a reachable state is a reachable state of the protocol. -/
theorem reachable_sys {disk : Disk} {s : CacheSys} (h : Reachable disk s) (hp : s.sys.panicked = none) :
    LogSys.Reachable s.sys := by
  refine StepSys.Reachable.simulate CacheSys.sys (fun s => s.sys.panicked = none) rfl ?_ h hp
  intro s e s' hs hp'
  rcases step_sys hs hp' with he | ⟨ev, hev⟩
  · exact ⟨he ▸ hp', .inl he⟩
  · exact ⟨LogSys.panicked_of_step hev, .inr ⟨ev, hev⟩⟩

/-- In every reachable state before a panic, each block of the header is cached in exactly one buffer, dirty and
with what the transaction last wrote to the block; and `write_log`, run through the cache on this state as
`commit` runs it, gives log block `start + t + 1` what the transaction last wrote to `lh[t]`. -/
theorem reachable_logged_buffer {disk : Disk} {s : CacheSys} (h : Reachable disk s) (hp : s.sys.panicked = none) :
    (∀ b ∈ s.sys.log.lh, ∃ i ∈ s.bc.lru, (s.bc.buf i).dev = ROOTDEV ∧ (s.bc.buf i).blockno = b ∧
      (s.bc.buf i).dirty = true ∧ s.txn b = some (s.bc.buf i).data ∧
      ∀ j ∈ s.bc.lru, (s.bc.buf j).dev = ROOTDEV → (s.bc.buf j).blockno = b → j = i) ∧
    ∀ bc' disk', Bio.write_log s.sys.log.start s.sys.log.lh s.bc s.disk = some (bc', disk') →
      ∀ t < s.sys.log.lh.length, s.txn (s.sys.log.lh.getD t 0) = some (disk' (s.sys.log.start + t + 1)) := by
  have hi := reachable_inv h hp
  have hfit := (LogSys.header_fits (reachable_sys h hp) hp).1
  refine ⟨fun b hb => ?_, fun bc' disk' hw t ht => ?_⟩
  · obtain ⟨i, hi', hdev, hblk, hdi⟩ := hi.logged b hb
    have htxn := (hi.dirty i hi' hdi).2.2.2
    rw [hblk] at htxn
    exact ⟨i, hi', hdev, hblk, hdi, htxn, fun j hj hdj hbj => hi.uniq j hj i hi' hdj hdev (hbj.trans hblk.symm)⟩
  · -- a dirty buffer holds a block of the header, outside the log, and the header fits the log
    have hdv : ∀ j ∈ s.bc.lru, (s.bc.buf j).dirty = true → (s.bc.buf j).valid = true ∧
        ∀ t < s.sys.log.lh.length, (s.bc.buf j).blockno ≠ s.sys.log.start + t + 1 := by
      intro j hj hdj
      obtain ⟨-, hv, hmem, -⟩ := hi.dirty j hj hdj
      have hout := hi.outside _ hmem
      refine ⟨hv, fun t ht he => ?_⟩
      unfold outsideLog at hout
      omega
    obtain ⟨i, hi', -, hblk, hdi, hdisk⟩ := Bio.write_log_copies hw hi.uniq hdv hi.logged t ht
    rw [← hblk, hdisk]
    exact (hi.dirty i hi' hdi).2.2.2

/-- Thread `0` begins an operation, reads block `100` and logs bytes `255` in it; `write_log` on that state writes
them to the first block of the log. -/
theorem logged_buffer_after_one_write :
    ∃ s, Reachable (fun _ _ => 0) s ∧ s.sys.panicked = none ∧ s.sys.log.start = 2 ∧ s.sys.log.lh = [100] ∧
      (s.txn 100).map (· ⟨0, by decide⟩) = some 255 ∧
      (∃ i ∈ s.bc.lru, (s.bc.buf i).blockno = 100 ∧ (s.bc.buf i).dirty = true) ∧
      ∃ bc' disk', Bio.write_log 2 [100] s.bc s.disk = some (bc', disk') ∧ disk' 3 ⟨0, by decide⟩ = 255 := by
  obtain ⟨s, hs, hp⟩ := StepSys.reachable_of_run step (init fun _ _ => 0)
    [.begin 0, .bget 0 100, .acquire 0, .write 0 fun _ => 255]
    (fun s => decide (s.sys.panicked = none ∧ s.sys.log.start = 2 ∧ s.sys.log.lh = [100] ∧
      (s.txn 100).map (· ⟨0, by decide⟩) = some 255) && (Bio.write_log 2 [100] s.bc s.disk).isSome) (by decide +kernel)
  rw [Bool.and_eq_true] at hp
  obtain ⟨hpan, hstart, hlh, htxn⟩ := of_decide_eq_true hp.1
  obtain ⟨⟨bc', disk'⟩, hw⟩ := Option.isSome_iff_exists.1 hp.2
  obtain ⟨hbuf, hlog⟩ := reachable_logged_buffer hs hpan
  obtain ⟨i, hi, -, hblk, hdi, -⟩ := hbuf 100 (by rw [hlh]; exact List.mem_singleton_self _)
  have hdisk : s.txn 100 = some (disk' 3) := by
    have h₀ := hlog bc' disk' (by rw [hstart, hlh]; exact hw) 0 (by rw [hlh]; decide)
    rw [hstart, hlh] at h₀
    exact h₀
  refine ⟨s, hs, hpan, hstart, hlh, htxn, ⟨i, hi, hblk, hdi⟩, bc', disk', hw, ?_⟩
  rw [hdisk] at htxn
  simpa using htxn

end CacheSys

end Xv6
