import Xv6.Param
import Xv6.Lib.Ring
import Xv6.Lib.StepSys
import Xv6.Lib.Tagged

/-!
# Pipes

`pipe.c`: a pipe is a ring of `PIPESIZE` bytes with two free-running `uint` counters, `nread` and `nwrite`, and a
flag for each end.  `pipewrite` stores its bytes one at a time, sleeping while the ring is full and giving up with
`-1` when the read end is closed or the writer is killed; `piperead` sleeps while the ring is empty and the write
end open, and then copies what there is, up to `n` bytes.  Both hold the pipe's lock between sleeps, so a call is a
sequence of atomic runs, each up to a sleep or the return: `pipewrite` and `piperead` below are such runs.

The system `PipeSys` is one pipe with every `pipewrite` call made on it (numbered in order, asleep or returned) and
two ghost streams: every byte stored, with the number of the call that stored it, and every byte returned by a
`piperead`.  Over every interleaving of calls and closes (`PipeReachable`) the counters stay at most `PIPESIZE`
apart, what was read followed by what is in the ring is exactly what was stored, and the bytes of each call were
stored in order, all of them when it returned `n` (`reachable_pipe_ok`).  A `piperead` of `n > 0` bytes returns 0
only on an empty pipe whose write end is closed (`piperead_eq_zero`); one of 0 bytes returns 0 on any pipe.

The pipe's page is freed when both ends are closed; the model keeps the pipe, and lets any call and any close
happen at any time, which the file table's references restrict in the kernel.
-/

namespace Xv6

/-- `PIPESIZE`: bytes of a pipe's ring. -/
def PIPESIZE : Nat := 512

/-- `struct pipe` without its lock: the byte at counter `x` is `data (x % PIPESIZE)`. -/
structure Pipe where
  data : Nat → UInt8
  nread : Nat
  nwrite : Nat
  readopen : Bool
  writeopen : Bool

/-- The pipe of `pipealloc`, in a page from `kalloc`, which `kfree` filled with 1s. -/
def Pipe.alloc : Pipe :=
  { data := fun _ => 1, nread := 0, nwrite := 0, readopen := true, writeopen := true }

/-- `pipeclose`: close the write end (`writable`) or the read end. -/
def pipeclose (p : Pipe) (writable : Bool) : Pipe :=
  if writable then { p with writeopen := false } else { p with readopen := false }

namespace Pipe

/-- The test `p->nwrite == p->nread + PIPESIZE` of `pipewrite`. -/
def full (p : Pipe) : Bool := p.nwrite == (p.nread + PIPESIZE) % UINT_MOD

/-- `p->data[p->nwrite++ % PIPESIZE] = b`. -/
def put (p : Pipe) (b : UInt8) : Pipe :=
  { p with data := Function.update p.data (p.nwrite % PIPESIZE) b, nwrite := (p.nwrite + 1) % UINT_MOD }

/-- The `p->nread++` of `piperead`'s copy loop. -/
def pop (p : Pipe) : Pipe := { p with nread := (p.nread + 1) % UINT_MOD }

end Pipe

/-- How a run of `pipewrite`'s loop under the lock ends. -/
inductive WriteEnd where
  /-- Every byte was stored: `pipewrite` returns `n`. -/
  | done
  /-- The ring was full before `addr[i]` and the read end closed or the writer killed: it returns `-1`. -/
  | fail (i : Nat)
  /-- The ring was full before `addr[i]`: the writer sleeps on `nwrite`. -/
  | sleep (i : Nat)
  deriving DecidableEq, Repr

/-- The loop of `pipewrite` from `addr[i]` on, `rest` being `addr[i..n)`. -/
def pipewriteLoop (killed : Bool) : Nat → List UInt8 → Pipe → WriteEnd × Pipe
  | _, [], p => (.done, p)
  | i, b :: rest, p =>
    if p.full then
      if !p.readopen || killed then (.fail i, p) else (.sleep i, p)
    else pipewriteLoop killed (i + 1) rest (p.put b)

/-- `pipewrite(p, addr, n)` from `addr[i]` up to its return or its next sleep: `i = 0` for a new call, the index it
slept at for a woken one (which tests the ring again, as the `while` does). -/
def pipewrite (killed : Bool) (addr : List UInt8) (i : Nat) (p : Pipe) : WriteEnd × Pipe :=
  pipewriteLoop killed i (addr.drop i) p

/-- The copy loop of `piperead`: up to `n` bytes, as long as the ring is not empty. -/
def pipereadCopy : Nat → Pipe → List UInt8 × Pipe
  | 0, p => ([], p)
  | n + 1, p =>
    if p.nread = p.nwrite then ([], p)
    else
      let (bs, p') := pipereadCopy n p.pop
      (p.data (p.nread % PIPESIZE) :: bs, p')

/-- `piperead(p, addr, n)` under the lock: `none` when it sleeps on an empty ring with the write end open (a woken
reader tests again from the start, so it is the same run again), otherwise what it returns and the bytes it
copies to `addr`. -/
def piperead (killed : Bool) (n : Nat) (p : Pipe) : Option (Int × List UInt8) × Pipe :=
  if p.nread = p.nwrite ∧ p.writeopen = true then
    if killed then (some (-1, []), p) else (none, p)
  else
    let (bs, p') := pipereadCopy n p
    (some (bs.length, bs), p')

/-! ## The ring of one pipe -/

namespace Pipe

variable {p : Pipe}

/-- The bytes in the ring, oldest first. -/
def contents (p : Pipe) : List UInt8 := Ring.view PIPESIZE p.data p.nread (Ring.dist UINT_MOD p.nread p.nwrite)

/-- The counters are `uint`s at most `PIPESIZE` apart. -/
structure Ok (p : Pipe) : Prop where
  nread_lt : p.nread < UINT_MOD
  nwrite_lt : p.nwrite < UINT_MOD
  dist_le : Ring.dist UINT_MOD p.nread p.nwrite ≤ PIPESIZE

private theorem pipesize_dvd : PIPESIZE ∣ UINT_MOD := ⟨8388608, rfl⟩

private theorem ok_alloc : Pipe.alloc.Ok := ⟨by decide, by decide, by decide⟩

/-- `pipeclose` leaves the ring. -/
theorem ok_close (h : p.Ok) (writable : Bool) : (pipeclose p writable).Ok ∧ (pipeclose p writable).contents = p.contents := by
  unfold pipeclose
  split
  · exact ⟨⟨h.nread_lt, h.nwrite_lt, h.dist_le⟩, rfl⟩
  · exact ⟨⟨h.nread_lt, h.nwrite_lt, h.dist_le⟩, rfl⟩

/-- The full test is the test on the distance, across wrap-around. -/
theorem full_iff (h : p.Ok) : p.full = true ↔ Ring.dist UINT_MOD p.nread p.nwrite = PIPESIZE := by
  rw [full, beq_iff_eq, eq_comm]
  exact Ring.add_mod_eq_iff h.nread_lt h.nwrite_lt (by decide)

/-- The cell of `nwrite` is the cell after the bytes in the ring. -/
theorem nwrite_cell (h : p.Ok) :
    p.nwrite % PIPESIZE = (p.nread + Ring.dist UINT_MOD p.nread p.nwrite) % PIPESIZE := by
  conv_lhs => rw [← Ring.add_dist h.nread_lt h.nwrite_lt]
  exact Nat.mod_mod_of_dvd _ pipesize_dvd

/-- A store into a ring that is not full appends the byte. -/
theorem Ok.put (h : p.Ok) (hf : p.full = false) (b : UInt8) :
    (p.put b).Ok ∧ (p.put b).contents = p.contents ++ [b] := by
  have hd : Ring.dist UINT_MOD p.nread p.nwrite < PIPESIZE := by
    have := h.dist_le
    have : Ring.dist UINT_MOD p.nread p.nwrite ≠ PIPESIZE := fun he => by
      rw [← full_iff h, hf] at he
      cases he
    omega
  have hd' : Ring.dist UINT_MOD p.nread ((p.nwrite + 1) % UINT_MOD) = Ring.dist UINT_MOD p.nread p.nwrite + 1 :=
    Ring.dist_succ_right h.nread_lt h.nwrite_lt (by have : PIPESIZE + 1 < UINT_MOD := (by decide); omega)
  refine ⟨⟨h.nread_lt, Nat.mod_lt _ (by decide), ?_⟩, ?_⟩
  · show Ring.dist UINT_MOD p.nread ((p.nwrite + 1) % UINT_MOD) ≤ PIPESIZE
    omega
  · show Ring.view PIPESIZE (Function.update p.data (p.nwrite % PIPESIZE) b) p.nread
      (Ring.dist UINT_MOD p.nread ((p.nwrite + 1) % UINT_MOD)) = _
    rw [hd', nwrite_cell h, Ring.view_push hd]
    rfl

/-- Taking a byte from a ring that is not empty pops the oldest. -/
theorem Ok.pop (h : p.Ok) (he : p.nread ≠ p.nwrite) :
    p.pop.Ok ∧ p.contents = p.data (p.nread % PIPESIZE) :: p.pop.contents := by
  have hd : Ring.dist UINT_MOD p.nread p.nwrite ≠ 0 := fun h0 =>
    he ((Ring.dist_eq_zero_iff h.nread_lt h.nwrite_lt).1 h0)
  have hd' : Ring.dist UINT_MOD ((p.nread + 1) % UINT_MOD) p.nwrite = Ring.dist UINT_MOD p.nread p.nwrite - 1 :=
    Ring.dist_succ_left h.nread_lt h.nwrite_lt he
  refine ⟨⟨Nat.mod_lt _ (by decide), h.nwrite_lt, ?_⟩, ?_⟩
  · show Ring.dist UINT_MOD ((p.nread + 1) % UINT_MOD) p.nwrite ≤ PIPESIZE
    have := h.dist_le
    omega
  · show Ring.view PIPESIZE p.data p.nread (Ring.dist UINT_MOD p.nread p.nwrite) =
      _ :: Ring.view PIPESIZE p.data ((p.nread + 1) % UINT_MOD) (Ring.dist UINT_MOD ((p.nread + 1) % UINT_MOD) p.nwrite)
    rw [Ring.view_pop (Nat.pos_of_ne_zero hd), hd', Ring.view_mod pipesize_dvd]

end Pipe

section Calls

variable {killed : Bool} {p p' : Pipe}

/-- A run of `pipewrite`'s loop appends the bytes it stores to the ring, and says where it stopped. -/
theorem pipewriteLoop_spec {i : Nat} {rest : List UInt8} {e : WriteEnd} (h : p.Ok)
    (hl : pipewriteLoop killed i rest p = (e, p')) :
    ∃ k ≤ rest.length, (e = .done → k = rest.length) ∧ (∀ j, e = .fail j ∨ e = .sleep j → j = i + k) ∧
      p'.Ok ∧ p'.contents = p.contents ++ rest.take k := by
  -- induction on the bytes left, the ring's invariant carried by `Ok.put`
  induction rest generalizing i p with
  | nil =>
    cases hl
    exact ⟨0, le_rfl, fun _ => rfl, fun j hj => by simp at hj, h, by simp⟩
  | cons b rest ih =>
    unfold pipewriteLoop at hl
    split at hl
    · -- the ring is full: the run ends before `b`
      have hs : e = .fail i ∨ e = .sleep i := by
        split at hl <;> cases hl <;> simp
      have hp : p' = p := by split at hl <;> cases hl <;> rfl
      subst hp
      refine ⟨0, Nat.zero_le _, fun hd => ?_, fun j hj => ?_, h, by simp⟩
      · rcases hs with hs | hs <;> rw [hs] at hd <;> cases hd
      · rcases hs with hs | hs <;> rcases hj with hj | hj <;> rw [hs] at hj <;> cases hj <;> rfl
    · rename_i hf
      obtain ⟨hok, hc⟩ := h.put (Bool.eq_false_iff.2 hf) b
      obtain ⟨k, hk, hdone, hstop, hok', hc'⟩ := ih hok hl
      refine ⟨k + 1, by simp; omega, fun hd => by simp [hdone hd], fun j hj => by rw [hstop j hj]; omega,
        hok', ?_⟩
      rw [hc', hc, List.take_succ_cons, List.append_assoc, List.singleton_append]

/-- `pipereadCopy` takes the bytes it returns off the front of the ring. -/
theorem pipereadCopy_spec {n : Nat} {bs : List UInt8} (h : p.Ok) (hc : pipereadCopy n p = (bs, p')) :
    p'.Ok ∧ bs ++ p'.contents = p.contents := by
  induction n generalizing p bs with
  | zero =>
    cases hc
    exact ⟨h, List.nil_append _⟩
  | succ n ih =>
    unfold pipereadCopy at hc
    split at hc
    · cases hc
      exact ⟨h, List.nil_append _⟩
    · rename_i he
      obtain ⟨hok, hcon⟩ := h.pop he
      generalize hr : pipereadCopy n p.pop = r at hc
      obtain ⟨bs', p''⟩ := r
      cases hc
      obtain ⟨hok', hc'⟩ := ih hok hr
      exact ⟨hok', by rw [hcon, List.cons_append, hc']⟩

/-- The copy loop stops early only on an empty ring. -/
theorem pipereadCopy_eq_nil {n : Nat} (hn : 0 < n) (h : (pipereadCopy n p).1 = []) : p.nread = p.nwrite := by
  obtain ⟨n, rfl⟩ : ∃ m, n = m + 1 := ⟨n - 1, by omega⟩
  unfold pipereadCopy at h
  split at h
  · assumption
  · cases h

/-- `piperead` either sleeps, leaving the pipe, or takes the bytes it returns off the front of the ring. -/
theorem piperead_spec {n : Nat} {r : Option (Int × List UInt8)} (h : p.Ok) (hr : piperead killed n p = (r, p')) :
    p'.Ok ∧ ∀ x bs, r = some (x, bs) → bs ++ p'.contents = p.contents := by
  unfold piperead at hr
  split at hr
  · have hp : p' = p := by split at hr <;> cases hr <;> rfl
    subst hp
    refine ⟨h, fun x bs hx => ?_⟩
    split at hr <;> cases hr
    · cases hx
      exact List.nil_append _
    · cases hx
  · generalize hc : pipereadCopy n p = c at hr
    obtain ⟨bs', p''⟩ := c
    cases hr
    obtain ⟨hok, hcon⟩ := pipereadCopy_spec h hc
    refine ⟨hok, fun x bs hx => ?_⟩
    cases hx
    exact hcon

/-- A `piperead` of `n > 0` bytes returns 0 only on an empty pipe whose write end is closed. -/
theorem piperead_eq_zero {n : Nat} {bs : List UInt8} (hn : 0 < n)
    (hr : (piperead killed n p).1 = some (0, bs)) : p.nread = p.nwrite ∧ p.writeopen = false := by
  unfold piperead at hr
  split at hr
  · split at hr <;> cases hr
  · rename_i hne
    generalize hc : pipereadCopy n p = c at hr
    obtain ⟨bs', p''⟩ := c
    obtain ⟨hlen, -⟩ := Prod.mk.inj (Option.some.inj hr)
    have hnil : bs' = [] := List.eq_nil_of_length_eq_zero (by exact_mod_cast hlen)
    have he : p.nread = p.nwrite := pipereadCopy_eq_nil hn (by rw [hc]; exact hnil)
    exact ⟨he, by simpa [he] using hne⟩

end Calls

/-! ## The pipe and the calls made on it -/

/-- Where a `pipewrite` call is: asleep before storing `addr[i]`, or returned with `r`. -/
inductive WriteStatus where
  | asleep (i : Nat)
  | returned (r : Int)
  deriving DecidableEq, Repr

/-- The status a run of `pipewrite`'s loop leaves its call in, `n` being its byte count. -/
def WriteEnd.status (n : Nat) : WriteEnd → WriteStatus
  | .done => .returned n
  | .fail _ => .returned (-1)
  | .sleep i => .asleep i

/-- The index of `addr` a run stopped at. -/
def WriteEnd.stop (n : Nat) : WriteEnd → Nat
  | .done => n
  | .fail i => i
  | .sleep i => i

/-- A `pipewrite` call: its bytes and where it is. -/
structure WriteCall where
  addr : List UInt8
  status : WriteStatus
  deriving DecidableEq, Repr

/-- One pipe, every `pipewrite` call made on it, numbered in order, and two ghost streams. -/
structure PipeSys where
  pipe : Pipe
  writes : List WriteCall
  /-- Every byte stored, in storage order, with the number of the call that stored it. -/
  stored : List (Nat × UInt8)
  /-- Every byte returned by a `piperead`, in order. -/
  got : List UInt8

/-- What the processes do to the pipe. -/
inductive PipeEvent where
  /-- A process calls `pipewrite` with these bytes. -/
  | write (addr : List UInt8) (killed : Bool)
  /-- Call `c`, asleep in `pipewrite`, gets the lock again. -/
  | wake (c : Nat) (killed : Bool)
  /-- A process calls `piperead` for `n` bytes, or a reader asleep in it gets the lock again. -/
  | read (n : Nat) (killed : Bool)
  /-- The last reference to one end is closed. -/
  | close (writable : Bool)

namespace PipeSys

/-- One run of call `c` of `pipewrite` from `addr[i]`: the ring and the call move as the code does, and the bytes it
stores are added to the stored stream. -/
def runWrite (s : PipeSys) (c : Nat) (addr : List UInt8) (i : Nat) (killed : Bool) : PipeSys :=
  let (e, p) := pipewrite killed addr i s.pipe
  { s with pipe := p
           writes := s.writes.set c ⟨addr, e.status addr.length⟩
           stored := s.stored ++ ((addr.take (e.stop addr.length)).drop i).map (Prod.mk c) }

end PipeSys

/-- The step of the system: a new call is numbered after the others and starts at `addr[0]`. -/
def pipeStep (s : PipeSys) : PipeEvent → Option PipeSys
  | .write addr killed =>
    some ({ s with writes := s.writes ++ [WriteCall.mk addr (.asleep 0)] }.runWrite s.writes.length addr 0 killed)
  | .wake c killed =>
    match s.writes[c]? with
    | some ⟨addr, .asleep i⟩ => some (s.runWrite c addr i killed)
    | _ => none
  | .read n killed =>
    match piperead killed n s.pipe with
    | (none, _) => some s
    | (some (_, bs), p) => some { s with pipe := p, got := s.got ++ bs }
  | .close writable => some { s with pipe := pipeclose s.pipe writable }

/-- A fresh pipe with no call made on it. -/
def pipeInit : PipeSys := { pipe := Pipe.alloc, writes := [], stored := [], got := [] }

/-- The states of a pipe over every interleaving of calls and closes. -/
def PipeReachable (s : PipeSys) : Prop := StepSys.Reachable pipeStep pipeInit s

/-- What call `w` has stored so far, `bs`: the bytes before the one it sleeps at, or a prefix of its bytes once it
returned, all of them when it returned `n`. -/
def WriteCall.Stored (w : WriteCall) (bs : List UInt8) : Prop :=
  match w.status with
  | .asleep i => i ≤ w.addr.length ∧ bs = w.addr.take i
  | .returned r => bs <+: w.addr ∧ (r = w.addr.length → bs = w.addr)

/-- The invariant of a pipe and its calls. -/
structure PipeOk (s : PipeSys) : Prop where
  ok : s.pipe.Ok
  /-- What was read, then what is in the ring, is what was stored. -/
  fifo : s.got ++ s.pipe.contents = s.stored.map Prod.snd
  tag_lt : ∀ x ∈ s.stored, x.1 < s.writes.length
  calls : ∀ c (hc : c < s.writes.length), s.writes[c].Stored (Tagged.part c s.stored)

private theorem pipeOk_init : PipeOk pipeInit :=
  ⟨Pipe.ok_alloc, rfl, fun _ h => absurd h List.not_mem_nil, fun _ hc => absurd hc (Nat.not_lt_zero _)⟩

/-- The status a run leaves its call in matches what it stored. -/
theorem stored_status {addr : List UInt8} {i k : Nat} {e : WriteEnd} (hi : i ≤ addr.length)
    (hk : k ≤ (addr.drop i).length) (hdone : e = .done → k = (addr.drop i).length)
    (hstop : ∀ j, e = .fail j ∨ e = .sleep j → j = i + k) :
    WriteCall.Stored ⟨addr, e.status addr.length⟩ (addr.take (i + k)) ∧ e.stop addr.length = i + k := by
  have hlen : (addr.drop i).length = addr.length - i := List.length_drop
  cases e with
  | done =>
    have hk' := hdone rfl
    have hn : i + k = addr.length := by omega
    rw [hn, List.take_length]
    exact ⟨⟨List.prefix_refl _, fun _ => rfl⟩, rfl⟩
  | fail j =>
    refine ⟨⟨List.take_prefix _ _, fun hr => absurd hr (by omega)⟩, hstop j (.inl rfl)⟩
  | sleep j =>
    have hj := hstop j (.inr rfl)
    subst hj
    exact ⟨⟨show i + k ≤ addr.length by omega, rfl⟩, rfl⟩

/-- One run of an asleep call keeps the invariant. -/
theorem PipeOk.runWrite {s : PipeSys} {c i : Nat} {addr : List UInt8} (killed : Bool) (h : PipeOk s)
    (hc : s.writes[c]? = some ⟨addr, .asleep i⟩) : PipeOk (s.runWrite c addr i killed) := by
  obtain ⟨hcl, hcw⟩ := List.getElem?_eq_some_iff.1 hc
  have hw := h.calls c hcl
  rw [hcw] at hw
  obtain ⟨hi, hb⟩ : i ≤ addr.length ∧ Tagged.part c s.stored = addr.take i := hw
  unfold PipeSys.runWrite
  generalize hr : pipewrite killed addr i s.pipe = r
  obtain ⟨e, p⟩ := r
  dsimp only
  obtain ⟨k, hk, hdone, hstop, hok, hcon⟩ := pipewriteLoop_spec h.ok hr
  obtain ⟨hst, hstop'⟩ := stored_status hi hk hdone hstop
  -- the bytes of this run are `addr[i .. i+k)`
  have hnew : (addr.take (e.stop addr.length)).drop i = (addr.drop i).take k := by
    rw [hstop', List.drop_take]
    simp
  refine ⟨hok, ?_, ?_, ?_⟩
  · rw [hcon, hnew, List.map_append, ← h.fifo, List.append_assoc]
    simp only [List.map_map, Function.comp_def, List.map_id']
  · intro x hx
    simp only [List.length_set, List.mem_append, List.mem_map] at hx ⊢
    rcases hx with hx | ⟨_, _, rfl⟩
    · exact h.tag_lt x hx
    · exact hcl
  · intro c' hc'
    rw [List.length_set] at hc'
    rw [Tagged.part_append, hnew]
    by_cases hcc : c' = c
    · subst hcc
      rw [List.getElem_set_self, Tagged.part_map_self, hb, ← List.take_add]
      exact hst
    · rw [List.getElem_set_ne (Ne.symm hcc), Tagged.part_map_ne hcc, List.append_nil]
      exact h.calls c' hc'

/-- A new call, before its first run, keeps the invariant. -/
theorem PipeOk.newCall {s : PipeSys} (addr : List UInt8) (h : PipeOk s) :
    PipeOk { s with writes := s.writes ++ [WriteCall.mk addr (.asleep 0)] } := by
  refine ⟨h.ok, h.fifo, fun x hx => ?_, fun c hc => ?_⟩
  · simp only [List.length_append, List.length_singleton]
    exact Nat.lt_succ_of_lt (h.tag_lt x hx)
  · simp only [List.length_append, List.length_singleton] at hc
    rcases Nat.lt_succ_iff_lt_or_eq.1 hc with hc | rfl
    · simp only [List.getElem_append_left hc]
      exact h.calls c hc
    · simp only [List.getElem_append_right (le_refl _), Nat.sub_self, List.getElem_singleton]
      exact ⟨Nat.zero_le _, by rw [Tagged.part_of_lt h.tag_lt, List.take_zero]⟩

/-- Every step keeps the invariant. -/
theorem PipeOk.step {s s' : PipeSys} {e : PipeEvent} (h : PipeOk s) (hs : pipeStep s e = some s') : PipeOk s' := by
  cases e with
  | write addr killed =>
    cases hs
    apply (h.newCall addr).runWrite killed
    simp
  | wake c killed =>
    simp only [pipeStep] at hs
    split at hs
    · rename_i addr i hc
      cases hs
      exact h.runWrite killed hc
    · cases hs
  | read n killed =>
    simp only [pipeStep] at hs
    generalize hr : piperead killed n s.pipe = r at hs
    obtain ⟨r, p⟩ := r
    obtain ⟨hok, hcon⟩ := piperead_spec h.ok hr
    split at hs
    · cases hs
      exact h
    · rename_i x bs p'' heq
      cases heq
      cases hs
      refine ⟨hok, ?_, h.tag_lt, h.calls⟩
      rw [List.append_assoc, hcon x bs rfl]
      exact h.fifo
  | close writable =>
    cases hs
    obtain ⟨hok, hcon⟩ := Pipe.ok_close h.ok writable
    exact ⟨hok, by rw [hcon]; exact h.fifo, h.tag_lt, h.calls⟩

private theorem PipeReachable.pipeOk {s : PipeSys} (h : PipeReachable s) : PipeOk s :=
  StepSys.Reachable.induct_inv pipeOk_init (fun _ _ _ hs he => hs.step he) h

/-- Over every interleaving of `pipewrite` and `piperead` calls and closes: the counters are at most `PIPESIZE`
apart modulo `2^32`; what all reads returned, then what is in the ring, is the stream of stored bytes, so the
reads returned a prefix of it, in storage order, with no loss or duplication; the bytes of each `pipewrite` call
were stored in order, all of them if it returned `n`; and a `piperead` of `n > 0` bytes returns 0 only on an empty
pipe whose write end is closed. -/
theorem reachable_pipe_ok {s : PipeSys} (h : PipeReachable s) :
    Ring.dist UINT_MOD s.pipe.nread s.pipe.nwrite ≤ PIPESIZE ∧
    s.got ++ s.pipe.contents = s.stored.map Prod.snd ∧
    (∀ c (hc : c < s.writes.length), Tagged.part c s.stored <+: s.writes[c].addr ∧
      (s.writes[c].status = .returned s.writes[c].addr.length → Tagged.part c s.stored = s.writes[c].addr)) ∧
    ∀ killed n bs, 0 < n → (piperead killed n s.pipe).1 = some (0, bs) →
      s.pipe.nread = s.pipe.nwrite ∧ s.pipe.writeopen = false := by
  have hok := h.pipeOk
  refine ⟨hok.ok.dist_le, hok.fifo, fun c hc => ?_, fun killed n bs hn hr => piperead_eq_zero hn hr⟩
  have hw := hok.calls c hc
  unfold WriteCall.Stored at hw
  split at hw
  · rename_i i hst
    obtain ⟨-, hb⟩ := hw
    refine ⟨hb ▸ List.take_prefix _ _, fun hr => ?_⟩
    rw [hst] at hr
    cases hr
  · rename_i r hst
    exact ⟨hw.1, fun hr => hw.2 (by rw [hst] at hr; cases hr; rfl)⟩

/-- Two writers and a reader: three bytes are written, two read, one more written, the write end closed, and the
rest read.  Every byte came out once and in order, each call's bytes were stored, and a read of one more byte
returns 0 on the empty pipe with the write end closed. -/
theorem pipe_ok_after_close :
    ∃ s, PipeReachable s ∧ s.got = [1, 2, 3, 4] ∧ s.writes.length = 2 ∧
      (piperead false 1 s.pipe).1 = some (0, []) ∧
      Ring.dist UINT_MOD s.pipe.nread s.pipe.nwrite ≤ PIPESIZE ∧
      s.got ++ s.pipe.contents = s.stored.map Prod.snd ∧
      (∀ c (hc : c < s.writes.length), Tagged.part c s.stored <+: s.writes[c].addr ∧
        (s.writes[c].status = .returned s.writes[c].addr.length → Tagged.part c s.stored = s.writes[c].addr)) ∧
      s.pipe.nread = s.pipe.nwrite ∧ s.pipe.writeopen = false := by
  obtain ⟨s, hs, hp⟩ := StepSys.reachable_of_run pipeStep pipeInit
    [.write [1, 2, 3] false, .read 2 false, .write [4] false, .close true, .read 5 false]
    (fun s => decide (s.got = [1, 2, 3, 4] ∧ s.writes.length = 2 ∧ (piperead false 1 s.pipe).1 = some (0, [])))
    (by decide +kernel)
  obtain ⟨hgot, hlen, hr⟩ := of_decide_eq_true hp
  obtain ⟨hdist, hfifo, hcalls, hzero⟩ := reachable_pipe_ok hs
  exact ⟨s, hs, hgot, hlen, hr, hdist, hfifo, hcalls, hzero false 1 [] (by decide) hr⟩

/-- A `piperead` of 0 bytes returns 0 on a pipe holding a byte with its write end open. -/
theorem piperead_zero_bytes_nonempty :
    ∃ s, PipeReachable s ∧ (piperead false 0 s.pipe).1 = some (0, []) ∧ s.pipe.nread ≠ s.pipe.nwrite ∧
      s.pipe.writeopen = true := by
  obtain ⟨s, hs, hp⟩ := StepSys.reachable_of_run pipeStep pipeInit [.write [7] false]
    (fun s => decide ((piperead false 0 s.pipe).1 = some (0, []) ∧ s.pipe.nread ≠ s.pipe.nwrite ∧
      s.pipe.writeopen = true)) (by decide +kernel)
  exact ⟨s, hs, of_decide_eq_true hp⟩

end Xv6
