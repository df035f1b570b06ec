import Xv6.Param
import Xv6.Lib.LEBytes
import Xv6.Lib.CrashWrites

/-!
# The log of `log.c`

The in-memory `struct log` with `begin_op`, `end_op` and `log_write`, and the disk side of `commit` and
`recover_from_log`: the log header block in its byte layout, and each routine as the list of `bwrite`s it issues,
in program order, each computed from the disk at the time it is issued.

The header holds `int n; int block[LOGSIZE];` little-endian from byte `0` of block `log.start`; the data blocks
of the log follow it.  In memory `lh.block[0 .. lh.n)` is kept as a list; the entries past `lh.n` are never read.
Block numbers are below `2^31`, where `int` and `uint` agree.
-/

namespace Xv6

/-- The contents of a disk block. -/
abbrev Block := Fin BSIZE → UInt8

/-- The disk, block number to contents. -/
abbrev Disk := Nat → Block

/-- `struct log`: where the log lives on disk, the operations in progress, whether a commit runs, and the
in-memory header. -/
structure Log where
  start : Nat
  size : Nat
  outstanding : Int
  committing : Bool
  lh : List Nat
  deriving DecidableEq, Repr

/-- `begin_op`: admit one more operation unless a commit runs or the reserved log space could run out; `none`
when the caller sleeps and tries again later. -/
def begin_op (l : Log) : Option Log :=
  if l.committing then none
  else if (LOGSIZE : Int) < l.lh.length + (l.outstanding + 1) * MAXOPBLOCKS then none
  else some { l with outstanding := l.outstanding + 1 }

/-- `log_write(b)` for a buffer holding block `b`: record `b` in the header unless it is there already (log
absorption).  `.error` carries the text of the panic.  The checks and the append are one step here; the source
makes the checks before it takes `log.lock`. -/
def log_write (l : Log) (b : Nat) : Except String Log :=
  if LOGSIZE ≤ l.lh.length ∨ (l.size : Int) - 1 ≤ l.lh.length then .error "too big a transaction"
  else if l.outstanding < 1 then .error "log_write outside of trans"
  else .ok { l with lh := if b ∈ l.lh then l.lh else l.lh ++ [b] }

/-- `end_op` up to the commit: one operation fewer, and when it was the last, `committing` is set and the caller
commits (`true`). -/
def end_op (l : Log) : Except String (Bool × Log) :=
  let l := { l with outstanding := l.outstanding - 1 }
  if l.committing then .error "log.committing"
  else if l.outstanding = 0 then .ok (true, { l with committing := true })
  else .ok (false, l)

/-- The end of `end_op` after `commit()`: the header is empty and the next operations may begin. -/
def commitDone (l : Log) : Log := { l with lh := [], committing := false }

theorem begin_op_eq {l l' : Log} (h : begin_op l = some l') :
    l.committing = false ∧ l' = { l with outstanding := l.outstanding + 1 } := by
  unfold begin_op at h
  split at h
  · cases h
  · split at h
    · cases h
    · rename_i hc _
      exact ⟨by simpa using hc, (Option.some.inj h).symm⟩

theorem log_write_ok {l l' : Log} {b : Nat} (h : log_write l b = .ok l') :
    l.lh.length + 1 < l.size ∧ l' = { l with lh := if b ∈ l.lh then l.lh else l.lh ++ [b] } := by
  unfold log_write at h
  split at h
  · cases h
  · rename_i hs
    split at h
    · cases h
    · refine ⟨by omega, ?_⟩
      cases h
      rfl

theorem log_write_error {l : Log} {b : Nat} {e : String} (h : log_write l b = .error e) (ho : 1 ≤ l.outstanding) :
    e = "too big a transaction" := by
  unfold log_write at h
  split at h
  · cases h; rfl
  · split at h
    · omega
    · cases h

theorem end_op_ok {l l' : Log} {c : Bool} (h : end_op l = .ok (c, l')) :
    l.committing = false ∧
      l' = { l with outstanding := l.outstanding - 1, committing := decide (l.outstanding - 1 = 0) } := by
  unfold end_op at h
  simp only at h
  split at h
  · cases h
  · rename_i hc
    simp only [Bool.not_eq_true] at hc
    split at h
    · rename_i h0
      cases h
      simp [hc, h0]
    · rename_i h0
      cases h
      simp [hc, h0]

theorem end_op_not_error {l : Log} {e : String} (hc : l.committing = false) : end_op l ≠ .error e := by
  unfold end_op
  simp only [hc, Bool.false_eq_true, ↓reduceIte]
  split <;> simp

/-! ### The header block -/

/-- `write_head`'s update of the header block `hb`: `hb->n = n`, then `hb->block[i]` for `i < n`. -/
def headBlock (hb : Block) (lh : List Nat) : Block :=
  (List.range lh.length).foldl (fun hb i => LEBytes.setI32 hb (4 + 4 * i) (lh.getD i 0))
    (LEBytes.setI32 hb 0 lh.length)

/-- `read_head`: `n` from the header block, and the first `n` block numbers. -/
def read_head (hb : Block) : List Nat :=
  (List.range (LEBytes.getI32 hb 0).toNat).map fun i => LEBytes.getU32 hb (4 + 4 * i)

/-! ### The writes of `commit` and `recover_from_log` -/

/-- `write_log`: log block `start + 1 + tail` receives the cached contents of `lh.block[tail]`. -/
def write_log (start : Nat) (lh : List Nat) (cached : Nat → Block) : List (CrashWrites.Act Nat Block) :=
  (List.range lh.length).map fun tail _ => (start + tail + 1, cached (lh.getD tail 0))

/-- `write_head`: the header block, read and updated with the in-memory header. -/
def write_head (start : Nat) (lh : List Nat) : CrashWrites.Act Nat Block := fun d => (start, headBlock (d start) lh)

/-- `install_trans`: each home block receives the contents of its log block. -/
def install_trans (start : Nat) (lh : List Nat) : List (CrashWrites.Act Nat Block) :=
  (List.range lh.length).map fun tail d => (lh.getD tail 0, d (start + tail + 1))

/-- `commit()` on a header `lh` whose blocks have the cached contents `cached`: the log, the header (the commit
point), the home blocks, and the emptied header. -/
def commit (start : Nat) (lh : List Nat) (cached : Nat → Block) : List (CrashWrites.Act Nat Block) :=
  if 0 < lh.length then
    write_log start lh cached ++ [write_head start lh] ++ install_trans start lh ++ [write_head start []]
  else []

/-- `recover_from_log` on the disk `d`: read the header, install what it names, empty it. -/
def recover_from_log (start : Nat) (d : Disk) : List (CrashWrites.Act Nat Block) :=
  install_trans start (read_head (d start)) ++ [write_head start []]

end Xv6
