import Xv6.Log.Basic
import Xv6.Lib.StepSys

/-!
# The log protocol under concurrent operations

File-system system calls run concurrently, each between `begin_op` and `end_op`, each calling `log_write` on at
most `MAXOPBLOCKS` distinct blocks; the last `end_op` commits.  The state is `struct log`, the operations in
progress with the blocks each has logged, and the text of a panic once one happened.

Two of the protocol's panics cannot happen (`LogSys.reachable_panic`): `log_write` always runs inside an
operation, and no operation ends while a commit runs, because `outstanding` counts the operations in progress and
a commit starts only when it is zero.  `log_write` is one step here, its checks and its append under `log.lock`
together, so the header stays duplicate-free with at most `log.size - 1` entries (`Inv`); in the source the checks
run before `acquire(&log.lock)`, and two `log_write`s can both pass them at `lh.n = 28`.  But
`begin_op` reserves `MAXOPBLOCKS` blocks per operation out of `LOGSIZE = 30`, while `log_write` refuses the
`log.size - 1 = 29`-th entry: three operations admitted together, writing ten blocks each, reach the panic "too
big a transaction" (`reachable_too_big_a_transaction`).
-/

namespace Xv6

/-- An operation in progress: its thread, and the distinct blocks it has logged so far. -/
structure Op where
  id : Nat
  logged : List Nat
  deriving DecidableEq, Repr

/-- The log with the operations in progress, and the panic that stopped the kernel, if any. -/
structure LogSys where
  log : Log
  ops : List Op
  panicked : Option String
  deriving DecidableEq, Repr

/-- The events: thread `k` begins an operation, logs block `b`, ends its operation; the running commit
finishes. -/
inductive LogEvent where
  | begin (k : Nat)
  | write (k b : Nat)
  | finish (k : Nat)
  | commit
  deriving Repr

namespace LogSys

/-- The log after `initlog` on a disk made by `mkfs`: `nlog = LOGSIZE` blocks from block `2`, nothing pending. -/
def init : LogSys := ⟨⟨2, LOGSIZE, 0, false, []⟩, [], none⟩

/-- Record that operation `k` logged block `b`. -/
def noteWrite (k b : Nat) (o : Op) : Op :=
  if o.id = k ∧ b ∉ o.logged then { o with logged := o.logged ++ [b] } else o

/-- A thread writes a block only inside its own operation, and at most `MAXOPBLOCKS` distinct ones. -/
def mayWrite (o : Op) (b : Nat) : Bool := b ∈ o.logged ∨ o.logged.length < MAXOPBLOCKS

def step (s : LogSys) : LogEvent → Option LogSys
  | .begin k =>
    if s.panicked.isSome ∨ k ∈ s.ops.map Op.id then none
    else (begin_op s.log).map fun l => { s with log := l, ops := s.ops ++ [⟨k, []⟩] }
  | .write k b =>
    if s.panicked.isSome then none
    else match s.ops.find? (·.id = k) with
      | none => none
      | some o =>
        if mayWrite o b then
          match log_write s.log b with
          | .error e => some { s with panicked := some e }
          | .ok l => some { s with log := l, ops := s.ops.map (noteWrite k b) }
        else none
  | .finish k =>
    if s.panicked.isSome ∨ k ∉ s.ops.map Op.id then none
    else match end_op s.log with
      | .error e => some { s with panicked := some e }
      | .ok (_, l) => some { s with log := l, ops := s.ops.filter (·.id ≠ k) }
  | .commit => if s.panicked.isNone ∧ s.log.committing then some { s with log := commitDone s.log } else none

def Reachable (s : LogSys) : Prop := StepSys.Reachable step init s

/-- What holds in every reachable state that has not panicked. -/
structure Inv (s : LogSys) : Prop where
  size_eq : s.log.size = LOGSIZE
  outstanding_eq : s.log.outstanding = s.ops.length
  ids_nodup : (s.ops.map Op.id).Nodup
  committing_idle : s.log.committing = true → s.ops = []
  lh_nodup : s.log.lh.Nodup
  lh_length : s.log.lh.length + 1 ≤ s.log.size

private theorem length_filter_id_ne {ops : List Op} {k : Nat} (hnd : (ops.map Op.id).Nodup)
    (hk : k ∈ ops.map Op.id) : (ops.filter (·.id ≠ k)).length + 1 = ops.length := by
  induction ops with
  | nil => simp at hk
  | cons o ops ih =>
    simp only [List.map_cons, List.nodup_cons, List.mem_map] at hnd
    simp only [List.map_cons, List.mem_cons, List.mem_map] at hk
    by_cases ho : o.id = k
    · -- `o` is the only operation of thread `k`
      have hnone : ∀ p ∈ ops, p.id ≠ k := fun p hp hpk => hnd.1 ⟨p, hp, hpk.trans ho.symm⟩
      rw [List.filter_cons_of_neg (by simpa using ho), List.filter_eq_self.2 (by simpa using hnone)]
      simp
    · rw [List.filter_cons_of_pos (by simpa using ho)]
      rcases hk with hk | ⟨p, hp, hpk⟩
      · exact absurd hk.symm ho
      · have := ih hnd.2 (List.mem_map.2 ⟨p, hp, hpk⟩)
        simp only [List.length_cons]
        omega

private theorem noteWrite_id (k b : Nat) (o : Op) : (noteWrite k b o).id = o.id := by
  unfold noteWrite; split <;> rfl

theorem inv_init : Inv init := ⟨rfl, rfl, List.nodup_nil, fun _ => rfl, List.nodup_nil, by decide⟩

private theorem inv_begin {s : LogSys} {k : Nat} {l : Log} (hi : Inv s) (hk : k ∉ s.ops.map Op.id)
    (hb : begin_op s.log = some l) : Inv { s with log := l, ops := s.ops ++ [⟨k, []⟩] } := by
  obtain ⟨hc, rfl⟩ := begin_op_eq hb
  refine ⟨hi.size_eq, ?_, ?_, ?_, hi.lh_nodup, hi.lh_length⟩
  · simp [hi.outstanding_eq]
  · rw [List.map_append, List.nodup_append]
    refine ⟨hi.ids_nodup, by simp, fun a ha b hb => ?_⟩
    rw [List.map_singleton, List.mem_singleton] at hb
    subst hb
    exact fun hab => hk (hab ▸ ha)
  · simp [hc]

private theorem inv_write {s : LogSys} (k : Nat) {b : Nat} {l : Log} (hi : Inv s) (hw : log_write s.log b = .ok l) :
    Inv { s with log := l, ops := s.ops.map (noteWrite k b) } := by
  obtain ⟨hlen, rfl⟩ := log_write_ok hw
  have hids : (s.ops.map (noteWrite k b)).map Op.id = s.ops.map Op.id := by
    simp [Function.comp_def, noteWrite_id]
  refine ⟨hi.size_eq, by simp [hi.outstanding_eq], hids ▸ hi.ids_nodup,
    fun h => by simp [hi.committing_idle h], ?_, ?_⟩
  · by_cases hb : b ∈ s.log.lh
    · simpa [hb] using hi.lh_nodup
    · rw [if_neg hb, List.nodup_append]
      refine ⟨hi.lh_nodup, by simp, fun a ha c hc hac => ?_⟩
      rw [List.mem_singleton] at hc
      exact hb (hc ▸ hac ▸ ha)
  · by_cases hb : b ∈ s.log.lh
    · simp only [hb, if_true]; omega
    · simp only [hb, if_false, List.length_append, List.length_singleton]; omega

private theorem write_error {s : LogSys} {k b : Nat} {o : Op} {e : String} (hi : Inv s)
    (ho : s.ops.find? (·.id = k) = some o) (hw : log_write s.log b = .error e) : e = "too big a transaction" := by
  refine log_write_error hw ?_
  have : 0 < s.ops.length := List.length_pos_of_mem (List.mem_of_find?_eq_some ho)
  rw [hi.outstanding_eq]
  omega

private theorem inv_finish {s : LogSys} {k : Nat} {c : Bool} {l : Log} (hi : Inv s) (hk : k ∈ s.ops.map Op.id)
    (he : end_op s.log = .ok (c, l)) : Inv { s with log := l, ops := s.ops.filter (·.id ≠ k) } := by
  obtain ⟨-, rfl⟩ := end_op_ok he
  have hlen := length_filter_id_ne hi.ids_nodup hk
  refine ⟨hi.size_eq, ?_, ((List.filter_sublist).map Op.id).nodup hi.ids_nodup, ?_, hi.lh_nodup, hi.lh_length⟩
  · show s.log.outstanding - 1 = ((s.ops.filter (·.id ≠ k)).length : Int)
    rw [hi.outstanding_eq]
    omega
  · intro h0
    simp only [decide_eq_true_eq] at h0
    rw [hi.outstanding_eq] at h0
    show s.ops.filter (·.id ≠ k) = []
    exact List.eq_nil_of_length_eq_zero (by omega)

private theorem committing_false {s : LogSys} {k : Nat} (hi : Inv s) (hk : k ∈ s.ops.map Op.id) :
    s.log.committing = false := by
  cases h : s.log.committing
  · rfl
  · rw [hi.committing_idle h] at hk; cases hk

private theorem inv_commit {s : LogSys} (hi : Inv s) : Inv { s with log := commitDone s.log } :=
  ⟨hi.size_eq, hi.outstanding_eq, hi.ids_nodup, (fun h => by cases h), List.nodup_nil,
    (by simp [commitDone, hi.size_eq, LOGSIZE, MAXOPBLOCKS])⟩

/-- The reachable states: the invariant until a panic, and then only the panic of `log_write`'s size check. -/
def Safe (s : LogSys) : Prop :=
  match s.panicked with
  | none => Inv s
  | some e => e = "too big a transaction"

private theorem safe_step {s s' : LogSys} {ev : LogEvent} (hs : Safe s) (h : step s ev = some s') : Safe s' := by
  obtain ⟨log, ops, panicked⟩ := s
  cases panicked with
  | some e => cases ev <;> simp [step] at h
  | none =>
    simp only [Safe] at hs
    cases ev with
    | begin k =>
      simp only [step, Option.isSome_none, Bool.false_eq_true, false_or] at h
      split at h
      · cases h
      · rename_i hk
        obtain ⟨l, hb, rfl⟩ := Option.map_eq_some_iff.1 h
        exact inv_begin hs hk hb
    | write k b =>
      simp only [step, Option.isSome_none, Bool.false_eq_true, if_false] at h
      split at h
      · cases h
      · rename_i o ho
        split at h
        · split at h
          · rename_i e hw
            cases h
            exact write_error hs ho hw
          · rename_i l hw
            cases h
            exact inv_write k hs hw
        · cases h
    | finish k =>
      simp only [step, Option.isSome_none, Bool.false_eq_true, false_or] at h
      split at h
      · cases h
      · rename_i hk
        simp only [Decidable.not_not] at hk
        split at h
        · rename_i e he
          exact absurd he (end_op_not_error (committing_false hs hk))
        · rename_i c l he
          cases h
          exact inv_finish hs hk he
    | commit =>
      simp only [step, Option.isNone_none, true_and] at h
      split at h
      · cases h
        exact inv_commit hs
      · cases h

theorem reachable_safe {s : LogSys} (h : Reachable s) : Safe s :=
  StepSys.Reachable.induct_inv (by simp only [Safe, init]; exact inv_init) (fun _ _ _ hs he => safe_step hs he) h

/-- Of the protocol's panics only "too big a transaction" is reachable: neither "log_write outside of trans" nor
"log.committing". -/
theorem reachable_panic {s : LogSys} {e : String} (h : Reachable s) (hp : s.panicked = some e) :
    e = "too big a transaction" := by
  have := reachable_safe h
  simp only [Safe, hp] at this
  exact this

/-- Three operations begin together, then each logs ten distinct blocks of its own. -/
def tooBigTrace : List LogEvent :=
  [.begin 0, .begin 1, .begin 2] ++ (List.range 10).map (fun i => .write 0 (100 + i)) ++
    (List.range 10).map (fun i => .write 1 (110 + i)) ++ (List.range 10).map (fun i => .write 2 (120 + i))

theorem reachable_too_big_a_transaction : ∃ s, Reachable s ∧ s.panicked = some "too big a transaction" := by
  obtain ⟨s, hs, hp⟩ := StepSys.reachable_of_run step init tooBigTrace
    (fun s => decide (s.panicked = some "too big a transaction")) (by decide +kernel)
  exact ⟨s, hs, of_decide_eq_true hp⟩

/-- The run of `tooBigTrace` panics, and its panic is the one `reachable_panic` allows. -/
theorem panic_of_too_big_trace : ∃ s e, Reachable s ∧ s.panicked = some e ∧ e = "too big a transaction" := by
  obtain ⟨s, hs, hp⟩ := StepSys.reachable_of_run step init tooBigTrace (fun s => s.panicked.isSome)
    (by decide +kernel)
  obtain ⟨e, he⟩ := Option.isSome_iff_exists.1 hp
  exact ⟨s, e, hs, he, reachable_panic hs he⟩

end LogSys

end Xv6
