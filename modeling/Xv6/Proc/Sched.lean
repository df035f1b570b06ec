import Xv6.Proc.Basic
import Xv6.Lib.StepSys

/-!
# The CFS scheduler of `proc.c`

The functions of `proc.c` that read or write the scheduling state, as functions of the process table:
`vruntimeupdate`, `totalweight`, one pass of `scheduler()`, `wakeup1`, `allocproc`, `fork`, `sleep`, `yield`,
the timer branch of `trap`, `kill`, `exit` and `wait`, and the step function over them.

`vruntimeupdate`, `scheduler()` and `wakeup1` compute in `double`.  Each value the model computes in exact
arithmetic is the one the `double` expression rounds to, because the runtime difference is below `2^32` and every
weight is at most `88818`: a quotient `1024 * d / w` that is not an integer is at least `1/w` away from one, far
more than the rounding error, so its truncation and its comparison with `2147483647` are exact.  A `double`
converted to `uint` out of range is modelled modulo `2^32`.
-/

namespace Xv6

/-- `nice_to_weight`: the weight of each nice value `0, …, 39`. -/
def nice_to_weight : List Nat :=
  [88818, 71054, 56843, 45475, 36380, 29104, 23283, 18626, 14901, 11921,
   9537, 7629, 6104, 4883, 3906, 3125, 2500, 2000, 1600, 1280,
   1024, 819, 655, 524, 419, 336, 268, 214, 172, 137,
   110, 88, 70, 56, 45, 36, 29, 23, 18, 15]

/-- `nice_to_weight[nice]`. -/
def weightOf (nice : Int) : Nat := nice_to_weight.getD nice.toNat 0

/-- `vruntimeupdate`: charge the runtime since the last dispatch, `1024 * d / weight`, to `vruntime`; when the sum
would pass `2147483647`, count an overflow and keep the excess.  The test `vruntime + 1024 * d / weight >
2147483647` is taken in exact arithmetic, multiplied out by the weight. -/
def vruntimeupdate (p : Proc) : Proc :=
  let d := (p.actual_runtime + UINT_MOD - p.scheduled_time) % UINT_MOD
  if INT_MAX * p.weight < p.vruntime * p.weight + 1024 * d then
    { p with int_overflow := p.int_overflow + 1,
             vruntime := (p.vruntime + 1024 * d / p.weight - INT_MAX) % UINT_MOD }
  else { p with vruntime := p.vruntime + 1024 * d / p.weight }

/-- What `vruntimeupdate` charges: the runtime since the last dispatch, times `1024`, over the weight. -/
def charge (p : Proc) : Nat := 1024 * ((p.actual_runtime + UINT_MOD - p.scheduled_time) % UINT_MOD) / p.weight

/-- `vruntimeupdate` with its charge named: the form proofs rewrite with, since Lean's unfolding of the definition
itself does not finish. -/
theorem vruntimeupdate_eq (p : Proc) :
    vruntimeupdate p =
      if INT_MAX * p.weight < p.vruntime * p.weight +
          1024 * ((p.actual_runtime + UINT_MOD - p.scheduled_time) % UINT_MOD)
      then { p with int_overflow := p.int_overflow + 1, vruntime := (p.vruntime + charge p - INT_MAX) % UINT_MOD }
      else { p with vruntime := p.vruntime + charge p } := rfl

/-- `vruntimeupdate` changes `vruntime` and `int_overflow` only.  Proofs about the other fields rewrite with this
first: checking a field of the unfolded update would make the kernel evaluate its test on the runtimes. -/
theorem vruntimeupdate_cases (p : Proc) : ∃ v o, vruntimeupdate p = { p with vruntime := v, int_overflow := o } := by
  rw [vruntimeupdate_eq]
  split
  · exact ⟨_, _, rfl⟩
  · exact ⟨_, _, rfl⟩

/-- `totalweight`: the sum of the weights of the slots that are not `UNUSED`. -/
def totalweight (t : PTable) : Nat :=
  t.proc.foldl (fun tw p => if p.state ≠ .UNUSED then tw + p.weight else tw) 0

/-- The comparison of `scheduler()` and `wakeup1`: `p` is `RUNNABLE` and has a smaller `int_overflow`, or the same
`int_overflow` and a smaller `vruntime`, than `s`. -/
def shorter (p s : Proc) : Bool :=
  p.state = .RUNNABLE && (decide (p.int_overflow < s.int_overflow) ||
    (decide (p.int_overflow = s.int_overflow) && decide (p.vruntime < s.vruntime)))

/-- The scan `for (p = ptable.proc; …) if (shorter) s = p;` from the slot `s`. -/
def shortestFrom (t : PTable) (s : Nat) : Nat :=
  (List.range NPROC).foldl (fun s i => if shorter (t.get i) (t.get s) then i else s) s

/-- The first `RUNNABLE` slot, where the outer loop of `scheduler()` stops. -/
def firstRunnable (t : PTable) : Option Nat :=
  (List.range NPROC).find? fun i => (t.get i).state = .RUNNABLE

/-- One pass of `scheduler()`'s loop that dispatches: the inner loop runs the table to its end, so the outer loop
ends after one switch.  The chosen slot gets its time slice, the runtime at dispatch and the state `RUNNING`;
`none` when no slot is `RUNNABLE`. -/
def scheduler (t : PTable) : Option (Nat × PTable) :=
  (firstRunnable t).map fun f =>
    let j := shortestFrom t f
    let tw := totalweight t
    let p := t.get j
    (j, t.set j { p with time_slice := 1000 * ((2 * p.weight + tw) / (2 * tw)) * 10,
                         scheduled_time := p.actual_runtime, state := .RUNNING })

/-- The first loop of `wakeup1`: the last slot that is not `RUNNABLE`, `none` when all are (`shortest` stays null,
and the next loop dereferences it). -/
def lastNotRunnable (t : PTable) : Option Nat :=
  (List.range NPROC).foldl (fun s i => if (t.get i).state = .RUNNABLE then s else some i) none

/-- `(int)(1024 / (double) w + 0.5)`: `1024 / w` rounded half up. -/
def tickShare (w : Nat) : Nat := (2048 + w) / (2 * w)

/-- The last loop of `wakeup1` at slot `i`, with `shortest` at slot `s`.  `shortest` is read from the current
table, as the C code reads it through its pointer after earlier slots were woken.  The new `vruntime` is
`(shortest->vruntime - tickShare) * 1000` in `uint` arithmetic. -/
def wakeOne (c : Option Chan) (s : Nat) (t : PTable) (i : Nat) : PTable :=
  let p := t.get i
  if p.state = .SLEEPING ∧ p.chan = c then
    let sh := t.get s
    if sh.int_overflow ≠ 0 ∨ sh.vruntime ≠ 0 then
      t.set i { p with state := .RUNNABLE,
                       vruntime := (sh.vruntime + UINT_MOD - tickShare p.weight) * 1000 % UINT_MOD,
                       int_overflow := sh.int_overflow }
    else t.set i { p with state := .RUNNABLE, vruntime := sh.vruntime, int_overflow := 0 }
  else t

/-- `wakeup1(chan)`; `none` when every slot is `RUNNABLE` and the null `shortest` is dereferenced. -/
def wakeup1 (c : Option Chan) (t : PTable) : Option PTable :=
  (lastNotRunnable t).map fun s0 => (List.range NPROC).foldl (wakeOne c (shortestFrom t s0)) t

/-- The zeroed table before `userinit`. -/
def PTable.zero : PTable := ⟨List.replicate NPROC {}, 1, List.length_replicate⟩

/-- `allocproc`: the first `UNUSED` slot becomes `EMBRYO` with a fresh pid and the default scheduling fields. -/
def allocproc (t : PTable) : Option (Nat × PTable) :=
  ((List.range NPROC).find? fun i => (t.get i).state = .UNUSED).map fun j =>
    let p := { t.get j with state := .EMBRYO, pid := t.nextpid, nice := 20, weight := weightOf 20,
                            actual_runtime := 0, vruntime := 0, scheduled_time := 0, time_slice := 0,
                            int_overflow := 0 }
    (j, { t.set j p with nextpid := t.nextpid + 1 })

/-- `userinit`: `allocproc` on the zeroed table, and the first process made `RUNNABLE`. -/
def userinit : PTable :=
  match allocproc PTable.zero with
  | some (j, t) => t.set j { t.get j with state := .RUNNABLE }
  | none => PTable.zero

/-- How the allocations that `fork` makes outside the process table turn out. -/
inductive ForkResult where
  /-- every allocation succeeds -/
  | ok
  /-- `kalloc` of the kernel stack fails in `allocproc`, which puts the slot back to `UNUSED` -/
  | kstackFail
  /-- `copyuvm` fails, and the slot goes back to `UNUSED` -/
  | copyuvmFail
  /-- the mmap table has no free entry for a copied area: `fork` returns `-1`, the child stays `EMBRYO` -/
  | mmapFull
  /-- `kalloc` fails while copying a populated area: `fork` returns `0`, the child stays `EMBRYO` -/
  | mmapOom
  deriving DecidableEq, Repr

/-- `fork` by slot `i`, as far as the process table sees it: the child inherits `nice`, `vruntime` and
`int_overflow`, and becomes `RUNNABLE` when every allocation succeeds. -/
def fork (i : Nat) (r : ForkResult) (t : PTable) : Int × PTable :=
  match allocproc t with
  | none => (-1, t)
  | some (j, t) =>
    match r with
    | .kstackFail | .copyuvmFail => (-1, t.set j { t.get j with state := .UNUSED })
    | _ =>
      let par := t.get i
      let t := t.set j { t.get j with parent := some i, nice := par.nice, weight := weightOf par.nice,
                                      vruntime := par.vruntime, int_overflow := par.int_overflow }
      match r with
      | .mmapFull => (-1, t)
      | .mmapOom => (0, t)
      | _ => ((t.get j).pid, t.set j { t.get j with state := .RUNNABLE })

/-- `sleep(chan, lk)` by slot `i`.  The C code clears `p->chan` only when the process runs again; a stale channel of
a slot that is not `SLEEPING` is never read, so the model leaves it. -/
def sleep (i : Nat) (c : Chan) (t : PTable) : PTable :=
  t.set i { vruntimeupdate (t.get i) with chan := some c, state := .SLEEPING }

/-- `yield` by slot `i`. -/
def yield (i : Nat) (t : PTable) : PTable :=
  t.set i { vruntimeupdate (t.get i) with state := .RUNNABLE }

/-- The timer branch of `trap` for the `RUNNING` slot `i`: add one tick of runtime, and `yield` once the slice
since the last dispatch is used up. -/
def trapTimer (i : Nat) (t : PTable) : PTable :=
  let p := t.get i
  let p := { p with actual_runtime := (p.actual_runtime + 1000) % UINT_MOD }
  let t := t.set i p
  if p.time_slice ≤ (p.actual_runtime + UINT_MOD - p.scheduled_time) % UINT_MOD then yield i t else t

/-- `kill(pid)`: the first slot with that pid is marked killed, and woken with its runtime charged if it sleeps. -/
def kill (pid : Int) (t : PTable) : Int × PTable :=
  match (List.range NPROC).find? fun i => (t.get i).pid = pid with
  | none => (-1, t)
  | some i =>
    let p := { t.get i with killed := true }
    if p.state = .SLEEPING then (0, t.set i (vruntimeupdate { p with state := .RUNNABLE }))
    else (0, t.set i p)

/-- The loop of `exit` that passes the children of slot `i` to `initproc` at slot `j`. -/
def reparent (i : Nat) (t : PTable) (j : Nat) : Option PTable :=
  if (t.get j).parent = some i then
    let t := t.set j { t.get j with parent := some 0 }
    if (t.get j).state = .ZOMBIE then wakeup1 (some (.proc 0)) t else some t
  else some t

/-- `exit` by slot `i`, from the runtime charge on: wake the parent, pass the children to `initproc`, become
`ZOMBIE`.  `initproc` itself panics. -/
def exit (i : Nat) (t : PTable) : Option PTable :=
  if i = 0 then none
  else do
    let t := t.set i (vruntimeupdate (t.get i))
    let t ← wakeup1 ((t.get i).parent.map Chan.proc) t
    let t ← (List.range NPROC).foldlM (reparent i) t
    pure (t.set i { t.get i with state := .ZOMBIE })

/-- One round of `wait`'s loop by slot `i`: reap the first `ZOMBIE` child and return its pid, return `-1` without
children or when killed, and otherwise sleep on the own slot (`none` as the result). -/
def wait (i : Nat) (t : PTable) : Option Int × PTable :=
  match (List.range NPROC).find? fun j => (t.get j).parent = some i ∧ (t.get j).state = .ZOMBIE with
  | some j =>
    (some (t.get j).pid, t.set j { t.get j with pid := 0, parent := none, killed := false, state := .UNUSED })
  | none =>
    if (List.range NPROC).any (fun j => (t.get j).parent = some i) ∧ (t.get i).killed = false then
      (none, sleep i (.proc i) t)
    else (some (-1), t)

/-- The events of the scheduling state machine.  `dispatch` is one switch by `scheduler()` on a free CPU;
`tick i`, `sleep`, `fork`, `exit`, `wait` and `kill` (the system call `sys_kill`) are actions of the `RUNNING`
slot `i`; `wakeup` comes from any context (system calls and interrupt handlers). -/
inductive Event where
  | dispatch
  | tick (i : Nat)
  | sleep (i : Nat) (c : Chan)
  | wakeup (c : Chan)
  | kill (i : Nat) (pid : Int)
  | fork (i : Nat) (r : ForkResult)
  | exit (i : Nat)
  | wait (i : Nat)

/-- Slot `i` is the process running on some CPU. -/
def running (t : PTable) (i : Nat) : Bool := i < NPROC ∧ (t.get i).state = .RUNNING

/-- The step function: `none` when the event is not enabled or the kernel stops (a panic, a null dereference). -/
def step (t : PTable) : Event → Option PTable
  | .dispatch => (scheduler t).map Prod.snd
  | .tick i => if running t i then some (trapTimer i t) else none
  | .sleep i c => if running t i then some (sleep i c t) else none
  | .wakeup c => wakeup1 (some c) t
  | .kill i pid => if running t i then some (kill pid t).2 else none
  | .fork i r => if running t i then some (fork i r t).2 else none
  | .exit i => if running t i then exit i t else none
  | .wait i => if running t i then some (wait i t).2 else none

/-- The reachable process tables, from `userinit`. -/
def Reachable (t : PTable) : Prop := StepSys.Reachable step userinit t

end Xv6
