import Xv6.Param

/-!
# The process table

`struct proc` with the fields the scheduler, `fork`, `exit`, `wait` and `kill` read and write, and `ptable.proc`
as a list of `NPROC` entries that carries its length.  A process is named by its slot; `struct proc *` values such
as `p->parent` and `initproc` are slot indices, and `initproc` is slot `0`, where `userinit` puts it.
-/

namespace Xv6

/-- `enum procstate`. -/
inductive ProcState where
  | UNUSED | EMBRYO | SLEEPING | RUNNABLE | RUNNING | ZOMBIE
  deriving DecidableEq, Repr

/-- A sleep channel (`void *chan`): a process slot (what `wait` sleeps on), `&ticks` (what `sys_sleep` sleeps on),
or any other kernel address (a pipe, a buffer, the log, the console input). -/
inductive Chan where
  | proc (i : Nat)
  | ticks
  | other (a : Nat)
  deriving DecidableEq, Repr

/-- `struct proc`, restricted to the scheduling fields.  `uint` fields are naturals below `2^32`; the C `int`
fields are integers.  The static table starts zeroed, which is the default of every field. -/
structure Proc where
  state : ProcState := .UNUSED
  pid : Int := 0
  parent : Option Nat := none
  chan : Option Chan := none
  killed : Bool := false
  nice : Int := 0
  time_slice : Nat := 0
  vruntime : Nat := 0
  actual_runtime : Nat := 0
  int_overflow : Int := 0
  scheduled_time : Nat := 0
  weight : Nat := 0
  deriving DecidableEq, Repr

/-- `ptable`: the `NPROC` process slots, and the allocator's `nextpid`. -/
structure PTable where
  proc : List Proc
  nextpid : Int
  length_proc : proc.length = NPROC

namespace PTable

/-- Slot `i` (`ptable.proc[i]`). -/
def get (t : PTable) (i : Nat) : Proc := t.proc.getD i {}

/-- Overwrite slot `i`. -/
def set (t : PTable) (i : Nat) (p : Proc) : PTable :=
  ⟨t.proc.set i p, t.nextpid, by rw [List.length_set]; exact t.length_proc⟩

@[simp] theorem set_nextpid (t : PTable) (i : Nat) (p : Proc) : (t.set i p).nextpid = t.nextpid := rfl

theorem get_set_self (t : PTable) {i : Nat} (h : i < NPROC) (p : Proc) : (t.set i p).get i = p := by
  simp [get, set, List.getD_eq_getElem?_getD, t.length_proc, h]

theorem get_set_ne (t : PTable) {i j : Nat} (h : j ≠ i) (p : Proc) : (t.set i p).get j = t.get j := by
  simp [get, set, List.getD_eq_getElem?_getD, Ne.symm h]

/-- Past the table, `ptable.proc[j]` is the zeroed default. -/
theorem get_of_le (t : PTable) {j : Nat} (h : NPROC ≤ j) : t.get j = {} := by
  simp [get, List.getD_eq_getElem?_getD, t.length_proc, h]

end PTable

end Xv6
