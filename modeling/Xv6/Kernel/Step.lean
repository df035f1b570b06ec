import Xv6.Proc.Sched
import Xv6.Mmap.Basic

/-!
# Processes, open files and the mmap table together

The kernel state joins the process table of the scheduler model with the parts of `struct proc` and the global
tables that `mmap` reads and writes: each slot's `ofile`, `ftable.file` and the mmap table.  Its events are the
scheduling events, `fork`, `exit`, `wait` and `exec`, the descriptor system calls, `mmap`, `munmap` and page
faults, each by a `RUNNING` slot.

Memory, page tables and file contents are not part of this state.  `exec` therefore changes nothing here: it
only builds and installs a new page directory.  Where the outcome of an allocation decides what the C code does to
the tables, the event carries it.
-/

namespace Xv6

structure KState where
  pt : PTable
  ofile : Nat → Ofile
  file : FTable
  mt : MmapTable

/-- How the allocations of `fork` outside the tables turn out. -/
inductive ForkMem where
  /-- the kernel stack and `copyuvm` succeed; `kalloc` fails copying the parent's populated area at `oom` -/
  | ok (oom : Option Nat)
  | kstackFail
  | copyuvmFail
  deriving DecidableEq, Repr

inductive KEvent where
  | sched (e : Event)
  | fork (i : Nat) (m : ForkMem)
  | exit (i : Nat)
  | wait (i : Nat)
  | exec (i : Nat)
  | sys_open (i : Nat) (omode : Int) (ok : Bool)
  | sys_dup (i : Nat) (fd : Int)
  | sys_close (i : Nat) (fd : Int)
  | sys_pipe (i : Nat) (ok : Bool)
  | mmap (i addr : Nat) (length prot flags fd offset : Int) (pop : Bool)
  | munmap (i addr : Nat) (walk : Bool)
  | page_fault (i va error : Nat) (ok : Bool)

namespace KState

def init : KState := ⟨userinit, fun _ _ => none, fun _ => {}, MmapTable.empty⟩

/-- The descriptor loop of `fork`: the child `c` gets each open file of the parent `i`, with one more reference. -/
def dupOfile (i c : Nat) (k : KState) : Option (Ofile × FTable) :=
  (List.range NOFILE).foldlM
    (fun (oc, ft) fd =>
      match k.ofile i fd with
      | none => some (oc, ft)
      | some f => (filedup ft f).map fun ft => (Function.update oc fd (some f), ft))
    (k.ofile c, k.file)

/-- `fork` by slot `i`: the process table as in the scheduler model, the descriptors, and the copy of the
parent's areas, whose outcome decides whether the child becomes `RUNNABLE`. -/
def fork (i : Nat) (m : ForkMem) (k : KState) : Option KState :=
  match allocproc k.pt with
  | none => some k
  | some (c, _) =>
    match m with
    | .kstackFail => some { k with pt := (Xv6.fork i .kstackFail k.pt).2 }
    | .copyuvmFail => some { k with pt := (Xv6.fork i .copyuvmFail k.pt).2 }
    | .ok oom => do
      let (oc, ft) ← k.dupOfile i c
      let k := { k with ofile := Function.update k.ofile c oc, file := ft }
      match fork_mmap i c oom k.mt with
      | .error (r, mt) => some { k with mt, pt := (Xv6.fork i (if r = -1 then .mmapFull else .mmapOom) k.pt).2 }
      | .ok mt => some { k with mt, pt := (Xv6.fork i .ok k.pt).2 }

/-- The loop of `exit` that closes every open file of slot `i`. -/
def closeAll (i : Nat) (k : KState) : Option FTable :=
  (List.range NOFILE).foldlM
    (fun ft fd =>
      match k.ofile i fd with
      | none => some ft
      | some f => fileclose ft f)
    k.file

def exit (i : Nat) (k : KState) : Option KState := do
  let ft ← k.closeAll i
  let pt ← Xv6.exit i k.pt
  pure { k with pt, file := ft, ofile := Function.update k.ofile i fun _ => none }

/-- A descriptor system call of slot `i`, on its `ofile` and the file table. -/
def onFiles (i : Nat) (call : Ofile → FTable → Option (Int × Ofile × FTable)) (k : KState) : Option KState :=
  (call (k.ofile i) k.file).map fun (_, o, ft) => { k with ofile := Function.update k.ofile i o, file := ft }

end KState

open KState in
def kstep (k : KState) : KEvent → Option KState
  | .sched e =>
    match e with
    | .fork .. | .exit _ | .wait _ => none
    | e => (step k.pt e).map fun pt => { k with pt }
  | .fork i m => if running k.pt i then k.fork i m else none
  | .exit i => if running k.pt i then k.exit i else none
  | .wait i => if running k.pt i then some { k with pt := (wait i k.pt).2 } else none
  -- `exec` replaces only the page directory, the size and the name
  | .exec i => if running k.pt i then some k else none
  | .sys_open i omode ok => if running k.pt i then k.onFiles i (sys_open omode ok) else none
  | .sys_dup i fd => if running k.pt i then k.onFiles i (sys_dup fd) else none
  | .sys_close i fd => if running k.pt i then k.onFiles i (sys_close fd) else none
  | .sys_pipe i ok => if running k.pt i then k.onFiles i (sys_pipe ok) else none
  | .mmap i addr length prot flags fd offset pop =>
    if running k.pt i then
      (mmap i addr length prot flags fd offset pop (k.ofile i) k.file k.mt).map fun (_, ft, tbl) =>
        { k with file := ft, mt := tbl }
    else none
  | .munmap i addr walk => if running k.pt i then some { k with mt := (munmap i addr walk k.mt).2 } else none
  | .page_fault i va error ok =>
    if running k.pt i then
      let (r, tbl) := page_fault_handler i va error ok k.mt
      -- `trap` kills the process when the handler fails
      if r = -1 then KState.exit i { k with mt := tbl } else some { k with mt := tbl }
    else none

/-- The reachable kernel states, from `userinit`. -/
def KReachable (k : KState) : Prop := StepSys.Reachable kstep KState.init k

end Xv6
