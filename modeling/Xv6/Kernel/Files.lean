import Xv6.Kernel.Step

/-!
# Who holds a reference to a file

A reference to `ftable.file[f]` is held by each descriptor `ofile[fd]` of a slot that points to it, and by each
active mmap area whose `f` points to it.  `mmap` takes one with `filedup` for the area it records, but `munmap`
frees the area without `fileclose`, `fork` copies areas without `filedup`, and `exit` leaves the areas of the
slot in the table.  So the count and the holders drift apart; `reachable_ref_after_munmap` is the shortest run
that shows it.
-/

namespace Xv6

/-- The descriptors, over every slot, that point to file `f`. -/
def ofileRefs (k : KState) (f : Nat) : Nat :=
  ((List.range NPROC).map fun i => ((List.range NOFILE).filter fun fd => k.ofile i fd = some f).length).sum

/-- The active mmap areas that point to file `f`. -/
def areaRefs (k : KState) (f : Nat) : Nat :=
  ((List.range NMMAP).filter fun j => k.mt.mmap_status_flag j ≠ 0 ∧ (k.mt.mmap_areas j).f = some f).length

example : ofileRefs KState.init 0 = 0 ∧ areaRefs KState.init 0 = 0 := by decide

/-- `initproc` opens a file read-write, maps it with `MAP_POPULATE` and unmaps it: the file keeps the reference
`mmap` took, held by no descriptor and no area. -/
theorem reachable_ref_after_munmap :
    ∃ k, KReachable k ∧ (k.file 0).ref = 2 ∧ ofileRefs k 0 = 1 ∧ areaRefs k 0 = 0 := by
  obtain ⟨k, hk, hp⟩ := StepSys.reachable_of_run kstep KState.init
    [.sched .dispatch, .sys_open 0 O_RDWR true, .mmap 0 0 4096 PROT_READ MAP_POPULATE 0 0 true,
      .munmap 0 0x40000000 true]
    (fun k => decide ((k.file 0).ref = 2 ∧ ofileRefs k 0 = 1 ∧ areaRefs k 0 = 0)) (by decide +kernel)
  exact ⟨k, hk, of_decide_eq_true hp⟩

end Xv6
