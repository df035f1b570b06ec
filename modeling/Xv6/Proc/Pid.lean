import Xv6.Proc.Sched

/-!
# The calls that find a process by its pid: `kill`, `getnice` and `setnice`

All three scan the whole table for the first slot whose `pid` is their argument (`findPid`), whatever the slot's
state.  An `UNUSED` slot has pid 0, whether never used or reaped by `wait`, so `kill(0)` marks an `UNUSED` slot
killed; `allocproc` does not reset `killed`, and the next `fork` hands that slot to a child killed from the start
(`allocproc_after_kill`).  `getnice(0)` reads the nice value of an `UNUSED` slot, and `setnice` returns 0 when no
slot has the pid (`setnice_of_none`).  When a slot is found, each call reads or writes that slot only
(`kill_found`, `setnice_found`), and `getnice` then reads back what `setnice` wrote (`getnice_setnice`).
-/

namespace Xv6

/-- The scan of `kill`, `getnice` and `setnice`: the first slot whose pid is `pid`, in any state. -/
def findPid (pid : Int) (t : PTable) : Option Nat := (List.range NPROC).find? fun i => (t.get i).pid = pid

/-- `getnice(pid)`. -/
def getnice (pid : Int) (t : PTable) : Int :=
  match findPid pid t with
  | none => -1
  | some i => (t.get i).nice

/-- `setnice(pid, value)`: `-1` for a value out of range, and `0` otherwise, whether a slot has the pid or not. -/
def setnice (pid value : Int) (t : PTable) : Int × PTable :=
  if value > 39 ∨ value < 0 then (-1, t)
  else match findPid pid t with
    | none => (0, t)
    | some i => (0, t.set i { t.get i with nice := value, weight := weightOf value })

private theorem findPid_spec {pid : Int} {t : PTable} {i : Nat} (h : findPid pid t = some i) :
    i < NPROC ∧ (t.get i).pid = pid := by
  obtain ⟨hp, hi, -⟩ := List.find?_range_eq_some.1 h
  exact ⟨List.mem_range.1 hi, of_decide_eq_true hp⟩

/-- The scan depends on the pids only. -/
theorem findPid_congr {pid : Int} {t t' : PTable} (h : ∀ j, (t'.get j).pid = (t.get j).pid) :
    findPid pid t' = findPid pid t := by
  simp only [findPid, h]

/-- `kill` of a pid that no slot has returns `-1` and changes nothing. -/
theorem kill_of_none {pid : Int} {t : PTable} (h : findPid pid t = none) : kill pid t = (-1, t) := by
  unfold findPid at h
  simp only [kill, h]

/-- `kill` of a pid that slot `i` is the first to have: `0`, and slot `i` alone is changed, marked killed, and
made `RUNNABLE` with its runtime charged if it was `SLEEPING`. -/
theorem kill_found {pid : Int} {t : PTable} {i : Nat} (h : findPid pid t = some i) :
    (kill pid t).1 = 0 ∧ ∃ q : Proc, (kill pid t).2 = t.set i q ∧ q.killed = true ∧ q.pid = (t.get i).pid ∧
      q.nice = (t.get i).nice ∧ q.weight = (t.get i).weight ∧
      ((t.get i).state ≠ .SLEEPING → q.state = (t.get i).state) := by
  unfold findPid at h
  simp only [kill, h]
  split
  · -- the sleeping slot is woken and charged: `vruntimeupdate` changes `vruntime` and `int_overflow` only
    rename_i hs
    obtain ⟨v, o, hv⟩ := vruntimeupdate_cases { t.get i with killed := true, state := .RUNNABLE }
    refine ⟨rfl, _, rfl, ?_⟩
    rw [hv]
    exact ⟨rfl, rfl, rfl, rfl, fun hn => absurd hs hn⟩
  · exact ⟨rfl, _, rfl, rfl, rfl, rfl, rfl, fun _ => rfl⟩

/-- `setnice` with a value in range and a pid that no slot has returns `0` and changes nothing. -/
theorem setnice_of_none {pid value : Int} {t : PTable} (h : findPid pid t = none) (h0 : 0 ≤ value)
    (h39 : value ≤ 39) : setnice pid value t = (0, t) := by
  have hv : ¬(value > 39 ∨ value < 0) := by omega
  simp only [setnice, hv, if_false, h]

private theorem setnice_found {pid value : Int} {t : PTable} {i : Nat} (h : findPid pid t = some i) (h0 : 0 ≤ value)
    (h39 : value ≤ 39) :
    setnice pid value t = (0, t.set i { t.get i with nice := value, weight := weightOf value }) := by
  have hv : ¬(value > 39 ∨ value < 0) := by omega
  simp only [setnice, hv, if_false, h]

/-- After `setnice(pid, value)` found a slot, `getnice(pid)` returns `value`. -/
theorem getnice_setnice {pid value : Int} {t : PTable} {i : Nat} (h : findPid pid t = some i) (h0 : 0 ≤ value)
    (h39 : value ≤ 39) : getnice pid (setnice pid value t).2 = value := by
  obtain ⟨hi, -⟩ := findPid_spec h
  have hpid : ∀ j, ((t.set i { t.get i with nice := value, weight := weightOf value }).get j).pid =
      (t.get j).pid := by
    intro j
    by_cases hj : j = i
    · subst hj
      rw [PTable.get_set_self _ hi]
    · rw [PTable.get_set_ne _ hj]
  rw [setnice_found h h0 h39]
  unfold getnice
  simp only [findPid_congr hpid, h, PTable.get_set_self _ hi]

/-- `kill` of a pid whose first holder is the first `UNUSED` slot: it returns `0`, and `allocproc` then hands out
that slot, still marked killed. -/
theorem allocproc_after_kill {pid : Int} {t : PTable} {i : Nat} (hi : findPid pid t = some i)
    (hfree : (List.range NPROC).find? (fun j => (t.get j).state = .UNUSED) = some i) :
    (kill pid t).1 = 0 ∧ ∃ t', allocproc (kill pid t).2 = some (i, t') ∧ (t'.get i).state = .EMBRYO ∧
      (t'.get i).killed = true := by
  obtain ⟨hlt, -⟩ := findPid_spec hi
  have hu : (t.get i).state = .UNUSED := of_decide_eq_true (List.find?_range_eq_some.1 hfree).1
  obtain ⟨h0, q, hq, hk, -, -, -, hst⟩ := kill_found hi
  have hqs : q.state = .UNUSED := by rw [hst (by rw [hu]; decide), hu]
  -- the states are those of `t`, so `allocproc` finds the same first `UNUSED` slot
  have hstates : ∀ j, ((t.set i q).get j).state = (t.get j).state := by
    intro j
    by_cases hj : j = i
    · subst hj
      rw [PTable.get_set_self _ hlt, hqs, hu]
    · rw [PTable.get_set_ne _ hj]
  have hfree' : (List.range NPROC).find? (fun j => ((t.set i q).get j).state = .UNUSED) = some i := by
    simp only [hstates]
    exact hfree
  refine ⟨h0, ?_⟩
  rw [hq, allocproc, hfree', Option.map_some]
  -- `allocproc` writes the slot's state, pid and scheduling fields, and leaves `killed`
  refine ⟨_, rfl, ?_, ?_⟩
  · simp [PTable.get, PTable.set, List.getD_eq_getElem?_getD, t.length_proc, hlt]
  · simp [PTable.get, PTable.set, List.getD_eq_getElem?_getD, t.length_proc, hlt, hk]

/-- At boot only `initproc` has a pid: `kill(0)` marks slot 1, `UNUSED`, and the first `fork` gives it to a child
that is killed. -/
theorem kill_zero_at_boot :
    findPid 0 userinit = some 1 ∧ (List.range NPROC).find? (fun j => (userinit.get j).state = .UNUSED) = some 1 ∧
      (kill 0 userinit).1 = 0 ∧ ∃ t', allocproc (kill 0 userinit).2 = some (1, t') ∧ (t'.get 1).state = .EMBRYO ∧
        (t'.get 1).killed = true := by
  have h1 : findPid 0 userinit = some 1 := by decide
  have h2 : (List.range NPROC).find? (fun j => (userinit.get j).state = .UNUSED) = some 1 := by decide
  exact ⟨h1, h2, allocproc_after_kill h1 h2⟩

/-- At boot `getnice(0)` finds slot 1, `UNUSED`, and returns its nice value 0 rather than `-1`. -/
example : getnice 0 userinit = 0 := by decide

end Xv6
