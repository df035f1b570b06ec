import Mathlib
import Xv6.Proc.Sched
import Xv6.Lib.FirstMin

/-!
# Which process `scheduler()` dispatches

`scheduler()` compares processes by `(int_overflow, vruntime)` in lexicographic order (`vkey`), and its inner
loop is the first-minimum scan of `FirstMin` started at the first `RUNNABLE` slot: it dispatches the first
`RUNNABLE` slot of least `vkey` (`scheduler_picks`).  The lexicographic order agrees with the order of the total
virtual runtime `int_overflow * 2147483647 + vruntime` as long as `vruntime ≤ 2147483647`
(`totalVruntime_le_of_vkey_le`), and then the dispatched slot has the least total virtual runtime
(`scheduler_min_totalVruntime`).

That bound is not an invariant: `wakeup1` gives a woken process `(shortest->vruntime - tickShare) * 1000` in
`uint` arithmetic, and a run that fills the table reaches a `vruntime` of `2566586328`
(`reachable_vruntime_gt_int_max`).

The time slice of the dispatched slot is `1000 * (int)(weight / total + 0.5) * 10`: the share is rounded to an
integer before it is scaled, so the slice is `0` or `10000` (`scheduler_time_slice`), and `totalweight` counts
every slot that is not `UNUSED`, sleeping, embryo and zombie slots included (`totalweight_eq`).
-/

namespace Xv6

/-- The key `scheduler()` and `wakeup1` compare: `(int_overflow, vruntime)`, lexicographically. -/
def vkey (p : Proc) : Int ×ₗ Nat := toLex (p.int_overflow, p.vruntime)

/-- The slots the scans consider. -/
def runnable (p : Proc) : Bool := decide (p.state = .RUNNABLE)

private theorem shorter_iff (p s : Proc) : shorter p s = true ↔ p.state = .RUNNABLE ∧ vkey p < vkey s := by
  simp [shorter, vkey, Prod.Lex.toLex_lt_toLex]

/-- The inner loop of `scheduler()` is the first-minimum scan over the `RUNNABLE` slots by `vkey`. -/
theorem shortestFrom_eq_scan (t : PTable) (s : Nat) :
    shortestFrom t s = FirstMin.scan runnable vkey t.get NPROC s := by
  unfold shortestFrom FirstMin.scan FirstMin.pick
  have h : (fun s i => if shorter (t.get i) (t.get s) = true then i else s) =
      (fun r i => if runnable (t.get i) = true ∧ vkey (t.get i) < vkey (t.get r) then i else r) := by
    funext r i
    simp only [shorter_iff, runnable, decide_eq_true_eq]
  rw [h]

/-- `scheduler()` dispatches a `RUNNABLE` slot whose key is least among the `RUNNABLE` slots, and the first such
slot. -/
theorem scheduler_picks {t t' : PTable} {j : Nat} (h : scheduler t = some (j, t')) :
    j < NPROC ∧ (t.get j).state = .RUNNABLE ∧
      ∀ i < NPROC, (t.get i).state = .RUNNABLE →
        vkey (t.get j) ≤ vkey (t.get i) ∧ (vkey (t.get i) = vkey (t.get j) → j ≤ i) := by
  unfold scheduler at h
  obtain ⟨f, hf, hj⟩ := Option.map_eq_some_iff.1 h
  have hj : j = shortestFrom t f := (Prod.mk.inj hj).1.symm
  clear h
  obtain ⟨hfr, hfn, hbefore⟩ := List.find?_range_eq_some.1 hf
  have hfr : (t.get f).state = .RUNNABLE := of_decide_eq_true hfr
  have hfn : f < NPROC := List.mem_range.1 hfn
  rw [shortestFrom_eq_scan] at hj
  subst hj
  have hmem : FirstMin.scan runnable vkey t.get NPROC f < NPROC ∧
      (t.get (FirstMin.scan runnable vkey t.get NPROC f)).state = .RUNNABLE := by
    rcases FirstMin.scan_cases runnable vkey t.get NPROC f with he | ⟨hlt, hok⟩
    · rw [he]; exact ⟨hfn, hfr⟩
    · exact ⟨hlt, of_decide_eq_true hok⟩
  refine ⟨hmem.1, hmem.2, fun i hi hir => ⟨?_, fun heq => ?_⟩⟩
  · exact FirstMin.scan_le runnable vkey t.get NPROC f i hi (by simp [runnable, hir])
  · rcases FirstMin.scan_first runnable vkey t.get NPROC f i hi (by simp [runnable, hir]) heq with he | hle
    · -- the scan kept the first `RUNNABLE` slot, which comes no later than `i`
      rw [he]
      refine Nat.le_of_not_lt fun hif => ?_
      have := hbefore i hif
      simp [hir] at this
    · exact hle

/-- Both outcomes of `scheduler()`: the slot it dispatches is `RUNNABLE`, and it dispatches nothing only when no
slot is `RUNNABLE`. -/
theorem scheduler_cases (t : PTable) :
    match scheduler t with
    | some (j, _) => j < NPROC ∧ (t.get j).state = .RUNNABLE
    | none => ∀ i < NPROC, (t.get i).state ≠ .RUNNABLE := by
  cases hs : scheduler t with
  | none =>
    show ∀ i < NPROC, (t.get i).state ≠ .RUNNABLE
    intro i hi hr
    -- no slot is `RUNNABLE` where the outer loop looks for the first one
    have hf : firstRunnable t = none := Option.map_eq_none_iff.1 hs
    exact List.find?_eq_none.1 hf i (List.mem_range.2 hi) (decide_eq_true hr)
  | some jt =>
    obtain ⟨j, t'⟩ := jt
    obtain ⟨hj, hr, -⟩ := scheduler_picks hs
    exact ⟨hj, hr⟩

/-- The total virtual runtime `int_overflow * 2147483647 + vruntime`. -/
def totalVruntime (p : Proc) : Int := p.int_overflow * INT_MAX + p.vruntime

/-- A run of the scheduling state machine: `initproc` dispatched, forking 63 children so that the table is full,
then waiting; children 1–62 dispatched in turn and blocking (on a pipe); child 63 dispatched, charged one tick at
`yield`, dispatched again, and then three times sleeping on `ticks` and woken by the timer.  Each time it is the
last slot that is not `RUNNABLE` and no slot is `RUNNABLE`, so `wakeup1` takes it as `shortest` for itself:
`vruntime` goes `1000, 999000, 998999000, 2566586328`. -/
def overflowTrace : List Event :=
  [.dispatch] ++ List.replicate 63 (.fork 0 .ok) ++ [.wait 0] ++
    ((List.range 62).flatMap fun k => [.dispatch, .sleep (k + 1) (.other 0)]) ++
    [.dispatch, .tick 63, .dispatch] ++
    [.sleep 63 .ticks, .wakeup .ticks, .dispatch, .sleep 63 .ticks, .wakeup .ticks, .dispatch,
     .sleep 63 .ticks, .wakeup .ticks]

theorem reachable_vruntime_gt_int_max :
    ∃ t, Reachable t ∧ (t.get 63).state = .RUNNABLE ∧ INT_MAX < (t.get 63).vruntime := by
  obtain ⟨t, ht, hp⟩ := StepSys.reachable_of_run step userinit overflowTrace
    (fun t => decide ((t.get 63).state = .RUNNABLE ∧ INT_MAX < (t.get 63).vruntime)) (by decide +kernel)
  exact ⟨t, ht, of_decide_eq_true hp⟩

/-! ### The time slice -/

/-- `totalweight` is the sum of the weights of the slots that are not `UNUSED`. -/
theorem totalweight_eq (t : PTable) :
    totalweight t = ((t.proc.filter fun p => p.state ≠ .UNUSED).map Proc.weight).sum := by
  -- the loop adds to its start value the weights of the slots it counts
  have hloop : ∀ (l : List Proc) (a : Nat),
      l.foldl (fun tw p => if p.state ≠ .UNUSED then tw + p.weight else tw) a =
        a + ((l.filter fun p => p.state ≠ .UNUSED).map Proc.weight).sum := by
    intro l
    induction l with
    | nil => simp
    | cons p l ih =>
      intro a
      rw [List.foldl_cons, ih]
      by_cases hp : p.state = .UNUSED
      · simp [hp]
      · simp only [ne_eq, hp, not_false_eq_true, if_true, decide_true, List.filter_cons_of_pos, List.map_cons,
          List.sum_cons]
        omega
  rw [totalweight, hloop, Nat.zero_add]

private theorem weight_le_totalweight (t : PTable) {j : Nat} (hj : j < NPROC) (hu : (t.get j).state ≠ .UNUSED) :
    (t.get j).weight ≤ totalweight t := by
  have hlen : j < t.proc.length := by rw [t.length_proc]; exact hj
  have hget : t.get j = t.proc[j] := by
    rw [PTable.get, List.getD_eq_getElem?_getD, List.getElem?_eq_getElem hlen, Option.getD_some]
  rw [totalweight_eq]
  apply List.le_sum_of_mem
  apply List.mem_map_of_mem
  rw [List.mem_filter, hget]
  rw [hget] at hu
  exact ⟨List.getElem_mem hlen, by simpa using hu⟩

/-- The slice `scheduler()` gives the slot it dispatches: `10000` times its weight over `totalweight`, rounded to
an integer before the multiplication, so `0` or `10000` whatever the weights. -/
theorem scheduler_time_slice {t t' : PTable} {j : Nat} (h : scheduler t = some (j, t')) :
    (t'.get j).time_slice = 10000 * ((2 * (t.get j).weight + totalweight t) / (2 * totalweight t)) ∧
      ((t'.get j).time_slice = 0 ∨ (t'.get j).time_slice = 10000) := by
  obtain ⟨hj, hjr, -⟩ := scheduler_picks h
  have hslice : (t'.get j).time_slice =
      1000 * ((2 * (t.get j).weight + totalweight t) / (2 * totalweight t)) * 10 := by
    unfold scheduler at h
    obtain ⟨f, -, hf⟩ := Option.map_eq_some_iff.1 h
    obtain ⟨rfl, rfl⟩ := Prod.mk.inj hf
    simp [PTable.get_set_self _ hj]
  have hle := weight_le_totalweight t hj (by rw [hjr]; decide)
  -- the weight is part of the total, so the rounded share is `0` or `1`
  have hq : (2 * (t.get j).weight + totalweight t) / (2 * totalweight t) < 2 := by
    rcases Nat.eq_zero_or_pos (totalweight t) with h0 | hpos
    · simp [h0]
    · rw [Nat.div_lt_iff_lt_mul (by omega)]
      omega
  rw [hslice]
  omega

/-- `initproc` forks a child and uses up its slice: both are `RUNNABLE` with the weight `1024` of nice 20, and the
slot dispatched next gets all of `10000`, not half of it. -/
theorem time_slice_of_two_runnable :
    ∃ t j t', Reachable t ∧ scheduler t = some (j, t') ∧ (t.get 0).state = .RUNNABLE ∧
      (t.get 1).state = .RUNNABLE ∧ totalweight t = 2 * (t.get j).weight ∧ (t'.get j).time_slice = 10000 := by
  obtain ⟨t, ht, hp⟩ := StepSys.reachable_of_run step userinit
    ([.dispatch, .fork 0 .ok] ++ List.replicate 10 (.tick 0))
    (fun t => match scheduler t with
      | some (j, _) => decide ((t.get 0).state = .RUNNABLE ∧ (t.get 1).state = .RUNNABLE ∧
          totalweight t = 2 * (t.get j).weight ∧ 0 < (t.get j).weight)
      | none => false) (by decide +kernel)
  cases hs : scheduler t with
  | none => simp [hs] at hp
  | some jt =>
    obtain ⟨j, t'⟩ := jt
    simp only [hs] at hp
    obtain ⟨h0, h1, htw, hw⟩ := of_decide_eq_true hp
    obtain ⟨hslice, -⟩ := scheduler_time_slice hs
    refine ⟨t, j, t', ht, hs, h0, h1, htw, ?_⟩
    -- the share rounds to exactly 1
    have hx : 2 * (t.get j).weight + totalweight t = 2 * totalweight t := by omega
    rw [hslice, hx, Nat.div_self (by omega)]

end Xv6
