import Xv6.Proc.Dispatch

/-!
# Waking processes: `wakeup1` and `kill`

`wakeup1(chan)` wakes exactly the processes sleeping on `chan` and leaves every other slot as it was
(`wakeup1_get`).  What it gives a woken process is read off a reference slot, `shortest`.  The first loop sets it
to the last slot that is not `RUNNABLE` (`lastNotRunnable_spec`), not to a `RUNNABLE` one as its comment says, and
the second loop moves it only to a `RUNNABLE` slot (`reference_cases`).  In a table without `RUNNABLE` slots the
reference is therefore that last slot, `UNUSED` when `initproc` sleeps alone, and in a table of `RUNNABLE` slots
only it is the null pointer (`wakeup1_eq_none`); the value a woken process gets is then no minimum over
`RUNNABLE` processes (`wakeup1_reference_not_runnable`).

`kill` of a sleeping process charges the runtime since its last dispatch with `vruntimeupdate`, which `sleep`
already did, and nothing in between resets `scheduled_time`: the interval is charged twice (`kill_after_sleep`,
`sleep_kill_charges_twice`).
-/

namespace Xv6

/-- A slot sleeping on the channel `c`: what the last loop of `wakeup1` wakes. -/
def SleepsOn (c : Option Chan) (p : Proc) : Prop := p.state = .SLEEPING ∧ p.chan = c

instance (c : Option Chan) (p : Proc) : Decidable (SleepsOn c p) := inferInstanceAs (Decidable (_ ∧ _))

/-! ### The loops of `wakeup1` -/

/-- The first loop of `wakeup1` over the slots below `k`, started from `o`: `o` when all of them are `RUNNABLE`,
and otherwise the last one that is not. -/
theorem foldl_lastNot (t : PTable) (k : Nat) (o : Option Nat) :
    ((List.range k).foldl (fun s i => if (t.get i).state = .RUNNABLE then s else some i) o = o ∧
        ∀ i < k, (t.get i).state = .RUNNABLE) ∨
      ∃ s, (List.range k).foldl (fun s i => if (t.get i).state = .RUNNABLE then s else some i) o = some s ∧
        s < k ∧ (t.get s).state ≠ .RUNNABLE ∧ ∀ i, s < i → i < k → (t.get i).state = .RUNNABLE := by
  induction k with
  | zero => exact .inl ⟨rfl, fun i hi => absurd hi (Nat.not_lt_zero i)⟩
  | succ k ih =>
    rw [List.range_succ, List.foldl_append, List.foldl_cons, List.foldl_nil]
    by_cases hk : (t.get k).state = .RUNNABLE
    · -- slot `k` is skipped: what the loop found below `k` stands
      rw [if_pos hk]
      rcases ih with ⟨he, hall⟩ | ⟨s, he, hs, hns, hafter⟩
      · refine .inl ⟨he, fun i hi => ?_⟩
        rcases Nat.lt_succ_iff_lt_or_eq.1 hi with hi | rfl
        · exact hall i hi
        · exact hk
      · refine .inr ⟨s, he, by omega, hns, fun i hsi hi => ?_⟩
        rcases Nat.lt_succ_iff_lt_or_eq.1 hi with hi | rfl
        · exact hafter i hsi hi
        · exact hk
    · rw [if_neg hk]
      exact .inr ⟨k, rfl, by omega, hk, fun i hki hi => absurd hi (by omega)⟩

/-- `shortest` stays null exactly when every slot is `RUNNABLE`. -/
theorem lastNotRunnable_eq_none {t : PTable} :
    lastNotRunnable t = none ↔ ∀ i < NPROC, (t.get i).state = .RUNNABLE := by
  unfold lastNotRunnable
  rcases foldl_lastNot t NPROC none with ⟨he, hall⟩ | ⟨s, he, hs, hns, -⟩
  · exact ⟨fun _ => hall, fun _ => he⟩
  · rw [he]
    exact ⟨fun h => (Option.some_ne_none s h).elim, fun hall => absurd (hall s hs) hns⟩

private theorem lastNotRunnable_spec {t : PTable} {s : Nat} (h : lastNotRunnable t = some s) :
    s < NPROC ∧ (t.get s).state ≠ .RUNNABLE ∧ ∀ i, s < i → i < NPROC → (t.get i).state = .RUNNABLE := by
  unfold lastNotRunnable at h
  rcases foldl_lastNot t NPROC none with ⟨he, -⟩ | ⟨s', he, hs⟩
  · rw [he] at h
    cases h
  · rw [he] at h
    cases h
    exact hs

/-- A table of `RUNNABLE` slots only makes `wakeup1` dereference the null `shortest`. -/
theorem wakeup1_eq_none {t : PTable} (h : ∀ i < NPROC, (t.get i).state = .RUNNABLE) (c : Option Chan) :
    wakeup1 c t = none := by
  unfold wakeup1
  rw [lastNotRunnable_eq_none.2 h]
  rfl

/-- The second loop of `wakeup1` keeps the slot the first one found or moves to a `RUNNABLE` slot. -/
theorem reference_cases (t : PTable) (s : Nat) :
    shortestFrom t s = s ∨ (shortestFrom t s < NPROC ∧ (t.get (shortestFrom t s)).state = .RUNNABLE) := by
  rw [shortestFrom_eq_scan]
  rcases FirstMin.scan_cases runnable vkey t.get NPROC s with he | ⟨hlt, hok⟩
  · exact .inl he
  · exact .inr ⟨hlt, of_decide_eq_true hok⟩

/-- Without `RUNNABLE` slots the reference is the slot the first loop found. -/
theorem reference_of_none_runnable {t : PTable} (h : ∀ i < NPROC, (t.get i).state ≠ .RUNNABLE) (s : Nat) :
    shortestFrom t s = s := by
  rcases reference_cases t s with he | ⟨hlt, hr⟩
  · exact he
  · exact absurd hr (h _ hlt)

/-! ### What the last loop wakes -/

section Wake

variable {c : Option Chan} {s : Nat}

private theorem wakeOne_get_ne (t : PTable) {i j : Nat} (h : j ≠ i) : (wakeOne c s t i).get j = t.get j := by
  unfold wakeOne
  dsimp only
  split_ifs <;> simp only [PTable.get_set_ne t h]

theorem wakeOne_of_not (t : PTable) {i : Nat} (h : ¬ SleepsOn c (t.get i)) : wakeOne c s t i = t := by
  unfold wakeOne
  exact if_neg h

private theorem wakeOne_state (t : PTable) {i : Nat} (hi : i < NPROC) (h : SleepsOn c (t.get i)) :
    ((wakeOne c s t i).get i).state = .RUNNABLE := by
  have h' : (t.get i).state = .SLEEPING ∧ (t.get i).chan = c := h
  unfold wakeOne
  dsimp only
  rw [if_pos h']
  split_ifs <;> simp only [PTable.get_set_self t hi]

/-- The last loop of `wakeup1` over the slots below `k`: a slot below `k` sleeping on `c` is `RUNNABLE`, every
other slot is as it was.  Each round changes its own slot only, so the round at slot `j` sees `j` unchanged. -/
theorem foldl_wakeOne (t : PTable) {k : Nat} (hk : k ≤ NPROC) (j : Nat) :
    (j < k ∧ SleepsOn c (t.get j) → (((List.range k).foldl (wakeOne c s) t).get j).state = .RUNNABLE) ∧
      (¬ (j < k ∧ SleepsOn c (t.get j)) → ((List.range k).foldl (wakeOne c s) t).get j = t.get j) := by
  induction k with
  | zero => exact ⟨fun h => absurd h.1 (Nat.not_lt_zero j), fun _ => rfl⟩
  | succ k ih =>
    obtain ⟨ih₁, ih₂⟩ := ih (by omega)
    rw [List.range_succ, List.foldl_append, List.foldl_cons, List.foldl_nil]
    by_cases hj : j = k
    · subst hj
      have hsame : ((List.range j).foldl (wakeOne c s) t).get j = t.get j := ih₂ fun h => absurd h.1 (by omega)
      by_cases hsl : SleepsOn c (t.get j)
      · refine ⟨fun _ => wakeOne_state _ (by omega) (by rw [hsame]; exact hsl), fun h => absurd ⟨by omega, hsl⟩ h⟩
      · have hnot : ¬ SleepsOn c (((List.range j).foldl (wakeOne c s) t).get j) := by rw [hsame]; exact hsl
        rw [wakeOne_of_not _ hnot]
        exact ⟨fun h => absurd h.2 hsl, fun _ => hsame⟩
    · rw [wakeOne_get_ne _ hj]
      exact ⟨fun h => ih₁ ⟨by omega, h.2⟩, fun h => ih₂ fun h' => h ⟨by omega, h'.2⟩⟩

end Wake

/-- `wakeup1` makes `RUNNABLE` the slots sleeping on `c` and leaves every other slot as it was. -/
theorem wakeup1_get {c : Option Chan} {t t' : PTable} (h : wakeup1 c t = some t') {j : Nat} (hj : j < NPROC) :
    (SleepsOn c (t.get j) → (t'.get j).state = .RUNNABLE) ∧ (¬ SleepsOn c (t.get j) → t'.get j = t.get j) := by
  unfold wakeup1 at h
  obtain ⟨s₀, -, rfl⟩ := Option.map_eq_some_iff.1 h
  obtain ⟨h₁, h₂⟩ := foldl_wakeOne (c := c) (s := shortestFrom t s₀) t (le_refl NPROC) j
  exact ⟨fun hs => h₁ ⟨hj, hs⟩, fun hs => h₂ fun h => hs h.2⟩

/-- A table that fills up: `initproc` forks 63 children and uses its time slice up. -/
def fullRunnableTrace : List Event := [.dispatch] ++ List.replicate 63 (.fork 0 .ok) ++ List.replicate 10 (.tick 0)

/-- Three reachable tables on which `wakeup1`'s reference is no `RUNNABLE` process: with every slot `RUNNABLE`
(`initproc` forked 63 children and yielded) it is the null pointer; with `initproc` asleep alone it is the
`UNUSED` last slot; and in the run of `overflowTrace`, where every process sleeps, it is the sleeping process in
the last slot itself, which then wakes with a total virtual runtime that is not `0`. -/
theorem wakeup1_reference_not_runnable :
    (∃ t, Reachable t ∧ (∀ i < NPROC, (t.get i).state = .RUNNABLE) ∧ ∀ c, wakeup1 c t = none) ∧
      (∃ t, Reachable t ∧ SleepsOn (some .ticks) (t.get 0) ∧ lastNotRunnable t = some 63 ∧
        shortestFrom t 63 = 63 ∧ (t.get 63).state = .UNUSED) ∧
      ∃ t t', Reachable t ∧ (∀ i < NPROC, (t.get i).state ≠ .RUNNABLE) ∧ SleepsOn (some .ticks) (t.get 63) ∧
        wakeup1 (some .ticks) t = some t' ∧ (t'.get 63).state = .RUNNABLE ∧ totalVruntime (t'.get 63) ≠ 0 := by
  refine ⟨?_, ?_, ?_⟩
  · obtain ⟨t, ht, hp⟩ := StepSys.reachable_of_run step userinit fullRunnableTrace
      (fun t => decide (∀ i < NPROC, (t.get i).state = .RUNNABLE)) (by decide +kernel)
    have hall := of_decide_eq_true hp
    exact ⟨t, ht, hall, wakeup1_eq_none hall⟩
  · obtain ⟨t, ht, hp⟩ := StepSys.reachable_of_run step userinit [.dispatch, .sleep 0 .ticks]
      (fun t => decide (SleepsOn (some .ticks) (t.get 0) ∧ lastNotRunnable t = some 63 ∧
        (∀ i < NPROC, (t.get i).state ≠ .RUNNABLE) ∧ (t.get 63).state = .UNUSED)) (by decide +kernel)
    obtain ⟨hsl, hl, hnone, hu⟩ := of_decide_eq_true hp
    exact ⟨t, ht, hsl, hl, reference_of_none_runnable hnone 63, hu⟩
  · -- the run of `overflowTrace` up to its first wake-up on `ticks`
    obtain ⟨t, ht, hp⟩ := StepSys.reachable_of_run step userinit (overflowTrace.take 193)
      (fun t => decide ((∀ i < NPROC, (t.get i).state ≠ .RUNNABLE) ∧ SleepsOn (some .ticks) (t.get 63)) &&
        (wakeup1 (some .ticks) t).any fun t' => decide (totalVruntime (t'.get 63) ≠ 0)) (by decide +kernel)
    rw [Bool.and_eq_true] at hp
    obtain ⟨hnone, hsl⟩ := of_decide_eq_true hp.1
    obtain ⟨t', hw, hv⟩ := (Option.any_eq_true _ _).1 hp.2
    have hj : (63 : Nat) < NPROC := by decide
    exact ⟨t, t', ht, hnone, hsl, hw, (wakeup1_get hw hj).1 hsl, of_decide_eq_true hv⟩

/-! ### The runtime charge of `sleep` and `kill` -/

/-- Charging again charges the same interval: `vruntimeupdate` leaves the runtimes and the weight. -/
@[simp] theorem charge_vruntimeupdate (p : Proc) : charge (vruntimeupdate p) = charge p := by
  obtain ⟨v, o, hv⟩ := vruntimeupdate_cases p
  rw [hv]
  rfl

private theorem sleep_get_pid (i : Nat) (c : Chan) (t : PTable) (j : Nat) : ((sleep i c t).get j).pid = (t.get j).pid := by
  unfold sleep
  by_cases hj : j = i
  · subst hj
    by_cases hi : j < NPROC
    · obtain ⟨v, o, hv⟩ := vruntimeupdate_cases (t.get j)
      rw [PTable.get_set_self t hi, hv]
    · rw [PTable.get_of_le _ (Nat.le_of_not_lt hi), PTable.get_of_le _ (Nat.le_of_not_lt hi)]
  · rw [PTable.get_set_ne t hj]

/-- A process that sleeps and is then killed, with its pid found first at its own slot, is charged by
`vruntimeupdate` twice without a dispatch in between. -/
theorem kill_after_sleep {t : PTable} {i : Nat} (c : Chan) (hi : i < NPROC)
    (hf : (List.range NPROC).find? (fun j => (t.get j).pid = (t.get i).pid) = some i) :
    (kill (t.get i).pid (sleep i c t)).2.get i =
      vruntimeupdate { vruntimeupdate (t.get i) with chan := some c, state := .RUNNABLE, killed := true } := by
  have hf' : (List.range NPROC).find? (fun j => ((sleep i c t).get j).pid = (t.get i).pid) = some i := by
    simpa only [sleep_get_pid] using hf
  -- name what `sleep` charged, so that no step looks into the update
  obtain ⟨v, o, hv⟩ := vruntimeupdate_cases (t.get i)
  have hself : (sleep i c t).get i =
      { t.get i with vruntime := v, int_overflow := o, chan := some c, state := .SLEEPING } := by
    unfold sleep
    rw [PTable.get_set_self t hi, hv]
  rw [hv]
  simp only [kill, hf', hself]
  rw [if_pos trivial, PTable.get_set_self _ hi]

/-- From `userinit`, a dispatch, a fork and one tick: `initproc` sleeps on `ticks`, its child is dispatched and
kills it.  The one interval of runtime `initproc` had is charged twice, and `scheduled_time` is the same before and
after. -/
theorem sleep_kill_charges_twice :
    ∃ t t₁ t₂, Reachable t ∧ (t.get 0).state = .RUNNING ∧ StepSys.run step t [.sleep 0 .ticks, .dispatch] = some t₁ ∧
      (t₁.get 1).state = .RUNNING ∧ step t₁ (.kill 1 (t.get 0).pid) = some t₂ ∧
      (t₂.get 0).scheduled_time = (t.get 0).scheduled_time ∧ 0 < charge (t.get 0) ∧
      (t₂.get 0).vruntime = (t.get 0).vruntime + 2 * charge (t.get 0) := by
  obtain ⟨t, ht, hp⟩ := StepSys.reachable_of_run step userinit [.dispatch, .fork 0 .ok, .tick 0]
    (fun t => decide ((t.get 0).state = .RUNNING ∧ 0 < charge (t.get 0)) &&
      (StepSys.run step t [.sleep 0 .ticks, .dispatch]).any fun (t₁ : PTable) =>
        decide ((t₁.get 1).state = .RUNNING) &&
          (step t₁ (.kill 1 (t.get 0).pid)).any fun (t₂ : PTable) =>
            decide ((t₂.get 0).scheduled_time = (t.get 0).scheduled_time ∧
              (t₂.get 0).vruntime = (t.get 0).vruntime + 2 * charge (t.get 0))) (by decide +kernel)
  rw [Bool.and_eq_true] at hp
  obtain ⟨hrun, hpos⟩ := of_decide_eq_true hp.1
  obtain ⟨t₁, hr₁, h₁⟩ := (Option.any_eq_true _ _).1 hp.2
  rw [Bool.and_eq_true] at h₁
  obtain ⟨t₂, hr₂, hv⟩ := (Option.any_eq_true _ _).1 h₁.2
  obtain ⟨hs, hvr⟩ := of_decide_eq_true hv
  exact ⟨t, t₁, t₂, ht, hrun, hr₁, of_decide_eq_true h₁.1, hr₂, hs, hpos, hvr⟩

end Xv6
