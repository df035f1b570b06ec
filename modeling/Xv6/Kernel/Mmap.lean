import Xv6.Kernel.Step
import Xv6.Mmap.Invariant

/-!
# The mmap table over whole runs of the kernel

`kstep_table` says once what a kernel step can do to the mmap table (`TableEffect`): nothing, for every event but
four; `mmap` records an area that passed its checks; `munmap` frees an entry of the caller; a page fault turns an
entry of the caller from `-1` to `1`; `fork` adds copies of the parent's active areas for the child.

From it, over every run from `userinit`:
* every active area has the shape `mmap`'s checks give, and any two active areas cover the same range or pass
  `mmap`'s overlap test against each other (`reachable_mmap_table_ok`); but an area may start at `KERNBASE`, since
  nothing bounds the address from above (`reachable_area_at_kernbase`);
* an active area keeps its fields and its owner until that owner unmaps it, whatever `exit`, `wait`, `exec` and
  `allocproc` do to the slot (`mmap_area_lifecycle`); so a child that exits without `munmap` leaves an active area
  owned by an `UNUSED` slot once its parent has waited for it (`reachable_area_of_unused_slot`).
-/

namespace Xv6

/-- What a kernel step does to the mmap table. -/
inductive TableEffect (k : KState) : KEvent → MmapTable → Prop
  | same (e : KEvent) : TableEffect k e k.mt
  | mmap {i j : Nat} {a : MmapArea} {s : Int} (addr : Nat) (length prot flags fd offset : Int) (pop : Bool) :
      Fresh i k.mt j a → (s = -1 ∨ s = 1) → TableEffect k (.mmap i addr length prot flags fd offset pop) (k.mt.set j a s)
  | munmap {i j : Nat} (addr : Nat) (walk : Bool) : k.mt.mmap_status_flag j ≠ 0 → (k.mt.mmap_areas j).p = some i →
      TableEffect k (.munmap i addr walk) (k.mt.setStatus j 0)
  | page_fault {i j : Nat} (va error : Nat) (ok : Bool) : k.mt.mmap_status_flag j = -1 →
      (k.mt.mmap_areas j).p = some i → TableEffect k (.page_fault i va error ok) (k.mt.setStatus j 1)
  | fork {i c : Nat} (m : ForkMem) (oom : Option Nat) : (k.pt.get i).state = .RUNNING →
      (allocproc k.pt).map Prod.fst = some c → TableEffect k (.fork i m) (tableOf (fork_mmap i c oom k.mt))

private theorem allocproc_unused {t t' : PTable} {c : Nat} (h : allocproc t = some (c, t')) : (t.get c).state = .UNUSED := by
  unfold allocproc at h
  obtain ⟨j, hj, hjc⟩ := Option.map_eq_some_iff.1 h
  cases hjc
  have hz := List.find?_some hj
  simpa using hz

namespace KState

variable {k k' : KState} {i : Nat}

private theorem exit_mt (h : k.exit i = some k') : k'.mt = k.mt := by
  unfold KState.exit at h
  simp only [bind, Option.bind_eq_some_iff] at h
  obtain ⟨ft, -, pt, -, h⟩ := h
  cases h
  rfl

private theorem onFiles_mt {call : Ofile → FTable → Option (Int × Ofile × FTable)} (h : k.onFiles i call = some k') :
    k'.mt = k.mt := by
  unfold onFiles at h
  obtain ⟨_, -, rfl⟩ := Option.map_eq_some_iff.1 h
  rfl

private theorem fork_mt {m : ForkMem} (h : k.fork i m = some k') :
    k'.mt = k.mt ∨ ∃ c oom, (allocproc k.pt).map Prod.fst = some c ∧ k'.mt = tableOf (fork_mmap i c oom k.mt) := by
  unfold KState.fork at h
  split at h
  · cases h
    exact .inl rfl
  rename_i c t hc
  split at h
  · cases h
    exact .inl rfl
  · cases h
    exact .inl rfl
  · rename_i oom
    obtain ⟨⟨oc, ft⟩, -, h⟩ := Option.bind_eq_some_iff.1 h
    -- the copy loop ends normally or returns early; either way its table is kept
    refine .inr ⟨c, oom, by rw [hc]; rfl, ?_⟩
    dsimp only at h
    split at h <;> (rename_i hf; cases h; simp only [hf, tableOf])

end KState

/-- The table-level `munmap` has one of the effects of its event. -/
theorem TableEffect.of_munmap (k : KState) (i addr : Nat) (walk : Bool) :
    TableEffect k (.munmap i addr walk) (Xv6.munmap i addr walk k.mt).2 := by
  rcases munmap_table i addr walk k.mt with hmt | ⟨j, hact, hown, hmt⟩
  · rw [hmt]
    exact .same _
  · rw [hmt]
    exact .munmap addr walk hact hown

/-- The table-level `page_fault_handler` has one of the effects of its event. -/
theorem TableEffect.of_page_fault (k : KState) (i va error : Nat) (ok : Bool) :
    TableEffect k (.page_fault i va error ok) (page_fault_handler i va error ok k.mt).2 := by
  rcases page_fault_handler_table i va error ok k.mt with hmt | ⟨j, hs, hown, hmt⟩
  · rw [hmt]
    exact .same _
  · rw [hmt]
    exact .page_fault va error ok hs hown

/-- Everything a kernel step can do to the mmap table. -/
theorem kstep_table {k k' : KState} {e : KEvent} (h : kstep k e = some k') : TableEffect k e k'.mt := by
  cases e with
  | sched e =>
    cases e <;> simp only [kstep] at h
    all_goals first
      | cases h
      | (obtain ⟨pt, -, rfl⟩ := Option.map_eq_some_iff.1 h; exact .same _)
  | fork i m =>
    simp only [kstep] at h
    split at h
    · rename_i hr
      simp only [running, Bool.decide_and, Bool.and_eq_true, decide_eq_true_eq] at hr
      rcases KState.fork_mt h with hmt | ⟨c, oom, hc, hmt⟩
      · rw [hmt]
        exact .same _
      · rw [hmt]
        exact .fork m oom hr.2 hc
    · cases h
  | exit i =>
    simp only [kstep] at h
    split at h
    · rw [KState.exit_mt h]
      exact .same _
    · cases h
  | wait i | exec i =>
    simp only [kstep] at h
    split at h
    · cases h
      exact .same _
    · cases h
  | sys_open i omode ok | sys_dup i fd | sys_close i fd | sys_pipe i ok =>
    simp only [kstep] at h
    split at h
    · rw [KState.onFiles_mt h]
      exact .same _
    · cases h
  | mmap i addr length prot flags fd offset pop =>
    simp only [kstep] at h
    split at h
    · obtain ⟨⟨r, ft, tbl⟩, hm, rfl⟩ := Option.map_eq_some_iff.1 h
      rcases mmap_table hm with rfl | ⟨j, a, s, hf, hs, rfl⟩
      · exact .same _
      · exact .mmap addr length prot flags fd offset pop hf hs
    · cases h
  | munmap i addr walk =>
    simp only [kstep] at h
    split at h
    · cases h
      exact .of_munmap k i addr walk
    · cases h
  | page_fault i va error ok =>
    simp only [kstep] at h
    split at h
    · -- the table the handler leaves, whether `trap` then kills the process or not
      have hk : k'.mt = (page_fault_handler i va error ok k.mt).2 := by
        generalize page_fault_handler i va error ok k.mt = res at h
        obtain ⟨r, tbl⟩ := res
        dsimp only at h
        split at h
        · exact KState.exit_mt h
        · cases h
          rfl
      rw [hk]
      exact .of_page_fault k i va error ok
    · cases h

/-! ### The shape of the table -/

/-- Each effect a kernel step can have on the mmap table keeps its invariant. -/
theorem TableEffect.tableOk {k : KState} {e : KEvent} {tbl : MmapTable} (hk : TableOk k.mt)
    (heff : TableEffect k e tbl) : TableOk tbl := by
  cases heff with
  | same => exact hk
  | mmap _ _ _ _ _ _ _ hf _ => exact hk.set_fresh hf _
  | munmap _ _ hact _ => exact hk.setStatus hact 0
  | page_fault _ _ _ hs _ => exact hk.setStatus (by rw [hs]; decide) 1
  | fork m oom _ _ => exact hk.fork_mmap _ _ oom

theorem reachable_mmap_table_ok {k : KState} (h : KReachable k) : TableOk k.mt := by
  induction h with
  | init => exact tableOk_empty
  | step _ _ hs ih => exact (kstep_table hs).tableOk ih

/-- `initproc` maps a page anonymously: the table holds an active area, and its invariant. -/
theorem mmap_table_ok_after_mmap : ∃ k, KReachable k ∧ k.mt.mmap_status_flag 0 ≠ 0 ∧ TableOk k.mt := by
  obtain ⟨k, hk, hp⟩ := StepSys.reachable_of_run kstep KState.init
    [.sched .dispatch, .mmap 0 0 4096 PROT_READ MAP_ANONYMOUS (-1) 0 true]
    (fun k => decide (k.mt.mmap_status_flag 0 ≠ 0)) (by decide +kernel)
  exact ⟨k, hk, of_decide_eq_true hp, reachable_mmap_table_ok hk⟩

/-- `mmap(0x40000000, PGSIZE, PROT_READ, MAP_ANONYMOUS, -1, 0)` by `initproc` records an area at `KERNBASE`. -/
theorem reachable_area_at_kernbase :
    ∃ k, KReachable k ∧ k.mt.mmap_status_flag 0 ≠ 0 ∧ KERNBASE ≤ (k.mt.mmap_areas 0).addr := by
  obtain ⟨k, hk, hp⟩ := StepSys.reachable_of_run kstep KState.init
    [.sched .dispatch, .mmap 0 0x40000000 4096 PROT_READ MAP_ANONYMOUS (-1) 0 true]
    (fun k => decide (k.mt.mmap_status_flag 0 ≠ 0 ∧ KERNBASE ≤ (k.mt.mmap_areas 0).addr)) (by decide +kernel)
  exact ⟨k, hk, of_decide_eq_true hp⟩

/-! ### Owners -/

/-- An active area keeps its fields until its owner unmaps it, and an entry becomes active only by `mmap`, owned by
the caller, or by `fork`, as a copy for the child of an active area of the parent. -/
theorem mmap_area_lifecycle {k k' : KState} {e : KEvent} (h : kstep k e = some k') (j : Nat) :
    (k.mt.mmap_status_flag j ≠ 0 →
      k'.mt.mmap_areas j = k.mt.mmap_areas j ∧
      (k'.mt.mmap_status_flag j = 0 → ∃ i addr walk, e = .munmap i addr walk ∧ (k.mt.mmap_areas j).p = some i)) ∧
    (k.mt.mmap_status_flag j = 0 → k'.mt.mmap_status_flag j ≠ 0 →
      (∃ i addr length prot flags fd offset pop, e = .mmap i addr length prot flags fd offset pop ∧
        (k'.mt.mmap_areas j).p = some i) ∨
      (∃ i m c, e = .fork i m ∧ (allocproc k.pt).map Prod.fst = some c ∧
        ∃ j₀, k.mt.mmap_status_flag j₀ ≠ 0 ∧ (k.mt.mmap_areas j₀).p = some i ∧
          k'.mt.mmap_areas j = { k.mt.mmap_areas j₀ with p := some c })) := by
  have heff := kstep_table h
  generalize k'.mt = tbl at heff ⊢
  cases heff with
  | same => exact ⟨fun _ => ⟨rfl, fun h0 => absurd h0 ‹_›⟩, fun h0 h1 => absurd h0 h1⟩
  | mmap addr length prot flags fd offset pop hf hs =>
    rename_i i j₁ a s
    constructor
    · -- `mmap` writes a free entry only
      intro hact
      have hne : j ≠ j₁ := fun hj => hact (hj ▸ hf.free)
      refine ⟨by simp only [MmapTable.set_mmap_areas, Function.update_of_ne hne], fun h0 => ?_⟩
      simp only [MmapTable.set_mmap_status_flag, Function.update_of_ne hne] at h0
      exact absurd h0 hact
    · intro h0 h1
      by_cases hj : j = j₁
      · subst hj
        exact .inl ⟨i, addr, length, prot, flags, fd, offset, pop, rfl, by simpa using hf.owner⟩
      · simp [Function.update_of_ne hj] at h1
        exact absurd h0 h1
  | munmap addr walk hact₁ hown =>
    rename_i i j₁
    constructor
    · intro hact
      refine ⟨rfl, fun h0 => ?_⟩
      by_cases hj : j = j₁
      · subst hj
        exact ⟨i, addr, walk, rfl, hown⟩
      · simp [Function.update_of_ne hj] at h0
        exact absurd h0 hact
    · intro h0 h1
      by_cases hj : j = j₁
      · subst hj
        simp at h1
      · simp [Function.update_of_ne hj] at h1
        exact absurd h0 h1
  | page_fault va error ok hs hown =>
    rename_i i j₁
    constructor
    · intro hact
      refine ⟨rfl, fun h0 => ?_⟩
      by_cases hj : j = j₁
      · subst hj
        simp at h0
      · simp [Function.update_of_ne hj] at h0
        exact absurd h0 hact
    · intro h0 h1
      by_cases hj : j = j₁
      · subst hj
        rw [hs] at h0
        cases h0
      · simp [Function.update_of_ne hj] at h1
        exact absurd h0 h1
  | fork m oom hrun hc =>
    rename_i i c
    -- the child is a slot `allocproc` found `UNUSED`, so it is not the running parent
    have hunused : (k.pt.get c).state = .UNUSED := by
      obtain ⟨⟨c', t'⟩, ha, hcc⟩ := Option.map_eq_some_iff.1 hc
      cases hcc
      exact allocproc_unused ha
    have hci : c ≠ i := by
      intro hci
      rw [hci, hrun] at hunused
      cases hunused
    have hcopies := CopiesOf.fork_mmap hci oom k.mt
    constructor
    · intro hact
      refine ⟨(hcopies.keep j hact).1, fun h0 => ?_⟩
      rw [(hcopies.keep j hact).2] at h0
      exact absurd h0 hact
    · intro h0 h1
      exact .inr ⟨i, m, c, rfl, hc, hcopies.new j h0 h1⟩

/-- A child maps an area and exits without `munmap`; once its parent has waited for it, the area is still active
and owned by the child's slot, now `UNUSED`. -/
theorem reachable_area_of_unused_slot :
    ∃ k, KReachable k ∧ k.mt.mmap_status_flag 0 ≠ 0 ∧ (k.mt.mmap_areas 0).p = some 1 ∧
      (k.pt.get 1).state = .UNUSED := by
  obtain ⟨k, hk, hp⟩ := StepSys.reachable_of_run kstep KState.init
    [.sched .dispatch, .fork 0 (.ok none), .wait 0, .sched .dispatch,
      .mmap 1 0 4096 PROT_READ MAP_ANONYMOUS (-1) 0 true, .exit 1, .sched .dispatch, .wait 0]
    (fun k => decide (k.mt.mmap_status_flag 0 ≠ 0 ∧ (k.mt.mmap_areas 0).p = some 1 ∧
      (k.pt.get 1).state = .UNUSED)) (by decide +kernel)
  exact ⟨k, hk, of_decide_eq_true hp⟩

end Xv6
