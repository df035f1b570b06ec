import Mathlib
import Xv6.Kernel.Mmap
import Xv6.Kernel.Procs

/-!
# The failure exits of `fork`

Two exits of `fork` come after `allocproc` has taken a slot for the child, the descriptors have been copied and
some of the parent's areas have been copied: the search for a free entry of the mmap table returns `-1`, and a
failed `kalloc` in the copy of a populated area returns `0`.  Neither puts the slot back or undoes the copies.

When every entry of the table is active and the parent owns one, the copy loop stops at the first area of the
parent with the table unchanged (`fork_mmap_full`), and `fork` returns `-1` with the child left `EMBRYO`, holding a
new reference to each open file of the parent (`fork_no_free_entry`).
-/

namespace Xv6

section Full

variable {i c : Nat} {oom : Option Nat} {mt : MmapTable}

/-- An area of slot `i` that `fork`'s loop copies. -/
def Copied (i : Nat) (mt : MmapTable) (j : Nat) : Prop := (mt.mmap_areas j).p = some i ∧ mt.mmap_status_flag j ≠ 0

instance (i : Nat) (mt : MmapTable) (j : Nat) : Decidable (Copied i mt j) :=
  inferInstanceAs (Decidable (_ ∧ _))

private theorem free?_eq_none (hfull : ∀ j < NMMAP, mt.mmap_status_flag j ≠ 0) : mt.free? = none := by
  unfold MmapTable.free?
  rw [List.find?_eq_none]
  intro j hj
  simpa using hfull j (List.mem_range.1 hj)

/-- With no free entry, a round returns `-1` at an area of the parent and passes over every other entry. -/
theorem copyArea_full (hfree : mt.free? = none) (j : Nat) :
    copyArea i c oom mt j = if Copied i mt j then Except.error (-1, mt) else Except.ok mt := by
  unfold copyArea
  split
  · rename_i hc
    rw [hfree, if_pos (show Copied i mt j from hc)]
  · rename_i hc
    rw [if_neg (show ¬Copied i mt j from hc)]

/-- With no free entry, the loop over `l` returns `-1` with the table unchanged if `l` holds an area of the parent,
and otherwise ends with the table unchanged. -/
theorem foldlM_copyArea_full (hfree : mt.free? = none) (l : List Nat) :
    l.foldlM (copyArea i c oom) mt = if ∃ j ∈ l, Copied i mt j then Except.error (-1, mt) else Except.ok mt := by
  induction l with
  | nil =>
    rw [if_neg (by simp)]
    rfl
  | cons a l ih =>
    rw [List.foldlM_cons, copyArea_full hfree]
    by_cases ha : Copied i mt a
    · rw [if_pos ha, if_pos ⟨a, List.mem_cons_self, ha⟩]
      rfl
    · -- the round passes over `a`, and the rest of the loop decides
      rw [if_neg ha]
      change l.foldlM (copyArea i c oom) mt = _
      rw [ih]
      by_cases hl : ∃ j ∈ l, Copied i mt j
      · obtain ⟨j, hj, hc⟩ := hl
        rw [if_pos ⟨j, hj, hc⟩, if_pos ⟨j, List.mem_cons_of_mem _ hj, hc⟩]
      · have hl' : ¬∃ j ∈ a :: l, Copied i mt j := by
          rintro ⟨j, hj, hc⟩
          rcases List.mem_cons.1 hj with rfl | hj
          · exact ha hc
          · exact hl ⟨j, hj, hc⟩
        rw [if_neg hl, if_neg hl']

private theorem fork_mmap_full (hfull : ∀ j < NMMAP, mt.mmap_status_flag j ≠ 0)
    (hown : ∃ j < NMMAP, (mt.mmap_areas j).p = some i) : fork_mmap i c oom mt = .error (-1, mt) := by
  obtain ⟨j, hj, hp⟩ := hown
  unfold fork_mmap
  rw [foldlM_copyArea_full (free?_eq_none hfull), if_pos ⟨j, List.mem_range.2 hj, hp, hfull j hj⟩]

end Full

/-- What `allocproc` finds for `fork`: a slot that was `UNUSED` and is now `EMBRYO`, and nothing only when no slot
is `UNUSED`. -/
theorem allocproc_cases (t : PTable) :
    match allocproc t with
    | some (c, t') => (t.get c).state = .UNUSED ∧ (t'.get c).state = .EMBRYO
    | none => ∀ i < NPROC, (t.get i).state ≠ .UNUSED := by
  cases hs : allocproc t with
  | none =>
    show ∀ i < NPROC, (t.get i).state ≠ .UNUSED
    intro i hi hu
    exact List.find?_eq_none.1 (Option.map_eq_none_iff.1 hs) i (List.mem_range.2 hi) (decide_eq_true hu)
  | some ct =>
    obtain ⟨c, t'⟩ := ct
    obtain ⟨-, hu, -, he, -⟩ := allocproc_spec hs
    exact ⟨hu, he⟩

/-- `fork` by a running slot whose areas cannot be copied because every entry of the mmap table is active: `fork`
returns `-1`, and the child's slot stays `EMBRYO` with the parent's descriptors, each file having one more
reference. -/
theorem fork_no_free_entry {k : KState} {i c : Nat} {t₁ : PTable} {oom : Option Nat} {oc : Ofile} {ft : FTable}
    (hrun : running k.pt i = true) (ha : allocproc k.pt = some (c, t₁)) (hd : k.dupOfile i c = some (oc, ft))
    (hfull : ∀ j < NMMAP, k.mt.mmap_status_flag j ≠ 0) (hown : ∃ j < NMMAP, (k.mt.mmap_areas j).p = some i) :
    (Xv6.fork i .mmapFull k.pt).1 = -1 ∧ ((Xv6.fork i .mmapFull k.pt).2.get c).state = .EMBRYO ∧
      kstep k (.fork i (.ok oom)) =
        some { k with ofile := Function.update k.ofile c oc, file := ft, pt := (Xv6.fork i .mmapFull k.pt).2 } := by
  obtain ⟨hc, -, -, hst, -, -, -⟩ := allocproc_spec ha
  refine ⟨by simp [Xv6.fork, ha], by simp [Xv6.fork, ha, PTable.get_set_self _ hc, hst], ?_⟩
  -- the copy loop stops with the table unchanged, and `fork` records the outcome `-1`
  simp only [kstep, hrun, if_true, KState.fork, ha, hd, Option.bind_eq_bind, Option.bind_some]
  rw [fork_mmap_full hfull hown]
  rfl

/-- `initproc` opens a file and maps 64 pages: with every entry active, its `fork` returns `-1`, leaving slot 1
`EMBRYO` and the file with a second reference. -/
theorem fork_fails_after_64_mmaps :
    ∃ k c t₁ oc ft, KReachable k ∧ running k.pt 0 = true ∧ allocproc k.pt = some (c, t₁) ∧
      k.dupOfile 0 c = some (oc, ft) ∧ (∀ j < NMMAP, k.mt.mmap_status_flag j ≠ 0) ∧
      (∃ j < NMMAP, (k.mt.mmap_areas j).p = some 0) ∧ (k.file 0).ref = 1 ∧ (ft 0).ref = 2 ∧
      (Xv6.fork 0 .mmapFull k.pt).1 = -1 ∧ ((Xv6.fork 0 .mmapFull k.pt).2.get c).state = .EMBRYO ∧
      kstep k (.fork 0 (.ok none)) =
        some { k with ofile := Function.update k.ofile c oc, file := ft, pt := (Xv6.fork 0 .mmapFull k.pt).2 } := by
  obtain ⟨k, hk, hp⟩ := StepSys.reachable_of_run kstep KState.init
    ([.sched .dispatch, .sys_open 0 O_RDWR true] ++
      (List.range 64).map fun n => .mmap 0 (n * 4096) 4096 PROT_READ MAP_ANONYMOUS (-1) 0 true)
    (fun k => match allocproc k.pt with
      | some (c, _) => match k.dupOfile 0 c with
        | some (_, ft) => decide (running k.pt 0 = true ∧ (∀ j < NMMAP, k.mt.mmap_status_flag j ≠ 0) ∧
            (∃ j < NMMAP, (k.mt.mmap_areas j).p = some 0) ∧ (k.file 0).ref = 1 ∧ (ft 0).ref = 2)
        | none => false
      | none => false) (by decide +kernel)
  cases ha : allocproc k.pt with
  | none => simp [ha] at hp
  | some ct =>
    obtain ⟨c, t₁⟩ := ct
    cases hd : k.dupOfile 0 c with
    | none => simp [ha, hd] at hp
    | some oft =>
      obtain ⟨oc, ft⟩ := oft
      simp only [ha, hd] at hp
      obtain ⟨hrun, hfull, hown, h1, h2⟩ := of_decide_eq_true hp
      exact ⟨k, c, t₁, oc, ft, hk, hrun, ha, hd, hfull, hown, h1, h2,
        fork_no_free_entry hrun ha hd hfull hown⟩

end Xv6
