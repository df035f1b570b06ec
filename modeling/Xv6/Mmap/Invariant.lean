import Xv6.Mmap.Table

/-!
# Invariants of the mmap table

`TableOk`: every active entry has the shape `mmap`'s argument checks give (a page-aligned `uint` address, a
nonzero length that C's `%` finds a multiple of `PGSIZE`), and any two active entries cover the same range or pass
`mmap`'s overlap test against each other.  The same range comes from `fork`, which copies areas without a test.

`CopiesOf i c mt mt'`: `fork`'s loop keeps every active entry and adds only copies, owned by the child `c`, of
active areas of the parent `i`.
-/

namespace Xv6

/-- The shape `mmap`'s argument checks give an area. -/
structure AreaShape (a : MmapArea) : Prop where
  aligned : a.addr % PGSIZE = 0
  lt_uint : a.addr < UINT_MOD
  length_ne : a.length ≠ 0
  length_tmod : a.length.tmod PGSIZE = 0

/-- Two areas cover the same range, or pass `mmap`'s overlap test against each other. -/
def Compatible (a b : MmapArea) : Prop := (a.addr = b.addr ∧ a.length = b.length) ∨ b.apart a.addr a.uend = true

theorem Compatible.symm {a b : MmapArea} (h : Compatible a b) : Compatible b a := by
  unfold Compatible MmapArea.apart at *
  rcases h with ⟨h1, h2⟩ | h
  · exact .inl ⟨h1.symm, h2.symm⟩
  · right
    simp only [decide_eq_true_eq] at h ⊢
    exact h.symm

structure TableOk (mt : MmapTable) : Prop where
  lt : ∀ j, mt.mmap_status_flag j ≠ 0 → j < NMMAP
  shape : ∀ j, mt.mmap_status_flag j ≠ 0 → AreaShape (mt.mmap_areas j)
  compat : ∀ j₁ j₂, j₁ ≠ j₂ → mt.mmap_status_flag j₁ ≠ 0 → mt.mmap_status_flag j₂ ≠ 0 →
    Compatible (mt.mmap_areas j₁) (mt.mmap_areas j₂)

theorem tableOk_empty : TableOk MmapTable.empty :=
  ⟨fun _ h => absurd rfl h, fun _ h => absurd rfl h, fun _ _ _ h => absurd rfl h⟩

namespace TableOk

variable {mt : MmapTable} {j : Nat}

/-- A status change of an active entry keeps the invariant: the areas stay, and no entry becomes active. -/
theorem setStatus (h : TableOk mt) (hj : mt.mmap_status_flag j ≠ 0) (s : Int) : TableOk (mt.setStatus j s) := by
  have hact : ∀ j', (mt.setStatus j s).mmap_status_flag j' ≠ 0 → mt.mmap_status_flag j' ≠ 0 := by
    intro j' h'
    by_cases hj' : j' = j
    · subst hj'
      exact hj
    · simpa [Function.update_of_ne hj'] using h'
  refine ⟨fun j' h' => h.lt j' (hact j' h'), fun j' h' => ?_, fun j₁ j₂ hne h₁ h₂ => ?_⟩
  · exact h.shape j' (hact j' h')
  · exact h.compat j₁ j₂ hne (hact j₁ h₁) (hact j₂ h₂)

/-- Writing entry `j` of the table keeps the invariant when the new area has the shape and is compatible with
every other active entry. -/
theorem set (h : TableOk mt) (hlt : j < NMMAP) {a : MmapArea} (hshape : AreaShape a)
    (hcompat : ∀ j', j' ≠ j → mt.mmap_status_flag j' ≠ 0 → Compatible a (mt.mmap_areas j')) (s : Int) :
    TableOk (mt.set j a s) := by
  refine ⟨fun j' h' => ?_, fun j' h' => ?_, fun j₁ j₂ hne h₁ h₂ => ?_⟩
  · by_cases hj' : j' = j
    · rw [hj']
      exact hlt
    · exact h.lt j' (by simpa [Function.update_of_ne hj'] using h')
  · by_cases hj' : j' = j
    · subst hj'
      simpa using hshape
    · simpa [Function.update_of_ne hj'] using h.shape j' (by simpa [Function.update_of_ne hj'] using h')
  · -- the new entry against an old one, in either order, or two old ones
    by_cases hj₁ : j₁ = j
    · subst hj₁
      have hj₂ : j₂ ≠ j₁ := Ne.symm hne
      simp only [MmapTable.set_mmap_areas, Function.update_self, Function.update_of_ne hj₂]
      exact hcompat j₂ hj₂ (by simpa [Function.update_of_ne hj₂] using h₂)
    · by_cases hj₂ : j₂ = j
      · subst hj₂
        simp only [MmapTable.set_mmap_areas, Function.update_self, Function.update_of_ne hj₁]
        exact (hcompat j₁ hj₁ (by simpa [Function.update_of_ne hj₁] using h₁)).symm
      · simp only [MmapTable.set_mmap_areas, Function.update_of_ne hj₁, Function.update_of_ne hj₂]
        exact h.compat j₁ j₂ hne (by simpa [Function.update_of_ne hj₁] using h₁)
          (by simpa [Function.update_of_ne hj₂] using h₂)

/-- What `mmap` records keeps the invariant. -/
theorem set_fresh (h : TableOk mt) {i : Nat} {a : MmapArea} (hf : Fresh i mt j a) (s : Int) :
    TableOk (mt.set j a s) :=
  h.set hf.lt ⟨hf.aligned, hf.lt_uint, hf.length_ne, hf.length_tmod⟩
    (fun j' _ hact => .inr (hf.apart j' (h.lt j' hact) hact)) s

/-- A round of `fork`'s loop keeps the invariant: a copy covers the range of its original. -/
theorem copyArea (h : TableOk mt) (i c : Nat) (oom : Option Nat) (j : Nat) :
    TableOk (tableOf (Xv6.copyArea i c oom mt j)) := by
  rcases copyArea_table i c oom mt j with hsame | ⟨e, he, -, hact, hcopy⟩
  · rw [hsame]
    exact h
  · obtain ⟨hlt, hfree⟩ := MmapTable.free?_spec he
    have hej : j ≠ e := fun hje => hact (hje ▸ hfree)
    rw [hcopy]
    -- a copy has the address and length of its original
    have hs := h.shape j hact
    have hshape : AreaShape { mt.mmap_areas j with p := some c } :=
      ⟨hs.aligned, hs.lt_uint, hs.length_ne, hs.length_tmod⟩
    refine h.set hlt hshape (fun j' hj' hact' => ?_) _
    by_cases hjj : j' = j
    · subst hjj
      exact .inl ⟨rfl, rfl⟩
    · exact h.compat j j' (Ne.symm hjj) hact hact'

theorem fork_mmap (h : TableOk mt) (i c : Nat) (oom : Option Nat) :
    TableOk (tableOf (Xv6.fork_mmap i c oom mt)) :=
  fork_mmap_inv TableOk (fun _ j hmt => hmt.copyArea i c oom j) h

end TableOk

/-! ### The copies `fork` makes -/

/-- `mt'` keeps every active entry of `mt`, and each entry active in `mt'` but not in `mt` holds a copy, owned by
`c`, of an area of `i` active in `mt`. -/
structure CopiesOf (i c : Nat) (mt mt' : MmapTable) : Prop where
  keep : ∀ j, mt.mmap_status_flag j ≠ 0 →
    mt'.mmap_areas j = mt.mmap_areas j ∧ mt'.mmap_status_flag j = mt.mmap_status_flag j
  new : ∀ j, mt.mmap_status_flag j = 0 → mt'.mmap_status_flag j ≠ 0 →
    ∃ j₀, mt.mmap_status_flag j₀ ≠ 0 ∧ (mt.mmap_areas j₀).p = some i ∧
      mt'.mmap_areas j = { mt.mmap_areas j₀ with p := some c }

theorem CopiesOf.refl (i c : Nat) (mt : MmapTable) : CopiesOf i c mt mt :=
  ⟨fun _ _ => ⟨rfl, rfl⟩, fun _ h h' => absurd h h'⟩

/-- A round of `fork`'s loop, for a child other than the parent, adds one more copy. -/
theorem CopiesOf.copyArea {i c : Nat} {mt₀ mt : MmapTable} (hc : c ≠ i) (h : CopiesOf i c mt₀ mt)
    (oom : Option Nat) (j : Nat) : CopiesOf i c mt₀ (tableOf (Xv6.copyArea i c oom mt j)) := by
  rcases copyArea_table i c oom mt j with hsame | ⟨e, he, hown, hact, hcopy⟩
  · rw [hsame]
    exact h
  obtain ⟨-, hfree⟩ := MmapTable.free?_spec he
  -- the entry copied was active at the start: a copy made so far belongs to the child, not to `i`
  have hact₀ : mt₀.mmap_status_flag j ≠ 0 := by
    intro h0
    obtain ⟨j₀, -, -, hj⟩ := h.new j h0 hact
    rw [hj] at hown
    exact hc (Option.some.inj hown)
  have hsame := h.keep j hact₀
  -- the entry written was free at the start
  have hfree₀ : mt₀.mmap_status_flag e = 0 := by
    by_contra h0
    exact h0 ((h.keep e h0).2.symm.trans hfree)
  rw [hcopy]
  constructor
  · intro j' hj'
    have hne : j' ≠ e := fun hje => hj' (hje ▸ hfree₀)
    simpa [Function.update_of_ne hne] using h.keep j' hj'
  · intro j' hj' hnew
    by_cases hje : j' = e
    · subst hje
      refine ⟨j, hact₀, hsame.1 ▸ hown, ?_⟩
      simp [hsame.1]
    · simp only [MmapTable.set_mmap_status_flag, MmapTable.set_mmap_areas, Function.update_of_ne hje] at hnew ⊢
      exact h.new j' hj' hnew

theorem CopiesOf.fork_mmap {i c : Nat} (hc : c ≠ i) (oom : Option Nat) (mt : MmapTable) :
    CopiesOf i c mt (tableOf (Xv6.fork_mmap i c oom mt)) :=
  fork_mmap_inv (CopiesOf i c mt) (fun _ j hmt => hmt.copyArea hc oom j) (CopiesOf.refl i c mt)

end Xv6
