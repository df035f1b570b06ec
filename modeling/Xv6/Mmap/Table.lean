import Xv6.Mmap.Basic
import Xv6.Lib.FoldM

/-!
# What each operation can do to the mmap table

One inversion lemma per operation says everything it can do to `mmap_areas` and `mmap_status_flag`: `mmap`
records one area at a free entry after its checks (`mmap_table`), `munmap` frees an entry of the caller
(`munmap_table`), `page_fault_handler` turns an entry of the caller from `-1` to `1` (`page_fault_handler_table`),
and each round of `fork`'s loop copies an active entry of the parent to a free entry (`copyArea_table`).  The
invariants of the table are proved from these alone.
-/

namespace Xv6

namespace MmapTable

variable (mt : MmapTable) (j : Nat) (a : MmapArea) (s : Int)

@[simp] theorem set_mmap_areas : (mt.set j a s).mmap_areas = Function.update mt.mmap_areas j a := rfl

@[simp] theorem set_mmap_status_flag :
    (mt.set j a s).mmap_status_flag = Function.update mt.mmap_status_flag j s := rfl

@[simp] theorem setStatus_mmap_areas : (mt.setStatus j s).mmap_areas = mt.mmap_areas := rfl

@[simp] theorem setStatus_mmap_status_flag :
    (mt.setStatus j s).mmap_status_flag = Function.update mt.mmap_status_flag j s := rfl

private theorem set_setStatus (s' : Int) : (mt.set j a s).setStatus j s' = mt.set j a s' := by
  simp only [set, setStatus, Function.update_idem]

variable {mt j}

theorem free?_spec (h : mt.free? = some j) : j < NMMAP ∧ mt.mmap_status_flag j = 0 := by
  unfold free? at h
  have hj := List.mem_range.1 (List.mem_of_find?_eq_some h)
  have hz := List.find?_some h
  simp only [decide_eq_true_eq] at hz
  exact ⟨hj, hz⟩

end MmapTable

/-- What `mmap` has checked of an area it records at entry `j`: the entry is free, the owner is the caller, the
address and length passed the argument checks, and the area passed the overlap test against every active entry. -/
structure Fresh (i : Nat) (mt : MmapTable) (j : Nat) (a : MmapArea) : Prop where
  lt : j < NMMAP
  free : mt.mmap_status_flag j = 0
  owner : a.p = some i
  aligned : a.addr % PGSIZE = 0
  lt_uint : a.addr < UINT_MOD
  length_ne : a.length ≠ 0
  length_tmod : a.length.tmod PGSIZE = 0
  apart : ∀ j' < NMMAP, mt.mmap_status_flag j' ≠ 0 → (mt.mmap_areas j').apart a.addr a.uend = true

private theorem mmapArea_table {i addr : Nat} {length prot flags offset : Int} {pfile : Option Nat} {pop : Bool}
    {ft ft' : FTable} {mt mt' : MmapTable} {r : Nat}
    (h : mmapArea i addr length prot flags offset pfile pop ft mt = some (r, ft', mt')) :
    mt' = mt ∨ ∃ j s, mt.free? = some j ∧ (s = -1 ∨ s = 1) ∧
      (∀ j' < NMMAP, mt.mmap_status_flag j' ≠ 0 → (mt.mmap_areas j').apart addr (uintAdd addr length) = true) ∧
      mt' = mt.set j ⟨pfile, addr, length, offset, prot, flags, some i⟩ s := by
  unfold mmapArea at h
  simp only [bind, Option.bind_eq_some_iff] at h
  obtain ⟨ok, -, h⟩ := h
  split at h
  · cases h
    exact .inl rfl
  · split at h
    · cases h
      exact .inl rfl
    · rename_i hall
      simp only [Bool.not_eq_true', Bool.not_eq_false, List.all_eq_true, List.mem_range, Bool.decide_or,
        Bool.or_eq_true, decide_eq_true_eq] at hall
      split at h
      · cases h
        exact .inl rfl
      · rename_i j hj
        have hapart : ∀ j' < NMMAP, mt.mmap_status_flag j' ≠ 0 →
            (mt.mmap_areas j').apart addr (uintAdd addr length) = true :=
          fun j' hj' hact => (hall j' hj').resolve_left hact
        -- the file reference is taken in either case; then come the three returns after the area is recorded
        split at h <;>
        · obtain ⟨ft₁, -, h⟩ := Option.bind_eq_some_iff.1 h
          split at h
          · cases h
            exact .inr ⟨j, -1, hj, .inl rfl, hapart, rfl⟩
          · split at h
            · cases h
              exact .inr ⟨j, 1, hj, .inr rfl, hapart, MmapTable.set_setStatus _ _ _ _ _⟩
            · cases h
              exact .inr ⟨j, -1, hj, .inl rfl, hapart, rfl⟩

/-- `mmap` either leaves the table as it is or records one area that passed its checks, with status `-1`, or `1`
once populated. -/
theorem mmap_table {i addr : Nat} {length prot flags fd offset : Int} {pop : Bool} {o : Ofile} {ft ft' : FTable}
    {mt mt' : MmapTable} {r : Nat} (h : mmap i addr length prot flags fd offset pop o ft mt = some (r, ft', mt')) :
    mt' = mt ∨ ∃ j a s, Fresh i mt j a ∧ (s = -1 ∨ s = 1) ∧ mt' = mt.set j a s := by
  unfold mmap at h
  split at h
  · cases h
    exact .inl rfl
  rename_i haddr
  split at h
  · cases h
    exact .inl rfl
  rename_i hlen
  simp only [not_or, ne_eq, Decidable.not_not] at haddr hlen
  -- what `mmapArea` records has passed the address and length checks
  have key : ∀ pfile, mmapArea i ((addr + MMAPBASE) % UINT_MOD) length prot flags offset pfile pop ft mt =
      some (r, ft', mt') → mt' = mt ∨ ∃ j a s, Fresh i mt j a ∧ (s = -1 ∨ s = 1) ∧ mt' = mt.set j a s := by
    intro pfile hm
    rcases mmapArea_table hm with rfl | ⟨j, s, hj, hs, hapart, rfl⟩
    · exact .inl rfl
    · obtain ⟨hlt, hfree⟩ := MmapTable.free?_spec hj
      have hal : (addr + MMAPBASE) % UINT_MOD % PGSIZE = 0 := by
        unfold MMAPBASE UINT_MOD
        unfold PGSIZE at haddr ⊢
        omega
      have hlt' : (addr + MMAPBASE) % UINT_MOD < UINT_MOD := Nat.mod_lt _ (by decide)
      exact .inr ⟨j, ⟨pfile, (addr + MMAPBASE) % UINT_MOD, length, offset, prot, flags, some i⟩, s,
        ⟨hlt, hfree, rfl, hal, hlt', hlen.1, hlen.2, hapart⟩, hs, rfl⟩
  split at h
  · cases h
    exact .inl rfl
  split at h
  · cases h
    exact .inl rfl
  split at h
  · cases h
    exact .inl rfl
  split at h
  · exact key none h
  split at h
  · cases h
    exact .inl rfl
  split at h
  · cases h
  · exact key _ h

theorem munmap_table (i addr : Nat) (walk : Bool) (mt : MmapTable) :
    (munmap i addr walk mt).2 = mt ∨ ∃ j, mt.mmap_status_flag j ≠ 0 ∧ (mt.mmap_areas j).p = some i ∧
      (munmap i addr walk mt).2 = mt.setStatus j 0 := by
  unfold munmap
  split
  · exact .inl rfl
  split
  · exact .inl rfl
  rename_i j hj
  have hz := List.find?_some hj
  simp only [Bool.decide_and, Bool.and_eq_true, decide_eq_true_eq] at hz
  split
  · exact .inr ⟨j, hz.2.2, hz.2.1, rfl⟩
  split
  · exact .inr ⟨j, hz.2.2, hz.2.1, rfl⟩
  · exact .inl rfl

private theorem pfArea_spec {i va error j : Nat} {mt : MmapTable} (h : pfArea i va error mt = some j) :
    mt.mmap_status_flag j = -1 ∧ (mt.mmap_areas j).p = some i ∧
      (mt.mmap_areas j).addr ≤ va ∧ va < (mt.mmap_areas j).uend := by
  unfold pfArea at h
  split at h
  · cases h
  rename_i j' hj
  have hz := List.find?_some hj
  simp only [Bool.decide_and, Bool.and_eq_true, decide_eq_true_eq] at hz
  dsimp only at h
  split_ifs at h with hr hw hs
  cases h
  simp only [ne_eq, Decidable.not_not] at hs
  exact ⟨hs, hz.2.2, hz.1, hz.2.1⟩

theorem page_fault_handler_table (i va error : Nat) (ok : Bool) (mt : MmapTable) :
    (page_fault_handler i va error ok mt).2 = mt ∨ ∃ j, mt.mmap_status_flag j = -1 ∧ (mt.mmap_areas j).p = some i ∧
      (page_fault_handler i va error ok mt).2 = mt.setStatus j 1 := by
  unfold page_fault_handler
  split
  · exact .inl rfl
  rename_i j hj
  obtain ⟨hs, hown, -⟩ := pfArea_spec hj
  split
  · exact .inr ⟨j, hs, hown, rfl⟩
  · exact .inl rfl

/-- The table a round or the whole of `fork`'s loop leaves, whether it ends normally or returns early. -/
def tableOf : Except (Int × MmapTable) MmapTable → MmapTable
  | .ok mt => mt
  | .error (_, mt) => mt

/-- A round of `fork`'s loop copies an active area of the parent, for the child, to the first free entry. -/
theorem copyArea_table (i c : Nat) (oom : Option Nat) (mt : MmapTable) (j : Nat) :
    tableOf (copyArea i c oom mt j) = mt ∨ ∃ e, mt.free? = some e ∧ (mt.mmap_areas j).p = some i ∧
      mt.mmap_status_flag j ≠ 0 ∧
      tableOf (copyArea i c oom mt j) = mt.set e { mt.mmap_areas j with p := some c } (mt.mmap_status_flag j) := by
  unfold copyArea
  split
  · rename_i hown
    split
    · exact .inl rfl
    · rename_i e he
      split
      · exact .inr ⟨e, he, hown.1, hown.2, rfl⟩
      · exact .inr ⟨e, he, hown.1, hown.2, rfl⟩
  · exact .inl rfl

/-- A property of the table that every round of `fork`'s loop keeps holds of what the loop leaves. -/
theorem fork_mmap_inv (P : MmapTable → Prop) {i c : Nat} {oom : Option Nat} {mt : MmapTable}
    (hstep : ∀ mt j, P mt → P (tableOf (copyArea i c oom mt j))) (hmt : P mt) :
    P (tableOf (fork_mmap i c oom mt)) := by
  have := FoldM.except_inv P (fun e => P e.2) (copyArea i c oom) (List.range NMMAP)
    (fun b j b' _ hb h => by have := hstep b j hb; rwa [h] at this)
    (fun b j e _ hb h => by have := hstep b j hb; rwa [h] at this) hmt
  unfold fork_mmap
  cases h : (List.range NMMAP).foldlM (copyArea i c oom) mt with
  | ok mt' => exact this.1 mt' h
  | error e => exact this.2 e h

/-! ### The exits of `mmap` that return 0 -/

/-- An anonymous `MAP_POPULATE` mapping whose page loop fails returns 0, with the area it recorded left in the
table: a free entry now has status `-1`. -/
theorem mmap_populate_fails {i addr j : Nat} {length prot offset : Int} {o : Ofile} {ft : FTable} {mt : MmapTable}
    (haddr : addr % PGSIZE = 0) (hlen : 0 < length) (hmod : length.tmod PGSIZE = 0)
    (hprot : prot = PROT_READ ∨ prot = Int.lor PROT_READ PROT_WRITE) (hj : mt.free? = some j)
    (hapart : ∀ j' < NMMAP, mt.mmap_status_flag j' ≠ 0 →
      (mt.mmap_areas j').apart ((addr + MMAPBASE) % UINT_MOD) (uintAdd ((addr + MMAPBASE) % UINT_MOD) length) = true) :
    mmap i addr length prot (Int.lor MAP_ANONYMOUS MAP_POPULATE) (-1) offset false o ft mt =
      some (0, ft, mt.set j ⟨none, (addr + MMAPBASE) % UINT_MOD, length, offset, prot,
        Int.lor MAP_ANONYMOUS MAP_POPULATE, some i⟩ (-1)) := by
  have hprot' : ¬(prot ≠ PROT_READ ∧ prot ≠ Int.lor PROT_READ PROT_WRITE) := by
    rcases hprot with h | h <;> simp [h]
  -- the overlap test passes against every active entry
  have hover : ¬∃ x, x < NMMAP ∧ ¬mt.mmap_status_flag x = 0 ∧
      (mt.mmap_areas x).apart ((addr + MMAPBASE) % UINT_MOD) (uintAdd ((addr + MMAPBASE) % UINT_MOD) length) =
        false := by
    rintro ⟨x, hx, h0, hf⟩
    rw [hapart x hx h0] at hf
    cases hf
  have hl0 : length ≠ 0 := by omega
  have hnl : ¬length ≤ 0 := by omega
  have hflags : Int.lor MAP_ANONYMOUS MAP_POPULATE = 3 := by decide
  have hanon : Int.land 3 MAP_ANONYMOUS = 1 := by decide
  have h12 : Int.lor 1 2 = 3 := by decide
  have h31 : Int.land 3 1 = 1 := by decide
  -- the argument checks pass, the area is recorded at the free entry, and the failed loop returns 0
  rw [hflags]
  simp only [mmap, haddr, ne_eq, not_true_eq_false, if_false, hl0, false_or, hmod, hprot', hanon]
  simp [mmapArea, mmapFileOk, hover, hj, hnl, h12, h31, MAP_ANONYMOUS, MAP_POPULATE]

/-- `mmap(0, PGSIZE, PROT_READ, MAP_ANONYMOUS | MAP_POPULATE, -1, 0)` on the empty table when the page loop
fails: it returns 0, and entry 0, free before, holds the area with status `-1`. -/
theorem mmap_populate_fails_on_empty :
    mmap 0 0 4096 PROT_READ (Int.lor MAP_ANONYMOUS MAP_POPULATE) (-1) 0 false (fun _ => none) (fun _ => {})
        MmapTable.empty =
      some (0, fun _ => {}, MmapTable.empty.set 0 ⟨none, (0 + MMAPBASE) % UINT_MOD, 4096, 0, PROT_READ,
        Int.lor MAP_ANONYMOUS MAP_POPULATE, some 0⟩ (-1)) ∧
    MmapTable.empty.mmap_status_flag 0 = 0 ∧
    (MmapTable.empty.set 0 ⟨none, (0 + MMAPBASE) % UINT_MOD, 4096, 0, PROT_READ,
        Int.lor MAP_ANONYMOUS MAP_POPULATE, some 0⟩ (-1)).mmap_status_flag 0 = -1 := by
  have hj : MmapTable.empty.free? = some 0 := by decide
  refine ⟨@mmap_populate_fails 0 0 0 4096 PROT_READ 0 (fun _ => none) (fun _ => {}) MmapTable.empty (by decide)
    (by decide) (by decide) (.inl rfl) hj (fun _ _ h0 => absurd rfl h0), rfl, ?_⟩
  simp

/-- A file mapping through a descriptor in range that refers to no file: the checks dereference the null `pfile`,
a fault of the kernel. -/
theorem mmap_null_descriptor {i addr : Nat} {length prot flags fd offset : Int} {pop : Bool} {o : Ofile}
    {ft : FTable} {mt : MmapTable} (haddr : addr % PGSIZE = 0) (hlen : length ≠ 0) (hmod : length.tmod PGSIZE = 0)
    (hprot : prot = PROT_READ ∨ prot = Int.lor PROT_READ PROT_WRITE) (hflags : flags = 0 ∨ flags = MAP_POPULATE)
    (hfd : 0 ≤ fd) (hfd' : fd < NOFILE) (hoff : 0 ≤ offset) (hnull : o fd.toNat = none) :
    mmap i addr length prot flags fd offset pop o ft mt = none := by
  have hprot' : ¬(prot ≠ PROT_READ ∧ prot ≠ Int.lor PROT_READ PROT_WRITE) := by
    rcases hprot with h | h <;> simp [h]
  have hflags' : ¬(flags ≠ 0 ∧ flags ≠ MAP_ANONYMOUS ∧ flags ≠ MAP_POPULATE ∧
      flags ≠ Int.lor MAP_ANONYMOUS MAP_POPULATE) := by
    rcases hflags with h | h <;> simp [h]
  have hanon : Int.land flags MAP_ANONYMOUS = 0 := by
    rcases hflags with h | h <;> subst h <;> decide
  have hfd1 : fd ≠ -1 := by omega
  have hnot : ¬(fd < 0 ∨ offset < 0) := by omega
  have hle : ¬((NOFILE : Int) ≤ fd) := by omega
  simp only [mmap, haddr, ne_eq, not_true_eq_false, if_false, hlen, false_or, hmod, hprot', hflags', hanon,
    hfd1, and_false, hnot, hle]
  simp [mmapArea, mmapFileOk, hanon, hnull]

/-- A descriptor at or past `NOFILE` is read out of `ofile[NOFILE]`: a fault of the kernel. -/
theorem mmap_descriptor_past_ofile {i addr : Nat} {length prot flags fd offset : Int} {pop : Bool} {o : Ofile}
    {ft : FTable} {mt : MmapTable} (haddr : addr % PGSIZE = 0) (hlen : length ≠ 0) (hmod : length.tmod PGSIZE = 0)
    (hprot : prot = PROT_READ ∨ prot = Int.lor PROT_READ PROT_WRITE) (hflags : flags = 0 ∨ flags = MAP_POPULATE)
    (hfd : (NOFILE : Int) ≤ fd) (hoff : 0 ≤ offset) :
    mmap i addr length prot flags fd offset pop o ft mt = none := by
  have hprot' : ¬(prot ≠ PROT_READ ∧ prot ≠ Int.lor PROT_READ PROT_WRITE) := by
    rcases hprot with h | h <;> simp [h]
  have hflags' : ¬(flags ≠ 0 ∧ flags ≠ MAP_ANONYMOUS ∧ flags ≠ MAP_POPULATE ∧
      flags ≠ Int.lor MAP_ANONYMOUS MAP_POPULATE) := by
    rcases hflags with h | h <;> simp [h]
  have hanon : Int.land flags MAP_ANONYMOUS = 0 := by
    rcases hflags with h | h <;> subst h <;> decide
  have hN : (0 : Int) < NOFILE := by decide
  have hfd1 : fd ≠ -1 := by omega
  have hnot : ¬(fd < 0 ∨ offset < 0) := by omega
  simp only [mmap, haddr, ne_eq, not_true_eq_false, if_false, hlen, false_or, hmod, hprot', hflags', hanon,
    hfd1, and_false, hnot, hfd, if_true]

end Xv6
