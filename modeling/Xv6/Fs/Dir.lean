import Mathlib.Tactic.SplitIfs
import Xv6.Fs.Block

/-!
# Directories and path names: `dirlookup`, `dirlink` and `namex` of `fs.c`

A directory is the list of its entries, `struct dirent` with a `ushort` inode number and `DIRSIZ` bytes of name;
`readi` and `writei` move one whole entry at a time, at a multiple of `sizeof(struct dirent)` below the size, so the
size is a multiple of it and each entry read is the one stored.  A C string is the bytes from its pointer on, read
as 0 past the end of the list.

Names are compared with `strncmp` bounded by `DIRSIZ`, which sees the bytes before the first NUL, at most
`DIRSIZ` of them (`strncmp_eq_zero_iff`), and stored with `strncpy`, which keeps those bytes (`cbytes_strncpy`).
So a lookup depends on the name only through its first `DIRSIZ` bytes (`dirlookup_congr`), and after `dirlink`
a lookup finds the new entry for exactly the names that agree with the linked one on those bytes, and what it
found before for every other name (`dirlink_lookup`).  `namex` walks a path element by element as `skipelem`
cuts it; two paths whose elements agree pairwise on their first `DIRSIZ` bytes resolve alike
(`namex_sameElems`).
-/

namespace Xv6

/-- `DIRSIZ`: bytes of a name in a directory entry. -/
def DIRSIZ : Nat := 14

/-- `sizeof(struct dirent)`. -/
def DIRENT_SIZE : Nat := 16

/-- `'/'`. -/
def SLASH : UInt8 := 47

/-! ### C strings -/

/-- `strncmp(p, q, n)`. -/
def strncmp : List UInt8 → List UInt8 → Nat → Int
  | _, _, 0 => 0
  | p, q, n + 1 =>
    if p.headD 0 ≠ 0 ∧ p.headD 0 = q.headD 0 then strncmp p.tail q.tail n
    else ((p.headD 0).toNat : Int) - (q.headD 0).toNat

/-- The `n` bytes `strncpy(s, t, n)` writes: those of `t` up to its NUL, then zeros. -/
def strncpy : List UInt8 → Nat → List UInt8
  | _, 0 => []
  | t, n + 1 => if t.headD 0 = 0 then List.replicate (n + 1) 0 else t.headD 0 :: strncpy t.tail n

/-- `namecmp(s, t)`. -/
def namecmp (s t : List UInt8) : Int := strncmp s t DIRSIZ

/-- The bytes of a string that `strncmp` bounded by `n` compares: those before the first NUL, at most `n`. -/
def cbytes (n : Nat) (s : List UInt8) : List UInt8 := (s.takeWhile (· != 0)).take n

private theorem cbytes_zero (s : List UInt8) : cbytes 0 s = [] := rfl

private theorem cbytes_succ (n : Nat) (s : List UInt8) :
    cbytes (n + 1) s = if s.headD 0 = 0 then [] else s.headD 0 :: cbytes n s.tail := by
  cases s with
  | nil => rfl
  | cons c s =>
    by_cases hc : c = 0
    · simp [cbytes, hc]
    · simp [cbytes, hc]

/-- `strncmp` bounded by `n` finds two strings equal exactly when their first `n` bytes before a NUL agree. -/
theorem strncmp_eq_zero_iff (p q : List UInt8) (n : Nat) : strncmp p q n = 0 ↔ cbytes n p = cbytes n q := by
  induction n generalizing p q with
  | zero => simp [strncmp, cbytes_zero]
  | succ n ih =>
    rw [strncmp, cbytes_succ, cbytes_succ]
    by_cases h : p.headD 0 ≠ 0 ∧ p.headD 0 = q.headD 0
    · -- equal bytes other than NUL: both prefixes go on with the tails
      rw [if_pos h, ih, if_neg h.1, if_neg (h.2 ▸ h.1), h.2, List.cons.injEq]
      simp
    · rw [if_neg h]
      -- the loop stops at the first byte that differs or is NUL, and the difference of the two bytes decides
      have hsub : ((p.headD 0).toNat : Int) - (q.headD 0).toNat = 0 ↔ p.headD 0 = q.headD 0 := by
        constructor
        · intro hz
          exact UInt8.toNat_inj.1 (by omega)
        · intro he
          rw [he]
          omega
      rw [hsub]
      by_cases hp : p.headD 0 = 0 <;> by_cases hq : q.headD 0 = 0
      · rw [if_pos hp, if_pos hq]
        exact iff_of_true (hp.trans hq.symm) rfl
      · rw [if_pos hp, if_neg hq]
        exact iff_of_false (fun he => hq (he.symm.trans hp)) (by simp)
      · rw [if_neg hp, if_pos hq]
        exact iff_of_false (fun he => hp (he.trans hq)) (by simp)
      · have hne : p.headD 0 ≠ q.headD 0 := fun he => h ⟨hp, he⟩
        rw [if_neg hp, if_neg hq, List.cons.injEq]
        exact iff_of_false hne (fun he => hne he.1)

/-- `strncpy` into `n` bytes keeps what `strncmp` bounded by `n` compares. -/
theorem cbytes_strncpy (s : List UInt8) (n : Nat) : cbytes n (strncpy s n) = cbytes n s := by
  induction n generalizing s with
  | zero => rfl
  | succ n ih =>
    rw [strncpy]
    split
    · rename_i h0
      rw [cbytes_succ, cbytes_succ, if_pos h0]
      cases n <;> simp [List.replicate_succ]
    · rename_i h0
      rw [cbytes_succ, cbytes_succ n s, if_neg h0]
      show (if s.headD 0 = 0 then [] else s.headD 0 :: cbytes n (strncpy s.tail n)) = _
      rw [if_neg h0, ih]

private theorem namecmp_eq_zero_iff (s t : List UInt8) : namecmp s t = 0 ↔ cbytes DIRSIZ s = cbytes DIRSIZ t :=
  strncmp_eq_zero_iff s t DIRSIZ

/-! ### Directory entries -/

/-- `struct dirent`: the inode number, `0` for a free entry, and the `DIRSIZ` bytes of `name`. -/
structure Dirent where
  inum : Nat
  name : List UInt8
  deriving DecidableEq, Repr

/-- The loop of `dirlookup` from the entry at byte offset `off`: the first live entry whose name `namecmp` finds
equal to `name`, with its inode number and offset. -/
def dirlookupFrom (name : List UInt8) : List Dirent → Nat → Option (Nat × Nat)
  | [], _ => none
  | de :: d, off =>
    if de.inum ≠ 0 ∧ namecmp name de.name = 0 then some (de.inum, off) else dirlookupFrom name d (off + DIRENT_SIZE)

/-- `dirlookup(dp, name, &poff)` on the entries of the directory `dp`: the inode number `iget` is called with and
the offset stored in `*poff`. -/
def dirlookup (d : List Dirent) (name : List UInt8) : Option (Nat × Nat) := dirlookupFrom name d 0

/-- The loop of `dirlink` looking for an empty entry: its index, or the number of entries when none is empty. -/
def freeSlot : List Dirent → Nat
  | [] => 0
  | de :: d => if de.inum = 0 then 0 else freeSlot d + 1

/-- `writei(dp, &de, off, sizeof(de))` at entry `k`: the entry is replaced, or, at the end, appended. -/
def writeEntry (d : List Dirent) (k : Nat) (de : Dirent) : List Dirent :=
  if k < d.length then d.set k de else d ++ [de]

/-- `dirlink(dp, name, inum)`: `-1` when the name is present, and otherwise the entry written at the first empty
slot, its `inum` truncated to a `ushort`. -/
def dirlink (d : List Dirent) (name : List UInt8) (inum : Nat) : Int × List Dirent :=
  match dirlookup d name with
  | some _ => (-1, d)
  | none => (0, writeEntry d (freeSlot d) ⟨inum % 65536, strncpy name DIRSIZ⟩)

private theorem dirlookupFrom_append (name : List UInt8) (l₁ l₂ : List Dirent) (off : Nat) :
    dirlookupFrom name (l₁ ++ l₂) off =
      (dirlookupFrom name l₁ off).or (dirlookupFrom name l₂ (off + DIRENT_SIZE * l₁.length)) := by
  induction l₁ generalizing off with
  | nil => simp [dirlookupFrom]
  | cons de l₁ ih =>
    rw [List.cons_append, dirlookupFrom, dirlookupFrom]
    split
    · rfl
    · rw [ih, List.length_cons, Nat.mul_succ, Nat.add_assoc, Nat.add_comm DIRENT_SIZE]

/-- A lookup depends on the name only through its first `DIRSIZ` bytes before a NUL. -/
theorem dirlookupFrom_congr {a b : List UInt8} (h : cbytes DIRSIZ a = cbytes DIRSIZ b) (d : List Dirent)
    (off : Nat) : dirlookupFrom a d off = dirlookupFrom b d off := by
  induction d generalizing off with
  | nil => rfl
  | cons de d ih =>
    simp only [dirlookupFrom, namecmp_eq_zero_iff, h, ih]

private theorem dirlookup_congr {a b : List UInt8} (h : cbytes DIRSIZ a = cbytes DIRSIZ b) (d : List Dirent) :
    dirlookup d a = dirlookup d b :=
  dirlookupFrom_congr h d 0

/-- The empty slot `dirlink` finds: every entry before it is live, and it is an empty entry or the end. -/
theorem freeSlot_spec (d : List Dirent) :
    ∃ l₁ l₂, d = l₁ ++ l₂ ∧ l₁.length = freeSlot d ∧ (∀ e ∈ l₁, e.inum ≠ 0) ∧
      (l₂ = [] ∨ ∃ e l₃, l₂ = e :: l₃ ∧ e.inum = 0) := by
  induction d with
  | nil => exact ⟨[], [], rfl, rfl, by simp, .inl rfl⟩
  | cons de d ih =>
    by_cases h0 : de.inum = 0
    · exact ⟨[], de :: d, rfl, by simp [freeSlot, h0], by simp, .inr ⟨de, d, rfl, h0⟩⟩
    · obtain ⟨l₁, l₂, rfl, hlen, hlive, hrest⟩ := ih
      refine ⟨de :: l₁, l₂, rfl, by simp [freeSlot, h0, hlen], ?_, hrest⟩
      intro e he
      rcases List.mem_cons.1 he with rfl | he
      · exact h0
      · exact hlive e he

/-- `dirlink` returns `-1` exactly when `dirlookup` finds the name, and then changes nothing. -/
theorem dirlink_fst (d : List Dirent) (name : List UInt8) (inum : Nat) :
    ((dirlink d name inum).1 = -1 ↔ (dirlookup d name).isSome) ∧
      ((dirlookup d name).isSome → (dirlink d name inum).2 = d) := by
  unfold dirlink
  split <;> simp_all

/-- After `dirlink` of a name `dirlookup` does not find, to an inode number that fits a `ushort`: a lookup finds
the new entry, at the first empty slot or at the end, for the names that agree with the linked one on their first
`DIRSIZ` bytes, and what it found before for every other name. -/
theorem dirlink_lookup {d : List Dirent} {name : List UInt8} {inum : Nat} (h : dirlookup d name = none)
    (h0 : 0 < inum) (hlt : inum < 65536) (name' : List UInt8) :
    dirlookup (dirlink d name inum).2 name' =
      if cbytes DIRSIZ name' = cbytes DIRSIZ name then some (inum, DIRENT_SIZE * freeSlot d)
      else dirlookup d name' := by
  obtain ⟨l₁, l₂, rfl, hlen, hlive, hrest⟩ := freeSlot_spec d
  have hmod : inum % 65536 = inum := Nat.mod_eq_of_lt hlt
  -- no entry before the slot matches the linked name
  have hbefore : dirlookupFrom name l₁ 0 = none := by
    have := h
    rw [dirlookup, dirlookupFrom_append, Option.or_eq_none_iff] at this
    exact this.1
  -- the new entry matches exactly the names that agree with the linked one
  have hnew : ∀ off, dirlookupFrom name' [⟨inum % 65536, strncpy name DIRSIZ⟩] off =
      if cbytes DIRSIZ name' = cbytes DIRSIZ name then some (inum, off) else none := by
    intro off
    simp only [dirlookupFrom, namecmp_eq_zero_iff, cbytes_strncpy, hmod]
    by_cases hn : cbytes DIRSIZ name' = cbytes DIRSIZ name <;> simp [hn, show inum ≠ 0 by omega]
  have hwrite : (dirlink (l₁ ++ l₂) name inum).2 =
      l₁ ++ ⟨inum % 65536, strncpy name DIRSIZ⟩ :: l₂.drop 1 := by
    simp only [dirlink, h, writeEntry]
    rcases hrest with rfl | ⟨e, l₃, rfl, -⟩
    · rw [List.append_nil] at hlen ⊢
      rw [← hlen, if_neg (Nat.lt_irrefl _)]
      rfl
    · rw [← hlen, if_pos (by simp), List.set_append_right _ _ (Nat.le_refl _), Nat.sub_self]
      rfl
  rw [hwrite, ← hlen, dirlookup, dirlookupFrom_append, Nat.zero_add,
    show (⟨inum % 65536, strncpy name DIRSIZ⟩ :: l₂.drop 1 : List Dirent) =
      [⟨inum % 65536, strncpy name DIRSIZ⟩] ++ l₂.drop 1 from rfl, dirlookupFrom_append, hnew]
  by_cases hn : cbytes DIRSIZ name' = cbytes DIRSIZ name
  · rw [if_pos hn, if_pos hn, dirlookupFrom_congr hn, hbefore]
    rfl
  · -- the slot was empty or the end, so it matched no name before
    rw [if_neg hn, if_neg hn, dirlookup, dirlookupFrom_append, Nat.zero_add]
    rcases hrest with rfl | ⟨e, l₃, rfl, he⟩
    · simp [dirlookupFrom]
    · simp [dirlookupFrom, he]

/-! ### Path names -/

/-- `skipelem(path, name)`: the next element of the path as `name` receives it, cut to `DIRSIZ` bytes, and the
rest of the path with its leading slashes skipped; `none` when no element is left. -/
def skipelem (path : List UInt8) : Option (List UInt8 × List UInt8) :=
  let path := path.dropWhile (· == SLASH)
  if path.headD 0 = 0 then none
  else
    let s := path.takeWhile fun c => c != SLASH && c != 0
    let rest := path.dropWhile fun c => c != SLASH && c != 0
    some (if DIRSIZ ≤ s.length then s.take DIRSIZ else s, rest.dropWhile (· == SLASH))

/-- What `namex` reads of the file system: the type of each inode and the entries of each directory. -/
structure DirView where
  type : Nat → Nat
  entries : Nat → List Dirent

/-- The loop of `namex` from the inode `ip`, with `fuel` turns; each turn takes an element off the path, so
`path.length + 1` turns are enough (`namexLoop_fuel`).  `none` is the panic of `ilock` on an inode without a type,
`some none` the return of 0. -/
def namexLoop (v : DirView) (nameiparent : Bool) : Nat → List UInt8 → Nat → Option (Option Nat)
  | 0, _, _ => none
  | fuel + 1, path, ip =>
    match skipelem path with
    | none => some (if nameiparent then none else some ip)
    | some (name, path) =>
      if v.type ip = 0 then none
      else if v.type ip ≠ T_DIR then some none
      else if nameiparent ∧ path.headD 0 = 0 then some (some ip)
      else match dirlookup (v.entries ip) name with
        | none => some none
        | some (inum, _) => namexLoop v nameiparent fuel path inum

/-- `namex(path, nameiparent, name)` of a process whose working directory is `cwd`: the inode it returns, from
the root for an absolute path.  The element left in `name` is not kept. -/
def namex (v : DirView) (cwd : Nat) (path : List UInt8) (nameiparent : Bool) : Option (Option Nat) :=
  namexLoop v nameiparent (path.length + 1) path (if path.headD 0 = SLASH then ROOTINO else cwd)

private theorem head_dropWhile {p : UInt8 → Bool} {l t : List UInt8} {c : UInt8} (h : l.dropWhile p = c :: t) :
    p c = false := by
  induction l with
  | nil => cases h
  | cons a l ih =>
    rw [List.dropWhile_cons] at h
    split at h
    · exact ih h
    · cases h
      simp_all

/-- An element taken off leaves a shorter path. -/
theorem skipelem_length {path name rest : List UInt8} (h : skipelem path = some (name, rest)) :
    rest.length < path.length := by
  unfold skipelem at h
  dsimp only at h
  split at h
  · cases h
  rename_i h0
  cases h
  generalize hp : path.dropWhile (· == SLASH) = p at h0
  have hp_le : p.length ≤ path.length := by
    rw [← hp]
    exact (List.dropWhile_suffix _).length_le
  cases p with
  | nil => exact absurd rfl h0
  | cons c p =>
    -- the first byte is neither a slash nor NUL, so the element has at least one byte
    have hc : c ≠ SLASH := by simpa using head_dropWhile hp
    have hc0 : c ≠ 0 := h0
    have hdrop : (c :: p).dropWhile (fun c => c != SLASH && c != 0) =
        p.dropWhile (fun c => c != SLASH && c != 0) := by
      rw [List.dropWhile_cons, if_pos (by simp [hc, hc0])]
    rw [hdrop]
    calc ((p.dropWhile fun c => c != SLASH && c != 0).dropWhile (· == SLASH)).length
        ≤ (p.dropWhile fun c => c != SLASH && c != 0).length := (List.dropWhile_suffix _).length_le
      _ ≤ p.length := (List.dropWhile_suffix _).length_le
      _ < (c :: p).length := Nat.lt_succ_self _
      _ ≤ path.length := hp_le

/-- The rest of the path has its slashes skipped, so it has no element left exactly when it is at its NUL. -/
theorem skipelem_rest {path name rest : List UInt8} (h : skipelem path = some (name, rest)) :
    skipelem rest = none ↔ rest.headD 0 = 0 := by
  unfold skipelem at h
  dsimp only at h
  split at h
  · cases h
  cases h
  have hidem : ∀ l : List UInt8, (l.dropWhile (· == SLASH)).dropWhile (· == SLASH) = l.dropWhile (· == SLASH) := by
    intro l
    induction l with
    | nil => rfl
    | cons c l ih =>
      rw [List.dropWhile_cons]
      split
      · exact ih
      · rw [List.dropWhile_cons, if_neg ‹_›]
  unfold skipelem
  dsimp only
  rw [hidem]
  split <;> simp_all

/-- More fuel than the path has bytes changes nothing. -/
theorem namexLoop_fuel (v : DirView) (b : Bool) {fuel : Nat} {path : List UInt8} (h : path.length < fuel)
    (extra ip : Nat) : namexLoop v b (fuel + extra) path ip = namexLoop v b fuel path ip := by
  induction fuel generalizing path ip with
  | zero => exact absurd h (Nat.not_lt_zero _)
  | succ f ih =>
    rw [Nat.add_right_comm]
    cases hs : skipelem path with
    | none => simp only [namexLoop, hs]
    | some nr =>
      obtain ⟨name, rest⟩ := nr
      have hlt : rest.length < f := by have := skipelem_length hs; omega
      simp only [namexLoop, hs]
      -- the one turn that recurses goes on with a shorter path
      split_ifs
      all_goals try rfl
      cases dirlookup (v.entries ip) name with
      | none => rfl
      | some r =>
        obtain ⟨inum, _⟩ := r
        exact ih hlt inum

/-- Two paths whose elements, as `skipelem` cuts them, agree pairwise on their first `DIRSIZ` bytes. -/
inductive SameElems : List UInt8 → List UInt8 → Prop
  | done {p q : List UInt8} : skipelem p = none → skipelem q = none → SameElems p q
  | elem {p q n m p' q' : List UInt8} : skipelem p = some (n, p') → skipelem q = some (m, q') →
      cbytes DIRSIZ n = cbytes DIRSIZ m → SameElems p' q' → SameElems p q

private theorem SameElems.none_iff {p q : List UInt8} (h : SameElems p q) : skipelem p = none ↔ skipelem q = none := by
  cases h with
  | done hp hq => simp [hp, hq]
  | elem hp hq _ _ => simp [hp, hq]

/-- The loop resolves two paths with the same elements alike, from any inode. -/
theorem namexLoop_sameElems (v : DirView) (b : Bool) {p q : List UInt8} (h : SameElems p q) (ip : Nat) :
    namexLoop v b (p.length + 1) p ip = namexLoop v b (q.length + 1) q ip := by
  induction h generalizing ip with
  | done hp hq => simp only [namexLoop, hp, hq]
  | elem hp hq hnm hsame ih =>
    rename_i p q n m p' q'
    -- the last-element test agrees, and so does the lookup of the two elements
    have hlast : p'.headD 0 = 0 ↔ q'.headD 0 = 0 := by
      rw [← skipelem_rest hp, ← skipelem_rest hq]
      exact hsame.none_iff
    have hfp : p.length = (p'.length + 1) + (p.length - (p'.length + 1)) := by
      have := skipelem_length hp; omega
    have hfq : q.length = (q'.length + 1) + (q.length - (q'.length + 1)) := by
      have := skipelem_length hq; omega
    simp only [namexLoop, hp, hq, hlast, dirlookup_congr hnm]
    split_ifs
    all_goals try rfl
    cases dirlookup (v.entries ip) m with
    | none => rfl
    | some r =>
      dsimp only
      rw [hfp, hfq, namexLoop_fuel v b (Nat.lt_succ_self _), namexLoop_fuel v b (Nat.lt_succ_self _)]
      exact ih r.1

/-- Two paths, both absolute or both relative, whose elements agree pairwise on their first `DIRSIZ` bytes
resolve to the same inode. -/
theorem namex_sameElems (v : DirView) (cwd : Nat) (b : Bool) {p q : List UInt8} (h : SameElems p q)
    (habs : p.headD 0 = SLASH ↔ q.headD 0 = SLASH) : namex v cwd p b = namex v cwd q b := by
  unfold namex
  rw [show (if p.headD 0 = SLASH then ROOTINO else cwd) = (if q.headD 0 = SLASH then ROOTINO else cwd) by
    simp only [habs]]
  exact namexLoop_sameElems v b h _

/-! ### `dirlink` and path names together -/

/-- `dirlink` returns `-1` exactly when `dirlookup` finds the name, changing nothing; otherwise the new entry sits
at the first empty slot or at the end, and afterwards a lookup finds it for the names that agree with the linked
one on their first `DIRSIZ` bytes and finds what it found before for every other name.  And two paths whose
elements agree on their first `DIRSIZ` bytes resolve alike. -/
theorem dirlink_spec (d : List Dirent) (name : List UInt8) {inum : Nat} (h0 : 0 < inum) (hlt : inum < 65536) :
    ((dirlink d name inum).1 = -1 ↔ (dirlookup d name).isSome) ∧
      ((dirlookup d name).isSome → (dirlink d name inum).2 = d) ∧
      (dirlookup d name = none →
        (dirlink d name inum).2 = writeEntry d (freeSlot d) ⟨inum, strncpy name DIRSIZ⟩ ∧
        ∀ name', dirlookup (dirlink d name inum).2 name' =
          if cbytes DIRSIZ name' = cbytes DIRSIZ name then some (inum, DIRENT_SIZE * freeSlot d)
          else dirlookup d name') ∧
      (∀ v cwd b p q, SameElems p q → (p.headD 0 = SLASH ↔ q.headD 0 = SLASH) →
        namex v cwd p b = namex v cwd q b) := by
  obtain ⟨hfst, hsame⟩ := dirlink_fst d name inum
  refine ⟨hfst, hsame, fun hn => ⟨?_, dirlink_lookup hn h0 hlt⟩,
    fun v cwd b _ _ h habs => namex_sameElems v cwd b h habs⟩
  simp [dirlink, hn, Nat.mod_eq_of_lt hlt]

/-- A directory with the entry `"a"` for inode 5 and a free entry: linking `"b"` to inode 6 fills the free entry,
and `"b"` and any name agreeing with it on 14 bytes now find inode 6. -/
theorem dirlink_spec_two_entries :
    (0 : Nat) < 6 ∧ 6 < 65536 ∧
      ((dirlink [⟨5, strncpy [97] DIRSIZ⟩, ⟨0, []⟩] [98] 6).1 = -1 ↔
        (dirlookup [⟨5, strncpy [97] DIRSIZ⟩, ⟨0, []⟩] [98]).isSome) ∧
      ((dirlookup [⟨5, strncpy [97] DIRSIZ⟩, ⟨0, []⟩] [98]).isSome →
        (dirlink [⟨5, strncpy [97] DIRSIZ⟩, ⟨0, []⟩] [98] 6).2 = [⟨5, strncpy [97] DIRSIZ⟩, ⟨0, []⟩]) ∧
      (dirlookup [⟨5, strncpy [97] DIRSIZ⟩, ⟨0, []⟩] [98] = none →
        (dirlink [⟨5, strncpy [97] DIRSIZ⟩, ⟨0, []⟩] [98] 6).2 =
          writeEntry [⟨5, strncpy [97] DIRSIZ⟩, ⟨0, []⟩] (freeSlot [⟨5, strncpy [97] DIRSIZ⟩, ⟨0, []⟩])
            ⟨6, strncpy [98] DIRSIZ⟩ ∧
        ∀ name', dirlookup (dirlink [⟨5, strncpy [97] DIRSIZ⟩, ⟨0, []⟩] [98] 6).2 name' =
          if cbytes DIRSIZ name' = cbytes DIRSIZ [98] then
            some (6, DIRENT_SIZE * freeSlot [⟨5, strncpy [97] DIRSIZ⟩, ⟨0, []⟩])
          else dirlookup [⟨5, strncpy [97] DIRSIZ⟩, ⟨0, []⟩] name') ∧
      (∀ v cwd b p q, SameElems p q → (p.headD 0 = SLASH ↔ q.headD 0 = SLASH) →
        namex v cwd p b = namex v cwd q b) :=
  ⟨by decide, by decide, dirlink_spec _ _ (by decide) (by decide)⟩

/-- `"b"` linked to inode 5 in a directory where `"a"` names inode 5 already: a lookup of `"a"`, which does not
agree with `"b"`, still returns inode 5. -/
theorem dirlink_other_name_same_inode :
    dirlookup [⟨5, strncpy [97] DIRSIZ⟩] [98] = none ∧ (dirlink [⟨5, strncpy [97] DIRSIZ⟩] [98] 5).1 = 0 ∧
      dirlookup (dirlink [⟨5, strncpy [97] DIRSIZ⟩] [98] 5).2 [97] = some (5, 0) ∧ namecmp [97] [98] ≠ 0 := by
  decide

/-- The 14/15-character boundary: `"aaaaaaaaaaaaaaa"` and `"aaaaaaaaaaaaaab"` agree on their first 14 bytes. -/
example : cbytes DIRSIZ (List.replicate 14 97 ++ [97]) = cbytes DIRSIZ (List.replicate 14 97 ++ [98]) := by
  decide

end Xv6
