import Mathlib

/-!
# Scanning a table for its first minimum

The loop
```
s = start;
for (i = 0; i < n; i++)
  if (ok(f[i]) && key(f[i]) < key(f[s])) s = i;
```
over the entries `f 0, …, f (n-1)` of a table, as `scan`.  With keys in a linear order it returns the start or an
`ok` entry (`scan_cases`), whose key is no larger than every `ok` entry's (`scan_le`); among `ok` entries of the
same key it is the first (`scan_first`), because only a strictly smaller key moves it.
-/

namespace FirstMin

variable {α κ : Type} [LinearOrder κ] (ok : α → Bool) (key : α → κ) (f : Nat → α)

/-- One step of the scan at index `i`. -/
def pick (r i : Nat) : Nat := if ok (f i) = true ∧ key (f i) < key (f r) then i else r

/-- The scan of the indices `0, …, n-1` from the start `s`. -/
def scan (n s : Nat) : Nat := (List.range n).foldl (pick ok key f) s

@[simp] theorem scan_zero (s : Nat) : scan ok key f 0 s = s := rfl

private theorem scan_succ (n s : Nat) : scan ok key f (n + 1) s = pick ok key f (scan ok key f n s) n := by
  simp only [scan, List.range_succ, List.foldl_append, List.foldl_cons, List.foldl_nil]

private theorem pick_cases (r i : Nat) :
    (ok (f i) = true ∧ key (f i) < key (f r) ∧ pick ok key f r i = i) ∨
      (¬(ok (f i) = true ∧ key (f i) < key (f r)) ∧ pick ok key f r i = r) := by
  unfold pick
  split
  · rename_i h
    exact Or.inl ⟨h.1, h.2, rfl⟩
  · rename_i h
    exact Or.inr ⟨h, rfl⟩

/-- The scan returns its start or an `ok` index below `n`. -/
theorem scan_cases (n s : Nat) :
    scan ok key f n s = s ∨ (scan ok key f n s < n ∧ ok (f (scan ok key f n s)) = true) := by
  induction n with
  | zero => exact Or.inl rfl
  | succ n ih =>
    rw [scan_succ ok key f]
    rcases pick_cases ok key f (scan ok key f n s) n with
      ⟨hok, -, he⟩ | ⟨-, he⟩
    · rw [he]; exact Or.inr ⟨Nat.lt_succ_self n, hok⟩
    · rw [he]
      rcases ih with h | ⟨hlt, hok⟩
      · exact Or.inl h
      · exact Or.inr ⟨Nat.lt_succ_of_lt hlt, hok⟩

private theorem key_pick_le (r i : Nat) : key (f (pick ok key f r i)) ≤ key (f r) := by
  rcases pick_cases ok key f r i with ⟨-, hlt, he⟩ | ⟨-, he⟩
  · rw [he]; exact le_of_lt hlt
  · rw [he]

/-- The result's key is no larger than that of any `ok` entry scanned. -/
theorem scan_le (n s : Nat) : ∀ i < n, ok (f i) = true → key (f (scan ok key f n s)) ≤ key (f i) := by
  induction n with
  | zero => intro i hi; exact absurd hi (Nat.not_lt_zero i)
  | succ n ih =>
    intro i hi hok
    rw [scan_succ ok key f]
    rcases Nat.lt_succ_iff_lt_or_eq.1 hi with hi | hi
    · exact le_trans (key_pick_le ok key f _ _) (ih i hi hok)
    · rw [hi] at hok ⊢
      rcases pick_cases ok key f (scan ok key f n s) n with
        ⟨-, -, he⟩ | ⟨hn, he⟩
      · rw [he]
      · rw [he]; exact not_lt.1 fun h => hn ⟨hok, h⟩

/-- Among the `ok` entries with the smallest key, the scan returns the first, unless it kept its start. -/
theorem scan_first (n s : Nat) : ∀ i < n, ok (f i) = true →
    key (f i) = key (f (scan ok key f n s)) → scan ok key f n s = s ∨ scan ok key f n s ≤ i := by
  induction n with
  | zero => intro i hi; exact absurd hi (Nat.not_lt_zero i)
  | succ n ih =>
    intro i hi hok heq
    rw [scan_succ ok key f] at heq ⊢
    rcases pick_cases ok key f (scan ok key f n s) n with
      ⟨-, hlt, he⟩ | ⟨-, he⟩
    · rw [he] at heq ⊢
      rcases Nat.lt_succ_iff_lt_or_eq.1 hi with hi | hi
      · -- an earlier `ok` entry cannot share the new, strictly smaller key
        have := scan_le ok key f n s i hi hok
        exact absurd (heq ▸ hlt) (not_lt.2 this)
      · exact Or.inr (Nat.le_of_eq hi.symm)
    · rw [he] at heq ⊢
      rcases Nat.lt_succ_iff_lt_or_eq.1 hi with hi | hi
      · exact ih i hi hok heq
      · rcases scan_cases ok key f n s with h | ⟨hlt, -⟩
        · exact Or.inl h
        · exact Or.inr (Nat.le_of_lt (hi ▸ hlt))

end FirstMin
