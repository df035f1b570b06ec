import Mathlib.Data.Nat.ModEq
import Mathlib.Logic.Function.Basic

/-!
# Ring buffers over free-running counters

A ring buffer of `N` cells read and written through counters kept modulo `M`, where `N` divides `M` (in C, `uint`
counters and a buffer whose size divides `2^32`): the element at counter `x` sits in cell `x % N`.  `dist M a b`
is how far counter `b` is ahead of counter `a`; `view N cells r d` lists the `d` elements from counter `r` on.

Storing at the counter `d` ahead of `r` appends to the view while `d < N` (`view_push`), taking the element at `r`
pops its head (`view_pop`), and reducing a counter modulo `M` changes nothing (`view_mod`).  A counter that moves
one step modulo `M` moves the distances by one (`dist_succ_right`, `dist_succ_left`, `dist_pred_right`), and the
tests a C program writes on the counters, `a == b` and `b == a + N`, read as tests on the distance
(`dist_eq_zero_iff`, `add_mod_eq_iff`).
-/

namespace Ring

/-- How far counter `b` is ahead of counter `a`, counting modulo `M`. -/
def dist (M a b : Nat) : Nat := (b + M - a) % M

section Dist

variable {M a b c : Nat}

/-- The distance without the modulus. -/
theorem dist_eq (ha : a < M) (hb : b < M) : dist M a b = if a ≤ b then b - a else b + M - a := by
  unfold dist
  split
  · rename_i h
    rw [show b + M - a = b - a + M by omega, Nat.add_mod_right, Nat.mod_eq_of_lt (by omega)]
  · exact Nat.mod_eq_of_lt (by omega)

/-- One step of a counter modulo `M`. -/
theorem succ_mod (hb : b < M) : (b + 1) % M = if b + 1 < M then b + 1 else 0 := by
  split
  · exact Nat.mod_eq_of_lt ‹_›
  · rw [show b + 1 = M by omega, Nat.mod_self]

/-- One step back of a counter modulo `M`, as `b - 1` computes it in `uint`.  It is irreducible: unfolding it would
make definitional checks count down through the literal `M`. -/
@[irreducible] def pred (M b : Nat) : Nat := (b + M - 1) % M

private theorem pred_eq (hb : b < M) : pred M b = if 0 < b then b - 1 else M - 1 := by
  rw [pred]
  split
  · rw [show b + M - 1 = b - 1 + M by omega, Nat.add_mod_right, Nat.mod_eq_of_lt (by omega)]
  · rw [Nat.mod_eq_of_lt (show b + M - 1 < M by omega)]
    omega

theorem pred_lt (hM : 0 < M) : pred M b < M := by
  rw [pred]
  exact Nat.mod_lt _ hM

theorem dist_eq_zero_iff (ha : a < M) (hb : b < M) : dist M a b = 0 ↔ a = b := by
  rw [dist_eq ha hb]
  split <;> omega

@[simp] theorem dist_self (ha : a < M) : dist M a a = 0 := (dist_eq_zero_iff ha ha).2 rfl

/-- Counter `a` moved ahead by its distance to `b` is `b`. -/
theorem add_dist (ha : a < M) (hb : b < M) : (a + dist M a b) % M = b := by
  rw [dist_eq ha hb]
  split
  · rw [show a + (b - a) = b by omega]
    exact Nat.mod_eq_of_lt hb
  · rw [show a + (b + M - a) = b + M by omega, Nat.add_mod_right]
    exact Nat.mod_eq_of_lt hb

theorem dist_succ_right (ha : a < M) (hb : b < M) (h : dist M a b + 1 < M) :
    dist M a ((b + 1) % M) = dist M a b + 1 := by
  have hb' : (b + 1) % M < M := Nat.mod_lt _ (by omega)
  rw [dist_eq ha hb] at h ⊢
  rw [dist_eq ha hb', succ_mod hb]
  split_ifs at h ⊢ <;> omega

theorem dist_succ_left (ha : a < M) (hb : b < M) (h : a ≠ b) :
    dist M ((a + 1) % M) b = dist M a b - 1 := by
  have ha' : (a + 1) % M < M := Nat.mod_lt _ (by omega)
  rw [dist_eq ha hb, dist_eq ha' hb, succ_mod ha]
  split_ifs <;> omega

theorem dist_pred_right (ha : a < M) (hb : b < M) (h : a ≠ b) :
    dist M a (pred M b) = dist M a b - 1 := by
  have hb' : pred M b < M := pred_lt (by omega)
  rw [dist_eq ha hb, dist_eq ha hb', pred_eq hb]
  split_ifs <;> omega

/-- Distances add up along three counters whose distances stay below `M`. -/
theorem dist_add (ha : a < M) (hb : b < M) (hc : c < M) (h : dist M a b + dist M b c < M) :
    dist M a c = dist M a b + dist M b c := by
  rw [dist_eq ha hb, dist_eq hb hc] at h ⊢
  rw [dist_eq ha hc]
  split_ifs at h ⊢ <;> omega

/-- The full test `b == a + N` of a C program, for `N < M`. -/
theorem add_mod_eq_iff {N : Nat} (ha : a < M) (hb : b < M) (hN : N < M) : (a + N) % M = b ↔ dist M a b = N := by
  have hmod : (a + N) % M = if a + N < M then a + N else a + N - M := by
    split
    · exact Nat.mod_eq_of_lt ‹_›
    · rw [show a + N = a + N - M + M by omega, Nat.add_mod_right, Nat.mod_eq_of_lt (by omega)]
      omega
  rw [hmod, dist_eq ha hb]
  split_ifs <;> omega

/-- A counter moved ahead by `t < M` is `t` ahead. -/
theorem dist_add_mod {t : Nat} (ha : a < M) (ht : t < M) : dist M a ((a + t) % M) = t :=
  (add_mod_eq_iff ha (Nat.mod_lt _ (by omega)) ht).1 rfl

/-- A step back undoes a step ahead. -/
theorem pred_succ (ha : a < M) : pred M ((a + 1) % M) = a := by
  rw [pred_eq (Nat.mod_lt _ (by omega)), succ_mod ha]
  split_ifs <;> omega

end Dist

/-- The `d` elements from counter `r` on, read off the cells. -/
def view {α : Type} (N : Nat) (cells : Nat → α) (r d : Nat) : List α :=
  (List.range d).map fun k => cells ((r + k) % N)

section View

variable {α : Type} {N : Nat} {cells : Nat → α} {r d : Nat}

@[simp] theorem view_zero : view N cells r 0 = [] := rfl

@[simp] theorem length_view : (view N cells r d).length = d := by simp [view]

private theorem view_succ : view N cells r (d + 1) = view N cells r d ++ [cells ((r + d) % N)] := by
  simp [view, List.range_succ]

/-- The view of `d + d'` elements is the view of `d` followed by the `d'` after them. -/
theorem view_add (d' : Nat) : view N cells r (d + d') = view N cells r d ++ view N cells (r + d) d' := by
  simp only [view, List.range_add, List.map_append, List.map_map]
  congr 1
  refine List.map_congr_left fun k _ => ?_
  simp only [Function.comp_apply, Nat.add_assoc]

theorem view_prefix {d' : Nat} (h : d ≤ d') : view N cells r d <+: view N cells r d' := by
  obtain ⟨j, rfl⟩ := Nat.exists_eq_add_of_le h
  rw [view_add]
  exact List.prefix_append _ _

/-- The cells of the elements before the `d`-th are not the cell of the `d`-th, while `d < N`. -/
theorem cell_ne {k : Nat} (hk : k < d) (hd : d < N) : (r + k) % N ≠ (r + d) % N := by
  intro h
  have hmod : k % N = d % N := Nat.ModEq.add_left_cancel' r h
  rw [Nat.mod_eq_of_lt (by omega), Nat.mod_eq_of_lt hd] at hmod
  omega

/-- A store `d` ahead of the read counter appends to the view, while `d < N`. -/
theorem view_push (hd : d < N) (x : α) :
    view N (Function.update cells ((r + d) % N) x) r (d + 1) = view N cells r d ++ [x] := by
  rw [view_succ, Function.update_self]
  congr 1
  refine List.map_congr_left fun k hk => ?_
  exact Function.update_of_ne (cell_ne (List.mem_range.1 hk) hd) _ _

/-- A store outside the view leaves it. -/
theorem view_update_out {j : Nat} (hj : ∀ k < d, (r + k) % N ≠ j) (x : α) :
    view N (Function.update cells j x) r d = view N cells r d :=
  List.map_congr_left fun k hk => Function.update_of_ne (hj k (List.mem_range.1 hk)) _ _

/-- Taking the element at the read counter pops the head of the view. -/
theorem view_pop (hd : 0 < d) : view N cells r d = cells (r % N) :: view N cells (r + 1) (d - 1) := by
  obtain ⟨d, rfl⟩ : ∃ d', d = d' + 1 := ⟨d - 1, by omega⟩
  simp only [view, List.range_succ_eq_map, List.map_cons, List.map_map, Nat.add_zero, Nat.add_sub_cancel]
  congr 1
  refine List.map_congr_left fun k _ => ?_
  simp only [Function.comp_apply]
  rw [Nat.add_assoc, Nat.add_comm 1 k]

/-- The read counter may be reduced modulo a multiple `M` of `N`. -/
theorem view_mod {M : Nat} (h : N ∣ M) : view N cells (r % M) d = view N cells r d := by
  refine List.map_congr_left fun k _ => ?_
  rw [Nat.add_mod, Nat.mod_mod_of_dvd r h, ← Nat.add_mod]

end View

end Ring
