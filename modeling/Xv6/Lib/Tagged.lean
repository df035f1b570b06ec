/-!
# Streams of tagged elements

A stream whose elements carry the number of the actor that produced or took each one: `Tagged.part c l` is the part
of actor `c`, in stream order.  Appending to the stream appends to every part (`part_append`), a run of one actor
adds to its own part only (`part_map_self`, `part_map_ne`), and an actor numbered after every tag has no part yet
(`part_of_lt`).
-/

namespace Tagged

variable {α : Type} {c : Nat}

/-- The elements of actor `c`, in order. -/
def part (c : Nat) (l : List (Nat × α)) : List α := (l.filter fun x => x.1 == c).map Prod.snd

@[simp] theorem part_nil : part c ([] : List (Nat × α)) = [] := rfl

@[simp] theorem part_append (l₁ l₂ : List (Nat × α)) : part c (l₁ ++ l₂) = part c l₁ ++ part c l₂ := by
  simp [part]

theorem part_map_self (xs : List α) : part c (xs.map (Prod.mk c)) = xs := by
  induction xs with
  | nil => rfl
  | cons x xs ih => simp_all [part]

theorem part_map_ne {c' : Nat} (hc : c' ≠ c) (xs : List α) : part c' (xs.map (Prod.mk c)) = [] := by
  simp [part, List.filter_map, Function.comp_def, Ne.symm hc]

/-- An actor numbered after every tag has no part yet. -/
theorem part_of_lt {l : List (Nat × α)} (h : ∀ x ∈ l, x.1 < c) : part c l = [] := by
  simp only [part, List.map_eq_nil_iff, List.filter_eq_nil_iff, beq_iff_eq]
  intro x hx hxc
  exact absurd (h x hx) (by omega)

/-- The stream without its tags. -/
theorem map_snd_map (xs : List α) : (xs.map (Prod.mk c)).map Prod.snd = xs := by
  simp [List.map_map, Function.comp_def]

end Tagged
