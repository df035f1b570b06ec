import Mathlib.Computability.Language

/-!
# Languages of letter classes, and prefixes in a language

`Language.cls p` is the language of the one-letter words whose letter satisfies `p`.  A word of
`(cls p)∗ * L` is a word of `L`, or a letter of the class followed by a word of `(cls p)∗ * L`
(`mem_kstar_cls_mul`): the unrolling that a backtracking matcher follows, trying the rest of the pattern first and
otherwise taking one more letter for the star.

`Language.PrefixIn L e w` says that a prefix of `w` is a word of `L`, and the whole of `w` when `e` holds: what a
matcher decides that looks at the beginning of a text, with `e` for an anchor at the end of the text.  The lemmas
below take `PrefixIn` through `1`, `cls p * L` and `(cls p)∗ * L`, one letter of the text at a time.
-/

namespace Language

open Computability

variable {α : Type*} {p : α → Prop} {L : Language α} {w : List α}

/-- The one-letter words whose letter satisfies `p`. -/
def cls (p : α → Prop) : Language α := {w | ∃ a, p a ∧ w = [a]}

private theorem mem_cls_mul : w ∈ cls p * L ↔ ∃ a v, w = a :: v ∧ p a ∧ v ∈ L := by
  rw [mem_mul]
  constructor
  · rintro ⟨_, ⟨a, ha, rfl⟩, v, hv, rfl⟩
    exact ⟨a, v, rfl, ha, hv⟩
  · rintro ⟨a, v, rfl, ha, hv⟩
    exact ⟨[a], ⟨a, ha, rfl⟩, v, hv, rfl⟩

/-- The star of a class, unrolled once: `(cls p)∗ * L = L + cls p * ((cls p)∗ * L)`. -/
theorem mem_kstar_cls_mul : w ∈ (cls p)∗ * L ↔ w ∈ L ∨ ∃ a v, w = a :: v ∧ p a ∧ v ∈ (cls p)∗ * L := by
  have h : (cls p)∗ * L = L + cls p * ((cls p)∗ * L) := by
    rw [← mul_assoc]
    nth_rewrite 1 [← one_add_self_mul_kstar_eq_kstar]
    rw [add_mul, one_mul]
  conv_lhs => rw [h]
  rw [mem_add, mem_cls_mul]

/-- A prefix of `w` is a word of `L`, and it is all of `w` when `e` holds. -/
def PrefixIn (L : Language α) (e : Bool) (w : List α) : Prop := ∃ u r, w = u ++ r ∧ u ∈ L ∧ (e = true → r = [])

variable {e : Bool}

theorem prefixIn_one : PrefixIn 1 e w ↔ (e = true → w = []) := by
  constructor
  · rintro ⟨u, r, rfl, hu, he⟩
    rw [(mem_one u).1 hu, List.nil_append]
    exact he
  · intro he
    exact ⟨[], w, rfl, (mem_one _).2 rfl, he⟩

theorem prefixIn_cls_mul : PrefixIn (cls p * L) e w ↔ ∃ a v, w = a :: v ∧ p a ∧ PrefixIn L e v := by
  constructor
  · rintro ⟨u, r, rfl, hu, he⟩
    obtain ⟨a, v, rfl, ha, hv⟩ := mem_cls_mul.1 hu
    exact ⟨a, v ++ r, rfl, ha, v, r, rfl, hv, he⟩
  · rintro ⟨a, v, rfl, ha, u, r, rfl, hu, he⟩
    exact ⟨a :: u, r, rfl, mem_cls_mul.2 ⟨a, u, rfl, ha, hu⟩, he⟩

/-- A prefix in `(cls p)∗ * L` is a prefix in `L`, or a letter of the class before a prefix in `(cls p)∗ * L`. -/
theorem prefixIn_kstar_cls_mul :
    PrefixIn ((cls p)∗ * L) e w ↔ PrefixIn L e w ∨ ∃ a v, w = a :: v ∧ p a ∧ PrefixIn ((cls p)∗ * L) e v := by
  constructor
  · rintro ⟨u, r, rfl, hu, he⟩
    rcases mem_kstar_cls_mul.1 hu with hu | ⟨a, v, rfl, ha, hv⟩
    · exact .inl ⟨u, r, rfl, hu, he⟩
    · exact .inr ⟨a, v ++ r, rfl, ha, v, r, rfl, hv, he⟩
  · rintro (⟨u, r, rfl, hu, he⟩ | ⟨a, v, rfl, ha, u, r, rfl, hu, he⟩)
    · exact ⟨u, r, rfl, mem_kstar_cls_mul.2 (.inl hu), he⟩
    · exact ⟨a :: u, r, rfl, mem_kstar_cls_mul.2 (.inr ⟨a, u, rfl, ha, hu⟩), he⟩

end Language
