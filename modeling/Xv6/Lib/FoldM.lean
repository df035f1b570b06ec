/-!
# Invariants of monadic folds

A loop that may return early is a `List.foldlM` in `Except`, whose error carries the state so far.  A property
that every round keeps holds after the loop: of the state it returns normally and, through a second property, of
what an early return carries.  A relation between the state before the loop and the state during it is the same
rule with the start fixed.

Code written with `do` in `Except` is a chain of binds; `bind_eq_ok` and `bind_eq_error` take such a chain apart
one bind at a time, and `ok_bind` runs one forward.
-/

namespace FoldM

variable {α β ε : Type}

/-- Every round of a loop in `Except` keeps `P` or returns early with something satisfying `Q`; so the loop ends
in `P` or returns early with `Q`. -/
theorem except_inv (P : β → Prop) (Q : ε → Prop) (f : β → α → Except ε β) (l : List α)
    (hok : ∀ b a b', a ∈ l → P b → f b a = .ok b' → P b') (herr : ∀ b a e, a ∈ l → P b → f b a = .error e → Q e)
    {b : β} (hb : P b) : (∀ b', l.foldlM f b = .ok b' → P b') ∧ (∀ e, l.foldlM f b = .error e → Q e) := by
  induction l generalizing b with
  | nil =>
    refine ⟨fun b' h => ?_, fun e h => ?_⟩
    · cases h
      exact hb
    · cases h
  | cons a l ih =>
    have hok' : ∀ b a' b', a' ∈ l → P b → f b a' = .ok b' → P b' :=
      fun b a' b' ha => hok b a' b' (List.mem_cons_of_mem _ ha)
    have herr' : ∀ b a' e, a' ∈ l → P b → f b a' = .error e → Q e :=
      fun b a' e ha => herr b a' e (List.mem_cons_of_mem _ ha)
    rw [List.foldlM_cons]
    -- one round, then the rest of the loop from what it returned
    cases hc : f b a with
    | error e =>
      refine ⟨fun b' h => ?_, fun e' h => ?_⟩
      · cases h
      · cases h
        exact herr b a e List.mem_cons_self hb hc
    | ok c => exact ih hok' herr' (hok b a c List.mem_cons_self hb hc)

/-! ### Binds in `Except` -/

@[simp] theorem ok_bind (a : α) (f : α → Except ε β) : (Except.ok a >>= f) = f a := rfl

@[simp] theorem error_bind (e : ε) (f : α → Except ε β) : (Except.error e >>= f : Except ε β) = .error e := rfl

theorem bind_eq_ok {x : Except ε α} {f : α → Except ε β} {b : β} :
    x >>= f = .ok b ↔ ∃ a, x = .ok a ∧ f a = .ok b := by
  cases x <;> simp

theorem bind_eq_error {x : Except ε α} {f : α → Except ε β} {e : ε} :
    x >>= f = .error e ↔ x = .error e ∨ ∃ a, x = .ok a ∧ f a = .error e := by
  cases x <;> simp

end FoldM
