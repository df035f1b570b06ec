import Mathlib.Logic.Function.Basic

/-!
# Sequential writes and crashes

A program that only writes, one cell at a time, to a memory `ι → α` (a disk: block number to contents) is a list
of actions; each action looks at the current memory and names the cell it writes and the value.  A crash after
the first `k` writes leaves `exec (l.take k) m`.  This file gives `exec` its algebra (`exec_append`,
`exec_take_append`), and the rule that a property kept by every action holds after any prefix (`exec_take_inv`).
-/

namespace CrashWrites

variable {ι α : Type} [DecidableEq ι]

/-- One write: from the current memory, the cell written and its new value. -/
abbrev Act (ι α : Type) := (ι → α) → ι × α

/-- Perform the action `a` on `m`. -/
def apply (a : Act ι α) (m : ι → α) : ι → α := Function.update m (a m).1 (a m).2

/-- Perform the writes in order. -/
def exec : List (Act ι α) → (ι → α) → ι → α
  | [], m => m
  | a :: as, m => exec as (apply a m)

@[simp] theorem exec_nil (m : ι → α) : exec [] m = m := rfl

@[simp] theorem exec_cons (a : Act ι α) (as : List (Act ι α)) (m : ι → α) :
    exec (a :: as) m = exec as (apply a m) := rfl

theorem exec_append (l₁ l₂ : List (Act ι α)) (m : ι → α) : exec (l₁ ++ l₂) m = exec l₂ (exec l₁ m) := by
  induction l₁ generalizing m with
  | nil => rfl
  | cons a l₁ ih => exact ih (apply a m)

theorem exec_concat (l : List (Act ι α)) (a : Act ι α) (m : ι → α) : exec (l ++ [a]) m = apply a (exec l m) := by
  rw [exec_append]; rfl

/-- A crash inside the second half of a program: the first half has run. -/
theorem exec_take_append (l₁ l₂ : List (Act ι α)) (k : Nat) (m : ι → α) :
    exec ((l₁ ++ l₂).take k) m = exec (l₂.take (k - l₁.length)) (exec (l₁.take k) m) := by
  rw [List.take_append, exec_append]

theorem exec_take_append_of_le {l₁ l₂ : List (Act ι α)} {k : Nat} (h : k ≤ l₁.length) (m : ι → α) :
    exec ((l₁ ++ l₂).take k) m = exec (l₁.take k) m := by
  rw [List.take_append_of_le_length h]

theorem exec_take_append_of_ge {l₁ l₂ : List (Act ι α)} {k : Nat} (h : l₁.length ≤ k) (m : ι → α) :
    exec ((l₁ ++ l₂).take k) m = exec (l₂.take (k - l₁.length)) (exec l₁ m) := by
  rw [exec_take_append, List.take_of_length_le h]

/-- A property of the memory that every action keeps holds after every prefix of the program. -/
theorem exec_take_inv {P : (ι → α) → Prop} (l : List (Act ι α)) (hl : ∀ a ∈ l, ∀ m, P m → P (apply a m))
    (k : Nat) {m : ι → α} (hm : P m) : P (exec (l.take k) m) := by
  induction l generalizing k m with
  | nil => simpa using hm
  | cons a l ih =>
    cases k with
    | zero => simpa using hm
    | succ k =>
      rw [List.take_succ_cons, exec_cons]
      exact ih (fun b hb => hl b (List.mem_cons_of_mem a hb)) k (hl a List.mem_cons_self m hm)

/-- A program that writes cell `cell j` for each `j` of `js`, with a value that, while `P` holds, is always the
`target` of that cell.  If every write keeps `P`, the program leaves each cell it writes at its target and the
others as they were, whatever the order and repetitions of the writes. -/
theorem exec_map_eq {β : Type} {P : (ι → α) → Prop} (js : List β) (cell : β → ι) (val : β → (ι → α) → α)
    (target : ι → α) (hP : ∀ j ∈ js, ∀ m, P m → P (Function.update m (cell j) (val j m)))
    (hv : ∀ j ∈ js, ∀ m, P m → val j m = target (cell j)) {m : ι → α} (hm : P m) (c : ι) :
    exec (js.map fun j m => (cell j, val j m)) m c = if c ∈ js.map cell then target c else m c := by
  induction js generalizing m with
  | nil => simp
  | cons j js ih =>
    have hm' := hP j List.mem_cons_self m hm
    rw [List.map_cons, exec_cons]
    refine (ih (fun j' hj' => hP j' (List.mem_cons_of_mem j hj'))
      (fun j' hj' => hv j' (List.mem_cons_of_mem j hj')) hm').trans ?_
    by_cases hc : c = cell j
    · subst hc
      simp [hv j List.mem_cons_self m hm]
    · simp [hc]

end CrashWrites
