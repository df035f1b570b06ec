import Xv6.Lib.ClassLang

/-!
# The pattern matcher of `grep.c`

`match`, `matchhere` and `matchstar`, the matcher of Kernighan and Pike that `grep` runs on each line, over the
characters of the pattern and of the text before their NUL.  `matchstar` is the `do … while` loop over the text
that calls `matchhere` back on the pattern after the star; it takes that call as its argument `mh`, so that
`matchhere` is structurally recursive on the pattern, and every function here terminates on every input.

What they decide.  A pattern is read into atoms (`atoms`) in the order `matchhere` tests it: a character followed
by `*` is a starred atom, a `$` that ends the pattern anchors the end of the text, and every other character is one
atom, `.` standing for any character.  The atoms denote a language (`atomsLang`), and `matchhere re text` holds
exactly when a prefix of `text` is a word of it, all of `text` for a pattern ending in `$` (`matchhere_iff`).
`match` tries every suffix of the text, the empty one included, or only the text itself after a leading `^`
(`match_spec`).
-/

namespace Xv6.Grep

/-- `matchstar(c, re, text)`, with `mh` the `matchhere(re, ·)` of the pattern after the star: try the rest of the
pattern, and while the next character is `c` (any character for `.`), take it and try again. -/
def matchstar (mh : List Char → Bool) (c : Char) : List Char → Bool
  | [] => mh []
  | t :: text => mh (t :: text) || ((t == c || c == '.') && matchstar mh c text)

/-- `matchhere(re, text)`. -/
def matchhere : List Char → List Char → Bool
  | [], _ => true
  | c :: '*' :: re, text => matchstar (matchhere re) c text
  | ['$'], text => text.isEmpty
  | c :: re, t :: text => (c == '.' || c == t) && matchhere re text
  | _ :: _, [] => false

/-- The `do … while(*text++ != '\0')` loop of `match`: `matchhere` at each suffix, the empty one included. -/
def matchLoop (re : List Char) : List Char → Bool
  | [] => matchhere re []
  | t :: text => matchhere re (t :: text) || matchLoop re text

end Xv6.Grep

namespace Xv6

/-- `match(re, text)`. -/
def Grep.match (re text : List Char) : Bool :=
  match re with
  | '^' :: re => Grep.matchhere re text
  | _ => Grep.matchLoop re text

end Xv6

namespace Xv6.Grep

open Computability Language

/-! ### What a pattern denotes -/

/-- An atom of a pattern: one character, or a character under a star. -/
inductive Atom
  | one (c : Char)
  | star (c : Char)
  deriving DecidableEq, Repr

/-- The pattern character `c` matches the text character `t`: `.` matches any. -/
def charOk (c t : Char) : Prop := c = '.' ∨ c = t

/-- The words an atom matches. -/
def Atom.lang : Atom → Language Char
  | .one c => cls (charOk c)
  | .star c => (cls (charOk c))∗

/-- The words a list of atoms matches, one after another. -/
def atomsLang : List Atom → Language Char
  | [] => 1
  | a :: as => a.lang * atomsLang as

/-- The atoms of a pattern, and `true` for a `$` that ends it. -/
def atoms : List Char → List Atom × Bool
  | [] => ([], false)
  | c :: '*' :: re => (.star c :: (atoms re).1, (atoms re).2)
  | ['$'] => ([], true)
  | c :: re => (.one c :: (atoms re).1, (atoms re).2)

/-- What `matchhere re text` decides: a prefix of `text` is matched by the atoms of `re`, and it is all of `text`
when `re` ends in `$`. -/
def Here (re text : List Char) : Prop := PrefixIn (atomsLang (atoms re).1) (atoms re).2 text

private theorem charOk_iff (c t : Char) : (t == c || c == '.') = true ↔ charOk c t := by
  simp only [Bool.or_eq_true, beq_iff_eq, charOk]
  exact ⟨fun h => h.elim (fun h => .inr h.symm) .inl, fun h => h.elim .inr (fun h => .inl h.symm)⟩

/-! ### One atom at a time -/

section Here

variable {c : Char} {re text : List Char}

private theorem here_nil (text : List Char) : Here [] text :=
  ⟨[], text, rfl, (mem_one _).2 rfl, fun h => absurd h Bool.false_ne_true⟩

private theorem here_dollar : Here ['$'] text ↔ text = [] := by
  simp [Here, atoms, atomsLang, prefixIn_one]

/-- A starred atom matches nothing more, or one more character of its class. -/
theorem here_star : Here (c :: '*' :: re) text ↔
    Here re text ∨ ∃ t text', text = t :: text' ∧ charOk c t ∧ Here (c :: '*' :: re) text' := by
  simp only [Here, atoms, atomsLang, Atom.lang]
  exact prefixIn_kstar_cls_mul

/-- A character that is neither followed by `*` nor a final `$` matches one character of the text. -/
theorem here_one (h₁ : ∀ re', re = '*' :: re' → False) (h₂ : c = '$' → re = [] → False) :
    Here (c :: re) text ↔ ∃ t text', text = t :: text' ∧ charOk c t ∧ Here re text' := by
  simp only [Here, atoms.eq_4 c re h₁ h₂, atomsLang, Atom.lang]
  exact prefixIn_cls_mul

end Here

/-! ### The three functions -/

/-- `matchstar` decides the starred atom in front of the pattern that `mh` decides. -/
theorem matchstar_iff {mh : List Char → Bool} {re : List Char} (hmh : ∀ text, mh text = true ↔ Here re text)
    (c : Char) (text : List Char) : matchstar mh c text = true ↔ Here (c :: '*' :: re) text := by
  induction text with
  | nil =>
    rw [matchstar, hmh, here_star]
    simp
  | cons t text ih =>
    rw [matchstar, Bool.or_eq_true, Bool.and_eq_true, hmh, ih, charOk_iff, @here_star c re (t :: text)]
    simp

private theorem matchhere_iff (re text : List Char) : matchhere re text = true ↔ Here re text := by
  -- the induction follows the reading of the pattern, which is the recursion of `matchhere`
  induction re using atoms.induct generalizing text with
  | case1 => simp [matchhere, here_nil]
  | case2 c re ih => rw [matchhere, matchstar_iff ih]
  | case3 => simp [matchhere, here_dollar]
  | case4 c re h₁ h₂ ih =>
    rw [here_one h₁ h₂]
    cases text with
    | nil => simp [matchhere.eq_5 c re h₁ h₂]
    | cons t text =>
      rw [matchhere.eq_4 c re t text h₁ h₂, Bool.and_eq_true, ih]
      simp only [Bool.or_eq_true, beq_iff_eq, List.cons.injEq, charOk]
      constructor
      · rintro ⟨hc, hh⟩
        exact ⟨t, text, ⟨rfl, rfl⟩, hc, hh⟩
      · rintro ⟨t', text', ⟨rfl, rfl⟩, hc, hh⟩
        exact ⟨hc, hh⟩

/-- The `do … while` loop of `match` tries `matchhere` at every suffix of the text. -/
theorem matchLoop_iff (re text : List Char) :
    matchLoop re text = true ↔ ∃ i ≤ text.length, Here re (text.drop i) := by
  induction text with
  | nil => simp [matchLoop, matchhere_iff]
  | cons t text ih =>
    rw [matchLoop, Bool.or_eq_true, matchhere_iff, ih]
    constructor
    · rintro (h | ⟨i, hi, h⟩)
      · exact ⟨0, Nat.zero_le _, h⟩
      · exact ⟨i + 1, by simp; omega, h⟩
    · rintro ⟨i, hi, h⟩
      cases i with
      | zero => exact .inl h
      | succ i => exact .inr ⟨i, by simp at hi; omega, h⟩

/-- What `match` decides: after a leading `^`, a prefix of the text is matched by the rest of the pattern;
otherwise a prefix of some suffix of the text, the empty suffix included, is matched by the whole pattern. -/
theorem match_spec (re text : List Char) :
    Grep.match re text = true ↔
      if re.head? = some '^' then Here re.tail text else ∃ i ≤ text.length, Here re (text.drop i) := by
  cases re with
  | nil => simp [Grep.match, matchLoop_iff]
  | cons c re =>
    by_cases hc : c = '^'
    · subst hc
      simp [Grep.match, matchhere_iff]
    · have hm : Grep.match (c :: re) text = matchLoop (c :: re) text := by
        unfold Grep.match
        split
        · rename_i h
          cases h
          exact absurd rfl hc
        · rfl
      simp [hm, hc, matchLoop_iff]

example : Grep.match "^a*b$".toList "aaab".toList = true ∧ Grep.match "a.c".toList "xxabcx".toList = true ∧
    Grep.match "^b".toList "ab".toList = false := by
  decide

end Xv6.Grep
