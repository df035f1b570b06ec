import Mathlib.Tactic.SplitIfs

/-!
# The tokens of `sh`: `gettoken` and `peek` of `sh.c`

The command line is the list of its characters, `es` its length; reading at `es` or past it gives the NUL that
ends the string.  `gettoken` skips whitespace, reads one token (a symbol, `>>`, or a word, the longest run of
characters that are neither whitespace nor symbols) and the whitespace after it; `peek` skips whitespace and looks
at the next character.

`tokens str p` is the token sequence from `p`, what successive calls of `gettoken` return.  Every position between
two tokens has the same sequence (`tokens_skipWs`), `gettoken` takes its head (`gettoken_of_tokens_cons`), and
`peek` of a set of symbols looks at the symbol of its head (`peek_fst`).  A word token covers characters that are
neither whitespace, symbols nor NUL, and the character after it is not one of those (`WordAt`).
-/

namespace Xv6.Sh

/-- `whitespace` of `sh.c`: `" \t\r\n\v"`. -/
def whitespace : List Char := [' ', '\t', '\r', '\n', '\x0b']

/-- `symbols` of `sh.c`: `"<|>&;()"`. -/
def symbols : List Char := ['<', '|', '>', '&', ';', '(', ')']

/-- `strchr(t, c) != 0`: `c` is a character of `t`, or the NUL that ends it. -/
def strchr (t : List Char) (c : Char) : Bool := c == '\x00' || t.contains c

/-- `*s` at position `i`: the character there, and the NUL from the end on. -/
def charAt (str : List Char) (i : Nat) : Char := str.getD i '\x00'

/-- A character a word goes on over. -/
def wordChar (c : Char) : Bool := !strchr whitespace c && !strchr symbols c

/-- `while(s < es && strchr(whitespace, *s)) s++`: past the run of whitespace at `i`. -/
def skipWs (str : List Char) (i : Nat) : Nat := i + ((str.drop i).takeWhile (strchr whitespace)).length

/-- The word loop of `gettoken`, `while(s < es && !strchr(whitespace, *s) && !strchr(symbols, *s)) s++`: past the
run of word characters at `i`. -/
def scanWord (str : List Char) (i : Nat) : Nat := i + ((str.drop i).takeWhile wordChar).length

/-- The `switch` of `gettoken` at the start `s` of a token: what it returns and where the token ends. -/
def scanToken (str : List Char) (s : Nat) : Char × Nat :=
  if charAt str s = '\x00' then ('\x00', s)
  else if charAt str s ∈ ['|', '(', ')', ';', '&', '<'] then (charAt str s, s + 1)
  else if charAt str s = '>' then (if charAt str (s + 1) = '>' then ('+', s + 2) else ('>', s + 1))
  else ('a', scanWord str s)

/-- `gettoken(ps, es, q, eq)`: the token at `ps` (`'a'` for a word, `'+'` for `>>`, `0` at the end), where its text
starts and ends (`*q` and `*eq`), and the position after it and the whitespace that follows (`*ps`). -/
def gettoken (str : List Char) (ps : Nat) : Char × Nat × Nat × Nat :=
  let s := skipWs str ps
  ((scanToken str s).1, s, (scanToken str s).2, skipWs str (scanToken str s).2)

/-- `peek(ps, es, toks)`: whether the next character past whitespace is one of `toks`, and `*ps` moved past the
whitespace. -/
def peek (str : List Char) (ps : Nat) (toks : List Char) : Bool × Nat :=
  (charAt str (skipWs str ps) != '\x00' && strchr toks (charAt str (skipWs str ps)), skipWs str ps)

/-! ### Characters and runs -/

section Runs

variable {str : List Char}

private theorem charAt_of_le {i : Nat} (h : str.length ≤ i) : charAt str i = '\x00' := by
  simp [charAt, List.getD_eq_getElem?_getD, List.getElem?_eq_none h]

theorem charAt_eq_getElem {i : Nat} (h : i < str.length) : charAt str i = str[i] := by
  simp [charAt, List.getD_eq_getElem?_getD, List.getElem?_eq_getElem h]

/-- Inside a string without NUL, every character is not NUL. -/
theorem charAt_ne_nul (hs : '\x00' ∉ str) {i : Nat} (h : i < str.length) : charAt str i ≠ '\x00' := by
  rw [charAt_eq_getElem h]
  intro heq
  exact hs (heq ▸ List.getElem_mem h)

private theorem lt_of_charAt_ne_nul {i : Nat} (h : charAt str i ≠ '\x00') : i < str.length :=
  Nat.lt_of_not_le fun hle => h (charAt_of_le hle)

/-- The characters of a run of `str.drop i` on which `f` holds. -/
theorem takeWhile_drop_spec (f : Char → Bool) (i : Nat) :
    i + ((str.drop i).takeWhile f).length ≤ max i str.length ∧
      (∀ j, i ≤ j → j < i + ((str.drop i).takeWhile f).length → f (charAt str j) = true) ∧
      (i + ((str.drop i).takeWhile f).length < str.length →
        f (charAt str (i + ((str.drop i).takeWhile f).length)) = false) := by
  induction h : str.length - i generalizing i with
  | zero =>
    have hd : str.drop i = [] := List.drop_eq_nil_of_le (by omega)
    rw [hd, List.takeWhile_nil, List.length_nil, Nat.add_zero]
    exact ⟨by omega, fun j hj₁ hj₂ => by omega, fun hlt => by omega⟩
  | succ n ih =>
    have hi : i < str.length := by omega
    have hd : str.drop i = str[i] :: str.drop (i + 1) := List.drop_eq_getElem_cons hi
    rw [hd]
    by_cases hf : f str[i] = true
    · -- the run goes on from `i + 1`
      rw [List.takeWhile_cons_of_pos hf, List.length_cons]
      obtain ⟨h₁, h₂, h₃⟩ := ih (i + 1) (by omega)
      have e : i + (((str.drop (i + 1)).takeWhile f).length + 1) =
          i + 1 + ((str.drop (i + 1)).takeWhile f).length := by
        omega
      rw [e]
      refine ⟨by omega, fun j hj₁ hj₂ => ?_, h₃⟩
      by_cases hj : j = i
      · subst hj
        rw [charAt_eq_getElem hi]
        exact hf
      · exact h₂ j (by omega) (by omega)
    · rw [List.takeWhile_cons_of_neg hf]
      refine ⟨by simp only [List.length_nil, Nat.add_zero]; omega, fun j hj₁ hj₂ => by simp at hj₂; omega, fun _ => ?_⟩
      simp only [List.length_nil, Nat.add_zero, charAt_eq_getElem hi]
      simpa using hf

private theorem le_skipWs (i : Nat) : i ≤ skipWs str i := Nat.le_add_right _ _

private theorem skipWs_le (i : Nat) : skipWs str i ≤ max i str.length := (takeWhile_drop_spec _ i).1

/-- At the end of a run of whitespace, the character is not whitespace, or it is past the end. -/
theorem skipWs_stop (i : Nat) :
    str.length ≤ skipWs str i ∨ strchr whitespace (charAt str (skipWs str i)) = false := by
  by_cases h : skipWs str i < str.length
  · exact .inr ((takeWhile_drop_spec _ i).2.2 h)
  · exact .inl (by omega)

/-- Skipping whitespace twice is skipping it once. -/
theorem skipWs_skipWs (i : Nat) : skipWs str (skipWs str i) = skipWs str i := by
  have e : skipWs str (skipWs str i) =
      skipWs str i + ((str.drop (skipWs str i)).takeWhile (strchr whitespace)).length := rfl
  rcases @skipWs_stop str i with h | h
  · rw [e, List.drop_eq_nil_of_le h]
    rfl
  · have hlt : skipWs str i < str.length := Nat.lt_of_not_le fun hle => by
      rw [charAt_of_le hle] at h
      simp [strchr] at h
    rw [charAt_eq_getElem hlt] at h
    rw [e, List.drop_eq_getElem_cons hlt, List.takeWhile_cons_of_neg (by simp [h])]
    rfl

private theorem scanWord_le (i : Nat) : scanWord str i ≤ max i str.length := (takeWhile_drop_spec _ i).1

private theorem scanWord_word (i : Nat) {j : Nat} (h₁ : i ≤ j) (h₂ : j < scanWord str i) : wordChar (charAt str j) = true :=
  (takeWhile_drop_spec _ i).2.1 j h₁ h₂

private theorem scanWord_stop (i : Nat) (h : scanWord str i < str.length) : wordChar (charAt str (scanWord str i)) = false :=
  (takeWhile_drop_spec _ i).2.2 h

/-- A word character starts a run of at least one. -/
theorem lt_scanWord {i : Nat} (hi : i < str.length) (h : wordChar (charAt str i) = true) : i < scanWord str i := by
  have hd : str.drop i = str[i] :: str.drop (i + 1) := List.drop_eq_getElem_cons hi
  rw [charAt_eq_getElem hi] at h
  unfold scanWord
  rw [hd, List.takeWhile_cons_of_pos h, List.length_cons]
  omega

end Runs

/-! ### One token -/

/-- A token as `gettoken` returns it: its kind, and where its text starts and ends. -/
structure Token where
  kind : Char
  q : Nat
  eq : Nat
  deriving DecidableEq, Repr

/-- The character `peek` sees at a token: `>` for `>>`, and `'a'`, which is no symbol, for a word. -/
def Token.sym (t : Token) : Char := if t.kind = '+' then '>' else t.kind

/-- The text `[q, eq)` of a word: characters that are neither whitespace, symbols nor NUL, up to the end of the
string or a character that is one of those. -/
structure WordAt (str : List Char) (q eq : Nat) : Prop where
  lt : q < eq
  le : eq ≤ str.length
  chars : ∀ i, q ≤ i → i < eq → wordChar (charAt str i) = true
  stop : eq < str.length → wordChar (charAt str eq) = false

section Gettoken

variable {str : List Char}

/-- The `switch` of `gettoken`: the end, a one-character symbol, `>` or `>>`, or a word. -/
theorem scanToken_cases (s : Nat) :
    (charAt str s = '\x00' ∧ scanToken str s = ('\x00', s)) ∨
      (charAt str s ∈ ['|', '(', ')', ';', '&', '<'] ∧ scanToken str s = (charAt str s, s + 1)) ∨
      (charAt str s = '>' ∧ charAt str (s + 1) = '>' ∧ scanToken str s = ('+', s + 2)) ∨
      (charAt str s = '>' ∧ charAt str (s + 1) ≠ '>' ∧ scanToken str s = ('>', s + 1)) ∨
      (charAt str s ≠ '\x00' ∧ charAt str s ∉ symbols ∧ scanToken str s = ('a', scanWord str s)) := by
  unfold scanToken
  by_cases h0 : charAt str s = '\x00'
  · exact .inl ⟨h0, if_pos h0⟩
  rw [if_neg h0]
  by_cases h1 : charAt str s ∈ ['|', '(', ')', ';', '&', '<']
  · exact .inr (.inl ⟨h1, if_pos h1⟩)
  rw [if_neg h1]
  by_cases h2 : charAt str s = '>'
  · rw [if_pos h2]
    by_cases h3 : charAt str (s + 1) = '>'
    · exact .inr (.inr (.inl ⟨h2, h3, if_pos h3⟩))
    · exact .inr (.inr (.inr (.inl ⟨h2, h3, if_neg h3⟩)))
  · rw [if_neg h2]
    -- neither a symbol of the first group nor `>`: no symbol at all
    refine .inr (.inr (.inr (.inr ⟨h0, fun hs => ?_, rfl⟩)))
    simp only [symbols, List.mem_cons, List.not_mem_nil, or_false] at hs
    rcases hs with h | h | h | h | h | h | h <;> rw [h] at h1 h2 <;> simp at h1 h2

/-- At the start of a token `gettoken` reads at least one character of the string. -/
theorem scanToken_advance {s : Nat} (hs : str.length ≤ s ∨ strchr whitespace (charAt str s) = false)
    (h : (scanToken str s).1 ≠ '\x00') : s < (scanToken str s).2 ∧ (scanToken str s).2 ≤ str.length := by
  rcases @scanToken_cases str s with ⟨h0, e⟩ | ⟨h1, e⟩ | ⟨h2, h3, e⟩ | ⟨h2, -, e⟩ | ⟨h0, hsym, e⟩
  · rw [e] at h
    exact absurd rfl h
  · have := @lt_of_charAt_ne_nul str s (by simp at h1; rcases h1 with h | h | h | h | h | h <;> rw [h] <;> decide)
    rw [e]
    exact ⟨by omega, by omega⟩
  · have := @lt_of_charAt_ne_nul str (s + 1) (by rw [h3]; decide)
    rw [e]
    exact ⟨by omega, by omega⟩
  · have := @lt_of_charAt_ne_nul str s (by rw [h2]; decide)
    rw [e]
    exact ⟨by omega, by omega⟩
  · -- a word: its first character is no whitespace, no symbol and no NUL
    have hlt := lt_of_charAt_ne_nul h0
    have hws : strchr whitespace (charAt str s) = false := by
      rcases hs with hs | hs
      · omega
      · exact hs
    have hw : wordChar (charAt str s) = true := by
      simp only [wordChar, hws, Bool.not_false, Bool.true_and, Bool.not_eq_eq_eq_not, Bool.not_true]
      simp [strchr, h0, hsym]
    rw [e]
    exact ⟨lt_scanWord hlt hw, by have := @scanWord_le str s; omega⟩

private theorem scanToken_of_nul {s : Nat} (h : charAt str s = '\x00') : scanToken str s = ('\x00', s) := if_pos h

/-- `gettoken` returns `0` exactly at the end of the string. -/
theorem scanToken_fst_eq_nul (s : Nat) : (scanToken str s).1 = '\x00' ↔ charAt str s = '\x00' := by
  unfold scanToken
  split_ifs <;> simp_all

/-- A token read from `p` ends after `p`, inside the string. -/
theorem gettoken_advance {p : Nat} (h : (gettoken str p).1 ≠ '\x00') :
    p < str.length ∧ p < (gettoken str p).2.2.2 := by
  obtain ⟨h₁, h₂⟩ := scanToken_advance (skipWs_stop p) h
  have h₃ := @le_skipWs str p
  have h₄ := @le_skipWs str (scanToken str (skipWs str p)).2
  exact ⟨by omega, by simp only [gettoken]; omega⟩

/-- `gettoken` from a position inside the string leaves a position inside it. -/
theorem gettoken_le {p : Nat} (hp : p ≤ str.length) : (gettoken str p).2.2.2 ≤ str.length := by
  have hs := @skipWs_le str p
  by_cases h : (gettoken str p).1 = '\x00'
  · -- at the end `gettoken` reads nothing
    have e : (scanToken str (skipWs str p)).2 = skipWs str p := by
      rw [scanToken_of_nul ((scanToken_fst_eq_nul _).1 h)]
    simp only [gettoken, e, skipWs_skipWs]
    omega
  · have h₂ := (scanToken_advance (skipWs_stop p) h).2
    have := @skipWs_le str (scanToken str (skipWs str p)).2
    simp only [gettoken]
    omega

private theorem gettoken_skipWs (p : Nat) : gettoken str (skipWs str p) = gettoken str p := by
  simp only [gettoken, skipWs_skipWs]

end Gettoken

/-! ### The token sequence -/

/-- The tokens from position `p` on, as successive calls of `gettoken` return them. -/
def tokens (str : List Char) (p : Nat) : List Token :=
  if _h : (gettoken str p).1 = '\x00' then []
  else ⟨(gettoken str p).1, (gettoken str p).2.1, (gettoken str p).2.2.1⟩ :: tokens str (gettoken str p).2.2.2
termination_by str.length - p
decreasing_by
  have := gettoken_advance _h
  omega

section Tokens

variable {str : List Char}

/-- The recursion of `tokens` as one equation, which the lemmas below rewrite with. -/
theorem tokens_unfold (str : List Char) (p : Nat) : tokens str p =
    if _h : (gettoken str p).1 = '\x00' then []
    else ⟨(gettoken str p).1, (gettoken str p).2.1, (gettoken str p).2.2.1⟩ :: tokens str (gettoken str p).2.2.2 :=
  tokens.eq_1 str p

private theorem tokens_cons {p : Nat} (h : (gettoken str p).1 ≠ '\x00') :
    tokens str p = ⟨(gettoken str p).1, (gettoken str p).2.1, (gettoken str p).2.2.1⟩ ::
      tokens str (gettoken str p).2.2.2 := by
  rw [tokens_unfold, dif_neg h]

private theorem tokens_skipWs (p : Nat) : tokens str (skipWs str p) = tokens str p := by
  rw [tokens_unfold str (skipWs str p), tokens_unfold str p, gettoken_skipWs]

private theorem gettoken_of_tokens_nil {p : Nat} (h : tokens str p = []) : (gettoken str p).1 = '\x00' := by
  by_cases hk : (gettoken str p).1 = '\x00'
  · exact hk
  · rw [tokens_cons hk] at h
    cases h

private theorem tokens_eq_nil_iff {p : Nat} : tokens str p = [] ↔ (gettoken str p).1 = '\x00' := by
  refine ⟨gettoken_of_tokens_nil, fun hk => ?_⟩
  rw [tokens_unfold, dif_pos hk]

/-- Induction over the token sequence: what holds where no token is left, and passes from the position after a
token to the position before it, holds everywhere. -/
theorem tokens_induct (str : List Char) {P : Nat → Prop} (hnil : ∀ p, tokens str p = [] → P p)
    (hcons : ∀ p, (gettoken str p).1 ≠ '\x00' → P (gettoken str p).2.2.2 → P p) (p : Nat) : P p := by
  -- each token moves the position towards the end of the string
  induction hn : str.length - p using Nat.strongRecOn generalizing p with
  | _ n ih =>
  subst hn
  by_cases hk : (gettoken str p).1 = '\x00'
  · exact hnil p (tokens_eq_nil_iff.2 hk)
  · have := gettoken_advance hk
    exact hcons p hk (ih _ (by omega) _ rfl)

/-- Where no token is left, `gettoken` stays where no token is left. -/
theorem tokens_gettoken_of_nil {p : Nat} (h : tokens str p = []) : tokens str (gettoken str p).2.2.2 = [] := by
  have e : (scanToken str (skipWs str p)).2 = skipWs str p := by
    rw [scanToken_of_nul ((scanToken_fst_eq_nul _).1 (gettoken_of_tokens_nil h))]
  simp only [gettoken, e, skipWs_skipWs, tokens_skipWs]
  exact h

theorem tokens_peek (p : Nat) (toks : List Char) : tokens str (peek str p toks).2 = tokens str p :=
  tokens_skipWs p

private theorem peek_le {p : Nat} (hp : p ≤ str.length) (toks : List Char) : (peek str p toks).2 ≤ str.length := by
  have := @skipWs_le str p
  simp only [peek]
  omega

/-- The kind of the first token, `0` where none is left: what `gettoken` returns. -/
def headKind : List Token → Char
  | [] => '\x00'
  | t :: _ => t.kind

/-- `gettoken` takes the head of the token sequence. -/
theorem gettoken_of_tokens_cons {p : Nat} {t : Token} {ts : List Token} (h : tokens str p = t :: ts) :
    (gettoken str p).1 = t.kind ∧ (gettoken str p).2.1 = t.q ∧ (gettoken str p).2.2.1 = t.eq ∧
      tokens str (gettoken str p).2.2.2 = ts := by
  by_cases hk : (gettoken str p).1 = '\x00'
  · rw [tokens_unfold, dif_pos hk] at h
    cases h
  · rw [tokens_cons hk, List.cons.injEq] at h
    obtain ⟨rfl, rfl⟩ := h
    exact ⟨rfl, rfl, rfl, rfl⟩

theorem kind_ne_nul {p : Nat} {t : Token} (h : t ∈ tokens str p) : t.kind ≠ '\x00' := by
  induction hn : str.length - p using Nat.strongRecOn generalizing p with
  | _ n ih =>
  subst hn
  by_cases hk : (gettoken str p).1 = '\x00'
  · rw [tokens_unfold, dif_pos hk] at h
    cases h
  · rw [tokens_cons hk, List.mem_cons] at h
    rcases h with rfl | h
    · exact hk
    · have := gettoken_advance hk
      exact ih _ (by omega) h rfl

/-- `peek` of a set of symbols sees the symbol of the next token. -/
theorem peek_fst {toks : List Char} (htoks : ∀ c ∈ toks, c ∈ symbols) (p : Nat) :
    (peek str p toks).1 = match tokens str p with
      | [] => false
      | t :: _ => toks.contains t.sym := by
  have hnot : ∀ c, c ∉ symbols → c ∉ toks := fun c hc h => hc (htoks c h)
  cases ht : tokens str p with
  | nil =>
    have h0 := (scanToken_fst_eq_nul _).1 (gettoken_of_tokens_nil ht)
    simp [peek, h0]
  | cons t ts =>
    obtain ⟨hk, -, -, -⟩ := gettoken_of_tokens_cons ht
    have hmem : t ∈ tokens str p := by
      rw [ht]
      exact List.mem_cons_self
    have hne := kind_ne_nul hmem
    simp only [gettoken] at hk
    show (peek str p toks).1 = toks.contains t.sym
    unfold peek Token.sym
    dsimp only
    rcases @scanToken_cases str (skipWs str p) with ⟨h0, e⟩ | ⟨h1, e⟩ | ⟨h2, -, e⟩ | ⟨h2, -, e⟩ | ⟨h0, hsym, e⟩ <;>
      rw [e] at hk <;> dsimp only at hk
    · -- the end has no token
      exact absurd hk.symm hne
    · rw [← hk]
      simp only [List.mem_cons, List.not_mem_nil, or_false] at h1
      rcases h1 with h | h | h | h | h | h <;> simp [h, strchr]
    · rw [← hk]
      simp [h2, strchr]
    · rw [← hk]
      simp [h2, strchr]
    · -- a word: neither its first character nor `'a'` is a symbol
      rw [← hk]
      have ha : ('a' : Char) ∉ symbols := by decide
      simp [strchr, hnot _ hsym, hnot _ ha]

/-- A word token covers a word of the string. -/
theorem wordAt_of_mem {p : Nat} {t : Token} (h : t ∈ tokens str p) (hk : t.kind = 'a') : WordAt str t.q t.eq := by
  induction hn : str.length - p using Nat.strongRecOn generalizing p with
  | _ n ih =>
  subst hn
  by_cases hg : (gettoken str p).1 = '\x00'
  · rw [tokens_unfold, dif_pos hg] at h
    cases h
  · rw [tokens_cons hg, List.mem_cons] at h
    rcases h with rfl | h
    · -- the head: `gettoken` read a word from `skipWs str p` to `scanWord`
      simp only [gettoken] at hk ⊢
      rcases @scanToken_cases str (skipWs str p) with ⟨-, e⟩ | ⟨h1, e⟩ | ⟨-, -, e⟩ | ⟨-, -, e⟩ | ⟨-, -, e⟩ <;>
        rw [e] at hk ⊢ <;> dsimp only at hk
      · exact absurd hk (by decide)
      · simp only [List.mem_cons, List.not_mem_nil, or_false] at h1
        rcases h1 with h | h | h | h | h | h <;> rw [h] at hk <;> exact absurd hk (by decide)
      · exact absurd hk (by decide)
      · exact absurd hk (by decide)
      · have hadv := scanToken_advance (skipWs_stop p) hg
        rw [e] at hadv
        exact ⟨hadv.1, hadv.2, fun i h₁ h₂ => scanWord_word _ h₁ h₂, scanWord_stop _⟩
    · have := gettoken_advance hg
      exact ih _ (by omega) h rfl

/-- Every token from `p` on starts at `p` or later. -/
theorem le_q_of_mem (p : Nat) : ∀ t ∈ tokens str p, p ≤ t.q := by
  induction p using tokens_induct str with
  | hnil p h => simp [h]
  | hcons p hk ih =>
    rw [tokens_cons hk]
    intro t ht
    rcases List.mem_cons.1 ht with rfl | ht
    · exact le_skipWs p
    · have := ih t ht
      have := gettoken_advance hk
      omega

/-- A token's text is not empty. -/
theorem q_lt_eq_of_mem (p : Nat) : ∀ t ∈ tokens str p, t.q < t.eq := by
  induction p using tokens_induct str with
  | hnil p h => simp [h]
  | hcons p hk ih =>
    rw [tokens_cons hk]
    intro t ht
    rcases List.mem_cons.1 ht with rfl | ht
    · exact (scanToken_advance (skipWs_stop p) hk).1
    · exact ih t ht

/-- The tokens come in order: each one ends before the next one starts. -/
theorem tokens_pairwise (p : Nat) : (tokens str p).Pairwise (fun t t' => t.eq ≤ t'.q) := by
  induction p using tokens_induct str with
  | hnil p h => simp [h]
  | hcons p hk ih =>
    rw [tokens_cons hk, List.pairwise_cons]
    refine ⟨fun t ht => ?_, ih⟩
    -- the next token starts after the whitespace that follows this one
    have h₁ := le_q_of_mem _ t ht
    have h₂ := @le_skipWs str (scanToken str (skipWs str p)).2
    simp only [gettoken] at h₁ ⊢
    omega

/-- Each token takes at least one character. -/
theorem tokens_length_le (p : Nat) : (tokens str p).length ≤ str.length - p := by
  induction p using tokens_induct str with
  | hnil p h => simp [h]
  | hcons p hk ih =>
    rw [tokens_cons hk, List.length_cons]
    have := gettoken_advance hk
    omega

/-- No token is left at the end of the string. -/
theorem tokens_length : tokens str str.length = [] := by
  rw [tokens_eq_nil_iff, gettoken, scanToken_fst_eq_nul]
  exact charAt_of_le (le_skipWs _)

/-- In a string without NUL, no token is left exactly where whitespace runs to the end. -/
theorem tokens_eq_nil_iff_skipWs (hs : '\x00' ∉ str) {p : Nat} (hp : p ≤ str.length) :
    tokens str p = [] ↔ skipWs str p = str.length := by
  have hle : skipWs str p ≤ str.length := by
    have := @skipWs_le str p
    omega
  rw [tokens_eq_nil_iff, gettoken, scanToken_fst_eq_nul]
  constructor
  · intro h
    exact Nat.le_antisymm hle (Nat.le_of_not_lt fun hlt => charAt_ne_nul hs hlt h)
  · intro h
    exact charAt_of_le (Nat.le_of_eq h.symm)

theorem wordChar_ne_nul {c : Char} (h : wordChar c = true) : c ≠ '\x00' := by
  rintro rfl
  simp [wordChar, strchr] at h

/-- The end of a word is never inside a word: ending one word with a NUL cuts no word short. -/
theorem not_end_mem_word (p : Nat) : ∀ t ∈ tokens str p, ∀ t' ∈ tokens str p, t.kind = 'a' → t'.kind = 'a' →
    ¬(t.q ≤ t'.eq ∧ t'.eq < t.eq) := by
  induction p using tokens_induct str with
  | hnil p h => simp [h]
  | hcons p hk ih =>
    have hmem : ∀ t ∈ tokens str (gettoken str p).2.2.2, t ∈ tokens str p := fun t ht => by
      rw [tokens_cons hk]
      exact List.mem_cons_of_mem _ ht
    -- every later token starts after this one ends
    have hlater : ∀ t ∈ tokens str (gettoken str p).2.2.2, (gettoken str p).2.2.1 ≤ t.q := by
      have hpw := @tokens_pairwise str p
      rw [tokens_cons hk, List.pairwise_cons] at hpw
      exact hpw.1
    have hhead : (⟨(gettoken str p).1, (gettoken str p).2.1, (gettoken str p).2.2.1⟩ : Token) ∈ tokens str p := by
      rw [tokens_cons hk]
      exact List.mem_cons_self
    intro t ht t' ht' hw hw'
    rw [tokens_cons hk] at ht ht'
    rcases List.mem_cons.1 ht with rfl | ht <;> rcases List.mem_cons.1 ht' with rfl | ht'
    · exact fun h => Nat.lt_irrefl _ h.2
    · have := hlater t' ht'
      have := q_lt_eq_of_mem _ t' ht'
      dsimp only
      omega
    · -- this word ends where the later word `t` would start: the character there ends a word and starts one
      rintro ⟨h₁, h₂⟩
      have e : (gettoken str p).2.2.1 = t.q := Nat.le_antisymm (hlater t ht) h₁
      have hw₁ := wordAt_of_mem (hmem t ht) hw
      have hw₂ := wordAt_of_mem hhead hw'
      have hc := hw₁.chars t.q (Nat.le_refl _) hw₁.lt
      have hstop := hw₂.stop (by have := hw₁.le; dsimp only at e ⊢; omega)
      dsimp only at hstop
      rw [e, hc] at hstop
      cases hstop
    · exact ih t ht t' ht' hw hw'

/-- `gettoken` returns the kind of the first token. -/
theorem gettoken_fst (p : Nat) : (gettoken str p).1 = headKind (tokens str p) := by
  cases h : tokens str p with
  | nil => exact gettoken_of_tokens_nil h
  | cons t ts => exact (gettoken_of_tokens_cons h).1

/-- After `gettoken` the rest of the tokens is left. -/
theorem tokens_gettoken (p : Nat) : tokens str (gettoken str p).2.2.2 = (tokens str p).tail := by
  cases h : tokens str p with
  | nil => exact tokens_gettoken_of_nil h
  | cons t ts => exact (gettoken_of_tokens_cons h).2.2.2

/-- Where the tokens are `t :: ts`, `gettoken` returns `t` and moves to where `ts` is left. -/
theorem gettoken_eq_of_cons {p : Nat} {t : Token} {ts : List Token} (h : tokens str p = t :: ts) :
    ∃ p', gettoken str p = (t.kind, t.q, t.eq, p') ∧ tokens str p' = ts ∧ (p ≤ str.length → p' ≤ str.length) := by
  obtain ⟨h₁, h₂, h₃, h₄⟩ := gettoken_of_tokens_cons h
  exact ⟨(gettoken str p).2.2.2, by rw [← h₁, ← h₂, ← h₃], h₄, gettoken_le⟩

/-- `peek` of symbols other than `>` sees whether the first token is one of them, and moves to where the same
tokens are left. -/
theorem peek_eq {toks : List Char} (hsym : (toks.all fun c => symbols.contains c && c != '>') = true) (p : Nat) :
    ∃ p', peek str p toks = (decide (headKind (tokens str p) ∈ toks), p') ∧ tokens str p' = tokens str p ∧
      (p ≤ str.length → p' ≤ str.length) := by
  have htoks : ∀ c ∈ toks, c ∈ symbols := fun c hc => by
    have := List.all_eq_true.1 hsym c hc
    simp only [Bool.and_eq_true, List.contains_iff_mem, bne_iff_ne, ne_eq] at this
    exact this.1
  have hgt : '>' ∉ toks := fun hc => by
    have := List.all_eq_true.1 hsym '>' hc
    simp at this
  refine ⟨(peek str p toks).2, ?_, tokens_peek p toks, fun hp => peek_le hp toks⟩
  have hfst : (peek str p toks).1 = decide (headKind (tokens str p) ∈ toks) := by
    rw [peek_fst htoks]
    cases h : tokens str p with
    | nil =>
      -- NUL is no symbol
      have : '\x00' ∉ toks := fun hm => absurd (htoks _ hm) (by decide)
      simp [headKind, this]
    | cons t ts =>
      simp only [headKind, Token.sym]
      split_ifs with hk
      · have : '+' ∉ toks := fun hm => absurd (htoks _ hm) (by decide)
        simp [hk, hgt, this]
      · by_cases hm : t.kind ∈ toks <;> simp [hm]
  rw [← hfst]

/-- `peek(ps, es, "<>")` sees a redirection: `<`, `>` or `>>`. -/
theorem peek_redir_eq (p : Nat) :
    ∃ p', peek str p ['<', '>'] = (decide (headKind (tokens str p) ∈ ['<', '>', '+']), p') ∧
      tokens str p' = tokens str p ∧ (p ≤ str.length → p' ≤ str.length) := by
  refine ⟨(peek str p ['<', '>']).2, ?_, tokens_peek p _, fun hp => peek_le hp _⟩
  have hfst : (peek str p ['<', '>']).1 = decide (headKind (tokens str p) ∈ ['<', '>', '+']) := by
    rw [peek_fst (by simp [symbols])]
    cases h : tokens str p with
    | nil => simp [headKind]
    | cons t ts =>
      simp only [headKind, Token.sym]
      split_ifs with hk <;> simp [hk]
  rw [← hfst]

/-- Only the end has kind `0`. -/
theorem tokens_eq_nil_of_headKind {p : Nat} (h : headKind (tokens str p) = '\x00') : tokens str p = [] := by
  cases e : tokens str p with
  | nil => rfl
  | cons t ts =>
    rw [e] at h
    exact absurd h (kind_ne_nul (e ▸ List.mem_cons_self))

end Tokens

end Xv6.Sh
