import Mathlib.Tactic.SplitIfs
import Xv6.Lib.FoldM
import Xv6.File.Basic
import Xv6.Sh.Token

/-!
# The parser of `sh`: `parsecmd` and `nulterminate` of `sh.c`

The recursive descent of `sh.c` over the tokens of `Xv6.Sh.Token`: `parseline`, `parsepipe`, `parseexec` and
`parseblock` call each other, `parseredirs` reads redirections, and the `while` loops of `parseline` and `parseexec`
are `backLoop` and `execLoop`.  Each takes the cursor `*ps` as a position and returns the command it built and the
new cursor; a `panic` of `sh.c`, which ends the shell, is `.error (.panic msg)`.  The recursion runs on fuel, whose
end is `.error .fuel`; `parsecmd` gives four units per character and five more, which is always enough.

`parseexec` wraps its `execcmd` in the redirections it reads before it has read the words, which it then writes
through its pointer to the `execcmd`: the model keeps the words apart and puts them into the innermost command at
the end (`Cmd.setArgv`).

The grammar is `Derives`, over token sequences, with the tree each derivation builds:
`line ::= pipe '&'* [';' line]`, `pipe ::= exec ['|' pipe]`, `exec ::= '(' line ')' redirs | redirs (word redirs)*`
and `redirs ::= (('<'|'>'|'>>') word)*`, with fewer than `MAXARGS` words in an `exec`.  Every command the parser
returns is derived (`parse_sound`); every derivation followed by a token that may follow it is what the parser
returns (`parse_complete`); with four units of fuel per token it never runs out (`parse_fuel`).  `nulterminate` then
ends each word of the tree with a NUL and cuts no word short (`cstr_nulterminate`).
-/

namespace Xv6.Sh

/-- `MAXARGS` of `sh.c`. -/
def MAXARGS : Nat := 10

/-- The commands of `sh.c` as the parser builds them: `execcmd`, `redircmd`, `pipecmd`, `listcmd` and `backcmd`.
An `exec` holds its words as the pointers `argv[i]` and `eargv[i]` to the start and the end of their text, a
`redir` its file name as `file` and `efile`. -/
inductive Cmd where
  | exec (argv : List (Nat × Nat))
  | redir (cmd : Cmd) (file efile : Nat) (mode : Int) (fd : Nat)
  | pipe (left right : Cmd)
  | list (left right : Cmd)
  | back (cmd : Cmd)
  deriving DecidableEq, Repr

/-- How a parsing function fails: a `panic` of `sh.c` with its message, or the end of the model's fuel. -/
inductive Err where
  | panic (msg : String)
  | fuel
  deriving DecidableEq, Repr

/-- The `switch(tok)` of `parseredirs`: the `redircmd` around `cmd` for the redirection token `tok`. -/
def redirect (tok : Char) (cmd : Cmd) (q eq : Nat) : Cmd :=
  if tok = '<' then .redir cmd q eq O_RDONLY 0
  else if tok = '>' then .redir cmd q eq (Int.lor O_WRONLY O_CREATE) 1
  else if tok = '+' then .redir cmd q eq (Int.lor O_WRONLY O_CREATE) 1
  else cmd

/-- The words written through the pointer to the `execcmd` that the redirections around it wrap. -/
def Cmd.setArgv (argv : List (Nat × Nat)) : Cmd → Cmd
  | .exec _ => .exec argv
  | .redir cmd file efile mode fd => .redir (cmd.setArgv argv) file efile mode fd
  | cmd => cmd

/-- The `while(peek(ps, es, "&"))` loop of `parseline`: each `&` wraps the command so far in a `backcmd`. -/
def backLoop (str : List Char) : Nat → Cmd → Nat → Except Err (Cmd × Nat)
  | 0, _, _ => .error .fuel
  | f + 1, cmd, ps =>
    if (peek str ps ['&']).1 then backLoop str f (.back cmd) (gettoken str (peek str ps ['&']).2).2.2.2
    else .ok (cmd, (peek str ps ['&']).2)

/-- `parseredirs(cmd, ps, es)`: each redirection and the word after it wrap the command so far. -/
def parseredirs (str : List Char) : Nat → Cmd → Nat → Except Err (Cmd × Nat)
  | 0, _, _ => .error .fuel
  | f + 1, cmd, ps =>
    if (peek str ps ['<', '>']).1 then
      let tok := gettoken str (peek str ps ['<', '>']).2
      let file := gettoken str tok.2.2.2
      if file.1 ≠ 'a' then .error (.panic "missing file for redirection")
      else parseredirs str f (redirect tok.1 cmd file.2.1 file.2.2.1) file.2.2.2
    else .ok (cmd, (peek str ps ['<', '>']).2)

/-- The `while(!peek(ps, es, "|)&;"))` loop of `parseexec`, from the words `argv` read so far and the command `ret`
so far, the `execcmd` in the redirections read so far. -/
def execLoop (str : List Char) : Nat → Cmd → List (Nat × Nat) → Nat → Except Err (Cmd × List (Nat × Nat) × Nat)
  | 0, _, _, _ => .error .fuel
  | f + 1, ret, argv, ps =>
    if (peek str ps ['|', ')', '&', ';']).1 then .ok (ret, argv, (peek str ps ['|', ')', '&', ';']).2)
    else
      let tok := gettoken str (peek str ps ['|', ')', '&', ';']).2
      if tok.1 = '\x00' then .ok (ret, argv, tok.2.2.2)
      else if tok.1 ≠ 'a' then .error (.panic "syntax")
      else if MAXARGS ≤ argv.length + 1 then .error (.panic "too many args")
      else do
        let (ret, ps) ← parseredirs str f ret tok.2.2.2
        execLoop str f ret (argv ++ [(tok.2.1, tok.2.2.1)]) ps

mutual

/-- `parseline(ps, es)`. -/
def parseline (str : List Char) : Nat → Nat → Except Err (Cmd × Nat)
  | 0, _ => .error .fuel
  | f + 1, ps => do
    let (cmd, ps) ← parsepipe str f ps
    let (cmd, ps) ← backLoop str f cmd ps
    if (peek str ps [';']).1 then
      let (right, ps) ← parseline str f (gettoken str (peek str ps [';']).2).2.2.2
      .ok (.list cmd right, ps)
    else .ok (cmd, (peek str ps [';']).2)
termination_by structural f _ => f

/-- `parsepipe(ps, es)`. -/
def parsepipe (str : List Char) : Nat → Nat → Except Err (Cmd × Nat)
  | 0, _ => .error .fuel
  | f + 1, ps => do
    let (cmd, ps) ← parseexec str f ps
    if (peek str ps ['|']).1 then
      let (right, ps) ← parsepipe str f (gettoken str (peek str ps ['|']).2).2.2.2
      .ok (.pipe cmd right, ps)
    else .ok (cmd, (peek str ps ['|']).2)
termination_by structural f _ => f

/-- `parseblock(ps, es)`. -/
def parseblock (str : List Char) : Nat → Nat → Except Err (Cmd × Nat)
  | 0, _ => .error .fuel
  | f + 1, ps =>
    if !(peek str ps ['(']).1 then .error (.panic "parseblock")
    else do
      let (cmd, ps) ← parseline str f (gettoken str (peek str ps ['(']).2).2.2.2
      if !(peek str ps [')']).1 then .error (.panic "syntax - missing )")
      else parseredirs str f cmd (gettoken str (peek str ps [')']).2).2.2.2
termination_by structural f _ => f

/-- `parseexec(ps, es)`: a block, or an `execcmd` with its redirections. -/
def parseexec (str : List Char) : Nat → Nat → Except Err (Cmd × Nat)
  | 0, _ => .error .fuel
  | f + 1, ps =>
    if (peek str ps ['(']).1 then parseblock str f (peek str ps ['(']).2
    else do
      let (ret, ps) ← parseredirs str f (.exec []) (peek str ps ['(']).2
      let (ret, argv, ps) ← execLoop str f ret [] ps
      .ok (ret.setArgv argv, ps)
termination_by structural f _ => f

end

/-- `nulterminate(cmd)` on the buffer `buf`: a NUL at the end of every word of the tree. -/
def nulterminate : Cmd → List Char → List Char
  | .exec argv, buf => argv.foldl (fun buf w => buf.set w.2 '\x00') buf
  | .redir cmd _ efile _ _, buf => (nulterminate cmd buf).set efile '\x00'
  | .pipe left right, buf => nulterminate right (nulterminate left buf)
  | .list left right, buf => nulterminate right (nulterminate left buf)
  | .back cmd, buf => nulterminate cmd buf

/-! The equations of `nulterminate`, one for each kind of command, which the proofs below rewrite with. -/

private theorem nulterminate_exec (argv : List (Nat × Nat)) (buf : List Char) :
    nulterminate (.exec argv) buf = argv.foldl (fun buf w => buf.set w.2 '\x00') buf := rfl

private theorem nulterminate_redir (cmd : Cmd) (file efile : Nat) (mode : Int) (fd : Nat) (buf : List Char) :
    nulterminate (.redir cmd file efile mode fd) buf = (nulterminate cmd buf).set efile '\x00' := rfl

private theorem nulterminate_pipe (left right : Cmd) (buf : List Char) :
    nulterminate (.pipe left right) buf = nulterminate right (nulterminate left buf) := rfl

private theorem nulterminate_list (left right : Cmd) (buf : List Char) :
    nulterminate (.list left right) buf = nulterminate right (nulterminate left buf) := rfl

private theorem nulterminate_back (cmd : Cmd) (buf : List Char) : nulterminate (.back cmd) buf = nulterminate cmd buf := rfl

/-- `parsecmd(s)` on the characters `str` before the NUL of `s`: the command, and the buffer `str` with its NUL
after `nulterminate`.  The `leftovers` check panics where anything but whitespace is left. -/
def parsecmd (str : List Char) : Except Err (Cmd × List Char) := do
  let (cmd, ps) ← parseline str (4 * str.length + 5) 0
  if (peek str ps []).2 ≠ str.length then .error (.panic "syntax")
  else .ok (cmd, nulterminate cmd (str ++ ['\x00']))

example : (parsecmd "ls > out | wc ; echo x &".toList).toOption.map Prod.fst = some
    (.list (.pipe (.redir (.exec [(0, 2)]) 5 8 (Int.lor O_WRONLY O_CREATE) 1) (.exec [(11, 13)]))
      (.back (.exec [(16, 20), (21, 22)]))) := by
  decide

example : parsecmd "(ls".toList = .error (.panic "syntax - missing )") := by decide

/-! ### The grammar -/

/-- The nonterminals of the grammar; `exec` stands for both of its productions. -/
inductive NT where
  | line
  | pipe
  | exec
  deriving DecidableEq, Repr

/-- `'&'*`: `k` ampersands between `ts` and `rest`. -/
inductive Amps : List Token → Nat → List Token → Prop where
  | nil (ts : List Token) : Amps ts 0 ts
  | cons {t : Token} {ts rest : List Token} {k : Nat} (ht : t.kind = '&') (ha : Amps ts k rest) :
      Amps (t :: ts) (k + 1) rest

/-- `redirs ::= (('<'|'>'|'>>') word)*`: the redirections between `ts` and `rest` wrap `c` into `c'`, the first
innermost. -/
inductive Redirs : List Token → Cmd → Cmd → List Token → Prop where
  | nil (ts : List Token) (c : Cmd) : Redirs ts c c ts
  | cons {op w : Token} {ts rest : List Token} {c c' : Cmd} (hop : op.kind ∈ ['<', '>', '+']) (hw : w.kind = 'a')
      (hr : Redirs ts (redirect op.kind c w.q w.eq) c' rest) : Redirs (op :: w :: ts) c c' rest

/-- `(word redirs)*`: the words `ws` between `ts` and `rest`, and the redirections after each, which wrap `c`
into `c'`. -/
inductive Words : List Token → Cmd → List (Nat × Nat) → Cmd → List Token → Prop where
  | nil (ts : List Token) (c : Cmd) : Words ts c [] c ts
  | cons {w : Token} {ts ts₁ rest : List Token} {c c₁ c' : Cmd} {ws : List (Nat × Nat)} (hw : w.kind = 'a')
      (hr : Redirs ts c c₁ ts₁) (hws : Words ts₁ c₁ ws c' rest) : Words (w :: ts) c ((w.q, w.eq) :: ws) c' rest

/-- A derivation of the tokens between `ts` and `rest` from a nonterminal, with the tree it builds: `;` and `|`
group to the right, each `&` wraps what precedes it in a `back`, and the `exec` of a simple command holds all its
words inside all its redirections. -/
inductive Derives : NT → List Token → Cmd → List Token → Prop where
  | line {ts ts₁ rest : List Token} {c : Cmd} {k : Nat} (hp : Derives .pipe ts c ts₁) (ha : Amps ts₁ k rest) :
      Derives .line ts (Cmd.back^[k] c) rest
  | list {ts ts₁ ts₂ rest : List Token} {t : Token} {c c' : Cmd} {k : Nat} (hp : Derives .pipe ts c ts₁)
      (ha : Amps ts₁ k (t :: ts₂)) (ht : t.kind = ';') (hl : Derives .line ts₂ c' rest) :
      Derives .line ts (.list (Cmd.back^[k] c) c') rest
  | pipe {ts rest : List Token} {c : Cmd} (he : Derives .exec ts c rest) : Derives .pipe ts c rest
  | pipeCons {ts ts₁ rest : List Token} {t : Token} {c c' : Cmd} (he : Derives .exec ts c (t :: ts₁))
      (ht : t.kind = '|') (hp : Derives .pipe ts₁ c' rest) : Derives .pipe ts (.pipe c c') rest
  | block {ts ts₁ rest : List Token} {t t' : Token} {c c' : Cmd} (ht : t.kind = '(')
      (hl : Derives .line ts c (t' :: ts₁)) (ht' : t'.kind = ')') (hr : Redirs ts₁ c c' rest) :
      Derives .exec (t :: ts) c' rest
  | exec {ts ts₁ rest : List Token} {ws : List (Nat × Nat)} {c₁ c₂ : Cmd} (hr : Redirs ts (.exec ws) c₁ ts₁)
      (hw : Words ts₁ c₁ ws c₂ rest) (hmax : ws.length < MAXARGS) : Derives .exec ts c₂ rest

section Grammar

@[simp] private theorem setArgv_exec (a b : List (Nat × Nat)) : (Cmd.exec a).setArgv b = .exec b := rfl

private theorem setArgv_redirect (k : Char) (c : Cmd) (q e : Nat) (a : List (Nat × Nat)) :
    (redirect k c q e).setArgv a = redirect k (c.setArgv a) q e := by
  unfold redirect
  split_ifs <;> rfl

/-- Redirections wrap the words written later as they wrap the `execcmd`. -/
theorem Redirs.setArgv {ts rest : List Token} {c c' : Cmd} (h : Redirs ts c c' rest) (a : List (Nat × Nat)) :
    Redirs ts (c.setArgv a) (c'.setArgv a) rest := by
  induction h with
  | nil ts c => exact .nil _ _
  | cons hop hw _ ih =>
    rw [setArgv_redirect] at ih
    exact .cons hop hw ih

private theorem Words.setArgv {ts rest : List Token} {c c' : Cmd} {ws : List (Nat × Nat)} (h : Words ts c ws c' rest)
    (a : List (Nat × Nat)) : Words ts (c.setArgv a) ws (c'.setArgv a) rest := by
  induction h with
  | nil ts c => exact .nil _ _
  | cons hw hr _ ih => exact .cons hw (hr.setArgv a) ih

private theorem setArgv_setArgv (c : Cmd) (a b : List (Nat × Nat)) : (c.setArgv a).setArgv b = c.setArgv b := by
  induction c with
  | exec argv => rfl
  | redir cmd file efile mode fd ih => simp only [Cmd.setArgv, ih]
  | pipe l r => rfl
  | list l r => rfl
  | back cmd => rfl

/-- Where the `execcmd` already holds the words `a`, writing them again changes nothing. -/
theorem Redirs.setArgv_self {ts rest : List Token} {c c' : Cmd} {a : List (Nat × Nat)} (h : Redirs ts c c' rest)
    (hc : c.setArgv a = c) : c'.setArgv a = c' := by
  induction h with
  | nil => exact hc
  | cons _ _ _ ih => exact ih (by rw [setArgv_redirect, hc])

private theorem Words.setArgv_self {ts rest : List Token} {c c' : Cmd} {ws a : List (Nat × Nat)} (h : Words ts c ws c' rest)
    (hc : c.setArgv a = c) : c'.setArgv a = c' := by
  induction h with
  | nil => exact hc
  | cons _ hr _ ih => exact ih (hr.setArgv_self hc)

theorem Amps.suffix {ts rest : List Token} {k : Nat} (h : Amps ts k rest) : rest <:+ ts := by
  induction h with
  | nil ts => exact List.suffix_refl ts
  | cons _ _ ih => exact ih.trans (List.suffix_cons _ _)

theorem Redirs.suffix {ts rest : List Token} {c c' : Cmd} (h : Redirs ts c c' rest) : rest <:+ ts := by
  induction h with
  | nil ts c => exact List.suffix_refl ts
  | cons _ _ _ ih => exact ih.trans ((List.suffix_cons _ _).trans (List.suffix_cons _ _))

theorem Words.suffix {ts rest : List Token} {c c' : Cmd} {ws : List (Nat × Nat)} (h : Words ts c ws c' rest) :
    rest <:+ ts := by
  induction h with
  | nil ts c => exact List.suffix_refl ts
  | cons _ hr _ ih => exact ih.trans (hr.suffix.trans (List.suffix_cons _ _))

/-- A derivation takes its tokens off the front of the sequence. -/
theorem Derives.suffix {nt : NT} {ts rest : List Token} {c : Cmd} (h : Derives nt ts c rest) : rest <:+ ts := by
  induction h with
  | line _ ha ih => exact ha.suffix.trans ih
  | list _ ha _ _ ih₁ ih₂ => exact ih₂.trans ((List.suffix_cons _ _).trans (ha.suffix.trans ih₁))
  | pipe _ ih => exact ih
  | pipeCons _ _ _ ih₁ ih₂ => exact ih₂.trans ((List.suffix_cons _ _).trans ih₁)
  | block _ _ _ hr ih => exact hr.suffix.trans ((List.suffix_cons _ _).trans (ih.trans (List.suffix_cons _ _)))
  | exec hr hw _ => exact hw.suffix.trans hr.suffix

theorem Amps.head {ts rest : List Token} {k : Nat} (h : Amps ts k rest) : ts = rest ∨ headKind ts = '&' := by
  cases h with
  | nil => exact .inl rfl
  | cons ht _ => exact .inr ht

theorem Redirs.head {ts rest : List Token} {c c' : Cmd} (h : Redirs ts c c' rest) :
    ts = rest ∨ headKind ts ∈ ['<', '>', '+'] := by
  cases h with
  | nil => exact .inl rfl
  | cons hop _ _ => exact .inr hop

theorem Words.head {ts rest : List Token} {c c' : Cmd} {ws : List (Nat × Nat)} (h : Words ts c ws c' rest) :
    ts = rest ∨ headKind ts = 'a' := by
  cases h with
  | nil => exact .inl rfl
  | cons hw _ _ => exact .inr hw

end Grammar

/-! ### Soundness of the loops -/

section Loops

variable {str : List Char}

private theorem backLoop_sound {f : Nat} {c c' : Cmd} {ps ps' : Nat} (h : backLoop str f c ps = .ok (c', ps')) :
    ∃ k, Amps (tokens str ps) k (tokens str ps') ∧ c' = Cmd.back^[k] c := by
  induction f generalizing c ps with
  | zero => cases h
  | succ f ih =>
    obtain ⟨p₁, e₁, ht₁, -⟩ := @peek_eq str ['&'] rfl ps
    rw [backLoop, e₁] at h
    simp only [decide_eq_true_eq] at h
    split_ifs at h with hamp
    · -- an `&`: one more `backcmd`, and the loop goes on after it
      cases e : tokens str ps with
      | nil => simp [e, headKind] at hamp
      | cons t ts =>
        obtain ⟨p₂, e₂, ht₂, -⟩ := gettoken_eq_of_cons (ht₁.trans e)
        rw [e₂] at h
        obtain ⟨k, ha, rfl⟩ := ih h
        rw [ht₂] at ha
        rw [e] at hamp
        exact ⟨k + 1, .cons (List.mem_singleton.1 hamp) ha, rfl⟩
    · cases h
      exact ⟨0, ht₁ ▸ .nil _, rfl⟩

private theorem parseredirs_sound {f : Nat} {c c' : Cmd} {ps ps' : Nat} (h : parseredirs str f c ps = .ok (c', ps')) :
    Redirs (tokens str ps) c c' (tokens str ps') := by
  induction f generalizing c ps with
  | zero => cases h
  | succ f ih =>
    obtain ⟨p₁, e₁, ht₁, -⟩ := @peek_redir_eq str ps
    rw [parseredirs, e₁] at h
    simp only [decide_eq_true_eq] at h
    by_cases hop : headKind (tokens str ps) ∈ ['<', '>', '+']
    · rw [if_pos hop] at h
      -- the redirection token, then its file word
      cases e : tokens str ps with
      | nil => simp [e, headKind] at hop
      | cons op ts =>
        obtain ⟨p₂, e₂, ht₂, -⟩ := gettoken_eq_of_cons (ht₁.trans e)
        rw [e₂] at h
        dsimp only at h
        rw [e] at hop
        cases ts with
        | nil =>
          rw [gettoken_fst, ht₂, if_pos (by decide)] at h
          cases h
        | cons w ts =>
          obtain ⟨p₃, e₃, ht₃, -⟩ := gettoken_eq_of_cons ht₂
          rw [e₃] at h
          dsimp only at h
          by_cases hw : w.kind = 'a'
          · rw [if_neg (not_not.2 hw)] at h
            exact .cons hop hw (ht₃ ▸ ih h)
          · rw [if_pos hw] at h
            cases h
    · rw [if_neg hop] at h
      cases h
      exact ht₁ ▸ .nil _ _

private theorem execLoop_sound {f : Nat} {c c' : Cmd} {argv argv' : List (Nat × Nat)} {ps ps' : Nat}
    (h : execLoop str f c argv ps = .ok (c', argv', ps')) :
    ∃ ws, argv' = argv ++ ws ∧ (argv.length < MAXARGS → argv'.length < MAXARGS) ∧
      Words (tokens str ps) c ws c' (tokens str ps') := by
  induction f generalizing c argv ps with
  | zero => cases h
  | succ f ih =>
    obtain ⟨p₁, e₁, ht₁, -⟩ := @peek_eq str ['|', ')', '&', ';'] rfl ps
    rw [execLoop, e₁] at h
    simp only [decide_eq_true_eq] at h
    by_cases hstop : headKind (tokens str ps) ∈ ['|', ')', '&', ';']
    · -- `|`, `)`, `&` or `;`: the loop ends
      rw [if_pos hstop] at h
      cases h
      exact ⟨[], by simp, id, ht₁ ▸ .nil _ _⟩
    rw [if_neg hstop] at h
    cases e : tokens str ps with
    | nil =>
      -- the end of the line: `gettoken` returns `0` and the loop breaks
      have hn : tokens str p₁ = [] := ht₁.trans e
      have h0 : headKind ([] : List Token) = '\x00' := rfl
      rw [gettoken_fst, hn, if_pos h0] at h
      cases h
      exact ⟨[], by simp, id, by rw [tokens_gettoken_of_nil hn]; exact .nil _ _⟩
    | cons t ts =>
      have hmem : t ∈ tokens str ps := by
        rw [e]
        exact List.mem_cons_self
      obtain ⟨p₂, e₂, ht₂, -⟩ := gettoken_eq_of_cons (ht₁.trans e)
      rw [e₂] at h
      dsimp only at h
      rw [if_neg (kind_ne_nul hmem)] at h
      by_cases hword : t.kind = 'a'
      · -- a word: then the redirections after it, and the loop goes on
        rw [if_neg (not_not.2 hword)] at h
        by_cases hmax : MAXARGS ≤ argv.length + 1
        · rw [if_pos hmax] at h
          cases h
        · rw [if_neg hmax] at h
          obtain ⟨⟨c₁, p₃⟩, h₁, h⟩ := FoldM.bind_eq_ok.1 h
          obtain ⟨ws, rfl, hlen, hws⟩ := ih h
          refine ⟨(t.q, t.eq) :: ws, by simp, fun _ => hlen (by simp; omega), ?_⟩
          exact .cons hword (ht₂ ▸ parseredirs_sound h₁) hws
      · rw [if_pos hword] at h
        cases h

end Loops

/-! ### Soundness -/

/-- Every command `parse` returns is derived from `nt`, from the tokens where it starts to those where it ends. -/
def SoundAt (str : List Char) (nt : NT) (parse : Nat → Except Err (Cmd × Nat)) : Prop :=
  ∀ ⦃ps : Nat⦄ ⦃c : Cmd⦄ ⦃ps' : Nat⦄, parse ps = .ok (c, ps') → Derives nt (tokens str ps) c (tokens str ps')

section Sound

variable {str : List Char} {f : Nat}

private theorem parseline_sound_step (hpipe : SoundAt str .pipe (parsepipe str f))
    (hline : SoundAt str .line (parseline str f)) : SoundAt str .line (parseline str (f + 1)) := by
  intro ps c ps' h
  rw [parseline] at h
  obtain ⟨⟨c₁, p₁⟩, h₁, h⟩ := FoldM.bind_eq_ok.1 h
  dsimp only at h
  obtain ⟨⟨c₂, p₂⟩, h₂, h⟩ := FoldM.bind_eq_ok.1 h
  dsimp only at h
  have hp := hpipe h₁
  obtain ⟨k, ha, rfl⟩ := backLoop_sound h₂
  obtain ⟨p₃, e₃, ht₃, -⟩ := @peek_eq str [';'] rfl p₂
  rw [e₃] at h
  simp only [decide_eq_true_eq] at h
  by_cases hsemi : headKind (tokens str p₂) ∈ [';']
  · -- a `;`: the rest of the line is a line
    rw [if_pos hsemi] at h
    cases e : tokens str p₂ with
    | nil => simp [e, headKind] at hsemi
    | cons t ts =>
      obtain ⟨p₄, e₄, ht₄, -⟩ := gettoken_eq_of_cons (ht₃.trans e)
      rw [e₄] at h
      obtain ⟨⟨c₃, p₅⟩, h₃, h⟩ := FoldM.bind_eq_ok.1 h
      cases h
      rw [e] at ha hsemi
      exact .list hp ha (List.mem_singleton.1 hsemi) (ht₄ ▸ hline h₃)
  · rw [if_neg hsemi] at h
    cases h
    exact .line hp (ht₃ ▸ ha)

private theorem parsepipe_sound_step (hexec : SoundAt str .exec (parseexec str f))
    (hpipe : SoundAt str .pipe (parsepipe str f)) : SoundAt str .pipe (parsepipe str (f + 1)) := by
  intro ps c ps' h
  rw [parsepipe] at h
  obtain ⟨⟨c₁, p₁⟩, h₁, h⟩ := FoldM.bind_eq_ok.1 h
  dsimp only at h
  have he := hexec h₁
  obtain ⟨p₂, e₂, ht₂, -⟩ := @peek_eq str ['|'] rfl p₁
  rw [e₂] at h
  simp only [decide_eq_true_eq] at h
  by_cases hbar : headKind (tokens str p₁) ∈ ['|']
  · -- a `|`: the right side is a pipe
    rw [if_pos hbar] at h
    cases e : tokens str p₁ with
    | nil => simp [e, headKind] at hbar
    | cons t ts =>
      obtain ⟨p₃, e₃, ht₃, -⟩ := gettoken_eq_of_cons (ht₂.trans e)
      rw [e₃] at h
      obtain ⟨⟨c₂, p₄⟩, h₂, h⟩ := FoldM.bind_eq_ok.1 h
      cases h
      rw [e] at he hbar
      exact .pipeCons he (List.mem_singleton.1 hbar) (ht₃ ▸ hpipe h₂)
  · rw [if_neg hbar] at h
    cases h
    exact .pipe (ht₂ ▸ he)

private theorem parseblock_sound_step (hline : SoundAt str .line (parseline str f)) :
    SoundAt str .exec (parseblock str (f + 1)) := by
  intro ps c ps' h
  obtain ⟨p₁, e₁, ht₁, -⟩ := @peek_eq str ['('] rfl ps
  rw [parseblock, e₁] at h
  simp only [Bool.not_eq_true', decide_eq_false_iff_not] at h
  by_cases hopen : headKind (tokens str ps) ∈ ['(']
  swap
  · rw [if_pos hopen] at h
    cases h
  rw [if_neg (not_not.2 hopen)] at h
  cases e : tokens str ps with
  | nil => simp [e, headKind] at hopen
  | cons t ts =>
    -- past the `(`, a line, then `)` and the redirections of the block
    obtain ⟨p₂, e₂, ht₂, -⟩ := gettoken_eq_of_cons (ht₁.trans e)
    rw [e₂] at h
    obtain ⟨⟨c₁, p₃⟩, h₁, h⟩ := FoldM.bind_eq_ok.1 h
    dsimp only at h
    have hl := hline h₁
    obtain ⟨p₄, e₄, ht₄, -⟩ := @peek_eq str [')'] rfl p₃
    rw [e₄] at h
    simp only [decide_eq_false_iff_not] at h
    by_cases hclose : headKind (tokens str p₃) ∈ [')']
    swap
    · rw [if_pos hclose] at h
      cases h
    rw [if_neg (not_not.2 hclose)] at h
    cases e' : tokens str p₃ with
    | nil => simp [e', headKind] at hclose
    | cons t' ts' =>
      obtain ⟨p₅, e₅, ht₅, -⟩ := gettoken_eq_of_cons (ht₄.trans e')
      rw [e₅] at h
      rw [ht₂, e'] at hl
      rw [e] at hopen
      rw [e'] at hclose
      exact .block (List.mem_singleton.1 hopen) hl (List.mem_singleton.1 hclose) (ht₅ ▸ parseredirs_sound h)

private theorem parseexec_sound_step (hblock : SoundAt str .exec (parseblock str f)) :
    SoundAt str .exec (parseexec str (f + 1)) := by
  intro ps c ps' h
  obtain ⟨p₁, e₁, ht₁, -⟩ := @peek_eq str ['('] rfl ps
  rw [parseexec, e₁] at h
  simp only [decide_eq_true_eq] at h
  by_cases hopen : headKind (tokens str ps) ∈ ['(']
  · -- a block
    rw [if_pos hopen] at h
    exact ht₁ ▸ hblock h
  · -- the redirections and words of a simple command; the words go into the innermost `execcmd` at the end
    rw [if_neg hopen] at h
    obtain ⟨⟨c₁, p₂⟩, h₁, h⟩ := FoldM.bind_eq_ok.1 h
    dsimp only at h
    obtain ⟨⟨c₂, argv, p₃⟩, h₂, h⟩ := FoldM.bind_eq_ok.1 h
    cases h
    obtain ⟨ws, e, hlen, hws⟩ := execLoop_sound h₂
    rw [List.nil_append] at e
    subst argv
    have hr := (parseredirs_sound h₁).setArgv ws
    rw [ht₁] at hr
    exact .exec hr (hws.setArgv ws) (hlen (by decide))

/-- Every command the parser returns is derived from the tokens it read. -/
theorem parse_sound (f : Nat) :
    SoundAt str .line (parseline str f) ∧ SoundAt str .pipe (parsepipe str f) ∧
      SoundAt str .exec (parseexec str f) ∧ SoundAt str .exec (parseblock str f) := by
  induction f with
  | zero =>
    -- without fuel nothing is returned
    refine ⟨fun _ _ _ h => ?_, fun _ _ _ h => ?_, fun _ _ _ h => ?_, fun _ _ _ h => ?_⟩ <;> cases h
  | succ f ih =>
    obtain ⟨hline, hpipe, hexec, hblock⟩ := ih
    exact ⟨parseline_sound_step hpipe hline, parsepipe_sound_step hexec hpipe, parseexec_sound_step hblock,
      parseblock_sound_step hline⟩

end Sound

/-! ### Fuel -/

/-- `parse` does not run out of the fuel `f` where there are four units for each token left and `rank` more. -/
def FuelOk (str : List Char) (rank f : Nat) (parse : Nat → Except Err (Cmd × Nat)) : Prop :=
  ∀ ⦃ps : Nat⦄, 4 * (tokens str ps).length + rank ≤ f → parse ps ≠ .error .fuel

section Fuel

variable {str : List Char} {f : Nat}

private theorem backLoop_ok (c : Cmd) {ps : Nat} (hf : (tokens str ps).length + 1 ≤ f) :
    ∃ r, backLoop str f c ps = .ok r := by
  induction f generalizing c ps with
  | zero => omega
  | succ f ih =>
    obtain ⟨p₁, e₁, ht₁, -⟩ := @peek_eq str ['&'] rfl ps
    rw [backLoop, e₁]
    dsimp only
    split_ifs with hamp
    · cases e : tokens str ps with
      | nil => simp [e, headKind] at hamp
      | cons t ts =>
        obtain ⟨p₂, e₂, ht₂, -⟩ := gettoken_eq_of_cons (ht₁.trans e)
        rw [e₂]
        rw [e, List.length_cons] at hf
        exact ih _ (by rw [ht₂]; omega)
    · exact ⟨_, rfl⟩

private theorem parseredirs_fuel (c : Cmd) {ps : Nat} (hf : (tokens str ps).length + 1 ≤ f) :
    parseredirs str f c ps ≠ .error .fuel := by
  induction f generalizing c ps with
  | zero => omega
  | succ f ih =>
    obtain ⟨p₁, e₁, ht₁, -⟩ := @peek_redir_eq str ps
    rw [parseredirs, e₁]
    dsimp only
    by_cases hop : headKind (tokens str ps) ∈ ['<', '>', '+']
    · rw [if_pos (by simpa using hop)]
      cases e : tokens str ps with
      | nil => simp [e, headKind] at hop
      | cons op ts =>
        obtain ⟨p₂, e₂, ht₂, -⟩ := gettoken_eq_of_cons (ht₁.trans e)
        rw [e₂]
        dsimp only
        by_cases hw : (gettoken str p₂).1 = 'a'
        · rw [if_neg (not_not.2 hw)]
          rw [e, List.length_cons] at hf
          exact ih _ (by rw [tokens_gettoken, ht₂, List.length_tail]; omega)
        · rw [if_pos hw]
          simp
    · rw [if_neg (by simpa using hop)]
      simp

private theorem execLoop_fuel (c : Cmd) (argv : List (Nat × Nat)) {ps : Nat} (hf : (tokens str ps).length + 1 ≤ f) :
    execLoop str f c argv ps ≠ .error .fuel := by
  induction f generalizing c argv ps with
  | zero => omega
  | succ f ih =>
    obtain ⟨p₁, e₁, ht₁, -⟩ := @peek_eq str ['|', ')', '&', ';'] rfl ps
    rw [execLoop, e₁]
    dsimp only
    by_cases hstop : headKind (tokens str ps) ∈ ['|', ')', '&', ';']
    · rw [if_pos (by simpa using hstop)]
      simp
    rw [if_neg (by simpa using hstop)]
    cases e : tokens str ps with
    | nil =>
      have h0 : headKind ([] : List Token) = '\x00' := rfl
      rw [gettoken_fst, ht₁, e, if_pos h0]
      simp
    | cons t ts =>
      have hmem : t ∈ tokens str ps := by
        rw [e]
        exact List.mem_cons_self
      obtain ⟨p₂, e₂, ht₂, -⟩ := gettoken_eq_of_cons (ht₁.trans e)
      rw [e₂]
      dsimp only
      rw [if_neg (kind_ne_nul hmem)]
      by_cases hword : t.kind = 'a'
      · rw [if_neg (not_not.2 hword)]
        split_ifs
        · simp
        · -- the redirections after the word, then the next round
          rw [e, List.length_cons] at hf
          intro h
          rcases FoldM.bind_eq_error.1 h with h₁ | ⟨⟨c₁, p₃⟩, h₁, h⟩
          · exact parseredirs_fuel c (by rw [ht₂]; omega) h₁
          · have := (parseredirs_sound h₁).suffix.length_le
            rw [ht₂] at this
            dsimp only at h
            exact ih _ _ (by omega) h
      · rw [if_pos hword]
        simp

private theorem parseline_fuel_step (hpipe : FuelOk str 4 f (parsepipe str f)) (hline : FuelOk str 5 f (parseline str f)) :
    FuelOk str 5 (f + 1) (parseline str (f + 1)) := by
  intro ps hf h
  rw [parseline] at h
  rcases FoldM.bind_eq_error.1 h with h₁ | ⟨⟨c₁, p₁⟩, h₁, h⟩
  · exact hpipe (by omega) h₁
  dsimp only at h
  have n₁ := ((parse_sound f).2.1 h₁).suffix.length_le
  rcases FoldM.bind_eq_error.1 h with h₂ | ⟨⟨c₂, p₂⟩, h₂, h⟩
  · obtain ⟨r, hr⟩ := @backLoop_ok str f c₁ p₁ (by omega)
    rw [hr] at h₂
    cases h₂
  dsimp only at h
  obtain ⟨k, ha, -⟩ := backLoop_sound h₂
  have n₂ := ha.suffix.length_le
  obtain ⟨p₃, e₃, ht₃, -⟩ := @peek_eq str [';'] rfl p₂
  rw [e₃] at h
  dsimp only at h
  split_ifs at h with hsemi
  · -- after a `;` one token fewer is left for the rest of the line
    cases e : tokens str p₂ with
    | nil => simp [e, headKind] at hsemi
    | cons t ts =>
      obtain ⟨p₄, e₄, ht₄, -⟩ := gettoken_eq_of_cons (ht₃.trans e)
      rw [e₄] at h
      rcases FoldM.bind_eq_error.1 h with h₃ | ⟨⟨c₃, p₅⟩, -, h₃⟩
      · rw [e, List.length_cons] at n₂
        exact hline (by rw [ht₄]; omega) h₃
      · cases h₃

private theorem parsepipe_fuel_step (hexec : FuelOk str 3 f (parseexec str f)) (hpipe : FuelOk str 4 f (parsepipe str f)) :
    FuelOk str 4 (f + 1) (parsepipe str (f + 1)) := by
  intro ps hf h
  rw [parsepipe] at h
  rcases FoldM.bind_eq_error.1 h with h₁ | ⟨⟨c₁, p₁⟩, h₁, h⟩
  · exact hexec (by omega) h₁
  dsimp only at h
  have n₁ := ((parse_sound f).2.2.1 h₁).suffix.length_le
  obtain ⟨p₂, e₂, ht₂, -⟩ := @peek_eq str ['|'] rfl p₁
  rw [e₂] at h
  dsimp only at h
  split_ifs at h with hbar
  · cases e : tokens str p₁ with
    | nil => simp [e, headKind] at hbar
    | cons t ts =>
      obtain ⟨p₃, e₃, ht₃, -⟩ := gettoken_eq_of_cons (ht₂.trans e)
      rw [e₃] at h
      rcases FoldM.bind_eq_error.1 h with h₂ | ⟨⟨c₂, p₄⟩, -, h₂⟩
      · rw [e, List.length_cons] at n₁
        exact hpipe (by rw [ht₃]; omega) h₂
      · cases h₂

private theorem parseblock_fuel_step (hline : FuelOk str 5 f (parseline str f)) :
    FuelOk str 2 (f + 1) (parseblock str (f + 1)) := by
  intro ps hf h
  obtain ⟨p₁, e₁, ht₁, -⟩ := @peek_eq str ['('] rfl ps
  rw [parseblock, e₁] at h
  dsimp only at h
  split_ifs at h with hopen
  · cases h
  cases e : tokens str ps with
  | nil => simp [e, headKind] at hopen
  | cons t ts =>
    obtain ⟨p₂, e₂, ht₂, -⟩ := gettoken_eq_of_cons (ht₁.trans e)
    rw [e₂] at h
    rw [e, List.length_cons] at hf
    rcases FoldM.bind_eq_error.1 h with h₁ | ⟨⟨c₁, p₃⟩, h₁, h⟩
    · exact hline (by rw [ht₂]; omega) h₁
    dsimp only at h
    have n₃ := ((parse_sound f).1 h₁).suffix.length_le
    rw [ht₂] at n₃
    obtain ⟨p₄, e₄, ht₄, -⟩ := @peek_eq str [')'] rfl p₃
    rw [e₄] at h
    dsimp only at h
    split_ifs at h with hclose
    · cases h
    · exact parseredirs_fuel _ (by rw [tokens_gettoken, ht₄, List.length_tail]; omega) h

private theorem parseexec_fuel_step (hblock : FuelOk str 2 f (parseblock str f)) :
    FuelOk str 3 (f + 1) (parseexec str (f + 1)) := by
  intro ps hf h
  obtain ⟨p₁, e₁, ht₁, -⟩ := @peek_eq str ['('] rfl ps
  rw [parseexec, e₁] at h
  dsimp only at h
  split_ifs at h with hopen
  · exact hblock (by rw [ht₁]; omega) h
  rcases FoldM.bind_eq_error.1 h with h₁ | ⟨⟨c₁, p₂⟩, h₁, h⟩
  · exact parseredirs_fuel _ (by rw [ht₁]; omega) h₁
  dsimp only at h
  have n₂ := (parseredirs_sound h₁).suffix.length_le
  rw [ht₁] at n₂
  rcases FoldM.bind_eq_error.1 h with h₂ | ⟨⟨c₂, argv, p₃⟩, -, h⟩
  · exact execLoop_fuel _ _ (by omega) h₂
  · cases h

/-- With four units of fuel for each token left, and the rank of the function more, the parser never runs out. -/
theorem parse_fuel (f : Nat) :
    FuelOk str 5 f (parseline str f) ∧ FuelOk str 4 f (parsepipe str f) ∧ FuelOk str 3 f (parseexec str f) ∧
      FuelOk str 2 f (parseblock str f) := by
  induction f with
  | zero =>
    refine ⟨fun _ h => absurd h (by omega), fun _ h => absurd h (by omega), fun _ h => absurd h (by omega),
      fun _ h => absurd h (by omega)⟩
  | succ f ih =>
    obtain ⟨hline, hpipe, hexec, hblock⟩ := ih
    exact ⟨parseline_fuel_step hpipe hline, parsepipe_fuel_step hexec hpipe, parseexec_fuel_step hblock,
      parseblock_fuel_step hline⟩

end Fuel

/-! ### Completeness -/

/-- The kinds of token that may follow a nonterminal in a derivation of a whole command line, `0` for the end. -/
def NT.follow : NT → List Char
  | .line => ['\x00', ')']
  | .pipe => ['\x00', ')', '&', ';']
  | .exec => ['\x00', '|', ')', '&', ';']

/-- The fuel a parsing function needs beyond four units per token. -/
def NT.rank : NT → Nat
  | .line => 5
  | .pipe => 4
  | .exec => 3

/-- The parsing function of a nonterminal. -/
def NT.parse (str : List Char) : NT → Nat → Nat → Except Err (Cmd × Nat)
  | .line => parseline str
  | .pipe => parsepipe str
  | .exec => parseexec str

private theorem follow_line_pipe {k : Char} (h : k ∈ NT.line.follow) : k ∈ NT.pipe.follow := by
  simp only [NT.follow, List.mem_cons, List.not_mem_nil, or_false] at h ⊢
  rcases h with rfl | rfl <;> simp

private theorem follow_pipe_exec {k : Char} (h : k ∈ NT.pipe.follow) : k ∈ NT.exec.follow := by
  simp only [NT.follow, List.mem_cons, List.not_mem_nil, or_false] at h ⊢
  rcases h with rfl | rfl | rfl | rfl <;> simp

private theorem not_semi_of_follow {k : Char} (h : k ∈ NT.line.follow) : k ∉ [';'] := by
  simp only [NT.follow, List.mem_cons, List.not_mem_nil, or_false] at h
  rcases h with rfl | rfl <;> decide

private theorem not_bar_of_follow {k : Char} (h : k ∈ NT.pipe.follow) : k ∉ ['|'] := by
  simp only [NT.follow, List.mem_cons, List.not_mem_nil, or_false] at h
  rcases h with rfl | rfl | rfl | rfl <;> decide

/-- Neither a redirection nor `(` may follow a command. -/
theorem not_redir_of_follow {k : Char} (h : k ∈ NT.exec.follow) : k ∉ ['<', '>', '+'] := by
  simp only [NT.follow, List.mem_cons, List.not_mem_nil, or_false] at h
  rcases h with rfl | rfl | rfl | rfl | rfl <;> decide

private theorem not_open_of_follow {k : Char} (h : k ∈ NT.exec.follow) : k ∉ ['('] := by
  simp only [NT.follow, List.mem_cons, List.not_mem_nil, or_false] at h
  rcases h with rfl | rfl | rfl | rfl | rfl <;> decide

/-- The parsing function of `nt`, with enough fuel and from a position inside the string where the tokens `ts` are
left, returns `c` at a position inside the string where the tokens `rest` are left. -/
def Parses (str : List Char) (nt : NT) (ts : List Token) (c : Cmd) (rest : List Token) : Prop :=
  ∀ f ps, tokens str ps = ts → ps ≤ str.length → 4 * ts.length + nt.rank ≤ f →
    ∃ ps', nt.parse str f ps = .ok (c, ps') ∧ tokens str ps' = rest ∧ ps' ≤ str.length

section Complete

variable {str : List Char}

private theorem backLoop_complete {ts rest : List Token} {k : Nat} (h : Amps ts k rest) (hstop : headKind rest ≠ '&')
    (f : Nat) (c : Cmd) {ps : Nat} (hts : tokens str ps = ts) (hps : ps ≤ str.length) (hf : ts.length + 1 ≤ f) :
    ∃ ps', backLoop str f c ps = .ok (Cmd.back^[k] c, ps') ∧ tokens str ps' = rest ∧ ps' ≤ str.length := by
  induction h generalizing f c ps with
  | nil ts =>
    obtain ⟨f, rfl⟩ : ∃ f', f = f' + 1 := ⟨f - 1, by omega⟩
    obtain ⟨p₁, e₁, ht₁, hl₁⟩ := @peek_eq str ['&'] rfl ps
    rw [backLoop, e₁, hts, if_neg (by simpa using hstop)]
    exact ⟨p₁, rfl, ht₁.trans hts, hl₁ hps⟩
  | cons ht _ ih =>
    obtain ⟨f, rfl⟩ : ∃ f', f = f' + 1 := ⟨f - 1, by omega⟩
    obtain ⟨p₁, e₁, ht₁, hl₁⟩ := @peek_eq str ['&'] rfl ps
    obtain ⟨p₂, e₂, ht₂, hl₂⟩ := gettoken_eq_of_cons (ht₁.trans hts)
    rw [backLoop, e₁, hts, if_pos (by simp [headKind, ht]), e₂]
    simp only [List.length_cons] at hf
    exact ih hstop f (Cmd.back c) ht₂ (hl₂ (hl₁ hps)) (by omega)

private theorem parseredirs_complete {ts rest : List Token} {c c' : Cmd} (h : Redirs ts c c' rest)
    (hstop : headKind rest ∉ ['<', '>', '+']) (f : Nat) {ps : Nat} (hts : tokens str ps = ts)
    (hps : ps ≤ str.length) (hf : ts.length + 1 ≤ f) :
    ∃ ps', parseredirs str f c ps = .ok (c', ps') ∧ tokens str ps' = rest ∧ ps' ≤ str.length := by
  induction h generalizing f ps with
  | nil ts c =>
    obtain ⟨f, rfl⟩ : ∃ f', f = f' + 1 := ⟨f - 1, by omega⟩
    obtain ⟨p₁, e₁, ht₁, hl₁⟩ := @peek_redir_eq str ps
    rw [parseredirs, e₁, hts, if_neg (by simpa using hstop)]
    exact ⟨p₁, rfl, ht₁.trans hts, hl₁ hps⟩
  | cons hop hw _ ih =>
    obtain ⟨f, rfl⟩ : ∃ f', f = f' + 1 := ⟨f - 1, by omega⟩
    obtain ⟨p₁, e₁, ht₁, hl₁⟩ := @peek_redir_eq str ps
    obtain ⟨p₂, e₂, ht₂, hl₂⟩ := gettoken_eq_of_cons (ht₁.trans hts)
    obtain ⟨p₃, e₃, ht₃, hl₃⟩ := gettoken_eq_of_cons ht₂
    rw [parseredirs, e₁, hts, if_pos (by simpa [headKind] using hop)]
    dsimp only
    rw [e₂]
    dsimp only
    rw [e₃]
    dsimp only
    rw [if_neg (by simp [hw])]
    simp only [List.length_cons] at hf
    exact ih hstop f ht₃ (hl₃ (hl₂ (hl₁ hps))) (by omega)

private theorem execLoop_complete {ts rest : List Token} {c c' : Cmd} {ws : List (Nat × Nat)} (h : Words ts c ws c' rest)
    (hstop : headKind rest ∈ NT.exec.follow) (f : Nat) (argv : List (Nat × Nat)) {ps : Nat}
    (hts : tokens str ps = ts) (hps : ps ≤ str.length) (hf : ts.length + 1 ≤ f)
    (hmax : argv.length + ws.length < MAXARGS) :
    ∃ ps', execLoop str f c argv ps = .ok (c', argv ++ ws, ps') ∧ tokens str ps' = rest ∧ ps' ≤ str.length := by
  induction h generalizing f argv ps with
  | nil ts c =>
    obtain ⟨f, rfl⟩ : ∃ f', f = f' + 1 := ⟨f - 1, by omega⟩
    obtain ⟨p₁, e₁, ht₁, hl₁⟩ := @peek_eq str ['|', ')', '&', ';'] rfl ps
    rw [execLoop, e₁, hts, List.append_nil]
    by_cases hend : headKind ts = '\x00'
    · -- the end of the line: `gettoken` returns `0` and the loop breaks
      have hn : ts = [] := by
        rw [← hts]
        exact tokens_eq_nil_of_headKind (hts ▸ hend)
      rw [if_neg (by simp [hend])]
      dsimp only
      rw [gettoken_fst, ht₁, hts, if_pos hend]
      refine ⟨_, rfl, ?_, gettoken_le (hl₁ hps)⟩
      rw [tokens_gettoken, ht₁, hts, hn]
      rfl
    · -- `|`, `)`, `&` or `;`
      rw [if_pos (by simpa [NT.follow, hend] using hstop)]
      exact ⟨p₁, rfl, ht₁.trans hts, hl₁ hps⟩
  | cons hw hr hws ih =>
    obtain ⟨f, rfl⟩ : ∃ f', f = f' + 1 := ⟨f - 1, by omega⟩
    obtain ⟨p₁, e₁, ht₁, hl₁⟩ := @peek_eq str ['|', ')', '&', ';'] rfl ps
    obtain ⟨p₂, e₂, ht₂, hl₂⟩ := gettoken_eq_of_cons (ht₁.trans hts)
    simp only [List.length_cons] at hf hmax
    rw [execLoop, e₁, hts, if_neg (by simp [headKind, hw])]
    dsimp only
    rw [e₂]
    dsimp only
    rw [hw, if_neg (by decide), if_neg (by decide), if_neg (by omega)]
    -- the redirections after the word stop at a word or where the command ends
    have hstop₁ := hws.head
    obtain ⟨p₃, e₃, ht₃, hl₃⟩ := parseredirs_complete hr (by
      rcases hstop₁ with e | e
      · rw [e]
        exact not_redir_of_follow hstop
      · rw [e]
        decide) f ht₂ (hl₂ (hl₁ hps)) (by omega)
    rw [e₃, FoldM.ok_bind]
    dsimp only
    have := hr.suffix.length_le
    obtain ⟨ps', e', ht', hl'⟩ := ih hstop f (argv ++ [_]) ht₃ hl₃ (by omega) (by simp; omega)
    refine ⟨ps', ?_, ht', hl'⟩
    rw [e', List.append_assoc]
    rfl

/-- Every derivation followed by a token that may follow it is what the parser returns. -/
theorem parse_complete {nt : NT} {ts rest : List Token} {c : Cmd} (h : Derives nt ts c rest) :
    headKind rest ∈ nt.follow → Parses str nt ts c rest := by
  induction h with
  | @line ts ts₁ rest c k hp ha ihp =>
    intro hfol f ps hts hps hf
    simp only [NT.rank] at hf
    obtain ⟨f, rfl⟩ : ∃ f', f = f' + 1 := ⟨f - 1, by omega⟩
    -- the pipe ends at an `&` or where the line ends
    have hfol₁ : headKind ts₁ ∈ NT.pipe.follow := by
      rcases ha.head with e | e
      · rw [e]
        exact follow_line_pipe hfol
      · rw [e]
        decide
    have n₁ := hp.suffix.length_le
    obtain ⟨p₁, e₁, ht₁, hl₁⟩ := ihp hfol₁ f ps hts hps (by simp only [NT.rank]; omega)
    obtain ⟨p₂, e₂, ht₂, hl₂⟩ := backLoop_complete ha
      (fun e => absurd (e ▸ hfol) (by decide)) f c ht₁ hl₁ (by omega)
    obtain ⟨p₃, e₃, ht₃, hl₃⟩ := @peek_eq str [';'] rfl p₂
    have hsemi : headKind rest ∉ [';'] := not_semi_of_follow hfol
    refine ⟨p₃, ?_, ht₃.trans ht₂, hl₃ hl₂⟩
    simp only [NT.parse] at e₁ ⊢
    rw [parseline, e₁, FoldM.ok_bind]
    dsimp only
    rw [e₂, FoldM.ok_bind]
    dsimp only
    rw [e₃, ht₂, if_neg (by simpa using hsemi)]
  | @list ts ts₁ ts₂ rest t c c' k hp ha ht hl ihp ihl =>
    intro hfol f ps hts hps hf
    simp only [NT.rank] at hf
    obtain ⟨f, rfl⟩ : ∃ f', f = f' + 1 := ⟨f - 1, by omega⟩
    have hfol₁ : headKind ts₁ ∈ NT.pipe.follow := by
      rcases ha.head with e | e
      · rw [e, show headKind (t :: ts₂) = ';' from ht]
        decide
      · rw [e]
        decide
    have n₁ := hp.suffix.length_le
    have n₂ := ha.suffix.length_le
    have n₃ := hl.suffix.length_le
    simp only [List.length_cons] at n₂
    obtain ⟨p₁, e₁, ht₁, hl₁⟩ := ihp hfol₁ f ps hts hps (by simp only [NT.rank]; omega)
    obtain ⟨p₂, e₂, ht₂, hl₂⟩ := backLoop_complete ha (by rw [show headKind (t :: ts₂) = ';' from ht]; decide)
      f c ht₁ hl₁ (by omega)
    -- the `;`, then the rest of the line
    obtain ⟨p₃, e₃, ht₃, hl₃⟩ := @peek_eq str [';'] rfl p₂
    obtain ⟨p₄, e₄, ht₄, hl₄⟩ := gettoken_eq_of_cons (ht₃.trans ht₂)
    obtain ⟨p₅, e₅, ht₅, hl₅⟩ := ihl hfol f p₄ ht₄ (hl₄ (hl₃ hl₂)) (by simp only [NT.rank]; omega)
    refine ⟨p₅, ?_, ht₅, hl₅⟩
    simp only [NT.parse] at e₁ e₅ ⊢
    rw [parseline, e₁, FoldM.ok_bind]
    dsimp only
    rw [e₂, FoldM.ok_bind]
    dsimp only
    rw [e₃, ht₂, if_pos (by simp [headKind, ht])]
    dsimp only
    rw [e₄]
    dsimp only
    rw [e₅, FoldM.ok_bind]
  | @pipe ts rest c he ihe =>
    intro hfol f ps hts hps hf
    simp only [NT.rank] at hf
    obtain ⟨f, rfl⟩ : ∃ f', f = f' + 1 := ⟨f - 1, by omega⟩
    obtain ⟨p₁, e₁, ht₁, hl₁⟩ := ihe (follow_pipe_exec hfol) f ps
      hts hps (by simp only [NT.rank]; omega)
    obtain ⟨p₂, e₂, ht₂, hl₂⟩ := @peek_eq str ['|'] rfl p₁
    have hbar : headKind rest ∉ ['|'] := not_bar_of_follow hfol
    refine ⟨p₂, ?_, ht₂.trans ht₁, hl₂ hl₁⟩
    simp only [NT.parse] at e₁ ⊢
    rw [parsepipe, e₁, FoldM.ok_bind]
    dsimp only
    rw [e₂, ht₁, if_neg (by simpa using hbar)]
  | @pipeCons ts ts₁ rest t c c' he ht hp ihe ihp =>
    intro hfol f ps hts hps hf
    simp only [NT.rank] at hf
    obtain ⟨f, rfl⟩ : ∃ f', f = f' + 1 := ⟨f - 1, by omega⟩
    have n₁ := he.suffix.length_le
    have n₂ := hp.suffix.length_le
    simp only [List.length_cons] at n₁
    obtain ⟨p₁, e₁, ht₁, hl₁⟩ := ihe (by rw [show headKind (t :: ts₁) = '|' from ht]; decide) f ps hts hps
      (by simp only [NT.rank]; omega)
    -- the `|`, then the pipe on its right
    obtain ⟨p₂, e₂, ht₂, hl₂⟩ := @peek_eq str ['|'] rfl p₁
    obtain ⟨p₃, e₃, ht₃, hl₃⟩ := gettoken_eq_of_cons (ht₂.trans ht₁)
    obtain ⟨p₄, e₄, ht₄, hl₄⟩ := ihp hfol f p₃ ht₃ (hl₃ (hl₂ hl₁)) (by simp only [NT.rank]; omega)
    refine ⟨p₄, ?_, ht₄, hl₄⟩
    simp only [NT.parse] at e₁ e₄ ⊢
    rw [parsepipe, e₁, FoldM.ok_bind]
    dsimp only
    rw [e₂, ht₁, if_pos (by simp [headKind, ht])]
    dsimp only
    rw [e₃]
    dsimp only
    rw [e₄, FoldM.ok_bind]
  | @block ts ts₁ rest t t' c c' ht hl ht' hr ihl =>
    intro hfol f ps hts hps hf
    simp only [NT.rank, List.length_cons] at hf
    -- `parseexec` hands the block to `parseblock`, which hands its inside to `parseline`
    obtain ⟨f, rfl⟩ : ∃ f', f = f' + 2 := ⟨f - 2, by omega⟩
    have n₁ := hl.suffix.length_le
    simp only [List.length_cons] at n₁
    obtain ⟨p₁, e₁, ht₁, hl₁⟩ := @peek_eq str ['('] rfl ps
    obtain ⟨p₂, e₂, ht₂, hl₂⟩ := @peek_eq str ['('] rfl p₁
    obtain ⟨p₃, e₃, ht₃, hl₃⟩ := gettoken_eq_of_cons (ht₂.trans (ht₁.trans hts))
    obtain ⟨p₄, e₄, ht₄, hl₄⟩ := ihl (by rw [show headKind (t' :: ts₁) = ')' from ht']; decide) f p₃ ht₃
      (hl₃ (hl₂ (hl₁ hps))) (by simp only [NT.rank]; omega)
    obtain ⟨p₅, e₅, ht₅, hl₅⟩ := @peek_eq str [')'] rfl p₄
    obtain ⟨p₆, e₆, ht₆, hl₆⟩ := gettoken_eq_of_cons (ht₅.trans ht₄)
    obtain ⟨p₇, e₇, ht₇, hl₇⟩ := parseredirs_complete hr
      (not_redir_of_follow hfol) f ht₆ (hl₆ (hl₅ hl₄)) (by omega)
    refine ⟨p₇, ?_, ht₇, hl₇⟩
    simp only [NT.parse] at e₄ ⊢
    rw [parseexec, e₁, hts, if_pos (by simp [headKind, ht])]
    dsimp only
    rw [parseblock, e₂, ht₁, hts, if_neg (by simp [headKind, ht])]
    dsimp only
    rw [e₃]
    dsimp only
    rw [e₄, FoldM.ok_bind]
    dsimp only
    rw [e₅, ht₄, if_neg (by simp [headKind, ht'])]
    dsimp only
    rw [e₆]
    exact e₇
  | @exec ts ts₁ rest ws c₁ c₂ hr hw hmax =>
    intro hfol f ps hts hps hf
    simp only [NT.rank] at hf
    obtain ⟨f, rfl⟩ : ∃ f', f = f' + 1 := ⟨f - 1, by omega⟩
    -- a simple command does not start with `(`, and its redirections stop at a word or where it ends
    have hopen : headKind ts ∉ ['('] := by
      rcases hr.head with e | e
      · rw [e]
        rcases hw.head with e' | e'
        · rw [e']
          exact not_open_of_follow hfol
        · rw [e']
          decide
      · intro h
        rw [List.mem_singleton.1 h] at e
        exact absurd e (by decide)
    have hstop₁ : headKind ts₁ ∉ ['<', '>', '+'] := by
      rcases hw.head with e | e
      · rw [e]
        exact not_redir_of_follow hfol
      · rw [e]
        decide
    have n₁ := hr.suffix.length_le
    obtain ⟨p₁, e₁, ht₁, hl₁⟩ := @peek_eq str ['('] rfl ps
    obtain ⟨p₂, e₂, ht₂, hl₂⟩ := parseredirs_complete (hr.setArgv []) hstop₁ f (ht₁.trans hts) (hl₁ hps)
      (by omega)
    obtain ⟨p₃, e₃, ht₃, hl₃⟩ := execLoop_complete (hw.setArgv []) hfol f [] ht₂ hl₂ (by omega)
      (by simpa using hmax)
    refine ⟨p₃, ?_, ht₃, hl₃⟩
    simp only [NT.parse, setArgv_exec] at e₂ ⊢
    rw [parseexec, e₁, hts, if_neg (by simpa using hopen)]
    dsimp only
    rw [e₂, FoldM.ok_bind]
    dsimp only
    rw [e₃, FoldM.ok_bind]
    dsimp only
    -- the words go into the `execcmd` that the redirections wrap
    rw [List.nil_append, setArgv_setArgv, hw.setArgv_self (hr.setArgv_self rfl)]

end Complete

/-! ### `parsecmd` and `nulterminate` -/

/-- The words that `nulterminate` ends: those of the `execcmd`s and the file names of the redirections. -/
def Cmd.words : Cmd → List (Nat × Nat)
  | .exec argv => argv
  | .redir cmd file efile _ _ => cmd.words ++ [(file, efile)]
  | .pipe left right => left.words ++ right.words
  | .list left right => left.words ++ right.words
  | .back cmd => cmd.words

private theorem words_exec (argv : List (Nat × Nat)) : (Cmd.exec argv).words = argv := rfl
private theorem words_redir (cmd : Cmd) (file efile : Nat) (mode : Int) (fd : Nat) :
    (Cmd.redir cmd file efile mode fd).words = cmd.words ++ [(file, efile)] := rfl
private theorem words_pipe (left right : Cmd) : (Cmd.pipe left right).words = left.words ++ right.words := rfl
private theorem words_list (left right : Cmd) : (Cmd.list left right).words = left.words ++ right.words := rfl

/-- The C string at `q` in `buf`: its characters up to the first NUL. -/
def cstr (buf : List Char) (q : Nat) : List Char := (buf.drop q).takeWhile (· != '\x00')

/-- `w` is where the text of a word token of `ts` starts and ends. -/
def IsWord (ts : List Token) (w : Nat × Nat) : Prop := ∃ t ∈ ts, t.kind = 'a' ∧ t.q = w.1 ∧ t.eq = w.2

section Words

theorem IsWord.mono {ts ts' : List Token} {w : Nat × Nat} (hw : IsWord ts w) (h : ts <:+ ts') : IsWord ts' w := by
  obtain ⟨t, ht, hk, hq, he⟩ := hw
  exact ⟨t, h.subset ht, hk, hq, he⟩

@[simp] private theorem words_iterate_back (k : Nat) (c : Cmd) : (Cmd.back^[k] c).words = c.words := by
  induction k generalizing c with
  | zero => rfl
  | succ k ih => exact ih (Cmd.back c)

private theorem words_redirect {k : Char} (hk : k ∈ ['<', '>', '+']) (c : Cmd) (q e : Nat) :
    (redirect k c q e).words = c.words ++ [(q, e)] := by
  unfold redirect
  split_ifs with h₁ h₂ h₃
  · rfl
  · rfl
  · rfl
  · simp only [List.mem_cons, List.not_mem_nil, or_false] at hk
    rcases hk with h | h | h <;> contradiction

theorem Redirs.words {ts rest : List Token} {c c' : Cmd} (h : Redirs ts c c' rest) :
    ∀ w ∈ c'.words, w ∈ c.words ∨ IsWord ts w := by
  induction h with
  | nil => exact fun w hw => .inl hw
  | @cons op wd ts rest c c' hop hw _ ih =>
    intro w hmem
    rcases ih w hmem with h | h
    · rw [words_redirect hop, List.mem_append, List.mem_singleton] at h
      rcases h with h | rfl
      · exact .inl h
      · exact .inr ⟨wd, by simp, hw, rfl, rfl⟩
    · exact .inr (h.mono ((List.suffix_cons _ _).trans (List.suffix_cons _ _)))

theorem Words.words {ts rest : List Token} {c c' : Cmd} {ws : List (Nat × Nat)} (h : Words ts c ws c' rest) :
    (∀ w ∈ ws, IsWord ts w) ∧ ∀ w ∈ c'.words, w ∈ c.words ∨ IsWord ts w := by
  induction h with
  | nil => exact ⟨fun w hw => (by cases hw), fun w hw => .inl hw⟩
  | @cons wd ts ts₁ rest c c₁ c' ws hk hr _ ih =>
    have hsuf : ts₁ <:+ wd :: ts := hr.suffix.trans (List.suffix_cons _ _)
    refine ⟨fun w hmem => ?_, fun w hmem => ?_⟩
    · rcases List.mem_cons.1 hmem with rfl | h
      · exact ⟨wd, List.mem_cons_self, hk, rfl, rfl⟩
      · exact (ih.1 w h).mono hsuf
    · rcases ih.2 w hmem with h | h
      · rcases hr.words w h with h | h
        · exact .inl h
        · exact .inr (h.mono (List.suffix_cons _ _))
      · exact .inr (h.mono hsuf)

/-- Every word of a derived tree, of an `execcmd` or a redirection, is a word token of the derivation. -/
theorem Derives.words {nt : NT} {ts rest : List Token} {c : Cmd} (h : Derives nt ts c rest) :
    ∀ w ∈ c.words, IsWord ts w := by
  induction h with
  | line _ _ ih => simpa using ih
  | @list ts ts₁ ts₂ rest t c c' k hp ha _ _ ih₁ ih₂ =>
    intro w hmem
    simp only [words_list, words_iterate_back, List.mem_append] at hmem
    rcases hmem with h | h
    · exact ih₁ w h
    · exact (ih₂ w h).mono ((List.suffix_cons _ _).trans (ha.suffix.trans hp.suffix))
  | pipe _ ih => exact ih
  | @pipeCons ts ts₁ rest t c c' he _ _ ih₁ ih₂ =>
    intro w hmem
    simp only [words_pipe, List.mem_append] at hmem
    rcases hmem with h | h
    · exact ih₁ w h
    · exact (ih₂ w h).mono ((List.suffix_cons _ _).trans he.suffix)
  | @block ts ts₁ rest t t' c c' _ hl _ hr ih =>
    intro w hmem
    rcases hr.words w hmem with h | h
    · exact (ih w h).mono (List.suffix_cons _ _)
    · exact h.mono ((List.suffix_cons _ _).trans (hl.suffix.trans (List.suffix_cons _ _)))
  | @exec ts ts₁ rest ws c₁ c₂ hr hw _ =>
    intro w hmem
    rcases hw.words.2 w hmem with h | h
    · rcases hr.words w h with h | h
      · exact (hw.words.1 w h).mono hr.suffix
      · exact h
    · exact h.mono hr.suffix

end Words

section Nulterminate

private theorem length_nulterminate (c : Cmd) (buf : List Char) : (nulterminate c buf).length = buf.length := by
  induction c generalizing buf with
  | exec argv =>
    rw [nulterminate_exec]
    induction argv generalizing buf with
    | nil => rfl
    | cons w argv ih => rw [List.foldl_cons, ih, List.length_set]
  | redir cmd _ _ _ _ ih => rw [nulterminate_redir, List.length_set, ih]
  | pipe l r ihl ihr => rw [nulterminate_pipe, ihr, ihl]
  | list l r ihl ihr => rw [nulterminate_list, ihr, ihl]
  | back cmd ih => rw [nulterminate_back, ih]

/-- `nulterminate` changes nothing but the ends of the words of the tree. -/
theorem getElem?_nulterminate_of_not_mem (c : Cmd) (buf : List Char) {i : Nat}
    (hm : i ∉ c.words.map Prod.snd) : (nulterminate c buf)[i]? = buf[i]? := by
  induction c generalizing buf with
  | exec argv =>
    simp only [nulterminate_exec, words_exec] at hm ⊢
    induction argv generalizing buf with
    | nil => rfl
    | cons w argv ih =>
      simp only [List.map_cons, List.mem_cons, not_or] at hm
      rw [List.foldl_cons, ih _ hm.2, List.getElem?_set_ne (Ne.symm hm.1)]
  | redir cmd file efile mode fd ih =>
    simp only [words_redir, List.map_append, List.map_cons, List.map_nil, List.mem_append, List.mem_singleton,
      not_or] at hm
    rw [nulterminate_redir, List.getElem?_set_ne (Ne.symm hm.2), ih _ hm.1]
  | pipe l r ihl ihr =>
    simp only [words_pipe, List.map_append, List.mem_append, not_or] at hm
    rw [nulterminate_pipe, ihr _ hm.2, ihl _ hm.1]
  | list l r ihl ihr =>
    simp only [words_list, List.map_append, List.mem_append, not_or] at hm
    rw [nulterminate_list, ihr _ hm.2, ihl _ hm.1]
  | back cmd ih => exact ih buf hm

/-- `nulterminate` writes a NUL at the end of every word of the tree. -/
theorem getElem?_nulterminate_of_mem (c : Cmd) {buf : List Char} {i : Nat} (hi : i < buf.length)
    (hm : i ∈ c.words.map Prod.snd) : (nulterminate c buf)[i]? = some '\x00' := by
  induction c generalizing buf with
  | exec argv =>
    simp only [words_exec] at hm
    induction argv generalizing buf with
    | nil => cases hm
    | cons w argv ih =>
      have e : nulterminate (.exec (w :: argv)) buf = nulterminate (.exec argv) (buf.set w.2 '\x00') := rfl
      rw [e]
      by_cases h : i ∈ argv.map Prod.snd
      · exact ih (by rw [List.length_set]; exact hi) h
      · -- the last write to `i` is the one for `w`
        have hw : w.2 = i := by simpa [h, eq_comm] using hm
        rw [getElem?_nulterminate_of_not_mem _ _ (by simpa [words_exec] using h), ← hw,
          List.getElem?_set_self (hw ▸ hi)]
  | redir cmd file efile mode fd ih =>
    simp only [words_redir, List.map_append, List.map_cons, List.map_nil, List.mem_append, List.mem_singleton] at hm
    rw [nulterminate_redir]
    by_cases h : i = efile
    · subst h
      rw [List.getElem?_set_self (by rw [length_nulterminate]; exact hi)]
    · rw [List.getElem?_set_ne (Ne.symm h), ih hi (hm.resolve_right h)]
  | pipe l r ihl ihr =>
    simp only [words_pipe, List.map_append, List.mem_append] at hm
    rw [nulterminate_pipe]
    by_cases h : i ∈ r.words.map Prod.snd
    · exact ihr (by rw [length_nulterminate]; exact hi) h
    · rw [getElem?_nulterminate_of_not_mem _ _ h, ihl hi (hm.resolve_right h)]
  | list l r ihl ihr =>
    simp only [words_list, List.map_append, List.mem_append] at hm
    rw [nulterminate_list]
    by_cases h : i ∈ r.words.map Prod.snd
    · exact ihr (by rw [length_nulterminate]; exact hi) h
    · rw [getElem?_nulterminate_of_not_mem _ _ h, ihl hi (hm.resolve_right h)]
  | back cmd ih => exact ih hi hm

/-- Where `buf` holds the characters of `l` from `q` up to `e`, none of them NUL, and a NUL at `e`, the C string at
`q` is the text of `l` from `q` to `e`. -/
theorem cstr_eq_of {buf l : List Char} {q e : Nat} (hqe : q ≤ e) (he : buf[e]? = some '\x00')
    (hin : ∀ i, q ≤ i → i < e → ∃ x, buf[i]? = some x ∧ l[i]? = some x ∧ x ≠ '\x00') :
    cstr buf q = (l.drop q).take (e - q) := by
  induction hn : e - q generalizing q with
  | zero =>
    obtain rfl : q = e := by omega
    obtain ⟨hlt, hnul⟩ := List.getElem?_eq_some_iff.1 he
    rw [cstr, List.drop_eq_getElem_cons hlt, List.takeWhile_cons_of_neg (by simp [hnul])]
    rfl
  | succ n ih =>
    -- the character at `q` is kept, and the C string goes on from `q + 1`
    obtain ⟨x, hb, hl, hx⟩ := hin q (Nat.le_refl _) (by omega)
    obtain ⟨hlt, hbx⟩ := List.getElem?_eq_some_iff.1 hb
    obtain ⟨hlt', hlx⟩ := List.getElem?_eq_some_iff.1 hl
    have hrest := ih (q := q + 1) (by omega) (fun i h₁ h₂ => hin i (by omega) h₂) (by omega)
    rw [cstr] at hrest ⊢
    rw [List.drop_eq_getElem_cons hlt, List.takeWhile_cons_of_pos (by simp [hbx, hx]), hrest,
      List.drop_eq_getElem_cons hlt', List.take_succ_cons, hbx, hlx]

/-- After `nulterminate`, the C string at the start of each word of a derived command line is the word's text. -/
theorem cstr_nulterminate {str : List Char} {c : Cmd} (h : Derives .line (tokens str 0) c []) {w : Nat × Nat}
    (hw : w ∈ c.words) : ∃ t ∈ tokens str 0, t.kind = 'a' ∧ t.q = w.1 ∧ t.eq = w.2 ∧
      cstr (nulterminate c (str ++ ['\x00'])) t.q = (str.drop t.q).take (t.eq - t.q) := by
  obtain ⟨t, ht, hk, hq, he⟩ := h.words w hw
  refine ⟨t, ht, hk, hq, he, ?_⟩
  have hword := wordAt_of_mem ht hk
  have hlen : (str ++ ['\x00']).length = str.length + 1 := by simp
  apply cstr_eq_of (Nat.le_of_lt hword.lt)
  · -- the end of the word now holds a NUL
    have hmem : t.eq ∈ c.words.map Prod.snd := List.mem_map.2 ⟨w, hw, he.symm⟩
    exact getElem?_nulterminate_of_mem c (by have := hword.le; omega) hmem
  · -- inside the word nothing was written: no other word ends there
    intro i h₁ h₂
    have hi : i < str.length := by
      have := hword.le
      omega
    have hnot : i ∉ c.words.map Prod.snd := by
      intro hm
      obtain ⟨w', hw', rfl⟩ := List.mem_map.1 hm
      obtain ⟨t', ht', hk', -, he'⟩ := h.words w' hw'
      exact not_end_mem_word 0 t ht t' ht' hk hk' ⟨by omega, by omega⟩
    refine ⟨str[i], ?_, List.getElem?_eq_getElem hi, ?_⟩
    · rw [getElem?_nulterminate_of_not_mem c _ hnot, List.getElem?_append_left hi, List.getElem?_eq_getElem hi]
    · rw [← charAt_eq_getElem hi]
      exact wordChar_ne_nul (hword.chars i h₁ h₂)

end Nulterminate

section Parsecmd

variable {str : List Char}

private theorem parsecmd_sound {c : Cmd} {buf : List Char} (h : parsecmd str = .ok (c, buf)) :
    Derives .line (tokens str 0) c [] ∧ buf = nulterminate c (str ++ ['\x00']) := by
  unfold parsecmd at h
  obtain ⟨⟨c₁, p₁⟩, h₁, h⟩ := FoldM.bind_eq_ok.1 h
  dsimp only at h
  by_cases hend : (peek str p₁ []).2 = str.length
  · rw [if_neg (not_not.2 hend)] at h
    cases h
    -- the leftover check: past the whitespace the string has ended
    have hn : tokens str p₁ = [] := by
      rw [← tokens_peek p₁ [], hend, tokens_length]
    exact ⟨hn ▸ (parse_sound _).1 h₁, rfl⟩
  · rw [if_pos hend] at h
    cases h

private theorem parsecmd_complete (hs : '\x00' ∉ str) {c : Cmd} (h : Derives .line (tokens str 0) c []) :
    parsecmd str = .ok (c, nulterminate c (str ++ ['\x00'])) := by
  have hlen := @tokens_length_le str 0
  obtain ⟨ps, e, ht, hl⟩ := parse_complete h (by decide) (4 * str.length + 5) 0 rfl (Nat.zero_le _)
    (by simp only [NT.rank]; omega)
  have hend : skipWs str ps = str.length := (tokens_eq_nil_iff_skipWs hs hl).1 ht
  simp only [NT.parse] at e
  unfold parsecmd
  rw [e, FoldM.ok_bind]
  dsimp only
  rw [if_neg (by simp [peek, hend])]

/-- Four units of fuel per character and five more are enough: `parsecmd` never runs out. -/
theorem parsecmd_fuel (str : List Char) : parsecmd str ≠ .error .fuel := by
  intro h
  unfold parsecmd at h
  rcases FoldM.bind_eq_error.1 h with h₁ | ⟨⟨c, ps⟩, -, h⟩
  · exact (parse_fuel _).1 (by have := @tokens_length_le str 0; omega) h₁
  · dsimp only at h
    split_ifs at h
    cases h

end Parsecmd

/-- `parsecmd` of a string terminates, returning a command or panicking; it returns exactly the derivations of the
string's tokens from `line`, and after its `nulterminate` the C string at each word of the command is the word's
text. -/
theorem parsecmd_spec (str : List Char) (hs : '\x00' ∉ str) :
    ((∃ r, parsecmd str = .ok r) ∨ ∃ msg, parsecmd str = .error (.panic msg)) ∧
      (∀ c, (∃ buf, parsecmd str = .ok (c, buf)) ↔ Derives .line (tokens str 0) c []) ∧
      ∀ c buf, parsecmd str = .ok (c, buf) → ∀ w ∈ c.words, ∃ t ∈ tokens str 0, t.kind = 'a' ∧ t.q = w.1 ∧
        t.eq = w.2 ∧ cstr buf t.q = (str.drop t.q).take (t.eq - t.q) := by
  refine ⟨?_, fun c => ⟨fun ⟨_, h⟩ => (parsecmd_sound h).1, fun h => ⟨_, parsecmd_complete hs h⟩⟩, ?_⟩
  · -- it never runs out of fuel, so it returns or panics
    cases h : parsecmd str with
    | ok r => exact .inl ⟨r, rfl⟩
    | error e =>
      cases e with
      | panic msg => exact .inr ⟨msg, rfl⟩
      | fuel => exact absurd h (parsecmd_fuel str)
  · intro c buf h w hw
    obtain ⟨hd, rfl⟩ := parsecmd_sound h
    exact cstr_nulterminate hd hw

theorem parsecmd_spec_pipeline :
    '\x00' ∉ "ls > out | wc ; echo x &".toList ∧
      ((∃ r, parsecmd "ls > out | wc ; echo x &".toList = .ok r) ∨
          ∃ msg, parsecmd "ls > out | wc ; echo x &".toList = .error (.panic msg)) ∧
      (∀ c, (∃ buf, parsecmd "ls > out | wc ; echo x &".toList = .ok (c, buf)) ↔
          Derives .line (tokens "ls > out | wc ; echo x &".toList 0) c []) ∧
      ∀ c buf, parsecmd "ls > out | wc ; echo x &".toList = .ok (c, buf) → ∀ w ∈ c.words,
        ∃ t ∈ tokens "ls > out | wc ; echo x &".toList 0, t.kind = 'a' ∧ t.q = w.1 ∧ t.eq = w.2 ∧
          cstr buf t.q = ("ls > out | wc ; echo x &".toList.drop t.q).take (t.eq - t.q) :=
  ⟨by decide, parsecmd_spec _ (by decide)⟩

end Xv6.Sh
