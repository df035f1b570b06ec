import Xv6.Grep.Match

/-!
# The read loop of `grep`

`grep(pattern, fd)` reads into `buf[1024]` after the `m` bytes it keeps, cuts what it holds at each newline, writes
the lines that `match` accepts, and moves the bytes after the last newline to the front for the next read.  The
buffer is the list of its `m` bytes, and the reads are the chunks that `read` returns, in order; the loop stops
where they do.  `strchr` stops at a NUL as at the end of the string.

A buffer in which no newline is found is dropped (`if(p == buf) m = 0`), and with it the first part of a line that
a read cut before its newline: the loop then writes the line only if its last part matches (`grep_split_line`), so
what it writes depends on how the reads cut the stream.  Where every read but the last brings a newline, it writes
exactly the matching lines of the stream, each once and in order (`grepRun_spec`).
-/

namespace Xv6.Grep

/-! ### The lines of a stream -/

/-- The newline-terminated lines of a stream after a partial line `cur`, each without its newline. -/
def linesFrom : List Char → List Char → List (List Char)
  | _, [] => []
  | cur, c :: s => if c = '\n' then cur :: linesFrom [] s else linesFrom (cur ++ [c]) s

/-- The partial line at the end of a stream after a partial line `cur`. -/
def lastLine : List Char → List Char → List Char
  | cur, [] => cur
  | cur, c :: s => if c = '\n' then lastLine [] s else lastLine (cur ++ [c]) s

/-- The lines of a stream that end in a newline. -/
def lines (s : List Char) : List (List Char) := linesFrom [] s

/-- What `grep` should write for the lines `ls`: those that `match` accepts, each with its newline. -/
def emit (pattern : List Char) (ls : List (List Char)) : List Char :=
  ((ls.filter (Grep.match pattern)).map (· ++ ['\n'])).flatten

/-! ### The loop -/

/-- The inner `while((q = strchr(p, '\n')) != 0)` loop, with `line` the bytes from `p` scanned so far: the lines
written, and the bytes from `p` on where `strchr` finds no newline. -/
def scanLines (pattern line : List Char) : List Char → List Char × List Char
  | [] => ([], line)
  | c :: s =>
    if c = '\n' then
      ((if Grep.match pattern line then line ++ ['\n'] else []) ++ (scanLines pattern [] s).1,
        (scanLines pattern [] s).2)
    else if c = '\x00' then ([], line ++ c :: s)
    else scanLines pattern (line ++ [c]) s

/-- One pass of the outer loop: `read` put `chunk` after the kept bytes `buf`; the lines written, and the bytes
kept for the next read. -/
def grepStep (pattern buf chunk : List Char) : List Char × List Char :=
  -- `p == buf` when the inner loop found no newline; then `m = 0`, else `memmove(buf, p, m)`
  ((scanLines pattern [] (buf ++ chunk)).1,
    if (scanLines pattern [] (buf ++ chunk)).2.length = (buf ++ chunk).length then []
    else (scanLines pattern [] (buf ++ chunk)).2)

/-- `grep(pattern, fd)` after the kept bytes `buf`, over the successive results of `read`: what it writes to fd 1. -/
def grepRun (pattern : List Char) : List Char → List (List Char) → List Char
  | _, [] => []
  | buf, chunk :: chunks => (grepStep pattern buf chunk).1 ++ grepRun pattern (grepStep pattern buf chunk).2 chunks

/-- Each read returns at least one byte and at most the `sizeof(buf) - m - 1` bytes asked for. -/
def ReadsFit (pattern : List Char) : List Char → List (List Char) → Prop
  | _, [] => True
  | buf, chunk :: chunks =>
    chunk ≠ [] ∧ chunk.length ≤ 1023 - buf.length ∧ ReadsFit pattern (grepStep pattern buf chunk).2 chunks

/-! ### Lines -/

section Lines

variable {cur s s₁ s₂ : List Char}

private theorem emit_nil (pattern : List Char) : emit pattern [] = [] := rfl

private theorem emit_cons (pattern l : List Char) (ls : List (List Char)) :
    emit pattern (l :: ls) = (if Grep.match pattern l then l ++ ['\n'] else []) ++ emit pattern ls := by
  unfold emit
  by_cases h : Grep.match pattern l <;> simp [h]

private theorem emit_append (pattern : List Char) (ls₁ ls₂ : List (List Char)) :
    emit pattern (ls₁ ++ ls₂) = emit pattern ls₁ ++ emit pattern ls₂ := by
  simp [emit, List.filter_append]

private theorem linesFrom_append (cur s₁ s₂ : List Char) :
    linesFrom cur (s₁ ++ s₂) = linesFrom cur s₁ ++ linesFrom (lastLine cur s₁) s₂ := by
  induction s₁ generalizing cur with
  | nil => rfl
  | cons c s ih =>
    by_cases hc : c = '\n' <;> simp [linesFrom, lastLine, hc, ih]

/-- Without a newline a stream ends no line, and adds all of itself to the partial line. -/
theorem linesFrom_of_not_mem (h : '\n' ∉ s) (cur : List Char) : linesFrom cur s = [] ∧ lastLine cur s = cur ++ s := by
  induction s generalizing cur with
  | nil => simp [linesFrom, lastLine]
  | cons c s ih =>
    have hc : c ≠ '\n' := fun hc => h (hc ▸ List.mem_cons_self)
    obtain ⟨h₁, h₂⟩ := ih (fun hm => h (List.mem_cons_of_mem _ hm)) (cur ++ [c])
    simp [linesFrom, lastLine, hc, h₁, h₂]

/-- The lines after a partial line are the lines of the stream that starts with it. -/
theorem linesFrom_eq (h : '\n' ∉ cur) (s : List Char) : linesFrom cur s = lines (cur ++ s) := by
  rw [lines, linesFrom_append, (linesFrom_of_not_mem h []).1, (linesFrom_of_not_mem h []).2, List.nil_append,
    List.nil_append]

private theorem not_mem_lastLine (h : '\n' ∉ cur) (s : List Char) : '\n' ∉ lastLine cur s := by
  induction s generalizing cur with
  | nil => exact h
  | cons c s ih =>
    unfold lastLine
    split
    · exact ih (by simp)
    · rename_i hc
      exact ih (by simp [h, Ne.symm hc])

/-- The partial line holds bytes of the old partial line and of the stream only. -/
theorem mem_lastLine {x : Char} (s : List Char) (cur : List Char) (h : x ∈ lastLine cur s) : x ∈ cur ∨ x ∈ s := by
  induction s generalizing cur with
  | nil => exact .inl h
  | cons c s ih =>
    unfold lastLine at h
    split at h
    · rcases ih [] h with h | h
      · cases h
      · exact .inr (List.mem_cons_of_mem _ h)
    · rcases ih _ h with h | h
      · rcases List.mem_append.1 h with h | h
        · exact .inl h
        · exact .inr (by simp_all)
      · exact .inr (List.mem_cons_of_mem _ h)

/-- After a newline the partial line is shorter than all that was read. -/
theorem length_lastLine_lt (h : '\n' ∈ s) (cur : List Char) : (lastLine cur s).length < cur.length + s.length := by
  induction s generalizing cur with
  | nil => cases h
  | cons c s ih =>
    unfold lastLine
    split
    · rename_i hc
      by_cases hs : '\n' ∈ s
      · have := ih hs []
        simp only [List.length_nil, List.length_cons] at this ⊢
        omega
      · rw [(linesFrom_of_not_mem hs []).2, List.nil_append, List.length_cons]
        omega
    · rename_i hc
      have hs : '\n' ∈ s := (List.mem_cons.1 h).resolve_left (Ne.symm hc)
      have := ih hs (cur ++ [c])
      simp only [List.length_append, List.length_cons, List.length_nil] at this ⊢
      omega

/-- A line and its newline make one line. -/
theorem lines_line {l : List Char} (h : '\n' ∉ l) : lines (l ++ ['\n']) = [l] := by
  rw [lines, linesFrom_append, (linesFrom_of_not_mem h []).1, (linesFrom_of_not_mem h []).2]
  simp [linesFrom]

end Lines

/-! ### The inner and the outer loop -/

section Loop

variable {pattern buf chunk : List Char}

/-- Over bytes without a NUL, the inner loop writes the matching lines that end in a newline and stops at the
partial line after them. -/
theorem scanLines_eq {s : List Char} (h : '\x00' ∉ s) (line : List Char) :
    scanLines pattern line s = (emit pattern (linesFrom line s), lastLine line s) := by
  induction s generalizing line with
  | nil => rfl
  | cons c s ih =>
    have hs : '\x00' ∉ s := fun hm => h (List.mem_cons_of_mem _ hm)
    by_cases hc : c = '\n'
    · simp [scanLines, linesFrom, lastLine, hc, ih hs, emit_cons]
    · have hnul : c ≠ '\x00' := fun hn => h (hn ▸ List.mem_cons_self)
      simp [scanLines, linesFrom, lastLine, hc, hnul, ih hs]

/-- A pass whose bytes hold a newline writes their matching lines and keeps the partial line after them. -/
theorem grepStep_of_mem (h : '\x00' ∉ buf ++ chunk) (hn : '\n' ∈ buf ++ chunk) :
    grepStep pattern buf chunk = (emit pattern (lines (buf ++ chunk)), lastLine [] (buf ++ chunk)) := by
  have hlt := length_lastLine_lt hn []
  simp only [List.length_nil, Nat.zero_add] at hlt
  simp only [grepStep, scanLines_eq h, if_neg hlt.ne, lines]

/-- A pass whose bytes hold no newline writes nothing and keeps nothing: the partial line is dropped. -/
theorem grepStep_of_not_mem (h : '\x00' ∉ buf ++ chunk) (hn : '\n' ∉ buf ++ chunk) :
    grepStep pattern buf chunk = ([], []) := by
  obtain ⟨h₁, h₂⟩ := linesFrom_of_not_mem hn []
  simp [grepStep, scanLines_eq h, h₁, h₂, emit_nil]

/-- The loop after a partial line `buf`, when every read but the last brings a newline, writes the matching lines
of all it reads. -/
theorem grepRun_eq {chunks : List (List Char)} (hbuf : '\n' ∉ buf) (h : '\x00' ∉ buf ++ chunks.flatten)
    (hn : ∀ c ∈ chunks.dropLast, '\n' ∈ c) : grepRun pattern buf chunks = emit pattern (lines (buf ++ chunks.flatten)) := by
  induction chunks generalizing buf with
  | nil => simp [grepRun, lines, (linesFrom_of_not_mem hbuf []).1, emit_nil]
  | cons chunk chunks ih =>
    have hstep : '\x00' ∉ buf ++ chunk := fun hm => h (by simp only [List.flatten_cons, List.mem_append] at hm ⊢; tauto)
    by_cases hm : '\n' ∈ buf ++ chunk
    · -- the pass writes the lines of what it holds; the partial line after them starts the rest of the run
      have hlast : '\n' ∉ lastLine [] (buf ++ chunk) := not_mem_lastLine (by simp) _
      have hrest : '\x00' ∉ lastLine [] (buf ++ chunk) ++ chunks.flatten := by
        intro hx
        rcases List.mem_append.1 hx with hx | hx
        · rcases mem_lastLine _ _ hx with hx | hx
          · cases hx
          · exact hstep hx
        · exact h (by simp only [List.flatten_cons, List.mem_append]; exact .inr (.inr hx))
      have hn' : ∀ c ∈ chunks.dropLast, '\n' ∈ c := by
        cases chunks with
        | nil => simp
        | cons d ds =>
          intro c hc
          exact hn c (by rw [List.dropLast_cons_of_ne_nil (List.cons_ne_nil d ds)]; exact List.mem_cons_of_mem _ hc)
      calc grepRun pattern buf (chunk :: chunks)
          = emit pattern (lines (buf ++ chunk)) ++ grepRun pattern (lastLine [] (buf ++ chunk)) chunks := by
            rw [grepRun, grepStep_of_mem hstep hm]
        _ = emit pattern (lines (buf ++ chunk)) ++
              emit pattern (linesFrom (lastLine [] (buf ++ chunk)) chunks.flatten) := by
            rw [ih hlast hrest hn', ← linesFrom_eq hlast]
        _ = emit pattern (lines (buf ++ (chunk :: chunks).flatten)) := by
            rw [← emit_append, lines, lines, ← linesFrom_append, List.flatten_cons, List.append_assoc]
    · -- a read without a newline is the last one, and nothing is written
      cases chunks with
      | nil =>
        rw [grepRun, grepStep_of_not_mem hstep hm, grepRun, List.flatten_singleton, lines,
          (linesFrom_of_not_mem hm []).1, emit_nil]
        rfl
      | cons d ds =>
        have := hn chunk (by simp)
        exact absurd (List.mem_append_right buf this) hm

/-- Where every read but the last brings a newline, `grep` writes exactly the lines of the stream that `match`
accepts, each once, with its newline, and in order: the same as for the whole stream in one read. -/
theorem grepRun_spec (pattern : List Char) {chunks : List (List Char)} (h : '\x00' ∉ chunks.flatten)
    (hn : ∀ c ∈ chunks.dropLast, '\n' ∈ c) : grepRun pattern [] chunks = emit pattern (lines chunks.flatten) := by
  have hrun : grepRun pattern [] chunks = emit pattern (lines ([] ++ chunks.flatten)) :=
    grepRun_eq List.not_mem_nil (by simpa using h) hn
  simpa using hrun

theorem grepRun_spec_two_reads :
    '\x00' ∉ [['a', 'b', '\n', 'c'], ['d', '\n']].flatten ∧
      (∀ c ∈ [['a', 'b', '\n', 'c'], ['d', '\n']].dropLast, '\n' ∈ c) ∧
      grepRun ['b'] [] [['a', 'b', '\n', 'c'], ['d', '\n']] = emit ['b'] (lines ['a', 'b', '\n', 'c', 'd', '\n']) :=
  ⟨by decide, by decide, grepRun_spec ['b'] (by decide) (by decide)⟩

/-- A read that returns the first part `u` of a line, before its newline, leaves a buffer without a newline, which
`grep` drops: the line is then written only if its last part `v` matches, where one read of the whole line writes
it if the whole line matches. -/
theorem grep_split_line (pattern u v : List Char) (hu : u ≠ []) (hnl : '\n' ∉ u ++ v) (hnul : '\x00' ∉ u ++ v)
    (hlen : (u ++ v).length < 1023) :
    ReadsFit pattern [] [u, v ++ ['\n']] ∧ grepRun pattern [] [u, v ++ ['\n']] = emit pattern [v] ∧
      grepRun pattern [] [u ++ v ++ ['\n']] = emit pattern [u ++ v] := by
  have hv : '\n' ∉ v := fun h => hnl (List.mem_append_right u h)
  have hline : ∀ l : List Char, '\n' ∉ l → '\x00' ∉ l → grepRun pattern [] [l ++ ['\n']] = emit pattern [l] := by
    intro l hl hl0
    have hrun : grepRun pattern [] [l ++ ['\n']] = emit pattern (lines ([] ++ [l ++ ['\n']].flatten)) :=
      grepRun_eq List.not_mem_nil (by simpa using hl0) (by simp)
    rw [hrun, List.nil_append, List.flatten_singleton, lines_line hl]
  -- the first read holds no newline, so the pass writes nothing and keeps nothing
  have hfirst : grepStep pattern [] u = ([], []) :=
    grepStep_of_not_mem (by simpa using fun h => hnul (List.mem_append_left v h))
      (by simpa using fun h => hnl (List.mem_append_left v h))
  refine ⟨⟨hu, by simp at hlen ⊢; omega, ?_⟩, ?_, ?_⟩
  · rw [hfirst]
    exact ⟨by simp, by simp at hlen ⊢; omega, trivial⟩
  · rw [grepRun, hfirst, List.nil_append]
    exact hline v hv (fun h => hnul (List.mem_append_right u h))
  · exact hline (u ++ v) hnl hnul

theorem grep_split_line_ab :
    ReadsFit ['a'] [] [['a'], ['b', '\n']] ∧ grepRun ['a'] [] [['a'], ['b', '\n']] = [] ∧
      grepRun ['a'] [] [['a', 'b', '\n']] = ['a', 'b', '\n'] := by
  obtain ⟨hfit, hsplit, hone⟩ := grep_split_line ['a'] ['a'] ['b'] (by decide) (by decide) (by decide) (by decide)
  exact ⟨hfit, hsplit.trans (by decide), hone.trans (by decide)⟩

end Loop

end Xv6.Grep
