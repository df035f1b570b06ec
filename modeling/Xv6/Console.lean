import Xv6.Param
import Xv6.Lib.Ring
import Xv6.Lib.StepSys
import Xv6.Lib.Tagged

/-!
# Console input

`console.c`: the keyboard's characters go into `input`, a ring of `INPUT_BUF` characters with three free-running
`uint` indices: `r`, the next character a reader takes, `w`, the end of the committed characters, and `e`, the end of
the line being edited.  `consoleintr` edits the line (backspace and `C('U')` erase back towards `w`) and commits it
on a newline, a `C('D')` or a full ring; `consoleread` takes committed characters, up to `n`, a newline or a
`C('D')`, sleeping while there are none.  It holds the console lock between sleeps, so a call is a sequence of
atomic runs, each up to a sleep or the return.

The system `ConsSys` is the ring with every `consoleread` call made on it and a ghost stream of the characters the
reads took, each with the number of its call.  The committed stream `ConsSys.committed` is what the reads took,
then what is committed and not yet taken.  Over every interleaving (`ConsReachable`) the indices stay in order
within `INPUT_BUF` modulo `2^32`, no step removes anything from the committed stream (`consStep_committed`), and each
call took committed characters in order and returned them, a `C('D')` only at its start and then with 0 bytes
(`reachable_console_ok`).  A read whose process is killed may take characters and return `-1`; those characters are
returned to no read (`killed_read_takes_input`).
-/

namespace Xv6

/-- `INPUT_BUF`: characters of the console's input ring. -/
def INPUT_BUF : Nat := 128

/-- `C(x)`: the code of control-`x`. -/
def C (x : Char) : UInt8 := x.toUInt8 - '@'.toUInt8

/-- `input`: the character at index `x` is `buf (x % INPUT_BUF)`. -/
@[ext]
structure Input where
  buf : Nat → UInt8
  r : Nat
  w : Nat
  e : Nat

/-- `input` as the kernel starts with it, zeroed. -/
def inputInit : Input := { buf := fun _ => 0, r := 0, w := 0, e := 0 }

namespace Input

/-- `input.e--`. -/
def erase (inp : Input) : Input := { inp with e := Ring.pred UINT_MOD inp.e }

/-- `input.buf[input.e++ % INPUT_BUF] = c`. -/
def store (inp : Input) (c : UInt8) : Input :=
  { inp with buf := Function.update inp.buf (inp.e % INPUT_BUF) c, e := (inp.e + 1) % UINT_MOD }

/-- `input.w = input.e`. -/
def commit (inp : Input) : Input := { inp with w := inp.e }

/-- The `input.r++` of `consoleread`. -/
def take (inp : Input) : Input := { inp with r := (inp.r + 1) % UINT_MOD }

/-- The `input.r--` of `consoleread`. -/
def untake (inp : Input) : Input := { inp with r := Ring.pred UINT_MOD inp.r }

/-- The committed characters not yet taken, from `r` to `w`. -/
def pending (inp : Input) : List UInt8 := Ring.view INPUT_BUF inp.buf inp.r (Ring.dist UINT_MOD inp.r inp.w)

/-! The fields after `input.e--` and `input.r--`, stated as rewrites: comparing `inp.erase` with `inp` by unfolding
would run `Ring.pred` through the literal `2^32`. -/

variable (inp : Input)

private theorem erase_eq : inp.erase = { inp with e := Ring.pred UINT_MOD inp.e } := rfl
private theorem untake_eq : inp.untake = { inp with r := Ring.pred UINT_MOD inp.r } := rfl

@[simp] private theorem erase_buf : inp.erase.buf = inp.buf := by rw [erase_eq]
@[simp] private theorem erase_r : inp.erase.r = inp.r := by rw [erase_eq]
@[simp] private theorem erase_w : inp.erase.w = inp.w := by rw [erase_eq]
@[simp] private theorem erase_e : inp.erase.e = Ring.pred UINT_MOD inp.e := by rw [erase_eq]
@[simp] private theorem untake_buf : inp.untake.buf = inp.buf := by rw [untake_eq]
@[simp] private theorem untake_r : inp.untake.r = Ring.pred UINT_MOD inp.r := by rw [untake_eq]
@[simp] private theorem untake_w : inp.untake.w = inp.w := by rw [untake_eq]
@[simp] private theorem untake_e : inp.untake.e = inp.e := by rw [untake_eq]

end Input

/-- The loop of `C('U')`, erasing back to `w` or to the last newline.  Each turn takes `e` one step towards `w`, so
it runs at most `dist w e` times, the fuel it is given. -/
def killLine : Nat → Input → Input
  | 0, inp => inp
  | k + 1, inp =>
    if inp.e ≠ inp.w ∧ inp.buf (Ring.pred UINT_MOD inp.e % INPUT_BUF) ≠ '\n'.toUInt8 then
      killLine k inp.erase
    else inp

/-- The `default` case of `consoleintr`: store the character if the ring has room (`input.e-input.r` is the
distance from `r` to `e` in `uint`), and commit the line on a newline, a `C('D')` or a full ring. -/
def consoleintrStore (c : UInt8) (inp : Input) : Input :=
  if c ≠ 0 ∧ Ring.dist UINT_MOD inp.r inp.e < INPUT_BUF then
    let c := if c = '\r'.toUInt8 then '\n'.toUInt8 else c
    let inp := inp.store c
    if c = '\n'.toUInt8 ∨ c = C 'D' ∨ inp.e = (inp.r + INPUT_BUF) % UINT_MOD then inp.commit else inp
  else inp

/-- One character of `consoleintr`'s loop (`C('P')` only asks for a process listing after the loop). -/
def consoleintrChar (inp : Input) (c : UInt8) : Input :=
  if c = C 'P' then inp
  else if c = C 'U' then killLine (Ring.dist UINT_MOD inp.w inp.e) inp
  else if c = C 'H' ∨ c = 0x7f then
    if inp.e ≠ inp.w then inp.erase else inp
  else consoleintrStore c inp

/-- `consoleintr` over the characters `getc` returns before its first negative value. -/
def consoleintr (cs : List UInt8) (inp : Input) : Input := cs.foldl consoleintrChar inp

/-- How a run of `consoleread`'s loop under the lock ends. -/
inductive ReadEnd where
  /-- The loop ended or broke with `n` left: `consoleread` returns `target - n`. -/
  | done (n : Nat)
  /-- The ring was empty and the process killed: it returns `-1`. -/
  | fail
  /-- The ring was empty: the reader sleeps on `input.r` with `n` left. -/
  | sleep (n : Nat)
  deriving DecidableEq, Repr

/-- The loop of `consoleread(ip, dst, n)` with `n` left and `dst` copied so far. -/
def consolereadLoop (killed : Bool) (target : Nat) : Nat → List UInt8 → Input → ReadEnd × List UInt8 × Input
  | 0, dst, inp => (.done 0, dst, inp)
  | n + 1, dst, inp =>
    if inp.r = inp.w then
      if killed then (.fail, dst, inp) else (.sleep (n + 1), dst, inp)
    else
      let c := inp.buf (inp.r % INPUT_BUF)
      if c = C 'D' then
        -- a `C('D')` after some characters is saved for the next read, which then returns 0
        if n + 1 < target then (.done (n + 1), dst, inp.take.untake) else (.done (n + 1), dst, inp.take)
      else if c = '\n'.toUInt8 then (.done n, dst ++ [c], inp.take)
      else consolereadLoop killed target n (dst ++ [c]) inp.take

/-- Where a `consoleread` call is: asleep with `n` characters left, or returned with `r`. -/
inductive ReadStatus where
  | asleep (n : Nat)
  | returned (r : Int)
  deriving DecidableEq, Repr

/-- The status a run of `consoleread`'s loop leaves its call in. -/
def ReadEnd.status (target : Nat) : ReadEnd → ReadStatus
  | .done n => .returned ((target - n : Nat) : Int)
  | .fail => .returned (-1)
  | .sleep n => .asleep n

/-- A `consoleread` call: the `n` it was called with, the characters it copied to `dst`, where it is, and whether
its process was killed at its last run (the `killed(myproc())` the loop tests). -/
structure ReadCall where
  target : Nat
  dst : List UInt8
  status : ReadStatus
  killed : Bool
  deriving DecidableEq, Repr

/-- The console's input, every `consoleread` call made on it, numbered in order, and the ghost stream of the
characters the calls took, each with its call's number. -/
structure ConsSys where
  input : Input
  reads : List ReadCall
  consumed : List (Nat × UInt8)

/-- What the keyboard and the readers do. -/
inductive ConsEvent where
  /-- A keyboard interrupt: `consoleintr` with these characters. -/
  | intr (cs : List UInt8)
  /-- A process calls `consoleread` for `n` characters. -/
  | read (n : Nat) (killed : Bool)
  /-- Call `k`, asleep in `consoleread`, gets the lock again. -/
  | wake (k : Nat) (killed : Bool)

namespace ConsSys

/-- The committed stream: what the reads took, then what is committed and not yet taken. -/
def committed (s : ConsSys) : List UInt8 := s.consumed.map Prod.snd ++ s.input.pending

/-- One run of call `k` of `consoleread` with `n` left: the ring and the call move as the code does, and the
characters between the old and the new `r` are added to the stream of taken characters. -/
def runRead (s : ConsSys) (k target n : Nat) (dst : List UInt8) (killed : Bool) : ConsSys :=
  let (e, dst', inp) := consolereadLoop killed target n dst s.input
  { input := inp
    reads := s.reads.set k ⟨target, dst', e.status target, killed⟩
    consumed := s.consumed ++
      (Ring.view INPUT_BUF s.input.buf s.input.r (Ring.dist UINT_MOD s.input.r inp.r)).map (Prod.mk k) }

end ConsSys

/-- The step of the system: a new call is numbered after the others and starts with `n` left and nothing copied. -/
def consStep (s : ConsSys) : ConsEvent → Option ConsSys
  | .intr cs => some { s with input := consoleintr cs s.input }
  | .read n killed =>
    some ({ s with reads := s.reads ++ [ReadCall.mk n [] (.asleep n) killed] }.runRead s.reads.length n n [] killed)
  | .wake k killed =>
    match s.reads[k]? with
    | some ⟨target, dst, .asleep n, _⟩ => some (s.runRead k target n dst killed)
    | _ => none

/-- The console at boot, with no read made. -/
def consInit : ConsSys := { input := inputInit, reads := [], consumed := [] }

/-- The console over every interleaving of keyboard interrupts and reads. -/
def ConsReachable (s : ConsSys) : Prop := StepSys.Reachable consStep consInit s

/-! ## The ring -/

namespace Input

variable {inp inp' inp₁ inp₂ inp₃ : Input}

/-- The indices are `uint`s with `r ≤ w ≤ e ≤ r + INPUT_BUF` modulo `2^32`. -/
structure Ok (inp : Input) : Prop where
  r_lt : inp.r < UINT_MOD
  w_lt : inp.w < UINT_MOD
  e_lt : inp.e < UINT_MOD
  dist_le : Ring.dist UINT_MOD inp.r inp.w + Ring.dist UINT_MOD inp.w inp.e ≤ INPUT_BUF

private theorem input_buf_lt : INPUT_BUF < UINT_MOD := by decide

private theorem input_buf_dvd : INPUT_BUF ∣ UINT_MOD := ⟨33554432, rfl⟩

private theorem ok_init : inputInit.Ok := by
  refine ⟨by decide, by decide, by decide, ?_⟩
  show Ring.dist UINT_MOD 0 0 + Ring.dist UINT_MOD 0 0 ≤ INPUT_BUF
  rw [Ring.dist_self (by decide)]
  decide

private theorem Ok.dist_re (h : inp.Ok) :
    Ring.dist UINT_MOD inp.r inp.e = Ring.dist UINT_MOD inp.r inp.w + Ring.dist UINT_MOD inp.w inp.e :=
  Ring.dist_add h.r_lt h.w_lt h.e_lt (by have := h.dist_le; have := input_buf_lt; omega)

/-- The cell of `e` is the one after the characters from `r` to `e`. -/
theorem Ok.e_cell (h : inp.Ok) : inp.e % INPUT_BUF = (inp.r + Ring.dist UINT_MOD inp.r inp.e) % INPUT_BUF := by
  conv_lhs => rw [← Ring.add_dist h.r_lt h.e_lt]
  exact Nat.mod_mod_of_dvd _ input_buf_dvd

/-- `pending` reads only the ring, `r` and `w`. -/
theorem pending_eq (hb : inp'.buf = inp.buf) (hr : inp'.r = inp.r) (hw : inp'.w = inp.w) :
    inp'.pending = inp.pending := by
  unfold pending
  rw [hb, hr, hw]

/-- What `consoleintr` may do to the ring: keep the invariant and `r`, and add to the committed characters. -/
structure Grows (inp inp' : Input) : Prop where
  ok : inp'.Ok
  r_eq : inp'.r = inp.r
  pending_prefix : inp.pending <+: inp'.pending

theorem Grows.refl (h : inp.Ok) : Grows inp inp := ⟨h, rfl, List.prefix_refl _⟩

theorem Grows.trans (h₁ : Grows inp₁ inp₂) (h₂ : Grows inp₂ inp₃) : Grows inp₁ inp₃ :=
  ⟨h₂.ok, h₂.r_eq.trans h₁.r_eq, h₁.pending_prefix.trans h₂.pending_prefix⟩

/-- Backspace stops at `w`, so it erases no committed character. -/
theorem Ok.erase (h : inp.Ok) (he : inp.e ≠ inp.w) : Grows inp inp.erase := by
  have hd := Ring.dist_pred_right h.w_lt h.e_lt (Ne.symm he)
  have hle := h.dist_le
  refine ⟨⟨?_, ?_, ?_, ?_⟩, erase_r inp, ?_⟩
  · rw [erase_r]
    exact h.r_lt
  · rw [erase_w]
    exact h.w_lt
  · rw [erase_e]
    exact Ring.pred_lt (by decide)
  · rw [erase_r, erase_w, erase_e]
    omega
  · have he := pending_eq (erase_buf inp) (erase_r inp) (erase_w inp)
    exact (congrArg (List.IsPrefix inp.pending) he).mpr (List.prefix_refl _)

/-- A store with room in the ring lands past the committed characters. -/
theorem Ok.store (h : inp.Ok) (hroom : Ring.dist UINT_MOD inp.r inp.e < INPUT_BUF) (c : UInt8) :
    Grows inp (inp.store c) := by
  have hre := h.dist_re
  have he : Ring.dist UINT_MOD inp.w ((inp.e + 1) % UINT_MOD) = Ring.dist UINT_MOD inp.w inp.e + 1 :=
    Ring.dist_succ_right h.w_lt h.e_lt (by have := input_buf_lt; omega)
  refine ⟨⟨h.r_lt, h.w_lt, Nat.mod_lt _ (by decide), ?_⟩, rfl, ?_⟩
  · show Ring.dist UINT_MOD inp.r inp.w + Ring.dist UINT_MOD inp.w ((inp.e + 1) % UINT_MOD) ≤ INPUT_BUF
    omega
  · show _ <+: Ring.view INPUT_BUF (Function.update inp.buf (inp.e % INPUT_BUF) c) inp.r
      (Ring.dist UINT_MOD inp.r inp.w)
    rw [h.e_cell, Ring.view_update_out (fun k hk => Ring.cell_ne (by omega) hroom)]
    exact List.prefix_refl _

/-- Committing the line appends it to the committed characters. -/
theorem Ok.commit (h : inp.Ok) : Grows inp inp.commit := by
  have hre := h.dist_re
  refine ⟨⟨h.r_lt, h.e_lt, h.e_lt, ?_⟩, rfl,
    Ring.view_prefix (show Ring.dist UINT_MOD inp.r inp.w ≤ Ring.dist UINT_MOD inp.r inp.e by omega)⟩
  show Ring.dist UINT_MOD inp.r inp.e + Ring.dist UINT_MOD inp.e inp.e ≤ INPUT_BUF
  rw [Ring.dist_self h.e_lt]
  have := h.dist_le
  omega

/-- Taking a character off a ring with committed characters pops the oldest. -/
theorem Ok.take (h : inp.Ok) (hne : inp.r ≠ inp.w) :
    inp.take.Ok ∧ inp.pending = inp.buf (inp.r % INPUT_BUF) :: inp.take.pending := by
  have hd : Ring.dist UINT_MOD inp.r inp.w ≠ 0 := fun h0 => hne ((Ring.dist_eq_zero_iff h.r_lt h.w_lt).1 h0)
  have hd' := Ring.dist_succ_left h.r_lt h.w_lt hne
  refine ⟨⟨Nat.mod_lt _ (by decide), h.w_lt, h.e_lt, ?_⟩, ?_⟩
  · show Ring.dist UINT_MOD ((inp.r + 1) % UINT_MOD) inp.w + Ring.dist UINT_MOD inp.w inp.e ≤ INPUT_BUF
    have := h.dist_le
    omega
  · show Ring.view INPUT_BUF inp.buf inp.r (Ring.dist UINT_MOD inp.r inp.w) =
      _ :: Ring.view INPUT_BUF inp.buf ((inp.r + 1) % UINT_MOD) (Ring.dist UINT_MOD ((inp.r + 1) % UINT_MOD) inp.w)
    rw [Ring.view_pop (Nat.pos_of_ne_zero hd), hd', Ring.view_mod input_buf_dvd]

private theorem untake_take (h : inp.r < UINT_MOD) : inp.take.untake = inp := by
  apply Input.ext <;> simp only [untake_buf, untake_r, untake_w, untake_e]
  · rfl
  · exact Ring.pred_succ h
  · rfl
  · rfl

/-- The characters between the old and the new `r` are those taken off the committed ones. -/
theorem taken_view {t : List UInt8} (h : inp.Ok) (hr : inp'.r = (inp.r + t.length) % UINT_MOD)
    (hp : inp.pending = t ++ inp'.pending) :
    Ring.view INPUT_BUF inp.buf inp.r (Ring.dist UINT_MOD inp.r inp'.r) = t := by
  have hlen : Ring.dist UINT_MOD inp.r inp.w = t.length + Ring.dist UINT_MOD inp'.r inp'.w := by
    have := congrArg List.length hp
    simpa [pending] using this
  have ht : t.length < UINT_MOD := by
    have := h.dist_le
    have := input_buf_lt
    omega
  rw [hr, Ring.dist_add_mod h.r_lt ht]
  unfold pending at hp
  rw [hlen, Ring.view_add] at hp
  exact (List.append_inj hp (by simp)).1

end Input

/-! ## `consoleintr` -/

section Intr

variable {inp : Input}

private theorem killLine_grows (k : Nat) (h : inp.Ok) : Input.Grows inp (killLine k inp) := by
  -- induction on the fuel; each turn is a backspace
  induction k generalizing inp with
  | zero => exact .refl h
  | succ k ih =>
    unfold killLine
    split
    · rename_i hc
      have h₁ := h.erase hc.1
      exact h₁.trans (ih h₁.ok)
    · exact .refl h

private theorem consoleintrStore_grows (c : UInt8) (h : inp.Ok) : Input.Grows inp (consoleintrStore c inp) := by
  unfold consoleintrStore
  split
  · rename_i hc
    generalize (if c = '\r'.toUInt8 then '\n'.toUInt8 else c) = c'
    have h₁ := h.store hc.2 c'
    dsimp only
    split
    · exact h₁.trans h₁.ok.commit
    · exact h₁
  · exact .refl h

/-- No character of `consoleintr` removes a committed character or moves `r`. -/
theorem consoleintrChar_grows (c : UInt8) (h : inp.Ok) : Input.Grows inp (consoleintrChar inp c) := by
  unfold consoleintrChar
  split
  · exact .refl h
  split
  · exact killLine_grows _ h
  split
  · split
    · exact h.erase ‹_›
    · exact .refl h
  · exact consoleintrStore_grows c h

private theorem consoleintr_grows (cs : List UInt8) (h : inp.Ok) : Input.Grows inp (consoleintr cs inp) := by
  -- induction on the characters, one `consoleintrChar_grows` each
  induction cs generalizing inp with
  | nil => exact .refl h
  | cons c cs ih =>
    have h₁ := consoleintrChar_grows c h
    exact h₁.trans (ih h₁.ok)

end Intr

/-! ## `consoleread` -/

/-- What call `call` has taken so far, `bs`: never a `C('D')` in what it copied, and while asleep exactly what it
copied, none of it a newline; once returned, with `r` the number of characters copied, or `-1` only when its
process was killed, a newline at most as the last one, and what it took is what it copied, or a single `C('D')` taken at its start with
nothing copied. -/
def ReadCall.Took (call : ReadCall) (bs : List UInt8) : Prop :=
  C 'D' ∉ call.dst ∧ call.dst.length ≤ call.target ∧
  match call.status with
  | .asleep n => call.dst.length + n = call.target ∧ '\n'.toUInt8 ∉ call.dst ∧ bs = call.dst
  | .returned r => '\n'.toUInt8 ∉ call.dst.dropLast ∧ (r = call.dst.length ∨ r = -1 ∧ call.killed = true) ∧
      (bs = call.dst ∨ call.dst = [] ∧ bs = [C 'D'])

section Read

variable {killed : Bool} {inp inp' : Input}

/-- A run of `consoleread`'s loop takes characters off the front of the committed ones, and moves its call as
`ReadCall.Took` says. -/
theorem consolereadLoop_spec {target n : Nat} {dst dst' bs : List UInt8} {e : ReadEnd} {k : Bool} (h : inp.Ok)
    (ht : ReadCall.Took ⟨target, dst, .asleep n, k⟩ bs)
    (hl : consolereadLoop killed target n dst inp = (e, dst', inp')) :
    ∃ taken, inp'.Ok ∧ inp'.w = inp.w ∧ inp'.buf = inp.buf ∧ inp'.r = (inp.r + taken.length) % UINT_MOD ∧
      inp.pending = taken ++ inp'.pending ∧ ReadCall.Took ⟨target, dst', e.status target, killed⟩ (bs ++ taken) := by
  obtain ⟨hD, hle, hn, hnl, hbs⟩ := ht
  dsimp only at hD hle hn hnl hbs
  -- induction on the characters left; the copied ones are carried in `dst` and `bs`
  induction n generalizing dst bs inp with
  | zero =>
    cases hl
    refine ⟨[], h, rfl, rfl, (Nat.mod_eq_of_lt h.r_lt).symm, (List.nil_append _).symm, hD, hle, ?_, .inl ?_, .inl ?_⟩
    · exact fun hm => hnl (List.dropLast_subset _ hm)
    · dsimp only
      omega
    · simp [hbs]
  | succ n ih =>
    unfold consolereadLoop at hl
    split at hl
    · -- the ring is empty: the run ends here
      have hr0 : inp.r = (inp.r + ([] : List UInt8).length) % UINT_MOD := (Nat.mod_eq_of_lt h.r_lt).symm
      split at hl
      · -- killed: `-1`, which the call records with its flag
        rename_i hk
        cases hl
        exact ⟨[], h, rfl, rfl, hr0, (List.nil_append _).symm, hD, hle, fun hm => hnl (List.dropLast_subset _ hm),
          .inr ⟨rfl, hk⟩, .inl (by simp [hbs])⟩
      · cases hl
        exact ⟨[], h, rfl, rfl, hr0, (List.nil_append _).symm, hD, hle, hn, hnl, by simp [hbs]⟩
    · rename_i hne
      obtain ⟨hok, hpend⟩ := h.take hne
      dsimp only at hl
      split at hl
      · -- a `C('D')`
        rename_i hc
        split at hl
        · -- after some characters: put back
          cases hl
          rw [Input.untake_take h.r_lt]
          refine ⟨[], h, rfl, rfl, (Nat.mod_eq_of_lt h.r_lt).symm, (List.nil_append _).symm, hD, hle, ?_, .inl ?_, .inl ?_⟩
          · exact fun hm => hnl (List.dropLast_subset _ hm)
          · dsimp only
            omega
          · simp [hbs]
        · -- at the start: taken, and nothing copied
          rename_i hlt
          have hdst : dst = [] := List.eq_nil_of_length_eq_zero (by omega)
          subst hdst
          cases hl
          refine ⟨[C 'D'], hok, rfl, rfl, rfl, by rw [hpend, hc]; rfl, hD, hle, by simp, .inl ?_, .inr ⟨rfl, ?_⟩⟩
          · simp only [List.length_nil]
            omega
          · simp [hbs]
      · rename_i hc
        split at hl
        · -- a newline ends the read after copying it
          rename_i hnl'
          cases hl
          refine ⟨[inp.buf (inp.r % INPUT_BUF)], hok, rfl, rfl, rfl, hpend, ?_, ?_, ?_, .inl ?_, .inl ?_⟩
          · simp [hD, Ne.symm hc]
          · simp
            omega
          · simpa using hnl
          · simp only [List.length_append, List.length_singleton]
            omega
          · simp [hbs]
        · -- another character: copied, and the loop goes on
          rename_i hnl'
          obtain ⟨taken, hok', hw, hb, hr, hp, ht'⟩ :=
            @ih inp.take (dst ++ [inp.buf (inp.r % INPUT_BUF)]) (bs ++ [inp.buf (inp.r % INPUT_BUF)]) hok hl
              (by simp [hD, Ne.symm hc]) (by simp; omega)
              (by simp; omega) (by simp [hnl, Ne.symm hnl']) (by rw [hbs])
          refine ⟨inp.buf (inp.r % INPUT_BUF) :: taken, hok', hw, hb, ?_, ?_, ?_⟩
          · rw [hr]
            show ((inp.r + 1) % UINT_MOD + taken.length) % UINT_MOD = _
            rw [Nat.mod_add_mod, List.length_cons, Nat.add_assoc, Nat.add_comm 1]
          · rw [hpend, hp, List.cons_append]
          · rw [List.append_assoc, List.singleton_append] at ht'
            exact ht'

end Read

/-! ## The system -/

/-- The invariant of the console and its reads. -/
structure ConsOk (s : ConsSys) : Prop where
  ok : s.input.Ok
  tag_lt : ∀ x ∈ s.consumed, x.1 < s.reads.length
  calls : ∀ k (hk : k < s.reads.length), s.reads[k].Took (Tagged.part k s.consumed)

private theorem consOk_init : ConsOk consInit :=
  ⟨Input.ok_init, fun _ h => absurd h List.not_mem_nil, fun _ hk => absurd hk (Nat.not_lt_zero _)⟩

/-- One run of an asleep call keeps the invariant and the committed stream. -/
theorem ConsOk.runRead {s : ConsSys} {k target n : Nat} {dst : List UInt8} {b : Bool} (killed : Bool) (h : ConsOk s)
    (hk : s.reads[k]? = some ⟨target, dst, .asleep n, b⟩) :
    ConsOk (s.runRead k target n dst killed) ∧ (s.runRead k target n dst killed).committed = s.committed := by
  obtain ⟨hkl, hkw⟩ := List.getElem?_eq_some_iff.1 hk
  have ht := h.calls k hkl
  rw [hkw] at ht
  unfold ConsSys.runRead
  generalize hl : consolereadLoop killed target n dst s.input = res
  obtain ⟨e, dst', inp⟩ := res
  dsimp only
  obtain ⟨taken, hok, hw, hb, hr, hp, ht'⟩ := consolereadLoop_spec h.ok ht hl
  have hview := Input.taken_view h.ok hr hp
  rw [hview]
  refine ⟨⟨hok, fun x hx => ?_, fun k' hk' => ?_⟩, ?_⟩
  · simp only [List.length_set, List.mem_append, List.mem_map] at hx ⊢
    rcases hx with hx | ⟨_, _, rfl⟩
    · exact h.tag_lt x hx
    · exact hkl
  · rw [List.length_set] at hk'
    rw [Tagged.part_append]
    by_cases hkk : k' = k
    · subst hkk
      rw [List.getElem_set_self, Tagged.part_map_self]
      exact ht'
    · rw [List.getElem_set_ne (Ne.symm hkk), Tagged.part_map_ne hkk, List.append_nil]
      exact h.calls k' hk'
  · show (s.consumed ++ taken.map (Prod.mk k)).map Prod.snd ++ inp.pending = s.consumed.map Prod.snd ++ s.input.pending
    rw [List.map_append, Tagged.map_snd_map, List.append_assoc, ← hp]

/-- A new call, before its first run, keeps the invariant. -/
theorem ConsOk.newCall {s : ConsSys} (n : Nat) (b : Bool) (h : ConsOk s) :
    ConsOk { s with reads := s.reads ++ [ReadCall.mk n [] (.asleep n) b] } := by
  refine ⟨h.ok, fun x hx => ?_, fun k hk => ?_⟩
  · simp only [List.length_append, List.length_singleton]
    exact Nat.lt_succ_of_lt (h.tag_lt x hx)
  · simp only [List.length_append, List.length_singleton] at hk
    rcases Nat.lt_succ_iff_lt_or_eq.1 hk with hk | rfl
    · simp only [List.getElem_append_left hk]
      exact h.calls k hk
    · simp only [List.getElem_append_right (le_refl _), Nat.sub_self, List.getElem_singleton]
      exact ⟨List.not_mem_nil, Nat.zero_le _, by simp, List.not_mem_nil, Tagged.part_of_lt h.tag_lt⟩

/-- Every step keeps the invariant, and takes nothing off the committed stream. -/
theorem ConsOk.step {s s' : ConsSys} {ev : ConsEvent} (h : ConsOk s) (hs : consStep s ev = some s') :
    ConsOk s' ∧ s.committed <+: s'.committed := by
  cases ev with
  | intr cs =>
    cases hs
    have hg := consoleintr_grows cs h.ok
    exact ⟨⟨hg.ok, h.tag_lt, h.calls⟩, List.prefix_append_right_inj _ |>.2 hg.pending_prefix⟩
  | read n killed =>
    cases hs
    obtain ⟨hok, hc⟩ := @ConsOk.runRead _ s.reads.length n n [] killed killed (h.newCall n killed) (by simp)
    exact ⟨hok, (congrArg (List.IsPrefix s.committed) hc).mpr (List.prefix_refl _)⟩
  | wake k killed =>
    simp only [consStep] at hs
    split at hs
    · rename_i target dst n b hk
      cases hs
      obtain ⟨hok, hc⟩ := h.runRead killed hk
      exact ⟨hok, (congrArg (List.IsPrefix s.committed) hc).mpr (List.prefix_refl _)⟩
    · cases hs

private theorem ConsReachable.consOk {s : ConsSys} (h : ConsReachable s) : ConsOk s :=
  StepSys.Reachable.induct_inv consOk_init (fun _ _ _ hs he => (hs.step he).1) h

/-- Over every interleaving of keyboard interrupts and `consoleread` calls: the indices satisfy
`r ≤ w ≤ e ≤ r + INPUT_BUF` modulo `2^32`; no step takes anything off the committed stream; and every call took
committed characters in order (its part of the ghost stream, itself the front of the committed stream), copied and
returned them, never a `C('D')`, a newline only as the last, except a `C('D')` taken at its start, which it
returns as 0 bytes. -/
theorem reachable_console_ok {s : ConsSys} (h : ConsReachable s) :
    Ring.dist UINT_MOD s.input.r s.input.w + Ring.dist UINT_MOD s.input.w s.input.e ≤ INPUT_BUF ∧
    (∀ ev s', consStep s ev = some s' → s.committed <+: s'.committed) ∧
    s.consumed.map Prod.snd <+: s.committed ∧
    ∀ k (hk : k < s.reads.length), s.reads[k].Took (Tagged.part k s.consumed) :=
  ⟨h.consOk.ok.dist_le, fun _ _ hs => (h.consOk.step hs).2, List.prefix_append _ _, h.consOk.calls⟩

/-- Two lines typed and two reads of 10 characters: the first read takes the first line; the second finds the ring
empty and sleeps, and when woken after the second line takes it.  Neither read was killed, and each returned the
length of its line. -/
theorem console_ok_after_two_lines :
    ∃ s, ConsReachable s ∧ s.reads.map ReadCall.status = [.returned 3, .returned 2] ∧
      s.consumed.map Prod.snd = [97, 98, 10, 99, 10] ∧
      Ring.dist UINT_MOD s.input.r s.input.w + Ring.dist UINT_MOD s.input.w s.input.e ≤ INPUT_BUF ∧
      (∀ ev s', consStep s ev = some s' → s.committed <+: s'.committed) ∧
      s.consumed.map Prod.snd <+: s.committed ∧
      ∀ k (hk : k < s.reads.length), s.reads[k].Took (Tagged.part k s.consumed) := by
  obtain ⟨s, hs, hp⟩ := StepSys.reachable_of_run consStep consInit
    [.intr [97, 98, 10], .read 10 false, .read 10 false, .intr [99, 10], .wake 1 false]
    (fun s => decide (s.reads.map ReadCall.status = [.returned 3, .returned 2] ∧
      s.consumed.map Prod.snd = [97, 98, 10, 99, 10])) (by decide +kernel)
  obtain ⟨hst, hcon⟩ := of_decide_eq_true hp
  obtain ⟨hdist, hcom, hpre, htook⟩ := reachable_console_ok hs
  exact ⟨s, hs, hst, hcon, hdist, hcom, hpre, htook⟩

/-- A line of `INPUT_BUF` characters with no newline fills the ring and is committed; a read of 200 characters by a
killed process takes all of it, finds the ring empty and returns `-1`. -/
theorem killed_read_takes_input :
    ∃ s, ConsReachable s ∧ ∃ k, ∃ hk : k < s.reads.length, s.reads[k].status = .returned (-1) ∧
      Tagged.part k s.consumed ≠ [] := by
  obtain ⟨s, hs, hp⟩ := StepSys.reachable_of_run consStep consInit [.intr (List.replicate 128 97), .read 200 true]
    (fun s => s.reads.length == 1 && s.reads[0]?.map ReadCall.status == some (.returned (-1)) &&
      !(Tagged.part 0 s.consumed).isEmpty) (by decide +kernel)
  simp only [Bool.and_eq_true, beq_iff_eq, Bool.not_eq_true', List.isEmpty_eq_false_iff] at hp
  obtain ⟨⟨hlen, hst⟩, hne⟩ := hp
  refine ⟨s, hs, 0, by omega, ?_, hne⟩
  rw [List.getElem?_eq_getElem (by omega)] at hst
  simpa using hst

end Xv6
