import Xv6.Mem.Uvm

/-!
# `exec`

`exec(path, argv)` reads the ELF header of the file `namei` found, builds a new page directory (`setupkvm`), loads
each `ELF_PROG_LOAD` segment (`allocuvm`, then `loaduvm`), adds a guard page and a stack page, pushes the argument
strings and the array `ustack`, and only then replaces the calling process's directory, size, name and the `eip`
and `esp` of its trap frame.  Every failure before that is a `goto bad`, which frees the directory being built.

The model follows the C code's three parts: `execLoad` is the segment loop, `pushArgs` the argument loop, and
`execStack` what comes after the loop over segments.  Each part either goes on, takes the `bad` exit with the
directory it has built (`execBad`), or stops on a panic or a fault (`none`).

Whatever exit `exec` takes, the pages it allocated are accounted for (`exec_result`): on `-1` the calling process
is as it was and the free list holds the same pages as before, and on `0` the old directory's pages have gone back
to the free list in place of the new one's.
-/

namespace Xv6

def MAXARG : Nat := 32
def ELF_MAGIC : Nat := 0x464C457F
def ELF_PROG_LOAD : Nat := 1

/-- The fields of `struct elfhdr` that `exec` reads, at their offsets in the 52 bytes `readi` returns. -/
structure Elfhdr where
  magic : Nat
  entry : Nat
  phoff : Nat
  phnum : Nat
  deriving DecidableEq, Repr

def Elfhdr.ofBytes (b : List UInt8) : Elfhdr :=
  let m := fun k => b.getD k 0
  ⟨Ram.getU32 m 0, Ram.getU32 m 24, Ram.getU32 m 28, Ram.getU16 m 44⟩

/-- The fields of `struct proghdr` that `exec` reads, at their offsets in its 32 bytes. -/
structure Proghdr where
  type : Nat
  off : Nat
  vaddr : Nat
  filesz : Nat
  memsz : Nat
  deriving DecidableEq, Repr

def Proghdr.ofBytes (b : List UInt8) : Proghdr :=
  let m := fun k => b.getD k 0
  ⟨Ram.getU32 m 0, Ram.getU32 m 4, Ram.getU32 m 8, Ram.getU32 m 16, Ram.getU32 m 20⟩

/-- The calling process as `exec` sees it: the fields of `struct proc` it replaces, and the two words of its trap
frame it sets.  The name is kept up to its NUL. -/
structure ExecProc where
  pgdir : Vmspace
  sz : Nat
  eip : Nat
  esp : Nat
  name : List Char
  deriving DecidableEq, Repr

/-- The machine `exec` runs on: the free list, kernel memory, the disk, and the calling process, whose directory is
the one in use. -/
structure ExecSys where
  fl : Freelist
  mem : Kmem
  fs : Fs
  proc : ExecProc

/-- `a - b` in `uint` arithmetic. -/
def usub (a b : Nat) : Nat := (a + (UINT_MOD - b % UINT_MOD)) % UINT_MOD

/-- The last element of a path, as `exec`'s loop over it finds it: what follows the last `/`. -/
def progName : List Char → List Char → List Char
  | last, [] => last
  | last, c :: s => if c = '/' then progName s s else progName last s

section Exec

variable (sb : Superblock) (kend : Nat)

/-- The `bad` exit once the directory exists: `freevm(pgdir)`, and `-1`. -/
def execBad (vm : Vmspace) (s : ExecSys) : Option (Int × ExecSys) :=
  (vm.freevm kend s.fl).map fun fl => (-1, { s with fl })

/-- The segment loop of `exec` for inode `ip`, `k` program headers left, the next at `off`: `.ok` with the size at
its end, `.error` for a `goto bad`, both with the directory built so far. -/
def execLoad (ip : Nat) : Nat → Nat → Nat → Vmspace → ExecSys →
    Option (Except (Vmspace × ExecSys) (Nat × Vmspace × ExecSys))
  | 0, _, sz, vm, s => some (.ok (sz, vm, s))
  | k + 1, off, sz, vm, s =>
    match Bytes.readi sb s.fs ip off 32 with
    | none => none
    | some (r, b, fs) =>
      let s := { s with fs }
      let ph := Proghdr.ofBytes b
      if r ≠ 32 then some (.error (vm, s))
      else if ph.type ≠ ELF_PROG_LOAD then execLoad ip k ((off + 32) % UINT_MOD) sz vm s
      else if ph.memsz < ph.filesz then some (.error (vm, s))
      else if (ph.vaddr + ph.memsz) % UINT_MOD < ph.vaddr then some (.error (vm, s))
      else
        match allocuvm kend vm.user sz (ph.vaddr + ph.memsz) s.fl s.mem with
        | none => none
        | some (sz, pd, fl, mem) =>
          let vm := { vm with user := pd }
          let s := { s with fl, mem }
          if sz = 0 then some (.error (vm, s))
          else if ph.vaddr % PGSIZE ≠ 0 then some (.error (vm, s))
          else
            match loaduvm sb vm ph.vaddr ip ph.off ph.filesz s.fs s.mem with
            | none => none
            | some (r, fs, mem) =>
              let s := { s with fs, mem }
              if r < 0 then some (.error (vm, s))
              else execLoad ip k ((off + 32) % UINT_MOD) sz vm s

/-- The argument loop of `exec`, run while `cur` is the directory in use: each string goes below `sp`, aligned down
to 4, and its address is added to `ptrs`.  `.ok` with the last `sp`, `.error` for a `goto bad`. -/
def pushArgs (cur vm : Vmspace) : Nat → List Nat → Kmem → List (List UInt8) →
    Option (Except Kmem (Nat × List Nat × Kmem))
  | sp, ptrs, mem, [] => some (.ok (sp, ptrs, mem))
  | sp, ptrs, mem, a :: as =>
    if MAXARG ≤ ptrs.length then some (.error mem)
    else
      let sp := usub sp (a.length + 1) / 4 * 4
      match copyout cur vm mem sp (a ++ [0]) with
      | none => none
      | some (r, mem) => if r < 0 then some (.error mem) else pushArgs cur vm sp (ptrs ++ [sp]) mem as

/-- The words `exec` pushes under the strings: a fake return PC, `argc`, the address of the argument array, and the
array itself with its final 0. -/
def ustack (sp : Nat) (ptrs : List Nat) : List Nat := [0xffffffff, ptrs.length, usub sp ((ptrs.length + 1) * 4)] ++ ptrs ++ [0]

/-- `exec` after the segment loop, for a program of size `sz` entered at `entry`: the guard and stack pages, the
arguments, and the commit, which frees the old directory. -/
def execStack (path : List Char) (entry : Nat) (argv : List (List UInt8)) (sz : Nat) (vm : Vmspace) (s : ExecSys) :
    Option (Int × ExecSys) :=
  let sz := PGROUNDUP sz
  match allocuvm kend vm.user sz (sz + 2 * PGSIZE) s.fl s.mem with
  | none => none
  | some (sz, pd, fl, mem) =>
    let vm := { vm with user := pd }
    let s := { s with fl, mem }
    if sz = 0 then execBad kend vm s
    else
      match clearpteu vm (sz - 2 * PGSIZE) with
      | none => none
      | some vm =>
        match pushArgs s.proc.pgdir vm sz [] s.mem argv with
        | none => none
        | some (.error mem) => execBad kend vm { s with mem }
        | some (.ok (sp, ptrs, mem)) =>
          let sp' := usub sp ((3 + ptrs.length + 1) * 4)
          match copyout s.proc.pgdir vm mem sp' ((ustack sp ptrs).flatMap Ram.u32Bytes) with
          | none => none
          | some (r, mem) =>
            if r < 0 then execBad kend vm { s with mem }
            else
              let proc : ExecProc := ⟨vm, sz, entry, sp', (progName path path).take 15⟩
              (s.proc.pgdir.freevm kend s.fl).map fun fl => (0, { s with fl, mem, proc })

/-- `exec(path, argv)`, with `ip` the inode `namei(path)` returned; `none` for a panic or a fault. -/
def exec (path : List Char) (ip : Option Nat) (argv : List (List UInt8)) (s : ExecSys) : Option (Int × ExecSys) :=
  match ip with
  | none => some (-1, s)
  | some ip =>
    match Bytes.readi sb s.fs ip 0 52 with
    | none => none
    | some (r, b, fs) =>
      let s := { s with fs }
      let elf := Elfhdr.ofBytes b
      if r ≠ 52 then some (-1, s)
      else if elf.magic ≠ ELF_MAGIC then some (-1, s)
      else
        match setupkvm kend s.fl with
        | none => none
        | some (none, fl) => some (-1, { s with fl })
        | some (some vm, fl) =>
          match execLoad sb kend ip elf.phnum elf.phoff 0 vm { s with fl } with
          | none => none
          | some (.error (vm, s)) => execBad kend vm s
          | some (.ok (sz, vm, s)) => execStack kend path elf.entry argv sz vm s

end Exec

/-! ### Where the pages go -/

/-- From the machine `s` with the directory `vm` being built, to `s'` with `vm'`: the calling process is as it was,
and the directory and the free list hold the same pages. -/
structure Keeps (vm : Vmspace) (s : ExecSys) (vm' : Vmspace) (s' : ExecSys) : Prop where
  proc : s'.proc = s.proc
  held : (vm'.held s'.fl).Perm (vm.held s.fl)

namespace Keeps

variable {vm vm' vm'' : Vmspace} {s s' s'' : ExecSys}

private theorem of_fl (hp : s'.proc = s.proc) (hfl : s'.fl = s.fl) : Keeps vm s vm s' := ⟨hp, by rw [hfl]⟩

theorem trans (h₁ : Keeps vm s vm' s') (h₂ : Keeps vm' s' vm'' s'') : Keeps vm s vm'' s'' :=
  ⟨h₂.proc.trans h₁.proc, h₂.held.trans h₁.held⟩

end Keeps

section Held

variable {sb : Superblock} {kend : Nat}

/-- The pages `allocuvm` takes for the user half stay with the directory. -/
theorem keeps_allocuvm {vm : Vmspace} {s : ExecSys} {oldsz newsz sz : Nat} {pd : Pgdir} {fl : Freelist} {mem : Kmem}
    (h : allocuvm kend vm.user oldsz newsz s.fl s.mem = some (sz, pd, fl, mem)) :
    Keeps vm s { vm with user := pd } { s with fl, mem } :=
  ⟨rfl, Vmspace.held_user (allocuvm_held h)⟩

private theorem keeps_clearpteu {vm vm' : Vmspace} {uva : Nat} (h : clearpteu vm uva = some vm') (s : ExecSys) :
    Keeps vm s vm' s :=
  ⟨rfl, by rw [clearpteu_held h]⟩

/-- The `bad` exit returns `-1` with the directory's pages back on the free list. -/
theorem execBad_eq {vm : Vmspace} {s s' : ExecSys} {r : Int} (h : execBad kend vm s = some (r, s')) :
    r = -1 ∧ s'.proc = s.proc ∧ s'.fl.Perm (vm.held s.fl) := by
  obtain ⟨fl, hf, he⟩ := Option.map_eq_some_iff.1 h
  cases he
  exact ⟨rfl, rfl, Vmspace.freevm_held hf⟩

/-- Whichever way the segment loop ends, it keeps the calling process and the pages. -/
theorem execLoad_keeps {ip : Nat} (k : Nat) {off sz : Nat} {vm : Vmspace} {s : ExecSys}
    {r : Except (Vmspace × ExecSys) (Nat × Vmspace × ExecSys)} (h : execLoad sb kend ip k off sz vm s = some r)
    {vm' : Vmspace} {s' : ExecSys} (hr : (∃ sz', r = .ok (sz', vm', s')) ∨ r = .error (vm', s')) :
    Keeps vm s vm' s' := by
  induction k generalizing off sz vm s with
  | zero =>
    cases h
    obtain ⟨sz', he⟩ | he := hr
    · cases he
      exact .of_fl rfl rfl
    · cases he
  | succ k ih =>
    -- a round that ends the loop ends it with `vm` or with the directory `allocuvm` grew
    have hend : ∀ {vm₁ : Vmspace} {s₁ : ExecSys}, Keeps vm s vm₁ s₁ →
        some (Except.error (vm₁, s₁)) = some r → Keeps vm s vm' s' := by
      intro vm₁ s₁ hk he
      cases he
      obtain ⟨sz', he⟩ | he := hr
      · cases he
      · cases he
        exact hk
    unfold execLoad at h
    split at h
    · cases h
    · rename_i r₁ b fs hread
      have hfs : Keeps vm s vm { s with fs } := .of_fl rfl rfl
      dsimp only at h
      -- the header checks, in the order of the C code
      split at h
      · exact hend hfs h
      split at h
      · exact hfs.trans (ih h)
      split at h
      · exact hend hfs h
      split at h
      · exact hend hfs h
      split at h
      · cases h
      rename_i sz₁ pd fl mem halloc
      have hal := hfs.trans (keeps_allocuvm halloc)
      split at h
      · exact hend hal h
      split at h
      · exact hend hal h
      split at h
      · cases h
      -- `loaduvm` changes the disk and memory only
      rename_i r₂ fs₂ mem₂ hload
      have hld : Keeps vm s { vm with user := pd } ⟨fl, mem₂, fs₂, s.proc⟩ := hal.trans (.of_fl rfl rfl)
      split at h
      · exact hend hld h
      · exact hld.trans (ih h)

/-- After the segment loop, `exec` returns `-1` with the calling process as it was and every page of the new
directory back on the free list, or `0` with the new directory installed and the old one's pages freed in its
place. -/
theorem execStack_result {path : List Char} {entry : Nat} {argv : List (List UInt8)} {sz : Nat} {vm : Vmspace}
    {s s' : ExecSys} {r : Int} (h : execStack kend path entry argv sz vm s = some (r, s')) :
    (r = -1 ∧ s'.proc = s.proc ∧ s'.fl.Perm (vm.held s.fl)) ∨
      (r = 0 ∧ (s'.proc.pgdir.held s'.fl).Perm (s.proc.pgdir.held (vm.held s.fl))) := by
  -- a `bad` exit after the steps that kept the pages
  have hbad : ∀ {vm₁ : Vmspace} {s₁ : ExecSys}, Keeps vm s vm₁ s₁ → execBad kend vm₁ s₁ = some (r, s') →
      r = -1 ∧ s'.proc = s.proc ∧ s'.fl.Perm (vm.held s.fl) := by
    intro vm₁ s₁ hk hb
    obtain ⟨hr, hp, hfl⟩ := execBad_eq hb
    exact ⟨hr, hp.trans hk.proc, hfl.trans hk.held⟩
  unfold execStack at h
  dsimp only at h
  split at h
  · cases h
  rename_i sz₁ pd fl mem halloc
  have hal := keeps_allocuvm halloc
  split at h
  · exact .inl (hbad hal h)
  split at h
  · cases h
  rename_i vm₂ hclear
  have hcl := hal.trans (keeps_clearpteu hclear _)
  split at h
  · cases h
  · rename_i mem₂ _
    have hk : Keeps vm s vm₂ ⟨fl, mem₂, s.fs, s.proc⟩ := hcl.trans (.of_fl rfl rfl)
    exact .inl (hbad hk h)
  rename_i sp ptrs mem₂ _
  split at h
  · cases h
  rename_i r₃ mem₃ _
  split at h
  · have hk : Keeps vm s vm₂ ⟨fl, mem₃, s.fs, s.proc⟩ := hcl.trans (.of_fl rfl rfl)
    exact .inl (hbad hk h)
  -- the commit: the old directory is freed
  obtain ⟨fl₄, hf, he⟩ := Option.map_eq_some_iff.1 h
  cases he
  refine .inr ⟨rfl, ?_⟩
  have hnew : (vm₂.held fl).Perm (vm.held s.fl) := hcl.held
  exact (vm₂.held_congr (Vmspace.freevm_held hf)).trans
    ((vm₂.held_comm _ _).trans (s.proc.pgdir.held_congr hnew))

/-- `exec` returns `-1` with the calling process as it was and the free list holding the same pages as before, or
`0` with the pages of the new directory and of the free list those of the old directory and the free list before. -/
theorem exec_result {path : List Char} {ip : Option Nat} {argv : List (List UInt8)} {s s' : ExecSys} {r : Int}
    (h : exec sb kend path ip argv s = some (r, s')) :
    (r = -1 ∧ s'.proc = s.proc ∧ s'.fl.Perm s.fl) ∨
      (r = 0 ∧ (s'.proc.pgdir.held s'.fl).Perm (s.proc.pgdir.held s.fl)) := by
  unfold exec at h
  split at h
  · cases h
    exact .inl ⟨rfl, rfl, .refl _⟩
  rename_i ip
  split at h
  · cases h
  rename_i r₁ b fs _
  dsimp only at h
  split at h
  · cases h
    exact .inl ⟨rfl, rfl, .refl _⟩
  split at h
  · cases h
    exact .inl ⟨rfl, rfl, .refl _⟩
  split at h
  · cases h
  · rename_i fl hsetup
    cases h
    obtain ⟨-, hfl⟩ | ⟨vm, he, -⟩ := setupkvm_held hsetup
    · exact .inl ⟨rfl, rfl, hfl⟩
    · cases he
  rename_i vm fl hsetup
  obtain ⟨he, -⟩ | ⟨vm', he, hheld, -⟩ := setupkvm_held hsetup
  · cases he
  cases he
  -- the pages of the new directory come from the free list
  have hk₀ : (vm.held fl).Perm s.fl := hheld
  split at h
  · cases h
  · rename_i vm₁ s₁ hload
    have hk := execLoad_keeps _ hload (.inr rfl)
    obtain ⟨hr, hp, hfl⟩ := execBad_eq h
    exact .inl ⟨hr, hp.trans hk.proc, hfl.trans (hk.held.trans hk₀)⟩
  · rename_i sz vm₁ s₁ hload
    have hk := execLoad_keeps _ hload (.inl ⟨sz, rfl⟩)
    obtain ⟨hr, hp, hfl⟩ | ⟨hr, hheld'⟩ := execStack_result h
    · exact .inl ⟨hr, hp.trans hk.proc, hfl.trans (hk.held.trans hk₀)⟩
    · refine .inr ⟨hr, hheld'.trans ?_⟩
      rw [hk.proc]
      exact s.proc.pgdir.held_congr (hk.held.trans hk₀)

end Held

/-! ### An argument that wraps the stack pointer

`exec` places each argument string below `sp` by `sp = (sp - (strlen(argv[argc]) + 1)) & ~3` and checks nothing
about the result: a long enough string makes `sp` wrap below 0 to an address near the top of the user half, whose
page has no page table in the new directory.  `copyout` then reads its PTE through the null pointer `walkpgdir`
returns (`uva2ka_of_missing_table`), that is from the caller's page 0, and writes wherever that word points. -/

section Stack

variable (sb : Superblock) (kend : Nat)

/-- `exec` past a valid ELF header and a successful segment loop is `execStack`. -/
theorem exec_of_load {path : List Char} {ip : Nat} {argv : List (List UInt8)} {s s' : ExecSys} {b : List UInt8}
    {fs : Fs} {vm vm' : Vmspace} {fl : Freelist} {sz : Nat}
    (hr : Bytes.readi sb s.fs ip 0 52 = some (52, b, fs)) (hmagic : (Elfhdr.ofBytes b).magic = ELF_MAGIC)
    (hkvm : setupkvm kend s.fl = some (some vm, fl))
    (hload : execLoad sb kend ip (Elfhdr.ofBytes b).phnum (Elfhdr.ofBytes b).phoff 0 vm { s with fs, fl } =
      some (.ok (sz, vm', s'))) :
    exec sb kend path (some ip) argv s = execStack kend path (Elfhdr.ofBytes b).entry argv sz vm' s' := by
  unfold exec
  dsimp only
  rw [hr]
  dsimp only
  rw [if_neg (by decide), if_neg (by rw [hmagic]; exact not_not.2 rfl), hkvm]
  dsimp only
  rw [hload]

/-- `execStack` faults when the argument loop does. -/
theorem execStack_of_pushArgs_none {path : List Char} {entry : Nat} {argv : List (List UInt8)} {sz sz' : Nat}
    {vm vm' : Vmspace} {s : ExecSys} {pd : Pgdir} {fl : Freelist} {mem : Kmem}
    (halloc : allocuvm kend vm.user (PGROUNDUP sz) (PGROUNDUP sz + 2 * PGSIZE) s.fl s.mem = some (sz', pd, fl, mem))
    (hsz : sz' ≠ 0) (hclear : clearpteu { vm with user := pd } (sz' - 2 * PGSIZE) = some vm')
    (hpush : pushArgs s.proc.pgdir vm' sz' [] mem argv = none) :
    execStack kend path entry argv sz vm s = none := by
  unfold execStack
  dsimp only
  rw [halloc]
  dsimp only
  rw [if_neg hsz, hclear]
  dsimp only
  rw [hpush]

end Stack

/-- The argument loop faults when the copy of the next string does. -/
theorem pushArgs_of_copyout_none {cur vm : Vmspace} {sp : Nat} {ptrs : List Nat} {mem : Kmem} {a : List UInt8}
    {as : List (List UInt8)} (hmax : ptrs.length < MAXARG)
    (h : copyout cur vm mem (usub sp (a.length + 1) / 4 * 4) (a ++ [0]) = none) :
    pushArgs cur vm sp ptrs mem (a :: as) = none := by
  rw [pushArgs, if_neg (by omega)]
  dsimp only
  rw [h]

/-! The machine of the failing run: a file of 52 bytes holding an ELF header with no program headers, a free list
of 100 pages, and a caller whose page 0 starts with the word `0x10000007`, a present, writable user PTE for the frame
at `0x10000000`, above `PHYSTOP`. -/

def argSb : Superblock := ⟨1000, 900, 200, by decide⟩

def argFs : Fs :=
  ⟨fun _ => false, fun i => if i = 1 then ⟨T_FILE, 1, 52, fun k => if k = 0 then 50 else 0⟩ else {},
    fun b j => if b = 50 ∧ j = 0 then ELF_MAGIC else 0⟩

def argMem : Kmem := fun a => if a = 0x80502000 then 7 else if a = 0x80502003 then 0x10 else 0

def argProc : ExecProc := ⟨⟨0x80500000, [], ⟨[(0, 0x80501000)], [(0, 0x80502000)]⟩, []⟩, 0x1000, 0, 0, []⟩

def argSys : ExecSys := ⟨List.range' 0x80400000 100 PGSIZE, argMem, argFs, argProc⟩

/-- The new directory after `setupkvm`, and after the two stack pages. -/
def argVm : Vmspace := ⟨0x80400000, (kpdx.zip (List.range' 0x80401000 99 PGSIZE)).reverse, ⟨[], []⟩, []⟩

def argVmStack : Vmspace := { argVm with user := ⟨[(0, 0x80442000)], [(0x1000, 0x80443000), (0, 0x80441000)]⟩ }

/-- Memory after `allocuvm` zeroed the two stack pages. -/
def argMemStack : Kmem := Ram.fill (Ram.fill argMem 0x80441000 PGSIZE 0) 0x80443000 PGSIZE 0

private theorem argFs_readi : Bytes.readi argSb argFs 1 0 52 =
    some (52, (List.range 52).map fun j => fileByte argFs 1 j, argFs) := by
  have hfill : Filled argFs 1 := by
    refine ⟨by decide, ?_⟩
    intro k hk
    have hk0 : k / BSIZE = 0 := Nat.div_eq_of_lt (by change k < 52 at hk; unfold BSIZE; omega)
    rw [hk0]
    decide
  have h := @readi_filled argSb argFs 1 (by decide) hfill 0 52 (by decide) (by decide)
  have hs : (argFs.dinode 1).size = 52 := rfl
  simpa [hs] using h

private theorem argFs_elfhdr : Elfhdr.ofBytes ((List.range 52).map fun j => fileByte argFs 1 j) = ⟨ELF_MAGIC, 0, 0, 0⟩ := by
  decide

private theorem argSys_setupkvm : setupkvm 0x80400000 (List.range' 0x80400000 100 PGSIZE) =
    some (some argVm, List.range' 0x80441000 35 PGSIZE) := by
  rw [show List.range' 0x80400000 100 PGSIZE = 0x80400000 :: List.range' 0x80401000 99 PGSIZE from rfl,
    setupkvm_of_le _ _ (by decide)]
  rfl

private theorem argVm_allocuvm : allocuvm 0x80400000 argVm.user (PGROUNDUP 0) (PGROUNDUP 0 + 2 * PGSIZE)
      (List.range' 0x80441000 35 PGSIZE) argMem =
    some (0x2000, argVmStack.user, List.range' 0x80444000 32 PGSIZE, argMemStack) := by
  rfl

private theorem argVmStack_clearpteu : clearpteu argVmStack (0x2000 - 2 * PGSIZE) = some { argVmStack with guard := [0] } := by
  rfl

/-- The page of the string's first byte, at PDX 1012, has no page table. -/
theorem argVmStack_table : argVmStack.table? (PDX (PGROUNDDOWN 0xFD001FFC)) = none := by
  decide

private theorem argMemStack_pte : Ram.getU32 argMemStack 0x80502000 = 0x10000007 := by
  decide

/-- `sp` for a string of `0x3000000` bytes below `0x2000` wraps to `0xFD001FFC`. -/
theorem usub_long_arg {a : List UInt8} (h : a.length = 0x3000000) : usub 0x2000 (a.length + 1) / 4 * 4 = 0xFD001FFC := by
  rw [h]
  decide

/-- `exec` with an argument of `0x3000000` bytes neither returns `0` nor `-1`: the string's copy goes through the
caller's word `0x10000007` to `0x90000FFC`, where nothing is mapped, and the kernel faults. -/
theorem exec_long_arg (a : List UInt8) (hlen : a.length = 0x3000000) :
    exec argSb 0x80400000 ['x'] (some 1) [a] argSys = none := by
  -- the file has no program headers, so the segment loop is done at once
  have hload : execLoad argSb 0x80400000 1 (Elfhdr.ofBytes ((List.range 52).map fun j => fileByte argFs 1 j)).phnum
      (Elfhdr.ofBytes ((List.range 52).map fun j => fileByte argFs 1 j)).phoff 0 argVm
      { argSys with fs := argFs, fl := List.range' 0x80441000 35 PGSIZE } =
      some (.ok (0, argVm, { argSys with fs := argFs, fl := List.range' 0x80441000 35 PGSIZE })) := by
    rw [argFs_elfhdr]
    rfl
  rw [exec_of_load argSb 0x80400000 (s := argSys) argFs_readi (by rw [argFs_elfhdr]) argSys_setupkvm hload]
  refine execStack_of_pushArgs_none 0x80400000 argVm_allocuvm (by decide) argVmStack_clearpteu
    (pushArgs_of_copyout_none (by decide) ?_)
  rw [usub_long_arg hlen]
  refine copyout_fault (by simp) (uva2ka_of_missing_table argVmStack_table rfl ?_ ?_) ?_
  all_goals rw [argMemStack_pte]; decide

theorem exec_long_arg_replicate :
    (List.replicate 0x3000000 (97 : UInt8)).length = 0x3000000 ∧
      exec argSb 0x80400000 ['x'] (some 1) [List.replicate 0x3000000 97] argSys = none :=
  ⟨List.length_replicate, exec_long_arg _ List.length_replicate⟩

end Xv6
