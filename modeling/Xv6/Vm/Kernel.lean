import Xv6.Lib.CInt
import Xv6.Vm.Memory

/-!
# Calls that take and give back pages

What `fork`, `exec`, `sbrk`, `pipe`, `close`, `exit` and `wait` do with physical pages: kernel stacks,
page tables, user memory and pipes. A call is one step. Files on the disk are what `exec` is told
they are: an `Image` says what `namei` and `readi` give it.
-/

namespace Xv6.Vm

/-! ## State -/

/-- An index into `ptable.proc`. -/
abbrev Slot := Fin NPROC

/-- An index into `ftable.file`. -/
abbrev FileId := Fin NFILE

/-- The states of a process, with all that are neither `UNUSED` nor `ZOMBIE` as one. -/
inductive Life
  | unused
  | used
  | zombie
  deriving DecidableEq

structure VProc where
  life : Life
  pid : UInt32
  parent : Option Slot
  kstack : Option Nat
  pgdir : Option Nat
  sz : Nat
  ofile : Fin NOFILE → Option FileId

inductive FileType
  | none
  | pipe
  | inode
  deriving DecidableEq

structure File where
  ref : Nat
  type : FileType
  pipe : Nat
  writable : Bool

/-- The ends of a `struct pipe`. -/
structure Ends where
  readopen : Bool
  writeopen : Bool

structure Kern where
  mem : Mem
  proc : Slot → VProc
  nextpid : UInt32
  initproc : Slot
  file : FileId → File
  /-- The pages that hold a `struct pipe`. -/
  pipe : Nat → Option Ends
  /-- The pages that were allocated before `userinit`. -/
  boot : List Nat

abbrev KernM := Prog Kern Fault

def vm {α : Type} (x : VmM α) : KernM α := Prog.zoom Kern.mem (fun k m => { k with mem := m }) x

def modifyProc (p : Slot) (f : VProc → VProc) : KernM Unit :=
  Prog.modify fun k => { k with proc := setAt k.proc p (f (k.proc p)) }

def modifyFile (f : FileId) (g : File → File) : KernM Unit :=
  Prog.modify fun k => { k with file := setAt k.file f (g (k.file f)) }

/-! ## Files and pipes -/

def filealloc : KernM (Option FileId) := do
  match ← Prog.gets fun k => (List.finRange NFILE).find? fun f => (k.file f).ref = 0 with
  | none => pure none
  | some f => do
    modifyFile f fun x => { x with ref := 1 }
    pure (some f)

def filedup (f : FileId) : KernM Unit := do
  let x ← Prog.gets fun k => k.file f
  if x.ref < 1 then Prog.stop (.panic "filedup")
  else modifyFile f fun x => { x with ref := x.ref + 1 }

def pipeclose (p : Nat) (writable : Bool) : KernM Unit := do
  match ← Prog.gets fun k => k.pipe p with
  -- the page holds no pipe
  | none => Prog.stop (.panic "acquire")
  | some e => do
    let e := if writable then { e with writeopen := false } else { e with readopen := false }
    if e.readopen = false ∧ e.writeopen = false then do
      Prog.modify fun k => { k with pipe := setAt k.pipe p none }
      vm (kfree p)
    else Prog.modify fun k => { k with pipe := setAt k.pipe p (some e) }

def fileclose (f : FileId) : KernM Unit := do
  let x ← Prog.gets fun k => k.file f
  if x.ref < 1 then Prog.stop (.panic "fileclose")
  else if 0 < x.ref - 1 then modifyFile f fun x => { x with ref := x.ref - 1 }
  else do
    modifyFile f fun x => { x with ref := 0, type := .none }
    -- the inode of another file is put
    Prog.when (x.type = .pipe) (pipeclose x.pipe x.writable)

/-- The part of `pipealloc` after `bad:`. -/
def pipeBad (f0 f1 : Option FileId) : KernM (Option (FileId × FileId)) := do
  match f0 with
  | some f => fileclose f
  | none => pure ()
  match f1 with
  | some f => fileclose f
  | none => pure ()
  pure none

def pipealloc : KernM (Option (FileId × FileId)) := do
  match ← filealloc with
  | none => pipeBad none none
  | some f0 => do
    match ← filealloc with
    | none => pipeBad (some f0) none
    | some f1 => do
      match ← vm kalloc with
      | none => pipeBad (some f0) (some f1)
      | some p => do
        Prog.modify fun k => { k with pipe := setAt k.pipe p (some ⟨true, true⟩) }
        modifyFile f0 fun x => { x with type := .pipe, pipe := p, writable := false }
        modifyFile f1 fun x => { x with type := .pipe, pipe := p, writable := true }
        pure (some (f0, f1))

def fdalloc (me : Slot) (f : FileId) : KernM (Option (Fin NOFILE)) := do
  match ← Prog.gets fun k => (List.finRange NOFILE).find? fun fd => (k.proc me).ofile fd = none with
  | none => pure none
  | some fd => do
    modifyProc me fun p => { p with ofile := setAt p.ofile fd (some f) }
    pure (some fd)

def sysPipe (me : Slot) : KernM Int := do
  match ← pipealloc with
  | none => pure (-1)
  | some (rf, wf) => do
    match ← fdalloc me rf with
    | none => do
      fileclose rf
      fileclose wf
      pure (-1)
    | some fd0 => do
      match ← fdalloc me wf with
      | none => do
        modifyProc me fun p => { p with ofile := setAt p.ofile fd0 none }
        fileclose rf
        fileclose wf
        pure (-1)
      | some _ => pure 0

def sysClose (me : Slot) (fd : Fin NOFILE) : KernM Int := do
  match ← Prog.gets fun k => (k.proc me).ofile fd with
  | none => pure (-1)
  | some f => do
    modifyProc me fun p => { p with ofile := setAt p.ofile fd none }
    fileclose f
    pure 0

/-! ## `sbrk` -/

/-- The 64-bit pattern of an integer. -/
def uint64 (x : Int) : Nat := (x % 2 ^ 64).toNat

/-- `p->pgdir`; a process that runs has one. -/
def pgdirOf (p : Slot) : KernM Nat := do
  match ← Prog.gets fun k => (k.proc p).pgdir with
  | none => Prog.stop (.panic "trap")
  | some r => pure r

def growproc (me : Slot) (n : Int) : KernM Int := do
  let sz ← Prog.gets fun k => (k.proc me).sz
  let pgdir ← pgdirOf me
  let newsz := uint64 (sz + n)
  let sz ← if 0 < n then vm (allocuvm pgdir sz newsz)
    else if n < 0 then vm (deallocuvm pgdir sz newsz)
    else pure sz
  if n ≠ 0 ∧ sz = 0 then pure (-1)
  else do
    modifyProc me fun p => { p with sz }
    pure 0

/-- `sys_sbrk`, which returns the old size. -/
def sysSbrk (me : Slot) (n : Int) : KernM Int := do
  let addr ← Prog.gets fun k => (k.proc me).sz
  let r ← growproc me n
  if r < 0 then pure (-1) else pure addr

/-! ## `exec` -/

def MAXARG : Nat := 32

def ELF_PROG_LOAD : UInt32 := 1

/-- The fields of a program header that `exec` uses. -/
structure Proghdr where
  type : UInt32
  vaddr : UInt64
  filesz : UInt64
  memsz : UInt64

/-- What `exec` finds on the disk and among its arguments. -/
structure Image where
  /-- Whether `namei` finds the file. -/
  found : Bool
  /-- The number of program headers, if `readi` gets the ELF header and its magic number is right. -/
  elf : Option UInt16
  /-- The program headers that `readi` gets. -/
  ph : Nat → Option Proghdr
  /-- Which pages of a segment `readi` gets all of. -/
  load : Nat → Nat → Bool
  /-- The lengths of the argument strings. -/
  args : List Nat

/-- The loop of `exec` over the program headers, with `n` left; nothing if it goes to `bad`. -/
def execLoad (im : Image) (pgdir : Nat) : Nat → Nat → Nat → VmM (Option Nat)
  | 0, _, sz => pure (some sz)
  | n + 1, i, sz =>
    match im.ph i with
    | none => pure none
    | some ph =>
      if ph.type ≠ ELF_PROG_LOAD then execLoad im pgdir n (i + 1) sz
      else if ph.memsz < ph.filesz then pure none
      else if ph.vaddr + ph.memsz < ph.vaddr then pure none
      else do
        let sz ← allocuvm pgdir sz (ph.vaddr + ph.memsz).toNat
        if sz = 0 then pure none
        else if ph.vaddr.toNat % PGSIZE ≠ 0 then pure none
        else do
          let r ← loaduvm pgdir ph.vaddr.toNat (im.load i) ph.filesz.toNat
          if r < 0 then pure none else execLoad im pgdir n (i + 1) sz

/-- The loop of `exec` over its arguments. -/
def pushArgs (pgdir : Nat) : List Nat → Nat → Nat → VmM (Option (Nat × Nat))
  | [], argc, sp => pure (some (argc, sp))
  | len :: args, argc, sp =>
    if MAXARG ≤ argc then pure none
    else do
      let sp := uint64 (sp - (len + 1)) / 8 * 8
      let r ← copyout pgdir (len + 1) sp (len + 1)
      if r < 0 then pure none else pushArgs pgdir args (argc + 1) sp

/-- The stack and the arguments that `exec` puts above a program of size `sz`; the new size, or nothing
if it goes to `bad`. -/
def execStack (im : Image) (pgdir sz : Nat) : VmM (Option Nat) := do
  let sz := PGROUNDUP sz
  let sz ← allocuvm pgdir sz (sz + 2 * PGSIZE)
  if sz = 0 then pure none
  else do
    clearpteu pgdir (sz - 2 * PGSIZE)
    match ← pushArgs pgdir im.args 0 sz with
    | none => pure none
    | some (argc, sp) => do
      let len := (1 + argc + 1) * 8
      let r ← copyout pgdir len (uint64 (sp - len)) len
      if r < 0 then pure none else pure (some sz)

/-- The new image of `exec` in the page table `pgdir`: its size, or nothing if it goes to `bad`. -/
def execImage (im : Image) (pgdir : Nat) (phnum : Nat) : VmM (Option Nat) := do
  match ← execLoad im pgdir phnum 0 PGSIZE with
  | none => pure none
  | some sz => execStack im pgdir sz

def exec (me : Slot) (im : Image) : KernM Int := do
  let oldpgdir ← pgdirOf me
  if im.found = false then pure (-1)
  else match im.elf with
    | none => pure (-1)
    | some phnum => do
      match ← vm setupkvm with
      | none => pure (-1)
      | some pgdir => do
        match ← vm (execImage im pgdir phnum.toNat) with
        | none => do
          vm (freevm pgdir)
          pure (-1)
        | some sz => do
          modifyProc me fun p => { p with pgdir := some pgdir, sz }
          vm (freevm oldpgdir)
          pure 0

/-! ## `fork`, `exit` and `wait` -/

def findProc (k : Kern) (f : VProc → Bool) : Option Slot :=
  (List.finRange NPROC).find? fun p => f (k.proc p)

/-- `allocproc`, with the allocation of the kernel stack. -/
def allocproc : KernM (Option Slot) := do
  match ← Prog.gets fun k => findProc k fun p => p.life = .unused with
  | none => pure none
  | some np => do
    let pid ← Prog.gets Kern.nextpid
    modifyProc np fun p => { p with life := .used, pid }
    Prog.modify fun k => { k with nextpid := k.nextpid + 1 }
    match ← vm kalloc with
    | none => do
      modifyProc np fun p => { p with kstack := none, life := .unused }
      pure none
    | some f => do
      modifyProc np fun p => { p with kstack := some f }
      pure (some np)

/-- `fork` copies the open files. -/
def dupFiles (me np : Slot) : KernM Unit :=
  Prog.times (fun fd => do
    let fd : Fin NOFILE := Fin.ofNat 16 fd
    match ← Prog.gets fun k => (k.proc me).ofile fd with
    | none => pure ()
    | some f => do
      filedup f
      modifyProc np fun p => { p with ofile := setAt p.ofile fd (some f) }) NOFILE

def fork (me : Slot) : KernM Int := do
  match ← allocproc with
  | none => pure (-1)
  | some np => do
    let pgdir ← pgdirOf me
    let sz ← Prog.gets fun k => (k.proc me).sz
    match ← vm (copyuvm pgdir sz) with
    | none => do
      match ← Prog.gets fun k => (k.proc np).kstack with
      | none => Prog.stop (.panic "kfree")
      | some f => vm (kfree f)
      modifyProc np fun p => { p with pgdir := none, kstack := none, life := .unused }
      pure (-1)
    | some d => do
      modifyProc np fun p => { p with pgdir := some d, sz, parent := some me }
      dupFiles me np
      let pid ← Prog.gets fun k => (k.proc np).pid
      pure (cint pid)

/-- `exit` closes the open files. -/
def closeFiles (me : Slot) : KernM Unit :=
  Prog.times (fun fd => do
    let fd : Fin NOFILE := Fin.ofNat 16 fd
    match ← Prog.gets fun k => (k.proc me).ofile fd with
    | none => pure ()
    | some f => do
      fileclose f
      modifyProc me fun p => { p with ofile := setAt p.ofile fd none }) NOFILE

def exit (me : Slot) : KernM Int := do
  let init ← Prog.gets Kern.initproc
  if me = init then Prog.stop (.panic "init exiting")
  else do
    closeFiles me
    Prog.modify fun k => { k with
      proc := fun p =>
        if (k.proc p).parent = some me then { k.proc p with parent := some init } else k.proc p }
    modifyProc me fun p => { p with life := .zombie }
    pure 0

/-- `wait`, up to the point where it returns or sleeps. -/
def wait (me : Slot) : KernM Int := do
  match ← Prog.gets fun k => findProc k fun p => p.parent = some me ∧ p.life = .zombie with
  | none => pure (-1)
  | some p => do
    let q ← Prog.gets fun k => k.proc p
    match q.kstack with
    | none => Prog.stop (.panic "kfree")
    | some f => vm (kfree f)
    modifyProc p fun q => { q with kstack := none }
    match q.pgdir with
    | none => Prog.stop (.panic "freevm: no pgdir")
    | some r => vm (freevm r)
    modifyProc p fun q => { q with pid := 0, parent := none, life := .unused }
    pure (cint q.pid)

/-! ## Boot -/

/-- An allocation that is never freed. -/
def bootAlloc : KernM Nat := do
  match ← vm kalloc with
  | none => Prog.stop (.panic "trap")
  | some f => do
    vm (fill f .zero)
    Prog.modify fun k => { k with boot := f :: k.boot }
    pure f

def kvmalloc : KernM Unit := do
  let kpml4 ← bootAlloc
  let kpdpt ← bootAlloc
  vm do
    setEntry kpml4 (PMX KERNBASE) ⟨kpdpt, true, true, false⟩
    setEntry kpdpt (Fin.ofNat _ 0) ⟨0, true, true, false⟩
    setEntry kpdpt (Fin.ofNat _ 3) ⟨0xC0000000 / PGSIZE, true, true, false⟩
    Prog.modify fun s => { s with kpdpt }

def userinit : KernM Unit := do
  match ← allocproc with
  | none => Prog.stop (.panic "trap")
  | some p => do
    Prog.modify fun k => { k with initproc := p }
    match ← vm setupkvm with
    | none => Prog.stop (.panic "userinit: out of memory?")
    | some pgdir => do
      -- the program that is built into the kernel is shorter than a page
      vm (inituvm pgdir 0)
      modifyProc p fun p => { p with pgdir := some pgdir, sz := PGSIZE * 2 }

def VProc.zero : VProc := ⟨.unused, 0, none, none, none, 0, fun _ => none⟩

/-- Memory before `main`, with `kernel` pages of kernel above `EXTMEM`. -/
def bss (kernel : Nat) : Kern where
  mem := ⟨EXTMEM / PGSIZE + kernel, [], fun _ _ => .zero, 0⟩
  proc := fun _ => .zero
  nextpid := 1
  initproc := ⟨0, NPROC_pos⟩
  file := fun _ => ⟨0, .none, 0, false⟩
  pipe := fun _ => none
  boot := []

/-- What `main` allocates on a machine with `ncpu` CPUs: the kernel's page table, the trap vectors,
the local page of each CPU, the stacks that all but the first start on, and the first process. -/
def main (ncpu : Nat) : KernM Unit := do
  let first ← Prog.gets fun k => k.mem.first
  vm (freerange first)
  kvmalloc
  let _ ← bootAlloc
  let _ ← bootAlloc
  Prog.times (fun _ => do
    let _ ← bootAlloc
    let _ ← bootAlloc) (ncpu - 1)
  userinit

/-! ## Steps -/

inductive Call
  | fork
  | exec (im : Image)
  | sbrk (n : Int64)
  | pipe
  | close (fd : Fin NOFILE)
  | exit
  | wait

def Call.run (me : Slot) : Call → KernM Int
  | .fork => Vm.fork me
  | .exec im => Vm.exec me im
  | .sbrk n => sysSbrk me n.toInt
  | .pipe => sysPipe me
  | .close fd => sysClose me fd
  | .exit => Vm.exit me
  | .wait => Vm.wait me

/-- The entry for `va` in a page table, if there is a table for it. -/
def pteOf (s : Mem) (pgdir va : Nat) : Option Pte :=
  match walkpgdir pgdir (PGROUNDDOWN va) false s with
  | .ok (some (pt, i), _) => some (s.page pt i)
  | _ => none

/-- Whether the page at `va` is present. -/
def present (s : Mem) (pgdir va : Nat) : Bool := (pteOf s pgdir va).any fun e => e.p

/-- Whether the processor finds an instruction at `pc`: its page is in the lower half of the address
space, present, and a user page. -/
def fetch (s : Mem) (pgdir pc : Nat) : Bool :=
  pc < 2 ^ 47 && (pteOf s pgdir pc).any fun e => e.p && e.u

/-- The process `me` makes a call from the instruction at `pc`. -/
structure Action where
  me : Slot
  pc : Nat
  call : Call

/-- A process that can be at its instruction: a trap may make a process exit without one. -/
def Action.enabled (k : Kern) (a : Action) : Bool :=
  (k.proc a.me).life = .used && match a.call, (k.proc a.me).pgdir with
    | .exit, _ => true
    | _, none => false
    | _, some r => fetch k.mem r a.pc

def step (k : Kern) (a : Action) : Except Fault Kern :=
  if a.enabled k then
    match a.call.run a.me k with
    | .error e => .error e
    | .ok (_, k') => .ok k'
  else .error .disabled

end Xv6.Vm
