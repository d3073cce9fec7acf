import Xv6.Fs.Dir
import Xv6.Vm.Kernel
import Xv6.Vm.Ram

/-!
# `exec`

`exec` of `exec.c`, with `loaduvm` of `vm.c`, on a machine with its memory, its file system and the
process that makes the call. `Vm.exec` is told what is on the disk; here it is read from there, and the
bytes are in memory afterwards. A panic keeps the memory as it is then.
-/

namespace Xv6.Exec

open Vm (PGSIZE PGROUNDUP Ram RamM uint64)
open Fs (FsM Ip DevSw)

/-! ## State -/

/-- The fields of `struct trapframe`. -/
inductive Reg
  | rax | rbx | rcx | rdx | rbp | rsi | rdi | r8 | r9 | r10 | r11 | r12 | r13 | r14 | r15
  | trapno | err
  | rip | cs | rflags | rsp | ss
  deriving DecidableEq

/-- What `exec` may change of `struct proc`, and what it must not. -/
structure Proc where
  pgdir : Nat
  sz : Nat
  name : Bytes 16
  tf : Reg → UInt64
  ofile : Fin NOFILE → Option (Fin NFILE)
  cwd : Ip

structure Machine where
  ram : Ram
  fs : Fs.State
  proc : Proc

abbrev ExecM := Prog Machine (Fault × Ram)

def inRam {α : Type} (x : RamM α) : ExecM α :=
  Prog.zoom Machine.ram (fun m ram => { m with ram }) x

def inFs {α : Type} (x : FsM α) : ExecM α :=
  Prog.within Machine.fs (fun m fs => { m with fs }) (fun m e => (e, m.ram)) x

def modifyProc (f : Proc → Proc) : ExecM Unit := Prog.modify fun m => { m with proc := f m.proc }

/-- `proc->tf->r = v` -/
def setReg (r : Reg) (v : UInt64) : ExecM Unit := modifyProc fun p => { p with tf := setAt p.tf r v }

/-! ## Headers -/

def ELF_MAGIC : Nat := 0x464C457F

/-- The number in the `n` bytes at offset `o`. -/
def field (b : List UInt8) (o n : Nat) : Nat := leNat ((b.drop o).take n)

/-- The fields of `struct elfhdr` that `exec` uses. -/
structure Elfhdr where
  magic : Nat
  entry : UInt64
  phoff : UInt64
  phnum : UInt16

/-- `sizeof(struct elfhdr)` -/
def Elfhdr.size : UInt32 := 64

def Elfhdr.load (b : List UInt8) : Elfhdr where
  magic := field b 0 4
  entry := UInt64.ofNat (field b 24 8)
  phoff := UInt64.ofNat (field b 32 8)
  phnum := UInt16.ofNat (field b 56 2)

/-- The fields of `struct proghdr` that `exec` uses. -/
structure Proghdr extends Vm.Proghdr where
  off : UInt64

/-- `sizeof(struct proghdr)` -/
def Proghdr.size : UInt32 := 56

def Proghdr.load (b : List UInt8) : Proghdr where
  type := UInt32.ofNat (field b 0 4)
  off := UInt64.ofNat (field b 8 8)
  vaddr := UInt64.ofNat (field b 16 8)
  filesz := UInt64.ofNat (field b 32 8)
  memsz := UInt64.ofNat (field b 40 8)

/-! ## The program -/

section
variable (dev : DevSw) (ip : Ip)

/-- How many bytes of a segment of `sz` bytes are in its page `k`. -/
def pageLen (sz k : Nat) : Nat := min (sz - k * PGSIZE) PGSIZE

/-- The loop of `loaduvm` with `n` pages left. The entry is not tested for `PTE_P`. -/
def loadLoop (pgdir addr : Nat) (offset : UInt32) (sz : Nat) : Nat → Nat → ExecM Int
  | 0, _ => pure 0
  | n + 1, k => do
    match ← inRam (Ram.walkpgdir pgdir (addr + k * PGSIZE) false) with
    | none => inRam (Ram.inMem (Vm.panic "loaduvm: address should exist"))
    | some (pt, i) => do
      let e ← inRam (Ram.inMem (Vm.entry pt i))
      let m := pageLen sz k
      let (r, bytes) ← inFs (Fs.readi dev ip (offset + UInt32.ofNat (k * PGSIZE)) (UInt32.ofNat m))
      inRam (Ram.store e.ppn 0 bytes)
      if r ≠ m then pure (-1) else loadLoop pgdir addr offset sz n (k + 1)

/-- `loaduvm`, whose arguments `offset` and `sz` are `uint`s. -/
def loaduvm (pgdir addr : Nat) (offset sz : UInt64) : ExecM Int :=
  if addr % PGSIZE ≠ 0 then inRam (Ram.inMem (Vm.panic "loaduvm: addr must be page aligned"))
  else
    let sz := sz.toNat % 2 ^ 32
    loadLoop dev ip pgdir addr (UInt32.ofNat offset.toNat) sz ((sz + (PGSIZE - 1)) / PGSIZE) 0

/-- Where `exec` reads program header `i`; its variable `off` is an `int`. -/
def phOffset (phoff : UInt64) (i : Nat) : UInt32 :=
  UInt32.ofNat (phoff.toNat + i * Proghdr.size.toNat)

/-- The loop of `exec` over the program headers, with `n` left; nothing if it goes to `bad`. -/
def execLoad (pgdir : Nat) (phoff : UInt64) : Nat → Nat → Nat → ExecM (Option Nat)
  | 0, _, sz => pure (some sz)
  | n + 1, i, sz => do
    let (r, b) ← inFs (Fs.readi dev ip (phOffset phoff i) Proghdr.size)
    if r ≠ Proghdr.size.toNat then pure none
    else
      let ph := Proghdr.load b
      if ph.type ≠ Vm.ELF_PROG_LOAD then execLoad pgdir phoff n (i + 1) sz
      else if ph.memsz < ph.filesz then pure none
      else if ph.vaddr + ph.memsz < ph.vaddr then pure none
      else do
        let sz ← inRam (Ram.allocuvm pgdir sz (ph.vaddr + ph.memsz).toNat)
        if sz = 0 then pure none
        else if ph.vaddr.toNat % PGSIZE ≠ 0 then pure none
        else do
          let r ← loaduvm dev ip pgdir ph.vaddr.toNat ph.off ph.filesz
          if r < 0 then pure none else execLoad pgdir phoff n (i + 1) sz

/-- What `exec` does while the inode is locked: the new page table, the ELF header and the size of the
program, or the page table with which it goes to `bad`, if there is one. -/
def execProgram : ExecM (Except (Option Nat) (Nat × Elfhdr × Nat)) := do
  let (r, b) ← inFs (Fs.readi dev ip 0 Elfhdr.size)
  if r ≠ Elfhdr.size.toNat then pure (.error none)
  else
    let elf := Elfhdr.load b
    if elf.magic ≠ ELF_MAGIC then pure (.error none)
    else do
      match ← inRam Ram.setupkvm with
      | none => pure (.error none)
      | some pgdir => do
        match ← execLoad dev ip pgdir elf.phoff elf.phnum.toNat 0 PGSIZE with
        | none => pure (.error (some pgdir))
        | some sz => pure (.ok (pgdir, elf, sz))

end

/-! ## The arguments -/

/-- The loop of `exec` over its arguments: the stack pointer and `ustack[1..argc]`. -/
def pushArgs (pgdir : Nat) : (argv : List (List UInt8)) → (sp : Nat) → (ustack : List Nat) →
    RamM (Option (Nat × List Nat))
  | [], sp, ustack => pure (some (sp, ustack))
  | s :: argv, sp, ustack =>
    if Vm.MAXARG ≤ ustack.length then pure none
    else do
      let sp := uint64 (sp - (s.length + 1)) / 8 * 8
      let r ← Ram.copyout pgdir sp (s ++ [0])
      if r < 0 then pure none else pushArgs pgdir argv sp (ustack ++ [sp])

/-- The bytes of an array of words. -/
def wordBytes (ws : List Nat) : List UInt8 := ws.flatMap (leBytes 8)

/-- The stack and the arguments above a program of size `sz`: the new size and the stack pointer, or
nothing if `exec` goes to `bad`. -/
def execStack (argv : List (List UInt8)) (pgdir sz : Nat) : ExecM (Option (Nat × Nat)) := do
  let sz := PGROUNDUP sz
  let sz ← inRam (Ram.allocuvm pgdir sz (sz + 2 * PGSIZE))
  if sz = 0 then pure none
  else do
    inRam (Ram.clearpteu pgdir (sz - 2 * PGSIZE))
    match ← inRam (pushArgs pgdir argv sz []) with
    | none => pure none
    | some (sp, ustack) => do
      let argc := ustack.length
      setReg .rdi (UInt64.ofNat argc)
      setReg .rsi (UInt64.ofNat (uint64 (sp - (argc + 1) * 8)))
      let sp := uint64 (sp - (1 + argc + 1) * 8)
      let r ← inRam (Ram.copyout pgdir sp (wordBytes ((2 ^ 64 - 1) :: ustack ++ [0])))
      if r < 0 then pure none else pure (some (sz, sp))

/-! ## The call -/

/-- The label `bad`. -/
def bad (pgdir : Option Nat) (ip : Option Ip) : ExecM Int := do
  match pgdir with
  | some pgdir => inRam (Ram.freevm pgdir)
  | none => pure ()
  match ip with
  | some ip => do
    inFs (Fs.iunlockput ip)
    inFs Fs.endOp
  | none => pure ()
  pure (-1)

/-- What follows the last `/` of a path. -/
def lastElem : (last s : List UInt8) → List UInt8
  | last, [] => last
  | last, c :: s => lastElem (if c = Fs.slash then s else last) s

/-- `safestrcpy` to `proc->name` -/
def safestrcpy (name : Bytes 16) (t : List UInt8) : Bytes 16 := name.blit 0 ((t ++ [0]).take 15 ++ [0])

/-- The new image takes the place of the old one. -/
def commit (path : List UInt8) (elf : Elfhdr) (pgdir sz sp : Nat) : ExecM Unit := do
  modifyProc fun p => { p with name := safestrcpy p.name (lastElem path path) }
  modifyProc fun p => { p with pgdir, sz }
  setReg .rip elf.entry
  setReg .rcx elf.entry
  setReg .rsp (UInt64.ofNat sp)

def exec (dev : DevSw) (path : List UInt8) (argv : List (List UInt8)) : ExecM Int := do
  let oldpgdir ← Prog.gets fun m => m.proc.pgdir
  let cwd ← Prog.gets fun m => m.proc.cwd
  inFs Fs.beginOp
  match ← inFs (Fs.namei dev cwd path) with
  | none => do
    inFs Fs.endOp
    pure (-1)
  | some ip => do
    inFs (Fs.ilock ip)
    match ← execProgram dev ip with
    | .error pgdir => bad pgdir (some ip)
    | .ok (pgdir, elf, sz) => do
      inFs (Fs.iunlockput ip)
      inFs Fs.endOp
      match ← execStack argv pgdir sz with
      | none => bad (some pgdir) none
      | some (sz, sp) => do
        commit path elf pgdir sz sp
        inRam (Ram.freevm oldpgdir)
        pure 0

end Xv6.Exec
