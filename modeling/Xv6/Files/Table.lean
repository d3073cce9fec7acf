import Xv6.Lib.Prog
import Xv6.Lib.Run
import Xv6.Lib.Table
import Xv6.Param

/-!
# Open files

The table of open files, the descriptors of the processes and the pipes, with what `file.c`,
`pipe.c`, `sysfile.c` and `proc.c` do with them. What the file system does is left open: inodes are
of any type, a path leads to whatever inode `open` is told, and a function that gives an inode back
returns it. Likewise `pipe` is told what `kalloc` returns, and `fork` whether there is memory.
-/

namespace Xv6.Files

abbrev FileId := Fin NFILE

abbrev Slot := Fin NPROC

abbrev Fd := Fin NOFILE

inductive FdType
  | none
  | pipe
  | inode
  deriving DecidableEq

/-- `struct file`, with the page of a pipe. -/
structure File (ι : Type) where
  type : FdType
  ref : Int
  readable : Bool
  writable : Bool
  pipe : Nat
  ip : Option ι
  off : UInt32

/-- The states of a process, with all that are neither `UNUSED` nor `ZOMBIE` as one. -/
inductive Life
  | unused
  | used
  | zombie
  deriving DecidableEq

structure Proc (ι : Type) where
  life : Life
  ofile : Fd → Option FileId
  cwd : Option ι

/-- The ends of a `struct pipe`. -/
structure Ends where
  readopen : Bool
  writeopen : Bool

/-- The tables, the pages that hold a pipe, and how often each page was allocated for a pipe and
freed. -/
structure Table (ι : Type) where
  file : FileId → File ι
  proc : Slot → Proc ι
  pipe : Nat → Option Ends
  allocs : Nat → Nat
  frees : Nat → Nat

abbrev TableM (ι : Type) := Prog (Table ι) Fault

variable {ι : Type}

def modifyFile (f : FileId) (g : File ι → File ι) : TableM ι Unit :=
  Prog.modify fun s => { s with file := setAt s.file f (g (s.file f)) }

def modifyProc (p : Slot) (g : Proc ι → Proc ι) : TableM ι Unit :=
  Prog.modify fun s => { s with proc := setAt s.proc p (g (s.proc p)) }

/-- `p->ofile[fd] = f` -/
def setOfile (p : Slot) (fd : Fd) (f : Option FileId) : TableM ι Unit :=
  modifyProc p fun q => { q with ofile := setAt q.ofile fd f }

/-! ## `file.c` and `pipe.c` -/

def filealloc : TableM ι (Option FileId) := do
  match ← Prog.gets fun s => (List.finRange NFILE).find? fun f => (s.file f).ref = 0 with
  | none => pure none
  | some f => do
    modifyFile f fun x => { x with ref := 1 }
    pure (some f)

def filedup (f : FileId) : TableM ι Unit := do
  let x ← Prog.gets fun s => s.file f
  if x.ref < 1 then Prog.stop (.panic "filedup")
  else modifyFile f fun x => { x with ref := x.ref + 1 }

def pipeclose (page : Nat) (writable : Bool) : TableM ι Unit := do
  match ← Prog.gets fun s => s.pipe page with
  -- the page holds no pipe
  | none => Prog.stop (.panic "acquire")
  | some e => do
    let e : Ends := if writable then { e with writeopen := false } else { e with readopen := false }
    if e.readopen = false ∧ e.writeopen = false then
      Prog.modify fun s => { s with
        pipe := setAt s.pipe page none
        frees := setAt s.frees page (s.frees page + 1) }
    else Prog.modify fun s => { s with pipe := setAt s.pipe page (some e) }

/-- `fileclose`: the inode that it puts, if it does. -/
def fileclose (f : FileId) : TableM ι (Option ι) := do
  let x ← Prog.gets fun s => s.file f
  if x.ref < 1 then Prog.stop (.panic "fileclose")
  else if 0 < x.ref - 1 then do
    modifyFile f fun x => { x with ref := x.ref - 1 }
    pure none
  else do
    modifyFile f fun x => { x with ref := 0, type := .none }
    match x.type with
    | .pipe => do
      pipeclose x.pipe x.writable
      pure none
    | .inode => pure x.ip
    | .none => pure none

/-- The part of `pipealloc` after `bad:`. -/
def pipeBad (f₀ f₁ : Option FileId) : TableM ι (Option (FileId × FileId)) := do
  match f₀ with
  | some f => do
    let _ ← fileclose f
  | none => pure ()
  match f₁ with
  | some f => do
    let _ ← fileclose f
  | none => pure ()
  pure none

/-- A new pipe in a page that `kalloc` returned. -/
def pipeinit (page : Nat) (f₀ f₁ : FileId) : TableM ι Unit := do
  Prog.modify fun s => { s with
    pipe := setAt s.pipe page (some ⟨true, true⟩)
    allocs := setAt s.allocs page (s.allocs page + 1) }
  modifyFile f₀ fun x => { x with type := .pipe, readable := true, writable := false, pipe := page }
  modifyFile f₁ fun x => { x with type := .pipe, readable := false, writable := true, pipe := page }

def pipealloc (kalloc : Option Nat) : TableM ι (Option (FileId × FileId)) := do
  match ← filealloc with
  | none => pipeBad none none
  | some f₀ => do
    match ← filealloc with
    | none => pipeBad (some f₀) none
    | some f₁ => do
      match kalloc with
      | none => pipeBad (some f₀) (some f₁)
      | some page => do
        pipeinit page f₀ f₁
        pure (some (f₀, f₁))

/-! ## `sysfile.c` -/

def argfd (me : Slot) (fd : UInt32) : TableM ι (Option (Fd × FileId)) := do
  let p ← Prog.gets fun s => s.proc me
  if h : fd.toNat < NOFILE then pure ((p.ofile ⟨fd.toNat, h⟩).map (⟨fd.toNat, h⟩, ·))
  else pure none

def fdalloc (me : Slot) (f : FileId) : TableM ι (Option Fd) := do
  match ← Prog.gets fun s => (List.finRange NOFILE).find? fun fd => (s.proc me).ofile fd = none with
  | none => pure none
  | some fd => do
    setOfile me fd (some f)
    pure (some fd)

def sysDup (me : Slot) (fd : UInt32) : TableM ι Int := do
  match ← argfd me fd with
  | none => pure (-1)
  | some (_, f) => do
    match ← fdalloc me f with
    | none => pure (-1)
    | some fd => do
      filedup f
      pure fd.1

/-- `sys_close`: what it returns, and the inode that it puts. -/
def sysClose (me : Slot) (fd : UInt32) : TableM ι (Int × Option ι) := do
  match ← argfd me fd with
  | none => pure (-1, none)
  | some (fd, f) => do
    setOfile me fd none
    let ip ← fileclose f
    pure (0, ip)

/-- The descriptors of a new pipe; nothing if `argptr` fails, which is before anything is done. -/
def sysPipe (me : Slot) (argptr : Bool) (kalloc : Option Nat) : TableM ι Int := do
  if argptr = false then pure (-1)
  else do
    match ← pipealloc kalloc with
    | none => pure (-1)
    | some (rf, wf) => do
      match ← fdalloc me rf with
      | none => do
        let _ ← fileclose rf
        let _ ← fileclose wf
        pure (-1)
      | some fd₀ => do
        match ← fdalloc me wf with
        | none => do
          setOfile me fd₀ none
          let _ ← fileclose rf
          let _ ← fileclose wf
          pure (-1)
        | some _ => pure 0

def O_RDONLY : UInt32 := 0x000

def O_WRONLY : UInt32 := 0x001

def O_RDWR : UInt32 := 0x002

def O_CREATE : UInt32 := 0x200

/-- The fields that `sys_open` sets in the file of an inode. -/
def openAs (f : FileId) (ip : ι) (omode : UInt32) : TableM ι Unit :=
  modifyFile f fun x => { x with
    type := .inode
    ip := some ip
    off := 0
    readable := omode &&& O_WRONLY = 0
    writable := omode &&& O_WRONLY ≠ 0 ∨ omode &&& O_RDWR ≠ 0 }

/-- The part of `sys_open` that makes a file for the inode: its descriptor, if there is one. -/
def openFile (me : Slot) (ip : ι) (omode : UInt32) : TableM ι (Option Fd) := do
  match ← filealloc with
  | none => pure none
  | some f => do
    match ← fdalloc me f with
    | none => do
      let _ ← fileclose f
      pure none
    | some fd => do
      openAs f ip omode
      pure (some fd)

/-! ## `proc.c` -/

/-- The child in `fork` gets the files of its parent. -/
def dupFiles (me np : Slot) : TableM ι Unit :=
  (List.finRange NOFILE).forM fun fd => do
    match ← Prog.gets fun s => (s.proc me).ofile fd with
    | none => pure ()
    | some f => do
      filedup f
      setOfile np fd (some f)

/-- `fork`: the child, if there is one. -/
def fork (me : Slot) (memory : Bool) : TableM ι (Option Slot) := do
  match ← Prog.gets fun s => (List.finRange NPROC).find? fun p => (s.proc p).life = .unused with
  | none => pure none
  | some np =>
    if memory = false then pure none
    else do
      modifyProc np fun q => { q with life := .used }
      dupFiles me np
      let cwd ← Prog.gets fun s => (s.proc me).cwd
      modifyProc np fun q => { q with cwd }
      pure (some np)

def closeFiles (me : Slot) : TableM ι Unit :=
  (List.finRange NOFILE).forM fun fd => do
    match ← Prog.gets fun s => (s.proc me).ofile fd with
    | none => pure ()
    | some f => do
      let _ ← fileclose f
      setOfile me fd none

/-- `initproc` -/
def init : Slot := ⟨0, NPROC_pos⟩

def exit (me : Slot) : TableM ι Unit := do
  if me = init then Prog.stop (.panic "init exiting")
  else do
    closeFiles me
    modifyProc me fun q => { q with cwd := none, life := .zombie }

/-- The part of `wait` that frees the slot of a zombie. -/
def reap (p : Slot) : TableM ι Unit := do
  let q ← Prog.gets fun s => s.proc p
  if q.life = .zombie then modifyProc p fun q => { q with life := .unused }
  else Prog.stop .disabled

/-! ## Steps -/

inductive Call (ι : Type)
  /-- `open`, with the inode that `namei` or `create` returns. -/
  | open (ip : Option ι) (omode : UInt32)
  | pipe (argptr : Bool) (kalloc : Option Nat)
  | dup (fd : UInt32)
  | close (fd : UInt32)
  | fork (memory : Bool)
  | exit
  /-- `wait`, with the zombie that it finds. -/
  | wait (p : Slot)

/-- What a call does to the tables. -/
def Call.run (me : Slot) : Call ι → TableM ι Unit
  | .open none _ => pure ()
  | .open (some ip) omode => do
    let _ ← openFile me ip omode
  | .pipe argptr kalloc => do
    let _ ← sysPipe me argptr kalloc
  | .dup fd => do
    let _ ← sysDup me fd
  | .close fd => do
    let _ ← sysClose me fd
  | .fork memory => do
    let _ ← Files.fork me memory
  | .exit => Files.exit me
  | .wait p => reap p

/-- A process that is there makes a call; `kalloc` does not return a page that holds a pipe. -/
def Call.enabled (s : Table ι) (me : Slot) (c : Call ι) : Bool :=
  (s.proc me).life = .used && match c with
    | .pipe _ (some page) => (s.pipe page).isNone
    | _ => true

def step (s : Table ι) (a : Slot × Call ι) : Except Fault (Table ι) :=
  if a.2.enabled s a.1 then (a.2.run a.1 s).map Prod.snd else .error .disabled

/-- No file is open, and there is the first process. -/
def start (cwd : ι) : Table ι where
  file _ := ⟨.none, 0, false, false, 0, none, 0⟩
  proc p := if p = init then ⟨.used, fun _ => none, some cwd⟩ else ⟨.unused, fun _ => none, none⟩
  pipe _ := none
  allocs _ := 0
  frees _ := 0

end Xv6.Files
