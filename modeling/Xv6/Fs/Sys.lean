import Xv6.Fs.Dir

/-!
# System calls on files

The functions of `file.c` and `sysfile.c`, and what `fork` and `exit` of `proc.c` do with open
files. A call is made by a process, identified by its place in the process table; a string argument
is missing if `argstr` fails. Pipes are left out: every file that is open is an inode.
-/

namespace Xv6.Fs

/-! ## Calls on the file system alone -/

section
variable (dev : DevSw)

/-- The entries `"."` and `".."` of a new directory. -/
def createDots (dp ip : Ip) : FsM Unit := do
  modifyDin dp fun d => { d with nlink := d.nlink + 1 }
  iupdate dp
  let inum ← Prog.gets fun s => (s.icache ip).inum
  let r ← dirlink dev ip dot inum
  if r < 0 then panic "create dots"
  else do
    let inum ← Prog.gets fun s => (s.icache dp).inum
    let r ← dirlink dev ip dotdot inum
    Prog.when (r < 0) (panic "create dots")

def create (cwd : Ip) (path : List UInt8) (type major minor : UInt16) : FsM (Option Ip) := do
  match ← nameiparent dev cwd path with
  | none => pure none
  | some (dp, name) => do
    ilock dp
    match ← dirlookup dev dp name with
    | some (ip, _) => do
      iunlockput dp
      ilock ip
      let d ← Prog.gets fun s => (s.icache ip).din
      if type = T_FILE ∧ d.type = T_FILE then pure (some ip)
      else do
        iunlockput ip
        pure none
    | none => do
      let ip ← ialloc type
      ilock ip
      modifyDin ip fun d => { d with major, minor, nlink := 1 }
      iupdate ip
      Prog.when (type = T_DIR) (createDots dev dp ip)
      let inum ← Prog.gets fun s => (s.icache ip).inum
      let r ← dirlink dev dp name inum
      if r < 0 then panic "create: dirlink"
      else do
        iunlockput dp
        pure (some ip)

/-- `sys_mkdir` and `sys_mknod` -/
def sysMake (cwd : Ip) (path : Option (List UInt8)) (type major minor : UInt16) : FsM Int := do
  beginOp
  match path with
  | none => do
    endOp
    pure (-1)
  | some path => do
    match ← create dev cwd path type major minor with
    | none => do
      endOp
      pure (-1)
    | some ip => do
      iunlockput ip
      endOp
      pure 0

def sysMkdir (cwd : Ip) (path : Option (List UInt8)) : FsM Int := sysMake dev cwd path T_DIR 0 0

def sysMknod (cwd : Ip) (path : Option (List UInt8)) (major minor : UInt16) : FsM Int :=
  sysMake dev cwd path T_DEV major minor

/-- The part of `sys_link` after `bad:`. -/
def linkBad (ip : Ip) : FsM Int := do
  ilock ip
  modifyDin ip fun d => { d with nlink := d.nlink - 1 }
  iupdate ip
  iunlockput ip
  endOp
  pure (-1)

def sysLink (cwd : Ip) : Option (List UInt8) → Option (List UInt8) → FsM Int
  | some old, some new => do
    beginOp
    match ← namei dev cwd old with
    | none => do
      endOp
      pure (-1)
    | some ip => do
      ilock ip
      let d ← Prog.gets fun s => (s.icache ip).din
      if d.type = T_DIR then do
        iunlockput ip
        endOp
        pure (-1)
      else do
        modifyDin ip fun d => { d with nlink := d.nlink + 1 }
        iupdate ip
        iunlock ip
        match ← nameiparent dev cwd new with
        | none => linkBad ip
        | some (dp, name) => do
          ilock dp
          let inum ← Prog.gets fun s => (s.icache ip).inum
          let r ← dirlink dev dp name inum
          if r < 0 then do
            iunlockput dp
            linkBad ip
          else do
            iunlockput dp
            iput ip
            endOp
            pure 0
  | _, _ => pure (-1)

/-- The part of `sys_unlink` that removes the entry at offset `off` of `dp`, which names `ip`. -/
def unlinkAt (dp ip : Ip) (off : Nat) : FsM Int := do
  let r ← writei dev dp (List.replicate Dirent.size 0) (UInt32.ofNat off)
  if r ≠ Dirent.size then panic "unlink: writei"
  else do
    let d ← Prog.gets fun s => (s.icache ip).din
    Prog.when (d.type = T_DIR) do
      modifyDin dp fun d => { d with nlink := d.nlink - 1 }
      iupdate dp
    iunlockput dp
    modifyDin ip fun d => { d with nlink := d.nlink - 1 }
    iupdate ip
    iunlockput ip
    endOp
    pure 0

/-- The part of `sys_unlink` after `bad:`. -/
def unlinkBad (dp : Ip) : FsM Int := do
  iunlockput dp
  endOp
  pure (-1)

/-- The test `ip->nlink < 1` of a `short`. -/
def nlinkBelowOne (nlink : UInt16) : Bool := nlink = 0 ∨ 2 ^ 15 ≤ nlink.toNat

def sysUnlink (cwd : Ip) : Option (List UInt8) → FsM Int
  | none => pure (-1)
  | some path => do
    beginOp
    match ← nameiparent dev cwd path with
    | none => do
      endOp
      pure (-1)
    | some (dp, name) => do
      ilock dp
      if namecmp name dot = 0 ∨ namecmp name dotdot = 0 then unlinkBad dp
      else do
        match ← dirlookup dev dp name with
        | none => unlinkBad dp
        | some (ip, off) => do
          ilock ip
          let d ← Prog.gets fun s => (s.icache ip).din
          if nlinkBelowOne d.nlink then panic "unlink: nlink < 1"
          else if d.type = T_DIR then do
            if ← isdirempty dev ip then unlinkAt dev dp ip off
            else do
              iunlockput ip
              unlinkBad dp
          else unlinkAt dev dp ip off

end

/-! ## Open files and processes -/

inductive FdType
  | none
  | inode
  deriving DecidableEq

structure File where
  type : FdType
  ref : Int
  readable : Bool
  writable : Bool
  ip : Ip
  off : UInt32

/-- What the file system sees of a `struct proc`. -/
structure Task where
  ofile : Fin NOFILE → Option (Fin NFILE)
  cwd : Ip

structure Sys where
  fs : State
  file : Fin NFILE → File
  task : Fin NPROC → Option Task

abbrev SysM := Prog Sys Fault

def inFs (x : FsM α) : SysM α := Prog.zoom Sys.fs (fun s fs => { s with fs }) x

def modifyFile (f : Fin NFILE) (g : File → File) : SysM Unit :=
  Prog.modify fun s => { s with file := setAt s.file f (g (s.file f)) }

def modifyTask (me : Fin NPROC) (g : Task → Task) : SysM Unit :=
  Prog.modify fun s => { s with task := setAt s.task me ((s.task me).map g) }

/-- The caller's `struct proc`. -/
def self (me : Fin NPROC) : SysM Task := do
  match ← Prog.gets (·.task me) with
  | some p => pure p
  | none => Prog.stop .disabled

def filealloc : SysM (Option (Fin NFILE)) := do
  let s ← Prog.gets id
  match (List.finRange NFILE).find? fun f => (s.file f).ref = 0 with
  | some f => do
    modifyFile f fun f => { f with ref := 1 }
    pure (some f)
  | none => pure none

def filedup (f : Fin NFILE) : SysM Unit := do
  let s ← Prog.gets id
  if (s.file f).ref < 1 then Prog.stop (.panic "filedup")
  else modifyFile f fun f => { f with ref := f.ref + 1 }

def fileclose (f : Fin NFILE) : SysM Unit := do
  let ff ← Prog.gets (·.file f)
  if ff.ref < 1 then Prog.stop (.panic "fileclose")
  else if 0 < ff.ref - 1 then modifyFile f fun f => { f with ref := f.ref - 1 }
  else do
    modifyFile f fun f => { f with ref := 0, type := .none }
    Prog.when (ff.type = .inode) (inFs do
      beginOp
      iput ff.ip
      endOp)

/-- The bytes that `filewrite` writes in one transaction. -/
def maxChunk : Nat := (LOGSIZE - 1 - 1 - 2) / 2 * 512

section
variable (dev : DevSw)

/-- One transaction of `filewrite`: what `writei` returns. -/
def writeChunk (ip : Ip) (src : List UInt8) (off : UInt32) : FsM Int := do
  beginOp
  ilock ip
  let r ← writei dev ip src off
  iunlock ip
  endOp
  pure r

def advance (off : UInt32) (r : Int) : UInt32 := if 0 < r then off + UInt32.ofNat r.toNat else off

/-- The loop of `filewrite`: whether it wrote all of `src`. -/
def filewriteLoop (f : Fin NFILE) : (turns : Nat) → (src : List UInt8) → SysM Bool
  | 0, src => pure (src.length = 0)
  | turns + 1, src =>
    if src.length = 0 then pure true
    else do
      let ff ← Prog.gets (·.file f)
      let r ← inFs (writeChunk dev ff.ip (src.take maxChunk) ff.off)
      modifyFile f fun ff => { ff with off := advance ff.off r }
      if r < 0 then pure false
      else if r ≠ (src.take maxChunk).length then Prog.stop (.panic "short filewrite")
      else filewriteLoop f turns (src.drop maxChunk)

def filewrite (f : Fin NFILE) (src : List UInt8) : SysM Int := do
  let ff ← Prog.gets (·.file f)
  if ff.writable = false then pure (-1)
  else if ff.type = .inode then do
    let all ← filewriteLoop dev f src.length src
    pure (if all then src.length else -1)
  else Prog.stop (.panic "filewrite")

def fileread (f : Fin NFILE) (n : UInt32) : SysM Int := do
  let ff ← Prog.gets (·.file f)
  if ff.readable = false then pure (-1)
  else if ff.type = .inode then do
    let (r, _) ← inFs do
      ilock ff.ip
      let r ← readi dev ff.ip ff.off n
      iunlock ff.ip
      pure r
    modifyFile f fun ff => { ff with off := advance ff.off r }
    pure r
  else Prog.stop (.panic "fileread")

/-! ## System calls -/

def argfd (me : Fin NPROC) (fd : UInt32) : SysM (Option (Fin NOFILE × Fin NFILE)) := do
  let p ← self me
  if h : fd.toNat < NOFILE then pure ((p.ofile ⟨fd.toNat, h⟩).map (⟨fd.toNat, h⟩, ·))
  else pure none

def fdalloc (me : Fin NPROC) (f : Fin NFILE) : SysM (Option (Fin NOFILE)) := do
  let p ← self me
  match (List.finRange NOFILE).find? fun fd => p.ofile fd = none with
  | some fd => do
    modifyTask me fun p => { p with ofile := setAt p.ofile fd (some f) }
    pure (some fd)
  | none => pure none

def sysDup (me : Fin NPROC) (fd : UInt32) : SysM Int := do
  match ← argfd me fd with
  | none => pure (-1)
  | some (_, f) => do
    match ← fdalloc me f with
    | none => pure (-1)
    | some fd => do
      filedup f
      pure fd.1

def sysRead (me : Fin NPROC) (fd n : UInt32) : SysM Int := do
  match ← argfd me fd with
  | none => pure (-1)
  | some (_, f) => fileread dev f n

def sysWrite (me : Fin NPROC) (fd : UInt32) (src : List UInt8) : SysM Int := do
  match ← argfd me fd with
  | none => pure (-1)
  | some (_, f) => filewrite dev f src

def sysClose (me : Fin NPROC) (fd : UInt32) : SysM Int := do
  match ← argfd me fd with
  | none => pure (-1)
  | some (fd, f) => do
    modifyTask me fun p => { p with ofile := setAt p.ofile fd none }
    fileclose f
    pure 0

def O_RDONLY : UInt32 := 0x000

def O_WRONLY : UInt32 := 0x001

def O_RDWR : UInt32 := 0x002

def O_CREATE : UInt32 := 0x200

/-- The inode that `sys_open` opens, locked. -/
def openInode (cwd : Ip) (path : List UInt8) (omode : UInt32) : FsM (Option Ip) :=
  if omode &&& O_CREATE ≠ 0 then create dev cwd path T_FILE 0 0
  else do
    match ← namei dev cwd path with
    | none => pure none
    | some ip => do
      ilock ip
      let d ← Prog.gets fun s => (s.icache ip).din
      if d.type = T_DIR ∧ omode ≠ O_RDONLY then do
        iunlockput ip
        pure none
      else pure (some ip)

/-- `sys_open` once it has no file or descriptor for the inode. -/
def openBad (ip : Ip) : SysM Int := do
  inFs do
    iunlockput ip
    endOp
  pure (-1)

def sysOpen (me : Fin NPROC) : Option (List UInt8) → UInt32 → SysM Int
  | none, _ => pure (-1)
  | some path, omode => do
    let p ← self me
    inFs beginOp
    match ← inFs (openInode dev p.cwd path omode) with
    | none => do
      inFs endOp
      pure (-1)
    | some ip => do
      match ← filealloc with
      | none => openBad ip
      | some f => do
        match ← fdalloc me f with
        | none => do
          fileclose f
          openBad ip
        | some fd => do
          inFs do
            iunlock ip
            endOp
          modifyFile f fun f => { f with
            type := .inode
            ip
            off := 0
            readable := omode &&& O_WRONLY = 0
            writable := omode &&& O_WRONLY ≠ 0 ∨ omode &&& O_RDWR ≠ 0 }
          pure fd.1

def sysChdir (me : Fin NPROC) (path : Option (List UInt8)) : SysM Int := do
  let p ← self me
  inFs beginOp
  match path with
  | none => do
    inFs endOp
    pure (-1)
  | some path => do
    match ← inFs (namei dev p.cwd path) with
    | none => do
      inFs endOp
      pure (-1)
    | some ip => do
      inFs (ilock ip)
      let d ← Prog.gets fun s => (s.fs.icache ip).din
      if d.type ≠ T_DIR then do
        inFs do
          iunlockput ip
          endOp
        pure (-1)
      else do
        inFs do
          iunlock ip
          iput p.cwd
          endOp
        modifyTask me fun p => { p with cwd := ip }
        pure 0

/-- What `fork` copies for the child in place `child` of the process table. -/
def fork (me child : Fin NPROC) : SysM Unit := do
  let p ← self me
  match ← Prog.gets (·.task child) with
  | some _ => Prog.stop .disabled
  | none => do
    (List.finRange NOFILE).forM fun fd =>
      match p.ofile fd with
      | some f => filedup f
      | none => pure ()
    let cwd ← inFs (idup p.cwd)
    Prog.modify fun s => { s with task := setAt s.task child (some ⟨p.ofile, cwd⟩) }

/-- What `exit` does before the process becomes a zombie. The first process is `init`. -/
def exit (me : Fin NPROC) : SysM Unit := do
  let p ← self me
  if me.1 = 0 then Prog.stop (.panic "init exiting")
  else do
    (List.finRange NOFILE).forM fun fd =>
      match p.ofile fd with
      | some f => do
        fileclose f
        modifyTask me fun p => { p with ofile := setAt p.ofile fd none }
      | none => pure ()
    inFs do
      beginOp
      iput p.cwd
      endOp
    Prog.modify fun s => { s with task := setAt s.task me none }

end

end Xv6.Fs
