import Xv6.Files.Calls
import Xv6.Fs.Sys

/-!
# `sysfile.c`

The system calls on files and directories, over the file system and the tables of open files and
processes. A string argument is missing if `argstr` fails, or `argint` for another argument. `pipe` is
told whether `argptr` succeeds and which page `kalloc` returns.
-/

namespace Xv6.Sysfile

open Fs (FsM Ip DevSw State)
open Files (Slot FileId Fd TableM)

structure Kernel where
  fs : State
  tab : Files.Table Ip

abbrev KernelM := Prog Kernel Fault

def inFs (x : FsM α) : KernelM α := Prog.zoom Kernel.fs (fun k fs => { k with fs }) x

def inTab (x : TableM Ip α) : KernelM α := Prog.zoom Kernel.tab (fun k tab => { k with tab }) x

/-- `proc->cwd` -/
def cwd (me : Slot) : KernelM Ip := do
  match ← Prog.gets fun k => (k.tab.proc me).cwd with
  | some ip => pure ip
  | none => Prog.stop .disabled

def fileclose (f : FileId) : KernelM Unit := do
  match ← inTab (Files.fileclose f) with
  | none => pure ()
  | some ip => inFs do
    Fs.beginOp
    Fs.iput ip
    Fs.endOp

section
variable (dev : DevSw)

/-- `sys_open` once it has no file or descriptor for the inode. -/
def openBad (ip : Ip) : KernelM Int := do
  inFs do
    Fs.iunlockput ip
    Fs.endOp
  pure (-1)

def sysOpen (me : Slot) : Option (List UInt8) → UInt32 → KernelM Int
  | none, _ => pure (-1)
  | some path, omode => do
    let cwd ← cwd me
    inFs Fs.beginOp
    match ← inFs (Fs.openInode dev cwd path omode) with
    | none => do
      inFs Fs.endOp
      pure (-1)
    | some ip => do
      match ← inTab Files.filealloc with
      | none => openBad ip
      | some f => do
        match ← inTab (Files.fdalloc me f) with
        | none => do
          fileclose f
          openBad ip
        | some fd => do
          inFs do
            Fs.iunlock ip
            Fs.endOp
          inTab (Files.openAs f ip omode)
          pure fd.1

def sysLink (me : Slot) (old new : Option (List UInt8)) : KernelM Int := do
  let cwd ← cwd me
  inFs (Fs.sysLink dev cwd old new)

def sysUnlink (me : Slot) (path : Option (List UInt8)) : KernelM Int := do
  let cwd ← cwd me
  inFs (Fs.sysUnlink dev cwd path)

def sysMkdir (me : Slot) (path : Option (List UInt8)) : KernelM Int := do
  let cwd ← cwd me
  inFs (Fs.sysMkdir dev cwd path)

def sysMknod (me : Slot) (path : Option (List UInt8)) (major minor : UInt16) : KernelM Int := do
  let cwd ← cwd me
  inFs (Fs.sysMknod dev cwd path major minor)

def sysChdir (me : Slot) (path : Option (List UInt8)) : KernelM Int := do
  let cwd ← cwd me
  inFs Fs.beginOp
  match path with
  | none => do
    inFs Fs.endOp
    pure (-1)
  | some path => do
    match ← inFs (Fs.namei dev cwd path) with
    | none => do
      inFs Fs.endOp
      pure (-1)
    | some ip => do
      inFs (Fs.ilock ip)
      let d ← Prog.gets fun k => (k.fs.icache ip).din
      if d.type ≠ Fs.T_DIR then do
        inFs do
          Fs.iunlockput ip
          Fs.endOp
        pure (-1)
      else do
        inFs do
          Fs.iunlock ip
          Fs.iput cwd
          Fs.endOp
        inTab (Files.modifyProc me fun q => { q with cwd := some ip })
        pure 0

def sysDup (me : Slot) (fd : UInt32) : KernelM Int := inTab (Files.sysDup me fd)

def sysPipe (me : Slot) (argptr : Bool) (kalloc : Option Nat) : KernelM Int :=
  inTab (Files.sysPipe me argptr kalloc)

inductive Call
  | open (path : Option (List UInt8)) (omode : UInt32)
  | link (old new : Option (List UInt8))
  | unlink (path : Option (List UInt8))
  | mkdir (path : Option (List UInt8))
  | mknod (path : Option (List UInt8)) (major minor : UInt16)
  | chdir (path : Option (List UInt8))
  | dup (fd : UInt32)
  | pipe (argptr : Bool) (kalloc : Option Nat)

def Call.run (me : Slot) : Call → KernelM Int
  | .open path omode => sysOpen dev me path omode
  | .link old new => sysLink dev me old new
  | .unlink path => sysUnlink dev me path
  | .mkdir path => sysMkdir dev me path
  | .mknod path major minor => sysMknod dev me path major minor
  | .chdir path => sysChdir dev me path
  | .dup fd => sysDup me fd
  | .pipe argptr kalloc => sysPipe me argptr kalloc

end

end Xv6.Sysfile
