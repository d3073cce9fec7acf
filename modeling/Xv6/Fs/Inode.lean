import Xv6.Fs.State

/-!
# Inodes and their content

The functions of `fs.c` on inodes. A `struct inode *` is the number of an entry of the inode cache.
Devices answer for themselves (`DevSw`); they leave the file system as it is.
-/

namespace Xv6.Fs

/-- `struct inode *` -/
abbrev Ip := Fin NINODE

/-- `devsw`: what the device functions of a major number return, and for a read the bytes copied. -/
structure DevSw where
  read : Nat → Option (UInt32 → UInt32 → Int × List UInt8)
  write : Nat → Option (UInt32 → List UInt8 → Int)

def modifyInode (p : Ip) (f : Inode → Inode) : FsM Unit :=
  Prog.modify fun s => { s with icache := setAt s.icache p (f (s.icache p)) }

def modifyDin (p : Ip) (f : Dinode → Dinode) : FsM Unit :=
  modifyInode p fun ip => { ip with din := f ip.din }

/-! ## The inode cache -/

def iget (inum : Nat) : FsM Ip := do
  let s ← Prog.gets id
  match (List.finRange NINODE).find? fun p => 0 < (s.icache p).ref ∧ (s.icache p).inum = inum with
  | some p => do
    modifyInode p fun ip => { ip with ref := ip.ref + 1 }
    pure p
  | none =>
    match (List.finRange NINODE).find? fun p => (s.icache p).ref = 0 with
    | some p => do
      modifyInode p fun ip => { ip with inum, ref := 1, valid := false }
      pure p
    | none => panic "iget: no inodes"

def idup (p : Ip) : FsM Ip := do
  modifyInode p fun ip => { ip with ref := ip.ref + 1 }
  pure p

/-- The copy of the disk inode, if the entry has none yet. -/
def iload (p : Ip) : FsM Unit := do
  let s ← Prog.gets id
  let d := dinodeAt s.sb s.disk (s.icache p).inum
  modifyInode p fun ip => { ip with din := d, valid := true }
  Prog.when (d.type = 0) (panic "ilock: no type")

def ilock (p : Ip) : FsM Unit := do
  let ip ← Prog.gets (·.icache p)
  if ip.ref < 1 then panic "ilock"
  else if ip.locked then hang
  else do
    modifyInode p fun ip => { ip with locked := true }
    Prog.when (ip.valid = false) (iload p)

def iunlock (p : Ip) : FsM Unit := do
  let ip ← Prog.gets (·.icache p)
  if ip.locked = false ∨ ip.ref < 1 then panic "iunlock"
  else modifyInode p fun ip => { ip with locked := false }

def iupdate (p : Ip) : FsM Unit := do
  let s ← Prog.gets id
  let b := iblock s.sb (s.icache p).inum
  logWrite b ((s.icache p).din.store (s.disk b) ((s.icache p).inum % IPB))

def ialloc (type : UInt16) : FsM Ip := do
  let s ← Prog.gets id
  match (List.range' 1 (s.sb.ninodes.toNat - 1)).find? fun inum =>
      (dinodeAt s.sb s.disk inum).type = 0 with
  | some inum => do
    let b := iblock s.sb inum
    logWrite b ({ Dinode.zero with type }.store (s.disk b) (inum % IPB))
    iget inum
  | none => panic "ialloc: no inodes"

/-! ## Content -/

/-- `addrs[k]` of an inode, for a block that is allocated if there is none yet. -/
def bmapAddr (p : Ip) (k : Nat) : FsM Nat := do
  let ip ← Prog.gets (·.icache p)
  if ip.din.addr k = 0 then do
    let b ← balloc
    modifyDin p (·.setAddr k b)
    pure b
  else pure (ip.din.addr k)

/-- Entry `j` of the indirect block `ind`, for a block that is allocated if there is none yet. -/
def bmapEntry (ind j : Nat) : FsM Nat := do
  let a ← bread ind
  if a.word32 (4 * j) = 0 then do
    let b ← balloc
    logWrite ind (a.setWord32 (4 * j) (UInt32.ofNat b))
    pure b
  else pure (a.word32 (4 * j)).toNat

def bmap (p : Ip) (bn : Nat) : FsM Nat :=
  if bn < NDIRECT then bmapAddr p bn
  else if bn - NDIRECT < NINDIRECT then do
    let ind ← bmapAddr p NDIRECT
    bmapEntry ind (bn - NDIRECT)
  else panic "bmap: out of range"

/-- `if(ip->addrs[i]){ bfree(ip->dev, ip->addrs[i]); ip->addrs[i] = 0; }` -/
def freeAddr (p : Ip) (i : Nat) : FsM Unit := do
  let ip ← Prog.gets (·.icache p)
  Prog.when (ip.din.addr i ≠ 0) do
    bfree (ip.din.addr i)
    modifyDin p (·.setAddr i 0)

/-- The blocks that the entries of the indirect block name. -/
def freeEntries (p : Ip) : FsM Unit := do
  let s ← Prog.gets id
  let a := s.disk ((s.icache p).din.addr NDIRECT)
  Prog.when ((s.icache p).din.addr NDIRECT ≠ 0)
    (Prog.times (fun j => Prog.when (a.word32 (4 * j) ≠ 0) (bfree (a.word32 (4 * j)).toNat))
      NINDIRECT)

def itrunc (p : Ip) : FsM Unit := do
  Prog.times (freeAddr p) NDIRECT
  freeEntries p
  freeAddr p NDIRECT
  modifyDin p fun d => { d with size := 0 }
  iupdate p

/-- What `iput` does with an inode that has neither links nor other references. -/
def ifree (p : Ip) : FsM Unit := do
  itrunc p
  modifyDin p fun d => { d with type := 0 }
  iupdate p
  modifyInode p fun ip => { ip with valid := false }

def iput (p : Ip) : FsM Unit := do
  let ip ← Prog.gets (·.icache p)
  Prog.when (ip.ref = 1 ∧ ip.valid ∧ ip.din.nlink = 0) (ifree p)
  modifyInode p fun ip => { ip with ref := ip.ref - 1 }

def iunlockput (p : Ip) : FsM Unit := do
  iunlock p
  iput p

/-- `min(n - tot, BSIZE - off%BSIZE)`, with `n` bytes left -/
def chunk (off n : Nat) : Nat := min n (BSIZE - off % BSIZE)

/-- The loop of `readi`: `n` bytes from offset `off` on. Each turn reads at least one of them, so
there are at most `n` turns. -/
def readLoop (p : Ip) : (turns off n : Nat) → FsM (List UInt8)
  | 0, _, _ => pure []
  | turns + 1, off, n =>
    if n = 0 then pure []
    else do
      let b ← bmap p (off / BSIZE)
      let data ← bread b
      let rest ← readLoop p turns (off + chunk off n) (n - chunk off n)
      pure (data.slice (off % BSIZE) (chunk off n) ++ rest)

def readi (dev : DevSw) (p : Ip) (off n : UInt32) : FsM (Int × List UInt8) := do
  let ip ← Prog.gets (·.icache p)
  if ip.din.type = T_DEV then
    match if ip.din.major.toNat < NDEV then dev.read ip.din.major.toNat else none with
    | some read => pure (read off n)
    | none => pure (-1, [])
  else if ip.din.size < off ∨ off + n < off then pure (-1, [])
  else do
    let n := if ip.din.size < off + n then ip.din.size - off else n
    let data ← readLoop p n.toNat off.toNat n.toNat
    pure (n.toNat, data)

/-- The loop of `writei`: the bytes `src` from offset `off` on. -/
def writeLoop (p : Ip) : (turns off : Nat) → (src : List UInt8) → FsM Unit
  | 0, _, _ => pure ()
  | turns + 1, off, src =>
    if src.length = 0 then pure ()
    else do
      let b ← bmap p (off / BSIZE)
      let data ← bread b
      let m := chunk off src.length
      logWrite b (data.blit (off % BSIZE) (src.take m))
      writeLoop p turns (off + m) (src.drop m)

/-- `writei` of the `n` bytes `src`. -/
def writei (dev : DevSw) (p : Ip) (src : List UInt8) (off : UInt32) : FsM Int := do
  let n := UInt32.ofNat src.length
  let ip ← Prog.gets (·.icache p)
  if ip.din.type = T_DEV then
    match if ip.din.major.toNat < NDEV then dev.write ip.din.major.toNat else none with
    | some write => pure (write off src)
    | none => pure (-1)
  else if ip.din.size < off ∨ off + n < off then pure (-1)
  else if MAXFILE * BSIZE < (off + n).toNat then pure (-1)
  else do
    writeLoop p src.length off.toNat src
    let ip ← Prog.gets (·.icache p)
    Prog.when (0 < n ∧ ip.din.size < off + n) do
      modifyDin p fun d => { d with size := off + n }
      iupdate p
    pure n.toNat

end Xv6.Fs
