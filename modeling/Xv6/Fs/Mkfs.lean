import Xv6.Fs.Dir

/-!
# The file system image that `mkfs` builds

`main` of `mkfs.c` for a list of files. A file is given by its name on the command line and by what
the calls of `read` return. A program stops where `mkfs` gives up, with a failed `assert` or after a
read beyond the end of the image.
-/

namespace Xv6.Fs.Mkfs

def NINODES : Nat := 200

def nbitmap : Nat := FSSIZE / (BSIZE * 8) + 1

def ninodeblocks : Nat := NINODES / IPB + 1

def nmeta : Nat := 2 + nlog + ninodeblocks + nbitmap

def sb : Superblock where
  size := UInt32.ofNat FSSIZE
  nblocks := UInt32.ofNat (FSSIZE - nmeta)
  ninodes := UInt32.ofNat NINODES
  nlog := UInt32.ofNat nlog
  logstart := 2
  inodestart := UInt32.ofNat (2 + nlog)
  bmapstart := UInt32.ofNat (2 + nlog + ninodeblocks)

def Superblock.words (sb : Superblock) : List UInt32 :=
  [sb.size, sb.nblocks, sb.ninodes, sb.nlog, sb.logstart, sb.inodestart, sb.bmapstart]

structure Image where
  disk : Disk
  freeinode : Nat
  freeblock : Nat

abbrev MkfsM := Prog Image Fault

def assert (c : Prop) [Decidable c] : MkfsM Unit :=
  Prog.when (¬c) (Prog.stop (.panic "assert"))

/-- The sector at the offset `sec * BSIZE`, which is a `uint`. -/
def sector (sec : Nat) : Nat := sec * BSIZE % 2 ^ 32 / BSIZE

/-- `wsect`. It is called for sectors only that are part of the image. -/
def wsect (sec : Nat) (buf : Block) : MkfsM Unit :=
  Prog.modify fun s => { s with disk := setAt s.disk (sector sec) buf }

/-- `rsect`. The image has `FSSIZE` sectors, and nothing is read after them. -/
def rsect (sec : Nat) : MkfsM Block :=
  if sector sec < FSSIZE then Prog.gets (·.disk (sector sec)) else Prog.stop (.panic "read")

def winode (inum : Nat) (d : Dinode) : MkfsM Unit := do
  let buf ← rsect (iblock sb inum)
  wsect (iblock sb inum) (d.store buf (inum % IPB))

def rinode (inum : Nat) : MkfsM Dinode := do
  let buf ← rsect (iblock sb inum)
  pure (Dinode.load buf (inum % IPB))

def ialloc (type : UInt16) : MkfsM Nat := do
  let inum ← Prog.gets (·.freeinode)
  Prog.modify fun s => { s with freeinode := s.freeinode + 1 }
  winode inum { Dinode.zero with type, nlink := 1 }
  pure inum

/-- `freeblock++` -/
def nextBlock : MkfsM Nat := do
  let b ← Prog.gets (·.freeblock)
  Prog.modify fun s => { s with freeblock := s.freeblock + 1 }
  pure b

/-- `addrs[k]`, for a block that is taken if there is none yet. -/
def blockAddr (d : Dinode) (k : Nat) : MkfsM (Dinode × Nat) :=
  if d.addr k = 0 then do
    let b ← nextBlock
    pure (d.setAddr k b, b)
  else pure (d, d.addr k)

/-- The block of `iappend` with the index `fbn`. -/
def blockFor (d : Dinode) (fbn : Nat) : MkfsM (Dinode × Nat) :=
  if fbn < NDIRECT then blockAddr d fbn
  else do
    let (d, ind) ← blockAddr d NDIRECT
    let indirect ← rsect ind
    if indirect.word32 (4 * (fbn - NDIRECT)) = 0 then do
      let b ← nextBlock
      wsect ind (indirect.setWord32 (4 * (fbn - NDIRECT)) (UInt32.ofNat b))
      pure (d, b)
    else pure (d, (indirect.word32 (4 * (fbn - NDIRECT))).toNat)

/-- The loop of `iappend`: the inode and the offset at its end. -/
def iappendLoop : (turns : Nat) → Dinode → (off : Nat) → (p : List UInt8) → MkfsM (Dinode × Nat)
  | 0, d, off, _ => pure (d, off)
  | turns + 1, d, off, p =>
    if p.length = 0 then pure (d, off)
    else do
      assert (off / BSIZE < MAXFILE)
      let (d, x) ← blockFor d (off / BSIZE)
      let n1 := min p.length ((off / BSIZE + 1) * BSIZE - off)
      let buf ← rsect x
      wsect x (buf.blit (off - off / BSIZE * BSIZE) (p.take n1))
      iappendLoop turns d (off + n1) (p.drop n1)

def iappend (inum : Nat) (p : List UInt8) : MkfsM Unit := do
  let d ← rinode inum
  let (d, off) ← iappendLoop p.length d d.size.toNat p
  winode inum { d with size := UInt32.ofNat off }

/-- The entry of a directory for the inode `inum`. -/
def dirent (inum : Nat) (name : List UInt8) : List UInt8 :=
  Dirent.store ⟨UInt16.ofNat inum, strncpy name DIRSIZ⟩

structure HostFile where
  /-- `argv[i]` -/
  arg : List UInt8
  /-- What the calls of `read` return. -/
  reads : List (List UInt8)
  string : 0 ∉ arg
  read_le : ∀ p ∈ reads, 0 < p.length ∧ p.length ≤ BSIZE

/-- The name of a file in the image: a leading `_` is skipped. -/
def HostFile.name (f : HostFile) : List UInt8 :=
  if f.arg.head? = some 95 then f.arg.tail else f.arg

def addFile (rootino : Nat) (f : HostFile) : MkfsM Unit := do
  assert (slash ∉ f.arg)
  let inum ← ialloc T_FILE
  iappend rootino (dirent inum f.name)
  f.reads.forM (iappend inum)

/-- `balloc`: the free map, in which the first `used` blocks are taken. -/
def bitmap (used : Nat) : Block := (List.range used).foldl Bytes.setBit Bytes.zero

def balloc (used : Nat) : MkfsM Unit := do
  assert (used < BSIZE * 8)
  wsect sb.bmapstart.toNat (bitmap used)

def main (files : List HostFile) : MkfsM Unit := do
  wsect 1 (Bytes.zero.setWords32 0 (Superblock.words sb))
  let rootino ← ialloc T_DIR
  assert (rootino = ROOTINO)
  iappend rootino (dirent rootino dot)
  iappend rootino (dirent rootino dotdot)
  files.forM (addFile rootino)
  -- fix size of root inode dir
  let d ← rinode rootino
  winode rootino { d with size := UInt32.ofNat ((d.size.toNat / BSIZE + 1) * BSIZE) }
  let used ← Prog.gets (·.freeblock)
  balloc used

/-- The state of `mkfs` once the image is filled with zeroes. -/
def start : Image := ⟨fun _ => Bytes.zero, 1, nmeta⟩

/-- The image that `mkfs` builds. -/
def image (files : List HostFile) : Except Fault Disk :=
  match main files start with
  | .ok (_, s) => .ok s.disk
  | .error e => .error e

end Xv6.Fs.Mkfs
