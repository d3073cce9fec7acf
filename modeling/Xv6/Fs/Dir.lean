import Xv6.Fs.Inode

/-!
# Directories and path names
-/

namespace Xv6.Fs

def DIRSIZ : Nat := 14

/-! ## Names -/

/-- `strncmp` of `string.c`, on strings that end at a zero byte or with the list. -/
def strncmp : List UInt8 → List UInt8 → Nat → Int
  | _, _, 0 => 0
  | p, q, n + 1 =>
    if p.headD 0 ≠ 0 ∧ p.headD 0 = q.headD 0 then strncmp p.tail q.tail n
    else (p.headD 0).toNat - (q.headD 0).toNat

/-- `strncpy` of `string.c`: the `n` bytes that it stores. -/
def strncpy : List UInt8 → Nat → List UInt8
  | _, 0 => []
  | t, n + 1 => if t.headD 0 = 0 then List.replicate (n + 1) 0 else t.headD 0 :: strncpy t.tail n

def namecmp (s t : List UInt8) : Int := strncmp s t DIRSIZ

/-- `"."` -/
def dot : List UInt8 := [46]

/-- `".."` -/
def dotdot : List UInt8 := [46, 46]

/-- `'/'` -/
def slash : UInt8 := 47

/-! ## Entries -/

/-- `struct dirent` -/
structure Dirent where
  inum : UInt16
  name : List UInt8
  deriving DecidableEq

namespace Dirent

def size : Nat := 2 + DIRSIZ

def load (bytes : List UInt8) : Dirent :=
  ⟨UInt16.ofNat (leNat (bytes.take 2)), (bytes.drop 2).take DIRSIZ⟩

def store (de : Dirent) : List UInt8 := leBytes 2 de.inum.toNat ++ de.name

end Dirent

variable (dev : DevSw)

/-- The loops over the entries of a directory: the first entry from offset `off` on that is looked
for, with its offset, or the offset at which the loop ends. -/
def dirScan (p : Ip) (msg : String) (found : Dirent → Bool) :
    (turns off : Nat) → FsM (Nat × Option Dirent)
  | 0, off => pure (off, none)
  | turns + 1, off => do
    let (r, bytes) ← readi dev p (UInt32.ofNat off) (UInt32.ofNat Dirent.size)
    if r ≠ Dirent.size then panic msg
    else if found (Dirent.load bytes) then pure (off, some (Dirent.load bytes))
    else dirScan p msg found turns (off + Dirent.size)

/-- The number of turns of a loop over the entries from offset `off` on. -/
def dirTurns (size : UInt32) (off : Nat) : Nat :=
  (size.toNat - off + (Dirent.size - 1)) / Dirent.size

def dirlookup (dp : Ip) (name : List UInt8) : FsM (Option (Ip × Nat)) := do
  let d ← Prog.gets fun s => (s.icache dp).din
  if d.type ≠ T_DIR then panic "dirlookup not DIR"
  else do
    let (off, de) ← dirScan dev dp "dirlookup read"
      (fun de => de.inum ≠ 0 ∧ namecmp name de.name = 0) (dirTurns d.size 0) 0
    match de with
    | some de => do
      let ip ← iget de.inum.toNat
      pure (some (ip, off))
    | none => pure none

/-- The entry that `dirlink` writes. -/
def dirlinkAt (dp : Ip) (name : List UInt8) (inum : Nat) : FsM Int := do
  let size ← Prog.gets fun s => (s.icache dp).din.size
  let (off, _) ← dirScan dev dp "dirlink read" (fun de => de.inum = 0) (dirTurns size 0) 0
  let de : Dirent := ⟨UInt16.ofNat inum, strncpy name DIRSIZ⟩
  let r ← writei dev dp de.store (UInt32.ofNat off)
  if r ≠ Dirent.size then panic "dirlink"
  else pure 0

def dirlink (dp : Ip) (name : List UInt8) (inum : Nat) : FsM Int := do
  match ← dirlookup dev dp name with
  | some (ip, _) => do
    iput ip
    pure (-1)
  | none => dirlinkAt dev dp name inum

/-- `isdirempty` of `sysfile.c`. -/
def isdirempty (dp : Ip) : FsM Bool := do
  let size ← Prog.gets fun s => (s.icache dp).din.size
  let (_, de) ← dirScan dev dp "isdirempty: readi" (fun de => de.inum ≠ 0)
    (dirTurns size (2 * Dirent.size)) (2 * Dirent.size)
  pure de.isNone

/-! ## Paths -/

/-- `skipelem`: the next path element, cut off after `DIRSIZ` bytes, and the path after it. -/
def skipelem (path : List UInt8) : Option (List UInt8 × List UInt8) :=
  match path.dropWhile (· = slash) with
  | [] => none
  | c :: cs =>
    some (((c :: cs).takeWhile (· ≠ slash)).take DIRSIZ,
      ((c :: cs).dropWhile (· ≠ slash)).dropWhile (· = slash))

/-- The loop of `namex`. A path element has at least one byte, so there are no more turns than bytes
in the path, and one in which there is no element left. -/
def namexLoop (nameiparent : Bool) :
    (turns : Nat) → Ip → (path name : List UInt8) → FsM (Option (Ip × List UInt8))
  | 0, _, _, _ => hang
  | turns + 1, ip, path, name =>
    match skipelem path with
    | some (elem, rest) => do
      ilock ip
      let d ← Prog.gets fun s => (s.icache ip).din
      if d.type ≠ T_DIR then do
        iunlockput ip
        pure none
      else if nameiparent ∧ rest = [] then do
        iunlock ip
        pure (some (ip, elem))
      else do
        match ← dirlookup dev ip elem with
        | none => do
          iunlockput ip
          pure none
        | some (next, _) => do
          iunlockput ip
          namexLoop nameiparent turns next rest elem
    | none =>
      if nameiparent then do
        iput ip
        pure none
      else pure (some (ip, name))

/-- `namex` for a process whose current directory is `cwd`: the inode, and the name that is left in
`name`. -/
def namex (cwd : Ip) (path : List UInt8) (nameiparent : Bool) :
    FsM (Option (Ip × List UInt8)) := do
  let ip ← if path.head? = some slash then iget ROOTINO else idup cwd
  namexLoop dev nameiparent (path.length + 1) ip path []

def namei (cwd : Ip) (path : List UInt8) : FsM (Option Ip) := do
  let r ← namex dev cwd path false
  pure (r.map Prod.fst)

def nameiparent (cwd : Ip) (path : List UInt8) : FsM (Option (Ip × List UInt8)) :=
  namex dev cwd path true

end Xv6.Fs
