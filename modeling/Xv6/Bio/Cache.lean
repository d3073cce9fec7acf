import Xv6.Ide.Memide
import Xv6.Lib.DLinks

/-!
# The buffer cache

`bio.c`: a doubly linked circular list of all buffers, the most recently released one first.
`bget` looks for a block from the front and recycles, from the back, the first buffer that nobody
refers to and that is clean. A step of this model is one stretch under `bcache.lock`, or what a
process does with a buffer while it has its sleep-lock.

The driver below the cache is `iderw` with one disk for each device number; the requests that it
refuses are a parameter (`refuse`), since `memide.c` and `ide.c` have different tests.
-/

namespace Xv6.Bio
open Ide (Buf)

/-- The nodes of the list: the buffers, and `bcache.head`. -/
abbrev Node := Option (Fin NBUF)

/-- Where a process is in the calls of `bio.c`. -/
inductive Pc
  | out
  /-- In `bread`, with a reference and before `acquiresleep`. -/
  | waits (b : Fin NBUF) (dev blockno : UInt32)
  /-- In `brelse`, after `releasesleep`. -/
  | drops (b : Fin NBUF)

/-- `bcache`, the disks and where each process is; then the history: the processes that have a
reference to a buffer, whether a buffer was ever in use, when it was last released, and what was
last written to each block. -/
structure Sys (π : Type) where
  buf : Fin NBUF → Buf
  holder : Fin NBUF → Option π
  refcnt : Fin NBUF → Nat
  links : DLinks Node
  disk : UInt32 → Disk
  pc : π → Pc
  users : Fin NBUF → List π
  touched : Fin NBUF → Bool
  released : Fin NBUF → Nat
  clock : Nat
  latest : UInt32 → Disk

inductive Step (π : Type)
  /-- `bread(dev, blockno)`, up to `acquiresleep`. -/
  | bget (me : π) (dev blockno : UInt32)
  /-- `acquiresleep` and the rest of `bread`. -/
  | acquire (me : π)
  /-- Change the contents of `b` to `x`, then `log_write(b)`. -/
  | logWrite (me : π) (b : Fin NBUF) (x : Block)
  /-- Change the contents of `b` to `x`, then `bwrite(b)`. -/
  | bwrite (me : π) (b : Fin NBUF) (x : Block)
  /-- `brelse(b)`, up to the lock of the cache. -/
  | brelse (me : π) (b : Fin NBUF)
  /-- The rest of `brelse`. -/
  | drop (me : π)

/-! ## The disks -/

def setBlock (d : UInt32 → Disk) (dev : UInt32) (n : Nat) (x : Block) : UInt32 → Disk :=
  Function.update d dev (Function.update (d dev) n x)

@[simp] theorem setBlock_self : setBlock d dev n x dev n = x := by
  simp [setBlock]

theorem setBlock_of_ne (h : ¬(dev' = dev ∧ n' = n)) : setBlock d dev n x dev' n' = d dev' n' := by
  rw [setBlock]
  by_cases hdev : dev' = dev
  · subst hdev
    rw [update_self, update_of_ne fun hn => h ⟨rfl, hn⟩]
  · rw [update_of_ne hdev]

/-- `iderw(b)`. The driver refuses some requests with a panic of its own. -/
def iderw (refuse : UInt32 → UInt32 → Option String) (d : UInt32 → Disk) (x : Buf) :
    Except Fault ((UInt32 → Disk) × Buf) :=
  if !x.locked then .error (.panic "iderw: buf not locked")
  else if x.valid && !x.dirty then .error (.panic "iderw: nothing to do")
  else match refuse x.dev x.blockno with
    | some msg => .error (.panic msg)
    | none =>
      if x.dirty then .ok (setBlock d x.dev x.blockno.toNat x.data, x.served)
      else .ok (d, { x.served with data := d x.dev x.blockno.toNat })

/-- The requests that `memide.c` refuses. -/
def memideRefuse (disksize : Nat) (dev blockno : UInt32) : Option String :=
  if dev ≠ 1 then some "iderw: request not for disk 1"
  else if blockno.toNat ≥ disksize then some "iderw: block out of range"
  else none

/-- With these this is `iderw` of `memide.c`. -/
theorem iderw_memide [DecidableEq β] (m : Ide.Memide.State β) (b : β) (d : UInt32 → Disk)
    (hd : d 1 = m.memdisk) : Ide.Memide.iderw disksize m b =
      (iderw (memideRefuse disksize) d (m.buf b)).map fun r =>
        ⟨r.1 1, update m.buf b r.2⟩ := by
  simp only [Ide.Memide.iderw, iderw, memideRefuse]
  split
  · rfl
  split
  · rfl
  split
  · rfl
  next hdev =>
  rw [not_not] at hdev
  split
  · rfl
  split
  · simp only [Except.map, setBlock, hdev, update_self, hd]
  · simp only [Except.map, hdev, hd]

/-! ## The cache -/

/-- The links after `binit()`. -/
def binit (k : DLinks Node) : DLinks Node :=
  (List.finRange NBUF).foldl (fun k b => k.push none (some b)) (k.empty none)

inductive Found
  /-- The block is in this buffer already. -/
  | cached (b : Fin NBUF)
  /-- This buffer is reused. -/
  | recycled (b : Fin NBUF)

section
variable {π : Type} [DecidableEq π]

/-- Is `b` for this block? -/
def Sys.isFor (s : Sys π) (dev blockno : UInt32) (b : Fin NBUF) : Bool :=
  (s.buf b).dev = dev && (s.buf b).blockno = blockno

/-- May `b` be recycled? -/
def Sys.unused (s : Sys π) (b : Fin NBUF) : Bool := s.refcnt b = 0 && !(s.buf b).dirty

/-- The two loops of `bget`. -/
def bget (s : Sys π) (dev blockno : UInt32) : Except Fault Found :=
  match DLinks.find s.links.next none (Option.any (s.isFor dev blockno)) (NBUF + 1)
      (s.links.next none) with
  | some (some b) => .ok (.cached b)
  | _ => match DLinks.find s.links.prev none (Option.any s.unused) (NBUF + 1)
      (s.links.prev none) with
    | some (some b) => .ok (.recycled b)
    | _ => .error (.panic "bget: no buffers")

/-- A process gets a reference to `b`. -/
def Sys.refer (s : Sys π) (me : π) (b : Fin NBUF) (dev blockno : UInt32) : Sys π := { s with
  refcnt := Function.update s.refcnt b (s.refcnt b + 1)
  pc := Function.update s.pc me (.waits b dev blockno)
  users := Function.update s.users b (me :: s.users b)
  touched := Function.update s.touched b true }

/-- The fields that `bget` sets in a buffer that it recycles. -/
def recycle (x : Buf) (dev blockno : UInt32) : Buf :=
  { x with dev, blockno, valid := false, dirty := false }

/-- `acquiresleep(&b->lock)`, then the read of `bread`. -/
def acquire (refuse : UInt32 → UInt32 → Option String) (s : Sys π) (me : π) (b : Fin NBUF) :
    Except Fault (Sys π) :=
  if (s.buf b).locked then .error .disabled
  else
    let x := { s.buf b with locked := true }
    let t := { s with
      holder := Function.update s.holder b (some me)
      pc := Function.update s.pc me .out }
    if x.valid then .ok { t with buf := Function.update s.buf b x }
    else do
      let (disk, x) ← iderw refuse s.disk x
      .ok { t with disk, buf := Function.update s.buf b x }

/-- Change the contents of `b` to `x`, then `log_write(b)`, without the changes to the log. -/
def logWrite (s : Sys π) (b : Fin NBUF) (x : Block) : Sys π := { s with
  buf := Function.update s.buf b { s.buf b with data := x, dirty := true }
  latest := setBlock s.latest (s.buf b).dev (s.buf b).blockno.toNat x }

/-- Change the contents of `b` to `x`, then `bwrite(b)`. -/
def bwrite (refuse : UInt32 → UInt32 → Option String) (s : Sys π) (b : Fin NBUF) (x : Block) :
    Except Fault (Sys π) :=
  if !(s.buf b).locked then .error (.panic "bwrite")
  else do
    let (disk, y) ← iderw refuse s.disk { s.buf b with data := x, dirty := true }
    .ok { s with
      disk
      buf := Function.update s.buf b y
      latest := setBlock s.latest (s.buf b).dev (s.buf b).blockno.toNat x }

/-- `brelse(b)`, up to the lock of the cache. -/
def brelse (s : Sys π) (me : π) (b : Fin NBUF) : Except Fault (Sys π) :=
  if !(s.buf b).locked then .error (.panic "brelse")
  else .ok { s with
    buf := Function.update s.buf b { s.buf b with locked := false }
    holder := Function.update s.holder b none
    pc := Function.update s.pc me (.drops b) }

/-- The rest of `brelse`. -/
def drop (s : Sys π) (me : π) (b : Fin NBUF) : Sys π := { s with
  refcnt := Function.update s.refcnt b (s.refcnt b - 1)
  links := if s.refcnt b - 1 = 0 then (s.links.remove (some b)).push none (some b) else s.links
  pc := Function.update s.pc me .out
  users := Function.update s.users b ((s.users b).erase me)
  released := Function.update s.released b (s.clock + 1)
  clock := s.clock + 1 }

/-- A process that is in no call makes one, or goes on with the one that it is in. -/
def step (refuse : UInt32 → UInt32 → Option String) (s : Sys π) : Step π → Except Fault (Sys π)
  | .bget me dev blockno => match s.pc me with
    | .out => match bget s dev blockno with
      | .ok (.cached b) => .ok (s.refer me b dev blockno)
      | .ok (.recycled b) => .ok (Sys.refer { s with
          buf := Function.update s.buf b (recycle (s.buf b) dev blockno) } me b dev blockno)
      | .error e => .error e
    | _ => .error .disabled
  | .acquire me => match s.pc me with
    | .waits b _ _ => acquire refuse s me b
    | _ => .error .disabled
  | .logWrite me b x => match s.pc me with
    | .out => .ok (logWrite s b x)
    | _ => .error .disabled
  | .bwrite me b x => match s.pc me with
    | .out => bwrite refuse s b x
    | _ => .error .disabled
  | .brelse me b => match s.pc me with
    | .out => brelse s me b
    | _ => .error .disabled
  | .drop me => match s.pc me with
    | .drops b => .ok (drop s me b)
    | _ => .error .disabled

/-- After `binit()`: static storage is zero. -/
def start (disk : UInt32 → Disk) (data : Fin NBUF → Block) (k : DLinks Node) : Sys π where
  buf b := ⟨false, false, false, 0, 0, data b⟩
  holder _ := none
  refcnt _ := 0
  links := binit k
  disk
  pc _ := .out
  users _ := []
  touched _ := false
  released _ := 0
  clock := 0
  latest := disk

/-- A process writes and releases only buffers that it holds. -/
def Holds (s : Sys π) : Step π → Prop
  | .logWrite me b _ | .bwrite me b _ | .brelse me b => s.holder b = some me
  | _ => True

end

end Xv6.Bio
