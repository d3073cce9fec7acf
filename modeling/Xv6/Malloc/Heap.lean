import Xv6.Lib.Extents
import Xv6.Lib.Looped
import Xv6.Lib.Run
import Xv6.Lib.Table

/-!
# The memory allocator of user programs

`umalloc.c`. Addresses are numbers, and the memory is given by the header at each address. What
`sbrk` returns is left open: it fails, or the new memory begins some way above all memory there is.
The loops take a bound on their turns.
-/

namespace Xv6.Malloc

/-- `union header` -/
structure Header where
  ptr : Nat
  size : UInt32

/-- Units of memory in a row; a unit has the size of a header. -/
structure Block where
  start : Nat
  units : Nat
  deriving DecidableEq

namespace Block

/-- The address behind the block. -/
def stop (b : Block) : Nat := b.start + 16 * b.units

def extent (b : Block) : Extent := ⟨b.start, b.stop⟩

end Block

/-- `p + n` for a `Header *p` -/
def offset (p : Nat) (n : UInt32) : Nat := p + 16 * n.toNat

/-- The memory of a program with `freep`, the end of all memory, and what `sbrk` returned. -/
structure Heap where
  mem : Nat → Header
  freep : Nat
  brk : Nat
  got : List Block

/-- `p->s.ptr` -/
def Heap.next (s : Heap) (p : Nat) : Nat := (s.mem p).ptr

/-- `p->s.size` -/
def Heap.size (s : Heap) (p : Nat) : UInt32 := (s.mem p).size

def Heap.set (s : Heap) (p : Nat) (h : Header) : Heap := { s with mem := setAt s.mem p h }

/-! ## `free` -/

/-- Where the loop of `free` ends: `bp` belongs between `p` and the block after it, or `p` is the last
block and `bp` belongs behind it or before all others. -/
def between (s : Heap) (bp p : Nat) : Bool :=
  (p < bp ∧ bp < s.next p) ∨ (s.next p ≤ p ∧ (p < bp ∨ bp < s.next p))

/-- `p` gets `q` as its next block, or takes it in if it begins where `p` ends. -/
def join (s : Heap) (p q : Nat) : Heap :=
  if offset p (s.size p) = q then s.set p ⟨s.next q, s.size p + s.size q⟩
  else s.set p ⟨q, s.size p⟩

def free (turns : Nat) (ap : Nat) (s : Heap) : Option Heap :=
  let bp := ap - 16
  match seek s.next (between s bp) turns s.freep with
  | none => none
  -- first `bp` with the block after `p`, then `p` with `bp`
  | some p => some { join (join s bp (s.next p)) p bp with freep := p }

/-! ## `malloc` -/

/-- `sbrk(n)`: it fails, or returns the start of memory `gap` bytes above all there is. -/
def sbrk (n : Nat) (answer : Option Nat) (s : Heap) : Option (Nat × Heap) :=
  match answer with
  | none => none
  | some gap => some (s.brk + gap, { s with brk := s.brk + gap + n })

/-- The units that `morecore` asks for. -/
def coreUnits (nu : UInt32) : UInt32 := if nu < 4096 then 4096 else nu

/-- `morecore`: nothing if `sbrk` fails, else the heap with the new block. -/
def morecore (turns : Nat) (nu : UInt32) (answer : Option Nat) (s : Heap) : Option (Option Heap) :=
  let nu := coreUnits nu
  match sbrk (nu.toNat * 16) answer s with
  | none => some none
  | some (hp, s) =>
    let s := { s with got := ⟨hp, nu.toNat⟩ :: s.got }
    (free turns (hp + 16) (s.set hp ⟨s.next hp, nu⟩)).map some

/-- `p`, the block after `prevp`, has room for the units; the last ones of it are returned. -/
def allocate (nunits : UInt32) (prevp p : Nat) (s : Heap) : Nat × Heap :=
  if s.size p = nunits then
    (p + 16, { s.set prevp ⟨s.next p, s.size prevp⟩ with freep := prevp })
  else
    let rest := s.size p - nunits
    let s := s.set p ⟨s.next p, rest⟩
    let q := offset p rest
    (q + 16, { s.set q ⟨s.next q, nunits⟩ with freep := prevp })

/-- The search of `malloc` from `freep` on: the block before one with room for the units, or before
`freep` itself. -/
def search (turns : Nat) (nunits : UInt32) (s : Heap) : Option Nat :=
  seek s.next (fun prevp => nunits ≤ s.size (s.next prevp) ∨ s.next prevp = s.freep) turns s.freep

/-- The loop of `malloc`. When the search is back at `freep`, `morecore` is called, and it begins
again. -/
def mallocLoop (turns : Nat) (nunits : UInt32) (answers : List (Option Nat)) (s : Heap) :
    Option (Nat × Heap) :=
  match search turns nunits s with
  | none => none
  | some prevp =>
    if nunits ≤ s.size (s.next prevp) then some (allocate nunits prevp (s.next prevp) s)
    else
      match answers with
      -- `sbrk` fails when no answers are left
      | [] => some (0, s)
      | answer :: answers =>
        match morecore turns nunits answer s with
        | none => none
        | some none => some (0, s)
        | some (some s) => mallocLoop turns nunits answers s

def units (nbytes : UInt32) : UInt32 := .ofNat ((nbytes.toNat + 16 - 1) / 16 + 1)

/-- `malloc`, where `base` is the address of the variable of that name. -/
def malloc (base turns : Nat) (nbytes : UInt32) (answers : List (Option Nat)) (s : Heap) :
    Option (Nat × Heap) :=
  let s := if s.freep = 0 then { s.set base ⟨base, 0⟩ with freep := base } else s
  mallocLoop turns (units nbytes) answers s

/-! ## Calls of a program -/

/-- A heap with the blocks that `malloc` returned and that are not freed yet. -/
structure State where
  heap : Heap
  live : List Block

inductive Call
  /-- `malloc`, with what `sbrk` answers. -/
  | malloc (nbytes : UInt32) (answers : List (Option Nat))
  | free (ap : Nat)

/-- Why a step is not taken: the argument of `free` is not a live block, or a loop has not ended
after the turns that it was given. -/
inductive Stop
  | disabled
  | turns
  deriving DecidableEq, Inhabited

/-- The live block at an address. -/
def State.block (s : State) (ap : Nat) : Option Block := s.live.find? fun b => b.start + 16 = ap

def step (base : Nat) (s : State) (a : Nat × Call) : Except Stop State :=
  match a.2 with
  | .malloc nbytes answers =>
    match malloc base a.1 nbytes answers s.heap with
    | none => .error .turns
    | some (ap, heap) =>
      .ok { heap
            live := if ap = 0 then s.live
              else ⟨ap - 16, (heap.size (ap - 16)).toNat⟩ :: s.live }
  | .free ap =>
    match s.block ap with
    | none => .error .disabled
    | some b =>
      match free a.1 ap s.heap with
      | none => .error .turns
      | some heap => .ok { heap, live := s.live.erase b }

/-- No memory is allocated yet; all memory there is ends some way behind `base`. -/
def start (base gap : Nat) (mem : Nat → Header) : State where
  heap := ⟨mem, 0, base + 16 + gap, []⟩
  live := []

end Xv6.Malloc
