import Xv6.Lib.Prog
import Xv6.Lib.Run
import Xv6.Lib.Table
import Xv6.Lib.Radix
import Xv6.Param

/-!
# Physical pages and page tables

The functions of `kalloc.c` and `vm.c`. A page of physical memory is known by its number, and its
content as a page table is an array of 512 entries; what user programs keep in their pages is left
out. The free list is a list of page numbers.
-/

namespace Xv6.Vm

/-! ## Addresses -/

def PGSIZE : Nat := 4096

def NPDENTRIES : Nat := 512

/-- Start of extended memory, where the kernel is linked. -/
def EXTMEM : Nat := 0x100000

/-- Top physical memory. -/
def PHYSTOP : Nat := 0xE000000

def KERNBASE : Nat := 0xFFFF800000000000

instance : NeZero NPDENTRIES := ⟨by decide⟩

/-- An index into a page table. -/
abbrev Index := Fin NPDENTRIES

def PMX (va : Nat) : Index := Fin.ofNat _ (va / 2 ^ 39)
def PDPX (va : Nat) : Index := Fin.ofNat _ (va / 2 ^ 30)
def PDX (va : Nat) : Index := Fin.ofNat _ (va / 2 ^ 21)
def PTX (va : Nat) : Index := Fin.ofNat _ (va / 2 ^ 12)

def PGROUNDUP (sz : Nat) : Nat := (sz + (PGSIZE - 1)) % 2 ^ 64 / PGSIZE * PGSIZE

def PGROUNDDOWN (a : Nat) : Nat := a / PGSIZE * PGSIZE

/-! ## Memory -/

/-- An entry of a page table: the page number, and the flags `PTE_P`, `PTE_W` and `PTE_U`. -/
structure Pte where
  ppn : Nat
  p : Bool
  w : Bool
  u : Bool
  deriving DecidableEq

def Pte.zero : Pte := ⟨0, false, false, false⟩

/-- The entry whose bytes are all 1. -/
def Pte.junk : Pte := ⟨0x0101010101010101 / PGSIZE, true, false, false⟩

structure Mem where
  /-- The first page after the kernel. -/
  first : Nat
  freelist : List Nat
  page : Nat → Index → Pte
  kpdpt : Nat

abbrev VmM := Prog Mem Fault

def panic {α : Type} (msg : String) : VmM α := Prog.stop (.panic msg)

def fill (f : Nat) (e : Pte) : VmM Unit :=
  Prog.modify fun s => { s with page := setAt s.page f fun _ => e }

def entry (t : Nat) (i : Index) : VmM Pte := Prog.gets fun s => s.page t i

def setEntry (t : Nat) (i : Index) (e : Pte) : VmM Unit :=
  Prog.modify fun s => { s with page := setAt s.page t (setAt (s.page t) i e) }

/-! ## The allocator -/

def kfree (v : Nat) : VmM Unit := do
  let first ← Prog.gets Mem.first
  if v < first ∨ PHYSTOP / PGSIZE ≤ v then panic "kfree"
  else do
    fill v .junk
    Prog.modify fun s => { s with freelist := v :: s.freelist }

def kalloc : VmM (Option Nat) := do
  match ← Prog.gets Mem.freelist with
  | [] => panic "Out of memory!"
  | r :: rest => do
    Prog.modify fun s => { s with freelist := rest }
    pure (some r)

/-- `freerange`, for the pages from `first` to `PHYSTOP`. -/
def freerange (first : Nat) : VmM Unit :=
  Prog.times (fun i => kfree (first + i)) (PHYSTOP / PGSIZE - first)

/-! ## Page tables -/

def setupkvm : VmM (Option Nat) := do
  match ← kalloc with
  | none => panic "trap"
  | some pml4 => do
    fill pml4 .zero
    let kpdpt ← Prog.gets Mem.kpdpt
    setEntry pml4 (Fin.ofNat _ 256) ⟨kpdpt, true, true, false⟩
    pure (some pml4)

/-- One level of `walkpgdir`. -/
def walkEntry (t : Nat) (i : Index) (alloc : Bool) : VmM (Option Nat) := do
  let e ← entry t i
  if e.p then pure (some e.ppn)
  else if !alloc then pure none
  else do
    match ← kalloc with
    | none => pure none
    | some f => do
      fill f .zero
      setEntry t i ⟨f, true, true, true⟩
      pure (some f)

/-- The page table and the index in it of the entry for `va`. -/
def walkpgdir (pml4 va : Nat) (alloc : Bool) : VmM (Option (Nat × Index)) := do
  match ← walkEntry pml4 (PMX va) alloc with
  | none => pure none
  | some pdp => do
    match ← walkEntry pdp (PDPX va) alloc with
    | none => pure none
    | some pd => do
      match ← walkEntry pd (PDX va) alloc with
      | none => pure none
      | some pgtab => pure (some (pgtab, PTX va))

/-- The loop of `mappages` with `n` pages left. -/
def mapLoop (pgdir : Nat) (w u : Bool) : Nat → Nat → Nat → VmM Int
  | 0, _, _ => pure 0
  | n + 1, a, pa => do
    match ← walkpgdir pgdir a true with
    | none => pure (-1)
    | some (pt, i) => do
      let e ← entry pt i
      if e.p then panic "remap"
      else do
        setEntry pt i ⟨pa, true, w, u⟩
        mapLoop pgdir w u n (a + PGSIZE) (pa + 1)

/-- `mappages`, which maps the pages from number `pa` on. -/
def mappages (pgdir va size pa : Nat) (w u : Bool) : VmM Int :=
  mapLoop pgdir w u (((va + size - 1) / PGSIZE + 1) - va / PGSIZE) (PGROUNDDOWN va) pa

def inituvm (pgdir sz : Nat) : VmM Unit :=
  if PGSIZE ≤ sz then panic "inituvm: more than a page"
  else do
    match ← kalloc with
    | none => panic "trap"
    | some mem => do
      fill mem .zero
      let _ ← mappages pgdir PGSIZE PGSIZE mem true true
      pure ()

/-- The loop of `loaduvm` with `n` pages left. `load` says which pages `readi` gets all of. -/
def loadLoop (pgdir : Nat) (load : Nat → Bool) (addr : Nat) : Nat → Nat → VmM Int
  | 0, _ => pure 0
  | n + 1, k => do
    match ← walkpgdir pgdir (addr + k * PGSIZE) false with
    | none => panic "loaduvm: address should exist"
    | some _ => if load k then loadLoop pgdir load addr n (k + 1) else pure (-1)

/-- `loaduvm`, whose argument `sz` is a `uint`. -/
def loaduvm (pgdir addr : Nat) (load : Nat → Bool) (sz : Nat) : VmM Int :=
  if addr % PGSIZE ≠ 0 then panic "loaduvm: addr must be page aligned"
  else loadLoop pgdir load addr ((sz % 2 ^ 32 + (PGSIZE - 1)) / PGSIZE) 0

/-- One turn of the loop of `deallocuvm`. -/
def deallocPage (pgdir a : Nat) : VmM Unit := do
  match ← walkpgdir pgdir a false with
  | none => pure ()
  | some (pt, i) => do
    let e ← entry pt i
    Prog.when (e.p = true) do
      if e.ppn = 0 then panic "kfree"
      else do
        kfree e.ppn
        setEntry pt i .zero

def deallocuvm (pgdir oldsz newsz : Nat) : VmM Nat :=
  if oldsz ≤ newsz then pure oldsz
  else do
    let a := PGROUNDUP newsz
    Prog.times (fun k => deallocPage pgdir (a + k * PGSIZE))
      ((oldsz + (PGSIZE - 1)) / PGSIZE - a / PGSIZE)
    pure newsz

/-- The loop of `allocuvm` with `n` pages left. -/
def allocLoop (pgdir oldsz newsz : Nat) : Nat → Nat → VmM Nat
  | 0, _ => pure newsz
  | n + 1, a => do
    match ← kalloc with
    | none => do
      let _ ← deallocuvm pgdir newsz oldsz
      pure 0
    | some mem => do
      fill mem .zero
      let r ← mappages pgdir a PGSIZE mem true true
      if r < 0 then do
        let _ ← deallocuvm pgdir newsz oldsz
        kfree mem
        pure 0
      else allocLoop pgdir oldsz newsz n (a + PGSIZE)

def allocuvm (pgdir oldsz newsz : Nat) : VmM Nat :=
  if KERNBASE ≤ newsz then pure 0
  else if newsz < oldsz then pure oldsz
  else
    let a := PGROUNDUP oldsz
    allocLoop pgdir oldsz newsz ((newsz + (PGSIZE - 1)) / PGSIZE - a / PGSIZE) a

/-- The loops of `freevm` below the first `n` entries of the table `t`. -/
def freeEntries (free : Nat → VmM Unit) (t n : Nat) : VmM Unit :=
  Prog.times (fun i => do
    let e ← entry t (Fin.ofNat _ i)
    Prog.when (e.p = true) (free e.ppn)) n

/-- Free a page and, if it is a table of level `n`, what it links to. -/
def freeTree : Nat → Nat → VmM Unit
  | 0, v => kfree v
  | n + 1, t => do
    freeEntries (freeTree n) t NPDENTRIES
    kfree t

/-- `freevm`, which leaves the kernel's half of the table alone. -/
def freevm (pml4 : Nat) : VmM Unit := do
  freeEntries (freeTree 3) pml4 (NPDENTRIES / 2)
  kfree pml4

def clearpteu (pgdir uva : Nat) : VmM Unit := do
  match ← walkpgdir pgdir uva false with
  | none => panic "clearpteu"
  | some (pt, i) => do
    let e ← entry pt i
    setEntry pt i { e with u := false }

/-- The loop of `copyuvm` with `n` pages left. -/
def copyLoop (pgdir d : Nat) : Nat → Nat → VmM (Option Nat)
  | 0, _ => pure (some d)
  | n + 1, a => do
    match ← walkpgdir pgdir a false with
    | none => panic "copyuvm: pte should exist"
    | some (pt, i) => do
      let e ← entry pt i
      if !e.p then panic "copyuvm: page not present"
      else do
        match ← kalloc with
        | none => do
          freevm d
          pure none
        | some mem => do
          Prog.modify fun s => { s with page := setAt s.page mem (s.page e.ppn) }
          let r ← mappages d a PGSIZE mem e.w e.u
          if r < 0 then do
            freevm d
            pure none
          else copyLoop pgdir d n (a + PGSIZE)

/-- `copyuvm`, whose argument `sz` is a `uint`. -/
def copyuvm (pgdir sz : Nat) : VmM (Option Nat) := do
  match ← setupkvm with
  | none => pure none
  | some d => copyLoop pgdir d ((sz % 2 ^ 32 + (PGSIZE - 1)) / PGSIZE - 1) PGSIZE

/-- `uva2ka`, which does not expect `walkpgdir` to fail. -/
def uva2ka (pgdir uva : Nat) : VmM (Option Nat) := do
  match ← walkpgdir pgdir uva false with
  | none => panic "trap"
  | some (pt, i) => do
    let e ← entry pt i
    if e.p = true ∧ e.u = true then pure (some e.ppn) else pure none

/-- `copyout` of `len` bytes, in at most `n` turns. -/
def copyout (pgdir : Nat) : Nat → Nat → Nat → VmM Int
  | 0, _, _ => pure 0
  | n + 1, va, len =>
    if len = 0 then pure 0
    else do
      let va0 := PGROUNDDOWN va
      match ← uva2ka pgdir va0 with
      | none => pure (-1)
      | some _ => copyout pgdir n ((va0 + PGSIZE) % 2 ^ 64) (len - (PGSIZE - (va - va0)))

end Xv6.Vm
