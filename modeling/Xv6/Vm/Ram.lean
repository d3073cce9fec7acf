import Xv6.Lib.Sim
import Xv6.Vm.Memory

/-!
# Physical pages and the bytes in them

The functions of `kalloc.c` and `vm.c` with the bytes of user pages. A page is used as a page table or
for bytes, so that `Ram` has both: the page tables of `Mem`, and `data`. On the page tables, each
function does what the one of the same name does there (`sim_kalloc`, ..., `sim_copyuvm`), so that what
is known of those holds of these. Besides, `Ram` records which pages were allocated and which were
written, and a panic keeps the memory as it is then.
-/

namespace Xv6.Vm

structure Ram where
  mem : Mem
  /-- The byte at an offset of a page. -/
  data : Nat × Nat → UInt8
  /-- The pages that `kalloc` returned. -/
  taken : List Nat
  /-- The pages that were written. -/
  wrote : List Nat

abbrev RamM := Prog Ram (Fault × Ram)

namespace Ram

/-- A function that only concerns page tables. -/
def inMem {α : Type} (x : VmM α) : RamM α :=
  Prog.within Ram.mem (fun s m => { s with mem := m }) (fun s e => (e, s)) x

/-! ## Memory -/

/-- `memset` of a whole page to the byte `b`, which makes all entries `e`. -/
def fill (f : Nat) (e : Pte) (b : UInt8) : RamM Unit := do
  inMem (Vm.fill f e)
  Prog.modify fun s => { s with
    data := fun x => if x.1 = f then b else s.data x
    wrote := f :: s.wrote }

def setEntry (t : Nat) (i : Index) (e : Pte) : RamM Unit := do
  inMem (Vm.setEntry t i e)
  Prog.modify fun s => { s with wrote := t :: s.wrote }

/-- The bytes `src` at offset `o` of page `f`. -/
def put (data : Nat × Nat → UInt8) (f o : Nat) (src : List UInt8) : Nat × Nat → UInt8 := fun x =>
  if x.1 = f ∧ o ≤ x.2 then src.getD (x.2 - o) (data x) else data x

/-- `memmove` of the bytes `src` to offset `o` of page `f`. -/
def store (f o : Nat) (src : List UInt8) : RamM Unit :=
  Prog.modify fun s => { s with
    data := put s.data f o src
    wrote := if src = [] then s.wrote else f :: s.wrote }

/-! ## The allocator -/

/-- `kfree`; where the free list keeps its links is left out. -/
def kfree (v : Nat) : RamM Unit := do
  inMem (Vm.kfree v)
  Prog.modify fun s => { s with
    data := fun x => if x.1 = v then 1 else s.data x
    wrote := v :: s.wrote }

def kalloc : RamM (Option Nat) := do
  let o ← inMem Vm.kalloc
  Prog.modify fun s => { s with taken := o.toList ++ s.taken }
  pure o

/-! ## Page tables -/

def setupkvm : RamM (Option Nat) := do
  match ← kalloc with
  | none => inMem (Vm.panic "trap")
  | some pml4 => do
    fill pml4 .zero 0
    let kpdpt ← inMem (Prog.gets Mem.kpdpt)
    setEntry pml4 (Fin.ofNat _ 256) ⟨kpdpt, true, true, false⟩
    pure (some pml4)

/-- One level of a `walkpgdir` that allocates tables. -/
def walkEntry (t : Nat) (i : Index) : RamM (Option Nat) := do
  let e ← inMem (Vm.entry t i)
  if e.p then pure (some e.ppn)
  else do
    match ← kalloc with
    | none => pure none
    | some f => do
      fill f .zero 0
      setEntry t i ⟨f, true, true, true⟩
      pure (some f)

/-- `walkpgdir`; one that does not allocate only reads page tables. -/
def walkpgdir (pml4 va : Nat) (alloc : Bool) : RamM (Option (Nat × Index)) :=
  if !alloc then inMem (Vm.walkpgdir pml4 va false)
  else do
    match ← walkEntry pml4 (PMX va) with
    | none => pure none
    | some pdp => do
      match ← walkEntry pdp (PDPX va) with
      | none => pure none
      | some pd => do
        match ← walkEntry pd (PDX va) with
        | none => pure none
        | some pgtab => pure (some (pgtab, PTX va))

/-- The loop of `mappages` with `n` pages left. -/
def mapLoop (pgdir : Nat) (w u : Bool) : Nat → Nat → Nat → RamM Int
  | 0, _, _ => pure 0
  | n + 1, a, pa => do
    match ← walkpgdir pgdir a true with
    | none => pure (-1)
    | some (pt, i) => do
      let e ← inMem (Vm.entry pt i)
      if e.p then inMem (Vm.panic "remap")
      else do
        setEntry pt i ⟨pa, true, w, u⟩
        mapLoop pgdir w u n (a + PGSIZE) (pa + 1)

def mappages (pgdir va size pa : Nat) (w u : Bool) : RamM Int :=
  mapLoop pgdir w u (((va + size - 1) / PGSIZE + 1) - va / PGSIZE) (PGROUNDDOWN va) pa

/-- One turn of the loop of `deallocuvm`. -/
def deallocPage (pgdir a : Nat) : RamM Unit := do
  match ← walkpgdir pgdir a false with
  | none => pure ()
  | some (pt, i) => do
    let e ← inMem (Vm.entry pt i)
    Prog.when (e.p = true) do
      if e.ppn = 0 then inMem (Vm.panic "kfree")
      else do
        kfree e.ppn
        setEntry pt i .zero

def deallocuvm (pgdir oldsz newsz : Nat) : RamM Nat :=
  if oldsz ≤ newsz then pure oldsz
  else do
    let a := PGROUNDUP newsz
    Prog.times (fun k => deallocPage pgdir (a + k * PGSIZE))
      ((oldsz + (PGSIZE - 1)) / PGSIZE - a / PGSIZE)
    pure newsz

/-- The loop of `allocuvm` with `n` pages left. -/
def allocLoop (pgdir oldsz newsz : Nat) : Nat → Nat → RamM Nat
  | 0, _ => pure newsz
  | n + 1, a => do
    match ← kalloc with
    | none => do
      let _ ← deallocuvm pgdir newsz oldsz
      pure 0
    | some mem => do
      fill mem .zero 0
      let r ← mappages pgdir a PGSIZE mem true true
      if r < 0 then do
        let _ ← deallocuvm pgdir newsz oldsz
        kfree mem
        pure 0
      else allocLoop pgdir oldsz newsz n (a + PGSIZE)

def allocuvm (pgdir oldsz newsz : Nat) : RamM Nat :=
  if KERNBASE ≤ newsz then pure 0
  else if newsz < oldsz then pure oldsz
  else
    let a := PGROUNDUP oldsz
    allocLoop pgdir oldsz newsz ((newsz + (PGSIZE - 1)) / PGSIZE - a / PGSIZE) a

/-- The loops of `freevm` below the first `n` entries of the table `t`. -/
def freeEntries (free : Nat → RamM Unit) (t n : Nat) : RamM Unit :=
  Prog.times (fun i => do
    let e ← inMem (Vm.entry t (Fin.ofNat _ i))
    Prog.when (e.p = true) (free e.ppn)) n

def freeTree : Nat → Nat → RamM Unit
  | 0, v => kfree v
  | n + 1, t => do
    freeEntries (freeTree n) t NPDENTRIES
    kfree t

def freevm (pml4 : Nat) : RamM Unit := do
  freeEntries (freeTree 3) pml4 (NPDENTRIES / 2)
  kfree pml4

def clearpteu (pgdir uva : Nat) : RamM Unit := do
  match ← walkpgdir pgdir uva false with
  | none => inMem (Vm.panic "clearpteu")
  | some (pt, i) => do
    let e ← inMem (Vm.entry pt i)
    setEntry pt i { e with u := false }

/-- `memmove` of the page `f` to the page `mem`. -/
def copyPage (mem f : Nat) : RamM Unit := do
  inMem (Prog.modify fun s => { s with page := setAt s.page mem (s.page f) })
  Prog.modify fun s => { s with
    data := fun x => if x.1 = mem then s.data (f, x.2) else s.data x
    wrote := mem :: s.wrote }

/-- The loop of `copyuvm` with `n` pages left. -/
def copyLoop (pgdir d : Nat) : Nat → Nat → RamM (Option Nat)
  | 0, _ => pure (some d)
  | n + 1, a => do
    match ← walkpgdir pgdir a false with
    | none => inMem (Vm.panic "copyuvm: pte should exist")
    | some (pt, i) => do
      let e ← inMem (Vm.entry pt i)
      if !e.p then inMem (Vm.panic "copyuvm: page not present")
      else do
        match ← kalloc with
        | none => do
          freevm d
          pure none
        | some mem => do
          copyPage mem e.ppn
          let r ← mappages d a PGSIZE mem e.w e.u
          if r < 0 then do
            freevm d
            pure none
          else copyLoop pgdir d n (a + PGSIZE)

/-- `copyuvm`, whose argument `sz` is a `uint`. -/
def copyuvm (pgdir sz : Nat) : RamM (Option Nat) := do
  match ← setupkvm with
  | none => pure none
  | some d => copyLoop pgdir d ((sz % 2 ^ 32 + (PGSIZE - 1)) / PGSIZE - 1) PGSIZE

/-- The loop of `copyout`, in at most `turns` turns. -/
def outLoop (pgdir : Nat) : (turns va : Nat) → (src : List UInt8) → RamM Int
  | 0, _, _ => pure 0
  | turns + 1, va, src =>
    if src.length = 0 then pure 0
    else do
      let va0 := PGROUNDDOWN va
      match ← inMem (uva2ka pgdir va0) with
      | none => pure (-1)
      | some pa0 => do
        let n := min (PGSIZE - (va - va0)) src.length
        store pa0 (va - va0) (src.take n)
        outLoop pgdir turns ((va0 + PGSIZE) % 2 ^ 64) (src.drop n)

/-- `copyout` of the bytes `src`. -/
def copyout (pgdir va : Nat) (src : List UInt8) : RamM Int := outLoop pgdir src.length va src

/-! ## What happens to page tables -/

/-- On page tables, the function does what `y` does. -/
abbrev Sims {α : Type} (x : RamM α) (y : VmM α) : Prop :=
  Prog.Sim (fun _ => True) Ram.mem Prod.fst x y

theorem sim_inMem {α : Type} (x : VmM α) : Sims (inMem x) x := by
  intro s _
  rw [inMem, Prog.wp_within, Prog.wp]
  cases x s.mem <;> simp

section
variable {t f v va a pa n d pgdir oldsz newsz size sz : Nat} {i : Index} {e : Pte} {b : UInt8}
variable {w u : Bool} {src : List UInt8}

theorem sim_fill : Sims (fill f e b) (Vm.fill f e) :=
  (sim_inMem _).then_modify (fun _ => rfl) fun _ => id

theorem sim_setEntry : Sims (setEntry t i e) (Vm.setEntry t i e) :=
  (sim_inMem _).then_modify (fun _ => rfl) fun _ => id

theorem sim_kfree : Sims (kfree v) (Vm.kfree v) :=
  (sim_inMem _).then_modify (fun _ => rfl) fun _ => id

theorem sim_copyPage : Sims (copyPage v f)
    (Prog.modify fun s => { s with page := setAt s.page v (s.page f) }) :=
  (sim_inMem _).then_modify (fun _ => rfl) fun _ => id

theorem sim_kalloc : Sims kalloc Vm.kalloc := by
  have hlog (o : Option Nat) : Sims (do
      Prog.modify fun s => { s with taken := o.toList ++ s.taken }
      pure o) (pure o) := fun _ _ => ⟨rfl, trivial⟩
  have hbind := (sim_inMem Vm.kalloc).bind hlog
  rwa [bind_pure] at hbind

theorem sim_setupkvm : Sims setupkvm Vm.setupkvm := by
  refine sim_kalloc.bind fun o => ?_
  cases o with
  | none => exact sim_inMem _
  | some pml4 =>
    exact sim_fill.bind fun _ => (sim_inMem _).bind fun _ => sim_setEntry.bind fun _ => .pure _

theorem sim_walkEntry : Sims (walkEntry t i) (Vm.walkEntry t i true) := by
  refine (sim_inMem _).bind fun e => .ite (.pure _) (sim_kalloc.bind fun o => ?_)
  cases o with
  | none => exact .pure _
  | some f => exact sim_fill.bind fun _ => sim_setEntry.bind fun _ => .pure _

theorem sim_walkpgdir {alloc : Bool} : Sims (walkpgdir d va alloc) (Vm.walkpgdir d va alloc) := by
  cases alloc with
  | false => exact sim_inMem _
  | true =>
    refine sim_walkEntry.bind fun o => ?_
    cases o with
    | none => exact .pure _
    | some pdp =>
      refine sim_walkEntry.bind fun o => ?_
      cases o with
      | none => exact .pure _
      | some pd =>
        refine sim_walkEntry.bind fun o => ?_
        cases o with
        | none => exact .pure _
        | some pgtab => exact .pure _

theorem sim_mapLoop : Sims (mapLoop d w u n a pa) (Vm.mapLoop d w u n a pa) := by
  induction n generalizing a pa with
  | zero => exact .pure _
  | succ n ih =>
    refine sim_walkpgdir.bind fun o => ?_
    cases o with
    | none => exact .pure _
    | some x =>
      exact (sim_inMem _).bind fun e => .ite (sim_inMem _) (sim_setEntry.bind fun _ => ih)

theorem sim_mappages : Sims (mappages d va size pa w u) (Vm.mappages d va size pa w u) := sim_mapLoop

theorem sim_deallocPage : Sims (deallocPage d a) (Vm.deallocPage d a) := by
  refine sim_walkpgdir.bind fun o => ?_
  cases o with
  | none => exact .pure _
  | some x =>
    refine (sim_inMem _).bind fun e => .when (.ite (sim_inMem _) ?_)
    exact sim_kfree.bind fun _ => sim_setEntry

theorem sim_deallocuvm : Sims (deallocuvm d oldsz newsz) (Vm.deallocuvm d oldsz newsz) :=
  .ite (.pure _) ((Prog.Sim.times fun _ => sim_deallocPage).bind fun _ => .pure _)

theorem sim_allocLoop :
    Sims (allocLoop d oldsz newsz n a) (Vm.allocLoop d oldsz newsz n a) := by
  induction n generalizing a with
  | zero => exact .pure _
  | succ n ih =>
    refine sim_kalloc.bind fun o => ?_
    cases o with
    | none => exact sim_deallocuvm.bind fun _ => .pure _
    | some mem =>
      refine sim_fill.bind fun _ => sim_mappages.bind fun r => .ite ?_ ih
      exact sim_deallocuvm.bind fun _ => sim_kfree.bind fun _ => .pure _

theorem sim_allocuvm : Sims (allocuvm d oldsz newsz) (Vm.allocuvm d oldsz newsz) :=
  .ite (.pure _) (.ite (.pure _) sim_allocLoop)

theorem sim_freeEntries {free : Nat → RamM Unit} {free' : Nat → VmM Unit}
    (h : ∀ v, Sims (free v) (free' v)) : Sims (freeEntries free t n) (Vm.freeEntries free' t n) :=
  .times fun _ => (sim_inMem _).bind fun _ => .when (h _)

-- the loop over a whole table is not to be unrolled
attribute [local irreducible] Prog.times

theorem sim_freeTree : Sims (freeTree n v) (Vm.freeTree n v) := by
  induction n generalizing v with
  | zero => exact sim_kfree
  | succ n ih =>
    exact (sim_freeEntries fun _ => ih).bind fun _ => sim_kfree

theorem sim_freevm : Sims (freevm d) (Vm.freevm d) := by
  exact (sim_freeEntries fun _ => sim_freeTree).bind fun _ => sim_kfree

theorem sim_clearpteu : Sims (clearpteu d va) (Vm.clearpteu d va) := by
  refine sim_walkpgdir.bind fun o => ?_
  cases o with
  | none => exact sim_inMem _
  | some x => exact (sim_inMem _).bind fun e => sim_setEntry

theorem sim_copyLoop : Sims (copyLoop pgdir d n a) (Vm.copyLoop pgdir d n a) := by
  induction n generalizing a with
  | zero => exact .pure _
  | succ n ih =>
    refine sim_walkpgdir.bind fun o => ?_
    cases o with
    | none => exact sim_inMem _
    | some x =>
      refine (sim_inMem _).bind fun e => .ite (sim_inMem _) (sim_kalloc.bind fun o => ?_)
      cases o with
      | none => exact sim_freevm.bind fun _ => .pure _
      | some mem =>
        refine sim_copyPage.bind fun _ => sim_mappages.bind fun r => .ite ?_ ih
        exact sim_freevm.bind fun _ => .pure _

theorem sim_copyuvm : Sims (copyuvm pgdir sz) (Vm.copyuvm pgdir sz) := by
  refine sim_setupkvm.bind fun o => ?_
  cases o with
  | none => exact .pure _
  | some d => exact sim_copyLoop

end

end Ram

end Xv6.Vm
