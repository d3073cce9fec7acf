import Xv6.Lib.Run
import Xv6.Param

/-!
# The process table

`proc.c` as a system of steps. A step is one stretch under `ptable.lock`, or one of the writes that
`allocproc` and `fork` make to a new slot without the lock; a process may be preempted between any
two of its steps, and any number of CPUs take steps in any order.

A CPU whose process gives up the processor goes back into the loop of `scheduler` with the lock
held, and may pick another process before it releases the lock. Here it picks the next process in a
step of its own, which allows every order of steps that the kernel has, and more.

A kernel stack or page table is known by the pid of the process it was allocated for; `allocproc`
gives each new process a pid before it allocates anything. The list `log` records, newest first,
the forks, exits, frees and returns of `wait`, and `forks` counts the forks that took a pid; no step
depends on either.
-/

namespace Xv6.Process

inductive ProcState
  | unused
  | embryo
  | sleeping
  | runnable
  | running
  | zombie
  deriving DecidableEq

/-- An index into `ptable.proc`, for a `struct proc *`. -/
abbrev Slot := Fin NPROC

/-- A channel to sleep on: the address of a `struct proc`, or of something else. -/
inductive Chan
  | proc (p : Slot)
  | other (addr : Nat)
  deriving DecidableEq

/-- Where a process is in the functions of `proc.c`. -/
inductive Pc
  /-- In none of `fork`, `exit` and `wait`. -/
  | user
  /-- In `allocproc`, before `kalloc`. -/
  | allocated (np : Slot)
  /-- In `fork`, before `copyuvm`. -/
  | stacked (np : Slot)
  /-- In `fork`, before `np->parent = proc`. -/
  | copied (np : Slot)
  /-- In `fork`, before `np->state = RUNNABLE`. -/
  | adopted (np : Slot)
  /-- In `exit`, before `acquire(&ptable.lock)`. -/
  | exiting
  /-- In the `sleep` of `wait`. -/
  | waiting
  deriving DecidableEq

/-- The fields of `struct proc` that `proc.c` works with, and where the process is. -/
structure Proc where
  state : ProcState
  pid : UInt32
  parent : Option Slot
  chan : Option Chan
  killed : Bool
  kstack : Option UInt32
  pgdir : Option UInt32
  pc : Pc
  deriving DecidableEq

def Proc.zero : Proc := ⟨.unused, 0, none, none, false, none, none, .user⟩

inductive Event
  | fork (forker child : UInt32)
  | exit (pid : UInt32)
  | kfree (kstack : UInt32)
  | freevm (pgdir : UInt32)
  | wait (caller pid : UInt32)
  deriving DecidableEq

/-- The table, with the current process of each CPU. -/
structure PTable (κ : Type) where
  proc : Slot → Proc
  nextpid : UInt32
  initproc : Slot
  cpu : κ → Option Slot
  forks : Nat
  log : List Event

variable {κ : Type} [DecidableEq κ]

def PTable.set (s : PTable κ) (i : Slot) (p : Proc) : PTable κ :=
  { s with proc := Function.update s.proc i p }

/-! ## Finding a slot -/

def findSlot (t : Slot → Proc) (f : Proc → Bool) : Option Slot :=
  (List.finRange NPROC).find? fun i => f (t i)

/-- The part of `allocproc` under the lock. -/
def allocproc (s : PTable κ) : Option (Slot × PTable κ) :=
  match findSlot s.proc fun p => p.state = .unused with
  | none => none
  | some p =>
    let s' := s.set p { s.proc p with state := .embryo, pid := s.nextpid }
    some (p, { s' with nextpid := s.nextpid + 1 })

/-- `kill`: the value returned and the table left. -/
def kill (s : PTable κ) (pid : UInt32) : Int × PTable κ :=
  match findSlot s.proc fun p => p.pid = pid with
  | none => (-1, s)
  | some p =>
    let q := s.proc p
    (0, s.set p { q with
      killed := true
      state := if q.state = .sleeping then .runnable else q.state })

/-! ## Boot -/

/-- The table before `userinit`. -/
def bss : PTable κ where
  proc := fun _ => .zero
  nextpid := 1
  initproc := ⟨0, NPROC_pos⟩
  cpu := fun _ => none
  forks := 0
  log := []

def userinit : PTable κ :=
  match allocproc bss with
  | none => bss
  | some (p, s) =>
    let q := s.proc p
    { s.set p { q with kstack := some q.pid, pgdir := some q.pid, state := .runnable } with
      initproc := p }

/-! ## Sleep and wakeup -/

def wakeup1 (t : Slot → Proc) (chan : Option Chan) : Slot → Proc := fun p =>
  if (t p).state = .sleeping ∧ (t p).chan = chan then { t p with state := .runnable } else t p

/-- The current process of CPU `c` changes to `p`, and the CPU leaves it for the scheduler. -/
def leave (s : PTable κ) (c : κ) (me : Slot) (p : Proc) : PTable κ :=
  { s.set me p with cpu := Function.update s.cpu c none }

/-! ## `fork` -/

/-- The first lock section of `fork`, in `allocproc`. -/
def forkAlloc (s : PTable κ) (me : Slot) : Except Fault (PTable κ) :=
  if (s.proc me).pc ≠ .user then .error .disabled
  else match allocproc s with
    | none => .ok s
    | some (np, s') =>
      .ok { s'.set me { s'.proc me with pc := .allocated np } with forks := s.forks + 1 }

/-- `p->kstack = kalloc()` in `allocproc`. -/
def forkKalloc (s : PTable κ) (me : Slot) (ok : Bool) : Except Fault (PTable κ) :=
  match (s.proc me).pc with
  | .allocated np =>
    let q := s.proc np
    if ok then
      -- the new context starts in `forkret`
      let s' := s.set np { q with kstack := some q.pid, pc := .user }
      .ok (s'.set me { s'.proc me with pc := .stacked np })
    else
      let s' := s.set np { q with kstack := none, state := .unused }
      .ok (s'.set me { s'.proc me with pc := .user })
  | _ => .error .disabled

/-- `np->pgdir = copyuvm(...)` in `fork`. -/
def forkCopy (s : PTable κ) (me : Slot) (ok : Bool) : Except Fault (PTable κ) :=
  match (s.proc me).pc with
  | .stacked np =>
    let q := s.proc np
    if ok then
      let s' := s.set np { q with pgdir := some q.pid }
      .ok (s'.set me { s'.proc me with pc := .copied np })
    else
      match q.kstack with
      | none => .error (.panic "kfree")
      | some k =>
        let s' := s.set np { q with pgdir := none, kstack := none, state := .unused }
        .ok { s'.set me { s'.proc me with pc := .user } with log := .kfree k :: s.log }
  | _ => .error .disabled

/-- `np->parent = proc` in `fork`. -/
def forkParent (s : PTable κ) (me : Slot) : Except Fault (PTable κ) :=
  match (s.proc me).pc with
  | .copied np =>
    let s' := s.set np { s.proc np with parent := some me }
    .ok (s'.set me { s'.proc me with pc := .adopted np })
  | _ => .error .disabled

/-- `np->state = RUNNABLE` in `fork`. -/
def forkRun (s : PTable κ) (me : Slot) : Except Fault (PTable κ) :=
  match (s.proc me).pc with
  | .adopted np =>
    let q := s.proc np
    let s' := s.set np { q with state := .runnable }
    .ok { s'.set me { s'.proc me with pc := .user } with
      log := .fork (s.proc me).pid q.pid :: s.log }
  | _ => .error .disabled

/-! ## `exit` -/

/-- The start of `exit`, up to the lock. -/
def exitStart (s : PTable κ) (me : Slot) : Except Fault (PTable κ) :=
  if (s.proc me).pc ≠ .user then .error .disabled
  else if me = s.initproc then .error (.panic "init exiting")
  else .ok (s.set me { s.proc me with pc := .exiting })

/-- One turn of the loop in `exit` that passes abandoned children to init. -/
def reparent (me init : Slot) (t : Slot → Proc) (p : Slot) : Slot → Proc :=
  if (t p).parent = some me then
    let t' := Function.update t p { t p with parent := some init }
    if (t' p).state = .zombie then wakeup1 t' (some (.proc init)) else t'
  else t

/-- The table after `exit` has woken the parent and passed the children to init. -/
def abandon (s : PTable κ) (me : Slot) : Slot → Proc :=
  (List.finRange NPROC).foldl (reparent me s.initproc)
    (wakeup1 s.proc ((s.proc me).parent.map .proc))

/-- The lock section of `exit`, up to the switch to the scheduler. -/
def exitSection (s : PTable κ) (c : κ) (me : Slot) : Except Fault (PTable κ) :=
  if (s.proc me).pc ≠ .exiting then .error .disabled
  else
    let t := abandon s me
    let s' := leave { s with proc := t } c me { t me with state := .zombie }
    .ok { s' with log := .exit (s.proc me).pid :: s.log }

/-! ## `wait` -/

/-- The scan of `wait`: the first exited child, and whether there are children. -/
def waitScan (t : Slot → Proc) (me : Slot) : List Slot → Bool → Option Slot × Bool
  | [], havekids => (none, havekids)
  | p :: ps, havekids =>
    if (t p).parent ≠ some me then waitScan t me ps havekids
    else if (t p).state = .zombie then (some p, true)
    else waitScan t me ps true

/-- What `wait` does with an exited child. -/
def reap (s : PTable κ) (me p : Slot) : Except Fault (PTable κ) :=
  let q := s.proc p
  match q.kstack with
  | none => .error (.panic "kfree")
  | some k =>
    match q.pgdir with
    | none => .error (.panic "freevm: no pgdir")
    | some g =>
      let s' := s.set p { q with
        kstack := none, pid := 0, parent := none, killed := false, state := .unused }
      .ok { s'.set me { s'.proc me with pc := .user } with
        log := .wait (s.proc me).pid q.pid :: .freevm g :: .kfree k :: s.log }

/-- One turn of the loop of `wait`, up to the return or the switch to the scheduler. -/
def waitLoop (s : PTable κ) (c : κ) (me : Slot) : Except Fault (PTable κ) :=
  let q := s.proc me
  match waitScan s.proc me (List.finRange NPROC) false with
  | (some p, _) => reap s me p
  | (none, havekids) =>
    if !havekids || q.killed then
      .ok (s.set me { q with pc := .user })
    else
      .ok (leave s c me { q with chan := some (.proc me), state := .sleeping, pc := .waiting })

def wait (s : PTable κ) (c : κ) (me : Slot) : Except Fault (PTable κ) :=
  if (s.proc me).pc ≠ .user then .error .disabled else waitLoop s c me

/-! ## Scheduling -/

/-- CPU `c` switches to `p`. A process that comes out of `sleep` clears its channel (for another it
is zero already); one that slept in `wait` still holds the lock and goes on with the loop. -/
def schedule (s : PTable κ) (c : κ) (p : Slot) : Except Fault (PTable κ) :=
  if s.cpu c ≠ none ∨ (s.proc p).state ≠ .runnable then .error .disabled
  else
    let s' := { s.set p { s.proc p with state := .running, chan := none } with
      cpu := Function.update s.cpu c (some p) }
    if (s.proc p).pc = .waiting then waitLoop s' c p else .ok s'

def yield (s : PTable κ) (c : κ) (me : Slot) : PTable κ :=
  leave s c me { s.proc me with state := .runnable }

/-- `sleep` outside of `wait`. No process sleeps in the middle of `fork`. -/
def sleepOn (s : PTable κ) (c : κ) (me : Slot) (addr : Nat) : Except Fault (PTable κ) :=
  if (s.proc me).pc = .user ∨ (s.proc me).pc = .exiting then
    .ok (leave s c me { s.proc me with chan := some (.other addr), state := .sleeping })
  else .error .disabled

/-! ## Steps -/

/-- What the process of a CPU may do next. -/
inductive Act
  | forkAlloc
  | forkKalloc (ok : Bool)
  | forkCopy (ok : Bool)
  | forkParent
  | forkRun
  | exitStart
  | exitSection
  | wait
  | kill (pid : UInt32)
  /-- `proc->killed = 1` in `trap`, after a fault in user space. -/
  | fault
  | yield
  | sleep (addr : Nat)

def run (s : PTable κ) (c : κ) (me : Slot) : Act → Except Fault (PTable κ)
  | .forkAlloc => forkAlloc s me
  | .forkKalloc ok => forkKalloc s me ok
  | .forkCopy ok => forkCopy s me ok
  | .forkParent => forkParent s me
  | .forkRun => forkRun s me
  | .exitStart => exitStart s me
  | .exitSection => exitSection s c me
  | .wait => wait s c me
  | .kill pid => if (s.proc me).pc ≠ .user then .error .disabled else .ok (kill s pid).2
  | .fault =>
    if (s.proc me).pc ≠ .user then .error .disabled
    else .ok (s.set me { s.proc me with killed := true })
  | .yield => .ok (yield s c me)
  | .sleep addr => sleepOn s c me addr

inductive Step (κ : Type)
  /-- The process of CPU `c` takes a step. -/
  | act (c : κ) (a : Act)
  | schedule (c : κ) (p : Slot)
  /-- `wakeup`, by a process or an interrupt. -/
  | wakeup (addr : Nat)

def step (s : PTable κ) : Step κ → Except Fault (PTable κ)
  | .act c a =>
    match s.cpu c with
    | none => .error .disabled
    | some me => run s c me a
  | .schedule c p => schedule s c p
  | .wakeup addr => .ok { s with proc := wakeup1 s.proc (some (.other addr)) }

end Xv6.Process
