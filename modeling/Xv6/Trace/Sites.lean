import Xv6.Process.Sched
import Xv6.Trace.Ring

/-!
# Who records events

The calls of `traceevent` in `syscall`, `fork`, `exit`, `kalloc`, `kfree` and `trap`, and the kernel
around them. `Site.call` gives the arguments that each passes; a `Kernel` is the process table with
the names of the processes and the event ring, and records for each event who recorded it.

`fork` makes the child runnable before it records its event. In between, `announcing` holds the pid
that it will record.
-/

namespace Xv6.Trace

open Process (PTable Slot Pc)

def TRACE_TYPE_SYSCALL : UInt32 := 1
def TRACE_TYPE_PROC : UInt32 := 2
def TRACE_TYPE_TRAP : UInt32 := 3
def TRACE_TYPE_MEM : UInt32 := 4

def T_ILLOP : UInt64 := 6
def T_PGFLT : UInt64 := 14

/-- The bytes of a string literal. -/
def cstring (s : String) : List UInt8 := s.toList.map Char.toUInt8

/-! ## Processes as `traceevent` sees them -/

/-- `p->name`: an array of 16 bytes that holds a string. -/
structure Name where
  str : List UInt8
  length_le : str.length ≤ TRACE_NAME_LEN - 1
  ne_zero : 0 ∉ str

/-- `safestrcpy(p->name, t, sizeof(p->name))`. -/
def Name.copy (t : List UInt8) : Name where
  str := (t.takeWhile (· ≠ 0)).take (TRACE_NAME_LEN - 1)
  length_le := List.length_take_le ..
  ne_zero := fun h => by simpa using List.mem_takeWhile_imp (List.mem_of_mem_take h)

/-- The current process of a CPU. -/
structure Who where
  pid : UInt32
  name : Name

def Who.current (w : Who) : Current := ⟨w.pid.toInt32.toInt, w.name.str⟩

/-- `proc ? proc->pid : 0`. -/
def pidOf : Option Who → UInt32
  | some p => p.pid
  | none => 0

/-! ## Call sites -/

inductive Site
  | syscall (num rax : UInt64) (latency : UInt32)
  | fork (pid : UInt32)
  | exit
  | kalloc (page : UInt64)
  | kfree (page : UInt64)
  | trap (trapno err : UInt64)

def syscallnames : List String :=
  ["", "fork", "exit", "wait", "pipe", "read", "kill", "exec", "fstat", "chdir", "dup", "getpid",
    "sbrk", "sleep", "uptime", "open", "write", "mknod", "unlink", "link", "mkdir", "close",
    "traceread", "vidclear", "vidputc", "vidputs"]

/-- The system calls that `syscall` does not record: `SYS_getpid`, `SYS_sleep`, `SYS_uptime`,
`SYS_traceread`, `SYS_vidclear`, `SYS_vidputc` and `SYS_vidputs`. -/
def quiet : List UInt64 := [11, 13, 14, 22, 23, 24, 25]

/-- The call of `traceevent` at a site; only the allocator may run without a process. -/
def Site.call (ticks : UInt32) (proc : Option Who) (site : Site) : Option Call :=
  let call (type pid arg0 arg1 arg2 : UInt32) (name : String) : Call :=
    ⟨type, pid, arg0, arg1, arg2, some (cstring name), ticks, proc.map Who.current⟩
  match site, proc with
  | .syscall num rax latency, some p =>
    if 0 < num ∧ num < 26 ∧ num ∉ quiet then
      some (call TRACE_TYPE_SYSCALL p.pid num.toUInt32 rax.toUInt32 latency
        (syscallnames.getD num.toNat ""))
    else none
  | .fork pid, some p => some (call TRACE_TYPE_PROC pid p.pid 0 0 "fork")
  | .exit, some p => some (call TRACE_TYPE_PROC p.pid 0 0 0 "exit")
  | .kalloc page, _ => some (call TRACE_TYPE_MEM (pidOf proc) page.toUInt32 0 0 "kalloc")
  | .kfree page, _ => some (call TRACE_TYPE_MEM (pidOf proc) page.toUInt32 0 0 "kfree")
  | .trap trapno err, some p =>
    some (call TRACE_TYPE_TRAP p.pid trapno.toUInt32 err.toUInt32 0
      (if trapno = T_PGFLT then "pagefault"
        else if trapno = T_ILLOP then "illegalop" else "usertrap"))
  | _, none => none

/-! ## The kernel -/

/-- A recorded event, where it was recorded and by whom. -/
structure Entry where
  site : Site
  who : Option Who
  event : TraceEvent

structure Kernel (κ : Type) where
  table : PTable κ
  name : Slot → Name
  announcing : Slot → Option UInt32
  ticks : UInt32
  buf : TraceBuffer
  /-- All events so far, oldest first. -/
  trace : List Entry

variable {κ : Type} [DecidableEq κ]

/-- After `traceinit` and `userinit`. -/
def boot (events : Fin TRACE_BUF_SIZE → TraceEvent) : Kernel κ where
  table := Process.userinit
  name := fun _ => .copy (cstring "initcode")
  announcing := fun _ => none
  ticks := 0
  buf := traceinit events
  trace := []

def Kernel.who (k : Kernel κ) (c : κ) : Option Who :=
  (k.table.cpu c).map fun p => ⟨(k.table.proc p).pid, k.name p⟩

/-- `traceevent`, called at `site` on CPU `c`. -/
def Kernel.record (k : Kernel κ) (c : κ) (site : Site) : Except Fault (Kernel κ) :=
  match site.call k.ticks (k.who c) with
  | none => .error .disabled
  | some call =>
    let event := call.record k.buf.seq k.buf.overwritten
    .ok { k with
      buf := traceevent call k.buf
      trace := if k.buf.enabled then k.trace ++ [⟨site, k.who c, event⟩] else k.trace }

/-- Whether the process on CPU `c` is at a point where `site` may record an event. The events of
`fork` and `exit` come with steps of their own. -/
def Kernel.at (k : Kernel κ) (c : κ) : Site → Prop
  | .syscall .. | .trap .. => ∀ p, k.table.cpu c = some p → (k.table.proc p).pc = .user
  | .kalloc _ | .kfree _ => True
  | .fork _ | .exit => False

/-- The process on CPU `c` is about to record its `fork` event. -/
def Kernel.Announcing (k : Kernel κ) (c : κ) : Prop :=
  ∃ p, k.table.cpu c = some p ∧ k.announcing p ≠ none

instance (k : Kernel κ) (c : κ) : Decidable (k.Announcing c) := by
  unfold Kernel.Announcing
  infer_instance

instance (k : Kernel κ) (c : κ) (site : Site) : Decidable (k.at c site) := by
  unfold Kernel.at
  split <;> infer_instance

inductive Step (κ : Type)
  /-- A step of the process table, with what else `fork` and `exit` do there. -/
  | table (a : Process.Step κ)
  /-- `fork` records its event. -/
  | announce (c : κ)
  | event (c : κ) (site : Site)
  /-- `exec` sets the name of the process. -/
  | exec (c : κ) (last : List UInt8)
  | tick

/-- What else a process does in a step of the table from `k.table` to `t`. -/
def Kernel.act (k : Kernel κ) (t : PTable κ) (c : κ) (me : Slot) (a : Process.Act) :
    Except Fault (Kernel κ) :=
  match a with
  | .forkRun =>
    match (k.table.proc me).pc with
    | .adopted np => .ok { k with
        table := t
        name := Function.update k.name np (.copy (k.name me).str)
        announcing := Function.update k.announcing me (some (k.table.proc np).pid) }
    | _ => .error .disabled
  | .exitStart => Kernel.record { k with table := t } c .exit
  | _ => .ok { k with table := t }

def step (k : Kernel κ) : Step κ → Except Fault (Kernel κ)
  | .table a =>
    match Process.step k.table a with
    | .error e => .error e
    | .ok t =>
      match a with
      | .act c a =>
        match k.table.cpu c with
        | none => .error .disabled
        | some me =>
          match k.announcing me, a with
          | none, a => k.act t c me a
          -- before its last statement `fork` may only be preempted
          | some _, .yield => .ok { k with table := t }
          | some _, _ => .error .disabled
      | .schedule .. | .wakeup _ => .ok { k with table := t }
  | .announce c =>
    match k.table.cpu c with
    | none => .error .disabled
    | some me =>
      match k.announcing me with
      | none => .error .disabled
      | some pid =>
        Kernel.record { k with announcing := Function.update k.announcing me none } c (.fork pid)
  | .event c site => if k.Announcing c ∨ ¬k.at c site then .error .disabled else k.record c site
  | .exec c last =>
    match k.table.cpu c with
    | none => .error .disabled
    | some me =>
      if k.Announcing c then .error .disabled
      else .ok { k with name := Function.update k.name me (.copy last) }
  | .tick => .ok { k with ticks := k.ticks + 1 }

/-! ## What a step does -/

/-- What a step can do, with the event that it records. -/
inductive Move (k : Kernel κ) : Step κ → Kernel κ → Prop
  | table {a t} : Process.step k.table a = .ok t → (∀ c, a ≠ .act c .forkRun) →
      (∀ c, a ≠ .act c .exitStart) → Move k (.table a) { k with table := t }
  | fork {c me np t} : k.table.cpu c = some me → k.announcing me = none →
      (k.table.proc me).pc = .adopted np → Process.step k.table (.act c .forkRun) = .ok t →
      Move k (.table (.act c .forkRun)) { k with
        table := t
        name := Function.update k.name np (.copy (k.name me).str)
        announcing := Function.update k.announcing me (some (k.table.proc np).pid) }
  | exit {c me t k'} : k.table.cpu c = some me →
      Process.step k.table (.act c .exitStart) = .ok t →
      Kernel.record { k with table := t } c .exit = .ok k' →
      Move k (.table (.act c .exitStart)) k'
  | announce {c me pid k'} : k.table.cpu c = some me → k.announcing me = some pid →
      Kernel.record { k with announcing := Function.update k.announcing me none } c (.fork pid) =
        .ok k' →
      Move k (.announce c) k'
  | event {c site k'} : k.at c site → k.record c site = .ok k' → Move k (.event c site) k'
  | exec {c last name} : Move k (.exec c last) { k with name := name }
  | tick : Move k .tick { k with ticks := k.ticks + 1 }

theorem step_move {k k' : Kernel κ} {a : Step κ} (h : step k a = .ok k') : Move k a k' := by
  cases a with
  | table a =>
    simp only [step] at h
    split at h
    · cases h
    next t ht =>
    split at h
    next c a =>
      split at h
      · cases h
      next me hc =>
      split at h
      next hnone =>
        unfold Kernel.act at h
        split at h
        · split at h
          next np hpc =>
            cases h
            exact .fork hc hnone hpc ht
          · cases h
        · exact .exit hc ht h
        next hfork hexit =>
          cases h
          refine .table ht (fun d heq => ?_) fun d heq => ?_
          · cases heq
            exact hfork rfl
          · cases heq
            exact hexit rfl
      · cases h
        exact .table ht nofun nofun
      · cases h
    · cases h
      exact .table ht nofun nofun
    · cases h
      exact .table ht nofun nofun
  | announce c =>
    simp only [step] at h
    split at h
    · cases h
    next me hc =>
    split at h
    · cases h
    next pid hpid => exact .announce hc hpid h
  | event c site =>
    simp only [step] at h
    split at h
    · cases h
    next hat =>
      rw [not_or, not_not] at hat
      exact .event hat.2 h
  | exec c last =>
    simp only [step] at h
    split at h
    · cases h
    split at h
    · cases h
    · cases h
      exact .exec
  | tick =>
    cases h
    exact .tick

end Xv6.Trace
