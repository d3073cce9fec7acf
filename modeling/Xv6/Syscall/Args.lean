import Xv6.Lib.CInt
import Xv6.Param

/-!
# Arguments of system calls

The argument checks of `syscall.c`, `sysfile.c` and `sysproc.c`: which system calls go on to the
work they were asked for, and with what. `argptr` is declared to return `addr_t`, which is
unsigned, so the callers' tests `argptr(...) < 0` never succeed (`argptr_not_lt`): a call that takes
a user buffer goes on whatever the buffer is, unless something else about its arguments stops it.
-/

namespace Xv6.Syscall

@[simp] def PGSIZE : Nat := 4096

/-- The registers of `struct trapframe` that carry arguments. -/
structure TrapFrame where
  rdi : UInt64
  rsi : UInt64
  rdx : UInt64
  r10 : UInt64
  r8 : UInt64
  r9 : UInt64

/-- What the argument checks read of `struct proc`; `φ` stands for `struct file *`. -/
structure Proc (φ : Type) where
  sz : UInt64
  tf : TrapFrame
  ofile : Fin NOFILE → Option φ

variable {φ σ : Type}

/-! ## `syscall.c` -/

def fetcharg (p : Proc φ) : Fin 6 → UInt64
  | 0 => p.tf.rdi
  | 1 => p.tf.rsi
  | 2 => p.tf.rdx
  | 3 => p.tf.r10
  | 4 => p.tf.r8
  | 5 => p.tf.r9

/-- The `int` that `argint` stores. It always returns 0, so no caller's test of it succeeds. -/
def argint (p : Proc φ) (n : Fin 6) : UInt32 := (fetcharg p n).toUInt32

/-- The `addr_t` that `argaddr` stores; it always returns 0 as well. -/
def argaddr (p : Proc φ) (n : Fin 6) : UInt64 := fetcharg p n

/-- `argptr`: the value returned, an unsigned `addr_t`, and the pointer that `*pp` is left with. -/
def argptr (p : Proc φ) (n : Fin 6) (pp : UInt64) (size : UInt32) : UInt64 × UInt64 :=
  let i := argaddr p n
  -- `(uint)i+size` is a sum of 32-bit unsigned integers
  if cint size < 0 ∨ i.toUInt32.toUInt64 ≥ p.sz ∨ (i.toUInt32 + size).toUInt64 > p.sz then
    (-1, pp)
  else
    (0, i)

/-! ## The system calls that take a buffer -/

/-- `argfd`: the open file that the descriptor names; `none` when it returns -1. -/
def argfd (p : Proc φ) (n : Fin 6) : Option φ :=
  let fd := cint (argint p n)
  if h : 0 ≤ fd ∧ fd < NOFILE then p.ofile ⟨fd.toNat, by omega⟩ else none

/-- The function that a system call goes on to. -/
inductive Callee (φ : Type)
  | fileread (f : φ) (addr : UInt64) (n : UInt32)
  | filewrite (f : φ) (addr : UInt64) (n : UInt32)
  | filestat (f : φ) (st : UInt64)
  | pipealloc (fd : UInt64)
  | traceread (dst : UInt64) (max_events : UInt32)

/-- `sizeof(struct stat)`: `short`, `int`, `uint`, `short`, `uint`, each aligned to its size. -/
def sizeofStat : UInt32 := 20

/-- `sizeof(struct trace_event)`, a `size_t`. -/
def sizeofTraceEvent : UInt64 := 64

/-! A system call either returns a value right away, or goes on to a callee. Its pointer variable is
not initialised; `pp` is what it holds before `argptr` is called. -/

/-- A call on the file of descriptor argument 0, with a buffer of `size` bytes at argument 1. -/
def fileCall (p : Proc φ) (pp : UInt64) (size : UInt32) (callee : φ → UInt64 → Callee φ) :
    Except Int (Callee φ) :=
  match argfd p 0 with
  | none => .error (-1)
  | some f =>
    let (r, buf) := argptr p 1 pp size
    if r < 0 then .error (-1) else .ok (callee f buf)

def sysRead (p : Proc φ) (pp : UInt64) : Except Int (Callee φ) :=
  let n := argint p 2
  fileCall p pp n fun f buf => .fileread f buf n

def sysWrite (p : Proc φ) (pp : UInt64) : Except Int (Callee φ) :=
  let n := argint p 2
  fileCall p pp n fun f buf => .filewrite f buf n

def sysFstat (p : Proc φ) (pp : UInt64) : Except Int (Callee φ) :=
  fileCall p pp sizeofStat .filestat

def sysPipe (p : Proc φ) (pp : UInt64) : Except Int (Callee φ) :=
  let (r, fd) := argptr p 0 pp (2 * 4)
  if r < 0 then .error (-1) else .ok (.pipealloc fd)

def sysTraceread (p : Proc φ) (pp : UInt64) : Except Int (Callee φ) :=
  let max_events := argint p 1
  if cint max_events ≤ 0 then
    .error 0
  else
    -- a product of `size_t`, cut to the `int` that `argptr` takes
    let (r, event) := argptr p 0 pp (max_events.toUInt64 * sizeofTraceEvent).toUInt32
    if r < 0 then .error (-1) else .ok (.traceread event max_events)

/-- The system calls that take a user buffer of a given size. -/
inductive BufCall
  | read
  | write
  | fstat
  | pipe
  | traceread
  deriving DecidableEq

def sysCall (p : Proc φ) (pp : UInt64) : BufCall → Except Int (Callee φ)
  | .read => sysRead p pp
  | .write => sysWrite p pp
  | .fstat => sysFstat p pp
  | .pipe => sysPipe p pp
  | .traceread => sysTraceread p pp

/-- The whole call in a kernel whose callees are `k`: the value returned and the state left. -/
def runCall (k : Callee φ → σ → Int × σ) (r : Except Int (Callee φ)) (s : σ) : Int × σ :=
  match r with
  | .error v => (v, s)
  | .ok c => k c s

/-! ## What the checks should let through -/

/-- All of `n` bytes from `a` on lie in the mapped memory of a process of size `sz`. -/
def InMemory (sz a : UInt64) (n : Int) : Prop :=
  0 ≤ n ∧ ∀ b : Nat, a.toNat ≤ b → (b : Int) < a.toNat + n → PGSIZE ≤ b ∧ b < sz.toNat

/-- Where the buffer is that the call was asked to use. -/
def bufAddr (p : Proc φ) : BufCall → UInt64
  | .read | .write | .fstat => p.tf.rsi
  | .pipe | .traceread => p.tf.rdi

/-- How many bytes the buffer has, as an integer. -/
def bufSize (p : Proc φ) : BufCall → Int
  | .read | .write => cint (argint p 2)
  | .fstat => 20
  | .pipe => 2 * 4
  | .traceread => cint (argint p 1) * 64

/-- What a call returns when it does not go on. -/
def refusal (p : Proc φ) : BufCall → Int
  | .traceread => if cint (argint p 1) ≤ 0 then 0 else -1
  | _ => -1

/-- The call goes on only with a buffer in mapped memory; otherwise it returns its refusal and
leaves the state as it was. -/
def Checked (k : Callee φ → σ → Int × σ) (s : σ) (p : Proc φ) (pp : UInt64) (c : BufCall) : Prop :=
  (∀ callee, sysCall p pp c = .ok callee → InMemory p.sz (bufAddr p c) (bufSize p c)) ∧
  ∀ v, sysCall p pp c = .error v → runCall k (sysCall p pp c) s = (refusal p c, s)

/-- An argument other than the buffer makes the call return. -/
def Stopped (p : Proc φ) : BufCall → Prop
  | .read | .write | .fstat => argfd p 0 = none
  | .pipe => False
  | .traceread => cint (argint p 1) ≤ 0

/-! ## What they do let through -/

theorem fileCall_cases (p : Proc φ) (pp : UInt64) (size : UInt32) (f : φ → UInt64 → Callee φ) :
    argfd p 0 = none ∧ fileCall p pp size f = .error (-1) ∨
      argfd p 0 ≠ none ∧ ∃ callee, fileCall p pp size f = .ok callee := by
  cases hfd : argfd p 0 with
  | none => exact .inl ⟨rfl, by rw [fileCall, hfd]⟩
  | some file => exact .inr ⟨nofun, f file (argptr p 1 pp size).2, by simp [fileCall, hfd]⟩

/-- A call goes on unless something other than its buffer stops it. -/
theorem sysCall_cases (p : Proc φ) (pp : UInt64) (c : BufCall) :
    Stopped p c ∧ sysCall p pp c = .error (refusal p c) ∨
      ¬Stopped p c ∧ ∃ callee, sysCall p pp c = .ok callee := by
  cases c with
  | read => exact fileCall_cases p pp (argint p 2) fun f buf => .fileread f buf (argint p 2)
  | write => exact fileCall_cases p pp (argint p 2) fun f buf => .filewrite f buf (argint p 2)
  | fstat => exact fileCall_cases p pp sizeofStat .filestat
  | pipe => exact .inr ⟨id, by simp [sysCall, sysPipe]⟩
  | traceread =>
    by_cases hmax : cint (argint p 1) ≤ 0
    · exact .inl ⟨hmax, by simp only [sysCall, sysTraceread, refusal, if_pos hmax]⟩
    · exact .inr ⟨hmax, by simp [sysCall, sysTraceread, hmax]⟩

/-- **Buffer checks.** A system call treats its buffer as it should exactly when another argument
makes it return, or the buffer happens to be in mapped memory. -/
theorem checked_iff (k : Callee φ → σ → Int × σ) (s : σ) (p : Proc φ) (pp : UInt64) (c : BufCall) :
    Checked k s p pp c ↔ Stopped p c ∨ InMemory p.sz (bufAddr p c) (bufSize p c) := by
  rcases sysCall_cases p pp c with ⟨hstop, herr⟩ | ⟨hgo, callee, hok⟩
  · have hrun : runCall k (sysCall p pp c) s = (refusal p c, s) := by rw [herr]; rfl
    exact ⟨fun _ => .inl hstop, fun _ => ⟨by simp [herr], fun _ _ => hrun⟩⟩
  · constructor
    · intro h
      exact .inr (h.1 callee hok)
    · rintro (h | h)
      · exact absurd h hgo
      · exact ⟨fun _ _ => h, by simp [hok]⟩

/-- A process of two pages that calls `read` on descriptor 0, with a buffer at its last byte and
count -1. -/
def argptest : Proc Unit where
  sz := 8192
  tf := ⟨0, 8191, 0xffffffffffffffff, 0, 0, 0⟩
  ofile := fun fd => if fd.val = 0 then some () else none

/-- The call goes on to `fileread` with a negative count. -/
theorem read_negative_not_checked :
    ¬Checked (fun _ s => (0, s)) () argptest 0 .read := by
  intro h
  have hmem := h.1 (.fileread () 0 0xffffffff) rfl
  have hneg : bufSize argptest .read = -1 := by decide
  have := hmem.1
  omega

end Xv6.Syscall
