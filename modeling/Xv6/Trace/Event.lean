import Xv6.Lib.Bytes

/-!
# Trace events and kernel strings

`struct trace_event` of `trace.h`, and the string routine that fills its name fields. A C string is
the list of its bytes before the terminating NUL.
-/

namespace Xv6.Trace

@[simp] def TRACE_NAME_LEN : Nat := 16

/-- `struct trace_event`. The `int` fields are kept as 32-bit patterns. -/
@[ext] structure TraceEvent where
  seq : UInt32
  ticks : UInt32
  type : UInt32
  pid : UInt32
  arg0 : UInt32
  arg1 : UInt32
  arg2 : UInt32
  comm : Bytes TRACE_NAME_LEN
  event : Bytes TRACE_NAME_LEN
  overwritten : UInt32

/-- `safestrcpy` into an array of `n` bytes: at most `n - 1` bytes of the string and a NUL. -/
def safestrcpy {n : Nat} (s : Bytes n) (t : List UInt8) : Bytes n :=
  if n = 0 then s else s.blit 0 (t.take (n - 1) ++ [0])

/-- What `traceevent` reads of the current process: `proc->pid` and `proc->name`. -/
structure Current where
  pid : Int
  name : List UInt8

/-- The arguments of a call of `traceevent`, and what it reads from the rest of the kernel. -/
structure Call where
  type : UInt32
  pid : UInt32
  arg0 : UInt32
  arg1 : UInt32
  arg2 : UInt32
  name : Option (List UInt8)
  ticks : UInt32
  proc : Option Current

/-- The bytes of `"kernel"`. -/
def kernelName : List UInt8 := [107, 101, 114, 110, 101, 108]

/-- The `comm` field: the name of the running process, if there is one. -/
def Call.comm (c : Call) : Bytes TRACE_NAME_LEN :=
  match c.proc with
  | some p => if p.pid > 0 then safestrcpy Bytes.zero p.name else safestrcpy Bytes.zero kernelName
  | none => safestrcpy Bytes.zero kernelName

/-- The `event` field: the name that was passed, if there is one. -/
def Call.event (c : Call) : Bytes TRACE_NAME_LEN :=
  match c.name with
  | some name => safestrcpy Bytes.zero name
  | none => Bytes.zero

/-- The record that `traceevent` fills in. -/
def Call.record (c : Call) (seq overwritten : UInt32) : TraceEvent where
  seq := seq
  ticks := c.ticks
  type := c.type
  pid := c.pid
  arg0 := c.arg0
  arg1 := c.arg1
  arg2 := c.arg2
  comm := c.comm
  event := c.event
  overwritten := overwritten

end Xv6.Trace
