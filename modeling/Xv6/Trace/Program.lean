import Xv6.Trace.Board
import Xv6.Trace.Read

/-!
# The `trace` program

`main` of `trace.c` and the system calls that it makes. A run is told what the rest of the system
does by the time of each call (`World`): which events others record and read, and what the clock
shows. A `Machine` is the ring, with the calls that the program has made, the events recorded since
it started and those that it was handed; `State` adds the variables of the program, and the events
that it has counted.
-/

namespace Xv6.Trace

/-! ## The rest of the system -/

/-- What another process does to the ring. -/
inductive Other
  | event (c : Call)
  | read (copied : Nat → Bool) (max_events : Int)

/-- What others do before a system call, and what the call then finds. -/
structure Meanwhile where
  others : List Other
  ticks : UInt32
  /-- What `write` returns. -/
  written : Int
  latency : UInt32

/-- What goes on by the time of each system call of the program. -/
abbrev World := Nat → Meanwhile

/-! ## System calls -/

structure Machine where
  buf : TraceBuffer
  calls : List SysCall
  recorded : List TraceEvent
  delivered : List TraceEvent

namespace Machine

/-- `traceevent`, with what it records. -/
def record (m : Machine) (c : Call) : Machine :=
  { m with
    buf := traceevent c m.buf
    recorded := m.recorded ++ [c.record m.buf.seq m.buf.overwritten] }

def other (m : Machine) : Other → Machine
  | .event c => m.record c
  | .read copied max_events => { m with buf := (Trace.traceread copied max_events m.buf).buf }

variable (w : World) (me : Who)

/-- A system call is entered, after what others do. -/
def enter (m : Machine) (c : SysCall) : Machine :=
  { (w m.calls.length).others.foldl other m with calls := m.calls ++ [c] }

/-- What `syscall` does once the call is done. -/
def leave (m : Machine) (c : SysCall) (rax : Int) : Machine :=
  let now := w (m.calls.length - 1)
  match (Site.syscall c.num (UInt64.ofInt rax) now.latency).call now.ticks (some me) with
  | none => m
  | some call => m.record call

/-- A call that gives the program nothing that it uses. -/
def syscall (m : Machine) (c : SysCall) : Machine :=
  let rax := match c with
    | .write .. => (w m.calls.length).written
    | _ => 0
  (m.enter w c).leave w me c rax

def uptime (m : Machine) : UInt32 × Machine :=
  let ticks := (w m.calls.length).ticks
  (ticks, (m.enter w .uptime).leave w me .uptime ticks.toNat)

/-- `traceread(&event, 1)`; the variable `event` is mapped. -/
def traceread (m : Machine) : Int × List TraceEvent × Machine :=
  let m := m.enter w (.traceread 1)
  let r := Trace.traceread (fun _ => true) 1 m.buf
  let m := { m with buf := r.buf, delivered := m.delivered ++ r.delivered }
  (r.ret, r.delivered, m.leave w me (.traceread 1) r.ret)

def syscalls (m : Machine) (cs : List SysCall) : Machine := cs.foldl (syscall w me) m

/-- `printf(1, text)` of a text without `%`: one `write` for each character. -/
def print (m : Machine) (text : String) : Machine :=
  m.syscalls w me ((cstring text).map (.write 1 ·))

end Machine

/-! ## The variables of the program -/

structure State extends Board where
  activity : Fin GRAPH_WIDTH → UInt32
  activity_pos : Nat
  last_tick : UInt32
  exited : Bool
  captured : List TraceEvent
  m : Machine

def zeroEvent : TraceEvent := ⟨0, 0, 0, 0, 0, 0, 0, .zero, .zero, 0⟩

/-- The variables before the loop. -/
def State.init (m : Machine) : State where
  recent _ := zeroEvent
  recent_count := 0
  recent_start := 0
  overwritten := 0
  seen := 0
  window := ⟨0, 0, 0, 0⟩
  total := ⟨0, 0, 0, 0⟩
  activity _ := 0
  activity_pos := 0
  last_tick := -1
  exited := false
  captured := []
  m := m

namespace State

/-- One tick without events in the graph. -/
def nextTick (s : State) : State :=
  let pos := (s.activity_pos + 1) % GRAPH_WIDTH
  { s with activity_pos := pos, activity := setAt s.activity (Fin.ofNat _ pos) 0 }

/-- The graph moves on to the tick `now`, at most by its width. -/
def moveTo (s : State) (now : UInt32) : State :=
  let diff := cint (now - s.last_tick)
  let diff := if diff > 50 then 50 else diff
  { nextTick^[diff.toNat] s with last_tick := now }

/-- The first tick that is seen. -/
def firstTick (s : State) (now : UInt32) : State :=
  if s.last_tick = -1 then { s with last_tick := now } else s

/-- The event is counted by type, and in the graph. -/
def mark (s : State) (event : TraceEvent) : State :=
  let s := { s with window := s.window.update event }
  let s := s.firstTick event.ticks
  -- `event.ticks` is unsigned, and so is the comparison
  let s := if event.ticks > s.last_tick then s.moveTo event.ticks else s
  let pos := Fin.ofNat _ s.activity_pos
  { s with activity := setAt s.activity pos (s.activity pos + 1) }

/-- The event goes to the array of recent ones. -/
def keep (s : State) (event : TraceEvent) : State :=
  if s.recent_count < MAX_TRACE_ROWS then
    { s with
      recent := setAt s.recent (Fin.ofNat _ s.recent_count) event
      recent_count := s.recent_count + 1 }
  else
    { s with
      recent := setAt s.recent (Fin.ofNat _ s.recent_start) event
      recent_start := (s.recent_start + 1) % MAX_TRACE_ROWS }

end State

/-! ## The loop -/

def want_event (o : Options) (me : Who) (event : TraceEvent) : Bool :=
  if event.pid = me.pid then false
  else if o.filter_type ≠ 0 ∧ event.type ≠ o.filter_type then false
  else if o.filter_pid ≠ -1 ∧ event.pid ≠ o.filter_pid then false
  else true

namespace State

variable (w : World) (me : Who) (o : Options)

def draw (s : State) : State :=
  let calls := drawBoard o s.toBoard ++ draw_graph 4 0 s.activity s.activity_pos
  { s with m := s.m.syscalls w me calls }

/-- The part of the loop after an event was read. -/
def handle (s : State) (event : TraceEvent) : State :=
  let s := { s with total := s.total.update event, overwritten := event.overwritten }
  if want_event o me event = false then s
  else
    let s := ((s.mark event).keep event).draw w me o
    { s with seen := s.seen + 1, captured := s.captured ++ [event] }

/-- The part of the loop that waits for the clock. -/
def wait (s : State) : State :=
  let (now, m) := s.m.uptime w me
  let s := { s with m }.firstTick now
  let s := if cint now > cint s.last_tick then (s.moveTo now).draw w me o else s
  { s with m := s.m.syscall w me (.sleep 10) }

/-- The part of the loop after no event was read. -/
def idle (s : State) : State :=
  if o.limit = 0 ∧ s.recent_count > 0 then { s with exited := true }
  else if o.limit = 0 ∧ s.seen = 0 then
    let (now, m) := s.m.uptime w me
    let s := { s with m }
    if cint (now - s.last_tick) > 10 then { s with exited := true } else s.wait w me o
  else s.wait w me o

/-- One turn of the loop; nothing more happens once the program has left it. -/
def turn (s : State) : State :=
  if s.exited then s
  else if ¬(o.limit = 0 ∨ cint s.seen < cint o.limit) then { s with exited := true }
  else
    let (n, events, m) := s.m.traceread w me
    let s := { s with m }
    if n < 0 then { s with m := s.m.print w me "traceread failed\n", exited := true }
    else
      match events with
      | [] => s.idle w me o
      | event :: _ => s.handle w me o event

/-- The state after `n` turns. -/
def turns (n : Nat) (s : State) : State := (turn w me o)^[n] s

end State

/-! ## `main` -/

def atoi (s : List UInt8) : UInt32 :=
  (s.takeWhile fun c => 48 ≤ c ∧ c ≤ 57).foldl (fun n c => n * 10 + (c.toUInt32 - 48)) 0

/-- The options with what else the loop over the arguments keeps. -/
structure Parsed extends Options where
  limit_set : Bool

/-- An argument that is none of the words: a number that is the limit or the process. -/
def parseNumber (p : Parsed) (arg : List UInt8) : Parsed :=
  let val := atoi arg
  if cint val > 0 ∨ arg = cstring "0" then
    if p.limit_set = false then { p with limit := val, limit_set := true }
    else if p.filter_pid = -1 then { p with filter_pid := val }
    else p
  else p

def parseWord (p : Parsed) (arg : List UInt8) : Parsed :=
  if arg = cstring "syscall" then { p with filter_type := TRACE_TYPE_SYSCALL }
  else if arg = cstring "proc" then { p with filter_type := TRACE_TYPE_PROC }
  else if arg = cstring "mem" then { p with filter_type := TRACE_TYPE_MEM }
  else if arg = cstring "trap" then { p with filter_type := TRACE_TYPE_TRAP }
  else parseNumber p arg

def parseArgs (p : Parsed) : List (List UInt8) → Parsed
  | [] => p
  | [arg] => parseWord p arg
  | arg :: next :: rest =>
    if arg = cstring "-n" then
      let rows := atoi next
      parseArgs { p with display_rows := if cint rows > MAX_TRACE_ROWS then 32 else rows } rest
    else parseArgs (parseWord p arg) (next :: rest)

/-- What the arguments after the name of the program say. -/
def options (args : List (List UInt8)) : Options :=
  (parseArgs ⟨⟨0, -1, 0, DEFAULT_DISPLAY_ROWS⟩, false⟩ args).toOptions

/-- The system calls before the loop. -/
def startup : List SysCall := .getpid :: List.replicate 25 (.write 1 10) ++ [.vidclear]

/-- The program after `n` turns of its loop, started with the ring `b`. -/
def main (w : World) (me : Who) (args : List (List UInt8)) (b : TraceBuffer) (n : Nat) : State :=
  let m := Machine.syscalls w me ⟨b, [], [], []⟩ startup
  (State.init m).turns w me (options args) n

end Xv6.Trace
