import Xv6.Lib.CInt
import Xv6.Trace.Sites

/-!
# The dashboard

What `trace.c` draws: the system calls that its drawing functions make, in order. A drawing function
is the list of its calls.
-/

namespace Xv6.Trace

def MAX_TRACE_ROWS : Nat := 32
def DEFAULT_DISPLAY_ROWS : UInt32 := 15
def COLOR_NORMAL : Nat := 0x07
def COLOR_TITLE : Nat := 0x0f
def COLOR_GREEN : Nat := 0x0a
def COLOR_CYAN : Nat := 0x0b
def COLOR_YELLOW : Nat := 0x0e
def COLOR_RED : Nat := 0x0c
def GRAPH_WIDTH : Nat := 50

instance : NeZero MAX_TRACE_ROWS := ⟨by decide⟩
instance : NeZero GRAPH_WIDTH := ⟨by decide⟩

/-- The system calls of `trace.c`, with the strings that they are passed. -/
inductive SysCall
  | getpid
  | sleep (n : Nat)
  | uptime
  | write (fd : Nat) (c : UInt8)
  | traceread (max_events : Int)
  | vidclear
  | vidputs (row col : Nat) (s : List UInt8) (color : Nat)
  deriving DecidableEq

/-- The number of a system call in `syscall.h`. -/
def SysCall.num : SysCall → UInt64
  | .getpid => 11
  | .sleep _ => 13
  | .uptime => 14
  | .write .. => 16
  | .traceread _ => 22
  | .vidclear => 23
  | .vidputs .. => 25

def vidputs (row col : Nat) (s : String) (color : Nat) : SysCall := .vidputs row col (cstring s) color

/-! ## Numbers -/

/-- The digits of `val`, lowest first, as far as there is room. -/
def digits (base : Nat) : (room : Nat) → (val : Nat) → List UInt8
  | 0, _ => []
  | room + 1, val =>
    if val = 0 then []
    else (cstring "0123456789abcdef").getD (val % base) 0 :: digits base room (val / base)

def itoa (val : UInt32) : List UInt8 :=
  let neg := cint val < 0
  -- the least integer is its own negative
  let val := if neg then cint (-val) else cint val
  if val = 0 then cstring "0"
  else
    let temp := digits 10 15 val.toNat
    let temp := if neg ∧ temp.length < 15 then temp ++ cstring "-" else temp
    temp.reverse

def itox (val : UInt32) : List UInt8 :=
  if val = 0 then cstring "0" else (digits 16 15 val.toNat).reverse

def drawnum (row col : Nat) (val : UInt32) (color : Nat) : List SysCall :=
  [.vidputs row col (itoa val) color]

def drawhex (row col : Nat) (val : UInt32) (color : Nat) : List SysCall :=
  [vidputs row col "0x" color, .vidputs row (col + 2) (itox val) color]

/-! ## Events -/

def typename (type : UInt32) : String :=
  if type = TRACE_TYPE_SYSCALL then "syscall"
  else if type = TRACE_TYPE_PROC then "proc"
  else if type = TRACE_TYPE_TRAP then "trap"
  else if type = TRACE_TYPE_MEM then "mem"
  else "all"

def type_color (type : UInt32) : Nat :=
  if type = TRACE_TYPE_SYSCALL then COLOR_CYAN
  else if type = TRACE_TYPE_PROC then COLOR_GREEN
  else if type = TRACE_TYPE_MEM then COLOR_YELLOW
  else if type = TRACE_TYPE_TRAP then COLOR_RED
  else COLOR_NORMAL

def detail_color (event : TraceEvent) : Nat :=
  if event.type = TRACE_TYPE_TRAP then COLOR_RED
  else if event.type = TRACE_TYPE_MEM then COLOR_YELLOW
  else if event.type = TRACE_TYPE_PROC then COLOR_GREEN
  else if event.type = TRACE_TYPE_SYSCALL then
    if cint event.arg1 < 0 then COLOR_RED else COLOR_CYAN
  else COLOR_NORMAL

/-- The last columns of the row of an event. -/
def drawdetails (row : Nat) (event : TraceEvent) : List SysCall :=
  if event.type = TRACE_TYPE_SYSCALL then
    [vidputs row 54 "num = " COLOR_NORMAL] ++ drawnum row 60 event.arg0 COLOR_CYAN ++
    [vidputs row 64 "ret = " COLOR_NORMAL] ++ drawnum row 70 event.arg1 (detail_color event)
  else if event.type = TRACE_TYPE_PROC then
    [vidputs row 54 "child = " COLOR_NORMAL] ++ drawnum row 62 event.arg0 COLOR_GREEN
  else if event.type = TRACE_TYPE_MEM then
    [vidputs row 54 "page = " COLOR_NORMAL] ++ drawhex row 61 event.arg0 COLOR_YELLOW
  else if event.type = TRACE_TYPE_TRAP then
    [vidputs row 54 "cause = " COLOR_RED] ++ drawnum row 62 event.arg0 COLOR_RED ++
    [vidputs row 66 "err = " COLOR_RED] ++ drawnum row 72 event.arg1 COLOR_RED
  else []

def draweventrow (row : Nat) (event : TraceEvent) : List SysCall :=
  [.vidputs row 0 (List.replicate 80 32) COLOR_NORMAL] ++
  drawnum row 0 event.seq COLOR_NORMAL ++
  drawnum row 5 event.ticks COLOR_NORMAL ++
  drawnum row 12 event.pid (type_color event.type) ++
  [.vidputs row 17 event.comm.cstr (type_color event.type),
    vidputs row 34 (typename event.type) (type_color event.type),
    .vidputs row 43 event.event.cstr (type_color event.type)] ++
  drawdetails row event

/-! ## The board -/

/-- The bar of a tick with `count` events, and its color. -/
def graphBar (count : UInt32) : String × Nat :=
  if cint count = 0 then (".", COLOR_NORMAL)
  else if cint count < 3 then ("-", COLOR_GREEN)
  else if cint count < 7 then ("=", COLOR_YELLOW)
  else ("#", COLOR_RED)

def draw_graph (row col : Nat) (activity : Fin GRAPH_WIDTH → UInt32) (activity_pos : Nat) :
    List SysCall :=
  vidputs row col "event rate last 50 ticks: . none | - low | = medium | # high" COLOR_TITLE ::
  (List.range GRAPH_WIDTH).map fun i =>
    let (bar, color) := graphBar (activity (Fin.ofNat _ (activity_pos + 1 + i)))
    vidputs (row + 1) (col + i) bar color

/-- How many events there were of each type: `sys_count`, `proc_count`, `mem_count` and
`trap_count`. -/
structure Counts where
  sys : UInt32
  proc : UInt32
  mem : UInt32
  trap : UInt32

def Counts.update (c : Counts) (event : TraceEvent) : Counts :=
  if event.type = TRACE_TYPE_SYSCALL then { c with sys := c.sys + 1 }
  else if event.type = TRACE_TYPE_PROC then { c with proc := c.proc + 1 }
  else if event.type = TRACE_TYPE_MEM then { c with mem := c.mem + 1 }
  else if event.type = TRACE_TYPE_TRAP then { c with trap := c.trap + 1 }
  else c

/-- The counts in a row of the board. -/
def drawcounts (row : Nat) (title : String) (c : Counts) : List SysCall :=
  [vidputs row 26 title COLOR_NORMAL] ++ drawnum row 45 c.sys COLOR_CYAN ++
  [vidputs row 48 " proc = " COLOR_NORMAL] ++ drawnum row 56 c.proc COLOR_GREEN ++
  [vidputs row 59 " mem = " COLOR_NORMAL] ++ drawnum row 66 c.mem COLOR_YELLOW ++
  [vidputs row 69 " trap = " COLOR_NORMAL] ++ drawnum row 77 c.trap COLOR_RED

/-- What `drawBoard` is given and what it reads from global variables. -/
structure Board where
  recent : Fin MAX_TRACE_ROWS → TraceEvent
  recent_count : Nat
  recent_start : Nat
  overwritten : UInt32
  seen : UInt32
  window : Counts
  total : Counts

/-- The arguments of `trace`, as `main` keeps them. -/
structure Options where
  filter_type : UInt32
  filter_pid : UInt32
  limit : UInt32
  display_rows : UInt32

def drawBoard (o : Options) (b : Board) : List SysCall :=
  [.vidclear,
    vidputs 0 0 "XV6 LIVE KERNEL TRACE DASHBOARD" COLOR_TITLE,
    vidputs 0 36 "FILTER:" COLOR_NORMAL,
    vidputs 0 44 (typename o.filter_type) (type_color o.filter_type),
    vidputs 0 52 "pid = " COLOR_NORMAL] ++
  (if o.filter_pid = -1 then [vidputs 0 58 "all" COLOR_NORMAL]
    else drawnum 0 58 o.filter_pid COLOR_NORMAL) ++
  [vidputs 0 64 "STATUS:" COLOR_NORMAL,
    if o.limit = 0 then vidputs 0 72 "ONESHOT" COLOR_YELLOW else vidputs 0 72 "LIVE" COLOR_GREEN,
    vidputs 1 0 "captured = " COLOR_NORMAL] ++
  drawnum 1 11 b.seen COLOR_CYAN ++
  [vidputs 1 15 "/ " COLOR_NORMAL] ++
  drawnum 1 17 (if o.limit = 0 then 128 else o.limit) COLOR_CYAN ++
  drawcounts 1 "showing: syscall = " b.window ++
  [vidputs 2 0 "overwritten = " COLOR_NORMAL] ++
  drawnum 2 14 b.overwritten (if cint b.overwritten > 0 then COLOR_RED else COLOR_NORMAL) ++
  drawcounts 2 "total:   syscall = " b.total ++
  [vidputs 6 0 "SEQ  TICKS  PID  PROC             SUBSYS   EVENT      DETAILS" COLOR_TITLE,
    vidputs 7 0 "---------------------------------------------------------------------------"
      COLOR_NORMAL] ++
  ((List.range MAX_TRACE_ROWS).takeWhile fun i =>
      i < b.recent_count ∧ i < cint o.display_rows).flatMap fun i =>
    draweventrow (8 + i) (b.recent (Fin.ofNat _ (b.recent_start + i)))

end Xv6.Trace
