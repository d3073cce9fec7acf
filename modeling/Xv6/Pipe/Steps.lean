import Xv6.Lib.Ring
import Xv6.Lib.Run

/-!
# Pipes

`pipewrite`, `piperead` and `pipeclose` of `pipe.c` on one pipe, called by any number of processes.
A step of a call is a stretch under `p->lock`: from taking the lock, at the start of the call or
after a wakeup, to the next `sleep` or to the return. `sleep` and `wakeup` are atomic under
`ptable.lock`; `kill` may come between any two steps, or in the middle of a stretch after the last
look at `proc->killed`.

A process in a call holds a file of its end of the pipe. So calls start on an open end, and an end
is closed when no process is in a call on it.
-/

namespace Xv6

@[simp] def PIPESIZE : Nat := 512

instance : NeZero PIPESIZE := ⟨by decide⟩

/-- `struct pipe`, without its lock. -/
structure Pipe where
  data : Fin PIPESIZE → UInt8
  nread : UInt32
  nwrite : UInt32
  readopen : Bool
  writeopen : Bool

namespace Pipe

/-- What processes sleep on: `&p->nread` and `&p->nwrite`. -/
inductive Chan
  | nread
  | nwrite
  deriving DecidableEq

inductive Ending
  | returns (r : Int)
  | sleeps (chan : Chan)
  deriving DecidableEq

/-- What a stretch under the lock does: the bytes it moves, those a writer has left, the channels it
wakes and how it ends. -/
structure Stretch where
  pipe : Pipe
  moved : List UInt8
  rest : List UInt8
  wakes : List Chan
  ending : Ending

/-- `p->data[p->nwrite++ % PIPESIZE] = c` -/
def put (p : Pipe) (c : UInt8) : Pipe :=
  { p with data := Function.update p.data (ringSlot _ p.nwrite) c, nwrite := p.nwrite + 1 }

/-- A stretch of `pipewrite` with the bytes `rest` left to write, `n` in all. -/
def writeLoop (n : Int) (killed : Bool) (p : Pipe) : List UInt8 → Stretch
  | [] => ⟨p, [], [], [.nread], .returns n⟩
  | c :: rest =>
    if p.nwrite = p.nread + UInt32.ofNat PIPESIZE then
      if p.readopen = false ∨ killed = true then ⟨p, [], c :: rest, [], .returns (-1)⟩
      else ⟨p, [], c :: rest, [.nread], .sleeps .nwrite⟩
    else
      let r := writeLoop n killed (p.put c) rest
      { r with moved := c :: r.moved }

/-- The copying loop of `piperead`, for at most `k` bytes. -/
def readLoop (p : Pipe) : Nat → List UInt8 × Pipe
  | 0 => ([], p)
  | k + 1 =>
    if p.nread = p.nwrite then ([], p)
    else
      let (bytes, p') := readLoop { p with nread := p.nread + 1 } k
      (p.data (ringSlot _ p.nread) :: bytes, p')

/-- A stretch of `piperead`. -/
def readStretch (n : Int) (killed : Bool) (p : Pipe) : Stretch :=
  if p.nread = p.nwrite ∧ p.writeopen = true then
    if killed then ⟨p, [], [], [], .returns (-1)⟩ else ⟨p, [], [], [], .sleeps .nread⟩
  else
    let r := readLoop p n.toNat
    ⟨r.2, r.1, [], [.nwrite], .returns r.1.length⟩

/-! ## Processes -/

/-- The call that a process is in. A call of `pipewrite` has a number. -/
inductive Op
  | idle
  | write (id : Nat) (n : Int) (rest : List UInt8)
  | read (n : Int)
  deriving DecidableEq

def Op.writes : Op → Bool
  | .write .. => true
  | _ => false

def Op.reads : Op → Bool
  | .read _ => true
  | _ => false

/-- The process is SLEEPING if it has a channel. -/
structure Proc where
  op : Op
  chan : Option Chan
  killed : Bool

/-- A return from a call of `pipewrite`, or of `piperead` with the bytes it read. -/
inductive Return
  | write (id : Nat) (r : Int)
  | read (n r : Int) (bytes : List UInt8)
  deriving DecidableEq

/-- The pipe and its processes, with a record of the calls of `pipewrite`, of the bytes stored by
each call, and of the returns. -/
structure Sys (π : Type) where
  pipe : Pipe
  proc : π → Proc
  calls : List (Int × List UInt8)
  stored : List (Nat × UInt8)
  returned : List Return

def Return.bytes : Return → List UInt8
  | .write .. => []
  | .read _ _ bytes => bytes

/-- The bytes that `piperead` returned, in order. -/
def Sys.received (s : Sys π) : List UInt8 := s.returned.flatMap Return.bytes

/-- The bytes that call `id` of `pipewrite` stored. -/
def Sys.storedBy (s : Sys π) (id : Nat) : List UInt8 :=
  (s.stored.filter fun x => x.1 = id).map Prod.snd

def wakeup (chan : Chan) (proc : π → Proc) : π → Proc := fun q =>
  if (proc q).chan = some chan then { proc q with chan := none } else proc q

/-- `pipealloc`: the page that holds the pipe has any content. -/
def pipealloc (data : Fin PIPESIZE → UInt8) : Pipe := ⟨data, 0, 0, true, true⟩

/-- A new pipe, and processes of which any may have been killed. -/
def start (data : Fin PIPESIZE → UInt8) (killed : π → Bool) : Sys π where
  pipe := pipealloc data
  proc := fun q => ⟨.idle, none, killed q⟩
  calls := []
  stored := []
  returned := []

inductive Step (π : Type)
  /-- A call of `pipewrite` with `n` bytes at `addr`. -/
  | write (me : π) (n : Int) (addr : Nat → UInt8)
  | read (me : π) (n : Int)
  /-- A stretch of the call that `me` is in. With `late`, the process is killed during the stretch,
  after it last looked. -/
  | run (me : π) (late : Bool)
  | kill (who : π)
  | close (writable : Bool)

section
variable {π : Type} [Fintype π] [DecidableEq π]

def Ending.chan : Ending → Option Chan
  | .returns _ => none
  | .sleeps chan => some chan

/-- The processes after a stretch of `me`, which goes on with `op` if it sleeps. -/
def Stretch.procs (r : Stretch) (proc : π → Proc) (me : π) (op : Op) (late : Bool) : π → Proc :=
  Function.update (r.wakes.foldr wakeup proc) me
    ⟨if r.ending.chan = none then .idle else op, r.ending.chan, (proc me).killed || late⟩

def Ending.result (e : Ending) (ret : Int → Return) : List Return :=
  match e with
  | .returns r => [ret r]
  | .sleeps _ => []

/-- A stretch of the call that `me` is in. -/
def stretch (s : Sys π) (me : π) (late : Bool) : Except Fault (Sys π) :=
  if (s.proc me).chan ≠ none then .error .disabled
  else match (s.proc me).op with
    | .idle => .error .disabled
    | .write id n rest =>
      let r := writeLoop n (s.proc me).killed s.pipe rest
      .ok { s with
        pipe := r.pipe
        proc := r.procs s.proc me (.write id n r.rest) late
        stored := s.stored ++ r.moved.map (id, ·)
        returned := s.returned ++ r.ending.result (.write id) }
    | .read n =>
      let r := readStretch n (s.proc me).killed s.pipe
      .ok { s with
        pipe := r.pipe
        proc := r.procs s.proc me (.read n) late
        returned := s.returned ++ r.ending.result (.read n · r.moved) }

/-- `pipeclose`. -/
def pipeclose (s : Sys π) (writable : Bool) : Except Fault (Sys π) :=
  if writable then
    if s.pipe.writeopen = false ∨ ∃ q, (s.proc q).op.writes = true then .error .disabled
    else .ok { s with
      pipe := { s.pipe with writeopen := false }
      proc := wakeup .nread s.proc }
  else
    if s.pipe.readopen = false ∨ ∃ q, (s.proc q).op.reads = true then .error .disabled
    else .ok { s with
      pipe := { s.pipe with readopen := false }
      proc := wakeup .nwrite s.proc }

def step (s : Sys π) : Step π → Except Fault (Sys π)
  | .write me n addr =>
    if (s.proc me).op ≠ .idle ∨ s.pipe.writeopen = false then .error .disabled
    else
      let src := (List.range n.toNat).map addr
      .ok { s with
        proc := Function.update s.proc me { s.proc me with op := .write s.calls.length n src }
        calls := s.calls ++ [(n, src)] }
  | .read me n =>
    if (s.proc me).op ≠ .idle ∨ s.pipe.readopen = false then .error .disabled
    else .ok { s with proc := Function.update s.proc me { s.proc me with op := .read n } }
  | .run me late => stretch s me late
  | .kill who =>
    .ok { s with proc := Function.update s.proc who { s.proc who with killed := true, chan := none } }
  | .close writable => pipeclose s writable

end

/-! ## What a stretch does -/

/-- The number of bytes in the pipe. -/
def used (p : Pipe) : Nat := (p.nwrite - p.nread).toNat

section
variable {p : Pipe}

theorem full_iff : p.nwrite = p.nread + UInt32.ofNat PIPESIZE ↔ p.used = PIPESIZE := by
  have h512 : (UInt32.ofNat PIPESIZE).toNat = 512 := rfl
  rw [← UInt32.toNat_inj, UInt32.toNat_add, h512, used, UInt32.toNat_sub, PIPESIZE]
  have := p.nwrite.toNat_lt
  have := p.nread.toNat_lt
  omega

theorem empty_iff : p.nread = p.nwrite ↔ p.used = 0 := by
  rw [← UInt32.toNat_inj, used, UInt32.toNat_sub]
  have := p.nwrite.toNat_lt
  have := p.nread.toNat_lt
  omega

theorem used_put (h : p.used < PIPESIZE) (c : UInt8) : (p.put c).used = p.used + 1 := by
  have h1 : (1 : UInt32).toNat = 1 := rfl
  simp only [used, PIPESIZE, put] at h ⊢
  rw [UInt32.toNat_sub] at h
  rw [UInt32.toNat_sub, UInt32.toNat_sub, UInt32.toNat_add]
  omega

theorem writeLoop_spec (n : Int) (killed : Bool) (h : p.used ≤ PIPESIZE) (rest : List UInt8) :
    let r := writeLoop n killed p rest
    r.moved = rest.take (PIPESIZE - p.used) ∧ r.rest = rest.drop (PIPESIZE - p.used) ∧
    r.pipe = r.moved.foldl put p ∧ r.pipe.used = p.used + r.moved.length ∧
    (if rest.length ≤ PIPESIZE - p.used then r.wakes = [.nread] ∧ r.ending = .returns n
      else if p.readopen = false ∨ killed = true then r.wakes = [] ∧ r.ending = .returns (-1)
      else r.wakes = [.nread] ∧ r.ending = .sleeps .nwrite) := by
  induction rest generalizing p with
  | nil => simp [writeLoop]
  | cons c rest ih =>
    rw [writeLoop]
    by_cases hfull : p.nwrite = p.nread + UInt32.ofNat PIPESIZE
    · have hused := full_iff.mp hfull
      simp only [if_pos hfull]
      by_cases hstop : p.readopen = false ∨ killed = true
      · simp [if_pos hstop, hused]
      · simp [if_neg hstop, hused]
    · have hlt : p.used < PIPESIZE := Nat.lt_of_le_of_ne h (mt full_iff.mpr hfull)
      obtain ⟨hm, hr, hp, hu, he⟩ := ih (p := p.put c) (by rw [used_put hlt]; exact hlt)
      rw [used_put hlt] at hm hr hu he
      have hsub : PIPESIZE - p.used = PIPESIZE - (p.used + 1) + 1 := by omega
      simp only [if_neg hfull]
      rw [hsub]
      refine ⟨by rw [hm, List.take_succ_cons], by rw [hr, List.drop_succ_cons], hp, ?_, ?_⟩
      · rw [List.length_cons]
        omega
      · simp only [List.length_cons, Nat.succ_le_succ_iff]
        exact he

theorem readopen_foldl_put (bytes : List UInt8) :
    (bytes.foldl put p).readopen = p.readopen ∧ (bytes.foldl put p).writeopen = p.writeopen ∧
      (bytes.foldl put p).nread = p.nread := by
  induction bytes generalizing p with
  | nil => exact ⟨rfl, rfl, rfl⟩
  | cons c bytes ih => exact ih (p := p.put c)

end

end Pipe

end Xv6
