import Xv6.Console.Input
import Xv6.Pipe.Steps

/-!
# Killed processes in wait loops

`piperead`, `pipewrite`, `consoleread` and `sys_sleep` test `proc->killed` and then call `sleep`, all
under a lock of their own; `kill` sets the flag under `ptable.lock`, which `sleep` takes later. A
step is a stretch under one of the locks. A call runs from taking its lock up to the last test; what
it does then, each `wakeup` and the part of `sleep` that makes the process SLEEPING, are steps of
their own under `ptable.lock`, with its lock still held.

`kill` wakes only a process that is SLEEPING. If it comes between the test and the `sleep`, it finds
the process RUNNING, and the process goes to sleep with the flag set. Runs in which no `kill` comes
there are `Timely`, and in these no process that sleeps in one of the loops is killed.
-/

namespace Xv6.WaitLoop

/-- The locks of pipe `i`, of the console input, and `tickslock`. -/
inductive Lock (ι : Type)
  | pipe (i : ι)
  | input
  | ticks
  deriving DecidableEq

inductive Chan (ι : Type)
  /-- `&p->nread` or `&p->nwrite` of pipe `i` -/
  | pipe (i : ι) (c : Pipe.Chan)
  /-- `&input.r` -/
  | input
  /-- `&ticks` -/
  | ticks
  deriving DecidableEq

inductive Call (ι : Type)
  /-- With `n` bytes at `addr`. -/
  | pipewrite (i : ι) (n : Int) (addr : Nat → UInt8)
  | piperead (i : ι) (n : Int)
  | consoleread (n : Nat)
  | sleep (n : Int)

/-- The call that a process is in, as far as it has come. -/
inductive Op (ι : Type)
  | idle
  | pipewrite (i : ι) (n : Int) (rest : List UInt8)
  | piperead (i : ι) (n : Int)
  | consoleread (target n : Nat)
  /-- `ticks0` is set once the call has taken the lock. -/
  | sleep (n : Int) (ticks0 : Option UInt32)

inductive Ending (ι : Type)
  | returns (r : Int)
  | sleeps (chan : Chan ι)

inductive Pc (ι : Type)
  /-- Before it takes the lock of its call, or in none. -/
  | ready
  /-- It holds the lock and is past the last test of `proc->killed`, with these calls of `wakeup` to
  make before the end. -/
  | tested (l : Lock ι) (wakes : List (Chan ι)) (ending : Ending ι)
  /-- SLEEPING -/
  | asleep (chan : Chan ι)

structure Proc (ι : Type) where
  op : Op ι
  pc : Pc ι
  killed : Bool

structure Sys (ι π : Type) where
  pipe : ι → Pipe
  input : Console.Input
  ticks : UInt32
  locked : Lock ι → Bool
  proc : π → Proc ι

def Op.ofCall : Call ι → Op ι
  | .pipewrite i n addr => .pipewrite i n ((List.range n.toNat).map addr)
  | .piperead i n => .piperead i n
  | .consoleread n => .consoleread n n
  | .sleep n => .sleep n none

/-! ## Stretches -/

def Ending.ofPipe (i : ι) : Pipe.Ending → Ending ι
  | .returns r => .returns r
  | .sleeps c => .sleeps (.pipe i c)

def Ending.ofConsole : Console.Ending → Ending ι
  | .returns r => .returns r
  | .sleeps _ => .sleeps .input

/-- What is left to read when a stretch of `consoleread` ends. -/
def left : Console.Ending → Nat
  | .returns _ => 0
  | .sleeps n => n

/-- The loop of `sys_sleep`, up to the last test. `n` is converted to an `uint`. -/
def sleepStretch (ticks ticks0 : UInt32) (n : Int) (killed : Bool) : Ending ι :=
  if ticks - ticks0 < UInt32.ofInt n then if killed then .returns (-1) else .sleeps .ticks
  else .returns 0

section
variable {ι π : Type} [DecidableEq ι] [DecidableEq π]

/-- `me` takes lock `l` and comes to the end of its tests. -/
def Sys.take (s : Sys ι π) (me : π) (l : Lock ι) (op : Op ι) (wakes : List (Chan ι))
    (e : Ending ι) : Except Fault (Sys ι π) :=
  if s.locked l then .error .disabled
  else .ok { s with
    locked := Function.update s.locked l true
    proc := Function.update s.proc me { s.proc me with op, pc := .tested l wakes e } }

/-- The call of `me` from taking its lock up to the last test. -/
def stretch (s : Sys ι π) (me : π) : Except Fault (Sys ι π) :=
  let killed := (s.proc me).killed
  match (s.proc me).op with
  | .idle => .error .disabled
  | .pipewrite i n rest =>
    let r := Pipe.writeLoop n killed (s.pipe i) rest
    { s with pipe := Function.update s.pipe i r.pipe }.take me (.pipe i) (.pipewrite i n r.rest)
      (r.wakes.map (.pipe i)) (.ofPipe i r.ending)
  | .piperead i n =>
    let r := Pipe.readStretch n killed (s.pipe i)
    { s with pipe := Function.update s.pipe i r.pipe }.take me (.pipe i) (.piperead i n)
      (r.wakes.map (.pipe i)) (.ofPipe i r.ending)
  | .consoleread target n =>
    let r := Console.readLoop killed target n s.input
    { s with input := r.input }.take me .input (.consoleread target (left r.ending)) []
      (.ofConsole r.ending)
  | .sleep n ticks0 =>
    let ticks0 := ticks0.getD s.ticks
    s.take me .ticks (.sleep n (some ticks0)) [] (sleepStretch s.ticks ticks0 n killed)

def wakeup (chan : Chan ι) (proc : π → Proc ι) : π → Proc ι := fun q =>
  match (proc q).pc with
  | .asleep c => if c = chan then { proc q with pc := .ready } else proc q
  | _ => proc q

inductive Step (ι π : Type)
  /-- `me`, which is in no call, starts one. -/
  | call (me : π) (c : Call ι)
  | lock (me : π)
  | wake (me : π)
  /-- The return, or the part of `sleep` up to the switch to the scheduler. -/
  | finish (me : π)
  | kill (who : π)
  | pipeclose (i : ι) (writable : Bool)
  | consoleintr (cs : List UInt8)
  | tick

def step (s : Sys ι π) : Step ι π → Except Fault (Sys ι π)
  | .call me c =>
    match (s.proc me).op with
    | .idle => .ok { s with proc := Function.update s.proc me { s.proc me with op := .ofCall c } }
    | _ => .error .disabled
  | .lock me =>
    match (s.proc me).pc with
    | .ready => stretch s me
    | _ => .error .disabled
  | .wake me =>
    match (s.proc me).pc with
    | .tested l (c :: wakes) e =>
      let s' := { s with proc := wakeup c s.proc }
      .ok { s' with proc := Function.update s'.proc me { s'.proc me with pc := .tested l wakes e } }
    | _ => .error .disabled
  | .finish me =>
    match (s.proc me).pc with
    | .tested l [] e =>
      let p := match e with
        | .returns _ => { s.proc me with op := .idle, pc := .ready }
        | .sleeps c => { s.proc me with pc := .asleep c }
      .ok { s with
        locked := Function.update s.locked l false
        proc := Function.update s.proc me p }
    | _ => .error .disabled
  | .kill who =>
    let pc := match (s.proc who).pc with
      | .asleep _ => .ready
      | pc => pc
    .ok { s with proc := Function.update s.proc who { s.proc who with killed := true, pc } }
  | .pipeclose i writable =>
    if s.locked (.pipe i) then .error .disabled
    else
      let p := s.pipe i
      .ok { s with
        pipe := Function.update s.pipe i
          (if writable then { p with writeopen := false } else { p with readopen := false })
        proc := wakeup (.pipe i (if writable then .nread else .nwrite)) s.proc }
  | .consoleintr cs =>
    if s.locked .input then .error .disabled
    else
      let (i, wakes) := Console.consoleintr s.input cs
      .ok { s with input := i, proc := if wakes then wakeup .input s.proc else s.proc }
  | .tick =>
    if s.locked .ticks then .error .disabled
    else .ok { s with ticks := s.ticks + 1, proc := wakeup .ticks s.proc }

/-- No process is in one of the calls; any may have been killed. -/
def start (pipe : ι → Pipe) (input : Console.Input) (ticks : UInt32) (killed : π → Bool) :
    Sys ι π where
  pipe := pipe
  input := input
  ticks := ticks
  locked := fun _ => false
  proc := fun q => ⟨.idle, .ready, killed q⟩

/-- No process is killed between the last test and the `sleep`. -/
def Timely (s : Sys ι π) : Step ι π → Prop
  | .kill who => ∀ l wakes c, (s.proc who).pc ≠ .tested l wakes (.sleeps c)
  | _ => True

/-! ## The tests -/

omit [DecidableEq ι] in
theorem writeLoop_sleeps {n : Int} {killed : Bool} {p : Pipe} {rest : List UInt8} {c : Pipe.Chan}
    (h : (Pipe.writeLoop n killed p rest).ending = .sleeps c) : killed = false := by
  induction rest generalizing p with
  | nil => cases h
  | cons b rest ih =>
    rw [Pipe.writeLoop] at h
    split at h
    · split at h
      · cases h
      next hstop => exact (Bool.not_eq_true _).mp fun hk => hstop (.inr hk)
    · exact ih h

theorem readStretch_sleeps {n : Int} {killed : Bool} {p : Pipe} {c : Pipe.Chan}
    (h : (Pipe.readStretch n killed p).ending = .sleeps c) : killed = false := by
  unfold Pipe.readStretch at h
  split at h
  · split at h
    · cases h
    next hk => exact (Bool.not_eq_true _).mp hk
  · cases h

theorem readLoop_sleeps {killed : Bool} {target n m : Nat} {i : Console.Input}
    (h : (Console.readLoop killed target n i).ending = .sleeps m) : killed = false := by
  induction n generalizing i with
  | zero => cases h
  | succ n ih =>
    rw [Console.readLoop] at h
    split at h
    · split at h
      · cases h
      next hk => exact (Bool.not_eq_true _).mp hk
    dsimp only at h
    split at h
    · split at h <;> cases h
    split at h
    · cases h
    · exact ih h

omit [DecidableEq ι] in
theorem sleepStretch_sleeps {ticks ticks0 : UInt32} {n : Int} {killed : Bool} {c : Chan ι}
    (h : sleepStretch ticks ticks0 n killed = .sleeps c) : killed = false := by
  unfold sleepStretch at h
  split at h
  · split at h
    · cases h
    next hk => exact (Bool.not_eq_true _).mp hk
  · cases h

/-! ## Runs -/

/-- The process sleeps or is about to. -/
def Pc.Dozing : Pc ι → Prop
  | .tested _ _ (.sleeps _) | .asleep _ => True
  | _ => False

/-- No process that sleeps, or is about to, has been killed. -/
def Alert (s : Sys ι π) : Prop := ∀ p, (s.proc p).pc.Dozing → (s.proc p).killed = false

variable {s t : Sys ι π} {me : π}

omit [DecidableEq ι] in
theorem Alert.update (h : ∀ q ≠ me, (s.proc q).pc.Dozing → (s.proc q).killed = false) {p : Proc ι}
    (hp : p.pc.Dozing → p.killed = false) (ht : t.proc = Function.update s.proc me p) :
    Alert t := by
  intro q hq
  rw [ht] at hq ⊢
  by_cases hqm : q = me
  · rw [hqm, Function.update_self] at hq ⊢
    exact hp hq
  · rw [Function.update_of_ne hqm] at hq ⊢
    exact h q hqm hq

omit [DecidableEq π] in
theorem Alert.wakeup (h : Alert s) {c : Chan ι} (ht : t.proc = wakeup c s.proc) : Alert t := by
  intro q hq
  have hsame : (t.proc q).killed = (s.proc q).killed ∧
      ((t.proc q).pc.Dozing → (s.proc q).pc.Dozing) := by
    rw [ht, WaitLoop.wakeup]
    split
    · split
      · exact ⟨rfl, fun h => h.elim⟩
      · exact ⟨rfl, id⟩
    · exact ⟨rfl, id⟩
  rw [hsame.1]
  exact h q (hsame.2 hq)

/-- A call that is about to sleep has tested the flag. -/
theorem Alert.take {s' : Sys ι π} (h : Alert s) {l : Lock ι} {op : Op ι} {wakes : List (Chan ι)}
    {e : Ending ι} (hs : s'.take me l op wakes e = .ok t) (hproc : s'.proc = s.proc)
    (he : ∀ c, e = .sleeps c → (s.proc me).killed = false) : Alert t := by
  unfold Sys.take at hs
  split at hs
  · cases hs
  cases hs
  rw [hproc]
  refine Alert.update (fun q _ => h q) (fun hd => ?_) rfl
  cases e with
  | returns r => exact hd.elim
  | sleeps c => exact he c rfl

theorem Alert.stretch (h : Alert s) (hs : stretch s me = .ok t) : Alert t := by
  unfold WaitLoop.stretch at hs
  split at hs
  · cases hs
  · refine h.take hs rfl fun c he => ?_
    cases hr : (Pipe.writeLoop _ (s.proc me).killed _ _).ending with
    | returns r => rw [hr] at he; cases he
    | sleeps c => exact writeLoop_sleeps hr
  · refine h.take hs rfl fun c he => ?_
    cases hr : (Pipe.readStretch _ (s.proc me).killed _).ending with
    | returns r => rw [hr] at he; cases he
    | sleeps c => exact readStretch_sleeps hr
  · refine h.take hs rfl fun c he => ?_
    cases hr : (Console.readLoop (s.proc me).killed _ _ _).ending with
    | returns r => rw [hr] at he; cases he
    | sleeps c => exact readLoop_sleeps hr
  · exact h.take hs rfl fun c he => sleepStretch_sleeps he

theorem Alert.step {a : Step ι π} (h : Alert s) (ha : Timely s a) (hs : step s a = .ok t) :
    Alert t := by
  cases a with
  | call me c =>
    simp only [WaitLoop.step] at hs
    split at hs
    · cases hs
      exact Alert.update (p := { s.proc me with op := .ofCall c }) (fun q _ => h q) (h me) rfl
    · cases hs
  | lock me =>
    simp only [WaitLoop.step] at hs
    split at hs
    · exact h.stretch hs
    · cases hs
  | wake me =>
    simp only [WaitLoop.step] at hs
    split at hs
    next l c wakes e hpc =>
      cases hs
      have hw : Alert { s with proc := WaitLoop.wakeup c s.proc } := h.wakeup rfl
      have hme : WaitLoop.wakeup c s.proc me = s.proc me := by
        rw [WaitLoop.wakeup, hpc]
      refine Alert.update (s := { s with proc := WaitLoop.wakeup c s.proc }) (fun q _ => hw q)
        (fun hd => ?_) rfl
      rw [hme]
      refine h me ?_
      rw [hpc]
      cases e with
      | returns r => exact hd
      | sleeps c' => exact trivial
    · cases hs
  | finish me =>
    simp only [WaitLoop.step] at hs
    split at hs
    next l e hpc =>
      cases hs
      refine Alert.update (fun q _ => h q) (fun hd => ?_) rfl
      cases e with
      | returns r => exact hd.elim
      | sleeps c =>
        refine h me ?_
        rw [hpc]
        exact trivial
    · cases hs
  | kill who =>
    cases hs
    refine Alert.update (fun q _ => h q) (fun hd => ?_) rfl
    -- whoever was asleep is awake, and no one was about to sleep
    split at hd
    · exact hd.elim
    next hpc =>
      exfalso
      cases hp : (s.proc who).pc with
      | ready => rw [hp] at hd; exact hd
      | asleep c => exact hpc c hp
      | tested l wakes e =>
        cases e with
        | returns r => rw [hp] at hd; exact hd
        | sleeps c => exact ha l wakes c hp
  | pipeclose i writable =>
    simp only [WaitLoop.step] at hs
    split at hs
    · cases hs
    · cases hs
      exact h.wakeup rfl
  | consoleintr cs =>
    simp only [WaitLoop.step] at hs
    split at hs
    · cases hs
    · cases hs
      cases hw : (Console.consoleintr s.input cs).2 with
      | true => exact h.wakeup (c := .input) (by rw [if_pos rfl])
      | false => exact h
  | tick =>
    simp only [WaitLoop.step] at hs
    split at hs
    · cases hs
    · cases hs
      exact h.wakeup rfl

/-- A process that is killed between the last test and `sleep` goes to sleep. -/
theorem killed_sleeps {l : Lock ι} {wakes : List (Chan ι)} {c : Chan ι}
    (hpc : (s.proc me).pc = .tested l wakes (.sleeps c)) (hk : (s.proc me).killed = true) :
    ∃ t, Run step (fun _ _ => True) s t ∧ (t.proc me).pc = .asleep c ∧
      (t.proc me).killed = true := by
  induction wakes generalizing s with
  | nil =>
    have hs : step s (.finish me) = .ok { s with
        locked := Function.update s.locked l false
        proc := Function.update s.proc me { s.proc me with pc := .asleep c } } := by
      simp only [step, hpc]
    refine ⟨_, Run.refl.tail trivial hs, ?_⟩
    dsimp only
    rw [Function.update_self]
    exact ⟨rfl, hk⟩
  | cons d wakes ih =>
    have hme : wakeup d s.proc me = s.proc me := by
      rw [wakeup, hpc]
    have hs : step s (.wake me) = .ok { s with
        proc := Function.update (wakeup d s.proc) me
          { s.proc me with pc := .tested l wakes (.sleeps c) } } := by
      simp only [step, hpc, hme]
    have hnext := ih (s := { s with
      proc := Function.update (wakeup d s.proc) me
        { s.proc me with pc := .tested l wakes (.sleeps c) } })
    dsimp only at hnext
    rw [Function.update_self] at hnext
    obtain ⟨t, hrun, ht⟩ := hnext rfl hk
    exact ⟨t, (Run.refl.tail trivial hs).trans hrun, ht⟩

/-- **Killed processes do not sleep.** If no `kill` comes between the last test of `proc->killed` in a
wait loop and the `sleep` there, then no process that sleeps in one of the loops is killed. And this
is what it takes: a process that is killed there can go to sleep. -/
theorem killed_not_asleep (pipe : ι → Pipe) (input : Console.Input) (ticks : UInt32)
    (killed : π → Bool) :
    (∀ s : Sys ι π, Run step Timely (start pipe input ticks killed) s →
      ∀ p c, (s.proc p).pc = .asleep c → (s.proc p).killed = false) ∧
    ∀ (s t : Sys ι π) who, ¬Timely s (.kill who) → step s (.kill who) = .ok t →
      ∃ u, Run step (fun _ _ => True) t u ∧ ∃ c, (u.proc who).pc = .asleep c ∧
        (u.proc who).killed = true := by
  refine ⟨fun s hrun p c hp => ?_, fun s t who hlate hs => ?_⟩
  · have h : Alert s := hrun.invariant (fun _ hd => hd.elim) fun h ha hs => h.step ha hs
    exact h p (by rw [hp]; exact trivial)
  · simp only [Timely, not_forall, not_not] at hlate
    obtain ⟨l, wakes, c, hpc⟩ := hlate
    simp only [step, hpc, Except.ok.injEq] at hs
    have ht : t.proc who = { s.proc who with killed := true, pc := .tested l wakes (.sleeps c) } := by
      rw [← hs]
      exact Function.update_self ..
    have hpc' : (t.proc who).pc = .tested l wakes (.sleeps c) := by rw [ht]
    obtain ⟨u, hrun, hu⟩ := killed_sleeps hpc' (by rw [ht])
    exact ⟨u, hrun, c, hu⟩

end

/-- A process that reads from an empty pipe sleeps. -/
theorem killed_not_asleep_reader :
    ∃ s : Sys Unit Unit, Run step Timely (start (fun _ => Pipe.pipealloc fun _ => 0)
        ⟨fun _ => 0, 0, 0, 0⟩ 0 fun _ => false) s ∧
      (∃ c, (s.proc ()).pc = .asleep c) ∧ (s.proc ()).killed = false := by
  have hfinish : ∀ s : Sys Unit Unit, Timely s (.finish ()) := fun _ => trivial
  have hrun : Run step Timely (start (fun _ => Pipe.pipealloc fun _ => 0)
      ⟨fun _ => 0, 0, 0, 0⟩ 0 fun _ => false : Sys Unit Unit) _ :=
    ((Run.refl.tail (a := .call () (.piperead () 1)) trivial rfl).tail (a := .lock ()) trivial
      rfl).tail (a := .finish ()) (hfinish _) rfl
  exact ⟨_, hrun, ⟨_, rfl⟩, (killed_not_asleep ..).1 _ hrun () _ rfl⟩

/-- A process reads from an empty pipe and is killed before it sleeps. -/
theorem killed_asleep_reader :
    ¬∀ s : Sys Unit Unit, Run step (fun _ _ => True) (start (fun _ => Pipe.pipealloc fun _ => 0)
        ⟨fun _ => 0, 0, 0, 0⟩ 0 fun _ => false) s →
      ∀ p c, (s.proc p).pc = .asleep c → (s.proc p).killed = false := by
  intro h
  have hrun : Run step (fun _ _ => True) (start (fun _ => Pipe.pipealloc fun _ => 0)
      ⟨fun _ => 0, 0, 0, 0⟩ 0 fun _ => false : Sys Unit Unit) _ :=
    (((Run.refl.tail (a := .call () (.piperead () 1)) trivial rfl).tail (a := .lock ()) trivial
      rfl).tail (a := .kill ()) trivial rfl).tail (a := .finish ()) trivial rfl
  exact Bool.noConfusion (h _ hrun () _ rfl)

end Xv6.WaitLoop
