import Xv6.Lib.Run

/-!
# Spin-locks

`spinlock.c` on any number of CPUs. A step is one access to a lock, or one instruction on the flag
`FL_IF` with what follows on that CPU alone. While the flag is set an interrupt may come between any
two instructions; its handler is one more activation on the CPU. The fields `holder` and `held` are a
record of who has what, and no step depends on them.
-/

namespace Xv6.Spinlock

open Function

/-- The callers of `holding`. -/
inductive Caller | acquire | release

/-- Where a CPU is. -/
inductive Pc (L : Type)
  /-- In none of the functions. -/
  | out
  /-- In `pushcli`, before `cli()`, with the flag that was read. -/
  | pushcli (eflags : Bool) (lk : L)
  /-- In `holding`, before it reads `locked`. -/
  | locked (f : Caller) (lk : L)
  /-- In `holding`, before it reads `cpu`. -/
  | cpu (f : Caller) (lk : L)
  | xchg (lk : L)
  /-- In `acquire`, before `lk->cpu = cpu`. -/
  | record (lk : L)
  /-- In `release`, before `lk->cpu = 0`. -/
  | forget (lk : L)
  /-- In `release`, before `movl $0`. -/
  | clear (lk : L)
  | popcli

/-- `struct spinlock`, without `name` and `pcs`. -/
structure Lock (K : Type) where
  locked : Bool
  cpu : Option K
  holder : Option K

structure Cpu (L : Type) where
  ncli : Int
  intena : Bool
  /-- `FL_IF` in the flags of the CPU. -/
  flag : Bool
  pc : Pc L
  /-- Where the interrupted activations are, the latest first. -/
  frames : List (Pc L)
  held : List L

structure Sys (L K : Type) where
  cpu : K → Cpu L
  lock : L → Lock K

variable {L K : Type}

/-- After `initlock`, with the interrupts of all CPUs off. -/
def initlock : Sys L K :=
  ⟨fun _ => ⟨0, false, false, .out, [], []⟩, fun _ => ⟨false, none, none⟩⟩

section
variable [DecidableEq L] [DecidableEq K]

def Sys.set (s : Sys L K) (c : K) (p : Cpu L) : Sys L K := { s with cpu := update s.cpu c p }

def Sys.setLock (s : Sys L K) (lk : L) (l : Lock K) : Sys L K :=
  { s with lock := update s.lock lk l }

def Sys.goto (s : Sys L K) (c : K) (pc : Pc L) : Sys L K := s.set c { s.cpu c with pc }

/-- What the caller does with the result of `holding(lk)`. -/
def Caller.tested (lk : L) : Caller → Bool → Except Fault (Pc L)
  | .acquire, true => .error (.panic "acquire")
  | .acquire, false => .ok (.xchg lk)
  | .release, true => .ok (.forget lk)
  | .release, false => .error (.panic "release")

/-- The next instruction of CPU `c` in one of the functions. -/
def next (s : Sys L K) (c : K) : Except Fault (Sys L K) :=
  let p := s.cpu c
  match p.pc with
  | .out => .error .disabled
  | .pushcli eflags lk =>
    .ok (s.set c { p with
      flag := false, intena := if p.ncli = 0 then eflags else p.intena, ncli := p.ncli + 1
      pc := .locked .acquire lk })
  | .popcli =>
    if p.flag then .error (.panic "popcli - interruptible")
    else if p.ncli - 1 < 0 then .error (.panic "popcli")
    else .ok (s.set c
      { p with pc := .out, ncli := p.ncli - 1, flag := decide (p.ncli - 1 = 0) && p.intena })
  | .locked f lk =>
    if (s.lock lk).locked then .ok (s.goto c (.cpu f lk)) else (f.tested lk false).map (s.goto c)
  | .cpu f lk => (f.tested lk ((s.lock lk).cpu = some c)).map (s.goto c)
  | .xchg lk =>
    if (s.lock lk).locked then .ok s
    else .ok ((s.setLock lk { s.lock lk with locked := true, holder := some c }).set c
      { p with pc := .record lk, held := lk :: p.held })
  | .record lk => .ok ((s.setLock lk { s.lock lk with cpu := some c }).set c { p with pc := .out })
  | .forget lk =>
    .ok ((s.setLock lk { s.lock lk with cpu := none }).set c { p with pc := .clear lk })
  | .clear lk =>
    .ok ((s.setLock lk { s.lock lk with locked := false, holder := none }).set c
      { p with pc := .popcli, held := p.held.erase lk })

inductive Act (L : Type)
  /-- The call, up to `readeflags()`. -/
  | acquire (lk : L)
  | release (lk : L)
  | next
  /-- `sti()` or `cli()` elsewhere. -/
  | flag (b : Bool)
  | interrupt
  | iret
  /-- The switch in `sched`, to a process with these activations and its own `intena`. -/
  | swtch (frames : List (Pc L)) (intena : Bool)

def step (ptable : L) (s : Sys L K) : K × Act L → Except Fault (Sys L K)
  | (c, a) =>
    let p := s.cpu c
    match p.pc, a, p.frames with
    | _, .next, _ => next s c
    | pc, .interrupt, frames =>
      if p.flag then .ok (s.set c { p with flag := false, pc := .out, frames := pc :: frames })
      else .error .disabled
    | .out, .acquire lk, _ => .ok (s.goto c (.pushcli p.flag lk))
    | .out, .release lk, _ => .ok (s.goto c (.locked .release lk))
    | .out, .flag b, _ => .ok (s.set c { p with flag := b })
    | .out, .iret, pc :: frames => .ok (s.set c { p with flag := true, pc, frames })
    | .out, .swtch frames intena, _ =>
      -- `sched` panics otherwise
      if (s.lock ptable).cpu = some c ∧ p.ncli = 1 ∧ ¬p.flag then
        .ok (s.set c { p with frames, intena })
      else .error .disabled
    | _, _, _ => .error .disabled

end

/-! ## The invariant -/

namespace Pc

/-- A call of `pushcli` is open for a lock that the CPU does not have. -/
@[grind] def extra : Pc L → Nat
  | .locked .acquire _ | .cpu .acquire _ | .xchg _ | .popcli => 1
  | _ => 0

/-- The lock that the CPU has, but that does not name the CPU. -/
@[grind] def unnamed : Pc L → Option L
  | .record lk | .clear lk => some lk
  | _ => none

/-- What a CPU here knows of its flag and of the locks it has. -/
@[grind] def Fits (held : List L) (flag : Bool) : Pc L → Prop
  | .pushcli eflags _ => eflags = flag
  | .xchg lk => lk ∉ held
  | .record lk | .forget lk | .clear lk => lk ∈ held
  | _ => True

/-- Where an activation can have been interrupted. -/
@[grind] def Resumable (pc : Pc L) : Prop := pc.extra = 0 ∧ pc.Fits [] true

end Pc

/-- What the rest of the kernel keeps to: interrupts go on, and a handler ends, with no call of
`pushcli` open; and the activations that `sched` goes on with were interrupted. -/
def Disciplined (s : Sys L K) : K × Act L → Prop
  | (c, .flag true) | (c, .iret) => (s.cpu c).ncli = 0
  | (_, .swtch frames _) => ∀ f ∈ frames, f.Resumable
  | _ => True

/-- What holds on a CPU. Its interrupts are off while a call of `pushcli` is open. -/
@[grind] structure Cpu.Ok (p : Cpu L) : Prop where
  ncli : p.ncli = p.held.length + p.pc.extra
  off : p.flag = true → p.ncli = 0
  nodup : p.held.Nodup
  fits : p.pc.Fits p.held p.flag
  frames : ∀ f ∈ p.frames, f.Resumable

/-- A CPU and a lock agree on who has the lock, and who has it by name. -/
@[grind] structure Agree (c : K) (p : Cpu L) (lk : L) (l : Lock K) : Prop where
  held : lk ∈ p.held ↔ l.holder = some c
  named : l.cpu = some c ↔ l.holder = some c ∧ p.pc.unnamed ≠ some lk

@[grind] def Lock.Ok (l : Lock K) : Prop := l.locked = false ↔ l.holder = none

structure Inv (s : Sys L K) : Prop where
  cpu : ∀ c, (s.cpu c).Ok
  lock : ∀ lk, (s.lock lk).Ok
  agree : ∀ c lk, Agree c (s.cpu c) lk (s.lock lk)

variable {s s' : Sys L K} {c : K} {lk : L} {p : Cpu L} {l : Lock K}

theorem Cpu.Ok.idle (h : p.Ok) (hncli : p.ncli = 0) : p.held = [] ∧ p.pc.extra = 0 := by
  have := h.ncli
  rw [← List.length_eq_zero_iff]
  omega

theorem Pc.Fits.unnamed {pc : Pc L} {flag : Bool} (h : pc.Fits [] flag) : pc.unnamed = none := by
  cases pc <;> first | rfl | cases h

variable [DecidableEq K]

/-- A step on one CPU alone. -/
theorem Inv.set (h : Inv s) (hp : p.Ok) (hheld : p.held = (s.cpu c).held)
    (hpc : p.pc.unnamed = (s.cpu c).pc.unnamed) : Inv (s.set c p) := by
  refine ⟨(forall_update_iff _ _).mpr ⟨hp, fun d _ => h.cpu d⟩, h.lock, ?_⟩
  refine (forall_update_iff _ fun d q => ∀ x, Agree d q x (s.lock x)).mpr
    ⟨fun x => ⟨?_, ?_⟩, fun d _ => h.agree d⟩
  · rw [hheld, (h.agree c x).held]
  · rw [hpc, (h.agree c x).named]

variable [DecidableEq L]

/-- A step on a CPU and on a lock that no other CPU has. -/
theorem Inv.change (h : Inv s) (hp : p.Ok) (hl : l.Ok) (hlk : Agree c p lk l)
    (hme : ∀ x, x ≠ lk → Agree c p x (s.lock x)) (hothers : ∀ d, d ≠ c → Agree d (s.cpu d) lk l) :
    Inv ((s.setLock lk l).set c p) := by
  refine ⟨(forall_update_iff _ _).mpr ⟨hp, fun d _ => h.cpu d⟩,
    (forall_update_iff _ fun _ => Lock.Ok).mpr ⟨hl, fun x _ => h.lock x⟩, ?_⟩
  refine (forall_update_iff _ fun d q => ∀ x, Agree d q x ((s.setLock lk l).lock x)).mpr
    ⟨(forall_update_iff _ _).mpr ⟨hlk, hme⟩,
      fun d hd => (forall_update_iff _ _).mpr ⟨hothers d hd, fun x _ => h.agree d x⟩⟩

/-- `acquire` of a lock that the CPU has, or `release` of one that it does not have. -/
def Wrong (p : Cpu L) (msg : String) : Prop :=
  (∃ lk ∈ p.held, p.pc = .cpu .acquire lk ∧ msg = "acquire") ∨
  ∃ lk, lk ∉ p.held ∧ (p.pc = .locked .release lk ∨ p.pc = .cpu .release lk) ∧ msg = "release"

/-- What may come of a step of the CPU `p`. -/
def Sound (p : Cpu L) : Except Fault (Sys L K) → Prop
  | .ok s => Inv s
  | .error .disabled => True
  | .error (.panic msg) => Wrong p msg

theorem Inv.next (h : Inv s) : Sound (s.cpu c) (next s c) := by
  have hc := h.cpu c
  have hme := h.agree c
  unfold Spinlock.next
  dsimp only
  split
  next => trivial
  next hpc => exact h.set (by grind -linarith) rfl (by rw [hpc]; rfl)
  next hpc =>
    rw [if_neg (by grind -linarith), if_neg (by grind -ring -linarith)]
    refine h.set ⟨by grind -linarith, fun hflag => ?_, hc.nodup, trivial, hc.frames⟩ rfl (by rw [hpc]; rfl)
    exact of_decide_eq_true (Bool.and_eq_true_iff.mp hflag).1
  next f lk hpc =>
    have hl := h.lock lk
    split
    next => exact h.set (by cases f <;> grind -linarith) rfl (by rw [hpc]; rfl)
    next =>
      cases f with
      | acquire => exact h.set (by grind -linarith) rfl (by rw [hpc]; rfl)
      | release => exact .inr ⟨lk, by grind -linarith, .inl hpc, rfl⟩
  next f lk hpc =>
    cases hcpu : decide ((s.lock lk).cpu = some c) <;> cases f
    · exact h.set (by grind -linarith) rfl (by rw [hpc]; rfl)
    · exact .inr ⟨lk, by grind -linarith, .inr hpc, rfl⟩
    · exact .inl ⟨lk, by grind -linarith, hpc, rfl⟩
    · exact h.set (by grind -linarith) rfl (by rw [hpc]; rfl)
  next lk hpc =>
    have hl := h.lock lk
    split
    next => exact h
    next =>
      refine h.change ?_ ?_ ?_ ?_ fun d hd => ?_
      on_goal 5 => obtain ⟨hheld, hnamed⟩ := h.agree d lk; constructor
      all_goals grind -linarith
  all_goals
    rename_i lk hpc
    have hl := h.lock lk
    have hlk := fun d => h.agree d lk
    refine h.change ?_ ?_ ?_ ?_ ?_ <;> grind -linarith

theorem Inv.step (ptable : L) {a : Act L} (h : Inv s) (hd : Disciplined s (c, a)) :
    Sound (s.cpu c) (step ptable s (c, a)) := by
  have hc := h.cpu c
  have hfits := hc.fits
  unfold Spinlock.step
  dsimp only
  split
  next => exact h.next
  next =>
    split
    next hflag =>
      obtain ⟨hnone, hextra⟩ := hc.idle (hc.off hflag)
      rw [hnone, hflag] at hfits
      refine h.set ⟨by grind -linarith, nofun, hc.nodup, trivial, ?_⟩ rfl hfits.unnamed.symm
      exact List.forall_mem_cons.mpr ⟨⟨hextra, hfits⟩, hc.frames⟩
    next => trivial
  next hpc => exact h.set (by grind -linarith) rfl (by rw [hpc]; rfl)
  next hpc => exact h.set (by grind -linarith) rfl (by rw [hpc]; rfl)
  next hpc =>
    refine h.set ⟨hc.ncli, fun hflag => ?_, hc.nodup, by grind -linarith, hc.frames⟩ rfl rfl
    cases hflag
    exact hd
  next f frames hpc hframes =>
    have hall := hc.frames
    rw [hframes, List.forall_mem_cons] at hall
    have hnone := (hc.idle hd).1
    refine h.set ⟨by grind -linarith, fun _ => hd, hc.nodup, by grind, hall.2⟩ rfl ?_
    rw [hall.1.2.unnamed, hpc]
    rfl
  next =>
    split
    next => exact h.set ⟨hc.ncli, hc.off, hc.nodup, hfits, hd⟩ rfl rfl
    next => trivial
  next => trivial

theorem inv_of_run {ptable : L} (h : Run (step ptable) Disciplined initlock s) : Inv s := by
  refine h.invariant ⟨fun _ => ⟨rfl, nofun, .nil, trivial, nofun⟩, fun _ => iff_of_true rfl rfl,
    fun _ _ => ⟨by simp [initlock], by simp [initlock]⟩⟩ fun {t a u} hinv hd hs => ?_
  have hsound := hinv.step ptable hd
  rwa [hs] at hsound

/-- **Spin-locks.** In every run, one CPU at most has a lock; a CPU that has a lock, or spins for one, has
its interrupts off, and does not spin for a lock that it has; the flag that `pushcli` saves is the one
that it clears; `holding` is right on a CPU that is in none of the functions; and only a wrong call
panics. -/
theorem spinlock_safe (ptable : L) (s : Sys L K) (hrun : Run (step ptable) Disciplined initlock s) :
    (∀ c d lk, lk ∈ (s.cpu c).held → lk ∈ (s.cpu d).held → c = d) ∧
    (∀ c, (s.cpu c).held ≠ [] → (s.cpu c).flag = false) ∧
    (∀ c lk, (s.cpu c).pc = .xchg lk → (s.cpu c).flag = false ∧ lk ∉ (s.cpu c).held) ∧
    (∀ c eflags lk, (s.cpu c).pc = .pushcli eflags lk → eflags = (s.cpu c).flag) ∧
    (∀ c lk, (s.cpu c).pc = .out →
      ((s.lock lk).locked ∧ (s.lock lk).cpu = some c ↔ lk ∈ (s.cpu c).held)) ∧
    ∀ c a msg, Disciplined s (c, a) → step ptable s (c, a) = .error (.panic msg) →
      Wrong (s.cpu c) msg := by
  have h := inv_of_run hrun
  refine ⟨fun c d lk hc hd => ?_, fun c hne => ?_, fun c lk hpc => ?_, fun c eflags lk hpc => ?_,
    fun c lk hpc => ?_, fun c a msg hd hs => ?_⟩
  · exact Option.some.inj (((h.agree c lk).held.mp hc).symm.trans ((h.agree d lk).held.mp hd))
  · exact Bool.eq_false_iff.mpr fun hflag => hne ((h.cpu c).idle ((h.cpu c).off hflag)).1
  · have hc := h.cpu c
    grind -linarith
  · have hfits := (h.cpu c).fits
    rwa [hpc] at hfits
  · have hl := h.lock lk
    have hme := h.agree c lk
    grind -linarith
  · have hsound := h.step ptable hd
    rwa [hs] at hsound

theorem spinlock_safe_taken : ∃ s : Sys Unit Bool, Run (step ()) Disciplined initlock s ∧
    (s.cpu false).held = [()] ∧ (s.cpu false).flag = false := by
  have hrun : Run (step ()) Disciplined initlock (initlock : Sys Unit Bool) := .refl
  replace hrun := hrun.tail (a := (false, Act.acquire ())) trivial rfl
  replace hrun := hrun.tail (a := (false, Act.next)) trivial rfl
  replace hrun := hrun.tail (a := (false, Act.next)) trivial rfl
  replace hrun := hrun.tail (a := (false, Act.next)) trivial rfl
  exact ⟨_, hrun, rfl, (spinlock_safe () _ hrun).2.1 false (List.cons_ne_nil _ _)⟩

end Xv6.Spinlock
