import Xv6.Lib.Run

/-!
# Sleep-locks

`sleeplock.c`, with the processes that call it. A process is somewhere in `acquiresleep` or
`releasesleep`, or outside of both; its next step is taken at any time. The field `locked` is read and
written under the spin-lock only, so one process at most has the lock. `holdingsleep` returns `locked`,
whoever asks.
-/

namespace Xv6.Sleeplock

variable {π : Type}

/-- Where a process is. -/
inductive Pc
  | out
  /-- In `acquiresleep`, before it has the spin-lock. -/
  | acquire
  /-- At the condition of the loop. -/
  | test
  | sleep
  /-- In `sleep`, before it has the spin-lock again. -/
  | woken
  /-- After the loop. -/
  | set
  /-- At the end of `acquiresleep`, before it gives up the spin-lock. -/
  | taken
  /-- Between `acquiresleep` and `releasesleep`. -/
  | inside
  /-- In `releasesleep`, before it has the spin-lock. -/
  | release
  | clear
  /-- At the end of `releasesleep`, before it gives up the spin-lock. -/
  | cleared
  deriving DecidableEq

/-- `struct sleeplock`, with who has its spin-lock `lk`. -/
structure Lock (π : Type) where
  lk : Option π
  locked : UInt32
  pid : UInt32

structure Sys (π : Type) where
  lock : Lock π
  pc : π → Pc

/-- After `initsleeplock`. -/
def initsleeplock : Sys π := ⟨⟨none, 0, 0⟩, fun _ => .out⟩

def holdingsleep (lock : Lock π) : UInt32 := lock.locked

/-- `wakeup(lk)`, for a process that slept or did anything else. -/
def wakeup (pc : Pc) : Pc := if pc = .sleep then .woken else pc

section
variable [DecidableEq π] (pid : π → UInt32)

/-- `acquire(&lk->lk)`. -/
def Sys.acquire (s : Sys π) (p : π) (next : Pc) : Except Fault (Sys π) :=
  if s.lock.lk = none then
    .ok { lock := { s.lock with lk := some p }, pc := Function.update s.pc p next }
  else .error .disabled

/-- `release(&lk->lk)`. -/
def Sys.release (s : Sys π) (p : π) (next : Pc) : Sys π where
  lock := { s.lock with lk := none }
  pc := Function.update s.pc p next

/-- The next step of `p`, whose pid is `pid p`. -/
def step (s : Sys π) (p : π) : Except Fault (Sys π) :=
  match s.pc p with
  | .out => .ok { s with pc := Function.update s.pc p .acquire }
  | .acquire => s.acquire p .test
  | .test =>
    -- `sleep` gives up the spin-lock
    if s.lock.locked ≠ 0 then .ok (s.release p .sleep)
    else .ok { s with pc := Function.update s.pc p .set }
  | .sleep => .error .disabled
  | .woken => s.acquire p .test
  | .set => .ok
    { lock := { s.lock with locked := 1, pid := pid p }, pc := Function.update s.pc p .taken }
  | .taken => .ok (s.release p .inside)
  | .inside => .ok { s with pc := Function.update s.pc p .release }
  | .release => s.acquire p .clear
  | .clear => .ok
    { lock := { s.lock with locked := 0, pid := 0 }
      pc := Function.update (fun q => wakeup (s.pc q)) p .cleared }
  | .cleared => .ok (s.release p .out)

end

/-- The process has the spin-lock. -/
def Pc.spins : Pc → Bool
  | .test | .set | .taken | .clear | .cleared => true
  | .out | .acquire | .sleep | .woken | .inside | .release => false

/-- The process has the lock: it has set `locked`, and has not cleared it yet. -/
def Pc.holds : Pc → Bool
  | .taken | .inside | .release | .clear => true
  | .out | .acquire | .test | .sleep | .woken | .set | .cleared => false

def Sys.Holds (s : Sys π) (p : π) : Prop := (s.pc p).holds = true

/-! ## One holder -/

structure Inv (s : Sys π) : Prop where
  spin : ∀ p, (s.pc p).spins = true → s.lock.lk = some p
  set : ∀ p, s.pc p = .set → s.lock.locked = 0
  locked : s.lock.locked ≠ 0 ↔ ∃ p, s.Holds p
  unique : ∀ {p q}, s.Holds p → s.Holds q → p = q

theorem wakeup_spins (x : Pc) : (wakeup x).spins = x.spins := by cases x <;> rfl

theorem wakeup_holds (x : Pc) : (wakeup x).holds = x.holds := by cases x <;> rfl

theorem Inv.of_spins {s : Sys π} {p : π} (h : Inv s) (hp : (s.pc p).spins = true) {q : π} (hne : q ≠ p) :
    (s.pc q).spins = false := by
  refine Bool.eq_false_iff.mpr fun hq => hne ?_
  exact Option.some.inj ((h.spin q hq).symm.trans (h.spin p hp))

section
variable [DecidableEq π] {pid : π → UInt32} {s s' : Sys π} {p : π} {x : Pc}

theorem Inv.move (h : Inv s) {lk : Option π} (hp : x.spins = true → lk = some p)
    (hothers : ∀ q, q ≠ p → (s.pc q).spins = true → lk = some q) (hholds : x.holds = (s.pc p).holds)
    (hset : x = .set → s.lock.locked = 0) :
    Inv { lock := { s.lock with lk }, pc := Function.update s.pc p x } := by
  have hsame : ∀ q, (Function.update s.pc p x q).holds = (s.pc q).holds := by
    intro q
    rcases eq_or_ne q p with rfl | hne
    · rw [Function.update_self, hholds]
    · rw [Function.update_of_ne hne]
  refine ⟨fun q hq => ?_, fun q hq => ?_, ?_, fun {q r} hq hr => ?_⟩
  · dsimp only at hq
    rcases eq_or_ne q p with rfl | hne
    · exact hp (by rwa [Function.update_self] at hq)
    · exact hothers q hne (by rwa [Function.update_of_ne hne] at hq)
  · dsimp only at hq
    rcases eq_or_ne q p with rfl | hne
    · exact hset (by rwa [Function.update_self] at hq)
    · exact h.set q (by rwa [Function.update_of_ne hne] at hq)
  · refine h.locked.trans (exists_congr fun q => ?_)
    rw [Sys.Holds, Sys.Holds, hsame q]
  · exact h.unique ((hsame q).symm.trans hq) ((hsame r).symm.trans hr)

theorem Inv.acquire (h : Inv s) (hstep : s.acquire p x = .ok s') (hholds : x.holds = (s.pc p).holds)
    (hset : x ≠ .set) : Inv s' := by
  unfold Sys.acquire at hstep
  split at hstep
  next hfree =>
    cases hstep
    refine h.move (fun _ => rfl) (fun q _ hq => ?_) hholds fun hx => absurd hx hset
    rw [h.spin q hq] at hfree
    cases hfree
  next => cases hstep

theorem Inv.release (h : Inv s) (hp : (s.pc p).spins = true) (hx : x.spins = false)
    (hholds : x.holds = (s.pc p).holds) : Inv (s.release p x) := by
  refine h.move (fun hx' => ?_) (fun q hne hq => ?_) hholds fun hset => ?_
  · rw [hx] at hx'
    cases hx'
  · rw [h.of_spins hp hne] at hq
    cases hq
  · rw [hset] at hx
    cases hx

/-- A step to a place that does not need the spin-lock, or from one that has it. -/
theorem Inv.goto (h : Inv s) (hx : x.spins = true → (s.pc p).spins = true)
    (hholds : x.holds = (s.pc p).holds) (hset : x = .set → s.lock.locked = 0) :
    Inv { s with pc := Function.update s.pc p x } :=
  h.move (fun hx' => h.spin p (hx hx')) (fun q _ hq => h.spin q hq) hholds hset

theorem Inv.take (h : Inv s) (hp : s.pc p = .set) :
    Inv { lock := { s.lock with locked := 1, pid := pid p }, pc := Function.update s.pc p .taken } := by
  have hspins : (s.pc p).spins = true := by rw [hp]; rfl
  have hnone : ∀ q, ¬s.Holds q := fun q hq => h.locked.mpr ⟨q, hq⟩ (h.set p hp)
  have honly : ∀ {q}, (Function.update s.pc p .taken q).holds = true → q = p := by
    intro q hq
    by_contra hne
    rw [Function.update_of_ne hne] at hq
    exact hnone q hq
  refine ⟨fun q hq => ?_, fun q hq => ?_, ?_, fun hq hr => (honly hq).trans (honly hr).symm⟩
  · dsimp only at hq
    rcases eq_or_ne q p with rfl | hne
    · exact h.spin q hspins
    · rw [Function.update_of_ne hne] at hq
      exact h.spin q hq
  · dsimp only at hq
    rcases eq_or_ne q p with rfl | hne
    · rw [Function.update_self] at hq
      cases hq
    · rw [Function.update_of_ne hne] at hq
      have hq' := h.of_spins hspins hne
      rw [hq] at hq'
      cases hq'
  · have hone : (1 : UInt32) ≠ 0 := by decide
    refine iff_of_true hone ⟨p, ?_⟩
    change (Function.update s.pc p .taken p).holds = true
    rw [Function.update_self]
    rfl

theorem Inv.clear (h : Inv s) (hp : s.pc p = .clear) :
    Inv { lock := { s.lock with locked := 0, pid := 0 }
          pc := Function.update (fun q => wakeup (s.pc q)) p .cleared } := by
  have hholds : s.Holds p := by rw [Sys.Holds, hp]; rfl
  have hnone : ∀ q, (Function.update (fun q => wakeup (s.pc q)) p .cleared q).holds = false := by
    intro q
    rcases eq_or_ne q p with rfl | hne
    · rw [Function.update_self]
      rfl
    · rw [Function.update_of_ne hne, wakeup_holds]
      exact Bool.eq_false_iff.mpr fun hq => hne (h.unique hq hholds)
  refine ⟨fun q hq => ?_, fun _ _ => rfl, ?_, fun {q} _ hq => ?_⟩
  · dsimp only at hq
    rcases eq_or_ne q p with rfl | hne
    · exact h.spin q (by rw [hp]; rfl)
    · rw [Function.update_of_ne hne, wakeup_spins] at hq
      exact h.spin q hq
  · refine iff_of_false (fun hne => hne rfl) ?_
    rintro ⟨q, hq⟩
    exact Bool.false_ne_true ((hnone q).symm.trans hq)
  · exact absurd ((hnone _).symm.trans hq) Bool.false_ne_true

theorem Inv.step (h : Inv s) (hstep : step pid s p = .ok s') : Inv s' := by
  unfold Sleeplock.step at hstep
  split at hstep
  next hp => cases hstep; exact h.goto (by simp [Pc.spins]) (by rw [hp]; rfl) (by simp)
  next hp => exact h.acquire hstep (by rw [hp]; rfl) (by simp)
  next hp =>
    split at hstep
    next => cases hstep; exact h.release (by rw [hp]; rfl) rfl (by rw [hp]; rfl)
    next hfree =>
      cases hstep
      exact h.goto (fun _ => by rw [hp]; rfl) (by rw [hp]; rfl) fun _ => not_not.mp hfree
  next => cases hstep
  next hp => exact h.acquire hstep (by rw [hp]; rfl) (by simp)
  next hp => cases hstep; exact h.take hp
  next hp => cases hstep; exact h.release (by rw [hp]; rfl) rfl (by rw [hp]; rfl)
  next hp => cases hstep; exact h.goto (by simp [Pc.spins]) (by rw [hp]; rfl) (by simp)
  next hp => exact h.acquire hstep (by rw [hp]; rfl) (by simp)
  next hp => cases hstep; exact h.clear hp
  next hp => cases hstep; exact h.release (by rw [hp]; rfl) rfl (by rw [hp]; rfl)

theorem inv_of_run (h : Run (Sleeplock.step pid) (fun _ _ => True) initsleeplock s) : Inv s :=
  h.invariant ⟨nofun, nofun, iff_of_false (fun hne => hne rfl) nofun, nofun⟩
    fun hinv _ hstep => hinv.step hstep

end

/-! ## Who is asked -/

/-- The functions that begin with a test of the lock. -/
inductive Caller
  | brelse
  | bwrite
  | iderw
  /-- For an inode with this `ref`. -/
  | iunlock (ref : Int)

/-- The test of a function that must be called with the lock. -/
def Caller.check (lock : Lock π) : Caller → Except Fault Unit
  | .brelse => if holdingsleep lock = 0 then .error (.panic "brelse") else .ok ()
  | .bwrite => if holdingsleep lock = 0 then .error (.panic "bwrite") else .ok ()
  | .iderw => if holdingsleep lock = 0 then .error (.panic "iderw: buf not locked") else .ok ()
  | .iunlock ref =>
    if holdingsleep lock = 0 ∨ ref < 1 then .error (.panic "iunlock") else .ok ()

/-- `holdingsleep` says whether the process `p` has the lock, and no function goes on if it does not. -/
def Right (s : Sys π) (p : π) : Prop :=
  (holdingsleep s.lock ≠ 0 ↔ s.Holds p) ∧
    ∀ c : Caller, ¬s.Holds p → ∃ msg, c.check s.lock = .error (.panic msg)

theorem Caller.check_of_free {lock : Lock π} (h : lock.locked = 0) (c : Caller) :
    ∃ msg, c.check lock = .error (.panic msg) := by
  cases c with
  | brelse => exact ⟨_, if_pos h⟩
  | bwrite => exact ⟨_, if_pos h⟩
  | iderw => exact ⟨_, if_pos h⟩
  | iunlock => exact ⟨_, if_pos (.inl h)⟩

theorem Inv.right_iff {s : Sys π} (h : Inv s) (p : π) : Right s p ↔ ∀ q, q ≠ p → ¬s.Holds q := by
  constructor
  · rintro ⟨hholding, -⟩ q hne hq
    exact hne (h.unique hq (hholding.mp (h.locked.mpr ⟨q, hq⟩)))
  · intro hothers
    have hiff : holdingsleep s.lock ≠ 0 ↔ s.Holds p := by
      refine h.locked.trans ⟨?_, fun hp => ⟨p, hp⟩⟩
      rintro ⟨q, hq⟩
      by_contra hp
      exact hothers q (fun heq => hp (heq ▸ hq)) hq
    exact ⟨hiff, fun c hp => c.check_of_free (not_not.mp fun hne => hp (hiff.mp hne))⟩

/-- **Sleep-locks.** In every run one process at most has the lock. What `holdingsleep` and the functions
that ask it say is right for a process if and only if no other process has the lock. -/
theorem holdingsleep_iff [DecidableEq π] (pid : π → UInt32) (s : Sys π)
    (h : Run (step pid) (fun _ _ => True) initsleeplock s) :
    (∀ p q, s.Holds p → s.Holds q → p = q) ∧ ∀ p, Right s p ↔ ∀ q, q ≠ p → ¬s.Holds q :=
  ⟨fun _ _ => (inv_of_run h).unique, (inv_of_run h).right_iff⟩

/-- The steps of process 1 in `acquiresleep`. -/
theorem exists_run_one : ∃ s, Run (step fun p : Fin 3 => UInt32.ofNat (100 + p.val)) (fun _ _ => True)
    initsleeplock s ∧ s.pc 1 = .inside := by
  obtain ⟨s, hs, hpc⟩ : ∃ s, Run.exec (step fun p : Fin 3 => UInt32.ofNat (100 + p.val))
      (fun _ _ => True) initsleeplock [1, 1, 1, 1, 1] = .ok s ∧ s.pc 1 = .inside := ⟨_, rfl, rfl⟩
  exact ⟨s, .of_exec hs, hpc⟩

/-- Process 2 does not have the lock that process 1 has, and is told that it has it. -/
theorem not_right_two : ∃ (pid : Fin 3 → UInt32) (s : Sys (Fin 3)) (p : Fin 3),
    Run (step pid) (fun _ _ => True) initsleeplock s ∧ ¬Right s p := by
  obtain ⟨s, hs, hone⟩ := exists_run_one
  refine ⟨_, s, 2, hs, fun hright => ?_⟩
  have hholds : s.Holds 1 := by rw [Sys.Holds, hone]; rfl
  exact ((inv_of_run hs).right_iff 2).mp hright 1 (by decide) hholds

theorem right_one : ∃ s : Sys (Fin 3), s.Holds 1 ∧ Right s 1 := by
  obtain ⟨s, hs, hone⟩ := exists_run_one
  have hholds : s.Holds 1 := by rw [Sys.Holds, hone]; rfl
  obtain ⟨hunique, hright⟩ := holdingsleep_iff _ s hs
  exact ⟨s, hholds, (hright 1).mpr fun q hne hq => hne (hunique q 1 hq hholds)⟩

/-! ## Progress -/

/-- A process sleeps only while the lock is taken, and who has the spin-lock is about to use it. -/
structure Awake (s : Sys π) : Prop where
  asleep : ∀ p, s.pc p = .sleep → s.lock.locked ≠ 0
  spins : ∀ p, s.lock.lk = some p → (s.pc p).spins = true

section
variable [DecidableEq π] (pid : π → UInt32) {s s' : Sys π} {p : π}

theorem Awake.step (h : Awake s) (hs : step pid s p = .ok s') : Awake s' := by
  obtain ⟨hasleep, hspins⟩ := h
  unfold Sleeplock.step Sys.acquire Sys.release at hs
  split at hs <;> (try split at hs) <;> cases hs <;> constructor <;>
    grind [Function.update_apply, Pc.spins, wakeup]

theorem exists_step (h : s.pc p ≠ .sleep ∧ s.lock.lk = none ∨ (s.pc p).spins = true) :
    ∃ s', step pid s p = .ok s' := by
  unfold Sleeplock.step Sys.acquire
  cases hpc : s.pc p <;> simp_all [Pc.spins]
  split <;> exact ⟨_, rfl⟩

/-- **No deadlock.** In every run, a process that sleeps waits for one that has the lock and does not
sleep. Any other process can take its next step, or the one that has the spin-lock can. -/
theorem sleeplock_progress (h : Run (step pid) (fun _ _ => True) initsleeplock s) (p : π) :
    (s.pc p = .sleep → ∃ q, s.Holds q ∧ s.pc q ≠ .sleep) ∧
    (s.pc p ≠ .sleep → ∃ q, (q = p ∨ s.lock.lk = some q) ∧ ∃ s', step pid s q = .ok s') := by
  have hawake : Awake s := h.invariant ⟨nofun, nofun⟩ fun hinv _ hs => hinv.step pid hs
  refine ⟨fun hp => ?_, fun hp => ?_⟩
  · obtain ⟨q, hq⟩ := (inv_of_run h).locked.mp (hawake.asleep p hp)
    refine ⟨q, hq, fun hsleep => ?_⟩
    rw [Sys.Holds, hsleep] at hq
    cases hq
  · cases hlk : s.lock.lk with
    | none => exact ⟨p, .inl rfl, exists_step pid (.inl ⟨hp, hlk⟩)⟩
    | some q => exact ⟨q, .inr rfl, exists_step pid (.inr (hawake.spins q hlk))⟩

end

theorem sleeplock_progress_one : ∃ (pid : _) (s : Sys (Fin 3)), s.pc 1 = .inside ∧
    ∃ q, (q = 1 ∨ s.lock.lk = some q) ∧ ∃ s', step pid s q = .ok s' := by
  obtain ⟨s, hs, hone⟩ := exists_run_one
  exact ⟨_, s, hone, (sleeplock_progress _ hs 1).2 (by rw [hone]; decide)⟩

end Xv6.Sleeplock
