import Xv6.Lib.Run
import Xv6.Log.Header

/-!
# Operations and commits

The calls of `begin_op`, `log_write` and `end_op` by any number of processes. A step of this model is
one stretch under `log.lock`, the tests that `log_write` makes before it takes the lock, or `commit`,
which runs without the lock, so the operations of the processes interleave freely between these.

`outstanding` counts the processes that are between `begin_op` and `end_op`. A commit starts when it
falls to zero and keeps `begin_op` from admitting anyone, so that no operation is in progress while
it runs (`OpsInv`); and whoever sleeps in `begin_op` is woken by each step that could let it in.
-/

namespace Xv6.Log

/-- Where a process is in the calls of `log.c`. The list holds the distinct blocks that its current
operation has logged. -/
inductive OpState
  /-- Outside of any operation. -/
  | out
  /-- In `begin_op`, asleep on `&log`. -/
  | sleeping
  /-- Between `begin_op` and `end_op`. -/
  | inOp (blocks : List UInt32)
  /-- In `log_write`, past the tests and before the lock. -/
  | logging (b : UInt32) (blocks : List UInt32)
  /-- In `end_op`, committing for all operations. -/
  | committing
  /-- In `end_op`, after `commit`. -/
  | committed
  deriving DecidableEq

/-- `struct log`, and where each process is. -/
structure LogState (ι : Type) where
  lh : List UInt32
  size : Nat
  outstanding : Int
  committing : Bool
  proc : ι → OpState

inductive Act (ι : Type)
  | beginOp (p : ι)
  | logCheck (p : ι) (b : UInt32)
  | logAppend (p : ι)
  | endOp (p : ι)
  | commit (p : ι)
  | endCommit (p : ι)

variable {ι : Type} [DecidableEq ι]

/-- `wakeup(&log)`: the sleeping processes run the loop of `begin_op` again. -/
def wakeup (proc : ι → OpState) : ι → OpState := fun p =>
  if proc p = .sleeping then .out else proc p

/-- One pass of the loop in `begin_op`. -/
def beginOp (s : LogState ι) (p : ι) : Except Fault (LogState ι) :=
  if s.proc p ≠ .out then .error .disabled
  else if s.committing then
    .ok { s with proc := Function.update s.proc p .sleeping }
  else if (s.lh.length : Int) + (s.outstanding + 1) * MAXOPBLOCKS > LOGSIZE then
    .ok { s with proc := Function.update s.proc p .sleeping }
  else
    .ok { s with
      outstanding := s.outstanding + 1
      proc := Function.update s.proc p (.inOp []) }

/-- The tests of `log_write`, before the lock. -/
def logCheck (s : LogState ι) (p : ι) (b : UInt32) : Except Fault (LogState ι) :=
  match s.proc p with
  | .inOp blocks =>
    if s.lh.length ≥ LOGSIZE ∨ (s.lh.length : Int) ≥ (s.size : Int) - 1 then
      .error (.panic "too big a transaction")
    else if s.outstanding < 1 then .error (.panic "log_write outside of trans")
    else .ok { s with proc := Function.update s.proc p (.logging b blocks) }
  | _ => .error .disabled

/-- The stretch of `log_write` under the lock. -/
def logAppend (s : LogState ι) (p : ι) : Except Fault (LogState ι) :=
  match s.proc p with
  | .logging b blocks =>
    .ok { s with
      lh := absorb s.lh b
      proc := Function.update s.proc p (.inOp (absorb blocks b)) }
  | _ => .error .disabled

/-- `end_op`, up to the first release of the lock. -/
def endOp (s : LogState ι) (p : ι) : Except Fault (LogState ι) :=
  match s.proc p with
  | .inOp _ =>
    if s.committing then .error (.panic "log.committing")
    else if s.outstanding - 1 = 0 then
      .ok { s with
        outstanding := s.outstanding - 1
        committing := true
        proc := Function.update s.proc p .committing }
    else
      .ok { s with
        outstanding := s.outstanding - 1
        proc := wakeup (Function.update s.proc p .out) }
  | _ => .error .disabled

/-- `commit()`, which writes the blocks and leaves `log.lh.n = 0`. -/
def doCommit (s : LogState ι) (p : ι) : Except Fault (LogState ι) :=
  match s.proc p with
  | .committing => .ok { s with lh := [], proc := Function.update s.proc p .committed }
  | _ => .error .disabled

/-- `end_op`, the stretch after `commit`. -/
def endCommit (s : LogState ι) (p : ι) : Except Fault (LogState ι) :=
  match s.proc p with
  | .committed =>
    .ok { s with committing := false, proc := wakeup (Function.update s.proc p .out) }
  | _ => .error .disabled

def step (s : LogState ι) : Act ι → Except Fault (LogState ι)
  | .beginOp p => beginOp s p
  | .logCheck p b => logCheck s p b
  | .logAppend p => logAppend s p
  | .endOp p => endOp s p
  | .commit p => doCommit s p
  | .endCommit p => endCommit s p

/-- The state after `initlog` with a log of `size` blocks. -/
def initLog (size : Nat) : LogState ι where
  lh := []
  size := size
  outstanding := 0
  committing := false
  proc _ := .out

/-! ## Operations in progress -/

namespace OpState

/-- The process is between `begin_op` and `end_op`. -/
def active : OpState → Bool
  | .inOp _ | .logging .. => true
  | _ => false

/-- The process is in the second half of `end_op`. -/
def finishing : OpState → Bool
  | .committing | .committed => true
  | _ => false

/-- The blocks that the process's operation has logged. -/
def blocks : OpState → List UInt32
  | .inOp bs | .logging _ bs => bs
  | _ => []

end OpState

/-- The second reason to sleep in `begin_op`: the log might not have room for one more operation. -/
def Crowded (s : LogState ι) : Prop :=
  (s.lh.length : Int) + (s.outstanding + 1) * MAXOPBLOCKS > LOGSIZE

section
variable [Fintype ι]

/-- What holds between any two steps: a block that an operation has logged keeps its slot while the
operation runs, since a commit waits for all operations. -/
structure OpsInv (s : LogState ι) : Prop where
  logged : ∀ p, ∀ b ∈ (s.proc p).blocks, b ∈ s.lh
  outstanding : s.outstanding = ∑ p, ((s.proc p).active.toNat : Int)
  committing : ∀ p, (s.proc p).finishing → s.committing = true
  quiet : s.committing = true → ∀ p, (s.proc p).active = false
  one : ∀ p q, (s.proc p).finishing → (s.proc q).finishing → p = q

/-! ## Moving one process -/

theorem sum_update {M : Type} [AddCommMonoid M] (f : OpState → M) (proc : ι → OpState) (p : ι)
    (o : OpState) :
    ∑ q, f (update proc p o q) + f (proc p) = ∑ q, f (proc q) + f o := by
  have h : ∀ q ∈ Finset.univ.erase p, f (update proc p o q) = f (proc q) := fun q hq => by
    rw [update_of_ne (Finset.ne_of_mem_erase hq)]
  rw [← Finset.add_sum_erase _ _ (Finset.mem_univ p), Finset.sum_congr rfl h,
    update_self, ← Finset.add_sum_erase _ (fun q => f (proc q)) (Finset.mem_univ p)]
  abel

omit [Fintype ι] [DecidableEq ι] in
theorem wakeup_eq {γ : Type} {f : OpState → γ} (h : f .out = f .sleeping) (proc : ι → OpState)
    (p : ι) : f (wakeup proc p) = f (proc p) := by
  unfold wakeup
  split
  · next hp => rw [hp, h]
  · rfl

omit [Fintype ι] in
theorem forall_update {P : ι → OpState → Prop} {proc : ι → OpState} {p : ι} {o : OpState}
    (hp : P p o) (hq : ∀ q, P q (proc q)) (q : ι) : P q (update proc p o q) := by
  by_cases h : q = p
  · subst h
    rwa [update_self]
  · rw [update_of_ne h]
    exact hq q

theorem sum_active_update (s : LogState ι) (p : ι) (o : OpState) :
    ∑ q, ((update s.proc p o q).active.toNat : Int) =
      ∑ q, ((s.proc q).active.toNat : Int) + o.active.toNat - (s.proc p).active.toNat := by
  have := sum_update (fun o => (o.active.toNat : Int)) s.proc p o
  omega

omit [DecidableEq ι] in
theorem OpsInv.wakeup {s : LogState ι} (h : OpsInv s) :
    OpsInv { s with proc := Log.wakeup s.proc } where
  logged p := by
    simp only [wakeup_eq (f := OpState.blocks) rfl]
    exact h.logged p
  outstanding := by
    simp only [wakeup_eq (f := OpState.active) rfl]
    exact h.outstanding
  committing p := by
    simp only [wakeup_eq (f := OpState.finishing) rfl]
    exact h.committing p
  quiet hc p := by
    simp only [wakeup_eq (f := OpState.active) rfl]
    exact h.quiet hc p
  one p q := by
    simp only [wakeup_eq (f := OpState.finishing) rfl]
    exact h.one p q

/-- A process that neither enters nor leaves an operation or a commit, with the log growing. -/
theorem OpsInv.move {s : LogState ι} (h : OpsInv s) {p : ι} {o : OpState} {lh : List UInt32}
    (hact : o.active = (s.proc p).active) (hfin : o.finishing = (s.proc p).finishing)
    (hlh : ∀ b ∈ s.lh, b ∈ lh) (hblocks : ∀ b ∈ o.blocks, b ∈ lh) :
    OpsInv { s with lh := lh, proc := update s.proc p o } := by
  have hfin' : ∀ q, (update s.proc p o q).finishing = (s.proc q).finishing :=
    forall_update (P := fun q o' => o'.finishing = (s.proc q).finishing) hfin fun _ => rfl
  have hact' : ∀ q, (update s.proc p o q).active = (s.proc q).active :=
    forall_update (P := fun q o' => o'.active = (s.proc q).active) hact fun _ => rfl
  constructor
  · exact forall_update (P := fun _ o' => ∀ b ∈ o'.blocks, b ∈ lh) hblocks
      fun q b hb => hlh b (h.logged q b hb)
  · simp only [hact']
    exact h.outstanding
  · simpa only [hfin'] using h.committing
  · simpa only [hact'] using h.quiet
  · simpa only [hfin'] using h.one

/-! ## The invariant -/

variable {s s' : LogState ι} {p : ι}

theorem OpsInv.beginOp (h : OpsInv s) (hs : beginOp s p = .ok s') : OpsInv s' := by
  unfold Log.beginOp at hs
  split at hs
  · cases hs
  next hp =>
  rw [not_not] at hp
  split at hs
  · cases hs
    exact h.move (by rw [hp]; rfl) (by rw [hp]; rfl) (fun _ => id) (by simp [OpState.blocks])
  next hc =>
  split at hs
  · cases hs
    exact h.move (by rw [hp]; rfl) (by rw [hp]; rfl) (fun _ => id) (by simp [OpState.blocks])
  cases hs
  have hfin : ∀ q, (update s.proc p (.inOp []) q).finishing = (s.proc q).finishing :=
    forall_update (P := fun q o' => o'.finishing = (s.proc q).finishing) (by rw [hp]; rfl) fun _ => rfl
  constructor
  · exact forall_update (P := fun _ o' => ∀ b ∈ o'.blocks, b ∈ s.lh) (by simp [OpState.blocks])
      h.logged
  · rw [sum_active_update, ← h.outstanding, hp]
    simp [OpState.active]
  · simpa only [hfin] using h.committing
  · exact fun hc' => absurd hc' (by simpa using hc)
  · simpa only [hfin] using h.one

theorem OpsInv.logCheck {b : UInt32} (h : OpsInv s) (hs : logCheck s p b = .ok s') : OpsInv s' := by
  unfold Log.logCheck at hs
  split at hs
  next blocks hp =>
    split at hs
    · cases hs
    split at hs
    · cases hs
    cases hs
    refine h.move (by rw [hp]; rfl) (by rw [hp]; rfl) (fun _ => id) ?_
    have := h.logged p
    rwa [hp] at this
  · cases hs

theorem OpsInv.logAppend (h : OpsInv s) (hs : logAppend s p = .ok s') : OpsInv s' := by
  unfold Log.logAppend at hs
  split at hs
  next b blocks hp =>
    cases hs
    refine h.move (by rw [hp]; rfl) (by rw [hp]; rfl) (fun c hc => mem_absorb.mpr (.inl hc)) ?_
    intro c hc
    rcases mem_absorb.mp hc with hc | rfl
    · refine mem_absorb.mpr (.inl (h.logged p c ?_))
      rwa [hp]
    · exact mem_absorb.mpr (.inr rfl)
  · cases hs

/-- A process that leaves its operation or its commit. -/
theorem OpsInv.leave (h : OpsInv s) {o : OpState} {c : Bool} {n : Int} (hblocks : o.blocks = [])
    (hact : o.active = false) (hn : n = s.outstanding - (s.proc p).active.toNat)
    (hcom : ∀ q, (update s.proc p o q).finishing → c = true)
    (hquiet : c = true → ∀ q, (update s.proc p o q).active = false)
    (hone : ∀ q r, (update s.proc p o q).finishing →
      (update s.proc p o r).finishing → q = r) :
    OpsInv { s with
      outstanding := n
      committing := c
      proc := update s.proc p o } where
  logged := forall_update (P := fun _ o' => ∀ b ∈ o'.blocks, b ∈ s.lh) (by simp [hblocks]) h.logged
  outstanding := by
    simp only [sum_active_update, ← h.outstanding, hact, hn]
    simp
  committing := hcom
  quiet := hquiet
  one := hone

omit [DecidableEq ι] in
theorem OpsInv.finishing_eq_false (h : OpsInv s) (hc : s.committing = false) (q : ι) :
    (s.proc q).finishing = false := by
  by_contra hf
  have := h.committing q (by simpa using hf)
  simp_all

theorem OpsInv.active_eq_false (h : OpsInv s) (hp : (s.proc p).active = true)
    (h1 : s.outstanding - 1 = 0) {q : ι} (hq : q ≠ p) : (s.proc q).active = false := by
  have hsum := sum_active_update s p .out
  rw [← h.outstanding, hp] at hsum
  have hzero : ∑ q, ((update s.proc p .out q).active.toNat : Int) = 0 := by
    rw [hsum]
    simp [OpState.active]
    omega
  have := (Finset.sum_eq_zero_iff_of_nonneg fun _ _ => Int.natCast_nonneg _).mp hzero q
    (Finset.mem_univ q)
  rw [update_of_ne hq] at this
  simpa using this

omit [Fintype ι] in
/-- Only the process that moved can be at a point where it was not before. -/
theorem update_cases (proc : ι → OpState) (p q : ι) (o : OpState) :
    (q = p ∧ update proc p o q = o) ∨ (q ≠ p ∧ update proc p o q = proc q) := by
  by_cases h : q = p
  · subst h; exact .inl ⟨rfl, update_self ..⟩
  · exact .inr ⟨h, update_of_ne h ..⟩

theorem OpsInv.endOp (h : OpsInv s) (hs : endOp s p = .ok s') : OpsInv s' := by
  unfold Log.endOp at hs
  split at hs
  next blocks hp =>
    have hact : (s.proc p).active = true := by rw [hp]; rfl
    split at hs
    · cases hs
    next hc =>
    have hfin := h.finishing_eq_false (by simpa using hc)
    split at hs
    next h1 =>
      -- the last operation commits, with no other operation in progress
      cases hs
      refine h.leave rfl rfl (by simp [hact]) (fun _ _ => rfl) (fun _ q => ?_)
        fun q r hq hr => ?_
      · rcases update_cases s.proc p q .committing with ⟨-, he⟩ | ⟨hq, he⟩ <;> rw [he]
        · rfl
        · exact h.active_eq_false hact h1 hq
      · rcases update_cases s.proc p q .committing with ⟨rfl, -⟩ | ⟨-, he⟩
        · rcases update_cases s.proc q r .committing with ⟨rfl, -⟩ | ⟨-, he⟩
          · rfl
          · rw [he, hfin] at hr; cases hr
        · rw [he, hfin] at hq; cases hq
    next h1 =>
      cases hs
      have hout : ∀ q, (update s.proc p .out q).finishing = false :=
        forall_update (P := fun _ o' => o'.finishing = false) rfl hfin
      refine OpsInv.wakeup (s := { s with
        outstanding := s.outstanding - 1, proc := update s.proc p .out }) ?_
      exact h.leave rfl rfl (by simp [hact]) (fun q hq => by simp [hout] at hq)
        (fun hc' => absurd hc' hc) fun q r hq => by simp [hout] at hq
  · cases hs

theorem OpsInv.doCommit (h : OpsInv s) (hs : doCommit s p = .ok s') : OpsInv s' := by
  unfold Log.doCommit at hs
  split at hs
  next hp =>
    cases hs
    have hfin : (s.proc p).finishing = true := by rw [hp]; rfl
    -- no operation is in progress, so no process relies on the slots that are given up
    have hquiet := h.quiet (h.committing p hfin)
    have hfin' : ∀ q, (update s.proc p .committed q).finishing = (s.proc q).finishing :=
      forall_update (P := fun q o' => o'.finishing = (s.proc q).finishing) (by rw [hp]; rfl)
        fun _ => rfl
    have hact' : ∀ q, (update s.proc p .committed q).active = false :=
      forall_update (P := fun _ o' => o'.active = false) rfl hquiet
    constructor
    · intro q b hb
      have := hact' q
      revert hb this
      simp only
      cases update s.proc p .committed q <;> simp [OpState.active, OpState.blocks]
    · simp only [hact', h.outstanding, hquiet]
    · simpa only [hfin'] using h.committing
    · exact fun _ => hact'
    · simpa only [hfin'] using h.one
  · cases hs

theorem OpsInv.endCommit (h : OpsInv s) (hs : endCommit s p = .ok s') : OpsInv s' := by
  unfold Log.endCommit at hs
  split at hs
  next hp =>
    cases hs
    have hfin : (s.proc p).finishing = true := by rw [hp]; rfl
    have hout : ∀ q, (update s.proc p .out q).finishing = false := by
      intro q
      rcases update_cases s.proc p q .out with ⟨-, he⟩ | ⟨hq, he⟩ <;> rw [he]
      · rfl
      · by_contra hf
        exact hq (h.one q p (by simpa using hf) hfin)
    refine OpsInv.wakeup (s := { s with
      committing := false, proc := update s.proc p .out }) ?_
    exact h.leave rfl rfl (by simp [hp, OpState.active]) (fun q hq => by simp [hout] at hq)
      nofun fun q r hq => by simp [hout] at hq
  · cases hs

theorem OpsInv.step {a : Act ι} (h : OpsInv s) (hs : step s a = .ok s') : OpsInv s' := by
  cases a with
  | beginOp p => exact h.beginOp hs
  | logCheck p b => exact h.logCheck hs
  | logAppend p => exact h.logAppend hs
  | endOp p => exact h.endOp hs
  | commit p => exact h.doCommit hs
  | endCommit p => exact h.endCommit hs

omit [DecidableEq ι] in
theorem OpsInv.init (size : Nat) : OpsInv (initLog size : LogState ι) :=
  ⟨by simp [initLog, OpState.blocks], by simp [initLog, OpState.active], nofun, nofun, nofun⟩

/-! ## Who sleeps, and what is logged -/

/-- A process sleeps in `begin_op` only while it could not start. -/
def Waits (s : LogState ι) : Prop :=
  ∀ p, s.proc p = .sleeping → s.committing = true ∨ Crowded s

omit [Fintype ι] [DecidableEq ι] in
theorem wakeup_ne_sleeping (proc : ι → OpState) (p : ι) : wakeup proc p ≠ .sleeping := by
  unfold wakeup
  split
  · nofun
  · assumption

omit [Fintype ι] in
/-- A process moves, and the log is no less crowded than before. -/
theorem Waits.move (h : Waits s) {o : OpState} {lh : List UInt32} {n : Int}
    (hlh : s.lh.length ≤ lh.length) (hn : s.outstanding ≤ n)
    (ho : o = .sleeping → s.committing = true ∨ Crowded s) :
    Waits { s with lh := lh, outstanding := n, proc := update s.proc p o } := by
  have hle : Crowded s → Crowded { s with
      lh := lh, outstanding := n, proc := update s.proc p o } := fun hfull => by
    simp only [Crowded, MAXOPBLOCKS] at hfull ⊢
    omega
  intro q hq
  rcases update_cases s.proc p q o with ⟨-, he⟩ | ⟨-, he⟩
  · exact (ho (he.symm.trans hq)).imp_right hle
  · exact (h q (he.symm.trans hq)).imp_right hle

theorem Waits.step {a : Act ι} (h : Waits s) (hinv : OpsInv s) (hs : step s a = .ok s') :
    Waits s' := by
  cases a with
  | beginOp p =>
    simp only [Log.step, beginOp] at hs
    split at hs
    · cases hs
    split at hs
    next hc =>
      cases hs
      exact h.move (Nat.le_refl _) (Int.le_refl _) fun _ => .inl hc
    split at hs
    next hfull =>
      cases hs
      exact h.move (Nat.le_refl _) (Int.le_refl _) fun _ => .inr hfull
    next =>
      cases hs
      exact h.move (Nat.le_refl _) (by omega) nofun
  | logCheck p b =>
    simp only [Log.step, logCheck] at hs
    split at hs
    next =>
      split at hs
      · cases hs
      split at hs
      · cases hs
      cases hs
      exact h.move (Nat.le_refl _) (Int.le_refl _) nofun
    · cases hs
  | logAppend p =>
    simp only [Log.step, logAppend] at hs
    split at hs
    next =>
      cases hs
      refine h.move ?_ (Int.le_refl _) nofun
      unfold absorb
      split <;> simp
    · cases hs
  | endOp p =>
    simp only [Log.step, endOp] at hs
    split at hs
    next =>
      split at hs
      · cases hs
      split at hs <;> cases hs
      · exact fun _ _ => .inl rfl
      · exact fun q hq => absurd hq (wakeup_ne_sleeping _ q)
    · cases hs
  | commit p =>
    simp only [Log.step, doCommit] at hs
    split at hs
    next hp =>
      -- the log empties, but the commit is not over
      cases hs
      exact fun _ _ => .inl (hinv.committing p (by rw [hp]; rfl))
    · cases hs
  | endCommit p =>
    simp only [Log.step, endCommit] at hs
    split at hs
    next =>
      cases hs
      exact fun q hq => absurd hq (wakeup_ne_sleeping _ q)
    · cases hs

omit [Fintype ι] in
theorem lh_step {a : Act ι} (hs : step s a = .ok s') :
    s'.lh = s.lh ∨ s'.lh = [] ∨ ∃ b, s'.lh = absorb s.lh b := by
  cases a <;> simp only [step, beginOp, logCheck, logAppend, endOp, doCommit, endCommit] at hs <;>
    (repeat' split at hs) <;> cases hs <;> first
      | exact .inl rfl
      | exact .inr (.inl rfl)
      | exact .inr (.inr ⟨_, rfl⟩)

theorem nodup_absorb [DecidableEq α] {blocks : List α} (h : blocks.Nodup) (b : α) :
    (absorb blocks b).Nodup := by
  unfold absorb
  split
  next => exact h
  next hb => exact List.nodup_append.mpr ⟨h, List.nodup_singleton b, by grind⟩

omit [Fintype ι] in
theorem nodup_step {a : Act ι} (h : s.lh.Nodup) (hs : step s a = .ok s') : s'.lh.Nodup := by
  rcases lh_step hs with he | he | ⟨b, he⟩ <;> rw [he]
  · exact h
  · exact List.nodup_nil
  · exact nodup_absorb h b

/-! ## Runs -/

omit [DecidableEq ι] in
theorem OpsInv.outstanding_eq_zero (h : OpsInv s) (hc : s.committing = true) :
    s.outstanding = 0 := by
  rw [h.outstanding]
  exact Finset.sum_eq_zero fun p _ => by rw [h.quiet hc p]; rfl

/-- **Operations and commits.** In every state that any interleaving of the calls reaches, between
two stretches under the lock:

* while a commit runs, no operation is in progress, and no step of `log_write` can be taken;
* a process sleeps in `begin_op` only during a commit, or while the log might not have room for one
  operation more;
* the block numbers in the header are distinct. -/
theorem commit_waits_for_operations {size : Nat}
    (h : Run step (fun _ _ => True) (initLog size : LogState ι) s) :
    (s.committing = true → s.outstanding = 0 ∧ (∀ p, (s.proc p).active = false) ∧
      ∀ p b, step s (.logCheck p b) = .error .disabled ∧
        step s (.logAppend p) = .error .disabled) ∧
    (∀ p, s.proc p = .sleeping → s.committing = true ∨
      (s.lh.length : Int) + (s.outstanding + 1) * MAXOPBLOCKS > LOGSIZE) ∧
    s.lh.Nodup := by
  have hinv : OpsInv s ∧ Waits s ∧ s.lh.Nodup :=
    h.invariant (I := fun s => OpsInv s ∧ Waits s ∧ s.lh.Nodup)
      ⟨.init size, nofun, List.nodup_nil⟩
      fun ⟨hi, hw, hn⟩ _ hs => ⟨hi.step hs, hw.step hi hs, nodup_step hn hs⟩
  obtain ⟨hi, hw, hn⟩ := hinv
  refine ⟨fun hc => ⟨hi.outstanding_eq_zero hc, hi.quiet hc, fun p b => ?_⟩, hw, hn⟩
  have hp := hi.quiet hc p
  simp only [step, logCheck, logAppend]
  cases hproc : s.proc p <;> rw [hproc] at hp
  case inOp => cases hp
  case logging => cases hp
  all_goals exact ⟨rfl, rfl⟩

end

/-- A process that has begun an operation commits at its end, and another one sleeps meanwhile. -/
theorem commit_waits_for_operations_two :
    ∃ s : LogState (Fin 2), Run step (fun _ _ => True) (initLog nlog) s ∧ s.proc 1 = .sleeping ∧
      s.committing = true ∧ s.outstanding = 0 := by
  have h : Run step (fun _ _ => True) (initLog nlog : LogState (Fin 2)) _ :=
    ((Run.refl.tail (a := .beginOp 0) trivial rfl).tail (a := .endOp 0) trivial rfl).tail
      (a := .beginOp 1) trivial rfl
  exact ⟨_, h, rfl, rfl, ((commit_waits_for_operations h).1 rfl).1⟩

end Xv6.Log
