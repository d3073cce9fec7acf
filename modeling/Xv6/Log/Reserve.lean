import Xv6.Log.Ops

/-!
# Reservation of log space

`begin_op` admits an operation when `MAXOPBLOCKS` more slots for each operation in progress still
fit into `LOGSIZE`, and `log_write` gives each distinct block one slot.

A log area of `log.size` blocks has `log.size - 1` slots, and `log_write` stops when it finds the
last one taken, even if its block has a slot already. `slotsNeeded` counts the slots that are
taken and those that the operations in progress may still ask for. It grows only in `begin_op`
(`slotsNeeded_step`), so a run in which every operation is admitted with a slot to spare never
stops in `log_write`; `mkfs` makes the log one block too small for what `begin_op` admits.
-/

namespace Xv6.Log

variable {ι : Type} [DecidableEq ι]

namespace OpState

/-- The log slots that the process's operation may still ask for. -/
def slots (o : OpState) : Nat := if o.active then MAXOPBLOCKS - o.blocks.length else 0

@[simp] theorem slots_out : out.slots = 0 := rfl
@[simp] theorem slots_sleeping : sleeping.slots = 0 := rfl
@[simp] theorem slots_inOp (bs : List UInt32) : (inOp bs).slots = MAXOPBLOCKS - bs.length := rfl
@[simp] theorem slots_logging (b : UInt32) (bs : List UInt32) :
    (logging b bs).slots = MAXOPBLOCKS - bs.length := rfl
@[simp] theorem slots_committing : committing.slots = 0 := rfl
@[simp] theorem slots_committed : committed.slots = 0 := rfl

/-- The block that the process is about to log is within its `MAXOPBLOCKS`. -/
def Within : OpState → Prop
  | .logging b bs => (absorb bs b).length ≤ MAXOPBLOCKS
  | _ => True

end OpState

/-- The next call stays within the `MAXOPBLOCKS` distinct blocks of its operation. -/
def withinOp (s : LogState ι) : Act ι → Bool
  | .logCheck p b => (absorb (s.proc p).blocks b).length ≤ MAXOPBLOCKS
  | _ => true

/-- The next step is a `begin_op` that goes past the loop. -/
def admits (s : LogState ι) : Act ι → Bool
  | .beginOp p => s.proc p = .out && !s.committing &&
      (s.lh.length : Int) + (s.outstanding + 1) * MAXOPBLOCKS ≤ LOGSIZE
  | _ => false

section
variable [Fintype ι]

/-- The slots that are taken, and those that the operations in progress may still ask for. -/
def slotsNeeded (s : LogState ι) : Nat := s.lh.length + ∑ p, (s.proc p).slots

/-- Operations stay within `MAXOPBLOCKS` blocks, and `begin_op` admits one only when its blocks
leave a slot of the log to spare. -/
def Spare (s : LogState ι) (a : Act ι) : Prop :=
  withinOp s a = true ∧
    (admits s a = true → slotsNeeded s + MAXOPBLOCKS < min LOGSIZE (s.size - 1))

/-- Beside the order of operations and commits, operations stay within their blocks. -/
structure LogInv (s : LogState ι) : Prop extends OpsInv s where
  within : ∀ p, (s.proc p).Within

variable {s s' : LogState ι} {p : ι}

omit [Fintype ι] in
theorem within_step {a : Act ι} (h : ∀ p, (s.proc p).Within) (hw : withinOp s a = true)
    (hs : step s a = .ok s') (q : ι) : (s'.proc q).Within := by
  have hmove : ∀ (p : ι) (o : OpState), o.Within → (update s.proc p o q).Within :=
    fun p o ho => forall_update (P := fun _ o => o.Within) ho h q
  cases a with
  | logCheck p b =>
    simp only [step, logCheck] at hs
    split at hs
    next blocks hp =>
      split at hs
      · cases hs
      split at hs
      · cases hs
      cases hs
      refine hmove p (.logging b blocks) ?_
      simpa [withinOp, hp, OpState.blocks, OpState.Within] using hw
    · cases hs
  | beginOp p =>
    simp only [step, beginOp] at hs
    (repeat' split at hs) <;> cases hs
    · exact hmove p .sleeping trivial
    · exact hmove p .sleeping trivial
    · exact hmove p (.inOp []) trivial
  | logAppend p =>
    simp only [step, logAppend] at hs
    split at hs <;> cases hs
    exact hmove p (.inOp _) trivial
  | endOp p =>
    simp only [step, endOp] at hs
    (repeat' split at hs) <;> cases hs
    · exact hmove p .committing trivial
    · exact (wakeup_eq (f := OpState.Within) rfl _ q).mpr (hmove p .out trivial)
  | commit p =>
    simp only [step, doCommit] at hs
    split at hs <;> cases hs
    exact hmove p .committed trivial
  | endCommit p =>
    simp only [step, endCommit] at hs
    split at hs <;> cases hs
    exact (wakeup_eq (f := OpState.Within) rfl _ q).mpr (hmove p .out trivial)

theorem LogInv.step {a : Act ι} (h : LogInv s) (hw : withinOp s a = true)
    (hs : step s a = .ok s') : LogInv s' :=
  ⟨h.toOpsInv.step hs, within_step h.within hw hs⟩

omit [DecidableEq ι] in
theorem LogInv.init (size : Nat) : LogInv (initLog size : LogState ι) :=
  ⟨.init size, fun _ => trivial⟩

/-! ## Slots in use -/

theorem sum_slots_update (s : LogState ι) (p : ι) (o : OpState) :
    ∑ q, (update s.proc p o q).slots + (s.proc p).slots =
      ∑ q, (s.proc q).slots + o.slots :=
  sum_update OpState.slots s.proc p o

theorem slotsNeeded_update (s : LogState ι) (lh : List UInt32) (n : Int) (c : Bool) (p : ι)
    (o : OpState) :
    slotsNeeded { s with
        lh := lh
        outstanding := n
        committing := c
        proc := update s.proc p o } + s.lh.length + (s.proc p).slots =
      slotsNeeded s + lh.length + o.slots := by
  have := sum_slots_update s p o
  simp only [slotsNeeded] at *
  omega

/-- A process that asks for no more slots than before, with the log not growing. -/
theorem slotsNeeded_update_le {lh : List UInt32} {n : Int} {c : Bool} {o : OpState}
    (hlh : lh.length ≤ s.lh.length) (ho : o.slots ≤ (s.proc p).slots) :
    slotsNeeded { s with
        lh := lh
        outstanding := n
        committing := c
        proc := update s.proc p o } ≤ slotsNeeded s := by
  have := slotsNeeded_update s lh n c p o
  omega

omit [DecidableEq ι] in
theorem slotsNeeded_wakeup : slotsNeeded { s with proc := wakeup s.proc } = slotsNeeded s := by
  simp only [slotsNeeded, wakeup_eq (f := OpState.slots) rfl]

theorem slotsNeeded_beginOp (hs : beginOp s p = .ok s') :
    slotsNeeded s' ≤ slotsNeeded s + (admits s (.beginOp p)).toNat * MAXOPBLOCKS := by
  unfold beginOp at hs
  split at hs
  · cases hs
  next hp =>
  rw [not_not] at hp
  split at hs
  · cases hs
    exact Nat.le_add_right_of_le (slotsNeeded_update_le (Nat.le_refl _) (by simp))
  next hc =>
  split at hs
  · cases hs
    exact Nat.le_add_right_of_le (slotsNeeded_update_le (Nat.le_refl _) (by simp))
  next hfit =>
  cases hs
  have hadm : admits s (.beginOp p) = true := by simp_all [admits]
  have := slotsNeeded_update s s.lh (s.outstanding + 1) s.committing p (.inOp [])
  simp only [OpState.slots_inOp] at this
  rw [hadm, Bool.toNat_true]
  omega

/-- A block that is logged takes a slot that was reserved for its operation, or none. -/
theorem slotsNeeded_logAppend (h : LogInv s) (hs : logAppend s p = .ok s') :
    slotsNeeded s' ≤ slotsNeeded s := by
  unfold logAppend at hs
  split at hs
  next b blocks hp =>
    cases hs
    have hup := slotsNeeded_update s (absorb s.lh b) s.outstanding s.committing p
      (.inOp (absorb blocks b))
    have hmem := h.logged p
    have hwithin := h.within p
    rw [hp] at hup hmem hwithin
    simp only [OpState.slots_logging, OpState.slots_inOp, OpState.Within] at hup hwithin
    by_cases hb : b ∈ blocks
    · -- the block has its slot already
      have := hmem b hb
      simp only [absorb, if_pos hb, if_pos this] at *
      omega
    · have := length_absorb_le s.lh b
      simp only [absorb, if_neg hb, List.length_append, List.length_singleton] at hup hwithin this ⊢
      omega
  · cases hs

omit [DecidableEq ι] in
theorem slots_le_slotsNeeded (s : LogState ι) : s.lh.length ≤ slotsNeeded s := Nat.le_add_right ..

theorem slotsNeeded_step {a : Act ι} (h : LogInv s) (hs : step s a = .ok s') :
    slotsNeeded s' ≤ slotsNeeded s + (admits s a).toNat * MAXOPBLOCKS := by
  cases a with
  | beginOp p => exact slotsNeeded_beginOp hs
  | logAppend p => exact Nat.le_add_right_of_le (slotsNeeded_logAppend h hs)
  | logCheck p b =>
    refine Nat.le_add_right_of_le ?_
    simp only [step, logCheck] at hs
    split at hs
    next blocks hp =>
      split at hs
      · cases hs
      split at hs
      · cases hs
      cases hs
      exact slotsNeeded_update_le (Nat.le_refl _) (by simp [hp])
    · cases hs
  | endOp p =>
    refine Nat.le_add_right_of_le ?_
    simp only [step, endOp] at hs
    split at hs
    next blocks hp =>
      split at hs
      · cases hs
      split at hs
      · cases hs
        exact slotsNeeded_update_le (Nat.le_refl _) (by simp)
      · cases hs
        exact slotsNeeded_wakeup.trans_le (slotsNeeded_update_le (Nat.le_refl _) (by simp))
    · cases hs
  | commit p =>
    refine Nat.le_add_right_of_le ?_
    simp only [step, doCommit] at hs
    split at hs
    next hp =>
      cases hs
      exact slotsNeeded_update_le (Nat.zero_le _) (by simp)
    · cases hs
  | endCommit p =>
    refine Nat.le_add_right_of_le ?_
    simp only [step, endCommit] at hs
    split at hs
    next hp =>
      cases hs
      exact slotsNeeded_wakeup.trans_le (slotsNeeded_update_le (Nat.le_refl _) (by simp))
    · cases hs

omit [Fintype ι] in
theorem size_step {a : Act ι} (hs : step s a = .ok s') : s'.size = s.size := by
  cases a <;> simp only [step, beginOp, logCheck, logAppend, endOp, doCommit, endCommit] at hs <;>
    (repeat' split at hs) <;> cases hs <;> rfl


/-! ## Runs -/

/-- In a run that always leaves a slot to spare, the slots in use and in demand never fill the
log. -/
theorem slotsNeeded_run {size : Nat} (hsize : 1 < size) (h : Run step Spare (initLog size) s) :
    LogInv s ∧ s.size = size ∧ slotsNeeded s < min LOGSIZE (size - 1) := by
  refine h.invariant (I := fun s => LogInv s ∧ s.size = size ∧ slotsNeeded s < min LOGSIZE (size - 1))
    ⟨.init size, rfl, ?_⟩ ?_
  · simp [slotsNeeded, initLog]
    omega
  rintro s a s' ⟨hinv, hsz, hroom⟩ ⟨hw, hspare⟩ hs
  refine ⟨hinv.step hw hs, (size_step hs).trans hsz, ?_⟩
  have hle := slotsNeeded_step hinv hs
  cases hadm : admits s a with
  | false =>
    rw [hadm, Bool.toNat_false] at hle
    omega
  | true =>
    have := hspare hadm
    rw [hadm, Bool.toNat_true] at hle
    omega

/-- **Log space.** With the log that `mkfs` lays out, in every run in which operations stay within
`MAXOPBLOCKS` distinct blocks and `begin_op` admits one only when its blocks leave a slot to
spare, `log_write` never finds the transaction too big. -/
theorem logCheck_ne_too_big {blocks : List UInt32} {b : UInt32}
    (h : Run step Spare (initLog nlog) s) (hp : s.proc p = .inOp blocks) :
    step s (.logCheck p b) ≠ .error (.panic "too big a transaction") := by
  obtain ⟨-, hsz, hroom⟩ := slotsNeeded_run (by decide) h
  have hle := slots_le_slotsNeeded s
  simp only [LOGSIZE, MAXOPBLOCKS, nlog] at hroom hsz
  simp only [step, logCheck, hp, LOGSIZE, MAXOPBLOCKS, hsz]
  rw [if_neg (by omega)]
  split <;> simp

end

/-- One operation of one process that logs a block: `log_write` goes through. -/
theorem logCheck_ne_too_big_one :
    ∃ s : LogState (Fin 1), Run step Spare (initLog nlog) s ∧ s.proc 0 = .inOp [] ∧
      step s (.logCheck 0 100) ≠ .error (.panic "too big a transaction") := by
  have h : Run step Spare (initLog nlog : LogState (Fin 1)) _ :=
    Run.refl.tail (a := .beginOp 0) (by unfold Spare; decide) rfl
  exact ⟨_, h, rfl, logCheck_ne_too_big h rfl⟩

/-- Three operations are admitted at once and log 29 blocks between them; the last one, which has
logged 9 blocks, stops at its tenth. -/
def threeOps : List (Act (Fin 3)) :=
  [.beginOp 0, .beginOp 1, .beginOp 2] ++
    (List.range 29).flatMap fun i =>
      [.logCheck (Fin.ofNat 3 (i / 10)) (UInt32.ofNat (100 + i)), .logAppend (Fin.ofNat 3 (i / 10))]

theorem logCheck_too_big_three :
    ¬∀ (s : LogState (Fin 3)) (p : Fin 3) (blocks : List UInt32) (b : UInt32),
      Run step (fun s a => withinOp s a = true) (initLog nlog) s → s.proc p = .inOp blocks →
        withinOp s (.logCheck p b) = true →
        step s (.logCheck p b) ≠ .error (.panic "too big a transaction") := by
  intro h
  obtain ⟨s, hs, hp, hw, hpanic⟩ : ∃ s : LogState (Fin 3),
      Run.exec step (fun s a => withinOp s a = true) (initLog nlog) threeOps = .ok s ∧
      s.proc 2 = .inOp (((List.range 9).map fun i => UInt32.ofNat (120 + i))) ∧
      withinOp s (.logCheck 2 129) = true ∧
      step s (.logCheck 2 129) = .error (.panic "too big a transaction") :=
    ⟨_, rfl, by decide, by decide, by rfl⟩
  exact h s 2 _ 129 (Run.of_exec hs) hp hw hpanic

end Xv6.Log
