import Xv6.Pipe.Fifo

/-!
# Who sleeps on a pipe

A reader sleeps while the pipe is empty, and a writer while it is full; every step that changes this
wakes them, with one exception. A writer that has been killed gives up when it finds the pipe full,
and does not wake the readers for the bytes that it has already stored. If the pipe was empty before
and a reader sleeps, that reader is left behind (`Heard`).
-/

namespace Xv6.Pipe

/-- Whoever sleeps has no work to do. -/
def Awake (s : Sys π) : Prop :=
  ∀ q, ((s.proc q).chan = some .nread → s.pipe.nread = s.pipe.nwrite ∧ s.pipe.writeopen = true) ∧
    ((s.proc q).chan = some .nwrite →
      s.pipe.nwrite = s.pipe.nread + UInt32.ofNat PIPESIZE ∧ s.pipe.readopen = true)

/-- The step is not a stretch of a killed writer with more than `PIPESIZE` bytes left, on an empty
pipe that a reader sleeps on. -/
def Heard (s : Sys π) : Step π → Prop
  | .run me _ =>
    match (s.proc me).op with
    | .write _ _ rest => ¬((s.proc me).killed = true ∧ s.pipe.nread = s.pipe.nwrite ∧
        PIPESIZE < rest.length ∧ ∃ q, (s.proc q).chan = some .nread)
    | _ => True
  | _ => True

instance [Fintype π] (s : Sys π) (a : Step π) : Decidable (Heard s a) := by
  unfold Heard
  split
  · split <;> infer_instance
  · infer_instance

/-- Beside that, sleepers are in calls, and calls are on open ends. -/
structure Sleepers (s : Sys π) : Prop where
  awake : Awake s
  reads : ∀ q, (s.proc q).chan = some .nread → (s.proc q).op.reads = true
  readopen : ∀ q, (s.proc q).op.reads = true → s.pipe.readopen = true
  writeopen : ∀ q, (s.proc q).op.writes = true → s.pipe.writeopen = true

section
variable {π : Type} {s t : Sys π} {me q : π}

theorem wakeups_chan (cs : List Chan) (proc : π → Proc) (q : π) :
    (cs.foldr wakeup proc q).chan =
      if ∃ c ∈ cs, (proc q).chan = some c then none else (proc q).chan := by
  induction cs with
  | nil => simp
  | cons c cs ih =>
    rw [List.foldr_cons, wakeup]
    split
    next h =>
      rw [ih] at h
      split at h
      · cases h
      · rw [if_pos ⟨c, List.mem_cons_self, h⟩]
    next h =>
      rw [ih] at h ⊢
      by_cases hex : ∃ c ∈ cs, (proc q).chan = some c
      · obtain ⟨d, hd, hc⟩ := hex
        rw [if_pos ⟨d, hd, hc⟩, if_pos ⟨d, List.mem_cons_of_mem c hd, hc⟩]
      · rw [if_neg hex] at h ⊢
        rw [if_neg]
        rintro ⟨d, hd, hc⟩
        obtain rfl | hd := List.mem_cons.mp hd
        · exact h hc
        · exact hex ⟨d, hd, hc⟩

theorem wakeup_chan (c : Chan) (proc : π → Proc) (q : π) :
    (wakeup c proc q).chan = if (proc q).chan = some c then none else (proc q).chan := by
  have := wakeups_chan [c] proc q
  simpa using this

theorem Stretch.procs_chan [DecidableEq π] {r : Stretch} {proc : π → Proc} {op : Op} {late : Bool} :
    (r.procs proc me op late q).chan = if q = me then r.ending.chan
      else if ∃ c ∈ r.wakes, (proc q).chan = some c then none else (proc q).chan := by
  rw [procs, Function.update_apply]
  split
  · rfl
  · exact wakeups_chan ..

theorem Sleepers.start (data : Fin PIPESIZE → UInt8) (killed : π → Bool) :
    Sleepers (start data killed) :=
  ⟨fun _ => ⟨nofun, nofun⟩, nofun, nofun, nofun⟩

/-- The processes may wake, and the ends of the pipe stay as they are. -/
theorem Sleepers.wake (h : Sleepers s) (hpipe : t.pipe = s.pipe)
    (hop : ∀ q, (t.proc q).op = (s.proc q).op)
    (hchan : ∀ q c, (t.proc q).chan = some c → (s.proc q).chan = some c) : Sleepers t := by
  refine ⟨fun q => ⟨fun hq => ?_, fun hq => ?_⟩, fun q hq => ?_, fun q hq => ?_, fun q hq => ?_⟩
  · rw [hpipe]
    exact (h.awake q).1 (hchan q _ hq)
  · rw [hpipe]
    exact (h.awake q).2 (hchan q _ hq)
  · rw [hop]
    exact h.reads q (hchan q _ hq)
  · rw [hpipe]
    exact h.readopen q (hop q ▸ hq)
  · rw [hpipe]
    exact h.writeopen q (hop q ▸ hq)

theorem Sleepers.stretch [DecidableEq π] {r : Stretch} {op : Op} {late : Bool} (h : Sleepers s)
    (hop : (s.proc me).op = op ∨ op.writes = true ∧ (s.proc me).op.writes = true)
    (hpipe : t.pipe = r.pipe) (hproc : t.proc = r.procs s.proc me op late)
    (hread : r.pipe.readopen = s.pipe.readopen) (hwrite : r.pipe.writeopen = s.pipe.writeopen)
    (hends : r.ending.chan = some .nread → op.reads = true) (hawake : Awake t) : Sleepers t := by
  have hopen : ∀ q, (t.proc q).op = .idle ∨ (t.proc q).op = (s.proc q).op ∨
      (t.proc q).op.writes = true ∧ (s.proc q).op.writes = true ∧ (t.proc q).op.reads = false := by
    intro q
    rw [hproc, Stretch.procs_op]
    split
    next heq =>
      subst heq
      split
      · exact .inl rfl
      · refine .inr (hop.imp Eq.symm fun hw => ⟨hw.1, hw.2, ?_⟩)
        cases op <;> first | rfl | exact absurd hw.1 nofun
    · exact .inr (.inl rfl)
  refine ⟨hawake, fun q hq => ?_, fun q hq => ?_, fun q hq => ?_⟩
  · rw [hproc, Stretch.procs_chan] at hq
    rw [hproc, Stretch.procs_op]
    split
    next heq =>
      rw [if_pos heq] at hq
      rw [if_neg (by rw [hq]; nofun)]
      exact hends hq
    next hne =>
      rw [if_neg hne] at hq
      split at hq
      · cases hq
      · exact h.reads q hq
  · rw [hpipe, hread]
    obtain hi | heq | ⟨-, -, hr⟩ := hopen q
    · rw [hi] at hq
      cases hq
    · exact h.readopen q (heq ▸ hq)
    · rw [hr] at hq
      cases hq
  · rw [hpipe, hwrite]
    obtain hi | heq | ⟨-, hw, -⟩ := hopen q
    · rw [hi] at hq
      cases hq
    · exact h.writeopen q (heq ▸ hq)
    · exact h.writeopen q hw

end

/-! ## Stretches -/

section
variable {π : Type} [DecidableEq π] {s t : Sys π} {me : π} {late : Bool}

/-- A stretch of `pipewrite` leaves everyone with work awake, unless it is not heard. -/
theorem awake_write {id : Nat} {n : Int} {rest : List UInt8} {op : Op} (h : Sleepers s)
    (hb : Books s) (hme : (s.proc me).op = .write id n rest) {r : Stretch}
    (hr : writeLoop n (s.proc me).killed s.pipe rest = r) (hpipe : t.pipe = r.pipe)
    (hproc : t.proc = r.procs s.proc me op late) : Awake t ↔ Heard s (.run me late) := by
  have hle := hb.pipe.used_le
  obtain ⟨hm, -, hp, hu, he⟩ := writeLoop_spec n (s.proc me).killed hle rest
  rw [hr] at hm hp hu he
  obtain ⟨hro, hwo, hnr⟩ := readopen_foldl_put (p := s.pipe) r.moved
  rw [← hp] at hro hwo hnr
  have hmlen : r.moved.length = min (PIPESIZE - s.pipe.used) rest.length := by
    rw [hm, List.length_take]
  -- writers that sleep find the pipe as full as before
  have hfull : ∀ q, (s.proc q).chan = some .nwrite →
      r.pipe.nwrite = r.pipe.nread + UInt32.ofNat PIPESIZE ∧ r.pipe.readopen = true := by
    intro q hq
    obtain ⟨hf, ho⟩ := (h.awake q).2 hq
    rw [full_iff] at hf
    rw [full_iff, hro]
    exact ⟨by omega, ho⟩
  simp only [Heard, hme, Awake, hpipe, hproc]
  split at he
  next hfit =>
    refine ⟨fun _ hno => by omega, fun _ q => ?_⟩
    rw [Stretch.procs_chan, he.1]
    simp only [List.mem_singleton, exists_eq_left, Ending.chan]
    constructor
    · grind
    · intro hq
      refine hfull q ?_
      grind
  next hbig =>
    have hrfull : r.pipe.used = PIPESIZE := by omega
    split at he
    next hstop =>
      refine ⟨fun haw hno => ?_, fun hheard q => ?_⟩
      · obtain ⟨-, -, -, q, hq⟩ := hno
        have hqme : q ≠ me := by
          rintro rfl
          have := h.reads q hq
          rw [hme] at this
          cases this
        have := (haw q).1 (by
          rw [Stretch.procs_chan, if_neg hqme, he.1]
          simpa using hq)
        have hzero : r.pipe.used = 0 := empty_iff.mp this.1
        rw [hrfull] at hzero
        cases hzero
      · rw [Stretch.procs_chan]
        simp only [Ending.chan]
        constructor
        · intro hq
          -- a reader sleeps, so the read end is open and the pipe empty: the writer was killed
          exfalso
          have hqr : (s.proc q).chan = some .nread := by grind
          have hopen := h.readopen q (h.reads q hqr)
          have hempty := ((h.awake q).1 hqr).1
          refine hheard ⟨hstop.resolve_left (by rw [hopen]; exact Bool.noConfusion), hempty, ?_, q, hqr⟩
          rw [empty_iff.mp hempty] at hbig
          exact Nat.lt_of_not_le hbig
        · intro hq
          exact hfull q (by grind)
    next hgo =>
      rw [not_or, Bool.not_eq_false] at hgo
      refine ⟨fun _ hno => hgo.2 hno.1, fun _ q => ?_⟩
      rw [Stretch.procs_chan, he.1]
      simp only [List.mem_singleton, exists_eq_left, Ending.chan]
      constructor
      · grind
      · intro _
        rw [full_iff, hro]
        exact ⟨hrfull, hgo.1⟩

theorem awake_read {n : Int} {op : Op} (h : Sleepers s) {r : Stretch}
    (hr : readStretch n (s.proc me).killed s.pipe = r) (hpipe : t.pipe = r.pipe)
    (hproc : t.proc = r.procs s.proc me op late) : Awake t := by
  intro q
  rw [hproc, Stretch.procs_chan]
  unfold readStretch at hr
  split at hr
  next hempty =>
    have := h.awake q
    split at hr
    · simp only [Ending.chan]
      grind
    · simp only [Ending.chan]
      grind
  next hgo =>
    have := h.awake q
    subst hr
    simp only [Ending.chan, List.mem_singleton, exists_eq_left]
    grind

/-- A process that is in no call starts one, on an open end. -/
theorem Sleepers.call {op : Op} (h : Sleepers s) (hidle : (s.proc me).op = .idle)
    (hread : op.reads = true → s.pipe.readopen = true)
    (hwrite : op.writes = true → s.pipe.writeopen = true) (hpipe : t.pipe = s.pipe)
    (hproc : t.proc = Function.update s.proc me { s.proc me with op }) : Sleepers t := by
  have hchan : ∀ q, (t.proc q).chan = (s.proc q).chan := fun q => by
    rw [hproc, Function.update_apply]
    split
    next heq => rw [heq]
    next => rfl
  have hop : ∀ q, (t.proc q).op = if q = me then op else (s.proc q).op := fun q => by
    rw [hproc, Function.update_apply]
    split <;> rfl
  refine ⟨fun q => ?_, fun q hq => ?_, fun q hq => ?_, fun q hq => ?_⟩
  · rw [hpipe, hchan]
    exact h.awake q
  · rw [hchan] at hq
    have hr := h.reads q hq
    rw [hop, if_neg]
    · exact hr
    · rintro rfl
      rw [hidle] at hr
      cases hr
  · rw [hpipe]
    rw [hop] at hq
    split at hq
    · exact hread hq
    · exact h.readopen q hq
  · rw [hpipe]
    rw [hop] at hq
    split at hq
    · exact hwrite hq
    · exact h.writeopen q hq

theorem Sleepers.close {π : Type} [Fintype π] {s t : Sys π} {writable : Bool} (h : Sleepers s) (hs : pipeclose s writable = .ok t) :
    Sleepers t := by
  unfold pipeclose at hs
  split at hs
  · split at hs
    · cases hs
    next hok =>
      rw [not_or, not_exists] at hok
      cases hs
      refine ⟨fun q => ⟨fun hq => ?_, fun hq => ?_⟩, fun q hq => ?_, fun q hq => ?_, fun q hq => ?_⟩
      · rw [wakeup_chan] at hq
        grind
      · rw [wakeup_chan] at hq
        exact (h.awake q).2 (by grind)
      · rw [wakeup_chan] at hq
        grind
      · rw [wakeup_op] at hq
        exact h.readopen q hq
      · rw [wakeup_op] at hq
        exact absurd hq (hok.2 q)
  · split at hs
    · cases hs
    next hok =>
      rw [not_or, not_exists] at hok
      cases hs
      refine ⟨fun q => ⟨fun hq => ?_, fun hq => ?_⟩, fun q hq => ?_, fun q hq => ?_, fun q hq => ?_⟩
      · rw [wakeup_chan] at hq
        exact (h.awake q).1 (by grind)
      · rw [wakeup_chan] at hq
        grind
      · rw [wakeup_chan] at hq
        rw [wakeup_op]
        exact h.reads q (by grind)
      · rw [wakeup_op] at hq
        exact absurd hq (hok.2 q)
      · rw [wakeup_op] at hq
        exact h.writeopen q hq

variable [Fintype π] {a : Step π}

/-- Everyone with work is awake after a step that is heard, and only then. -/
theorem Sleepers.step_iff (h : Sleepers s) (hb : Books s) (hs : step s a = .ok t) :
    (Heard s a → Sleepers t) ∧ (Awake t → Heard s a) := by
  cases a with
  | write me n addr =>
    refine ⟨fun _ => ?_, fun _ => trivial⟩
    simp only [Pipe.step] at hs
    split at hs
    · cases hs
    next hok =>
      rw [not_or, not_not, Bool.not_eq_false] at hok
      cases hs
      refine h.call hok.1 ?_ (fun _ => hok.2) rfl rfl
      exact fun hr => absurd hr Bool.false_ne_true
  | read me n =>
    refine ⟨fun _ => ?_, fun _ => trivial⟩
    simp only [Pipe.step] at hs
    split at hs
    · cases hs
    next hok =>
      rw [not_or, not_not, Bool.not_eq_false] at hok
      cases hs
      refine h.call hok.1 (fun _ => hok.2) ?_ rfl rfl
      exact fun hw => absurd hw Bool.false_ne_true
  | run me late =>
    simp only [Pipe.step, Pipe.stretch] at hs
    split at hs
    · cases hs
    split at hs
    · cases hs
    next id n rest hme =>
      cases hs
      refine ⟨fun hheard => ?_, (awake_write h hb hme rfl rfl rfl).mp⟩
      obtain ⟨-, -, hp, -, he⟩ := writeLoop_spec n (s.proc me).killed hb.pipe.used_le rest
      obtain ⟨hro, hwo, -⟩ := readopen_foldl_put (p := s.pipe)
        (writeLoop n (s.proc me).killed s.pipe rest).moved
      rw [← hp] at hro hwo
      refine h.stretch (.inr ⟨rfl, by rw [hme]; rfl⟩) rfl rfl hro hwo (fun hend => ?_)
        ((awake_write h hb hme rfl rfl rfl).mpr hheard)
      exfalso
      split at he
      · rw [he.2] at hend
        cases hend
      · split at he <;>
        · rw [he.2] at hend
          cases hend
    next n hme =>
      cases hs
      refine ⟨fun _ => ?_, fun _ => by simp only [Heard, hme]⟩
      obtain ⟨-, -, hro, hwo⟩ := hb.pipe.readLoop n.toNat
      refine h.stretch (.inl hme) rfl rfl ?_ ?_ (fun _ => rfl) (awake_read h rfl rfl rfl)
      · unfold readStretch
        split
        · split <;> rfl
        · exact hro
      · unfold readStretch
        split
        · split <;> rfl
        · exact hwo
  | kill who =>
    refine ⟨fun _ => ?_, fun _ => trivial⟩
    cases hs
    refine h.wake rfl (fun q => ?_) fun q c hq => ?_
    · simp only [Function.update_apply]
      split
      next heq => rw [heq]
      next => rfl
    · simp only [Function.update_apply] at hq
      split at hq
      · cases hq
      · exact hq
  | close writable => exact ⟨fun _ => h.close hs, fun _ => trivial⟩

variable {data : Fin PIPESIZE → UInt8} {killed : π → Bool}

theorem sleepers_run (hrun : Run step Heard (start data killed) s) : Sleepers s ∧ Books s :=
  hrun.invariant (I := fun s => Sleepers s ∧ Books s) ⟨.start data killed, .start data killed⟩
    fun h hheard hs => ⟨(h.1.step_iff h.2 hs).1 hheard, h.2.step hs⟩

/-- **No lost wakeup.** In every state that steps which are all heard lead to, a process that sleeps
on `&p->nread` has an empty pipe with an open write end, and one that sleeps on `&p->nwrite` a full
pipe with an open read end; and this is so again after any further step exactly if that step is
heard. -/
theorem no_lost_wakeup (hrun : Run step Heard (start data killed) s) :
    Awake s ∧ ∀ a t, step s a = .ok t → (Awake t ↔ Heard s a) := by
  obtain ⟨h, hb⟩ := sleepers_run hrun
  exact ⟨h.awake, fun a t hs => ⟨(h.step_iff hb hs).2, fun hheard =>
    ((h.step_iff hb hs).1 hheard).awake⟩⟩

end

/-- A reader sleeps, and a writer wakes it. -/
theorem no_lost_wakeup_one : ∃ s : Sys Bool,
    Run step Heard (start (fun _ => 0) fun _ => false) s ∧
    (s.proc false).chan = some .nread ∧ s.pipe.nread = s.pipe.nwrite := by
  obtain ⟨s, hs, hchan⟩ : ∃ s : Sys Bool, Run.exec step Heard (start (fun _ => 0) fun _ => false)
      [.read false 2, .run false false] = .ok s ∧ (s.proc false).chan = some .nread :=
    ⟨_, rfl, rfl⟩
  have hs' := Run.of_exec hs
  exact ⟨s, hs', hchan, (((no_lost_wakeup hs').1 false).1 hchan).1⟩

/-- A reader sleeps on an empty pipe. A writer of 513 bytes is killed, fills the pipe and returns;
the reader still sleeps. -/
theorem reader_left_behind : ∃ s : Sys Bool,
    Run step (fun _ _ => True) (start (fun _ => 0) fun _ => false) s ∧
    (s.proc false).chan = some .nread ∧ s.pipe.nread ≠ s.pipe.nwrite := by
  obtain ⟨s, hs, hrest⟩ : ∃ s : Sys Bool, Run.exec step (fun _ _ => True)
      (start (fun _ => 0) fun _ => false) [.read false 1, .run false false,
        .write true 513 fun _ => 0, .kill true, .run true false] = .ok s ∧
      (s.proc false).chan = some .nread ∧ s.pipe.nread ≠ s.pipe.nwrite := by decide +kernel
  exact ⟨s, Run.of_exec hs, hrest⟩

end Xv6.Pipe
