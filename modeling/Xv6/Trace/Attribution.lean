import Xv6.Trace.Sites

/-!
# Who an event is attributed to

`traceevent` takes the pid from its caller and the name from the current process. All callers pass
the pid of the current process, except `fork`, which passes the pid of the child, and that of the
parent as the first argument. The name is that of the current process unless its pid is negative.
-/

namespace Xv6.Trace

open List

/-! ## Names -/

theorem takeWhile_append_zero {l r : List UInt8} (h : 0 ∉ l) :
    (l ++ 0 :: r).takeWhile (· ≠ 0) = l := by
  rw [takeWhile_append_of_pos, takeWhile_cons_of_neg (by simp), append_nil]
  intro a ha
  simp only [ne_eq, decide_not, Bool.not_eq_eq_eq_not, Bool.not_true, decide_eq_false_iff_not]
  rintro rfl
  exact h ha

/-- A string that fits comes back. -/
theorem cstr_safestrcpy {t : List UInt8} (hlen : t.length ≤ TRACE_NAME_LEN - 1) (h : 0 ∉ t) :
    (safestrcpy (Bytes.zero : Bytes TRACE_NAME_LEN) t).cstr = t := by
  have hne : TRACE_NAME_LEN ≠ 0 := by decide
  have hfit : (t ++ [0]).length ≤ TRACE_NAME_LEN := by
    rw [length_append, length_singleton]
    simp only [TRACE_NAME_LEN] at hlen ⊢
    omega
  rw [safestrcpy, if_neg hne, take_of_length_le hlen, Bytes.cstr, Bytes.blit]
  dsimp only
  rw [take_zero, nil_append, Nat.sub_zero, take_of_length_le hfit, append_assoc,
    singleton_append, takeWhile_append_zero h]

/-! ## Calls -/

section
variable {site : Site} {ticks : UInt32} {proc : Option Who} {call : Call}

/-- The pid that a site passes. -/
def Site.pid (proc : Option Who) : Site → UInt32
  | .fork pid => pid
  | _ => pidOf proc

theorem Site.call_spec (h : site.call ticks proc = some call) :
    call.proc = proc.map Who.current ∧ call.pid = site.pid proc ∧
      ∀ pid, site = .fork pid → call.arg0 = pidOf proc := by
  unfold Site.call at h
  split at h
  · split at h
    · cases h
      exact ⟨rfl, rfl, nofun⟩
    · cases h
  · cases h
    exact ⟨rfl, rfl, fun _ _ => rfl⟩
  · cases h
    exact ⟨rfl, rfl, nofun⟩
  · cases h
    exact ⟨rfl, rfl, nofun⟩
  · cases h
    exact ⟨rfl, rfl, nofun⟩
  · cases h
    exact ⟨rfl, rfl, nofun⟩
  · cases h

end

/-- The event is what `traceevent` writes for a call at this site by this process. -/
def Recorded (e : Entry) : Prop :=
  ∃ ticks call seq overwritten,
    e.site.call ticks e.who = some call ∧ e.event = call.record seq overwritten

section
variable {e : Entry}

theorem Recorded.pid_eq (h : Recorded e) : e.event.pid = e.site.pid e.who := by
  obtain ⟨ticks, call, seq, ov, hcall, heq⟩ := h
  rw [heq]
  exact (Site.call_spec hcall).2.1

theorem Recorded.arg0_eq {pid : UInt32} (h : Recorded e) (hf : e.site = .fork pid) :
    e.event.arg0 = pidOf e.who := by
  obtain ⟨ticks, call, seq, ov, hcall, heq⟩ := h
  rw [heq]
  exact (Site.call_spec hcall).2.2 pid hf

theorem Recorded.comm_eq {w : Who} (h : Recorded e) (hw : e.who = some w) :
    e.event.comm.cstr = if 0 < w.pid.toInt32.toInt then w.name.str else kernelName := by
  obtain ⟨ticks, call, seq, ov, hcall, heq⟩ := h
  have hproc : call.proc = some w.current := by
    rw [(Site.call_spec hcall).1, hw, Option.map_some]
  have hcomm : e.event.comm = call.comm := by rw [heq]; rfl
  rw [hcomm, Call.comm, hproc]
  dsimp only [Who.current]
  split
  · exact cstr_safestrcpy w.name.length_le w.name.ne_zero
  · exact cstr_safestrcpy (by decide) (by decide)

/-- The event carries the pid and the name of the process that ran, and, in `fork`, the pid of the
child as its first argument. -/
structure Attributed (e : Entry) : Prop where
  pid : e.event.pid = pidOf e.who
  comm : ∀ w, e.who = some w → e.event.comm.cstr = w.name.str
  child : ∀ pid, e.site = .fork pid → e.event.arg0 = pid

/-- The process does not fork, or forks a child with its own pid; and its pid is positive, or its
name is `kernel`. -/
structure Plain (e : Entry) : Prop where
  fork : ∀ pid, e.site = .fork pid → pid = pidOf e.who
  named : ∀ w, e.who = some w → 0 < w.pid.toInt32.toInt ∨ w.name.str = kernelName

theorem Recorded.pid_eq_iff (h : Recorded e) :
    e.event.pid = pidOf e.who ↔ ∀ pid, e.site = .fork pid → pid = pidOf e.who := by
  rw [h.pid_eq]
  cases e.site with
  | fork pid => simp [Site.pid]
  | _ => simp [Site.pid]

theorem Recorded.comm_eq_iff {w : Who} (h : Recorded e) (hw : e.who = some w) :
    e.event.comm.cstr = w.name.str ↔ 0 < w.pid.toInt32.toInt ∨ w.name.str = kernelName := by
  rw [h.comm_eq hw]
  split
  next hpos => simp [hpos]
  next hpos => simp [hpos, eq_comm]

theorem Recorded.attributed_iff (h : Recorded e) : Attributed e ↔ Plain e := by
  constructor
  · rintro ⟨hpid, hcomm, -⟩
    exact ⟨h.pid_eq_iff.mp hpid, fun w hw => (h.comm_eq_iff hw).mp (hcomm w hw)⟩
  · rintro ⟨hfork, hnamed⟩
    refine ⟨h.pid_eq_iff.mpr hfork, fun w hw => (h.comm_eq_iff hw).mpr (hnamed w hw), ?_⟩
    intro pid hf
    rw [h.arg0_eq hf, hfork pid hf]

end

/-! ## Runs -/

section
variable {κ : Type} [DecidableEq κ] {k k' : Kernel κ} {c : κ} {site : Site}

omit [DecidableEq κ] in
theorem record_trace (h : k.record c site = .ok k') :
    k'.trace = k.trace ∨ ∃ e, k'.trace = k.trace ++ [e] ∧ e.site = site ∧ e.who = k.who c ∧
      Recorded e := by
  unfold Kernel.record at h
  split at h
  · cases h
  next call hcall =>
    cases h
    dsimp only
    split
    · exact .inr ⟨_, rfl, rfl, rfl, _, call, _, _, hcall, rfl⟩
    · exact .inl rfl

theorem step_trace {a : Step κ} (h : step k a = .ok k') :
    k'.trace = k.trace ∨ ∃ e, k'.trace = k.trace ++ [e] ∧ Recorded e := by
  have hrec : ∀ {k₀ : Kernel κ} {c site}, k₀.record c site = .ok k' → k₀.trace = k.trace →
      k'.trace = k.trace ∨ ∃ e, k'.trace = k.trace ++ [e] ∧ Recorded e := by
    intro k₀ c site hr htr
    rw [← htr]
    exact (record_trace hr).imp_right fun ⟨e, he, _, _, hr⟩ => ⟨e, he, hr⟩
  cases step_move h with
  | exit _ _ hr | announce _ _ hr | event _ hr => exact hrec hr rfl
  | table | fork | exec | tick => exact .inl rfl

theorem recorded_run {events : Fin TRACE_BUF_SIZE → TraceEvent}
    (h : Run step (fun _ _ => True) (boot events) k) : ∀ e ∈ k.trace, Recorded e := by
  refine h.invariant (I := fun k => ∀ e ∈ k.trace, Recorded e) nofun fun hi _ hs => ?_
  rcases step_trace hs with heq | ⟨e, heq, he⟩
  · rwa [heq]
  · rw [heq]
    exact forall_mem_append.mpr ⟨hi, forall_mem_singleton.mpr he⟩

/-- **Attribution.** In every run, an event carries the pid and the name of the process that ran,
and in `fork` the pid of the child, exactly if it is not recorded by the `fork` of a child with
another pid, nor by a process whose pid is not positive and whose name is not `kernel`. And the
events with pid `p` are those that process `p` caused, for every `p`, exactly if there is no event
of a `fork` of the first kind. -/
theorem attributed_iff_plain {events : Fin TRACE_BUF_SIZE → TraceEvent}
    (hrun : Run step (fun _ _ => True) (boot events) k) :
    (∀ e ∈ k.trace, Attributed e ↔ Plain e) ∧
    ((∀ p, k.trace.filter (fun e => e.event.pid = p) = k.trace.filter (fun e => pidOf e.who = p)) ↔
      ∀ e ∈ k.trace, ∀ pid, e.site = .fork pid → pid = pidOf e.who) := by
  have hrec := recorded_run hrun
  refine ⟨fun e he => (hrec e he).attributed_iff, fun h e he => ?_, fun h p => ?_⟩
  · rw [← (hrec e he).pid_eq_iff]
    have hmem : e ∈ k.trace.filter (fun x => x.event.pid = e.event.pid) :=
      mem_filter.mpr ⟨he, decide_eq_true rfl⟩
    rw [h] at hmem
    exact (of_decide_eq_true (mem_filter.mp hmem).2).symm
  · refine filter_congr fun e he => ?_
    rw [(hrec e he).pid_eq_iff.mpr (h e he)]

end

/-- An empty ring. -/
def blank : Fin TRACE_BUF_SIZE → TraceEvent := fun _ => ⟨0, 0, 0, 0, 0, 0, 0, .zero, .zero, 0⟩

set_option maxRecDepth 4000 in
/-- The initial process makes a system call. -/
theorem attributed_iff_plain_write : ∃ k : Kernel Unit,
    Run step (fun _ _ => True) (boot blank) k ∧ ∃ e ∈ k.trace, Attributed e := by
  obtain ⟨k, hk, e, he, hsite, hwho⟩ : ∃ k : Kernel Unit, Run.exec step (fun _ _ => True)
      (boot blank) [.table (.schedule () Process.initSlot), .event () (.syscall 16 1 0)] = .ok k ∧
      ∃ e ∈ k.trace, e.site = .syscall 16 1 0 ∧ e.who = some ⟨1, .copy (cstring "initcode")⟩ :=
    ⟨_, rfl, _, mem_singleton_self _, rfl, rfl⟩
  have hk' := Run.of_exec hk
  refine ⟨k, hk', e, he, ((attributed_iff_plain hk').1 e he).mpr ⟨?_, ?_⟩⟩
  · rw [hsite]
    nofun
  · rw [hwho]
    rintro w ⟨⟩
    exact .inl (by decide)

/-- The initial process forks, up to the record of the event. -/
def forkAnnounce : List (Step Unit) :=
  [.table (.schedule () Process.initSlot), .table (.act () .forkAlloc),
    .table (.act () (.forkKalloc true)), .table (.act () (.forkCopy true)),
    .table (.act () .forkParent), .table (.act () .forkRun), .announce ()]

set_option maxRecDepth 4000 in
/-- The event of a `fork` by process 1 says that process 2 did it, and that 1 is the child. -/
theorem fork_attributed_to_child : ∃ k : Kernel Unit,
    Run step (fun _ _ => True) (boot blank) k ∧ ∃ e ∈ k.trace, e.site = .fork 2 ∧
      pidOf e.who = 1 ∧ e.event.pid = 2 ∧ e.event.arg0 = 1 ∧ ¬Attributed e := by
  obtain ⟨k, hk, e, he, hsite, hwho, hpid, harg⟩ : ∃ k : Kernel Unit,
      Run.exec step (fun _ _ => True) (boot blank) forkAnnounce = .ok k ∧
      ∃ e ∈ k.trace, e.site = .fork 2 ∧ pidOf e.who = 1 ∧ e.event.pid = 2 ∧ e.event.arg0 = 1 :=
    ⟨_, rfl, _, mem_singleton_self _, rfl, rfl, rfl, rfl⟩
  refine ⟨k, Run.of_exec hk, e, he, hsite, hwho, hpid, harg, fun h => ?_⟩
  have := h.pid
  rw [hpid, hwho] at this
  cases this

end Xv6.Trace
