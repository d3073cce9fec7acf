import Xv6.Trace.Attribution

/-!
# The event of a fork and the events of the child

`fork` makes the child runnable before it records its event, so the child may record events of its
own first. In a run in which no process records an event before its own `fork` event (`Announced`;
and pids do not wrap onto pids that are still in use), the `fork` event comes before every other
event with the pid of the child.
-/

namespace Xv6.Process

/-! ## Pids in a step of the table -/

/-- The slot is not newly in use. -/
def Proc.Keeps (p p' : Proc) : Prop :=
  p'.state ≠ .unused → p.state ≠ .unused ∧ p'.pid = p.pid ∧ (p'.state = .embryo → p.state = .embryo)

/-- The same of a member. -/
def Member.Keeps (m m' : Member) : Prop :=
  m'.kind ≠ .unused → m.kind ≠ .unused ∧ m'.pid = m.pid ∧ (m'.kind = .embryo → m.kind = .embryo)

theorem Member.Keeps.proc {p p' : Proc} (h : p.member.Keeps p'.member) : p.Keeps p' := by
  intro hu
  obtain ⟨hk, hpid, he⟩ := h (mt kind_eq_unused.mp hu)
  exact ⟨mt kind_eq_unused.mpr hk, hpid, fun hs => kind_eq_embryo (he (congrArg ProcState.kind hs))⟩

/-- A step of a family makes one member at most, and then takes a pid. -/
theorem Family.Step.keeps {F F' : Family} (ht : F.Tree) (hs : F.Step F') :
    (∀ i, (F.member i).Keeps (F'.member i)) ∨
    F'.nextpid = F.nextpid + 1 ∧ ∃ np, (F'.member np).pid = F.nextpid ∧
      ∀ i, i ≠ np → (F.member i).Keeps (F'.member i) := by
  have hkinds := ht.kinds
  unfold Member.Keeps
  cases hs with
  | @alloc me np hme htask hnp =>
    refine .inr ⟨rfl, np, ?_, ?_⟩ <;> grind
  | _ =>
    left
    grind

variable {κ : Type} [DecidableEq κ] {s s' : PTable κ}

omit [DecidableEq κ] in
theorem reap_nextpid {me p : Slot} (h : reap s me p = .ok s') : s'.nextpid = s.nextpid := by
  unfold reap at h
  dsimp only at h
  split at h
  · cases h
  split at h
  · cases h
  cases h
  rfl

theorem waitLoop_nextpid {c : κ} {me : Slot} (h : waitLoop s c me = .ok s') :
    s'.nextpid = s.nextpid := by
  unfold waitLoop at h
  dsimp only at h
  split at h
  · exact reap_nextpid h
  · split at h <;> cases h <;> rfl

/-- Only `allocproc` takes a pid. -/
theorem run_nextpid {c : κ} {me : Slot} {a : Act} (h : run s c me a = .ok s') :
    a = .forkAlloc ∨ s'.nextpid = s.nextpid := by
  cases a with
  | forkAlloc => exact .inl rfl
  | wait =>
    simp only [run, wait] at h
    split at h
    · cases h
    · exact .inr (waitLoop_nextpid h)
  | kill pid =>
    simp only [run] at h
    split at h
    · cases h
    · cases h
      unfold kill
      split <;> exact .inr rfl
  | forkKalloc ok =>
    simp only [run, forkKalloc] at h
    split at h
    · split at h <;> cases h <;> exact .inr rfl
    · cases h
  | forkCopy ok =>
    simp only [run, forkCopy] at h
    split at h
    · split at h
      · cases h
        exact .inr rfl
      · split at h <;> cases h
        exact .inr rfl
    · cases h
  | forkParent =>
    simp only [run, forkParent] at h
    split at h <;> cases h
    exact .inr rfl
  | forkRun =>
    simp only [run, forkRun] at h
    split at h <;> cases h
    exact .inr rfl
  | exitStart =>
    simp only [run, exitStart] at h
    split at h
    · cases h
    split at h <;> cases h
    exact .inr rfl
  | exitSection =>
    simp only [run, exitSection] at h
    split at h <;> cases h
    exact .inr rfl
  | fault =>
    simp only [run] at h
    split at h <;> cases h
    exact .inr rfl
  | yield =>
    cases h
    exact .inr rfl
  | sleep addr =>
    simp only [run, sleepOn] at h
    split at h <;> cases h
    exact .inr rfl

theorem step_nextpid {a : Step κ} (h : step s a = .ok s') :
    (∃ c, a = .act c .forkAlloc) ∨ s'.nextpid = s.nextpid := by
  cases a with
  | act c a =>
    simp only [step] at h
    split at h
    · cases h
    · exact (run_nextpid h).imp_left fun ha => ⟨c, by rw [ha]⟩
  | schedule c p =>
    simp only [step, schedule] at h
    split at h
    · cases h
    split at h
    · have hnext := waitLoop_nextpid h
      exact .inr hnext
    · cases h
      exact .inr rfl
  | wakeup addr =>
    cases h
    exact .inr rfl

theorem exitStart_keeps {c : κ} (h : step s (.act c .exitStart) = .ok s') :
    s'.cpu = s.cpu ∧ ∀ i, (s'.proc i).pid = (s.proc i).pid := by
  simp only [step, run, exitStart] at h
  split at h
  · cases h
  split at h
  · cases h
  split at h
  · cases h
  cases h
  refine ⟨rfl, fun i => ?_⟩
  simp only [PTable.set, update_apply]
  split
  next hi => rw [hi]
  next => rfl

/-- A step of the table brings one slot into use at most, in `allocproc`, with the next pid. -/
theorem step_keeps {a : Step κ} (h : Sound s) (hs : step s a = .ok s') :
    (∀ i, (s.proc i).Keeps (s'.proc i)) ∨
    (∃ c, a = .act c .forkAlloc) ∧ ∃ np, (s'.proc np).pid = s.nextpid ∧
      ∀ i, i ≠ np → (s.proc i).Keeps (s'.proc i) := by
  rcases family_step h hs with heq | hstep
  · refine .inl fun i => Member.Keeps.proc fun hu => ?_
    have hm : (s'.proc i).member = (s.proc i).member := congrFun (congrArg Family.member heq) i
    rw [hm] at hu ⊢
    exact ⟨hu, rfl, id⟩
  · rcases hstep.keeps h.tree with hk | ⟨hnext, np, hpid, hk⟩
    · exact .inl fun i => (hk i).proc
    · rcases step_nextpid hs with ha | hsn
      · exact .inr ⟨ha, np, hpid, fun i hi => (hk i hi).proc⟩
      · have hcontra : s.nextpid + 1 = s.nextpid := hnext.symm.trans hsn
        simp at hcontra

end Xv6.Process

namespace Xv6.Trace

open Process (PTable Slot)

variable {κ : Type} {k k' : Kernel κ} {c : κ} {site : Site} {me : Slot}

/-! ## The condition -/

/-- No process records an event before its own `fork` event, and `allocproc` hands out a pid that
is not zero and has no process, no recorded event and no `fork` event to come. -/
def Announced (k : Kernel κ) : Step κ → Prop
  | .table (.act _ .forkAlloc) => k.table.nextpid ≠ 0 ∧
      (∀ i, (k.table.proc i).state ≠ .unused → (k.table.proc i).pid ≠ k.table.nextpid) ∧
      (∀ q, k.announcing q ≠ some k.table.nextpid) ∧
      ∀ e ∈ k.trace, e.event.pid ≠ k.table.nextpid
  | .table (.act c .exitStart) | .event c _ =>
    ∀ p, k.table.cpu c = some p → ∀ q, k.announcing q ≠ some (k.table.proc p).pid
  | _ => True

/-- No event comes before the `fork` event for its pid, be that recorded or still to come. -/
structure ForkFirst (k : Kernel κ) : Prop where
  order : k.trace.Pairwise fun e' e => ∀ pid, e.site = .fork pid → e'.event.pid ≠ pid
  pending : ∀ q pid, k.announcing q = some pid → ∀ e ∈ k.trace, e.event.pid ≠ pid

/-- Beside that, a child that has not been announced has a pid of its own. -/
structure Ordered (k : Kernel κ) : Prop extends ForkFirst k where
  sound : Process.Sound k.table
  enabled : k.buf.enabled = true
  nonzero : ∀ q pid, k.announcing q = some pid → pid ≠ 0
  inj : ∀ q q' pid, k.announcing q = some pid → k.announcing q' = some pid → q = q'
  embryo : ∀ i, (k.table.proc i).state = .embryo → (k.table.proc i).pid ≠ 0 ∧
    (∀ e ∈ k.trace, e.event.pid ≠ (k.table.proc i).pid) ∧
    (∀ q, k.announcing q ≠ some (k.table.proc i).pid) ∧
    ∀ j, (k.table.proc j).state ≠ .unused → (k.table.proc j).pid = (k.table.proc i).pid → j = i

/-! ## Steps -/

theorem Ordered.keeps {t : PTable κ} (h : Ordered k) (ht : Process.Sound t)
    (hk : ∀ i, (k.table.proc i).Keeps (t.proc i)) : Ordered { k with table := t } := by
  refine ⟨⟨h.order, h.pending⟩, ht, h.enabled, h.nonzero, h.inj, fun i hi => ?_⟩
  obtain ⟨-, hpid, he⟩ := hk i (by rw [hi]; nofun)
  obtain ⟨hne, htr, hann, hdist⟩ := h.embryo i (he hi)
  rw [hpid]
  refine ⟨hne, htr, hann, fun j hj hjp => ?_⟩
  obtain ⟨hju, hjpid, -⟩ := hk j hj
  exact hdist j hju (hjpid ▸ hjp)

/-- `allocproc` brings a slot into use, with a pid that is not. -/
theorem Ordered.alloc {t : PTable κ} {np : Slot} (h : Ordered k) (ht : Process.Sound t)
    (hc : Announced k (.table (.act c .forkAlloc))) (hpid : (t.proc np).pid = k.table.nextpid)
    (hk : ∀ i, i ≠ np → (k.table.proc i).Keeps (t.proc i)) : Ordered { k with table := t } := by
  obtain ⟨hzero, hfree, hann, htr⟩ := hc
  -- the new pid differs from those of all other slots
  have hother : ∀ j, j ≠ np → (t.proc j).state ≠ .unused → (t.proc j).pid ≠ (t.proc np).pid := by
    intro j hj hju
    obtain ⟨hju', hjpid, -⟩ := hk j hj hju
    rw [hpid, hjpid]
    exact hfree j hju'
  refine ⟨⟨h.order, h.pending⟩, ht, h.enabled, h.nonzero, h.inj, fun i hi => ?_⟩
  have hiu : (t.proc i).state ≠ .unused := by rw [hi]; nofun
  by_cases hin : i = np
  · subst hin
    refine ⟨hpid ▸ hzero, hpid ▸ htr, hpid ▸ hann, fun j hj hjp => ?_⟩
    by_contra hne
    exact hother j hne hj hjp
  · obtain ⟨-, hipid, he⟩ := hk i hin hiu
    obtain ⟨hne, htr', hann', hdist⟩ := h.embryo i (he hi)
    refine ⟨hipid ▸ hne, hipid ▸ htr', hipid ▸ hann', fun j hj hjp => ?_⟩
    by_cases hjn : j = np
    · subst hjn
      exact absurd hjp.symm (hother i hin hiu)
    · obtain ⟨hju, hjpid, -⟩ := hk j hjn hj
      exact hdist j hju (by rw [← hjpid, hjp, hipid])

variable [DecidableEq κ]

theorem Ordered.table {t : PTable κ} {a : Process.Step κ} (h : Ordered k)
    (hc : Announced k (.table a)) (hs : Process.step k.table a = .ok t) :
    Ordered { k with table := t } := by
  rcases Process.step_keeps h.sound hs with hk | ⟨⟨c, rfl⟩, np, hpid, hk⟩
  · exact h.keeps (h.sound.step hs) hk
  · exact h.alloc (h.sound.step hs) hc hpid hk

omit [DecidableEq κ] in
theorem record_ok (hen : k.buf.enabled = true) (h : k.record c site = .ok k') :
    k'.table = k.table ∧ k'.announcing = k.announcing ∧ k'.buf.enabled = true ∧
      ∃ e, k'.trace = k.trace ++ [e] ∧ e.site = site ∧ e.event.pid = site.pid (k.who c) := by
  unfold Kernel.record at h
  split at h
  · cases h
  next call hcall =>
    cases h
    refine ⟨rfl, rfl, ?_, ⟨site, k.who c, call.record k.buf.seq k.buf.overwritten⟩, ?_, rfl,
      (Site.call_spec hcall).2.1⟩
    · simp only [traceevent, hen, Bool.not_true, Bool.false_eq_true, if_false]
      split <;> rfl
    · simp only [hen, if_true]

omit [DecidableEq κ] in
/-- An event with a pid for which no `fork` event is to come. -/
theorem Ordered.append {e : Entry} (h : Ordered k) (htab : k'.table = k.table)
    (hann : k'.announcing = k.announcing) (hen : k'.buf.enabled = true)
    (htr : k'.trace = k.trace ++ [e])
    (hfork : ∀ pid, e.site = .fork pid → ∀ e' ∈ k.trace, e'.event.pid ≠ pid)
    (hpend : ∀ q, k.announcing q ≠ some e.event.pid)
    (hemb : ∀ i, (k.table.proc i).state = .embryo → e.event.pid ≠ (k.table.proc i).pid) :
    Ordered k' := by
  refine ⟨⟨?_, fun q pid hq => ?_⟩, htab ▸ h.sound, hen, hann ▸ h.nonzero, hann ▸ h.inj,
    fun i hi => ?_⟩
  · rw [htr, List.pairwise_append]
    refine ⟨h.order, List.pairwise_singleton .., fun e' he' x hx pid hsite => ?_⟩
    rw [List.mem_singleton.mp hx] at hsite
    exact hfork pid hsite e' he'
  · rw [hann] at hq
    rw [htr, List.forall_mem_append, List.forall_mem_singleton]
    refine ⟨h.pending q pid hq, ?_⟩
    rintro rfl
    exact hpend q hq
  · rw [htab] at hi ⊢
    obtain ⟨hne, htr', hann', hdist⟩ := h.embryo i hi
    rw [hann, htr, List.forall_mem_append, List.forall_mem_singleton]
    exact ⟨hne, ⟨htr', hemb i hi⟩, hann', hdist⟩

omit [DecidableEq κ] in
theorem Ordered.record (h : Ordered k) (hr : k.record c site = .ok k')
    (hsite : ∀ pid, site ≠ .fork pid)
    (hc : ∀ p, k.table.cpu c = some p → ∀ q, k.announcing q ≠ some (k.table.proc p).pid) :
    Ordered k' := by
  obtain ⟨htab, hann, hen, e, htr, hes, hpid⟩ := record_ok h.enabled hr
  have hpid' : e.event.pid = pidOf (k.who c) := by
    rw [hpid]
    cases site with
    | fork pid => exact absurd rfl (hsite pid)
    | _ => rfl
  refine h.append htab hann hen htr (fun pid hf => absurd (hes ▸ hf) (hsite pid)) ?_ ?_
  · intro q hq
    rw [hpid'] at hq
    cases hcpu : k.table.cpu c with
    | none => exact h.nonzero q _ hq (by simp [Kernel.who, hcpu, pidOf])
    | some p => exact hc p hcpu q (by simpa [Kernel.who, hcpu, pidOf] using hq)
  · intro i hi heq
    obtain ⟨hne, -, -, hdist⟩ := h.embryo i hi
    rw [hpid'] at heq
    cases hcpu : k.table.cpu c with
    | none => exact hne (by simpa [Kernel.who, hcpu, pidOf] using heq.symm)
    | some p =>
      have hrun := h.sound.running c p hcpu
      -- a process that runs is no embryo
      have hip := hdist p (by rw [hrun]; nofun) (by simpa [Kernel.who, hcpu, pidOf] using heq)
      rw [← hip, hrun] at hi
      cases hi

omit [DecidableEq κ] in
theorem Ordered.announce {pid : UInt32} (h : Ordered k) (hme : k.announcing me = some pid)
    (hr : Kernel.record { k with announcing := update k.announcing me none } c
      (.fork pid) = .ok k') : Ordered k' := by
  have hsub : ∀ {q p}, update k.announcing me none q = some p →
      k.announcing q = some p ∧ q ≠ me := by
    intro q p hq
    rw [update_apply] at hq
    split at hq
    · cases hq
    next hne => exact ⟨hq, hne⟩
  have hclear : Ordered { k with announcing := update k.announcing me none } := by
    refine ⟨⟨h.order, fun q p hq => h.pending q p (hsub hq).1⟩, h.sound, h.enabled,
      fun q p hq => h.nonzero q p (hsub hq).1,
      fun q q' p hq hq' => h.inj q q' p (hsub hq).1 (hsub hq').1, fun i hi => ?_⟩
    obtain ⟨hne, htr, hann, hdist⟩ := h.embryo i hi
    exact ⟨hne, htr, fun q hq => hann q (hsub hq).1, hdist⟩
  obtain ⟨htab, hann, hen, e, htr, hes, hpid⟩ := record_ok hclear.enabled hr
  refine hclear.append htab hann hen htr ?_ ?_ ?_
  · intro p hf
    rw [hes] at hf
    cases hf
    exact h.pending me pid hme
  · intro q hq
    rw [hpid] at hq
    obtain ⟨hq, hne⟩ := hsub hq
    exact hne (h.inj q me pid hq hme)
  · intro i hi heq
    have hpid' : pid = (k.table.proc i).pid := hpid.symm.trans heq
    exact (h.embryo i hi).2.2.1 me (hpid' ▸ hme)

/-- The child is started, and its event is to come. -/
theorem Ordered.fork {t : PTable κ} {np : Slot} {name : Slot → Name} (h : Ordered k)
    (hc : k.table.cpu c = some me) (hpc : (k.table.proc me).pc = .adopted np)
    (hs : Process.step k.table (.act c .forkRun) = .ok t) :
    Ordered { k with
      table := t
      name := name
      announcing := update k.announcing me (some (k.table.proc np).pid) } := by
  have hok : Announced k (.table (.act c .forkRun)) := trivial
  have ht := h.table hok hs
  have hnp : (k.table.proc np).state = .embryo :=
    (Process.making_child h.sound.tree (Process.task_of_pc hpc)).2.1
  obtain ⟨hne, htr, hann, hdist⟩ := h.embryo np hnp
  -- the child is no embryo any more
  have hstart : ∀ i, (t.proc i).state = .embryo → (t.proc i).pid ≠ (k.table.proc np).pid := by
    intro i hi heq
    rcases Process.step_keeps h.sound hs with hk | ⟨⟨d, hd⟩, -⟩
    · obtain ⟨hu, hpid, -⟩ := hk i (by rw [hi]; nofun)
      simp only [Process.step, hc, Process.run, Process.forkRun, hpc] at hs
      cases hs
      simp only [PTable.set] at hi
      grind
    · cases hd
  have hcases : ∀ {q p}, update k.announcing me (some (k.table.proc np).pid) q = some p →
      q = me ∧ p = (k.table.proc np).pid ∨ k.announcing q = some p := by
    intro q p hq
    rw [update_apply] at hq
    split at hq
    next hqm =>
      cases hq
      exact .inl ⟨hqm, rfl⟩
    next => exact .inr hq
  refine ⟨⟨h.order, fun q p hq => ?_⟩, ht.sound, h.enabled, fun q p hq => ?_, fun q q' p hq hq' => ?_,
    fun i hi => ?_⟩
  · rcases hcases hq with ⟨-, rfl⟩ | hq
    · exact htr
    · exact h.pending q p hq
  · rcases hcases hq with ⟨-, rfl⟩ | hq
    · exact hne
    · exact h.nonzero q p hq
  · rcases hcases hq with ⟨h₁, hp⟩ | h₁ <;> rcases hcases hq' with ⟨h₂, hp'⟩ | h₂
    · rw [h₁, h₂]
    · exact absurd (hp ▸ h₂) (hann q')
    · exact absurd (hp' ▸ h₁) (hann q)
    · exact h.inj q q' p h₁ h₂
  · obtain ⟨hne', htr', hann', hdist'⟩ := ht.embryo i hi
    refine ⟨hne', htr', fun q hq => ?_, hdist'⟩
    rcases hcases hq with ⟨-, heq⟩ | hq
    · exact hstart i hi heq
    · exact hann' q hq

theorem Ordered.step {a : Step κ} (h : Ordered k) (hc : Announced k a) (hs : step k a = .ok k') :
    Ordered k' := by
  cases step_move hs with
  | table ht => exact h.table hc ht
  | fork hme _ hpc ht => exact h.fork hme hpc ht
  | @exit c me t _ hme ht hr =>
    obtain ⟨hcpu, hpid⟩ := Process.exitStart_keeps ht
    refine (h.table hc ht).record hr nofun fun p hp q => ?_
    rw [hpid]
    exact hc p (hcpu ▸ hp) q
  | announce _ hme hr => exact h.announce hme hr
  | @event c site _ hat hr => exact h.record hr (by rintro pid rfl; exact hat) hc
  | exec => exact ⟨⟨h.order, h.pending⟩, h.sound, h.enabled, h.nonzero, h.inj, h.embryo⟩
  | tick => exact ⟨⟨h.order, h.pending⟩, h.sound, h.enabled, h.nonzero, h.inj, h.embryo⟩

omit [DecidableEq κ] in
theorem Ordered.boot (events : Fin TRACE_BUF_SIZE → TraceEvent) :
    Ordered (boot events : Kernel κ) := by
  refine ⟨⟨.nil, nofun⟩, .boot, rfl, nofun, nofun, fun i hi => ?_⟩
  change ((Process.userinit : PTable κ).proc i).state = .embryo at hi
  rw [Process.userinit_proc] at hi
  split at hi <;> cases hi

theorem Ordered.run {events : Fin TRACE_BUF_SIZE → TraceEvent}
    (h : Run Trace.step Announced (Trace.boot events) k) : Ordered k :=
  h.invariant (.boot events) fun hi hc hs => hi.step hc hs

omit [DecidableEq κ] in
/-- An event recorded too early. -/
theorem not_forkFirst (hen : k.buf.enabled = true) (hr : k.record c site = .ok k')
    (hsite : ∀ pid, site ≠ .fork pid) {p q : Slot} (hp : k.table.cpu c = some p)
    (hq : k.announcing q = some (k.table.proc p).pid) : ¬ForkFirst k' := by
  obtain ⟨-, hann, -, e, htr, -, hpid⟩ := record_ok hen hr
  intro hf
  have hne := hf.pending q _ (hann ▸ hq) e (by rw [htr]; exact List.mem_concat_self)
  refine hne ?_
  rw [hpid]
  cases site with
  | fork pid => exact absurd rfl (hsite pid)
  | _ => simp [Site.pid, Kernel.who, hp, pidOf]

/-- **Fork first.** In every run in which no process records an event before its own `fork` event
and pids are not reused, every `fork` event comes before all other events with the pid of the child,
and no such event is there before it. After any further step that is not `allocproc`, this is so
exactly if that step is of this kind. -/
theorem fork_first {events : Fin TRACE_BUF_SIZE → TraceEvent}
    (hrun : Run step Announced (boot events) k) :
    ForkFirst k ∧ ∀ a k', (∀ c, a ≠ .table (.act c .forkAlloc)) → step k a = .ok k' →
      (ForkFirst k' ↔ Announced k a) := by
  have h := Ordered.run hrun
  refine ⟨h.toForkFirst, fun a k' ha hs => ⟨fun hf => ?_, fun hc => (h.step hc hs).toForkFirst⟩⟩
  by_contra hc
  cases step_move hs with
  | @table a _ _ _ hexit =>
    cases a with
    | act c a =>
      cases a with
      | forkAlloc => exact ha c rfl
      | exitStart => exact hexit c rfl
      | _ => exact hc trivial
    | schedule | wakeup => exact hc trivial
  | fork | announce | exec | tick => exact hc trivial
  | @exit c me t _ hme ht hr =>
    obtain ⟨hcpu, hpid⟩ := Process.exitStart_keeps ht
    simp only [Announced, not_forall, not_not] at hc
    obtain ⟨p, hp, q, hq⟩ := hc
    have hen : ({ k with table := t } : Kernel κ).buf.enabled = true := h.enabled
    refine not_forkFirst hen hr nofun (p := p) (q := q) ?_ ?_ hf
    · rw [hcpu, hp]
    · rw [hpid, hq]
  | @event c site _ hat hr =>
    simp only [Announced, not_forall, not_not] at hc
    obtain ⟨p, hp, q, hq⟩ := hc
    exact not_forkFirst h.enabled hr (by rintro pid rfl; exact hat) hp hq hf

/-! ## Runs with a fork -/

/-- The initial process forks a child on CPU `true`. -/
def forkChild : List (Step Bool) :=
  [.table (.schedule true Process.initSlot), .table (.act true .forkAlloc),
    .table (.act true (.forkKalloc true)), .table (.act true (.forkCopy true)),
    .table (.act true .forkParent), .table (.act true .forkRun)]

/-- The child runs on CPU `false`, and makes a system call. -/
def childWrites : List (Step Bool) :=
  [.table (.schedule false ⟨1, one_lt_NPROC⟩), .event false (.syscall 16 1 0)]

instance (k : Kernel κ) (a : Step κ) : Decidable (Announced k a) := by
  unfold Announced
  split <;> infer_instance

/-- The child writes after the `fork` event. -/
theorem fork_first_then_child : ∃ k : Kernel Bool, Run step Announced (boot blank) k ∧
    ForkFirst k ∧ k.trace.map (fun e => e.event.pid) = [2, 2] := by
  obtain ⟨k, hk, hpids⟩ : ∃ k : Kernel Bool, Run.exec step Announced (boot blank)
      (forkChild ++ .announce true :: childWrites) = .ok k ∧
      k.trace.map (fun e => e.event.pid) = [2, 2] := by decide +kernel
  have hrun := Run.of_exec hk
  exact ⟨k, hrun, (fork_first hrun).1, hpids⟩

set_option maxRecDepth 4000 in
/-- The child writes before the `fork` event is recorded. -/
theorem child_before_fork : ∃ k : Kernel Bool, Run step (fun _ _ => True) (boot blank) k ∧
    ¬k.trace.Pairwise fun e' e => ∀ pid, e.site = .fork pid → e'.event.pid ≠ pid := by
  obtain ⟨k, hk, e', e, htr, hsite, hpid⟩ : ∃ k : Kernel Bool, Run.exec step (fun _ _ => True)
      (boot blank) (forkChild ++ childWrites ++ [.announce true]) = .ok k ∧
      ∃ e' e, k.trace = [e', e] ∧ e.site = .fork 2 ∧ e'.event.pid = 2 :=
    ⟨_, rfl, _, _, rfl, rfl, rfl⟩
  refine ⟨k, Run.of_exec hk, fun hp => ?_⟩
  rw [htr, List.pairwise_pair] at hp
  exact hp 2 hsite hpid

end Xv6.Trace
