import Xv6.Process.Wait

/-!
# Sleeping and running

Two facts about the table between steps. A process that sleeps in `wait` has something to wait for
(`Parked`): each step that could end this wakes it. And the running processes are those that a CPU
has as its current process. Both are read off what one step can do (`Turn`).
-/

namespace Xv6.Process

/-! ## Roots of the family -/

/-- The initial process has no parent, and no process is its own. -/
structure Family.Roots (F : Family) : Prop where
  init : (F.member F.init).parent = none
  self : ∀ i, (F.member i).parent ≠ some i

theorem Family.Roots.step {F F' : Family} (h : F.Roots) (ht : F.Tree) (hs : F.Step F') :
    F'.Roots := by
  obtain ⟨hinit, hself⟩ := h
  have hkinds := ht.kinds
  have hlive := ht.init_live
  cases hs <;> constructor <;> grind

/-! ## Sleeping in `wait` -/

variable {t t' : Slot → Proc} {me p np : Slot}

/-- `p` has children, and none of them has exited. -/
def Kids (t : Slot → Proc) (p : Slot) : Prop :=
  (∃ i, (t i).parent = some p) ∧ ∀ i, (t i).parent = some p → (t i).state ≠ .zombie

theorem Kids.mono (h : Kids t p) (hkeep : ∀ i, (t i).parent = some p → (t' i).parent = some p)
    (hz : ∀ i, (t' i).parent = some p → (t' i).state = .zombie →
      (t i).parent = some p ∧ (t i).state = .zombie) : Kids t' p := by
  obtain ⟨⟨i, hi⟩, hall⟩ := h
  refine ⟨⟨i, hkeep i hi⟩, fun j hj hjz => ?_⟩
  obtain ⟨hpar, hst⟩ := hz j hj hjz
  exact hall j hpar hst

/-- If `p` sleeps on a process, it is in `wait`, on itself, has not been killed, and has children
of which none has exited. -/
def Parked (t : Slot → Proc) (p : Slot) : Prop :=
  ∀ q, (t p).state = .sleeping → (t p).chan = some (.proc q) →
    q = p ∧ (t p).killed = false ∧ (t p).pc = .waiting ∧ Kids t p

theorem parked_of_ne (h : (t p).state ≠ .sleeping) : Parked t p :=
  fun _ hs => absurd hs h

theorem Parked.keep (h : Parked t p)
    (hsl : (t' p).state = .sleeping → (t p).state = .sleeping ∧ (t' p).chan = (t p).chan ∧
      (t' p).killed = (t p).killed ∧ (t' p).pc = (t p).pc)
    (hkids : (t' p).state = .sleeping → Kids t p → Kids t' p) : Parked t' p := by
  intro q hs hc
  obtain ⟨hs', hchan, hkilled, hpc⟩ := hsl hs
  obtain ⟨hq, hk, hw, hkid⟩ := h q hs' (hchan ▸ hc)
  exact ⟨hq, hkilled ▸ hk, hpc ▸ hw, hkids hs hkid⟩

theorem Parked.wakeup1 {chan : Option Chan} (h : Parked t p) : Parked (wakeup1 t chan) p := by
  refine h.keep (fun hs => ?_) fun _ hkid => hkid.mono (fun i hi => ?_) fun i hi hz => ?_ <;>
    unfold Process.wakeup1 at * <;> grind

/-- A process exits whose parent does not sleep in `wait`. -/
theorem Parked.zombie (h : Parked t p) (hp : p ≠ me)
    (hpar : ∀ q, (t p).state = .sleeping → (t p).chan = some (.proc q) → (t me).parent ≠ some p) :
    Parked (update t me { t me with state := .zombie }) p := by
  intro q hs hc
  rw [update_of_ne hp] at hs hc ⊢
  obtain ⟨hq, hk, hw, hkid⟩ := h q hs hc
  refine ⟨hq, hk, hw, hkid.mono (fun j hj => ?_) fun j hj hjz => ?_⟩ <;>
    simp only [update_apply] at * <;> grind

/-- One turn of the loop of `exit`: init is woken for a child that has exited. -/
theorem Parked.reparent {init i : Slot} (h : Parked t p) (hp : p ≠ me) :
    Parked (reparent me init t i) p := by
  unfold Process.reparent
  split
  next hpar =>
    dsimp only
    rw [update_self]
    split
    next hz =>
      by_cases hi : p = init
      · -- init does not sleep on a process any more
        intro q hs hc
        exfalso
        simp only [Process.wakeup1] at hs hc
        have := h q
        grind
      · refine h.keep (fun hs => ?_) fun _ hkid => hkid.mono (fun j hj => ?_) fun j hj hjz => ?_ <;>
          simp only [Process.wakeup1] at * <;> grind
    next hz =>
      refine h.keep (fun hs => ?_) fun _ hkid => hkid.mono (fun j hj => ?_) fun j hj hjz => ?_ <;>
        simp only [update_apply] at * <;> grind
  next => exact h

theorem Parked.reparent_all {init : Slot} (h : Parked t p) (hp : p ≠ me) (ps : List Slot) :
    Parked (ps.foldl (Process.reparent me init) t) p := by
  induction ps generalizing t with
  | nil => exact h
  | cons i ps ih => exact ih (h.reparent hp)

theorem reparent_all_sleeping {init : Slot} (ps : List Slot)
    (h : (ps.foldl (reparent me init) t p).state = .sleeping) :
    (t p).state = .sleeping ∧ (ps.foldl (reparent me init) t p).chan = (t p).chan := by
  induction ps generalizing t with
  | nil => exact ⟨h, rfl⟩
  | cons i ps ih =>
    obtain ⟨hs, hc⟩ := ih h
    have hone : (reparent me init t i p).state = .sleeping →
        (t p).state = .sleeping ∧ (reparent me init t i p).chan = (t p).chan := by
      unfold reparent wakeup1
      grind
    obtain ⟨hs', hc'⟩ := hone hs
    exact ⟨hs', hc.trans hc'⟩

theorem reparent_all_running {init : Slot} (ps : List Slot)
    (h : (ps.foldl (reparent me init) t p).state = .running) : (t p).state = .running := by
  induction ps generalizing t with
  | nil => exact h
  | cons i ps ih =>
    have hone : (reparent me init t i p).state = .running → (t p).state = .running := by
      unfold reparent wakeup1
      grind
    exact hone (ih h)

theorem waitScan_none {ps : List Slot} {b b' : Bool} (h : waitScan t me ps b = (none, b')) :
    (∀ i ∈ ps, (t i).parent = some me → (t i).state ≠ .zombie) ∧
      (b' = true → b = true ∨ ∃ i ∈ ps, (t i).parent = some me) := by
  induction ps generalizing b with
  | nil =>
    cases h
    exact ⟨List.forall_mem_nil _, .inl⟩
  | cons q ps ih =>
    rw [waitScan] at h
    split at h
    next hpar =>
      obtain ⟨hz, hk⟩ := ih h
      refine ⟨List.forall_mem_cons.mpr ⟨fun hq => absurd hq hpar, hz⟩, fun hb => ?_⟩
      refine (hk hb).imp_right ?_
      rintro ⟨i, hi, hip⟩
      exact ⟨i, List.mem_cons_of_mem q hi, hip⟩
    next hpar =>
      rw [not_not] at hpar
      split at h
      · cases h
      next hq =>
        exact ⟨List.forall_mem_cons.mpr ⟨fun _ => hq, (ih h).1⟩,
          fun _ => .inr ⟨q, List.mem_cons_self, hpar⟩⟩

/-! ## What a step does -/

variable {κ : Type} {s s' : PTable κ} {c : κ}

/-- What the process on a CPU can do to those that run or sleep: it makes no other run, gives up its
CPU when it stops running, and leaves no one asleep in `wait` with something to do. -/
structure Turn (s : PTable κ) (me : Slot) (s' : PTable κ) : Prop where
  running : ∀ p, (s'.proc p).state = .running →
    (s.proc p).state = .running ∧ (p = me → s'.cpu = s.cpu)
  parked : ∀ p, Parked s.proc p → Parked s'.proc p

theorem Turn.one {q : Proc} (hproc : s'.proc = update s.proc p q)
    (hpar : q.parent = (s.proc p).parent) (hz : q.state = .zombie → (s.proc p).state = .zombie)
    (hrun : q.state = .running → (s.proc p).state = .running)
    (hcpu : (s'.proc me).state = .running → s'.cpu = s.cpu)
    (hpark : Parked s.proc p → Parked (update s.proc p q) p) : Turn s me s' := by
  refine ⟨fun i hi => ⟨?_, fun him => hcpu (him ▸ hi)⟩, fun i hi => ?_⟩
  · rw [hproc, update_apply] at hi
    split at hi
    next heq => rw [heq]; exact hrun hi
    next => exact hi
  · rw [hproc]
    by_cases hip : i = p
    · subst hip
      exact hpark hi
    · refine hi.keep (fun hs => ?_) fun _ hkid => hkid.mono (fun j hj => ?_) fun j hj hjz => ?_ <;>
        simp only [update_apply] at * <;> grind

theorem Turn.set {q : Proc} (hme : (s.proc me).state = .running) (hq : q.state = .running)
    (hpar : q.parent = (s.proc me).parent) : Turn s me (s.set me q) := by
  refine .one rfl hpar (fun hz => ?_) (fun _ => hme) (fun _ => rfl) fun _ => parked_of_ne ?_
  · rw [hq] at hz
    cases hz
  · rw [update_self, hq]
    nofun

theorem Turn.leave [DecidableEq κ] {q : Proc} (hpar : q.parent = (s.proc me).parent) (hz : q.state ≠ .zombie)
    (hq : q.state ≠ .running) (hpark : Parked (update s.proc me q) me) :
    Turn s me (leave s c me q) := by
  refine .one rfl hpar (fun h => absurd h hz) (fun h => absurd h hq) (fun h => ?_) fun _ => hpark
  dsimp only [Process.leave, PTable.set] at h
  rw [update_self] at h
  exact absurd h hq

/-- A change to a slot that does not run, and is the child of no process but the current one. -/
theorem Turn.child {q : Proc} {x : Pc} (hcpu : s'.cpu = s.cpu)
    (hproc : s'.proc = ((s.set np q).set me { (s.set np q).proc me with pc := x }).proc)
    (hme : (s.proc me).state = .running) (hne : me ≠ np)
    (hold : ∀ r, (s.proc np).parent = some r → r = me) (hnew : ∀ r, q.parent = some r → r = me)
    (hq : q.state ≠ .running ∧ q.state ≠ .sleeping) : Turn s me s' := by
  refine ⟨fun i hi => ⟨?_, fun _ => hcpu⟩, fun i hi => ?_⟩
  · simp only [hproc, PTable.set] at hi
    grind
  · rw [hproc]
    by_cases him : i = me
    · refine parked_of_ne ?_
      simp only [PTable.set]
      grind
    · refine hi.keep (fun hs => ?_) fun _ hkid => hkid.mono (fun j hj => ?_) fun j hj hjz => ?_ <;>
        simp only [PTable.set] at * <;> grind

/-! ## `fork` -/

theorem kind_eq_embryo {x : ProcState} (h : x.kind = .embryo) : x = .embryo := by
  cases x <;> first | rfl | cases h

/-- The slot that a process in `fork` makes is an embryo, and no child of another process. -/
theorem making_child {st : Stage} (ht : s.family.Tree)
    (hpc : (s.family.member me).task = some (st, np)) :
    me ≠ np ∧ (s.proc np).state = .embryo ∧ ∀ r, (s.proc np).parent = some r → r = me := by
  obtain ⟨-, hembryo⟩ := ht.kinds _ _ _ hpc
  refine ⟨(making ht hpc).1, kind_eq_embryo hembryo, fun r hr => ?_⟩
  exact ht.inj r me _ _ np (ht.embryo np r hembryo hr) hpc

theorem forkAlloc_turn (hme : (s.proc me).state = .running) (ht : s.family.Tree)
    (hs : forkAlloc s me = .ok s') : Turn s me s' := by
  unfold forkAlloc at hs
  split at hs
  · cases hs
  unfold allocproc at hs
  split at hs
  · cases hs
    exact ⟨fun _ h => ⟨h, fun _ => rfl⟩, fun _ h => h⟩
  next np s₁ heq =>
  split at heq
  · cases heq
  next np hfind =>
  cases heq
  cases hs
  have hnp : (s.proc np).state = .unused := by simpa using findSlot_some hfind
  have hnone : (s.proc np).parent = none := ht.unused np (kind_of_state hnp)
  have hne : me ≠ np := by rintro rfl; rw [hme] at hnp; cases hnp
  refine .child rfl rfl hme hne ?_ ?_ ⟨nofun, nofun⟩ <;>
  · intro r hr
    rw [hnone] at hr
    cases hr

theorem forkKalloc_turn {ok : Bool} (hme : (s.proc me).state = .running) (ht : s.family.Tree)
    (hs : forkKalloc s me ok = .ok s') : Turn s me s' := by
  unfold forkKalloc at hs
  split at hs
  next np hpc =>
    obtain ⟨hne, hst, hpar⟩ := making_child ht (task_of_pc hpc)
    split at hs
    · cases hs
      exact .child rfl rfl hme hne hpar hpar (by simp [hst])
    · cases hs
      exact .child rfl rfl hme hne hpar hpar (by simp)
  · cases hs

theorem forkCopy_turn {ok : Bool} (hme : (s.proc me).state = .running) (ht : s.family.Tree)
    (hs : forkCopy s me ok = .ok s') : Turn s me s' := by
  unfold forkCopy at hs
  split at hs
  next np hpc =>
    obtain ⟨hne, hst, hpar⟩ := making_child ht (task_of_pc hpc)
    split at hs
    · cases hs
      exact .child rfl rfl hme hne hpar hpar (by simp [hst])
    · dsimp only at hs
      split at hs
      · cases hs
      · cases hs
        exact .child rfl rfl hme hne hpar hpar (by simp)
  · cases hs

theorem forkParent_turn (hme : (s.proc me).state = .running) (ht : s.family.Tree)
    (hs : forkParent s me = .ok s') : Turn s me s' := by
  unfold forkParent at hs
  split at hs
  next np hpc =>
    cases hs
    obtain ⟨hne, hst, hpar⟩ := making_child ht (task_of_pc hpc)
    refine .child rfl rfl hme hne hpar (fun r hr => ?_) (by simp [hst])
    cases hr
    rfl
  · cases hs

theorem forkRun_turn (hme : (s.proc me).state = .running) (ht : s.family.Tree)
    (hs : forkRun s me = .ok s') : Turn s me s' := by
  unfold forkRun at hs
  split at hs
  next np hpc =>
    cases hs
    obtain ⟨hne, -, hpar⟩ := making_child ht (task_of_pc hpc)
    exact .child rfl rfl hme hne hpar hpar (by simp)
  · cases hs

/-! ## `exit` -/

/-- The parent of an exiting process is not left asleep in `wait`. -/
theorem abandon_parent_awake (h : Parked s.proc p) (hself : (s.proc me).parent = some p)
    (hsl : (abandon s me p).state = .sleeping) {q : Slot} :
    (abandon s me p).chan ≠ some (.proc q) := by
  intro hc
  obtain ⟨hs, hchan⟩ := reparent_all_sleeping _ hsl
  rw [abandon, hchan] at hc
  have hp := h q
  simp only [wakeup1] at hs hc
  grind

theorem exitSection_turn [DecidableEq κ] (hroots : s.family.Roots)
    (hs : exitSection s c me = .ok s') : Turn s me s' := by
  unfold exitSection at hs
  split at hs
  · cases hs
  next hpc =>
  rw [not_not] at hpc
  cases hs
  have hpar : (abandon s me me).parent = (s.proc me).parent := by
    have hself : (s.proc me).parent ≠ some me := hroots.self me
    have hmem := congrArg Member.parent (member_abandon s me me)
    dsimp only [Proc.member] at hmem
    rwa [if_neg hself] at hmem
  refine ⟨fun i hi => ?_, fun i hi => ?_⟩ <;> dsimp only [leave, PTable.set] at hi ⊢
  · rw [update_apply] at hi
    split at hi
    · cases hi
    next him =>
      refine ⟨?_, fun h => absurd h him⟩
      have := reparent_all_running _ hi
      unfold wakeup1 at this
      grind
  · by_cases him : i = me
    · refine parked_of_ne ?_
      rw [him, update_self]
      nofun
    · have hab : Parked (abandon s me) i := hi.wakeup1.reparent_all him _
      refine hab.zombie him ?_
      intro q hsl hc
      rw [hpar]
      exact fun h => abandon_parent_awake hi h hsl hc

/-! ## `wait` -/

theorem waitLoop_turn [DecidableEq κ] (hme : (s.proc me).state = .running)
    (hs : waitLoop s c me = .ok s') : Turn s me s' := by
  unfold waitLoop at hs
  dsimp only at hs
  split at hs
  next p _ hscan =>
    obtain ⟨hpar, hz⟩ := waitScan_some hscan
    have hne : me ≠ p := by rintro rfl; rw [hme] at hz; cases hz
    unfold reap at hs
    dsimp only at hs
    split at hs
    · cases hs
    split at hs
    · cases hs
    cases hs
    refine .child rfl rfl hme hne (fun r hr => ?_) nofun ⟨nofun, nofun⟩
    rw [hpar] at hr
    cases hr
    rfl
  next havekids hscan =>
    obtain ⟨hz, hk⟩ := waitScan_none hscan
    split at hs
    · cases hs
      exact .set hme hme rfl
    next hsleep =>
      cases hs
      rw [Bool.or_eq_true, not_or, Bool.not_eq_true', Bool.not_eq_false, Bool.not_eq_true] at hsleep
      refine .leave rfl nofun nofun fun q _ hc => ?_
      rw [update_self] at hc ⊢
      cases hc
      refine ⟨rfl, hsleep.2, rfl, ?_⟩
      have hkids : Kids s.proc me := by
        obtain hf | ⟨i, -, hi⟩ := hk hsleep.1
        · cases hf
        · exact ⟨⟨i, hi⟩, fun j => hz j (List.mem_finRange j)⟩
      refine hkids.mono (fun i hi => ?_) fun i hi hiz => ?_ <;>
        simp only [update_apply] at * <;> grind

/-! ## Steps -/

theorem kill_turn {pid : UInt32} : Turn s me (kill s pid).2 := by
  unfold kill
  split
  · exact ⟨fun _ h => ⟨h, fun _ => rfl⟩, fun _ h => h⟩
  · refine .one rfl rfl ?_ ?_ (fun _ => rfl) fun _ => parked_of_ne ?_ <;>
      grind [update_self]

variable [DecidableEq κ]

theorem run_turn {a : Act} (hme : (s.proc me).state = .running) (ht : s.family.Tree)
    (hroots : s.family.Roots) (hs : run s c me a = .ok s') : Turn s me s' := by
  cases a with
  | forkAlloc => exact forkAlloc_turn hme ht hs
  | forkKalloc ok => exact forkKalloc_turn hme ht hs
  | forkCopy ok => exact forkCopy_turn hme ht hs
  | forkParent => exact forkParent_turn hme ht hs
  | forkRun => exact forkRun_turn hme ht hs
  | exitStart =>
    simp only [run, exitStart] at hs
    split at hs
    · cases hs
    split at hs
    · cases hs
    cases hs
    exact .set hme hme rfl
  | exitSection => exact exitSection_turn hroots hs
  | wait =>
    simp only [run, wait] at hs
    split at hs
    · cases hs
    exact waitLoop_turn hme hs
  | kill pid =>
    simp only [run] at hs
    split at hs
    · cases hs
    cases hs
    exact kill_turn
  | fault =>
    simp only [run] at hs
    split at hs
    · cases hs
    cases hs
    exact .set hme hme rfl
  | yield =>
    cases hs
    refine .leave rfl ProcState.noConfusion ProcState.noConfusion (parked_of_ne ?_)
    rw [update_self]
    exact ProcState.noConfusion
  | sleep addr =>
    simp only [run, sleepOn] at hs
    split at hs
    · cases hs
      refine .leave rfl ProcState.noConfusion ProcState.noConfusion fun q _ hc => ?_
      rw [update_self] at hc
      cases hc
    · cases hs

/-! ## Runs -/

/-- What holds between steps, beside `Sound`. -/
structure Settled (s : PTable κ) : Prop where
  sound : Sound s
  roots : s.family.Roots
  placed : ∀ p, (s.proc p).state = .running → ∃ c, s.cpu c = some p
  parked : ∀ p, Parked s.proc p

theorem Settled.turn (h : Settled s) (hc : s.cpu c = some me) (he : Effect s c me s')
    (ht : Turn s me s') : Settled s' := by
  refine ⟨h.sound.effect hc he, ?_, fun p hp => ?_, fun p => ht.parked p (h.parked p)⟩
  · rcases he.family with heq | hstep
    · exact heq ▸ h.roots
    · exact h.roots.step h.sound.tree hstep
  · obtain ⟨hrun, hcpu⟩ := ht.running p hp
    obtain ⟨d, hd⟩ := h.placed p hrun
    refine ⟨d, ?_⟩
    by_cases hpm : p = me
    · rw [hcpu hpm, hd]
    · rcases he.current with ⟨hsame, -⟩ | hleft
      · rw [hsame, hd]
      · rw [hleft, update_of_ne, hd]
        rintro rfl
        rw [hc] at hd
        cases hd
        exact hpm rfl

theorem Settled.resume (h : Settled s) (hc : s.cpu c = none) (hp : (s.proc p).state = .runnable) :
    Settled { s.set p { s.proc p with state := .running, chan := none } with
      cpu := update s.cpu c (some p) } := by
  have hfam := family_resume hp
  refine ⟨h.sound.resume hp, hfam ▸ h.roots, fun i hi => ?_, fun i => ?_⟩
  · dsimp only [PTable.set] at hi ⊢
    by_cases hip : i = p
    · exact ⟨c, by rw [hip, update_self]⟩
    · rw [update_of_ne hip] at hi
      obtain ⟨d, hd⟩ := h.placed i hi
      refine ⟨d, ?_⟩
      rw [update_of_ne, hd]
      rintro rfl
      rw [hc] at hd
      cases hd
  · dsimp only [PTable.set]
    refine (h.parked i).keep (fun hs => ?_)
      fun _ hkid => hkid.mono (fun j hj => ?_) fun j hj hjz => ?_ <;>
      simp only [update_apply] at * <;> grind

theorem Settled.step {a : Step κ} (h : Settled s) (hs : step s a = .ok s') : Settled s' := by
  have hstay := h.sound.init_stays
  cases a with
  | act c a =>
    simp only [Process.step] at hs
    split at hs
    · cases hs
    next me hc =>
      have hme := h.sound.running c me hc
      exact h.turn hc (run_effect hme h.sound.tree (hstay me) hs)
        (run_turn hme h.sound.tree h.roots hs)
  | schedule c p =>
    simp only [Process.step, schedule] at hs
    split at hs
    · cases hs
    next hg =>
    rw [not_or, not_not, not_not] at hg
    have hres := h.resume hg.1 hg.2
    split at hs
    next hw =>
      refine hres.turn (update_self ..) (waitLoop_effect ?_ ?_ hs) (waitLoop_turn ?_ hs)
      · simp [PTable.set]
      · simp [PTable.set, hw, Pc.task]
      · simp [PTable.set]
    · cases hs
      exact hres
  | wakeup addr =>
    have hsound := h.sound.step hs
    cases hs
    refine ⟨hsound, ?_, fun p hp => h.placed p ?_, fun p => (h.parked p).wakeup1⟩
    · exact family_wakeup s _ ▸ h.roots
    · unfold wakeup1 at hp
      grind

omit [DecidableEq κ] in
theorem Settled.boot : Settled (userinit : PTable κ) := by
  have hproc := userinit_proc (κ := κ)
  refine ⟨.boot, ⟨?_, fun i => ?_⟩, fun p hp => ?_, fun p => parked_of_ne ?_⟩
  · change ((userinit : PTable κ).proc initSlot).parent = none
    rw [hproc, if_pos rfl]
  · change ((userinit : PTable κ).proc i).parent ≠ some i
    rw [hproc]
    split <;> nofun
  · rw [hproc] at hp
    split at hp <;> cases hp
  · rw [hproc]
    split <;> nofun

theorem Settled.run (h : Run Process.step (fun _ _ => True) userinit s) : Settled s :=
  h.invariant .boot fun hs _ hstep => hs.step hstep

/-- **Sleeping in wait.** In every run from boot, a process that sleeps in `wait` has not been killed
and has no child that has exited; it has a child, and that child is live. -/
theorem waiting_has_live_child (hrun : Run step (fun _ _ => True) userinit s)
    (hsl : (s.proc p).state = .sleeping) (hc : (s.proc p).chan = some (.proc p)) :
    (s.proc p).killed = false ∧ (∀ i, (s.proc i).parent = some p → (s.proc i).state ≠ .zombie) ∧
    ∃ i, (s.proc i).parent = some p ∧ ((s.proc i).state = .runnable ∨
      (s.proc i).state = .running ∨ (s.proc i).state = .sleeping) := by
  have h := Settled.run hrun
  obtain ⟨-, hkilled, hpc, ⟨i, hi⟩, hz⟩ := h.parked p p hsl hc
  refine ⟨hkilled, hz, i, hi, state_of_kind_live ?_⟩
  have ht := h.sound.tree
  have htask : (s.family.member p).task = none := task_of_pc hpc
  cases hk : (s.proc i).state.kind with
  | live => rfl
  | unused =>
    have hnone : (s.proc i).parent = none := ht.unused i hk
    rw [hi] at hnone
    cases hnone
  | embryo =>
    have hadopt := ht.embryo i p hk hi
    rw [htask] at hadopt
    cases hadopt
  | zombie =>
    refine absurd ?_ (hz i hi)
    cases hst : (s.proc i).state <;> rw [hst] at hk <;> first | rfl | cases hk

/-- The initial process forks a child and waits for it. -/
def forkWait : List (Step Unit) :=
  [.schedule () initSlot, .act () .forkAlloc, .act () (.forkKalloc true), .act () (.forkCopy true),
    .act () .forkParent, .act () .forkRun, .act () .wait]

set_option maxRecDepth 4000 in
theorem waiting_has_live_child_init : ∃ s : PTable Unit, Run step (fun _ _ => True) userinit s ∧
    (s.proc initSlot).state = .sleeping ∧ (s.proc initSlot).chan = some (.proc initSlot) ∧
    (s.proc initSlot).killed = false := by
  obtain ⟨s, hs, hsl, hc⟩ : ∃ s : PTable Unit,
      Run.exec step (fun _ _ => True) userinit forkWait = .ok s ∧
      (s.proc initSlot).state = .sleeping ∧ (s.proc initSlot).chan = some (.proc initSlot) :=
    ⟨_, rfl, by decide, by decide⟩
  have hs' := Run.of_exec hs
  exact ⟨s, hs', hsl, hc, (waiting_has_live_child hs' hsl hc).1⟩

/-- **Running.** In every run from boot, on any number of CPUs, a process is running exactly if one
CPU, and no other, has it as its current process; so the current process of a CPU is in no other
state. -/
theorem running_iff_current (hrun : Run step (fun _ _ => True) userinit s) :
    (∀ p, (s.proc p).state = .running ↔ ∃! c, s.cpu c = some p) ∧
    ∀ c p, s.cpu c = some p → (s.proc p).state ≠ .unused ∧ (s.proc p).state ≠ .embryo ∧
      (s.proc p).state ≠ .runnable ∧ (s.proc p).state ≠ .sleeping ∧
      (s.proc p).state ≠ .zombie := by
  have h := Settled.run hrun
  refine ⟨fun p => ⟨fun hp => ?_, fun ⟨c, hc, _⟩ => h.sound.running c p hc⟩, fun c p hc => ?_⟩
  · obtain ⟨c, hc⟩ := h.placed p hp
    exact ⟨c, hc, fun d hd => h.sound.unique d c p hd hc⟩
  · rw [h.sound.running c p hc]
    decide

/-- Two CPUs run the initial process and its child. -/
def forkOnTwo : List (Step Bool) :=
  [.schedule true initSlot, .act true .forkAlloc, .act true (.forkKalloc true),
    .act true (.forkCopy true), .act true .forkParent, .act true .forkRun,
    .schedule false ⟨1, one_lt_NPROC⟩]

set_option maxRecDepth 4000 in
theorem running_iff_current_two : ∃ s : PTable Bool, Run step (fun _ _ => True) userinit s ∧
    (s.proc initSlot).state = .running ∧ s.cpu false = some ⟨1, by decide⟩ ∧
    ∃! c, s.cpu c = some initSlot := by
  obtain ⟨s, hs, hst, hc⟩ : ∃ s : PTable Bool,
      Run.exec step (fun _ _ => True) userinit forkOnTwo = .ok s ∧
      (s.proc initSlot).state = .running ∧ s.cpu false = some ⟨1, by decide⟩ :=
    ⟨_, rfl, by decide, by decide⟩
  have hs' := Run.of_exec hs
  exact ⟨s, hs', hst, hc, ((running_iff_current hs').1 initSlot).mp hst⟩

end Xv6.Process
