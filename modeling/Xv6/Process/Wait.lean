import Xv6.Process.Family

/-!
# Fork, exit and wait

The process table refines the family of its members (`family_step`): scheduling, sleeping and
killing leave the family as it is, and every other step is one of its changes. So whatever holds of
families holds of the table in every run from boot.
-/

namespace Xv6.Process

variable {κ : Type} [DecidableEq κ] {s s' : PTable κ} {c : κ} {me p np : Slot}

/-! ## The family of a table -/

def ProcState.kind : ProcState → Kind
  | .unused => .unused
  | .embryo => .embryo
  | .sleeping | .runnable | .running => .live
  | .zombie => .zombie

def Pc.task : Pc → Option (Stage × Slot)
  | .allocated np => some (.allocated, np)
  | .stacked np => some (.stacked, np)
  | .copied np => some (.copied, np)
  | .adopted np => some (.adopted, np)
  | .user | .exiting | .waiting => none

def Proc.member (p : Proc) : Member where
  kind := p.state.kind
  pid := p.pid
  parent := p.parent
  kstack := p.kstack
  pgdir := p.pgdir
  task := p.pc.task

theorem member_congr {p q : Proc} (hk : p.state.kind = q.state.kind) (hpid : p.pid = q.pid)
    (hpar : p.parent = q.parent) (hks : p.kstack = q.kstack) (hpg : p.pgdir = q.pgdir)
    (ht : p.pc.task = q.pc.task) : p.member = q.member := by
  simp only [Proc.member, hk, hpid, hpar, hks, hpg, ht]

def PTable.family (s : PTable κ) : Family where
  member := fun i => (s.proc i).member
  init := s.initproc
  nextpid := s.nextpid
  forks := s.forks
  log := s.log

omit [DecidableEq κ] in
theorem family_set (s : PTable κ) (i : Slot) (p : Proc) :
    (s.set i p).family = s.family.set i p.member := by
  ext1 <;> try rfl
  funext x
  simp only [PTable.family, PTable.set, Family.set, update_apply]
  split <;> rfl

omit [DecidableEq κ] in
theorem family_set_same {q : Proc} (h : q.member = (s.proc p).member) :
    (s.set p q).family = s.family := by
  rw [family_set, h]
  ext1 <;> try rfl
  exact update_eq_self ..

theorem member_wakeup1 (t : Slot → Proc) (chan : Option Chan) (i : Slot) :
    (wakeup1 t chan i).member = (t i).member := by
  unfold wakeup1
  split
  next h => simp [Proc.member, ProcState.kind, h.1]
  next => rfl

/-! ## Finding slots -/

theorem findSlot_some {t : Slot → Proc} {f : Proc → Bool} (h : findSlot t f = some p) :
    f (t p) = true :=
  List.find?_some (p := fun i => f (t i)) h

theorem waitScan_some {t : Slot → Proc} {ps : List Slot} {b b' : Bool}
    (h : waitScan t me ps b = (some p, b')) :
    (t p).parent = some me ∧ (t p).state = .zombie := by
  induction ps generalizing b with
  | nil => cases h
  | cons q ps ih =>
    rw [waitScan] at h
    split at h
    · exact ih h
    next hpar =>
      split at h
      next hz =>
        cases h
        exact ⟨by simpa using hpar, hz⟩
      · exact ih h

theorem Family.Step.congr {F G G' : Family} (h : F.Step G) (hm : G'.member = G.member)
    (hi : G'.init = G.init) (hn : G'.nextpid = G.nextpid) (hf : G'.forks = G.forks)
    (hl : G'.log = G.log) : F.Step G' :=
  Family.ext hm hi hn hf hl ▸ h

omit [DecidableEq κ] in
theorem kind_of_state {x : ProcState} (h : (s.proc p).state = x) :
    (s.family.member p).kind = x.kind := by
  rw [← h]; rfl

omit [DecidableEq κ] in
theorem task_of_pc {x : Pc} (h : (s.proc p).pc = x) : (s.family.member p).task = x.task := by
  rw [← h]; rfl

omit [DecidableEq κ] in
/-- The two changes of a step of `fork`: to the new slot, and to where the process is. -/
theorem member_fork {q : Proc} {x : Pc} (hne : me ≠ np) :
    ((s.set np q).set me { (s.set np q).proc me with pc := x }).family.member =
      (s.family.set₂ np q.member me { s.family.member me with task := x.task }).member := by
  have hproc : (s.set np q).proc me = s.proc me := update_of_ne hne ..
  rw [family_set, family_set, hproc]
  rfl

/-! ## What a step does -/

/-- What the process on a CPU can do to the table: change the family or leave it; go on running, or
leave the CPU; and let the other current processes run. -/
structure Effect (s : PTable κ) (c : κ) (me : Slot) (s' : PTable κ) : Prop where
  family : s'.family = s.family ∨ s.family.Step s'.family
  current : s'.cpu = s.cpu ∧ (s'.proc me).state = .running ∨ s'.cpu = Function.update s.cpu c none
  others : ∀ p, p ≠ me → (s.proc p).state = .running → (s'.proc p).state = .running
  exiting : ∀ p, (s'.proc p).pc = .exiting → (s.proc p).pc = .exiting ∨ p ≠ s.initproc

theorem Effect.set {q : Proc} (hm : q.member = (s.proc me).member) (hq : q.state = .running)
    (hpc : q.pc = .exiting → (s.proc me).pc = .exiting ∨ me ≠ s.initproc) :
    Effect s c me (s.set me q) := by
  refine ⟨.inl (family_set_same hm), .inl ⟨rfl, ?_⟩, ?_, ?_⟩ <;>
    simp only [PTable.set] <;> grind

theorem Effect.leave {q : Proc} (hm : q.member = (s.proc me).member)
    (hpc : q.pc ≠ .exiting ∨ q.pc = (s.proc me).pc) : Effect s c me (leave s c me q) := by
  refine ⟨.inl (family_set_same hm), .inr rfl, ?_, ?_⟩ <;>
    simp only [Process.leave, PTable.set] <;> grind

theorem Effect.fork {q : Proc} {x : Pc} (hstep : s.family.Step s'.family) (hcpu : s'.cpu = s.cpu)
    (hproc : s'.proc = ((s.set np q).set me { (s.set np q).proc me with pc := x }).proc)
    (hme : (s.proc me).state = .running) (hnp : (s.proc np).state.kind ≠ .live)
    (hq : q.pc = .user ∨ q.pc = (s.proc np).pc) (hx : x ≠ .exiting) : Effect s c me s' := by
  have hnp' : (s.proc np).state ≠ .running := fun h => hnp (by rw [h]; rfl)
  refine ⟨.inr hstep, .inl ⟨hcpu, ?_⟩, ?_, ?_⟩ <;>
    simp only [hproc, PTable.set] <;> grind

/-! ## `fork` -/

theorem forkAlloc_effect (hme : (s.proc me).state = .running) (hs : forkAlloc s me = .ok s') :
    Effect s c me s' := by
  unfold forkAlloc at hs
  split at hs
  · cases hs
  next hpc =>
  rw [not_not] at hpc
  unfold allocproc at hs
  split at hs
  · cases hs
    exact ⟨.inl rfl, .inl ⟨rfl, hme⟩, fun _ _ => id, fun _ => .inl⟩
  next np s₁ heq =>
  split at heq
  · cases heq
  next np hfind =>
  cases heq
  cases hs
  have hnp : (s.proc np).state = .unused := by simpa using findSlot_some hfind
  have hne : me ≠ np := by rintro rfl; rw [hme] at hnp; cases hnp
  have hstep := Family.Step.alloc (kind_of_state hme) (task_of_pc hpc) (kind_of_state hnp)
  exact .fork (hstep.congr (member_fork hne) rfl rfl rfl rfl) rfl rfl hme (by rw [hnp]; nofun)
    (.inr rfl) nofun

omit [DecidableEq κ] in
/-- The process in `fork` is not the slot that it makes, which is an embryo. -/
theorem making {st : Stage} (ht : s.family.Tree)
    (hpc : (s.family.member me).task = some (st, np)) :
    me ≠ np ∧ (s.proc np).state.kind ≠ .live := by
  obtain ⟨hlive, hembryo⟩ := ht.kinds _ _ _ hpc
  have hnp : (s.family.member np).kind ≠ .live := by rw [hembryo]; nofun
  exact ⟨by rintro rfl; exact hnp hlive, hnp⟩

theorem forkKalloc_effect {ok : Bool} (hme : (s.proc me).state = .running) (ht : s.family.Tree)
    (hs : forkKalloc s me ok = .ok s') : Effect s c me s' := by
  unfold forkKalloc at hs
  split at hs
  next np hpc =>
    have htask := task_of_pc hpc
    obtain ⟨hne, hnp⟩ := making ht htask
    split at hs
    · cases hs
      exact .fork ((Family.Step.stack htask).congr (member_fork hne) rfl rfl rfl rfl) rfl rfl hme hnp
        (.inl rfl) nofun
    · cases hs
      exact .fork ((Family.Step.noStack htask).congr (member_fork hne) rfl rfl rfl rfl) rfl rfl hme
        hnp (.inr rfl) nofun
  · cases hs

theorem forkCopy_effect {ok : Bool} (hme : (s.proc me).state = .running) (ht : s.family.Tree)
    (hs : forkCopy s me ok = .ok s') : Effect s c me s' := by
  unfold forkCopy at hs
  split at hs
  next np hpc =>
    have htask := task_of_pc hpc
    obtain ⟨hne, hnp⟩ := making ht htask
    split at hs
    · cases hs
      exact .fork ((Family.Step.copy htask).congr (member_fork hne) rfl rfl rfl rfl) rfl rfl hme hnp
        (.inr rfl) nofun
    · dsimp only at hs
      split at hs
      · cases hs
      next k hk =>
        cases hs
        exact .fork ((Family.Step.noCopy htask hk).congr (member_fork hne) rfl rfl rfl rfl) rfl rfl
          hme hnp (.inr rfl) nofun
  · cases hs

theorem forkParent_effect (hme : (s.proc me).state = .running) (ht : s.family.Tree)
    (hs : forkParent s me = .ok s') : Effect s c me s' := by
  unfold forkParent at hs
  split at hs
  next np hpc =>
    cases hs
    have htask := task_of_pc hpc
    obtain ⟨hne, hnp⟩ := making ht htask
    exact .fork ((Family.Step.adopt htask).congr (member_fork hne) rfl rfl rfl rfl) rfl rfl hme hnp
      (.inr rfl) nofun
  · cases hs

theorem forkRun_effect (hme : (s.proc me).state = .running) (ht : s.family.Tree)
    (hs : forkRun s me = .ok s') : Effect s c me s' := by
  unfold forkRun at hs
  split at hs
  next np hpc =>
    cases hs
    have htask := task_of_pc hpc
    obtain ⟨hne, hnp⟩ := making ht htask
    exact .fork ((Family.Step.start htask).congr (member_fork hne) rfl rfl rfl rfl) rfl rfl hme hnp
      (.inr rfl) nofun
  · cases hs

/-! ## `exit` -/

theorem member_reparent {init : Slot} {t : Slot → Proc} (i : Slot) :
    (reparent me init t p i).member = { (t i).member with
      parent := if i = p ∧ (t i).parent = some me then some init else (t i).parent } := by
  unfold reparent
  by_cases hpar : (t p).parent = some me
  · rw [if_pos hpar]
    have hup : (update t p { t p with parent := some init } i).member =
        { (t i).member with
          parent := if i = p ∧ (t i).parent = some me then some init else (t i).parent } := by
      by_cases hi : i = p
      · subst hi
        simp [Proc.member, hpar]
      · simp [Proc.member, hi]
    split
    · rw [member_wakeup1, hup]
    · exact hup
  · rw [if_neg hpar, if_neg]
    · rfl
    · rintro ⟨rfl, h⟩
      exact hpar h

/-- The loop of `exit` passes all children to init, and changes nothing else in the family. -/
theorem member_reparent_all {init : Slot} (ps : List Slot) (t : Slot → Proc) (i : Slot) :
    (ps.foldl (reparent me init) t i).member = { (t i).member with
      parent := if i ∈ ps ∧ (t i).parent = some me then some init else (t i).parent } := by
  induction ps generalizing t with
  | nil => simp [Proc.member]
  | cons p ps ih =>
    rw [List.foldl_cons, ih, member_reparent]
    have hpar : (reparent me init t p i).parent =
        if i = p ∧ (t i).parent = some me then some init else (t i).parent :=
      congrArg Member.parent (member_reparent i)
    rw [hpar]
    by_cases hi : i = p
    · subst hi
      by_cases hme : (t i).parent = some me
      · simp [hme]
      · simp [hme]
    · simp [hi]

/-- The loop only wakes sleeping processes, and moves none. -/
theorem reparent_all_keep (me init : Slot) (ps : List Slot) (t : Slot → Proc) (i : Slot) :
    ((t i).state = .running → (ps.foldl (reparent me init) t i).state = .running) ∧
      (ps.foldl (reparent me init) t i).pc = (t i).pc := by
  induction ps generalizing t with
  | nil => exact ⟨id, rfl⟩
  | cons p ps ih =>
    have hone : ((t i).state = .running → (reparent me init t p i).state = .running) ∧
        (reparent me init t p i).pc = (t i).pc := by
      unfold reparent
      split
      · dsimp only
        split
        · simp only [wakeup1]
          grind
        · grind
      · exact ⟨id, rfl⟩
    exact ⟨fun h => (ih _).1 (hone.1 h), (ih _).2.trans hone.2⟩

omit [DecidableEq κ] in
theorem member_abandon (s : PTable κ) (me i : Slot) :
    (abandon s me i).member = { (s.proc i).member with
      parent := if (s.proc i).parent = some me then some s.initproc else (s.proc i).parent } := by
  have hpar := congrArg Member.parent (member_wakeup1 s.proc ((s.proc me).parent.map .proc) i)
  simp only [Proc.member] at hpar
  rw [abandon, member_reparent_all, member_wakeup1, hpar]
  simp only [List.mem_finRange, true_and]

omit [DecidableEq κ] in
theorem abandon_keep (s : PTable κ) (me i : Slot) :
    ((s.proc i).state = .running → (abandon s me i).state = .running) ∧
      (abandon s me i).pc = (s.proc i).pc := by
  have hwake : ((s.proc i).state = .running →
      (wakeup1 s.proc ((s.proc me).parent.map .proc) i).state = .running) ∧
      (wakeup1 s.proc ((s.proc me).parent.map .proc) i).pc = (s.proc i).pc := by
    unfold wakeup1
    grind
  have := reparent_all_keep me s.initproc (List.finRange NPROC)
    (wakeup1 s.proc ((s.proc me).parent.map .proc)) i
  exact ⟨fun h => this.1 (hwake.1 h), this.2.trans hwake.2⟩

theorem exitSection_effect (hne : (s.proc me).pc = .exiting → me ≠ s.initproc)
    (hme : (s.proc me).state = .running) (hs : exitSection s c me = .ok s') :
    Effect s c me s' := by
  unfold exitSection at hs
  split at hs
  · cases hs
  next hpc =>
  rw [not_not] at hpc
  replace hne := hne hpc
  cases hs
  refine ⟨.inr ?_, .inr rfl, ?_, ?_⟩
  · refine (Family.Step.exit (kind_of_state hme) (task_of_pc hpc) hne).congr ?_ rfl rfl rfl rfl
    funext i
    have hmem := member_abandon s me i
    dsimp only [PTable.family, leave, PTable.set]
    by_cases hi : i = me
    · have hz : ∀ q : Proc, ({ q with state := .zombie } : Proc).member =
          { q.member with kind := .zombie } := fun _ => rfl
      subst hi
      rw [update_self, hz, hmem, if_pos rfl]
      rfl
    · rw [update_of_ne hi, hmem, if_neg hi]
      rfl
  · intro p hp hrun
    dsimp only [leave, PTable.set]
    rw [update_of_ne hp]
    exact (abandon_keep s me p).1 hrun
  · intro p hp
    have := (abandon_keep s me p).2
    simp only [leave, PTable.set, update_apply] at hp
    split at hp
    next h => exact .inr (h ▸ hne)
    next => exact .inl (this ▸ hp)

/-! ## `wait` -/

theorem reap_effect (hme : (s.proc me).state = .running) (hpar : (s.proc p).parent = some me)
    (hz : (s.proc p).state = .zombie) (htask : (s.proc me).pc.task = none)
    (hs : reap s me p = .ok s') : Effect s c me s' := by
  unfold reap at hs
  dsimp only at hs
  split at hs
  · cases hs
  next k hk =>
  split at hs
  · cases hs
  next g hg =>
  cases hs
  have hne : me ≠ p := by rintro rfl; rw [hme] at hz; cases hz
  have hproc : ∀ q, (s.set p q).proc me = s.proc me := fun q => update_of_ne hne ..
  refine ⟨.inr ?_, .inl ⟨rfl, ?_⟩, ?_, ?_⟩
  · refine (Family.Step.reap (kind_of_state hme) (kind_of_state hz) hpar hk hg).congr ?_ rfl rfl rfl
      rfl
    rw [hproc]
    have hsame := family_set_same (s := s.set p { s.proc p with
      kstack := none, pid := 0, parent := none, killed := false, state := .unused })
      (q := { s.proc me with pc := .user }) (p := me)
      (by rw [hproc]; exact member_congr rfl rfl rfl rfl rfl htask.symm)
    have hmem := congrArg Family.member (hsame.trans (family_set ..))
    exact hmem
  all_goals
    simp only [PTable.set]
    grind

theorem waitLoop_effect (hme : (s.proc me).state = .running) (htask : (s.proc me).pc.task = none)
    (hs : waitLoop s c me = .ok s') : Effect s c me s' := by
  unfold waitLoop at hs
  dsimp only at hs
  split at hs
  next p _ hscan =>
    obtain ⟨hpar, hz⟩ := waitScan_some hscan
    exact reap_effect hme hpar hz htask hs
  next havekids hscan =>
    split at hs
    · cases hs
      exact .set (member_congr rfl rfl rfl rfl rfl htask.symm) hme nofun
    · cases hs
      exact .leave (member_congr (by rw [hme]; rfl) rfl rfl rfl rfl htask.symm) (.inl nofun)

/-! ## Steps -/

theorem kill_effect {pid : UInt32} (hme : (s.proc me).state = .running) :
    Effect s c me (kill s pid).2 := by
  unfold kill
  split
  · exact ⟨.inl rfl, .inl ⟨rfl, hme⟩, fun _ _ => id, fun _ => .inl⟩
  · refine ⟨.inl (family_set_same (member_congr ?_ rfl rfl rfl rfl rfl)), .inl ⟨rfl, ?_⟩, ?_, ?_⟩
    · split
      next hsl => rw [hsl]; rfl
      next => rfl
    all_goals
      simp only [PTable.set]
      grind

theorem run_effect {a : Act} (hme : (s.proc me).state = .running) (ht : s.family.Tree)
    (hinit : (s.proc me).pc = .exiting → me ≠ s.initproc) (hs : run s c me a = .ok s') :
    Effect s c me s' := by
  cases a with
  | forkAlloc => exact forkAlloc_effect hme hs
  | forkKalloc ok => exact forkKalloc_effect hme ht hs
  | forkCopy ok => exact forkCopy_effect hme ht hs
  | forkParent => exact forkParent_effect hme ht hs
  | forkRun => exact forkRun_effect hme ht hs
  | exitStart =>
    simp only [run, exitStart] at hs
    split at hs
    · cases hs
    next hpc =>
    rw [not_not] at hpc
    split at hs
    · cases hs
    next hne =>
    cases hs
    exact .set (member_congr rfl rfl rfl rfl rfl (by rw [hpc]; rfl)) hme fun _ => .inr hne
  | exitSection => exact exitSection_effect hinit hme hs
  | wait =>
    simp only [run, wait] at hs
    split at hs
    · cases hs
    next hpc =>
    rw [not_not] at hpc
    exact waitLoop_effect hme (by rw [hpc]; rfl) hs
  | kill pid =>
    simp only [run] at hs
    split at hs
    · cases hs
    · cases hs
      exact kill_effect hme
  | fault =>
    simp only [run] at hs
    split at hs
    · cases hs
    · cases hs
      exact .set rfl hme .inl
  | yield =>
    cases hs
    exact .leave (member_congr (by rw [hme]; rfl) rfl rfl rfl rfl rfl) (.inr rfl)
  | sleep addr =>
    simp only [run, sleepOn] at hs
    split at hs
    · cases hs
      exact .leave (member_congr (by rw [hme]; rfl) rfl rfl rfl rfl rfl) (.inr rfl)
    · cases hs

/-! ## Runs -/

/-- What holds between steps: a CPU's current process is running and on no other CPU, the initial
process is not in `exit`, and the family is in order as long as pids do not run out. -/
structure Sound (s : PTable κ) : Prop where
  running : ∀ c p, s.cpu c = some p → (s.proc p).state = .running
  unique : ∀ c d p, s.cpu c = some p → s.cpu d = some p → c = d
  init_stays : ∀ p, (s.proc p).pc = .exiting → p ≠ s.initproc
  tree : s.family.Tree
  inv : s.forks < 2 ^ 31 - 1 → s.family.Inv

theorem Effect.init_eq (h : Effect s c me s') : s'.initproc = s.initproc := by
  rcases h.family with heq | hstep
  · exact congrArg Family.init heq
  · exact hstep.init_eq

theorem Effect.forks_le (h : Effect s c me s') : s.forks ≤ s'.forks := by
  rcases h.family with heq | hstep
  · exact (congrArg Family.forks heq).ge
  · exact hstep.forks_le

theorem Sound.effect (h : Sound s) (hc : s.cpu c = some me) (he : Effect s c me s') :
    Sound s' := by
  -- a process that is current afterwards was current on the same CPU before
  have hold : ∀ d p, s'.cpu d = some p →
      s.cpu d = some p ∧ (s'.proc p).state = .running := by
    intro d p hd
    rcases he.current with ⟨hcpu, hme⟩ | hcpu
    · rw [hcpu] at hd
      refine ⟨hd, ?_⟩
      by_cases hp : p = me
      · rw [hp, hme]
      · exact he.others p hp (h.running d p hd)
    · rw [hcpu, update_apply] at hd
      split at hd
      · cases hd
      next hne =>
        refine ⟨hd, he.others p ?_ (h.running d p hd)⟩
        rintro rfl
        exact hne (h.unique _ _ _ hd hc)
  refine ⟨fun d p hd => (hold d p hd).2,
    fun d e p hd he => h.unique d e p (hold d p hd).1 (hold e p he).1, fun p hp => ?_, ?_,
    fun hb => ?_⟩
  · rw [he.init_eq]
    exact (he.exiting p hp).elim (h.init_stays p) id
  · rcases he.family with heq | hstep
    · exact heq ▸ h.tree
    · exact h.tree.step hstep
  · have hinv := h.inv (he.forks_le.trans_lt hb)
    rcases he.family with heq | hstep
    · exact heq ▸ hinv
    · exact hinv.step hstep hb

omit [DecidableEq κ] in
theorem family_resume (hp : (s.proc p).state = .runnable) :
    (s.set p { s.proc p with state := .running, chan := none }).family = s.family :=
  family_set_same (member_congr (by rw [hp]; rfl) rfl rfl rfl rfl rfl)

omit [DecidableEq κ] in
theorem family_wakeup (s : PTable κ) (chan : Option Chan) :
    ({ s with proc := wakeup1 s.proc chan } : PTable κ).family = s.family := by
  ext1 <;> try rfl
  exact funext (member_wakeup1 s.proc chan)

theorem Sound.resume (h : Sound s) (hp : (s.proc p).state = .runnable) :
    Sound { s.set p { s.proc p with state := .running, chan := none } with
      cpu := update s.cpu c (some p) } := by
  have hoff : ∀ d, s.cpu d ≠ some p := by
    intro d hd
    have := h.running d p hd
    rw [hp] at this
    cases this
  have hfam := family_resume hp
  refine ⟨?_, ?_, ?_, hfam ▸ h.tree, hfam ▸ h.inv⟩
  · have := h.running
    simp only [PTable.set]
    grind
  · have := h.unique
    grind
  · have := h.init_stays
    simp only [PTable.set]
    grind

omit [DecidableEq κ] in
theorem Sound.wakeup {chan : Option Chan} (h : Sound s) :
    Sound { s with proc := wakeup1 s.proc chan } := by
  have hfam := family_wakeup s chan
  refine ⟨?_, h.unique, ?_, hfam ▸ h.tree, hfam ▸ h.inv⟩
  · intro c p hc
    have := h.running c p hc
    dsimp only [wakeup1]
    grind
  · intro p hp
    have := h.init_stays p
    dsimp only [wakeup1] at hp
    grind

theorem Sound.step {a : Step κ} (h : Sound s) (hs : step s a = .ok s') : Sound s' := by
  cases a with
  | act c a =>
    simp only [Process.step] at hs
    split at hs
    · cases hs
    next me hc =>
      exact h.effect hc (run_effect (h.running c me hc) h.tree (h.init_stays me) hs)
  | schedule c p =>
    simp only [Process.step, schedule] at hs
    split at hs
    · cases hs
    next hg =>
    rw [not_or, not_not, not_not] at hg
    have hres := h.resume (c := c) hg.2
    split at hs
    next hw =>
      refine hres.effect (update_self ..) (waitLoop_effect ?_ ?_ hs)
      · simp [PTable.set]
      · simp [PTable.set, hw, Pc.task]
    · cases hs
      exact hres
  | wakeup addr =>
    cases hs
    exact h.wakeup

/-- The table refines the family: a step of the table is a step of the family, or leaves it. -/
theorem family_step {a : Step κ} (h : Sound s) (hs : step s a = .ok s') :
    s'.family = s.family ∨ s.family.Step s'.family := by
  cases a with
  | act c a =>
    simp only [step] at hs
    split at hs
    · cases hs
    next me hc => exact (run_effect (h.running c me hc) h.tree (h.init_stays me) hs).family
  | schedule c p =>
    simp only [step, schedule] at hs
    split at hs
    · cases hs
    next hg =>
    rw [not_or, not_not, not_not] at hg
    have hfam := family_resume hg.2
    split at hs
    next hw =>
      have he := waitLoop_effect (by simp [PTable.set]) (by simp [PTable.set, hw, Pc.task]) hs
      exact hfam ▸ he.family
    · cases hs
      exact .inl hfam
  | wakeup addr =>
    cases hs
    exact .inl (family_wakeup s _)

/-! ## Boot -/

def initSlot : Slot := ⟨0, NPROC_pos⟩

omit [DecidableEq κ] in
theorem userinit_proc (i : Slot) : (userinit : PTable κ).proc i =
    if i = initSlot then ⟨.runnable, 1, none, none, false, some 1, some 1, .user⟩ else .zero := by
  have halloc : allocproc (bss : PTable κ) =
      some (initSlot, { bss.set initSlot { Proc.zero with state := .embryo, pid := 1 } with
        nextpid := 2 }) := by rfl
  rw [userinit, halloc]
  simp only [PTable.set, update_idem, update_apply]
  split <;> rfl

omit [DecidableEq κ] in
theorem Sound.boot : Sound (userinit : PTable κ) := by
  have hm : ∀ i, (userinit : PTable κ).family.member i =
      if i = initSlot then ⟨.live, 1, none, some 1, some 1, none⟩
      else ⟨.unused, 0, none, none, none, none⟩ := by
    intro i
    change ((userinit : PTable κ).proc i).member = _
    rw [userinit_proc, apply_ite Proc.member]
    rfl
  have hlog : (userinit : PTable κ).family.log = [] := rfl
  have hinit : (userinit : PTable κ).family.init = initSlot := rfl
  have hnext : (userinit : PTable κ).family.nextpid.toNat = 2 := rfl
  have ht : (userinit : PTable κ).family.Tree := by constructor <;> grind
  refine ⟨nofun, nofun, fun i hi => ?_, ht, fun _ => ⟨ht, ?_, ?_, ?_, ?_⟩⟩
  · rw [userinit_proc] at hi
    split at hi <;> cases hi
  · constructor <;> grind
  · refine ⟨rfl, by grind, fun i hi => ?_, by grind, by grind⟩
    rw [hm] at hi ⊢
    split
    · rw [hnext]
      decide
    next hne => rw [if_neg hne] at hi; exact absurd rfl hi
  · refine ⟨?_, ?_, ?_, ?_, ?_, ?_⟩ <;> grind [waits]
  · refine ⟨?_, ?_⟩ <;> grind

theorem Sound.run (h : Run Process.step (fun _ _ => True) userinit s) : Sound s :=
  h.invariant .boot fun hs _ hstep => hs.step hstep

/-! ## Every exited process is waited for once -/

theorem state_of_kind_live {x : ProcState} (h : x.kind = .live) :
    x = .runnable ∨ x = .running ∨ x = .sleeping := by
  cases x with
  | sleeping => exact .inr (.inr rfl)
  | runnable => exact .inl rfl
  | running => exact .inr (.inl rfl)
  | unused | embryo | zombie => cases h

theorem kind_eq_unused {x : ProcState} : x.kind = .unused ↔ x = .unused := by
  cases x <;> simp [ProcState.kind]

/-- **Fork, exit and wait.** In every run from boot with fewer than `2 ^ 31 - 1` forks: pids are
distinct; every started process but the initial one has a live parent; `wait` returns a process at
most once, after it has exited, to its forker or, once that has exited, to the initial process; and
the stack and page table of an exited process are freed in that `wait` and never else. -/
theorem wait_once (hrun : Run step (fun _ _ => True) userinit s) (hforks : s.forks < 2 ^ 31 - 1) :
    (∀ i j, (s.proc i).state ≠ .unused → (s.proc j).state ≠ .unused →
      (s.proc i).pid = (s.proc j).pid → i = j) ∧
    (∀ i, i ≠ s.initproc → (s.proc i).state ≠ .unused → (s.proc i).state ≠ .embryo →
      ∃ q, (s.proc i).parent = some q ∧ ((s.proc q).state = .runnable ∨
        (s.proc q).state = .running ∨ (s.proc q).state = .sleeping)) ∧
    (s.proc s.initproc).pid = 1 ∧
    (∀ f f' p, .fork f p ∈ s.log → .fork f' p ∈ s.log → f = f') ∧
    (∀ p, waits p s.log ≤ 1) ∧
    (∀ w p l, .wait w p :: l <:+ s.log → MayWait w p l) ∧
    (∀ p, .exit p ∈ s.log →
      s.log.count (.kfree p) = waits p s.log ∧ s.log.count (.freevm p) = waits p s.log) := by
  have hinv := (Sound.run hrun).inv hforks
  refine ⟨fun i j hi hj => hinv.pids.distinct i j (mt kind_eq_unused.mp hi)
      (mt kind_eq_unused.mp hj), fun i hne hu he => ?_, hinv.pids.init, hinv.record.fork_unique,
    hinv.record.once, hinv.parents.waited, hinv.record.freed⟩
  have hgrown : (s.family.member i).Grown := by
    change (s.proc i).state.kind = .live ∨ (s.proc i).state.kind = .zombie
    cases h : (s.proc i).state <;> simp_all [ProcState.kind]
  obtain ⟨f, q, -, hq, hlive, -⟩ := hinv.parents.parent i hgrown hne
  exact ⟨q, hq, state_of_kind_live hlive⟩

/-- The initial process forks a child, which exits and is waited for. -/
def forkExitWait : List (Step Unit) :=
  [.schedule () initSlot, .act () .forkAlloc, .act () (.forkKalloc true), .act () (.forkCopy true),
    .act () .forkParent, .act () .forkRun, .act () .yield, .schedule () ⟨1, one_lt_NPROC⟩,
    .act () .exitStart, .act () .exitSection, .schedule () initSlot, .act () .wait]

set_option maxRecDepth 4000 in
theorem wait_once_child : ∃ s : PTable Unit, Run step (fun _ _ => True) userinit s ∧
    s.forks < 2 ^ 31 - 1 ∧ .wait 1 2 ∈ s.log ∧ waits 2 s.log ≤ 1 := by
  obtain ⟨s, hs, hf, hw⟩ : ∃ s : PTable Unit,
      Run.exec step (fun _ _ => True) userinit forkExitWait = .ok s ∧
      s.forks < 2 ^ 31 - 1 ∧ .wait 1 2 ∈ s.log := ⟨_, rfl, by decide, by decide⟩
  have hs' := Run.of_exec hs
  exact ⟨s, hs', hf, hw, (wait_once hs' hf).2.2.2.2.1 2⟩

end Xv6.Process
