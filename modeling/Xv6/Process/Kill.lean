import Xv6.Process.Wait

/-!
# Kill

`kill` looks for its pid in all slots, unused ones included: `kill(0)` finds a slot that was never
used or has been waited for, and a slot whose `fork` failed keeps the pid it was given. It then sets
`killed` there, and `allocproc`, which does not clear the flag, hands the slot out with it. The flag
also stays behind when a process is killed while it is an embryo and its `fork` then fails.

A run in which neither happens keeps the flag clear in all unused slots (`Fresh`), and there `kill`
succeeds exactly on the pids of processes.
-/

namespace Xv6.Process

variable {κ : Type} [DecidableEq κ] {s s' : PTable κ} {t : Slot → Proc}

/-- No unused slot has been killed. -/
def Fresh (t : Slot → Proc) : Prop := ∀ i, (t i).state = .unused → (t i).killed = false

/-- The step does not leave `killed` set in an unused slot: `kill` finds no unused slot first, and
a `fork` that fails was making a slot that has not been killed. -/
def Proper (s : PTable κ) : Step κ → Prop
  | .act _ (.kill pid) =>
    ∀ p, findSlot s.proc (fun q => q.pid = pid) = some p → (s.proc p).state ≠ .unused
  | .act c (.forkKalloc false) => ∀ me np, s.cpu c = some me → (s.proc me).pc = .allocated np →
    (s.proc np).killed = false
  | .act c (.forkCopy false) => ∀ me np, s.cpu c = some me → (s.proc me).pc = .stacked np →
    (s.proc np).killed = false
  | _ => True

theorem Fresh.update {p : Slot} {q : Proc} (h : Fresh t)
    (hq : q.state = .unused → q.killed = false) : Fresh (Function.update t p q) := by
  intro i hi
  rw [update_apply] at hi ⊢
  split
  next hip => exact hq (by rwa [if_pos hip] at hi)
  next hip => exact h i (by rwa [if_neg hip] at hi)

omit [DecidableEq κ] in
theorem Fresh.set_pc {np me : Slot} {q : Proc} {x : Pc} (h : Fresh s.proc)
    (hq : q.state = .unused → q.killed = false) :
    Fresh ((s.set np q).set me { (s.set np q).proc me with pc := x }).proc := by
  have hnp : Fresh (s.set np q).proc := h.update hq
  exact hnp.update (hnp me)

theorem Fresh.wakeup1 {chan : Option Chan} (h : Fresh t) : Fresh (wakeup1 t chan) := by
  intro i hi
  unfold Process.wakeup1 at hi ⊢
  split at hi
  · cases hi
  next hw => rw [if_neg hw]; exact h i hi

theorem Fresh.reparent {me init p : Slot} (h : Fresh t) : Fresh (reparent me init t p) := by
  unfold Process.reparent
  split
  · have hup : Fresh (Function.update t p { t p with parent := some init }) := h.update (h p)
    dsimp only
    split
    · exact hup.wakeup1
    · exact hup
  · exact h

omit [DecidableEq κ] in
theorem Fresh.abandon (me : Slot) (h : Fresh s.proc) : Fresh (abandon s me) := by
  have hfold : ∀ (ps : List Slot) (t : Slot → Proc), Fresh t →
      Fresh (ps.foldl (Process.reparent me s.initproc) t) := by
    intro ps
    induction ps with
    | nil => exact fun _ h => h
    | cons p ps ih => exact fun t h => ih _ h.reparent
  exact hfold _ _ h.wakeup1

theorem Fresh.waitLoop {c : κ} {me : Slot} (h : Fresh s.proc) (hs : waitLoop s c me = .ok s') :
    Fresh s'.proc := by
  unfold Process.waitLoop at hs
  dsimp only at hs
  split at hs
  · unfold reap at hs
    dsimp only at hs
    split at hs
    · cases hs
    split at hs
    · cases hs
    cases hs
    exact h.set_pc fun _ => rfl
  · split at hs
    · cases hs
      exact h.update (h me)
    · cases hs
      exact h.update fun hu => by cases hu

theorem Fresh.run {c : κ} {me : Slot} {a : Act} (h : Fresh s.proc) (hc : s.cpu c = some me)
    (hme : (s.proc me).state = .running) (hp : Proper s (.act c a)) (hs : run s c me a = .ok s') :
    Fresh s'.proc := by
  cases a with
  | forkAlloc =>
    simp only [Process.run, forkAlloc, allocproc] at hs
    split at hs
    · cases hs
    split at hs
    · cases hs
      exact h
    next heq =>
      split at heq
      · cases heq
      cases heq
      cases hs
      exact h.set_pc fun hu => by cases hu
  | forkKalloc ok =>
    simp only [Process.run, forkKalloc] at hs
    split at hs
    next np hpc =>
      split at hs
      · cases hs
        exact h.set_pc (h np)
      next hok =>
        cases hs
        rw [Bool.not_eq_true] at hok
        subst hok
        exact h.set_pc fun _ => hp me np hc hpc
    · cases hs
  | forkCopy ok =>
    simp only [Process.run, forkCopy] at hs
    split at hs
    next np hpc =>
      split at hs
      · cases hs
        exact h.set_pc (h np)
      next hok =>
        split at hs
        · cases hs
        cases hs
        rw [Bool.not_eq_true] at hok
        subst hok
        exact h.set_pc fun _ => hp me np hc hpc
    · cases hs
  | forkParent =>
    simp only [Process.run, forkParent] at hs
    split at hs
    next np hpc =>
      cases hs
      exact h.set_pc (h np)
    · cases hs
  | forkRun =>
    simp only [Process.run, forkRun] at hs
    split at hs
    next np hpc =>
      cases hs
      exact h.set_pc fun hu => by cases hu
    · cases hs
  | exitStart =>
    simp only [Process.run, exitStart] at hs
    split at hs
    · cases hs
    split at hs
    · cases hs
    cases hs
    exact h.update (h me)
  | exitSection =>
    simp only [Process.run, exitSection] at hs
    split at hs
    · cases hs
    cases hs
    have hz : Fresh (Function.update (Process.abandon s me) me
        { Process.abandon s me me with state := .zombie }) := (h.abandon me).update fun hu => by cases hu
    dsimp only [leave, PTable.set]
    exact hz
  | wait =>
    simp only [Process.run, wait] at hs
    split at hs
    · cases hs
    exact h.waitLoop hs
  | kill pid =>
    simp only [Process.run] at hs
    split at hs
    · cases hs
    cases hs
    unfold kill
    split
    · exact h
    next p hfind =>
      refine h.update fun hu => ?_
      split at hu
      · cases hu
      · exact absurd hu (hp p hfind)
  | fault =>
    simp only [Process.run] at hs
    split at hs
    · cases hs
    cases hs
    exact h.update fun hu => by simp [hme] at hu
  | yield =>
    cases hs
    exact h.update fun hu => by cases hu
  | sleep addr =>
    simp only [Process.run, sleepOn] at hs
    split at hs
    · cases hs
      exact h.update fun hu => by cases hu
    · cases hs

theorem Fresh.step {a : Step κ} (h : Fresh s.proc) (hsound : Sound s) (hp : Proper s a)
    (hs : step s a = .ok s') : Fresh s'.proc := by
  cases a with
  | act c a =>
    simp only [Process.step] at hs
    split at hs
    · cases hs
    next me hc => exact h.run hc (hsound.running c me hc) hp hs
  | schedule c p =>
    simp only [Process.step, schedule] at hs
    split at hs
    · cases hs
    have hup : Fresh (s.set p { s.proc p with state := .running, chan := none }).proc :=
      h.update fun hu => by cases hu
    split at hs
    · refine Fresh.waitLoop ?_ hs
      exact hup
    · cases hs
      exact hup
  | wakeup addr =>
    cases hs
    exact h.wakeup1

omit [DecidableEq κ] in
theorem Fresh.boot : Fresh (userinit : PTable κ).proc := by
  intro i _
  rw [userinit_proc]
  split <;> rfl

/-- **Kill.** In every run in which no `kill` finds an unused slot first and no `fork` fails on a
killed slot, `kill` returns 0 exactly for the pid of a process, and `allocproc` hands out slots that
are not killed. -/
theorem kill_allocproc (h : Run step Proper userinit s) :
    (∀ c pid, Proper s (.act c (.kill pid)) →
      ((kill s pid).1 = 0 ↔ ∃ i, (s.proc i).state ≠ .unused ∧ (s.proc i).pid = pid)) ∧
    ∀ np s', allocproc s = some (np, s') → (s'.proc np).killed = false := by
  obtain ⟨hfresh, -⟩ : Fresh s.proc ∧ Sound s :=
    h.invariant (I := fun t => Fresh t.proc ∧ Sound t) ⟨.boot, .boot⟩ fun ht hp hs => ⟨ht.1.step ht.2 hp hs, ht.2.step hs⟩
  constructor
  · intro c pid hp
    unfold kill
    split
    next hfind =>
      refine ⟨nofun, fun ⟨i, _, hi⟩ => ?_⟩
      have := List.find?_eq_none.mp hfind i (List.mem_finRange i)
      simp [hi] at this
    next p hfind =>
      refine ⟨fun _ => ⟨p, hp p hfind, ?_⟩, fun _ => rfl⟩
      simpa using findSlot_some hfind
  · intro np s' halloc
    unfold allocproc at halloc
    split at halloc
    · cases halloc
    next p hfind =>
      cases halloc
      have hun : (s.proc np).state = .unused := by simpa using findSlot_some hfind
      dsimp only [PTable.set]
      rw [update_self]
      exact hfresh np hun

set_option maxRecDepth 4000 in
/-- The initial process forks a child and then kills it. -/
theorem kill_allocproc_child : ∃ s : PTable Unit, Run step Proper userinit s ∧
    Proper s (.act () (.kill 2)) ∧ (kill s 2).1 = 0 := by
  have hrun : ∃ s, Run step Proper (userinit : PTable Unit) s ∧
      findSlot s.proc (fun q => q.pid = 2) = some ⟨1, by decide⟩ ∧
      s.proc ⟨1, by decide⟩ = ⟨.runnable, 2, some initSlot, none, false, some 2, some 2, .user⟩ :=
    ⟨_, .tail (a := .act () .forkRun) (.tail (a := .act () .forkParent)
      (.tail (a := .act () (.forkCopy true)) (.tail (a := .act () (.forkKalloc true))
        (.tail (a := .act () .forkAlloc) (.tail (a := .schedule () initSlot) .refl
          (by trivial) rfl) (by trivial) rfl) (by trivial) rfl) (by trivial) rfl)
      (by trivial) rfl) (by trivial) rfl, by rfl, by rfl⟩
  obtain ⟨s, hs, hfind, hproc⟩ := hrun
  have hp : Proper s (.act () (.kill 2)) := by
    intro p hp
    rw [hfind] at hp
    cases hp
    rw [hproc]
    nofun
  exact ⟨s, hs, hp, ((kill_allocproc hs).1 () 2 hp).mpr ⟨⟨1, by decide⟩, by rw [hproc]; nofun,
    by rw [hproc]⟩⟩

set_option maxRecDepth 4000 in
/-- Right after boot `kill(0)` finds an unused slot and returns 0, though no process has pid 0, and
`allocproc` then hands out the slot with `killed` set. -/
theorem kill_zero_unused : ∃ s s' : PTable Unit, Run step (fun _ _ => True) userinit s ∧
    (kill s 0).1 = 0 ∧ (∀ i, (s.proc i).state ≠ .unused → (s.proc i).pid ≠ 0) ∧
    step s (.act () (.kill 0)) = .ok s' ∧
    ∃ np s'', allocproc s' = some (np, s'') ∧ (s''.proc np).killed = true := by
  refine ⟨_, _, Run.refl.tail (a := .schedule () initSlot) trivial rfl, rfl, ?_, rfl, _, _, rfl, rfl⟩
  intro i
  simp only [PTable.set, update_apply, userinit_proc]
  split
  · simp
  · simp [Proc.zero]

end Xv6.Process
