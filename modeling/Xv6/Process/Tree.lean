import Xv6.Process.Sched

/-!
# The tree of processes

`fork` hangs a new process below its parent, `exit` hangs the children of a process below the initial
one, and `wait` takes off a process that has no children any more.
-/

namespace Xv6.Process

open Relation

namespace Family

variable {F F' : Family} {i : Slot}

/-- The second is the first, or an ancestor. -/
def Below (F : Family) : Slot → Slot → Prop :=
  ReflTransGen fun i q => (F.member i).parent = some q

/-- A member that is not taken off keeps its parent, or comes below the initial process. -/
theorem Below.step (h : F.Below i F'.init) (hi : (F'.member i).kind ≠ .unused)
    (hkeep : ∀ i q, (F.member i).parent = some q → (F'.member i).kind ≠ .unused →
      (F'.member i).parent = some F'.init ∨
      (F'.member i).parent = some q ∧ (F'.member q).kind ≠ .unused) : F'.Below i F'.init := by
  induction h using ReflTransGen.head_induction_on with
  | refl => exact .refl
  | head hq _ ih =>
    rcases hkeep _ _ hq hi with hinit | ⟨hsame, hused⟩
    · exact .single hinit
    · exact .head hsame (ih hused)

/-- Every parent is live, and the ancestors of a started process end with the initial one. -/
structure Rooted (F : Family) : Prop where
  live : ∀ i q, (F.member i).parent = some q → (F.member q).kind = .live
  below : ∀ i, (F.member i).Grown → F.Below i F.init

theorem Rooted.step (h : F.Rooted) (ht : F.Tree) (hs : F.Step F') : F'.Rooted := by
  obtain ⟨hinit, hunused, hembryo, hkinds, hinj, hadopted⟩ := ht
  have hlive := h.live
  refine ⟨fun i q hq => by cases hs <;> grind, fun i hi => ?_⟩
  have hold : F.Below i F'.init := by
    rw [hs.init_eq]
    by_cases hg : (F.member i).Grown
    · exact h.below i hg
    · -- the process has just been started, and its parent before
      obtain ⟨q, hq⟩ : ∃ q, (F.member i).parent = some q := by cases hs <;> grind
      exact .head hq (h.below q (.inl (hlive i q hq)))
  refine hold.step (by grind) fun j q hq hj => ?_
  cases hs <;> grind

end Family

variable {κ : Type} [DecidableEq κ] {s : PTable κ}

theorem rooted_of_run (h : Run step (fun _ _ => True) userinit s) : s.family.Rooted := by
  refine (h.invariant (I := fun s => Sound s ∧ s.family.Rooted)
    ⟨.boot, fun i q hq => ?_, fun i hi => ?_⟩ ?_).2
  · change ((userinit : PTable κ).proc i).parent = some q at hq
    rw [userinit_proc] at hq
    split at hq <;> cases hq
  · change ((userinit : PTable κ).proc i).member.Grown at hi
    rw [userinit_proc] at hi
    split at hi
    next heq => exact heq ▸ .refl
    next => rcases hi with hi | hi <;> cases hi
  · rintro t a u ⟨ht, hr⟩ - hs
    refine ⟨ht.step hs, ?_⟩
    rcases family_step ht hs with heq | hstep
    · exact heq ▸ hr
    · exact hr.step ht.tree hstep

/-- **The tree of processes.** In every run from boot, on any number of CPUs, the initial process has no
parent, every parent is live, and the parents of every process that is not being forked lead to the
initial process. So no process is left that nobody can wait for. -/
theorem processes_form_tree (hrun : Run step (fun _ _ => True) userinit s) :
    (s.proc s.initproc).parent = none ∧
    (∀ i q, (s.proc i).parent = some q → (s.proc q).state = .runnable ∨
      (s.proc q).state = .running ∨ (s.proc q).state = .sleeping) ∧
    ∀ i, (s.proc i).state ≠ .unused → (s.proc i).state ≠ .embryo →
      ReflTransGen (fun i q => (s.proc i).parent = some q) i s.initproc := by
  have h := rooted_of_run hrun
  refine ⟨(Settled.run hrun).roots.init, fun i q hq => state_of_kind_live (h.live i q hq),
    fun i hu he => h.below i ?_⟩
  change (s.proc i).state.kind = .live ∨ (s.proc i).state.kind = .zombie
  cases hst : (s.proc i).state <;> simp_all [ProcState.kind]

set_option maxRecDepth 4000 in
theorem processes_form_tree_child : ∃ s : PTable Unit, Run step (fun _ _ => True) userinit s ∧
    ReflTransGen (fun i q => (s.proc i).parent = some q) ⟨1, one_lt_NPROC⟩ s.initproc := by
  obtain ⟨s, hs, hu, he⟩ : ∃ s : PTable Unit,
      Run.exec step (fun _ _ => True) userinit forkWait = .ok s ∧
      (s.proc ⟨1, one_lt_NPROC⟩).state ≠ .unused ∧ (s.proc ⟨1, one_lt_NPROC⟩).state ≠ .embryo :=
    ⟨_, rfl, by decide, by decide⟩
  exact ⟨s, .of_exec hs, (processes_form_tree (.of_exec hs)).2.2 _ hu he⟩

end Xv6.Process
