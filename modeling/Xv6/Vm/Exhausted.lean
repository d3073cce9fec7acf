import Xv6.Vm.Sizes

/-!
# Running out of memory

`kalloc` is documented to return 0 when there is no free page, and its callers undo what they did
when it does. But it calls `panic` first. So a call survives exactly if it needs no more pages than
there are; how many it needs is a function of the state and its arguments (`demand`).
-/

namespace Xv6.Vm

variable {k k' : Kern} {me : Slot} {a : Action}

/-- The free list runs out in the middle of a call: `kalloc` finds it empty. -/
def RunsOut (k : Kern) (me : Slot) (c : Call) : Prop := c.run me k = .error oom

/-- The call returned -1 and left the caller as it was. The pages that it took are free again, or
are tables of the caller. -/
structure Undone (k k' : Kern) (me : Slot) : Prop where
  memory : SameMemory k k' me
  ofile : (k'.proc me).ofile = (k.proc me).ofile
  file : k'.file = k.file
  pages : ∀ f ∈ k.mem.freelist, f ∈ k'.mem.freelist ∨
    ∃ r σ, (k.proc me).pgdir = some r ∧ σ.length < 4 ∧ lookup k'.mem r σ = some f

/-- What should happen to a call in which the free list runs out. -/
def Recovers (k : Kern) (me : Slot) (c : Call) : Prop :=
  RunsOut k me c → ∃ k', c.run me k = .ok (-1, k') ∧ Undone k k' me

theorem runsOut_iff {base : Nat} (h : Inv False base k) (ha : a.enabled k = true) :
    RunsOut k a.me a.call ↔ k.mem.freelist.length < demand k a.me a.call := by
  have hwp := wp_run h ha False.elim
  rw [RunsOut]
  unfold Prog.wp at hwp
  split at hwp
  next o k' hrun =>
    rw [hrun]
    exact iff_of_false (fun h => by cases h) (not_lt.mpr hwp.2)
  next e hrun =>
    rw [hrun, Except.error.injEq]
    rcases hwp with ⟨he, hlt⟩ | ⟨he, hle, -⟩
    · exact iff_of_true he hlt
    · exact iff_of_false he (not_lt.mpr hle)

/-- **A call recovers exactly if the free list has the pages that it needs**, in every state that is
reached. -/
theorem recovers_iff_demand {kernel ncpu : Nat} {k₀ : Kern}
    (hmain : main ncpu (bss kernel) = .ok ((), k₀)) (hrun : Run step (fun _ _ => True) k₀ k)
    (ha : a.enabled k = true) :
    Recovers k a.me a.call ↔ demand k a.me a.call ≤ k.mem.freelist.length := by
  have hiff := runsOut_iff (run_inv False hmain hrun False.elim) ha
  rw [← not_lt, ← hiff]
  constructor
  · intro hrec hout
    obtain ⟨k', hk', -⟩ := hrec hout
    rw [RunsOut, hk'] at hout
    cases hout
  · exact fun hno hout => absurd hout hno

/-- With 30 free pages, there are enough for `fork`, and for 20 pages more. -/
theorem recovers_iff_demand_fork : ∃ k₀, main 1 (bss 57048) = .ok ((), k₀) ∧
    demand k₀ ⟨0, by decide⟩ .fork = 6 ∧ Recovers k₀ ⟨0, by decide⟩ .fork ∧
    demand k₀ ⟨0, by decide⟩ (.sbrk 81920) = 20 ∧ Recovers k₀ ⟨0, by decide⟩ (.sbrk 81920) := by
  obtain ⟨⟨⟨⟩, k₀⟩, hmain, hfork, hsbrk, h6, h20, hle⟩ : ∃ x, main 1 (bss 57048) = .ok x ∧
      (userCall 0 .fork).enabled x.2 = true ∧ (userCall 0 (.sbrk 81920)).enabled x.2 = true ∧
      demand x.2 ⟨0, by decide⟩ .fork = 6 ∧ demand x.2 ⟨0, by decide⟩ (.sbrk 81920) = 20 ∧
      20 ≤ x.2.mem.freelist.length := by decide +kernel
  refine ⟨k₀, hmain, h6, (recovers_iff_demand hmain .refl hfork).mpr ?_, h20,
    (recovers_iff_demand hmain .refl hsbrk).mpr ?_⟩
  · exact h6.le.trans (le_trans (by decide) hle)
  · exact h20.le.trans hle

/-- The first process asks for four pages when two are free. -/
theorem sbrk_panics : ∃ k₀, main 1 (bss 57076) = .ok ((), k₀) ∧ k₀.mem.freelist.length = 2 ∧
    (userCall 0 (.sbrk 16384)).enabled k₀ = true ∧
    (Call.sbrk 16384).run ⟨0, by decide⟩ k₀ = .error (.panic "Out of memory!") ∧
    ¬Recovers k₀ ⟨0, by decide⟩ (.sbrk 16384) := by
  obtain ⟨⟨⟨⟩, k₀⟩, hmain, hlen, henabled, _, hrun, rfl⟩ : ∃ x, main 1 (bss 57076) = .ok x ∧
      x.2.mem.freelist.length = 2 ∧ (userCall 0 (.sbrk 16384)).enabled x.2 = true ∧
      ∃ e, (Call.sbrk 16384).run ⟨0, by decide⟩ x.2 = .error e ∧ e = .panic "Out of memory!" := by
    decide +kernel
  refine ⟨k₀, hmain, hlen, henabled, hrun, fun hrec => ?_⟩
  obtain ⟨k', hk', -⟩ := hrec hrun
  rw [hrun] at hk'
  cases hk'

end Xv6.Vm
