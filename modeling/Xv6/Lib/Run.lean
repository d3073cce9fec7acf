import Mathlib

/-!
# Runs of a step function

A system is a fallible step function on states and actions. `Run step C s t` says that some run
leads from `s` to `t` in which every step meets the condition `C` on its state and action;
`Run.invariant` is the induction rule for what holds in every state reached.
-/

/-- Why a step is not taken: it cannot happen in this state, or the system stops with a message. -/
inductive Fault
  | disabled
  | panic (msg : String)
  deriving DecidableEq, Inhabited

variable {σ α ε : Type _}

/-- `t` is reached from `s` by steps that succeed and all meet `C`. -/
inductive Run (step : σ → α → Except ε σ) (C : σ → α → Prop) (s : σ) : σ → Prop
  | refl : Run step C s s
  | tail {t a u} : Run step C s t → C t a → step t a = .ok u → Run step C s u

namespace Run

variable {step : σ → α → Except ε σ} {C : σ → α → Prop} {s t u : σ}

/-- What holds at the start and is kept by every step holds in every state reached. -/
theorem invariant {I : σ → Prop} (h : Run step C s t) (h0 : I s)
    (hstep : ∀ {t a u}, I t → C t a → step t a = .ok u → I u) : I t := by
  induction h with
  | refl => exact h0
  | tail _ hc hs ih => exact hstep ih hc hs

theorem trans (h : Run step C s t) (h' : Run step C t u) : Run step C s u := by
  induction h' with
  | refl => exact h
  | tail _ hc hs ih => exact ih.tail hc hs

theorem mono {D : σ → α → Prop} (h : Run step C s t) (hCD : ∀ s a, C s a → D s a) :
    Run step D s t := by
  induction h with
  | refl => exact .refl
  | tail _ hc hs ih => exact ih.tail (hCD _ _ hc) hs

/-- Execute a list of actions that all meet a decidable condition. -/
def exec [Inhabited ε] (step : σ → α → Except ε σ) (C : σ → α → Prop) [∀ s a, Decidable (C s a)]
    (s : σ) (acts : List α) : Except ε σ :=
  acts.foldlM (fun s a => if C s a then step s a else .error default) s

theorem of_exec [Inhabited ε] [∀ s a, Decidable (C s a)] {acts : List α}
    (h : exec step C s acts = .ok t) : Run step C s t := by
  induction acts generalizing s with
  | nil => cases h; exact .refl
  | cons a acts ih =>
    rw [exec, List.foldlM_cons] at h
    by_cases hc : C s a
    · rw [if_pos hc] at h
      cases hs : step s a with
      | error e => rw [hs] at h; cases h
      | ok s' =>
        rw [hs] at h
        exact (Run.refl.tail hc hs).trans (ih h)
    · rw [if_neg hc] at h
      cases h

end Run

/-! ## Computations on fixed inputs -/

section
variable {x : Except ε α} {p : α → Prop} {q : ε → Prop}

instance Except.decidableExistsOk [DecidablePred p] : Decidable (∃ a, x = .ok a ∧ p a) :=
  match x with
  | .ok a => decidable_of_iff (p a) (by simp)
  | .error _ => isFalse (by simp)

instance Except.decidableExistsError [DecidablePred q] : Decidable (∃ e, x = .error e ∧ q e) :=
  match x with
  | .ok _ => isFalse (by simp)
  | .error e => decidable_of_iff (q e) (by simp)

end
