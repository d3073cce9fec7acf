import Xv6.Lib.Prog

/-!
# Programs that simulate others

`within` runs a program on a part of a state, where an error may be one of another type. A program
simulates another (`Sim`) if its runs are those of the other on a view of the state; what is known of
the other then holds of it (`Sim.wp`). The rules follow the way programs are built.
-/

namespace Prog

variable {σ τ ε δ α β : Type}

/-- Run a program on a part of the state; `fail` is what an error of it is for the whole. -/
def within (get : τ → σ) (put : τ → σ → τ) (fail : τ → ε → δ) (x : Prog σ ε α) : Prog τ δ α :=
  fun t =>
    match x (get t) with
    | .ok (a, s) => .ok (a, put t s)
    | .error e => .error (fail t e)

section
variable {get : τ → σ} {put : τ → σ → τ} {fail : τ → ε → δ} {x : Prog σ ε α} {t : τ}

@[simp] theorem wp_within {E : δ → Prop} {R : α → τ → Prop} :
    wp (within get put fail x) E R t ↔
      wp x (fun e => E (fail t e)) (fun a s => R a (put t s)) (get t) := by
  simp only [wp, within]
  cases x (get t) <;> rfl

end

/-- From states in `P`, what `x` does is what `y` does on the view of the state, and `P` is kept. -/
def Sim (P : σ → Prop) (view : σ → τ) (err : ε → δ) (x : Prog σ ε α) (y : Prog τ δ α) : Prop :=
  ∀ s, P s → wp x (fun e => y (view s) = .error (err e))
    (fun a t => y (view s) = .ok (a, view t) ∧ P t) s

section
variable {P : σ → Prop} {view : σ → τ} {err : ε → δ} {x : Prog σ ε α} {y : Prog τ δ α} {s : σ}

theorem Sim.wp {E : δ → Prop} {Q : α → τ → Prop} (h : Sim P view err x y) (hs : P s)
    (hy : y.wp E Q (view s)) :
    x.wp (fun e => E (err e)) (fun a t => Q a (view t) ∧ P t) s := by
  refine wp_mono (h s hs) (fun e he => ?_) fun a t ⟨ht, hP⟩ => ⟨wp_ok hy ht, hP⟩
  rw [Prog.wp, he] at hy
  exact hy

theorem Sim.pure (a : α) : Sim P view err (pure a) (pure a) := fun _ hs => ⟨rfl, hs⟩

theorem Sim.bind {f : α → Prog σ ε β} {g : α → Prog τ δ β} (h : Sim P view err x y)
    (hf : ∀ a, Sim P view err (f a) (g a)) : Sim P view err (x >>= f) (y >>= g) := by
  intro s hs
  rw [wp_bind]
  refine wp_mono (h s hs) (fun e he => ?_) fun a t ⟨ht, hP⟩ => ?_
  · simp only [Bind.bind, he]
  · refine wp_mono (hf a t hP) (fun e he => ?_) fun b u ⟨hu, hP'⟩ => ⟨?_, hP'⟩
    · simpa only [Bind.bind, ht] using he
    · simpa only [Bind.bind, ht] using hu

theorem Sim.ite {p : Prop} [Decidable p] {x' : Prog σ ε α} {y' : Prog τ δ α}
    (h : Sim P view err x y) (h' : Sim P view err x' y') :
    Sim P view err (if p then x else x') (if p then y else y') := by
  split
  · exact h
  · exact h'

theorem Sim.when {p : Prop} [Decidable p] {x : Prog σ ε Unit} {y : Prog τ δ Unit}
    (h : Sim P view err x y) : Sim P view err (when p x) (when p y) :=
  h.ite (.pure ())

theorem Sim.times {f : Nat → Prog σ ε Unit} {g : Nat → Prog τ δ Unit} {n : Nat}
    (h : ∀ k, Sim P view err (f k) (g k)) : Sim P view err (times f n) (times g n) := by
  induction n with
  | zero => exact .pure ()
  | succ n ih => exact ih.bind fun _ => h n

/-- The rest of a program that does not concern the view. -/
theorem Sim.then_modify {x : Prog σ ε Unit} {y : Prog τ δ Unit} {f : σ → σ}
    (h : Sim P view err x y) (hview : ∀ s, view (f s) = view s) (hP : ∀ s, P s → P (f s)) :
    Sim P view err (x >>= fun _ => modify f) y := by
  have hmod : Sim P view err (modify f) (Pure.pure ()) := by
    intro s hs
    refine ⟨?_, hP s hs⟩
    rw [hview]
    rfl
  have hbind := h.bind fun _ => hmod
  rwa [bind_pure] at hbind

end

end Prog
