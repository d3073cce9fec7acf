import Mathlib

/-!
# Programs with state that may stop

A `Prog σ ε α` is a program on states `σ` that returns an `α` or stops with an error. `wp x E Q s`
says that `x`, started in `s`, returns a value and a state that satisfy `Q`, or stops with an error
that satisfies `E`. With `E` everywhere true this is partial correctness, and with `E` everywhere
false it is total correctness.
-/

/-- A program on states `σ` that returns an `α`, or stops with an `ε`. -/
def Prog (σ ε α : Type) : Type := σ → Except ε (α × σ)

namespace Prog

variable {σ ε α β : Type}

instance : Monad (Prog σ ε) where
  pure a := fun s => .ok (a, s)
  bind x f := fun s =>
    match x s with
    | .ok (a, s') => f a s'
    | .error e => .error e

instance : LawfulMonad (Prog σ ε) := .mk' _
  (fun x => by
    funext s
    change (match x s with | .ok (a, s') => .ok (a, s') | .error e => .error e) = x s
    cases x s <;> rfl)
  (fun _ _ => rfl)
  (fun x f g => by
    funext s
    simp only [bind]
    cases x s <;> rfl)

def stop (e : ε) : Prog σ ε α := fun _ => .error e

def gets (f : σ → α) : Prog σ ε α := fun s => .ok (f s, s)

def modify (f : σ → σ) : Prog σ ε Unit := fun s => .ok ((), f s)

def when (c : Prop) [Decidable c] (x : Prog σ ε Unit) : Prog σ ε Unit := if c then x else pure ()

/-- Run `f 0`, ..., `f (n - 1)`. -/
def times (f : Nat → Prog σ ε Unit) : Nat → Prog σ ε Unit
  | 0 => pure ()
  | n + 1 => times f n >>= fun _ => f n

/-- Run a program on a part of the state. -/
def zoom {τ : Type} (get : τ → σ) (put : τ → σ → τ) (x : Prog σ ε α) : Prog τ ε α := fun t =>
  match x (get t) with
  | .ok (a, s) => .ok (a, put t s)
  | .error e => .error e

/-- `x` from `s` returns a value and state in `Q`, or stops with an error in `E`. -/
def wp (x : Prog σ ε α) (E : ε → Prop) (Q : α → σ → Prop) (s : σ) : Prop :=
  match x s with
  | .ok (a, s') => Q a s'
  | .error e => E e

variable {E E' : ε → Prop} {Q Q' : α → σ → Prop} {R : β → σ → Prop} {s s' : σ} {x : Prog σ ε α}

@[simp] theorem wp_pure {a : α} : wp (pure a : Prog σ ε α) E Q s ↔ Q a s := Iff.rfl

@[simp] theorem wp_gets {f : σ → α} : wp (gets f) E Q s ↔ Q (f s) s := Iff.rfl

@[simp] theorem wp_modify {f : σ → σ} {Q : Unit → σ → Prop} :
    wp (modify f) E Q s ↔ Q () (f s) := Iff.rfl

@[simp] theorem wp_bind {f : α → Prog σ ε β} :
    wp (x >>= f) E R s ↔ wp x E (fun a => wp (f a) E R) s := by
  simp only [wp, bind]
  cases x s <;> rfl

@[simp] theorem wp_zoom {τ : Type} {get : τ → σ} {put : τ → σ → τ} {R : α → τ → Prop} {t : τ} :
    wp (zoom get put x) E R t ↔ wp x E (fun a s => R a (put t s)) (get t) := by
  simp only [wp, zoom]
  cases x (get t) <;> rfl

theorem wp_when {c : Prop} [Decidable c] {x : Prog σ ε Unit} {Q : Unit → σ → Prop}
    (hpos : c → wp x E Q s) (hneg : ¬c → Q () s) : wp (when c x) E Q s := by
  unfold when
  split
  next hc => exact hpos hc
  next hc => exact hneg hc

theorem wp_mono (h : wp x E Q s) (hE : ∀ e, E e → E' e) (hQ : ∀ a t, Q a t → Q' a t) :
    wp x E' Q' s := by
  unfold wp at h ⊢
  split
  next heq => rw [heq] at h; exact hQ _ _ h
  next heq => rw [heq] at h; exact hE _ h

/-- What is known of `x` is used in what follows it. -/
theorem wp_imp (h : wp x E Q s) (hQ : ∀ a t, Q a t → Q' a t) : wp x E Q' s :=
  wp_mono h (fun _ => id) hQ

theorem wp_seq {f : α → Prog σ ε β} (h : wp x E Q s) (hf : ∀ a t, Q a t → wp (f a) E R t) :
    wp (x >>= f) E R s :=
  wp_bind.mpr (wp_imp h hf)

/-- Where stopping is no error, nothing need be known of `x` if what follows does not depend on it. -/
theorem wp_bind_any {f : α → Prog σ ε β} (h : ∀ a t, wp (f a) (fun _ => True) R t) :
    wp (x >>= f) (fun _ => True) R s := by
  rw [wp_bind]
  unfold wp
  split
  · exact h _ _
  · trivial

theorem wp_ok {a : α} (h : wp x E Q s) (hx : x s = .ok (a, s')) : Q a s' := by
  unfold wp at h
  rw [hx] at h
  exact h

theorem wp_map_ok {τ : Type} {f : α × σ → τ} {y : τ} (h : wp x E Q s)
    (hx : (x s).map f = .ok y) : ∃ a t, Q a t ∧ y = f (a, t) := by
  unfold wp at h
  cases hs : x s with
  | error e => rw [hs] at hx; cases hx
  | ok r =>
    rw [hs] at h hx
    cases hx
    exact ⟨r.1, r.2, h, rfl⟩

theorem wp_of_eq_ok {a : α} (hx : x s = .ok (a, s')) : wp x E Q s ↔ Q a s' := by
  rw [wp, hx]

theorem exists_of_wp (h : wp x (fun _ => False) Q s) : ∃ a t, x s = .ok (a, t) ∧ Q a t := by
  unfold wp at h
  split at h
  next heq => exact ⟨_, _, heq, h⟩
  next => exact h.elim

theorem eq_ok_of_wp {a : α} (h : wp x (fun _ => False) (fun b t => b = a ∧ t = s') s) :
    x s = .ok (a, s') := by
  obtain ⟨b, t, heq, rfl, rfl⟩ := exists_of_wp h
  exact heq

/-- A loop keeps what every turn of it keeps. -/
theorem wp_times {I : Nat → σ → Prop} {f : Nat → Prog σ ε Unit} {n : Nat} (h0 : I 0 s)
    (hstep : ∀ k t, k < n → I k t → wp (f k) E (fun _ => I (k + 1)) t) :
    wp (times f n) E (fun _ => I n) s := by
  induction n with
  | zero => exact h0
  | succ n ih =>
    refine wp_seq (ih fun k t hk => hstep k t (Nat.lt_succ_of_lt hk)) fun _ t ht => ?_
    exact hstep n t (Nat.lt_succ_self n) ht

/-- A loop over a list, with what holds for the rest of the list. -/
theorem wp_forM {I : List β → σ → Prop} {f : β → Prog σ ε PUnit} {l : List β} (h0 : I l s)
    (hstep : ∀ b rest t, I (b :: rest) t → wp (f b) E (fun _ => I rest) t) :
    wp (l.forM f) E (fun _ => I []) s := by
  induction l generalizing s with
  | nil => exact h0
  | cons b rest ih =>
    exact wp_seq (hstep b rest s h0) fun _ t ht => ih ht

theorem wp_and {E' : ε → Prop} {Q' : α → σ → Prop} (h : wp x E Q s) (h' : wp x E' Q' s) :
    wp x (fun e => E e ∧ E' e) (fun a t => Q a t ∧ Q' a t) s := by
  unfold wp at h h' ⊢
  split
  next heq =>
    rw [heq] at h h'
    exact ⟨h, h'⟩
  next heq =>
    rw [heq] at h h'
    exact ⟨h, h'⟩

/-- What holds of a run that returns is added. -/
theorem wp_also {Q' : α → σ → Prop} (h : wp x E Q s) (h' : wp x (fun _ => True) Q' s) :
    wp x E (fun a t => Q a t ∧ Q' a t) s :=
  wp_mono (wp_and h h') (fun _ he => he.1) fun _ _ => id

/-! ## What a program stops with -/

/-- Wherever `x` starts, it stops with no error outside `E`. -/
def StopsIn (E : ε → Prop) (x : Prog σ ε α) : Prop := ∀ s, wp x E (fun _ _ => True) s

theorem StopsIn.wp (h : StopsIn E x) (hx : x.wp (fun _ => True) Q s) : x.wp E Q s :=
  wp_imp (wp_also (h s) hx) fun _ _ ht => ht.2

theorem StopsIn.pure (a : α) : StopsIn E (pure a : Prog σ ε α) := fun _ => trivial

theorem StopsIn.stop {e : ε} (h : E e) : StopsIn E (stop e : Prog σ ε α) := fun _ => h

theorem StopsIn.gets (f : σ → α) : StopsIn E (gets f : Prog σ ε α) := fun _ => trivial

theorem StopsIn.modify (f : σ → σ) : StopsIn E (modify f : Prog σ ε Unit) := fun _ => trivial

theorem StopsIn.bind {f : α → Prog σ ε β} (h : StopsIn E x) (hf : ∀ a, StopsIn E (f a)) :
    StopsIn E (x >>= f) := fun s =>
  wp_seq (h s) fun a t _ => hf a t

theorem StopsIn.ite {p : Prop} [Decidable p] {x y : Prog σ ε α} (hx : StopsIn E x)
    (hy : StopsIn E y) : StopsIn E (if p then x else y) := by
  split
  · exact hx
  · exact hy

theorem StopsIn.when {p : Prop} [Decidable p] {x : Prog σ ε Unit} (hx : StopsIn E x) :
    StopsIn E (when p x) :=
  hx.ite (.pure ())

theorem StopsIn.times {f : Nat → Prog σ ε Unit} {n : Nat} (h : ∀ k, StopsIn E (f k)) :
    StopsIn E (times f n) := by
  induction n with
  | zero => exact .pure ()
  | succ n ih => exact ih.bind fun _ => h n

theorem StopsIn.zoom {τ : Type} {get : τ → σ} {put : τ → σ → τ} (h : StopsIn E x) :
    StopsIn E (zoom get put x) := fun t => wp_zoom.mpr (h (get t))

/-! ## What a program does not use -/

/-- `x` neither reads nor changes the part of the state that `put` replaces. -/
def Frames {ρ : Type} (put : σ → ρ → σ) (x : Prog σ ε α) : Prop :=
  ∀ s c, x (put s c) = (x s).map fun r => (r.1, put r.2 c)

section
variable {ρ : Type} {put : σ → ρ → σ} {c : ρ}

/-- The frame rule. -/
theorem Frames.wp (h : Frames put x) (hx : x.wp E Q s) :
    x.wp E (fun a t => ∃ u, Q a u ∧ t = put u c) (put s c) := by
  unfold Prog.wp at hx ⊢
  rw [h s c]
  cases hs : x s with
  | error e =>
    rw [hs] at hx
    exact hx
  | ok r =>
    rw [hs] at hx
    exact ⟨r.2, hx, rfl⟩

theorem Frames.pure (a : α) : Frames put (pure a : Prog σ ε α) := fun _ _ => rfl

theorem Frames.stop (e : ε) : Frames put (stop e : Prog σ ε α) := fun _ _ => rfl

theorem Frames.modify {f : σ → σ} (hf : ∀ s c, f (put s c) = put (f s) c) :
    Frames put (modify f : Prog σ ε Unit) := fun s c => by
  rw [Prog.modify, hf]
  rfl

theorem Frames.bind {f : α → Prog σ ε β} (h : Frames put x) (hf : ∀ a, Frames put (f a)) :
    Frames put (x >>= f) := by
  intro s c
  simp only [Bind.bind, h s c]
  cases x s with
  | error e => rfl
  | ok r => exact hf r.1 r.2 c

/-- What is read may have that part in it, if what follows does not use it. -/
theorem Frames.gets_bind {f : σ → α} {k : α → Prog σ ε β}
    (hk : ∀ s c, k (f (put s c)) = k (f s)) (h : ∀ a, Frames put (k a)) :
    Frames put (gets f >>= k) := by
  intro s c
  refine Eq.trans ?_ (h (f s) s c)
  exact congrFun (hk s c) (put s c)

theorem Frames.ite {p : Prop} [Decidable p] {x y : Prog σ ε α} (hx : Frames put x)
    (hy : Frames put y) : Frames put (if p then x else y) := by
  split
  · exact hx
  · exact hy

theorem Frames.when {p : Prop} [Decidable p] {x : Prog σ ε Unit} (hx : Frames put x) :
    Frames put (when p x) :=
  hx.ite (.pure ())

end

end Prog
