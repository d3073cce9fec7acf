import Mathlib

/-!
# Tables

A table is a function from indices to entries. `setAt` is `Function.update` by a test that the
kernel evaluates without comparing the indices themselves.
-/

variable {α β : Type _} [DecidableEq α]

def setAt (f : α → β) (a : α) (b : β) : α → β := fun x => if x = a then b else f x

@[simp] theorem setAt_eq_update (f : α → β) (a : α) (b : β) : setAt f a b = Function.update f a b := by
  funext x
  rw [setAt, Function.update_apply]

/-- The entries that satisfy `P` have different keys. One entry changed, and nothing in `P'` has its
new key. -/
theorem unique_update {κ : Type _} {f : α → β} {a : α} {b : β} {P P' : α → Prop} (key : β → κ)
    (h : ∀ x y, P x → P y → key (f x) = key (f y) → x = y) (hP : ∀ x, x ≠ a → P' x → P x)
    (hb : ∀ x, x ≠ a → P' a → P x → key (f x) ≠ key b) (x y : α) (hx : P' x) (hy : P' y)
    (heq : key (Function.update f a b x) = key (Function.update f a b y)) : x = y := by
  rw [Function.update_apply, Function.update_apply] at heq
  split at heq <;> split at heq
  next hxa hya => rw [hxa, hya]
  next hxa hya => exact absurd heq.symm (hb y hya (hxa ▸ hx) (hP y hya hy))
  next hxa hya => exact absurd heq (hb x hxa (hya ▸ hy) (hP x hxa hx))
  next hxa hya => exact h x y (hP x hxa hx) (hP y hya hy) heq
