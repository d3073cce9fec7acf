import Mathlib

/-!
# Moving cells one after the other

A loop copies the cells `src 0`, `src 1` and so on of a memory to `dst 0`, `dst 1` and so on. A cell may
be written before it is read. The loop moves all cells if and only if a cell that is written before it is
read gets the value that it has (`moves_iff`).
-/

section
variable {α β : Type} [DecidableEq α] {dst src : Nat → α} {m : α → β} {n : Nat}

/-- The memory after the first `n` cells are copied. -/
def moves (dst src : Nat → α) (m : α → β) : Nat → α → β
  | 0 => m
  | n + 1 => Function.update (moves dst src m n) (dst n) (moves dst src m n (src n))

theorem moves_of_ne {a : α} (h : ∀ i < n, a ≠ dst i) : moves dst src m n a = m a := by
  induction n with
  | zero => rfl
  | succ n ih =>
    rw [moves, Function.update_of_ne (h n n.lt_succ_self)]
    exact ih fun i hi => h i (Nat.lt_succ_of_lt hi)

/-- What the next turn reads, if the cells before it were moved. -/
theorem moves_src_iff (h : ∀ i < n, moves dst src m n (dst i) = m (src i)) :
    moves dst src m n (src n) = m (src n) ↔ ∀ i < n, src n = dst i → m (src i) = m (src n) := by
  constructor
  · intro hread i hi heq
    rw [← h i hi, ← heq, hread]
  · intro hsame
    by_cases hwritten : ∃ i < n, src n = dst i
    · obtain ⟨i, hi, heq⟩ := hwritten
      calc moves dst src m n (src n) = moves dst src m n (dst i) := congrArg _ heq
        _ = m (src i) := h i hi
        _ = m (src n) := hsame i hi heq
    · exact moves_of_ne fun i hi heq => hwritten ⟨i, hi, heq⟩

theorem moves_iff (hinj : ∀ i < n, ∀ j < i, dst i ≠ dst j) :
    (∀ i < n, moves dst src m n (dst i) = m (src i)) ↔
      ∀ j < n, ∀ i < j, src j = dst i → m (src i) = m (src j) := by
  induction n with
  | zero => exact iff_of_true (fun _ hi => absurd hi (Nat.not_lt_zero _)) fun _ hj =>
      absurd hj (Nat.not_lt_zero _)
  | succ n ih =>
    have ih := ih fun i hi => hinj i (Nat.lt_succ_of_lt hi)
    -- the last turn leaves the cells that were written before it
    have hold : ∀ i < n, moves dst src m (n + 1) (dst i) = moves dst src m n (dst i) := fun i hi =>
      Function.update_of_ne (hinj n n.lt_succ_self i hi).symm ..
    have hlast : moves dst src m (n + 1) (dst n) = moves dst src m n (src n) :=
      Function.update_self ..
    rw [Nat.forall_lt_succ_right, Nat.forall_lt_succ_right, hlast, ← ih]
    refine (and_congr_left' ?_).trans (and_congr_right moves_src_iff)
    exact forall₂_congr fun i hi => by rw [hold i hi]

end
