import Mathlib

/-!
# Extents

Half-open ranges of addresses. `cover l a` counts the extents of `l` that an address is in. Two
lists tile the same memory if they cover every address equally often; where no address is covered twice,
the extents of a list are apart.
-/

/-- The addresses from `lo` on, before `hi`. -/
structure Extent where
  lo : Nat
  hi : Nat

namespace Extent

variable {e f : Extent} {l l' : List Extent} {a : Nat}

/-- Neither has an address of the other. -/
def Apart (e f : Extent) : Prop := e.hi ≤ f.lo ∨ f.hi ≤ e.lo

def cover (l : List Extent) (a : Nat) : Nat := l.countP fun e => e.lo ≤ a ∧ a < e.hi

theorem cover_append : cover (l ++ l') a = cover l a + cover l' a := List.countP_append

theorem cover_cons : cover (e :: l) a = cover [e] a + cover l a := cover_append (l := [e])

theorem cover_perm (h : l.Perm l') : cover l = cover l' := funext fun _ => h.countP_eq _

theorem cover_singleton : cover [e] a = if e.lo ≤ a ∧ a < e.hi then 1 else 0 := by
  simp [cover]

/-- Two extents of which one begins where the other ends are as good as one. -/
theorem cover_join (h : e.hi = f.lo) (he : e.lo ≤ e.hi) (hf : f.lo ≤ f.hi) :
    cover [⟨e.lo, f.hi⟩] a = cover [e] a + cover [f] a := by
  simp only [cover_singleton]
  split_ifs <;> omega

theorem cover_eq_zero (h : ∀ e ∈ l, e.hi ≤ a) : cover l a = 0 := by
  rw [cover, List.countP_eq_zero]
  intro e he
  have := h e he
  simp only [decide_eq_true_eq, not_and, Nat.not_lt]
  omega

theorem cover_pos (h : e ∈ l) (ha : e.lo ≤ a) (ha' : a < e.hi) : 0 < cover l a :=
  List.countP_pos_iff.mpr ⟨e, h, by simp [ha, ha']⟩

/-- Extents that cover no address twice are apart. -/
theorem Apart.of_cover (h : ∀ a, cover (e :: l) a ≤ 1) (hf : f ∈ l) (he : e.lo < e.hi)
    (hf' : f.lo < f.hi) : Apart e f := by
  by_contra hnot
  simp only [Apart] at hnot
  -- the larger one of the lower ends is in both
  have hcover := h (max e.lo f.lo)
  have hpos : 0 < cover l (max e.lo f.lo) := cover_pos hf (by omega) (by omega)
  rw [cover_cons, cover_singleton, if_pos (by omega)] at hcover
  omega

end Extent
