import Mathlib

/-!
# How often a value is held

A table of places each of which is empty or holds a value. `places tab a` is the number of places
that hold `a`; it changes by what one place held and holds when that place changes.
-/

variable {ι α : Type} [Fintype ι] [DecidableEq α]

/-- The number of places that hold `a`. -/
def places (tab : ι → Option α) (a : α) : Int := ∑ x, if tab x = some a then 1 else 0

section
variable {tab : ι → Option α} {a : α} {x : ι}

theorem places_eq_card :
    places tab a = (Finset.univ.filter fun x => tab x = some a).card := by
  rw [places, Finset.sum_boole]

theorem places_nonneg : 0 ≤ places tab a :=
  Finset.sum_nonneg fun x _ => by split <;> decide

theorem places_pos (h : tab x = some a) : 0 < places tab a := by
  have hle : (if tab x = some a then 1 else 0) ≤ places tab a :=
    Finset.single_le_sum (f := fun x => if tab x = some a then (1 : Int) else 0)
      (fun x _ => by split <;> decide) (Finset.mem_univ x)
  rw [if_pos h] at hle
  exact Int.lt_of_lt_of_le Int.one_pos hle

theorem exists_of_places_pos (h : 0 < places tab a) : ∃ x, tab x = some a := by
  by_contra hnone
  have hzero : places tab a = 0 := Finset.sum_eq_zero fun x _ => if_neg fun hx => hnone ⟨x, hx⟩
  exact absurd hzero (Int.ne_of_gt h)

theorem places_update [DecidableEq ι] {v : Option α} :
    places (Function.update tab x v) a =
      places tab a + (if v = some a then 1 else 0) - if tab x = some a then 1 else 0 := by
  have hterm : ∀ y, (if Function.update tab x v y = some a then (1 : Int) else 0) =
      (if tab y = some a then 1 else 0) +
        if y = x then (if v = some a then 1 else 0) - (if tab x = some a then 1 else 0) else 0 := by
    intro y
    by_cases hy : y = x
    · subst hy
      rw [Function.update_self, if_pos rfl]
      omega
    · rw [Function.update_of_ne hy, if_neg hy, Int.add_zero]
  rw [places, Finset.sum_congr rfl fun y _ => hterm y, Finset.sum_add_distrib,
    Finset.sum_ite_eq' Finset.univ x, if_pos (Finset.mem_univ x), places]
  omega

end
