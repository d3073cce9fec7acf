import Mathlib

/-!
# Linked lists

A linked list is a pointer to its first node and a pointer `next` from each node to the one after
it. `Linked next o l` says that the nodes from `o` on are those of `l`. A node is added at the end
by following the pointers to the last node (`lastNode`).
-/

variable {β : Type _} {next : β → Option β} {o x : Option β} {b z : β} {l : List β}

/-- The nodes from `o` on are those of `l`. -/
def Linked (next : β → Option β) (o : Option β) : List β → Prop
  | [] => o = none
  | b :: l => o = some b ∧ Linked next (next b) l

/-- Follow `next` from `b` to a node without one, for at most `turns` nodes. -/
def lastNode (next : β → Option β) : (turns : Nat) → (b : β) → Option β
  | 0, _ => none
  | turns + 1, b => match next b with
    | none => some b
    | some c => lastNode next turns c

theorem Linked.eq_none (h : Linked next o l) : o = none ↔ l = [] := by
  cases l with
  | nil => exact ⟨fun _ => rfl, fun _ => h⟩
  | cons b l => simp [h.1]

theorem Linked.update [DecidableEq β] (h : Linked next o l) (hb : b ∉ l) :
    Linked (Function.update next b x) o l := by
  induction l generalizing o with
  | nil => exact h
  | cons c l ih =>
    rw [List.mem_cons, not_or] at hb
    refine ⟨h.1, ?_⟩
    rw [Function.update_of_ne (Ne.symm hb.1)]
    exact ih h.2 hb.2

theorem Linked.lastNode_eq {turns : Nat} (h : Linked next (some b) l) (hl : l.length ≤ turns) :
    lastNode next turns b = l.getLast? := by
  induction l generalizing b turns with
  | nil => cases h
  | cons c l ih =>
    obtain ⟨hc, h⟩ := h
    cases hc
    rw [List.length_cons] at hl
    obtain ⟨turns, rfl⟩ := Nat.exists_eq_add_of_lt (Nat.lt_of_lt_of_le (Nat.succ_pos _) hl)
    rw [lastNode]
    cases l with
    | nil => rw [show next c = none from h]; rfl
    | cons d l =>
      rw [h.1]
      exact ih (by rw [← h.1]; exact h) (by omega)

/-- A node without a successor is linked to the last node. -/
theorem Linked.push [DecidableEq β] (h : Linked next o l) (hl : l.Nodup) (hb : b ∉ l)
    (hnone : next b = none) (hz : l.getLast? = some z) :
    Linked (Function.update next z (some b)) o (l ++ [b]) := by
  induction l generalizing o with
  | nil => cases hz
  | cons c l ih =>
    rw [List.mem_cons, not_or] at hb
    rw [List.nodup_cons] at hl
    refine ⟨h.1, ?_⟩
    cases l with
    | nil =>
      obtain rfl : c = z := Option.some.inj hz
      rw [Function.update_self]
      refine ⟨rfl, ?_⟩
      rw [Function.update_of_ne hb.1]
      exact hnone
    | cons d l =>
      have hne : c ≠ z := fun heq => hl.1 (heq ▸ List.mem_of_getLast? hz)
      rw [Function.update_of_ne hne]
      exact ih h.2 hl.2 hb.2 hz
