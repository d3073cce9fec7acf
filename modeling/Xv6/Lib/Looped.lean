import Mathlib

/-!
# Circular lists

Nodes with one pointer `next`. `Chained next l` says that each node of `l` points to the one after
it, and `Looped next b l` that the nodes from `b` on are those of `l` and then `b` again. A search that
follows the pointers from any node of a circle (`seek`) looks at every node before it comes back.
-/

variable {β : Type _} {next next' : β → β} {b p q : β} {l xs ys : List β}

/-- Each node points to the one after it. -/
def Chained (next : β → β) (l : List β) : Prop := l.IsChain fun x y => next x = y

/-- The nodes from `b` on are those of `l`, and then `b` again. -/
def Looped (next : β → β) (b : β) (l : List β) : Prop := Chained next (b :: l ++ [b])

/-- Follow `next` from `p` to a node that meets `stop`, for at most `turns` nodes. -/
def seek (next : β → β) (stop : β → Bool) : (turns : Nat) → (p : β) → Option β
  | 0, _ => none
  | turns + 1, p => if stop p then some p else seek next stop turns (next p)

/-- More turns do not change what is found. -/
theorem seek_mono {stop : β → Bool} {turns turns' : Nat} (h : seek next stop turns p = some q)
    (hle : turns ≤ turns') : seek next stop turns' p = some q := by
  induction turns generalizing p turns' with
  | zero => cases h
  | succ turns ih =>
    obtain ⟨turns', rfl⟩ := Nat.exists_eq_add_one_of_ne_zero (Nat.ne_zero_of_lt hle)
    rw [seek] at h ⊢
    split at h
    next hstop => rwa [if_pos hstop]
    next hstop =>
      rw [if_neg hstop]
      exact ih h (Nat.le_of_succ_le_succ hle)

namespace Chained

open List

theorem split : Chained next (xs ++ p :: ys) ↔ Chained next (xs ++ [p]) ∧ Chained next (p :: ys) :=
  isChain_split

theorem cons_cons : Chained next (p :: q :: l) ↔ next p = q ∧ Chained next (q :: l) :=
  isChain_cons_cons

theorem congr (h : Chained next (l ++ [q])) (hl : ∀ x ∈ l, next' x = next x) :
    Chained next' (l ++ [q]) := by
  induction l with
  | nil => exact .singleton q
  | cons x l ih =>
    have hx : next' x = next x := hl x mem_cons_self
    have hl' : ∀ y ∈ l, next' y = next y := fun y hy => hl y (mem_cons_of_mem x hy)
    cases l with
    | nil =>
      rw [cons_append, nil_append, cons_cons] at h ⊢
      exact ⟨hx.trans h.1, .singleton q⟩
    | cons y l =>
      rw [cons_append, cons_append, cons_cons] at h ⊢
      exact ⟨hx.trans h.1, ih h.2 hl'⟩

/-- The first node of a path that meets `stop` is found. -/
theorem seek_eq {stop : β → Bool} {turns : Nat} (h : Chained next (xs ++ [q]))
    (hp : (xs ++ [q]).head? = some p) (hxs : ∀ x ∈ xs, stop x = false) (hq : stop q)
    (hturns : xs.length < turns) : seek next stop turns p = some q := by
  induction xs generalizing p turns with
  | nil =>
    obtain ⟨turns, rfl⟩ := Nat.exists_eq_add_one_of_ne_zero (Nat.ne_zero_of_lt hturns)
    cases hp
    rw [seek, if_pos hq]
  | cons x xs ih =>
    obtain ⟨turns, rfl⟩ := Nat.exists_eq_add_one_of_ne_zero (Nat.ne_zero_of_lt hturns)
    cases hp
    rw [length_cons] at hturns
    rw [seek, hxs x mem_cons_self]
    have hnext : (xs ++ [q]).head? = some (next x) := by
      cases xs with
      | nil =>
        rw [cons_append, nil_append, cons_cons] at h
        rw [h.1]
        rfl
      | cons y xs =>
        rw [cons_append, cons_append, cons_cons] at h
        rw [h.1]
        rfl
    exact ih (isChain_of_isChain_cons h) hnext
      (fun y hy => hxs y (mem_cons_of_mem x hy)) (by omega)

end Chained

namespace Looped

/-- A circle may be begun at any of its nodes. -/
theorem rotate (h : Looped next b (xs ++ p :: ys)) : Looped next p (ys ++ b :: xs) := by
  have h' : Chained next ((b :: xs) ++ p :: (ys ++ [b])) := by simpa [Looped] using h
  obtain ⟨hxs, hys⟩ := Chained.split.mp h'
  have hglue : Chained next ((p :: ys) ++ b :: (xs ++ [p])) := Chained.split.mpr ⟨hys, hxs⟩
  simpa [Looped] using hglue

theorem from_mem (h : Looped next b l) (hp : p ∈ b :: l) :
    ∃ l', Looped next p l' ∧ (p :: l').Perm (b :: l) := by
  rcases List.mem_cons.mp hp with rfl | hp
  · exact ⟨l, h, .refl _⟩
  · obtain ⟨xs, ys, rfl⟩ := List.append_of_mem hp
    refine ⟨ys ++ b :: xs, h.rotate, ?_⟩
    have hperm : (p :: ys ++ b :: xs).Perm (b :: xs ++ p :: ys) := List.perm_append_comm
    exact hperm

/-- From any node of a circle, a search finds a node that meets `stop` if there is one; the nodes
before it do not meet it. -/
theorem seek_eq {stop : β → Bool} {turns : Nat} (h : Looped next p l)
    (hstop : ∃ q ∈ p :: l, stop q) (hturns : l.length < turns) :
    ∃ xs q ys, p :: l = xs ++ q :: ys ∧ (∀ x ∈ xs, stop x = false) ∧ stop q ∧
      seek next stop turns p = some q := by
  obtain ⟨q, hq⟩ : ∃ q, (p :: l).find? stop = some q :=
    Option.isSome_iff_exists.mp (List.find?_isSome.mpr hstop)
  obtain ⟨hq', xs, ys, hl, hxs⟩ := List.find?_eq_some_iff_append.mp hq
  have hxs' : ∀ x ∈ xs, stop x = false := fun x hx => by simpa using hxs x hx
  refine ⟨xs, q, ys, hl, hxs', hq', ?_⟩
  have hpath : Chained next (xs ++ q :: (ys ++ [p])) := by
    rw [Looped, hl] at h
    simpa using h
  have hlen := congrArg List.length hl
  simp only [List.length_cons, List.length_append] at hlen
  apply (Chained.split.mp hpath).1.seek_eq _ hxs' hq' (by omega)
  have hhead := congrArg List.head? hl
  cases xs with
  | nil => simpa using hhead.symm
  | cons x xs => simpa using hhead.symm

theorem exists_next (h : Looped next b l) (hq : q ∈ b :: l) : ∃ p ∈ b :: l, next p = q := by
  have hq' : q ∈ l ++ [b] := by simpa [or_comm] using hq
  obtain ⟨xs, ys, hl⟩ := List.append_of_mem hq'
  obtain ⟨zs, p, hp⟩ : ∃ zs p, b :: xs = zs ++ [p] :=
    ⟨_, _, (List.dropLast_append_getLast (List.cons_ne_nil b xs)).symm⟩
  have hchained : Chained next (zs ++ p :: q :: ys) := by
    rw [Looped, List.cons_append, hl, ← List.cons_append, hp] at h
    simpa using h
  refine ⟨p, ?_, (Chained.cons_cons.mp (Chained.split.mp hchained).2).1⟩
  rcases List.mem_cons.mp (show p ∈ b :: xs by simp [hp]) with rfl | hmem
  · exact List.mem_cons_self
  · have hp' : p ∈ l ++ [b] := hl ▸ List.mem_append_left _ hmem
    simpa [or_comm] using hp'

theorem eq_nil_of_next (h : Looped next b l) (hnodup : (b :: l).Nodup)
    (hl : b :: l = xs ++ q :: ys) (hq : next q = b) : ys = [] := by
  cases ys with
  | nil => rfl
  | cons y ys =>
    have hchained : Chained next (xs ++ q :: y :: (ys ++ [b])) := by
      rw [Looped, hl] at h
      simpa using h
    obtain rfl : b = y := hq.symm.trans (Chained.cons_cons.mp (Chained.split.mp hchained).2).1
    have hmem : b ∈ l := by
      cases xs with
      | nil =>
        cases hl
        exact List.mem_cons_self
      | cons x xs =>
        cases hl
        simp
    exact absurd hmem (List.nodup_cons.mp hnodup).1

end Looped
