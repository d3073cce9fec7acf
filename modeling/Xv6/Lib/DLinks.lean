import Mathlib

/-!
# Doubly linked lists

Nodes with pointers `next` and `prev`. `Seg k p l q` says that the nodes between `p` and `q` are
those of `l`, linked in both directions; a circular list with the head `h` is a segment from `h` to
`h`. A node is taken out (`DLinks.remove`), put in after the head (`DLinks.push`), and the nodes are
searched from one end to the other (`DLinks.find`).
-/

/-- The pointers of all nodes. -/
structure DLinks (N : Type _) where
  next : N → N
  prev : N → N

namespace DLinks

variable {N : Type _} [DecidableEq N]

/-- The list with the head `h` and no other node. -/
def empty (h : N) (k : DLinks N) : DLinks N where
  next := Function.update k.next h h
  prev := Function.update k.prev h h

/-- Put `b` in after the head `h`. -/
def push (h : N) (k : DLinks N) (b : N) : DLinks N :=
  let next := Function.update k.next b (k.next h)
  let prev := Function.update k.prev b h
  { prev := Function.update prev (next h) b
    next := Function.update next h b }

/-- Take `b` out of its list. -/
def remove (k : DLinks N) (b : N) : DLinks N :=
  let prev := Function.update k.prev (k.next b) (k.prev b)
  { prev
    next := Function.update k.next (prev b) (k.next b) }

/-- Follow `next` from `b` up to `h`, for at most `turns` nodes, to a node that meets `p`. -/
def find (next : N → N) (h : N) (p : N → Bool) : (turns : Nat) → (b : N) → Option N
  | 0, _ => none
  | turns + 1, b =>
    if b = h then none
    else if p b then some b
    else find next h p turns (next b)

end DLinks

/-- The nodes between `p` and `q` are those of `l`. -/
def Seg (k : DLinks N) (p : N) : List N → N → Prop
  | [], q => k.next p = q ∧ k.prev q = p
  | b :: l, q => k.next p = b ∧ k.prev b = p ∧ Seg k b l q

namespace Seg

variable {N : Type _} {k k' : DLinks N} {p q b : N} {l m : List N}

theorem congr (h : Seg k p l q) (hnext : ∀ x, x = p ∨ x ∈ l → k'.next x = k.next x)
    (hprev : ∀ x, x ∈ l ∨ x = q → k'.prev x = k.prev x) : Seg k' p l q := by
  induction l generalizing p with
  | nil => exact ⟨(hnext p (.inl rfl)).trans h.1, (hprev q (.inr rfl)).trans h.2⟩
  | cons b l ih =>
    refine ⟨(hnext p (.inl rfl)).trans h.1, (hprev b (.inl List.mem_cons_self)).trans h.2.1, ?_⟩
    refine ih h.2.2 (fun x hx => hnext x (.inr ?_)) fun x hx => hprev x ?_
    · exact hx.elim (fun heq => heq ▸ List.mem_cons_self) (List.mem_cons_of_mem _)
    · exact hx.imp_left (List.mem_cons_of_mem _)

theorem append_iff : Seg k p (l ++ b :: m) q ↔ Seg k p l b ∧ Seg k b m q := by
  induction l generalizing p with
  | nil => exact ⟨fun h => ⟨⟨h.1, h.2.1⟩, h.2.2⟩, fun h => ⟨h.1.1, h.1.2, h.2⟩⟩
  | cons c l ih =>
    constructor
    · rintro ⟨hnext, hprev, h⟩
      exact ⟨⟨hnext, hprev, (ih.mp h).1⟩, (ih.mp h).2⟩
    · rintro ⟨⟨hnext, hprev, hl⟩, hm⟩
      exact ⟨hnext, hprev, ih.mpr ⟨hl, hm⟩⟩

theorem next_mem (h : Seg k p l q) : k.next p ∈ l ∨ k.next p = q := by
  cases l with
  | nil => exact .inr h.1
  | cons b l => exact .inl (h.1 ▸ List.mem_cons_self)

theorem prev_mem (h : Seg k p l q) : k.prev q = p ∨ k.prev q ∈ l := by
  induction l generalizing p with
  | nil => exact .inl h.2
  | cons b l ih =>
    right
    exact (ih h.2.2).elim (fun heq => heq ▸ List.mem_cons_self) (List.mem_cons_of_mem _)

theorem reverse (h : Seg k p l q) : Seg ⟨k.prev, k.next⟩ q l.reverse p := by
  induction l generalizing p with
  | nil => exact h.symm
  | cons b l ih =>
    rw [List.reverse_cons]
    exact append_iff.mpr ⟨ih h.2.2, h.2.1, h.1⟩

/-- Searching the nodes of a circular list is searching the list. -/
theorem find_eq [DecidableEq N] {test : N → Bool} {turns : Nat} (h : Seg k p l q) (hq : q ∉ l)
    (hturns : l.length < turns) : DLinks.find k.next q test turns (k.next p) = l.find? test := by
  induction l generalizing p turns with
  | nil =>
    obtain ⟨turns, rfl⟩ := Nat.exists_eq_add_of_lt hturns
    rw [h.1, DLinks.find, if_pos rfl]
    rfl
  | cons b l ih =>
    rw [List.mem_cons, not_or] at hq
    rw [List.length_cons] at hturns
    obtain ⟨turns, rfl⟩ := Nat.exists_eq_add_of_lt (Nat.lt_of_le_of_lt (Nat.zero_le _) hturns)
    rw [h.1, DLinks.find, if_neg (Ne.symm hq.1), List.find?_cons]
    cases test b with
    | true => rfl
    | false => exact ih h.2.2 hq.2 (by omega)

theorem retarget {y : N} (h : Seg k p l b) (hp : p ∉ l) (hnodup : l.Nodup)
    (hnext : ∀ x, x ≠ k.prev b → k'.next x = k.next x) (hy : k'.next (k.prev b) = y)
    (hprev : ∀ x ∈ l, k'.prev x = k.prev x) (hy' : k'.prev y = k.prev b) : Seg k' p l y := by
  induction l generalizing p with
  | nil =>
    rw [h.2] at hy hy'
    exact ⟨hy, hy'⟩
  | cons c l ih =>
    have hmem : k.prev b ∈ c :: l :=
      h.2.2.prev_mem.elim (fun heq => heq ▸ List.mem_cons_self) (List.mem_cons_of_mem _)
    have hne : p ≠ k.prev b := fun heq => hp (heq ▸ hmem)
    rw [List.nodup_cons] at hnodup
    refine ⟨(hnext p hne).trans h.1, (hprev c List.mem_cons_self).trans h.2.1, ?_⟩
    exact ih h.2.2 hnodup.1 hnodup.2 fun x hx => hprev x (List.mem_cons_of_mem _ hx)

variable [DecidableEq N]

theorem remove (h : Seg k p (l ++ b :: m) q) (hp : p ∉ l ++ b :: m) (hq : q ∉ l ++ b :: m)
    (hnodup : (l ++ b :: m).Nodup) : Seg (k.remove b) p (l ++ m) q := by
  obtain ⟨hl, hm⟩ := append_iff.mp h
  rw [List.nodup_append, List.nodup_cons] at hnodup
  obtain ⟨hln, ⟨hbm, hmn⟩, hdisj⟩ := hnodup
  simp only [List.mem_append, List.mem_cons, not_or] at hp hq
  have hnextb : k.next b ∈ m ∨ k.next b = q := hm.next_mem
  have hprevb : k.prev b = p ∨ k.prev b ∈ l := hl.prev_mem
  have hb : b ≠ k.next b := by
    intro heq
    rw [← heq] at hnextb
    exact hnextb.elim hbm fun heq => hq.2.1 heq.symm
  have hnext : (k.remove b).next = Function.update k.next (k.prev b) (k.next b) := by
    simp only [DLinks.remove, Function.update_of_ne hb]
  have hprev : (k.remove b).prev = Function.update k.prev (k.next b) (k.prev b) := rfl
  have hseg : Seg (k.remove b) p l (k.next b) := by
    refine hl.retarget hp.1 hln (fun x hx => ?_) ?_ (fun x hx => ?_) ?_
    · rw [hnext, Function.update_of_ne hx]
    · rw [hnext, Function.update_self]
    · rw [hprev, Function.update_of_ne]
      rintro rfl
      exact hnextb.elim (fun hmem => hdisj _ hx _ (List.mem_cons_of_mem _ hmem) rfl)
        fun heq => hq.1 (heq ▸ hx)
    · rw [hprev, Function.update_self]
  cases m with
  | nil =>
    rw [List.append_nil, ← hm.1]
    exact hseg
  | cons c m =>
    rw [List.nodup_cons] at hmn
    rw [hm.1] at hseg hprev
    refine append_iff.mpr ⟨hseg, hm.2.2.congr (fun x hx => ?_) fun x hx => ?_⟩
    · have hxm : x ∈ c :: m := hx.elim (fun heq => heq ▸ List.mem_cons_self) (List.mem_cons_of_mem _)
      rw [hnext, Function.update_of_ne]
      rintro rfl
      exact hprevb.elim (fun heq => hp.2.2 (heq ▸ hxm))
        fun hmem => hdisj _ hmem _ (List.mem_cons_of_mem _ hxm) rfl
    · rw [hprev, Function.update_of_ne]
      rintro rfl
      exact hx.elim hmn.1 fun heq => hq.2.2 (heq ▸ List.mem_cons_self)

theorem push (h : Seg k p l p) (hp : p ∉ l) (hnodup : l.Nodup) (hbp : b ≠ p) (hb : b ∉ l) :
    Seg (k.push p b) p (b :: l) p := by
  have hnext : (k.push p b).next =
      Function.update (Function.update k.next b (k.next p)) p b := rfl
  have hprev : (k.push p b).prev =
      Function.update (Function.update k.prev b p) (k.next p) b := by
    simp only [DLinks.push, Function.update_of_ne hbp.symm]
  have hbnext : b ≠ k.next p := by
    intro heq
    rw [heq] at hb hbp
    exact h.next_mem.elim hb hbp
  refine ⟨by rw [hnext, Function.update_self],
    by rw [hprev, Function.update_of_ne hbnext, Function.update_self], ?_⟩
  cases l with
  | nil =>
    refine ⟨?_, ?_⟩
    · rw [hnext, Function.update_of_ne hbp, Function.update_self, h.1]
    · rw [hprev, h.1, Function.update_self]
  | cons c l =>
    rw [List.nodup_cons] at hnodup
    rw [List.mem_cons, not_or] at hp hb
    rw [h.1] at hprev
    refine ⟨?_, ?_, h.2.2.congr (fun x hx => ?_) fun x hx => ?_⟩
    · rw [hnext, Function.update_of_ne hbp, Function.update_self, h.1]
    · rw [hprev, Function.update_self]
    · rw [hnext, Function.update_of_ne, Function.update_of_ne]
      · rintro rfl
        exact hx.elim hb.1 hb.2
      · rintro rfl
        exact hx.elim hp.1 hp.2
    · rw [hprev, Function.update_of_ne, Function.update_of_ne]
      · rintro rfl
        exact hx.elim hb.2 hbp
      · rintro rfl
        exact hx.elim hnodup.1 fun heq => hp.1 heq.symm

theorem empty : Seg (k.empty p) p [] p :=
  ⟨Function.update_self .., Function.update_self ..⟩

end Seg
