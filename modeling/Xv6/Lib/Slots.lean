import Mathlib

/-!
# Tables with free slots

A table is a list of slots; a slot is free or holds a key with a value. As long as no key is in two
slots (`Unique`) the table is a finite map (`find`): storing a new key into a free slot, or into one
at the end, adds a binding, and clearing the slot of a key removes its binding.
-/

variable {κ β : Type}

/-- A table of slots. -/
abbrev Slots (κ β : Type) := List (Option (κ × β))

namespace Slots

open List

section
variable [DecidableEq κ]

/-- The slot holds the key `k`. -/
def holds (k : κ) : Option (κ × β) → Bool
  | some e => e.1 = k
  | none => false

/-- The value in the first slot with the key `k`. -/
def find (l : Slots κ β) (k : κ) : Option β := ((l.find? (holds k)).bind id).map Prod.snd

end

/-- The first free slot, or the number of slots if there is none. -/
def free (l : Slots κ β) : Nat := l.findIdx Option.isNone

/-- The slot `i`, which may be the one after the last, gets the content `x`. -/
def store (l : Slots κ β) (i : Nat) (x : Option (κ × β)) : Slots κ β :=
  if i < l.length then l.set i x else l ++ [x]

/-- The keys in the table, one slot after the other. -/
def keys (l : Slots κ β) : List κ := (l.filterMap id).map Prod.fst

/-- No key is in two slots. -/
def Unique (l : Slots κ β) : Prop :=
  ∀ (i j : Nat) k b c, l[i]? = some (some (k, b)) → l[j]? = some (some (k, c)) → i = j

section
variable {l : Slots κ β} {i j : Nat} {k k' : κ} {b c : β} {x : Option (κ × β)}

theorem getElem?_store (hi : i ≤ l.length) :
    (l.store i x)[j]? = if j = i then some x else l[j]? := by
  unfold store
  split
  next hlt =>
    rw [List.getElem?_set]
    by_cases hj : j = i
    · rw [if_pos hj.symm, if_pos hlt, if_pos hj]
    · rw [if_neg (Ne.symm hj), if_neg hj]
  next hge =>
    obtain rfl : i = l.length := by omega
    rw [List.getElem?_append]
    split
    next hj => rw [if_neg (by omega)]
    next hj =>
      by_cases hjl : j = l.length
      · rw [if_pos hjl, hjl, Nat.sub_self, List.getElem?_cons_zero]
      · rw [if_neg hjl, List.getElem?_eq_none (l := l) (by omega),
          List.getElem?_eq_none (by rw [length_singleton]; omega)]

theorem mem_keys (h : l[i]? = some (some (k, b))) : k ∈ l.keys :=
  mem_map.mpr ⟨(k, b), mem_filterMap.mpr ⟨_, mem_of_getElem? h, rfl⟩, rfl⟩

@[simp] theorem keys_append (l l' : Slots κ β) : (l ++ l').keys = l.keys ++ l'.keys := by
  rw [keys, filterMap_append, map_append, keys, keys]

@[simp] theorem keys_free (n : Nat) : keys (List.replicate n (none : Option (κ × β))) = [] := by
  induction n with
  | zero => rfl
  | succ n ih => exact ih

theorem unique_of_nodup (h : l.keys.Nodup) : Unique l := by
  induction l with
  | nil => exact fun i j k b c hi => nomatch hi
  | cons x l ih =>
    intro i j k b c hi hj
    cases x with
    | none =>
      cases i with
      | zero => cases hi
      | succ i =>
        cases j with
        | zero => cases hj
        | succ j => exact congrArg Nat.succ (ih h i j k b c hi hj)
    | some e =>
      obtain ⟨hnot, hnd⟩ := nodup_cons.mp h
      cases i with
      | zero =>
        cases j with
        | zero => rfl
        | succ j =>
          cases hi
          exact absurd (mem_keys (l := l) hj) hnot
      | succ i =>
        cases j with
        | zero =>
          cases hj
          exact absurd (mem_keys (l := l) hi) hnot
        | succ j => exact congrArg Nat.succ (ih hnd i j k b c hi hj)

theorem free_le : l.free ≤ l.length := findIdx_le_length

/-- The slot that `free` names holds nothing. -/
theorem getElem?_free_ne (e : κ × β) : l[l.free]? ≠ some (some e) := by
  intro h
  obtain ⟨hlt, heq⟩ := List.getElem?_eq_some_iff.mp h
  have hnone : (l[l.free]).isNone = true := findIdx_getElem
  rw [heq] at hnone
  cases hnone

theorem Unique.clear (h : Unique l) (hi : i ≤ l.length) : Unique (l.store i none) := by
  intro j j' k b c hj hj'
  rw [getElem?_store hi] at hj hj'
  split at hj
  · cases hj
  split at hj'
  · cases hj'
  exact h j j' k b c hj hj'

variable [DecidableEq κ]

theorem holds_iff : holds k x = true ↔ ∃ b, x = some (k, b) := by
  cases x with
  | none => exact ⟨nofun, fun ⟨b, hb⟩ => nomatch hb⟩
  | some e =>
    obtain ⟨k', b⟩ := e
    simp only [holds, decide_eq_true_eq, Option.some.injEq, Prod.mk.injEq]
    exact ⟨fun h => ⟨b, h, rfl⟩, fun ⟨_, h, _⟩ => h⟩

theorem mem_of_find (h : l.find k = some b) : ∃ i : Nat, l[i]? = some (some (k, b)) := by
  obtain ⟨e, he, rfl⟩ := Option.map_eq_some_iff.mp h
  obtain ⟨x, hx, hxe⟩ := Option.bind_eq_some_iff.mp he
  obtain ⟨b, rfl⟩ := holds_iff.mp (List.find?_some hx)
  cases hxe
  exact mem_iff_getElem?.mp (mem_of_find?_eq_some hx)

theorem find_eq_none : l.find k = none ↔ ∀ (i : Nat) b, l[i]? ≠ some (some (k, b)) := by
  constructor
  · intro h i b hi
    have hmem : some (k, b) ∈ l := mem_of_getElem? hi
    cases hx : l.find? (holds k) with
    | none => exact List.find?_eq_none.mp hx _ hmem (holds_iff.mpr ⟨b, rfl⟩)
    | some x =>
      obtain ⟨c, rfl⟩ := holds_iff.mp (List.find?_some hx)
      rw [find, hx] at h
      cases h
  · intro h
    cases hf : l.find k with
    | none => rfl
    | some b =>
      obtain ⟨i, hi⟩ := mem_of_find hf
      exact absurd hi (h i b)

theorem Unique.find_iff (h : Unique l) : l.find k = some b ↔ ∃ i : Nat, l[i]? = some (some (k, b)) := by
  refine ⟨mem_of_find, fun ⟨i, hi⟩ => ?_⟩
  cases hf : l.find k with
  | none => exact absurd hi (find_eq_none.mp hf i b)
  | some c =>
    obtain ⟨j, hj⟩ := mem_of_find hf
    obtain rfl := h i j k b c hi hj
    rw [hi] at hj
    cases hj
    rfl

theorem Unique.store (h : Unique l) (hk : l.find k = none) (hi : i ≤ l.length) :
    Unique (l.store i (some (k, b))) := by
  have habsent := find_eq_none.mp hk
  intro j j' k' c c' hj hj'
  rw [getElem?_store hi] at hj hj'
  split at hj
  next hji =>
    cases hj
    split at hj'
    next hji' => rw [hji, hji']
    next => exact absurd hj' (habsent j' c')
  next =>
    split at hj'
    next =>
      cases hj'
      exact absurd hj (habsent j c)
    next => exact h j j' k' c c' hj hj'

/-- Equality of maps, binding by binding. -/
theorem find_ext {f : κ → Option β} (h : ∀ k b, l.find k = some b ↔ f k = some b) : l.find = f :=
  funext fun k => Option.ext fun b => h k b

/-- A new key in a slot that held nothing adds its binding and changes no other. -/
theorem find_store (h : Unique l) (hk : l.find k = none) (hi : i ≤ l.length)
    (hfree : ∀ e, l[i]? ≠ some (some e)) :
    (l.store i (some (k, b))).find = Function.update l.find k (some b) := by
  refine find_ext fun k' c => ?_
  rw [(h.store hk hi).find_iff, Function.update_apply]
  constructor
  · rintro ⟨j, hj⟩
    rw [getElem?_store hi] at hj
    split at hj
    next =>
      cases hj
      rw [if_pos rfl]
    next =>
      rw [if_neg, h.find_iff]
      · exact ⟨j, hj⟩
      · rintro rfl
        exact find_eq_none.mp hk j c hj
  · intro hc
    split at hc
    next heq =>
      cases hc
      exact ⟨i, by rw [getElem?_store hi, if_pos rfl, heq]⟩
    next =>
      obtain ⟨j, hj⟩ := h.find_iff.mp hc
      have hji : j ≠ i := fun hji => hfree (k', c) (hji ▸ hj)
      exact ⟨j, by rw [getElem?_store hi, if_neg hji, hj]⟩

theorem find_clear (h : Unique l) (hi : l[i]? = some (some (k, b))) :
    (l.store i none).find = Function.update l.find k none := by
  have hlt : i < l.length := (List.getElem?_eq_some_iff.mp hi).1
  refine find_ext fun k' c => ?_
  rw [(h.clear (Nat.le_of_lt hlt)).find_iff, Function.update_apply]
  constructor
  · rintro ⟨j, hj⟩
    rw [getElem?_store (Nat.le_of_lt hlt)] at hj
    split at hj
    · cases hj
    next hji =>
      rw [if_neg, h.find_iff]
      · exact ⟨j, hj⟩
      · rintro rfl
        exact hji (h j i k' c b hj hi)
  · intro hc
    split at hc
    · cases hc
    next hne =>
      obtain ⟨j, hj⟩ := h.find_iff.mp hc
      have hji : j ≠ i := by
        rintro rfl
        rw [hi] at hj
        cases hj
        exact hne rfl
      exact ⟨j, by rw [getElem?_store (Nat.le_of_lt hlt), if_neg hji, hj]⟩

end

end Slots
