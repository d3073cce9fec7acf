import Mathlib

/-!
# Sequences of atomic writes, crashes and restarts

A store is a map from addresses to contents. A program's writes are a list of address and content
pairs, each atomic and durable in list order (`applyWrites`), so a crash leaves the store after
some prefix of the list. After a crash a recovery procedure runs, which may crash as well
(`Restarts`). `Restarts.invariant` is the induction rule: what every prefix of every recovery
preserves holds whenever a recovery finally completes.
-/

variable {α β : Type _} [DecidableEq α]

/-- The store after the writes of the list, first one first. -/
def applyWrites (m : α → β) (ws : List (α × β)) : α → β :=
  ws.foldl (fun m w => Function.update m w.1 w.2) m

variable {m m' : α → β} {ws ws' : List (α × β)}

@[simp] theorem applyWrites_nil : applyWrites m [] = m := rfl

@[simp] theorem applyWrites_cons {w : α × β} :
    applyWrites m (w :: ws) = applyWrites (Function.update m w.1 w.2) ws := rfl

theorem applyWrites_append : applyWrites m (ws ++ ws') = applyWrites (applyWrites m ws) ws' :=
  List.foldl_append

theorem applyWrites_of_not_mem {a : α} (h : a ∉ ws.map Prod.fst) :
    applyWrites m ws a = m a := by
  induction ws generalizing m with
  | nil => rfl
  | cons w ws ih =>
    simp only [List.map_cons, List.mem_cons, not_or] at h
    rw [applyWrites_cons, ih h.2, Function.update_of_ne h.1]

/-- An address to which nothing else is written holds what was written. -/
theorem applyWrites_of_agree {a : α} {b : β} (h : (a, b) ∈ ws) (hb : ∀ b', (a, b') ∈ ws → b' = b) :
    applyWrites m ws a = b := by
  induction ws generalizing m with
  | nil => simp at h
  | cons w ws ih =>
    rw [applyWrites_cons]
    by_cases ha : a ∈ ws.map Prod.fst
    · obtain ⟨w', hw', rfl⟩ := List.mem_map.mp ha
      have hlater : w'.2 = b := hb w'.2 (List.mem_cons_of_mem _ hw')
      exact ih (hlater ▸ hw') fun b' hb' => hb b' (List.mem_cons_of_mem _ hb')
    · rw [applyWrites_of_not_mem ha]
      rcases List.mem_cons.mp h with rfl | h
      · rw [Function.update_self]
      · exact absurd (List.mem_map_of_mem h) ha

theorem applyWrites_of_mem {a : α} {b : β} (hnd : (ws.map Prod.fst).Nodup) (h : (a, b) ∈ ws) :
    applyWrites m ws a = b := by
  refine applyWrites_of_agree h fun b' hb' => ?_
  exact congrArg Prod.snd (List.inj_on_of_nodup_map hnd hb' h rfl)

/-- What holds before the writes and is kept by each of them holds at every crash point. -/
theorem applyWrites_prefix_induction {P : (α → β) → Prop} (h0 : P m)
    (hstep : ∀ m, ∀ w ∈ ws, P m → P (Function.update m w.1 w.2)) (hpre : ws' <+: ws) :
    P (applyWrites m ws') := by
  induction ws generalizing m ws' with
  | nil =>
    rw [List.prefix_nil] at hpre
    rwa [hpre]
  | cons w ws ih =>
    rcases List.prefix_cons_iff.mp hpre with rfl | ⟨t, rfl, ht⟩
    · exact h0
    · rw [applyWrites_cons]
      exact ih (hstep m w List.mem_cons_self h0)
        (fun m w' hw' => hstep m w' (List.mem_cons_of_mem _ hw')) ht

omit [DecidableEq α] in
/-- A crash during a list of writes in two parts falls into the first part or leaves it done. -/
theorem crash_in_append {done todo crashed : List (α × β)} (h : crashed <+: done ++ todo) :
    crashed <+: done ∨ ∃ rest, rest <+: todo ∧ crashed = done ++ rest := by
  by_cases hlen : crashed.length ≤ done.length
  · exact .inl (List.prefix_of_prefix_length_le h (List.prefix_append ..) hlen)
  · obtain ⟨rest, rfl⟩ := List.prefix_of_prefix_length_le (List.prefix_append done todo) h (by omega)
    exact .inr ⟨rest, by simpa using h, rfl⟩

section
variable {α β : Type _} [DecidableEq α]

/-- The stores that any number of interrupted recoveries can leave behind. -/
inductive Restarts (recover : (α → β) → Option (List (α × β))) (m : α → β) : (α → β) → Prop
  | refl : Restarts recover m m
  | crash {m' ws crashed} : Restarts recover m m' → recover m' = some ws → crashed <+: ws →
      Restarts recover m (applyWrites m' crashed)

theorem Restarts.invariant {recover : (α → β) → Option (List (α × β))} {P : (α → β) → Prop}
    {m m' : α → β} (h0 : P m)
    (hstep : ∀ {m ws crashed}, P m → recover m = some ws → crashed <+: ws →
      P (applyWrites m crashed))
    (h : Restarts recover m m') : P m' := by
  induction h with
  | refl => exact h0
  | crash _ hrec hpre ih => exact hstep ih hrec hpre

end
