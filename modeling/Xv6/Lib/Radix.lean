import Mathlib

/-!
# Radix trees in memory

A table has an entry for each index, which may link to a node one level below; a node of level `0`
is a leaf. `Links` is what a memory says about entries, and the nodes of a tree are found by
following links (`find`). `pages` counts the nodes with multiplicity, so that a tree whose pages
have no duplicates shares no node with itself, and two disjoint ones share none with each other.
Trees are changed one entry at a time (`pages_set`, `find_set`).
-/

/-- `m n a i` is the node of level `n` that entry `i` of the table `a`, of level `n + 1`, links
to. -/
abbrev Links (A I : Type) := Nat → A → I → Option A

namespace Radix

open Option
open Multiset

variable {A I : Type} [Fintype I] {m m' : Links A I} {n k : Nat} {a b t f : A} {i : I} {π σ : List I}

/-- The nodes of the tree at `a`, of level `n`. -/
def pages (m : Links A I) : Nat → A → Multiset A
  | 0, a => {a}
  | n + 1, a => a ::ₘ ∑ i, (m n a i).elim 0 (pages m n)

/-- The node that the indices `π` lead to. -/
def find (m : Links A I) : Nat → A → List I → Option A
  | _, a, [] => some a
  | 0, _, _ :: _ => none
  | n + 1, a, i :: π => (m n a i).bind fun b => find m n b π

theorem pages_zero : pages m 0 a = {a} := rfl

omit [Fintype I] in
@[simp] theorem find_nil : find m n a [] = some a := by
  cases n <;> rfl

theorem self_mem_pages : a ∈ pages m n a := by
  cases n with
  | zero => exact mem_singleton_self a
  | succ n => exact mem_cons_self ..

theorem pages_le_of_link (h : m n a i = some b) : pages m n b ≤ pages m (n + 1) a := by
  refine le_trans ?_ (le_cons_self _ a)
  have hle := Finset.single_le_sum (f := fun j => (m n a j).elim 0 (pages m n))
    (fun _ _ => zero_le _) (Finset.mem_univ i)
  simpa only [h, elim_some] using hle

theorem mem_pages_of_find (h : find m n a π = some b) : b ∈ pages m n a := by
  induction π generalizing n a with
  | nil =>
    rw [find_nil] at h
    cases h
    exact self_mem_pages
  | cons i π ih =>
    cases n with
    | zero => cases h
    | succ n =>
      rw [find, bind_eq_some_iff] at h
      obtain ⟨c, hc, h⟩ := h
      exact mem_of_le (pages_le_of_link hc) (ih h)

/-! ## Trees without duplicates -/

theorem nodup_of_link (hnd : (pages m (n + 1) a).Nodup) (h : m n a i = some b) :
    (pages m n b).Nodup ∧ a ∉ pages m n b := by
  refine ⟨nodup_of_le (pages_le_of_link h) hnd, fun ha => ?_⟩
  rw [pages, nodup_cons] at hnd
  refine hnd.1 (mem_sum.mpr ⟨i, Finset.mem_univ i, ?_⟩)
  rwa [h]

theorem disjoint_of_links {j : I} (hnd : (pages m (n + 1) a).Nodup) (hij : i ≠ j)
    (hi : m n a i = some b) (hj : m n a j = some t) (hf : f ∈ pages m n b) :
    f ∉ pages m n t := by
  classical
  intro hf'
  rw [pages, nodup_cons] at hnd
  have hle : pages m n b + pages m n t ≤ ∑ l, (m n a l).elim 0 (pages m n) := by
    have hsub := Finset.sum_le_sum_of_subset_of_nonneg (Finset.subset_univ {i, j})
      (f := fun l => (m n a l).elim 0 (pages m n)) fun _ _ _ => zero_le _
    rwa [Finset.sum_pair hij, hi, hj] at hsub
  exact disjoint_left.mp
    (nodup_add.mp (nodup_of_le hle hnd.2)).2.2 hf hf'

theorem find_inj (hnd : (pages m n a).Nodup) (hπ : find m n a π = some b)
    (hσ : find m n a σ = some b) : π = σ := by
  induction π generalizing n a σ with
  | nil =>
    rw [find_nil] at hπ
    cases hπ
    cases σ with
    | nil => rfl
    | cons j σ =>
      cases n with
      | zero => cases hσ
      | succ n =>
        rw [find, bind_eq_some_iff] at hσ
        obtain ⟨c, hc, hσ⟩ := hσ
        exact absurd (mem_pages_of_find hσ) (nodup_of_link hnd hc).2
  | cons i π ih =>
    cases n with
    | zero => cases hπ
    | succ n =>
      rw [find, bind_eq_some_iff] at hπ
      obtain ⟨c, hc, hπ⟩ := hπ
      cases σ with
      | nil =>
        cases hσ
        exact absurd (mem_pages_of_find hπ) (nodup_of_link hnd hc).2
      | cons j σ =>
        rw [find, bind_eq_some_iff] at hσ
        obtain ⟨d, hd, hσ⟩ := hσ
        by_cases hij : i = j
        · subst hij
          rw [hc] at hd
          cases hd
          rw [ih (nodup_of_link hnd hc).1 hπ hσ]
        · exact absurd (mem_pages_of_find hσ)
            (disjoint_of_links hnd hij hc hd (mem_pages_of_find hπ))

/-! ## What a tree depends on -/

theorem pages_congr (h : ∀ b ∈ pages m n a, ∀ l i, m' l b i = m l b i) :
    pages m' n a = pages m n a := by
  induction n generalizing a with
  | zero => rfl
  | succ n ih =>
    rw [pages]
    congr 1
    refine Finset.sum_congr rfl fun i _ => ?_
    rw [h a self_mem_pages]
    cases hb : m n a i with
    | none => rfl
    | some b => exact ih fun c hc => h c (mem_of_le (pages_le_of_link hb) hc)

theorem find_congr (h : ∀ b ∈ pages m n a, ∀ l i, m' l b i = m l b i) (π : List I) :
    find m' n a π = find m n a π := by
  induction π generalizing n a with
  | nil => rw [find_nil, find_nil]
  | cons i π ih =>
    cases n with
    | zero => rfl
    | succ n =>
      rw [find, find, h a self_mem_pages]
      cases hb : m n a i with
      | none => rfl
      | some b => exact ih fun c hc => h c (mem_of_le (pages_le_of_link hb) hc)

omit [Fintype I] in
theorem find_append_singleton (hlen : n = π.length + (k + 1)) :
    find m n a (π ++ [i]) = (find m n a π).bind fun t => m k t i := by
  induction π generalizing n a with
  | nil =>
    obtain rfl : n = k + 1 := by simpa using hlen
    rw [List.nil_append, find_nil, find, bind_some]
    cases m k a i <;> simp
  | cons j π ih =>
    obtain ⟨n, rfl⟩ : ∃ l, n = l + 1 := ⟨n - 1, by simp only [List.length_cons] at hlen; omega⟩
    rw [List.cons_append, find, find, Option.bind_assoc]
    congr 1
    funext b
    exact ih (by simp only [List.length_cons] at hlen; omega)

theorem pages_eq_singleton (h : ∀ i, m n a i = none) : pages m (n + 1) a = {a} := by
  rw [pages, Finset.sum_eq_zero, cons_zero]
  intro i _
  rw [h i, elim_none]

theorem find_of_pages_eq (h : pages m n a = {a}) (hπ : π ≠ []) : find m n a π = none := by
  cases π with
  | nil => exact absurd rfl hπ
  | cons i π =>
    cases n with
    | zero => rfl
    | succ n =>
      cases hb : m n a i with
      | none => rw [find, hb, bind_none]
      | some b =>
        have hcard := congrArg Multiset.card h
        have hle := Finset.single_le_sum (f := fun j => (m n a j).elim 0 (pages m n))
          (fun _ _ => zero_le _) (Finset.mem_univ i)
        rw [hb, elim_some] at hle
        have hpos := card_pos_iff_exists_mem.mpr ⟨b, self_mem_pages (m := m) (n := n)⟩
        have := card_le_card hle
        rw [pages, card_cons, card_singleton] at hcard
        omega

/-! ## Changing an entry -/

/-- The entry `i` of the table `t` changes, which is on level `k + 1` of the tree at `a`; the nodes
that it links to before and after link to nothing. -/
structure Set (m m' : Links A I) (n : Nat) (a : A) (π : List I) (t : A) (k : Nat) (i : I) : Prop where
  nodup : (pages m n a).Nodup
  find : find m n a π = some t
  level : n = π.length + (k + 1)
  same : ∀ l b j, b ≠ t ∨ j ≠ i → m' l b j = m l b j
  old : ∀ f, m k t i = some f → pages m k f = {f}
  new : ∀ f, m' k t i = some f → pages m' k f = {f}

/-- The entry is in the tree below entry `j` of `a`. -/
theorem Set.link {j : I} (h : Set m m' (n + 1) a (j :: π) t k i) (hb : m n a j = some b) :
    Set m m' n b π t k i ∧ a ≠ t ∧ t ∈ pages m n b := by
  obtain ⟨hnd, hfind, hlen, hsame, hold, hnew⟩ := h
  rw [Radix.find, hb] at hfind
  have hmem := mem_pages_of_find hfind
  obtain ⟨hndb, hab⟩ := nodup_of_link hnd hb
  refine ⟨⟨hndb, hfind, ?_, hsame, hold, hnew⟩, ?_, hmem⟩
  · simp only [List.length_cons] at hlen
    omega
  · rintro rfl
    exact hab hmem

theorem Set.exists_link {j : I} (h : Set m m' (n + 1) a (j :: π) t k i) : ∃ b, m n a j = some b := by
  have hfind := h.find
  rw [Radix.find, bind_eq_some_iff] at hfind
  exact hfind.imp fun _ => And.left

theorem Set.pages_other {j j' : I} (h : Set m m' (n + 1) a (j :: π) t k i) (hj : j' ≠ j)
    (hb : m n a j' = some b) :
    pages m' n b = pages m n b ∧ ∀ σ, Radix.find m' n b σ = Radix.find m n b σ := by
  obtain ⟨c, hc⟩ := h.exists_link
  have hsame : ∀ d ∈ pages m n b, ∀ l x, m' l d x = m l d x := by
    intro d hd l x
    refine h.same l d x (.inl ?_)
    rintro rfl
    exact disjoint_of_links h.nodup hj hb hc hd (h.link hc).2.2
  exact ⟨pages_congr hsame, find_congr hsame⟩

section
variable [DecidableEq I]

/-- The pages of the tree change by the nodes that the entry links to. -/
theorem pages_set (h : Set m m' n a π t k i) :
    pages m' n a + (m k t i).elim 0 ({·}) = pages m n a + (m' k t i).elim 0 ({·}) := by
  induction π generalizing n a with
  | nil =>
    obtain ⟨hnd, hfind, hlen, hsame, hold, hnew⟩ := h
    rw [find_nil] at hfind
    cases hfind
    obtain rfl : n = k + 1 := by simpa using hlen
    -- entry by entry
    have hentry : ∀ j, (m' k t j).elim 0 (pages m' k) + (if j = i then (m k t i).elim 0 ({·}) else 0) =
        (m k t j).elim 0 (pages m k) + if j = i then (m' k t i).elim 0 ({·}) else 0 := by
      intro j
      by_cases hj : j = i
      · subst hj
        cases hm : m k t j with
        | none =>
          cases hm' : m' k t j with
          | none => rfl
          | some f => simp [hnew f hm']
        | some f =>
          cases hm' : m' k t j with
          | none => simp [hold f hm]
          | some g => simp [hold f hm, hnew g hm', add_comm]
      · rw [if_neg hj, if_neg hj, hsame k t j (.inr hj)]
        cases hb : m k t j with
        | none => rfl
        | some b =>
          have hat := (nodup_of_link hnd hb).2
          rw [elim_some, elim_some, pages_congr]
          intro c hc l x
          refine hsame l c x (.inl ?_)
          rintro rfl
          exact hat hc
    have hsum := Finset.sum_congr (rfl : Finset.univ = Finset.univ) fun j _ => hentry j
    rw [Finset.sum_add_distrib, Finset.sum_add_distrib, Finset.sum_ite_eq', Finset.sum_ite_eq',
      if_pos (Finset.mem_univ i), if_pos (Finset.mem_univ i)] at hsum
    rw [pages, pages, cons_add, cons_add, hsum]
  | cons j π ih =>
    obtain ⟨n, rfl⟩ : ∃ l, n = l + 1 := by
      have hlen := h.level
      exact ⟨n - 1, by omega⟩
    obtain ⟨b, hb⟩ := h.exists_link
    obtain ⟨hsub, hat, -⟩ := h.link hb
    have hentry : ∀ j', (m' n a j').elim 0 (pages m' n) + (if j' = j then (m k t i).elim 0 ({·}) else 0) =
        (m n a j').elim 0 (pages m n) + if j' = j then (m' k t i).elim 0 ({·}) else 0 := by
      intro j'
      rw [h.same n a j' (.inl hat)]
      by_cases hj : j' = j
      · rw [if_pos hj, if_pos hj, hj, hb]
        exact ih hsub
      · rw [if_neg hj, if_neg hj]
        cases hc : m n a j' with
        | none => rfl
        | some c => rw [elim_some, elim_some, (h.pages_other hj hc).1]
    have hsum := Finset.sum_congr (rfl : Finset.univ = Finset.univ) fun j' _ => hentry j'
    rw [Finset.sum_add_distrib, Finset.sum_add_distrib, Finset.sum_ite_eq', Finset.sum_ite_eq',
      if_pos (Finset.mem_univ j), if_pos (Finset.mem_univ j)] at hsum
    rw [pages, pages, cons_add, cons_add, hsum]

/-- And so do the nodes that are found. -/
theorem find_set (h : Set m m' n a π t k i) (σ : List I) :
    find m' n a σ = if σ = π ++ [i] then m' k t i else find m n a σ := by
  induction π generalizing n a σ with
  | nil =>
    obtain ⟨hnd, hfind, hlen, hsame, hold, hnew⟩ := h
    rw [find_nil] at hfind
    cases hfind
    obtain rfl : n = k + 1 := by simpa using hlen
    cases σ with
    | nil => simp
    | cons j σ =>
      rw [find, find]
      by_cases hj : j = i
      · subst hj
        cases σ with
        | nil =>
          cases m' k t j <;> simp
        | cons l σ =>
          rw [if_neg (by simp)]
          have hnone : ∀ {m : Links A I}, (∀ f, m k t j = some f → pages m k f = {f}) →
              ((m k t j).bind fun b => find m k b (l :: σ)) = none := by
            intro m hm
            cases hf : m k t j with
            | none => rfl
            | some f => exact find_of_pages_eq (hm f hf) (List.cons_ne_nil l σ)
          rw [hnone hnew, hnone hold]
      · rw [if_neg (by simp [hj]), hsame k t j (.inr hj)]
        cases hb : m k t j with
        | none => rfl
        | some b =>
          have hat := (nodup_of_link hnd hb).2
          rw [bind_some, bind_some, find_congr]
          intro c hc l x
          refine hsame l c x (.inl ?_)
          rintro rfl
          exact hat hc
  | cons j π ih =>
    obtain ⟨n, rfl⟩ : ∃ l, n = l + 1 := by
      have hlen := h.level
      exact ⟨n - 1, by omega⟩
    obtain ⟨b, hb⟩ := h.exists_link
    obtain ⟨hsub, hat, -⟩ := h.link hb
    cases σ with
    | nil => simp
    | cons j' σ =>
      rw [find, find, h.same n a j' (.inl hat)]
      by_cases hj : j' = j
      · subst hj
        rw [hb, bind_some, ih hsub]
        simp
      · rw [if_neg (by simp [hj])]
        cases hc : m n a j' with
        | none => rfl
        | some c => exact (h.pages_other hj hc).2 σ

end

-- the sum over the entries of a table is not to be unfolded by unification
attribute [irreducible] pages

/-! ## Numbers as paths -/

section
variable {w : Nat} [NeZero w]

/-- The `d` digits of `y` in base `w`, the most significant first. -/
def path (w : Nat) [NeZero w] : Nat → Nat → List (Fin w)
  | 0, _ => []
  | d + 1, y => path w d (y / w) ++ [Fin.ofNat w y]

@[simp] theorem length_path (d y : Nat) : (path w d y).length = d := by
  induction d generalizing y with
  | zero => rfl
  | succ d ih => simp [path, ih]

theorem path_inj {d y z : Nat} (hy : y < w ^ d) (hz : z < w ^ d)
    (h : path w d y = path w d z) : y = z := by
  induction d generalizing y z with
  | zero =>
    rw [Nat.pow_zero] at hy hz
    omega
  | succ d ih =>
    obtain ⟨hq, hr⟩ := List.append_inj h (by simp)
    have hdiv := ih (Nat.div_lt_of_lt_mul (by rwa [Nat.mul_comm]))
      (Nat.div_lt_of_lt_mul (by rwa [Nat.mul_comm])) hq
    have hmod : y % w = z % w := by
      have := congrArg Fin.val (List.cons.inj hr).1
      simpa using this
    rw [← Nat.div_add_mod y w, ← Nat.div_add_mod z w, hdiv, hmod]

end

end Radix
