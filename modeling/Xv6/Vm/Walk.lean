import Xv6.Vm.Owns

/-!
# Walking a page table

The specifications of `walkpgdir` and of what is built on it: a page is mapped (`wp_mappages`) or
unmapped (`wp_deallocPage`), and a page table is made (`wp_setupkvm`) or freed (`wp_freevm`). The
user page number `x` is on the path `node x 4`, below the tables on `node x 1`, ..., `node x 3`.
-/

namespace Xv6.Vm

open Option
open Finset
open Radix (path)

variable {s s' s'' : Mem} {R R' : Multiset Nat} {r t f : Nat} {σ : List Index} {e : Pte} {i : Index}
  {X Y : Finset (List Index)} {E : Fault → Prop}

/-! ## Paths -/

/-- The number of pages in the user half of an address space. -/
def USERPAGES : Nat := 2 ^ 35

/-- The first `d` indices on the way to the user page `x`. -/
def node (x d : Nat) : List Index := path NPDENTRIES d (x / NPDENTRIES ^ (4 - d))

/-- The tables on the way to a page. -/
def tables (x : Nat) : Finset (List Index) := {node x 1, node x 2, node x 3}

/-- The nodes on the way to a page. -/
def nodes (x : Nat) : Finset (List Index) := insert (node x 4) (tables x)

/-- The nodes on the way to the pages from `a` to `b`. -/
def span (a b : Nat) : Finset (List Index) := (Finset.Ico a b).biUnion nodes

section
variable {x y d k a b : Nat}

@[simp] theorem length_node : (node x d).length = d := Radix.length_path ..

theorem node_succ (hk : 4 = d + (k + 1)) :
    node x (d + 1) = node x d ++ [Fin.ofNat _ (x / NPDENTRIES ^ k)] := by
  obtain ⟨hd, hd'⟩ : 4 - (d + 1) = k ∧ 4 - d = k + 1 := by omega
  rw [node, node, hd, hd', path, Nat.div_div_eq_div_mul, ← Nat.pow_succ]

theorem node_inj (hx : x < USERPAGES) (hy : y < USERPAGES) (h : node x 4 = node y 4) : x = y := by
  have hle : USERPAGES < NPDENTRIES ^ 4 := by decide
  have hone : NPDENTRIES ^ (4 - 4) = 1 := rfl
  rw [node, node, hone, Nat.div_one, Nat.div_one] at h
  exact Radix.path_inj (hx.trans hle) (hy.trans hle) h

theorem node_not_mem_tables : node y 4 ∉ tables x := by
  intro h
  simp only [tables, mem_insert, mem_singleton] at h
  rcases h with h | h | h <;> simpa using congrArg List.length h

theorem node_mem_nodes (hx : x < USERPAGES) (hy : y < USERPAGES) : node y 4 ∈ nodes x ↔ y = x := by
  rw [nodes, mem_insert, or_iff_left node_not_mem_tables]
  exact ⟨node_inj hy hx, fun h => h ▸ rfl⟩

theorem node_mem_span (hb : b ≤ USERPAGES) (hy : y < USERPAGES) :
    node y 4 ∈ span a b ↔ a ≤ y ∧ y < b := by
  simp only [span, mem_biUnion, mem_Ico]
  constructor
  · rintro ⟨x, hx, hmem⟩
    rwa [(node_mem_nodes (by omega) hy).mp hmem]
  · intro h
    exact ⟨y, h, (node_mem_nodes hy hy).mpr rfl⟩

theorem span_self : span a a = ∅ := by
  rw [span, Finset.Ico_self, biUnion_empty]

theorem span_append {c : Nat} (hab : a ≤ b) (hbc : b ≤ c) : span a b ∪ span b c = span a c := by
  rw [span, span, span, ← union_biUnion, Finset.Ico_union_Ico_eq_Ico hab hbc]

theorem span_cons (h : a < b) : nodes a ∪ span (a + 1) b = span a b := by
  rw [← span_append (Nat.le_add_right a 1) h, span, span, Nat.Ico_succ_singleton,
    singleton_biUnion]

theorem span_succ {n : Nat} : span a (a + (n + 1)) = nodes a ∪ span (a + 1) (a + 1 + n) := by
  rw [span_cons (by omega)]
  congr 1
  omega

end

/-! ## `walkpgdir` -/

section
variable {x d k : Nat}

theorem lookup_node_zero : lookup s r (node x 0) = some r := Radix.find_nil

theorem lookup_node_succ (hk : 4 = d + (k + 1)) :
    lookup s r (node x (d + 1)) =
      (lookup s r (node x d)).bind fun t => links s.page k t (Fin.ofNat _ (x / NPDENTRIES ^ k)) := by
  rw [node_succ hk]
  exact lookup_append (by rwa [length_node])

/-- The walk to a user page stays in the user half of the top-level table. -/
theorem index_lt (hx : x < USERPAGES) :
    k = 3 → (Fin.ofNat NPDENTRIES (x / NPDENTRIES ^ k)).val < 256 := by
  rintro rfl
  have hx : x < 2 ^ 35 := hx
  show x / 512 ^ 3 % 512 < 256
  omega

theorem wp_walkEntry (h : Owns s (pgs s r + R)) (hx : x < USERPAGES) (hk : 4 = d + (k + 1))
    (ht : lookup s r (node x d) = some t) :
    Prog.wp (walkEntry t (Fin.ofNat _ (x / NPDENTRIES ^ k)) true)
      (fun e => e = oom ∧ s.freelist.length < absent s r {node x (d + 1)})
      (fun o s' => Extends r R {node x (d + 1)} s s' ∧
        ∃ f, o = some f ∧ lookup s' r (node x (d + 1)) = some f) s := by
  have hnode := lookup_node_succ (s := s) (r := r) (x := x) hk
  rw [ht, bind_some, links_of_user (index_lt hx)] at hnode
  unfold walkEntry
  rw [wp_bind]
  refine wp_entry ?_
  split
  next hp =>
    rw [if_pos hp] at hnode
    refine ⟨.refl h fun σ hσ => ?_, _, rfl, hnode⟩
    rw [mem_singleton.mp hσ, hnode]
    exact some_ne_none _
  next hp =>
    rw [if_neg hp] at hnode
    simp only [Bool.not_true, if_neg Bool.false_ne_true]
    rw [wp_bind]
    refine wp_mono (wp_kalloc h) (fun e he => ⟨he.1, ?_⟩) ?_
    · rw [he.2, absent_singleton hnode]
      exact Nat.zero_lt_one
    rintro _ _ ⟨f, l, rfl, hfree, rfl, -⟩
    obtain ⟨hown, hkeeps⟩ := owns_take h hfree fun _ => .zero
    have hkeeps' := hkeeps.mono (Multiset.le_add_right _ _)
    have hnode' : lookup (s.take f l fun _ => .zero) r (node x (d + 1)) = none := by
      rw [hkeeps'.lookup_eq, hnode]
    rw [node_succ hk] at hnode'
    obtain ⟨howns, hkeepsR, hlookup⟩ := link_put hown (by rwa [hkeeps'.lookup_eq])
      (by rwa [length_node]) (index_lt hx) hnode'
      (.inr fun j => by rw [page_take_self]; rfl) true true
    rw [← node_succ hk] at hlookup
    rw [wp_bind]
    refine wp_fill ?_
    rw [wp_bind]
    refine wp_setEntry ⟨?_, f, rfl, ?_⟩
    · refine .of_link (f := f) howns ((hkeeps.mono (Multiset.le_add_left _ _)).trans hkeepsR) hnode
        (fun τ => ?_) (by rw [hfree]; rfl)
      rw [← hkeeps'.lookup_eq]
      exact hlookup τ
    · exact (hlookup _).trans (if_pos rfl)

theorem PMX_page : PMX (x * PGSIZE) = Fin.ofNat _ (x / NPDENTRIES ^ 3) := by
  have heq : x * 4096 / 2 ^ 39 = x / 512 ^ 3 := by omega
  exact congrArg (Fin.ofNat NPDENTRIES) heq

theorem PDPX_page : PDPX (x * PGSIZE) = Fin.ofNat _ (x / NPDENTRIES ^ 2) := by
  have heq : x * 4096 / 2 ^ 30 = x / 512 ^ 2 := by omega
  exact congrArg (Fin.ofNat NPDENTRIES) heq

theorem PDX_page : PDX (x * PGSIZE) = Fin.ofNat _ (x / NPDENTRIES ^ 1) := by
  have heq : x * 4096 / 2 ^ 21 = x / 512 ^ 1 := by omega
  exact congrArg (Fin.ofNat NPDENTRIES) heq

theorem PTX_page : PTX (x * PGSIZE) = Fin.ofNat _ (x / NPDENTRIES ^ 0) := by
  have heq : x * 4096 / 2 ^ 12 = x / 512 ^ 0 := by omega
  exact congrArg (Fin.ofNat NPDENTRIES) heq

theorem wp_walkpgdir (h : Owns s (pgs s r + R)) (hx : x < USERPAGES) :
    Prog.wp (walkpgdir r (x * PGSIZE) true)
      (fun e => e = oom ∧ s.freelist.length < absent s r (tables x))
      (fun o s' => Extends r R (tables x) s s' ∧
        ∃ pt, o = some (pt, PTX (x * PGSIZE)) ∧ lookup s' r (node x 3) = some pt) s := by
  have htables : tables x = {node x 1} ∪ ({node x 2} ∪ {node x 3}) := rfl
  rw [htables]
  unfold walkpgdir
  rw [PMX_page, PDPX_page, PDX_page]
  refine wp_extends (wp_walkEntry h hx (d := 0) rfl lookup_node_zero) ?_
  rintro _ s₁ h₁ ⟨pdp, rfl, hpdp⟩
  refine wp_extends (wp_walkEntry h₁.owns hx (d := 1) rfl hpdp) ?_
  rintro _ s₂ h₂ ⟨pd, rfl, hpd⟩
  rw [wp_bind]
  refine wp_imp (wp_walkEntry h₂.owns hx (d := 2) rfl hpd) ?_
  rintro _ s₃ ⟨h₃, pt, rfl, hpt⟩
  exact ⟨h₃, pt, rfl, hpt⟩

/-! ## Walks that allocate nothing -/

theorem walkEntry_false (hi : k = 3 → i.val < 256) :
    walkEntry t i false s = .ok (links s.page k t i, s) := by
  rw [links_of_user hi]
  by_cases hp : (s.page t i).p <;> simp [walkEntry, entry, Prog.gets, bind, pure, hp]

theorem walkpgdir_false (hx : x < USERPAGES) :
    walkpgdir r (x * PGSIZE) false s =
      .ok ((lookup s r (node x 3)).map fun pt => (pt, PTX (x * PGSIZE)), s) := by
  refine eq_ok_of_wp ?_
  unfold walkpgdir
  rw [PMX_page, PDPX_page, PDX_page, lookup_node_succ (d := 2) (k := 1) rfl,
    lookup_node_succ (d := 1) (k := 2) rfl, lookup_node_succ (d := 0) (k := 3) rfl,
    lookup_node_zero, bind_some, wp_bind,
    wp_of_eq_ok (walkEntry_false (index_lt hx))]
  cases links s.page 3 r _ with
  | none => exact ⟨rfl, rfl⟩
  | some pdp =>
    rw [bind_some, wp_bind, wp_of_eq_ok (walkEntry_false (index_lt hx))]
    cases links s.page 2 pdp _ with
    | none => exact ⟨rfl, rfl⟩
    | some pd =>
      rw [bind_some, wp_bind, wp_of_eq_ok (walkEntry_false (index_lt hx))]
      cases links s.page 1 pd _ with
      | none => exact ⟨rfl, rfl⟩
      | some pt => exact ⟨rfl, rfl⟩

/-! ## Mapping a page -/

theorem lookup_page {pt : Nat} (hx : x < USERPAGES) (hpt : lookup s r (node x 3) = some pt) :
    lookup s r (node x 4) =
      if (s.page pt (PTX (x * PGSIZE))).p then some (s.page pt (PTX (x * PGSIZE))).ppn else none := by
  rw [lookup_node_succ (d := 3) (k := 0) rfl, hpt, bind_some, links_of_user (index_lt hx),
    PTX_page]

/-- The entry for the user page `x`, if there is a table for it. -/
def leaf (s : Mem) (r x : Nat) : Option Pte :=
  (lookup s r (node x 3)).map fun pt => s.page pt (PTX (x * PGSIZE))

theorem absent_nodes (h : lookup s r (node x 4) = none) :
    absent s r (nodes x) = absent s r (tables x) + 1 := by
  rw [absent, nodes, filter_insert, if_pos h, card_insert_of_notMem]
  · rfl
  · exact fun hmem => node_not_mem_tables (mem_of_mem_filter _ hmem)

theorem absent_le_union : absent s r X ≤ absent s r (X ∪ Y) :=
  card_le_card (filter_subset_filter _ subset_union_left)

theorem absent_pos (h : lookup s r (node x 4) = none) : 0 < absent s r (nodes x ∪ Y) := by
  refine lt_of_lt_of_le ?_ absent_le_union
  rw [absent_nodes h]
  exact Nat.succ_pos _

/-- No page from `x` on is mapped, and then `x` is. -/
theorem Extends.none_above (h : Extends r R (nodes x) s s') (hx : x < USERPAGES)
    (hnone : ∀ y < USERPAGES, x ≤ y → lookup s r (node y 4) = none) :
    ∀ y < USERPAGES, x + 1 ≤ y → lookup s' r (node y 4) = none := by
  intro y hy hxy
  refine not_not.mp (mt (h.dom _).mp ?_)
  rw [hnone y hy (by omega), node_mem_nodes hx hy]
  simp only [ne_eq, not_true_eq_false, false_or]
  omega

/-- A page is mapped in one turn. -/
theorem page_turns (x : Nat) :
    (x * PGSIZE + PGSIZE - 1) / PGSIZE + 1 - x * PGSIZE / PGSIZE = 1 := by
  show (x * 4096 + 4096 - 1) / 4096 + 1 - x * 4096 / 4096 = 1
  omega

theorem PGROUNDDOWN_page (x : Nat) : PGROUNDDOWN (x * PGSIZE) = x * PGSIZE := by
  rw [PGROUNDDOWN, Nat.mul_div_cancel x (by decide)]

/-- The page `f`, just taken from the free list, is mapped as the user page `x`. -/
theorem wp_mappages_leaf (h : Owns s (pgs s r + R)) {l : List Nat} (hl : s.freelist = f :: l)
    (hx : x < USERPAGES) (hnone : lookup s r (node x 4) = none) (p : Index → Pte) (w u : Bool) :
    Prog.wp (mappages r (x * PGSIZE) PGSIZE f w u)
      (fun e => e = oom ∧ s.freelist.length < absent s r (nodes x))
      (fun o s' => o = 0 ∧ Extends r R (nodes x) s s' ∧ leaf s' r x = some ⟨f, true, w, u⟩)
      (s.take f l p) := by
  obtain ⟨hown, hkeeps⟩ := owns_take h hl p
  have hkeeps' := hkeeps.mono (Multiset.le_add_right (pgs s r) R)
  unfold mappages
  rw [page_turns, PGROUNDDOWN_page, mapLoop, wp_bind]
  refine wp_mono (wp_walkpgdir hown hx) (fun e ⟨he, hlt⟩ => ⟨he, ?_⟩) ?_
  · rw [hkeeps'.absent_eq] at hlt
    rw [absent_nodes hnone, hl]
    exact Nat.succ_lt_succ hlt
  rintro _ s₂ ⟨h₂, pt, rfl, hpt⟩
  have hnone₂ : lookup s₂ r (node x 4) = none := by
    refine not_not.mp (mt (h₂.dom _).mp ?_)
    rw [hkeeps'.lookup_eq, hnone]
    exact not_or.mpr ⟨not_not.mpr rfl, node_not_mem_tables⟩
  have hp : ¬(s₂.page pt (PTX (x * PGSIZE))).p = true := by
    intro hp
    rw [lookup_page hx hpt, if_pos hp] at hnone₂
    cases hnone₂
  have hnode : node x 4 = node x 3 ++ [PTX (x * PGSIZE)] := by
    rw [PTX_page]
    exact node_succ rfl
  rw [hnode] at hnone₂
  obtain ⟨howns, hkeepsR, hlookup⟩ := link_put h₂.owns hpt (k := 0) (by rw [length_node])
    (fun h => by cases h) hnone₂ (.inl rfl) w u
  rw [← hnode] at hlookup
  rw [wp_bind]
  refine wp_entry ?_
  rw [if_neg hp, wp_bind]
  refine wp_setEntry ⟨rfl, ⟨howns, ?_, fun τ g hg => ?_, fun τ => ?_, ?_⟩, ?_⟩
  · exact ((hkeeps.mono (Multiset.le_add_left _ _)).trans
      (h₂.keeps.mono (Multiset.le_cons_self ..))).trans hkeepsR
  · refine (hlookup τ).trans ?_
    rw [if_neg]
    · exact h₂.old τ g (by rwa [hkeeps'.lookup_eq])
    · rintro rfl
      rw [hnone] at hg
      cases hg
  · have hdom := h₂.dom τ
    rw [hkeeps'.lookup_eq] at hdom
    rw [hlookup, nodes, mem_insert]
    by_cases hτ : τ = node x 4
    · simp [hτ]
    · rw [if_neg hτ, or_iff_right hτ]
      exact hdom
  · have hfree := h₂.free
    rw [hkeeps'.absent_eq] at hfree
    rw [absent_nodes hnone, hl]
    exact congrArg (· + 1) hfree
  · have hne : node x 3 ≠ node x 4 := fun heq => by simpa using congrArg List.length heq
    have htable := (hlookup (node x 3)).trans (if_neg hne)
    rw [leaf, htable, hpt, map_some]
    simp only [Mem.put, update_self]

theorem wp_mappages (h : Owns s (pgs s r + R)) {l : List Nat} (hl : s.freelist = f :: l)
    (hx : x < USERPAGES) (hnone : lookup s r (node x 4) = none) (p : Index → Pte) (w u : Bool) :
    Prog.wp (mappages r (x * PGSIZE) PGSIZE f w u)
      (fun e => e = oom ∧ s.freelist.length < absent s r (nodes x))
      (fun o s' => o = 0 ∧ Extends r R (nodes x) s s') (s.take f l p) :=
  wp_imp (wp_mappages_leaf h hl hx hnone p w u) fun _ _ ⟨ho, hext, _⟩ => ⟨ho, hext⟩

/-! ## Unmapping pages -/

/-- The page table at `r` loses the pages on the paths `X`. -/
structure Unmaps (r : Nat) (R : Multiset Nat) (X : Finset (List Index)) (s s' : Mem) : Prop where
  owns : Owns s' (pgs s' r + R)
  keeps : Keeps R s s'
  lookup : ∀ σ, lookup s' r σ = if σ ∈ X then none else lookup s r σ

theorem Unmaps.refl (h : Owns s (pgs s r + R)) (hX : ∀ σ ∈ X, Vm.lookup s r σ = none) :
    Unmaps r R X s s := by
  refine ⟨h, .refl, fun σ => ?_⟩
  split
  next hσ => exact hX σ hσ
  next => rfl

theorem Unmaps.trans (h : Unmaps r R X s s') (h' : Unmaps r R Y s' s'') :
    Unmaps r R (X ∪ Y) s s'' := by
  refine ⟨h'.owns, h.keeps.trans h'.keeps, fun σ => ?_⟩
  rw [h'.lookup, h.lookup]
  by_cases hX : σ ∈ X <;> by_cases hY : σ ∈ Y <;> simp [hY]

theorem unlink_put (h : Owns s (pgs s r + R)) {pt : Nat} (hpt : lookup s r (node x 3) = some pt)
    (hf : lookup s r (node x 4) = some f) :
    pgs s r = f ::ₘ pgs (s.put pt (PTX (x * PGSIZE)) .zero) r ∧
      ∀ σ, lookup (s.put pt (PTX (x * PGSIZE)) .zero) r σ =
        if σ ∈ ({node x 4} : Finset _) then none else lookup s r σ := by
  have hnode : node x 4 = node x 3 ++ [PTX (x * PGSIZE)] := by
    rw [PTX_page]
    exact node_succ rfl
  have hold : links s.page 0 pt (PTX (x * PGSIZE)) = some f := by
    rw [hnode, lookup_append (k := 0) (by rw [length_node]), hpt] at hf
    exact hf
  have hnew : links (s.put pt (PTX (x * PGSIZE)) .zero).page 0 pt (PTX (x * PGSIZE)) = none := by
    rw [links_of_user (fun h => by cases h)]
    simp only [Mem.put, update_self]
    rfl
  obtain ⟨hpages, hlookup⟩ := pgs_put (e := .zero) (Multiset.nodup_add.mp h.nodup_right).1 hpt
    (k := 0) (i := PTX (x * PGSIZE)) (by rw [length_node]) (fun _ _ => Radix.pages_zero)
    (fun _ _ => Radix.pages_zero)
  rw [hold, hnew, elim_none, elim_some, add_zero, add_comm] at hpages
  rw [hnew, ← hnode] at hlookup
  exact ⟨hpages.symm, by simpa only [mem_singleton] using hlookup⟩

theorem wp_deallocPage (h : Owns s (pgs s r + R)) (hfirst : 0 < s.first) (hx : x < USERPAGES) :
    Prog.wp (deallocPage r (x * PGSIZE)) E (fun _ s' => Unmaps r R {node x 4} s s') s := by
  have hnone (hx : lookup s r (node x 4) = none) : Unmaps r R {node x 4} s s := by
    refine .refl h fun σ hσ => ?_
    rw [mem_singleton.mp hσ, hx]
  unfold deallocPage
  rw [wp_bind, wp_of_eq_ok (walkpgdir_false hx)]
  cases hpt : lookup s r (node x 3) with
  | none =>
    refine hnone ?_
    rw [lookup_node_succ (d := 3) (k := 0) rfl, hpt, bind_none]
  | some pt =>
    have hpage := lookup_page hx hpt
    rw [map_some, wp_bind]
    refine wp_entry (wp_when (fun hp => ?_) fun hp => ?_)
    · rw [if_pos hp] at hpage
      generalize hf : (s.page pt (PTX (x * PGSIZE))).ppn = f at hpage ⊢
      obtain ⟨hpages, hlookup⟩ := unlink_put h hpt hpage
      have hpos : f ≠ 0 := by
        have hge := (h.mem_all (Multiset.mem_add.mpr (.inl (mem_pgs_of_lookup hpage)))).1
        omega
      have hown := h
      rw [hpages, Multiset.cons_add] at hown
      rw [if_neg hpos, wp_bind]
      refine wp_imp (wp_kfree hown) fun _ s₁ ⟨hown₁, hkeeps₁, hpage₁, _⟩ => wp_setEntry ?_
      -- clearing the entry first leaves the same tables
      have hptf : pt ≠ f := by
        rintro rfl
        have hπ := Radix.find_inj (Multiset.nodup_add.mp h.nodup_right).1 hpt hpage
        simpa using congrArg List.length hπ
      have hkeeps : Keeps (pgs (s.put pt (PTX (x * PGSIZE)) .zero) r)
          (s.put pt (PTX (x * PGSIZE)) .zero) (s₁.put pt (PTX (x * PGSIZE)) .zero) := by
        refine ⟨hkeeps₁.first, hkeeps₁.kpdpt, fun b hb => ?_⟩
        have hbf : b ≠ f := by
          rintro rfl
          exact hown.not_mem_of_cons (Multiset.mem_add.mpr (.inl hb))
        simp only [Mem.put, hpage₁, update_of_ne hptf]
        by_cases hbt : b = pt
        · rw [hbt, update_self, update_self]
        · rw [update_of_ne hbt, update_of_ne hbt, update_of_ne hbf]
      have hptR : pt ∉ R :=
        Multiset.disjoint_left.mp (Multiset.nodup_add.mp h.nodup_right).2.2 (mem_pgs_of_lookup hpt)
      refine ⟨?_, ?_, fun σ => ?_⟩
      · rw [hkeeps.pgs_eq]
        exact hown₁.congr rfl rfl
      · exact (hkeeps₁.mono (Multiset.le_add_left _ _)).trans (keeps_update hptR _)
      · rw [hkeeps.lookup_eq, hlookup]
    · rw [if_neg hp] at hpage
      exact hnone hpage

/-- Other flags of an entry do not matter. -/
theorem wp_clearpteu (h : Owns s (pgs s r + R)) (hx : x < USERPAGES)
    (hpage : lookup s r (node x 4) ≠ none) :
    Prog.wp (clearpteu r (x * PGSIZE)) E
      (fun _ s' => Extends r R ∅ s s') s := by
  unfold clearpteu
  rw [wp_bind, wp_of_eq_ok (walkpgdir_false hx)]
  cases hpt : lookup s r (node x 3) with
  | none =>
    rw [lookup_node_succ (d := 3) (k := 0) rfl, hpt] at hpage
    exact absurd rfl hpage
  | some pt =>
    rw [map_some, wp_bind]
    refine wp_entry (wp_setEntry ?_)
    have hlinks : links (s.put pt (PTX (x * PGSIZE))
        { s.page pt (PTX (x * PGSIZE)) with u := false }).page = links s.page := by
      funext l b j
      by_cases hbj : b = pt ∧ j = PTX (x * PGSIZE)
      · obtain ⟨rfl, rfl⟩ := hbj
        simp only [links, Mem.put, update_self]
      · rw [links, links, page_put (not_and_or.mp hbj)]
    have hlookup (σ : List Index) : lookup (s.put pt (PTX (x * PGSIZE))
        { s.page pt (PTX (x * PGSIZE)) with u := false }) r σ = lookup s r σ := by
      rw [lookup, lookup, hlinks]
    have hptR : pt ∉ R :=
      Multiset.disjoint_left.mp (Multiset.nodup_add.mp h.nodup_right).2.2 (mem_pgs_of_lookup hpt)
    refine ⟨?_, keeps_update hptR _, fun σ f hf => (hlookup σ).trans hf, fun σ => ?_, ?_⟩
    · rw [pgs, hlinks]
      exact h.congr rfl rfl
    · rw [hlookup]
      simp
    · rfl

end

/-! ## Making a page table -/

theorem wp_setupkvm (h : Owns s R) :
    Prog.wp setupkvm (fun e => e = oom ∧ s.freelist = [])
      (fun o s' => ∃ d, o = some d ∧ Owns s' (pgs s' d + R) ∧ Keeps R s s' ∧
        (∀ σ ≠ [], lookup s' d σ = none) ∧ s'.freelist.length + 1 = s.freelist.length) s := by
  unfold setupkvm
  rw [wp_bind]
  refine wp_imp (wp_kalloc h) ?_
  rintro _ _ ⟨d, l, rfl, hl, rfl, hown⟩
  dsimp only
  rw [wp_bind]
  refine wp_fill ?_
  rw [wp_bind, wp_gets, wp_bind]
  refine wp_setEntry ⟨d, rfl, ?_⟩
  generalize hs' : Mem.put _ d (Fin.ofNat _ 256) _ = s'
  have hpage : ∀ b ≠ d, s'.page b = s.page b := by
    intro b hb
    subst hs'
    simp only [Mem.put, update_of_ne hb]
  have hpages : pgs s' d = {d} := by
    refine Radix.pages_eq_singleton fun i => ?_
    by_cases hi : 256 ≤ i.val
    · rw [links, if_pos ⟨rfl, hi⟩]
    · have hne : i ≠ Fin.ofNat _ 256 := by
        rintro rfl
        exact hi (by decide)
      subst hs'
      simp only [links, Mem.put, update_self, update_of_ne hne]
      rw [if_neg fun h => hi h.2]
      rfl
  have hown' : Owns s' (d ::ₘ R) := hown.congr (by rw [← hs']; rfl) (by rw [← hs']; rfl)
  refine ⟨?_, ⟨by rw [← hs']; rfl, by rw [← hs']; rfl, fun b hb => hpage b ?_⟩, fun σ hσ => ?_, ?_⟩
  · rwa [hpages, Multiset.singleton_add]
  · rintro rfl
    exact hown'.not_mem_of_cons hb
  · exact Radix.find_of_pages_eq hpages hσ
  · rw [hl, ← hs']
    rfl

/-! ## Freeing a page table -/

/-- The trees below the entries of the table `t` from `k` on. -/
def below (s : Mem) (n t k : Nat) : Multiset Nat :=
  ∑ i : Index, if k ≤ i.val then (links s.page n t i).elim 0 (Radix.pages (links s.page) n) else 0

section
variable {n k : Nat}

theorem pages_eq_below : Radix.pages (links s.page) (n + 1) t = t ::ₘ below s n t 0 := by
  simp only [Radix.pages, below, Nat.zero_le, if_true]

theorem below_eq (hk : k < NPDENTRIES) :
    below s n t k = (links s.page n t (Fin.ofNat _ k)).elim 0 (Radix.pages (links s.page) n) +
      below s n t (k + 1) := by
  have hval : (Fin.ofNat NPDENTRIES k).val = k := Nat.mod_eq_of_lt hk
  have hsum := sum_ite_eq' Finset.univ (Fin.ofNat NPDENTRIES k) fun i =>
    (links s.page n t i).elim 0 (Radix.pages (links s.page) n)
  rw [if_pos (mem_univ _)] at hsum
  rw [below, below, ← hsum, ← sum_add_distrib]
  refine sum_congr rfl fun i _ => ?_
  by_cases hi : i = Fin.ofNat _ k
  · rw [if_pos hi, hi, hval, if_pos le_rfl, if_neg (Nat.not_succ_le_self k), add_zero]
  · have hne : i.val ≠ k := fun h => hi (Fin.ext (h.trans hval.symm))
    rw [if_neg hi, zero_add]
    exact if_congr (by omega) rfl rfl

theorem below_eq_zero (h : ∀ i : Index, k ≤ i.val → links s.page n t i = none) :
    below s n t k = 0 := by
  rw [below, sum_eq_zero]
  intro i _
  split
  next hi => rw [h i hi, elim_none]
  next => rfl

attribute [irreducible] below

/-- The loop over the first `m` entries of a table frees the trees below them. -/
theorem wp_freeEntries {free : Nat → VmM Unit} {m : Nat} (hm : m ≤ NPDENTRIES)
    (huser : n = 3 → m ≤ 256)
    (hfree : ∀ {s : Mem} {b : Nat} {R : Multiset Nat}, Owns s (Radix.pages (links s.page) n b + R) →
      Prog.wp (free b) E (fun _ s' => Owns s' R ∧ Keeps R s s') s)
    (h : Owns s (t ::ₘ (below s n t 0 + R))) :
    Prog.wp (freeEntries free t m) E
      (fun _ s' => Owns s' (t ::ₘ (below s n t m + R)) ∧ Keeps (t ::ₘ (below s n t m + R)) s s') s := by
  refine wp_times (I := fun k s' =>
    Owns s' (t ::ₘ (below s n t k + R)) ∧ Keeps (t ::ₘ (below s n t k + R)) s s')
    ⟨h, .refl⟩ fun k s' hk ⟨hown, hkeeps⟩ => ?_
  have hindex : n = 3 → (Fin.ofNat NPDENTRIES k).val < 256 := by
    intro hn
    have hval : (Fin.ofNat NPDENTRIES k).val = k := Nat.mod_eq_of_lt (by omega)
    omega
  have hlinks := links_of_user (s := s') (t := t) hindex
  rw [hkeeps.links_eq (Multiset.mem_cons_self ..)] at hlinks
  have hbelow := below_eq (s := s) (n := n) (t := t) (k := k) (by omega)
  rw [wp_bind]
  refine wp_entry (wp_when (fun hp => ?_) fun hp => ?_)
  · rw [if_pos hp] at hlinks
    rw [hlinks, elim_some] at hbelow
    generalize (s'.page t (Fin.ofNat _ k)).ppn = b at hbelow
    have hsplit : t ::ₘ (below s n t k + R) =
        Radix.pages (links s.page) n b + (t ::ₘ (below s n t (k + 1) + R)) := by
      rw [hbelow, Multiset.add_cons, add_assoc]
    rw [hsplit] at hown hkeeps
    have heq := (hkeeps.mono (Multiset.le_add_right _ _)).pages_eq
    rw [← heq] at hown
    refine wp_imp (hfree hown) fun _ s'' ⟨hown', hkeeps'⟩ => ⟨hown', ?_⟩
    exact (hkeeps.mono (Multiset.le_add_left _ _)).trans hkeeps'
  · rw [if_neg hp] at hlinks
    rw [hlinks, elim_none, zero_add] at hbelow
    rw [← hbelow]
    exact ⟨hown, hkeeps⟩

-- the loop over a whole table is not to be unrolled
attribute [local irreducible] Prog.times

theorem wp_freeTree (hn : n ≤ 3) (h : Owns s (Radix.pages (links s.page) n t + R)) :
    Prog.wp (freeTree n t) E (fun _ s' => Owns s' R ∧ Keeps R s s') s := by
  induction n generalizing s t R with
  | zero =>
    rw [Radix.pages_zero] at h
    exact wp_imp (wp_kfree h) fun _ s' ⟨hown, hkeeps, _⟩ => ⟨hown, hkeeps⟩
  | succ n ih =>
    rw [pages_eq_below, Multiset.cons_add] at h
    refine wp_seq (wp_freeEntries le_rfl (by omega) (ih (by omega)) h) ?_
    rintro _ s' ⟨hown, hkeeps⟩
    rw [below_eq_zero fun i hi => absurd hi (by have := i.isLt; omega), zero_add] at hown hkeeps
    refine wp_imp (wp_kfree hown) fun _ s'' ⟨hown', hkeeps', _⟩ => ⟨hown', ?_⟩
    exact (hkeeps.mono (Multiset.le_cons_self ..)).trans hkeeps'

/-- The kernel's half of the table links to nothing that is freed. -/
theorem wp_freevm (h : Owns s (pgs s r + R)) :
    Prog.wp (freevm r) E (fun _ s' => Owns s' R ∧ Keeps R s s') s := by
  rw [pgs, pages_eq_below, Multiset.cons_add] at h
  unfold freevm
  refine wp_seq (wp_freeEntries (m := NPDENTRIES / 2) (by decide) (fun _ => by decide)
    (wp_freeTree le_rfl) h) ?_
  rintro _ s' ⟨hown, hkeeps⟩
  rw [below_eq_zero fun i hi => by rw [links, if_pos ⟨rfl, hi⟩], zero_add] at hown hkeeps
  refine wp_imp (wp_kfree hown) fun _ s'' hs'' => ⟨hs''.1, ?_⟩
  exact (hkeeps.mono (Multiset.le_cons_self ..)).trans hs''.2.1

end

end Xv6.Vm
