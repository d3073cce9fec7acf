import Xv6.Vm.Walk

/-!
# User memory

The specifications of `allocuvm`, `deallocuvm`, `copyuvm` and `inituvm`. `Mapped s r n` says which
user pages a page table has: those from number 1 up to `n`. A page table cannot have more pages than
there are (`Mapped.bound`), so the addresses in these functions stay far below the kernel's half,
and sizes far below `2 ^ 32`.
-/

namespace Xv6.Vm

open Finset

variable {s s' s'' : Mem} {R R' : Multiset Nat} {r t f : Nat} {σ : List Index} {e : Pte} {i : Index}
  {X Y : Finset (List Index)} {E : Fault → Prop}

/-- The number of the page after the last of `sz` bytes. -/
def npages (sz : Nat) : Nat := (sz + (PGSIZE - 1)) / PGSIZE

/-- The user pages that are present are those from 1 up to `n`. -/
def Mapped (s : Mem) (r n : Nat) : Prop :=
  ∀ y < USERPAGES, lookup s r (node y 4) ≠ none ↔ 1 ≤ y ∧ y < n

section
variable {n m c a b oldsz newsz sz : Nat}

theorem Keeps.mapped (h : Keeps (pgs s r) s s') (hm : Mapped s r n) : Mapped s' r n := by
  intro y hy
  rw [h.lookup_eq]
  exact hm y hy

theorem Mapped.bound (hm : Mapped s r n) (h : Owns s (pgs s r + R)) :
    n + s.freelist.length ≤ PHYSTOP / PGSIZE + 1 := by
  have hcard := h.card
  rw [Multiset.card_add] at hcard
  have hle : (Finset.Ico 1 (min n USERPAGES)).card ≤ (pgs s r).toFinset.card := by
    refine card_le_card_of_injOn (fun y => (lookup s r (node y 4)).getD 0) ?_ ?_
    · intro y hy
      simp only [coe_Ico, Set.mem_Ico, Nat.lt_min] at hy
      obtain ⟨f, hf⟩ := Option.ne_none_iff_exists'.mp ((hm y hy.2.2).mpr ⟨hy.1, hy.2.1⟩)
      simp only [hf, Option.getD_some, mem_coe, Multiset.mem_toFinset]
      exact mem_pgs_of_lookup hf
    · intro y hy z hz heq
      simp only [coe_Ico, Set.mem_Ico, Nat.lt_min] at hy hz
      obtain ⟨f, hf⟩ := Option.ne_none_iff_exists'.mp ((hm y hy.2.2).mpr ⟨hy.1, hy.2.1⟩)
      obtain ⟨g, hg⟩ := Option.ne_none_iff_exists'.mp ((hm z hz.2.2).mpr ⟨hz.1, hz.2.1⟩)
      simp only [hf, hg, Option.getD_some] at heq
      subst heq
      exact node_inj hy.2.2 hz.2.2
        (Radix.find_inj (Multiset.nodup_add.mp h.nodup_right).1 hf hg)
  rw [Nat.card_Ico] at hle
  have hcard' := Multiset.toFinset_card_le (pgs s r)
  have husers : PHYSTOP / PGSIZE + 1 < USERPAGES := by decide
  generalize PHYSTOP / PGSIZE = N at *
  omega

theorem Mapped.le (hm : Mapped s r n) (h : Owns s (pgs s r + R)) : n ≤ 57345 :=
  le_trans (Nat.le_add_right _ _) (hm.bound h)

/-! ## Growing -/

theorem wp_allocLoop (h : Owns s (pgs s r + R)) (hc : c + s.freelist.length < USERPAGES)
    (hnone : ∀ y < USERPAGES, c ≤ y → lookup s r (node y 4) = none) (oldsz newsz n : Nat) :
    Prog.wp (allocLoop r oldsz newsz n (c * PGSIZE))
      (fun e => e = oom ∧ s.freelist.length < absent s r (span c (c + n)))
      (fun o s' => Extends r R (span c (c + n)) s s' ∧ o = newsz ∧
        n + s'.freelist.length ≤ s.freelist.length) s := by
  induction n generalizing s c with
  | zero =>
    rw [Nat.add_zero, span_self]
    exact ⟨.refl h (by simp), rfl, by simp⟩
  | succ n ih =>
    have hx : c < USERPAGES := by omega
    rw [span_succ, allocLoop, wp_bind]
    refine wp_mono (wp_kalloc h) (fun e he => ⟨he.1, ?_⟩) ?_
    · rw [he.2]
      exact absent_pos (hnone c hx le_rfl)
    rintro _ _ ⟨f, l, rfl, hl, rfl, -⟩
    dsimp only
    rw [wp_bind]
    refine wp_fill ?_
    rw [wp_bind]
    refine wp_mono (wp_mappages h hl hx (hnone c hx le_rfl) (fun _ => .zero) true true)
      (fun e he => ⟨he.1, he.2.trans_le absent_le_union⟩) ?_
    rintro _ s₁ ⟨rfl, hext⟩
    have hfree := hext.free
    rw [absent_nodes (hnone c hx le_rfl)] at hfree
    rw [if_neg (by decide), show c * PGSIZE + PGSIZE = (c + 1) * PGSIZE by rw [Nat.succ_mul]]
    exact wp_mono (ih hext.owns (by omega) (hext.none_above hx hnone))
      (fun e he => ⟨he.1, hext.absent_le he.2⟩) fun o s' ⟨hext', ho, hle⟩ =>
      ⟨hext.trans hext', ho, by omega⟩

theorem Extends.mapped (h : Extends r R (span n m) s s') (hm : Mapped s r n) (hn : 1 ≤ n)
    (hnm : n ≤ m) (hle : m ≤ USERPAGES) : Mapped s' r m := by
  intro y hy
  rw [h.dom, hm y hy, node_mem_span hle hy]
  omega

theorem PGROUNDUP_eq (h : sz + PGSIZE ≤ 2 ^ 64) : PGROUNDUP sz = npages sz * PGSIZE := by
  have hlt : sz + (PGSIZE - 1) < 2 ^ 64 := by
    have hpos : 0 < PGSIZE := by decide
    omega
  rw [PGROUNDUP, Nat.mod_eq_of_lt hlt, npages]

theorem PGROUNDUP_of_lt (h : sz < KERNBASE) : PGROUNDUP sz = npages sz * PGSIZE := by
  refine PGROUNDUP_eq ?_
  have hbound : KERNBASE + PGSIZE ≤ 2 ^ 64 := by decide
  omega

theorem npages_mono (h : a ≤ b) : npages a ≤ npages b :=
  Nat.div_le_div_right (Nat.add_le_add_right h _)

theorem le_npages (sz : Nat) : sz ≤ npages sz * PGSIZE := by
  show sz ≤ (sz + 4095) / 4096 * 4096
  omega

theorem npages_pos (h : 0 < sz) : 1 ≤ npages sz := by
  show 1 ≤ (sz + 4095) / 4096
  omega

/-- The size that `allocuvm` makes a process of size `oldsz` have. -/
def grown (oldsz newsz : Nat) : Nat := if KERNBASE ≤ newsz then oldsz else max oldsz newsz

theorem le_grown (oldsz newsz : Nat) : oldsz ≤ grown oldsz newsz := by
  unfold grown
  split <;> omega

theorem wp_allocuvm (h : Owns s (pgs s r + R)) (hm : Mapped s r (npages oldsz)) (hpos : 0 < oldsz)
    (newsz : Nat) :
    Prog.wp (allocuvm r oldsz newsz)
      (fun e => e = oom ∧
        s.freelist.length < absent s r (span (npages oldsz) (npages (grown oldsz newsz))))
      (fun o s' => Extends r R (span (npages oldsz) (npages (grown oldsz newsz))) s s' ∧
        o = (if KERNBASE ≤ newsz then 0 else grown oldsz newsz) ∧
        Mapped s' r (npages (grown oldsz newsz))) s := by
  unfold allocuvm
  by_cases hkern : KERNBASE ≤ newsz
  · rw [if_pos hkern, if_pos hkern, grown, if_pos hkern, span_self]
    exact ⟨.refl h (by simp), rfl, hm⟩
  by_cases hlt : newsz < oldsz
  · rw [if_neg hkern, if_pos hlt, grown, if_neg hkern, max_eq_left hlt.le, span_self, if_neg hkern]
    exact ⟨.refl h (by simp), rfl, hm⟩
  have hle : oldsz ≤ newsz := not_lt.mp hlt
  rw [if_neg hkern, if_neg hlt, grown, if_neg hkern, max_eq_right hle, if_neg hkern]
  dsimp only
  rw [PGROUNDUP_of_lt (by omega), Nat.mul_div_cancel _ (by decide)]
  have hbound := hm.bound h
  have husers : PHYSTOP / PGSIZE + 1 < USERPAGES := by decide
  generalize PHYSTOP / PGSIZE = N at *
  have hnone : ∀ y < USERPAGES, npages oldsz ≤ y → lookup s r (node y 4) = none := by
    intro y hy hle
    refine not_not.mp (mt (hm y hy).mp ?_)
    omega
  have hcount : npages oldsz + ((newsz + (PGSIZE - 1)) / PGSIZE - npages oldsz) = npages newsz :=
    Nat.add_sub_cancel' (npages_mono hle)
  have hloop := wp_allocLoop h (by omega) hnone oldsz newsz
    ((newsz + (PGSIZE - 1)) / PGSIZE - npages oldsz)
  rw [hcount] at hloop
  refine wp_imp hloop fun o s' ⟨hext, ho, hfree⟩ => ⟨hext, ho, ?_⟩
  exact hext.mapped hm (npages_pos hpos) (npages_mono hle) (by omega)

/-! ## Shrinking -/

/-- The user pages from `a` to `b`. -/
def pageSpan (a b : Nat) : Finset (List Index) := (Finset.Ico a b).image fun y => node y 4

theorem node_mem_pageSpan {y : Nat} (hb : b ≤ USERPAGES) (hy : y < USERPAGES) :
    node y 4 ∈ pageSpan a b ↔ a ≤ y ∧ y < b := by
  rw [pageSpan, mem_image]
  constructor
  · rintro ⟨z, hz, heq⟩
    have hz := mem_Ico.mp hz
    rwa [← node_inj (by omega) hy heq]
  · intro hy
    exact ⟨y, mem_Ico.mpr hy, rfl⟩

theorem pageSpan_succ (h : a ≤ b) : pageSpan a b ∪ {node b 4} = pageSpan a (b + 1) := by
  rw [pageSpan, pageSpan, ← image_singleton (fun y => node y 4), ← image_union,
    union_comm, ← insert_eq, ← Nat.Ico_succ_right_eq_insert_Ico h]

theorem Unmaps.mapped (h : Unmaps r R (pageSpan a b) s s') (hm : Mapped s r b) (hab : a ≤ b)
    (hb : b ≤ USERPAGES) : Mapped s' r a := by
  intro y hy
  have hmem := node_mem_pageSpan (a := a) hb hy
  rw [h.lookup]
  by_cases hin : a ≤ y ∧ y < b
  · rw [if_pos (hmem.mpr hin)]
    simp only [ne_eq, not_true_eq_false, false_iff]
    omega
  · rw [if_neg (mt hmem.mp hin), hm y hy]
    omega

theorem wp_deallocuvm (h : Owns s (pgs s r + R)) (hm : Mapped s r (npages oldsz))
    (hfirst : 0 < s.first) :
    Prog.wp (deallocuvm r oldsz newsz) E
      (fun o s' => o = min oldsz newsz ∧
        Unmaps r R (pageSpan (npages (min oldsz newsz)) (npages oldsz)) s s') s := by
  unfold deallocuvm
  by_cases hle : oldsz ≤ newsz
  · rw [if_pos hle, min_eq_left hle]
    refine ⟨rfl, .refl h fun σ hσ => ?_⟩
    rw [pageSpan, Finset.Ico_self, image_empty] at hσ
    cases hσ
  have hlt : newsz < oldsz := not_le.mp hle
  have hbound := hm.le h
  have husers : 57345 < USERPAGES := by decide
  have hround : PGROUNDUP newsz = npages newsz * PGSIZE := by
    refine PGROUNDUP_eq ?_
    have hnp : npages oldsz = (oldsz + 4095) / 4096 := rfl
    show newsz + 4096 ≤ 2 ^ 64
    omega
  rw [if_neg hle, min_eq_right hlt.le]
  dsimp only
  rw [hround, Nat.mul_div_cancel _ (by decide), wp_bind]
  have hloop : Prog.wp (Prog.times (fun k => deallocPage r (npages newsz * PGSIZE + k * PGSIZE))
      ((oldsz + (PGSIZE - 1)) / PGSIZE - npages newsz)) E
      (fun _ s' => Unmaps r R (pageSpan (npages newsz) (npages newsz +
        ((oldsz + (PGSIZE - 1)) / PGSIZE - npages newsz))) s s') s := by
    refine wp_times (I := fun k s' =>
      Unmaps r R (pageSpan (npages newsz) (npages newsz + k)) s s') ?_ ?_
    · exact .refl h (by simp [pageSpan])
    · intro k t hk ht
      have hk : npages newsz + k < npages oldsz := by
        have hnp : npages oldsz = (oldsz + (PGSIZE - 1)) / PGSIZE := rfl
        omega
      rw [← Nat.add_mul]
      refine wp_imp (wp_deallocPage ht.owns (by rw [ht.keeps.first]; exact hfirst) (by omega))
        fun _ t' ht' => ?_
      have heq := ht.trans ht'
      rwa [pageSpan_succ (Nat.le_add_right _ _)] at heq
  have hcount : npages newsz + ((oldsz + (PGSIZE - 1)) / PGSIZE - npages newsz) = npages oldsz :=
    Nat.add_sub_cancel' (npages_mono hlt.le)
  rw [hcount] at hloop
  exact wp_imp hloop fun _ s' hs' => ⟨rfl, hs'⟩

/-! ## Copying -/

theorem absent_span_of_fresh {d : Nat} (h : ∀ σ ≠ [], lookup s d σ = none) :
    absent s d (span a b) = (span a b).card := by
  rw [absent, filter_true_of_mem]
  intro σ hσ
  refine h σ fun hnil => ?_
  simp only [span, nodes, tables, mem_biUnion, mem_insert, mem_singleton] at hσ
  obtain ⟨x, -, hσ⟩ := hσ
  rcases hσ with rfl | rfl | rfl | rfl <;> simpa using congrArg List.length hnil

/-- The loop of `copyuvm` reads the page table at `r`, which is not the one that it extends. -/
theorem wp_copyLoop {d : Nat} (h : Owns s (pgs s d + R)) (hr : pgs s r ≤ R) (hm : Mapped s r m)
    (hc : 1 ≤ c) (hcn : c + n ≤ m) (hle : m ≤ USERPAGES)
    (hnone : ∀ y < USERPAGES, c ≤ y → lookup s d (node y 4) = none) :
    Prog.wp (copyLoop r d n (c * PGSIZE))
      (fun e => e = oom ∧ s.freelist.length < absent s d (span c (c + n)))
      (fun o s' => Extends d R (span c (c + n)) s s' ∧ o = some d) s := by
  induction n generalizing s c with
  | zero =>
    rw [Nat.add_zero, span_self]
    exact ⟨.refl h (by simp), rfl⟩
  | succ n ih =>
    have hx : c < USERPAGES := by omega
    have hpage := (hm c hx).mpr ⟨hc, by omega⟩
    rw [span_succ, copyLoop, wp_bind, wp_of_eq_ok (walkpgdir_false hx)]
    cases hpt : lookup s r (node c 3) with
    | none =>
      rw [lookup_node_succ (d := 3) (k := 0) rfl, hpt, Option.bind_none] at hpage
      exact absurd rfl hpage
    | some pt =>
      have hp : (s.page pt (PTX (c * PGSIZE))).p = true := by
        by_contra hp
        rw [lookup_page hx hpt, if_neg hp] at hpage
        exact hpage rfl
      rw [Option.map_some, wp_bind]
      refine wp_entry ?_
      rw [hp, Bool.not_true, if_neg Bool.false_ne_true, wp_bind]
      refine wp_mono (wp_kalloc h) (fun e he => ⟨he.1, ?_⟩) ?_
      · rw [he.2]
        exact absent_pos (hnone c hx le_rfl)
      rintro _ _ ⟨f, l, rfl, hl, rfl, -⟩
      dsimp only
      rw [wp_bind, wp_modify, setAt_eq_update, wp_bind]
      refine wp_mono (wp_mappages h hl hx (hnone c hx le_rfl) _ _ _)
        (fun e he => ⟨he.1, he.2.trans_le absent_le_union⟩) ?_
      rintro _ s₁ ⟨rfl, hext⟩
      have hkeeps : Keeps (pgs s r) s s₁ := hext.keeps.mono hr
      rw [if_neg (by decide), show c * PGSIZE + PGSIZE = (c + 1) * PGSIZE by rw [Nat.succ_mul]]
      exact wp_mono (ih hext.owns (by rwa [hkeeps.pgs_eq]) (hkeeps.mapped hm) (by omega)
        (by omega) (hext.none_above hx hnone)) (fun e he => ⟨he.1, hext.absent_le he.2⟩)
        fun o s' ⟨hext', ho⟩ => ⟨hext.trans hext', ho⟩

theorem wp_copyuvm (h : Owns s R) (hr : pgs s r ≤ R) (hm : Mapped s r (npages sz)) (hpos : 0 < sz) :
    Prog.wp (copyuvm r sz)
      (fun e => e = oom ∧ s.freelist.length < 1 + (span 1 (npages sz)).card)
      (fun o s' => ∃ d, o = some d ∧ Owns s' (pgs s' d + R) ∧ Keeps R s s' ∧
        Mapped s' d (npages sz) ∧
        s'.freelist.length + (1 + (span 1 (npages sz)).card) = s.freelist.length) s := by
  obtain ⟨R₀, hR₀⟩ := Multiset.le_iff_exists_add.mp hr
  have hbound := hm.bound (hR₀ ▸ h)
  have husers : PHYSTOP / PGSIZE + 1 < USERPAGES := by decide
  have hsmall : PHYSTOP / PGSIZE + 1 < 2 ^ 20 := by decide
  generalize PHYSTOP / PGSIZE = N at *
  have huint : sz % 2 ^ 32 = sz := by
    have hnp : npages sz = (sz + 4095) / 4096 := rfl
    exact Nat.mod_eq_of_lt (by omega)
  have hone := npages_pos hpos
  have hcount : 1 + ((sz + (PGSIZE - 1)) / PGSIZE - 1) = npages sz := Nat.add_sub_cancel' hone
  unfold copyuvm
  rw [huint, wp_bind]
  refine wp_mono (wp_setupkvm h) (fun e he => ⟨he.1, ?_⟩) ?_
  · rw [he.2]
    exact Nat.add_pos_left Nat.zero_lt_one _
  rintro _ s₁ ⟨d, rfl, howns, hkeeps, hfresh, hfree⟩
  have hkeeps' : Keeps (pgs s r) s s₁ := hkeeps.mono hr
  have hnone (y : Nat) : lookup s₁ d (node y 4) = none := by
    refine hfresh _ fun hnil => ?_
    simpa using congrArg List.length hnil
  have hloop := wp_copyLoop (c := 1) (n := (sz + (PGSIZE - 1)) / PGSIZE - 1) howns
    (by rwa [hkeeps'.pgs_eq]) (hkeeps'.mapped hm) le_rfl hcount.le (by omega)
    fun y _ _ => hnone y
  rw [hcount, absent_span_of_fresh hfresh, Nat.one_mul] at hloop
  refine wp_mono hloop (fun e he => ⟨he.1, by omega⟩) ?_
  rintro _ s₂ ⟨hext, rfl⟩
  have hfree₂ := hext.free
  rw [absent_span_of_fresh hfresh] at hfree₂
  refine ⟨d, rfl, hext.owns, hkeeps.trans hext.keeps, ?_, by omega⟩
  refine hext.mapped (fun y _ => ?_) le_rfl hone (by omega)
  rw [hnone]
  simp only [ne_eq, not_true_eq_false, false_iff]
  omega

theorem wp_inituvm (h : Owns s (pgs s r + R)) (hnone : ∀ σ ≠ [], lookup s r σ = none) :
    Prog.wp (inituvm r 0) (fun e => e = oom)
      (fun _ s' => Owns s' (pgs s' r + R) ∧ Keeps R s s' ∧ Mapped s' r 2) s := by
  have hx : 1 < USERPAGES := by decide
  have hnode (y : Nat) : lookup s r (node y 4) = none := by
    refine hnone _ fun hnil => ?_
    simpa using congrArg List.length hnil
  unfold inituvm
  rw [if_neg (by decide), wp_bind]
  refine wp_mono (wp_kalloc h) (fun e he => he.1) ?_
  rintro _ _ ⟨f, l, rfl, hl, rfl, -⟩
  dsimp only
  rw [wp_bind]
  refine wp_fill ?_
  rw [wp_bind]
  have hmap := wp_mappages h hl hx (hnode 1) (fun _ => .zero) true true
  rw [Nat.one_mul] at hmap
  refine wp_mono hmap (fun e he => he.1) fun _ s₁ ⟨_, hext⟩ => ?_
  refine ⟨hext.owns, hext.keeps, fun y hy => ?_⟩
  rw [hext.dom, hnode, node_mem_nodes hx hy]
  simp only [ne_eq, not_true_eq_false, false_or]
  omega

end

end Xv6.Vm
