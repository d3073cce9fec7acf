import Xv6.Vm.Contents
import Xv6.Vm.Copyout
import Xv6.Vm.Sizes

/-!
# Copying user memory

`copyuvm` gives a new page table copies of the user pages of another, if there are enough free pages.
The copies are in pages that were free, so neither page table leads to a byte of the other's pages.
-/

namespace Xv6.Vm

/-- The kernel's half of the top-level table is as it was. -/
def SameHalf (r : Nat) (s s' : Mem) : Prop := ∀ i : Index, 256 ≤ i.val → s'.page r i = s.page r i

section
variable {s s' s'' : Mem} {R : Multiset Nat} {r t x k n m : Nat} {i : Index}

theorem SameHalf.refl : SameHalf r s s := fun _ _ => rfl

theorem SameHalf.trans (h : SameHalf r s s') (h' : SameHalf r s' s'') : SameHalf r s s'' :=
  fun i hi => (h' i hi).trans (h i hi)

theorem Owns.root_mem (r : Nat) : r ∈ pgs s r := mem_pgs_of_lookup (lookup_node_zero (x := 0))

/-- The walk to a user page changes the other half at most. -/
theorem half_put (h : Owns s (pgs s r + R)) (hx : x < USERPAGES) (hk : 4 = n + (k + 1))
    (ht : lookup s r (node x n) = some t) (e : Pte) :
    SameHalf r s (s.put t (Fin.ofNat _ (x / NPDENTRIES ^ k)) e) := by
  intro i hi
  refine page_put ?_
  by_cases hrt : r = t
  · refine .inr fun heq => ?_
    have hnil : node x 0 = node x n := Radix.find_inj (Multiset.nodup_add.mp h.nodup_right).1
      lookup_node_zero (ht.trans (congrArg some hrt.symm))
    have hn : 0 = n := by simpa using congrArg List.length hnil
    have hlt := index_lt (k := k) hx (by omega)
    rw [← heq] at hlt
    omega
  · exact .inl hrt

theorem half_take (h : Owns s (pgs s r + R)) {f : Nat} {l : List Nat} (hl : s.freelist = f :: l)
    (p : Index → Pte) : SameHalf r s (s.take f l p) := by
  intro i _
  refine congrFun (page_take_of_ne ?_) i
  rintro rfl
  refine h.not_free (Multiset.mem_add.mpr (.inl (Owns.root_mem r))) ?_
  rw [hl]
  exact List.mem_cons_self

theorem half_walkEntry (h : Owns s (pgs s r + R)) (hx : x < USERPAGES) (hk : 4 = n + (k + 1))
    (ht : lookup s r (node x n) = some t) :
    (walkEntry t (Fin.ofNat _ (x / NPDENTRIES ^ k)) true).wp (fun _ => True)
      (fun _ s' => SameHalf r s s') s := by
  rw [walkEntry, wp_bind]
  refine wp_entry ?_
  split
  next => exact .refl
  next =>
  simp only [Bool.not_true, if_neg Bool.false_ne_true]
  rw [wp_bind]
  refine wp_mono (wp_kalloc h) (fun _ _ => trivial) ?_
  rintro _ _ ⟨f, l, rfl, hl, rfl, -⟩
  rw [wp_bind]
  refine wp_fill ?_
  rw [wp_bind]
  refine wp_setEntry ((half_take h hl fun _ => .zero).trans ?_)
  obtain ⟨hown, hkeeps⟩ := owns_take h hl fun _ => Pte.zero
  refine half_put hown hx hk ?_ _
  rw [(hkeeps.mono (Multiset.le_add_right _ _)).lookup_eq, ht]

theorem half_walkpgdir (h : Owns s (pgs s r + R)) (hx : x < USERPAGES) :
    (walkpgdir r (x * PGSIZE) true).wp (fun _ => True) (fun _ s' => SameHalf r s s') s := by
  rw [walkpgdir, PMX_page, PDPX_page, PDX_page]
  have hstep {s : Mem} {n k t : Nat} (h : Owns s (pgs s r + R)) (hk : 4 = n + (k + 1))
      (ht : lookup s r (node x n) = some t) :=
    wp_also (half_walkEntry h hx hk ht)
      (wp_mono (wp_walkEntry h hx hk ht) (fun _ _ => trivial) fun _ _ => id)
  refine wp_seq (hstep (n := 0) h rfl lookup_node_zero) ?_
  rintro _ s₁ ⟨hs₁, hext₁, pdp, rfl, hpdp⟩
  refine wp_seq (hstep (n := 1) hext₁.owns rfl hpdp) ?_
  rintro _ s₂ ⟨hs₂, hext₂, pd, rfl, hpd⟩
  refine wp_seq (hstep (n := 2) hext₂.owns rfl hpd) ?_
  rintro _ s₃ ⟨hs₃, hext₃, pt, rfl, hpt⟩
  exact (hs₁.trans hs₂).trans hs₃

/-- The page that was just taken is mapped. -/
theorem half_mappages (h : Owns s (pgs s r + R)) {f : Nat} {l : List Nat} (hl : s.freelist = f :: l)
    (hx : x < USERPAGES) (p : Index → Pte) (w u : Bool) :
    (mappages r (x * PGSIZE) PGSIZE f w u).wp (fun _ => True) (fun _ s' => SameHalf r s s')
      (s.take f l p) := by
  have hown := (owns_take h hl p).1
  rw [mappages, page_turns, PGROUNDDOWN_page]
  refine wp_seq (wp_also (half_walkpgdir hown hx)
    (wp_mono (wp_walkpgdir hown hx) (fun _ _ => trivial) fun _ _ => id)) ?_
  rintro _ s₁ ⟨hs₁, hext, pt, rfl, hpt⟩
  rw [wp_bind]
  refine wp_entry ?_
  split
  next => trivial
  next =>
  rw [wp_bind]
  refine wp_setEntry (((half_take h hl p).trans hs₁).trans ?_)
  rw [PTX_page]
  exact half_put hext.owns hx rfl hpt _

/-- The kernel's half of a top-level table is as `setupkvm` makes it. -/
def KernelHalf (s : Mem) (r : Nat) : Prop := ∀ i : Index, 256 ≤ i.val →
  s.page r i = if i.val = 256 then ⟨s.kpdpt, true, true, false⟩ else .zero

theorem half_setupkvm : setupkvm.wp (fun _ => True)
    (fun o s' => ∀ d, o = some d → KernelHalf s' d) s := by
  rw [setupkvm, wp_bind, kalloc, wp_bind, wp_gets]
  cases s.freelist with
  | nil => trivial
  | cons f l =>
    rw [wp_bind, wp_modify, wp_pure]
    rw [wp_bind]
    refine wp_fill ?_
    rw [wp_bind, wp_gets, wp_bind]
    refine wp_setEntry fun d hd i _ => ?_
    cases hd
    by_cases hi : i = Fin.ofNat _ 256
    · simp only [hi, Mem.put, update_self]
      rfl
    · have hval : i.val ≠ 256 := fun hval => hi (Fin.ext hval)
      simp only [Mem.put, update_self, update_of_ne hi, if_neg hval]

theorem Keeps.leaf_eq (h : Keeps (pgs s r) s s') : leaf s' r x = leaf s r x := by
  rw [leaf, leaf, h.lookup_eq]
  cases hpt : lookup s r (node x 3) with
  | none => rfl
  | some pt => rw [Option.map_some, Option.map_some, h.page pt (mem_pgs_of_lookup hpt)]

end

/-! ## The copies -/

/-- The user page `y` of the table `d` is a copy of that of the table `r`, in a page that was free. -/
def CopiedPage (s t : Ram) (r d y : Nat) : Prop :=
  ∃ e f, leaf s.mem r y = some e ∧ e.p = true ∧ leaf t.mem d y = some { e with ppn := f } ∧
    f ∈ s.mem.freelist ∧ ∀ o, t.data (f, o) = s.data (e.ppn, o)

section
variable {s t : Ram} {R : Multiset Nat} {r d c n sz : Nat}

theorem wp_copyPage {f g : Nat} {E : Fault × Ram → Prop} {Q : Unit → Ram → Prop}
    (hQ : Q () { s with
      mem := { s.mem with page := update s.mem.page f (s.mem.page g) }
      data := fun x => if x.1 = f then s.data (g, x.2) else s.data x
      wrote := f :: s.wrote }) : (Ram.copyPage f g).wp E Q s := by
  rw [Ram.copyPage, wp_bind, Ram.wp_inMem, wp_modify, setAt_eq_update]
  exact hQ

theorem wp_copyLoop_bytes (h : Owns s.mem (pgs s.mem d + R)) (hr : pgs s.mem r ≤ R)
    (hpages : ∀ y, c ≤ y → y < c + n → lookup s.mem r (node y 4) ≠ none) (hle : c + n ≤ USERPAGES)
    (hnone : ∀ y < USERPAGES, c ≤ y → lookup s.mem d (node y 4) = none) :
    (Ram.copyLoop r d n (c * PGSIZE)).wp
      (fun e => e.1 = oom ∧ s.mem.freelist.length < absent s.mem d (span c (c + n)))
      (fun o t => o = some d ∧ Extends d R (span c (c + n)) s.mem t.mem ∧ Ram.Grows s t ∧
        SameHalf d s.mem t.mem ∧ ∀ y, c ≤ y → y < c + n → CopiedPage s t r d y) s := by
  induction n generalizing s c with
  | zero =>
    rw [Nat.add_zero, span_self]
    exact ⟨rfl, .refl h (by simp), .refl, .refl, fun y hy hlt => absurd hlt (Nat.not_lt.mpr hy)⟩
  | succ n ih =>
    have hx : c < USERPAGES := by omega
    have hpage := hpages c (Nat.le_refl c) (by omega)
    rw [lookup_eq_leaf hx] at hpage
    rw [span_succ, Ram.copyLoop, wp_bind, Ram.walkpgdir, if_pos (by rfl), Ram.wp_inMem,
      wp_of_eq_ok (walkpgdir_false hx)]
    cases hpt : lookup s.mem r (node c 3) with
    | none =>
      rw [leaf, hpt] at hpage
      exact absurd rfl hpage
    | some pt =>
    have hleaf : leaf s.mem r c = some (s.mem.page pt (PTX (c * PGSIZE))) := by
      rw [leaf, hpt, Option.map_some]
    generalize he : s.mem.page pt (PTX (c * PGSIZE)) = e at hleaf
    have hp : e.p = true := by
      by_contra hp
      rw [hleaf, Option.bind_some, if_neg hp] at hpage
      exact hpage rfl
    rw [Option.map_some]
    dsimp only
    rw [wp_bind, Ram.wp_inMem]
    refine wp_entry ?_
    rw [he, hp, Bool.not_true, if_neg Bool.false_ne_true, wp_bind]
    refine Ram.wp_kalloc (fun hnil => ⟨rfl, ?_⟩) fun f l hl => ?_
    · rw [hnil]
      exact absent_pos (hnone c hx le_rfl)
    dsimp only
    rw [wp_bind]
    refine wp_copyPage ?_
    let s₁ : Ram := ⟨s.mem.take f l (s.mem.page e.ppn),
      fun x => if x.1 = f then s.data (e.ppn, x.2) else s.data x, f :: s.taken, f :: s.wrote⟩
    have hgrows₁ : Ram.Grows s s₁ := .take hl fun p hp o => if_neg hp
    -- what `mappages` does to the tables, to other entries, and to the kernel's half
    have hhalf : (Ram.mappages d (c * PGSIZE) PGSIZE f e.w e.u).wp (fun _ => True)
        (fun _ t => SameHalf d s.mem t.mem) s₁ :=
      wp_imp (Ram.sim_mappages.wp (E := fun _ => True) trivial
        (half_mappages h hl hx _ e.w e.u)) fun _ _ => And.left
    have hmap : (Ram.mappages d (c * PGSIZE) PGSIZE f e.w e.u).wp _ _ s₁ := wp_also
      (wp_also
        (Ram.sim_mappages.wp trivial (wp_mappages_leaf h hl hx (hnone c hx le_rfl) _ e.w e.u))
        Ram.grows_mappages) hhalf
    rw [wp_bind]
    refine wp_mono hmap (fun e he => ⟨he.1, he.2.trans_le absent_le_union⟩) ?_
    rintro _ s₂ ⟨⟨⟨⟨rfl, hext, hleaf₂⟩, -⟩, hgrows₂, -⟩, hhalf₂⟩
    have hgrows := hgrows₁.trans hgrows₂
    have hkeeps : Keeps (pgs s.mem r) s.mem s₂.mem := hext.keeps.mono hr
    rw [if_neg (by decide), show c * PGSIZE + PGSIZE = (c + 1) * PGSIZE by rw [Nat.succ_mul]]
    refine wp_mono (ih (c := c + 1) hext.owns (by rwa [hkeeps.pgs_eq]) (fun y hy hlt => ?_)
      (by omega) (hext.none_above hx hnone)) (fun e he => ⟨he.1, hext.absent_le he.2⟩) ?_
    · rw [hkeeps.lookup_eq]
      exact hpages y (by omega) (by omega)
    · rintro _ t ⟨rfl, hext', hgrows', hhalf', hpages'⟩
      refine ⟨rfl, hext.trans hext', hgrows.trans hgrows', hhalf₂.trans hhalf', fun y hy hlt => ?_⟩
      have hold : ∀ p ∈ pgs s.mem r, ∀ o, s₂.data (p, o) = s.data (p, o) := fun p hp =>
        hgrows.data p (h.not_free (Multiset.mem_add.mpr (.inr (Multiset.mem_of_le hr hp))))
      rcases Nat.eq_or_lt_of_le hy with rfl | hcy
      · -- the page of this turn is not free any more
        have hmem : f ∈ s.mem.freelist := by
          rw [hl]
          exact List.mem_cons_self
        have hf₁ : f ∉ l := by
          have hnodup := (Multiset.nodup_add.mp h.nodup).1
          rw [hl] at hnodup
          exact (List.nodup_cons.mp (Multiset.coe_nodup.mp hnodup)).1
        have hf₂ : f ∉ s₂.mem.freelist := fun hf => hf₁ (hgrows₂.free.subset hf)
        refine ⟨e, f, hleaf, hp, ?_, hmem, fun o => ?_⟩
        · rw [hgrows'.leaf hext.owns hext' hleaf₂ rfl, hp]
        · rw [hgrows'.data f hf₂, hgrows₂.data f hf₁]
          exact if_pos rfl
      · obtain ⟨e', g, hleaf', hp', hcopy, hfree, hbytes⟩ := hpages' y hcy (by omega)
        rw [hkeeps.leaf_eq] at hleaf'
        refine ⟨e', g, hleaf', hp', hcopy, hgrows.free.subset hfree, fun o => ?_⟩
        rw [hbytes o, hold]
        refine mem_pgs_of_lookup (σ := node y 4) ?_
        rw [lookup_eq_leaf (by omega), hleaf', Option.bind_some, if_pos hp']

theorem wp_copyuvm_bytes (h : Owns s.mem R) (hr : pgs s.mem r ≤ R) (hsz : sz < PHYSTOP)
    (hpages : ∀ y, 1 ≤ y → y < npages sz → lookup s.mem r (node y 4) ≠ none) :
    (Ram.copyuvm r sz).wp
      (fun e => e.1 = oom ∧ s.mem.freelist.length < 1 + (span 1 (npages sz)).card)
      (fun o t => ∃ d, o = some d ∧ Owns t.mem (pgs t.mem d + R) ∧ Keeps R s.mem t.mem ∧
        Ram.Grows s t ∧ Mapped t.mem d (npages sz) ∧ KernelHalf t.mem d ∧
        (∀ y, 1 ≤ y → y < npages sz → CopiedPage s t r d y) ∧
        t.mem.freelist.length + (1 + (span 1 (npages sz)).card) = s.mem.freelist.length) s := by
  have hphys : PHYSTOP = 234881024 := rfl
  have hnp : npages sz = (sz + 4095) / 4096 := rfl
  have husers : USERPAGES = 34359738368 := rfl
  have huint : sz % 2 ^ 32 = sz := Nat.mod_eq_of_lt (by omega)
  have hcount : 1 + ((sz + (PGSIZE - 1)) / PGSIZE - 1) = max 1 (npages sz) := by
    show 1 + ((sz + 4095) / 4096 - 1) = _
    omega
  have hspan : span 1 (max 1 (npages sz)) = span 1 (npages sz) := by
    rcases Nat.lt_or_ge 1 (npages sz) with hlt | hle
    · rw [max_eq_right hlt.le]
    · rw [max_eq_left hle, span_self, span, Finset.Ico_eq_empty (by omega), Finset.biUnion_empty]
  have hsetup : Ram.setupkvm.wp _ _ s := wp_also
    (wp_also (Ram.sim_setupkvm.wp trivial (wp_setupkvm h))
      (wp_mono Ram.builds_setupkvm (fun _ _ => trivial) fun _ _ ht => ht.1.toGrows))
    (wp_imp (Ram.sim_setupkvm.wp (E := fun _ => True) trivial half_setupkvm)
      fun _ _ => And.left)
  rw [Ram.copyuvm, huint, wp_bind]
  refine wp_mono hsetup (fun e he => ⟨he.1, ?_⟩) ?_
  · rw [he.2]
    exact Nat.add_pos_left Nat.zero_lt_one _
  rintro _ s₁ ⟨⟨⟨⟨d, rfl, howns, hkeeps, hfresh, hfree⟩, -⟩, hgrows⟩, hhalf⟩
  have hkeeps' : Keeps (pgs s.mem r) s.mem s₁.mem := hkeeps.mono hr
  have hnone (y : Nat) : lookup s₁.mem d (node y 4) = none := hfresh _ node_ne_nil
  have hloop := wp_copyLoop_bytes (c := 1) (n := (sz + (PGSIZE - 1)) / PGSIZE - 1) howns
    (by rwa [hkeeps'.pgs_eq]) (fun y hy hlt => ?_) (by omega) fun y _ _ => hnone y
  swap
  · rw [hkeeps'.lookup_eq]
    exact hpages y hy (by omega)
  rw [hcount, hspan, absent_span_of_fresh hfresh] at hloop
  refine wp_mono hloop (fun e he => ⟨he.1, by omega⟩) ?_
  rintro _ t ⟨rfl, hext, hgrows', hhalf', hcopied⟩
  have hfree' := hext.free
  rw [absent_span_of_fresh hfresh] at hfree'
  refine ⟨d, rfl, hext.owns, hkeeps.trans hext.keeps, hgrows.trans hgrows', fun y hy => ?_,
    fun i hi => ?_, fun y hy hlt => ?_, by omega⟩
  · rw [hext.dom, hnone, node_mem_span (by omega) hy]
    simp only [ne_eq, not_true_eq_false, false_or]
  · rw [hhalf' i hi, hhalf d rfl i hi, hext.keeps.kpdpt]
  · obtain ⟨e, f, hleaf, hp, hcopy, hmem, hbytes⟩ := hcopied y hy (by omega)
    rw [hkeeps'.leaf_eq] at hleaf
    refine ⟨e, f, hleaf, hp, hcopy, hgrows.free.subset hmem, fun o => ?_⟩
    rw [hbytes o]
    refine hgrows.data _ (h.not_free (Multiset.mem_of_le hr (mem_pgs_of_lookup (σ := node y 4) ?_))) o
    rw [lookup_eq_leaf (by omega), hleaf, Option.bind_some, if_pos hp]

end

/-- The page table `d` in the memory `t` is a copy of `r` in the memory `s`, of `sz` bytes: the pages
have the flags and the bytes of those of `r`, and are distinct pages that were free; there are no other
user pages; the kernel's half is the same; and `r` and its pages are as they were. -/
structure Copies (s t : Ram) (r d sz : Nat) : Prop where
  page : ∀ va, PGSIZE ≤ va → va < sz → ∃ e f, pteOf s.mem r va = some e ∧
    pteOf t.mem d va = some { e with ppn := f } ∧ f ∈ s.mem.freelist ∧
    ∀ o, t.data (f, o) = s.data (e.ppn, o)
  distinct : ∀ va < 2 ^ 47, ∀ vb < 2 ^ 47, present t.mem d va = true → present t.mem d vb = true →
    va / PGSIZE ≠ vb / PGSIZE → (spot t.mem d va).1 ≠ (spot t.mem d vb).1
  apart : ∀ va < 2 ^ 47, ∀ vb < 2 ^ 47, present t.mem d va = true → present t.mem r vb = true →
    (spot t.mem d va).1 ≠ (spot t.mem r vb).1
  only : ∀ va < 2 ^ 47, present t.mem d va = true → PGSIZE ≤ va ∧ va < PGROUNDUP sz
  kernel : ∀ i : Index, 256 ≤ i.val → t.mem.page d i = t.mem.page r i
  parent : ∀ p ∈ pgs s.mem r, t.mem.page p = s.mem.page p ∧ ∀ o, t.data (p, o) = s.data (p, o)

section
variable {s : Mem} {r va : Nat}

theorem lookup_of_present (hva : va < 2 ^ 47) (h : present s r va = true) :
    lookup s r (node (va / PGSIZE) 4) = some (spot s r va).1 := by
  have hx : va / PGSIZE < USERPAGES := by
    show va / 4096 < 2 ^ 35
    omega
  rw [present, pteOf_eq_leaf hva] at h
  rw [lookup_eq_leaf hx, spot, pteOf_eq_leaf hva]
  cases hleaf : leaf s r (va / PGSIZE) with
  | none =>
    rw [hleaf] at h
    cases h
  | some e =>
    rw [hleaf, Option.any_some] at h
    simp only [Option.bind_some, if_pos h, Option.map_some, Option.getD_some]

end

/-- What is known of a process with one page, made of the last pages of memory. -/
theorem owns_onePage {n d : Nat} {s : Ram} (hn : n ≤ PHYSTOP / PGSIZE)
    (h : onePage (lastPages n) = .ok (some d, s)) : Owns s.mem (pgs s.mem d) := by
  have howns : Owns (lastPages n).mem 0 := by
    rw [Owns, add_zero]
    change (List.range' (PHYSTOP / PGSIZE - n) n : Multiset Nat) = all (PHYSTOP / PGSIZE - n)
    rw [all, Nat.Ico_eq_range', Nat.sub_sub_self hn]
  have hwp : onePage.wp (fun _ => True) (fun o s => ∀ d, o = some d → Owns s.mem (pgs s.mem d))
      (lastPages n) := by
    rw [onePage, wp_bind]
    refine wp_mono (Ram.sim_setupkvm.wp trivial (wp_setupkvm howns)) (fun _ _ => trivial) ?_
    rintro _ s₁ ⟨⟨d, rfl, howns₁, -, hfresh, -⟩, -⟩
    have hmapped : Mapped s₁.mem d (npages PGSIZE) := by
      intro y _
      rw [hfresh _ node_ne_nil]
      simp only [ne_eq, not_true_eq_false, false_iff]
      have : npages PGSIZE = 1 := rfl
      omega
    dsimp only
    rw [wp_bind]
    refine wp_mono (Ram.sim_allocuvm.wp trivial (wp_allocuvm howns₁ hmapped (by decide) _))
      (fun _ _ => trivial) ?_
    rintro _ s₂ ⟨⟨hext, -⟩, -⟩ d' hd'
    cases hd'
    have := hext.owns
    rwa [add_zero] at this
  exact wp_ok hwp h d rfl

theorem present_of_one {m : Mem} {d : Nat} (h : present m d PGSIZE = true) (va : Nat)
    (hle : PGSIZE ≤ va) (hlt : va < 2 * PGSIZE) : present m d va = true := by
  have hpage : va / PGSIZE = PGSIZE / PGSIZE := by
    simp only [PGSIZE] at *
    omega
  rw [present, pteOf_congr hpage]
  exact h

end Xv6.Vm
