import Xv6.Vm.Contents

/-!
# Building an address space

`exec` takes pages for a new page table, for the tables below it and for user pages, and writes to
those only (`Ram.Builds`). `Ram.Space` says what it has got so far: the user pages from 1 on.
-/

namespace Xv6.Vm.Ram

/-- The pages of the page table were taken. -/
def Mine (s : Ram) (d : Nat) : Prop := ∀ p ∈ pgs s.mem d, p ∈ s.taken

section
variable {s t : Ram} {R : Multiset Nat} {X : Finset (List Index)} {d f x j k pt : Nat} {i : Index}

theorem Grows.mine (h : Grows s t) (howns : Owns s.mem (pgs s.mem d + R))
    (hext : Extends d R X s.mem t.mem) (hm : Mine s d) : Mine t d := by
  intro p hp
  have hpt : p ∈ pgs t.mem d + R := Multiset.mem_add.mpr (.inl hp)
  have hall : p ∈ (↑s.mem.freelist + (pgs s.mem d + R) : Multiset Nat) := by
    rw [howns, ← hext.keeps.first, ← hext.owns]
    exact Multiset.mem_add.mpr (.inr hpt)
  rcases Multiset.mem_add.mp hall with hfree | hused
  · exact (h.gone p hfree).resolve_left (hext.owns.not_free hpt)
  · rcases Multiset.mem_add.mp hused with hold | hR
    · exact h.taken (hm p hold)
    · exact absurd hR (Multiset.disjoint_left.mp (Multiset.nodup_add.mp hext.owns.nodup_right).2.2 hp)

theorem builds_walkEntry (h : Owns s.mem (pgs s.mem d + R)) (hm : Mine s d) (hx : x < USERPAGES)
    (hk : 4 = j + (k + 1)) (ht : lookup s.mem d (node x j) = some f) :
    (walkEntry f (Fin.ofNat _ (x / NPDENTRIES ^ k))).wp (fun e => e.2 = s)
      (fun o t => Builds s t ∧ Owns t.mem (pgs t.mem d + R) ∧ Mine t d ∧
        ∃ g, o = some g ∧ lookup t.mem d (node x (j + 1)) = some g) s := by
  have hbuilds : (walkEntry f (Fin.ofNat _ (x / NPDENTRIES ^ k))).wp (fun e => e.2 = s)
      (fun _ t => Builds s t) s :=
    wp_walkEntry (fun _ => .refl) (fun _ => rfl) fun g l hl hp => (Builds.cleared hl).trans
      (.put hp (List.mem_cons_of_mem _ (hm f (mem_pgs_of_lookup ht))) rfl)
  have hlink := wp_mono (sim_walkEntry.wp trivial (Vm.wp_walkEntry h hx hk ht))
    (fun _ _ => trivial) fun _ _ => And.left
  refine wp_imp (wp_also hbuilds hlink) fun o t ⟨ht, hext, hg⟩ => ?_
  exact ⟨ht, hext.owns, ht.mine h hext hm, hg⟩

theorem builds_walkpgdir (h : Owns s.mem (pgs s.mem d + R)) (hm : Mine s d) (hx : x < USERPAGES) :
    (walkpgdir d (x * PGSIZE) true).wp (fun e => Builds s e.2)
      (fun o t => Builds s t ∧ ∀ pt i, o = some (pt, i) → pt ∈ t.taken) s := by
  rw [walkpgdir, if_neg (by decide), PMX_page, PDPX_page, PDX_page, wp_bind]
  refine wp_mono (builds_walkEntry h hm hx (j := 0) rfl lookup_node_zero)
    (fun e he => by rw [he]; exact .refl) ?_
  rintro _ s₁ ⟨hb₁, h₁, hm₁, pdp, rfl, hpdp⟩
  dsimp only
  rw [wp_bind]
  refine wp_mono (builds_walkEntry h₁ hm₁ hx (j := 1) rfl hpdp)
    (fun e he => by rw [he]; exact hb₁) ?_
  rintro _ s₂ ⟨hb₂, h₂, hm₂, pd, rfl, hpd⟩
  dsimp only
  rw [wp_bind]
  refine wp_mono (builds_walkEntry h₂ hm₂ hx (j := 2) rfl hpd)
    (fun e he => by rw [he]; exact hb₁.trans hb₂) ?_
  rintro _ s₃ ⟨hb₃, h₃, hm₃, pt, rfl, hpt⟩
  refine ⟨(hb₁.trans hb₂).trans hb₃, fun pt' i heq => ?_⟩
  cases heq
  exact hm₃ pt (mem_pgs_of_lookup hpt)

theorem builds_mappages (h : Owns s.mem (pgs s.mem d + R)) (hm : Mine s d) (hx : x < USERPAGES)
    {w u : Bool} : (mappages d (x * PGSIZE) PGSIZE f w u).wp (fun e => Builds s e.2)
      (fun _ t => Builds s t) s := by
  rw [mappages, page_turns, PGROUNDDOWN_page, mapLoop, wp_bind]
  refine wp_imp (builds_walkpgdir h hm hx) ?_
  rintro o s₁ ⟨hb₁, ho⟩
  cases o with
  | none => exact hb₁
  | some y =>
  obtain ⟨pt, i⟩ := y
  rw [wp_bind, wp_inMem]
  refine wp_entry ?_
  split
  next => exact hb₁
  next hp =>
  rw [wp_bind]
  refine wp_setEntry ?_
  exact hb₁.trans (.put (Bool.eq_false_of_not_eq_true hp) (ho pt i rfl) rfl)

theorem builds_allocLoop {c n oldsz newsz : Nat} (h : Owns s.mem (pgs s.mem d + R)) (hm : Mine s d)
    (hc : c + s.mem.freelist.length < USERPAGES)
    (hnone : ∀ y < USERPAGES, c ≤ y → lookup s.mem d (node y 4) = none) :
    (allocLoop d oldsz newsz n (c * PGSIZE)).wp (fun e => Builds s e.2) (fun _ t => Builds s t) s := by
  induction n generalizing s c with
  | zero => exact .refl
  | succ n ih =>
    have hx : c < USERPAGES := by omega
    rw [allocLoop, wp_bind]
    refine wp_kalloc (fun _ => .refl) fun f l hl => ?_
    dsimp only
    rw [wp_bind]
    refine wp_fill ?_
    have hclear : Builds s (s.cleared f l) := .cleared hl
    obtain ⟨howns₁, hkeeps₁⟩ := owns_take h hl fun _ => .zero
    have hmine₁ : Mine (s.cleared f l) d := by
      intro p hp
      rw [cleared, (hkeeps₁.mono (Multiset.le_add_right _ _)).pgs_eq] at hp
      exact hclear.taken (hm p hp)
    rw [wp_bind]
    -- what `mappages` does to the tables, and to other pages
    have hmap : (mappages d (c * PGSIZE) PGSIZE f true true).wp _ _ (s.cleared f l) := Prog.wp_and
      (sim_mappages.wp trivial (wp_mappages h hl hx (hnone c hx le_rfl) (fun _ => .zero) true true))
      (builds_mappages howns₁ hmine₁ hx)
    refine wp_mono hmap (fun e he => hclear.trans he.2) ?_
    rintro _ s₁ ⟨⟨⟨rfl, hext⟩, -⟩, hb₁⟩
    have hb : Builds s s₁ := hclear.trans hb₁
    have hfree := hext.free
    rw [absent_nodes (hnone c hx le_rfl)] at hfree
    rw [if_neg (by decide), show c * PGSIZE + PGSIZE = (c + 1) * PGSIZE by rw [Nat.succ_mul]]
    exact wp_mono (ih hext.owns (hb.mine h hext hm) (by omega) (hext.none_above hx hnone))
      (fun _ => hb.trans) fun _ _ => hb.trans

end

/-- The address space of the page table `d` so far: the user pages from 1 up to `n`, in pages that were
taken. -/
structure Space (R : Multiset Nat) (d n : Nat) (s : Ram) : Prop where
  first : 0 < s.mem.first
  owns : Owns s.mem (pgs s.mem d + R)
  users : n ≤ USERPAGES
  whole : Whole s.mem d n
  mine : Mine s d
  zeroed : Zeroed s

section
variable {s t : Ram} {R : Multiset Nat} {d n oldsz newsz : Nat}

theorem Space.congr (h : Space R d n s) (hmem : t.mem = s.mem) (htaken : t.taken = s.taken) :
    Space R d n t := by
  obtain ⟨hfirst, howns, husers, hwhole, hmine, hzeroed⟩ := h
  unfold Mine at hmine
  unfold Zeroed at hzeroed
  rw [← hmem] at hfirst howns hwhole hmine hzeroed
  rw [← htaken] at hmine hzeroed
  exact ⟨hfirst, howns, husers, hwhole, hmine, hzeroed⟩

theorem Space.mapped (h : Space R d n s) : Mapped s.mem d n := h.whole.mapped h.users

theorem ne_nil_of_mem_span {a b : Nat} {σ : List Index} (h : σ ∈ span a b) : σ ≠ [] := by
  rintro rfl
  simp only [span, nodes, tables, Finset.mem_biUnion, Finset.mem_insert, Finset.mem_singleton] at h
  obtain ⟨y, -, h⟩ := h
  rcases h with h | h | h | h <;> simpa using congrArg List.length h

/-- The pages and tables that are there and those that are missing. -/
theorem Space.absent_add (h : Space R d n s) (hn : 1 ≤ n) {m : Nat} (hm : n ≤ m) :
    absent s.mem d (span n m) + (span 1 n).card = (span 1 m).card := by
  have hmissing : (span n m).filter (fun σ => lookup s.mem d σ = none) = span n m \ span 1 n := by
    ext σ
    simp only [Finset.mem_filter, Finset.mem_sdiff]
    refine and_congr_right fun hσ => ?_
    rw [← h.whole σ (ne_nil_of_mem_span hσ), not_not]
  rw [absent, hmissing, Finset.card_sdiff_add_card, Finset.union_comm, span_append hn hm]

theorem Space.builds_allocuvm (h : Space R d (npages oldsz) s) :
    (allocuvm d oldsz newsz).wp (fun e => Builds s e.2) (fun _ t => Builds s t) s := by
  have hbound : npages oldsz + s.mem.freelist.length ≤ 57345 := h.mapped.bound h.owns
  have husers : 57345 < USERPAGES := by decide
  unfold allocuvm
  by_cases hkern : KERNBASE ≤ newsz
  · rw [if_pos hkern]
    exact .refl
  by_cases hlt : newsz < oldsz
  · rw [if_neg hkern, if_pos hlt]
    exact .refl
  rw [if_neg hkern, if_neg hlt]
  dsimp only
  rw [PGROUNDUP_of_lt (by omega)]
  refine builds_allocLoop h.owns h.mine (by omega) fun y hy hle => ?_
  refine not_not.mp (mt (h.mapped y hy).mp ?_)
  omega

theorem Space.wp_allocuvm (h : Space R d (npages oldsz) s) (hpos : 0 < oldsz) (newsz : Nat) :
    (allocuvm d oldsz newsz).wp
      (fun e => s.mem.freelist.length <
        absent s.mem d (span (npages oldsz) (npages (grown oldsz newsz))) ∧ Builds s e.2)
      (fun o t => o = (if KERNBASE ≤ newsz then 0 else grown oldsz newsz) ∧
        Extends d R (span (npages oldsz) (npages (grown oldsz newsz))) s.mem t.mem ∧ Builds s t ∧
        Space R d (npages (grown oldsz newsz)) t) s := by
  refine wp_mono (Prog.wp_and (sim_allocuvm.wp trivial (Vm.wp_allocuvm h.owns h.mapped hpos newsz))
    h.builds_allocuvm) (fun e ⟨he, hb⟩ => ⟨he.2, hb⟩) ?_
  rintro o t ⟨⟨⟨hext, ho, hmapped⟩, -⟩, hb⟩
  refine ⟨ho, hext, hb, ?_, hext.owns, (hmapped.le hext.owns).trans (by decide), ?_,
    hb.mine h.owns hext h.mine, hb.zeroed h.zeroed⟩
  · rw [hext.keeps.first]
    exact h.first
  · exact h.whole.extend hext (npages_pos hpos) (npages_mono (le_grown ..))

theorem wp_setupkvm_space (h : Owns s.mem R) (hfirst : 0 < s.mem.first) (hz : Zeroed s) :
    setupkvm.wp (fun e => e.2 = s ∧ s.mem.freelist = [])
      (fun o t => ∃ d, o = some d ∧ Space R d 1 t ∧ Builds s t ∧
        t.mem.freelist.length + 1 = s.mem.freelist.length) s := by
  refine wp_mono (Prog.wp_and (sim_setupkvm.wp trivial (wp_setupkvm h)) builds_setupkvm)
    (fun e ⟨he, ht⟩ => ⟨ht, he.2⟩) ?_
  rintro _ t ⟨⟨⟨d, rfl, howns, hkeeps, hfresh, hfree⟩, -⟩, hb, hd⟩
  refine ⟨d, rfl, ⟨?_, howns, by decide, fun σ hσ => ?_, ?_, hb.zeroed hz⟩, hb, hfree⟩
  · rw [hkeeps.first]
    exact hfirst
  · rw [hfresh σ hσ, span_self]
    simp
  · intro p hp
    have hlinks (i : Index) : links t.mem.page 3 d i = none := by
      have hone := hfresh [i] (List.cons_ne_nil _ _)
      rw [← List.nil_append [i], lookup_append (k := 3) rfl, lookup, Radix.find_nil,
        Option.bind_some] at hone
      exact hone
    rw [pgs, Radix.pages_eq_singleton hlinks, Multiset.mem_singleton] at hp
    rw [hp]
    exact hd d rfl

end

end Xv6.Vm.Ram
