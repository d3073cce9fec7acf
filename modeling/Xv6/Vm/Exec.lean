import Xv6.Vm.Kernel
import Xv6.Vm.Uvm

/-!
# The memory of a new program

How far `exec` gets with an image depends on the image alone, as long as there are free pages
(`execReach`, `execTop`); with that, the page table that it builds, and the number of pages that it
takes, are known (`wp_execImage`).
-/

namespace Xv6.Vm

variable {s s' : Mem} {R : Multiset Nat} {r d f : Nat} {E : Fault → Prop} {im : Image}

/-- The page table has the user pages from 1 up to `n`, and the tables for them only. -/
def Whole (s : Mem) (d n : Nat) : Prop := ∀ σ ≠ [], lookup s d σ ≠ none ↔ σ ∈ span 1 n

section
variable {n m : Nat}

theorem node_ne_nil {x k : Nat} : node x (k + 1) ≠ [] := by
  intro h
  simpa using congrArg List.length h

theorem Whole.mapped (h : Whole s d n) (hn : n ≤ USERPAGES) : Mapped s d n := by
  intro y hy
  rw [h _ node_ne_nil, node_mem_span hn hy]

theorem Whole.extend (h : Whole s d n) (hext : Extends d R (span n m) s s') (hn : 1 ≤ n)
    (hnm : n ≤ m) : Whole s' d m := by
  intro σ hσ
  rw [hext.dom, h σ hσ, ← Finset.mem_union, span_append hn hnm]

theorem node_zero_mem_span : node 0 3 ∈ span 1 n ↔ 2 ≤ n := by
  constructor
  · intro h
    by_contra hn
    rw [span, Finset.Ico_eq_empty (by omega)] at h
    simp at h
  · intro hn
    refine Finset.mem_biUnion.mpr ⟨1, Finset.mem_Ico.mpr ⟨le_rfl, hn⟩, ?_⟩
    have hnode : node 0 3 = node 1 3 := by decide
    simp [hnode, nodes, tables]

end

/-! ## Loading -/

/-- `loaduvm` finds no page table for the address of the segment `ph`, in a process of `n` pages. -/
def Proghdr.unmapped (ph : Proghdr) (n : Nat) : Bool := ph.vaddr = 0 && 0 < ph.filesz && n ≤ 1

/-- `readi` gets all pages of the segment. -/
def loads (load : Nat → Bool) (filesz : Nat) : Bool :=
  (List.range (npages (filesz % 2 ^ 32))).all load

theorem loadLoop_ok {load : Nat → Bool} {v n k : Nat}
    (h : ∀ j < k + n, v + j < USERPAGES ∧ lookup s d (node (v + j) 3) ≠ none) :
    Prog.wp (loadLoop d load (v * PGSIZE) n k) E
      (fun o s' => s' = s ∧ (o < 0 ↔ ((List.range' k n).all load) = false)) s := by
  induction n generalizing k with
  | zero => exact ⟨rfl, by simp⟩
  | succ n ih =>
    obtain ⟨hx, hpt⟩ := h k (by omega)
    obtain ⟨pt, hpt⟩ := Option.ne_none_iff_exists'.mp hpt
    rw [loadLoop, wp_bind, ← Nat.add_mul, wp_of_eq_ok (walkpgdir_false hx), hpt]
    cases hl : load k with
    | false =>
      exact ⟨rfl, by simp [List.range'_succ, hl]⟩
    | true =>
      refine wp_imp (ih fun j hj => h j (by omega)) fun o s' ⟨hs', ho⟩ => ⟨hs', ?_⟩
      rw [ho, List.range'_succ, List.all_cons, hl, Bool.true_and]

theorem wp_loaduvm {ph : Proghdr} {n : Nat} {load : Nat → Bool} (hw : Whole s d n)
    (hn : n ≤ USERPAGES) (halign : ph.vaddr.toNat % PGSIZE = 0)
    (hsz : npages (ph.vaddr.toNat + ph.filesz.toNat) ≤ n) :
    Prog.wp (loaduvm d ph.vaddr.toNat load ph.filesz.toNat)
      (fun e => e = .panic "loaduvm: address should exist" ∧ ph.unmapped n = true)
      (fun o s' => s' = s ∧ (o < 0 ↔ loads load ph.filesz.toNat = false) ∧ ph.unmapped n = false)
      s := by
  obtain ⟨v, hv⟩ := Nat.dvd_of_mod_eq_zero halign
  rw [Nat.mul_comm] at hv
  have hpages : npages ph.filesz.toNat + v ≤ n := by
    refine le_of_eq_of_le ?_ hsz
    show (ph.filesz.toNat + 4095) / 4096 + v = (ph.vaddr.toNat + ph.filesz.toNat + 4095) / 4096
    have hv : ph.vaddr.toNat = v * 4096 := hv
    omega
  have hle : npages (ph.filesz.toNat % 2 ^ 32) ≤ npages ph.filesz.toNat :=
    npages_mono (Nat.mod_le _ _)
  have htable (x : Nat) (hx : 1 ≤ x) (hxn : x < n) : lookup s d (node x 3) ≠ none := by
    refine (hw _ node_ne_nil).mpr (Finset.mem_biUnion.mpr ⟨x, Finset.mem_Ico.mpr ⟨hx, hxn⟩, ?_⟩)
    simp [nodes, tables]
  have hzero : lookup s d (node 0 3) ≠ none ↔ 2 ≤ n := by
    rw [hw _ node_ne_nil, node_zero_mem_span]
  unfold loaduvm
  rw [if_neg (not_not.mpr halign)]
  cases hun : ph.unmapped n with
  | true =>
    -- the first turn of the loop finds no table
    simp only [Proghdr.unmapped, Bool.and_eq_true, decide_eq_true_eq] at hun
    obtain ⟨⟨hv0, hfile⟩, hn1⟩ := hun
    have hfile : 0 < ph.filesz.toNat := hfile
    have hv0 : ph.vaddr.toNat = 0 := by rw [hv0]; rfl
    obtain ⟨m, hm⟩ : ∃ m, (ph.filesz.toNat % 2 ^ 32 + (PGSIZE - 1)) / PGSIZE = m + 1 := by
      have hsmall : (ph.filesz.toNat + 4095) / 4096 + v ≤ n := hpages
      refine Nat.exists_eq_add_one_of_ne_zero ?_
      show (ph.filesz.toNat % 2 ^ 32 + 4095) / 4096 ≠ 0
      omega
    have hnone : lookup s d (node 0 3) = none := by
      refine not_not.mp (mt hzero.mp ?_)
      omega
    have hx : 0 < USERPAGES := by decide
    rw [hm, hv0, loadLoop, wp_bind, Nat.zero_add, wp_of_eq_ok (walkpgdir_false hx), hnone]
    exact ⟨rfl, rfl⟩
  | false =>
    rw [hv]
    refine wp_imp (loadLoop_ok fun j hj => ?_) fun o s' ho => ⟨ho.1, ?_, rfl⟩
    · have hj : j < npages (ph.filesz.toNat % 2 ^ 32) := by rwa [Nat.zero_add] at hj
      refine ⟨by omega, ?_⟩
      by_cases hvj : 1 ≤ v + j
      · exact htable _ hvj (by omega)
      · obtain ⟨rfl, rfl⟩ : v = 0 ∧ j = 0 := by omega
        refine hzero.mpr ?_
        have hfile : 0 < ph.filesz.toNat := by
          have hj : 0 < (ph.filesz.toNat % 2 ^ 32 + 4095) / 4096 := hj
          omega
        have hv0 : ph.vaddr = 0 := UInt64.toNat.inj (by rw [hv]; rfl)
        by_contra hn2
        have hfile : 0 < ph.filesz := hfile
        simp [Proghdr.unmapped, hv0, hfile] at hun
        omega
    · rw [ho.2, loads, List.range_eq_range']
      rfl

/-- The size that the loop of `exec` over the program headers reaches, and whether it gets to the
end. -/
def execReach (im : Image) : Nat → Nat → Nat → Nat × Bool
  | 0, _, sz => (sz, true)
  | n + 1, i, sz =>
    match im.ph i with
    | none => (sz, false)
    | some ph =>
      if ph.type ≠ ELF_PROG_LOAD then execReach im n (i + 1) sz
      else if ph.memsz < ph.filesz then (sz, false)
      else if ph.vaddr + ph.memsz < ph.vaddr then (sz, false)
      else if KERNBASE ≤ (ph.vaddr + ph.memsz).toNat then (sz, false)
      else
        let sz := max sz (ph.vaddr + ph.memsz).toNat
        if ph.vaddr.toNat % PGSIZE ≠ 0 then (sz, false)
        else if ph.unmapped (npages sz) then (sz, false)
        else if loads (im.load i) ph.filesz.toNat then execReach im n (i + 1) sz
        else (sz, false)

section
variable {n m i sz : Nat}

theorem le_execReach : sz ≤ (execReach im n i sz).1 := by
  induction n generalizing i sz with
  | zero => exact le_rfl
  | succ n ih =>
    rw [execReach]
    split
    next => exact le_rfl
    next =>
      dsimp only
      repeat' split
      all_goals first | exact le_rfl | exact le_max_left _ _ | exact ih | exact (le_max_left _ _).trans ih

theorem execReach_lt (hsz : sz < KERNBASE) : (execReach im n i sz).1 < KERNBASE := by
  induction n generalizing i sz with
  | zero => exact hsz
  | succ n ih =>
    rw [execReach]
    split
    next => exact hsz
    next =>
      dsimp only
      repeat' split
      all_goals first
        | exact hsz
        | exact ih hsz
        | exact max_lt hsz (not_le.mp ‹_›)
        | exact ih (max_lt hsz (not_le.mp ‹_›))

/-- The errors of a call that takes `need` pages: it runs out of them, or it stops for another reason,
which is possible if `P`. -/
def Needs (s : Mem) (need : Nat) (P : Prop) (e : Fault) : Prop :=
  e = oom ∧ s.freelist.length < need ∨ e ≠ oom ∧ need ≤ s.freelist.length ∧ P

theorem wp_extends_needs {α β : Type} {x : VmM α} {g : α → VmM β} {Q : α → Mem → Prop}
    {Q' : β → Mem → Prop} {X Y : Finset (List Index)} {P : Prop}
    (hx : Prog.wp x (fun e => e = oom ∧ s.freelist.length < absent s d X)
      (fun a s' => Extends d R X s s' ∧ Q a s') s)
    (hg : ∀ a s', Extends d R X s s' → Q a s' →
      Prog.wp (g a) (Needs s' (absent s' d Y) P) (fun b s'' => Extends d R Y s' s'' ∧ Q' b s'') s') :
    Prog.wp (x >>= g) (Needs s (absent s d (X ∪ Y)) P)
      (fun b s'' => Extends d R (X ∪ Y) s s'' ∧ Q' b s'') s := by
  rw [wp_bind]
  refine wp_mono hx (fun e he => .inl ⟨he.1, ?_⟩) fun a s' ⟨hext, ha⟩ => ?_
  · refine he.2.trans_le (Finset.card_le_card (Finset.filter_subset_filter _ ?_))
    exact Finset.subset_union_left
  · refine wp_mono (hg a s' hext ha) (fun e he => ?_) fun b s'' ⟨hext', hb⟩ =>
      ⟨hext.trans hext', hb⟩
    rcases he with ⟨he, hlt⟩ | ⟨he, hle, hP⟩
    · exact .inl ⟨he, hext.absent_le hlt⟩
    · refine .inr ⟨he, ?_, hP⟩
      rw [hext.absent_union, ← hext.free]
      omega

/-- The bytes of a segment that come from the file are in memory. -/
theorem npages_segment {ph : Proghdr} (hfile : ¬ph.memsz < ph.filesz)
    (hwrap : ¬ph.vaddr + ph.memsz < ph.vaddr) (hsz : (ph.vaddr + ph.memsz).toNat ≤ sz) :
    npages (ph.vaddr.toNat + ph.filesz.toNat) ≤ npages sz := by
  refine npages_mono (le_trans ?_ hsz)
  rw [UInt64.lt_iff_toNat_lt] at hfile hwrap
  rw [UInt64.toNat_add] at hwrap ⊢
  have hm := ph.memsz.toNat_lt
  omega

theorem wp_execLoad (h : Owns s (pgs s d + R)) (hw : Whole s d (npages sz)) (hpos : 0 < sz)
    (hsz : npages sz ≤ USERPAGES) (im : Image) (n i : Nat) :
    Prog.wp (execLoad im d n i sz)
      (Needs s (absent s d (span (npages sz) (npages (execReach im n i sz).1)))
        ((execReach im n i sz).2 = false))
      (fun o s' => Extends d R (span (npages sz) (npages (execReach im n i sz).1)) s s' ∧
        Whole s' d (npages (execReach im n i sz).1) ∧ npages (execReach im n i sz).1 ≤ USERPAGES ∧
        o = if (execReach im n i sz).2 then some (execReach im n i sz).1 else none) s := by
  have hsame : Extends d R (span (npages sz) (npages sz)) s s := by
    rw [span_self]
    exact .refl h (by simp)
  induction n generalizing s i sz with
  | zero => exact ⟨hsame, hw, hsz, rfl⟩
  | succ n ih =>
    rw [execLoad, execReach]
    cases him : im.ph i with
    | none => exact ⟨hsame, hw, hsz, rfl⟩
    | some ph =>
      dsimp only
      split
      next => exact ih h hw hpos hsz _ hsame
      next =>
      split
      next => exact ⟨hsame, hw, hsz, rfl⟩
      next hfile =>
      split
      next => exact ⟨hsame, hw, hsz, rfl⟩
      next hwrap =>
      by_cases hkern : KERNBASE ≤ (ph.vaddr + ph.memsz).toNat
      · rw [if_pos hkern, wp_bind]
        have halloc := wp_allocuvm h (hw.mapped hsz) hpos (ph.vaddr + ph.memsz).toNat
        rw [grown, if_pos hkern] at halloc
        refine wp_mono halloc (fun e he => .inl he) ?_
        rintro _ s₁ ⟨hext, rfl, -⟩
        rw [if_pos hkern, if_pos rfl]
        exact ⟨hext, hw.extend hext (npages_pos hpos) le_rfl, hsz, rfl⟩
      rw [if_neg hkern]
      have halloc := wp_allocuvm h (hw.mapped hsz) hpos (ph.vaddr + ph.memsz).toNat
      rw [grown, if_neg hkern] at halloc
      have hmax := le_max_left sz (ph.vaddr + ph.memsz).toNat
      have hseg := npages_segment hfile hwrap (le_max_right sz _)
      generalize max sz (ph.vaddr + ph.memsz).toNat = sz' at *
      generalize hX : (if ph.vaddr.toNat % PGSIZE ≠ 0 then (sz', false)
        else if ph.unmapped (npages sz') = true then (sz', false)
        else if loads (im.load i) ph.filesz.toNat = true then execReach im n (i + 1) sz'
        else (sz', false)) = X
      have hle : sz' ≤ X.1 := by
        rw [← hX]
        repeat' split
        all_goals first | exact le_rfl | exact le_execReach
      rw [← span_append (npages_mono hmax) (npages_mono hle)]
      refine wp_extends_needs halloc ?_
      rintro _ s₁ hext ⟨rfl, hm₁⟩
      have hw₁ := hw.extend hext (npages_pos hpos) (npages_mono hmax)
      have hbound := hm₁.bound hext.owns
      have husers : PHYSTOP / PGSIZE + 1 < USERPAGES := by decide
      have hsame₁ : Extends d R (span (npages sz') (npages sz')) s₁ s₁ := by
        rw [span_self]
        exact .refl hext.owns (by simp)
      have hsz₁ : npages sz' ≤ USERPAGES := by
        generalize PHYSTOP / PGSIZE = N at *
        omega
      rw [if_neg hkern, if_neg (by omega)]
      by_cases halign : ph.vaddr.toNat % PGSIZE ≠ 0
      · rw [if_pos halign] at hX ⊢
        subst hX
        exact ⟨hsame₁, hw₁, hsz₁, rfl⟩
      rw [if_neg halign] at hX ⊢
      rw [wp_bind]
      refine wp_mono (wp_loaduvm hw₁ hsz₁ (not_not.mp halign) hseg) ?_ ?_
      · rintro _ ⟨rfl, hun⟩
        rw [if_pos hun] at hX
        subst hX
        exact .inr ⟨by decide, Nat.le.intro ((Nat.add_comm ..).trans hsame₁.free), rfl⟩
      · rintro o _ ⟨rfl, ho, hun⟩
        rw [hun, if_neg Bool.false_ne_true] at hX
        split
        next hneg =>
          rw [ho.mp hneg, if_neg Bool.false_ne_true] at hX
          subst hX
          exact ⟨hsame₁, hw₁, hsz₁, rfl⟩
        next hneg =>
          rw [Bool.eq_true_of_not_eq_false (mt ho.mpr hneg), if_pos rfl] at hX
          subst hX
          exact ih hext.owns hw₁ (by omega) hsz₁ _ hsame₁

/-! ## Arguments -/

theorem wp_walkEntry_false {t : Nat} {j : Index} :
    Prog.wp (walkEntry t j false) E (fun _ s' => s' = s) s := by
  unfold walkEntry
  rw [wp_bind]
  refine wp_entry ?_
  split <;> exact rfl

theorem wp_walkpgdir_false {va : Nat} :
    Prog.wp (walkpgdir d va false) E (fun _ s' => s' = s) s := by
  refine wp_seq wp_walkEntry_false fun o₁ s₁ h₁ => ?_
  cases o₁ with
  | none => exact h₁
  | some pdp =>
    subst h₁
    refine wp_seq wp_walkEntry_false fun o₂ s₂ h₂ => ?_
    cases o₂ with
    | none => exact h₂
    | some pd =>
      subst h₂
      refine wp_seq wp_walkEntry_false fun o₃ s₃ h₃ => ?_
      cases o₃ <;> exact h₃

theorem wp_uva2ka {va : Nat} :
    Prog.wp (uva2ka d va) (fun e => e ≠ oom) (fun _ s' => s' = s) s := by
  unfold uva2ka
  refine wp_seq wp_walkpgdir_false fun o s₁ h₁ => ?_
  cases o with
  | none => exact (by decide : (Fault.panic "trap") ≠ oom)
  | some p =>
    rw [wp_bind]
    refine wp_entry ?_
    split <;> exact h₁

theorem wp_copyout {va len : Nat} :
    Prog.wp (copyout d n va len) (fun e => e ≠ oom) (fun _ s' => s' = s) s := by
  induction n generalizing va len with
  | zero => exact rfl
  | succ n ih =>
    rw [copyout]
    split
    next => exact rfl
    next =>
      refine wp_seq wp_uva2ka fun o s₁ h₁ => ?_
      subst h₁
      cases o with
      | none => exact rfl
      | some _ => exact ih

theorem wp_pushArgs {args : List Nat} {argc sp : Nat} :
    Prog.wp (pushArgs d args argc sp) (fun e => e ≠ oom) (fun _ s' => s' = s) s := by
  induction args generalizing argc sp with
  | nil => exact rfl
  | cons len args ih =>
    rw [pushArgs]
    split
    next => exact rfl
    next =>
      refine wp_seq wp_copyout fun o s₁ h₁ => ?_
      subst h₁
      split
      next => exact rfl
      next => exact ih

/-! ## The image -/

/-- The size of a program of size `sz` with its stack. -/
def withStack (sz : Nat) : Nat := grown (PGROUNDUP sz) (PGROUNDUP sz + 2 * PGSIZE)

/-- The size for which `exec` takes pages. -/
def execTop (im : Image) (phnum : Nat) : Nat :=
  let reach := execReach im phnum 0 PGSIZE
  if reach.2 then withStack reach.1 else reach.1

theorem npages_mul : npages (n * PGSIZE) = n := by
  show (n * 4096 + 4095) / 4096 = n
  omega

theorem wp_execStack {sz : Nat} (h : Owns s (pgs s d + R)) (hw : Whole s d (npages sz))
    (hpos : 0 < sz) (hsz : npages sz ≤ USERPAGES) :
    Prog.wp (execStack im d sz)
      (Needs s (absent s d (span (npages sz) (npages (withStack sz)))) True)
      (fun o s' => Extends d R (span (npages sz) (npages (withStack sz))) s s' ∧
        ∀ sz, o = some sz → 0 < sz ∧ Mapped s' d (npages sz)) s := by
  have hbound := (hw.mapped hsz).le h
  have hle := Nat.mul_le_mul_right PGSIZE hbound
  have hround : PGROUNDUP sz = npages sz * PGSIZE := by
    have hsz : 57345 * PGSIZE + PGSIZE ≤ 2 ^ 64 := by decide
    have := le_npages sz
    exact PGROUNDUP_eq (by omega)
  have hnp : npages (PGROUNDUP sz) = npages sz := by rw [hround, npages_mul]
  have hkern : ¬KERNBASE ≤ PGROUNDUP sz + 2 * PGSIZE := by
    have hsz : 57345 * PGSIZE + 2 * PGSIZE < KERNBASE := by decide
    rw [hround]
    omega
  have hone := npages_pos hpos
  have hm : Mapped s d (npages (PGROUNDUP sz)) := by
    rw [hnp]
    exact hw.mapped hsz
  have hpos' : 0 < PGROUNDUP sz := by
    rw [hround]
    exact Nat.mul_pos hone (by decide)
  unfold execStack withStack
  dsimp only
  generalize hnew : PGROUNDUP sz + 2 * PGSIZE = newsz at *
  have halloc := wp_allocuvm h hm hpos' newsz
  rw [hnp] at halloc
  rw [← Finset.union_empty (span _ _)]
  refine wp_extends_needs halloc ?_
  rintro _ s₁ hext ⟨rfl, hm₁⟩
  have hsame : Extends d R ∅ s₁ s₁ := .refl hext.owns (by simp)
  have hgrown : grown (PGROUNDUP sz) newsz = newsz := by
    rw [grown, if_neg hkern, max_eq_right (by omega)]
  have hguard : newsz - 2 * PGSIZE = npages sz * PGSIZE := by
    rw [← hnew, Nat.add_sub_cancel, hround]
  have hnp₁ : npages newsz = npages sz + 2 := by
    rw [← hnew, hround, ← Nat.add_mul, npages_mul]
  rw [hgrown] at hext hm₁
  rw [if_neg hkern, hgrown]
  have husers : 57345 < USERPAGES := by decide
  have hpage : lookup s₁ d (node (npages sz) 4) ≠ none :=
    (hm₁ _ (by omega)).mpr ⟨hone, by omega⟩
  rw [if_neg (by omega), wp_bind, hguard]
  refine wp_imp (wp_clearpteu hext.owns (by omega) hpage) fun _ s₂ hclear => ?_
  have herr (e : Fault) (he : e ≠ oom) : Needs s₁ (absent s₁ d ∅) True e := by
    refine .inr ⟨he, ?_, trivial⟩
    rw [absent_eq_zero (by simp)]
    exact Nat.zero_le _
  have hm₂ : Mapped s₂ d (npages newsz) := by
    intro y hy
    rw [hclear.dom, hm₁ y hy]
    simp
  rw [wp_bind]
  refine wp_mono wp_pushArgs herr ?_
  rintro o _ rfl
  cases o with
  | none => exact ⟨hclear, fun sz hsz => by cases hsz⟩
  | some args =>
    rw [wp_bind]
    refine wp_mono wp_copyout herr ?_
    rintro o _ rfl
    split
    next => exact ⟨hclear, fun sz hsz => by cases hsz⟩
    next =>
      refine ⟨hclear, fun sz hsz => ?_⟩
      cases hsz
      exact ⟨by omega, hm₂⟩

-- the test of the new size against `KERNBASE` is not to be evaluated
attribute [local irreducible] execStack

/-- The new image, in a page table that has no user half. -/
theorem wp_execImage (h : Owns s (pgs s d + R)) (hfresh : ∀ σ ≠ [], lookup s d σ = none)
    (im : Image) (n : Nat) :
    Prog.wp (execImage im d n) (Needs s (absent s d (span 1 (npages (execTop im n)))) True)
      (fun o s' => Extends d R (span 1 (npages (execTop im n))) s s' ∧
        ∀ sz, o = some sz → 0 < sz ∧ Mapped s' d (npages sz)) s := by
  have hpg : npages PGSIZE = 1 := by decide
  have hw : Whole s d (npages PGSIZE) := by
    intro σ hσ
    rw [hfresh σ hσ, hpg, span_self]
    simp
  have hload := wp_execLoad h hw (by decide) (by decide) im n 0
  have hreach : PGSIZE ≤ (execReach im n 0 PGSIZE).1 := le_execReach
  have hlt : (execReach im n 0 PGSIZE).1 < KERNBASE := execReach_lt (by decide)
  rw [hpg] at hload
  unfold execImage execTop
  dsimp only
  generalize execReach im n 0 PGSIZE = reach at *
  obtain ⟨sz, done⟩ := reach
  dsimp only at hload hreach hlt ⊢
  cases done with
  | false =>
    rw [if_neg Bool.false_ne_true, wp_bind]
    refine wp_mono hload (fun e he => ?_) ?_
    · exact he.imp id fun ⟨he, hle, _⟩ => ⟨he, hle, trivial⟩
    · rintro _ s₁ ⟨hext, -, -, rfl⟩
      exact ⟨hext, fun sz hsz => by cases hsz⟩
  | true =>
    have hone : 1 ≤ npages sz := npages_pos (lt_of_lt_of_le (by decide) hreach)
    have hgrown : npages sz ≤ npages (withStack sz) := by
      refine le_of_eq_of_le ?_ (npages_mono (le_grown _ _))
      rw [PGROUNDUP_of_lt hlt, npages_mul]
    rw [if_pos rfl, ← span_append hone hgrown]
    refine wp_extends_needs (wp_mono hload (fun e he => ?_) fun o s₁ hs₁ => hs₁) ?_
    · exact he.resolve_right fun ⟨_, _, hdone⟩ => by cases hdone
    rintro _ s₁ hext ⟨hw₁, hsz₁, rfl⟩
    exact wp_execStack hext.owns hw₁ (lt_of_lt_of_le (by decide) hreach) hsz₁

end

end Xv6.Vm
