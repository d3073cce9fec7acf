import Xv6.Vm.Memory

/-!
# Page tables and the pages they own

The user half of a page table is a radix tree of four levels (`links`): its nodes are the tables and
the user pages. `Owns s R` says that the pages of the allocator are those on the free list and those
in `R`, each once; the specifications below say how a call moves pages between the free list, one
page table, and the rest. `Extends` is what growing a page table amounts to: it gains a set of
nodes, and takes one free page for each that it did not have.
-/

namespace Xv6.Vm

open Multiset
open Radix (path)

/-! ## The tree of a page table -/

/-- The links of the tables in memory. Those of the kernel's half of a top-level table, which the
level of the node that they lead to identifies, are left out. -/
def links (page : Nat → Index → Pte) : Links Nat Index := fun n a i =>
  if n = 3 ∧ 256 ≤ i.val then none
  else if (page a i).p then some (page a i).ppn else none

/-- The pages of a page table. -/
def pgs (s : Mem) (r : Nat) : Multiset Nat := Radix.pages (links s.page) 4 r

/-- The node of a page table that a path leads to. -/
def lookup (s : Mem) (r : Nat) (σ : List Index) : Option Nat := Radix.find (links s.page) 4 r σ

/-- The pages that the allocator handles. -/
def all (first : Nat) : Multiset Nat := (Finset.Ico first (PHYSTOP / PGSIZE)).val

/-- The pages of the allocator are on the free list or in `R`, each once. -/
def Owns (s : Mem) (R : Multiset Nat) : Prop := ↑s.freelist + R = all s.first

/-- The tables in `R` are as they were. -/
structure Keeps (R : Multiset Nat) (s s' : Mem) : Prop where
  first : s'.first = s.first
  kpdpt : s'.kpdpt = s.kpdpt
  page : ∀ b ∈ R, s'.page b = s.page b

variable {s s' s'' : Mem} {R R' : Multiset Nat} {r t f : Nat} {σ : List Index} {e : Pte} {i : Index}

theorem Keeps.refl : Keeps R s s := ⟨rfl, rfl, fun _ _ => rfl⟩

theorem Keeps.trans (h : Keeps R s s') (h' : Keeps R s' s'') : Keeps R s s'' :=
  ⟨h'.first.trans h.first, h'.kpdpt.trans h.kpdpt, fun b hb => (h'.page b hb).trans (h.page b hb)⟩

theorem Keeps.mono (h : Keeps R s s') (hle : R' ≤ R) : Keeps R' s s' :=
  ⟨h.first, h.kpdpt, fun b hb => h.page b (mem_of_le hle hb)⟩

theorem Keeps.links_eq (h : Keeps R s s') {b : Nat} (hb : b ∈ R) (l : Nat) (i : Index) :
    links s'.page l b i = links s.page l b i := by
  unfold links
  rw [h.page b hb]

theorem Keeps.pages_eq {n : Nat} (h : Keeps (Radix.pages (links s.page) n r) s s') :
    Radix.pages (links s'.page) n r = Radix.pages (links s.page) n r :=
  Radix.pages_congr fun _ hb => h.links_eq hb

theorem Keeps.find_eq {n : Nat} (h : Keeps (Radix.pages (links s.page) n r) s s')
    (σ : List Index) : Radix.find (links s'.page) n r σ = Radix.find (links s.page) n r σ :=
  Radix.find_congr (fun _ hb => h.links_eq hb) σ

theorem Keeps.pgs_eq (h : Keeps (pgs s r) s s') : pgs s' r = pgs s r := h.pages_eq

theorem Keeps.lookup_eq (h : Keeps (pgs s r) s s') (σ : List Index) :
    lookup s' r σ = lookup s r σ := h.find_eq σ

namespace Owns

theorem nodup (h : Owns s R) : (↑s.freelist + R : Multiset Nat).Nodup := by
  rw [h]
  exact Finset.nodup _

theorem nodup_right (h : Owns s R) : R.Nodup :=
  (nodup_add.mp h.nodup).2.1

theorem mem_all (h : Owns s R) (hf : f ∈ R) : s.first ≤ f ∧ f < PHYSTOP / PGSIZE := by
  have hmem : f ∈ all s.first := h ▸ mem_add.mpr (.inr hf)
  exact Finset.mem_Ico.mp hmem

theorem not_mem_of_cons (h : Owns s (f ::ₘ R)) : f ∉ R :=
  (nodup_cons.mp h.nodup_right).1

theorem card (h : Owns s R) : s.freelist.length + R.card = PHYSTOP / PGSIZE - s.first := by
  have hcard := congrArg Multiset.card h
  rw [card_add] at hcard
  exact hcard.trans (Nat.card_Ico ..)

/-- The free list and the rules for it stay, and no page of `R` is written. -/
theorem congr (h : Owns s R) (hfree : s'.freelist = s.freelist) (hfirst : s'.first = s.first) :
    Owns s' R := by
  unfold Owns
  rw [hfree, hfirst]
  exact h

theorem take (h : Owns s R) {l : List Nat} (hl : s.freelist = f :: l) (hfree : s'.freelist = l)
    (hfirst : s'.first = s.first) : Owns s' (f ::ₘ R) := by
  unfold Owns at h ⊢
  rw [hfree, hfirst, ← h, hl, ← cons_coe, cons_add, add_cons]

end Owns

/-! ## Memory -/

variable {E : Fault → Prop}

/-- The message with which the allocator stops. -/
def oom : Fault := .panic "Out of memory!"

theorem wp_fill {Q : Unit → Mem → Prop}
    (h : Q () { s with page := update s.page f fun _ => e }) :
    Prog.wp (fill f e) E Q s := by
  simpa [fill] using h

theorem wp_entry {Q : Pte → Mem → Prop} (h : Q (s.page t i) s) : Prog.wp (entry t i) E Q s := h

/-- The memory with the entry `i` of the table `t` changed. -/
def Mem.put (s : Mem) (t : Nat) (i : Index) (e : Pte) : Mem :=
  { s with page := Function.update s.page t (Function.update (s.page t) i e) }

theorem wp_setEntry {Q : Unit → Mem → Prop} (h : Q () (s.put t i e)) :
    Prog.wp (setEntry t i e) E Q s := by
  simpa [setEntry, Mem.put] using h

theorem keeps_update (hf : f ∉ R) (p : Index → Pte) :
    Keeps R s { s with page := update s.page f p } := by
  refine ⟨rfl, rfl, fun b hb => update_of_ne ?_ ..⟩
  rintro rfl
  exact hf hb

theorem wp_kalloc (h : Owns s R) :
    Prog.wp kalloc (fun e => e = oom ∧ s.freelist = [])
      (fun o s' => ∃ f l, o = some f ∧ s.freelist = f :: l ∧ s' = { s with freelist := l } ∧
        Owns s' (f ::ₘ R)) s := by
  unfold kalloc
  rw [wp_bind, wp_gets]
  cases hl : s.freelist with
  | nil => exact ⟨rfl, rfl⟩
  | cons f rest =>
    exact ⟨f, rest, rfl, rfl, rfl, h.take hl rfl rfl⟩

theorem wp_kfree (h : Owns s (f ::ₘ R)) :
    Prog.wp (kfree f) E (fun _ s' => Owns s' R ∧ Keeps R s s' ∧
      s'.page = update s.page f (fun _ => .junk) ∧
      s'.freelist.length = s.freelist.length + 1) s := by
  obtain ⟨hge, hlt⟩ := h.mem_all (mem_cons_self f R)
  have hok : ¬(f < s.first ∨ PHYSTOP / PGSIZE ≤ f) := by omega
  unfold kfree
  rw [wp_bind, wp_gets, if_neg hok, wp_bind]
  refine wp_fill ⟨?_, ⟨rfl, rfl, (keeps_update h.not_mem_of_cons _).page⟩, rfl, rfl⟩
  unfold Owns at h ⊢
  rw [← h, ← cons_coe, cons_add, add_cons]

/-! ## Growing a page table -/

/-- How many of the nodes `X` the page table does not have. -/
def absent (s : Mem) (r : Nat) (X : Finset (List Index)) : Nat :=
  (X.filter fun σ => lookup s r σ = none).card

/-- The page table at `r` gains the nodes `X`, and takes a page for each that is new. -/
structure Extends (r : Nat) (R : Multiset Nat) (X : Finset (List Index)) (s s' : Mem) : Prop where
  owns : Owns s' (pgs s' r + R)
  keeps : Keeps R s s'
  old : ∀ σ f, lookup s r σ = some f → lookup s' r σ = some f
  dom : ∀ σ, lookup s' r σ ≠ none ↔ lookup s r σ ≠ none ∨ σ ∈ X
  free : s'.freelist.length + absent s r X = s.freelist.length

variable {X Y : Finset (List Index)}

theorem absent_singleton (h : lookup s r σ = none) : absent s r {σ} = 1 := by
  rw [absent, Finset.filter_singleton, if_pos h, Finset.card_singleton]

theorem Keeps.absent_eq (h : Keeps (pgs s r) s s') : absent s' r X = absent s r X := by
  unfold absent
  simp only [h.lookup_eq]

theorem absent_eq_zero (h : ∀ σ ∈ X, lookup s r σ ≠ none) : absent s r X = 0 := by
  rw [absent, Finset.card_eq_zero, Finset.filter_eq_empty_iff]
  exact h

theorem Extends.refl (h : Owns s (pgs s r + R)) (hX : ∀ σ ∈ X, lookup s r σ ≠ none) :
    Extends r R X s s := by
  refine ⟨h, .refl, fun _ _ => id, fun σ => ⟨.inl, fun hσ => hσ.elim id (hX σ)⟩, ?_⟩
  rw [absent_eq_zero hX, Nat.add_zero]

theorem Extends.of_link (howns : Owns s' (pgs s' r + R)) (hkeeps : Keeps R s s')
    (hnone : lookup s r σ = none)
    (hlookup : ∀ τ, lookup s' r τ = if τ = σ then some f else lookup s r τ)
    (hfree : s'.freelist.length + 1 = s.freelist.length) : Extends r R {σ} s s' := by
  refine ⟨howns, hkeeps, fun τ g hg => ?_, fun τ => ?_, ?_⟩
  · rw [hlookup, if_neg]
    · exact hg
    · rintro rfl
      rw [hnone] at hg
      cases hg
  · rw [hlookup]
    by_cases hτ : τ = σ <;> simp [hτ]
  · rw [absent_singleton hnone, hfree]

/-- The nodes of `Y` that are missing are missing before, and not in `X`. -/
theorem Extends.absent_union (h : Extends r R X s s') :
    absent s r (X ∪ Y) = absent s r X + absent s' r Y := by
  have hsplit : (X ∪ Y).filter (fun σ => lookup s r σ = none) =
      X.filter (fun σ => lookup s r σ = none) ∪ Y.filter fun σ => lookup s' r σ = none := by
    ext σ
    have hdom := h.dom σ
    grind
  rw [absent, hsplit, Finset.card_union_of_disjoint, absent, absent]
  rw [Finset.disjoint_left]
  intro σ hσ hσ'
  have hdom := h.dom σ
  grind

theorem Extends.trans (h : Extends r R X s s') (h' : Extends r R Y s' s'') :
    Extends r R (X ∪ Y) s s'' := by
  refine ⟨h'.owns, h.keeps.trans h'.keeps, fun σ f hf => h'.old σ f (h.old σ f hf),
    fun σ => ?_, ?_⟩
  · rw [h'.dom, h.dom, Finset.mem_union, or_assoc]
  · rw [h.absent_union, ← h.free, ← h'.free]
    omega

theorem Extends.absent_le (h : Extends r R X s s') (hlt : s'.freelist.length < absent s' r Y) :
    s.freelist.length < absent s r (X ∪ Y) := by
  rw [h.absent_union, ← h.free]
  omega

theorem wp_extends {α β : Type} {x : VmM α} {g : α → VmM β} {Q : α → Mem → Prop}
    {Q' : β → Mem → Prop}
    (hx : Prog.wp x (fun e => e = oom ∧ s.freelist.length < absent s r X)
      (fun a s' => Extends r R X s s' ∧ Q a s') s)
    (hg : ∀ a s', Extends r R X s s' → Q a s' →
      Prog.wp (g a) (fun e => e = oom ∧ s'.freelist.length < absent s' r Y)
        (fun b s'' => Extends r R Y s' s'' ∧ Q' b s'') s') :
    Prog.wp (x >>= g) (fun e => e = oom ∧ s.freelist.length < absent s r (X ∪ Y))
      (fun b s'' => Extends r R (X ∪ Y) s s'' ∧ Q' b s'') s := by
  rw [wp_bind]
  refine wp_mono hx (fun e he => ⟨he.1, ?_⟩) fun a s' ⟨hext, ha⟩ => ?_
  · refine he.2.trans_le (Finset.card_le_card (Finset.filter_subset_filter _ ?_))
    exact Finset.subset_union_left
  · exact wp_mono (hg a s' hext ha) (fun e he => ⟨he.1, hext.absent_le he.2⟩)
      fun b s'' ⟨hext', hb⟩ => ⟨hext.trans hext', hb⟩

/-! ## Entries -/

section
variable {π : List Index} {k : Nat}

theorem mem_pgs_of_lookup (h : lookup s r σ = some f) : f ∈ pgs s r :=
  Radix.mem_pages_of_find h

theorem lookup_append (hlen : 4 = π.length + (k + 1)) :
    lookup s r (π ++ [i]) = (lookup s r π).bind fun t => links s.page k t i :=
  Radix.find_append_singleton hlen

theorem links_of_user (hi : k = 3 → i.val < 256) :
    links s.page k t i = if (s.page t i).p then some (s.page t i).ppn else none := by
  have huser : ¬(k = 3 ∧ 256 ≤ i.val) := fun h => absurd (hi h.1) (by omega)
  rw [links, if_neg huser]

theorem page_put {b : Nat} {j : Index} (h : b ≠ t ∨ j ≠ i) : (s.put t i e).page b j = s.page b j := by
  by_cases hb : b = t
  · subst hb
    have hj : j ≠ i := h.resolve_left fun hne => hne rfl
    simp only [Mem.put, update_self, update_of_ne hj]
  · simp only [Mem.put, update_of_ne hb]

/-- The entry `i` of the table `t`, which `π` leads to, changes to or from a link to a leaf. -/
theorem pgs_put (hnd : (pgs s r).Nodup) (ht : lookup s r π = some t)
    (hlen : 4 = π.length + (k + 1))
    (hold : ∀ f, links s.page k t i = some f → Radix.pages (links s.page) k f = {f})
    (hnew : ∀ f, links (s.put t i e).page k t i = some f →
      Radix.pages (links (s.put t i e).page) k f = {f}) :
    pgs (s.put t i e) r + (links s.page k t i).elim 0 ({·}) =
        pgs s r + (links (s.put t i e).page k t i).elim 0 ({·}) ∧
      ∀ σ, lookup (s.put t i e) r σ =
        if σ = π ++ [i] then links (s.put t i e).page k t i else lookup s r σ := by
  have hset : Radix.Set (links s.page) (links (s.put t i e).page) 4 r π t k i := by
    refine ⟨hnd, ht, hlen, fun l b j hbj => ?_, hold, hnew⟩
    rw [links, links, page_put hbj]
  exact ⟨Radix.pages_set hset, Radix.find_set hset⟩

/-- An entry that links to nothing is set to link to the page `f`, which is user memory or an empty
table. -/
theorem link_put (h : Owns s (pgs s r + (f ::ₘ R))) (ht : lookup s r π = some t)
    (hlen : 4 = π.length + (k + 1)) (hi : k = 3 → i.val < 256)
    (hnone : lookup s r (π ++ [i]) = none) (hf : k = 0 ∨ ∀ j, (s.page f j).p = false)
    (w u : Bool) :
    Owns (s.put t i ⟨f, true, w, u⟩) (pgs (s.put t i ⟨f, true, w, u⟩) r + R) ∧
      Keeps R s (s.put t i ⟨f, true, w, u⟩) ∧
      ∀ σ, lookup (s.put t i ⟨f, true, w, u⟩) r σ =
        if σ = π ++ [i] then some f else lookup s r σ := by
  obtain ⟨hndr, hndf, hdisj⟩ := nodup_add.mp h.nodup_right
  have htR : t ∉ f ::ₘ R := disjoint_left.mp hdisj (mem_pgs_of_lookup ht)
  have hft : f ≠ t := fun hft => htR (hft ▸ mem_cons_self ..)
  have hold : links s.page k t i = none := by
    rw [lookup_append hlen, ht] at hnone
    exact hnone
  have hnew : links (s.put t i ⟨f, true, w, u⟩).page k t i = some f := by
    rw [links_of_user hi]
    simp only [Mem.put, update_self, if_true]
  have hleaf : Radix.pages (links (s.put t i ⟨f, true, w, u⟩).page) k f = {f} := by
    cases k with
    | zero => exact Radix.pages_zero
    | succ k =>
      have hf : ∀ j, (s.page f j).p = false := hf.resolve_left (Nat.succ_ne_zero k)
      refine Radix.pages_eq_singleton fun j => ?_
      rw [links, page_put (.inl hft), hf j, if_neg Bool.false_ne_true, ite_self]
  obtain ⟨hpages, hlookup⟩ := pgs_put (e := ⟨f, true, w, u⟩) hndr ht hlen
    (fun g hg => by rw [hold] at hg; cases hg)
    (fun g hg => by rw [hnew] at hg; cases hg; exact hleaf)
  rw [hold, hnew, Option.elim_none, Option.elim_some, add_zero, add_comm,
    singleton_add] at hpages
  rw [hnew] at hlookup
  refine ⟨?_, keeps_update (fun hmem => htR (mem_cons_of_mem hmem)) _, hlookup⟩
  have heq : f ::ₘ pgs s r + R = pgs s r + (f ::ₘ R) := by
    rw [cons_add, add_cons]
  rw [hpages, heq]
  exact h.congr rfl rfl

/-- The memory after the page `f` is taken from the free list and written. -/
def Mem.take (s : Mem) (f : Nat) (l : List Nat) (p : Index → Pte) : Mem :=
  { s with freelist := l, page := Function.update s.page f p }

theorem page_take_self {l : List Nat} {p : Index → Pte} : (s.take f l p).page f = p :=
  update_self ..

theorem owns_take (h : Owns s (pgs s r + R)) {l : List Nat} (hl : s.freelist = f :: l)
    (p : Index → Pte) :
    Owns (s.take f l p) (pgs (s.take f l p) r + (f ::ₘ R)) ∧
      Keeps (pgs s r + R) s (s.take f l p) := by
  have hown : Owns (s.take f l p) (f ::ₘ (pgs s r + R)) := h.take hl rfl rfl
  have hkeeps : Keeps (pgs s r + R) s (s.take f l p) :=
    ⟨rfl, rfl, (keeps_update hown.not_mem_of_cons p).page⟩
  refine ⟨?_, hkeeps⟩
  rwa [(hkeeps.mono (le_add_right _ _)).pgs_eq, add_cons]

end

end Xv6.Vm
