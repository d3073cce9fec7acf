import Xv6.Vm.Exec
import Xv6.Vm.Ram

/-!
# What growing leaves alone

The functions that map pages take them from the free list. Pages that were not free keep their bytes,
and the entries that were present in them (`Ram.Grows`); so a user page that was mapped stays mapped,
with its flags and its bytes.
-/

namespace Xv6.Vm

open List

section
variable {s s' : Mem} {R : Multiset Nat} {r d x f : Nat} {e : Pte}

theorem lookup_eq_leaf (hx : x < USERPAGES) :
    lookup s r (node x 4) = (leaf s r x).bind fun e => if e.p then some e.ppn else none := by
  cases hpt : lookup s r (node x 3) with
  | none => rw [leaf, lookup_node_succ (d := 3) (k := 0) rfl, hpt]; rfl
  | some pt =>
    rw [leaf, hpt, lookup_page hx hpt]
    rfl

theorem pteOf_eq_leaf {va : Nat} (hva : va < 2 ^ 47) : pteOf s r va = leaf s r (va / PGSIZE) := by
  have hx : va / PGSIZE < USERPAGES := by
    show va / 4096 < 2 ^ 35
    omega
  rw [pteOf, PGROUNDDOWN, walkpgdir_false hx, leaf]
  cases lookup s r (node (va / PGSIZE) 3) <;> rfl

theorem Owns.not_free (h : Owns s R) (hf : f ∈ R) : f ∉ s.freelist := fun hfree =>
  Multiset.disjoint_left.mp (Multiset.nodup_add.mp h.nodup).2.2 (Multiset.mem_coe.mpr hfree) hf

theorem page_take_of_ne {l : List Nat} {p : Index → Pte} (h : x ≠ f) :
    (s.take f l p).page x = s.page x :=
  update_of_ne h ..

end

namespace Ram

/-- Only pages that were free were written, apart from entries that were not present; and what was taken
from the free list is recorded. -/
structure Grows (s t : Ram) : Prop where
  free : t.mem.freelist <:+ s.mem.freelist
  entry : ∀ p ∉ s.mem.freelist, ∀ i, (s.mem.page p i).p = true → t.mem.page p i = s.mem.page p i
  data : ∀ p ∉ s.mem.freelist, ∀ o, t.data (p, o) = s.data (p, o)
  taken : s.taken ⊆ t.taken
  gone : ∀ p ∈ s.mem.freelist, p ∈ t.mem.freelist ∨ p ∈ t.taken
  fresh : ∀ p ∈ t.taken, p ∈ s.taken ∨ p ∈ s.mem.freelist
  wrote : s.wrote ⊆ t.wrote

/-- In the pages that were taken, entries that are not present are zero. -/
def Zeroed (s : Ram) : Prop :=
  ∀ p ∈ s.taken, ∀ i, (s.mem.page p i).p = false → s.mem.page p i = .zero

/-- Besides, only pages that were taken were written. -/
structure Builds (s t : Ram) : Prop extends Grows s t where
  own : ∀ p ∈ t.wrote, p ∈ s.wrote ∨ p ∈ t.taken
  zeroed : Zeroed s → Zeroed t

section
variable {s t u : Ram} {α : Type} {d f g va a pa n p x oldsz newsz : Nat} {i : Index} {e : Pte}
variable {w v : Bool} {E : Fault × Ram → Prop} {R : Multiset Nat}

theorem Grows.refl : Grows s s where
  free := suffix_refl _
  entry _ _ _ _ := rfl
  data _ _ _ := rfl
  taken := List.Subset.refl _
  gone _ := .inl
  fresh _ := .inl
  wrote := List.Subset.refl _

theorem Grows.trans (h : Grows s t) (h' : Grows t u) : Grows s u where
  free := h'.free.trans h.free
  entry p hp i hi := by
    have hpt : p ∉ t.mem.freelist := fun hmem => hp (h.free.subset hmem)
    have hsame := h.entry p hp i hi
    rw [h'.entry p hpt i (by rw [hsame]; exact hi), hsame]
  data p hp o := by
    have hpt : p ∉ t.mem.freelist := fun hmem => hp (h.free.subset hmem)
    rw [h'.data p hpt o, h.data p hp o]
  taken := List.Subset.trans h.taken h'.taken
  gone p hp := (h.gone p hp).elim (h'.gone p) fun hp => .inr (h'.taken hp)
  fresh p hp := (h'.fresh p hp).elim (h.fresh p) fun hp => .inr (h.free.subset hp)
  wrote := List.Subset.trans h.wrote h'.wrote

theorem Builds.refl : Builds s s := ⟨.refl, fun _ => .inl, id⟩

theorem Builds.trans (h : Builds s t) (h' : Builds t u) : Builds s u where
  toGrows := h.toGrows.trans h'.toGrows
  own p hp := (h'.own p hp).elim (fun hp => (h.own p hp).imp_right fun hp => h'.taken hp) .inr
  zeroed hz := h'.zeroed (h.zeroed hz)

theorem wp_inMem {x : VmM α} {Q : α → Ram → Prop} :
    (inMem x).wp E Q s ↔ x.wp (fun e => E (e, s)) (fun a m => Q a { s with mem := m }) s.mem :=
  Prog.wp_within

theorem wp_kalloc {Q : Option Nat → Ram → Prop} (hnil : s.mem.freelist = [] → E (oom, s))
    (hQ : ∀ f l, s.mem.freelist = f :: l →
      Q (some f) { s with mem := { s.mem with freelist := l }, taken := f :: s.taken }) :
    kalloc.wp E Q s := by
  rw [kalloc, wp_bind, wp_inMem, Vm.kalloc, wp_bind, wp_gets]
  cases hl : s.mem.freelist with
  | nil => exact hnil hl
  | cons f l => exact hQ f l hl

theorem wp_fill {b : UInt8} {Q : Unit → Ram → Prop}
    (hQ : Q () { s with
      mem := { s.mem with page := update s.mem.page f fun _ => e }
      data := fun x => if x.1 = f then b else s.data x
      wrote := f :: s.wrote }) : (fill f e b).wp E Q s := by
  rw [fill, wp_bind, wp_inMem]
  exact Vm.wp_fill hQ

theorem wp_setEntry {Q : Unit → Ram → Prop}
    (hQ : Q () { s with mem := s.mem.put f i e, wrote := f :: s.wrote }) :
    (setEntry f i e).wp E Q s := by
  rw [setEntry, wp_bind, wp_inMem]
  exact Vm.wp_setEntry hQ

theorem Grows.take {l : List Nat} {page : Index → Pte} {data : Nat × Nat → UInt8}
    (hl : s.mem.freelist = f :: l) (hdata : ∀ p ≠ f, ∀ o, data (p, o) = s.data (p, o)) :
    Grows s ⟨s.mem.take f l page, data, f :: s.taken, f :: s.wrote⟩ where
  free := by
    rw [hl]
    exact suffix_cons f l
  entry p hp i _ := by
    have hpf : p ≠ f := fun heq => hp (by rw [hl, heq]; exact mem_cons_self)
    exact congrFun (page_take_of_ne hpf) i
  data p hp o := by
    refine hdata p (fun heq => hp ?_) o
    rw [hl, heq]
    exact mem_cons_self
  taken := subset_cons_self f _
  gone p hp := by
    rw [hl, mem_cons] at hp
    exact hp.elim (fun heq => .inr (heq ▸ mem_cons_self)) .inl
  fresh p hp := by
    rw [hl]
    exact (mem_cons.mp hp).elim (fun heq => .inr (heq ▸ mem_cons_self)) .inl
  wrote := subset_cons_self f _

/-- The memory after `kalloc` has returned the page `f`, and it is filled with zeros. -/
def cleared (s : Ram) (f : Nat) (l : List Nat) : Ram :=
  ⟨s.mem.take f l fun _ => .zero, fun x => if x.1 = f then 0 else s.data x, f :: s.taken, f :: s.wrote⟩

theorem Builds.cleared {l : List Nat} (hl : s.mem.freelist = f :: l) : Builds s (s.cleared f l) where
  toGrows := .take hl fun p hp o => if_neg hp
  own p hp := (mem_cons.mp hp).elim (fun heq => .inr (heq ▸ mem_cons_self)) .inl
  zeroed hz p hp i hi := by
    by_cases hpf : p = f
    · rw [hpf]
      exact congrFun page_take_self i
    · have hpage : (s.cleared f l).mem.page p = s.mem.page p := page_take_of_ne hpf
      rw [hpage] at hi ⊢
      exact hz p ((mem_cons.mp hp).resolve_left hpf) i hi

theorem Grows.put (h : (s.mem.page f i).p = false) :
    Grows s { s with mem := s.mem.put f i e, wrote := f :: s.wrote } where
  free := suffix_refl _
  entry p _ j hj := by
    refine page_put ?_
    by_contra hne
    rw [not_or, not_not, not_not] at hne
    rw [hne.1, hne.2, h] at hj
    cases hj
  data _ _ _ := rfl
  taken := List.Subset.refl _
  gone _ := .inl
  fresh _ := .inl
  wrote := subset_cons_self f _

theorem Builds.put (h : (s.mem.page f i).p = false) (hf : f ∈ s.taken) (he : e.p = true) :
    Builds s { s with mem := s.mem.put f i e, wrote := f :: s.wrote } where
  toGrows := .put h
  own p hp := (mem_cons.mp hp).elim (fun heq => .inr (heq ▸ hf)) .inl
  zeroed hz p hp j hj := by
    by_cases hpf : p = f ∧ j = i
    · simp only [hpf.1, hpf.2, Mem.put, update_self, he] at hj
      cases hj
    · have hpage : (s.mem.put f i e).page p j = s.mem.page p j := page_put (not_and_or.mp hpf)
      rw [hpage] at hj ⊢
      exact hz p hp j hj

theorem wp_walkEntry {Q : Option Nat → Ram → Prop}
    (hold : (s.mem.page f i).p = true → Q (some (s.mem.page f i).ppn) s)
    (hnil : s.mem.freelist = [] → E (oom, s))
    (hnew : ∀ g l, s.mem.freelist = g :: l → ((s.cleared g l).mem.page f i).p = false →
      Q (some g) { s.cleared g l with
        mem := (s.cleared g l).mem.put f i ⟨g, true, true, true⟩
        wrote := f :: (s.cleared g l).wrote }) :
    (walkEntry f i).wp E Q s := by
  rw [walkEntry, wp_bind, wp_inMem]
  refine Vm.wp_entry ?_
  split
  next hp => exact hold hp
  next hp =>
  rw [wp_bind]
  refine wp_kalloc hnil fun g l hl => ?_
  rw [wp_bind]
  refine wp_fill ?_
  rw [wp_bind]
  refine wp_setEntry (hnew g l hl ?_)
  by_cases hfg : f = g
  · rw [hfg]
    exact congrArg Pte.p (congrFun page_take_self i)
  · rw [cleared, page_take_of_ne hfg]
    exact Bool.eq_false_of_not_eq_true hp

theorem grows_walkEntry : (walkEntry f i).wp (fun _ => True)
    (fun o t => Grows s t ∧ o ≠ none) s := by
  refine wp_walkEntry (fun _ => ⟨.refl, Option.some_ne_none _⟩) (fun _ => trivial) fun g l hl hp => ?_
  exact ⟨(Builds.cleared hl).toGrows.trans (.put hp), Option.some_ne_none _⟩

theorem grows_walkpgdir : (walkpgdir d va true).wp (fun _ => True)
    (fun o t => Grows s t ∧ o ≠ none) s := by
  rw [walkpgdir, if_neg (by decide)]
  refine wp_seq grows_walkEntry fun o s₁ ⟨h₁, ho⟩ => ?_
  cases o with
  | none => exact absurd rfl ho
  | some pdp =>
  refine wp_seq grows_walkEntry fun o s₂ ⟨h₂, ho⟩ => ?_
  cases o with
  | none => exact absurd rfl ho
  | some pd =>
  refine wp_seq grows_walkEntry fun o s₃ ⟨h₃, ho⟩ => ?_
  cases o with
  | none => exact absurd rfl ho
  | some pgtab => exact ⟨(h₁.trans h₂).trans h₃, Option.some_ne_none _⟩

theorem grows_mapLoop : (mapLoop d w v n a pa).wp (fun _ => True)
    (fun o t => Grows s t ∧ o = 0) s := by
  induction n generalizing s a pa with
  | zero => exact ⟨.refl, rfl⟩
  | succ n ih =>
    refine wp_seq grows_walkpgdir fun o s₁ ⟨h₁, ho⟩ => ?_
    cases o with
    | none => exact absurd rfl ho
    | some x =>
    rw [wp_bind, wp_inMem]
    refine Vm.wp_entry ?_
    split
    next => trivial
    next hp =>
    rw [wp_bind]
    refine wp_setEntry (wp_imp ih fun o t ⟨ht, ho⟩ => ⟨?_, ho⟩)
    exact (h₁.trans (.put (Bool.eq_false_of_not_eq_true hp))).trans ht

theorem grows_mappages {size : Nat} : (mappages d va size pa w v).wp (fun _ => True)
    (fun o t => Grows s t ∧ o = 0) s := grows_mapLoop

theorem builds_setupkvm : setupkvm.wp (fun e => e.2 = s)
    (fun o t => Builds s t ∧ ∀ d, o = some d → d ∈ t.taken) s := by
  rw [setupkvm, wp_bind]
  refine wp_kalloc (fun _ => rfl) fun g l hl => ?_
  rw [wp_bind]
  refine wp_fill ?_
  rw [wp_bind, wp_inMem, wp_gets, wp_bind]
  have hzero : ((s.cleared g l).mem.page g (Fin.ofNat _ 256)).p = false :=
    congrArg Pte.p (congrFun page_take_self _)
  refine wp_setEntry ⟨?_, fun d hd => ?_⟩
  · exact (Builds.cleared hl).trans (.put hzero mem_cons_self rfl)
  · cases hd
    exact mem_cons_self

theorem Grows.leaf (h : Grows s t) {X} (howns : Owns s.mem (pgs s.mem d + R))
    (hext : Extends d R X s.mem t.mem) (he : Vm.leaf s.mem d x = some e)
    (hp : e.p = true) : Vm.leaf t.mem d x = some e := by
  rw [Vm.leaf, Option.map_eq_some_iff] at he
  obtain ⟨pt, hpt, rfl⟩ := he
  rw [Vm.leaf, hext.old _ _ hpt, Option.map_some, h.entry pt ?_ _ hp]
  exact howns.not_free (Multiset.mem_add.mpr (.inl (mem_pgs_of_lookup hpt)))

end

end Ram

end Xv6.Vm
