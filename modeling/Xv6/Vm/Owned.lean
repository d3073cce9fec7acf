import Xv6.Vm.Exec
import Xv6.Vm.Files

/-!
# Who owns the pages

The pages that are in use belong to boot, to the processes and to the pipes (`owned`). `Inv` is the
invariant of the calls: every page is on the free list or owned, once; every process that is not
`UNUSED` has a kernel stack and a page table with the user pages for its size; and the ends of pipes
that are open are those that files refer to. A process may also have lost all its user pages, unless
`strict`.
-/

namespace Xv6.Vm

open Finset

variable {s s' : Mem} {R : Multiset Nat} {k k' : Kern} {p q : VProc} {me np : Slot} {f r : Nat}

/-! ## Ownership -/

/-- The kernel stack and the page table of a process. -/
def procPages (s : Mem) (p : VProc) : Multiset Nat :=
  if p.life = .unused then 0 else p.kstack.elim 0 ({·}) + p.pgdir.elim 0 (pgs s)

/-- The pages that hold pipes. -/
def pipePages (pipe : Nat → Option Ends) : Multiset Nat :=
  ((Finset.range (PHYSTOP / PGSIZE)).filter fun p => (pipe p).isSome).val

def owned (k : Kern) : Multiset Nat :=
  ↑k.boot + ∑ p, procPages k.mem (k.proc p) + pipePages k.pipe

/-- What is owned by others than the page table of a process. -/
def others (k : Kern) (me : Slot) : Multiset Nat :=
  ↑k.boot + (∑ p ∈ Finset.univ.erase me, procPages k.mem (k.proc p)) + pipePages k.pipe +
    (k.proc me).kstack.elim 0 ({·})

theorem procPages_of_unused (h : p.life = .unused) : procPages s p = 0 := if_pos h

theorem procPages_of_used (h : p.life ≠ .unused) (hf : p.kstack = some f) (hr : p.pgdir = some r) :
    procPages s p = pgs s r + {f} := by
  rw [procPages, if_neg h, hf, hr, Option.elim_some, Option.elim_some, add_comm]

theorem procPages_congr (hlife : q.life = .unused ↔ p.life = .unused) (hf : q.kstack = p.kstack)
    (hr : q.pgdir = p.pgdir) : procPages s q = procPages s p := by
  simp only [procPages, hlife, hf, hr]

theorem Keeps.procPages_eq (h : Keeps (procPages s p) s s') : procPages s' p = procPages s p := by
  unfold procPages at h ⊢
  by_cases hlife : p.life = .unused
  · rw [if_pos hlife, if_pos hlife]
  · rw [if_neg hlife] at h
    cases hr : p.pgdir with
    | none => rw [Option.elim_none, Option.elim_none]
    | some r =>
      rw [hr] at h
      rw [Option.elim_some, Option.elim_some, (h.mono (Multiset.le_add_left _ _)).pgs_eq]

theorem procPages_le_owned (me : Slot) : procPages k.mem (k.proc me) ≤ owned k := by
  refine le_trans ?_ (Multiset.le_add_right _ _)
  refine le_trans ?_ (Multiset.le_add_left _ _)
  exact single_le_sum (f := fun p => procPages k.mem (k.proc p))
    (fun _ _ => Multiset.zero_le _) (mem_univ me)

theorem procPages_le_others {p : Slot} (h : p ≠ me) :
    procPages k.mem (k.proc p) ≤ others k me := by
  refine le_trans ?_ (Multiset.le_add_right _ _)
  refine le_trans ?_ (Multiset.le_add_right _ _)
  refine le_trans ?_ (Multiset.le_add_left _ _)
  exact single_le_sum (f := fun p => procPages k.mem (k.proc p))
    (fun _ _ => Multiset.zero_le _) (mem_erase.mpr ⟨h, mem_univ p⟩)

theorem owned_eq_others (hlife : (k.proc me).life ≠ .unused) (hr : (k.proc me).pgdir = some r) :
    owned k = pgs k.mem r + others k me := by
  rw [owned, others, ← sum_erase_add _ _ (mem_univ me), procPages, if_neg hlife, hr,
    Option.elim_some]
  generalize pgs k.mem r = T
  generalize ∑ p ∈ Finset.univ.erase me, procPages k.mem (k.proc p) = A
  generalize pipePages k.pipe = P
  ac_rfl

/-- The page table of one process changes, and maybe its kernel stack. -/
theorem others_congr (hboot : k'.boot = k.boot) (hpipe : k'.pipe = k.pipe)
    (hproc : ∀ p ≠ me, procPages k.mem (k'.proc p) = procPages k.mem (k.proc p))
    (hkstack : (k'.proc me).kstack = (k.proc me).kstack) (hkeeps : Keeps (others k me) k.mem k'.mem) :
    others k' me = others k me := by
  have hsum : ∑ p ∈ Finset.univ.erase me, procPages k'.mem (k'.proc p) =
      ∑ p ∈ Finset.univ.erase me, procPages k.mem (k.proc p) := by
    refine sum_congr rfl fun p hp => ?_
    have hne := (mem_erase.mp hp).1
    rw [← hproc p hne]
    refine Keeps.procPages_eq ?_
    rw [hproc p hne]
    exact hkeeps.mono (procPages_le_others hne)
  rw [others, others, hboot, hpipe, hkstack, hsum]

theorem owned_congr (hboot : k'.boot = k.boot) (hpipe : k'.pipe = k.pipe)
    (hproc : ∀ p, procPages k.mem (k'.proc p) = procPages k.mem (k.proc p))
    (hkeeps : Keeps (owned k) k.mem k'.mem) : owned k' = owned k := by
  have hsum : ∑ p, procPages k'.mem (k'.proc p) = ∑ p, procPages k.mem (k.proc p) := by
    refine sum_congr rfl fun p _ => ?_
    rw [← hproc p]
    refine Keeps.procPages_eq ?_
    rw [hproc p]
    exact hkeeps.mono (procPages_le_owned p)
  rw [owned, owned, hboot, hpipe, hsum]

/-- A process gives up its kernel stack and page table. -/
theorem owned_leave (hlife : (k.proc me).life ≠ .unused) (hf : (k.proc me).kstack = some f)
    (hr : (k.proc me).pgdir = some r) (hp : p.life = .unused) :
    owned k = pgs k.mem r + (f ::ₘ owned { k with proc := update k.proc me p }) := by
  have hsum : ∑ q, procPages k.mem (update k.proc me p q) =
      ∑ q ∈ Finset.univ.erase me, procPages k.mem (k.proc q) := by
    rw [← sum_erase_add _ _ (mem_univ me), update_self,
      procPages_of_unused hp, add_zero]
    refine sum_congr rfl fun q hq => ?_
    rw [update_of_ne (mem_erase.mp hq).1]
  rw [owned_eq_others hlife hr, others, hf, owned]
  rw [hsum, ← Multiset.singleton_add]
  generalize ∑ p ∈ Finset.univ.erase me, procPages k.mem (k.proc p) = A
  generalize pipePages k.pipe = P
  generalize pgs k.mem r = T
  ac_rfl

theorem pipePages_remove {pipe : Nat → Option Ends} {p : Nat} (h : pipe p ≠ none)
    (hp : p < PHYSTOP / PGSIZE) :
    pipePages pipe = p ::ₘ pipePages (update pipe p none) := by
  have hfilter : (Finset.range (PHYSTOP / PGSIZE)).filter (fun q => (pipe q).isSome) =
      insert p ((Finset.range (PHYSTOP / PGSIZE)).filter
        fun q => (update pipe p none q).isSome) := by
    ext q
    by_cases hq : q = p
    · subst hq
      simp [hp, Option.isSome_iff_ne_none, h]
    · simp [hq]
  rw [pipePages, pipePages, hfilter]
  simp

theorem pipePages_add {pipe : Nat → Option Ends} {p : Nat} {e : Ends} (h : pipe p = none)
    (hp : p < PHYSTOP / PGSIZE) :
    pipePages (update pipe p (some e)) = p ::ₘ pipePages pipe := by
  rw [pipePages_remove (p := p) (by simp) hp, update_idem, ← h, update_eq_self]

theorem pipePages_set {pipe : Nat → Option Ends} {p : Nat} {e : Ends} (h : pipe p ≠ none) :
    pipePages (update pipe p (some e)) = pipePages pipe := by
  have hfilter : (Finset.range (PHYSTOP / PGSIZE)).filter
      (fun q => (update pipe p (some e) q).isSome) =
        (Finset.range (PHYSTOP / PGSIZE)).filter fun q => (pipe q).isSome := by
    refine filter_congr fun q _ => ?_
    by_cases hq : q = p
    · subst hq
      simp [Option.isSome_iff_ne_none, h]
    · rw [update_of_ne hq]
  rw [pipePages, pipePages, hfilter]

/-! ## Address spaces -/

-- the pages of pipes are not to be enumerated
attribute [irreducible] pipePages

/-- A process has the user pages that its size calls for. -/
def Good (s : Mem) (p : VProc) : Prop := ∀ r, p.pgdir = some r → Mapped s r (npages p.sz)

/-- The kernel stack, page table and user pages of a process in use. -/
structure Space (strict : Prop) (s : Mem) (p : VProc) : Prop where
  kstack : ∃ f, p.kstack = some f
  pgdir : ∃ r, p.pgdir = some r
  pos : 0 < p.sz
  user : Good s p ∨ ¬strict ∧ ∀ r, p.pgdir = some r → Mapped s r 1

variable {strict : Prop} {base : Nat}

theorem Keeps.space (h : Keeps (procPages s p) s s') (hlife : p.life ≠ .unused)
    (hs : Space strict s p) : Space strict s' p := by
  obtain ⟨⟨f, hf⟩, ⟨r, hr⟩, hpos, huser⟩ := hs
  have hkeeps : Keeps (pgs s r) s s' := by
    rw [procPages_of_used hlife hf hr] at h
    exact h.mono (Multiset.le_add_right _ _)
  have hmapped {n r' : Nat} (hr' : p.pgdir = some r') (hm : Mapped s r' n) : Mapped s' r' n := by
    rw [hr] at hr'
    cases hr'
    exact hkeeps.mapped hm
  refine ⟨⟨f, hf⟩, ⟨r, hr⟩, hpos, ?_⟩
  exact huser.imp (fun h r' hr' => hmapped hr' (h r' hr'))
    fun ⟨hstrict, h⟩ => ⟨hstrict, fun r' hr' => hmapped hr' (h r' hr')⟩

/-- Two states of a process that have the same pages. -/
structure VProc.SameSpace (q p : VProc) : Prop where
  life : q.life = .unused ↔ p.life = .unused
  kstack : q.kstack = p.kstack
  pgdir : q.pgdir = p.pgdir
  sz : q.sz = p.sz

theorem VProc.SameSpace.refl : p.SameSpace p := ⟨Iff.rfl, rfl, rfl, rfl⟩

theorem VProc.SameSpace.procPages_eq (h : q.SameSpace p) : procPages s q = procPages s p :=
  procPages_congr h.life h.kstack h.pgdir

theorem VProc.SameSpace.space (h : q.SameSpace p) (hp : Space strict s p) : Space strict s q := by
  obtain ⟨hkstack, hpgdir, hpos, huser⟩ := hp
  refine ⟨h.kstack ▸ hkstack, h.pgdir ▸ hpgdir, h.sz ▸ hpos, ?_⟩
  rw [Good, h.pgdir, h.sz]
  exact huser

/-! ## The invariant -/

structure Inv (strict : Prop) (base : Nat) (k : Kern) : Prop where
  owns : Owns k.mem (owned k)
  first : k.mem.first = base
  pos : 0 < base
  pipes : ∀ p, k.pipe p ≠ none → p < PHYSTOP / PGSIZE
  space : ∀ p, (k.proc p).life ≠ .unused → Space strict k.mem (k.proc p)
  files : Files k.file k.pipe

namespace Inv

theorem weaken (h : Inv True base k) : Inv strict base k := by
  refine ⟨h.owns, h.first, h.pos, h.pipes, fun p hp => ?_, h.files⟩
  obtain ⟨hkstack, hpgdir, hpos, huser⟩ := h.space p hp
  exact ⟨hkstack, hpgdir, hpos, .inl (huser.resolve_right fun hu => hu.1 trivial)⟩

theorem of_keeps (hboot : k'.boot = k.boot) (hpipe : k'.pipe = k.pipe)
    (hproc : ∀ p, procPages k.mem (k'.proc p) = procPages k.mem (k.proc p))
    (hfirst : k.mem.first = base) (hpos : 0 < base) (hpipes : ∀ p, k.pipe p ≠ none → p < PHYSTOP / PGSIZE)
    (hspace : ∀ p, (k'.proc p).life ≠ .unused → Space strict k.mem (k'.proc p))
    (hfile : Files k'.file k.pipe) (hkeeps : Keeps (owned k) k.mem k'.mem)
    (howns : Owns k'.mem (owned k)) : Inv strict base k' := by
  refine ⟨?_, ?_, hpos, ?_, fun p hlife => ?_, ?_⟩
  · rwa [owned_congr hboot hpipe hproc hkeeps]
  · rwa [hkeeps.first]
  · rwa [hpipe]
  · refine Keeps.space ?_ hlife (hspace p hlife)
    rw [hproc p]
    exact hkeeps.mono (procPages_le_owned p)
  · rwa [hpipe]

theorem keep (h : Inv strict base k) (hkeeps : Keeps (owned k) k.mem s') (howns : Owns s' (owned k)) :
    Inv strict base { k with mem := s' } :=
  .of_keeps (k := k) rfl rfl (fun _ => rfl) h.first h.pos h.pipes h.space h.files hkeeps howns

theorem same_space (h : Inv strict base k) (hboot : k'.boot = k.boot) (hpipe : k'.pipe = k.pipe)
    (hfile : Files k'.file k.pipe) (hmem : k'.mem = k.mem)
    (hproc : ∀ p, (k'.proc p).SameSpace (k.proc p)) : Inv strict base k' := by
  refine .of_keeps hboot hpipe (fun p => (hproc p).procPages_eq) h.first h.pos h.pipes
    (fun p hlife => ?_) hfile (hmem ▸ .refl) (hmem ▸ h.owns)
  exact (hproc p).space (h.space p (mt (hproc p).life.mpr hlife))

section
variable (hboot : k'.boot = k.boot) (hpipe : k'.pipe = k.pipe) (hfile : k'.file = k.file)
include hboot hpipe hfile

theorem retable (h : Inv strict base k) (hproc : k'.proc = update k.proc me p)
    (hlife : p.life ≠ .unused) (hf : p.kstack = (k.proc me).kstack) (hr : p.pgdir = some r)
    (hspace : Space strict k'.mem p) (hkeeps : Keeps (others k me) k.mem k'.mem)
    (howns : Owns k'.mem (pgs k'.mem r + others k me)) : Inv strict base k' := by
  have hme : k'.proc me = p := by rw [hproc, update_self]
  have hne (q : Slot) (hq : q ≠ me) : k'.proc q = k.proc q := by
    rw [hproc, update_of_ne hq]
  have hothers : others k' me = others k me :=
    others_congr hboot hpipe (fun q hq => by rw [hne q hq]) (by rw [hme, hf]) hkeeps
  refine ⟨?_, ?_, h.pos, ?_, fun q hlife' => ?_, ?_⟩
  · rwa [owned_eq_others (by rwa [hme]) (by rwa [hme]), hothers]
  · rw [hkeeps.first]
    exact h.first
  · rw [hpipe]
    exact h.pipes
  · by_cases hq : q = me
    · rw [hq, hme]
      exact hspace
    · rw [hne q hq] at hlife' ⊢
      exact (hkeeps.mono (procPages_le_others hq)).space hlife' (h.space q hlife')
  · rw [hfile, hpipe]
    exact h.files

theorem enter (h : Inv strict base k) (hnp : (k.proc np).life = .unused)
    (hproc : k'.proc = update k.proc np p) (hlife : p.life ≠ .unused)
    (hf : p.kstack = some f) (hr : p.pgdir = some r) (hspace : Space strict k'.mem p)
    (hkeeps : Keeps (owned k) k.mem k'.mem)
    (howns : Owns k'.mem (pgs k'.mem r + (f ::ₘ owned k))) : Inv strict base k' := by
  have hme : k'.proc np = p := by rw [hproc, update_self]
  have hne (q : Slot) (hq : q ≠ np) : k'.proc q = k.proc q := by
    rw [hproc, update_of_ne hq]
  have howned : owned k' = pgs k'.mem r + (f ::ₘ owned k) := by
    have hback : owned { k' with proc := update k'.proc np (k.proc np) } = owned k := by
      refine owned_congr hboot hpipe (fun q => ?_) hkeeps
      rw [hproc, update_idem, update_eq_self]
    rw [owned_leave (p := k.proc np) (by rwa [hme]) (by rwa [hme]) (by rwa [hme]) hnp, hback]
  refine ⟨?_, ?_, h.pos, ?_, fun q hlife' => ?_, ?_⟩
  · rwa [howned]
  · rw [hkeeps.first]
    exact h.first
  · rw [hpipe]
    exact h.pipes
  · by_cases hq : q = np
    · rw [hq, hme]
      exact hspace
    · rw [hne q hq] at hlife' ⊢
      exact (hkeeps.mono (procPages_le_owned q)).space hlife' (h.space q hlife')
  · rw [hfile, hpipe]
    exact h.files

theorem leave (h : Inv strict base k) (hproc : k'.proc = update k.proc me p)
    (hp : p.life = .unused)
    (hkeeps : Keeps (owned { k with proc := update k.proc me p }) k.mem k'.mem)
    (howns : Owns k'.mem (owned { k with proc := update k.proc me p })) :
    Inv strict base k' := by
  refine .of_keeps (k := { k with proc := update k.proc me p }) hboot hpipe
    (fun q => by rw [hproc]) h.first h.pos h.pipes (fun q hlife => ?_) (hfile ▸ h.files) hkeeps howns
  by_cases hq : q = me
  · rw [hq, hproc, update_self] at hlife
    exact absurd hp hlife
  · rw [hproc, update_of_ne hq] at hlife ⊢
    exact h.space q hlife

end

end Inv

end Xv6.Vm
