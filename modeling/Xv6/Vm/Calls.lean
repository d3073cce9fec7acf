import Xv6.Vm.Owned

/-!
# The calls keep the invariant

Each call keeps `Inv`, and takes a number of pages that is known beforehand (`demand`): it runs out
of memory if there are fewer, and not otherwise. A call by a process that has its user pages leaves
it with the user pages for its size, but for `sbrk` of minus the size, which unmaps them all and then
fails.
-/

namespace Xv6.Vm

open Multiset

variable {s s' : Mem} {R : Multiset Nat} {k k' : Kern} {me np : Slot} {f : FileId} {strict : Prop}
  {base : Nat} {E : Fault → Prop}

/-! ## Files and pipes -/

theorem wp_filealloc {Q : Option FileId → Kern → Prop}
    (hnone : (∀ f, (k.file f).ref ≠ 0) → Q none k)
    (hsome : ∀ f, (k.file f).ref = 0 →
      Q (some f) { k with file := update k.file f { k.file f with ref := 1 } }) :
    Prog.wp filealloc E Q k := by
  unfold filealloc
  rw [wp_bind, wp_gets]
  cases hfind : (List.finRange NFILE).find? fun f => (k.file f).ref = 0 with
  | none =>
    refine hnone fun f hf => ?_
    have hno := List.find?_eq_none.mp hfind f (List.mem_finRange f)
    simp [hf] at hno
  | some f =>
    have hf : (k.file f).ref = 0 := by simpa using List.find?_some hfind
    simp only [modifyFile, setAt_eq_update]
    exact hsome f hf

theorem wp_modifyFile {Q : Unit → Kern → Prop} {g : File → File}
    (h : Q () { k with file := update k.file f (g (k.file f)) }) :
    Prog.wp (modifyFile f g) E Q k := by
  simpa [modifyFile] using h

theorem wp_modifyProc {Q : Unit → Kern → Prop} {g : VProc → VProc}
    (h : Q () { k with proc := update k.proc me (g (k.proc me)) }) :
    Prog.wp (modifyProc me g) E Q k := by
  simpa [modifyProc] using h

theorem Inv.set_file (h : Inv strict base k) {file : FileId → File} (hfile : Files file k.pipe) :
    Inv strict base { k with file } :=
  h.same_space rfl rfl hfile rfl fun _ => .refl

theorem Inv.set_ofile (h : Inv strict base k) {ofile : Fin NOFILE → Option FileId} :
    Inv strict base { k with proc := update k.proc me { k.proc me with ofile } } := by
  refine h.same_space rfl rfl h.files rfl fun p => ?_
  dsimp only
  by_cases hp : p = me
  · subst hp
    rw [update_self]
    exact ⟨Iff.rfl, rfl, rfl, rfl⟩
  · rw [update_of_ne hp]
    exact .refl

/-- One end of a pipe is closed. The file that referred to it is closed already. -/
theorem wp_pipeclose (h : Inv strict base k) {p : Nat} {w : Bool} (hend : (k.file f).IsEnd p w) :
    Prog.wp (pipeclose p w) E (fun _ k' => Inv strict base k' ∧ k'.proc = k.proc)
      { k with file := update k.file f { k.file f with ref := 0, type := .none } } := by
  obtain ⟨e, he⟩ := Option.ne_none_iff_exists'.mp (h.files.used hend)
  have hp : k.pipe p ≠ none := h.files.used hend
  unfold pipeclose
  rw [wp_bind, wp_gets, he]
  simp only [← Ends.close.eq_def]
  split
  next hclosed =>
    -- the page of the pipe is freed
    have howned : owned k = p ::ₘ owned { k with pipe := update k.pipe p none } := by
      rw [owned, owned, pipePages_remove hp (h.pipes p hp), add_cons]
    simp only [wp_bind, wp_modify, vm, wp_zoom, setAt_eq_update]
    refine wp_imp (wp_kfree (howned ▸ h.owns)) ?_
    rintro _ s' ⟨howns, hkeeps, _⟩
    refine ⟨?_, trivial⟩
    refine .of_keeps (k := { k with pipe := update k.pipe p none }) rfl rfl
      (fun _ => rfl) h.first h.pos (fun q hq => ?_) h.space
      (h.files.shut_none hend he hclosed.1 hclosed.2) hkeeps howns
    dsimp only at hq
    by_cases hqp : q = p
    · rw [hqp, update_self] at hq
      exact absurd rfl hq
    · rw [update_of_ne hqp] at hq
      exact h.pipes q hq
  next hopen =>
    have hset : owned { k with pipe := update k.pipe p (some (e.close w)) } = owned k := by
      rw [owned, owned, pipePages_set hp]
    simp only [wp_modify, setAt_eq_update]
    refine ⟨.of_keeps (k := { k with pipe := update k.pipe p (some (e.close w)) }) rfl rfl
      (fun _ => rfl) h.first h.pos (fun q hq => ?_) h.space (h.files.shut_set hend he ?_) .refl ?_, trivial⟩
    · dsimp only at hq
      by_cases hqp : q = p
      · rw [hqp]
        exact h.pipes p hp
      · rw [update_of_ne hqp] at hq
        exact h.pipes q hq
    · grind
    · rw [hset]
      exact h.owns

theorem wp_fileclose (h : Inv strict base k) :
    Prog.wp (fileclose f) (fun e => e ≠ oom) (fun _ k' => Inv strict base k' ∧ k'.proc = k.proc) k := by
  unfold fileclose
  rw [wp_bind, wp_gets]
  split
  next => exact (by decide : Fault.panic "fileclose" ≠ oom)
  next href =>
  split
  next href' =>
    exact wp_modifyFile ⟨h.set_file (h.files.set_ref href' (.inl (by omega))), rfl⟩
  next href' =>
    rw [wp_bind]
    refine wp_modifyFile (wp_when (fun htype => ?_) fun htype => ?_)
    · exact wp_pipeclose h ⟨by omega, htype, rfl, rfl⟩
    · exact ⟨h.set_file (h.files.close htype), rfl⟩

/-- The number of files that are not in use. -/
def freeFiles (k : Kern) : Nat := (Finset.univ.filter fun f => (k.file f).ref = 0).card

theorem freeFiles_of_none (h : ∀ f, (k.file f).ref ≠ 0) : freeFiles k = 0 := by
  rw [freeFiles, Finset.card_eq_zero, Finset.filter_eq_empty_iff]
  exact fun f _ => h f

theorem freeFiles_of_one (h : ∀ g, (k.file g).ref = 0 → g = f) : freeFiles k ≤ 1 := by
  refine Finset.card_le_one.mpr fun g hg g' hg' => ?_
  rw [h g (Finset.mem_filter.mp hg).2, h g' (Finset.mem_filter.mp hg').2]

theorem freeFiles_of_two {g : FileId} (hne : f ≠ g) (hf : (k.file f).ref = 0)
    (hg : (k.file g).ref = 0) : 2 ≤ freeFiles k := by
  refine Finset.one_lt_card.mpr ⟨f, ?_, g, ?_, hne⟩
  · exact Finset.mem_filter.mpr ⟨Finset.mem_univ f, hf⟩
  · exact Finset.mem_filter.mpr ⟨Finset.mem_univ g, hg⟩

theorem Inv.set_ref (h : Inv strict base k) (hf : (k.file f).ref = 0) :
    Inv strict base { k with file := update k.file f { k.file f with ref := 1 } } :=
  h.set_file (h.files.set_ref Nat.zero_lt_one (.inr (h.files.idle f hf)))

theorem Inv.add_pipe (h : Inv strict base k) {p : Nat} {l : List Nat} {f₀ f₁ : FileId} {x₀ x₁ : File}
    (howns : Owns { k.mem with freelist := l } (p ::ₘ owned k)) (hne : f₀ ≠ f₁)
    (hf₀ : (k.file f₀).type ≠ .pipe) (hf₁ : (k.file f₁).type ≠ .pipe) (hx₀ : x₀.IsEnd p false)
    (hx₁ : x₁.IsEnd p true) :
    Inv strict base { k with
      mem := { k.mem with freelist := l }
      file := update (update k.file f₀ x₀) f₁ x₁
      pipe := update k.pipe p (some ⟨true, true⟩) } := by
  have hp : p < PHYSTOP / PGSIZE := (howns.mem_all (mem_cons_self ..)).2
  have hnone : k.pipe p = none := by
    by_contra hsome
    refine howns.not_mem_of_cons (mem_add.mpr (.inr ?_))
    rw [pipePages_remove hsome hp]
    exact mem_cons_self ..
  have howned : owned { k with pipe := update k.pipe p (some ⟨true, true⟩) } =
      p ::ₘ owned k := by
    rw [owned, owned, pipePages_add hnone hp, add_cons]
  refine .of_keeps (k := { k with pipe := update k.pipe p (some ⟨true, true⟩) }) rfl rfl
    (fun _ => rfl) h.first h.pos (fun q hq => ?_) h.space
    (h.files.addPipe hnone hne hf₀ hf₁ hx₀ hx₁) ⟨rfl, rfl, fun _ _ => rfl⟩ ?_
  · dsimp only at hq
    by_cases hqp : q = p
    · rwa [hqp]
    · rw [update_of_ne hqp] at hq
      exact h.pipes q hq
  · rw [howned]
    exact howns

/-- The pages that `pipe` takes. -/
def pipeNeed (k : Kern) : Nat := if 2 ≤ freeFiles k then 1 else 0

theorem wp_pipealloc (h : Inv strict base k) :
    Prog.wp pipealloc (Needs k.mem (pipeNeed k) True)
      (fun _ k' => Inv strict base k' ∧ k'.proc = k.proc ∧ pipeNeed k ≤ k.mem.freelist.length) k := by
  unfold pipealloc
  rw [wp_bind]
  refine wp_filealloc (fun hnone => ?_) fun f₀ hf₀ => ?_
  · have hneed : pipeNeed k = 0 := by
      rw [pipeNeed, freeFiles_of_none hnone, if_neg (by decide)]
    refine ⟨h, rfl, ?_⟩
    rw [hneed]
    exact Nat.zero_le _
  rw [wp_bind]
  have h₁ := h.set_ref hf₀
  refine wp_filealloc (fun hnone => ?_) fun f₁ hf₁ => ?_
  · have hneed : pipeNeed k = 0 := by
      refine if_neg (not_le.mpr (Nat.lt_succ_of_le (freeFiles_of_one (f := f₀) fun g hg => ?_)))
      by_contra hgf
      have hg' := hnone g
      dsimp only at hg'
      rw [update_of_ne hgf] at hg'
      exact hg' hg
    have herr (e : Fault) (he : e ≠ oom) : Needs k.mem (pipeNeed k) True e := by
      refine .inr ⟨he, ?_, trivial⟩
      rw [hneed]
      exact Nat.zero_le _
    simp only [pipeBad, wp_bind]
    refine wp_mono (wp_fileclose h₁) herr fun _ k' hk' => ⟨hk'.1, hk'.2, ?_⟩
    rw [hneed]
    exact Nat.zero_le _
  have hne : f₀ ≠ f₁ := by
    rintro rfl
    dsimp only at hf₁
    rw [update_self] at hf₁
    cases hf₁
  dsimp only at hf₁
  rw [update_of_ne hne.symm] at hf₁
  have hneed : pipeNeed k = 1 := if_pos (freeFiles_of_two hne hf₀ hf₁)
  have h₂ := h₁.set_ref (f := f₁) (by dsimp only; rwa [update_of_ne hne.symm])
  dsimp only at h₂ ⊢
  rw [wp_bind, vm, wp_zoom]
  refine wp_mono (wp_kalloc h₂.owns) (fun e he => .inl ⟨he.1, ?_⟩) ?_
  · rw [hneed, show k.mem.freelist = [] from he.2]
    exact Nat.zero_lt_one
  rintro _ _ ⟨p, l, rfl, hl, rfl, howns⟩
  dsimp only
  rw [wp_bind, wp_modify, wp_bind]
  refine wp_modifyFile ?_
  rw [wp_bind]
  refine wp_modifyFile ⟨?_, rfl, ?_⟩
  · rw [setAt_eq_update]
    refine h₂.add_pipe howns hne ?_ ?_ ⟨?_, rfl, rfl, rfl⟩ ⟨?_, rfl, rfl, rfl⟩
    · dsimp only
      rw [update_of_ne hne, update_self]
      exact h.files.idle f₀ hf₀
    · dsimp only
      rw [update_self, update_of_ne hne.symm]
      exact h.files.idle f₁ hf₁
    · dsimp only
      rw [update_of_ne hne, update_self]
      exact Nat.zero_lt_one
    · dsimp only
      rw [update_of_ne hne.symm, update_self]
      exact Nat.zero_lt_one
  · rw [hneed, show k.mem.freelist = p :: l from hl]
    exact Nat.succ_le_succ (Nat.zero_le _)

theorem wp_fdalloc {Q : Option (Fin NOFILE) → Kern → Prop} (hnone : Q none k)
    (hsome : ∀ fd, Q (some fd) { k with
      proc := update k.proc me
        { k.proc me with ofile := update (k.proc me).ofile fd (some f) } }) :
    Prog.wp (fdalloc me f) E Q k := by
  unfold fdalloc
  rw [wp_bind, wp_gets]
  split
  next => exact hnone
  next fd _ =>
    rw [wp_bind]
    refine wp_modifyProc ?_
    rw [setAt_eq_update]
    exact hsome fd

/-- What a call does after it has taken its pages. -/
theorem wp_needs {α β : Type} {x : KernM α} {g : α → KernM β} {need : Nat}
    {Q : α → Kern → Prop} {Q' : β → Kern → Prop}
    (hx : Prog.wp x (Needs k.mem need True)
      (fun a k' => Q a k' ∧ need ≤ k.mem.freelist.length) k)
    (hg : ∀ a k', Q a k' → Prog.wp (g a) (fun e => e ≠ oom) Q' k') :
    Prog.wp (x >>= g) (Needs k.mem need True)
      (fun b k' => Q' b k' ∧ need ≤ k.mem.freelist.length) k := by
  rw [wp_bind]
  refine wp_imp hx fun a k' ⟨hQ, hle⟩ => ?_
  exact wp_mono (hg a k' hQ) (fun e he => .inr ⟨he, hle, trivial⟩) fun b k'' hb => ⟨hb, hle⟩

theorem wp_sysPipe (h : Inv strict base k) :
    Prog.wp (sysPipe me) (Needs k.mem (pipeNeed k) True)
      (fun _ k' => Inv strict base k' ∧ pipeNeed k ≤ k.mem.freelist.length) k := by
  refine wp_needs (Q := fun _ k' => Inv strict base k') ?_ fun o k₁ h₁ => ?_
  · exact wp_imp (wp_pipealloc h) fun _ k' ⟨hk', _, hle⟩ => ⟨hk', hle⟩
  match o with
  | none => exact h₁
  | some (rf, wf) =>
    have hclose {k : Kern} (h : Inv strict base k) : Prog.wp (do
        fileclose rf
        fileclose wf
        pure (-1 : Int)) (fun e => e ≠ oom) (fun _ k' => Inv strict base k') k := by
      refine wp_seq (wp_fileclose h) fun _ k' hk' => ?_
      exact wp_seq (wp_fileclose hk'.1) fun _ k'' hk'' => hk''.1
    rw [wp_bind]
    refine wp_fdalloc (hclose h₁) fun fd₀ => ?_
    rw [wp_bind]
    refine wp_fdalloc ?_ fun fd₁ => h₁.set_ofile.set_ofile
    rw [wp_bind]
    exact wp_modifyProc (hclose h₁.set_ofile.set_ofile)

theorem wp_sysClose (h : Inv strict base k) {fd : Fin NOFILE} :
    Prog.wp (sysClose me fd) (fun e => e ≠ oom) (fun _ k' => Inv strict base k') k := by
  unfold sysClose
  rw [wp_bind, wp_gets]
  split
  next => exact h
  next f _ =>
    rw [wp_bind]
    refine wp_modifyProc ?_
    exact wp_seq (wp_fileclose h.set_ofile) fun _ k' hk' => hk'.1

/-! ## `sbrk` -/

section
variable {r : Nat} {n : Int}

/-- The caller of a call: a process in use, with its user pages. -/
structure Caller (k : Kern) (me : Slot) (r : Nat) : Prop where
  life : (k.proc me).life = .used
  pgdir : (k.proc me).pgdir = some r
  mapped : Mapped k.mem r (npages (k.proc me).sz)

theorem Caller.ne_unused (hc : Caller k me r) : (k.proc me).life ≠ .unused := by
  rw [hc.life]
  decide

theorem Caller.owns (hc : Caller k me r) (h : Inv strict base k) :
    Owns k.mem (pgs k.mem r + others k me) := by
  rw [← owned_eq_others hc.ne_unused hc.pgdir]
  exact h.owns

theorem Caller.space (hc : Caller k me r) (h : Inv strict base k) {sz : Nat} (hpos : 0 < sz)
    (huser : Mapped s' r (npages sz) ∨ ¬strict ∧ Mapped s' r 1) :
    Space strict s' { k.proc me with sz } := by
  have hpgdir {m r' : Nat} (hm : Mapped s' r m) (hr' : (k.proc me).pgdir = some r') :
      Mapped s' r' m := by
    rw [hc.pgdir] at hr'
    cases hr'
    exact hm
  refine ⟨(h.space me hc.ne_unused).kstack, ⟨r, hc.pgdir⟩, hpos, ?_⟩
  exact huser.imp (fun hm r' => hpgdir hm) fun ⟨hstrict, hm⟩ => ⟨hstrict, fun r' => hpgdir hm⟩

/-- The size of the caller changes, with its user pages. -/
theorem Caller.resize (hc : Caller k me r) (h : Inv strict base k) {sz : Nat}
    (hkeeps : Keeps (others k me) k.mem s') (howns : Owns s' (pgs s' r + others k me)) (hpos : 0 < sz)
    (hm : Mapped s' r (npages sz)) :
    Inv strict base { k with mem := s', proc := update k.proc me { k.proc me with sz } } :=
  Inv.retable (k := k) rfl rfl rfl h rfl hc.ne_unused rfl hc.pgdir (hc.space h hpos (.inl hm)) hkeeps
    howns

/-- The user pages of the caller change, but not its size. -/
theorem Caller.remap (hc : Caller k me r) (h : Inv strict base k)
    (hkeeps : Keeps (others k me) k.mem s') (howns : Owns s' (pgs s' r + others k me))
    (huser : Mapped s' r (npages (k.proc me).sz) ∨ ¬strict ∧ Mapped s' r 1) :
    Inv strict base { k with mem := s' } :=
  Inv.retable (k := k) rfl rfl rfl h (update_eq_self me k.proc).symm hc.ne_unused rfl
    hc.pgdir (hc.space h (h.space me hc.ne_unused).pos huser) hkeeps howns

/-- The pages that `sbrk` takes. -/
def sbrkNeed (s : Mem) (r sz : Nat) (n : Int) : Nat :=
  if 0 < n then absent s r (span (npages sz) (npages (grown sz (uint64 (sz + n))))) else 0

/-- A call that fails leaves the user pages of the caller as they were. -/
def Unchanged (k k' : Kern) (r : Nat) : Prop :=
  k'.proc = k.proc ∧ ∀ σ, lookup k'.mem r σ = lookup k.mem r σ

theorem Extends.lookup_eq (h : Extends r R ∅ s s') (σ : List Index) :
    lookup s' r σ = lookup s r σ := by
  cases hσ : lookup s r σ with
  | some f => exact h.old σ f hσ
  | none =>
    refine not_not.mp (mt (h.dom σ).mp ?_)
    simp [hσ]

theorem pgdirOf_eq (hr : (k.proc me).pgdir = some r) : pgdirOf me k = .ok (r, k) := by
  refine eq_ok_of_wp ?_
  unfold pgdirOf
  rw [wp_bind, wp_gets, hr]
  exact ⟨rfl, rfl⟩

theorem wp_growproc_pos (h : Inv strict base k) (hc : Caller k me r) (hn : 0 < n) :
    Prog.wp (growproc me n) (Needs k.mem (sbrkNeed k.mem r (k.proc me).sz n) True)
      (fun o k' => (Inv strict base k' ∧ (o < 0 → Unchanged k k' r)) ∧
        sbrkNeed k.mem r (k.proc me).sz n ≤ k.mem.freelist.length) k := by
  have hpos := (h.space me hc.ne_unused).pos
  unfold growproc
  rw [sbrkNeed, if_pos hn, wp_bind, wp_gets]
  dsimp only
  rw [wp_bind, wp_of_eq_ok (pgdirOf_eq hc.pgdir), if_pos hn, wp_bind, vm, wp_zoom]
  generalize uint64 (_ + n) = newsz
  refine wp_mono (wp_allocuvm (hc.owns h) hc.mapped hpos newsz) (fun e he => .inl he) ?_
  rintro _ s₁ ⟨hext, rfl, hm⟩
  have hle := Nat.le.intro ((Nat.add_comm ..).trans hext.free)
  by_cases hkern : KERNBASE ≤ newsz
  · rw [if_pos hkern, if_pos ⟨by omega, rfl⟩]
    rw [grown, if_pos hkern] at hext hm hle ⊢
    rw [span_self] at hext
    exact ⟨⟨hc.remap h hext.keeps hext.owns (.inl hm), fun _ => ⟨rfl, hext.lookup_eq⟩⟩, hle⟩
  · have hne : ¬(n ≠ 0 ∧ grown (k.proc me).sz newsz = 0) := by
      have := le_grown (k.proc me).sz newsz
      omega
    rw [if_neg hkern, if_neg hne, wp_bind]
    refine wp_modifyProc ⟨⟨?_, fun h => absurd h (by decide)⟩, hle⟩
    exact hc.resize h hext.keeps hext.owns (hpos.trans_le (le_grown _ _)) hm

theorem uint64_neg {sz : Nat} (hsz : sz ≤ 57345 * PGSIZE) (hn : n < 0) (hlo : -2 ^ 63 ≤ n) :
    uint64 (sz + n) = 0 ↔ n = -sz := by
  have hsz : sz ≤ 57345 * 4096 := hsz
  unfold uint64
  omega

theorem wp_growproc_neg (h : Inv strict base k) (hc : Caller k me r) (hn : n < 0) (hlo : -2 ^ 63 ≤ n)
    (hkept : strict → n = -(k.proc me).sz → (k.proc me).sz ≤ PGSIZE) :
    Prog.wp (growproc me n) E
      (fun o k' => Inv strict base k' ∧
        (o < 0 → (n = -(k.proc me).sz → (k.proc me).sz ≤ PGSIZE) → Unchanged k k' r) ∧
        (n = -(k.proc me).sz → k'.proc = k.proc ∧ Mapped k'.mem r 1)) k := by
  have hpos := (h.space me hc.ne_unused).pos
  have hbound := hc.mapped.le (hc.owns h)
  have hsz := (le_npages _).trans (Nat.mul_le_mul_right PGSIZE hbound)
  have husers : 57345 < USERPAGES := by decide
  have hzero := uint64_neg hsz hn hlo
  unfold growproc
  rw [wp_bind, wp_gets]
  dsimp only
  rw [wp_bind, wp_of_eq_ok (pgdirOf_eq hc.pgdir), if_neg (by omega), if_pos hn, wp_bind, vm,
    wp_zoom]
  generalize uint64 (_ + n) = newsz at *
  refine wp_imp (wp_deallocuvm (hc.owns h) hc.mapped (h.first ▸ h.pos)) ?_
  rintro _ s₁ ⟨rfl, hun⟩
  have hm := hun.mapped hc.mapped (npages_mono (min_le_left _ _)) (by omega)
  by_cases hnew : newsz = 0
  · -- everything is unmapped, and the size stays
    subst hnew
    rw [Nat.min_zero] at hun hm ⊢
    rw [if_pos ⟨by omega, rfl⟩]
    have hm₁ : Mapped s₁ r 1 := by
      intro y hy
      rw [hm y hy]
      show 1 ≤ y ∧ y < 0 ↔ _
      omega
    have hsmall (hle : (k.proc me).sz ≤ PGSIZE) : npages (k.proc me).sz = 1 :=
      le_antisymm (npages_mono hle) (npages_pos hpos)
    refine ⟨?_, fun _ hkept' => ⟨rfl, fun σ => ?_⟩, fun _ => ⟨rfl, hm₁⟩⟩
    · refine hc.remap h hun.keeps hun.owns ?_
      by_cases hstrict : strict
      · left
        rwa [hsmall (hkept hstrict (hzero.mp rfl))]
      · exact .inr ⟨hstrict, hm₁⟩
    · dsimp only
      rw [hun.lookup]
      split
      next hσ =>
        rw [hsmall (hkept' (hzero.mp rfl)), pageSpan, Finset.mem_image] at hσ
        obtain ⟨y, hy, rfl⟩ := hσ
        have hy : y < 1 := (Finset.mem_Ico.mp hy).2
        refine (not_not.mp (mt (hc.mapped y (by omega)).mp ?_)).symm
        omega
      next => rfl
  · rw [if_neg (by omega), wp_bind]
    refine wp_modifyProc ⟨?_, fun h => absurd h (by decide), fun h => absurd (hzero.mpr h) hnew⟩
    exact hc.resize h hun.keeps hun.owns (by omega) hm

theorem wp_growproc (h : Inv strict base k) (hc : Caller k me r) (hlo : -2 ^ 63 ≤ n)
    (hkept : strict → n = -(k.proc me).sz → (k.proc me).sz ≤ PGSIZE) :
    Prog.wp (growproc me n) (Needs k.mem (sbrkNeed k.mem r (k.proc me).sz n) True)
      (fun o k' => (Inv strict base k' ∧
        (o < 0 → (n = -(k.proc me).sz → (k.proc me).sz ≤ PGSIZE) → Unchanged k k' r) ∧
        (n = -(k.proc me).sz → k'.proc = k.proc ∧ Mapped k'.mem r 1)) ∧
        sbrkNeed k.mem r (k.proc me).sz n ≤ k.mem.freelist.length) k := by
  have hpos := (h.space me hc.ne_unused).pos
  have hzero (hn : ¬0 < n) : sbrkNeed k.mem r (k.proc me).sz n ≤ k.mem.freelist.length := by
    rw [sbrkNeed, if_neg hn]
    exact Nat.zero_le _
  rcases lt_trichotomy n 0 with hn | rfl | hn
  · exact wp_imp (wp_growproc_neg h hc hn hlo hkept) fun o k' hk' => ⟨hk', hzero hn.not_gt⟩
  · unfold growproc
    rw [wp_bind, wp_gets]
    dsimp only
    rw [wp_bind, wp_of_eq_ok (pgdirOf_eq hc.pgdir), if_neg (lt_irrefl _),
      if_neg (lt_irrefl _), wp_bind, wp_pure, if_neg (by simp), wp_bind]
    refine wp_modifyProc ⟨⟨?_, fun h => absurd h (by decide), fun h => ?_⟩, hzero (lt_irrefl _)⟩
    · exact hc.resize h .refl (hc.owns h) hpos hc.mapped
    · omega
  · exact wp_imp (wp_growproc_pos h hc hn) fun o k' ⟨hk', hle⟩ =>
      ⟨⟨hk'.1, fun ho _ => hk'.2 ho, fun h => by omega⟩, hle⟩

theorem wp_sysSbrk (h : Inv strict base k) (hc : Caller k me r) (hlo : -2 ^ 63 ≤ n)
    (hkept : strict → n = -(k.proc me).sz → (k.proc me).sz ≤ PGSIZE) :
    Prog.wp (sysSbrk me n) (Needs k.mem (sbrkNeed k.mem r (k.proc me).sz n) True)
      (fun _ k' => (Inv strict base k' ∧
        (n = -(k.proc me).sz → k'.proc = k.proc ∧ Mapped k'.mem r 1)) ∧
        sbrkNeed k.mem r (k.proc me).sz n ≤ k.mem.freelist.length) k := by
  unfold sysSbrk
  rw [wp_bind, wp_gets, wp_bind]
  refine wp_imp (wp_growproc h hc hlo hkept) fun o k' ⟨⟨hinv, _, hzero⟩, hle⟩ => ?_
  split <;> exact ⟨⟨hinv, hzero⟩, hle⟩

end

/-! ## `exec` -/

section
variable {r : Nat} {im : Image}

-- the loops of `freevm` are not to be unrolled
attribute [local irreducible] freevm

/-- The pages that `exec` takes. -/
def execNeed (im : Image) : Nat :=
  if im.found = false then 0
  else match im.elf with
    | none => 0
    | some phnum => 1 + (span 1 (npages (execTop im phnum.toNat))).card

theorem wp_execCommit (h : Inv strict base k) (hc : Caller k me r) {d sz : Nat}
    (howns : Owns s' (pgs s' d + owned k)) (hkeeps : Keeps (owned k) k.mem s') (hpos : 0 < sz)
    (hm : Mapped s' d (npages sz)) :
    Prog.wp (vm (freevm r)) E (fun _ k' => Inv strict base k')
      { k with mem := s',
               proc := update k.proc me { k.proc me with pgdir := some d, sz } } := by
  have hspace := h.space me hc.ne_unused
  have howned := owned_eq_others hc.ne_unused hc.pgdir
  have hr : Keeps (pgs k.mem r) k.mem s' := by
    rw [howned] at hkeeps
    exact hkeeps.mono (le_add_right _ _)
  have howns' : Owns s' (pgs s' r + (pgs s' d + others k me)) := by
    rw [howned, ← hr.pgs_eq] at howns
    rwa [add_left_comm]
  rw [vm, wp_zoom]
  refine wp_imp (wp_freevm howns') fun _ s'' ⟨howns'', hkeeps''⟩ => ?_
  have hd : Keeps (pgs s' d) s' s'' := hkeeps''.mono (le_add_right _ _)
  refine Inv.retable (k := k) rfl rfl rfl h rfl hc.ne_unused rfl rfl
    ⟨hspace.kstack, ⟨d, rfl⟩, hpos, .inl fun r' hr' => ?_⟩ ?_ ?_
  · cases hr'
    exact hd.mapped hm
  · rw [howned] at hkeeps
    exact (hkeeps.mono (le_add_left _ _)).trans (hkeeps''.mono (le_add_left _ _))
  · rw [hd.pgs_eq]
    exact howns''

theorem wp_exec (h : Inv strict base k) (hc : Caller k me r) :
    Prog.wp (exec me im) (Needs k.mem (execNeed im) True)
      (fun _ k' => Inv strict base k' ∧ execNeed im ≤ k.mem.freelist.length) k := by
  unfold exec
  rw [wp_bind, wp_of_eq_ok (pgdirOf_eq hc.pgdir)]
  by_cases hfound : im.found = false
  · rw [if_pos hfound, execNeed, if_pos hfound]
    exact ⟨h, Nat.zero_le _⟩
  rw [if_neg hfound, execNeed, if_neg hfound]
  cases helf : im.elf with
  | none => exact ⟨h, Nat.zero_le _⟩
  | some phnum =>
    rw [wp_bind, vm, wp_zoom]
    refine wp_mono (wp_setupkvm h.owns) (fun e he => .inl ⟨he.1, ?_⟩) ?_
    · rw [he.2]
      exact Nat.add_pos_left Nat.zero_lt_one _
    rintro _ s₁ ⟨d, rfl, howns, hkeeps, hfresh, hfree⟩
    have himage := wp_execImage howns hfresh im phnum.toNat
    have hcard := absent_span_of_fresh (a := 1) (b := npages (execTop im phnum.toNat)) hfresh
    dsimp only
    rw [wp_bind, vm, wp_zoom]
    refine wp_mono himage (fun e he => ?_) fun o s₂ ⟨hext, hsz⟩ => ?_
    · exact he.imp (fun ⟨he, hlt⟩ => ⟨he, by omega⟩) fun ⟨he, hle, _⟩ => ⟨he, by omega, trivial⟩
    have hfree₂ := hext.free
    have hle : 1 + (span 1 (npages (execTop im phnum.toNat))).card ≤ k.mem.freelist.length := by
      omega
    cases o with
    | none =>
      rw [wp_bind, vm, wp_zoom]
      refine wp_imp (wp_freevm hext.owns) fun _ s₃ ⟨howns₃, hkeeps₃⟩ => ⟨?_, hle⟩
      exact h.keep ((hkeeps.trans hext.keeps).trans hkeeps₃) howns₃
    | some sz =>
      obtain ⟨hpos, hm⟩ := hsz sz rfl
      rw [wp_bind]
      refine wp_modifyProc ?_
      rw [wp_bind]
      refine wp_imp (wp_execCommit h hc hext.owns (hkeeps.trans hext.keeps) hpos hm) ?_
      exact fun _ k' hk' => ⟨hk', hle⟩

/-! ## `fork` -/

theorem findProc_some {g : VProc → Bool} {p : Slot} (h : findProc k g = some p) : g (k.proc p) = true := by
  simpa using List.find?_some h

/-- The slot that `allocproc` finds. -/
def unusedSlot (k : Kern) : Option Slot := findProc k fun p => p.life = .unused

theorem wp_allocproc {Q : Option Slot → Kern → Prop} (h : Owns k.mem R)
    (hnone : unusedSlot k = none → Q none k)
    (hsome : ∀ np f l, unusedSlot k = some np → k.mem.freelist = f :: l →
      Owns { k.mem with freelist := l } (f ::ₘ R) →
      Q (some np) { k with
        mem := { k.mem with freelist := l }
        proc := update k.proc np
          { k.proc np with life := .used, pid := k.nextpid, kstack := some f }
        nextpid := k.nextpid + 1 })
    (hoom : ∀ np, unusedSlot k = some np → k.mem.freelist = [] → E oom) :
    Prog.wp allocproc E Q k := by
  unfold allocproc
  rw [wp_bind, wp_gets, ← unusedSlot]
  cases hfind : unusedSlot k with
  | none => exact hnone hfind
  | some np =>
    rw [wp_bind, wp_gets, wp_bind]
    refine wp_modifyProc ?_
    rw [wp_bind, wp_modify, wp_bind, vm, wp_zoom]
    refine wp_mono (wp_kalloc h) (fun e he => he.1 ▸ hoom np hfind he.2) ?_
    rintro _ _ ⟨f, l, rfl, hl, rfl, howns⟩
    rw [wp_bind]
    refine wp_modifyProc ?_
    dsimp only
    rw [update_idem, update_self]
    exact hsome np f l hfind hl howns

theorem wp_dupFiles (h : Inv strict base k) :
    Prog.wp (dupFiles me np) (fun e => e = .panic "filedup") (fun _ k' => Inv strict base k') k := by
  refine wp_times (I := fun _ k' => Inv strict base k') h fun fd k' _ h' => ?_
  rw [wp_bind, wp_gets]
  split
  next => exact h'
  next f _ =>
    unfold filedup
    rw [wp_bind, wp_bind, wp_gets]
    split
    next => exact (rfl : Fault.panic "filedup" = _)
    next href =>
      refine wp_modifyFile (wp_modifyProc ?_)
      exact (h'.set_file (h'.files.set_ref (Nat.succ_pos _) (.inl (by omega)))).set_ofile

/-- The pages that `fork` takes: a kernel stack, and a copy of the page table. -/
def forkNeed (k : Kern) (me : Slot) : Nat :=
  if (unusedSlot k).isSome then 2 + (span 1 (npages (k.proc me).sz)).card else 0

theorem wp_fork (h : Inv strict base k) (hc : Caller k me r) :
    Prog.wp (fork me)
      (fun e => e = oom ∧ k.mem.freelist.length < forkNeed k me ∨
        e = .panic "filedup" ∧ forkNeed k me ≤ k.mem.freelist.length)
      (fun _ k' => Inv strict base k' ∧ forkNeed k me ≤ k.mem.freelist.length) k := by
  unfold fork
  rw [wp_bind]
  refine wp_allocproc h.owns (fun hnone => ?_) (fun np f l hfind hl howns => ?_)
    fun np hfind hl => ?_
  · rw [forkNeed, hnone]
    exact ⟨h, Nat.zero_le _⟩
  · have hneed : forkNeed k me = 2 + (span 1 (npages (k.proc me).sz)).card := by
      rw [forkNeed, hfind, Option.isSome_some, if_pos rfl]
    have hnp : (k.proc np).life = .unused := by simpa using findProc_some hfind
    have hne : me ≠ np := by
      rintro rfl
      exact hc.ne_unused hnp
    have hpos := (h.space me hc.ne_unused).pos
    have hlen : k.mem.freelist.length = l.length + 1 := by rw [hl]; rfl
    have hr : pgs k.mem r ≤ f ::ₘ owned k := by
      rw [owned_eq_others hc.ne_unused hc.pgdir]
      exact (le_add_right _ _).trans (le_cons_self ..)
    have hcopy := wp_copyuvm howns hr hc.mapped hpos
    have hpgdir : (update k.proc np { k.proc np with
        life := .used, pid := k.nextpid, kstack := some f } me).pgdir = some r := by
      rw [update_of_ne hne, hc.pgdir]
    rw [wp_bind, wp_of_eq_ok (pgdirOf_eq hpgdir), wp_bind, wp_gets]
    dsimp only
    rw [update_of_ne hne, wp_bind, vm, wp_zoom]
    refine wp_mono hcopy (fun e he => .inl ⟨he.1, ?_⟩) ?_
    · have hlt : l.length < 1 + (span 1 (npages (k.proc me).sz)).card := he.2
      omega
    rintro _ s₁ ⟨d, rfl, howns₁, hkeeps, hm, hfree⟩
    have hfree : s₁.freelist.length + (1 + (span 1 (npages (k.proc me).sz)).card) = l.length := hfree
    rw [wp_bind]
    refine wp_modifyProc ?_
    dsimp only
    rw [update_idem, update_self]
    have hinv : Inv strict base { k with
        mem := s₁
        proc := update k.proc np { k.proc np with
          life := .used, pid := k.nextpid, parent := some me, kstack := some f, pgdir := some d
          sz := (k.proc me).sz }
        nextpid := k.nextpid + 1 } := by
      have hkeeps' : Keeps (owned k) k.mem s₁ :=
        ⟨hkeeps.first, hkeeps.kpdpt, fun b hb => hkeeps.page b (mem_cons_of_mem hb)⟩
      refine Inv.enter (k := k) rfl rfl rfl h hnp rfl (fun h => by cases h) rfl rfl
        ⟨⟨f, rfl⟩, ⟨d, rfl⟩, hpos, .inl fun r' hr' => ?_⟩ hkeeps' howns₁
      cases hr'
      exact hm
    rw [wp_bind]
    refine wp_mono (wp_dupFiles hinv) (fun e he => .inr ⟨he, by omega⟩)
      fun _ k' hk' => ?_
    exact ⟨hk', by omega⟩
  · refine .inl ⟨rfl, ?_⟩
    rw [forkNeed, hfind, Option.isSome_some, hl]
    exact Nat.add_pos_left Nat.zero_lt_two _

/-! ## `exit` and `wait` -/

theorem wp_closeFiles (h : Inv strict base k) (hlife : (k.proc me).life ≠ .unused) :
    Prog.wp (closeFiles me) (fun e => e ≠ oom)
      (fun _ k' => Inv strict base k' ∧ (k'.proc me).life ≠ .unused) k := by
  refine wp_times (I := fun _ k' => Inv strict base k' ∧ (k'.proc me).life ≠ .unused) ⟨h, hlife⟩
    fun fd k' _ ⟨h', hlife'⟩ => ?_
  rw [wp_bind, wp_gets]
  split
  next => exact ⟨h', hlife'⟩
  next f _ =>
    refine wp_seq (wp_fileclose h') fun _ k'' ⟨h'', hproc⟩ => wp_modifyProc ⟨h''.set_ofile, ?_⟩
    dsimp only
    rw [update_self]
    exact hproc ▸ hlife'

theorem wp_exit (h : Inv strict base k) (hlife : (k.proc me).life ≠ .unused) :
    Prog.wp (exit me) (fun e => e ≠ oom) (fun _ k' => Inv strict base k') k := by
  unfold exit
  rw [wp_bind, wp_gets]
  split
  next => exact (by decide : Fault.panic "init exiting" ≠ oom)
  next =>
    refine wp_seq (wp_closeFiles h hlife) fun _ k' ⟨h', hlife'⟩ => ?_
    rw [wp_bind, wp_modify, wp_bind]
    refine wp_modifyProc (h'.same_space rfl rfl h'.files rfl fun p => ?_)
    dsimp only
    by_cases hp : p = me
    · subst hp
      rw [update_self]
      refine ⟨iff_of_false (fun h => by cases h) hlife', ?_, ?_, ?_⟩ <;> dsimp only <;> split <;> rfl
    · rw [update_of_ne hp]
      split <;> exact ⟨Iff.rfl, rfl, rfl, rfl⟩

theorem wp_wait (h : Inv strict base k) :
    Prog.wp (wait me) (fun e => e ≠ oom) (fun _ k' => Inv strict base k') k := by
  unfold wait
  rw [wp_bind, wp_gets]
  split
  next => exact h
  next p hfind =>
    have hlife : (k.proc p).life ≠ .unused := by
      have hp := findProc_some hfind
      simp only [decide_eq_true_eq] at hp
      rw [hp.2]
      decide
    obtain ⟨⟨f, hf⟩, ⟨r, hr⟩, -, -⟩ := h.space p hlife
    have howns := h.owns
    rw [owned_leave (p := { k.proc p with
      kstack := none, pid := 0, parent := none, life := .unused }) hlife hf hr rfl,
      add_cons] at howns
    rw [wp_bind, wp_gets, hf, hr]
    dsimp only
    rw [wp_bind, vm, wp_zoom]
    refine wp_imp (wp_kfree howns) fun _ s₁ ⟨howns₁, hkeeps₁, _⟩ => ?_
    rw [wp_bind]
    refine wp_modifyProc ?_
    dsimp only
    rw [wp_bind, vm, wp_zoom]
    rw [← (hkeeps₁.mono (le_add_right _ _)).pgs_eq] at howns₁
    refine wp_imp (wp_freevm howns₁) fun _ s₂ ⟨howns₂, hkeeps₂⟩ => ?_
    rw [wp_bind]
    refine wp_modifyProc ?_
    dsimp only
    rw [update_idem, update_self]
    exact Inv.leave (k := k) rfl rfl rfl h rfl rfl
      ((hkeeps₁.mono (le_add_left _ _)).trans hkeeps₂) howns₂

end

end Xv6.Vm
