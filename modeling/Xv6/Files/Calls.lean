import Xv6.Files.Counts

/-!
# Calls that open and close files

Between calls the references to a file are the descriptors that point to it, whatever the calls
before and whether they succeeded.
-/

namespace Xv6.Files

open Table

variable {ι : Type} {s t u : Table ι} {tab : Slot × Fd → Option FileId} {xs : List FileId}
variable {E : Fault → Prop} {me p : Slot} {q : Proc ι} {f : FileId} {fd : Fd} {v : Option FileId}

/-! ## The processes -/

theorem Table.Vacant.setProc (h : s.Vacant) (hq : q.life ≠ .used → ∀ fd, q.ofile fd = none) :
    (s.setProc p q).Vacant := by
  intro p' hlife fd'
  by_cases hp : p' = p
  · subst hp
    rw [setProc_self] at hlife ⊢
    exact hq hlife fd'
  · rw [setProc_of_ne hp] at hlife ⊢
    exact h p' hlife fd'

theorem Table.Vacant.setOfile (h : s.Vacant) (hme : (s.proc me).life = .used) :
    (s.setOfile me fd v).Vacant :=
  h.setProc fun hlife => absurd hme hlife

theorem Table.tab_congr (h : t.proc = s.proc) : t.tab = s.tab := by
  funext x
  rw [Table.tab, Table.tab, h]

theorem Table.tab_setProc (hq : q.ofile = (s.proc p).ofile) : (s.setProc p q).tab = s.tab := by
  funext x
  by_cases hp : x.1 = p
  · rw [Table.tab, Table.tab, hp, setProc_self, hq]
  · rw [Table.tab, Table.tab, setProc_of_ne hp]

theorem Settled.of_counted (h : Counted t s.tab []) (hv : s.Vacant) (hp : t.proc = s.proc) :
    Settled t := by
  refine ⟨?_, ?_⟩
  · rwa [tab_congr hp]
  · intro p
    rw [hp]
    exact hv p

theorem Settled.setProc (h : Settled s) (hq : q.ofile = (s.proc p).ofile)
    (hlife : q.life ≠ .used → ∀ fd, q.ofile fd = none) : Settled (s.setProc p q) := by
  refine ⟨?_, h.vacant.setProc hlife⟩
  rw [tab_setProc hq]
  exact h.counted.setProc

/-! ## Finding a file or a descriptor -/

theorem wp_filealloc :
    filealloc.wp E (fun r t => (r = none ∧ t = s) ∨
      ∃ f, r = some f ∧ (s.file f).ref = 0 ∧ t = s.setFile f { s.file f with ref := 1 }) s := by
  simp only [filealloc, wp_bind, wp_gets]
  cases hf : (List.finRange NFILE).find? fun f => (s.file f).ref = 0 with
  | none => exact .inl ⟨rfl, rfl⟩
  | some f =>
    rw [wp_bind, wp_modifyFile]
    have hfree := List.find?_some hf
    exact .inr ⟨f, rfl, of_decide_eq_true hfree, rfl⟩

theorem wp_filealloc_none : filealloc.wp E (fun r t =>
    (r = none ↔ ¬∃ f, (s.file f).ref = 0) ∧ t.proc = s.proc) s := by
  simp only [filealloc, wp_bind, wp_gets]
  cases hf : (List.finRange NFILE).find? fun f => (s.file f).ref = 0 with
  | none =>
    have hall := List.find?_eq_none.mp hf
    refine ⟨iff_of_true rfl ?_, rfl⟩
    rintro ⟨f, hzero⟩
    exact hall f (List.mem_finRange f) (decide_eq_true hzero)
  | some f =>
    have hfree := List.find?_some hf
    refine ⟨iff_of_false (Option.some_ne_none f) (not_not_intro ⟨f, of_decide_eq_true hfree⟩), rfl⟩

theorem wp_filedup (hf : 0 < (s.file f).ref) {Q : Unit → Table ι → Prop} :
    (filedup f).wp E Q s ↔ Q () (s.setFile f { s.file f with ref := (s.file f).ref + 1 }) := by
  simp only [filedup, wp_bind, wp_gets]
  rw [if_neg (by omega), wp_modifyFile]

theorem wp_argfd {n : UInt32} :
    (argfd me n).wp E (fun r t => t = s ∧
      ∀ fd f, r = some (fd, f) → (s.proc me).ofile fd = some f) s := by
  simp only [argfd]
  split
  next hn =>
    refine ⟨rfl, fun fd f hr => ?_⟩
    obtain ⟨f', hf', heq⟩ := Option.map_eq_some_iff.mp hr
    cases heq
    exact hf'
  next => exact ⟨rfl, nofun⟩

theorem wp_fdalloc :
    (fdalloc me f).wp E (fun r t => (r = none ∧ t = s) ∨
      ∃ fd, r = some fd ∧ (s.proc me).ofile fd = none ∧ t = s.setOfile me fd (some f)) s := by
  simp only [fdalloc, wp_bind, wp_gets]
  cases hfd : (List.finRange NOFILE).find? fun fd => (s.proc me).ofile fd = none with
  | none => exact .inl ⟨rfl, rfl⟩
  | some fd =>
    rw [wp_bind, wp_setOfile]
    have hfree := List.find?_some hfd
    exact .inr ⟨fd, rfl, of_decide_eq_true hfree, rfl⟩

theorem wp_fdalloc_none : (fdalloc me f).wp E (fun r _ =>
    r = none ↔ ¬∃ fd, (s.proc me).ofile fd = none) s := by
  simp only [fdalloc, wp_bind, wp_gets]
  cases hfd : (List.finRange NOFILE).find? fun fd => (s.proc me).ofile fd = none with
  | none =>
    have hall := List.find?_eq_none.mp hfd
    refine iff_of_true rfl ?_
    rintro ⟨fd, hfree⟩
    exact hall fd (List.mem_finRange fd) (decide_eq_true hfree)
  | some fd =>
    have hfree := List.find?_some hfd
    exact iff_of_false (Option.some_ne_none fd) (not_not_intro ⟨fd, of_decide_eq_true hfree⟩)

theorem Table.setOfile_undo (h : (s.proc me).ofile fd = none) :
    (s.setOfile me fd v).setOfile me fd none = s := by
  rw [Table.setOfile, Table.setOfile, setProc_self]
  simp only [Table.setProc, update_idem]
  rw [← h, update_eq_self, update_eq_self]

theorem Counted.setOfile (h : Counted s s.tab (f :: xs)) (hfd : (s.proc me).ofile fd = none) :
    Counted (s.setOfile me fd (some f)) (s.setOfile me fd (some f)).tab xs := by
  rw [tab_setOfile]
  exact Counted.place h.setProc hfd

/-! ## `open`, `dup` and `close` -/

theorem Settled.wp_openFile (h : Settled s) (hme : (s.proc me).life = .used) {ip : ι}
    {omode : UInt32} :
    (openFile me ip omode).wp E (fun r t => Settled t ∧ t.allocs = s.allocs ∧
      (r = none → t.proc = s.proc)) s := by
  refine wp_seq wp_filealloc ?_
  rintro r t (⟨rfl, rfl⟩ | ⟨f, rfl, hf, rfl⟩)
  · exact ⟨h, rfl, fun _ => rfl⟩
  have hc := h.counted.alloc hf
  refine wp_seq wp_fdalloc ?_
  rintro r t (⟨rfl, rfl⟩ | ⟨fd, rfl, hfd, rfl⟩)
  · refine wp_seq (wp_fileclose hc) fun _ t ⟨hc, hp, ha, _⟩ => ?_
    exact ⟨.of_counted hc h.vacant hp, ha, fun _ => hp⟩
  · rw [wp_bind, openAs, wp_modifyFile]
    refine ⟨⟨?_, h.vacant.setOfile hme⟩, rfl, nofun⟩
    have htype : (s.file f).type = .none := h.counted.idle f hf
    refine (Counted.setOfile hc hfd).setFile rfl (fun _ _ => rfl) (fun hz => ?_) fun page w => ?_
    · change (Table.file (Table.setFile ..) f).ref = 0 at hz
      rw [setFile_self] at hz
      cases hz
    · refine iff_of_false (not_isEnd FdType.noConfusion) (not_isEnd ?_)
      change (Table.file (Table.setFile ..) f).type ≠ .pipe
      rw [setFile_self, htype]
      exact FdType.noConfusion

theorem Settled.wp_sysDup (h : Settled s) (hme : (s.proc me).life = .used) {n : UInt32} :
    (sysDup me n).wp E (fun r t => Settled t ∧ t.allocs = s.allocs ∧ (r = -1 → t.proc = s.proc)) s := by
  refine wp_seq wp_argfd ?_
  rintro r t ⟨rfl, hr⟩
  cases r with
  | none => exact ⟨h, rfl, fun _ => rfl⟩
  | some r =>
  obtain ⟨fd, f⟩ := r
  have hfd : t.tab (me, fd) = some f := hr fd f rfl
  have hpos := h.counted.ref_pos hfd
  refine wp_seq wp_fdalloc ?_
  rintro r u (⟨rfl, rfl⟩ | ⟨fd', rfl, hfd', rfl⟩)
  · exact ⟨h, rfl, fun _ => rfl⟩
  · rw [wp_bind]
    refine (wp_filedup (s := t.setOfile me fd' (some f)) hpos).mpr ?_
    exact ⟨⟨Counted.setOfile (h.counted.dup hpos) hfd', h.vacant.setOfile hme⟩, rfl,
      fun hneg => absurd hneg (by omega)⟩

theorem Settled.wp_sysClose (h : Settled s) (hme : (s.proc me).life = .used) {n : UInt32} :
    (sysClose me n).wp E (fun _ t => Settled t ∧ t.allocs = s.allocs) s := by
  refine wp_seq wp_argfd ?_
  rintro r t ⟨rfl, hr⟩
  cases r with
  | none => exact ⟨h, rfl⟩
  | some r =>
  obtain ⟨fd, f⟩ := r
  have hfd : t.tab (me, fd) = some f := hr fd f rfl
  rw [wp_bind, wp_setOfile]
  refine wp_seq (wp_fileclose (h.counted.remove hfd).setProc) fun _ u ⟨hc, hp, ha, _⟩ => ?_
  refine ⟨.of_counted ?_ (h.vacant.setOfile hme) hp, ha⟩
  rwa [tab_setOfile]

/-! ## `pipe` -/

/-- A page becomes a pipe, and the files `f` its ends. -/
theorem Counted.pipe (h : Counted s tab xs) {f : Bool → FileId} {page : Nat}
    (hinj : Function.Injective f) (hpage : s.pipe page = none)
    (hfree : ∀ w, 0 < (s.file (f w)).ref ∧ (s.file (f w)).type = .none)
    (hfile : ∀ w, t.file (f w) =
      { s.file (f w) with type := .pipe, readable := !w, writable := w, pipe := page })
    (hother : ∀ g, (∀ w, g ≠ f w) → t.file g = s.file g)
    (hpipe : t.pipe = update s.pipe page (some ⟨true, true⟩))
    (hallocs : t.allocs = update s.allocs page (s.allocs page + 1))
    (hfrees : t.frees = s.frees) : Counted t tab xs := by
  have hcases : ∀ g, (∃ w, g = f w) ∨ (∀ w, g ≠ f w) ∧ t.file g = s.file g := by
    intro g
    by_cases hg : ∃ w, g = f w
    · exact .inl hg
    · have hg := not_exists.mp hg
      exact .inr ⟨hg, hother g hg⟩
  refine ⟨fun g => ?_, fun g hg => ?_, ?_, fun page' => ?_⟩
  · rcases hcases g with ⟨w, rfl⟩ | ⟨_, hg⟩
    · rw [hfile w]
      exact h.refs (f w)
    · rw [hg]
      exact h.refs g
  · rcases hcases g with ⟨w, rfl⟩ | ⟨_, hg'⟩
    · rw [hfile w] at hg
      exact absurd hg (Int.ne_of_gt (hfree w).1)
    · rw [hg'] at hg ⊢
      exact h.idle g hg
  · rw [ends_eq hpipe, Option.map_some]
    have hopen : Ends.isOpen ⟨true, true⟩ = fun _ => true := by
      funext w
      cases w <;> rfl
    have hends : s.ends page = none := by rw [Table.ends, hpage]; rfl
    rw [hopen]
    refine h.ends.add (f := f) hends fun g page' w => ?_
    rcases hcases g with ⟨v, rfl⟩ | ⟨hne, hg⟩
    · rw [hfile v, hinj.eq_iff]
      have hnot : ¬(s.file (f v)).IsEnd page' w := by
        apply not_isEnd
        rw [(hfree v).2]
        exact FdType.noConfusion
      rw [or_iff_right hnot]
      exact ⟨fun hx => ⟨hx.2.2.1.symm, hx.2.2.2⟩, fun hx => ⟨(hfree v).1, rfl, hx.1.symm, hx.2⟩⟩
    · rw [hg, or_iff_left fun hx => hne w hx.2]
  · rw [hpipe, hallocs, hfrees]
    have hp := h.pages page'
    by_cases heq : page' = page
    · subst heq
      rw [hpage] at hp
      rw [update_self, update_self, hp]
      rfl
    · rw [update_of_ne heq, update_of_ne heq, hp]

theorem wp_pipeinit {f₀ f₁ : FileId} {page : Nat} (h : Counted s tab xs) (hne : f₀ ≠ f₁)
    (hpage : s.pipe page = none) (h₀ : 0 < (s.file f₀).ref ∧ (s.file f₀).type = .none)
    (h₁ : 0 < (s.file f₁).ref ∧ (s.file f₁).type = .none) :
    (pipeinit page f₀ f₁).wp E (fun _ t => Counted t tab xs ∧ t.proc = s.proc ∧
      ∀ page', page' ≠ page → t.allocs page' = s.allocs page') s := by
  rw [pipeinit, wp_bind, wp_modify, wp_bind, wp_modifyFile, wp_modifyFile]
  refine ⟨h.pipe (f := fun w => if w then f₁ else f₀) ?_ hpage ?_ ?_ ?_ (setAt_eq_update ..)
    (setAt_eq_update ..) rfl, rfl, fun page' hne' => ?_⟩
  · intro v w hvw
    cases v <;> cases w <;> first | rfl | exact absurd hvw hne | exact absurd hvw hne.symm
  · intro w
    cases w
    · exact h₀
    · exact h₁
  · intro w
    cases w
    · exact (setFile_of_ne hne).trans setFile_self
    · refine setFile_self.trans ?_
      rw [setFile_of_ne hne.symm]
      rfl
  · intro g hg
    exact (setFile_of_ne (hg true)).trans (setFile_of_ne (hg false))
  · exact (congrFun (setAt_eq_update ..) page').trans (update_of_ne hne' ..)

theorem wp_pipeBad {f₀ f₁ : Option FileId} (h : Counted s tab (f₀.toList ++ f₁.toList)) :
    (pipeBad f₀ f₁).wp E (fun r t => r = none ∧ Counted t tab [] ∧ t.proc = s.proc ∧
      t.allocs = s.allocs) s := by
  have hclose : ∀ {f : FileId} {xs : List FileId} {u : Table ι} {k : TableM ι _}
      {Q : Option (FileId × FileId) → Table ι → Prop}, Counted u tab (f :: xs) →
      (∀ t, Counted t tab xs → t.proc = u.proc → t.allocs = u.allocs → k.wp E Q t) →
      (fileclose f >>= fun _ => k).wp E Q u :=
    fun hc hk => wp_seq (wp_fileclose hc) fun _ t ht => hk t ht.1 ht.2.1 ht.2.2.1
  cases f₀ with
  | none =>
    cases f₁ with
    | none => exact ⟨rfl, h, rfl, rfl⟩
    | some f₁ => exact hclose h fun t hc hp ha => ⟨rfl, hc, hp, ha⟩
  | some f₀ =>
    refine hclose h fun t hc hp ha => ?_
    cases f₁ with
    | none => exact ⟨rfl, hc, hp, ha⟩
    | some f₁ => exact hclose hc fun u hc' hp' ha' => ⟨rfl, hc', hp'.trans hp, ha'.trans ha⟩

theorem wp_pipealloc (h : Counted s tab []) {kalloc : Option Nat}
    (hk : ∀ page, kalloc = some page → s.pipe page = none) :
    (pipealloc kalloc).wp E (fun r t => t.proc = s.proc ∧
      Counted t tab (r.elim [] fun (rf, wf) => [rf, wf]) ∧
      ∀ page, kalloc ≠ some page → t.allocs page = s.allocs page) s := by
  refine wp_seq wp_filealloc ?_
  rintro r t (⟨rfl, rfl⟩ | ⟨f₀, rfl, hf₀, rfl⟩)
  · exact ⟨rfl, h, fun _ _ => rfl⟩
  have hc₀ := h.alloc hf₀
  refine wp_seq wp_filealloc ?_
  rintro r t (⟨rfl, rfl⟩ | ⟨f₁, rfl, hf₁, rfl⟩)
  · have hc : Counted _ tab (Option.toList (some f₀) ++ Option.toList none) := hc₀
    refine wp_imp (wp_pipeBad hc) ?_
    rintro r t ⟨rfl, hc, hp, ha⟩
    exact ⟨hp, hc, fun page _ => congrFun ha page⟩
  have hc₁ := hc₀.alloc hf₁
  have hne : f₀ ≠ f₁ := by
    rintro rfl
    rw [setFile_self] at hf₁
    cases hf₁
  cases kalloc with
  | none =>
    have hc : Counted _ tab (Option.toList (some f₀) ++ Option.toList (some f₁)) :=
      hc₁.perm (.swap ..)
    refine wp_imp (wp_pipeBad hc) ?_
    rintro r t ⟨rfl, hc, hp, ha⟩
    exact ⟨hp, hc, fun page _ => congrFun ha page⟩
  | some page =>
    have ht₀ := h.idle f₀ hf₀
    have ht₁ := hc₀.idle f₁ hf₁
    refine wp_seq (wp_pipeinit (hc₁.perm (.swap ..)) hne (hk page rfl) ?_ ?_)
      fun _ t ⟨hc, hp, ha⟩ => ⟨hp, hc, fun page' hne' => ha page' fun heq => hne' (heq ▸ rfl)⟩
    · rw [setFile_of_ne hne, setFile_self]
      exact ⟨Int.one_pos, ht₀⟩
    · rw [setFile_self]
      exact ⟨Int.one_pos, ht₁⟩

theorem Settled.wp_sysPipe (h : Settled s) (hme : (s.proc me).life = .used) {argptr : Bool}
    {kalloc : Option Nat} (hk : ∀ page, kalloc = some page → s.pipe page = none) :
    (sysPipe me argptr kalloc).wp E (fun r t => Settled t ∧
      (∀ page, kalloc ≠ some page → t.allocs page = s.allocs page) ∧
      (r = -1 → t.proc = s.proc)) s := by
  rw [sysPipe]
  split
  · exact ⟨h, fun _ _ => rfl, fun _ => rfl⟩
  refine wp_seq (wp_pipealloc h.counted hk) ?_
  rintro r t ⟨hp, hc, ha⟩
  cases r with
  | none => exact ⟨.of_counted hc h.vacant hp, ha, fun _ => hp⟩
  | some r =>
  obtain ⟨rf, wf⟩ := r
  have hv : t.Vacant := by
    intro p
    rw [hp]
    exact h.vacant p
  have hfail : (fileclose rf >>= fun _ => fileclose wf >>= fun _ => (pure (-1) : TableM ι Int)).wp E
      (fun r u => Settled u ∧ (∀ page, kalloc ≠ some page → u.allocs page = s.allocs page) ∧
        (r = -1 → u.proc = s.proc)) t := by
    refine wp_seq (wp_fileclose hc) fun _ u₁ ⟨hc₁, hp₁, ha₁, _⟩ => ?_
    refine wp_seq (wp_fileclose hc₁) fun _ u₂ ⟨hc₂, hp₂, ha₂, _⟩ => ?_
    have hproc : u₂.proc = s.proc := hp₂.trans (hp₁.trans hp)
    refine ⟨.of_counted hc₂ h.vacant hproc, fun page hne => ?_, fun _ => hproc⟩
    rw [ha₂, ha₁, ha page hne]
  refine wp_seq wp_fdalloc ?_
  rintro r u (⟨rfl, rfl⟩ | ⟨fd₀, rfl, hfd₀, rfl⟩)
  · exact hfail
  refine wp_seq wp_fdalloc ?_
  rintro r u (⟨rfl, rfl⟩ | ⟨fd₁, rfl, hfd₁, rfl⟩)
  · rw [wp_bind, wp_setOfile, setOfile_undo hfd₀]
    exact hfail
  · rw [← tab_congr hp] at hc
    exact ⟨⟨Counted.setOfile (Counted.setOfile hc hfd₀) hfd₁,
      (hv.setOfile (hp ▸ hme)).setOfile (by
        rw [Table.setOfile, setProc_self, hp]
        exact hme)⟩, ha, nofun⟩

/-! ## `fork`, `exit` and `wait` -/

/-- The descriptors of `me` that are left become descriptors of `np`. -/
theorem Settled.wp_dupFiles {np : Slot} (h : Settled s) (hnp : (s.proc np).life = .used)
    (hnone : ∀ fd, (s.proc np).ofile fd = none) :
    (dupFiles me np).wp E (fun _ t => Settled t ∧ (t.proc np).life = .used ∧ t.allocs = s.allocs) s := by
  let I (rest : List Fd) (t : Table ι) : Prop := Settled t ∧ (t.proc np).life = .used ∧
    t.allocs = s.allocs ∧ rest.Nodup ∧ ∀ fd ∈ rest, (t.proc np).ofile fd = none
  have h0 : I (List.finRange NOFILE) s := ⟨h, hnp, rfl, List.nodup_finRange _, fun fd _ => hnone fd⟩
  refine wp_imp (Prog.wp_forM h0 ?_) fun _ t ⟨h, hnp, ha, _⟩ => ⟨h, hnp, ha⟩
  intro fd rest t ⟨h, hnp, ha, hnodup, hrest⟩
  have hnodup := List.nodup_cons.mp hnodup
  simp only [wp_bind, wp_gets]
  cases hf : (t.proc me).ofile fd with
  | none => exact ⟨h, hnp, ha, hnodup.2, fun fd' hfd' => hrest fd' (.tail _ hfd')⟩
  | some f =>
    have htab : t.tab (me, fd) = some f := hf
    have hpos := h.counted.ref_pos htab
    rw [wp_bind, wp_filedup hpos, wp_setOfile]
    refine ⟨⟨Counted.setOfile (h.counted.dup hpos) (hrest fd (.head _)), h.vacant.setOfile hnp⟩,
      ?_, ha, hnodup.2, fun fd' hfd' => ?_⟩
    · rw [Table.setOfile, setProc_self]
      exact hnp
    · rw [Table.setOfile, setProc_self]
      have hfd : fd' ≠ fd := fun heq => hnodup.1 (heq ▸ hfd')
      exact (update_of_ne hfd ..).trans (hrest fd' (.tail _ hfd'))

theorem Settled.wp_fork (h : Settled s) {memory : Bool} :
    (fork me memory).wp E (fun _ t => Settled t ∧ t.allocs = s.allocs) s := by
  simp only [fork, wp_bind, wp_gets]
  cases hnp : (List.finRange NPROC).find? fun p => (s.proc p).life = .unused with
  | none => exact ⟨h, rfl⟩
  | some np =>
    have hfree := List.find?_some hnp
    have hunused : (s.proc np).life = .unused := of_decide_eq_true hfree
    have hnone : ∀ fd, (s.proc np).ofile fd = none := by
      apply h.vacant
      rw [hunused]
      exact Life.noConfusion
    dsimp only
    split
    · exact ⟨h, rfl⟩
    rw [wp_bind, wp_modifyProc]
    have h' : Settled (s.setProc np { s.proc np with life := .used }) :=
      h.setProc rfl fun hlife => absurd rfl hlife
    refine wp_seq (h'.wp_dupFiles ?_ ?_) ?_
    · rw [setProc_self]
    · rw [setProc_self]
      exact hnone
    · rintro _ t ⟨ht, hlife, ha⟩
      rw [wp_bind, wp_gets, wp_bind, wp_modifyProc]
      exact ⟨ht.setProc rfl fun hl => absurd hlife hl, ha⟩

theorem Settled.wp_closeFiles (h : Settled s) (hme : (s.proc me).life = .used) :
    (closeFiles me).wp E (fun _ t => Settled t ∧ t.allocs = s.allocs ∧
      ∀ fd, (t.proc me).ofile fd = none) s := by
  let I (rest : List Fd) (t : Table ι) : Prop := Settled t ∧ (t.proc me).life = .used ∧
    t.allocs = s.allocs ∧ ∀ fd, fd ∉ rest → (t.proc me).ofile fd = none
  have h0 : I (List.finRange NOFILE) s :=
    ⟨h, hme, rfl, fun fd hfd => absurd (List.mem_finRange fd) hfd⟩
  refine wp_imp (Prog.wp_forM h0 ?_) fun _ t ht =>
    ⟨ht.1, ht.2.2.1, fun fd => ht.2.2.2 fd List.not_mem_nil⟩
  rintro fd rest t ⟨h, hme, ha, hnone⟩
  simp only [wp_bind, wp_gets]
  cases hf : (t.proc me).ofile fd with
  | none =>
    refine ⟨h, hme, ha, fun fd' hfd' => ?_⟩
    by_cases heq : fd' = fd
    · rw [heq, hf]
    · exact hnone fd' fun hmem => hfd' ((List.mem_cons.mp hmem).resolve_left heq)
  | some f =>
    have htab : t.tab (me, fd) = some f := hf
    refine wp_seq (wp_fileclose (h.counted.remove htab)) ?_
    rintro _ u ⟨hc, hp, ha', _⟩
    rw [wp_setOfile]
    have hu : (u.proc me).life = .used := by rw [hp, hme]
    have hv : u.Vacant := by
      intro p
      rw [hp]
      exact h.vacant p
    refine ⟨⟨?_, hv.setOfile hu⟩, ?_, ha'.trans ha, fun fd' hfd' => ?_⟩
    · rw [tab_setOfile, tab_congr hp]
      exact hc.setProc
    · rw [Table.setOfile, setProc_self]
      exact hu
    · rw [Table.setOfile, setProc_self]
      by_cases heq : fd' = fd
      · rw [heq]
        exact update_self ..
      · refine (update_of_ne heq ..).trans ?_
        rw [hp]
        exact hnone fd' fun hmem => hfd' ((List.mem_cons.mp hmem).resolve_left heq)

/-- How a call may stop. -/
def Stops (e : Fault) : Prop := e = .disabled ∨ e = .panic "init exiting"

theorem Settled.wp_exit (h : Settled s) (hme : (s.proc me).life = .used) :
    (exit me).wp Stops (fun _ t => Settled t ∧ t.allocs = s.allocs) s := by
  rw [exit]
  split
  · exact .inr rfl
  · refine wp_seq (h.wp_closeFiles hme) fun _ t ⟨ht, ha, hnone⟩ => ?_
    rw [wp_modifyProc]
    exact ⟨ht.setProc rfl fun _ => hnone, ha⟩

theorem Settled.wp_reap (h : Settled s) :
    (reap p).wp Stops (fun _ t => Settled t ∧ t.allocs = s.allocs) s := by
  simp only [reap, wp_bind, wp_gets]
  split
  next hlife =>
    rw [wp_modifyProc]
    refine ⟨h.setProc rfl fun _ => h.vacant p ?_, rfl⟩
    rw [hlife]
    exact Life.noConfusion
  next => exact .inl rfl

/-! ## Steps -/

/-- A page that holds a pipe is not allocated. -/
theorem Settled.wp_run (h : Settled s) {c : Call ι} (hc : c.enabled s me = true) :
    (c.run me).wp Stops (fun _ t => Settled t ∧
      ∀ page, s.pipe page ≠ none → t.allocs page = s.allocs page) s := by
  have hc := Bool.and_eq_true_iff.mp hc
  have hme : (s.proc me).life = .used := of_decide_eq_true hc.1
  have hsame : ∀ {t : Table ι}, t.allocs = s.allocs →
      ∀ page, s.pipe page ≠ none → t.allocs page = s.allocs page :=
    fun ha page _ => congrFun ha page
  cases c with
  | «open» ip omode =>
    cases ip with
    | none => exact ⟨h, fun _ _ => rfl⟩
    | some ip => exact wp_seq (h.wp_openFile hme) fun _ _ ht => ⟨ht.1, hsame ht.2.1⟩
  | pipe argptr kalloc =>
    have hk : ∀ page, kalloc = some page → s.pipe page = none := by
      rintro page rfl
      exact Option.isNone_iff_eq_none.mp hc.2
    refine wp_seq (h.wp_sysPipe hme hk) fun _ t ht => ⟨ht.1, fun page hpage => ?_⟩
    exact ht.2.1 page fun heq => hpage (hk page heq)
  | dup fd => exact wp_seq (h.wp_sysDup hme) fun _ _ ht => ⟨ht.1, hsame ht.2.1⟩
  | close fd => exact wp_seq (h.wp_sysClose hme) fun _ _ ht => ⟨ht.1, hsame ht.2⟩
  | fork memory => exact wp_seq h.wp_fork fun _ _ ht => ⟨ht.1, hsame ht.2⟩
  | exit => exact wp_imp (h.wp_exit hme) fun _ _ ht => ⟨ht.1, hsame ht.2⟩
  | wait p => exact wp_imp h.wp_reap fun _ _ ht => ⟨ht.1, hsame ht.2⟩

theorem Settled.step {a : Slot × Call ι} (h : Settled s) (hs : step s a = .ok t) :
    Settled t ∧ ∀ page, s.pipe page ≠ none → t.allocs page = s.allocs page := by
  rw [Files.step] at hs
  split at hs
  next hen =>
    obtain ⟨_, _, ht, rfl⟩ := wp_map_ok (h.wp_run hen) hs
    exact ht
  next => cases hs

theorem Settled.stops {a : Slot × Call ι} {e : Fault} (h : Settled s)
    (hs : Files.step s a = .error e) : Stops e := by
  rw [Files.step] at hs
  split at hs
  next hen =>
    have hrun := h.wp_run hen
    rw [Prog.wp] at hrun
    cases hx : a.2.run a.1 s with
    | error e' =>
      rw [hx] at hs hrun
      cases hs
      exact hrun
    | ok r =>
      rw [hx] at hs
      cases hs
  next =>
    cases hs
    exact .inl rfl

theorem Settled.start {cwd : ι} : Settled (start cwd) := by
  have hproc : ∀ p fd, ((Files.start cwd).proc p).ofile fd = none := by
    intro p fd
    rw [Files.start]
    dsimp only
    split <;> rfl
  refine ⟨⟨fun f => ?_, fun _ _ => rfl, ?_, fun _ => rfl⟩, fun p _ => hproc p⟩
  · have hzero : places (Files.start cwd).tab f = 0 :=
      Finset.sum_eq_zero fun x _ => if_neg fun hx => by
        rw [Table.tab, hproc] at hx
        cases hx
    rw [hzero]
    rfl
  · exact .of_none (fun _ _ _ => not_isEnd FdType.noConfusion) fun _ => rfl

/-! ## References and descriptors -/

/-- A descriptor is an end of the pipe in a page. -/
def Table.EndAt (s : Table ι) (x : Slot × Fd) (page : Nat) (w : Bool) : Prop :=
  ∃ f, (s.proc x.1).ofile x.2 = some f ∧ (s.file f).type = .pipe ∧ (s.file f).pipe = page ∧
    (s.file f).writable = w

theorem Settled.isEnd_iff (h : Settled s) {page : Nat} {w : Bool} :
    (∃ f, (s.file f).IsEnd page w) ↔ ∃ x, s.EndAt x page w := by
  constructor
  · rintro ⟨f, hpos, hend⟩
    rw [h.counted.refs f, List.count_nil, Nat.cast_zero, Int.add_zero] at hpos
    obtain ⟨x, hx⟩ := exists_of_places_pos hpos
    exact ⟨x, f, hx, hend⟩
  · rintro ⟨x, f, hx, hend⟩
    exact ⟨f, h.counted.ref_pos hx, hend⟩

theorem Settled.pipe_iff (h : Settled s) {page : Nat} :
    s.pipe page ≠ none ↔ ∃ x w, s.EndAt x page w := by
  have hends : s.pipe page ≠ none ↔ s.ends page ≠ none := by
    rw [Table.ends, ne_eq, ne_eq, Option.map_eq_none_iff]
  rw [hends, h.counted.ends.used_iff]
  constructor
  · rintro ⟨f, w, hf⟩
    obtain ⟨x, hx⟩ := h.isEnd_iff.mp ⟨f, hf⟩
    exact ⟨x, w, hx⟩
  · rintro ⟨x, w, hx⟩
    obtain ⟨f, hf⟩ := h.isEnd_iff.mpr ⟨x, hx⟩
    exact ⟨f, w, hf⟩

theorem Settled.isOpen_iff (h : Settled s) {page : Nat} {w : Bool} {e : Ends}
    (he : s.pipe page = some e) : e.isOpen w = true ↔ ∃ x, s.EndAt x page w := by
  rw [← h.isEnd_iff]
  apply h.counted.ends.held page
  rw [Table.ends, he]
  rfl

theorem Settled.card (h : Settled s) :
    (s.file f).ref = (Finset.univ.filter fun x : Slot × Fd =>
      (s.proc x.1).life ≠ .unused ∧ (s.proc x.1).ofile x.2 = some f).card := by
  have hlive : ∀ x, s.tab x = some f → (s.proc x.1).life ≠ .unused := by
    intro x hx hlife
    rw [Table.tab, h.vacant x.1 (by rw [hlife]; exact Life.noConfusion)] at hx
    cases hx
  rw [h.counted.refs f, List.count_nil, Nat.cast_zero, Int.add_zero, places_eq_card]
  rw [Finset.filter_congr fun x _ => (and_iff_right_of_imp (hlive x)).symm]
  rfl

/-- In every state that calls lead to, a file has as many references as there are descriptors that
point to it, and a page holds a pipe as long as there is a descriptor for one of its ends. -/
theorem references_are_descriptors {cwd : ι} {s : Table ι}
    (hrun : Run step (fun _ _ => True) (start cwd) s) :
    (∀ f, (s.file f).ref = (Finset.univ.filter fun x : Slot × Fd =>
      (s.proc x.1).life ≠ .unused ∧ (s.proc x.1).ofile x.2 = some f).card) ∧
    (∀ f, (s.file f).ref = 0 →
      (s.file f).type = .none ∧ ∀ p fd, (s.proc p).ofile fd ≠ some f) ∧
    (∀ p, (s.proc p).life = .unused → ∀ fd, (s.proc p).ofile fd = none) ∧
    -- a page holds a pipe until no descriptor is left, with an end open until its last descriptor
    (∀ page, s.pipe page ≠ none ↔ ∃ x w, s.EndAt x page w) ∧
    (∀ page e w, s.pipe page = some e → (e.isOpen w = true ↔ ∃ x, s.EndAt x page w)) ∧
    -- each time it was allocated it was freed once, unless it still holds the pipe
    (∀ page, s.allocs page = s.frees page + if (s.pipe page).isSome then 1 else 0) ∧
    (∀ a t page, step s a = .ok t → s.pipe page ≠ none →
      t.frees page = s.frees page + if (t.pipe page).isSome then 0 else 1) ∧
    ∀ a, step s a ≠ .error (.panic "filedup") ∧ step s a ≠ .error (.panic "fileclose") := by
  have h : Settled s := hrun.invariant .start fun ht _ hs => (ht.step hs).1
  refine ⟨fun f => h.card, fun f hf => ⟨h.counted.idle f hf, fun p fd hfd => ?_⟩, fun p hp => ?_,
    fun page => h.pipe_iff, fun page e w he => h.isOpen_iff he, h.counted.pages,
    fun a t page hs hpage => ?_, fun a => ⟨fun hs => ?_, fun hs => ?_⟩⟩
  · have htab : s.tab (p, fd) = some f := hfd
    have hpos := h.counted.ref_pos htab
    rw [hf] at hpos
    cases hpos
  · apply h.vacant
    rw [hp]
    exact Life.noConfusion
  · obtain ⟨ht, hallocs⟩ := h.step hs
    have hsame := hallocs page hpage
    have hs' := h.counted.pages page
    have ht' := ht.counted.pages page
    rw [if_pos (Option.isSome_iff_ne_none.mpr hpage)] at hs'
    by_cases hleft : (t.pipe page).isSome
    · rw [if_pos hleft] at ht' ⊢
      omega
    · rw [if_neg hleft] at ht' ⊢
      omega
  · rcases h.stops hs with h | h <;> simp at h
  · rcases h.stops hs with h | h <;> simp at h

/-- The first process makes a pipe and a child. It closes the end it would read from, and the child
exits after a `dup` of the other end. -/
def pipeRun : List (Slot × Call Unit) :=
  let child : Slot := ⟨1, one_lt_NPROC⟩
  [(init, .pipe true (some 7)), (init, .fork true), (init, .close 0), (child, .dup 1),
    (child, .exit), (init, .wait child)]

def writeEnd : FileId := ⟨1, by decide⟩

theorem references_after_pipe : ∃ s : Table Unit,
    Run step (fun _ _ => True) (start ()) s ∧ (s.file writeEnd).ref = 1 ∧ s.frees 7 = 0 ∧
    (Finset.univ.filter fun x : Slot × Fd =>
      (s.proc x.1).life ≠ .unused ∧ (s.proc x.1).ofile x.2 = some writeEnd).card = 1 ∧
    ∃ x w, s.EndAt x 7 w := by
  obtain ⟨s, hs, href, hfrees, hpipe⟩ : ∃ s : Table Unit,
      Run.exec step (fun _ _ => True) (start ()) pipeRun = .ok s ∧ (s.file writeEnd).ref = 1 ∧
      s.frees 7 = 0 ∧ (s.pipe 7).isSome := by decide +kernel
  have hrun := Run.of_exec hs
  obtain ⟨hcard, _, _, hends, _⟩ := references_are_descriptors (s := s) hrun
  refine ⟨s, hrun, href, hfrees, ?_, (hends 7).mp (Option.isSome_iff_ne_none.mp hpipe)⟩
  exact Int.ofNat_inj.mp ((hcard writeEnd).symm.trans href)

end Xv6.Files
