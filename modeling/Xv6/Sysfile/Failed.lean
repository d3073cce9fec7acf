import Xv6.Fs.Namei
import Xv6.Fs.Undo
import Xv6.Sysfile.Calls

/-!
# Calls that return -1

A call that returns -1 leaves files, descriptors and references as they were, unless it is an `open`
that made the file and then found no entry in the file table or no descriptor for it.
-/

namespace Xv6.Sysfile

open Fs (FsM Ip DevSw State Refs Held Ready Undone NewName dinodeAt)
open Files (Slot FileId Fd)

/-- What a call that fails is to leave as it was: the inodes on disk and what is in the files and
directories, the descriptors and current directories, and the references to files and inodes. -/
structure Same (k l : Kernel) : Prop where
  dinode : dinodeAt l.fs.sb l.fs.disk = dinodeAt k.fs.sb k.fs.disk
  node : l.fs.node = k.fs.node
  proc : l.tab.proc = k.tab.proc
  file : ∀ f, (l.tab.file f).ref = (k.tab.file f).ref
  icache : ∀ p, (l.fs.icache p).ref = (k.fs.icache p).ref
  refs : l.fs.refs = k.fs.refs

/-- Process `me`, with the current directory `cwd`, makes a call, while the entries of the inode cache
have the references `r`. -/
structure Entered (k : Kernel) (me : Slot) (cwd : Ip) (r : Refs) : Prop where
  held : Held k.fs r
  ready : Ready k.fs r cwd
  files : Files.Settled k.tab
  life : (k.tab.proc me).life = .used
  cwd : (k.tab.proc me).cwd = some cwd

/-- `kalloc` does not return a page that holds a pipe. -/
def Call.Fresh (k : Kernel) : Call → Prop
  | .pipe _ kalloc => ∀ page, kalloc = some page → k.tab.pipe page = none
  | _ => True

/-- The call is an `open` that makes a file. -/
def Call.Makes (k : Kernel) (cwd : Ip) : Call → Prop
  | .open (some path) omode => omode &&& Fs.O_CREATE ≠ 0 ∧ NewName k.fs cwd path
  | _ => False

section
variable {dev : DevSw} {k l : Kernel} {me : Slot} {cwd ip : Ip} {r : Refs}
variable {E : Fault → Prop} {f : FileId}

theorem wp_inFs {x : FsM α} {Q : α → Kernel → Prop} :
    (inFs x).wp E Q k ↔ x.wp E (fun a fs => Q a { k with fs }) k.fs := wp_zoom

theorem wp_inTab {x : Files.TableM Ip α} {Q : α → Kernel → Prop} :
    (inTab x).wp E Q k ↔ x.wp E (fun a tab => Q a { k with tab }) k.tab := wp_zoom

theorem wp_cwd (h : (k.tab.proc me).cwd = some cwd) {Q : Ip → Kernel → Prop} :
    (Sysfile.cwd me).wp E Q k ↔ Q cwd k := by
  simp only [Sysfile.cwd, wp_bind, wp_gets, h, wp_pure]

/-- The table of files is as it was when the processes are. -/
theorem settled_ref (h : Files.Settled k.tab) (hl : Files.Settled l.tab)
    (hp : l.tab.proc = k.tab.proc) (f : FileId) : (l.tab.file f).ref = (k.tab.file f).ref := by
  rw [hl.counted.refs f, h.counted.refs f, Files.Table.tab_congr hp]

theorem Entered.same (h : Entered k me cwd r) (hheld : Held l.fs r) (hundone : Undone r k.fs l.fs)
    (hfiles : Files.Settled l.tab) (hproc : l.tab.proc = k.tab.proc) : Same k l where
  dinode := hundone.dinode
  node := hundone.node
  proc := hproc
  file := settled_ref h.files hfiles hproc
  icache p := (hheld.refs p).trans (h.held.refs p).symm
  refs := hundone.toPins.refs_eq h.held hheld

theorem Entered.wp_fs (h : Entered k me cwd r) {x : Ip → FsM Int}
    (hx : (x cwd).wp (fun _ => True) (fun n s => n = -1 → Held s r ∧ Undone r k.fs s) k.fs) :
    Prog.wp (do
      let cwd ← Sysfile.cwd me
      inFs (x cwd)) (fun _ => True) (fun n l => n = -1 → Same k l) k := by
  rw [wp_bind, wp_cwd h.cwd, wp_inFs]
  refine wp_imp hx fun n s hs hn => ?_
  obtain ⟨hheld, hundone⟩ := hs hn
  exact h.same hheld hundone h.files rfl

theorem Entered.wp_tab (h : Entered k me cwd r) {x : Files.TableM Ip Int}
    (hx : x.wp (fun _ => True)
      (fun n t => Files.Settled t ∧ (n = -1 → t.proc = k.tab.proc)) k.tab) :
    (inTab x).wp (fun _ => True) (fun n l => n = -1 → Same k l) k := by
  rw [wp_inTab]
  refine wp_imp hx fun n t ⟨ht, hp⟩ hn => ?_
  exact h.same h.held Fs.Still.refl.undone ht (hp hn)

theorem Entered.wp_sysChdir (h : Entered k me cwd r) {path : Option (List UInt8)} :
    (sysChdir dev me path).wp (fun _ => True) (fun n l => n = -1 → Same k l) k := by
  rw [sysChdir, wp_bind, wp_cwd h.cwd, wp_bind, wp_inFs]
  refine wp_imp (Fs.still_beginOp h.held) fun _ s₁ ⟨h₁, hst₁⟩ => ?_
  -- nothing but the inode cache has changed when the transaction ends
  have hend : ∀ {s : State}, Held s r → Fs.Still r k.fs s →
      (inFs Fs.endOp).wp (fun _ => True) (fun _ l => Same k l) { k with fs := s } := by
    intro s hs hst
    rw [wp_inFs]
    refine wp_imp (Fs.still_endOp hs) fun _ t ⟨ht, hst'⟩ => ?_
    exact h.same ht (hst.trans hst').undone h.files rfl
  cases path with
  | none => exact wp_seq (hend h₁ hst₁) fun _ l hl _ => hl
  | some path =>
  rw [wp_bind, wp_inFs]
  refine wp_imp ((h.ready.still hst₁).wp_namei h₁) fun x s₂ ⟨hst₂, hx⟩ => ?_
  cases x with
  | none => exact wp_seq (hend hx.1 (hst₁.trans hst₂)) fun _ l hl _ => hl
  | some ip =>
  rw [wp_bind, wp_inFs]
  refine wp_imp (Fs.wp_lock hx.1 hx.2.1) fun _ s₃ ⟨h₃, hst₃, _, hleads₃⟩ => ?_
  have hst : Fs.Still r k.fs s₃ := hst₁.trans (hst₂.trans hst₃.of_add)
  rw [wp_bind, wp_gets]
  split
  · rw [wp_bind, wp_inFs]
    refine wp_seq (Fs.wp_unlockput h₃ hleads₃.lasts) fun _ s₄ ⟨h₄, hst₄⟩ => ?_
    refine wp_imp (Fs.still_endOp h₄) fun _ s₅ ⟨h₅, hst₅⟩ _ => ?_
    exact h.same h₅ (hst.trans (hst₄.trans hst₅)).undone h.files rfl
  · refine wp_bind_any fun _ _ => wp_bind_any fun _ _ => ?_
    exact fun hn => absurd hn (by decide)

theorem Entered.wp_openBad (h : Entered k me cwd r) {C : Prop} {l : Kernel}
    (hfiles : Files.Settled l.tab) (hproc : l.tab.proc = k.tab.proc)
    (hheld : Held l.fs (r + Fs.one ip))
    (hx : Fs.Still r k.fs l.fs ∧ Fs.Lasts l.fs r (l.fs.icache ip).inum ∧ ¬C ∨
      C ∧ Fs.Born k.fs l.fs (l.fs.icache ip).inum) :
    (openBad ip).wp (fun _ => True) (fun n l => n = -1 → (Same k l ↔ ¬C)) l := by
  rw [openBad, wp_bind, wp_inFs]
  refine wp_imp (Fs.wp_openBad hheld hx) fun _ s ⟨hs, hout⟩ _ => ?_
  rcases hout with ⟨hundone, hno⟩ | ⟨hC, hne⟩
  · exact iff_of_true (h.same hs hundone hfiles hproc) hno
  · exact iff_of_false (fun hsame => hne hsame.node) (not_not_intro hC)

theorem Entered.wp_sysOpen (h : Entered k me cwd r) {path : List UInt8} {omode : UInt32} :
    (sysOpen dev me (some path) omode).wp (fun _ => True) (fun n l => n = -1 →
      (Same k l ↔ ¬(omode &&& Fs.O_CREATE ≠ 0 ∧ NewName k.fs cwd path))) k := by
  rw [sysOpen, wp_bind, wp_cwd h.cwd, wp_bind, wp_inFs]
  refine wp_imp (Fs.still_beginOp h.held) ?_
  rintro _ s₁ ⟨h₁, hst₁⟩
  rw [wp_bind, wp_inFs]
  refine wp_imp ((h.ready.still hst₁).wp_openInode h₁) fun x s₂ hx => ?_
  simp only [hst₁.newName h.ready.pinned] at hx
  cases x with
  | none =>
    obtain ⟨h₂, hst₂, hno⟩ := hx
    rw [wp_bind, wp_inFs]
    refine wp_imp (Fs.still_endOp h₂) ?_
    rintro _ s₃ ⟨h₃, hst₃⟩ _
    exact iff_of_true (h.same h₃ (hst₁.trans (hst₂.trans hst₃)).undone h.files rfl) hno
  | some ip =>
  obtain ⟨h₂, hx⟩ := hx
  have hout : Fs.Still r k.fs s₂ ∧ Fs.Lasts s₂ r (s₂.icache ip).inum ∧
        ¬(omode &&& Fs.O_CREATE ≠ 0 ∧ NewName k.fs cwd path) ∨
      (omode &&& Fs.O_CREATE ≠ 0 ∧ NewName k.fs cwd path) ∧
        Fs.Born k.fs s₂ (s₂.icache ip).inum := by
    refine hx.imp (fun hx => ⟨hst₁.trans hx.1, hx.2⟩) fun hx => ⟨hx.1, ?_⟩
    rw [Fs.Born, ← hst₁.node]
    exact hx.2
  rw [wp_bind, wp_inTab]
  refine wp_imp Files.wp_filealloc ?_
  rintro y t (⟨rfl, rfl⟩ | ⟨f, rfl, hf, rfl⟩)
  · exact h.wp_openBad h.files rfl h₂ hout
  have hc := h.files.counted.alloc hf
  rw [wp_bind, wp_inTab]
  refine wp_imp Files.wp_fdalloc ?_
  rintro y t (⟨rfl, rfl⟩ | ⟨fd, rfl, hfd, rfl⟩)
  · rw [wp_bind, fileclose, wp_bind, wp_inTab]
    refine wp_imp (Files.wp_fileclose hc) ?_
    rintro z u ⟨hcu, hpu, _, hz⟩
    have htype := h.files.counted.idle f hf
    -- the file has no inode yet
    cases z with
    | some _ =>
      have hinode := hz (Option.some_ne_none _)
      rw [Files.Table.setFile_self, htype] at hinode
      cases hinode
    | none => exact h.wp_openBad (.of_counted hcu h.files.vacant hpu) hpu h₂ hout
  · refine wp_bind_any fun _ _ => wp_bind_any fun _ _ hn => ?_
    exact absurd hn (by omega)

end

/-- **Calls that fail.** A call of `open`, `link`, `unlink`, `mkdir`, `mknod`, `chdir`, `dup` or `pipe`
that returns -1 leaves everything as it was if and only if it is not an `open` with `O_CREATE` of a new
name in a directory. -/
theorem failed_call_same (dev : DevSw) {k l : Kernel} {me : Slot} {cwd : Ip} {r : Refs} {c : Call}
    (h : Entered k me cwd r) (hc : c.Fresh k) (hrun : c.run dev me k = .ok (-1, l)) :
    Same k l ↔ ¬c.Makes k cwd := by
  have hsame : ∀ {x : KernelM Int}, x.wp (fun _ => True) (fun n l => n = -1 → Same k l) k →
      x k = .ok (-1, l) → Same k l := fun hx hrun => wp_ok hx hrun rfl
  cases c with
  | «open» path omode =>
    cases path with
    | none =>
      cases hrun
      exact iff_of_true (h.same h.held Fs.Still.refl.undone h.files rfl) id
    | some path => exact wp_ok h.wp_sysOpen hrun rfl
  | link old new => exact iff_of_true (hsame (h.wp_fs (h.ready.wp_sysLink h.held)) hrun) id
  | unlink path => exact iff_of_true (hsame (h.wp_fs (h.ready.wp_sysUnlink h.held)) hrun) id
  | mkdir path => exact iff_of_true (hsame (h.wp_fs (h.ready.wp_sysMake h.held)) hrun) id
  | mknod path major minor =>
    exact iff_of_true (hsame (h.wp_fs (h.ready.wp_sysMake h.held)) hrun) id
  | chdir path => exact iff_of_true (hsame h.wp_sysChdir hrun) id
  | dup fd =>
    refine iff_of_true (hsame (h.wp_tab ?_) hrun) id
    exact wp_imp (h.files.wp_sysDup h.life) fun _ _ ht => ⟨ht.1, ht.2.2⟩
  | pipe argptr kalloc =>
    refine iff_of_true (hsame (h.wp_tab ?_) hrun) id
    exact wp_imp (h.files.wp_sysPipe h.life hc) fun _ _ ht => ⟨ht.1, ht.2.2⟩

/-! ## A process without a free descriptor -/

namespace Full

/-- The super block, the inode of an empty root directory and a free one, the free map, and data
blocks. -/
def disk : Disk := fun b =>
  if b = 1 then Bytes.zero.setWords32 0 [64, 60, 3, 30, 0, 2, 3]
  else if b = 2 then Fs.OneName.din.store Bytes.zero 1
  else if b = 3 then Bytes.zero.blit 0 [15]
  else Bytes.zero

def cwd : Ip := Fs.OneName.ip

/-- The root is the current directory. -/
def fs : State := State.only {
  disk
  sb := Fs.OneName.sb
  icache := fun _ => ⟨1, 1, false, true, Fs.OneName.din⟩
  logSize := 30
  outstanding := 0
  lh := []
  committed := [] } cwd

/-- Eight pipes. -/
def pipes : List (Slot × Files.Call Ip) :=
  (List.range 8).map fun page => (Files.init, .pipe true (some page))

def tab : Files.Table Ip :=
  match pipes.foldlM (fun s a => if True then Files.step s a else .error .disabled)
    (Files.start cwd) with
  | .ok t => t
  | .error _ => Files.start cwd

def kernel : Kernel := ⟨fs, tab⟩

theorem settled : Files.Settled tab := by
  rw [tab]
  split
  next t ht =>
    exact (Run.of_exec ht).invariant .start fun h _ hs => (h.step hs).1
  next => exact .start

theorem dinodeAt_one : dinodeAt Fs.OneName.sb disk 1 = Fs.OneName.din := by
  have hdisk : disk 2 = Fs.OneName.din.store Bytes.zero 1 := (if_neg (by decide)).trans (if_pos rfl)
  rw [dinodeAt, show Fs.iblock Fs.OneName.sb 1 = 2 from rfl, hdisk]
  exact Fs.Dinode.load_store (by decide)

theorem held : Held fs (Fs.one cwd) := by
  refine ⟨.of_empty ⟨by decide, by decide, by decide, by decide, by decide, by decide⟩
    (by decide +kernel) (by decide +kernel) (by decide +kernel)
    (Fs.cachedBut_only (by decide) fun _ => ⟨dinodeAt_one.symm, by decide⟩), fun p => ?_⟩
  by_cases hp : p = cwd
  · subst hp
    decide
  · rw [show (fs.icache p).ref = 0 from congrArg Fs.Inode.ref (State.others_of_ne hp), Fs.one,
      Pi.single_eq_of_ne hp]
    rfl

theorem data_dir {i : Nat} (h : (fs.node i).type = Fs.T_DIR) : i = 1 ∧ (fs.node i).data = [] := by
  have hsmall : ∀ i < 3, (fs.node i).type = Fs.T_DIR → i = 1 ∧ (fs.node i).data = [] := by
    decide +kernel
  by_cases hi : i < 3
  · exact hsmall i hi h
  · rw [show fs.node i = .free from if_neg hi] at h
    exact absurd h (by decide)

theorem leads : Fs.Leads fs (Fs.one cwd) 1 := by
  intro names j hj
  cases names with
  | nil =>
    cases hj
    exact .inr (.inl (by decide +kernel))
  | cons name names =>
    -- there is no name in the root
    rw [Fs.follow_cons, Fs.lookupIn] at hj
    split at hj
    next hdir =>
      rw [Fs.Node.lookup, (data_dir hdir).2] at hj
      cases hj
    next => cases hj

theorem entered : Entered kernel Files.init cwd (Fs.one cwd) where
  held := held
  ready := by
    refine ⟨⟨by decide, fun i hi => ?_, fun i hi k name inum hk => ?_⟩, by decide, leads, leads⟩
    · change ((fs.node i).data).length % _ = 0
      rw [(data_dir hi).2]
      rfl
    · change (Fs.dirSlots (fs.node i).data)[k]? = _ at hk
      rw [(data_dir hi).2] at hk
      cases hk
  files := settled
  life := by decide +kernel
  cwd := by decide +kernel

end Full

/-- An `open` that finds no descriptor leaves the file that it made. -/
theorem failed_open_left_file : ∃ (k l : Kernel) (me : Slot) (cwd : Ip) (r : Refs) (c : Call),
    Entered k me cwd r ∧ c.Fresh k ∧
    c.run Fs.OneFile.noDev me k = .ok (-1, l) ∧ ¬Same k l := by
  obtain ⟨⟨_, l⟩, hl, rfl, hne⟩ : ∃ x,
      sysOpen Fs.OneFile.noDev Files.init (some [102]) Fs.O_CREATE Full.kernel = .ok x ∧
      x.1 = -1 ∧ (x.2.fs.node 2).type ≠ (Full.kernel.fs.node 2).type := by decide +kernel
  refine ⟨Full.kernel, l, Files.init, Full.cwd, Fs.one Full.cwd,
    .open (some [102]) Fs.O_CREATE, Full.entered, trivial, hl, fun hsame => hne ?_⟩
  rw [hsame.node]

/-- An `unlink` of a name that is not there. -/
theorem failed_unlink_same : ∃ l,
    (Call.unlink (some [102])).run Fs.OneFile.noDev Files.init Full.kernel = .ok (-1, l) ∧
    Same Full.kernel l := by
  obtain ⟨⟨_, l⟩, hl, rfl⟩ : ∃ x,
      sysUnlink Fs.OneFile.noDev Files.init (some [102]) Full.kernel = .ok x ∧ x.1 = -1 := by
    decide +kernel
  have hsame := failed_call_same (c := .unlink (some [102])) Fs.OneFile.noDev Full.entered trivial hl
  exact ⟨l, hl, hsame.mpr id⟩

end Xv6.Sysfile
