import Xv6.Fs.Fill
import Xv6.Sysfile.Failed

/-!
# Calls that add a name to a directory

`link`, `open` with `O_CREATE`, `mkdir` and `mknod` of a new name in a directory return, and change
nothing if they return -1, if and only if the directory is not full and an `open` has a file and a
descriptor for what it made.
-/

namespace Xv6.Sysfile

open Fs (FsM Ip DevSw State Refs NewIn OtherFault EntryPanic FaultOr)
open Files (Slot)
open Prog (StopsIn)

/-- The call makes a new entry in directory `d`, unless something else is wrong. -/
def Call.AddsTo (k : Kernel) (cwd : Ip) (d : Nat) : Call → Prop
  | .open (some path) omode => omode &&& Fs.O_CREATE ≠ 0 ∧ NewIn k.fs cwd path d
  | .link (some old) (some new) =>
    (∃ i, Fs.follow k.fs.node (k.fs.startOf cwd old) (Fs.components old) = some i ∧
      (k.fs.node i).type ≠ Fs.T_DIR) ∧ NewIn k.fs cwd new d
  | .mkdir (some path) => NewIn k.fs cwd path d
  | .mknod (some path) _ _ => NewIn k.fs cwd path d
  | _ => False

/-- There is a file and a descriptor for an `open`. -/
def Call.HasRoom (k : Kernel) (me : Slot) : Call → Prop
  | .open _ _ => (∃ f, (k.tab.file f).ref = 0) ∧ ∃ fd, (k.tab.proc me).ofile fd = none
  | _ => True

/-- The call returns, and has changed nothing if it failed. -/
def Handled (dev : DevSw) (k : Kernel) (me : Slot) (c : Call) : Prop :=
  ∃ n l, c.run dev me k = .ok (n, l) ∧ (n = -1 → Same k l)

section
variable {dev : DevSw} {k l : Kernel} {me : Slot} {cwd : Ip} {r : Refs} {d : Nat} {c : Call}
variable {C D : Prop}

theorem wp_inFs_const {x : FsM α} (h : StopsIn OtherFault x) (hD : D) :
    (inFs x).wp (FaultOr C) (fun _ _ => D) k :=
  wp_inFs.mpr (Fs.wp_or_const h hD)

theorem stopsIn_fileclose {f : Files.FileId} : StopsIn OtherFault (fileclose f) := by
  have htab : StopsIn OtherFault (Files.fileclose (ι := Ip) f) := by
    refine .bind (.gets _) fun x => .ite (.stop (by decide)) ?_
    refine .ite (.bind (.modify _) fun _ => .pure _) (.bind (.modify _) fun _ => ?_)
    split
    · refine .bind (.bind (.gets _) fun e => ?_) fun _ => .pure _
      split
      · exact .stop (by decide)
      · exact .ite (.modify _) (.modify _)
    · exact .pure _
    · exact .pure _
  refine htab.zoom.bind fun x => ?_
  split
  · exact .pure _
  · refine StopsIn.zoom ?_
    exact Fs.stopsIn_beginOp.bind fun _ => Fs.stopsIn_iput.bind fun _ => Fs.stopsIn_endOp

/-- An `open` that got its inode fails if it has no place for it. -/
theorem Entered.wp_sysOpen_full (h : Entered k me cwd r) {path : List UInt8} {omode : UInt32}
    (hcreate : omode &&& Fs.O_CREATE ≠ 0) (hnew : NewIn k.fs cwd path d) :
    (sysOpen dev me (some path) omode).wp (FaultOr (k.fs.node d).Full)
      (fun n _ => ¬(k.fs.node d).Full ∧
        (n = -1 ↔ ¬(Call.open (some path) omode).HasRoom k me)) k := by
  have hbad : ∀ {ip : Ip} {l : Kernel} {C D : Prop}, D → (openBad ip).wp (FaultOr C)
      (fun n _ => n = -1 ∧ D) l := by
    intro ip l C D hD
    rw [openBad, wp_bind]
    exact wp_inFs_const (Fs.stopsIn_iunlockput.bind fun _ => Fs.stopsIn_endOp) ⟨rfl, hD⟩
  rw [sysOpen, wp_bind, wp_cwd h.cwd, wp_bind, wp_inFs]
  refine wp_imp (Fs.wp_or Fs.stopsIn_beginOp (Fs.still_beginOp h.held)) ?_
  rintro _ s₁ ⟨h₁, hst₁⟩
  have hr₁ := h.ready.still hst₁
  rw [← hst₁.newIn h.ready.pinned] at hnew
  rw [wp_bind, wp_inFs]
  have hopen : (Fs.openInode dev cwd path omode).wp _ _ s₁ := hr₁.wp_openInode h₁
  rw [Fs.openInode, if_pos hcreate] at hopen ⊢
  rw [← hst₁.node]
  refine wp_imp (wp_also (hr₁.wp_create_full h₁ hnew) hopen) ?_
  rintro x s₂ ⟨hfull, hx⟩
  cases x with
  | none => exact absurd ⟨hcreate, Fs.newName_iff.mpr ⟨d, hnew⟩⟩ hx.2.2
  | some ip =>
  rw [wp_bind, wp_inTab]
  refine wp_imp Files.wp_filealloc_none ?_
  rintro y t ⟨hy, hproc⟩
  cases y with
  | none =>
    refine wp_imp (hbad hfull) fun n l hl => ⟨hl.2, iff_of_true hl.1 fun hroom => ?_⟩
    exact hy.mp rfl hroom.1
  | some f =>
  rw [wp_bind, wp_inTab]
  refine wp_imp Files.wp_fdalloc_none ?_
  intro z u hz
  have hproc' : (t.proc me).ofile = (k.tab.proc me).ofile := by rw [hproc]
  rw [hproc'] at hz
  cases z with
  | none =>
    rw [wp_bind]
    refine wp_mono (stopsIn_fileclose _) (fun _ => .inl) fun _ l _ => ?_
    refine wp_imp (hbad hfull) fun n l hl => ⟨hl.2, iff_of_true hl.1 fun hroom => ?_⟩
    exact hz.mp rfl hroom.2
  | some fd =>
  have hfile : ∃ f, (k.tab.file f).ref = 0 := by
    by_contra hnone
    cases hy.mpr hnone
  have hfd : ∃ fd, (k.tab.proc me).ofile fd = none := by
    by_contra hnone
    cases hz.mpr hnone
  rw [wp_bind]
  refine wp_imp (wp_inFs_const (Fs.stopsIn_iunlock.bind fun _ => Fs.stopsIn_endOp) hfull) ?_
  intro _ l hfull
  refine ⟨hfull, iff_of_false ?_ (not_not_intro ⟨hfile, hfd⟩)⟩
  omega

theorem Entered.wp_fs_full (h : Entered k me cwd r) {x : Ip → FsM Int}
    (hx : (x cwd).wp (FaultOr (k.fs.node d).Full) (fun _ _ => ¬(k.fs.node d).Full) k.fs) :
    Prog.wp (do
      let cwd ← Sysfile.cwd me
      inFs (x cwd)) (FaultOr (k.fs.node d).Full) (fun _ _ => ¬(k.fs.node d).Full) k := by
  rw [wp_bind, wp_cwd h.cwd, wp_inFs]
  exact hx

/-- The call returns only if the directory is not full, and then does not stop for want of an entry. -/
theorem Entered.wp_run_full (h : Entered k me cwd r) (hc : c.AddsTo k cwd d) :
    (c.run dev me).wp (FaultOr (k.fs.node d).Full) (fun _ _ => ¬(k.fs.node d).Full) k := by
  cases c with
  | «open» path omode =>
    cases path with
    | none => exact hc.elim
    | some path => exact wp_imp (h.wp_sysOpen_full hc.1 hc.2) fun _ _ ht => ht.1
  | link old new =>
    cases old with
    | none => exact hc.elim
    | some old =>
    cases new with
    | none => exact hc.elim
    | some new => exact h.wp_fs_full (h.ready.wp_sysLink_full h.held hc.1 hc.2)
  | mkdir path =>
    cases path with
    | none => exact hc.elim
    | some path => exact h.wp_fs_full (h.ready.wp_sysMake_full h.held hc)
  | mknod path major minor =>
    cases path with
    | none => exact hc.elim
    | some path => exact h.wp_fs_full (h.ready.wp_sysMake_full h.held hc)
  | unlink path => exact hc.elim
  | chdir path => exact hc.elim
  | dup fd => exact hc.elim
  | pipe argptr kalloc => exact hc.elim

/-- A call that fails has changed something only if it is an `open` without a place for its file. -/
theorem Entered.wp_run_same (h : Entered k me cwd r) (hc : c.AddsTo k cwd d) :
    (c.run dev me).wp (fun _ => True) (fun n l => (n = -1 → (Same k l ↔ c.HasRoom k me)) ∧
      (¬c.HasRoom k me → n = -1)) k := by
  have hsame : ∀ {x : KernelM Int}, c.HasRoom k me →
      x.wp (fun _ => True) (fun n l => n = -1 → Same k l) k →
      x.wp (fun _ => True) (fun n l => (n = -1 → (Same k l ↔ c.HasRoom k me)) ∧
        (¬c.HasRoom k me → n = -1)) k := by
    intro x hroom hx
    refine wp_imp hx fun n l hl => ⟨fun hn => iff_of_true (hl hn) hroom, absurd hroom⟩
  cases c with
  | «open» path omode =>
    cases path with
    | none => exact hc.elim
    | some path =>
      refine wp_mono (wp_also (h.wp_sysOpen_full hc.1 hc.2) h.wp_sysOpen)
        (fun _ _ => trivial) ?_
      rintro n l ⟨⟨-, hroom⟩, hl⟩
      refine ⟨fun hn => iff_of_false (fun hs => ?_) (hroom.mp hn), hroom.mpr⟩
      exact (hl hn).mp hs ⟨hc.1, Fs.newName_iff.mpr ⟨d, hc.2⟩⟩
  | link old new => exact hsame trivial (h.wp_fs (h.ready.wp_sysLink h.held))
  | mkdir path => exact hsame trivial (h.wp_fs (h.ready.wp_sysMake h.held))
  | mknod path major minor => exact hsame trivial (h.wp_fs (h.ready.wp_sysMake h.held))
  | unlink path => exact hc.elim
  | chdir path => exact hc.elim
  | dup fd => exact hc.elim
  | pipe argptr kalloc => exact hc.elim

end

def step (dev : DevSw) (me : Slot) (k : Kernel) (c : Call) : Except Fault Kernel :=
  (c.run dev me k).map Prod.snd

/-- The call that gives the file its name `n`. -/
def linkName (n : Nat) : Call := .link (some (Fs.nameOf 0)) (some (Fs.nameOf n))

section
variable {k : Kernel} {cwd : Ip} {n : Nat}

theorem entered_of_filled (h : Fs.Filled cwd n k.fs) (hn : 1 ≤ n) (hle : n ≤ Fs.maxEntries)
    (htab : k.tab = Files.start cwd) : Entered k Files.init cwd (Fs.one cwd) where
  held := h.held
  ready := (h.free hn hle).toReady
  files := by
    rw [htab]
    exact .start
  life := by
    rw [htab]
    rfl
  cwd := by
    rw [htab]
    rfl

theorem addsTo_of_filled (h : Fs.Filled cwd n k.fs) (hn : 1 ≤ n) (hle : n ≤ Fs.maxEntries) :
    (linkName n).AddsTo k cwd 1 := by
  have hold := Fs.isName_nameOf (Nat.zero_le Fs.maxEntries)
  have hnew := Fs.isName_nameOf hle
  refine ⟨⟨2, ?_, ?_⟩, Fs.nameOf n, ?_, ?_⟩
  · rw [hold.startOf, hold.components, h.inum]
    exact h.follow_first hn hle
  · rw [h.file]
    decide
  · rw [hnew.startOf, hnew.components, h.inum]
    exact h.followParent
  · rw [Fs.lookup_nameOf h.slots hle hle, if_neg (Nat.lt_irrefl n)]

theorem run_filled (dev : DevSw) (h : Fs.Filled cwd 1 k.fs) (htab : k.tab = Files.start cwd)
    (hle : n + 1 ≤ Fs.maxEntries) :
    ∃ l, Run (step dev Files.init) (fun _ c => ∃ n, c = linkName n) k l ∧
      Fs.Filled cwd (n + 1) l.fs ∧ l.tab = Files.start cwd := by
  induction n with
  | zero => exact ⟨k, .refl, h, htab⟩
  | succ n ih =>
    obtain ⟨l, hrun, hl, hltab⟩ := ih (Nat.le_of_succ_le hle)
    have hentered := entered_of_filled hl (Nat.le_add_left 1 n) (Nat.le_of_succ_le hle) hltab
    have hlink : (Call.run dev Files.init (linkName (n + 1))).wp (fun _ => False)
        (fun _ m => Fs.Filled cwd (n + 1 + 1) m.fs ∧ m.tab = Files.start cwd) l := by
      change Prog.wp (do
        let cwd ← Sysfile.cwd Files.init
        inFs (Fs.sysLink dev cwd _ _)) _ _ _
      rw [wp_bind, wp_cwd hentered.cwd, wp_inFs]
      exact wp_imp (hl.wp_link (Nat.le_add_left 1 n) hle) fun _ _ ht => ⟨ht, hltab⟩
    obtain ⟨x, m, hm, hfilled, hmtab⟩ := exists_of_wp hlink
    refine ⟨m, hrun.tail ⟨n + 1, rfl⟩ ?_, hfilled, hmtab⟩
    rw [step, hm]
    rfl

end

end Xv6.Sysfile
