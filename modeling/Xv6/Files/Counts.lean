import Xv6.Files.Table
import Xv6.Lib.Ends
import Xv6.Lib.Places

/-!
# References to open files

A file has as many references as descriptors point to it. During a call some references are held by
the call itself, and a descriptor may already have been set or cleared for a reference that is only
taken or given up next: `Counted s tab xs` counts the descriptors in `tab`, and the references `xs`
that the call holds besides them.
-/

namespace Xv6.Files

open Table

variable {ι : Type}

/-- The file is the end of the pipe in a page that is written, or read. -/
def File.IsEnd (x : File ι) (page : Nat) (w : Bool) : Prop :=
  0 < x.ref ∧ x.type = .pipe ∧ x.pipe = page ∧ x.writable = w

def Ends.isOpen (e : Ends) (w : Bool) : Bool := if w then e.writeopen else e.readopen

/-- The ends of the pipes. -/
def Table.ends (s : Table ι) (page : Nat) : Option (Bool → Bool) := (s.pipe page).map Ends.isOpen

/-- The descriptors of all processes. -/
def Table.tab (s : Table ι) (x : Slot × Fd) : Option FileId := (s.proc x.1).ofile x.2

structure Counted (s : Table ι) (tab : Slot × Fd → Option FileId) (xs : List FileId) : Prop where
  refs : ∀ f, (s.file f).ref = places tab f + xs.count f
  idle : ∀ f, (s.file f).ref = 0 → (s.file f).type = .none
  ends : Ended (fun f => (s.file f).IsEnd) s.ends
  pages : ∀ page, s.allocs page = s.frees page + if (s.pipe page).isSome then 1 else 0

/-- Only processes that may still run have descriptors. -/
def Table.Vacant (s : Table ι) : Prop :=
  ∀ p, (s.proc p).life ≠ .used → ∀ fd, (s.proc p).ofile fd = none

/-- Between calls. -/
structure Settled (s : Table ι) : Prop where
  counted : Counted s s.tab []
  vacant : s.Vacant

def Table.setFile (s : Table ι) (f : FileId) (x : File ι) : Table ι :=
  { s with file := Function.update s.file f x }

def Table.setProc (s : Table ι) (p : Slot) (q : Proc ι) : Table ι :=
  { s with proc := Function.update s.proc p q }

def Table.setOfile (s : Table ι) (p : Slot) (fd : Fd) (f : Option FileId) : Table ι :=
  s.setProc p { s.proc p with ofile := Function.update (s.proc p).ofile fd f }

section
variable {s t : Table ι} {tab : Slot × Fd → Option FileId} {xs ys : List FileId} {f g : FileId}
variable {x : File ι} {p : Slot} {q : Proc ι} {fd : Fd} {v : Option FileId} {E : Fault → Prop}
variable {Q : Unit → Table ι → Prop}

@[simp] theorem Table.setFile_self : (s.setFile f x).file f = x := update_self ..

theorem Table.setFile_of_ne (h : g ≠ f) : (s.setFile f x).file g = s.file g :=
  update_of_ne h ..

@[simp] theorem Table.setProc_self : (s.setProc p q).proc p = q := update_self ..

theorem Table.setProc_of_ne {p' : Slot} (h : p' ≠ p) : (s.setProc p q).proc p' = s.proc p' :=
  update_of_ne h ..

theorem wp_modifyFile {g : File ι → File ι} :
    (modifyFile f g).wp E Q s ↔ Q () (s.setFile f (g (s.file f))) := by
  rw [modifyFile, wp_modify, setAt_eq_update, Table.setFile]

theorem wp_modifyProc {g : Proc ι → Proc ι} :
    (modifyProc p g).wp E Q s ↔ Q () (s.setProc p (g (s.proc p))) := by
  rw [modifyProc, wp_modify, setAt_eq_update, Table.setProc]

theorem wp_setOfile : (setOfile p fd v).wp E Q s ↔ Q () (s.setOfile p fd v) := by
  rw [setOfile, wp_modifyProc, setAt_eq_update, Table.setOfile]

theorem Table.tab_setOfile : (s.setOfile p fd v).tab = update s.tab (p, fd) v := by
  funext ⟨p', fd'⟩
  by_cases hp : p' = p
  · subst hp
    by_cases hfd : fd' = fd
    · subst hfd
      simp only [Table.tab, Table.setOfile, Table.setProc, update_self]
    · have hne : (p', fd') ≠ (p', fd) := fun h => hfd (Prod.mk.inj h).2
      rw [update_of_ne hne]
      simp only [Table.tab, Table.setOfile, Table.setProc, update_self,
        update_of_ne hfd]
  · have hne : (p', fd') ≠ (p, fd) := fun h => hp (Prod.mk.inj h).1
    rw [update_of_ne hne]
    simp only [Table.tab, Table.setOfile, Table.setProc, update_of_ne hp]

/-! ## References of a call -/

theorem Counted.perm (h : Counted s tab xs) (hp : xs.Perm ys) : Counted s tab ys :=
  ⟨fun f => by rw [h.refs f, hp.count_eq], h.idle, h.ends, h.pages⟩

theorem Counted.setProc (h : Counted s tab xs) : Counted (s.setProc p q) tab xs :=
  ⟨h.refs, h.idle, h.ends, h.pages⟩

theorem Counted.pos (h : Counted s tab (f :: xs)) : 0 < (s.file f).ref := by
  have := h.refs f
  rw [List.count_cons_self] at this
  have : 0 ≤ places tab f := places_nonneg
  omega

theorem Counted.ref_pos (h : Counted s tab xs) {y : Slot × Fd} (hy : tab y = some f) :
    0 < (s.file f).ref := by
  have := places_pos hy
  have := h.refs f
  omega

theorem Counted.place (h : Counted s tab (f :: xs)) {y : Slot × Fd} (hy : tab y = none) :
    Counted s (update tab y (some f)) xs := by
  refine ⟨fun g => ?_, h.idle, h.ends, h.pages⟩
  rw [h.refs g, places_update, hy, List.count_cons]
  by_cases hg : f = g
  · simp
    omega
  · simp [hg]

theorem Counted.remove (h : Counted s tab xs) {y : Slot × Fd} (hy : tab y = some f) :
    Counted s (update tab y none) (f :: xs) := by
  refine ⟨fun g => ?_, h.idle, h.ends, h.pages⟩
  rw [h.refs g, places_update, hy, List.count_cons]
  by_cases hg : f = g
  · simp
  · simp [hg]

/-- The number of references to a file changes, and whatever else makes no difference to pipes. -/
theorem Counted.setFile (h : Counted s tab xs)
    (href : x.ref + xs.count f = (s.file f).ref + ys.count f)
    (hother : ∀ g, g ≠ f → ys.count g = xs.count g) (hidle : x.ref = 0 → x.type = .none)
    (hend : ∀ page w, x.IsEnd page w ↔ (s.file f).IsEnd page w) :
    Counted (s.setFile f x) tab ys := by
  refine ⟨fun g => ?_, fun g hg => ?_, h.ends.congr fun g page w => ?_, h.pages⟩
  · have := h.refs g
    by_cases hgf : g = f
    · subst hgf
      rw [setFile_self]
      omega
    · rw [setFile_of_ne hgf, hother g hgf, this]
  · by_cases hgf : g = f
    · subst hgf
      rw [setFile_self] at hg ⊢
      exact hidle hg
    · rw [setFile_of_ne hgf] at hg ⊢
      exact h.idle g hg
  · by_cases hgf : g = f
    · subst hgf
      rw [setFile_self]
      exact hend page w
    · rw [setFile_of_ne hgf]

theorem not_isEnd (h : x.type ≠ .pipe) {page : Nat} {w : Bool} : ¬x.IsEnd page w := fun hx => h hx.2.1

theorem Counted.alloc (h : Counted s tab xs) (hf : (s.file f).ref = 0) :
    Counted (s.setFile f { s.file f with ref := 1 }) tab (f :: xs) := by
  have htype := h.idle f hf
  refine h.setFile ?_ (fun g hg => List.count_cons_of_ne (Ne.symm hg)) nofun fun page w => ?_
  · rw [List.count_cons_self]
    push_cast
    omega
  · refine iff_of_false (not_isEnd ?_) (not_isEnd ?_) <;> simp [htype]

theorem Counted.dup (h : Counted s tab xs) (hf : 0 < (s.file f).ref) :
    Counted (s.setFile f { s.file f with ref := (s.file f).ref + 1 }) tab (f :: xs) := by
  refine h.setFile ?_ (fun g hg => List.count_cons_of_ne (Ne.symm hg)) (fun hz => ?_) fun page w => ?_
  · rw [List.count_cons_self]
    push_cast
    omega
  · dsimp only at hz
    omega
  · exact and_congr_left fun _ => ⟨fun _ => hf, fun _ => by dsimp only; omega⟩

theorem Counted.undup (h : Counted s tab (f :: xs)) (hf : 1 < (s.file f).ref) :
    Counted (s.setFile f { s.file f with ref := (s.file f).ref - 1 }) tab xs := by
  refine h.setFile ?_ (fun g hg => (List.count_cons_of_ne (Ne.symm hg)).symm) (fun hz => ?_)
    fun page w => ?_
  · rw [List.count_cons_self]
    push_cast
    omega
  · dsimp only at hz
    omega
  · exact and_congr_left fun _ => ⟨fun _ => by omega, fun _ => by dsimp only; omega⟩

/-! ## Closing -/

/-- The state after the last reference to an end of a pipe is gone. -/
def Table.shut (s : Table ι) (f : FileId) : Table ι :=
  s.setFile f { s.file f with ref := 0, type := .none }

theorem isEnd_shut {page : Nat} {w : Bool} :
    ((s.shut f).file g).IsEnd page w ↔ g ≠ f ∧ (s.file g).IsEnd page w := by
  by_cases hgf : g = f
  · subst hgf
    rw [Table.shut, setFile_self]
    exact iff_of_false (not_isEnd FdType.noConfusion) fun h => h.1 rfl
  · rw [Table.shut, setFile_of_ne hgf]
    exact ⟨fun h => ⟨hgf, h⟩, And.right⟩

theorem Counted.shut_refs (h : Counted s tab (f :: xs)) (hf : (s.file f).ref = 1) (g : FileId) :
    ((s.shut f).file g).ref = places tab g + xs.count g := by
  have hg := h.refs g
  by_cases hgf : g = f
  · subst hgf
    rw [List.count_cons_self] at hg
    rw [Table.shut, setFile_self]
    push_cast at hg
    dsimp only
    omega
  · rw [Table.shut, setFile_of_ne hgf, hg,
      List.count_cons_of_ne (Ne.symm hgf)]

theorem Counted.shut_idle (h : Counted s tab (f :: xs)) (g : FileId)
    (hg : ((s.shut f).file g).ref = 0) : ((s.shut f).file g).type = .none := by
  by_cases hgf : g = f
  · subst hgf
    rw [Table.shut, setFile_self]
  · rw [Table.shut, setFile_of_ne hgf] at hg ⊢
    exact h.idle g hg

theorem Counted.close (h : Counted s tab (f :: xs)) (hf : (s.file f).ref = 1)
    (htype : (s.file f).type ≠ .pipe) : Counted (s.shut f) tab xs := by
  refine ⟨h.shut_refs hf, h.shut_idle, h.ends.congr fun g page w => ?_, h.pages⟩
  rw [isEnd_shut]
  refine ⟨And.right, fun hg => ⟨?_, hg⟩⟩
  rintro rfl
  exact not_isEnd htype hg

/-- The end of a pipe after one of its ends is closed. -/
def Ends.close (e : Ends) (w : Bool) : Ends :=
  if w then { e with writeopen := false } else { e with readopen := false }

theorem Ends.isOpen_close {e : Ends} {w : Bool} :
    (e.close w).isOpen = update e.isOpen w false := by
  funext v
  cases v <;> cases w <;> rfl

theorem Table.ends_eq {page : Nat} {e : Option Ends}
    (h : t.pipe = update s.pipe page e) :
    t.ends = update s.ends page (e.map Ends.isOpen) := by
  change Option.map Ends.isOpen ∘ t.pipe = _
  rw [h]
  exact Function.comp_update ..

theorem wp_pipeclose (h : Counted s tab (f :: xs)) (hf : (s.file f).ref = 1)
    (htype : (s.file f).type = .pipe) :
    (pipeclose (s.file f).pipe (s.file f).writable).wp E
      (fun _ t => Counted t tab xs ∧ t.proc = s.proc ∧ t.allocs = s.allocs) (s.shut f) := by
  have hends : ∀ page w, (s.file f).IsEnd page w ↔
      page = (s.file f).pipe ∧ w = (s.file f).writable := by
    intro page w
    refine ⟨fun h => ⟨h.2.2.1.symm, h.2.2.2.symm⟩, fun h => ⟨?_, htype, h.1.symm, h.2.symm⟩⟩
    rw [hf]
    exact Int.one_pos
  have hused := h.ends.used f _ _ ((hends _ _).mpr ⟨rfl, rfl⟩)
  generalize (s.file f).pipe = page at hends hused
  generalize (s.file f).writable = w at hends
  cases he : s.pipe page with
  | none =>
    rw [Table.ends, he] at hused
    exact absurd rfl hused
  | some e =>
  have hends' : s.ends page = some e.isOpen := by rw [Table.ends, he]; rfl
  have hpages := h.pages page
  rw [he] at hpages
  simp only [pipeclose, wp_bind, wp_gets]
  rw [show (s.shut f).pipe page = some e from he]
  change Prog.wp (if (e.close w).readopen = false ∧ (e.close w).writeopen = false then _ else _) _ _ _
  split
  next hclosed =>
    refine ⟨⟨h.shut_refs hf, h.shut_idle, ?_, fun page' => ?_⟩, rfl, rfl⟩
    · rw [ends_eq (s := s) (setAt_eq_update ..)]
      refine h.ends.drop hends hends' (fun _ _ _ => isEnd_shut) fun v => ?_
      rw [← Ends.isOpen_close]
      cases v
      · exact hclosed.1
      · exact hclosed.2
    · simp only [setAt_eq_update]
      by_cases hp : page' = page
      · subst hp
        rw [update_self, update_self]
        exact hpages
      · rw [update_of_ne hp, update_of_ne hp]
        exact h.pages page'
  next hopen =>
    refine ⟨⟨h.shut_refs hf, h.shut_idle, ?_, fun page' => ?_⟩, rfl, rfl⟩
    · rw [ends_eq (s := s) (e := some (e.close w)) (setAt_eq_update ..), Option.map_some,
        Ends.isOpen_close]
      refine h.ends.close hends hends' (fun _ _ _ => isEnd_shut) ?_
      rw [← Ends.isOpen_close]
      by_contra hnone
      simp only [not_exists, Bool.not_eq_true] at hnone
      exact hopen ⟨hnone false, hnone true⟩
    · simp only [setAt_eq_update]
      by_cases hp : page' = page
      · subst hp
        rw [update_self]
        exact hpages
      · rw [update_of_ne hp]
        exact h.pages page'

theorem wp_fileclose (h : Counted s tab (f :: xs)) :
    (fileclose f).wp E (fun r t => Counted t tab xs ∧ t.proc = s.proc ∧ t.allocs = s.allocs ∧
      (r ≠ none → (s.file f).type = .inode)) s := by
  have hpos := h.pos
  simp only [fileclose, wp_bind, wp_gets]
  rw [if_neg (by omega)]
  by_cases hlast : 0 < (s.file f).ref - 1
  · rw [if_pos hlast, wp_bind, wp_modifyFile]
    exact ⟨h.undup (by omega), rfl, rfl, fun hr => absurd rfl hr⟩
  · have hf : (s.file f).ref = 1 := by omega
    rw [if_neg hlast, wp_bind, wp_modifyFile]
    change Prog.wp _ _ _ (s.shut f)
    cases htype : (s.file f).type with
    | none => exact ⟨h.close hf (by rw [htype]; decide), rfl, rfl, fun hr => absurd rfl hr⟩
    | inode => exact ⟨h.close hf (by rw [htype]; decide), rfl, rfl, fun _ => rfl⟩
    | pipe =>
      refine wp_seq (wp_pipeclose h hf htype) ?_
      rintro _ t ⟨hc, hp, ha⟩
      exact ⟨hc, hp, ha, fun hr => absurd rfl hr⟩

end

end Xv6.Files
