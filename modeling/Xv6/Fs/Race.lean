import Xv6.Fs.Frame
import Xv6.Fs.Icache

/-!
# `iput` beside `create`

One process gives a reference to an inode back while another creates an inode. `iput` frees an inode
in three steps, for it holds `icache.lock` only in the first and the last: the check, the writes that
make the inode free on disk, and the release of the cache entry. Between the last two the entry
still claims to hold a valid copy, of type 0, of an inode that `ialloc` may already have given away.
-/

namespace Xv6.Race
open Fs

/-- `ialloc` up to its call of `iget`. -/
def iallocInum (type : UInt16) : FsM Nat := do
  let s ← Prog.gets id
  match (List.range' 1 (s.sb.ninodes.toNat - 1)).find? fun inum =>
      (dinodeAt s.sb s.disk inum).type = 0 with
  | some inum => do
    let b := iblock s.sb inum
    logWrite b ({ Dinode.zero with type }.store (s.disk b) (inum % IPB))
    pure inum
  | none => Fs.panic "ialloc: no inodes"

/-- What `iput` does without `icache.lock`. -/
def itruncType (p : Ip) : FsM Unit := do
  itrunc p
  modifyDin p fun d => { d with type := 0 }
  iupdate p

/-- What `create` does with the inode that it has locked. -/
def initInode (p : Ip) (major minor : UInt16) : FsM Unit := do
  modifyDin p fun d => { d with major, minor, nlink := 1 }
  iupdate p

/-- Where the process in `iput` is. -/
inductive Put
  | start
  /-- The check has found the last reference to an inode without links. -/
  | freeing
  /-- The inode is free on disk. -/
  | freed
  | done
  deriving DecidableEq

/-- Where the process in `create` is. -/
inductive Create
  | start
  | allocated (inum : Nat)
  | got (inum : Nat) (q : Ip)
  | locked (inum : Nat) (q : Ip)
  | done (inum : Nat) (q : Ip)
  deriving DecidableEq

structure Sys where
  fs : State
  put : Put
  create : Create

/-- The inode that `ialloc` has returned. -/
def Create.inum : Create → Option Nat
  | .start => none
  | .allocated i | .got i _ | .locked i _ | .done i _ => some i

inductive Step
  | check
  | free
  | drop
  | ialloc
  | iget
  | ilock
  | iupdate
  deriving DecidableEq

/-- The two processes: `iput` of entry `p`, and `create` of an inode of the given type and device. -/
def step (p : Ip) (type major minor : UInt16) (s : Sys) : Step → Except Fault Sys
  | .check =>
    if s.put = .start then
      if (s.fs.icache p).ref = 1 ∧ (s.fs.icache p).valid ∧ (s.fs.icache p).din.nlink = 0 then
        .ok { s with put := .freeing }
      else .ok { s with
        fs := s.fs.setInode p { s.fs.icache p with ref := (s.fs.icache p).ref - 1 }
        put := .done }
    else .error .disabled
  | .free =>
    if s.put = .freeing then
      (itruncType p s.fs).map fun r => { s with fs := r.2, put := .freed }
    else .error .disabled
  | .drop =>
    if s.put = .freed then
      .ok { s with
        fs := s.fs.setInode p { s.fs.icache p with valid := false, ref := (s.fs.icache p).ref - 1 }
        put := .done }
    else .error .disabled
  | .ialloc =>
    if s.create = .start then
      (iallocInum type s.fs).map fun r => { s with fs := r.2, create := .allocated r.1 }
    else .error .disabled
  | .iget =>
    match s.create with
    | .allocated i => (iget i s.fs).map fun r => { s with fs := r.2, create := .got i r.1 }
    | _ => .error .disabled
  | .ilock =>
    match s.create with
    | .got i q => (ilock q s.fs).map fun r => { s with fs := r.2, create := .locked i q }
    | _ => .error .disabled
  | .iupdate =>
    match s.create with
    | .locked i q =>
      (initInode q major minor s.fs).map fun r => { s with fs := r.2, create := .done i q }
    | _ => .error .disabled

theorem ialloc_eq (type : UInt16) : ialloc type = (do
    let inum ← iallocInum type
    iget inum) := by
  rw [ialloc, iallocInum, bind_assoc]
  congr 1
  funext s
  generalize (List.range' 1 (s.sb.ninodes.toNat - 1)).find? (fun inum =>
    (dinodeAt s.sb s.disk inum).type = 0) = o
  cases o with
  | none => rfl
  | some i => simp only [bind_assoc, pure_bind]

theorem iput_eq (p : Ip) : iput p = (do
    let ip ← Prog.gets (·.icache p)
    Prog.when (ip.ref = 1 ∧ ip.valid ∧ ip.din.nlink = 0) (do
      itruncType p
      modifyInode p fun ip => { ip with valid := false })
    modifyInode p fun ip => { ip with ref := ip.ref - 1 }) := by
  have hfree : ifree p = (do
      itruncType p
      modifyInode p fun ip => { ip with valid := false }) := by
    simp only [ifree, itruncType, bind_assoc]
  rw [iput, hfree]

/-! ## What each step does -/

/-- The type of an inode on disk. -/
def typeAt (s : State) (i : Nat) : UInt16 := (dinodeAt s.sb s.disk i).type

section
variable {p q : Ip} {type major minor : UInt16} {s t : Sys} {a : Step} {fs : State} {i : Nat}

/-- The inode is free on disk, and its copy in memory is that of a free inode. -/
structure Frees (p : Ip) (fs fs' : State) : Prop where
  edits : Edits p fs fs'
  type : (fs'.icache p).din.type = 0

theorem wp_itruncType : (itruncType p).wp (fun _ => True) (fun _ t => Frees p fs t) fs := by
  refine wp_seq wp_itrunc_edits fun _ t ht => ?_
  rw [wp_bind, wp_modifyDin]
  refine wp_iupdate (k := 0) .of_true ⟨(ht.trans edits_setDin).trans edits_flush, ?_⟩
  rw [State.flush_icache, State.setDin_self]

theorem wp_iallocInum : (iallocInum type).wp (fun _ => True) (fun i t =>
    i < fs.sb.ninodes.toNat ∧ typeAt fs i = 0 ∧ t = fs.claim i type) fs := by
  simp only [iallocInum, wp_bind, wp_gets, id]
  split
  next i hi =>
    have hfree := List.find?_some hi
    have hrange := List.mem_range'_1.mp (List.mem_of_find?_eq_some hi)
    rw [decide_eq_true_eq] at hfree
    rw [wp_bind]
    exact wp_logWrite (k := 0) .of_true ⟨by omega, hfree, rfl⟩
  next => exact trivial

theorem wp_initInode : (initInode p major minor).wp (fun _ => True) (fun _ t =>
    t = (fs.setDin p { (fs.icache p).din with major, minor, nlink := 1 }).flush p) fs := by
  rw [initInode, wp_bind, wp_modifyDin]
  exact wp_iupdate (k := 0) .of_true rfl

/-- What a step does. -/
inductive Did (p : Ip) (type major minor : UInt16) (s t : Sys) : Step → Prop
  | check : s.put = .start → (s.fs.icache p).ref = 1 → (s.fs.icache p).valid = true →
    t = { s with put := .freeing } → Did p type major minor s t .check
  | leave : s.put = .start →
    t = { s with
      fs := s.fs.setInode p { s.fs.icache p with ref := (s.fs.icache p).ref - 1 }
      put := .done } → Did p type major minor s t .check
  | free {fs : State} : s.put = .freeing → Frees p s.fs fs → t = { s with fs, put := .freed } →
    Did p type major minor s t .free
  | drop : s.put = .freed →
    t = { s with
      fs := s.fs.setInode p { s.fs.icache p with valid := false, ref := (s.fs.icache p).ref - 1 }
      put := .done } → Did p type major minor s t .drop
  | ialloc {i : Nat} : s.create = .start → i < s.fs.sb.ninodes.toNat → typeAt s.fs i = 0 →
    t = { s with fs := s.fs.claim i type, create := .allocated i } →
    Did p type major minor s t .ialloc
  | iget {i : Nat} {q : Ip} : s.create = .allocated i → Lands s.fs q i →
    t = { s with fs := s.fs.took q i, create := .got i q } → Did p type major minor s t .iget
  | ilock {i : Nat} {q : Ip} : s.create = .got i q → 0 < (s.fs.icache q).ref →
    t = { s with fs := s.fs.lock q, create := .locked i q } → Did p type major minor s t .ilock
  | iupdate {i : Nat} {q : Ip} : s.create = .locked i q →
    t = { s with
      fs := (s.fs.setDin q { (s.fs.icache q).din with major, minor, nlink := 1 }).flush q
      create := .done i q } → Did p type major minor s t .iupdate

theorem step_did (hs : step p type major minor s a = .ok t) : Did p type major minor s t a := by
  cases a with
  | check =>
    rw [step] at hs
    split at hs
    next hput =>
      split at hs
      next hlast =>
        cases hs
        exact .check hput hlast.1 hlast.2.1 rfl
      next =>
        cases hs
        exact .leave hput rfl
    next => cases hs
  | free =>
    rw [step] at hs
    split at hs
    next hput =>
      obtain ⟨-, fs, hfs, rfl⟩ := wp_map_ok wp_itruncType hs
      exact .free hput hfs rfl
    next => cases hs
  | drop =>
    rw [step] at hs
    split at hs
    next hput =>
      cases hs
      exact .drop hput rfl
    next => cases hs
  | ialloc =>
    rw [step] at hs
    split at hs
    next hcreate =>
      obtain ⟨i, -, ⟨hi, hfree, rfl⟩, rfl⟩ := wp_map_ok wp_iallocInum hs
      exact .ialloc hcreate hi hfree rfl
    next => cases hs
  | iget =>
    rw [step] at hs
    split at hs
    next i hcreate =>
      obtain ⟨q, fs, ⟨hq, rfl⟩, rfl⟩ := wp_map_ok
        (wp_iget_eq (Q := fun q fs => Lands s.fs q i ∧ fs = s.fs.took q i) fun _ hq => ⟨hq, rfl⟩) hs
      exact .iget hcreate hq rfl
    next => cases hs
  | ilock =>
    rw [step] at hs
    split at hs
    next i q hcreate =>
      obtain ⟨-, fs, ⟨hpos, rfl⟩, rfl⟩ := wp_map_ok
        (wp_ilock_eq (E := fun _ => True) (Q := fun _ fs => 0 < (s.fs.icache q).ref ∧ fs = s.fs.lock q)
          (.inr fun _ => trivial) fun hpos _ _ => ⟨hpos, rfl⟩) hs
      exact .ilock hcreate hpos rfl
    next => cases hs
  | iupdate =>
    rw [step] at hs
    split at hs
    next i q hcreate =>
      obtain ⟨-, fs, rfl, rfl⟩ := wp_map_ok wp_initInode hs
      exact .iupdate hcreate rfl
    next => cases hs

end

/-! ## Runs in which the entry is not locked too early -/

/-- `iput` has made an inode free, and `create` does not lock its entry before `iput` lets go. -/
def Apart (p : Ip) (s : Sys) (a : Step) : Prop :=
  a = .ilock → s.put = .freed → ∀ i, s.create ≠ .got i p

/-- The inode that was created has its type on disk, so it is not free, and is not being freed. -/
def Survives (p : Ip) (type : UInt16) (s : Sys) : Prop :=
  ∀ i q, s.create = .done i q →
    typeAt s.fs i = type ∧ typeAt s.fs i ≠ 0 ∧ ¬(s.put = .freeing ∧ (s.fs.icache p).inum = i)

/-- Entry `p` has a reference, and the cache is right. -/
structure Start (p : Ip) (s : Sys) : Prop where
  put : s.put = .start
  create : s.create = .start
  ref : 0 < (s.fs.icache p).ref
  geometry : Geometry s.fs.sb
  super : Superblock.load (s.fs.disk 1) = s.fs.sb
  cached : CachedBut none s.fs

/-- The creator has a reference to entry `q`, besides the one that `iput` gives back. -/
structure Mine (p q : Ip) (i : Nat) (s : Sys) : Prop where
  ref : 0 < (s.fs.icache q).ref
  inum : (s.fs.icache q).inum = i
  other : q = p → s.put ≠ .freeing ∧ (s.put ≠ .done → 1 < (s.fs.icache q).ref)

def Owns (p : Ip) (type : UInt16) (s : Sys) : Create → Prop
  | .start => True
  | .allocated i => typeAt s.fs i = type ∧ i < s.fs.sb.ninodes.toNat ∧
    ∀ q, Valid s.fs q → (s.fs.icache q).inum = i → s.put = .freed ∧ q = p
  | .got i q => typeAt s.fs i = type ∧ Mine p q i s ∧
    ((s.fs.icache q).valid = true → s.put = .freed ∧ q = p)
  | .locked i q => typeAt s.fs i = type ∧ Mine p q i s ∧ (s.fs.icache q).din.type = type
  | .done i q => typeAt s.fs i = type ∧ Mine p q i s

structure Inv (p : Ip) (type : UInt16) (s : Sys) : Prop where
  geometry : Geometry s.fs.sb
  super : Superblock.load (s.fs.disk 1) = s.fs.sb
  inum : ∀ q, 0 < (s.fs.icache q).ref → (s.fs.icache q).inum < s.fs.sb.ninodes.toNat
  unique : ∀ q r, 0 < (s.fs.icache q).ref → 0 < (s.fs.icache r).ref →
    (s.fs.icache q).inum = (s.fs.icache r).inum → q = r
  live : ∀ q, Valid s.fs q → ¬(s.put = .freed ∧ q = p) → typeAt s.fs (s.fs.icache q).inum ≠ 0
  ref : s.put ≠ .done → 0 < (s.fs.icache p).ref
  valid : s.put = .freeing ∨ s.put = .freed → (s.fs.icache p).valid = true
  freed : s.put = .freed → (s.fs.icache p).din.type = 0
  owns : Owns p type s s.create

section
variable {p q : Ip} {type major minor : UInt16} {s t : Sys} {a : Step} {fs : State} {i j : Nat}
  {e : Inode}

theorem typeAt_claim : typeAt (fs.claim i type) j = if j = i then type else typeAt fs j := by
  rw [typeAt, show (fs.claim i type).sb = fs.sb from rfl, dinodeAt_claim, update_apply]
  split <;> rfl

theorem typeAt_flush : typeAt (fs.flush q) j =
    if j = (fs.icache q).inum then (fs.icache q).din.type else typeAt fs j := by
  rw [typeAt, State.flush_sb, dinodeAt_flush, view, update_apply]
  split <;> rfl

theorem Start.inv (h : Start p s) : Inv p type s where
  geometry := h.geometry
  super := h.super
  inum := h.cached.inum
  unique := h.cached.unique
  live q hq _ := by
    rw [typeAt, ← h.cached.synced q nofun hq]
    exact h.cached.type q hq
  ref _ := h.ref
  valid hput := by
    rw [h.put] at hput
    exact hput.elim nofun nofun
  freed hput := by
    rw [h.put] at hput
    cases hput
  owns := by
    rw [h.create]
    exact trivial

theorem Inv.keys (h : Inv p type s) (hq : 0 < (s.fs.icache q).ref) :
    (s.fs.icache q).inum < s.fs.sb.ninodes.toNat ∧
    ∀ r, r ≠ q → 0 < (s.fs.icache r).ref → (s.fs.icache r).inum ≠ (s.fs.icache q).inum :=
  ⟨h.inum q hq, fun r hr hpos heq => hr (h.unique r q hpos hq heq)⟩

theorem Inv.set (h : Inv p type s) (hicache : t.fs.icache = update s.fs.icache q e)
    (hsb : t.fs.sb = s.fs.sb) (hone : t.fs.disk 1 = s.fs.disk 1)
    (hkeys : 0 < e.ref → e.inum < s.fs.sb.ninodes.toNat ∧
      ∀ r, r ≠ q → 0 < (s.fs.icache r).ref → (s.fs.icache r).inum ≠ e.inum)
    (hlive : ∀ r, r ≠ q → Valid s.fs r → ¬(t.put = .freed ∧ r = p) →
      typeAt t.fs (s.fs.icache r).inum ≠ 0)
    (hself : 0 < e.ref → e.valid = true → ¬(t.put = .freed ∧ q = p) → typeAt t.fs e.inum ≠ 0)
    (href : t.put ≠ .done → 0 < (t.fs.icache p).ref)
    (hvalid : t.put = .freeing ∨ t.put = .freed → (t.fs.icache p).valid = true)
    (hfreed : t.put = .freed → (t.fs.icache p).din.type = 0)
    (howns : Owns p type t t.create) : Inv p type t := by
  have hq : t.fs.icache q = e := by rw [hicache, update_self]
  have hother : ∀ r, r ≠ q → t.fs.icache r = s.fs.icache r := fun r hr => by
    rw [hicache, update_of_ne hr]
  refine ⟨hsb ▸ h.geometry, by rw [hone, hsb, h.super], fun r hr => ?_, fun r r' hr hr' heq => ?_,
    fun r hr hput => ?_, href, hvalid, hfreed, howns⟩
  · rw [hsb]
    by_cases hrq : r = q
    · rw [hrq, hq] at hr ⊢
      exact (hkeys hr).1
    · rw [hother r hrq] at hr ⊢
      exact h.inum r hr
  · rw [hicache] at heq
    refine unique_update _ h.unique (fun r hrq (hr : 0 < (t.fs.icache r).ref) => ?_)
      (fun r hrq hpos => ?_) r r' hr hr' heq
    · rwa [hother r hrq] at hr
    · rw [hq] at hpos
      exact (hkeys hpos).2 r hrq
  · by_cases hrq : r = q
    · subst hrq
      rw [Valid, hq] at hr
      rw [hq]
      exact hself hr.1 hr.2 hput
    · rw [Valid, hother r hrq] at hr
      rw [hother r hrq]
      exact hlive r hrq hr hput

/-! ### The steps of `iput` -/

/-- The inode that was allocated is not the one that is being freed. -/
theorem Inv.apart (h : Inv p type s) (hi : s.create.inum = some i) :
    i < s.fs.sb.ninodes.toNat ∧ (s.put = .freeing → (s.fs.icache p).inum ≠ i) := by
  have howns := h.owns
  have hmine : ∀ q, Mine p q i s →
      i < s.fs.sb.ninodes.toNat ∧ (s.put = .freeing → (s.fs.icache p).inum ≠ i) := by
    intro q hq
    refine ⟨hq.inum ▸ h.inum q hq.ref, fun hput heq => ?_⟩
    have hpos : 0 < (s.fs.icache p).ref := h.ref (by rw [hput]; decide)
    exact (hq.other (h.unique q p hq.ref hpos (hq.inum.trans heq.symm))).1 hput
  cases hc : s.create with
  | start =>
    rw [hc] at hi
    cases hi
  | allocated j =>
    rw [hc] at hi howns
    cases hi
    refine ⟨howns.2.1, fun hput heq => ?_⟩
    have hpos : 0 < (s.fs.icache p).ref := h.ref (by rw [hput]; decide)
    have hstale := (howns.2.2 p ⟨hpos, h.valid (.inl hput)⟩ heq).1
    rw [hput] at hstale
    cases hstale
  | got j q =>
    rw [hc] at hi howns
    cases hi
    exact hmine q howns.2.1
  | locked j q =>
    rw [hc] at hi howns
    cases hi
    exact hmine q howns.2.1
  | done j q =>
    rw [hc] at hi howns
    cases hi
    exact hmine q howns.2

/-- What the creator has is left alone by a step of `iput`. -/
theorem Owns.putter {c : Create} (h : Owns p type s c) (hsb : t.fs.sb = s.fs.sb)
    (htype : ∀ i, c.inum = some i → typeAt t.fs i = typeAt s.fs i)
    (hother : ∀ q, q ≠ p → t.fs.icache q = s.fs.icache q)
    (hvalid : Valid t.fs p → Valid s.fs p)
    (hinum : (t.fs.icache p).inum = (s.fs.icache p).inum)
    (hstale : (t.fs.icache p).valid = true → s.put ≠ .freed ∧ (s.fs.icache p).valid = true)
    (hmine : ∀ i, Mine p p i s → Mine p p i t ∧
      (t.fs.icache p).din.type = (s.fs.icache p).din.type) : Owns p type t c := by
  have hm : ∀ i q, Mine p q i s → Mine p q i t ∧
      (t.fs.icache q).din.type = (s.fs.icache q).din.type := by
    intro i q hq
    by_cases hqp : q = p
    · subst hqp
      exact hmine i hq
    · have heq := hother q hqp
      refine ⟨⟨heq ▸ hq.ref, ?_, fun h => absurd h hqp⟩, ?_⟩
      · rw [heq, hq.inum]
      · rw [heq]
  cases c with
  | start => exact trivial
  | allocated i =>
    obtain ⟨ht, hi, hfresh⟩ := h
    refine ⟨(htype i rfl).trans ht, hsb ▸ hi, fun q hq heq => ?_⟩
    by_cases hqp : q = p
    · subst hqp
      exact absurd (hfresh q (hvalid hq) (hinum ▸ heq)).1 (hstale hq.2).1
    · rw [Valid, hother q hqp] at hq
      rw [hother q hqp] at heq
      exact absurd (hfresh q hq heq).2 hqp
  | got i q =>
    obtain ⟨ht, hq, hfresh⟩ := h
    refine ⟨(htype i rfl).trans ht, (hm i q hq).1, fun hv => ?_⟩
    by_cases hqp : q = p
    · subst hqp
      exact absurd (hfresh (hstale hv).2).1 (hstale hv).1
    · rw [hother q hqp] at hv
      exact absurd (hfresh hv).2 hqp
  | locked i q =>
    obtain ⟨ht, hq, hdin⟩ := h
    exact ⟨(htype i rfl).trans ht, (hm i q hq).1, (hm i q hq).2.trans hdin⟩
  | done i q =>
    obtain ⟨ht, hq⟩ := h
    exact ⟨(htype i rfl).trans ht, (hm i q hq).1⟩

theorem Inv.check (h : Inv p type s) (hput : s.put = .start) (href : (s.fs.icache p).ref = 1)
    (hv : (s.fs.icache p).valid = true) : Inv p type { s with put := .freeing } := by
  have hno : s.put ≠ .freed := by rw [hput]; decide
  have howns : Owns p type { s with put := .freeing } s.create := by
    refine h.owns.putter rfl (fun _ _ => rfl) (fun _ _ => rfl) id rfl (fun hv => ⟨hno, hv⟩)
      fun i hi => ?_
    -- the creator has no reference to the entry, for there is only one
    have hlast : 1 < (s.fs.icache p).ref := (hi.other rfl).2 (by rw [hput]; decide)
    omega
  exact {
    geometry := h.geometry
    super := h.super
    inum := h.inum
    unique := h.unique
    live := fun q hq _ => h.live q hq fun hf => hno hf.1
    ref := fun _ => h.ref (by rw [hput]; decide)
    valid := fun _ => hv
    freed := nofun
    owns := howns }

theorem Inv.leave (h : Inv p type s) (hput : s.put ≠ .done) {v : Bool}
    (hv : v = true → s.put ≠ .freed ∧ (s.fs.icache p).valid = true) : Inv p type { s with
      fs := s.fs.setInode p { s.fs.icache p with valid := v, ref := (s.fs.icache p).ref - 1 }
      put := .done } := by
  have hpos := h.ref hput
  have hself : (s.fs.setInode p { s.fs.icache p with
      valid := v, ref := (s.fs.icache p).ref - 1 }).icache p =
      { s.fs.icache p with valid := v, ref := (s.fs.icache p).ref - 1 } := State.setInode_self
  refine h.set rfl rfl rfl (fun _ => h.keys hpos) (fun r hr hvr _ => ?_) (fun _ hev _ => ?_)
    (fun h => absurd rfl h) (fun h => h.elim nofun nofun) nofun ?_
  · exact h.live r hvr fun hfr => hr hfr.2
  · exact h.live p ⟨hpos, (hv hev).2⟩ fun hfr => (hv hev).1 hfr.1
  · refine h.owns.putter rfl (fun _ _ => rfl) (fun q hq => State.setInode_of_ne hq) (fun hvp => ?_) ?_
      (fun hvp => ?_) fun i hi => ⟨⟨?_, ?_, fun _ => ⟨nofun, fun h => absurd rfl h⟩⟩, ?_⟩
    · rw [Valid, hself] at hvp
      exact ⟨hpos, (hv hvp.2).2⟩
    · rw [hself]
    · rw [hself] at hvp
      exact hv hvp
    · have hmore := (hi.other rfl).2 hput
      rw [hself]
      dsimp only
      omega
    · rw [hself]
      exact hi.inum
    · rw [hself]

theorem Inv.free (h : Inv p type s) (hput : s.put = .freeing) (hfs : Frees p s.fs fs) :
    Inv p type { s with fs, put := .freed } := by
  obtain ⟨d, hd⟩ := hfs.edits.icache
  obtain ⟨hsb, hone, htable⟩ := hfs.edits.table h.geometry h.super
  have hpos : 0 < (s.fs.icache p).ref := h.ref (by rw [hput]; decide)
  have hself : fs.icache p = { s.fs.icache p with din := d } := by rw [hd, State.setDin_self]
  have hother : ∀ q, q ≠ p → fs.icache q = s.fs.icache q := fun q hq => by
    rw [hd]
    exact update_of_ne hq ..
  have htype : ∀ i < s.fs.sb.ninodes.toNat, (s.fs.icache p).inum ≠ i → typeAt fs i = typeAt s.fs i := by
    intro i hi hne
    rw [typeAt, hsb, htable i hi hne.symm, typeAt]
  refine h.set hd hsb hone (fun _ => h.keys hpos) (fun r hr hvr _ => ?_)
    (fun _ _ hn => absurd ⟨rfl, rfl⟩ hn) (fun _ => ?_) (fun _ => ?_) (fun _ => hfs.type) ?_
  · rw [htype _ (h.inum r hvr.1) ((h.keys hpos).2 r hr hvr.1).symm]
    exact h.live r hvr fun hfr => hr hfr.2
  · rw [hself]
    exact hpos
  · rw [hself]
    exact h.valid (.inl hput)
  · refine h.owns.putter hsb (fun i hi => htype i (h.apart hi).1 ((h.apart hi).2 hput)) hother
      (fun hvp => ?_) ?_ (fun hvp => ?_) fun i hi => absurd hput (hi.other rfl).1
    · rw [Valid, hself] at hvp
      exact hvp
    · rw [hself]
    · rw [hself] at hvp
      exact ⟨by rw [hput]; decide, hvp⟩

/-! ### The steps of `create` -/

theorem Inv.ialloc (h : Inv p type s) (htype : type ≠ 0) (hi : i < s.fs.sb.ninodes.toNat)
    (hfree : typeAt s.fs i = 0) :
    Inv p type { s with fs := s.fs.claim i type, create := .allocated i } := by
  have hlive : ∀ q, Valid s.fs q → ¬(s.put = .freed ∧ q = p) →
      typeAt (s.fs.claim i type) (s.fs.icache q).inum ≠ 0 := by
    intro q hq hn
    rw [typeAt_claim]
    split
    · exact htype
    · exact h.live q hq hn
  exact {
    geometry := h.geometry
    super := by
      rw [State.claim_disk_of_ne h.geometry.one_ne_iblock]
      exact h.super
    inum := h.inum
    unique := h.unique
    live := hlive
    ref := h.ref
    valid := h.valid
    freed := h.freed
    owns := by
      refine ⟨by rw [typeAt_claim, if_pos rfl], hi, fun q hq heq => ?_⟩
      -- an entry with a valid copy is for an inode that is not free, but for the one just freed
      by_contra hn
      exact h.live q hq hn (heq ▸ hfree) }

theorem Inv.iget (h : Inv p type s) (hc : s.create = .allocated i) (hq : Lands s.fs q i) :
    Inv p type { s with fs := s.fs.took q i, create := .got i q } := by
  have howns := h.owns
  rw [hc] at howns
  obtain ⟨htype, hi, hfresh⟩ := howns
  rcases hq with ⟨hpos, hinum⟩ | ⟨hzero, hnone⟩
  · rw [State.took, if_pos hpos]
    have hself : (s.fs.setInode q { s.fs.icache q with ref := (s.fs.icache q).ref + 1 }).icache q =
        { s.fs.icache q with ref := (s.fs.icache q).ref + 1 } := State.setInode_self
    have hp : ∀ v : Inode → Prop, v (s.fs.icache p) →
        (v (s.fs.icache q) → v { s.fs.icache q with ref := (s.fs.icache q).ref + 1 }) →
        v ((s.fs.setInode q { s.fs.icache q with ref := (s.fs.icache q).ref + 1 }).icache p) := by
      intro v hv hvq
      by_cases hpq : p = q
      · subst hpq
        rw [hself]
        exact hvq hv
      · rw [State.setInode_of_ne hpq]
        exact hv
    refine h.set rfl rfl rfl (fun _ => h.keys hpos) (fun r _ hr hn => h.live r hr hn)
      (fun _ hv hn => h.live q ⟨hpos, hv⟩ hn) (fun hput => hp (0 < ·.ref) (h.ref hput) ?_)
      (fun hput => hp (·.valid = true) (h.valid hput) id) (fun hput => hp (·.din.type = 0) (h.freed hput) id)
      ⟨htype, ⟨?_, ?_, ?_⟩, fun hv => ?_⟩
    · intro _
      dsimp only
      omega
    · rw [hself]
      dsimp only
      omega
    · rw [hself]
      exact hinum
    · intro hqp
      refine ⟨fun hput => ?_, fun _ => ?_⟩
      · have hv : (s.fs.icache q).valid = true := hqp ▸ h.valid (.inl hput)
        have hstale := (hfresh q ⟨hpos, hv⟩ hinum).1
        rw [hput] at hstale
        cases hstale
      · rw [hself]
        dsimp only
        omega
    · rw [hself] at hv
      exact hfresh q ⟨hpos, hv⟩ hinum
  · have hnp : s.put ≠ .done → p ≠ q := fun hput heq => by
      have := h.ref hput
      rw [heq] at this
      omega
    rw [State.took, if_neg (by omega)]
    have hself : (s.fs.setInode q { s.fs.icache q with
        inum := i, ref := 1, valid := false }).icache q =
        { s.fs.icache q with inum := i, ref := 1, valid := false } := State.setInode_self
    refine h.set rfl rfl rfl (fun _ => ⟨hi, fun r _ hr => hnone r hr⟩) (fun r _ hr hn => h.live r hr hn)
      (fun _ hv => by cases hv) (fun hput => ?_) (fun hput => ?_) (fun hput => ?_)
      ⟨htype, ⟨?_, ?_, ?_⟩, fun hv => ?_⟩
    · rw [State.setInode_of_ne (hnp hput)]
      exact h.ref hput
    · have hne := hnp fun hd => by
        rw [hd] at hput
        rcases hput with h | h <;> cases h
      rw [State.setInode_of_ne hne]
      exact h.valid hput
    · have hne := hnp fun hd => by
        rw [hd] at hput
        cases hput
      rw [State.setInode_of_ne hne]
      exact h.freed hput
    · rw [hself]
      exact Int.one_pos
    · rw [hself]
    · intro hqp
      have hdone : s.put = .done := by
        by_contra hput
        exact hnp hput hqp.symm
      dsimp only
      exact ⟨by rw [hdone]; decide, fun hput => absurd hdone hput⟩
    · rw [hself] at hv
      cases hv

theorem Inv.ilock (h : Inv p type s) (htype : type ≠ 0) (hc : s.create = .got i q)
    (hn : ¬(s.put = .freed ∧ q = p)) :
    Inv p type { s with fs := s.fs.lock q, create := .locked i q } := by
  have howns := h.owns
  rw [hc] at howns
  obtain ⟨hi, hq, hfresh⟩ := howns
  -- the entry has no copy yet, so the inode is read from the disk
  have hv : (s.fs.icache q).valid = false := by
    cases hv : (s.fs.icache q).valid with
    | true => exact absurd (hfresh hv) hn
    | false => rfl
  have hself : (s.fs.lock q).icache q = { s.fs.icache q with
      locked := true, valid := true, din := dinodeAt s.fs.sb s.fs.disk i } := by
    rw [State.lock, State.setInode_self, hv, hq.inum]
    rfl
  have hother : ∀ r, r ≠ q → (s.fs.lock q).icache r = s.fs.icache r := fun r hr =>
    State.setInode_of_ne hr
  refine h.set rfl rfl rfl (fun _ => h.keys hq.ref) (fun r _ hr hn => h.live r hr hn)
    (fun _ _ _ => ?_) (fun hput => ?_) (fun hput => ?_) (fun hput => ?_) ⟨hi, ⟨?_, ?_, ?_⟩, ?_⟩
  · rw [hq.inum]
    exact hi ▸ htype
  · by_cases hpq : p = q
    · rw [hpq, hself]
      exact hq.ref
    · rw [hother p hpq]
      exact h.ref hput
  · by_cases hpq : p = q
    · rw [hpq, hself]
    · rw [hother p hpq]
      exact h.valid hput
  · have hpq : p ≠ q := fun heq => hn ⟨hput, heq.symm⟩
    rw [hother p hpq]
    exact h.freed hput
  · rw [hself]
    exact hq.ref
  · rw [hself]
    exact hq.inum
  · rw [hself]
    exact hq.other
  · rw [hself]
    exact hi

theorem Inv.iupdate (h : Inv p type s) (htype : type ≠ 0) (hc : s.create = .locked i q) :
    Inv p type { s with
      fs := (s.fs.setDin q { (s.fs.icache q).din with major, minor, nlink := 1 }).flush q
      create := .done i q } := by
  have howns := h.owns
  rw [hc] at howns
  obtain ⟨hi, hq, hdin⟩ := howns
  generalize hd : { (s.fs.icache q).din with major, minor, nlink := 1 } = d
  have hdt : d.type = type := by rw [← hd, ← hdin]
  have hself : ((s.fs.setDin q d).flush q).icache q = { s.fs.icache q with din := d } := by
    rw [State.flush_icache, State.setDin_self]
  have hother : ∀ r, r ≠ q → ((s.fs.setDin q d).flush q).icache r = s.fs.icache r := by
    intro r hr
    exact update_of_ne hr ..
  -- the type on disk is what it was
  have htable : ∀ j, typeAt ((s.fs.setDin q d).flush q) j = typeAt s.fs j := by
    intro j
    rw [typeAt_flush, State.setDin_self]
    split
    next hj =>
      rw [hdt, hj]
      rw [hq.inum, hi]
    next => rfl
  refine h.set (e := { s.fs.icache q with din := d }) rfl rfl ?_ (fun _ => h.keys hq.ref)
    (fun r _ hr hn => ?_) (fun _ _ _ => ?_) (fun hput => ?_) (fun hput => ?_) (fun hput => ?_)
    ⟨(htable i).trans hi, ⟨?_, ?_, ?_⟩⟩
  · exact flush_disk_of_ne h.geometry.one_ne_iblock
  · rw [htable]
    exact h.live r hr hn
  · rw [htable, hq.inum]
    exact hi ▸ htype
  all_goals dsimp only
  · by_cases hpq : p = q
    · rw [hpq, hself]
      exact hq.ref
    · rw [hother p hpq]
      exact h.ref hput
  · by_cases hpq : p = q
    · rw [hpq, hself]
      exact hpq ▸ h.valid hput
    · rw [hother p hpq]
      exact h.valid hput
  · have hpq : p ≠ q := fun heq => htype (hdin.symm.trans (heq ▸ h.freed hput))
    rw [hother p hpq]
    exact h.freed hput
  · rw [hself]
    exact hq.ref
  · rw [hself]
    exact hq.inum
  · rw [hself]
    exact hq.other

theorem Inv.step (h : Inv p type s) (htype : type ≠ 0) (ha : Apart p s a)
    (hs : step p type major minor s a = .ok t) : Inv p type t := by
  cases step_did hs with
  | check hput href hv ht => exact ht ▸ h.check hput href hv
  | leave hput ht =>
    exact ht ▸ h.leave (by rw [hput]; decide) fun hv => ⟨by rw [hput]; decide, hv⟩
  | free hput hfs ht => exact ht ▸ h.free hput hfs
  | drop hput ht => exact ht ▸ h.leave (by rw [hput]; decide) nofun
  | ialloc _ hi hfree ht => exact ht ▸ h.ialloc htype hi hfree
  | iget hc hq ht => exact ht ▸ h.iget hc hq
  | ilock hc _ ht =>
    exact ht ▸ h.ilock htype hc fun ⟨hput, hqp⟩ => ha rfl hput _ (hqp ▸ hc)
  | iupdate hc ht => exact ht ▸ h.iupdate htype hc

theorem Inv.survives (h : Inv p type s) (htype : type ≠ 0) : Survives p type s := by
  intro i q hc
  have howns := h.owns
  rw [hc] at howns
  have hi := howns.1
  exact ⟨hi, hi ▸ htype, fun ⟨hput, heq⟩ => (h.apart (by rw [hc]; rfl)).2 hput heq⟩

/-! ## A copy that is locked too early -/

/-- The creator has locked the copy of the inode that was freed, or has written it to the disk. -/
def Lost (p : Ip) (s : Sys) : Prop :=
  (s.put = .freed ∨ s.put = .done) ∧ ∃ i, (s.fs.icache p).inum = i ∧
    (s.create = .locked i p ∧ (s.fs.icache p).din.type = 0 ∨
      s.create = .done i p ∧ typeAt s.fs i = 0)

theorem Inv.lost (h : Inv p type s) (ha : ¬Apart p s .ilock)
    (hs : Race.step p type major minor s .ilock = .ok t) : Lost p t := by
  simp only [Apart, forall_const, not_forall, not_not] at ha
  obtain ⟨hput, i, hc⟩ := ha
  have howns := h.owns
  rw [hc] at howns
  cases step_did hs with
  | ilock hc' _ ht =>
    rw [hc] at hc'
    cases hc'
    subst ht
    -- the flag is still set, so nothing is read
    have hself : (s.fs.lock p).icache p = { s.fs.icache p with locked := true, valid := true } := by
      rw [State.lock, State.setInode_self, h.valid (.inr hput)]
      rfl
    refine ⟨.inl hput, i, ?_, .inl ⟨rfl, ?_⟩⟩
    · rw [hself]
      exact howns.2.1.inum
    · rw [hself]
      exact h.freed hput

theorem Lost.step (h : Lost p s) (hs : step p type major minor s a = .ok t) : Lost p t := by
  obtain ⟨hput, i, hinum, hc⟩ := h
  cases step_did hs with
  | check hp | leave hp | free hp =>
    rw [hp] at hput
    exact hput.elim nofun nofun
  | drop _ ht =>
    subst ht
    refine ⟨.inr rfl, i, ?_, hc.imp (fun hl => ⟨hl.1, ?_⟩) id⟩
    · rw [State.setInode_self]
      exact hinum
    · rw [State.setInode_self]
      exact hl.2
  | ialloc hc' | iget hc' | ilock hc' =>
    rw [hc'] at hc
    exact hc.elim (fun h => nomatch h.1) fun h => nomatch h.1
  | iupdate hc' ht =>
    rcases hc with ⟨hl, htype⟩ | ⟨hd, -⟩
    · rw [hl] at hc'
      cases hc'
      subst ht
      refine ⟨hput, i, ?_, .inr ⟨rfl, ?_⟩⟩
      · rw [State.flush_icache, State.setDin_self]
        exact hinum
      · rw [typeAt_flush, State.setDin_self, if_pos hinum.symm]
        exact htype
    · rw [hd] at hc'
      cases hc'

/-- An inode that was created keeps its type whenever `create` does not lock the entry that `iput` is
about to let go of; otherwise it is free again as soon as `create` has written it. -/
theorem created_survives_iput (h : Start p s) (htype : type ≠ 0) :
    (∀ t, Run (step p type major minor) (Apart p) s t → Survives p type t) ∧
    ∀ t u v, Run (step p type major minor) (Apart p) s t → ¬Apart p t .ilock →
      step p type major minor t .ilock = .ok u →
      Run (step p type major minor) (fun _ _ => True) u v →
      ∀ i q, v.create = .done i q → ¬Survives p type v := by
  have hinv : ∀ t, Run (step p type major minor) (Apart p) s t → Inv p type t := fun t hrun =>
    hrun.invariant h.inv fun ht ha hs => ht.step htype ha hs
  refine ⟨fun t hrun => (hinv t hrun).survives htype, ?_⟩
  intro t u v hrun ha hs hrun' i q hc hsurvives
  have hlost : Lost p v := hrun'.invariant ((hinv t hrun).lost ha hs) fun h _ hs => h.step hs
  obtain ⟨-, j, -, ⟨hl, -⟩ | ⟨hd, hfree⟩⟩ := hlost
  · rw [hl] at hc
    cases hc
  · exact (hsurvives j p hd).2.1 hfree

end

namespace Unlinked

def din : Dinode := { Dinode.zero with type := T_FILE }

def disk : Disk := Function.update OneFile.disk 2 (din.store Bytes.zero 1)

/-- The only file has lost its name, and one process has it open. -/
def start : Sys where
  fs := State.only { OneFile.state with
    disk
    icache := fun _ => ⟨1, 1, false, true, din⟩ } OneFile.ip
  put := .start
  create := .start

theorem dinodeAt_one : dinodeAt OneFile.sb disk 1 = din := by
  rw [dinodeAt, show iblock OneFile.sb 1 = 2 from rfl, disk, update_self]
  exact Dinode.load_store (by decide)

theorem start_ok : Start OneFile.ip start where
  put := rfl
  create := rfl
  ref := by decide
  geometry := OneFile.fsInv.geometry
  super := OneFile.fsInv.super
  cached := cachedBut_only (by decide) fun _ => ⟨dinodeAt_one.symm, by decide⟩

end Unlinked

/-- `create` gets the inode that `iput` has just freed, and makes it free again. -/
theorem created_lost : ∃ t, Start OneFile.ip Unlinked.start ∧
    Run (step OneFile.ip T_FILE 0 0) (fun _ _ => True) Unlinked.start t ∧
    ¬Survives OneFile.ip T_FILE t := by
  obtain ⟨t, ht, hc, hfree⟩ : ∃ t, Run.exec (step OneFile.ip T_FILE 0 0) (fun _ _ => True)
      Unlinked.start [.check, .free, .ialloc, .iget, .ilock, .iupdate, .drop] = .ok t ∧
      t.create = .done 1 OneFile.ip ∧ typeAt t.fs 1 = 0 := by decide +kernel
  exact ⟨t, Unlinked.start_ok, Run.of_exec ht, fun h => (h 1 _ hc).2.1 hfree⟩

instance (p : Ip) (s : Sys) (a : Step) : Decidable (Apart p s a) :=
  decidable_of_iff (a = .ilock → s.put = .freed → (match s.create with
    | .got _ q => decide (q ≠ p)
    | _ => true) = true) (by
      rw [Apart]
      cases s.create <;> simp)

/-- If `iput` is over before `create` locks the inode, it is there. -/
theorem created_survives_in_turn : ∃ t,
    Run (step OneFile.ip T_FILE 0 0) (Apart OneFile.ip) Unlinked.start t ∧
    t.create = .done 1 OneFile.ip ∧ Survives OneFile.ip T_FILE t := by
  obtain ⟨t, ht, hc⟩ : ∃ t, Run.exec (step OneFile.ip T_FILE 0 0) (Apart OneFile.ip)
      Unlinked.start [.check, .free, .ialloc, .iget, .drop, .ilock, .iupdate] = .ok t ∧
      t.create = .done 1 OneFile.ip := by decide +kernel
  have hrun := Run.of_exec ht
  exact ⟨t, hrun, hc, (created_survives_iput Unlinked.start_ok (by decide)).1 t hrun⟩

end Xv6.Race
