import Xv6.Fs.Cache
import Xv6.Fs.Refine

/-!
# The inode cache and its callers

Any sequence of calls of `iget`, `idup`, `ilock`, `iunlock` and `iput`, by callers that use only the
pointers that they were given, with any number of devices. A caller that has locked an inode may
also change its fields and call `iupdate`.

The functions are those of one device, run on the device of the inode (`Sys.on`); only `iget` has a
device number as its argument. The in-memory super block is the same for all devices, and `bfree`
reads it again from the device at hand, so inodes are found on disk as long as the devices in use
have the same super block; the kernel runs with one.
-/

namespace Xv6.Fs

/-! ## What freeing an inode changes -/

/-- Only the copy in entry `p` changed, and on disk no inode but its own. -/
structure Edits (p : Ip) (s t : State) : Prop where
  icache : ∃ d, t.icache = (s.setDin p d).icache
  table : Geometry s.sb → Superblock.load (s.disk 1) = s.sb → t.sb = s.sb ∧ t.disk 1 = s.disk 1 ∧
    ∀ j < s.sb.ninodes.toNat, j ≠ (s.icache p).inum →
      dinodeAt s.sb t.disk j = dinodeAt s.sb s.disk j

section
variable {s t u : State} {p : Ip} {b : Nat} {d : Dinode}

theorem Edits.refl : Edits p s s :=
  ⟨⟨_, (update_eq_self p s.icache).symm⟩, fun _ _ => ⟨rfl, rfl, fun _ _ _ => rfl⟩⟩

theorem Edits.trans (h : Edits p s t) (h' : Edits p t u) : Edits p s u := by
  obtain ⟨d, hd⟩ := h.icache
  obtain ⟨d', hd'⟩ := h'.icache
  have hinum : (t.icache p).inum = (s.icache p).inum := by rw [hd, State.setDin_self]
  refine ⟨⟨d', ?_⟩, fun g hsup => ?_⟩
  · simp only [hd', State.setDin, hd, update_idem, update_self]
  · obtain ⟨hsb, hone, htable⟩ := h.table g hsup
    have hsup' : Superblock.load (t.disk 1) = t.sb := by rw [hone, hsb, hsup]
    obtain ⟨hsb', hone', htable'⟩ := h'.table (hsb ▸ g) hsup'
    rw [hsb, hinum] at htable'
    exact ⟨hsb'.trans hsb, hone'.trans hone,
      fun j hj hne => (htable' j hj hne).trans (htable j hj hne)⟩

theorem edits_setDin : Edits p s (s.setDin p d) :=
  ⟨⟨d, rfl⟩, fun _ _ => ⟨rfl, rfl, fun _ _ _ => rfl⟩⟩

theorem edits_flush : Edits p s (s.flush p) := by
  refine ⟨⟨_, (update_eq_self p s.icache).symm⟩, fun g _ => ⟨rfl, ?_, fun j _ hne => ?_⟩⟩
  · rw [State.flush, State.write_disk, update_of_ne g.one_ne_iblock]
  · rw [dinodeAt_flush, view_of_ne hne]

theorem wp_modifyDin_edits {f : Dinode → Dinode} :
    (modifyDin p f).wp (fun _ => True) (fun _ t => Edits p s t) s :=
  wp_modifyDin.mpr edits_setDin

theorem wp_iupdate_edits : (iupdate p).wp (fun _ => True) (fun _ t => Edits p s t) s :=
  wp_iupdate (k := 0) .of_true edits_flush

theorem wp_bfree_edits : (bfree b).wp (fun _ => True) (fun _ t => Edits p s t) s := by
  simp only [bfree, readsb, wp_bind, wp_modify, wp_gets]
  split
  · exact trivial
  refine wp_logWrite (k := 0) .of_true ⟨⟨_, (update_eq_self p s.icache).symm⟩,
    fun g hsup => ⟨hsup, ?_, fun j hj _ => dinodeAt_congr ?_⟩⟩
  · simp only [hsup, State.write_disk]
    exact update_of_ne g.one_ne_bblock ..
  · simp only [hsup, State.write_disk]
    exact update_of_ne (g.iblock_ne_bblock hj) ..

theorem wp_freeAddr_edits {k : Nat} :
    (freeAddr p k).wp (fun _ => True) (fun _ t => Edits p s t) s := by
  refine wp_when (fun _ => ?_) fun _ => .refl
  refine wp_seq (wp_bfree_edits (p := p)) fun _ t ht => ?_
  exact wp_imp wp_modifyDin_edits fun _ _ => ht.trans

theorem wp_freeEntries_edits : (freeEntries p).wp (fun _ => True) (fun _ t => Edits p s t) s := by
  refine wp_when (fun _ => ?_) fun _ => .refl
  -- a closed number of turns would be unrolled
  generalize NINDIRECT = N
  refine wp_times (I := fun _ => Edits p s) .refl fun k t _ ht => ?_
  refine wp_when (fun _ => ?_) fun _ => ht
  exact wp_imp wp_bfree_edits fun _ _ => ht.trans

theorem wp_itrunc_edits : (itrunc p).wp (fun _ => True) (fun _ t => Edits p s t) s := by
  refine wp_seq (wp_times (I := fun _ => Edits p s) .refl fun k t _ ht =>
    wp_imp wp_freeAddr_edits fun _ _ => ht.trans) fun _ t ht => ?_
  refine wp_seq wp_freeEntries_edits fun _ u hu => ?_
  refine wp_seq wp_freeAddr_edits fun _ v hv => ?_
  refine wp_seq wp_modifyDin_edits fun _ w hw => ?_
  exact wp_imp wp_iupdate_edits fun _ _ => (((ht.trans hu).trans hv).trans hw).trans

/-- `iput` frees the inode if it gives the last reference back and the inode has no links. -/
theorem wp_iput_edits : (iput p).wp (fun _ => True) (fun _ t =>
    ((s.icache p).ref = 1 ∧ (s.icache p).valid = true ∧ (s.icache p).din.nlink = 0) ∧
      (∃ u d, Edits p s u ∧ t.sb = u.sb ∧ t.disk = u.disk ∧ t.icache = update s.icache p
        { s.icache p with ref := 0, valid := false, din := d }) ∨
    ¬((s.icache p).ref = 1 ∧ (s.icache p).valid = true ∧ (s.icache p).din.nlink = 0) ∧
      t = s.setInode p { s.icache p with ref := (s.icache p).ref - 1 }) s := by
  simp only [iput, wp_bind, wp_gets]
  refine wp_when (fun hlast => ?_) fun hlast => ?_
  · refine wp_seq wp_itrunc_edits fun _ t ht => ?_
    refine wp_seq wp_modifyDin_edits fun _ u hu => ?_
    refine wp_seq wp_iupdate_edits fun _ v hv => ?_
    rw [wp_modifyInode, wp_modifyInode]
    have hedits := (ht.trans hu).trans hv
    obtain ⟨d, hd⟩ := hedits.icache
    refine .inl ⟨hlast, v, d, hedits, rfl, rfl, ?_⟩
    have hvp : v.icache p = { s.icache p with din := d } := by rw [hd, State.setDin_self]
    simp only [State.setInode, update_idem, update_self, hvp, hlast.1]
    rw [hd]
    exact update_idem ..
  · rw [wp_modifyInode]
    exact .inr ⟨hlast, rfl⟩

end

end Xv6.Fs

namespace Xv6.Icache
open Fs

/-! ## The cache with devices -/

/-- `struct inode` with its device. -/
structure Entry extends Inode where
  dev : UInt32

/-- The disks, the in-memory super block, the inode cache and the log; then the pointers that were
handed out and not yet put, with the callers that have them. -/
structure Sys (κ : Type) where
  disk : UInt32 → Disk
  sb : Superblock
  icache : Ip → Entry
  logSize : Nat
  outstanding : Nat
  lh : List Nat
  committed : List (List Nat)
  held : List (κ × Ip)

variable {κ : Type}

/-- What the functions see that work on device `dev`. -/
def Sys.on (s : Sys κ) (dev : UInt32) : State where
  disk := s.disk dev
  sb := s.sb
  icache p := (s.icache p).toInode
  logSize := s.logSize
  outstanding := s.outstanding
  lh := s.lh
  committed := s.committed

def Sys.put (s : Sys κ) (dev : UInt32) (t : State) : Sys κ := { s with
  disk := Function.update s.disk dev t.disk
  sb := t.sb
  icache := fun p => { s.icache p with toInode := t.icache p }
  logSize := t.logSize
  outstanding := t.outstanding
  lh := t.lh
  committed := t.committed }

/-- Call a function with the inode in entry `p`. -/
def Sys.call (s : Sys κ) (p : Ip) (x : FsM α) : Except Fault (Sys κ) :=
  (x (s.on (s.icache p).dev)).map fun r => s.put (s.icache p).dev r.2

def Sys.setRef (s : Sys κ) (p : Ip) (e : Entry) : Sys κ :=
  { s with icache := Function.update s.icache p e }

/-- `iget(dev, inum)` -/
def iget (s : Sys κ) (dev : UInt32) (inum : Nat) : Except Fault (Ip × Sys κ) :=
  match (List.finRange NINODE).find? fun p =>
      0 < (s.icache p).ref ∧ (s.icache p).dev = dev ∧ (s.icache p).inum = inum with
  | some p => .ok (p, s.setRef p { s.icache p with ref := (s.icache p).ref + 1 })
  | none =>
    match (List.finRange NINODE).find? fun p => (s.icache p).ref = 0 with
    | some p => .ok (p, s.setRef p { s.icache p with dev, inum, ref := 1, valid := false })
    | none => .error (.panic "iget: no inodes")

inductive Step (κ : Type)
  | iget (me : κ) (dev : UInt32) (inum : Nat)
  | idup (me : κ) (p : Ip)
  | ilock (me : κ) (p : Ip)
  | iunlock (me : κ) (p : Ip)
  | iput (me : κ) (p : Ip)
  /-- Change the fields of an inode that is locked, then `iupdate`. -/
  | update (me : κ) (p : Ip) (d : Dinode)
  | beginOp
  | endOp

def step [DecidableEq κ] (s : Sys κ) : Step κ → Except Fault (Sys κ)
  | .iget me dev inum =>
    (iget s dev inum).map fun r => { r.2 with held := (me, r.1) :: s.held }
  | .idup me p => (s.call p (idup p)).map fun t => { t with held := (me, p) :: s.held }
  | .ilock _ p => s.call p (ilock p)
  | .iunlock _ p => s.call p (iunlock p)
  | .iput me p => (s.call p (iput p)).map fun t => { t with held := s.held.erase (me, p) }
  | .update _ p d => s.call p do
    modifyDin p fun _ => d
    iupdate p
  | .beginOp => (beginOp (s.on 0)).map fun r => s.put 0 r.2
  | .endOp => (endOp (s.on 0)).map fun r => s.put 0 r.2

/-- Callers use pointers that they have, and change inodes that are locked. -/
def Holds (s : Sys κ) : Step κ → Prop
  | .idup me p | .ilock me p | .iunlock me p | .iput me p => (me, p) ∈ s.held
  | .update me p _ => (me, p) ∈ s.held ∧ (s.icache p).locked = true
  | _ => True

/-- Besides that, they ask for inodes that there are, on devices with the super block in memory. -/
def Placed (s : Sys κ) (a : Step κ) : Prop := Holds s a ∧ match a with
  | .iget _ dev inum => inum < s.sb.ninodes.toNat ∧ Superblock.load (s.disk dev 1) = s.sb
  | _ => True

/-- Besides that, they do not change inodes. -/
def Reads (s : Sys κ) (a : Step κ) : Prop := Placed s a ∧ match a with
  | .update _ _ _ => False
  | _ => True

/-- After `iinit(dev)`: static storage is zero. -/
def iinit (disk : UInt32 → Disk) (dev : UInt32) (logSize : Nat) : Sys κ where
  disk
  sb := Superblock.load (disk dev 1)
  icache _ := { inum := 0, ref := 0, locked := false, valid := false, din := .zero, dev := 0 }
  logSize
  outstanding := 0
  lh := []
  committed := []
  held := []

/-! ## What each call does -/

section
variable {s t : Sys κ} {p q : Ip} {dev : UInt32} {inum : Nat} {e : Entry}

theorem put_setInode {ip : Inode} :
    s.put dev ((s.on dev).setInode p ip) = s.setRef p { s.icache p with toInode := ip } := by
  have hicache : (fun q => { s.icache q with toInode := ((s.on dev).setInode p ip).icache q }) =
      update s.icache p { s.icache p with toInode := ip } := by
    funext q
    by_cases hq : q = p
    · subst hq
      rw [State.setInode_self, update_self]
    · rw [State.setInode_of_ne hq, update_of_ne hq]
      rfl
  simp only [Sys.put, Sys.setRef, hicache]
  simp only [State.setInode, Sys.on, update_eq_self]

theorem call_ok {x : FsM α} {Q : α → State → Prop} (h : s.call p x = .ok t)
    (hx : x.wp (fun _ => True) Q (s.on (s.icache p).dev)) :
    ∃ a u, Q a u ∧ t = s.put (s.icache p).dev u :=
  wp_map_ok hx h

theorem idup_ok (h : s.call p (idup p) = .ok t) :
    t = s.setRef p { s.icache p with ref := (s.icache p).ref + 1 } := by
  obtain ⟨-, u, rfl, rfl⟩ := call_ok (Q := fun _ u => u = (s.on (s.icache p).dev).setInode p
    { (s.icache p).toInode with ref := (s.icache p).ref + 1 }) h (by
      simp only [idup, wp_bind, wp_modifyInode]
      rfl)
  exact put_setInode

theorem iunlock_ok (h : s.call p (iunlock p) = .ok t) :
    t = s.setRef p { s.icache p with locked := false } := by
  obtain ⟨-, u, rfl, rfl⟩ := call_ok (Q := fun _ u => u = (s.on (s.icache p).dev).setInode p
    { (s.icache p).toInode with locked := false }) h
      (wp_iunlock_eq (.inr fun _ => trivial) rfl)
  exact put_setInode

theorem ilock_ok (h : s.call p (ilock p) = .ok t) : 0 < (s.icache p).ref ∧
    t = s.setRef p { s.icache p with
      locked := true
      valid := true
      din := if (s.icache p).valid then (s.icache p).din
        else dinodeAt s.sb (s.disk (s.icache p).dev) (s.icache p).inum } := by
  obtain ⟨-, u, ⟨hpos, rfl⟩, rfl⟩ := call_ok (Q := fun _ u => 0 < (s.icache p).ref ∧
    u = (s.on (s.icache p).dev).lock p) h
      (wp_ilock_eq (.inr fun _ => trivial) fun hpos _ _ => ⟨hpos, rfl⟩)
  exact ⟨hpos, put_setInode⟩

theorem icache_put {u : State} {ip : Inode}
    (hu : u.icache = update (s.on dev).icache p ip) :
    (s.put dev u).icache = update s.icache p { s.icache p with toInode := ip } := by
  funext q
  rw [Sys.put, hu]
  by_cases hq : q = p
  · subst hq
    simp only [update_self]
  · simp only [update_of_ne hq]
    rfl

theorem iget_ok (h : iget s dev inum = .ok (p, t)) :
    (0 < (s.icache p).ref ∧ (s.icache p).dev = dev ∧ (s.icache p).inum = inum ∧
      t = s.setRef p { s.icache p with ref := (s.icache p).ref + 1 }) ∨
    ((s.icache p).ref = 0 ∧
      (∀ q, 0 < (s.icache q).ref → ¬((s.icache q).dev = dev ∧ (s.icache q).inum = inum)) ∧
      t = s.setRef p { s.icache p with dev, inum, ref := 1, valid := false }) := by
  rw [iget] at h
  split at h
  next p hp =>
    cases h
    have hp := List.find?_some hp
    rw [decide_eq_true_eq] at hp
    exact .inl ⟨hp.1, hp.2.1, hp.2.2, rfl⟩
  next hnone =>
    split at h
    next p hp =>
      cases h
      have hp := List.find?_some hp
      rw [decide_eq_true_eq] at hp
      refine .inr ⟨hp, fun q hq hkey => ?_, rfl⟩
      have hno := List.find?_eq_none.mp hnone q (List.mem_finRange q)
      exact hno (decide_eq_true ⟨hq, hkey⟩)
    next => cases h

end

/-! ## References -/

/-- Each entry has as many references as pointers to it were handed out and not put, and no two
entries in use are for one inode. -/
structure Counts (s : Sys κ) : Prop where
  refs : ∀ p, (s.icache p).ref = (s.held.map Prod.snd).count p
  unique : ∀ p q, 0 < (s.icache p).ref → 0 < (s.icache q).ref →
    (s.icache p).dev = (s.icache q).dev → (s.icache p).inum = (s.icache q).inum → p = q

section
variable {s t : Sys κ} {p q : Ip} {me : κ} {e : Entry}

theorem Counts.set (h : Counts s) (ht : t.icache = update s.icache p e)
    (href : e.ref = (t.held.map Prod.snd).count p)
    (hheld : ∀ q, q ≠ p → (t.held.map Prod.snd).count q = (s.held.map Prod.snd).count q)
    (hkey : 0 < e.ref → 0 < (s.icache p).ref ∧ e.dev = (s.icache p).dev ∧ e.inum = (s.icache p).inum ∨
      ∀ q, 0 < (s.icache q).ref → ¬((s.icache q).dev = e.dev ∧ (s.icache q).inum = e.inum)) :
    Counts t := by
  have hother : ∀ q, q ≠ p → 0 < (t.icache q).ref → 0 < (s.icache q).ref := fun q hq => by
    rw [ht, update_of_ne hq]
    exact id
  refine ⟨fun q => ?_, fun q r hq hr hdev hinum => ?_⟩
  · rw [ht]
    by_cases hq : q = p
    · rw [hq, update_self, href]
    · rw [update_of_ne hq, hheld q hq, h.refs]
  · have hunique := unique_update (fun e : Entry => (e.dev, e.inum)) (fun q r hq hr heq =>
      h.unique q r hq hr (congrArg Prod.fst heq) (congrArg Prod.snd heq)) hother
      (b := e) fun q hqp hpos hq heq => ?_
    · rw [ht] at hdev hinum
      exact hunique q r hq hr (congr (congrArg Prod.mk hdev) hinum)
    · rw [ht, update_self] at hpos
      have hdev := congrArg Prod.fst heq
      have hinum := congrArg Prod.snd heq
      rcases hkey hpos with ⟨hppos, hpdev, hpinum⟩ | hnone
      · exact hqp (h.unique q p hq hppos (hdev.trans hpdev) (hinum.trans hpinum))
      · exact hnone q hq ⟨hdev, hinum⟩

theorem Counts.ref_pos (h : Counts s) (hme : (me, p) ∈ s.held) : 0 < (s.icache p).ref := by
  have hpos : 0 < (s.held.map Prod.snd).count p :=
    List.count_pos_iff.mpr (List.mem_map_of_mem (f := Prod.snd) hme)
  rw [h.refs]
  exact_mod_cast hpos

theorem count_cons_of_ne {l : List (κ × Ip)} (h : q ≠ p) :
    (((me, p) :: l).map Prod.snd).count q = (l.map Prod.snd).count q := by
  rw [List.map_cons, List.count_cons_of_ne (Ne.symm h)]

theorem count_erase [DecidableEq κ] {l : List (κ × Ip)} (h : (me, p) ∈ l) :
    ((l.erase (me, p)).map Prod.snd).count q + (if p = q then 1 else 0) =
      (l.map Prod.snd).count q := by
  have hperm := (List.perm_cons_erase h).map Prod.snd
  rw [hperm.count_eq q, List.map_cons, List.count_cons]
  simp only [beq_iff_eq]

/-- What a step does to the entry that it changes. -/
inductive Change [DecidableEq κ] (s t : Sys κ) (p : Ip) (e : Entry) : Prop
  | add (me : κ) : 0 < (s.icache p).ref → e.dev = (s.icache p).dev → e.inum = (s.icache p).inum →
    e.ref = (s.icache p).ref + 1 → t.held = (me, p) :: s.held → Change s t p e
  | fresh (me : κ) : (s.icache p).ref = 0 →
    (∀ q, 0 < (s.icache q).ref → ¬((s.icache q).dev = e.dev ∧ (s.icache q).inum = e.inum)) →
    e.ref = 1 → t.held = (me, p) :: s.held → Change s t p e
  | same : 0 < (s.icache p).ref → e.dev = (s.icache p).dev → e.inum = (s.icache p).inum →
    e.ref = (s.icache p).ref → t.held = s.held → Change s t p e
  | drop (me : κ) : (me, p) ∈ s.held → e.dev = (s.icache p).dev → e.inum = (s.icache p).inum →
    e.ref = (s.icache p).ref - 1 → t.held = s.held.erase (me, p) → Change s t p e

theorem Counts.change [DecidableEq κ] (h : Counts s) (ht : t.icache = update s.icache p e)
    (hc : Change s t p e) : Counts t := by
  have hself : ∀ me : κ, (((me, p) :: s.held).map Prod.snd).count p =
      (s.held.map Prod.snd).count p + 1 := fun me => by
    rw [List.map_cons, List.count_cons_self]
  cases hc with
  | add me hpos hdev hinum href hheld =>
    refine h.set ht ?_ (fun q hq => ?_) fun _ => .inl ⟨hpos, hdev, hinum⟩
    · rw [href, hheld, hself, h.refs]
      rfl
    · rw [hheld, count_cons_of_ne hq]
  | fresh me hzero hnone href hheld =>
    refine h.set ht ?_ (fun q hq => ?_) fun _ => .inr hnone
    · have hcount := h.refs p
      rw [hheld, hself]
      omega
    · rw [hheld, count_cons_of_ne hq]
  | same hpos hdev hinum href hheld =>
    refine h.set ht ?_ (fun q _ => ?_) fun _ => .inl ⟨hpos, hdev, hinum⟩
    · rw [href, hheld, h.refs]
    · rw [hheld]
  | drop me hme hdev hinum href hheld =>
    refine h.set ht ?_ (fun q hq => ?_) fun _ => .inl ⟨h.ref_pos hme, hdev, hinum⟩
    · have hcount := h.refs p
      have herase := count_erase (q := p) hme
      rw [if_pos rfl] at herase
      rw [hheld]
      omega
    · have herase := count_erase (q := q) hme
      rw [if_neg (Ne.symm hq)] at herase
      rw [hheld, ← herase]
      rfl

end

/-! ## Steps -/

section
variable [DecidableEq κ] {s t : Sys κ}

/-- What a step does. -/
inductive Did (s : Sys κ) : Sys κ → Step κ → Prop
  | again {me : κ} {p : Ip} : 0 < (s.icache p).ref →
    Did s { s.setRef p { s.icache p with ref := (s.icache p).ref + 1 } with
      held := (me, p) :: s.held } (.iget me (s.icache p).dev (s.icache p).inum)
  | took {me : κ} {dev : UInt32} {inum : Nat} {p : Ip} : (s.icache p).ref = 0 →
    (∀ q, 0 < (s.icache q).ref → ¬((s.icache q).dev = dev ∧ (s.icache q).inum = inum)) →
    Did s { s.setRef p { s.icache p with dev, inum, ref := 1, valid := false } with
      held := (me, p) :: s.held } (.iget me dev inum)
  | idup {me : κ} {p : Ip} : Did s { s.setRef p { s.icache p with ref := (s.icache p).ref + 1 } with
      held := (me, p) :: s.held } (.idup me p)
  | ilock {me : κ} {p : Ip} : Did s (s.setRef p { s.icache p with
      locked := true
      valid := true
      din := if (s.icache p).valid then (s.icache p).din
        else dinodeAt s.sb (s.disk (s.icache p).dev) (s.icache p).inum }) (.ilock me p)
  | iunlock {me : κ} {p : Ip} :
    Did s (s.setRef p { s.icache p with locked := false }) (.iunlock me p)
  | freed {t : Sys κ} {me : κ} {p : Ip} {d : Dinode} {u : State} : (s.icache p).ref = 1 → (s.icache p).valid = true →
    (s.icache p).din.nlink = 0 → Edits p (s.on (s.icache p).dev) u →
    t.icache = Function.update s.icache p { s.icache p with ref := 0, valid := false, din := d } →
    t.disk = Function.update s.disk (s.icache p).dev u.disk → t.sb = u.sb →
    t.held = s.held.erase (me, p) → Did s t (.iput me p)
  | iput {me : κ} {p : Ip} :
    ¬((s.icache p).ref = 1 ∧ (s.icache p).valid = true ∧ (s.icache p).din.nlink = 0) →
    Did s { s.setRef p { s.icache p with ref := (s.icache p).ref - 1 } with
      held := s.held.erase (me, p) } (.iput me p)
  | update {t : Sys κ} {me : κ} {p : Ip} {d : Dinode} {u : State} : Edits p (s.on (s.icache p).dev) u →
    dinodeAt s.sb u.disk (s.icache p).inum = d →
    t.icache = Function.update s.icache p { s.icache p with din := d } →
    t.disk = Function.update s.disk (s.icache p).dev u.disk → t.sb = u.sb → t.held = s.held →
    Did s t (.update me p d)
  | log {t : Sys κ} {a : Step κ} : a = .beginOp ∨ a = .endOp → t.icache = s.icache → t.disk = s.disk → t.sb = s.sb →
    t.held = s.held → Did s t a

theorem map_ok {α β : Type} {f : α → β} {x : Except Fault α} {b : β} (h : x.map f = .ok b) :
    ∃ a, x = .ok a ∧ f a = b := by
  cases x with
  | error e => cases h
  | ok a => exact ⟨a, rfl, Except.ok.inj h⟩

omit [DecidableEq κ] in
theorem log_ok {x : FsM Unit} (hx : x.wp (fun _ => True) (fun _ u => u.icache = (s.on 0).icache ∧
    u.disk = (s.on 0).disk ∧ u.sb = (s.on 0).sb) (s.on 0))
    (hs : (x (s.on 0)).map (fun r => s.put 0 r.2) = .ok t) :
    t.icache = s.icache ∧ t.disk = s.disk ∧ t.sb = s.sb ∧ t.held = s.held := by
  obtain ⟨-, u, ⟨hicache, hdisk, hsb⟩, rfl⟩ := wp_map_ok hx hs
  refine ⟨?_, ?_, hsb, rfl⟩
  · rw [Sys.put, hicache]
    rfl
  · rw [Sys.put, hdisk]
    exact update_eq_self ..

theorem step_did {a : Step κ} (hs : step s a = .ok t) : Did s t a := by
  cases a with
  | iget me dev inum =>
    obtain ⟨⟨p, u⟩, hr, rfl⟩ := map_ok hs
    rcases iget_ok hr with ⟨hpos, rfl, rfl, rfl⟩ | ⟨hzero, hnone, rfl⟩
    · exact .again hpos
    · exact .took hzero hnone
  | idup me p =>
    rw [step] at hs
    obtain ⟨u, hr, rfl⟩ := map_ok hs
    rw [idup_ok hr]
    exact .idup
  | ilock me p =>
    rw [(ilock_ok hs).2]
    exact .ilock
  | iunlock me p =>
    rw [iunlock_ok hs]
    exact .iunlock
  | iput me p =>
    obtain ⟨r, hr, rfl⟩ := map_ok hs
    obtain ⟨-, u, ⟨⟨href, hvalid, hlink⟩, v, d, hv, hsb, hdisk, hicache⟩ | ⟨hlast, rfl⟩, rfl⟩ :=
      call_ok hr wp_iput_edits
    · refine .freed href hvalid hlink hv (icache_put hicache) ?_ hsb rfl
      rw [← hdisk]
      rfl
    · rw [put_setInode]
      exact .iput hlast
  | update me p d =>
    obtain ⟨-, u, ⟨hu, hicache, hdin⟩, rfl⟩ := call_ok
      (Q := fun _ u => Edits p (s.on (s.icache p).dev) u ∧
        u.icache = ((s.on (s.icache p).dev).setDin p d).icache ∧
        dinodeAt s.sb u.disk (s.icache p).inum = d) hs (by
      rw [wp_bind, wp_modifyDin]
      refine wp_iupdate (k := 0) .of_true ⟨edits_setDin.trans edits_flush, rfl, ?_⟩
      have hflush := congrFun (dinodeAt_flush (s := (s.on (s.icache p).dev).setDin p d) (p := p))
        (s.icache p).inum
      refine hflush.trans ?_
      have hinum : (((s.on (s.icache p).dev).setDin p d).icache p).inum = (s.icache p).inum := by
        rw [State.setDin_self]
        rfl
      rw [← hinum, view_self, State.setDin_self])
    exact .update hu hdin (icache_put hicache) rfl rfl rfl
  | beginOp =>
    obtain ⟨hicache, hdisk, hsb, hheld⟩ := log_ok (x := beginOp) (by
      simp only [beginOp, wp_bind, wp_gets]
      split
      · exact trivial
      · exact ⟨rfl, rfl, rfl⟩) hs
    exact .log (.inl rfl) hicache hdisk hsb hheld
  | endOp =>
    obtain ⟨hicache, hdisk, hsb, hheld⟩ := log_ok (x := endOp) (by
      simp only [endOp, wp_modify, State.commit]
      split
      · split <;> exact ⟨rfl, rfl, rfl⟩
      · exact ⟨rfl, rfl, rfl⟩) hs
    exact .log (.inr rfl) hicache hdisk hsb hheld

theorem Did.change {a : Step κ} (hd : Did s t a) (h : Counts s) (ha : Holds s a) :
    t.icache = s.icache ∧ t.held = s.held ∨
      ∃ p e, t.icache = Function.update s.icache p e ∧ Change s t p e := by
  cases hd with
  | again hpos => exact .inr ⟨_, _, rfl, .add _ hpos rfl rfl rfl rfl⟩
  | took hzero hnone => exact .inr ⟨_, _, rfl, .fresh _ hzero hnone rfl rfl⟩
  | idup => exact .inr ⟨_, _, rfl, .add _ (h.ref_pos ha) rfl rfl rfl rfl⟩
  | ilock => exact .inr ⟨_, _, rfl, .same (h.ref_pos ha) rfl rfl rfl rfl⟩
  | iunlock => exact .inr ⟨_, _, rfl, .same (h.ref_pos ha) rfl rfl rfl rfl⟩
  | freed href _ _ _ hicache _ _ hheld =>
    exact .inr ⟨_, _, hicache, .drop _ ha rfl rfl (by rw [href]; rfl) hheld⟩
  | iput => exact .inr ⟨_, _, rfl, .drop _ ha rfl rfl rfl rfl⟩
  | update _ _ hicache _ _ hheld =>
    exact .inr ⟨_, _, hicache, .same (h.ref_pos ha.1) rfl rfl rfl hheld⟩
  | log _ hicache _ _ hheld => exact .inl ⟨hicache, hheld⟩

theorem Counts.step {a : Step κ} (h : Counts s) (ha : Holds s a) (hs : step s a = .ok t) :
    Counts t := by
  rcases (step_did hs).change h ha with ⟨hicache, hheld⟩ | ⟨p, e, hicache, hc⟩
  · refine ⟨fun p => ?_, fun p q => ?_⟩
    · rw [hicache, hheld, h.refs]
    · rw [hicache]
      exact h.unique p q
  · exact h.change hicache hc

theorem Counts.kept {a : Step κ} (h : Counts s) (ha : Holds s a) (hs : Icache.step s a = .ok t)
    {p : Ip} (hp : 0 < (s.icache p).ref) :
    (t.icache p).dev = (s.icache p).dev ∧ (t.icache p).inum = (s.icache p).inum := by
  rcases (step_did hs).change h ha with ⟨hicache, -⟩ | ⟨q, e, hicache, hc⟩
  · rw [hicache]
    exact ⟨rfl, rfl⟩
  · rw [hicache]
    by_cases hpq : p = q
    · subst hpq
      rw [update_self]
      cases hc with
      | add _ _ hdev hinum => exact ⟨hdev, hinum⟩
      | fresh _ hzero => omega
      | same _ hdev hinum => exact ⟨hdev, hinum⟩
      | drop _ _ hdev hinum => exact ⟨hdev, hinum⟩
    · rw [update_of_ne hpq]
      exact ⟨rfl, rfl⟩

end

/-! ## Copies of the inodes on disk -/

/-- An entry whose copy is of interest: one in use, or, if `all`, also one that is only valid. -/
def Entry.Live (all : Prop) (e : Entry) : Prop := 0 < e.ref ∨ all ∧ e.valid = true

/-- The entry is for an inode of a device with the super block in memory. -/
def Sys.Place (s : Sys κ) (e : Entry) : Prop :=
  e.inum < s.sb.ninodes.toNat ∧ Superblock.load (s.disk e.dev 1) = s.sb

def Sys.onDisk (s : Sys κ) (e : Entry) : Dinode := dinodeAt s.sb (s.disk e.dev) e.inum

/-- A valid entry has the inode on disk. The last reference to an inode without links clears the flag,
so an entry that is only valid has links. -/
structure Sys.Fits (s : Sys κ) (all : Prop) (e : Entry) : Prop where
  place : e.Live all → s.Place e
  synced : e.Live all → e.valid = true → e.din = s.onDisk e
  links : all → e.ref = 0 → e.valid = true → e.din.nlink ≠ 0

structure Synced (all : Prop) (s : Sys κ) : Prop where
  geometry : Geometry s.sb
  fits : ∀ p, s.Fits all (s.icache p)

section
variable {s t : Sys κ} {p : Ip} {all : Prop} {e : Entry}

theorem Synced.set (h : Synced all s) (hicache : t.icache = update s.icache p e)
    (hdisk : t.disk = s.disk) (hsb : t.sb = s.sb) (he : s.Fits all e) : Synced all t := by
  have hfits {e : Entry} (he : s.Fits all e) : t.Fits all e := by
    refine ⟨?_, ?_, he.links⟩
    · rw [Sys.Place, hsb, hdisk]
      exact he.place
    · rw [Sys.onDisk, hsb, hdisk]
      exact he.synced
  refine ⟨hsb ▸ h.geometry, ?_⟩
  rw [hicache, Function.forall_update_iff s.icache fun _ => t.Fits all]
  exact ⟨hfits he, fun q _ => hfits (h.fits q)⟩

/-- The inode of one entry changes on disk; no other entry of interest is for it. -/
theorem Synced.edit (h : Synced all s) {u : State} (hp : (s.icache p).Live all)
    (hu : Edits p (s.on (s.icache p).dev) u)
    (hicache : t.icache = update s.icache p e)
    (hdisk : t.disk = update s.disk (s.icache p).dev u.disk) (hsb : t.sb = u.sb)
    (hkeys : ∀ q, q ≠ p → (s.icache q).Live all →
      ¬((s.icache q).dev = (s.icache p).dev ∧ (s.icache q).inum = (s.icache p).inum))
    (hdev : e.dev = (s.icache p).dev) (hinum : e.inum = (s.icache p).inum)
    (hsynced : e.valid = true → e.din = dinodeAt s.sb u.disk (s.icache p).inum)
    (hlinks : all → e.ref = 0 → e.valid = true → e.din.nlink ≠ 0) : Synced all t := by
  have hplace := (h.fits p).place hp
  obtain ⟨husb, hone, htable⟩ := hu.table h.geometry hplace.2
  have htsb : t.sb = s.sb := hsb.trans husb
  -- the super blocks are where they were
  have hsuper : ∀ dev, t.disk dev 1 = s.disk dev 1 := by
    intro dev
    rw [hdisk]
    by_cases hd : dev = (s.icache p).dev
    · rw [hd, update_self, hone]
      rfl
    · rw [update_of_ne hd]
  refine ⟨htsb ▸ h.geometry, ?_⟩
  rw [hicache, Function.forall_update_iff s.icache fun _ => t.Fits all]
  refine ⟨⟨fun _ => ?_, fun _ hv => ?_, hlinks⟩, fun q hqp =>
    ⟨fun hq => ?_, fun hq hv => ?_, (h.fits q).links⟩⟩
  · rw [Sys.Place, htsb, hsuper, hdev, hinum]
    exact hplace
  · rw [hsynced hv, Sys.onDisk, htsb, hdisk, hdev, hinum, update_self]
  · rw [Sys.Place, htsb, hsuper]
    exact (h.fits q).place hq
  · rw [(h.fits q).synced hq hv, Sys.onDisk, Sys.onDisk, htsb, hdisk]
    by_cases hqdev : (s.icache q).dev = (s.icache p).dev
    · rw [hqdev, update_self]
      have hne : (s.icache q).inum ≠ (s.icache p).inum := fun heq => hkeys q hqp hq ⟨hqdev, heq⟩
      exact (htable _ ((h.fits q).place hq).1 hne).symm
    · rw [update_of_ne hqdev]

/-- Two entries of interest are for different inodes, unless one of them is only valid. -/
theorem Synced.keys (h : Synced all s) (hc : Counts s) (hp : 0 < (s.icache p).ref)
    (hfree : all → (s.icache p).valid = true ∧ (s.icache p).din.nlink = 0) (q : Ip) (hq : q ≠ p)
    (hlive : (s.icache q).Live all) :
    ¬((s.icache q).dev = (s.icache p).dev ∧ (s.icache q).inum = (s.icache p).inum) := by
  rintro ⟨hdev, hinum⟩
  by_cases hpos : 0 < (s.icache q).ref
  · exact hq (hc.unique q p hpos hp hdev hinum)
  · obtain ⟨ha, hv⟩ := hlive.resolve_left hpos
    obtain ⟨hvp, hlink⟩ := hfree ha
    have hzero : (s.icache q).ref = 0 := by
      have := hc.refs q
      omega
    -- both are the inode on disk, which has no links
    have hsame : (s.icache q).din = (s.icache p).din := by
      rw [(h.fits q).synced hlive hv, (h.fits p).synced (.inl hp) hvp, Sys.onDisk, Sys.onDisk, hdev,
        hinum]
    exact (h.fits q).links ha hzero hv (hsame ▸ hlink)

theorem Synced.set_same (h : Synced all s) (hpos : 0 < (s.icache p).ref)
    (hicache : t.icache = update s.icache p e) (hdisk : t.disk = s.disk)
    (hsb : t.sb = s.sb) (hdev : e.dev = (s.icache p).dev) (hinum : e.inum = (s.icache p).inum)
    (hvalid : e.valid = (s.icache p).valid) (hdin : e.din = (s.icache p).din)
    (hlinks : all → e.ref = 0 → (s.icache p).valid = true → (s.icache p).din.nlink ≠ 0) :
    Synced all t := by
  refine h.set hicache hdisk hsb ⟨fun _ => ?_, fun _ hv => ?_, fun ha hzero hv => ?_⟩
  · rw [Sys.Place, hdev, hinum]
    exact (h.fits p).place (.inl hpos)
  · rw [hdin, Sys.onDisk, hdev, hinum]
    exact (h.fits p).synced (.inl hpos) (hvalid ▸ hv)
  · rw [hdin]
    exact hlinks ha hzero (hvalid ▸ hv)

theorem Synced.step [DecidableEq κ] {a : Step κ} (h : Synced all s) (hc : Counts s)
    (ha : Placed s a) (hall : all → Reads s a) (hs : step s a = .ok t) : Synced all t := by
  cases step_did hs with
  | again hpos =>
    refine h.set_same hpos rfl rfl rfl rfl rfl rfl rfl fun _ hzero => ?_
    dsimp only at hzero
    omega
  | took hzero hnone =>
    exact h.set rfl rfl rfl ⟨fun _ => ha.2, fun _ => Bool.noConfusion, fun _ _ => Bool.noConfusion⟩
  | idup =>
    have hpos := hc.ref_pos ha.1
    refine h.set_same hpos rfl rfl rfl rfl rfl rfl rfl fun _ hzero => ?_
    dsimp only at hzero
    omega
  | @ilock me p =>
    have hpos := hc.ref_pos ha.1
    refine h.set rfl rfl rfl ⟨fun _ => (h.fits p).place (.inl hpos), fun _ _ => ?_, fun _ hzero => ?_⟩
    · dsimp only
      split
      next hv => exact (h.fits p).synced (.inl hpos) hv
      next => rfl
    · dsimp only at hzero
      omega
  | iunlock =>
    have hpos := hc.ref_pos ha.1
    refine h.set_same hpos rfl rfl rfl rfl rfl rfl rfl fun _ hzero => ?_
    dsimp only at hzero
    omega
  | freed href hvalid hlink hu hicache hdisk hsb _ =>
    have hpos := hc.ref_pos ha.1
    exact h.edit (.inl hpos) hu hicache hdisk hsb (h.keys hc hpos fun _ => ⟨hvalid, hlink⟩) rfl rfl
      (fun hv => nomatch hv) fun _ _ hv => nomatch hv
  | iput hlast =>
    refine h.set_same (hc.ref_pos ha.1) rfl rfl rfl rfl rfl rfl rfl fun _ hzero hv hlink =>
      hlast ⟨?_, hv, hlink⟩
    dsimp only at hzero
    omega
  | update hu hdin hicache hdisk hsb _ =>
    have hpos := hc.ref_pos ha.1.1
    refine h.edit (.inl hpos) hu hicache hdisk hsb (h.keys hc hpos fun hall' => ?_) rfl rfl
      (fun _ => hdin.symm) fun _ hzero => ?_
    · exact ((hall hall').2).elim
    · dsimp only at hzero
      omega
  | log _ hicache hdisk hsb _ =>
    let p : Ip := ⟨0, by decide⟩
    have hsame : t.icache = update s.icache p (s.icache p) := by
      rw [hicache, update_eq_self]
    exact h.set hsame hdisk hsb (h.fits p)

end

/-! ## Runs -/

section
variable [DecidableEq κ] (disk : UInt32 → Disk) (dev : UInt32) (logSize : Nat) {s : Sys κ}

omit [DecidableEq κ] in
theorem Counts.iinit : Counts (iinit (κ := κ) disk dev logSize) :=
  ⟨fun _ => rfl, fun _ _ hp => absurd hp (Int.lt_irrefl 0)⟩

omit [DecidableEq κ] in
theorem Synced.iinit {all : Prop} (hg : Geometry (Superblock.load (disk dev 1))) :
    Synced all (iinit (κ := κ) disk dev logSize) := by
  refine ⟨hg, fun p => ⟨fun hp => ?_, fun _ => Bool.noConfusion, fun _ _ => Bool.noConfusion⟩⟩
  rcases hp with hp | ⟨-, hp⟩
  · exact absurd hp (Int.lt_irrefl 0)
  · cases hp

/-- What holds of the inode cache whatever the inodes are. -/
structure Tracks (s : Sys κ) : Prop where
  unique : ∀ p q, 0 < (s.icache p).ref → 0 < (s.icache q).ref →
    (s.icache p).dev = (s.icache q).dev → (s.icache p).inum = (s.icache q).inum → p = q
  refs : ∀ p, (s.icache p).ref = (s.held.map Prod.snd).count p
  kept : ∀ a t p, Holds s a → step s a = .ok t → 0 < (s.icache p).ref →
    (t.icache p).dev = (s.icache p).dev ∧ (t.icache p).inum = (s.icache p).inum

/-- The inode cache keeps track of its inodes. The valid entries have the inodes on disk; with
callers that change inodes, those that are in use. -/
theorem icache_coherent :
    (Run step Holds (iinit disk dev logSize) s → Tracks s) ∧
    (Geometry (Superblock.load (disk dev 1)) → Run step Placed (iinit disk dev logSize) s →
      ∀ p, 0 < (s.icache p).ref → (s.icache p).valid = true →
        (s.icache p).din = s.onDisk (s.icache p)) ∧
    (Geometry (Superblock.load (disk dev 1)) → Run step Reads (iinit disk dev logSize) s →
      ∀ p, (s.icache p).valid = true → (s.icache p).din = s.onDisk (s.icache p)) := by
  refine ⟨fun hrun => ?_, fun hg hrun p hp hv => ?_, fun hg hrun p hv => ?_⟩
  · have h : Counts s := hrun.invariant (Counts.iinit disk dev logSize) fun h ha hs => h.step ha hs
    exact ⟨h.unique, h.refs, fun a t p ha hs hp => h.kept ha hs hp⟩
  · have h : Counts s ∧ Synced False s := by
      refine hrun.invariant (I := fun s => Counts s ∧ Synced False s)
        ⟨Counts.iinit disk dev logSize, Synced.iinit disk dev logSize hg⟩ ?_
      rintro t a u ⟨hc, h⟩ ha hs
      exact ⟨hc.step ha.1 hs, h.step hc ha False.elim hs⟩
    exact (h.2.fits p).synced (.inl hp) hv
  · have h : Counts s ∧ Synced True s := by
      refine hrun.invariant (I := fun s => Counts s ∧ Synced True s)
        ⟨Counts.iinit disk dev logSize, Synced.iinit disk dev logSize hg⟩ ?_
      rintro t a u ⟨hc, h⟩ ha hs
      exact ⟨hc.step ha.1.1 hs, h.step hc ha.1 (fun _ => ha) hs⟩
    exact (h.2.fits p).synced (.inr ⟨trivial, hv⟩) hv

end

instance : DecidableEq Superblock := fun _ _ => decidable_of_iff _ Superblock.ext_iff.symm

instance [DecidableEq κ] (s : Sys κ) : (a : Step κ) → Decidable (Reads s a)
  | .iget _ dev inum => inferInstanceAs (Decidable ((True ∧ (inum < s.sb.ninodes.toNat ∧
      Superblock.load (s.disk dev 1) = s.sb)) ∧ True))
  | .idup me p | .ilock me p | .iunlock me p | .iput me p =>
    inferInstanceAs (Decidable (((me, p) ∈ s.held ∧ True) ∧ True))
  | .update _ _ _ => .isFalse fun h => h.2
  | .beginOp | .endOp => inferInstanceAs (Decidable ((True ∧ True) ∧ True))

/-- A caller gets the only file, locks it and unlocks it. -/
theorem icache_coherent_one_file :
    ∃ s : Sys Unit, Tracks s ∧ ∃ p, (s.icache p).valid = true ∧ (s.icache p).locked = false ∧
      (s.icache p).din = s.onDisk (s.icache p) := by
  let disk : UInt32 → Disk := fun _ => OneFile.state.disk
  have hg : Geometry (Superblock.load (disk 1 1)) := by
    rw [show Superblock.load (disk 1 1) = OneFile.state.sb from OneFile.fsInv.super]
    exact OneFile.fsInv.geometry
  let p : Ip := ⟨0, by decide⟩
  obtain ⟨s, hs, hvalid, hlocked⟩ : ∃ s : Sys Unit, Run.exec step Reads (iinit disk 1 30)
      [.iget () 1 1, .ilock () p, .iunlock () p] = .ok s ∧ (s.icache p).valid = true ∧
      (s.icache p).locked = false := by decide +kernel
  have hrun := Run.of_exec hs
  obtain ⟨htracks, -, hsynced⟩ := icache_coherent disk 1 30 (s := s)
  refine ⟨s, htracks ?_, p, hvalid, hlocked, hsynced hg hrun p hvalid⟩
  exact hrun.mono fun _ _ ha => ha.1.1

end Xv6.Icache
