import Xv6.Fs.Paths

/-!
# Calls that leave the disk alone

A reference to a file that has links, or that somebody else refers to, may be taken and given back,
which never frees the file. Where paths lead to such files only, walking along a path changes the
inode cache only (`Still`). In a tree of directories they do.

The functions are specified for any condition `E` on what they stop with: either they do not stop, or
`E` holds of everything. With the first alternative the specifications are total.
-/

namespace Xv6.Fs

open State

/-- Nothing on disk changed, and the entries that `r` pins hold the same inodes as before. -/
structure Still (r : Refs) (s t : State) : Prop extends Pins r s t where
  disk : t.disk = s.disk

/-- Which entries are locked. -/
def State.locks (s : State) (p : Ip) : Bool := (s.icache p).locked

/-- Inode `i` is not freed if a reference besides those in `r` is given back. -/
def Lasts (s : State) (r : Refs) (i : Nat) : Prop :=
  (s.node i).type = 0 ∨ (s.node i).nlink ≠ 0 ∨ ∃ p, r p ≠ 0 ∧ (s.icache p).inum = i

/-- Paths from inode `i` lead to files that last. -/
def Leads (s : State) (r : Refs) (i : Nat) : Prop :=
  ∀ names j, follow s.node i names = some j → Lasts s r j

/-- Paths from inode `i` lead to files that are there. -/
def Typed (s : State) (i : Nat) : Prop :=
  ∀ names j, follow s.node i names = some j → (s.node j).type ≠ 0

/-- Inode `i` is allocated, and it is not freed if a reference besides those in `r` is given back. -/
def Safe (s : State) (r : Refs) (i : Nat) : Prop :=
  (s.node i).type ≠ 0 ∧ ((s.node i).nlink ≠ 0 ∨ ∃ p, r p ≠ 0 ∧ (s.icache p).inum = i)

/-- The names in directories are those of files that are there. -/
structure Tree (s : State) (r : Refs) : Prop extends Dirs s where
  safe_root : Safe s r ROOTINO
  safe_named : ∀ i, (s.node i).type = T_DIR → ∀ (k : Nat) name inum,
    (s.slots i)[k]? = some (some (name, inum)) → Safe s r inum

section
variable {s t u : State} {r r' : Refs} {p q : Ip} {i j : Nat} {ip : Inode} {E : Fault → Prop}

theorem Still.refl : Still r s s := ⟨Keeps.refl.toPins, rfl⟩

theorem Still.trans (h : Still r s t) (h' : Still r t u) : Still r s u :=
  ⟨h.toPins.trans h'.toPins, h'.disk.trans h.disk⟩

theorem Still.of_add (h : Still (r + one p) s t) : Still r s t :=
  ⟨h.toPins.mono fun _ => add_one_ne, h.disk⟩

theorem Still.node (h : Still r s t) : t.node = s.node := by
  rw [State.node, h.disk, h.sb, State.node]

theorem Still.lasts (h : Still r s t) (hi : Lasts s r i) : Lasts t r i := by
  rw [Lasts, h.node]
  refine hi.imp_right fun hl => hl.imp_right ?_
  rintro ⟨p, hp, heq⟩
  exact ⟨p, hp, (h.inum p hp).trans heq⟩

theorem Still.leads (h : Still r s t) (hi : Leads s r i) : Leads t r i := by
  intro names j hj
  rw [h.node] at hj
  exact h.lasts (hi names j hj)

theorem Still.node_self (h : Still (r + one p) s t) :
    t.node (t.icache p).inum = s.node (s.icache p).inum := by
  rw [h.node, h.inum p add_one_self_ne]

theorem Still.lasts_self (h : Still (r + one p) s t) (hi : Lasts s r (s.icache p).inum) :
    Lasts t r (t.icache p).inum := by
  rw [h.inum p add_one_self_ne]
  exact h.of_add.lasts hi

theorem Still.leads_self (h : Still (r + one p) s t) (hi : Leads s r (s.icache p).inum) :
    Leads t r (t.icache p).inum := by
  rw [h.inum p add_one_self_ne]
  exact h.of_add.leads hi

theorem Still.dirs (h : Still r s t) (hd : Dirs s) : Dirs t := hd.congr h.sb h.node

theorem Still.typed (h : Still r s t) (hi : Typed s i) : Typed t i := by
  rw [Typed, h.node]
  exact hi

theorem Lasts.add (h : Lasts s r i) : Lasts s (r + one p) i := by
  refine h.imp_right fun hl => hl.imp_right ?_
  rintro ⟨q, hq, heq⟩
  exact ⟨q, add_one_ne hq, heq⟩

theorem Leads.lasts (h : Leads s r i) : Lasts s r i := h [] i rfl

theorem Leads.next {name : List UInt8} (h : Leads s r i) (hj : lookupIn s.node i name = some j) :
    Leads s r j := by
  intro names k hk
  apply h (name :: names)
  rw [follow_cons, hj]
  exact hk

theorem Typed.next {name : List UInt8} (h : Typed s i) (hj : lookupIn s.node i name = some j) :
    Typed s j := by
  intro names k hk
  apply h (name :: names)
  rw [follow_cons, hj]
  exact hk

theorem Tree.follow (h : Tree s r) {names : List (List UInt8)} (hi : Safe s r i)
    (hj : follow s.node i names = some j) : Safe s r j := by
  induction names generalizing i with
  | nil =>
    cases hj
    exact hi
  | cons name names ih =>
    rw [follow_cons, Option.bind_eq_some_iff] at hj
    obtain ⟨k, hk, hj⟩ := hj
    rw [lookupIn] at hk
    split at hk
    next hdir =>
      obtain ⟨n, hn⟩ := Slots.mem_of_find hk
      exact ih (h.safe_named i hdir n _ _ hn) hj
    next => cases hk

theorem Tree.leads (h : Tree s r) (hi : Safe s r i) : Leads s r i :=
  fun _ _ hj => .inr (h.follow hi hj).2

theorem Tree.typed (h : Tree s r) (hi : Safe s r i) : Typed s i :=
  fun _ _ hj => (h.follow hi hj).1

theorem State.locks_setInode : (s.setInode p ip).locks = update s.locks p ip.locked := by
  funext q
  by_cases hq : q = p
  · subst hq
    rw [update_self, State.locks, setInode_self]
  · rw [update_of_ne hq, State.locks, setInode_of_ne hq, State.locks]

theorem State.locks_setInode_same (h : ip.locked = (s.icache p).locked) :
    (s.setInode p ip).locks = s.locks := by
  rw [locks_setInode, h]
  exact update_eq_self ..

theorem still_iget (h : Held s r) (hi : i < s.sb.ninodes.toNat)
    (hE : (∃ q, r q = 0) ∨ ∀ e, E e) :
    (iget i).wp E (fun p t => Held t (r + one p) ∧ Still r s t ∧ t.locks = s.locks ∧
      (t.icache p).inum = i) s := by
  refine wp_mono (wp_iget_eq (Q := fun p t => Held t (r + one p) ∧ Still r s t ∧
    t.locks = s.locks ∧ (t.icache p).inum = i) fun p hp => ?_) (fun e hfull => ?_) fun _ _ => id
  · obtain ⟨ht, hk⟩ := h.took hp hi
    refine ⟨ht, ⟨hk.toPins, rfl⟩, locks_setInode_same ?_, hp.inum⟩
    split <;> rfl
  · rcases hE with ⟨q, hq⟩ | hE
    · exact absurd ((h.refs q).trans (by rw [hq]; rfl)) (hfull.2 q)
    · exact hE e

theorem still_idup (h : Held s r) (hp : r p ≠ 0) :
    (idup p).wp E (fun q t => q = p ∧ Held t (r + one p) ∧ Still r s t ∧ t.locks = s.locks) s := by
  simp only [idup, wp_bind, wp_modifyInode]
  have hpos := h.ref_pos hp
  refine ⟨rfl, h.add (h.inv.setInode_same rfl (fun _ => hpos) id rfl) ?_,
    ⟨pins_setInode (fun _ => rfl) fun _ => id, rfl⟩, locks_setInode_same rfl⟩
  rw [h.refs p]

theorem Held.setInode (h : Held s r) (hinv : FsInv (s.setInode p ip))
    (href : ip.ref = (s.icache p).ref) : Held (s.setInode p ip) r := by
  refine ⟨hinv, fun q => ?_⟩
  rw [← h.refs q]
  by_cases hqp : q = p
  · rw [hqp, setInode_self, href]
  · rw [setInode_of_ne hqp]

theorem still_ilock (h : Held s r) (hp : r p ≠ 0)
    (hE : (s.locks p = false ∧ (s.node (s.icache p).inum).type ≠ 0) ∨ ∀ e, E e) :
    (ilock p).wp E (fun _ t => Held t r ∧ Still r s t ∧ s.locks p = false ∧
      t.locks = update s.locks p true ∧ Valid t p) s := by
  have hpos := h.ref_pos hp
  have hdisk : (s.node (s.icache p).inum).type = (dinodeAt s.sb s.disk (s.icache p).inum).type := by
    rw [State.node, nodeOf, if_pos (h.inum_lt hp)]
  rw [hdisk] at hE
  refine wp_ilock_eq (hE.imp_left fun hE => ⟨hpos, hE.1, fun _ => hE.2⟩) fun _ hl htype => ?_
  exact ⟨h.setInode (h.inv.lock hpos htype) rfl,
    ⟨pins_setInode (fun _ => rfl) fun _ _ => rfl, rfl⟩, hl, locks_setInode, valid_lock hpos⟩

theorem still_iunlock (h : Held s r) (hp : r p ≠ 0) (hE : s.locks p = true ∨ ∀ e, E e) :
    (iunlock p).wp E (fun _ t => Held t r ∧ Still r s t ∧
      t.locks = update s.locks p false) s := by
  have hpos := h.ref_pos hp
  refine wp_iunlock_eq (hE.imp_left fun hl => ⟨hl, hpos⟩) ?_
  exact ⟨h.setInode (h.inv.setInode_same rfl (fun _ => hpos) id rfl) rfl,
    ⟨pins_setInode (fun _ => rfl) fun _ => id, rfl⟩, locks_setInode⟩

/-- A reference that is not the last one to a file without links is given back. -/
theorem still_iput (h : Held s (r + one p)) (hlasts : Lasts s r (s.icache p).inum) :
    (iput p).wp E (fun _ t => Held t r ∧ Still r s t ∧ t.locks = s.locks) s := by
  have hpos := h.ref_pos add_one_self_ne
  have hrefs := h.refs p
  rw [add_one_self] at hrefs
  simp only [iput, wp_bind, wp_gets]
  refine wp_when (fun hlast => ?_) fun _ => ?_
  · have hv : Valid s p := ⟨hpos, hlast.2.1⟩
    rcases hlasts with hfree | hlink | ⟨q, hq, heq⟩
    · exact absurd hfree (h.inv.type_ne hv)
    · rw [(h.inv.node_of_valid hv).2.1] at hlink
      exact absurd hlast.2.2 hlink
    · have hqp : q = p := h.inv.cached.unique q p (h.ref_pos (add_one_ne hq)) hpos heq
      rw [hqp] at hq
      omega
  · rw [wp_modifyInode]
    exact ⟨h.drop (d := (s.icache p).din) (v := (s.icache p).valid)
      (h.inv.setInode_same rfl (fun _ => hpos) id rfl) rfl,
      ⟨pins_setInode (fun _ => rfl) fun _ => id, rfl⟩, locks_setInode_same rfl⟩

theorem still_iunlockput (h : Held s (r + one p)) (hlasts : Lasts s r (s.icache p).inum)
    (hE : s.locks p = true ∨ ∀ e, E e) :
    (iunlockput p).wp E (fun _ t => Held t r ∧ Still r s t ∧
      t.locks = update s.locks p false) s := by
  rw [iunlockput, wp_bind]
  refine wp_imp (still_iunlock h add_one_self_ne hE) fun _ t ⟨ht, hst, hl⟩ => ?_
  exact wp_imp (still_iput ht (hst.lasts_self hlasts)) fun _ u ⟨hu, hst', hl'⟩ =>
    ⟨hu, hst.of_add.trans hst', hl'.trans hl⟩

theorem still_dirlookup {dev : DevSw} {name : List UInt8} (h : Held s r) (hd : Dirs s)
    (hv : Valid s p) (htype : (s.node (s.icache p).inum).type = T_DIR)
    (hE : (∃ q, r q = 0) ∨ ∀ e, E e) :
    (dirlookup dev p name).wp E (fun x t => Still r s t ∧ t.locks = s.locks ∧
      match x with
      | none => Held t r ∧ (s.node (s.icache p).inum).lookup name = none
      | some (ip, off) => Held t (r + one ip) ∧
        (s.node (s.icache p).inum).lookup name = some (t.icache ip).inum ∧
        ∃ k, off = Dirent.size * k ∧ (s.slots (s.icache p).inum)[k]? =
          some (some (cname name, (t.icache ip).inum))) s := by
  have hgood : Good s r := ⟨h, hd⟩
  refine (hgood.openDir hv htype).wp_dirlookup (fun _ e hfull => ?_)
    (fun hnone => ⟨.refl, rfl, h, hnone⟩) fun ip k inum hsome hk hip => ?_
  · rcases hE with ⟨q, hq⟩ | hE
    · exact absurd ((h.refs q).trans (by rw [hq]; rfl)) (hfull.2 q)
    · exact hE e
  · obtain ⟨ht, hkeep⟩ := h.took hip (hd.range _ htype _ _ _ hk)
    refine ⟨⟨hkeep.toPins, rfl⟩, locks_setInode_same ?_, ht, ?_, k, rfl, ?_⟩
    · split <;> rfl
    · rw [hip.inum]
      exact hsome
    · rw [hip.inum]
      exact hk

end

/-! ## Walking along a path -/

section
variable {dev : DevSw} {s t : State} {ip cwd : Ip} {r : Refs} {path name : List UInt8}
variable {npar : Bool} {turns : Nat} {E : Fault → Prop}

/-- Two entries of the cache are not in use. -/
def TwoFree (r : Refs) : Prop := ∃ p q, p ≠ q ∧ r p = 0 ∧ r q = 0

theorem TwoFree.free_add (h : TwoFree r) : ∃ q, (r + one ip) q = 0 := by
  obtain ⟨p, q, hne, hp, hq⟩ := h
  by_cases hpi : p = ip
  · exact ⟨q, (add_one_of_ne (hpi ▸ hne.symm)).trans hq⟩
  · exact ⟨p, (add_one_of_ne hpi).trans hp⟩

/-- What a walk ends with. -/
def Walks (r : Refs) (npar : Bool) (found : Option (Nat × List UInt8)) (s : State)
    (x : Option (Ip × List UInt8)) (t : State) : Prop :=
  Still r s t ∧ t.locks = s.locks ∧
  match x with
  | none => Held t r ∧ found = none
  | some (q, name) => Held t (r + one q) ∧ found = some ((t.icache q).inum, name) ∧
    Leads t r (t.icache q).inum ∧
    (npar = true → Valid t q ∧ (t.node (t.icache q).inum).type = T_DIR)

theorem Walks.trans {found : Option (Nat × List UInt8)} {x : Option (Ip × List UInt8)} {u : State}
    (hst : Still r s t) (hl : t.locks = s.locks) (h : Walks r npar found t x u) :
    Walks r npar found s x u :=
  ⟨hst.trans h.1, h.2.1.trans hl, h.2.2⟩

theorem still_namexLoop (h : Held s (r + one ip)) (hd : Dirs s)
    (hleads : Leads s r (s.icache ip).inum)
    (hE : (TwoFree r ∧ (∀ p, s.locks p = false) ∧ Typed s (s.icache ip).inum) ∨ ∀ e, E e)
    (hturns : path.length < turns) :
    (namexLoop dev npar turns ip path name).wp E
      (Walks r npar (walk s.node npar turns (s.icache ip).inum path name) s) s := by
  induction turns generalizing s ip path name with
  | zero => exact absurd hturns (Nat.not_lt_zero _)
  | succ turns ih =>
    unfold namexLoop walk
    rcases skipelem_cases path with ⟨hskip, -⟩ | ⟨elem, rest, hskip, -, hlen, -⟩
    · rw [hskip]
      dsimp only
      split
      · rw [wp_bind]
        exact wp_imp (still_iput h hleads.lasts) fun _ t ht => ⟨ht.2.1, ht.2.2, ht.1, rfl⟩
      next hnpar => exact ⟨.refl, rfl, h, rfl, hleads, fun h => absurd h hnpar⟩
    · rw [hskip]
      rw [wp_bind]
      refine wp_imp (still_ilock h add_one_self_ne
        (hE.imp_left fun hE => ⟨hE.2.1 ip, hE.2.2 [] _ rfl⟩)) ?_
      rintro _ u ⟨hu, hst, hfree, hl, hv⟩
      have hstr : Still r s u := hst.of_add
      have hinum : (u.icache ip).inum = (s.icache ip).inum := hst.inum ip add_one_self_ne
      have hleadsu := hst.leads_self hleads
      have hlocked : u.locks ip = true := by rw [hl, update_self]
      -- the lock is given back
      have hback : ∀ {v w : State}, v.locks = u.locks → w.locks = update v.locks ip false →
          w.locks = s.locks := by
        intro v w hv hw
        rw [hw, hv, hl, update_idem, ← hfree]
        exact update_eq_self ..
      have htype := (hu.inv.node_of_valid hv).1
      have hnode := hst.node_self.symm
      simp only [wp_bind, wp_gets]
      rw [hnode, htype]
      by_cases hdir : (u.icache ip).din.type = T_DIR
      · rw [if_neg (not_not_intro hdir), if_neg (not_not_intro hdir)]
        by_cases hlast : npar = true ∧ rest = []
        · rw [if_pos hlast, if_pos hlast, wp_bind]
          refine wp_imp (still_iunlock hu add_one_self_ne (.inl hlocked)) ?_
          rintro _ t ⟨ht, hst', hl'⟩
          have hinum' : (t.icache ip).inum = (u.icache ip).inum := hst'.inum ip add_one_self_ne
          refine ⟨hstr.trans hst'.of_add, hback rfl hl', ht, ?_, hst'.leads_self hleadsu,
            fun _ => ⟨?_, ?_⟩⟩
          · rw [hinum', hinum]
          · exact ht.valid add_one_self_ne (hst'.valid ip add_one_self_ne hv.2)
          · rw [hst'.node_self, htype]
            exact hdir
        · rw [if_neg hlast, if_neg hlast, wp_bind]
          refine wp_imp (still_dirlookup hu (hstr.dirs hd) hv (htype.trans hdir)
            (hE.imp_left fun hE => hE.1.free_add)) ?_
          rintro x t ⟨hst', hl', hx⟩
          have hlastst := hst'.lasts_self hleadsu.lasts
          have hlockedt : t.locks ip = true := by rw [hl', hlocked]
          cases x with
          | none =>
            obtain ⟨ht, hnone⟩ := hx
            simp only [hnone, wp_bind]
            refine wp_imp (still_iunlockput ht hlastst (.inl hlockedt)) ?_
            rintro _ v ⟨hv', hst'', hl''⟩
            exact ⟨hstr.trans (hst'.of_add.trans hst''), hback hl' hl'', hv', rfl⟩
          | some x =>
            obtain ⟨next, off⟩ := x
            obtain ⟨ht, hsome, -⟩ := hx
            simp only [hsome, wp_bind]
            have ht' : Held t (r + one next + one ip) := by
              rw [add_right_comm]
              exact ht
            refine wp_imp (still_iunlockput ht' hlastst.add (.inl hlockedt)) ?_
            rintro _ v ⟨hv', hst'', hl''⟩
            have hstv : Still r s v := hstr.trans (hst'.of_add.trans hst''.of_add)
            have hlv : v.locks = s.locks := hback hl' hl''
            have hnext : (v.icache next).inum = (t.icache next).inum := hst''.inum next add_one_self_ne
            have hlookup : lookupIn s.node (s.icache ip).inum elem = some (t.icache next).inum := by
              rw [lookupIn, hnode, if_pos (htype.trans hdir), hsome]
            have hleadsv : Leads v r (v.icache next).inum := hnext ▸ hstv.leads (hleads.next hlookup)
            rw [← hnext, ← hstv.node]
            refine wp_imp (ih hv' (hstv.dirs hd) hleadsv (hE.imp_left fun hE => ?_)
              (Nat.lt_of_lt_of_le hlen (Nat.le_of_lt_succ hturns))) fun _ _ hw => hw.trans hstv hlv
            exact ⟨hE.1, fun p => by rw [hlv]; exact hE.2.1 p,
              hnext ▸ hstv.typed (hE.2.2.next hlookup)⟩
      · rw [if_pos hdir, if_pos hdir, wp_bind]
        refine wp_imp (still_iunlockput hu hleadsu.lasts (.inl hlocked)) ?_
        rintro _ t ⟨ht, hst', hl'⟩
        exact ⟨hstr.trans hst', hback rfl hl', ht, rfl⟩

/-- The inode that a path starts from, for a process with the current directory `cwd`. -/
def State.startOf (s : State) (cwd : Ip) (path : List UInt8) : Nat :=
  if path.head? = some slash then ROOTINO else (s.icache cwd).inum

theorem still_namex (h : Held s r) (hd : Dirs s) (hcwd : r cwd ≠ 0)
    (hleads : Leads s r (s.startOf cwd path))
    (hE : (TwoFree r ∧ (∀ p, s.locks p = false) ∧ Typed s (s.startOf cwd path)) ∨ ∀ e, E e) :
    (namex dev cwd path npar).wp E
      (Walks r npar (resolve s.node (s.icache cwd).inum path npar) s) s := by
  have hloop : ∀ {ip : Ip} {t : State}, Held t (r + one ip) → Still r s t → t.locks = s.locks →
      (t.icache ip).inum = s.startOf cwd path →
      (namexLoop dev npar (path.length + 1) ip path []).wp E
        (Walks r npar (walk s.node npar (path.length + 1) (s.startOf cwd path) path []) s) t := by
    intro ip t ht hst hl hinum
    rw [← hst.node, ← hinum]
    refine wp_imp (still_namexLoop ht (hst.dirs hd) (hinum ▸ hst.leads hleads)
      (hE.imp_left fun hE => ?_) (Nat.lt_succ_self path.length)) fun _ _ hw => hw.trans hst hl
    exact ⟨hE.1, fun p => by rw [hl]; exact hE.2.1 p, hinum ▸ hst.typed hE.2.2⟩
  have hstart : resolve s.node (s.icache cwd).inum path npar =
      walk s.node npar (path.length + 1) (s.startOf cwd path) path [] := rfl
  rw [namex]
  by_cases hroot : path.head? = some slash
  · rw [if_pos hroot, wp_bind]
    have hfree : (∃ q, r q = 0) ∨ ∀ e, E e := hE.imp_left fun ⟨⟨p, _, _, hp, _⟩, _⟩ => ⟨p, hp⟩
    refine wp_imp (still_iget h hd.root hfree) fun ip t ⟨ht, hst, hl, hinum⟩ => ?_
    exact hloop ht hst hl (hinum.trans (if_pos hroot).symm)
  · rw [if_neg hroot, wp_bind]
    refine wp_imp (still_idup h hcwd) ?_
    rintro _ t ⟨rfl, ht, hst, hl⟩
    exact hloop ht hst hl ((hst.inum _ hcwd).trans (if_neg hroot).symm)

end

end Xv6.Fs
