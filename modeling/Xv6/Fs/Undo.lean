import Xv6.Fs.Link
import Xv6.Fs.Still
import Xv6.Fs.Sys

/-!
# Calls that fail

A call that returns -1 gives back the references that it took, and undoes what it did to the disk. The
one exception is `create` for a name that is new, which `sys_open` may fail after.

The specifications are for calls that complete.
-/

namespace Xv6.Fs

/-- The files are what they were, and the entries that `r` pins hold the same inodes. -/
structure Undone (r : Refs) (s t : State) : Prop extends Pins r s t where
  dinode : dinodeAt t.sb t.disk = dinodeAt s.sb s.disk
  node : t.node = s.node

/-- The paths of a process with the current directory `cwd` lead to files that last. -/
structure Ready (s : State) (r : Refs) (cwd : Ip) : Prop where
  dirs : Dirs s
  pinned : r cwd ≠ 0
  leads_root : Leads s r ROOTINO
  leads_cwd : Leads s r (s.icache cwd).inum

/-- The path is that of a new name in a directory. -/
def NewName (s : State) (cwd : Ip) (path : List UInt8) : Prop :=
  ∃ d name, followParent s.node (s.startOf cwd path) (components path) = some (d, name) ∧
    (s.node d).lookup name = none

section
variable {dev : DevSw} {s t u : State} {r : Refs} {p q cwd : Ip} {i : Nat} {r' : Refs} {path name : List UInt8}

theorem Still.undone (h : Still r s t) : Undone r s t :=
  ⟨h.toPins, by rw [h.disk, h.sb], h.node⟩

theorem Undone.trans (h : Undone r s t) (h' : Undone r t u) : Undone r s u :=
  ⟨h.toPins.trans h'.toPins, h'.dinode.trans h.dinode, h'.node.trans h.node⟩

theorem Ready.still (h : Ready s r cwd) (hst : Still r s t) : Ready t r cwd := by
  refine ⟨hst.dirs h.dirs, h.pinned, hst.leads h.leads_root, ?_⟩
  rw [hst.inum cwd h.pinned]
  exact hst.leads h.leads_cwd

theorem Still.newName (h : Still r s t) (hcwd : r cwd ≠ 0) :
    NewName t cwd path ↔ NewName s cwd path := by
  rw [NewName, NewName, h.node, State.startOf, State.startOf, h.inum cwd hcwd]

theorem Ready.startOf (h : Ready s r cwd) : Leads s r (s.startOf cwd path) := by
  rw [State.startOf]
  split
  · exact h.leads_root
  · exact h.leads_cwd

/-! ## Transactions -/

theorem Held.congr (h : Held s r) (hdisk : t.disk = s.disk) (hsb : t.sb = s.sb)
    (hicache : t.icache = s.icache) : Held t r ∧ Still r s t := by
  obtain ⟨disk, sb, icache, logSize, outstanding, lh, committed⟩ := t
  cases hdisk
  cases hsb
  cases hicache
  refine ⟨⟨⟨h.inv.geometry, h.inv.super, h.inv.alloc, h.inv.full, ?_⟩, h.refs⟩, ?_⟩
  · exact ⟨h.inv.cached.inum, h.inv.cached.synced, h.inv.cached.type, h.inv.cached.unique⟩
  · exact ⟨⟨rfl, fun _ _ => rfl, fun _ _ hv => hv⟩, rfl⟩

theorem still_beginOp (h : Held s r) :
    beginOp.wp (fun _ => True) (fun _ t => Held t r ∧ Still r s t) s := by
  simp only [beginOp, wp_bind, wp_gets]
  split
  · trivial
  · exact h.congr rfl rfl rfl

theorem still_endOp {E : Fault → Prop} (h : Held s r) :
    endOp.wp E (fun _ t => Held t r ∧ Still r s t) s := by
  rw [endOp, wp_modify]
  dsimp only
  split
  · rw [State.commit]
    split <;> exact h.congr rfl rfl rfl
  · exact h.congr rfl rfl rfl

theorem wp_failed (h : Held t r) (hst : Still r s t) :
    Prog.wp (do
      endOp
      pure (-1)) (fun _ => True) (fun x u => x = (-1 : Int) → Held u r ∧ Undone r s u) t := by
  refine wp_seq (still_endOp h) fun _ u ⟨hu, hst'⟩ => ?_
  exact fun _ => ⟨hu, (hst.trans hst').undone⟩

/-! ## Walking and looking up -/

theorem Ready.wp_namei (hr : Ready s r cwd) (h : Held s r) :
    (namei dev cwd path).wp (fun _ => True) (fun x t => Still r s t ∧
      match x with
      | none => Held t r ∧ follow s.node (s.startOf cwd path) (components path) = none
      | some q => Held t (r + one q) ∧ Leads t r (t.icache q).inum ∧
        follow s.node (s.startOf cwd path) (components path) = some (t.icache q).inum) s := by
  have hfollow : (resolve s.node (s.icache cwd).inum path false).map Prod.fst =
      follow s.node (s.startOf cwd path) (components path) :=
    walk_eq_follow (Nat.lt_succ_self _)
  rw [namei, wp_bind, ← hfollow]
  refine wp_imp (still_namex h hr.dirs hr.pinned hr.startOf (.inr fun _ => trivial)) ?_
  rintro x t ⟨hst, _, hx⟩
  cases x with
  | none => exact ⟨hst, hx.1, by rw [hx.2]; rfl⟩
  | some x => exact ⟨hst, hx.1, hx.2.2.1, by rw [hx.2.1]; rfl⟩

theorem Ready.wp_nameiparent (hr : Ready s r cwd) (h : Held s r) :
    (nameiparent dev cwd path).wp (fun _ => True) (fun x t => Still r s t ∧
      match x with
      | none => Held t r ∧ followParent s.node (s.startOf cwd path) (components path) = none
      | some (q, name) => Held t (r + one q) ∧ Leads t r (t.icache q).inum ∧
        (t.node (t.icache q).inum).type = T_DIR ∧
        followParent s.node (s.startOf cwd path) (components path) =
          some ((t.icache q).inum, name)) s := by
  have hparent : resolve s.node (s.icache cwd).inum path true =
      followParent s.node (s.startOf cwd path) (components path) :=
    walk_eq_followParent (Nat.lt_succ_self _)
  rw [← hparent]
  refine wp_imp (still_namex h hr.dirs hr.pinned hr.startOf (.inr fun _ => trivial)) ?_
  rintro x t ⟨hst, _, hx⟩
  cases x with
  | none => exact ⟨hst, hx⟩
  | some x => exact ⟨hst, hx.1, hx.2.2.1, (hx.2.2.2 rfl).2, hx.2.1⟩

/-- What is found in a directory that is read lasts, like the directory itself. -/
theorem wp_lookup (h : Held s r) (hd : Dirs s) (hv : Valid s p)
    (htype : (s.node (s.icache p).inum).type = T_DIR) (hleads : Leads s r' (s.icache p).inum)
    (hr : ∀ q, r' q ≠ 0 → r q ≠ 0) :
    (dirlookup dev p name).wp (fun _ => True) (fun x t => Still r s t ∧
      match x with
      | none => Held t r ∧ (s.node (s.icache p).inum).lookup name = none
      | some (ip, _) => Held t (r + one ip) ∧ Lasts t r' (t.icache ip).inum ∧
        (s.node (s.icache p).inum).lookup name ≠ none) s := by
  refine wp_imp (still_dirlookup h hd hv htype (.inr fun _ => trivial)) ?_
  rintro x t ⟨hst, _, hx⟩
  refine ⟨hst, ?_⟩
  cases x with
  | none => exact hx
  | some x =>
    obtain ⟨ht, hsome, -⟩ := hx
    have hlookup : lookupIn s.node (s.icache p).inum name = some (t.icache x.1).inum := by
      rw [lookupIn, if_pos htype, hsome]
    have hst' : Still r' s t := ⟨hst.toPins.mono hr, hst.disk⟩
    refine ⟨ht, hst'.lasts (hleads.next hlookup).lasts, ?_⟩
    rw [hsome]
    exact Option.some_ne_none _

theorem wp_dirlink_fails {inum : Nat} (h : Held s r) (hd : Dirs s) (hv : Valid s p)
    (htype : (s.node (s.icache p).inum).type = T_DIR) (hleads : Leads s r' (s.icache p).inum)
    (hr : ∀ q, r' q ≠ 0 → r q ≠ 0) :
    (dirlink dev p name inum).wp (fun _ => True) (fun x t => x < 0 → Held t r ∧ Still r s t) s := by
  refine wp_seq (wp_lookup h hd hv htype hleads hr) ?_
  rintro x t ⟨hst, hx⟩
  cases x with
  | none =>
    refine wp_bind_any fun _ _ => wp_bind_any fun _ _ => wp_bind_any fun _ _ => ?_
    split
    · trivial
    · exact fun hneg => absurd hneg (by decide)
  | some x =>
    obtain ⟨ht, hlasts, -⟩ := hx
    have hlasts' : Lasts t r (t.icache x.1).inum :=
      hlasts.imp_right fun hl => hl.imp_right fun ⟨q, hq, heq⟩ => ⟨q, hr q hq, heq⟩
    refine wp_seq (still_iput ht hlasts') fun _ u ⟨hu, hst', _⟩ => ?_
    exact fun _ => ⟨hu, hst.trans hst'⟩

theorem wp_lock (h : Held s (r + one p)) (hi : Leads s r (s.icache p).inum) :
    (ilock p).wp (fun _ => True) (fun _ t => Held t (r + one p) ∧ Still (r + one p) s t ∧
      Valid t p ∧ Leads t r (t.icache p).inum) s := by
  refine wp_imp (still_ilock h add_one_self_ne (.inr fun _ => trivial)) ?_
  rintro _ t ⟨ht, hst, _, _, hv⟩
  exact ⟨ht, hst, hv, hst.leads_self hi⟩

theorem wp_unlockput (h : Held s (r + one p)) (hi : Lasts s r (s.icache p).inum) :
    (iunlockput p).wp (fun _ => True) (fun _ t => Held t r ∧ Still r s t) s :=
  wp_imp (still_iunlockput h hi (.inr fun _ => trivial)) fun _ _ ht => ⟨ht.1, ht.2.1⟩

/-! ## `unlink` -/

theorem OpenDir.wp_isdirempty {E : Fault → Prop} (h : OpenDir s p i) :
    (isdirempty dev p).wp E (fun _ t => t = s) s := by
  simp only [isdirempty, wp_bind, wp_gets]
  rw [Nat.mul_comm 2]
  exact wp_imp (h.wp_dirScan h.dirTurns_eq) fun _ _ ht => ht.1

theorem wp_unlinkAt {off : Nat} : (unlinkAt dev p q off).wp (fun _ => True) (fun x _ => x = 0) s := by
  refine wp_bind_any fun _ _ => ?_
  split
  · trivial
  · refine wp_bind_any fun _ _ => wp_bind_any fun _ _ => wp_bind_any fun _ _ => ?_
    refine wp_bind_any fun _ _ => wp_bind_any fun _ _ => wp_bind_any fun _ _ => ?_
    exact wp_bind_any fun _ _ => rfl

theorem Ready.wp_sysUnlink (hr : Ready s r cwd) (h : Held s r) {path : Option (List UInt8)} :
    (sysUnlink dev cwd path).wp (fun _ => True)
      (fun x t => x = -1 → Held t r ∧ Undone r s t) s := by
  cases path with
  | none => exact fun _ => ⟨h, Still.refl.undone⟩
  | some path =>
  refine wp_seq (still_beginOp h) fun _ s₁ ⟨h₁, hst₁⟩ => ?_
  have hready := hr.still hst₁
  refine wp_seq (hready.wp_nameiparent h₁) fun x s₂ ⟨hst₂, hx⟩ => ?_
  have hst : Still r s s₂ := hst₁.trans hst₂
  have hdone : ∀ {v : State} {dp ip : Ip} {off : Nat}, (unlinkAt dev dp ip off).wp (fun _ => True)
      (fun x t => x = -1 → Held t r ∧ Undone r s t) v := fun {v dp ip off} =>
    wp_imp wp_unlinkAt fun x _ hx hneg => absurd (hx.symm.trans hneg) (by decide)
  cases x with
  | none => exact wp_failed hx.1 hst
  | some x =>
  obtain ⟨dp, name⟩ := x
  obtain ⟨h₂, hleads, htype, -⟩ := hx
  refine wp_seq (wp_lock h₂ hleads) fun _ s₃ ⟨h₃, hst₃, hv₃, hleads₃⟩ => ?_
  have hbad : ∀ {v : State}, Held v (r + one dp) → Still (r + one dp) s₃ v →
      (unlinkBad dp).wp (fun _ => True) (fun x t => x = -1 → Held t r ∧ Undone r s t) v := by
    intro v hv hst'
    refine wp_seq (wp_unlockput hv (hst'.lasts_self hleads₃.lasts)) fun _ w ⟨hw, hst''⟩ => ?_
    exact wp_failed hw (hst.trans (hst₃.of_add.trans (hst'.of_add.trans hst'')))
  split
  · exact hbad h₃ .refl
  have htype₃ := hst₃.node_self.symm ▸ htype
  have hdirs₃ : Dirs s₃ := hst₃.dirs (hst₂.dirs hready.dirs)
  refine wp_seq (wp_lookup h₃ hdirs₃ hv₃ htype₃ hleads₃ fun _ => add_one_ne) ?_
  rintro y s₄ ⟨hst₄, hy⟩
  cases y with
  | none => exact hbad hy.1 hst₄
  | some y =>
  obtain ⟨ip, off⟩ := y
  obtain ⟨h₄, hlasts, -⟩ := hy
  refine wp_seq (still_ilock h₄ add_one_self_ne (.inr fun _ => trivial)) ?_
  rintro _ s₅ ⟨h₅, hst₅, -, -, hv₅⟩
  have hinum₅ : (s₅.icache ip).inum = (s₄.icache ip).inum := hst₅.inum ip add_one_self_ne
  rw [wp_bind, wp_gets]
  split
  · trivial
  split
  next hdir =>
    have hdir₅ : (s₅.node (s₅.icache ip).inum).type = T_DIR := by
      rw [(h₅.inv.node_of_valid hv₅).1]
      exact hdir
    have hgood : Good s₅ (r + one dp + one ip) := ⟨h₅, hst₅.dirs (hst₄.dirs hdirs₃)⟩
    refine wp_seq (hgood.openDir hv₅ hdir₅).wp_isdirempty ?_
    rintro b _ rfl
    split
    · exact hdone
    · have hlasts₅ : Lasts _ (r + one dp) (Inode.inum (State.icache _ ip)) :=
        hinum₅ ▸ (hst₅.of_add.of_add.lasts hlasts).add
      refine wp_seq (wp_unlockput h₅ hlasts₅) fun _ v ⟨hv, hst'⟩ => ?_
      exact hbad hv (hst₄.trans (hst₅.of_add.trans hst'))
  next => exact hdone

/-! ## `create` -/

/-- The inode is new. -/
def Born (s t : State) (i : Nat) : Prop :=
  (s.node i).type = 0 ∧ (t.node i).type ≠ 0 ∧ (t.node i).nlink ≠ 0

theorem wp_create_new {major minor : UInt16} (h : Good s (r + one p)) (hv : Valid s p)
    (htype : (s.node (s.icache p).inum).type = T_DIR)
    (hnone : (s.node (s.icache p).inum).lookup name = none) :
    Prog.wp (do
      let ip ← ialloc T_FILE
      ilock ip
      modifyDin ip fun d => { d with major, minor, nlink := 1 }
      iupdate ip
      Prog.when (T_FILE = T_DIR) (createDots dev p ip)
      let inum ← Prog.gets fun s => (s.icache ip).inum
      let x ← dirlink dev p name inum
      if x < 0 then panic "create: dirlink"
      else do
        iunlockput p
        pure (some ip)) (fun _ => True) (fun x t => ∃ ip, x = some ip ∧ Held t (r + one ip) ∧
      Born s t (t.icache ip).inum) s := by
  refine wp_inew h.toHeld fun ip t ht hk hvip _ hfree hn => ?_
  rw [wp_bind]
  refine wp_when (fun heq => absurd heq (by decide)) fun _ => ?_
  rw [wp_bind, wp_gets]
  have hinum : (t.icache p).inum = (s.icache p).inum := hk.inum p add_one_self_ne
  -- the new file is another one than the directory
  have hne : (t.icache p).inum ≠ (t.icache ip).inum := by
    intro heq
    rw [← heq, hinum, htype] at hfree
    exact absurd hfree (by decide)
  have hnode : t.node (t.icache p).inum = s.node (s.icache p).inum := by
    rw [hn, update_of_ne hne, hinum]
  have hnew : t.node (t.icache ip).inum = ⟨T_FILE, major, minor, 1, []⟩ := by
    rw [hn, update_self]
  have hgood : Good t (r + one p + one ip) := by
    refine ⟨ht, h.dirs.of_node hk.sb fun i hi => ?_⟩
    by_cases heq : i = (t.icache ip).inum
    · rw [heq, hnew] at hi
      exact absurd hi (by decide : T_FILE ≠ T_DIR)
    · rw [hn, update_of_ne heq] at hi ⊢
      exact ⟨hi, rfl⟩
  have hvp : Valid t p := ht.valid (add_one_ne add_one_self_ne) (hk.valid p add_one_self_ne hv.2)
  refine wp_seq (held_dirlink hgood hvp (hnode ▸ htype) (hnode ▸ hnone)) ?_
  rintro x u ⟨rfl, hu, hk', hn'⟩
  rw [if_neg (by decide), wp_bind]
  rw [add_right_comm] at hu
  refine wp_imp (wp_iunlockput hu) fun _ v ⟨hv', hq⟩ => ⟨ip, rfl, hv', ?_⟩
  have hinumu : (u.icache ip).inum = (t.icache ip).inum := hk'.inum ip add_one_self_ne
  have hborn : v.node (v.icache ip).inum = ⟨T_FILE, major, minor, 1, []⟩ := by
    rw [hq.node_held add_one_self_ne, hinumu, hn', update_of_ne hne.symm, hnew]
  refine ⟨?_, ?_⟩
  · rw [hq.inum ip add_one_self_ne, hinumu]
    exact hfree
  · rw [hborn]
    exact ⟨(by decide : T_FILE ≠ 0), (by decide : (1 : UInt16) ≠ 0)⟩

theorem Ready.wp_create (hr : Ready s r cwd) (h : Held s r) {type major minor : UInt16} :
    (create dev cwd path type major minor).wp (fun _ => True) (fun x t =>
      match x with
      | none => Held t r ∧ Still r s t ∧ ¬NewName s cwd path
      | some ip => type = T_FILE → Held t (r + one ip) ∧
        (Still r s t ∧ Lasts t r (t.icache ip).inum ∧ ¬NewName s cwd path ∨
          NewName s cwd path ∧ Born s t (t.icache ip).inum)) s := by
  refine wp_seq (hr.wp_nameiparent h) fun x s₁ ⟨hst₁, hx⟩ => ?_
  cases x with
  | none =>
    refine ⟨hx.1, hst₁, ?_⟩
    rintro ⟨d, name, hd, -⟩
    rw [hx.2] at hd
    cases hd
  | some x =>
  obtain ⟨dp, name⟩ := x
  obtain ⟨h₁, hleads₁, htype₁, hfollow⟩ := hx
  refine wp_seq (wp_lock h₁ hleads₁) fun _ s₂ ⟨h₂, hst₂, hv₂, hleads₂⟩ => ?_
  have hinum₂ : (s₂.icache dp).inum = (s₁.icache dp).inum := hst₂.inum dp add_one_self_ne
  have hnode₂ : s₂.node = s.node := hst₂.node.trans hst₁.node
  have htype₂ := hst₂.node_self.symm ▸ htype₁
  have hdirs₂ : Dirs s₂ := hst₂.dirs (hst₁.dirs hr.dirs)
  have hnew : NewName s cwd path ↔ (s₂.node (s₂.icache dp).inum).lookup name = none := by
    rw [hnode₂, hinum₂]
    constructor
    · rintro ⟨d, name', hd, hnone⟩
      rw [hfollow] at hd
      cases hd
      exact hnone
    · exact fun hnone => ⟨_, name, hfollow, hnone⟩
  rw [hnew]
  refine wp_seq (wp_lookup h₂ hdirs₂ hv₂ htype₂ hleads₂ fun _ => add_one_ne) ?_
  rintro y s₃ ⟨hst₃, hy⟩
  have hst : Still r s s₃ := hst₁.trans (hst₂.of_add.trans hst₃.of_add)
  have hinum₃ : (s₃.icache dp).inum = (s₂.icache dp).inum := hst₃.inum dp add_one_self_ne
  cases y with
  | some y =>
    obtain ⟨ip, off⟩ := y
    obtain ⟨h₃, hlasts, hsome⟩ := hy
    have hlasts' : Lasts s₃ (r + one ip) (s₃.icache dp).inum :=
      hinum₃ ▸ (hst₃.of_add.lasts hleads₂.lasts).add
    rw [add_right_comm] at h₃
    refine wp_seq (wp_unlockput h₃ hlasts') fun _ s₄ ⟨h₄, hst₄⟩ => ?_
    refine wp_seq (still_ilock h₄ add_one_self_ne (.inr fun _ => trivial)) ?_
    rintro _ s₅ ⟨h₅, hst₅, -, -, -⟩
    have hinum : (s₅.icache ip).inum = (s₃.icache ip).inum :=
      (hst₅.inum ip add_one_self_ne).trans (hst₄.inum ip add_one_self_ne)
    have hst' : Still r s₃ s₅ := hst₄.of_add.trans hst₅.of_add
    have hlasts₅ : Lasts s₅ r (s₅.icache ip).inum := hinum ▸ hst'.lasts hlasts
    rw [wp_bind, wp_gets]
    split
    · exact fun _ => ⟨h₅, .inl ⟨hst.trans hst', hlasts₅, hsome⟩⟩
    · refine wp_seq (wp_unlockput h₅ hlasts₅) fun _ v ⟨hv, hst''⟩ => ?_
      exact ⟨hv, hst.trans (hst'.trans hst''), hsome⟩
  | none =>
    obtain ⟨h₃, hnone⟩ := hy
    by_cases hfile : type = T_FILE
    · subst hfile
      have hgood : Good s₃ (r + one dp) := ⟨h₃, hst₃.dirs hdirs₂⟩
      have hv₃ : Valid s₃ dp := h₃.valid add_one_self_ne (hst₃.valid dp add_one_self_ne hv₂.2)
      have hnode₃ := hst₃.node_self
      refine wp_imp (wp_create_new hgood hv₃ (hnode₃ ▸ htype₂) (hnode₃ ▸ hnone)) ?_
      rintro x t ⟨ip, rfl, ht, hborn⟩
      refine fun _ => ⟨ht, .inr ⟨hnone, ?_⟩⟩
      rw [Born, ← hst.node]
      exact hborn
    · refine wp_bind_any fun ip _ => wp_bind_any fun _ _ => wp_bind_any fun _ _ => ?_
      refine wp_bind_any fun _ _ => wp_bind_any fun _ _ => wp_bind_any fun _ _ => ?_
      refine wp_bind_any fun _ _ => ?_
      split
      · trivial
      · exact wp_bind_any fun _ _ heq => absurd heq hfile

theorem Ready.wp_sysMake (hr : Ready s r cwd) (h : Held s r) {path : Option (List UInt8)}
    {type major minor : UInt16} :
    (sysMake dev cwd path type major minor).wp (fun _ => True)
      (fun x t => x = -1 → Held t r ∧ Undone r s t) s := by
  refine wp_seq (still_beginOp h) fun _ s₁ ⟨h₁, hst₁⟩ => ?_
  cases path with
  | none => exact wp_failed h₁ hst₁
  | some path =>
  refine wp_seq ((hr.still hst₁).wp_create h₁) fun x s₂ hx => ?_
  cases x with
  | none => exact wp_failed hx.1 (hst₁.trans hx.2.1)
  | some ip =>
    refine wp_bind_any fun _ _ => wp_bind_any fun _ _ => ?_
    exact fun hneg => absurd hneg (by decide)

theorem Ready.wp_openInode (hr : Ready s r cwd) (h : Held s r) {omode : UInt32} :
    (openInode dev cwd path omode).wp (fun _ => True) (fun x t =>
      match x with
      | none => Held t r ∧ Still r s t ∧ ¬(omode &&& O_CREATE ≠ 0 ∧ NewName s cwd path)
      | some ip => Held t (r + one ip) ∧
        (Still r s t ∧ Lasts t r (t.icache ip).inum ∧
            ¬(omode &&& O_CREATE ≠ 0 ∧ NewName s cwd path) ∨
          (omode &&& O_CREATE ≠ 0 ∧ NewName s cwd path) ∧ Born s t (t.icache ip).inum)) s := by
  rw [openInode]
  split
  next hcreate =>
    refine wp_imp (hr.wp_create h) fun x t hx => ?_
    simp only [hcreate, ne_eq, not_false_eq_true, true_and]
    cases x with
    | none => exact hx
    | some ip => exact hx rfl
  next hcreate =>
    have hno : ¬(omode &&& O_CREATE ≠ 0 ∧ NewName s cwd path) := fun hx => hcreate hx.1
    refine wp_seq (hr.wp_namei h) fun x s₁ ⟨hst₁, hx⟩ => ?_
    cases x with
    | none => exact ⟨hx.1, hst₁, hno⟩
    | some ip =>
    refine wp_seq (wp_lock hx.1 hx.2.1) fun _ s₂ ⟨h₂, hst₂, hv₂, hleads₂⟩ => ?_
    have hst : Still r s s₂ := hst₁.trans hst₂.of_add
    rw [wp_bind, wp_gets]
    split
    · refine wp_seq (wp_unlockput h₂ hleads₂.lasts) fun _ s₃ ⟨h₃, hst₃⟩ => ?_
      exact ⟨h₃, hst.trans hst₃, hno⟩
    · exact ⟨h₂, .inl ⟨hst, hleads₂.lasts, hno⟩⟩

theorem wp_openBad {C : Prop} (h : Held t (r + one p))
    (hx : Still r s t ∧ Lasts t r (t.icache p).inum ∧ ¬C ∨ C ∧ Born s t (t.icache p).inum) :
    Prog.wp (do
      iunlockput p
      endOp) (fun _ => True)
      (fun _ u => Held u r ∧ (Undone r s u ∧ ¬C ∨ C ∧ u.node ≠ s.node)) t := by
  rcases hx with ⟨hst, hlasts, hno⟩ | ⟨hC, hfree, htype, hlink⟩
  · refine wp_seq (wp_unlockput h hlasts) fun _ u ⟨hu, hst'⟩ => ?_
    refine wp_imp (still_endOp hu) fun _ v ⟨hv, hst''⟩ => ?_
    exact ⟨hv, .inl ⟨(hst.trans (hst'.trans hst'')).undone, hno⟩⟩
  · refine wp_seq (wp_iunlockput h) fun _ u ⟨hu, hq⟩ => ?_
    refine wp_imp (still_endOp hu) fun _ v ⟨hv, hst⟩ => ⟨hv, .inr ⟨hC, fun heq => ?_⟩⟩
    -- the new file has a link, and is not freed
    rcases hq.node (t.icache p).inum with hsame | ⟨-, -, hzero, -⟩
    · rw [← hsame, ← hst.node, heq] at htype
      exact htype hfree
    · exact hlink hzero

/-! ## `link` -/

/-- Inode `i` has another number of links. -/
structure Tagged (r : Refs) (s : State) (i : Nat) (nlink : UInt16) (t : State) : Prop
    extends Pins r s t where
  dinode : dinodeAt t.sb t.disk =
    Function.update (dinodeAt s.sb s.disk) i { dinodeAt s.sb s.disk i with nlink }
  node : t.node = Function.update s.node i { s.node i with nlink }

theorem Tagged.still {n : UInt16} (h : Tagged r s i n t) (hst : Still r t u) : Tagged r s i n u :=
  ⟨h.toPins.trans hst.toPins, by rw [hst.disk, hst.sb, h.dinode], by rw [hst.node, h.node]⟩

theorem Tagged.trans {n m : UInt16} (h : Tagged r s i n t) (h' : Tagged r t i m u) :
    Tagged r s i m u := by
  refine ⟨h.toPins.trans h'.toPins, ?_, ?_⟩
  · rw [h'.dinode, h.dinode, update_idem, update_self]
  · rw [h'.node, h.node, update_idem, update_self]

theorem Tagged.undone (h : Tagged r s i (s.node i).nlink t) (hi : i < s.sb.ninodes.toNat) :
    Undone r s t := by
  refine ⟨h.toPins, ?_, ?_⟩
  · have hnlink : (s.node i).nlink = (dinodeAt s.sb s.disk i).nlink := by
      rw [State.node, nodeOf, if_pos hi]
    rw [h.dinode, hnlink]
    exact update_eq_self ..
  · rw [h.node]
    exact update_eq_self ..

theorem wp_relink {g : UInt16 → UInt16} {k : FsM α} {Q : α → State → Prop} (h : Held s r)
    (hv : Valid s p)
    (hQ : ∀ t, Held t r → Valid t p →
      Tagged r s (s.icache p).inum (g (s.node (s.icache p).inum).nlink) t →
      k.wp (fun _ => True) Q t) :
    Prog.wp (do
      modifyDin p fun d => { d with nlink := g d.nlink }
      iupdate p
      k) (fun _ => True) Q s := by
  have hdin := h.inv.cached.synced p nofun hv
  have hnode := h.inv.node_eq hv
  have hnlink := (h.inv.node_of_valid hv).2.1
  refine wp_retag h hv rfl fun t ht hk hvt hn hd => hQ t ht hvt ⟨hk.toPins, ?_, ?_⟩
  · rw [hd, hnlink, ← hdin]
  · rw [hn, hnode]

theorem Tagged.same {n : UInt16} (h : Tagged r s i n t) (j : Nat) :
    (t.node j).type = (s.node j).type ∧ (t.node j).data = (s.node j).data := by
  rw [h.node, update_apply]
  split
  next heq =>
    rw [heq]
    exact ⟨rfl, rfl⟩
  next => exact ⟨rfl, rfl⟩

/-- Whatever leads somewhere still does, with a file that is pinned in between. -/
theorem Tagged.ready {n : UInt16} (h : Tagged (r + one p) s (s.icache p).inum n t)
    (hs : Ready s r cwd) : Ready t (r + one p) cwd := by
  have hleads : ∀ {i}, Leads s r i → Leads t (r + one p) i := by
    intro i hi names j hj
    rw [follow_congr h.same] at hj
    by_cases heq : j = (s.icache p).inum
    · exact .inr (.inr ⟨p, add_one_self_ne, (h.inum p add_one_self_ne).trans heq.symm⟩)
    · rw [Lasts, h.node, update_of_ne heq]
      refine (hi names j hj).imp_right fun hl => hl.imp_right ?_
      rintro ⟨q, hq, hqj⟩
      exact ⟨q, add_one_ne hq, (h.inum q (add_one_ne hq)).trans hqj⟩
  refine ⟨hs.dirs.of_node h.sb fun i hi => ⟨(h.same i).1 ▸ hi, (h.same i).2⟩, add_one_ne hs.pinned,
    hleads hs.leads_root, ?_⟩
  rw [h.inum cwd (add_one_ne hs.pinned)]
  exact hleads hs.leads_cwd

theorem wp_linkBad (h : Held t (r + one p))
    (ht : Tagged (r + one p) s (s.icache p).inum ((s.node (s.icache p).inum).nlink + 1) t)
    (hi : (s.icache p).inum < s.sb.ninodes.toNat) (hlasts : Lasts s r (s.icache p).inum) :
    (linkBad p).wp (fun _ => True) (fun _ u => Held u r ∧ Undone r s u) t := by
  refine wp_seq (still_ilock h add_one_self_ne (.inr fun _ => trivial)) ?_
  rintro _ t₁ ⟨h₁, hst₁, -, -, hv₁⟩
  have htag₁ := ht.still hst₁
  have hinum₁ : (t₁.icache p).inum = (s.icache p).inum := htag₁.inum p add_one_self_ne
  refine wp_relink (g := (· - 1)) h₁ hv₁ fun t₂ h₂ hv₂ htag₂ => ?_
  rw [hinum₁] at htag₂
  have htag := htag₁.trans htag₂
  have hnlink : (t₁.node (s.icache p).inum).nlink - 1 = (s.node (s.icache p).inum).nlink := by
    rw [htag₁.node, update_self]
    exact UInt16.add_sub_cancel ..
  rw [hnlink] at htag
  have hundone : Undone (r + one p) s t₂ := htag.undone hi
  have hinum₂ : (t₂.icache p).inum = (s.icache p).inum := hundone.inum p add_one_self_ne
  have hlasts₂ : Lasts t₂ r (t₂.icache p).inum := by
    rw [hinum₂, Lasts, hundone.node]
    refine hlasts.imp_right fun hl => hl.imp_right ?_
    rintro ⟨q, hq, heq⟩
    exact ⟨q, hq, (hundone.inum q (add_one_ne hq)).trans heq⟩
  refine wp_seq (wp_unlockput h₂ hlasts₂) ?_
  rintro _ t₃ ⟨h₃, hst₃⟩
  refine wp_seq (still_endOp h₃) ?_
  rintro _ t₄ ⟨h₄, hst₄⟩
  have hback : Undone r s t₂ := ⟨hundone.toPins.mono fun _ => add_one_ne, hundone.dinode, hundone.node⟩
  exact ⟨h₄, hback.trans (hst₃.trans hst₄).undone⟩

/-- The part of `sys_link` that makes the new entry, for an inode that is pinned. -/
theorem Ready.wp_linkName {P : State → Prop} {inum : State → Nat} (hr : Ready s r cwd)
    (h : Held s r)
    (hbad : ∀ t, Held t r → Still r s t → (linkBad p).wp (fun _ => True) (fun x u => x = -1 → P u) t) :
    Prog.wp (do
      match ← nameiparent dev cwd path with
      | none => linkBad p
      | some (dp, name) => do
        ilock dp
        let inum ← Prog.gets inum
        let x ← dirlink dev dp name inum
        if x < 0 then do
          iunlockput dp
          linkBad p
        else do
          iunlockput dp
          iput p
          endOp
          pure 0) (fun _ => True) (fun x t => x = -1 → P t) s := by
  refine wp_seq (hr.wp_nameiparent h) fun x s₁ ⟨hst₁, hx⟩ => ?_
  cases x with
  | none => exact hbad s₁ hx.1 hst₁
  | some x =>
  obtain ⟨dp, name⟩ := x
  obtain ⟨h₁, hleads₁, htype₁, -⟩ := hx
  refine wp_seq (wp_lock h₁ hleads₁) fun _ s₂ ⟨h₂, hst₂, hv₂, hleads₂⟩ => ?_
  have htype₂ := hst₂.node_self.symm ▸ htype₁
  have hdirs₂ : Dirs s₂ := hst₂.dirs (hst₁.dirs hr.dirs)
  rw [wp_bind, wp_gets]
  refine wp_seq (wp_dirlink_fails h₂ hdirs₂ hv₂ htype₂ hleads₂ fun _ => add_one_ne) ?_
  intro x s₃ hx
  split
  next hneg =>
    obtain ⟨h₃, hst₃⟩ := hx hneg
    refine wp_seq (wp_unlockput h₃ (hst₃.lasts_self hleads₂.lasts)) fun _ s₄ ⟨h₄, hst₄⟩ => ?_
    exact hbad s₄ h₄ (hst₁.trans (hst₂.of_add.trans (hst₃.of_add.trans hst₄)))
  next =>
    refine wp_bind_any fun _ _ => wp_bind_any fun _ _ => wp_bind_any fun _ _ => ?_
    exact fun hneg => absurd hneg (by decide)

theorem Ready.wp_sysLink (hr : Ready s r cwd) (h : Held s r) {old new : Option (List UInt8)} :
    (sysLink dev cwd old new).wp (fun _ => True)
      (fun x t => x = -1 → Held t r ∧ Undone r s t) s := by
  cases old with
  | none => exact fun _ => ⟨h, Still.refl.undone⟩
  | some old =>
  cases new with
  | none => exact fun _ => ⟨h, Still.refl.undone⟩
  | some new =>
  refine wp_seq (still_beginOp h) fun _ s₁ ⟨h₁, hst₁⟩ => ?_
  refine wp_seq ((hr.still hst₁).wp_namei h₁) fun x s₂ ⟨hst₂, hx⟩ => ?_
  cases x with
  | none => exact wp_failed hx.1 (hst₁.trans hst₂)
  | some ip =>
  refine wp_seq (wp_lock hx.1 hx.2.1) fun _ s₃ ⟨h₃, hst₃, hv₃, hleads₃⟩ => ?_
  have hst : Still r s s₃ := hst₁.trans (hst₂.trans hst₃.of_add)
  rw [wp_bind, wp_gets]
  split
  · refine wp_seq (wp_unlockput h₃ hleads₃.lasts) fun _ s₄ ⟨h₄, hst₄⟩ => ?_
    exact wp_failed h₄ (hst.trans hst₄)
  refine wp_relink (g := (· + 1)) h₃ hv₃ fun s₄ h₄ hv₄ htag₄ => ?_
  refine wp_seq (still_iunlock h₄ add_one_self_ne (.inr fun _ => trivial)) ?_
  rintro _ s₅ ⟨h₅, hst₅, -⟩
  have htag₅ := htag₄.still hst₅
  refine (htag₅.ready (hr.still hst)).wp_linkName h₅ fun t ht hst' => ?_
  refine wp_imp (wp_linkBad ht (htag₅.still hst') (h₃.inum_lt add_one_self_ne)
    hleads₃.lasts) fun _ w ⟨hw, hundone⟩ _ => ⟨hw, hst.undone.trans hundone⟩

end

end Xv6.Fs
