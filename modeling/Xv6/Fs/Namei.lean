import Xv6.Fs.Link
import Xv6.Fs.Still

/-!
# Path names lead to inodes

`namei` and `nameiparent` in a tree of directories: what they return, and the references that they
leave in the inode cache.
-/

namespace Xv6.Fs

/-- The number of references to inode `i`. -/
def State.refs (s : State) (i : Nat) : Int :=
  ∑ p, if (s.icache p).inum = i then (s.icache p).ref else 0

/-- The cache has less than two free entries, or an inode is locked. -/
def Busy (s : State) : Prop :=
  ¬(∃ p q, p ≠ q ∧ (s.icache p).ref = 0 ∧ (s.icache q).ref = 0) ∨ ∃ p, (s.icache p).locked = true

section
variable {s t : State} {r : Refs} {p q cwd : Ip}

theorem Pins.refs_eq (hp : Pins r s t) (hs : Held s r) (ht : Held t r) : t.refs = s.refs := by
  funext i
  refine Finset.sum_congr rfl fun p _ => ?_
  rw [hs.refs p, ht.refs p]
  by_cases hr : r p = 0
  · rw [hr]
    simp
  · rw [hp.inum p hr]

theorem Pins.refs_add (hp : Pins r s t) (hs : Held s r) (ht : Held t (r + one q)) :
    t.refs = update s.refs (t.icache q).inum (s.refs (t.icache q).inum + 1) := by
  -- the references to other entries are what they were
  have hterm : ∀ i p, (if (t.icache p).inum = i then (t.icache p).ref else 0) =
      (if (s.icache p).inum = i then (s.icache p).ref else 0) +
        if p = q then if (t.icache q).inum = i then 1 else 0 else 0 := by
    intro i p
    rw [hs.refs p, ht.refs p]
    by_cases hpq : p = q
    · subst hpq
      rw [add_one_self]
      by_cases hr : r p = 0
      · rw [hr]
        simp
      · rw [hp.inum p hr]
        split <;> simp
    · rw [add_one_of_ne hpq, if_neg hpq, add_zero]
      by_cases hr : r p = 0
      · rw [hr]
        simp
      · rw [hp.inum p hr]
  funext i
  have hsum : t.refs i = s.refs i + if (t.icache q).inum = i then 1 else 0 := by
    rw [State.refs, Finset.sum_congr rfl fun p _ => hterm i p, Finset.sum_add_distrib,
      Finset.sum_ite_eq' Finset.univ q, if_pos (Finset.mem_univ q)]
    rfl
  rw [hsum, update_apply]
  by_cases hi : i = (t.icache q).inum
  · rw [if_pos hi, if_pos hi.symm, hi]
  · rw [if_neg hi, if_neg (Ne.symm hi), add_zero]

theorem Held.walk_room (h : Held s r) (hb : ¬Busy s) :
    TwoFree r ∧ ∀ p, s.locks p = false := by
  rw [Busy, not_or, not_not, not_exists] at hb
  obtain ⟨⟨p, q, hne, hp, hq⟩, hlocks⟩ := hb
  refine ⟨⟨p, q, hne, ?_, ?_⟩, fun p => Bool.eq_false_iff.mpr (hlocks p)⟩
  · have := h.refs p
    omega
  · have := h.refs q
    omega

/-- **Path names.** In a tree of directories `namei` and `nameiparent` return, unless the inode cache
has less than two free entries or an inode is locked, and leave the disk as it is. From the root, if
the path starts with a slash, or else from the current directory, `namei` looks the names in the path
up, one after the other, and fails as soon as one is looked up in a file that is not a directory or is
not there; `nameiparent` does so for all names but the last one, which it returns, and fails if there
is no name or the others do not lead to a directory. On success there is one more reference, to the
inode that is returned; on failure there are as many references to each inode as before. -/
theorem namei_follows (dev : DevSw) (path : List UInt8) (h : Held s r) (hT : Tree s r)
    (hcwd : r cwd ≠ 0)
    (htype : (s.node (s.icache cwd).inum).type ≠ 0) :
    (namei dev cwd path).wp (fun _ => Busy s) (fun x t => t.disk = s.disk ∧
      match x with
      | none => follow s.node (s.startOf cwd path) (components path) = none ∧ t.refs = s.refs
      | some q =>
        follow s.node (s.startOf cwd path) (components path) = some (t.icache q).inum ∧
        t.refs = Function.update s.refs (t.icache q).inum (s.refs (t.icache q).inum + 1)) s ∧
    (nameiparent dev cwd path).wp (fun _ => Busy s) (fun x t => t.disk = s.disk ∧
      match x with
      | none => followParent s.node (s.startOf cwd path) (components path) = none ∧
        t.refs = s.refs
      | some (q, name) =>
        followParent s.node (s.startOf cwd path) (components path) =
          some ((t.icache q).inum, name) ∧
        t.refs = Function.update s.refs (t.icache q).inum (s.refs (t.icache q).inum + 1)) s := by
  have hsafe : Safe s r (s.startOf cwd path) := by
    rw [State.startOf]
    split
    · exact hT.safe_root
    · exact ⟨htype, .inr ⟨cwd, hcwd, rfl⟩⟩
  have hE : (TwoFree r ∧ (∀ p, s.locks p = false) ∧ Typed s (s.startOf cwd path)) ∨
      ∀ _ : Fault, Busy s := by
    by_cases hb : Busy s
    · exact .inr fun _ => hb
    · obtain ⟨hfree, hlocks⟩ := h.walk_room hb
      exact .inl ⟨hfree, hlocks, hT.typed hsafe⟩
  have hwalk : ∀ npar, (namex dev cwd path npar).wp (fun _ => Busy s)
      (Walks r npar (resolve s.node (s.icache cwd).inum path npar) s) s :=
    fun npar => still_namex h hT.toDirs hcwd (hT.leads hsafe) hE
  constructor
  · have hfollow : (resolve s.node (s.icache cwd).inum path false).map Prod.fst =
        follow s.node (s.startOf cwd path) (components path) :=
      walk_eq_follow (Nat.lt_succ_self _)
    rw [namei, wp_bind]
    refine wp_imp (hwalk _) fun x t ⟨hst, _, hx⟩ => ⟨hst.disk, ?_⟩
    cases x with
    | none =>
      obtain ⟨ht, hnone⟩ := hx
      exact ⟨by rw [← hfollow, hnone]; rfl, hst.refs_eq h ht⟩
    | some x =>
      obtain ⟨ht, hsome, -⟩ := hx
      exact ⟨by rw [← hfollow, hsome]; rfl, hst.refs_add h ht⟩
  · have hparent : resolve s.node (s.icache cwd).inum path true =
        followParent s.node (s.startOf cwd path) (components path) :=
      walk_eq_followParent (Nat.lt_succ_self _)
    refine wp_imp (hwalk _) fun x t ⟨hst, _, hx⟩ => ⟨hst.disk, ?_⟩
    cases x with
    | none =>
      obtain ⟨ht, hnone⟩ := hx
      exact ⟨hparent ▸ hnone, hst.refs_eq h ht⟩
    | some x =>
      obtain ⟨ht, hsome, -⟩ := hx
      exact ⟨hparent ▸ hsome, hst.refs_add h ht⟩

end

/-! ## A root directory and a file -/

namespace OneName

def sb : Superblock := ⟨64, 60, 3, 30, 0, 2, 3⟩

def din : Dinode := { Dinode.zero with type := T_DIR, nlink := 1 }

/-- The super block, the inodes of an empty directory and an empty file, the free map, and data
blocks. -/
def disk : Disk := fun b =>
  if b = 1 then Bytes.zero.setWords32 0 [64, 60, 3, 30, 0, 2, 3]
  else if b = 2 then OneFile.din.store (din.store Bytes.zero 1) 2
  else if b = 3 then Bytes.zero.blit 0 [15]
  else Bytes.zero

def ip : Ip := ⟨0, NINODE_pos⟩

/-- The directory is in the first entry of the cache, in a transaction. -/
def state : State := State.only {
  disk
  sb
  icache := fun _ => ⟨1, 1, false, true, din⟩
  logSize := 30
  outstanding := 1
  lh := []
  committed := [] } ip

theorem dinodeAt_one : dinodeAt sb disk 1 = din := by
  have hdisk : disk 2 = OneFile.din.store (din.store Bytes.zero 1) 2 :=
    (if_neg (by decide)).trans (if_pos rfl)
  rw [dinodeAt, show iblock sb 1 = 2 from rfl, hdisk, Dinode.load_store_ne (by decide)]
  exact Dinode.load_store (by decide)

theorem held : Held state (one ip) := by
  refine ⟨.of_empty ⟨by decide, by decide, by decide, by decide, by decide, by decide⟩
    (by decide +kernel) (by decide +kernel) (by decide +kernel)
    (cachedBut_only (by decide) fun _ => ⟨dinodeAt_one.symm, by decide⟩), fun p => ?_⟩
  by_cases hp : p = ip
  · subst hp
    decide
  · rw [show (state.icache p).ref = 0 from congrArg Inode.ref (State.others_of_ne hp), one,
      Pi.single_eq_of_ne hp]
    rfl

theorem data_dir {i : Nat} (h : (state.node i).type = T_DIR) : i = 1 ∧ (state.node i).data = [] := by
  have hsmall : ∀ i < 3, (state.node i).type = T_DIR → i = 1 ∧ (state.node i).data = [] := by
    decide +kernel
  by_cases hi : i < 3
  · exact hsmall i hi h
  · have hfree : state.node i = .free := if_neg hi
    rw [hfree] at h
    exact absurd h (by decide)

theorem good : Good state (one ip) := by
  refine ⟨held, by decide, fun i hi => ?_, fun i hi k name inum hk => ?_⟩
  · rw [(data_dir hi).2]
    rfl
  · rw [State.slots, (data_dir hi).2] at hk
    cases hk

theorem tree : Tree state (one ip) := by
  refine ⟨good.dirs, ⟨by decide +kernel, .inl (by decide +kernel)⟩, fun i hi k name inum hk => ?_⟩
  rw [State.slots, (data_dir hi).2] at hk
  cases hk

theorem not_busy {s : State} (h : Held s (one ip)) (hlocks : ∀ p, (s.icache p).locked = false) :
    ¬Busy s := by
  have hfree : ∀ p, p ≠ ip → (s.icache p).ref = 0 := fun p hp => by
    rw [h.refs p, one, Pi.single_eq_of_ne hp]
    rfl
  rintro (hnone | ⟨p, hp⟩)
  · exact hnone ⟨⟨1, by decide⟩, ⟨2, by decide⟩, by decide, hfree _ (by decide), hfree _ (by decide)⟩
  · rw [hlocks p] at hp
    cases hp

theorem named {x : Int} {t : State} (h : dirlink OneFile.noDev ip [102] 2 state = .ok (x, t)) :
    Held t (one ip) ∧ Tree t (one ip) ∧ (t.node (t.icache ip).inum).type = T_DIR ∧
      follow t.node (t.icache ip).inum [[102]] = some 2 := by
  obtain ⟨-, ht, hk, hn⟩ := wp_ok
    (held_dirlink good (by decide) (by decide +kernel) (by decide +kernel)) h
  have hinum : (t.icache ip).inum = 1 := hk.inum ip (by decide)
  replace hn : t.node = update state.node 1 ((state.node 1).addEntry [102] 2) := hn
  have hroot : t.node 1 = (state.node 1).addEntry [102] 2 := by rw [hn, update_self]
  have hfile : t.node 2 = state.node 2 := by rw [hn, update_of_ne (by decide)]
  have hslots : t.slots 1 = [some ([102], 2)] := by
    rw [State.slots, hroot]
    decide +kernel
  have hdir : ∀ i, (t.node i).type = T_DIR → i = 1 := fun i hi => by
    by_contra hne
    rw [hn, update_of_ne hne] at hi
    exact hne (data_dir hi).1
  have hentry : ∀ i, (t.node i).type = T_DIR → ∀ (k : Nat) name inum,
      (t.slots i)[k]? = some (some (name, inum)) → inum = 2 := by
    intro i hi k name inum hk
    rw [hdir i hi, hslots] at hk
    cases k with
    | zero =>
      cases hk
      rfl
    | succ k => cases hk
  have hsafe : Safe t (one ip) ROOTINO := by
    rw [Safe, show ROOTINO = 1 from rfl, hroot]
    exact ⟨by decide +kernel, .inl (by decide +kernel)⟩
  have htype : (t.node 1).type = T_DIR := by
    rw [hroot]
    decide +kernel
  refine ⟨ht, ⟨⟨hk.sb ▸ (by decide), fun i hi => ?_, fun i hi k name inum hk' => ?_⟩, hsafe,
    fun i hi k name inum hk' => ?_⟩, ?_, ?_⟩
  · rw [hdir i hi, hroot]
    decide +kernel
  · rw [hentry i hi k name inum hk', hk.sb]
    decide
  · rw [hentry i hi k name inum hk', Safe, hfile]
    exact ⟨by decide +kernel, .inl (by decide +kernel)⟩
  · rw [hinum]
    exact htype
  · have hlookup : (t.node 1).lookup [102] = some 2 := by
      rw [Node.lookup, show dirSlots (t.node 1).data = [some ([102], 2)] from hslots]
      rfl
    rw [hinum, follow_cons, lookupIn, if_pos htype, hlookup]
    rfl

end OneName

/-- The path `/` leads to the root. -/
theorem namei_root : ¬Busy OneName.state ∧ ∃ q t,
    namei OneFile.noDev OneName.ip [slash] OneName.state = .ok (some q, t) ∧
    (t.icache q).inum = ROOTINO ∧ t.refs ROOTINO = OneName.state.refs ROOTINO + 1 := by
  have hbusy : ¬Busy OneName.state := OneName.not_busy OneName.held (by decide)
  have hroot := (namei_follows OneFile.noDev [slash] OneName.held OneName.tree
    (by decide : one OneName.ip OneName.ip ≠ 0) (by decide +kernel)).1
  unfold Prog.wp at hroot
  split at hroot
  next x t hx =>
    obtain ⟨-, hroot⟩ := hroot
    have hfollow : follow OneName.state.node (OneName.state.startOf OneName.ip [slash])
        (components [slash]) = some ROOTINO := rfl
    cases x with
    | none =>
      rw [hfollow] at hroot
      cases hroot.1
    | some q =>
      obtain ⟨hq, hrefs⟩ := hroot
      rw [hfollow, Option.some_inj] at hq
      refine ⟨hbusy, q, t, hx, hq.symm, ?_⟩
      rw [hrefs, ← hq, update_self]
  next => exact absurd hroot hbusy

/-- With a name in a file that is not a directory, `nameiparent` fails. -/
theorem nameiparent_not_dir : ∃ s r cwd path name d t,
    Held s r ∧ Tree s r ∧ r cwd ≠ 0 ∧ (s.node (s.icache cwd).inum).type = T_DIR ∧ ¬Busy s ∧
    (components path).getLast? = some name ∧
    follow s.node (s.startOf cwd path) (components path).dropLast = some d ∧
    nameiparent OneFile.noDev cwd path s = .ok (none, t) := by
  obtain ⟨⟨_, s⟩, hs, hlocks, ⟨_, t⟩, ht, rfl⟩ : ∃ x,
      dirlink OneFile.noDev OneName.ip [102] 2 OneName.state = .ok x ∧
      (∀ p, (x.2.icache p).locked = false) ∧
      ∃ y, nameiparent OneFile.noDev OneName.ip [102, slash, 120] x.2 = .ok y ∧ y.1 = none := by
    decide +kernel
  obtain ⟨hheld, htree, htype, hfollow⟩ := OneName.named hs
  exact ⟨s, one OneName.ip, OneName.ip, [102, slash, 120], [120], 2, t, hheld, htree, by decide,
    htype, OneName.not_busy hheld hlocks, rfl, hfollow, ht⟩

end Xv6.Fs
