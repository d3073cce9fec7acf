import Xv6.Fs.Trunc

/-!
# The inode cache

Pointers to cache entries are counted: `Held s r` says that the invariant holds and that entry `p`
has `r p` references. Each function of the cache is specified for the references `r` that are held
around it. Entries that these references pin keep their inode (`Keeps`), and the only files that a
function which gives a reference back can change are files without links that nothing in `r` pins,
which it frees (`Quiet`). If all files without links are in the cache (`Kept`), this stays so: the
last reference to such a file frees it.

The specifications are for calls that complete.
-/

namespace Xv6.Fs

/-- The number of references to each cache entry. -/
abbrev Refs := Ip → Nat

/-- One reference to entry `p`. -/
def one (p : Ip) : Refs := Pi.single p 1

structure Held (s : State) (r : Refs) : Prop where
  inv : FsInv s
  refs : ∀ p, (s.icache p).ref = r p

/-- Every file without links is in the cache. -/
def Kept (s : State) : Prop :=
  ∀ i, (s.node i).type ≠ 0 → (s.node i).nlink = 0 → ∃ p, Valid s p ∧ (s.icache p).inum = i

/-- The entries with references in `r` hold the same inodes as before. -/
structure Pins (r : Refs) (s t : State) : Prop where
  sb : t.sb = s.sb
  inum : ∀ p, r p ≠ 0 → (t.icache p).inum = (s.icache p).inum
  valid : ∀ p, r p ≠ 0 → (s.icache p).valid = true → (t.icache p).valid = true

/-- Besides that, no file without links was left behind. -/
structure Keeps (r : Refs) (s t : State) : Prop extends Pins r s t where
  kept : Kept s → Kept t

/-- Besides that, files were freed at most that have no links and that `r` has no reference to. -/
structure Quiet (r : Refs) (s t : State) : Prop extends Keeps r s t where
  node : ∀ i, t.node i = s.node i ∨ (t.node i).type = 0 ∧ (s.node i).type ≠ 0 ∧
    (s.node i).nlink = 0 ∧ ∀ p, r p ≠ 0 → (s.icache p).inum ≠ i

section
variable {s t u : State} {p q : Ip} {r r' : Refs}

@[simp] theorem add_one_self : (r + one p) p = r p + 1 := by
  rw [Pi.add_apply, one, Pi.single_eq_same]

theorem add_one_of_ne (h : q ≠ p) : (r + one p) q = r q := by
  rw [Pi.add_apply, one, Pi.single_eq_of_ne h, Nat.add_zero]

theorem add_one_self_ne : (r + one p) p ≠ 0 := by
  rw [add_one_self]
  exact Nat.succ_ne_zero _

theorem add_one_ne (h : r q ≠ 0) : (r + one p) q ≠ 0 := by
  rw [Pi.add_apply]
  omega

/-- Entries that were valid are so, and the other files are what they were. -/
theorem Kept.of_valid (h : Kept s)
    (hv : ∀ q, Valid s q → Valid t q ∧ (t.icache q).inum = (s.icache q).inum)
    (hnode : ∀ i, (∀ q, Valid s q → (s.icache q).inum ≠ i) → t.node i = s.node i) : Kept t := by
  intro i htype hlink
  by_cases hi : ∃ q, Valid s q ∧ (s.icache q).inum = i
  · obtain ⟨q, hq, rfl⟩ := hi
    exact ⟨q, hv q hq⟩
  · have hsame := hnode i fun q hq heq => hi ⟨q, hq, heq⟩
    rw [hsame] at htype hlink
    exact absurd (h i htype hlink) hi

theorem Pins.trans (h : Pins r s t) (h' : Pins r t u) : Pins r s u where
  sb := h'.sb.trans h.sb
  inum := fun p hp => (h'.inum p hp).trans (h.inum p hp)
  valid := fun p hp hv => h'.valid p hp (h.valid p hp hv)

theorem Pins.mono (h : Pins r s t) (hr : ∀ p, r' p ≠ 0 → r p ≠ 0) : Pins r' s t :=
  ⟨h.sb, fun p hp => h.inum p (hr p hp), fun p hp => h.valid p (hr p hp)⟩

theorem Keeps.refl : Keeps r s s := ⟨⟨rfl, fun _ _ => rfl, fun _ _ => id⟩, id⟩

theorem Keeps.trans (h : Keeps r s t) (h' : Keeps r t u) : Keeps r s u :=
  ⟨h.toPins.trans h'.toPins, fun hs => h'.kept (h.kept hs)⟩

theorem Keeps.mono (h : Keeps r s t) (hr : ∀ p, r' p ≠ 0 → r p ≠ 0) : Keeps r' s t :=
  ⟨h.toPins.mono hr, h.kept⟩

theorem Keeps.of_add (h : Keeps (r + one p) s t) : Keeps r s t := h.mono fun _ => add_one_ne

/-- A file that is in the cache was changed. -/
theorem SameTags.keeps (h : SameTags s t) (hsb : t.sb = s.sb) (hv : Valid s p)
    (hnode : ∀ i ≠ (s.icache p).inum, t.node i = s.node i) : Keeps r s t := by
  refine ⟨⟨hsb, fun q _ => by rw [h q], fun q _ hq => by rw [h q]; exact hq⟩,
    fun hs => hs.of_valid (fun q hq => ⟨h.valid.mpr hq, by rw [h q]⟩) fun i hi => ?_⟩
  exact hnode i (hi p hv).symm

theorem Keeps.quiet (h : Keeps r s t) (hn : t.node = s.node) : Quiet r s t :=
  ⟨h, fun i => .inl (congrFun hn i)⟩

theorem Quiet.trans (h : Quiet r s t) (h' : Quiet r t u) : Quiet r s u := by
  refine ⟨h.toKeeps.trans h'.toKeeps, fun i => ?_⟩
  obtain hs | ⟨ht0, hs0, hlink, hp⟩ := h.node i <;>
    obtain ht | ⟨hu0, ht0', hlink', hp'⟩ := h'.node i
  · exact .inl (ht.trans hs)
  · refine .inr ⟨hu0, hs ▸ ht0', hs ▸ hlink', fun p hr => ?_⟩
    rw [← h.inum p hr]
    exact hp' p hr
  · exact .inr ⟨ht ▸ ht0, hs0, hlink, hp⟩
  · exact absurd ht0 ht0'

theorem Quiet.mono (h : Quiet r s t) (hr : ∀ p, r' p ≠ 0 → r p ≠ 0) : Quiet r' s t where
  toKeeps := h.toKeeps.mono hr
  node := fun i => (h.node i).imp_right fun ⟨h1, h2, h3, h4⟩ =>
    ⟨h1, h2, h3, fun p hp => h4 p (hr p hp)⟩

theorem Quiet.of_add (h : Quiet (r + one p) s t) : Quiet r s t := h.mono fun _ => add_one_ne

theorem Quiet.node_held (h : Quiet r s t) (hp : r p ≠ 0) :
    t.node (t.icache p).inum = s.node (s.icache p).inum := by
  rw [h.inum p hp]
  exact (h.node _).resolve_right fun hf => hf.2.2.2 p hp rfl

theorem Held.ref_pos (h : Held s r) (hp : r p ≠ 0) : 0 < (s.icache p).ref := by
  rw [h.refs p]
  omega

theorem Held.inum_lt (h : Held s r) (hp : r p ≠ 0) : (s.icache p).inum < s.sb.ninodes.toNat :=
  h.inv.cached.inum p (h.ref_pos hp)

theorem Held.valid (h : Held s r) (hp : r p ≠ 0) (hv : (s.icache p).valid = true) : Valid s p :=
  ⟨h.ref_pos hp, hv⟩

theorem FsInv.node_of_valid (h : FsInv s) (hv : Valid s p) :
    (s.node (s.icache p).inum).type = (s.icache p).din.type ∧
    (s.node (s.icache p).inum).nlink = (s.icache p).din.nlink ∧
    (s.node (s.icache p).inum).data.length = (s.icache p).din.size.toNat := by
  rw [h.cached.synced p nofun hv, State.node, nodeOf, if_pos (h.cached.inum p hv.1)]
  exact ⟨rfl, rfl, by rw [List.length_map, List.length_range]⟩

end

/-! ## One entry changes -/

def State.setInode (s : State) (p : Ip) (ip : Inode) : State :=
  { s with icache := Function.update s.icache p ip }

section
variable {s t : State} {p q : Ip} {r : Refs} {ip : Inode} {Q : Unit → State → Prop}

theorem wp_modifyInode {E : Fault → Prop} {f : Inode → Inode} :
    (modifyInode p f).wp E Q s ↔ Q () (s.setInode p (f (s.icache p))) := by
  rw [modifyInode, wp_modify, setAt_eq_update, State.setInode]

@[simp] theorem State.setInode_self : (s.setInode p ip).icache p = ip := update_self ..

theorem State.setInode_of_ne (h : q ≠ p) : (s.setInode p ip).icache q = s.icache q :=
  update_of_ne h ..

@[simp] theorem State.node_setInode : (s.setInode p ip).node = s.node := rfl

theorem FsInv.setInode (h : FsInv s) (hinum : 0 < ip.ref → ip.inum < s.sb.ninodes.toNat)
    (hdin : 0 < ip.ref → ip.valid = true →
      ip.din = dinodeAt s.sb s.disk ip.inum ∧ ip.din.type ≠ 0)
    (huniq : 0 < ip.ref → ∀ q, q ≠ p → 0 < (s.icache q).ref → (s.icache q).inum ≠ ip.inum) :
    FsInv (s.setInode p ip) := by
  have hall : ∀ q, 0 < ((s.setInode p ip).icache q).ref →
      ((s.setInode p ip).icache q).inum < s.sb.ninodes.toNat ∧
        (((s.setInode p ip).icache q).valid = true → ((s.setInode p ip).icache q).din =
          dinodeAt s.sb s.disk ((s.setInode p ip).icache q).inum ∧
          ((s.setInode p ip).icache q).din.type ≠ 0) := by
    refine (Function.forall_update_iff s.icache fun _ ip => 0 < ip.ref →
      ip.inum < s.sb.ninodes.toNat ∧ (ip.valid = true → ip.din = dinodeAt s.sb s.disk ip.inum ∧
        ip.din.type ≠ 0)).mpr ⟨fun hpos => ⟨hinum hpos, hdin hpos⟩, fun q _ hq => ?_⟩
    exact ⟨h.cached.inum q hq, fun hv =>
      ⟨h.cached.synced q (Option.some_ne_none q) ⟨hq, hv⟩, h.cached.type q ⟨hq, hv⟩⟩⟩
  refine ⟨h.geometry, h.super, h.alloc, h.full, ⟨fun q hq => (hall q hq).1,
    fun q _ hq => ((hall q hq.1).2 hq.2).1, fun q hq => ((hall q hq.1).2 hq.2).2,
    unique_update _ h.cached.unique (fun q hqp hq => ?_) fun q hqp hpos => ?_⟩⟩
  · rwa [State.setInode_of_ne hqp] at hq
  · rw [State.setInode_self] at hpos
    exact huniq hpos q hqp

theorem FsInv.setInode_same (h : FsInv s) (hinum : ip.inum = (s.icache p).inum)
    (href : 0 < ip.ref → 0 < (s.icache p).ref)
    (hvalid : ip.valid = true → (s.icache p).valid = true) (hdin : ip.din = (s.icache p).din) :
    FsInv (s.setInode p ip) := by
  refine h.setInode (fun hpos => ?_) (fun hpos hv => ?_) fun hpos q hqp hq heq => ?_
  · rw [hinum]
    exact h.cached.inum p (href hpos)
  · have hv' : Valid s p := ⟨href hpos, hvalid hv⟩
    rw [hinum, hdin]
    exact ⟨h.cached.synced p nofun hv', h.cached.type p hv'⟩
  · exact hqp (h.cached.unique q p hq (href hpos) (heq.trans hinum))

theorem pins_setInode (hinum : r p ≠ 0 → ip.inum = (s.icache p).inum)
    (hvalid : r p ≠ 0 → (s.icache p).valid = true → ip.valid = true) :
    Pins r s (s.setInode p ip) := by
  refine ⟨rfl, fun q hq => ?_, fun q hq hv => ?_⟩
  · by_cases hqp : q = p
    · subst hqp
      rw [State.setInode_self, hinum hq]
    · rw [State.setInode_of_ne hqp]
  · by_cases hqp : q = p
    · subst hqp
      rw [State.setInode_self]
      exact hvalid hq hv
    · rw [State.setInode_of_ne hqp]
      exact hv

theorem Kept.setInode (h : Kept s)
    (hp : Valid s p → (s.node (s.icache p).inum).nlink = 0 →
      0 < ip.ref ∧ ip.valid = true ∧ ip.inum = (s.icache p).inum) : Kept (s.setInode p ip) := by
  intro i htype hlink
  obtain ⟨q, hq, rfl⟩ := h i htype hlink
  refine ⟨q, ?_⟩
  by_cases hqp : q = p
  · subst hqp
    obtain ⟨href, hvalid, hinum⟩ := hp hq hlink
    rw [Valid, State.setInode_self]
    exact ⟨⟨href, hvalid⟩, hinum⟩
  · rw [Valid, State.setInode_of_ne hqp]
    exact ⟨hq, rfl⟩

theorem keeps_setInode (hinum : 0 < (s.icache p).ref → ip.inum = (s.icache p).inum)
    (href : 0 < (s.icache p).ref → 0 < ip.ref)
    (hvalid : 0 < (s.icache p).ref → (s.icache p).valid = true → ip.valid = true)
    (hr : r p ≠ 0 → 0 < (s.icache p).ref) : Keeps r s (s.setInode p ip) :=
  ⟨pins_setInode (fun hp => hinum (hr hp)) fun hp => hvalid (hr hp),
    fun h => h.setInode fun hv _ => ⟨href hv.1, hvalid hv.1 hv.2, hinum hv.1⟩⟩

end

/-! ## Taking and giving back references -/

section
variable {s t : State} {p q : Ip} {r : Refs} {i : Nat}

theorem Held.add (h : Held s r) (hinv : FsInv (s.setInode p ip)) (href : ip.ref = r p + 1) :
    Held (s.setInode p ip) (r + one p) := by
  refine ⟨hinv, fun q => ?_⟩
  by_cases hqp : q = p
  · rw [hqp, State.setInode_self, add_one_self, href]
    rfl
  · rw [State.setInode_of_ne hqp, add_one_of_ne hqp, h.refs q]

/-- `iget` finds a place for inode `i` in entry `p`: the entry that holds it, or else one that is not
in use. -/
def Lands (s : State) (p : Ip) (i : Nat) : Prop :=
  0 < (s.icache p).ref ∧ (s.icache p).inum = i ∨
  (s.icache p).ref = 0 ∧ ∀ q, 0 < (s.icache q).ref → (s.icache q).inum ≠ i

/-- The state after `iget` has found a place in entry `p` for inode `i`. -/
def State.took (s : State) (p : Ip) (i : Nat) : State :=
  s.setInode p (if 0 < (s.icache p).ref then { s.icache p with ref := (s.icache p).ref + 1 }
    else { s.icache p with inum := i, ref := 1, valid := false })

/-- `iget` panics, for all entries of the cache are in use. -/
def CacheFull (s : State) (e : Fault) : Prop :=
  e = .panic "iget: no inodes" ∧ ∀ q, (s.icache q).ref ≠ 0

theorem wp_iget_eq {Q : Ip → State → Prop} (hQ : ∀ p, Lands s p i → Q p (s.took p i)) :
    (iget i).wp (CacheFull s) Q s := by
  simp only [iget, wp_bind, wp_gets, id]
  split
  next p hp =>
    have hp := List.find?_some hp
    simp only [decide_eq_true_eq] at hp
    rw [wp_bind, wp_modifyInode]
    have := hQ p (.inl hp)
    rwa [State.took, if_pos hp.1] at this
  next hnone =>
    have hnone : ∀ q, 0 < (s.icache q).ref → (s.icache q).inum ≠ i := fun q hq heq => by
      have := List.find?_eq_none.mp hnone q (List.mem_finRange q)
      simp only [decide_eq_true_eq, not_and] at this
      exact this hq heq
    split
    next p hp =>
      have hp := List.find?_some hp
      simp only [decide_eq_true_eq] at hp
      rw [wp_bind, wp_modifyInode]
      have := hQ p (.inr ⟨hp, hnone⟩)
      rwa [State.took, if_neg (by omega)] at this
    next hfull =>
      refine ⟨rfl, fun q hq => ?_⟩
      have := List.find?_eq_none.mp hfull q (List.mem_finRange q)
      simp only [decide_eq_true_eq] at this
      exact this hq

theorem Lands.inum (h : Lands s p i) : ((s.took p i).icache p).inum = i := by
  rw [State.took, State.setInode_self]
  split
  next hpos => exact (h.resolve_right (by omega)).2
  next => rfl

theorem Held.took (h : Held s r) (hp : Lands s p i) (hi : i < s.sb.ninodes.toNat) :
    Held (s.took p i) (r + one p) ∧ Keeps r s (s.took p i) := by
  have hrefs := h.refs p
  unfold State.took
  rcases hp with ⟨hpos, hinum⟩ | ⟨hzero, hnone⟩
  · rw [if_pos hpos]
    refine ⟨h.add (h.inv.setInode_same rfl (fun _ => hpos) id rfl) ?_,
      keeps_setInode (fun _ => rfl) (fun _ => ?_) (fun _ => id) fun _ => hpos⟩
    · rw [hrefs]
    · dsimp only
      omega
  · have hr : r p = 0 := by omega
    rw [if_neg (by omega)]
    refine ⟨h.add (h.inv.setInode (fun _ => hi) nofun fun _ q _ hq => hnone q hq) ?_,
      keeps_setInode ?_ ?_ ?_ fun h => absurd hr h⟩
    · rw [hr]
      rfl
    all_goals exact fun hpos => absurd hpos (by omega)

theorem wp_iget (h : Held s r) (hi : i < s.sb.ninodes.toNat) :
    (iget i).wp (fun _ => True) (fun p t => Held t (r + one p) ∧ Keeps r s t ∧ t.node = s.node ∧
      (t.icache p).inum = i) s :=
  wp_mono (wp_iget_eq (Q := fun p t => Held t (r + one p) ∧ Keeps r s t ∧ t.node = s.node ∧
    (t.icache p).inum = i) fun _ hp =>
      ⟨(h.took hp hi).1, (h.took hp hi).2, rfl, hp.inum⟩) (fun _ _ => trivial) fun _ _ => id

/-- The state after `ilock`. -/
def State.lock (s : State) (p : Ip) : State :=
  s.setInode p { s.icache p with
    locked := true
    valid := true
    din := if (s.icache p).valid then (s.icache p).din
      else dinodeAt s.sb s.disk (s.icache p).inum }

/-- `ilock` panics for an entry that is not in use or an inode that is free, and waits while the inode
is locked. -/
theorem wp_ilock_eq {E : Fault → Prop} {Q : Unit → State → Prop}
    (hE : (0 < (s.icache p).ref ∧ (s.icache p).locked = false ∧ ((s.icache p).valid = false →
      (dinodeAt s.sb s.disk (s.icache p).inum).type ≠ 0)) ∨ ∀ e, E e)
    (hQ : 0 < (s.icache p).ref → (s.icache p).locked = false → ((s.icache p).valid = false →
      (dinodeAt s.sb s.disk (s.icache p).inum).type ≠ 0) → Q () (s.lock p)) :
    (ilock p).wp E Q s := by
  simp only [ilock, wp_bind, wp_gets]
  split
  next hpos => exact hE.resolve_left (fun h => by have := h.1; omega) _
  next hpos =>
  replace hQ := hQ (by omega)
  split
  next hlocked => exact hE.resolve_left (fun h => by cases h.2.1.symm.trans hlocked) _
  next hlocked =>
  replace hQ := hQ (by rwa [Bool.not_eq_true] at hlocked)
  rw [wp_bind, wp_modifyInode]
  refine wp_when (fun hv => ?_) fun hv => ?_
  · simp only [iload, wp_bind, wp_gets, id, wp_modifyInode]
    refine wp_when (fun hzero => ?_) fun htype => ?_
    · rw [State.setInode_self] at hzero
      exact hE.resolve_left (fun h => h.2.2 hv hzero) _
    rw [State.setInode_self] at htype ⊢
    have := hQ fun _ => htype
    rw [State.lock, hv] at this
    simp only [State.setInode, update_idem] at this ⊢
    exact this
  · rw [Bool.not_eq_false] at hv
    have heq : s.lock p = s.setInode p { s.icache p with locked := true } := by
      simp only [State.lock, hv, if_true]
    exact heq ▸ hQ fun h => by cases hv.symm.trans h

theorem FsInv.lock (h : FsInv s) (hpos : 0 < (s.icache p).ref)
    (htype : (s.icache p).valid = false → (dinodeAt s.sb s.disk (s.icache p).inum).type ≠ 0) :
    FsInv (s.lock p) := by
  refine h.setInode (fun _ => h.cached.inum p hpos) (fun _ _ => ?_) fun _ q hqp hq heq =>
    hqp (h.cached.unique q p hq hpos heq)
  cases hv : (s.icache p).valid with
  | false => exact ⟨rfl, htype hv⟩
  | true => exact ⟨h.cached.synced p nofun ⟨hpos, hv⟩, h.cached.type p ⟨hpos, hv⟩⟩

theorem valid_lock (hpos : 0 < (s.icache p).ref) : Valid (s.lock p) p := by
  rw [Valid, State.lock, State.setInode_self]
  exact ⟨hpos, rfl⟩

theorem wp_ilock (h : Held s r) :
    (ilock p).wp (fun _ => True) (fun _ t => Held t r ∧ Keeps r s t ∧ t.node = s.node ∧
      Valid t p) s := by
  refine wp_ilock_eq (.inr fun _ => trivial) fun hpos _ htype => ⟨⟨h.inv.lock hpos htype, fun q => ?_⟩,
    keeps_setInode (fun _ => rfl) id (fun _ _ => rfl) fun _ => hpos, rfl, valid_lock hpos⟩
  rw [State.lock, ← h.refs q]
  by_cases hqp : q = p
  · rw [hqp, State.setInode_self]
  · rw [State.setInode_of_ne hqp]

theorem wp_iunlock_eq {E : Fault → Prop} {Q : Unit → State → Prop}
    (hE : ((s.icache p).locked = true ∧ 0 < (s.icache p).ref) ∨ ∀ e, E e)
    (hQ : Q () (s.setInode p { s.icache p with locked := false })) : (iunlock p).wp E Q s := by
  simp only [iunlock, wp_bind, wp_gets]
  split
  next hbad =>
    refine hE.resolve_left (fun h => ?_) _
    rcases hbad with hfalse | hpos
    · cases h.1.symm.trans hfalse
    · omega
  · rw [wp_modifyInode]
    exact hQ

theorem wp_iunlock (h : Held s r) (hp : r p ≠ 0) :
    (iunlock p).wp (fun _ => True) (fun _ t => Held t r ∧ Keeps r s t ∧ t.node = s.node) s := by
  refine wp_iunlock_eq (.inr fun _ => trivial) ⟨⟨h.inv.setInode_same rfl (fun _ => h.ref_pos hp) id rfl, fun q => ?_⟩,
    keeps_setInode (fun _ => rfl) id (fun _ => id) fun _ => h.ref_pos hp, rfl⟩
  rw [← h.refs q]
  by_cases hqp : q = p
  · rw [hqp, State.setInode_self]
  · rw [State.setInode_of_ne hqp]

theorem Held.drop (h : Held s (r + one p)) (hinv : FsInv t) (hicache : t.icache =
    update s.icache p { s.icache p with ref := (s.icache p).ref - 1, din := d, valid := v }) :
    Held t r := by
  refine ⟨hinv, fun q => ?_⟩
  have := h.refs q
  rw [hicache]
  by_cases hqp : q = p
  · subst hqp
    rw [update_self]
    rw [add_one_self] at this
    simp only
    omega
  · rw [update_of_ne hqp]
    rw [add_one_of_ne hqp] at this
    exact this

theorem wp_iput (h : Held s (r + one p)) :
    (iput p).wp (fun _ => True) (fun _ t => Held t r ∧ Quiet r s t) s := by
  have hpos := h.ref_pos add_one_self_ne
  have hrefs := h.refs p
  rw [add_one_self] at hrefs
  simp only [iput, wp_bind, wp_gets]
  refine wp_when (fun hlast => ?_) fun hlast => ?_
  · have hv : Valid s p := ⟨hpos, hlast.2.1⟩
    have hr : r p = 0 := by omega
    have hnode := h.inv.node_of_valid hv
    refine wp_imp (wp_ifree h.inv hv) fun _ t ht => ?_
    rw [wp_modifyInode]
    obtain ⟨d, hd⟩ := ht.icache
    have hent : t.icache p = { s.icache p with din := d, valid := false } := by
      rw [hd, update_self]
    have hrest : ∀ q ≠ p, ∀ ip, (t.setInode p ip).icache q = s.icache q := fun q hqp ip => by
      rw [State.setInode_of_ne hqp, hd, update_of_ne hqp]
    refine ⟨?_, ⟨⟨⟨ht.sb, fun q hq => ?_, fun q hq hvq => ?_⟩, fun hs i hi hlink => ?_⟩,
      fun i => ?_⟩⟩
    · refine h.drop (d := d) (v := false) (ht.inv.setInode_same rfl (fun _ => ?_) id rfl) ?_
      · rw [hent]
        exact hpos
      · rw [State.setInode, hent, hd]
        exact update_idem ..
    · rw [hrest q (fun heq => hq (heq ▸ hr))]
    · rw [hrest q (fun heq => hq (heq ▸ hr))]
      exact hvq
    · have hip : i ≠ (s.icache p).inum := fun heq => hi (heq ▸ ht.type)
      rw [State.node_setInode, ht.node i hip] at hi hlink
      obtain ⟨q, hq, hqi⟩ := hs i hi hlink
      have hqp : q ≠ p := fun heq => hip (by rw [← hqi, heq])
      refine ⟨q, ?_⟩
      rw [Valid, hrest q hqp]
      exact ⟨hq, hqi⟩
    · by_cases hi : i = (s.icache p).inum
      · refine .inr ⟨hi ▸ ht.type, ?_, ?_, fun q hq heq => ?_⟩
        · rw [hi, hnode.1]
          exact h.inv.cached.type p hv
        · rw [hi, hnode.2.1]
          exact hlast.2.2
        · have hqp : q = p := h.inv.cached.unique q p (h.ref_pos (add_one_ne hq)) hpos (heq.trans hi)
          exact hq (hqp ▸ hr)
      · exact .inl (ht.node i hi)
  · rw [wp_modifyInode]
    have hk : Keeps r s (s.setInode p { s.icache p with ref := (s.icache p).ref - 1 }) := by
      refine ⟨pins_setInode (fun _ => rfl) fun _ => id, fun hs => hs.setInode fun hv hlink => ?_⟩
      refine ⟨?_, hv.2, rfl⟩
      -- not the last reference, for then the file would have been freed
      rw [(h.inv.node_of_valid hv).2.1] at hlink
      have : (s.icache p).ref ≠ 1 := fun heq => hlast ⟨heq, hv.2, hlink⟩
      dsimp only
      omega
    exact ⟨h.drop (d := (s.icache p).din) (v := (s.icache p).valid)
      (h.inv.setInode_same rfl (fun _ => hpos) id rfl) rfl, hk.quiet rfl⟩

theorem wp_iunlockput (h : Held s (r + one p)) :
    (iunlockput p).wp (fun _ => True) (fun _ t => Held t r ∧ Quiet r s t) s := by
  refine wp_seq (wp_iunlock h add_one_self_ne) fun _ t ⟨ht, hk, hn⟩ => ?_
  exact wp_imp (wp_iput ht) fun _ u ⟨hu, hq⟩ => ⟨hu, (hk.quiet hn).of_add.trans hq⟩

end

/-! ## A new inode -/

/-- The state after `ialloc` has taken inode `i`. -/
def State.claim (s : State) (i : Nat) (type : UInt16) : State :=
  s.write (iblock s.sb i) ({ Dinode.zero with type }.store (s.disk (iblock s.sb i)) (i % IPB))

section
variable {s t : State} {p q : Ip} {r : Refs} {i : Nat} {d : Dinode} {type : UInt16}

theorem dinodeAt_put : dinodeAt sb (putDinode sb disk i d) =
    update (dinodeAt sb disk) i d := by
  funext j
  rw [update_apply]
  exact dinodeAt_putDinode ..

theorem slotAddr_of_empty (hd : ∀ k, d.addr k = 0) : slotAddr disk d k = 0 := by
  by_cases hk : k ≤ NDIRECT
  · rw [slotAddr_of_le hk, hd]
  · exact slotAddr_eq_zero (by omega) (hd _)

/-- A free inode gets the record `d`, which has no blocks. -/
theorem FsInv.own_put (h : FsInv s) (hi : i < s.sb.ninodes.toNat)
    (hfree : (dinodeAt s.sb s.disk i).type = 0) (hd : ∀ k, d.addr k = 0) :
    own s.sb (putDinode s.sb s.disk i d) (dinodeAt s.sb (putDinode s.sb s.disk i d)) =
      own s.sb s.disk (dinodeAt s.sb s.disk) := by
  have htable : own s.sb s.disk (dinodeAt s.sb (putDinode s.sb s.disk i d)) =
      own s.sb s.disk (dinodeAt s.sb s.disk) := by
    funext x
    rw [dinodeAt_put]
    by_cases hx : x.1 = i
    · rw [own, own, hx, update_self, slotAddr_of_empty hd, ite_self, hfree,
        if_neg fun h => h.2 rfl]
    · rw [own, own, update_of_ne hx]
  rw [← htable]
  refine own_congr (fun _ _ => rfl) fun j hj => ?_
  rw [htable] at hj ⊢
  exact update_of_ne (h.geometry.iblock_ne_data hi (h.alloc.exact.pool hj)).symm ..

theorem FsInv.put (h : FsInv s) (hi : i < s.sb.ninodes.toNat)
    (hfree : (dinodeAt s.sb s.disk i).type = 0) (hd : ∀ k, d.addr k = 0) (hsize : d.size = 0)
    (hsb : t.sb = s.sb) (hdisk : t.disk = putDinode s.sb s.disk i d)
    (hic : t.icache = s.icache) : FsInv t := by
  have hne : ∀ b, b ≠ iblock s.sb i → t.disk b = s.disk b := fun b hb => by
    rw [hdisk]
    exact update_of_ne hb ..
  have hown : own t.sb t.disk (dinodeAt t.sb t.disk) = own s.sb s.disk (dinodeAt s.sb s.disk) := by
    rw [hsb, hdisk]
    exact h.own_put hi hfree hd
  have hF : dinodeAt t.sb t.disk = update (dinodeAt s.sb s.disk) i d := by
    rw [hsb, hdisk, dinodeAt_put]
  have hbit : ∀ b, blockBit t.sb t.disk b = blockBit s.sb s.disk b := fun b => by
    rw [hsb]
    exact blockBit_congr (hne _ (h.geometry.iblock_ne_bblock hi).symm)
  refine ⟨hsb ▸ h.geometry, ?_, ⟨?_, fun b hb => ?_⟩, ?_, ⟨?_, fun q _ hq => ?_, ?_, ?_⟩⟩
  · rw [hne 1 h.geometry.one_ne_iblock, hsb]
    exact h.super
  · rw [hsb] at hown hbit ⊢
    exact h.alloc.exact.congr (congrFun hown) fun b _ => hbit b
  · rw [hsb] at hb
    exact (hbit b).trans (h.alloc.reserved b hb)
  · intro j hj hty bn hbn
    rw [hown]
    rw [hsb] at hj
    rw [hF] at hty hbn
    by_cases hji : j = i
    · rw [hji, update_self, hsize] at hbn
      exact absurd hbn (Nat.not_lt_zero _)
    · rw [update_of_ne hji] at hty hbn
      exact h.full j hj hty bn hbn
  · rw [hic, hsb]
    exact h.cached.inum
  · rw [Valid, hic] at hq
    have hsync := h.cached.synced q (Option.some_ne_none q) hq
    have hqi : (s.icache q).inum ≠ i := fun heq => h.cached.type q hq (by rw [hsync, heq, hfree])
    rw [hic, hF, update_of_ne hqi]
    exact hsync
  · simp only [Valid, hic]
    exact h.cached.type
  · rw [hic]
    exact h.cached.unique

theorem FsInv.node_put (h : FsInv s) (hi : i < s.sb.ninodes.toNat)
    (hfree : (dinodeAt s.sb s.disk i).type = 0) (hd : ∀ k, d.addr k = 0) (hsize : d.size = 0)
    (hsb : t.sb = s.sb) (hdisk : t.disk = putDinode s.sb s.disk i d) :
    t.node = update s.node i ⟨d.type, d.major, d.minor, d.nlink, []⟩ := by
  funext j
  rw [State.node, hsb, hdisk]
  by_cases hji : j = i
  · rw [hji, update_self, nodeOf, if_pos hi, dinodeAt_put, update_self, hsize]
    rfl
  · have hF : dinodeAt s.sb (putDinode s.sb s.disk i d) j = dinodeAt s.sb s.disk j := by
      rw [dinodeAt_put, update_of_ne hji]
    rw [update_of_ne hji, State.node, nodeOf, nodeOf, hF]
    split
    next hj =>
      congr 1
      refine List.map_congr_left fun x _ => ?_
      rw [fileByte, fileByte, h.own_put hi hfree hd, blockOf, blockOf]
      split
      · rfl
      next hnz =>
        rw [putDinode, update_of_ne
          (h.geometry.iblock_ne_data hi (h.alloc.exact.pool hnz)).symm]
    next => rfl

theorem addr_zero (k : Nat) : Dinode.addr { Dinode.zero with type, nlink } k = 0 := by
  rw [Dinode.addr]
  split <;> rfl

theorem State.claim_disk : (s.claim i type).disk =
    putDinode s.sb s.disk i { Dinode.zero with type } := State.write_disk

theorem State.claim_disk_of_ne (h : b ≠ iblock s.sb i) : (s.claim i type).disk b = s.disk b := by
  rw [claim_disk]
  exact update_of_ne h ..

theorem dinodeAt_claim : dinodeAt s.sb (s.claim i type).disk =
    update (dinodeAt s.sb s.disk) i { Dinode.zero with type } := by
  rw [State.claim_disk, dinodeAt_put]

theorem FsInv.claim (h : FsInv s) (hi : i < s.sb.ninodes.toNat)
    (hfree : (dinodeAt s.sb s.disk i).type = 0) : FsInv (s.claim i type) :=
  h.put hi hfree addr_zero rfl rfl State.claim_disk rfl

theorem FsInv.node_claim (h : FsInv s) (hi : i < s.sb.ninodes.toNat)
    (hfree : (dinodeAt s.sb s.disk i).type = 0) :
    (s.claim i type).node = update s.node i ⟨type, 0, 0, 0, []⟩ :=
  h.node_put hi hfree addr_zero rfl rfl State.claim_disk

theorem wp_ialloc (h : Held s r) :
    (ialloc type).wp (fun _ => True) (fun p t => ∃ i, Held t (r + one p) ∧ Pins r s t ∧
      (t.icache p).inum = i ∧ i ≠ 0 ∧ i < s.sb.ninodes.toNat ∧ (s.node i).type = 0 ∧
      t.node = update s.node i ⟨type, 0, 0, 0, []⟩) s := by
  simp only [ialloc, wp_bind, wp_gets, id]
  split
  next i hi =>
    have hfree := List.find?_some hi
    have hrange := List.mem_range'_1.mp (List.mem_of_find?_eq_some hi)
    simp only [decide_eq_true_eq] at hfree
    have hlt : i < s.sb.ninodes.toNat := by omega
    have hu : Held (s.claim i type) r := ⟨h.inv.claim hlt hfree, h.refs⟩
    rw [wp_bind]
    refine wp_logWrite (k := 0) .of_true ?_
    refine wp_imp (wp_iget hu hlt) ?_
    rintro p t ⟨ht, hk, hn, hinum⟩
    refine ⟨i, ht, ⟨hk.sb, hk.inum, hk.valid⟩, hinum, by omega, hlt, ?_, hn.trans ?_⟩
    · rw [State.node, nodeOf, if_pos hlt]
      exact hfree
    · exact h.inv.node_claim hlt hfree
  next => exact trivial

end

/-! ## Links -/

section
variable {s t : State} {p q : Ip} {r : Refs}

theorem FsInv.node_eq (h : FsInv s) (hv : Valid s p) : s.node (s.icache p).inum =
    { s.node (s.icache p).inum with
      type := (s.icache p).din.type
      major := (s.icache p).din.major
      minor := (s.icache p).din.minor
      nlink := (s.icache p).din.nlink } := by
  rw [h.cached.synced p nofun hv, State.node, nodeOf, if_pos (h.cached.inum p hv.1)]

/-- The fields of an inode that `create`, `link` and `unlink` change. -/
theorem wp_retag (h : Held s r) (hv : Valid s p) {f : Dinode → Dinode}
    {major minor nlink : UInt16}
    (hf : f (s.icache p).din = { (s.icache p).din with major, minor, nlink })
    {k : FsM α} {Q : α → State → Prop}
    (hQ : ∀ t, Held t r → Keeps r s t → Valid t p → t.node = update s.node
      (s.icache p).inum { s.node (s.icache p).inum with major, minor, nlink } →
      dinodeAt t.sb t.disk = update (dinodeAt s.sb s.disk) (s.icache p).inum
        { (s.icache p).din with major, minor, nlink } → k.wp (fun _ => True) Q t) :
    Prog.wp (do
      modifyDin p f
      iupdate p
      k) (fun _ => True) Q s := by
  rw [wp_bind, wp_modifyDin, hf, wp_bind]
  have hp := h.inv.pending hv
  generalize hd : { (s.icache p).din with major, minor, nlink } = d
  have htype : d.type = (s.icache p).din.type := by rw [← hd]
  have haddrs : d.addrs = (s.icache p).din.addrs := by rw [← hd]
  have hsize : d.size = (s.icache p).din.size := by rw [← hd]
  have hpd : Pending (s.setDin p d) p := by
    refine hp.setDin htype haddrs fun bn hbn => ?_
    rw [hsize] at hbn
    exact hp.full _ hp.working.inum (by rw [view_self]; exact hp.working.type) bn
      (by rw [view_self]; exact hbn)
  have htags : SameTags s ((s.setDin p d).flush p) := sameTags_setDin
  have hnode : ((s.setDin p d).flush p).node = update s.node
      (s.icache p).inum { s.node (s.icache p).inum with major, minor, nlink } := by
    rw [hpd.node_flush, ← h.inv.viewNode_eq hv]
    funext j
    have hi := hp.working.inum
    by_cases hj : j < s.sb.ninodes.toNat
    · have hbyte : fileByte s.sb s.disk (view (s.setDin p d) p) j = s.byte p j :=
        congrFun (byte_setDin htype haddrs) j
      rw [State.viewNode, nodeOf, State.setDin_sb, State.setDin_disk, if_pos hj, hbyte, view_setDin]
      by_cases hji : j = (s.icache p).inum
      · subst hji
        rw [update_self, update_self, ← hd, State.viewNode, nodeOf,
          if_pos hj, view_self]
        rfl
      · rw [update_of_ne hji, update_of_ne hji, State.viewNode, nodeOf, if_pos hj]
        rfl
    · have hji : j ≠ (s.icache p).inum := fun h => hj (h ▸ hi)
      rw [update_of_ne hji, State.viewNode, State.viewNode, nodeOf, nodeOf,
        State.setDin_sb, if_neg hj, if_neg hj]
  have hdin : dinodeAt s.sb ((s.setDin p d).flush p).disk =
      update (dinodeAt s.sb s.disk) (s.icache p).inum d := by
    refine (dinodeAt_flush (s := s.setDin p d)).trans ?_
    rw [view_setDin, h.inv.view_eq hv]
  refine wp_iupdate (k := 0) .of_true (hQ _ ⟨hpd.flush, fun q => ?_⟩ (htags.keeps rfl hv ?_)
    (htags.valid.mpr hv) hnode (by rw [hd]; exact hdin))
  · rw [htags q]
    exact h.refs q
  · exact fun j hj => by rw [hnode, update_of_ne hj]

/-- A new file, as `create` sets it up. -/
theorem wp_inew {type major minor : UInt16} {k : Ip → FsM α} {Q : α → State → Prop} (h : Held s r)
    (hQ : ∀ p t, Held t (r + one p) → Keeps r s t → Valid t p → (t.icache p).inum ≠ 0 →
      (s.node (t.icache p).inum).type = 0 →
      t.node = update s.node (t.icache p).inum ⟨type, major, minor, 1, []⟩ →
      (k p).wp (fun _ => True) Q t) :
    Prog.wp (do
      let p ← ialloc type
      ilock p
      modifyDin p fun d => { d with major, minor, nlink := 1 }
      iupdate p
      k p) (fun _ => True) Q s := by
  refine wp_seq (wp_ialloc h) fun p t ⟨i, ht, hpin, hinum, hi, hlt, hfree, hn⟩ => ?_
  refine wp_seq (wp_ilock ht) fun _ u ⟨hu, hk, hn', hv⟩ => ?_
  have hinum' := hk.inum p add_one_self_ne
  refine wp_retag hu hv rfl fun v hv' hk' hvv hn'' _ => ?_
  have hinum'' := hk'.inum p add_one_self_ne
  have heq : (v.icache p).inum = i := by rw [hinum'', hinum', hinum]
  have hnode : v.node = update s.node i ⟨type, major, minor, 1, []⟩ := by
    rw [hn'', hn', hn, hinum', hinum, update_self, update_idem]
  refine hQ p v hv' ⟨hpin.trans (hk.trans hk').of_add.toPins, fun hs j hj hlink => ?_⟩ hvv
    (heq ▸ hi) (heq ▸ hfree) (heq ▸ hnode)
  have hji : j ≠ i := fun h => by
    rw [hnode, h, update_self] at hlink
    exact absurd hlink (by decide : (1 : UInt16) ≠ 0)
  rw [hnode, update_of_ne hji] at hj hlink
  obtain ⟨q, hq, rfl⟩ := hs j hj hlink
  have hr : r q ≠ 0 := fun h0 => by
    have := h.refs q
    rw [h0] at this
    have := hq.1
    omega
  have hkeep := hpin.trans (hk.trans hk').of_add.toPins
  exact ⟨q, hv'.valid (add_one_ne hr) (hkeep.valid q hr hq.2), hkeep.inum q hr⟩

end

end Xv6.Fs
