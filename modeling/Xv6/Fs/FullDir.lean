import Xv6.Fs.Faults
import Xv6.Fs.Undo

/-!
# Full directories

`dirlink` writes a new entry into the first free slot, or behind the last one. In a directory of the
largest size without a free slot `writei` refuses the entry, and `dirlink` panics. In all other
directories it does not, and neither do the calls that add a name.

A call stops for some other reason, or the directory is full (`FaultOr`); it returns only if the
directory is not full.
-/

namespace Xv6.Fs

open Prog (StopsIn)

/-- A directory that takes no further entry. -/
def Node.Full (nd : Node) : Prop := nd.data.length = MAXFILE * BSIZE ∧ none ∉ dirSlots nd.data

instance (nd : Node) : Decidable nd.Full := inferInstanceAs (Decidable (_ ∧ _))

/-- The path is that of a new name in directory `d`. -/
def NewIn (s : State) (cwd : Ip) (path : List UInt8) (d : Nat) : Prop :=
  ∃ name, followParent s.node (s.startOf cwd path) (components path) = some (d, name) ∧
    (s.node d).lookup name = none

def FaultOr (C : Prop) (e : Fault) : Prop := OtherFault e ∨ C

section
variable {dev : DevSw} {s t : State} {r : Refs} {p q cwd : Ip} {C D : Prop}
variable {d i inum : Nat} {path name : List UInt8}

theorem wp_or {α : Type} {x : FsM α} {Q : α → State → Prop} (h : StopsIn OtherFault x)
    (hx : x.wp (fun _ => True) Q s) : x.wp (FaultOr C) Q s :=
  wp_mono (h.wp hx) (fun _ => .inl) fun _ _ => id

/-- What does not depend on the state holds after any step. -/
theorem wp_or_const {α : Type} {x : FsM α} (h : StopsIn OtherFault x) (hD : D) :
    x.wp (FaultOr C) (fun _ _ => D) s :=
  wp_mono (h s) (fun _ => .inl) fun _ _ _ => hD

theorem newName_iff : NewName s cwd path ↔ ∃ d, NewIn s cwd path d := Iff.rfl

theorem Still.newIn (h : Still r s t) (hcwd : r cwd ≠ 0) :
    NewIn t cwd path d ↔ NewIn s cwd path d := by
  rw [NewIn, NewIn, h.node, State.startOf, State.startOf, h.inum cwd hcwd]

/-! ## `dirlink` -/

theorem Held.openDir (h : Held s r) (hv : Valid s p) (hinum : (s.icache p).inum = i)
    (htype : (s.node i).type = T_DIR) (hsize : (s.node i).data.length % Dirent.size = 0) :
    OpenDir s p i := by
  refine ⟨h.inv.only hv, hv, hinum, ?_, hsize⟩
  rw [← (h.inv.node_of_valid hv).1, hinum]
  exact htype

theorem OpenDir.full_iff (h : OpenDir s p i) :
    (s.node i).Full ↔ MAXFILE * BSIZE < Dirent.size * (s.slots i).free + Dirent.size := by
  have hlen := h.length_slots
  have hle := h.length_le
  have hsize : Dirent.size = 16 := rfl
  have hmax : MAXFILE * BSIZE = 16 * 4480 := rfl
  have hfree : none ∉ s.slots i ↔ (s.slots i).free = (s.slots i).length := by
    rw [Slots.free, List.findIdx_eq_length]
    constructor
    · intro hnone x hx
      cases x with
      | none => exact absurd hx hnone
      | some x => rfl
    · exact fun hall hnone => absurd (hall none hnone) (by decide)
  rw [Node.Full, ← State.slots, hfree]
  rw [hsize] at hlen ⊢
  rw [hmax] at hle ⊢
  have hfle : (s.slots i).free ≤ (s.slots i).length := Slots.free_le
  omega

/-- The slot of the entry that `dirlink` writes. -/
def newSlot (name : List UInt8) (inum : Nat) : Option (List UInt8 × Nat) :=
  Dirent.slot ⟨UInt16.ofNat inum, strncpy name DIRSIZ⟩

theorem OpenDir.wp_dirlink_or (h : OpenDir s p i) (hfind : (s.node i).lookup name = none) :
    (dirlink dev p name inum).wp (FaultOr (s.node i).Full) (fun x t => ¬(s.node i).Full ∧ x = 0 ∧
      Stored p i (s.slots i).free (newSlot name inum) s t) s := by
  refine h.wp_dirlink_new hfind (wp_mono (h.wp_writei Slots.free_le
    (Dirent.length_store length_strncpy)) (fun e he => .inl ?_) fun x t ht => ?_)
  · rcases he with ⟨rfl, -⟩ | ⟨rfl, -⟩ | ⟨rfl, -⟩ <;> decide
  · split at ht
    next hfull =>
      rw [ht.1, if_pos (by decide)]
      exact .inr (h.full_iff.mpr hfull)
    next hfull =>
      obtain ⟨rfl, hst⟩ := ht
      rw [Dirent.load_store length_strncpy] at hst
      rw [if_neg (not_not_intro rfl)]
      exact ⟨fun hs => hfull (h.full_iff.mp hs), rfl, hst⟩

theorem OpenDir.wp_dirlink_held (hdir : OpenDir s p i) (h : Held s r)
    (hfind : (s.node i).lookup name = none) :
    (dirlink dev p name inum).wp (FaultOr (s.node i).Full) (fun x t => ¬(s.node i).Full ∧ x = 0 ∧
      Held t r ∧ Keeps r s t ∧ Stored p i (s.slots i).free (newSlot name inum) s t) s := by
  obtain rfl := hdir.inum
  refine wp_imp (wp_also (hdir.wp_dirlink_or hfind) (hdir.held_dirlink h hfind)) ?_
  rintro x t ⟨⟨hfull, hx, hst⟩, -, ht, hk, -⟩
  exact ⟨hfull, hx, ht, hk, hst⟩

/-! ## `create` -/

theorem wp_retag_or (h : Held s r) (hv : Valid s p) {f : Dinode → Dinode}
    {major minor nlink : UInt16}
    (hf : f (s.icache p).din = { (s.icache p).din with major, minor, nlink })
    {k : FsM α} {Q : α → State → Prop}
    (hQ : ∀ t, Held t r → Keeps r s t → t.node = update s.node
      (s.icache p).inum { s.node (s.icache p).inum with major, minor, nlink } →
      k.wp (FaultOr C) Q t) :
    Prog.wp (do
      modifyDin p f
      iupdate p
      k) (FaultOr C) Q s := by
  have hretag := wp_retag h hv hf (k := pure ()) (Q := fun _ t => k.wp (FaultOr C) Q t)
    fun t ht hk _ hn _ => hQ t ht hk hn
  rw [wp_bind] at hretag ⊢
  refine wp_or stopsIn_modifyDin (wp_imp hretag fun _ u hu => ?_)
  rw [wp_bind] at hu ⊢
  exact wp_or stopsIn_iupdate hu

theorem wp_inew_or {type major minor : UInt16} {k : Ip → FsM α} {Q : α → State → Prop}
    (h : Held s r)
    (hQ : ∀ p t, Held t (r + one p) → Keeps r s t → Valid t p → (s.node (t.icache p).inum).type = 0 →
      t.node = update s.node (t.icache p).inum ⟨type, major, minor, 1, []⟩ →
      (k p).wp (FaultOr C) Q t) :
    Prog.wp (do
      let p ← ialloc type
      ilock p
      modifyDin p fun d => { d with major, minor, nlink := 1 }
      iupdate p
      k p) (FaultOr C) Q s := by
  have hinew : Prog.wp (do
      let p ← ialloc type
      ilock p
      modifyDin p fun d => { d with major, minor, nlink := 1 }
      iupdate p
      pure p) (fun _ => True) (fun p t => (k p).wp (FaultOr C) Q t) s :=
    wp_inew h fun p t ht hk hv _ hfree hn => hQ p t ht hk hv hfree hn
  rw [wp_bind] at hinew ⊢
  refine wp_or stopsIn_ialloc (wp_imp hinew fun p u hu => ?_)
  rw [wp_bind] at hu ⊢
  refine wp_or stopsIn_ilock (wp_imp hu fun _ v hv => ?_)
  rw [wp_bind] at hv ⊢
  refine wp_or stopsIn_modifyDin (wp_imp hv fun _ w hw => ?_)
  rw [wp_bind] at hw ⊢
  exact wp_or stopsIn_iupdate hw

theorem OpenDir.keep (hdir : OpenDir s p i) (ht : Held t r) (hk : Keeps r s t) (hp : r p ≠ 0)
    (htype : (t.node i).type = (s.node i).type) (hdata : (t.node i).data = (s.node i).data) :
    OpenDir t p i := by
  have hinum : (t.icache p).inum = i := (hk.inum p hp).trans hdir.inum
  have hnode : (s.node i).type = T_DIR := by
    have := (hdir.inv.node_of_valid (valid_only.mpr hdir.valid)).1
    rw [State.only_self, hdir.inum] at this
    exact this.trans hdir.type
  refine ht.openDir (ht.valid hp (hk.valid p hp hdir.valid.2)) hinum (htype.trans hnode) ?_
  rw [hdata]
  exact hdir.size

theorem not_full_of_length {nd : Node} (h : nd.data.length ≤ Dirent.size) : ¬nd.Full := by
  rintro ⟨hlen, -⟩
  have : Dirent.size < MAXFILE * BSIZE := by decide
  omega

/-- The name `".."` is not that of the entry `"."`. -/
theorem find_dotdot (inum : Nat) : Slots.find [newSlot dot inum] (cname dotdot) = none := by
  have hholds : Slots.holds (cname dotdot) (newSlot dot inum) = false := by
    rw [newSlot, holds_slot]
    exact decide_eq_false fun h => absurd h.2 (by decide : namecmp dotdot (strncpy dot DIRSIZ) ≠ 0)
  rw [Slots.find, List.find?_cons_of_neg (by rw [hholds]; decide)]
  rfl

theorem wp_createDots (h : Held s r) (hp : r p ≠ 0) (hq : r q ≠ 0) (hd : OpenDir s p d)
    (hi : OpenDir s q i) (hne : i ≠ d) (hempty : (s.node i).data = []) :
    (createDots dev p q).wp (FaultOr C)
      (fun _ t => Held t r ∧ Keeps r s t ∧ OpenDir t p d ∧ (t.node d).data = (s.node d).data) s := by
  have hle : ∀ (x : Node) {e : Fault}, x.data.length ≤ Dirent.size → FaultOr x.Full e →
      FaultOr C e := fun x e hlen he => .inl (he.resolve_right (not_full_of_length hlen))
  refine wp_retag_or h hd.valid rfl fun t ht hk hn => ?_
  rw [hd.inum] at hn
  have hnode : t.node i = s.node i := by rw [hn, update_of_ne hne]
  have hdnode : (t.node d).type = (s.node d).type ∧ (t.node d).data = (s.node d).data := by
    rw [hn, update_self]
    exact ⟨rfl, rfl⟩
  have hit : OpenDir t q i := hi.keep ht hk hq (by rw [hnode]) (by rw [hnode])
  have hemptyt : (t.node i).data = [] := by rw [hnode, hempty]
  have hslots : t.slots i = [] := by
    rw [State.slots, hemptyt]
    rfl
  rw [wp_bind, wp_gets, wp_bind]
  refine wp_mono (hit.wp_dirlink_held ht ?_) (fun e => hle (t.node i) ?_) ?_
  · rw [Node.lookup, hemptyt]
    rfl
  · rw [hemptyt]
    exact Nat.zero_le _
  rintro x u ⟨-, rfl, hu, hk', hst⟩
  rw [if_neg (by decide), wp_bind, wp_gets, wp_bind]
  have hslotsu : u.slots i = [newSlot dot (t.icache q).inum] := by
    rw [hst.slots, hslots]
    rfl
  have hlenu : (u.node i).data.length ≤ Dirent.size := by
    rw [← hst.dir.length_slots, hslotsu]
    exact Nat.le_refl _
  refine wp_mono (hst.dir.wp_dirlink_held hu ?_) (fun e => hle (u.node i) hlenu) ?_
  · change (u.slots i).find _ = none
    rw [hslotsu]
    exact find_dotdot _
  rintro x v ⟨-, rfl, hv, hk'', hst'⟩
  refine wp_when (fun hneg => absurd hneg (by decide)) fun _ => ?_
  have hkeep : Keeps r s v := hk.trans (hk'.trans hk'')
  have hvd : (v.node d).type = (s.node d).type ∧ (v.node d).data = (s.node d).data := by
    rw [hst'.node d hne.symm, hst.node d hne.symm]
    exact hdnode
  exact ⟨hv, hkeep, hd.keep hv hkeep hp hvd.1 hvd.2, hvd.2⟩

/-- `create` sets up the new inode, and then gives it a name in the directory. -/
theorem wp_create_or {type major minor : UInt16} (h : Held s (r + one p)) (hd : OpenDir s p d)
    (hnone : (s.node d).lookup name = none) :
    Prog.wp (do
      let ip ← ialloc type
      ilock ip
      modifyDin ip fun d => { d with major, minor, nlink := 1 }
      iupdate ip
      Prog.when (type = T_DIR) (createDots dev p ip)
      let inum ← Prog.gets fun s => (s.icache ip).inum
      let x ← dirlink dev p name inum
      if x < 0 then panic "create: dirlink"
      else do
        iunlockput p
        pure (some ip)) (FaultOr (s.node d).Full) (fun _ _ => ¬(s.node d).Full) s := by
  have hp : ∀ q, (r + one p + one q) p ≠ 0 := fun q => add_one_ne add_one_self_ne
  have hdtype : (s.node d).type = T_DIR := by
    have := (h.inv.node_of_valid hd.valid).1
    rw [hd.inum] at this
    exact this.trans hd.type
  refine wp_inew_or h fun ip t ht hk hvip hfree hn => ?_
  have hne : (t.icache ip).inum ≠ d := by
    intro heq
    rw [heq, hdtype] at hfree
    exact absurd hfree (by decide)
  have hnode : t.node d = s.node d := by rw [hn, update_of_ne hne.symm]
  have hdt : OpenDir t p d := by
    have hinum : (t.icache p).inum = d := (hk.inum p add_one_self_ne).trans hd.inum
    refine ht.openDir (ht.valid (hp ip) (hk.valid p add_one_self_ne hd.valid.2)) hinum ?_ ?_
    · rw [hnode]
      exact hdtype
    · rw [hnode]
      exact hd.size
  -- what is left to do once the inode is set up
  have hlink : ∀ u, OpenDir u p d → (u.node d).data = (s.node d).data →
      Prog.wp (do
        let inum ← Prog.gets fun s => (s.icache ip).inum
        let x ← dirlink dev p name inum
        if x < 0 then panic "create: dirlink"
        else do
          iunlockput p
          pure (some ip)) (FaultOr (s.node d).Full) (fun _ _ => ¬(s.node d).Full) u := by
    intro u hu hdata
    have hfull : (u.node d).Full ↔ (s.node d).Full := by rw [Node.Full, hdata, Node.Full]
    rw [wp_bind, wp_gets, wp_bind]
    refine wp_mono (hu.wp_dirlink_or ?_) (fun e he => he.imp_right hfull.mp) ?_
    · rw [Node.lookup, hdata]
      exact hnone
    rintro x v ⟨hnot, rfl, -⟩
    rw [if_neg (by decide), wp_bind]
    exact wp_or_const stopsIn_iunlockput fun hs => hnot (hfull.mpr hs)
  rw [wp_bind]
  refine wp_when (fun hdir => ?_) fun _ => hlink t hdt (by rw [hnode])
  have hi : OpenDir t ip (t.icache ip).inum := by
    refine ht.openDir hvip rfl ?_ ?_
    · rw [hn, update_self]
      exact hdir
    · rw [hn, update_self]
      rfl
  refine wp_imp (wp_createDots ht (hp ip) add_one_self_ne hdt hi hne ?_) ?_
  · rw [hn, update_self]
  · rintro _ u ⟨-, -, hu, hdata⟩
    exact hlink u hu (by rw [hdata, hnode])

/-- The directory of the new name is locked, and the name looked up in it. -/
theorem Ready.wp_create_full (hr : Ready s r cwd) (h : Held s r) (hnew : NewIn s cwd path d)
    {type major minor : UInt16} : (create dev cwd path type major minor).wp
      (FaultOr (s.node d).Full) (fun _ _ => ¬(s.node d).Full) s := by
  obtain ⟨name, hfollow, hnone⟩ := hnew
  refine wp_seq (wp_or stopsIn_nameiparent (hr.wp_nameiparent h)) ?_
  rintro x s₁ ⟨hst₁, hx⟩
  cases x with
  | none =>
    rw [hfollow] at hx
    cases hx.2
  | some x =>
  obtain ⟨dp, name'⟩ := x
  obtain ⟨h₁, hleads₁, htype₁, hfollow₁⟩ := hx
  rw [hfollow] at hfollow₁
  cases hfollow₁
  refine wp_seq (wp_or stopsIn_ilock (wp_lock h₁ hleads₁)) ?_
  rintro _ s₂ ⟨h₂, hst₂, hv₂, hleads₂⟩
  have hinum₂ : (s₂.icache dp).inum = (s₁.icache dp).inum := hst₂.inum dp add_one_self_ne
  have hnode₂ : s₂.node = s.node := hst₂.node.trans hst₁.node
  have htype₂ : (s₂.node (s₂.icache dp).inum).type = T_DIR := by
    rw [hst₂.node, hinum₂]
    exact htype₁
  have hdirs₂ : Dirs s₂ := hst₂.dirs (hst₁.dirs hr.dirs)
  refine wp_seq (wp_or stopsIn_dirlookup
    (wp_lookup h₂ hdirs₂ hv₂ htype₂ hleads₂ fun _ => add_one_ne)) ?_
  rintro y s₃ ⟨hst₃, hy⟩
  cases y with
  | some y =>
    refine absurd ?_ hy.2.2
    rw [hnode₂, hinum₂]
    exact hnone
  | none =>
    have hinum₃ : (s₃.icache dp).inum = (s₁.icache dp).inum :=
      (hst₃.inum dp add_one_self_ne).trans hinum₂
    have hnode₃ : s₃.node = s.node := hst₃.node.trans hnode₂
    have hgood : Good s₃ (r + one dp) := ⟨hy.1, hst₃.dirs hdirs₂⟩
    have hv₃ : Valid s₃ dp := hy.1.valid add_one_self_ne (hst₃.valid dp add_one_self_ne hv₂.2)
    have hdir₃ : OpenDir s₃ dp (s₁.icache dp).inum := by
      rw [← hinum₃]
      refine hgood.openDir hv₃ ?_
      rw [hnode₃, hinum₃, ← hnode₂, ← hinum₂]
      exact htype₂
    rw [← hnode₃] at hnone ⊢
    exact wp_create_or hy.1 hdir₃ hnone

theorem Ready.wp_sysMake_full (hr : Ready s r cwd) (h : Held s r) (hnew : NewIn s cwd path d)
    {type major minor : UInt16} : (sysMake dev cwd (some path) type major minor).wp
      (FaultOr (s.node d).Full) (fun _ _ => ¬(s.node d).Full) s := by
  refine wp_seq (wp_or stopsIn_beginOp (still_beginOp h)) ?_
  rintro _ s₁ ⟨h₁, hst₁⟩
  rw [← hst₁.newIn hr.pinned] at hnew
  rw [← hst₁.node]
  refine wp_seq ((hr.still hst₁).wp_create_full h₁ hnew) fun x s₂ hfull => ?_
  cases x with
  | none => exact wp_or_const (stopsIn_endOp.bind fun _ => .pure _) hfull
  | some ip =>
    exact wp_or_const (stopsIn_iunlockput.bind fun _ => stopsIn_endOp.bind fun _ => .pure _) hfull

/-! ## `link` -/

theorem wp_relink_or {g : UInt16 → UInt16} {k : FsM α} {Q : α → State → Prop} (h : Held s r)
    (hv : Valid s p)
    (hQ : ∀ t, Held t r → Tagged r s (s.icache p).inum (g (s.node (s.icache p).inum).nlink) t →
      k.wp (FaultOr C) Q t) :
    Prog.wp (do
      modifyDin p fun d => { d with nlink := g d.nlink }
      iupdate p
      k) (FaultOr C) Q s := by
  have hrelink := wp_relink h hv (g := g) (k := pure ()) (Q := fun _ t => k.wp (FaultOr C) Q t)
    fun t ht _ htag => hQ t ht htag
  rw [wp_bind] at hrelink ⊢
  refine wp_or stopsIn_modifyDin (wp_imp hrelink fun _ u hu => ?_)
  rw [wp_bind] at hu ⊢
  exact wp_or stopsIn_iupdate hu

theorem Tagged.newIn {n : UInt16} (h : Tagged r s i n t) (hcwd : r cwd ≠ 0) :
    (NewIn t cwd path d ↔ NewIn s cwd path d) ∧ ((t.node d).Full ↔ (s.node d).Full) := by
  have hstart : t.startOf cwd path = s.startOf cwd path := by
    rw [State.startOf, State.startOf, h.inum cwd hcwd]
  refine ⟨?_, ?_⟩
  · rw [NewIn, NewIn, hstart]
    simp only [followParent_congr h.same, Node.lookup, (h.same d).2]
  · rw [Node.Full, Node.Full, (h.same d).2]

theorem Ready.wp_sysLink_full (hr : Ready s r cwd) (h : Held s r) {old : List UInt8}
    (hold : ∃ i, follow s.node (s.startOf cwd old) (components old) = some i ∧
      (s.node i).type ≠ T_DIR)
    (hnew : NewIn s cwd path d) : (sysLink dev cwd (some old) (some path)).wp
      (FaultOr (s.node d).Full) (fun _ _ => ¬(s.node d).Full) s := by
  obtain ⟨i, hfollow, htype⟩ := hold
  refine wp_seq (wp_or stopsIn_beginOp (still_beginOp h)) ?_
  rintro _ s₁ ⟨h₁, hst₁⟩
  have hr₁ := hr.still hst₁
  refine wp_seq (wp_or stopsIn_namei (hr₁.wp_namei h₁)) ?_
  rintro x s₂ ⟨hst₂, hx⟩
  have hstart : s₁.startOf cwd old = s.startOf cwd old := by
    rw [State.startOf, State.startOf, hst₁.inum cwd hr.pinned]
  rw [hst₁.node, hstart, hfollow] at hx
  cases x with
  | none => cases hx.2
  | some ip =>
  obtain ⟨h₂, hleads₂, hip⟩ := hx
  cases hip
  refine wp_seq (wp_or stopsIn_ilock (wp_lock h₂ hleads₂)) ?_
  rintro _ s₃ ⟨h₃, hst₃, hv₃, hleads₃⟩
  have hst : Still r s s₃ := hst₁.trans (hst₂.trans hst₃.of_add)
  rw [wp_bind, wp_gets, if_neg ?_]
  swap
  · rw [← (h₃.inv.node_of_valid hv₃).1, hst.node, hst₃.inum ip add_one_self_ne]
    exact htype
  refine wp_relink_or (g := (· + 1)) h₃ hv₃ fun s₄ h₄ htag₄ => ?_
  refine wp_seq (wp_or stopsIn_iunlock
    (still_iunlock h₄ add_one_self_ne (.inr fun _ => trivial))) ?_
  rintro _ s₅ ⟨h₅, hst₅, -⟩
  have htag₅ := htag₄.still hst₅
  have hr₅ := htag₅.ready (hr.still hst)
  obtain ⟨hnew₅, hfull₅⟩ : (NewIn s₅ cwd path d ↔ NewIn s₃ cwd path d) ∧
      ((s₅.node d).Full ↔ (s₃.node d).Full) := htag₅.newIn (add_one_ne hr.pinned)
  rw [hst.newIn hr.pinned] at hnew₅
  rw [hst.node] at hfull₅
  obtain ⟨name, hparent, hnone⟩ := hnew₅.mpr hnew
  refine wp_seq (wp_or stopsIn_nameiparent (hr₅.wp_nameiparent h₅)) ?_
  rintro x s₆ ⟨hst₆, hx⟩
  rw [hparent] at hx
  cases x with
  | none => cases hx.2
  | some x =>
  obtain ⟨dp, name'⟩ := x
  obtain ⟨h₆, hleads₆, htype₆, heq⟩ := hx
  cases heq
  refine wp_seq (wp_or stopsIn_ilock (wp_lock h₆ hleads₆)) ?_
  rintro _ s₇ ⟨h₇, hst₇, hv₇, -⟩
  have hnode₇ : s₇.node = s₅.node := hst₇.node.trans hst₆.node
  have hinum₇ : (s₇.icache dp).inum = (s₆.icache dp).inum := hst₇.inum dp add_one_self_ne
  have hgood : Good s₇ (r + one ip + one dp) := ⟨h₇, hst₇.dirs (hst₆.dirs hr₅.dirs)⟩
  have hdir : OpenDir s₇ dp (s₆.icache dp).inum := by
    rw [← hinum₇]
    refine hgood.openDir hv₇ ?_
    rw [hst₇.node, hinum₇]
    exact htype₆
  rw [wp_bind, wp_gets, wp_bind]
  refine wp_mono (hdir.wp_dirlink_or ?_) (fun e he => he.imp_right ?_) ?_
  · rw [hnode₇]
    exact hnone
  · rw [hnode₇]
    exact hfull₅.mp
  rintro x u ⟨hnot, rfl, -⟩
  rw [hnode₇, hfull₅] at hnot
  rw [if_neg (by decide)]
  exact wp_or_const (stopsIn_iunlockput.bind fun _ => stopsIn_iput.bind fun _ =>
    stopsIn_endOp.bind fun _ => .pure _) hnot

end

end Xv6.Fs
