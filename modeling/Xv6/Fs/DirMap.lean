import Xv6.Fs.Entries

/-!
# Directories refine finite maps

In every state that calls of `dirlink` and erasures of entries reach, a directory whose names were
distinct is a finite map from names to inode numbers: `dirlookup` looks a name up, `dirlink` adds a
binding, and erasing the entry at the offset that `dirlookup` returned removes one. Nothing is
assumed of the entries of the inode cache other than the one of the directory.
-/

namespace Xv6.Fs

open State
open List

/-- Inode `i` is a directory of whole entries, in entry `p` of the cache. -/
structure OpenDir (s : State) (p : Ip) (i : Nat) : Prop where
  inv : FsInv (s.only p)
  valid : Valid s p
  inum : (s.icache p).inum = i
  type : (s.icache p).din.type = T_DIR
  size : (s.node i).data.length % Dirent.size = 0

/-- Directory `i` as a table of names and inode numbers. -/
def State.slots (s : State) (i : Nat) : Slots (List UInt8) Nat := dirSlots (s.node i).data

section
variable {dev : DevSw} {s t : State} {p q ip : Ip} {i k inum : Nat} {name : List UInt8}
variable {E : Fault → Prop} {found : Dirent → Bool}

theorem OpenDir.not_dev (h : OpenDir s p i) : (s.icache p).din.type ≠ T_DEV := by
  rw [h.type]
  decide

theorem OpenDir.length_eq (h : OpenDir s p i) :
    (s.node i).data.length = (s.icache p).din.size.toNat := by
  have := h.inv.length_data (valid_only.mpr h.valid)
  rwa [only_self, h.inum] at this

theorem OpenDir.length_le (h : OpenDir s p i) : (s.node i).data.length ≤ MAXFILE * BSIZE := by
  have hv := valid_only.mpr h.valid
  have hsync := h.inv.cached.synced p nofun hv
  have hle := h.inv.size_le (h.inv.cached.inum p hv.1) (hsync ▸ h.inv.cached.type p hv)
  rw [← hsync, only_self] at hle
  rw [h.length_eq]
  exact hle

theorem OpenDir.length_slots (h : OpenDir s p i) :
    Dirent.size * (s.slots i).length = (s.node i).data.length := by
  rw [State.slots, length_dirSlots]
  have := Nat.div_add_mod (s.node i).data.length Dirent.size
  rw [h.size] at this
  exact this

theorem OpenDir.toNat_offset (h : OpenDir s p i) (hk : k ≤ (s.slots i).length) :
    (UInt32.ofNat (Dirent.size * k)).toNat = Dirent.size * k := by
  have := Nat.mul_le_mul_left Dirent.size hk
  rw [h.length_slots] at this
  have := h.length_le
  refine UInt32.toNat_ofNat_of_lt' (Nat.lt_of_le_of_lt (by omega : _ ≤ MAXFILE * BSIZE) ?_)
  decide

/-! ## The loops over the entries -/

theorem OpenDir.wp_readi (h : OpenDir s p i) (hk : k < (s.slots i).length) :
    (readi dev p (UInt32.ofNat (Dirent.size * k)) (UInt32.ofNat Dirent.size)).wp E (fun r t =>
      t = s ∧ r = ((Dirent.size : Int),
        ((s.node i).data.drop (Dirent.size * k)).take Dirent.size)) s := by
  have hdev : ((s.only p).icache p).din.type ≠ T_DEV := by
    rw [only_self, h.type]
    decide
  have honly : (readi dev p (UInt32.ofNat (Dirent.size * k)) (UInt32.ofNat Dirent.size)).wp E _ _ :=
    Fs.wp_readi h.inv (valid_only.mpr h.valid) hdev
  have hread := frames_readi.wp (c := s.icache) honly
  rw [only_others, only_self, node_only, h.inum] at hread
  refine wp_imp hread ?_
  rintro r t ⟨u, ⟨rfl, rfl⟩, rfl⟩
  refine ⟨only_others, ?_⟩
  have hoff := h.toNat_offset (Nat.le_of_lt hk)
  have hsize : (UInt32.ofNat Dirent.size).toNat = Dirent.size := rfl
  have hend : Dirent.size * k + Dirent.size ≤ (s.node i).data.length := by
    rw [← h.length_slots, ← Nat.mul_succ]
    exact Nat.mul_le_mul_left _ hk
  have hle := h.length_le
  have hmax : MAXFILE * BSIZE < 2 ^ 32 := by decide
  rw [readResult, hoff, hsize, if_neg (by omega)]
  have hlen : (((s.node i).data.drop (Dirent.size * k)).take Dirent.size).length =
      Dirent.size := by
    rw [length_take, length_drop]
    omega
  rw [hlen]

theorem OpenDir.wp_dirScan {turns : Nat} {msg : String} (h : OpenDir s p i)
    (hturns : turns = (s.slots i).length - k) :
    (dirScan dev p msg found turns (Dirent.size * k)).wp E (fun r t => t = s ∧
      r = (Dirent.size * (k + ((entries (s.node i).data).drop k).findIdx found),
        ((entries (s.node i).data).drop k).find? found)) s := by
  have hlen : (s.slots i).length = (entries (s.node i).data).length := by
    rw [State.slots, dirSlots, length_map]
  induction turns generalizing k with
  | zero =>
    have hnil : (entries (s.node i).data).drop k = [] := drop_eq_nil_of_le (by omega)
    rw [hnil]
    exact ⟨rfl, rfl⟩
  | succ turns ih =>
    have hk : k < (s.slots i).length := by omega
    have hcons := drop_eq_getElem_cons (hlen ▸ hk : k < (entries (s.node i).data).length)
    rw [getElem_entries] at hcons
    rw [dirScan, wp_bind]
    refine wp_imp (h.wp_readi hk) ?_
    rintro _ t ⟨ht, rfl⟩
    rw [ht]
    rw [hcons, findIdx_cons, List.find?_cons]
    change Prog.wp (if found (direntAt _ k) = true then _ else _) E _ _
    cases hf : found (direntAt (s.node i).data k) with
    | true => exact ⟨rfl, rfl⟩
    | false =>
      rw [← Nat.mul_add_one]
      refine wp_imp (ih (by omega)) ?_
      rintro _ _ ⟨rfl, rfl⟩
      refine ⟨rfl, ?_⟩
      rw [cond_false, Nat.add_assoc, Nat.add_comm 1]

theorem OpenDir.dirTurns_eq (h : OpenDir s p i) :
    dirTurns (s.icache p).din.size (Dirent.size * k) = (s.slots i).length - k := by
  have := h.size
  rw [dirTurns, ← h.length_eq, State.slots, length_dirSlots]
  simp only [Dirent.size, DIRSIZ] at *
  omega

/-! ## A reference that is taken and given back -/

/-- Nothing changed but the inode number of a cache entry that is not in use. -/
structure Unchanged (s t : State) : Prop where
  rest : t = { s with icache := t.icache }
  ref : ∀ q, (t.icache q).ref = (s.icache q).ref
  used : ∀ q, (s.icache q).ref ≠ 0 → t.icache q = s.icache q

/-- A reference that was just taken is given back: the inode is not freed. -/
theorem wp_iput_took (h : Lands s ip inum) :
    (iput ip).wp E (fun _ t => Unchanged s t) (s.took ip inum) := by
  simp only [iput, wp_bind, wp_gets]
  have hkeep : ¬(((s.took ip inum).icache ip).ref = 1 ∧
      ((s.took ip inum).icache ip).valid = true ∧
      ((s.took ip inum).icache ip).din.nlink = 0) := by
    rw [State.took, setInode_self]
    split
    next hpos =>
      intro hlast
      have : (s.icache ip).ref + 1 = 1 := hlast.1
      omega
    next => exact fun hlast => Bool.false_ne_true hlast.2.1
  refine wp_when (fun hlast => absurd hlast hkeep) fun _ => ?_
  rw [wp_modifyInode, State.took, setInode_self, State.setInode, State.setInode,
    update_idem]
  refine ⟨rfl, fun q => ?_, fun q hq => ?_⟩
  · by_cases hqi : q = ip
    · subst hqi
      dsimp only
      rw [update_self]
      split
      next => exact Int.add_sub_cancel ..
      next hpos => exact (h.resolve_left fun h => hpos h.1).1.symm
    · exact congrArg Inode.ref (update_of_ne hqi ..)
  · by_cases hqi : q = ip
    · subst hqi
      dsimp only
      rw [update_self, if_pos (h.resolve_right fun h => hq h.1).1, Int.add_sub_cancel]
    · exact update_of_ne hqi ..

theorem State.only_setInode {e : Inode} :
    (s.setInode ip e).only p = if ip = p then (s.only p).setInode p e else s.only p := by
  split
  next h =>
    subst h
    rw [only, others, setInode_self, only, others, setInode, setInode, update_idem]
  next h =>
    rw [only, others, setInode_of_ne (Ne.symm h)]
    rfl

theorem OpenDir.took (h : OpenDir s p i) : OpenDir (s.took ip inum) p i := by
  have hpos := h.valid.1
  unfold State.took
  by_cases hip : ip = p
  · subst hip
    rw [if_pos hpos]
    have hinv : FsInv ((s.only ip).setInode ip
        { s.icache ip with ref := (s.icache ip).ref + 1 }) := by
      refine h.inv.setInode_same ?_ (fun _ => ?_) (fun hv => ?_) ?_ <;> rw [only_self]
      · exact hpos
      · exact hv
    refine ⟨?_, ?_, ?_, ?_, h.size⟩
    · rw [only_setInode, if_pos rfl]
      exact hinv
    · rw [Valid, setInode_self]
      exact ⟨by dsimp only; omega, h.valid.2⟩
    · rw [setInode_self]
      exact h.inum
    · rw [setInode_self]
      exact h.type
  · have hne : p ≠ ip := Ne.symm hip
    refine ⟨?_, ?_, ?_, ?_, h.size⟩
    · rw [only_setInode, if_neg hip]
      exact h.inv
    · rw [Valid, setInode_of_ne hne]
      exact h.valid
    · rw [setInode_of_ne hne]
      exact h.inum
    · rw [setInode_of_ne hne]
      exact h.type

/-! ## Looking a name up -/

theorem holds_slot (de : Dirent) : Slots.holds (cname name) de.slot =
    decide (de.inum ≠ 0 ∧ namecmp name de.name = 0) := by
  unfold Dirent.slot
  by_cases h : de.inum = 0
  · simp [h, Slots.holds]
  · simp [h, Slots.holds, namecmp_eq_zero, eq_comm (a := cname name)]

theorem find?_slots (s : State) (i : Nat) (name : List UInt8) : (s.slots i).find? (Slots.holds (cname name)) =
    ((entries (s.node i).data).find? fun de =>
      decide (de.inum ≠ 0 ∧ namecmp name de.name = 0)).map Dirent.slot := by
  rw [State.slots, dirSlots, List.find?_map]
  exact congrArg (fun f => (List.find? f _).map _) (funext holds_slot)

theorem OpenDir.wp_dirlookup {Q : Option (Ip × Nat) → State → Prop} (h : OpenDir s p i)
    (hE : (s.slots i).find (cname name) ≠ none → ∀ e, CacheFull s e → E e)
    (hnone : (s.slots i).find (cname name) = none → Q none s)
    (hsome : ∀ ip k inum, (s.slots i).find (cname name) = some inum →
      (s.slots i)[k]? = some (some (cname name, inum)) →
      Lands s ip inum → Q (some (ip, Dirent.size * k)) (s.took ip inum)) :
    (dirlookup dev p name).wp E Q s := by
  have hfind := find?_slots s i name
  simp only [dirlookup, wp_bind, wp_gets]
  rw [if_neg (not_not_intro h.type), wp_bind]
  refine wp_imp (h.wp_dirScan (k := 0) (h.dirTurns_eq (k := 0))) ?_
  rintro _ t ⟨ht, rfl⟩
  rw [ht]
  simp only [drop_zero, Nat.zero_add]
  split
  next de hde =>
    rw [hde] at hfind
    have hholds := List.find?_some hde
    rw [← holds_slot, Slots.holds_iff] at hholds
    obtain ⟨inum, hslot⟩ := hholds
    have hinum : de.inum.toNat = inum := by
      unfold Dirent.slot at hslot
      split at hslot
      · cases hslot
      · exact congrArg Prod.snd (Option.some.inj hslot)
    have hval : (s.slots i).find (cname name) = some inum := by
      rw [Slots.find, hfind, Option.map_some, hslot]
      rfl
    rw [wp_bind, hinum]
    refine wp_mono (wp_iget_eq (Q := fun ip t => Q (some (ip, _)) t) fun ip hip =>
      hsome ip _ inum hval ?_ hip) (hE (by rw [hval]; exact Option.some_ne_none _)) fun _ _ => id
    rw [List.find?_eq_getElem?_findIdx] at hde
    rw [State.slots, dirSlots, List.getElem?_map, hde, Option.map_some, hslot]
  next hde =>
    rw [hde] at hfind
    refine hnone ?_
    rw [Slots.find, hfind]
    rfl

/-! ## Writing an entry -/

theorem writePanic_only {off n : Nat} : WritePanic (s.only p) p off n = WritePanic s p off n := by
  have hown : (s.only p).own p = s.own p := by
    rw [State.own, view, only_self, State.own]
    rfl
  have hdue : (s.only p).due p = s.due p := by
    rw [State.due, only_self]
    rfl
  have hneeded : (s.only p).needed p off n = s.needed p off n := by
    rw [State.needed, only_self, hown, State.needed]
  funext e
  rw [WritePanic, hdue, hneeded]
  rfl

/-- Slot `k` of directory `i` now holds `x`, and no other file changed. -/
structure Stored (p : Ip) (i k : Nat) (x : Option (List UInt8 × Nat)) (s t : State) : Prop where
  dir : OpenDir t p i
  slots : t.slots i = (s.slots i).store k x
  node : ∀ j ≠ i, t.node j = s.node j

theorem OpenDir.stored {src : List UInt8} {u : State} (h : OpenDir s p i)
    (hk : k ≤ (s.slots i).length) (hsrc : src.length = Dirent.size)
    (hw : Wrote i (Dirent.size * k) src (s.only p) u) {c : Ip → Inode} :
    Stored p i k (Dirent.load src).slot s (u.others p c) := by
  have hv := valid_only.mpr h.valid
  have hle : Dirent.size * k ≤ (s.node i).data.length := by
    rw [← h.length_slots]
    exact Nat.mul_le_mul_left _ hk
  have hdata : (u.node i).data = writeAt (s.node i).data (Dirent.size * k) src := by
    rw [hw.node, update_self, node_only]
  have hinum : (u.icache p).inum = i := by
    rw [hw.tags p, only_self]
    exact h.inum
  have hvu : Valid u p := hw.tags.valid.mpr hv
  refine ⟨⟨?_, ?_, ?_, ?_, ?_⟩, ?_, fun j hj => ?_⟩
  · rw [others_only]
    exact hw.inv.only hvu
  · rw [Valid, others_self]
    exact hvu
  · rw [others_self]
    exact hinum
  · rw [others_self, ← (hw.inv.node_of_valid hvu).1, hinum, hw.node, update_self]
    have := (h.inv.node_of_valid hv).1
    rw [only_self, h.inum] at this
    exact this.trans h.type
  · rw [node_others, hdata, length_writeAt hle, hsrc, ← h.length_slots, ← Nat.mul_add_one,
      Nat.mul_max_mul_left]
    exact Nat.mul_mod_right ..
  · rw [State.slots, node_others, hdata, dirSlots_writeAt h.size hk hsrc, State.slots]
  · rw [node_others, hw.node, update_of_ne hj, node_only]

theorem OpenDir.wp_writei {src : List UInt8} (h : OpenDir s p i) (hk : k ≤ (s.slots i).length)
    (hsrc : src.length = Dirent.size) :
    (writei dev p src (UInt32.ofNat (Dirent.size * k))).wp
      (WritePanic s p (Dirent.size * k) Dirent.size)
      (fun r t => if MAXFILE * BSIZE < Dirent.size * k + Dirent.size then r = -1 ∧ t = s
        else r = Dirent.size ∧ Stored p i k (Dirent.load src).slot s t) s := by
  have hv := valid_only.mpr h.valid
  have hlt : MAXFILE * BSIZE + Dirent.size < 2 ^ 32 := by decide
  have hle : Dirent.size * k ≤ (s.icache p).din.size.toNat := by
    rw [← h.length_eq, ← h.length_slots]
    exact Nat.mul_le_mul_left _ hk
  have hmax := h.length_le
  rw [h.length_eq] at hmax
  have hrefused : WriteRefused (s.icache p).din.size.toNat (Dirent.size * k) Dirent.size ↔
      MAXFILE * BSIZE < Dirent.size * k + Dirent.size := by
    simp only [WriteRefused]
    omega
  have hdev : ((s.only p).icache p).din.type ≠ T_DEV := by
    rw [only_self, h.type]
    decide
  have honly : (writei dev p src (UInt32.ofNat (Dirent.size * k))).wp
      (WritePanic (s.only p) p (Dirent.size * k) Dirent.size) _ _ :=
    Fs.wp_writei h.inv hv hdev (by rw [hsrc]; decide)
      (fun _ => by rw [h.toNat_offset hk, hsrc]; exact room_writePanic)
      (fun _ => by rw [h.toNat_offset hk, hsrc]; exact spare_writePanic)
  have hwrite := frames_writei.wp (c := s.icache) honly
  rw [only_others, writePanic_only] at hwrite
  refine wp_imp hwrite ?_
  rintro r t ⟨u, hu, rfl⟩
  rw [h.toNat_offset hk, hsrc, only_self] at hu
  simp only [hrefused] at hu
  split at hu
  next hfull =>
    obtain ⟨hr, rfl⟩ := hu
    rw [if_pos hfull]
    exact ⟨hr, only_others⟩
  next hfit =>
    obtain ⟨hr, v, hv', rfl⟩ := hu
    have hw := hv'.wrote h.inv hv (by rw [only_self]; exact hle) (by omega)
    rw [hsrc, only_self, h.inum] at hw
    rw [if_neg hfit]
    exact ⟨hr, h.stored hk hsrc hw⟩

/-! ## Adding an entry -/

theorem OpenDir.wp_dirlink_present (h : OpenDir s p i)
    (hfind : (s.slots i).find (cname name) ≠ none) :
    (dirlink dev p name inum).wp (CacheFull s) (fun r t => r = -1 ∧ Unchanged s t) s := by
  rw [dirlink, wp_bind]
  refine h.wp_dirlookup (fun _ _ => id) (fun hnone => absurd hnone hfind) fun ip k inum _ _ hip => ?_
  rw [wp_bind]
  exact wp_imp (wp_iput_took hip) fun _ _ ht => ⟨rfl, ht⟩

theorem free_slots : (s.slots i).free =
    (entries (s.node i).data).findIdx fun de => decide (de.inum = 0) := by
  have hslot : ∀ de : Dirent, de.slot.isNone = decide (de.inum = 0) := fun de => by
    rw [Dirent.slot]
    split <;> simp [*]
  rw [Slots.free, State.slots, dirSlots, findIdx_map]
  exact congrArg (List.findIdx · _) (funext hslot)

theorem OpenDir.wp_dirlink_new {Q : Int → State → Prop} (h : OpenDir s p i)
    (hfind : (s.slots i).find (cname name) = none)
    (hQ : (writei dev p (Dirent.store ⟨UInt16.ofNat inum, strncpy name DIRSIZ⟩)
      (UInt32.ofNat (Dirent.size * (s.slots i).free))).wp E (fun r t =>
        if r ≠ Dirent.size then E (.panic "dirlink") else Q 0 t) s) :
    (dirlink dev p name inum).wp E Q s := by
  rw [dirlink, wp_bind]
  refine h.wp_dirlookup (absurd hfind) (fun _ => ?_) fun _ _ _ hsome => ?_
  · simp only [dirlinkAt, wp_bind, wp_gets]
    refine wp_imp (h.wp_dirScan (k := 0) (h.dirTurns_eq (k := 0))) ?_
    rintro _ t ⟨ht, rfl⟩
    rw [ht]
    simp only [drop_zero, Nat.zero_add, ← free_slots]
    rw [wp_bind]
    refine wp_imp hQ fun r t ht => ?_
    split
    next hne => rwa [if_pos hne] at ht
    next heq => rwa [if_neg heq] at ht
  · rw [hfind] at hsome
    cases hsome

theorem OpenDir.wp_dirlink_absent (h : OpenDir s p i)
    (hfind : (s.slots i).find (cname name) = none) (hinum : 1 ≤ inum) (hlt : inum ≤ 65535) :
    (dirlink dev p name inum).wp
      (fun e => WritePanic s p (Dirent.size * (s.slots i).free) Dirent.size e ∨
        MAXFILE * BSIZE < Dirent.size * (s.slots i).free + Dirent.size)
      (fun r t => r = 0 ∧ Stored p i (s.slots i).free (some (cname name, inum)) s t) s := by
  refine h.wp_dirlink_new hfind (wp_mono (h.wp_writei Slots.free_le
    (Dirent.length_store length_strncpy)) (fun _ => .inl) fun r t ht => ?_)
  split at ht
  next hfull =>
    rw [ht.1, if_pos (by decide)]
    exact .inr hfull
  next =>
    obtain ⟨rfl, hst⟩ := ht
    rw [if_neg (not_not_intro rfl)]
    rw [Dirent.load_store length_strncpy, slot_dirlink (by omega) (by omega)] at hst
    exact ⟨rfl, hst⟩

end

/-! ## Sequences of calls -/

/-- What `sys_unlink` does to the directory: the entry with the name is erased. -/
def unlinkEntry (dev : DevSw) (dp : Ip) (name : List UInt8) : FsM Unit := do
  match ← dirlookup dev dp name with
  | none => pure ()
  | some (_, off) => do
    let r ← writei dev dp (List.replicate Dirent.size 0) (UInt32.ofNat off)
    Prog.when (r ≠ Dirent.size) (panic "unlink: writei")

/-- A call on the directory, or whatever happens between two calls, after which it is in some entry
of the cache again. -/
inductive DirCall
  | link (name : List UInt8) (inum : Nat)
  | erase (name : List UInt8)
  | other (s : State) (p : Ip)

/-- The state, with the cache entry that holds the directory. -/
def dirStep (dev : DevSw) : State × Ip → DirCall → Except Fault (State × Ip)
  | (s, p), .link name inum => (dirlink dev p name inum s).map fun r => (r.2, p)
  | (s, p), .erase name => (unlinkEntry dev p name s).map fun r => (r.2, p)
  | _, .other t q => .ok (t, q)

/-- Inode numbers are those of a `struct dirent`, and between two calls on directory `i` it stays as
it is. -/
def DirCall.Fits (i : Nat) : State × Ip → DirCall → Prop
  | _, .link _ inum => 1 ≤ inum ∧ inum ≤ 65535
  | _, .erase _ => True
  | (s, _), .other t q => OpenDir t q i ∧ t.node i = s.node i

section
variable {dev : DevSw} {s s₀ t : State} {p p₀ q : Ip} {i k inum : Nat} {name : List UInt8}

theorem Unchanged.node (h : Unchanged s t) : t.node = s.node := by
  rw [h.rest]
  rfl

theorem Unchanged.openDir (h : Unchanged s t) (hd : OpenDir s p i) : OpenDir t p i := by
  have hent : t.icache p = s.icache p := h.used p (Int.ne_of_gt hd.valid.1)
  have honly : t.only p = s.only p := by
    rw [State.only, State.others, hent, h.rest]
    rfl
  refine ⟨honly ▸ hd.inv, ?_, ?_, ?_, h.node ▸ hd.size⟩
  · rw [Valid, hent]
    exact hd.valid
  · rw [hent]
    exact hd.inum
  · rw [hent]
    exact hd.type

theorem OpenDir.wp_erase (h : OpenDir s p i)
    (hk : (s.slots i)[k]? = some (some (cname name, inum))) :
    (writei dev p (List.replicate Dirent.size 0) (UInt32.ofNat (Dirent.size * k))).wp
      (WritePanic s p (Dirent.size * k) Dirent.size)
      (fun r t => r = Dirent.size ∧ Stored p i k none s t) s := by
  have hlt : k < (s.slots i).length := (List.getElem?_eq_some_iff.mp hk).1
  have hend := Nat.mul_le_mul_left Dirent.size hlt
  have hmax := h.length_le
  rw [h.length_slots, Nat.mul_succ] at hend
  refine wp_imp (h.wp_writei (Nat.le_of_lt hlt) length_replicate) fun r t ht => ?_
  rw [if_neg (by omega)] at ht
  exact ht

theorem OpenDir.wp_unlinkEntry (h : OpenDir s p i) :
    (unlinkEntry dev p name).wp (fun _ => True) (fun _ t => t = s ∨
      ∃ k inum, (s.slots i)[k]? = some (some (cname name, inum)) ∧ Stored p i k none s t) s := by
  rw [unlinkEntry, wp_bind]
  refine h.wp_dirlookup (fun _ _ _ => trivial) (fun _ => .inl rfl) fun ip k inum _ hk _ => ?_
  rw [wp_bind]
  refine wp_mono (h.took.wp_erase hk) (fun _ _ => trivial) ?_
  rintro r t ⟨rfl, hst⟩
  refine wp_when (fun hne => absurd rfl hne) fun _ => .inr ⟨k, inum, hk, ?_⟩
  exact ⟨hst.dir, hst.slots, hst.node⟩

/-- What every call on the directory keeps. -/
theorem dirStep_unique {x y : State × Ip} {c : DirCall} (hd : OpenDir x.1 x.2 i)
    (hu : (x.1.slots i).Unique) (hc : c.Fits i x) (hs : dirStep dev x c = .ok y) :
    OpenDir y.1 y.2 i ∧ (y.1.slots i).Unique := by
  obtain ⟨s, p⟩ := x
  cases c with
  | link name inum =>
    by_cases hfind : (s.slots i).find (cname name) = none
    · obtain ⟨_, t, ⟨-, hst⟩, rfl⟩ :=
        wp_map_ok (hd.wp_dirlink_absent hfind hc.1 hc.2) hs
      exact ⟨hst.dir, hst.slots ▸ hu.store hfind Slots.free_le⟩
    · obtain ⟨_, t, ⟨-, ht⟩, rfl⟩ := wp_map_ok (hd.wp_dirlink_present hfind) hs
      refine ⟨ht.openDir hd, ?_⟩
      rw [State.slots, ht.node]
      exact hu
  | erase name =>
    obtain ⟨_, t, rfl | ⟨k, inum, hk, hst⟩, rfl⟩ := wp_map_ok hd.wp_unlinkEntry hs
    · exact ⟨hd, hu⟩
    · exact ⟨hst.dir, hst.slots ▸ hu.clear (Nat.le_of_lt (List.getElem?_eq_some_iff.mp hk).1)⟩
  | other t q =>
    cases hs
    refine ⟨hc.1, ?_⟩
    rw [State.slots, hc.2]
    exact hu

/-- **Directories are finite maps.** In every state that calls of `dirlink` and erasures of entries
reach from one in which inode `i` is a directory with distinct names:

* its names are distinct;
* `dirlookup` of a name that is not there returns `0` and changes nothing; of a name that is there
  it returns the inode and the offset of its entry, unless all entries of the inode cache are in use;
* `dirlink` of a name that is there returns `-1` and changes nothing, unless all entries of the
  inode cache are in use;
* `dirlink` of a name that is not there, if the directory is below its largest size, stores it into
  the first free slot, or one after the last, which adds this binding and changes no other, and no
  other file, unless it panics as `writei` does;
* erasing the entry at the offset that `dirlookup` returned removes this binding and changes no
  other, unless it panics as `writei` does. -/
theorem directory_refines_map (h₀ : OpenDir s₀ p₀ i) (hu₀ : (s₀.slots i).Unique)
    (hrun : Run (dirStep dev) (fun x c => c.Fits i x) (s₀, p₀) (s, p)) :
    (s.slots i).Unique ∧
    (∀ name, (s.slots i).find (cname name) = none → dirlookup dev p name s = .ok (none, s)) ∧
    (∀ name inum, (s.slots i).find (cname name) = some inum →
      (dirlookup dev p name).wp (CacheFull s) (fun r t => ∃ ip k,
        r = some (ip, Dirent.size * k) ∧ (s.slots i)[k]? = some (some (cname name, inum)) ∧
        (t.icache ip).inum = inum ∧ t = s.took ip inum) s) ∧
    (∀ name inum, (s.slots i).find (cname name) ≠ none →
      (dirlink dev p name inum).wp (CacheFull s) (fun r t => r = -1 ∧ Unchanged s t) s) ∧
    (∀ name inum, 1 ≤ inum → inum ≤ 65535 → (s.slots i).find (cname name) = none →
      (s.node i).data.length < MAXFILE * BSIZE →
      (dirlink dev p name inum).wp (WritePanic s p (Dirent.size * (s.slots i).free) Dirent.size)
        (fun r t => r = 0 ∧
          t.slots i = (s.slots i).store (s.slots i).free (some (cname name, inum)) ∧
          (t.slots i).find = Function.update (s.slots i).find (cname name) (some inum) ∧
          ∀ j ≠ i, t.node j = s.node j) s) ∧
    ∀ name ip off t, dirlookup dev p name s = .ok (some (ip, off), t) →
      OpenDir t p i ∧ ∀ u q, OpenDir u q i → u.node i = t.node i →
        (writei dev q (List.replicate Dirent.size 0) (UInt32.ofNat off)).wp
          (WritePanic u q off Dirent.size) (fun r v => r = Dirent.size ∧
            (v.slots i).find = Function.update (s.slots i).find (cname name) none ∧
            ∀ j ≠ i, v.node j = u.node j) u := by
  have hinv : OpenDir s p i ∧ (s.slots i).Unique :=
    hrun.invariant (I := fun x => OpenDir x.1 x.2 i ∧ (x.1.slots i).Unique) ⟨h₀, hu₀⟩
      fun ht hc hs => dirStep_unique ht.1 ht.2 hc hs
  obtain ⟨hd, hu⟩ := hinv
  refine ⟨hu, fun name hnone => ?_, fun name inum hsome => ?_, fun name inum hfind => ?_,
    fun name inum hpos hle hnone hsize => ?_, fun name ip off t hlookup => ?_⟩
  · refine eq_ok_of_wp (hd.wp_dirlookup (absurd hnone) (fun _ => ⟨rfl, rfl⟩) ?_)
    intro _ _ _ hsome
    rw [hnone] at hsome
    cases hsome
  · refine hd.wp_dirlookup (fun _ _ => id) (fun hnone => ?_) fun ip k inum' hsome' hk hip => ?_
    · rw [hsome] at hnone
      cases hnone
    · rw [hsome] at hsome'
      cases hsome'
      exact ⟨ip, k, rfl, hk, hip.inum, rfl⟩
  · exact hd.wp_dirlink_present hfind
  · have hfree := Nat.mul_le_mul_left Dirent.size (Slots.free_le (l := s.slots i))
    rw [hd.length_slots] at hfree
    have hfit : ¬MAXFILE * BSIZE < Dirent.size * (s.slots i).free + Dirent.size := by
      simp only [BSIZE, Dirent.size, DIRSIZ] at *
      omega
    refine wp_mono (hd.wp_dirlink_absent hnone hpos hle) (fun e he => he.resolve_right hfit) ?_
    rintro r t ⟨rfl, hst⟩
    refine ⟨rfl, hst.slots, ?_, hst.node⟩
    rw [hst.slots]
    exact Slots.find_store hu hnone Slots.free_le Slots.getElem?_free_ne
  · have hspec : (dirlookup dev p name).wp (CacheFull s) (fun r t => ∀ ip off, r = some (ip, off) →
        OpenDir t p i ∧ t.node i = s.node i ∧ ∃ k inum, off = Dirent.size * k ∧
          (s.slots i)[k]? = some (some (cname name, inum))) s := by
      refine hd.wp_dirlookup (fun _ _ => id) (fun _ _ _ h => by cases h) ?_
      rintro ip k inum - hk - _ _ ⟨⟩
      exact ⟨hd.took, rfl, k, inum, rfl, hk⟩
    obtain ⟨ht, hnode, k, inum, rfl, hk⟩ := wp_ok hspec hlookup ip off rfl
    refine ⟨ht, fun u q hu' hsame => ?_⟩
    have hslots : u.slots i = s.slots i := by
      rw [State.slots, hsame, hnode, State.slots]
    refine wp_imp (hu'.wp_erase (hslots ▸ hk)) ?_
    rintro r v ⟨rfl, hst⟩
    refine ⟨rfl, ?_, hst.node⟩
    rw [hst.slots, hslots]
    exact Slots.find_clear hu hk

end

/-! ## A disk with one empty directory -/

namespace OneDir

def din : Dinode := { Dinode.zero with type := T_DIR, nlink := 1 }

/-- The super block, a block of inodes, a block of the free map, and data blocks, if there are any. -/
def disk (sb : Superblock) : Disk := fun b =>
  if b = 1 then Bytes.zero.setWords32 0
    [sb.size, sb.nblocks, sb.ninodes, sb.nlog, sb.logstart, sb.inodestart, sb.bmapstart]
  else if b = 2 then din.store Bytes.zero 1
  else if b = 3 then Bytes.zero.blit 0 [15]
  else Bytes.zero

/-- The directory is in the first entry of the cache, in a transaction. -/
def state (sb : Superblock) : State where
  disk := disk sb
  sb := sb
  icache := fun p => if p.1 = 0 then ⟨1, 1, true, true, din⟩ else ⟨0, 0, false, false, .zero⟩
  logSize := 30
  outstanding := 1
  lh := []
  committed := []

def ip : Ip := ⟨0, NINODE_pos⟩

/-- A disk with 60 data blocks. -/
def sb : Superblock := ⟨64, 60, 2, 30, 0, 2, 3⟩

/-- A disk without data blocks. -/
def full : Superblock := ⟨4, 0, 2, 30, 0, 2, 3⟩

theorem dinodeAt_one (sb : Superblock) (h : iblock sb 1 = 2) : dinodeAt sb (disk sb) 1 = din := by
  have hdisk : disk sb 2 = din.store Bytes.zero 1 := (if_neg (by decide)).trans (if_pos rfl)
  rw [dinodeAt, h, hdisk]
  exact Dinode.load_store (by decide)

theorem read_disk : ∀ sb' ∈ [sb, full], Superblock.load (disk sb' 1) = sb' ∧
    (∀ i < sb'.ninodes.toNat, (dinodeAt sb' (disk sb') i).size = 0 ∧
      ∀ k, (dinodeAt sb' (disk sb') i).addrs k = 0) ∧
    (∀ b < sb'.size.toNat, blockBit sb' (disk sb') b = decide (b < dataStart sb')) ∧
    iblock sb' 1 = 2 ∧ ((state sb').node 1).data = [] := by decide +kernel

theorem geometry : ∀ sb' ∈ [sb, full], Geometry sb' := by
  intro sb' h
  simp only [mem_cons, not_mem_nil, or_false] at h
  obtain rfl | rfl := h
  · exact ⟨by decide, by decide, by decide, by decide, by decide, by decide⟩
  · exact ⟨by decide, by decide, by decide, by decide, by decide, by decide⟩

theorem slots_nil (h : sb' ∈ [sb, full]) : (state sb').slots 1 = [] := by
  rw [State.slots, (read_disk sb' h).2.2.2.2]
  rfl

theorem openDir (h : sb' ∈ [sb, full]) : OpenDir (state sb') ip 1 := by
  obtain ⟨hsuper, hempty, hbits, hblock, hdata⟩ := read_disk sb' h
  have hinodes : 1 < sb'.ninodes.toNat := by
    simp only [mem_cons, not_mem_nil, or_false] at h
    obtain rfl | rfl := h <;> decide
  refine ⟨.of_empty (geometry sb' h) hsuper hempty hbits
    (cachedBut_only hinodes fun _ => ⟨(dinodeAt_one sb' hblock).symm,
      (by decide : din.type ≠ 0)⟩),
    ⟨(by decide : (0 : Int) < 1), rfl⟩, rfl, rfl, ?_⟩
  rw [hdata]
  rfl

end OneDir

/-- After `a` was linked to inode 5, it is found, and `b` can be linked. -/
theorem directory_refines_map_one_dir : ∃ s,
    dirStep OneFile.noDev (OneDir.state OneDir.sb, OneDir.ip) (.link [97] 5) = .ok (s, OneDir.ip) ∧
    (s.slots 1).Unique ∧ dirlookup OneFile.noDev OneDir.ip [98] s = .ok (none, s) ∧
    (dirlookup OneFile.noDev OneDir.ip [97]).wp (CacheFull s)
      (fun r t => ∃ ip, r = some (ip, 0) ∧ (t.icache ip).inum = 5) s ∧
    (dirlink OneFile.noDev OneDir.ip [98] 60000).wp (WritePanic s OneDir.ip 16 16)
      (fun r t => r = 0 ∧ (t.slots 1).find [98] = some 60000 ∧ (t.slots 1).find [97] = some 5)
      s := by
  obtain ⟨⟨s, p⟩, hx, rfl, hslots, hlen⟩ : ∃ x, dirStep OneFile.noDev
      (OneDir.state OneDir.sb, OneDir.ip) (.link [97] 5) = .ok x ∧ x.2 = OneDir.ip ∧
      x.1.slots 1 = [some ([97], 5)] ∧ (x.1.node 1).data.length = 16 := by decide +kernel
  have hfits : (DirCall.link [97] 5).Fits 1 (OneDir.state OneDir.sb, OneDir.ip) :=
    ⟨by decide, by decide⟩
  have hrun : Run (dirStep OneFile.noDev) (fun x c => c.Fits 1 x)
      (OneDir.state OneDir.sb, OneDir.ip) (s, OneDir.ip) := Run.refl.tail hfits hx
  obtain ⟨hu, hnone, hsome, -, hlink, -⟩ := directory_refines_map (OneDir.openDir (.head _))
    (by rw [OneDir.slots_nil (.head _)]; intro _ _ _ _ _ hk; cases hk) hrun
  dsimp only at hslots hlen
  rw [hslots] at hnone hsome hlink
  refine ⟨s, hx, hu, hnone [98] rfl, wp_imp (hsome [97] 5 rfl) ?_,
    wp_imp (hlink [98] 60000 (by decide) (by decide) rfl (by rw [hlen]; decide)) ?_⟩
  · rintro r t ⟨ip, k, hr, hk, hinum, -⟩
    have hk0 : k = 0 := by
      cases k with
      | zero => rfl
      | succ k => cases hk
    exact ⟨ip, by rw [hr, hk0, Nat.mul_zero], hinum⟩
  · rintro r t ⟨hr, -, hfind, -⟩
    refine ⟨hr, ?_, ?_⟩ <;> rw [hfind]
    · rfl
    · rfl

/-- Without a free block, `dirlink` of a new name does not return. -/
theorem dirlink_out_of_blocks :
    OpenDir (OneDir.state OneDir.full) OneDir.ip 1 ∧
    ((OneDir.state OneDir.full).slots 1).Unique ∧
    ((OneDir.state OneDir.full).slots 1).find (cname [97]) = none ∧
    ((OneDir.state OneDir.full).node 1).data.length < MAXFILE * BSIZE ∧
    0 < (OneDir.state OneDir.full).outstanding ∧ (OneDir.state OneDir.full).lh = [] ∧
    (match dirlink OneFile.noDev OneDir.ip [97] 5 (OneDir.state OneDir.full) with
      | .ok _ => none
      | .error e => some e) = some (.panic "balloc: out of blocks") := by
  have hfull : OneDir.full ∈ [OneDir.sb, OneDir.full] := .tail _ (.head _)
  refine ⟨OneDir.openDir hfull, ?_, ?_, ?_, by decide, rfl, by decide +kernel⟩
  · rw [OneDir.slots_nil hfull]
    nofun
  · rw [OneDir.slots_nil hfull]
    rfl
  · rw [(OneDir.read_disk _ hfull).2.2.2.2]
    decide

end Xv6.Fs
