import Xv6.Fs.Chunks
import Xv6.Fs.FullDir
import Xv6.Fs.Namei

/-!
# Filling a directory

A file gets one name after the other in the root directory, until there is no room for a further entry.
Each call of `link` returns, for the log has room and there are enough free blocks; the call after them
panics.
-/

namespace Xv6.Fs

open List

/-- The transaction is the same. -/
def SameLog (s t : State) : Prop :=
  t.outstanding = s.outstanding ∧ t.lh = s.lh ∧ t.logSize = s.logSize

section
variable {dev : DevSw} {s t u : State} {r : Refs} {p q cwd : Ip} {i k m n inum : Nat}
variable {path name : List UInt8} {E : Fault → Prop}

theorem SameLog.trans (h : SameLog s t) (h' : SameLog t u) : SameLog s u :=
  ⟨h'.1.trans h.1, h'.2.1.trans h.2.1, h'.2.2.trans h.2.2⟩

/-! ## Functions that write nothing -/

theorem log_ilock : (ilock p).wp (fun _ => True) (fun _ t => SameLog s t) s :=
  wp_ilock_eq (.inr fun _ => trivial) fun _ _ _ => ⟨rfl, rfl, rfl⟩

theorem log_iunlock : (iunlock p).wp (fun _ => True) (fun _ t => SameLog s t) s :=
  wp_iunlock_eq (.inr fun _ => trivial) ⟨rfl, rfl, rfl⟩

theorem log_iput (h : ¬((s.icache p).ref = 1 ∧ (s.icache p).valid ∧ (s.icache p).din.nlink = 0)) :
    (iput p).wp E (fun _ t => SameLog s t) s := by
  simp only [iput, wp_bind, wp_gets]
  exact wp_when (fun hfree => absurd hfree h) fun _ => ⟨rfl, rfl, rfl⟩

theorem log_iunlockput (h : 1 < (s.icache p).ref) :
    (iunlockput p).wp (fun _ => True) (fun _ t => SameLog s t) s := by
  rw [iunlockput, wp_bind]
  refine wp_iunlock_eq (.inr fun _ => trivial) (log_iput ?_)
  rw [State.setInode_self]
  exact fun hfree => h.ne' hfree.1

theorem calm_endOp (h : Held s r) (hout : s.outstanding = 1) :
    endOp.wp E (fun _ t => (t.outstanding = 0 ∧ t.lh = [] ∧ t.logSize = s.logSize ∧
      t.locks = s.locks) ∧ Held t r ∧ Still r s t) s := by
  refine wp_also ?_ (still_endOp h)
  rw [endOp, wp_modify]
  rw [hout, if_pos rfl, State.commit]
  split
  next hnil => exact ⟨rfl, hnil, rfl, rfl⟩
  next => exact ⟨rfl, rfl, rfl, rfl⟩

theorem Held.one_lt_ref (h : Held s (r + one p)) (hp : r p ≠ 0) : 1 < (s.icache p).ref := by
  have hrefs := h.refs p
  rw [add_one_self] at hrefs
  omega

theorem le_took_ref : (s.icache p).ref ≤ ((s.took q i).icache p).ref := by
  by_cases hpq : p = q
  · rw [State.took, hpq, State.setInode_self]
    split <;> dsimp only <;> omega
  · rw [State.took, State.setInode_of_ne hpq]

/-- A path of one name is looked up in the current directory. -/
theorem log_namex {npar : Bool} (h : Held s r) (hd : Dirs s) (hcwd : r cwd ≠ 0)
    (hskip : skipelem path = some (path, [])) (hhead : path.head? ≠ some slash) (hne : path ≠ []) :
    (namex dev cwd path npar).wp (fun _ => True) (fun _ t => SameLog s t) s := by
  obtain ⟨turns, hturns⟩ := Nat.exists_eq_add_one_of_ne_zero (length_pos_iff.mpr hne).ne'
  rw [namex, if_neg hhead, hturns]
  have hdup : (idup cwd).wp (fun _ => True) (fun _ t => SameLog s t) s := ⟨rfl, rfl, rfl⟩
  refine wp_seq (wp_also (still_idup h hcwd) hdup) ?_
  rintro ip s₁ ⟨⟨hip, h₁, hst₁, -⟩, hlog₁⟩
  dsimp only
  rw [hip, namexLoop, hskip]
  refine wp_seq (wp_also (still_ilock h₁ add_one_self_ne (.inr fun _ => trivial))
    log_ilock) ?_
  rintro _ s₂ ⟨⟨h₂, hst₂, -, -, hv₂⟩, hlog₂⟩
  have hlog : SameLog s s₂ := hlog₁.trans hlog₂
  rw [wp_bind, wp_gets]
  have hput := wp_imp (log_iunlockput (h₂.one_lt_ref hcwd)) fun _ _ => hlog.trans
  split
  · exact wp_seq hput fun _ _ => id
  next hdir =>
  split
  · exact wp_seq (wp_imp log_iunlock fun _ _ => hlog.trans) fun _ _ => id
  next hlast =>
  have hgood : Good s₂ (r + one cwd) := ⟨h₂, hst₂.dirs (hst₁.dirs hd)⟩
  have hopen : OpenDir s₂ cwd (s₂.icache cwd).inum := by
    refine hgood.openDir hv₂ ?_
    rw [(h₂.inv.node_of_valid hv₂).1]
    exact not_not.mp hdir
  rw [wp_bind]
  refine hopen.wp_dirlookup (fun _ _ _ => trivial) (fun _ => ?_) fun ip k inum _ _ _ => ?_
  · exact wp_seq hput fun _ _ => id
  · have hput' := wp_imp (log_iunlockput ((h₂.one_lt_ref hcwd).trans_le le_took_ref))
      fun _ _ => SameLog.trans (s := s) (t := s₂.took ip inum) hlog
    refine wp_seq hput' fun _ s₃ hlog₃ => ?_
    cases npar with
    | false => exact hlog₃
    | true => exact absurd ⟨rfl, rfl⟩ hlast

/-! ## Functions that write -/

/-- There is room for the few blocks of a `link` in the log. -/
theorem room_link (hlog : s.logSize = LOGSIZE) (hout : s.outstanding = 1) (hlh : s.lh.length ≤ 1)
    (hsize : s.sb.size.toNat ≤ FSSIZE) : Room E s 3 := by
  refine ⟨.inr ?_, .inr (by omega)⟩
  have hmaps : (mapBlocks s.sb \ s.lh.toFinset).card ≤ 1 :=
    (Finset.card_le_card Finset.sdiff_subset).trans (card_mapBlocks_le hsize)
  rw [State.load, State.capacity, hlog]
  simp only [LOGSIZE, MAXOPBLOCKS]
  omega

theorem SameTags.locks (h : SameTags s t) : t.locks = s.locks := by
  funext q
  rw [State.locks, h q]
  rfl

theorem calm_relink {g : UInt16 → UInt16} {E' : Fault → Prop} (h : Held s r) (hv : Valid s p)
    (hroom : Room E s 3) (hlh : s.lh = []) (hspare : Spare E' s n) :
    Prog.wp (do
      modifyDin p fun d => { d with nlink := g d.nlink }
      iupdate p
      pure ()) E (fun _ t => (t.locks = s.locks ∧ t.outstanding = s.outstanding ∧
      t.logSize = s.logSize ∧ t.lh.length ≤ 1 ∧ Spare E' t n) ∧ Held t r ∧
      Tagged r s (s.icache p).inum (g (s.node (s.icache p).inum).nlink) t) s := by
  refine wp_also ?_ (wp_relink h hv fun t ht _ htag => ⟨ht, htag⟩)
  rw [wp_bind, wp_modifyDin, wp_bind]
  refine wp_iupdate (k := 3) ⟨hroom.logs, hroom.trans⟩ ⟨?_, rfl, rfl, ?_, ?_⟩
  · exact SameTags.locks sameTags_setDin
  · refine (Log.length_absorb_le _ _).trans ?_
    change s.lh.length + 1 ≤ 1
    rw [hlh]
    exact Nat.le_refl 1
  · refine Spare.flush (s := s.setDin p _) hspare h.inv.geometry ?_
    rw [State.setDin_self]
    exact h.inv.cached.inum p hv.1

/-- The blocks that an entry in slot `k` needs: a new one, and the indirect block, if the slot is the
first of a block. -/
theorem OpenDir.needed_le (hdir : OpenDir s p i) (h : FsInv s) (hk : (s.slots i).length = k) :
    s.needed p (Dirent.size * k) Dirent.size ≤ if k % 32 = 0 then 2 else 0 := by
  have hp := h.pending hdir.valid
  have hsize : (s.icache p).din.size.toNat = 16 * k := by
    rw [← hdir.length_eq, ← hdir.length_slots, hk]
    rfl
  have htouch : ∀ bn, Touches (Dirent.size * k) Dirent.size bn → bn = k / 32 := by
    intro bn hbn
    simp only [Touches, Dirent.size, DIRSIZ, BSIZE] at hbn
    omega
  -- a block that holds an entry already is there
  have hthere : k % 32 ≠ 0 → s.own p ((s.icache p).inum, slotOf (k / 32)) ≠ 0 := by
    intro hmod
    refine hp.full _ hp.working.inum ?_ _ ?_
    · rw [view_self]
      exact hp.working.type
    · rw [view_self]
      simp only [BSIZE]
      omega
  rw [State.needed]
  by_cases hmod : k % 32 = 0
  · rw [if_pos hmod]
    refine Nat.add_le_add (b := 1) (d := 1) (Finset.card_le_one.mpr fun a ha b hb => ?_) ?_
    · rw [htouch a (Finset.mem_filter.mp ha).2.1, htouch b (Finset.mem_filter.mp hb).2.1]
    · split <;> omega
  · have hnone : ((Finset.range MAXFILE).filter fun bn =>
        Touches (Dirent.size * k) Dirent.size bn ∧
          s.own p ((s.icache p).inum, slotOf bn) = 0) = ∅ := by
      refine Finset.filter_eq_empty_iff.mpr fun bn _ hbn => hthere hmod ?_
      rw [← htouch bn hbn.1]
      exact hbn.2
    have hind : ¬(0 < Dirent.size ∧ NDIRECT * BSIZE < Dirent.size * k + Dirent.size ∧
        (s.icache p).din.addr NDIRECT = 0) := by
      rintro ⟨-, hlt, hzero⟩
      refine hthere hmod ?_
      simp only [Dirent.size, DIRSIZ, BSIZE, NDIRECT] at hlt
      have hslot : slotOf (k / 32) = k / 32 + 1 := if_neg (by simp only [NDIRECT]; omega)
      have hgt : ¬k / 32 + 1 ≤ NDIRECT := by
        simp only [NDIRECT]
        omega
      have haddr : slotAddr s.disk (s.icache p).din (k / 32 + 1) = 0 := by
        rw [slotAddr, if_neg hgt, if_pos (.inl hzero)]
      rw [State.own, own, view_self, hslot, haddr, ite_self]
    rw [hnone, Finset.card_empty, if_neg hind, if_neg hmod]

theorem OpenDir.calm_dirlink (hdir : OpenDir s p i) (h : Held s r)
    (hfind : (s.node i).lookup name = none) (hfull : ¬(s.node i).Full) (hroom : Room E s 3)
    (hspare : Spare E s (m + s.needed p (Dirent.size * (s.slots i).free) Dirent.size)) :
    (dirlink dev p name inum).wp E (fun x t => (t.locks = s.locks ∧
        t.outstanding = s.outstanding ∧ t.logSize = s.logSize ∧ Spare E t m) ∧
        ¬(s.node i).Full ∧ x = 0 ∧ Held t r ∧ Keeps r s t ∧
        Stored p i (s.slots i).free (newSlot name inum) s t) s := by
  refine wp_also ?_ (wp_mono (hdir.wp_dirlink_held h hfind) (fun _ _ => trivial)
    fun _ _ => id)
  have hv := hdir.valid
  have hlen : (Dirent.store ⟨UInt16.ofNat inum, strncpy name DIRSIZ⟩).length = Dirent.size :=
    Dirent.length_store length_strncpy
  have hoff := hdir.toNat_offset Slots.free_le
  have hle : Dirent.size * (s.slots i).free ≤ (s.icache p).din.size.toNat := by
    rw [← hdir.length_eq, ← hdir.length_slots]
    exact Nat.mul_le_mul_left _ Slots.free_le
  have hmax : MAXFILE * BSIZE < 2 ^ 32 := by decide
  have hfits := hfull
  rw [hdir.full_iff, Nat.not_lt] at hfits
  have hrefused : ¬WriteRefused (s.icache p).din.size.toNat
      (Dirent.size * (s.slots i).free) Dirent.size := by
    simp only [WriteRefused]
    omega
  have hspan : span (Dirent.size * (s.slots i).free) Dirent.size = 1 := by
    rw [span, if_neg (by decide)]
    simp only [Dirent.size, DIRSIZ, BSIZE]
    omega
  have hdue : s.due p ≤ 1 := by
    unfold State.due
    split <;> omega
  refine hdir.wp_dirlink_new hfind ?_
  have hwrite : (writei dev p (Dirent.store ⟨UInt16.ofNat inum, strncpy name DIRSIZ⟩)
      (UInt32.ofNat (Dirent.size * (s.slots i).free))).wp E _ s :=
    wp_writei_spare (n := m) h.inv hv hdir.not_dev (by rw [hlen]; decide)
      (fun _ => by rw [hoff, hlen, hspan]; exact hroom.mono (by omega))
      (fun _ => by rw [hoff, hlen]; exact hspare)
  rw [hoff, hlen] at hwrite
  refine wp_imp hwrite fun x t ht => ?_
  rw [if_neg hrefused] at ht
  obtain ⟨rfl, u, hu, hsp, rfl⟩ := ht
  rw [if_neg (not_not_intro rfl)]
  have hw := hu.wrote h.inv hv hle (by rw [hlen]; omega)
  rw [hlen] at hw
  have hworking := hu.grows.working (h.inv.pending hv).working
  refine ⟨hw.tags.locks, ?_, ?_, hsp.resize hworking.geometry hworking.inum⟩
  · rw [State.resize]
    split <;> exact hu.grows.outstanding
  · rw [State.resize]
    split <;> exact hu.grows.logSize

/-- In a full directory, the panic is that of `dirlink`. -/
theorem OpenDir.wp_dirlink_refused (hdir : OpenDir s p i) (h : Held s r)
    (hfind : (s.node i).lookup name = none) (hfull : (s.node i).Full) :
    (dirlink dev p name inum).wp (fun e => e = .panic "dirlink") (fun _ _ => False) s := by
  have hlen : (Dirent.store ⟨UInt16.ofNat inum, strncpy name DIRSIZ⟩).length = Dirent.size :=
    Dirent.length_store length_strncpy
  have hrefused : WriteRefused (s.icache p).din.size.toNat
      (UInt32.ofNat (Dirent.size * (s.slots i).free)).toNat
      (Dirent.store ⟨UInt16.ofNat inum, strncpy name DIRSIZ⟩).length := by
    rw [hdir.toNat_offset Slots.free_le, hlen]
    exact .inr (.inr (hdir.full_iff.mp hfull))
  refine hdir.wp_dirlink_new hfind (wp_imp (wp_writei_spare (n := 0) h.inv hdir.valid hdir.not_dev
    (by rw [hlen]; decide) (absurd hrefused) (absurd hrefused)) fun x t ht => ?_)
  rw [if_pos hrefused] at ht
  rw [ht.1, if_pos (by decide)]

/-! ## Paths of one name -/

/-- The path is a name in the current directory. -/
structure IsName (path : List UInt8) : Prop where
  skip : skipelem path = some (path, [])
  components : components path = [path]
  head : path.head? ≠ some slash
  nonempty : path ≠ []

theorem IsName.startOf (h : IsName path) : s.startOf cwd path = (s.icache cwd).inum := by
  rw [State.startOf, if_neg h.head]

/-- What `namex` needs in order to return. -/
structure Free (s : State) (r : Refs) (cwd : Ip) : Prop extends Ready s r cwd where
  room : TwoFree r
  locks : ∀ p, s.locks p = false
  typed : Typed s (s.icache cwd).inum

theorem Free.still (hf : Free s r cwd) (hst : Still r s t) (hl : t.locks = s.locks) :
    Free t r cwd := by
  refine ⟨hf.toReady.still hst, hf.room, fun p => ?_, ?_⟩
  · rw [hl]
    exact hf.locks p
  · rw [hst.inum cwd hf.pinned]
    exact hst.typed hf.typed

theorem Free.calm_namex {npar : Bool} (hf : Free s r cwd) (h : Held s r) (hpath : IsName path) :
    (namex dev cwd path npar).wp E (fun _ t => t.locks = s.locks ∧ SameLog s t) s := by
  refine wp_imp (wp_also (still_namex h hf.dirs hf.pinned hf.startOf (.inl ?_))
    (log_namex h hf.dirs hf.pinned hpath.skip hpath.head hpath.nonempty)) ?_
  · refine ⟨hf.room, hf.locks, ?_⟩
    rw [hpath.startOf]
    exact hf.typed
  · rintro x t ⟨⟨-, hl, -⟩, hlog⟩
    exact ⟨hl, hlog⟩

theorem Free.calm_namei (hf : Free s r cwd) (h : Held s r) (hpath : IsName path) :
    (namei dev cwd path).wp E (fun x t => (t.locks = s.locks ∧ SameLog s t) ∧ Still r s t ∧
      match x with
      | none => Held t r ∧ follow s.node (s.icache cwd).inum [path] = none
      | some q => Held t (r + one q) ∧ Leads t r (t.icache q).inum ∧
        follow s.node (s.icache cwd).inum [path] = some (t.icache q).inum) s := by
  have hnamei : (namei dev cwd path).wp (fun _ => True) _ s := hf.toReady.wp_namei h
  rw [hpath.startOf, hpath.components] at hnamei
  refine wp_also ?_ hnamei
  rw [namei, wp_bind]
  exact hf.calm_namex h hpath

theorem Free.calm_nameiparent (hf : Free s r cwd) (h : Held s r) (hpath : IsName path) :
    (nameiparent dev cwd path).wp E (fun x t => (t.locks = s.locks ∧ SameLog s t) ∧ Still r s t ∧
      match x with
      | none => Held t r ∧ followParent s.node (s.icache cwd).inum [path] = none
      | some (q, name) => Held t (r + one q) ∧ Leads t r (t.icache q).inum ∧
        (t.node (t.icache q).inum).type = T_DIR ∧
        followParent s.node (s.icache cwd).inum [path] = some ((t.icache q).inum, name)) s := by
  have hparent : (nameiparent dev cwd path).wp (fun _ => True) _ s := hf.toReady.wp_nameiparent h
  rw [hpath.startOf, hpath.components] at hparent
  exact wp_also (hf.calm_namex h hpath) hparent

end

/-! ## One name after the other -/

/-- The names that are added, of two bytes each. -/
def nameOf (n : Nat) : List UInt8 := [UInt8.ofNat (48 + n % 128), UInt8.ofNat (48 + n / 128)]

/-- The number of entries of a full directory. -/
def maxEntries : Nat := MAXFILE * BSIZE / Dirent.size

/-- The root directory has `n` entries for inode 2, a file with `m` links, and there are blocks for all
entries that are missing. -/
structure Stage (n m : Nat) (s : State) : Prop where
  logSize : s.logSize = LOGSIZE
  size : s.sb.size.toNat ≤ FSSIZE
  ninodes : 2 < s.sb.ninodes.toNat
  type : (s.node 1).type = T_DIR
  aligned : (s.node 1).data.length % Dirent.size = 0
  slots : s.slots 1 = (List.range n).map fun j => some (nameOf j, 2)
  file : (s.node 2).type = T_FILE
  nlink : (s.node 2).nlink = UInt16.ofNat m
  dirs : ∀ i, (s.node i).type = T_DIR → i = 1
  spare : Spare (fun _ => False) s (2 * (140 - (n + 31) / 32))

/-- The root is the current directory, and nothing is going on. -/
structure Filled (cwd : Ip) (n : Nat) (s : State) : Prop extends Stage n n s where
  held : Held s (one cwd)
  inum : (s.icache cwd).inum = 1
  locks : ∀ p, s.locks p = false
  outstanding : s.outstanding = 0
  lh : s.lh = []

/-- In the middle of a `link`, the new link was counted. -/
structure Counted (cwd q : Ip) (n : Nat) (s : State) : Prop extends Stage n (n + 1) s where
  held : Held s (one cwd + one q)
  free : Free s (one cwd + one q) cwd
  inum : (s.icache cwd).inum = 1
  source : (s.icache q).inum = 2
  outstanding : s.outstanding = 1
  lh : s.lh.length ≤ 1

/-- After that, the directory was locked. -/
structure Linking (cwd q : Ip) (n : Nat) (s : State) : Prop extends Stage n (n + 1) s where
  held : Held s (one cwd + one q + one cwd)
  valid : Valid s cwd
  inum : (s.icache cwd).inum = 1
  source : (s.icache q).inum = 2
  locks : s.locks = Function.update (fun _ => false) cwd true
  outstanding : s.outstanding = 1
  lh : s.lh.length ≤ 1

section
variable {dev : DevSw} {s t : State} {r : Refs} {cwd q : Ip} {i j m n : Nat} {E : Fault → Prop}

theorem one_self_ne : one cwd cwd ≠ 0 := by
  rw [one, Pi.single_eq_same]
  exact one_ne_zero

theorem toNat_nameOf (h : n ≤ maxEntries) :
    (UInt8.ofNat (48 + n % 128)).toNat = 48 + n % 128 ∧
      (UInt8.ofNat (48 + n / 128)).toNat = 48 + n / 128 := by
  have hmax : maxEntries = 4480 := by decide
  rw [UInt8.toNat_ofNat', UInt8.toNat_ofNat']
  omega

theorem nameOf_inj (hn : n ≤ maxEntries) (hm : m ≤ maxEntries) (h : nameOf n = nameOf m) : n = m := by
  simp only [nameOf, List.cons.injEq, and_true] at h
  have hfst := congrArg UInt8.toNat h.1
  have hsnd := congrArg UInt8.toNat h.2
  rw [(toNat_nameOf hn).1, (toNat_nameOf hm).1] at hfst
  rw [(toNat_nameOf hn).2, (toNat_nameOf hm).2] at hsnd
  omega

theorem ne_of_toNat {a b : UInt8} (h : a.toNat ≠ b.toNat) : a ≠ b := fun heq => h (by rw [heq])

theorem isName_pair {a b : UInt8} (ha : a ≠ slash) (hb : b ≠ slash) : IsName [a, b] := by
  refine ⟨?_, ?_, ?_, nofun⟩
  · simp [skipelem, ha, hb, DIRSIZ]
  · refine components_word nofun fun c hc => ?_
    simp only [mem_cons, not_mem_nil, or_false] at hc
    rcases hc with rfl | rfl
    · exact ha
    · exact hb
  · simp [ha]

theorem cname_pair {a b : UInt8} (ha : a ≠ 0) (hb : b ≠ 0) : cname [a, b] = [a, b] := by
  simp [cname, DIRSIZ, ha, hb]

theorem isName_nameOf (h : n ≤ maxEntries) : IsName (nameOf n) := by
  have hslash : slash.toNat = 47 := rfl
  refine isName_pair (ne_of_toNat ?_) (ne_of_toNat ?_)
  · rw [(toNat_nameOf h).1]
    omega
  · rw [(toNat_nameOf h).2]
    omega

theorem cname_nameOf (h : n ≤ maxEntries) : cname (nameOf n) = nameOf n := by
  refine cname_pair (ne_of_toNat ?_) (ne_of_toNat ?_)
  · rw [(toNat_nameOf h).1, UInt8.toNat_zero]
    omega
  · rw [(toNat_nameOf h).2, UInt8.toNat_zero]
    omega

theorem getElem?_slots (hslots : s.slots 1 = (List.range n).map fun j => some (nameOf j, 2))
    {x : List UInt8 × Nat} (hx : (s.slots 1)[i]? = some (some x)) : i < n ∧ x = (nameOf i, 2) := by
  rw [hslots, List.getElem?_map, Option.map_eq_some_iff] at hx
  obtain ⟨a, ha, hax⟩ := hx
  obtain ⟨hi, rfl⟩ := List.getElem?_eq_some_iff.mp ha
  rw [length_range] at hi
  rw [getElem_range] at hax
  cases hax
  exact ⟨hi, rfl⟩

theorem lookup_nameOf (hslots : s.slots 1 = (List.range n).map fun j => some (nameOf j, 2))
    (hn : n ≤ maxEntries) (hj : j ≤ maxEntries) :
    (s.node 1).lookup (nameOf j) = if j < n then some 2 else none := by
  change (s.slots 1).find (cname (nameOf j)) = _
  rw [cname_nameOf hj]
  split
  next hlt =>
    cases hfind : (s.slots 1).find (nameOf j) with
    | none =>
      refine absurd ?_ (Slots.find_eq_none.mp hfind j 2)
      rw [hslots, List.getElem?_map, List.getElem?_range hlt]
      rfl
    | some b =>
      obtain ⟨i, hi⟩ := Slots.mem_of_find hfind
      exact congrArg some (congrArg Prod.snd (getElem?_slots hslots hi).2)
  next hge =>
    refine Slots.find_eq_none.mpr fun i b hi => hge ?_
    obtain ⟨hlt, heq⟩ := getElem?_slots hslots hi
    rw [nameOf_inj hj (hlt.le.trans hn) (congrArg Prod.fst heq)]
    exact hlt

/-- Paths lead nowhere but to the directory and the file. -/
theorem Stage.follow (h : Stage n m s) {names : List (List UInt8)}
    (hj : follow s.node 1 names = some j) : j = 1 ∨ j = 2 := by
  cases names with
  | nil => exact .inl (Option.some.inj hj).symm
  | cons name names =>
  rw [follow_cons, Option.bind_eq_some_iff] at hj
  obtain ⟨x, hx, hj⟩ := hj
  -- the first name is that of the file, in which there is none
  have hx2 : x = 2 := by
    rw [lookupIn] at hx
    split at hx
    next =>
      obtain ⟨k, hk⟩ := Slots.mem_of_find hx
      exact congrArg Prod.snd (getElem?_slots h.slots hk).2
    next => cases hx
  rw [hx2] at hj
  cases names with
  | nil => exact .inr (Option.some.inj hj).symm
  | cons name names =>
    rw [follow_cons, lookupIn, if_neg (by rw [h.file]; decide)] at hj
    cases hj

theorem twoFree_pair (a b : Ip) : TwoFree (one a + one b) := by
  have hcard : 1 < (Finset.univ \ {a, b} : Finset Ip).card := by
    have hle := Finset.le_card_sdiff {a, b} (Finset.univ : Finset Ip)
    have htwo : ({a, b} : Finset Ip).card ≤ 2 := Finset.card_le_two
    have hall : (Finset.univ : Finset Ip).card = 50 := by decide
    omega
  obtain ⟨p, hp, q, hq, hne⟩ := Finset.one_lt_card.mp hcard
  have hzero : ∀ x ∈ (Finset.univ \ {a, b} : Finset Ip), (one a + one b) x = 0 := by
    intro x hx
    simp only [Finset.mem_sdiff, Finset.mem_univ, Finset.mem_insert, Finset.mem_singleton, true_and,
      not_or] at hx
    rw [add_one_of_ne hx.2, one, Pi.single_eq_of_ne hx.1]
  exact ⟨p, q, hne, hzero p hp, hzero q hq⟩

theorem TwoFree.of_add {r : Refs} (h : TwoFree (r + one q)) : TwoFree r := by
  have hzero : ∀ {x}, (r + one q) x = 0 → r x = 0 := fun {x} hx => by
    by_contra hne
    exact add_one_ne hne hx
  obtain ⟨a, b, hne, ha, hb⟩ := h
  exact ⟨a, b, hne, hzero ha, hzero hb⟩

theorem ofNat_ne_zero (hn : 1 ≤ n) (hle : n ≤ maxEntries + 1) : UInt16.ofNat n ≠ 0 := by
  intro heq
  have := congrArg UInt16.toNat heq
  have hmax : maxEntries = 4480 := by decide
  rw [UInt16.toNat_ofNat', UInt16.toNat_zero] at this
  omega

theorem Stage.typed (h : Stage n m s) : Typed s 1 := by
  intro names j hj
  rcases h.follow hj with rfl | rfl
  · rw [h.type]
    decide
  · rw [h.file]
    decide

theorem Filled.free (h : Filled cwd n s) (hn : 1 ≤ n) (hle : n ≤ maxEntries) :
    Free s (one cwd) cwd := by
  have hleads : Leads s (one cwd) 1 := by
    intro names j hj
    rcases h.follow hj with rfl | rfl
    · exact .inr (.inr ⟨cwd, one_self_ne, h.inum⟩)
    · refine .inr (.inl ?_)
      rw [h.nlink]
      exact ofNat_ne_zero hn (by omega)
  refine ⟨⟨⟨?_, fun i hi => ?_, fun i hi k name inum hk => ?_⟩, one_self_ne, hleads, ?_⟩,
    (twoFree_pair cwd cwd).of_add, h.locks, ?_⟩
  · have := h.ninodes
    simp only [ROOTINO]
    omega
  · rw [h.dirs i hi]
    exact h.aligned
  · rw [h.dirs i hi] at hk
    have hinum : inum = 2 := congrArg Prod.snd (getElem?_slots h.slots hk).2
    rw [hinum]
    exact h.ninodes
  · rw [h.inum]
    exact hleads
  · rw [h.inum]
    exact h.typed

/-- A change of the links of the file. -/
theorem Stage.tagged {k : Nat} (h : Stage n m s) (hlog : t.logSize = s.logSize) (hsb : t.sb = s.sb)
    (hsame : ∀ i, (t.node i).type = (s.node i).type ∧ (t.node i).data = (s.node i).data)
    (hnlink : (t.node 2).nlink = UInt16.ofNat k)
    (hspare : Spare (fun _ => False) t (2 * (140 - (n + 31) / 32))) : Stage n k t where
  logSize := hlog.trans h.logSize
  size := hsb ▸ h.size
  ninodes := hsb ▸ h.ninodes
  type := (hsame 1).1.trans h.type
  aligned := by
    rw [(hsame 1).2]
    exact h.aligned
  slots := by
    rw [State.slots, (hsame 1).2]
    exact h.slots
  file := (hsame 2).1.trans h.file
  nlink := hnlink
  dirs i hi := h.dirs i ((hsame i).1.symm.trans hi)
  spare := hspare

theorem Stage.still (h : Stage n m s) (hst : Still r s t) (hlog : t.logSize = s.logSize) :
    Stage n m t := by
  refine h.tagged hlog hst.sb (fun i => ?_) ?_ (h.spare.congr hst.sb hst.disk)
  · rw [hst.node]
    exact ⟨rfl, rfl⟩
  · rw [hst.node, h.nlink]

/-- The part of `sys_link` from the new entry on. -/
def linkRest (dev : DevSw) (ip dp : Ip) (name : List UInt8) : FsM Int := do
  let inum ← Prog.gets fun s => (s.icache ip).inum
  let r ← dirlink dev dp name inum
  if r < 0 then do
    iunlockput dp
    linkBad ip
  else do
    iunlockput dp
    iput ip
    endOp
    pure 0

/-- The part of `sys_link` after the new link was counted. -/
def linkParent (dev : DevSw) (cwd ip : Ip) (new : List UInt8) : FsM Int := do
  match ← nameiparent dev cwd new with
  | none => linkBad ip
  | some (dp, name) => do
    ilock dp
    linkRest dev ip dp name

theorem Stage.follow_first (h : Stage n m s) (hn : 1 ≤ n) (hle : n ≤ maxEntries) :
    Fs.follow s.node 1 [nameOf 0] = some 2 := by
  rw [follow_cons, lookupIn, if_pos h.type, lookup_nameOf h.slots hle (Nat.zero_le _),
    if_pos (Nat.pos_of_ne_zero (Nat.one_le_iff_ne_zero.mp hn))]
  rfl

theorem Stage.followParent (h : Stage n m s) {name : List UInt8} :
    Fs.followParent s.node 1 [name] = some (1, name) := by
  simp [Fs.followParent, h.type, Fs.follow]

/-- A new link to the file is counted. -/
theorem Filled.wp_sysLink {Q : Int → State → Prop} (h : Filled cwd n s) (hn : 1 ≤ n)
    (hle : n ≤ maxEntries)
    (hQ : ∀ q t, Counted cwd q n t → (linkParent dev cwd q (nameOf n)).wp E Q t) :
    (sysLink dev cwd (some (nameOf 0)) (some (nameOf n))).wp E Q s := by
  have hf := h.free hn hle
  have hcwd := hf.pinned
  rw [sysLink, wp_bind]
  refine wp_beginOp (.inl (by rw [h.lh, h.outstanding]; decide)) ?_
  let s₁ : State := { s with outstanding := s.outstanding + 1 }
  obtain ⟨h₁, hst₁⟩ : Held s₁ (one cwd) ∧ Still (one cwd) s s₁ := h.held.congr rfl rfl rfl
  -- the file is found
  refine wp_seq ((hf.still hst₁ rfl).calm_namei h₁ (isName_nameOf (Nat.zero_le _))) ?_
  rintro x s₂ ⟨⟨hl₂, hlog₂⟩, hst₂, hx⟩
  rw [hst₁.node, hst₁.inum cwd hcwd, h.inum, h.follow_first hn hle] at hx
  cases x with
  | none => cases hx.2
  | some q =>
  obtain ⟨h₂, -, hq₂⟩ := hx
  have hinum₂ : (s₂.icache q).inum = 2 := (Option.some.inj hq₂).symm
  have hlocks₂ : s₂.locks = fun _ => false := by
    rw [hl₂]
    exact funext h.locks
  have hstage₂ := h.toStage.still (hst₁.trans hst₂) hlog₂.2.2
  -- its inode is changed
  refine wp_seq (wp_also (still_ilock h₂ add_one_self_ne (.inl ⟨congrFun hlocks₂ q, ?_⟩))
    log_ilock) ?_
  · rw [hinum₂, hstage₂.file]
    decide
  rintro _ s₃ ⟨⟨h₃, hst₃, -, hl₃, hv₃⟩, hlog₃⟩
  have hst : Still (one cwd) s s₃ := (hst₁.trans hst₂).trans hst₃.of_add
  have hinum₃ : (s₃.icache q).inum = 2 := (hst₃.inum q add_one_self_ne).trans hinum₂
  have hstage₃ := hstage₂.still hst₃ hlog₃.2.2
  have hlog := hlog₂.trans hlog₃
  have hlh₃ : s₃.lh = [] := hlog.2.1.trans h.lh
  have hout₃ : s₃.outstanding = 1 := hlog.1.trans (congrArg (· + 1) h.outstanding)
  rw [wp_bind, wp_gets, if_neg ?_]
  swap
  · rw [← (h₃.inv.node_of_valid hv₃).1, hinum₃, hstage₃.file]
    decide
  have hroom : Room E s₃ 3 :=
    room_link hstage₃.logSize hout₃ (by rw [hlh₃]; exact Nat.zero_le _) hstage₃.size
  have hrelink := calm_relink (g := (· + 1)) h₃ hv₃ hroom hlh₃ hstage₃.spare
  rw [wp_bind] at hrelink ⊢
  refine wp_imp hrelink fun _ u hu => ?_
  rw [wp_bind] at hu ⊢
  refine wp_imp hu ?_
  rintro _ s₄ ⟨⟨hl₄, hout₄, hsz₄, hlh₄, hspare₄⟩, h₄, htag₄⟩
  refine wp_seq (wp_also (still_iunlock h₄ add_one_self_ne (.inl ?_)) log_iunlock) ?_
  · rw [hl₄, hl₃, update_self]
  rintro _ s₅ ⟨⟨h₅, hst₅, hl₅⟩, hlog₅⟩
  have hready : Ready s₅ (one cwd + one q) cwd :=
    (htag₄.still hst₅).ready (hf.toReady.still hst)
  rw [hinum₃] at htag₄
  have hpin := (htag₄.still hst₅).inum
  have hinum₅ : (s₅.icache cwd).inum = 1 :=
    (hpin cwd (add_one_ne hcwd)).trans ((hst.inum cwd hcwd).trans h.inum)
  have hlocks₅ : s₅.locks = fun _ => false := by
    rw [hl₅, hl₄, hl₃, hlocks₂, update_idem]
    exact update_eq_self q fun _ : Ip => false
  have hlink₄ : (s₄.node 2).nlink = UInt16.ofNat (n + 1) := by
    rw [htag₄.node, hstage₃.nlink, UInt16.ofNat_add]
    rfl
  have hstage₅ :=
    (hstage₃.tagged hsz₄ htag₄.sb htag₄.same hlink₄ hspare₄).still hst₅ hlog₅.2.2
  have hfree₅ : Free s₅ (one cwd + one q) cwd := by
    refine ⟨hready, twoFree_pair cwd q, congrFun hlocks₅, ?_⟩
    rw [hinum₅]
    exact hstage₅.typed
  refine hQ q s₅ ⟨hstage₅, h₅, hfree₅, hinum₅, ?_, ?_, ?_⟩
  · rw [hpin q add_one_self_ne, hinum₃]
  · rw [hlog₅.1, hout₄, hout₃]
  · rw [hlog₅.2.1]
    exact hlh₄

/-- The directory of the new name is found and locked. -/
theorem Counted.wp_parent {Q : Int → State → Prop} (h : Counted cwd q n s) (hle : n ≤ maxEntries)
    (hQ : ∀ t, Linking cwd q n t → (linkRest dev q cwd (nameOf n)).wp E Q t) :
    (linkParent dev cwd q (nameOf n)).wp E Q s := by
  have hcwd := h.free.pinned
  refine wp_seq (h.free.calm_nameiparent h.held (isName_nameOf hle)) ?_
  rintro x s₁ ⟨⟨hl₁, hlog₁⟩, hst₁, hx⟩
  rw [h.inum, h.followParent] at hx
  cases x with
  | none => cases hx.2
  | some x =>
  obtain ⟨dp, name⟩ := x
  obtain ⟨h₁, -, htype₁, heq⟩ := hx
  -- the current directory is in the cache once
  have hdp : (s₁.icache dp).inum = 1 := (congrArg Prod.fst (Option.some.inj heq)).symm
  have hcwd₁ : (s₁.icache cwd).inum = 1 := (hst₁.inum cwd hcwd).trans h.inum
  have hdpcwd : dp = cwd := h₁.inv.cached.unique dp cwd (h₁.ref_pos add_one_self_ne)
    (h₁.ref_pos (add_one_ne hcwd)) (hdp.trans hcwd₁.symm)
  have hname : nameOf n = name := congrArg Prod.snd (Option.some.inj heq)
  subst hdpcwd
  subst hname
  dsimp only
  refine wp_seq (wp_also (still_ilock h₁ add_one_self_ne (.inl ⟨?_, ?_⟩)) log_ilock) ?_
  · rw [hl₁]
    exact h.free.locks dp
  · rw [htype₁]
    decide
  rintro _ s₂ ⟨⟨h₂, hst₂, -, hl₂, hv₂⟩, hlog₂⟩
  have hlog := hlog₁.trans hlog₂
  have hst := hst₁.trans hst₂.of_add
  refine hQ s₂ ⟨h.toStage.still hst hlog.2.2, h₂, hv₂, ?_, ?_, ?_, ?_, ?_⟩
  · rw [hst.inum dp hcwd, h.inum]
  · rw [hst.inum q add_one_self_ne, h.source]
  · rw [hl₂, hl₁]
    exact congrArg (fun f => update f dp true) (funext h.free.locks)
  · rw [hlog.1, h.outstanding]
  · rw [hlog.2.1]
    exact h.lh

theorem Stage.free_eq (h : Stage n m s) : (s.slots 1).free = n := by
  rw [h.slots, Slots.free, findIdx_eq_length_of_false]
  · rw [length_map, length_range]
  · intro x hx
    obtain ⟨j, -, rfl⟩ := mem_map.mp hx
    rfl

theorem Stage.length (h : Stage n m s) : (s.slots 1).length = n := by
  rw [h.slots, length_map, length_range]

theorem Linking.dir (h : Linking cwd q n s) : OpenDir s cwd 1 :=
  h.held.openDir h.valid h.inum h.type h.aligned

theorem Linking.full_iff (h : Linking cwd q n s) : (s.node 1).Full ↔ maxEntries ≤ n := by
  rw [h.dir.full_iff, h.free_eq]
  simp only [maxEntries, Dirent.size, DIRSIZ]
  omega

theorem Linking.new (h : Linking cwd q n s) (hle : n ≤ maxEntries) :
    (s.node 1).lookup (nameOf n) = none := by
  rw [lookup_nameOf h.slots hle hle, if_neg (Nat.lt_irrefl n)]

theorem Stage.stored (h : Stage n (n + 1) s) (hlt : n < maxEntries) (hheld : Held t r)
    (hst : Stored cwd 1 (s.slots 1).free (newSlot (nameOf n) 2) s t) (hsb : t.sb = s.sb)
    (hlog : t.logSize = s.logSize)
    (hspare : Spare (fun _ => False) t (2 * (140 - (n + 1 + 31) / 32))) :
    Stage (n + 1) (n + 1) t where
  logSize := hlog.trans h.logSize
  size := hsb ▸ h.size
  ninodes := hsb ▸ h.ninodes
  type := by
    have hnode := (hheld.inv.node_of_valid hst.dir.valid).1
    rw [hst.dir.inum] at hnode
    exact hnode.trans hst.dir.type
  aligned := hst.dir.size
  slots := by
    have hslot : newSlot (nameOf n) 2 = some (nameOf n, 2) := by
      rw [newSlot, slot_dirlink (by decide) (by decide), cname_nameOf hlt.le]
    rw [hst.slots, h.free_eq, hslot, Slots.store, h.length, if_neg (Nat.lt_irrefl n), h.slots,
      range_succ, map_append]
    rfl
  file := by rw [hst.node 2 (by decide), h.file]
  nlink := by rw [hst.node 2 (by decide), h.nlink]
  dirs i hi := by
    by_contra hne
    rw [hst.node i hne] at hi
    exact hne (h.dirs i hi)
  spare := hspare

/-- The link that was counted gets its entry. -/
theorem Linking.wp_rest (h : Linking cwd q n s) (hlt : n < maxEntries) :
    (linkRest dev q cwd (nameOf n)).wp (fun _ => False) (fun _ t => Filled cwd (n + 1) t) s := by
  have hmax : maxEntries = 4480 := by decide
  have hspare : Spare (fun _ => False) s (2 * (140 - (n + 1 + 31) / 32) +
      s.needed cwd (Dirent.size * (s.slots 1).free) Dirent.size) := by
    refine h.spare.mono ?_
    rw [h.free_eq]
    have hneeded := h.dir.needed_le h.held.inv h.length
    split at hneeded <;> omega
  rw [linkRest, wp_bind, wp_gets, h.source]
  refine wp_seq (h.dir.calm_dirlink h.held (h.new hlt.le) (by rw [h.full_iff]; omega)
    (room_link h.logSize h.outstanding h.lh h.size) hspare) ?_
  rintro x s₁ ⟨⟨hl₁, hout₁, hsz₁, hspare₁⟩, -, rfl, h₁, hkeep₁, hstored₁⟩
  have hstage₁ := h.toStage.stored hlt h₁ hstored₁ hkeep₁.sb hsz₁ hspare₁
  have hq₁ : (s₁.icache q).inum = 2 := (hkeep₁.inum q (add_one_ne add_one_self_ne)).trans h.source
  rw [if_neg (by decide)]
  -- the directory is unlocked; it stays the current one
  have hput := wp_also (still_iunlockput (E := fun _ => False) h₁
    (.inr (.inr ⟨cwd, add_one_ne one_self_ne, rfl⟩))
    (.inl (by rw [hl₁, h.locks, update_self])))
    (log_iunlockput (h₁.one_lt_ref (add_one_ne one_self_ne)))
  refine wp_seq hput ?_
  rintro _ s₂ ⟨⟨h₂, hst₂, hl₂⟩, hlog₂⟩
  have hstage₂ := hstage₁.still hst₂ hlog₂.2.2
  have hq₂ : (s₂.icache q).inum = 2 := (hst₂.inum q add_one_self_ne).trans hq₁
  -- the file has links, so that it is not freed
  have hlink : (s₂.node 2).nlink ≠ 0 := by
    rw [hstage₂.nlink]
    exact ofNat_ne_zero (by omega) (by omega)
  refine wp_seq (wp_also (still_iput h₂ (.inr (.inl (by rw [hq₂]; exact hlink))))
    (log_iput (E := fun _ => True) ?_)) ?_
  · rintro ⟨hone, hvalid, hzero⟩
    refine hlink ?_
    rw [← hq₂, (h₂.inv.node_of_valid ⟨by omega, hvalid⟩).2.1, hzero]
  rintro _ s₃ ⟨⟨h₃, hst₃, hl₃⟩, hlog₃⟩
  have hstage₃ := hstage₂.still hst₃ hlog₃.2.2
  have hout₃ : s₃.outstanding = 1 := by rw [hlog₃.1, hlog₂.1, hout₁, h.outstanding]
  refine wp_seq (calm_endOp h₃ hout₃) ?_
  rintro _ s₄ ⟨⟨hout₄, hlh₄, hsz₄, hl₄⟩, h₄, hst₄⟩
  refine ⟨hstage₃.still hst₄ hsz₄, h₄, ?_, fun p => ?_, hout₄, hlh₄⟩
  · rw [hst₄.inum cwd one_self_ne, hst₃.inum cwd one_self_ne, hst₂.inum cwd (add_one_ne one_self_ne),
      hstored₁.dir.inum]
  · rw [hl₄, hl₃, hl₂, hl₁, h.locks, update_idem]
    exact congrFun (update_eq_self cwd fun _ : Ip => false) p

theorem Linking.wp_full (h : Linking cwd q maxEntries s) :
    (linkRest dev q cwd (nameOf maxEntries)).wp (fun e => e = .panic "dirlink")
      (fun _ _ => False) s := by
  rw [linkRest, wp_bind]
  exact wp_seq (h.dir.wp_dirlink_refused h.held (h.new (Nat.le_refl _))
    (h.full_iff.mpr (Nat.le_refl _))) fun _ _ hfalse => hfalse.elim

theorem Filled.wp_link (h : Filled cwd n s) (hn : 1 ≤ n) (hlt : n < maxEntries) :
    (sysLink dev cwd (some (nameOf 0)) (some (nameOf n))).wp (fun _ => False)
      (fun _ t => Filled cwd (n + 1) t) s :=
  h.wp_sysLink hn hlt.le fun _ _ hcounted => hcounted.wp_parent hlt.le fun _ ht => ht.wp_rest hlt

theorem Filled.wp_link_full (h : Filled cwd maxEntries s) :
    (sysLink dev cwd (some (nameOf 0)) (some (nameOf maxEntries))).wp
      (fun e => e = .panic "dirlink") (fun _ _ => False) s :=
  h.wp_sysLink (by decide) (Nat.le_refl _) fun _ _ hcounted =>
    hcounted.wp_parent (Nat.le_refl _) fun _ ht => ht.wp_full

end

namespace WideDisk

def sb : Superblock := ⟨300, 296, 3, 30, 0, 2, 3⟩

/-- The super block, the inodes of an empty directory and an empty file, the free map, and data
blocks. -/
def disk : Disk := fun b =>
  if b = 1 then Bytes.zero.setWords32 0 [300, 296, 3, 30, 0, 2, 3]
  else if b = 2 then OneFile.din.store (OneName.din.store Bytes.zero 1) 2
  else if b = 3 then Bytes.zero.blit 0 [15]
  else Bytes.zero

def cwd : Ip := ⟨0, NINODE_pos⟩

def ip : Ip := ⟨1, by decide⟩

/-- The file is about to get its first name. -/
def state : State where
  disk := disk
  sb := sb
  icache p := if p = cwd then ⟨1, 2, true, true, OneName.din⟩
    else if p = ip then ⟨2, 1, false, false, .zero⟩ else ⟨0, 0, false, false, .zero⟩
  logSize := LOGSIZE
  outstanding := 1
  lh := []
  committed := []

set_option maxRecDepth 2000 in
theorem read_disk : Superblock.load (disk 1) = sb ∧
    (∀ i < sb.ninodes.toNat, (dinodeAt sb disk i).size = 0 ∧
      ∀ k, (dinodeAt sb disk i).addrs k = 0) ∧
    (∀ b < sb.size.toNat, blockBit sb disk b = decide (b < dataStart sb)) ∧
    ((state.node 1).type = T_DIR ∧ (state.node 1).data = [] ∧ (state.node 2).type = T_FILE ∧
      (state.node 2).nlink = UInt16.ofNat 1) ∧
    (∀ i < 3, (state.node i).type = T_DIR → i = 1) ∧
    2 * (140 - (0 + 31) / 32) ≤ (freeBlocks sb disk).card := by decide +kernel

theorem dinodeAt_one : dinodeAt sb disk 1 = OneName.din := by
  have hdisk : disk 2 = OneFile.din.store (OneName.din.store Bytes.zero 1) 2 :=
    (if_neg (by decide)).trans (if_pos rfl)
  rw [dinodeAt, show iblock sb 1 = 2 from rfl, hdisk, Dinode.load_store_ne (by decide)]
  exact Dinode.load_store (by decide)

theorem icache_of_ne {p : Ip} (hc : p ≠ cwd) (hi : p ≠ ip) :
    state.icache p = ⟨0, 0, false, false, .zero⟩ :=
  (if_neg hc).trans (if_neg hi)

theorem of_ref {p : Ip} (h : 0 < (state.icache p).ref) : p = cwd ∨ p = ip := by
  by_contra hne
  rw [not_or] at hne
  rw [icache_of_ne hne.1 hne.2] at h
  exact absurd h (by decide)

theorem of_valid {p : Ip} (h : Valid state p) : p = cwd := by
  rcases of_ref h.1 with rfl | rfl
  · rfl
  · exact absurd h.2 (by decide)

set_option maxRecDepth 2000 in
theorem fsInv : FsInv state := by
  refine .of_empty ⟨by decide, by decide, by decide, by decide, by decide, by decide⟩
    read_disk.1 read_disk.2.1 read_disk.2.2.1 ⟨fun p hp => ?_, fun p _ hp => ?_, fun p hp => ?_, ?_⟩
  · rcases of_ref hp with rfl | rfl <;> decide
  · obtain rfl := of_valid hp
    exact dinodeAt_one.symm
  · obtain rfl := of_valid hp
    decide
  · intro p q hp hq heq
    rcases of_ref hp with rfl | rfl <;> rcases of_ref hq with rfl | rfl
    · rfl
    · exact absurd heq (by decide)
    · exact absurd heq (by decide)
    · rfl

theorem linking : Linking cwd ip 0 state where
  logSize := rfl
  size := by decide
  ninodes := by decide
  type := read_disk.2.2.2.1.1
  aligned := by
    rw [read_disk.2.2.2.1.2.1]
    rfl
  slots := by
    rw [State.slots, read_disk.2.2.2.1.2.1]
    rfl
  file := read_disk.2.2.2.1.2.2.1
  nlink := read_disk.2.2.2.1.2.2.2
  dirs i hi := by
    by_cases hlt : i < 3
    · exact read_disk.2.2.2.2.1 i hlt hi
    · rw [show state.node i = .free from if_neg hlt] at hi
      exact absurd hi (by decide)
  spare := .inr read_disk.2.2.2.2.2
  held := by
    refine ⟨fsInv, fun p => ?_⟩
    by_cases hc : p = cwd
    · rw [hc]
      decide
    · by_cases hi : p = ip
      · rw [hi]
        decide
      · rw [icache_of_ne hc hi, add_one_of_ne hc, add_one_of_ne hi, one, Pi.single_eq_of_ne hc]
        rfl
  valid := ⟨by decide, by decide⟩
  inum := by decide
  source := by decide
  locks := by
    funext p
    by_cases hc : p = cwd
    · rw [hc, update_self]
      decide
    · rw [update_of_ne hc]
      by_cases hi : p = ip
      · rw [hi]
        decide
      · rw [State.locks, icache_of_ne hc hi]
  outstanding := rfl
  lh := Nat.zero_le _

theorem exists_filled : ∃ s, Filled cwd 1 s := by
  have hlink : (linkRest OneFile.noDev ip cwd (nameOf 0)).wp (fun _ => False) _ state :=
    linking.wp_rest (by decide)
  obtain ⟨-, s, -, hs⟩ := exists_of_wp hlink
  exact ⟨s, hs⟩

end WideDisk

end Xv6.Fs
