import Xv6.Fs.Filewrite
import Xv6.Fs.Finished
import Xv6.Fs.Still

/-!
# The kernel reads the image

A kernel that starts on the image opens a path and reads the inode that it finds. If the last block
of the root directory is there, the image satisfies the invariant of the kernel, and the files and
the directory are what `mkfs` was given. If it is not, reading the directory to its end makes `bmap`
allocate a block outside of a transaction, and the kernel panics.
-/

namespace Xv6.Fs.Mkfs

open List

/-! ## Opening and reading -/

def root : Ip := ⟨0, NINODE_pos⟩

/-- The kernel once the super block is read. The root is the current directory of the first
process. -/
def boot (disk : Disk) : State where
  disk := disk
  sb := Superblock.load (disk 1)
  icache := fun p =>
    if p = root then ⟨ROOTINO, 1, false, false, Dinode.zero⟩ else ⟨0, 0, false, false, Dinode.zero⟩
  logSize := (Superblock.load (disk 1)).nlog.toNat
  outstanding := 0
  lh := []
  committed := []

/-- What `sys_open` does to open a path for reading, without the file and its descriptor. -/
def openPath (dev : DevSw) (path : List UInt8) : FsM (Option Ip) := do
  beginOp
  match ← openInode dev root path O_RDONLY with
  | none => do
    endOp
    pure none
  | some ip => do
    iunlock ip
    endOp
    pure (some ip)

/-- `fileread` of an inode. -/
def readInode (dev : DevSw) (ip : Ip) (off n : UInt32) : FsM (Int × List UInt8) := do
  ilock ip
  let r ← readi dev ip off n
  iunlock ip
  pure r

/-- The path leads to a file with the type `type`, one link and the bytes `data`. -/
def Opens (dev : DevSw) (disk : Disk) (path : List UInt8) (type : UInt16) (data : List UInt8) :
    Prop :=
  ∃ ip s, openPath dev path (boot disk) = .ok (some ip, s) ∧
    (s.icache ip).din.type = type ∧ (s.icache ip).din.nlink = 1 ∧
    (s.icache ip).din.size.toNat = data.length ∧
    ∀ off n, readInode dev ip off n s = .ok (readResult data off n, s)

/-- The names in a directory, as `ls` goes through its entries. -/
def listing (data : List UInt8) : List (List UInt8) :=
  ((entries data).filter fun de => de.inum ≠ 0).map fun de => cname de.name

/-- The kernel finds the files in the image. -/
structure Decodes (dev : DevSw) (disk : Disk) (files : List HostFile) : Prop where
  file : ∀ f ∈ files, Opens dev disk f.name T_FILE f.bytes
  list : ∃ data, Opens dev disk [slash] T_DIR data ∧
    listing data = dot :: dotdot :: files.map fun f => f.name.take DIRSIZ

/-- The names and the sizes are good, and there are inodes and blocks for the files. -/
structure Input (files : List HostFile) : Prop where
  nonempty : ∀ f ∈ files, f.name ≠ []
  slashFree : ∀ f ∈ files, slash ∉ f.name
  notDot : ∀ f ∈ files, f.name ≠ dot ∧ f.name ≠ dotdot
  distinct : (files.map fun f => f.name.take DIRSIZ).Nodup
  size : ∀ f ∈ files, f.bytes.length ≤ MAXFILE * BSIZE
  inodes : files.length + 1 < NINODES
  fit : nmeta + total (contents files) ≤ FSSIZE

/-! ## A kernel in which the invariant holds -/

section
variable {s t : State} {ip p : Ip} {r : Refs} {dev : DevSw} {path : List UInt8} {off n : UInt32}
variable {E : Fault → Prop} {j : Nat}

/-- The entry `ip` can be locked and read. -/
structure Opened (s : State) (ip : Ip) : Prop where
  inv : FsInv s
  valid : Valid s ip
  unlocked : s.locks ip = false

theorem unlock_lock (hv : (s.icache p).valid = true) (hl : (s.icache p).locked = false) :
    (s.lock p).setInode p { (s.lock p).icache p with locked := false } = s := by
  have hentry : { (s.lock p).icache p with locked := false } = s.icache p := by
    rw [State.lock, State.setInode_self, if_pos hv, ← hl, ← hv]
  rw [hentry, State.lock, State.setInode, State.setInode, update_idem,
    update_eq_self]

theorem Opened.read (h : Opened s ip) (hdev : (s.icache ip).din.type ≠ T_DEV) :
    readInode dev ip off n s =
      .ok (readResult (s.node (s.icache ip).inum).data off n, s) := by
  have hl : (s.icache ip).locked = false := h.unlocked
  refine eq_ok_of_wp ?_
  rw [readInode, wp_bind]
  refine wp_ilock_eq (.inl ⟨h.valid.1, hl, fun hv => ?_⟩) fun hpos _ htype => ?_
  · rw [h.valid.2] at hv
    cases hv
  have hself : (s.lock ip).icache ip = { s.icache ip with locked := true, valid := true } := by
    rw [State.lock, State.setInode_self, h.valid.2]
    rfl
  have hdev' : ((s.lock ip).icache ip).din.type ≠ T_DEV := by
    rw [hself]
    exact hdev
  rw [wp_bind]
  refine wp_imp (wp_readi (h.inv.lock hpos htype) (valid_lock hpos) hdev') ?_
  rintro x t ⟨ht, hx⟩
  subst ht
  rw [wp_bind]
  refine wp_iunlock_eq (.inl ⟨by rw [hself], by rw [hself]; exact hpos⟩) ⟨?_, ?_⟩
  · rw [hx, hself]
    rfl
  · exact unlock_lock h.valid.2 hl

theorem wp_endOp_frame {Q : Unit → State → Prop}
    (hQ : ∀ t, t.sb = s.sb → t.disk = s.disk → t.icache = s.icache →
      t.outstanding = s.outstanding - 1 → Q () t) :
    endOp.wp E Q s := by
  rw [endOp, wp_modify]
  dsimp only
  split
  · unfold State.commit
    split
    · exact hQ _ rfl rfl rfl rfl
    · exact hQ _ rfl rfl rfl rfl
  · exact hQ _ rfl rfl rfl rfl

theorem Opened.congr (h : Opened s ip) (hsb : t.sb = s.sb) (hdisk : t.disk = s.disk)
    (hicache : t.icache = s.icache) : Opened t ip := by
  refine ⟨h.inv.congr hsb hdisk hicache, ?_, ?_⟩
  · rw [Valid, hicache]
    exact h.valid
  · rw [State.locks, hicache]
    exact h.unlocked

theorem beginOp_idle (hlh : s.lh = []) (hout : s.outstanding = 0) :
    beginOp s = .ok ((), { s with outstanding := 1 }) := by
  refine eq_ok_of_wp ?_
  simp only [beginOp, wp_bind, wp_gets, id]
  split
  next hfull =>
    rw [hlh, hout] at hfull
    exact absurd hfull (by decide)
  next =>
    rw [wp_modify, hout]
    exact ⟨trivial, rfl⟩

/-- The inode that `namei` returns is locked, and not yet unlocked. -/
theorem wp_openInode_read {Q : Option Ip → State → Prop} :
    (openInode dev root path O_RDONLY).wp E Q s ↔ (namei dev root path).wp E (fun x t =>
      match x with
      | none => Q none t
      | some q => (ilock q).wp E (fun _ => Q (some q)) t) s := by
  have hcreate : ¬O_RDONLY &&& O_CREATE ≠ 0 := by decide
  rw [openInode, if_neg hcreate, wp_bind]
  refine iff_of_eq (congrArg (fun R => Prog.wp _ E R s) ?_)
  funext x t
  cases x with
  | none => rfl
  | some q =>
    simp only [wp_bind, ne_eq, not_true, and_false, if_false]
    rfl

theorem wp_iunlock_endOp (h : Held s r) (hp : r p ≠ 0) (hl : s.locks p = true) (hv : Valid s p) :
    Prog.wp (do
      iunlock p
      endOp
      pure (some p)) E (fun x t => x = some p ∧ Opened t p ∧
        (t.icache p).inum = (s.icache p).inum ∧ t.node = s.node) s := by
  rw [wp_bind]
  refine wp_imp (still_iunlock h hp (.inl hl)) fun _ u ⟨hu, hsu, hlu⟩ => ?_
  rw [wp_bind]
  refine wp_endOp_frame fun t hsb hdisk hicache _ => ⟨rfl, ?_, ?_, ?_⟩
  · have hopened : Opened u p := by
      refine ⟨hu.inv, hu.valid hp (hsu.valid p hp hv.2), ?_⟩
      rw [hlu, update_self]
    exact hopened.congr hsb hdisk hicache
  · rw [hicache, hsu.inum p hp]
  · rw [State.node, hsb, hdisk, ← State.node, hsu.node]

theorem wp_openPath (h : Held s (one root)) (ht : Tree s (one root))
    (hlocks : ∀ p, s.locks p = false) (hlh : s.lh = []) (hout : s.outstanding = 0)
    (hroot : (s.icache root).inum = ROOTINO)
    (hj : follow s.node ROOTINO (components path) = some j) :
    (openPath dev path).wp E (fun x t => ∃ ip, x = some ip ∧ Opened t ip ∧
      (t.icache ip).inum = j ∧ t.node = s.node) s := by
  rw [openPath, wp_bind, wp_of_eq_ok (beginOp_idle hlh hout)]
  generalize hu : { s with outstanding := 1 } = u
  have hsb : u.sb = s.sb := by rw [← hu]
  have hdisk : u.disk = s.disk := by rw [← hu]
  have hicache : u.icache = s.icache := by rw [← hu]
  have hnode : u.node = s.node := by rw [State.node, hsb, hdisk, State.node]
  have hheld : Held u (one root) := ⟨h.inv.congr hsb hdisk hicache, fun p => by
    rw [hicache]
    exact h.refs p⟩
  have htree : Tree u (one root) := by
    rw [← hu]
    exact ⟨⟨ht.root, ht.whole, ht.range⟩, ht.safe_root, ht.safe_named⟩
  have hfree : ∀ p, u.locks p = false := fun p => by
    rw [State.locks, hicache]
    exact hlocks p
  have hstart : u.startOf root path = ROOTINO := by
    rw [State.startOf, hicache, hroot, ite_self]
  have htwo : TwoFree (one root) :=
    ⟨⟨1, by decide⟩, ⟨2, by decide⟩, by decide, by decide, by decide⟩
  have hfollow : (resolve u.node (u.icache root).inum path false).map Prod.fst = some j := by
    rw [← hj, ← hnode, ← hstart]
    exact walk_eq_follow (Nat.lt_succ_self _)
  have hleads : Leads u (one root) (u.startOf root path) := hstart ▸ htree.leads htree.safe_root
  have htyped : Typed u (u.startOf root path) := hstart ▸ htree.typed htree.safe_root
  have hwalk : (namex dev root path false).wp E _ u :=
    still_namex hheld htree.toDirs (by decide) hleads (.inl ⟨htwo, hfree, htyped⟩)
  rw [wp_bind, wp_openInode_read, namei, wp_bind]
  refine wp_imp hwalk ?_
  rintro x t ⟨hst, hl, hx⟩
  cases x with
  | none =>
    rw [hx.2] at hfollow
    cases hfollow
  | some x =>
    obtain ⟨q, name⟩ := x
    obtain ⟨hheld', hfound, -⟩ := hx
    have hinum : (t.icache q).inum = j := by
      rw [hfound] at hfollow
      exact Option.some.inj hfollow
    rw [wp_pure]
    refine wp_imp (still_ilock hheld' add_one_self_ne (.inl ⟨?_, ?_⟩)) ?_
    · rw [hl, hfree]
    · rw [hst.node, hinum, hnode]
      exact ht.typed ht.safe_root _ _ hj
    rintro _ t₁ ⟨h₁, hst₁, _, hl₁, hv₁⟩
    refine wp_imp (wp_iunlock_endOp h₁ add_one_self_ne ?_ hv₁) ?_
    · rw [hl₁, update_self]
    rintro _ t₂ ⟨hx, hopened, hinum₂, hnode₂⟩
    refine ⟨q, hx, hopened, ?_, ?_⟩
    · rw [hinum₂, hst₁.inum q add_one_self_ne, hinum]
    · rw [hnode₂, hst₁.node, hst.node, hnode]

end

/-! ## The root directory -/

/-- The free entries at the end of the root directory. -/
def vacant (files : List HostFile) : Nat := 32 - (files.length + 2) % 32

/-- The files that the kernel finds: the root directory ends with free entries. -/
def decoded (files : List HostFile) : Contents :=
  (T_DIR, rootData files ++ List.replicate (Dirent.size * vacant files) 0) ::
    files.map fun f => (T_FILE, f.bytes)

/-- The names of files, with the inode numbers from `k` on. -/
def slotsFrom (k : Nat) (files : List HostFile) : Slots (List UInt8) Nat :=
  (files.zipIdx k).map fun x => some (x.1.name.take DIRSIZ, x.2)

section
variable {files : List HostFile} {f : HostFile} {data name : List UInt8} {i k inum : Nat}

theorem zero_not_mem_name (f : HostFile) : 0 ∉ f.name := by
  unfold HostFile.name
  split
  · exact fun h => f.string (mem_of_mem_tail h)
  · exact f.string

theorem cname_of_string (h : 0 ∉ name) : cname name = name.take DIRSIZ := by
  rw [cname, takeWhile_eq_self_iff]
  intro c hc
  rw [decide_eq_true_eq]
  rintro rfl
  exact h (mem_of_mem_take hc)

theorem dirSlots_dirent (hi : i ≠ 0) (hlt : i < 2 ^ 16) :
    dirSlots (dirent i name ++ data) = some (cname name, i) :: dirSlots data := by
  rw [dirSlots_append length_dirent, dirent, Dirent.load_store length_strncpy, slot_dirlink hi hlt]

theorem dirSlots_flatMap (hk : k ≠ 0) (hlt : k + files.length ≤ 2 ^ 16) :
    dirSlots ((files.zipIdx k).flatMap (fun x => dirent x.2 x.1.name) ++ data) =
      slotsFrom k files ++ dirSlots data := by
  induction files generalizing k with
  | nil => rfl
  | cons f files ih =>
    rw [length_cons] at hlt
    rw [zipIdx_cons, flatMap_cons, append_assoc, dirSlots_dirent hk (by omega),
      ih (Nat.succ_ne_zero k) (by omega), cname_of_string (zero_not_mem_name f), slotsFrom,
      slotsFrom, zipIdx_cons, map_cons, cons_append]

theorem dirSlots_root (hlt : files.length < NINODES) :
    dirSlots (rootData files ++ List.replicate (Dirent.size * vacant files) 0) =
      some (dot, ROOTINO) :: some (dotdot, ROOTINO) ::
        (slotsFrom 2 files ++ List.replicate (vacant files) none) := by
  have hroot : ROOTINO ≠ 0 := by decide
  have hlen : 2 + files.length ≤ 2 ^ 16 := by
    simp only [NINODES] at hlt
    omega
  rw [rootData, append_assoc, append_assoc, dirSlots_dirent hroot (by decide),
    dirSlots_dirent hroot (by decide), dirSlots_flatMap (by decide) hlen, dirSlots_zeroes]
  rfl

theorem listing_eq (data : List UInt8) : listing data = (dirSlots data).keys := by
  rw [listing, dirSlots, Slots.keys]
  induction entries data with
  | nil => rfl
  | cons de l ih =>
    rw [map_cons, filter_cons, Dirent.slot]
    by_cases h0 : de.inum = 0
    · rw [if_neg (by simpa using h0), if_pos h0]
      exact ih
    · rw [if_pos (by simpa using h0), if_neg h0, map_cons, ih]
      rfl

theorem keys_slotsFrom : (slotsFrom k files).keys = files.map fun f => f.name.take DIRSIZ := by
  induction files generalizing k with
  | nil => rfl
  | cons f files ih =>
    rw [map_cons, ← ih (k := k + 1)]
    rfl

theorem listing_root (hlt : files.length < NINODES) :
    listing (rootData files ++ List.replicate (Dirent.size * vacant files) 0) =
      dot :: dotdot :: files.map fun f => f.name.take DIRSIZ := by
  rw [listing_eq, dirSlots_root hlt]
  change dot :: dotdot :: (slotsFrom 2 files ++ List.replicate (vacant files) none).keys = _
  rw [Slots.keys_append, keys_slotsFrom, Slots.keys_free, append_nil]

theorem getElem?_slotsFrom : (slotsFrom k files)[i]? =
    files[i]?.map fun f => some (f.name.take DIRSIZ, k + i) := by
  rw [slotsFrom, List.getElem?_map, List.getElem?_zipIdx, Option.map_map]
  rfl

theorem slot_root_le (hlt : files.length < NINODES)
    (h : (dirSlots (rootData files ++ List.replicate (Dirent.size * vacant files) 0))[k]? =
      some (some (name, inum))) : 0 < inum ∧ inum ≤ files.length + 1 := by
  rw [dirSlots_root hlt] at h
  match k with
  | 0 =>
    cases h
    exact ⟨by decide, Nat.le_add_left ..⟩
  | 1 =>
    cases h
    exact ⟨by decide, Nat.le_add_left ..⟩
  | k + 2 =>
    rw [List.getElem?_cons_succ, List.getElem?_cons_succ] at h
    rcases mem_append.mp (mem_of_getElem? h) with hmem | hmem
    · obtain ⟨i, hi⟩ := mem_iff_getElem?.mp hmem
      rw [getElem?_slotsFrom, Option.map_eq_some_iff] at hi
      obtain ⟨f, hf, heq⟩ := hi
      cases heq
      have := (List.getElem?_eq_some_iff.mp hf).1
      omega
    · cases eq_of_mem_replicate hmem

theorem unique_root (h : Input files) :
    Slots.Unique (dirSlots (rootData files ++ List.replicate (Dirent.size * vacant files) 0)) := by
  have hlt : files.length < NINODES := Nat.lt_of_succ_lt h.inodes
  have hshort : ∀ {name special : List UInt8}, special.length < DIRSIZ →
      name.take DIRSIZ = special → name = special := fun hlen heq => by
    rw [← heq, length_take] at hlen
    rw [← heq, take_of_length_le (by omega)]
  apply Slots.unique_of_nodup
  rw [← listing_eq, listing_root hlt, nodup_cons, nodup_cons, mem_cons, not_or]
  refine ⟨⟨by decide, fun hmem => ?_⟩, fun hmem => ?_, h.distinct⟩
  · obtain ⟨f, hf, heq⟩ := mem_map.mp hmem
    exact (h.notDot f hf).1 (hshort (by decide) heq)
  · obtain ⟨f, hf, heq⟩ := mem_map.mp hmem
    exact (h.notDot f hf).2 (hshort (by decide) heq)

theorem find_root (h : Input files) (hf : files[k]? = some f) :
    (dirSlots (rootData files ++ List.replicate (Dirent.size * vacant files) 0)).find
      (f.name.take DIRSIZ) = some (k + 2) := by
  have hlt : files.length < NINODES := Nat.lt_of_succ_lt h.inodes
  have hk : k < (slotsFrom 2 files).length := by
    rw [slotsFrom, length_map, length_zipIdx]
    exact (List.getElem?_eq_some_iff.mp hf).1
  rw [(unique_root h).find_iff]
  refine ⟨k + 2, ?_⟩
  rw [dirSlots_root hlt, List.getElem?_cons_succ, List.getElem?_cons_succ,
    List.getElem?_append_left hk, getElem?_slotsFrom, hf, Nat.add_comm 2]
  rfl

/-! ## The nodes of the image -/

theorem nodeAt_cases {L : Contents} (i : Nat) :
    nodeAt L i = .free ∨ ∃ k x, i = k + 1 ∧ L[k]? = some x ∧ nodeAt L i = ⟨x.1, 0, 0, 1, x.2⟩ := by
  cases i with
  | zero => exact .inl rfl
  | succ k =>
    rw [nodeAt]
    cases hx : L[k]? with
    | none => exact .inl rfl
    | some x => exact .inr ⟨k, x, rfl, hx, rfl⟩

theorem nodeAt_root : nodeAt (decoded files) ROOTINO =
    ⟨T_DIR, 0, 0, 1, rootData files ++ List.replicate (Dirent.size * vacant files) 0⟩ := rfl

theorem nodeAt_file (h : files[k]? = some f) :
    nodeAt (decoded files) (k + 2) = ⟨T_FILE, 0, 0, 1, f.bytes⟩ := by
  rw [nodeAt, decoded, List.getElem?_cons_succ, List.getElem?_map, h]
  rfl

theorem nodeAt_decoded : nodeAt (decoded files) = update (nodeAt (contents files)) ROOTINO
    ⟨T_DIR, 0, 0, 1, rootData files ++ List.replicate (Dirent.size * vacant files) 0⟩ :=
  nodeAt_set (A := []) (x := (T_DIR, rootData files)) (y := (T_DIR, _))

theorem eq_root_of_dir (h : (nodeAt (decoded files) i).type = T_DIR) : i = ROOTINO := by
  rcases nodeAt_cases (L := decoded files) i with hfree | ⟨k, x, rfl, hx, heq⟩
  · rw [hfree] at h
    exact absurd h (by decide)
  · cases k with
    | zero => rfl
    | succ k =>
      rw [decoded, List.getElem?_cons_succ, List.getElem?_map, Option.map_eq_some_iff] at hx
      obtain ⟨f, -, rfl⟩ := hx
      rw [heq] at h
      have hne : T_FILE ≠ T_DIR := by decide
      exact absurd h hne

theorem nodeAt_used (hpos : 0 < i) (hi : i ≤ files.length + 1) :
    (nodeAt (decoded files) i).type ≠ 0 ∧ (nodeAt (decoded files) i).nlink = 1 := by
  obtain ⟨k, rfl⟩ : ∃ k, i = k + 1 := ⟨i - 1, by omega⟩
  cases k with
  | zero => exact ⟨(by decide : T_DIR ≠ 0), rfl⟩
  | succ k =>
    have hk : k < files.length := by omega
    rw [nodeAt_file (List.getElem?_eq_getElem hk)]
    exact ⟨(by decide : T_FILE ≠ 0), rfl⟩

end

/-! ## The kernel on the image -/

section
variable {s : State} {m : Image} {files : List HostFile} {disk : Disk} {p : Ip} {n k j : Nat}
variable {type : UInt16} {data : List UInt8}

/-- The size of a file grows, and there are only zeroes after its end. -/
theorem viewNode_pad {d : Dinode} (hp : Pending s p)
    (hd : d = { (s.icache p).din with size := d.size })
    (hsize : d.size.toNat = (s.icache p).din.size.toNat + k)
    (hzero : ∀ x, (s.icache p).din.size.toNat ≤ x → s.byte p (s.icache p).inum x = 0) :
    (s.setDin p d).viewNode p = update (s.viewNode p) (s.icache p).inum
      { s.viewNode p (s.icache p).inum with
        data := (s.viewNode p (s.icache p).inum).data ++ List.replicate k 0 } := by
  have hlen : (s.viewNode p (s.icache p).inum).data.length = (s.icache p).din.size.toNat := by
    rw [hp.data_eq, length_map, length_range]
  have happend : writeAt (s.viewNode p (s.icache p).inum).data (s.icache p).din.size.toNat
      (List.replicate k 0) = (s.viewNode p (s.icache p).inum).data ++ List.replicate k 0 := by
    rw [writeAt, ← hlen, take_length, drop_of_length_le (Nat.le_add_right ..),
      append_nil]
  rw [← happend]
  have hlt := d.size.toNat_lt
  refine viewNode_write hp (Nat.le_refl _) ?_ rfl (fun j _ => ?_) fun j x => ?_
  · rw [length_replicate, ← hsize]
    exact hlt
  · refine ⟨(view s p j).addrs, ?_⟩
    rw [view_setDin, length_replicate, Nat.max_eq_right (Nat.le_add_right ..), ← hsize,
      UInt32.ofNat_toNat]
    by_cases hj : j = (s.icache p).inum
    · rw [hj, update_self, if_pos rfl, view_self]
      exact hd
    · rw [update_of_ne hj, if_neg hj]
  · rw [byte_setDin (by rw [hd]) (by rw [hd])]
    split
    next hx =>
      rw [hx.1, hzero x hx.2.1, getD_replicate]
      rw [length_replicate] at hx
      omega
    next => rfl

theorem finished_eq (h : m.disk 1 = superBlock NINODES) : m.finished.disk =
    Image.mounted NINODES { m with disk := putDinode sb m.disk ROOTINO m.rootInode } := by
  funext b
  by_cases hmap : b = 58
  · rw [hmap, finished_map, mounted_map]
  · rw [finished_of_ne hmap]
    by_cases hone : b = 1
    · rw [hone, mounted_super, ← h]
      exact update_of_ne (by decide) ..
    · rw [mounted_of_ne hmap hone]

/-- The size of the root directory is rounded up to the end of its last block. -/
theorem Built.size_root_eq (h : Built n m (contents files)) :
    m.rootInode.size.toNat = (rootData files).length + Dirent.size * vacant files := by
  have hsize := h.size_root
  rw [dinodeAt_finished (by decide), if_pos rfl] at hsize
  rw [hsize, length_rootData, ← Nat.mul_add]
  simp only [vacant, Dirent.size, DIRSIZ, BSIZE]
  omega

/-- If no block of the root directory is missing, the invariant of the kernel holds. -/
theorem Built.decoded (h : Built NINODES m (contents files)) (hlast : (files.length + 2) % 32 ≠ 0) :
    ∃ s : State, FsInv s ∧ s.sb = sb ∧ s.disk = m.finished.disk ∧
      s.node = nodeAt (decoded files) := by
  have hlt : ROOTINO < NINODES := by decide
  have htype : (nodeAt (contents files) ROOTINO).type ≠ 0 := (by decide : T_DIR ≠ 0)
  obtain ⟨hinv, hv⟩ := h.opened_inv (p := root) hlt htype
  have hshows := h.shows (p := root) hlt htype
  obtain ⟨hown, hbyte⟩ := hshows.own_eq hinv hv
  have hpend := hinv.pending hv
  have hdin : dinodeAt (Mkfs.super NINODES) (m.mounted NINODES) ROOTINO =
      dinodeAt sb m.disk ROOTINO := dinodeAt_mounted (by decide)
  have hty : m.rootInode.type = ((m.opened NINODES root ROOTINO).icache root).din.type := by
    rw [hshows.din, hdin]
    rfl
  have haddrs : m.rootInode.addrs = ((m.opened NINODES root ROOTINO).icache root).din.addrs := by
    rw [hshows.din, hdin]
    rfl
  have hsize : ((m.opened NINODES root ROOTINO).icache root).din.size.toNat =
      (rootData files).length := by
    rw [hshows.din, ← (h.node_eq hlt).2.2]
    rfl
  have hpend' := hpend.setDin hty haddrs fun bn hbn => by
    rw [hown, hshows.inum, ← h.slot_finished hlt]
    refine h.full hlast (by decide) ?_ bn ?_
    · rw [h.freeinode, length_contents]
      simp only [ROOTINO]
      omega
    · rw [dinodeAt_finished (by decide), if_pos rfl]
      exact hbn
  refine ⟨_, hpend'.flush, rfl, ?_, ?_⟩
  · rw [hshows.flush_disk (by decide), finished_eq h.super]
  · rw [hpend'.node_flush,
      viewNode_pad (k := Dirent.size * vacant files) hpend ?_ ?_ fun x hx => ?_]
    · rw [hinv.viewNode_eq hv, hshows.node_eq, h.node, hshows.inum]
      exact nodeAt_decoded.symm
    · rw [hshows.din, hdin]
      rfl
    · rw [h.size_root_eq, hsize]
    · rw [hsize] at hx
      rw [hbyte, hshows.inum]
      exact h.pad ROOTINO x hx

theorem ref_boot : ((boot disk).icache p).ref = one root p := by
  by_cases hp : p = root
  · rw [hp, one]
    rfl
  · rw [boot, one, Pi.single_eq_of_ne hp]
    dsimp only
    rw [if_neg hp]
    rfl

theorem eq_root_of_ref (h : 0 < ((boot disk).icache p).ref) : p = root := by
  by_contra hp
  rw [ref_boot, one, Pi.single_eq_of_ne hp] at h
  exact absurd h (by decide)

theorem valid_boot (disk : Disk) (p : Ip) : ((boot disk).icache p).valid = false := by
  unfold boot
  dsimp only
  split
  · rfl
  · rfl

/-- The first process starts with the root as its current directory. -/
theorem held_boot (h : FsInv s) (hroot : ROOTINO < s.sb.ninodes.toNat) (hdisk : s.disk = disk) :
    Held (boot disk) (one root) := by
  have hsb : (boot disk).sb = s.sb := by
    rw [← h.super, hdisk]
    rfl
  have hvalid : ∀ p, ¬Valid (boot disk) p := fun p hp => by
    exact absurd (hp.2.symm.trans (valid_boot disk p)) nofun
  refine ⟨⟨?_, ?_, ?_, ?_, ?_⟩, fun p => ref_boot⟩
  · rw [hsb]
    exact h.geometry
  · rfl
  · rw [hsb]
    exact hdisk ▸ h.alloc
  · rw [hsb]
    exact hdisk ▸ h.full
  · refine ⟨fun p hp => ?_, fun p _ hp => absurd hp (hvalid p), fun p hp => absurd hp (hvalid p),
      fun p q hp hq _ => (eq_root_of_ref hp).trans (eq_root_of_ref hq).symm⟩
    rw [eq_root_of_ref hp, hsb]
    exact hroot

theorem locks_boot : (boot disk).locks p = false := by
  unfold State.locks boot
  dsimp only
  split
  · rfl
  · rfl

/-- Every name in the image is that of a file with one link. -/
theorem tree_decoded {r : Refs} (hlen : files.length + 1 < s.sb.ninodes.toNat)
    (hlt : files.length < NINODES) (hnode : s.node = nodeAt (decoded files)) : Tree s r := by
  have hdir : ∀ i, (s.node i).type = T_DIR → i = ROOTINO := fun i hi => by
    rw [hnode] at hi
    exact eq_root_of_dir hi
  have hslot : ∀ i, (s.node i).type = T_DIR → ∀ (k : Nat) name inum,
      (s.slots i)[k]? = some (some (name, inum)) → 0 < inum ∧ inum ≤ files.length + 1 := by
    intro i hi k name inum hk
    rw [State.slots, hdir i hi, hnode] at hk
    exact slot_root_le hlt hk
  have hsafe : ∀ i, 0 < i → i ≤ files.length + 1 → Safe s r i := fun i hpos hi => by
    obtain ⟨htype, hlink⟩ := nodeAt_used hpos hi
    rw [Safe, hnode, hlink]
    exact ⟨htype, .inl (by decide)⟩
  refine ⟨⟨?_, fun i hi => ?_, fun i hi k name inum hk => ?_⟩, hsafe _ (by decide) ?_,
    fun i hi k name inum hk => ?_⟩
  · simp only [ROOTINO]
    omega
  · rw [hdir i hi, hnode, nodeAt_root, length_append, length_rootData, length_replicate,
      ← Nat.mul_add]
    exact Nat.mul_mod_right ..
  · exact Nat.lt_of_le_of_lt (hslot i hi k name inum hk).2 hlen
  · exact Nat.le_add_left ..
  · exact hsafe inum (hslot i hi k name inum hk).1 (hslot i hi k name inum hk).2

theorem opens_of_follow {dev : DevSw} {path : List UInt8} (h : Held (boot disk) (one root))
    (ht : Tree (boot disk) (one root))
    (hj : follow (boot disk).node ROOTINO (components path) = some j)
    (hnode : (boot disk).node j = ⟨type, 0, 0, 1, data⟩) (hdev : type ≠ T_DEV) :
    Opens dev disk path type data := by
  have hopen : (openPath dev path).wp (fun _ => False) _ (boot disk) :=
    wp_openPath h ht (fun _ => locks_boot) rfl rfl rfl hj
  obtain ⟨x, t, heq, ip, rfl, hopened, hinum, hsame⟩ := exists_of_wp hopen
  obtain ⟨htype, hlink, hsize⟩ := hopened.inv.node_of_valid hopened.valid
  rw [hinum, hsame, hnode] at htype hlink hsize
  refine ⟨ip, t, heq, htype.symm, hlink.symm, hsize.symm, fun off n => ?_⟩
  rw [hopened.read (htype ▸ hdev), hinum, hsame, hnode]

theorem decodes_of_node {dev : DevSw} (hin : Input files) (h : Held (boot disk) (one root))
    (ht : Tree (boot disk) (one root)) (hnode : (boot disk).node = nodeAt (decoded files)) :
    Decodes dev disk files := by
  have hlt : files.length < NINODES := Nat.lt_of_succ_lt hin.inodes
  refine ⟨fun f hf => ?_, _, ?_, listing_root hlt⟩
  · obtain ⟨k, hk⟩ := mem_iff_getElem?.mp hf
    have hslash : ∀ c ∈ f.name, c ≠ slash := fun c hc heq => hin.slashFree f hf (heq ▸ hc)
    have hname : cname (f.name.take DIRSIZ) = f.name.take DIRSIZ := by
      rw [cname_of_string fun h0 => zero_not_mem_name f (mem_of_mem_take h0), take_take,
        Nat.min_self]
    refine opens_of_follow h ht (j := k + 2) ?_ (hnode ▸ nodeAt_file hk) (by decide)
    rw [components_word (hin.nonempty f hf) hslash, follow_cons, hnode, lookupIn, nodeAt_root,
      if_pos rfl, Node.lookup, hname, find_root hin hk]
    rfl
  · refine opens_of_follow h ht (j := ROOTINO) ?_ (hnode ▸ nodeAt_root) (by decide)
    rw [components_slash]
    rfl

/-! ## A missing block -/

theorem wp_balloc_outside (hout : s.outstanding = 0) :
    Fs.balloc.wp (fun _ => True) (fun _ _ => False) s := by
  simp only [Fs.balloc, logWrite, wp_bind, wp_gets, id]
  split
  · rw [wp_bind, wp_bind, wp_gets]
    split
    · exact trivial
    · rw [if_pos (by rw [id, hout]; decide)]
      exact trivial
  · exact trivial

/-- Outside of a transaction `readi` cannot fill a hole. -/
theorem wp_readi_hole {dev : DevSw} {off : UInt32} (hout : s.outstanding = 0)
    (htype : (s.icache p).din.type ≠ T_DEV) (hlt : off.toNat < (s.icache p).din.size.toNat)
    (hdirect : off.toNat / BSIZE < NDIRECT)
    (hhole : (s.icache p).din.addr (off.toNat / BSIZE) = 0) :
    (readi dev p off 1).wp (fun _ => True) (fun _ _ => False) s := by
  have hadd : (off + 1).toNat = off.toNat + 1 := by
    exact Nat.mod_eq_of_lt (Nat.lt_of_le_of_lt hlt (s.icache p).din.size.toNat_lt)
  have hok : ¬((s.icache p).din.size < off ∨ off + 1 < off) := by
    rw [UInt32.lt_iff_toNat_lt, UInt32.lt_iff_toNat_lt]
    omega
  have hone : ¬(s.icache p).din.size < off + 1 := by
    rw [UInt32.lt_iff_toNat_lt]
    omega
  simp only [readi, wp_bind, wp_gets, if_neg htype, if_neg hok, if_neg hone]
  have hloop : readLoop p (1 : UInt32).toNat off.toNat (1 : UInt32).toNat =
      readLoop p (0 + 1) off.toNat 1 := rfl
  rw [hloop, readLoop, if_neg Nat.one_ne_zero, wp_bind, bmap, if_pos hdirect, bmapAddr,
    wp_bind, wp_gets, if_pos hhole, wp_bind]
  exact wp_imp (wp_balloc_outside hout) fun _ _ hfalse => hfalse.elim

theorem readInode_hole {dev : DevSw} {off : UInt32} {r : Int × List UInt8}
    (hout : s.outstanding = 0) (hv : (s.icache p).valid = true)
    (htype : (s.icache p).din.type ≠ T_DEV) (hlt : off.toNat < (s.icache p).din.size.toNat)
    (hdirect : off.toNat / BSIZE < NDIRECT)
    (hhole : (s.icache p).din.addr (off.toNat / BSIZE) = 0) :
    readInode dev p off 1 s ≠ .ok (r, s) := by
  intro hread
  have hdin : ((s.lock p).icache p).din = (s.icache p).din := by
    rw [State.lock, State.setInode_self, if_pos hv]
  refine wp_ok (Q := fun _ _ => False) (E := fun _ => True) ?_ hread
  rw [readInode, wp_bind]
  refine wp_ilock_eq (.inr fun _ => trivial) fun _ _ _ => ?_
  rw [wp_bind]
  refine wp_imp (wp_readi_hole ?_ ?_ ?_ hdirect ?_) fun _ _ hfalse => hfalse.elim
  · exact hout
  · rwa [hdin]
  · rwa [hdin]
  · rwa [hdin]

theorem openPath_root {dev : DevSw} {ip : Ip} {t : State}
    (h : openPath dev [slash] (boot disk) = .ok (some ip, t)) :
    t.outstanding = 0 ∧ (t.icache ip).valid = true ∧
      (t.icache ip).din = dinodeAt (boot disk).sb disk ROOTINO := by
  refine wp_ok (Q := fun x t => x = some ip → t.outstanding = 0 ∧ (t.icache ip).valid = true ∧
      (t.icache ip).din = dinodeAt (boot disk).sb disk ROOTINO) (E := fun _ => True) ?_ h rfl
  rw [openPath, wp_bind, wp_of_eq_ok (beginOp_idle rfl rfl), wp_bind,
    wp_openInode_read, namei, namex, if_pos (by rfl), wp_bind, wp_bind]
  refine wp_mono (wp_iget_eq fun p hp => ?_) (fun _ _ => trivial) fun _ _ h => h
  have hloop : namexLoop dev false ([slash].length + 1) p [slash] [] = pure (some (p, [])) := rfl
  dsimp only
  rw [hloop]
  have hinum := hp.inum
  generalize hu : State.took _ p ROOTINO = u at hinum ⊢
  have hvalid : (u.icache p).valid = false := by
    rw [← hu, State.took, State.setInode_self]
    split
    · exact valid_boot disk p
    · rfl
  refine wp_ilock_eq (.inr fun _ => trivial) fun _ _ _ => ?_
  rw [wp_bind]
  refine wp_iunlock_eq (.inr fun _ => trivial) ?_
  rw [wp_bind]
  refine wp_endOp_frame fun t _ _ hicache hout heq => ?_
  cases heq
  have hout : t.outstanding = 0 := by
    rw [hout, ← hu]
    rfl
  refine ⟨hout, ?_, ?_⟩
  · rw [hicache, State.setInode_self, State.lock, State.setInode_self]
  · rw [hicache, State.setInode_self, State.lock, State.setInode_self, hvalid, hinum, ← hu]
    rfl

theorem Built.not_decodes {dev : DevSw} (h : Built NINODES m (contents files))
    (hlast : (files.length + 2) % 32 = 0) : ¬Decodes dev m.finished.disk files := by
  rintro ⟨-, data, ⟨ip, s, hopen, htype, -, -, hread⟩, -⟩
  obtain ⟨hout, hv, hdin⟩ := openPath_root hopen
  have hlt := h.lt
  rw [length_contents] at hlt
  simp only [NINODES] at hlt
  have hsb : (boot m.finished.disk).sb = sb := by
    change Superblock.load (m.finished.disk 1) = sb
    rw [finished_super, h.super, load_superBlock, super_NINODES]
  rw [hsb] at hdin
  have hoff : (UInt32.ofNat (Dirent.size * (files.length + 2))).toNat =
      Dirent.size * (files.length + 2) := by
    refine UInt32.toNat_ofNat_of_lt' ?_
    simp only [Dirent.size, DIRSIZ, UInt32.size]
    omega
  have hdiv : Dirent.size * (files.length + 2) / BSIZE = (files.length + 2) / 32 := by
    simp only [Dirent.size, DIRSIZ, BSIZE]
    omega
  have hdirect : (files.length + 2) / 32 < NDIRECT := by
    simp only [NDIRECT]
    omega
  -- `ls` reads the entry after the last one
  have hend := hread (UInt32.ofNat (Dirent.size * (files.length + 2))) 1
  refine readInode_hole hout hv ?_ ?_ ?_ ?_ hend
  · rw [htype]
    decide
  · rw [hoff, hdin, h.size_root]
    simp only [Dirent.size, DIRSIZ, BSIZE]
    omega
  · rwa [hoff, hdiv]
  · have hslot : slotOf ((files.length + 2) / 32) = (files.length + 2) / 32 := if_pos hdirect
    have hown := h.own_hole hlast
    rw [hslot, ← h.slot_finished (by decide), slotAddr_of_le (Nat.le_of_lt hdirect)] at hown
    rw [hoff, hdiv, hdin, hown]

theorem Built.decodes {dev : DevSw} (h : Built NINODES m (contents files)) (hin : Input files)
    (hlast : (files.length + 2) % 32 ≠ 0) : Decodes dev m.finished.disk files := by
  obtain ⟨s, hinv, hsb, hdisk, hnode⟩ := h.decoded hlast
  have hninodes : s.sb.ninodes.toNat = NINODES := by
    rw [hsb]
    rfl
  have hheld : Held (boot m.finished.disk) (one root) :=
    held_boot hinv (by rw [hninodes]; decide) hdisk
  have hsb' : (boot m.finished.disk).sb = s.sb := by
    rw [← hinv.super, hdisk]
    rfl
  have hnode' : (boot m.finished.disk).node = nodeAt (Mkfs.decoded files) := by
    rw [← hnode, State.node, hsb', State.node, hdisk]
    rfl
  refine decodes_of_node hin hheld (tree_decoded ?_ (Nat.lt_of_succ_lt hin.inodes) hnode') hnode'
  rw [hsb', hninodes]
  exact hin.inodes

theorem Input.suits (h : Input files) : Suits files where
  names f hf hslash := by
    refine h.slashFree f hf ?_
    unfold HostFile.name
    split
    next hfirst =>
      -- the byte that is dropped is not a slash
      cases harg : f.arg with
      | nil => rw [harg] at hslash; cases hslash
      | cons c arg =>
        rw [harg] at hfirst hslash
        cases hfirst
        rcases mem_cons.mp hslash with heq | hmem
        · exact absurd heq (by decide)
        · exact hmem
    next => exact hslash
  sizes := h.size
  room := h.fit

theorem Input.image_ok (h : Input files) :
    ∃ m, Built NINODES m (contents files) ∧ image files = .ok m.finished.disk := by
  obtain ⟨m, hm, heq⟩ := main_ok h.suits (by decide : NINODES ≤ roomy) h.inodes
  exact ⟨m, hm, by rw [image, heq]⟩

/-- **The kernel reads what `mkfs` wrote.** It finds each file under its name, with one link and its
bytes, and the names in the root directory, if and only if the entries do not fill the last block of
the root directory. -/
theorem image_decodes_iff (dev : DevSw) (h : Input files) : ∃ disk, image files = .ok disk ∧
    (Decodes dev disk files ↔ (files.length + 2) % 32 ≠ 0) := by
  obtain ⟨m, hm, heq⟩ := h.image_ok
  exact ⟨_, heq, fun hd hlast => hm.not_decodes hlast hd, hm.decodes h⟩

end

theorem input_small : Input [small] :=
  ⟨by decide, by decide, by decide, by decide, by decide, by decide, by decide⟩

theorem decodes_small : ∃ disk, image [small] = .ok disk ∧ Decodes OneFile.noDev disk [small] := by
  obtain ⟨disk, heq, hiff⟩ := image_decodes_iff OneFile.noDev input_small
  exact ⟨disk, heq, hiff.mpr (by decide)⟩

/-- An empty file with a name of one byte. -/
def letter (i : Fin 30) : HostFile := ⟨[UInt8.ofNat (97 + i)], [], by revert i; decide, empty.read_le⟩

theorem input_letters : Input ((List.finRange 30).map letter) := by
  refine ⟨by decide, by decide, by decide, by decide, by decide, by decide,
    room_of_empty (fun f hf => ?_) (by decide)⟩
  obtain ⟨i, -, rfl⟩ := mem_map.mp hf
  rfl

/-- With 30 files the kernel panics when it reads the root directory to its end. -/
theorem not_decodes_letters : Input ((List.finRange 30).map letter) ∧
    ∃ disk, image ((List.finRange 30).map letter) = .ok disk ∧
      ¬Decodes OneFile.noDev disk ((List.finRange 30).map letter) := by
  obtain ⟨m, hm, heq⟩ := input_letters.image_ok
  refine ⟨input_letters, _, heq, hm.not_decodes ?_⟩
  rw [length_map, length_finRange]

end Xv6.Fs.Mkfs
