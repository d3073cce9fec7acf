import Xv6.Fs.Built
import Xv6.Fs.Entries

/-!
# The runs of `mkfs`

With as many files as there is room for in the inode blocks, `main` builds an image that holds them,
and it stops before its end only if they do not fit (`wp_main`). Of a run with more files little is
known, since inodes are written over other blocks; but the numbers of inodes and blocks that are taken
only grow, and the free map is written last (`Climbs`).
-/

namespace Xv6.Fs.Mkfs

open List

/-! ## What the image is to hold -/

/-- The bytes of a file. -/
def HostFile.bytes (f : HostFile) : List UInt8 := f.reads.flatten

/-- The entries of the root directory. -/
def rootData (files : List HostFile) : List UInt8 :=
  dirent ROOTINO dot ++ dirent ROOTINO dotdot ++
    (files.zipIdx 2).flatMap fun x => dirent x.2 x.1.name

def contents (files : List HostFile) : Contents :=
  (T_DIR, rootData files) :: files.map fun f => (T_FILE, f.bytes)

/-- The files can be put on the disk, as far as their blocks are concerned. -/
structure Suits (files : List HostFile) : Prop where
  names : ∀ f ∈ files, slash ∉ f.arg
  sizes : ∀ f ∈ files, f.bytes.length ≤ MAXFILE * BSIZE
  room : nmeta + total (contents files) ≤ FSSIZE

section
variable {files rest : List HostFile} {f : HostFile}

@[simp] theorem length_dirent : (dirent i name).length = Dirent.size :=
  Dirent.length_store length_strncpy

theorem rootData_append : rootData (files ++ [f]) =
    rootData files ++ dirent (files.length + 2) f.name := by
  rw [rootData, zipIdx_append, flatMap_append, ← append_assoc, rootData]
  simp only [zipIdx_cons, zipIdx_nil, flatMap_cons, flatMap_nil,
    append_nil, Nat.add_comm 2]

theorem length_rootData : (rootData files).length = Dirent.size * (files.length + 2) := by
  induction files using List.reverseRecOn with
  | nil => rfl
  | append_singleton files f ih =>
    rw [rootData_append, length_append, ih, length_dirent, length_append,
      length_singleton, ← Nat.mul_succ]

theorem contents_append : contents (files ++ [f]) =
    (T_DIR, rootData files ++ dirent (files.length + 2) f.name) ::
      (files.map fun f => (T_FILE, f.bytes)) ++ [(T_FILE, f.bytes)] := by
  rw [contents, rootData_append, map_append]
  rfl

@[simp] theorem length_contents : (contents files).length = files.length + 1 := by
  rw [contents, length_cons, length_map]

theorem total_contents_le : total (contents files) ≤ total (contents (files ++ rest)) := by
  simp only [contents, total_cons, map_append, total_append, length_rootData]
  have hlen : Dirent.size * (files.length + 2) ≤ Dirent.size * ((files ++ rest).length + 2) := by
    rw [length_append]
    exact Nat.mul_le_mul_left _ (by omega)
  have := blocks_mono hlen
  omega

theorem Suits.left (h : Suits (files ++ rest)) : Suits files where
  names f hf := h.names f (mem_append_left _ hf)
  sizes f hf := h.sizes f (mem_append_left _ hf)
  room := Nat.le_trans (Nat.add_le_add_left total_contents_le _) h.room

end

/-! ## Files are added -/

section
variable {n : Nat} {m m' : Image} {A B : Contents} {E : Fault → Prop} {type : UInt16}
variable {c : List UInt8} {files : List HostFile} {f : HostFile}

theorem Built.wp_reads {reads : List (List UInt8)} (h : Built n m (A ++ (type, c) :: B))
    (hreads : ∀ p ∈ reads, 0 < p.length)
    (hE : MAXFILE * BSIZE < c.length + reads.flatten.length ∨
      FSSIZE < nmeta + total (A ++ (type, c ++ reads.flatten) :: B) → ∀ e, E e) :
    (reads.forM (iappend (A.length + 1))).wp E
      (fun _ m' => Built n m' (A ++ (type, c ++ reads.flatten) :: B) ∧
        m.freeblock ≤ m'.freeblock) m := by
  induction reads generalizing m c with
  | nil =>
    rw [flatten_nil, append_nil]
    exact ⟨h, Nat.le_refl _⟩
  | cons p reads ih =>
    have hmono : blocks (c ++ p).length ≤ blocks (c ++ (p ++ reads.flatten)).length := by
      refine blocks_mono ?_
      simp only [length_append]
      omega
    rw [flatten_cons] at hE ⊢
    refine wp_seq (h.wp_iappend (hreads p (mem_cons_self ..)) fun hbad => hE ?_)
      fun _ t ⟨ht, hle⟩ => ?_
    · refine hbad.imp (fun hbig => ?_) fun hfull => ?_
      · rw [length_append]
        dsimp only at hbig
        omega
      · simp only [total_append, total_cons] at hfull ⊢
        omega
    · have := ih ht (fun q hq => hreads q (mem_cons_of_mem _ hq)) fun hbad => hE (by
        simp only [append_assoc, length_append] at hbad ⊢
        rwa [Nat.add_assoc] at hbad)
      rw [append_assoc] at this
      exact wp_imp this fun _ u ⟨hu, hle'⟩ => ⟨hu, Nat.le_trans hle hle'⟩

theorem Built.wp_addFile (h : Built n m (contents files)) (hlt : files.length + 2 < n)
    (hE : ¬Suits (files ++ [f]) → ∀ e, E e) :
    (addFile ROOTINO f).wp E (fun _ m' => Built n m' (contents (files ++ [f])) ∧
      m.freeblock ≤ m'.freeblock) m := by
  have hmem : f ∈ files ++ [f] := mem_append_right _ (mem_singleton_self f)
  have hroom : FSSIZE < nmeta + total (contents (files ++ [f])) → ∀ e, E e := fun hfull =>
    hE fun hs => Nat.not_lt_of_le hs.room hfull
  rw [contents_append] at hroom ⊢
  rw [addFile, wp_bind]
  refine wp_assert (fun hslash => hE fun hs => hslash (hs.names f hmem)) fun _ => ?_
  refine wp_seq (h.wp_ialloc T_FILE (by rw [length_contents]; exact hlt) (by decide)) ?_
  rintro i m₁ ⟨hi, h₁, hle₁⟩
  obtain rfl : i = files.length + 2 := by rw [hi, length_contents]
  replace h₁ : Built n m₁ ([] ++ (T_DIR, rootData files) ::
    ((files.map fun f => (T_FILE, f.bytes)) ++ [(T_FILE, [])])) := h₁
  -- the entry in the root directory
  have hroot : MAXFILE * BSIZE < (rootData files).length +
      (dirent (files.length + 2) f.name).length → False := by
    rw [length_rootData, length_dirent]
    have := h.roomy
    rw [roomy_eq] at this
    simp only [MAXFILE, NDIRECT, NINDIRECT, BSIZE, Dirent.size, DIRSIZ]
    omega
  have hentry : (iappend ROOTINO (dirent (files.length + 2) f.name)).wp E _ m₁ :=
    h₁.wp_iappend (by rw [length_dirent]; decide) fun hbad =>
      hbad.elim (fun hbig => (hroot hbig).elim) fun hfull => hroom (by
        simp only [nil_append, total_cons, total_append, length_nil] at hfull ⊢
        have := blocks_mono (Nat.zero_le f.bytes.length)
        omega)
  rw [wp_bind]
  refine wp_imp hentry ?_
  rintro _ m₂ ⟨h₂, hle₂⟩
  -- and the bytes of the file
  have hread := Built.wp_reads (E := E) (A := (T_DIR, rootData files ++
    dirent (files.length + 2) f.name) :: files.map fun f => (T_FILE, f.bytes)) (B := []) h₂
    (fun p hp => (f.read_le p hp).1) fun hbad => hbad.elim (fun hbig => hE fun hs => ?_) hroom
  · rw [length_cons, length_map] at hread
    exact wp_imp hread fun _ m₃ hm₃ =>
      ⟨hm₃.1, Nat.le_trans hle₁ (Nat.le_trans hle₂ hm₃.2)⟩
  · have := hs.sizes f hmem
    rw [HostFile.bytes] at this
    rw [length_nil] at hbig
    omega

theorem Built.wp_files (h : Built n m (contents files)) (rest : List HostFile)
    (hlt : (files ++ rest).length + 1 < n) (hE : ¬Suits (files ++ rest) → ∀ e, E e) :
    (rest.forM (addFile ROOTINO)).wp E (fun _ m' => Built n m' (contents (files ++ rest)) ∧
      m.freeblock ≤ m'.freeblock) m := by
  induction rest generalizing m files with
  | nil =>
    rw [append_nil]
    exact ⟨h, Nat.le_refl _⟩
  | cons f rest ih =>
    have happ : files ++ f :: rest = files ++ [f] ++ rest := by
      rw [append_assoc, singleton_append]
    rw [happ] at hlt hE ⊢
    refine wp_seq (h.wp_addFile (f := f) ?_ fun hbad => hE fun hs => hbad hs.left)
      fun _ t ⟨ht, hle⟩ => ?_
    · rw [length_append, length_append, length_singleton] at hlt
      omega
    · exact wp_imp (ih ht hlt hE) fun _ u ⟨hu, hle'⟩ => ⟨hu, Nat.le_trans hle hle'⟩

/-! ## `main` -/

/-- The part of `main` after all files are added. -/
def finish : MkfsM Unit := do
  let d ← rinode ROOTINO
  winode ROOTINO { d with size := UInt32.ofNat ((d.size.toNat / BSIZE + 1) * BSIZE) }
  let used ← Prog.gets (·.freeblock)
  balloc used

/-- The root inode with its size rounded up. -/
def Image.rootInode (m : Image) : Dinode := { dinodeAt sb m.disk ROOTINO with
  size := UInt32.ofNat (((dinodeAt sb m.disk ROOTINO).size.toNat / BSIZE + 1) * BSIZE) }

/-- The image at the end. -/
def Image.finished (m : Image) : Image := { m with
  disk := Function.update (putDinode sb m.disk ROOTINO m.rootInode) 58 (bitmap m.freeblock) }

theorem load_zero (k : Nat) : Dinode.load Bytes.zero k = Dinode.zero := by
  have hshort : ∀ o, (Bytes.zero : Block).word16 o = 0 := fun o => by
    rw [Bytes.word16, Bytes.slice_zero]
    rfl
  ext1
  · exact hshort _
  · exact hshort _
  · exact hshort _
  · exact hshort _
  · exact Bytes.word32_zero _
  · funext j
    exact Bytes.word32_zero _

/-- The image with nothing but the super block. -/
def formatted : Image := { start with disk := Function.update start.disk 1 (superBlock NINODES) }

theorem formatted_disk (h : b ≠ 1) : formatted.disk b = Bytes.zero := update_of_ne h ..

theorem formatted_super : formatted.disk 1 = superBlock NINODES := by
  unfold formatted
  dsimp only
  rw [update_self]

theorem built_formatted (hn : n ≤ roomy) (hpos : 0 < n) : Built n formatted [] := by
  have hdin : ∀ i < roomy, dinodeAt (super n) (formatted.mounted n) i = Dinode.zero := fun i hi => by
    rw [dinodeAt, mounted_iblock hi, formatted_disk (iblock_ne hi).2, load_zero]
  have hlt : ∀ i < (super n).ninodes.toNat, i < roomy := fun i hi => by
    rw [super_ninodes hn] at hi
    omega
  have hinv : FsInv (formatted.kernel n) := by
    refine .of_empty (geometry_super hn) (load_superBlock n) (fun i hi => ?_) (fun b hb => ?_)
      (cached_empty fun _ => rfl)
    · exact hdin i (hlt i hi) ▸ ⟨rfl, fun _ => rfl⟩
    · refine (blockBit_mounted (by decide) hb).trans (decide_eq_decide.mpr ?_)
      change b < nmeta ↔ b < dataStart (super n)
      rw [dataStart_super]
  have hown : ∀ x, formatted.own n x = 0 := fun x => by
    rw [Image.own, Fs.own]
    split
    next hx => exact absurd (congrArg Dinode.type (hdin _ (hlt _ hx.1))) hx.2
    next => rfl
  have hnode : (formatted.kernel n).node = nodeAt [] := by
    funext i
    have hfree : nodeAt [] i = .free := by
      cases i with
      | zero => rfl
      | succ k => rfl
    rw [hfree, State.node, nodeOf]
    split
    next hi =>
      have hz : dinodeAt (formatted.kernel n).sb (formatted.kernel n).disk i = Dinode.zero :=
        hdin i (hlt i hi)
      rw [hz]
      rfl
    next => rfl
  refine ⟨hn, hpos, hinv, hnode, List.forall_mem_nil _, rfl, fun i hi _ => hdin i (by omega),
    fun i k hne => ?_, fun i x _ => ?_, fun b hb => ?_, Nat.le_refl _, by decide, Nat.le_refl _, formatted_super⟩
  · exact absurd (hown _) hne
  · unfold Image.byte fileByte
    change (blockOf _ (formatted.own n _)).get _ = 0
    rw [hown, blockOf, if_pos rfl, Bytes.get_zero]
  · refine formatted_disk fun h1 => ?_
    rw [h1] at hb
    exact absurd hb (by decide)

theorem Built.wp_rootEntry (h : Built n m [(T_DIR, c)]) (hc : c.length ≤ Dirent.size) :
    (iappend ROOTINO (dirent ROOTINO name)).wp E (fun _ m' =>
      Built n m' [(T_DIR, c ++ dirent ROOTINO name)]) m := by
  have hlen : (c ++ dirent ROOTINO name).length ≤ BSIZE := by
    rw [length_append, length_dirent]
    simp only [Dirent.size, DIRSIZ, BSIZE] at hc ⊢
    omega
  have hblocks : blocks (c ++ dirent ROOTINO name).length ≤ 1 :=
    Nat.le_trans (blocks_mono hlen) (by decide)
  have happ : (iappend ROOTINO (dirent ROOTINO name)).wp E _ m :=
    Built.wp_iappend (A := []) (x := (T_DIR, c)) (B := []) h (by rw [length_dirent]; decide)
      fun hbad => absurd hbad (by
        rw [length_append] at hlen
        simp only [nil_append, total_cons, total_nil, FSSIZE, nmeta_eq, MAXFILE, NDIRECT,
          NINDIRECT, BSIZE] at hlen hblocks ⊢
        omega)
  exact wp_imp happ fun _ m' hm => hm.1

theorem wp_main_start {Q : Unit → Image → Prop} (hn : n ≤ roomy) (hpos : 1 < n)
    (hQ : ∀ m, Built n m (contents []) →
      (files.forM (addFile ROOTINO) >>= fun _ => finish).wp E Q m) :
    (main files).wp E Q start := by
  have hsuper : Bytes.zero.setWords32 0 (Superblock.words sb) = superBlock NINODES := rfl
  rw [main, hsuper, wp_bind, wp_wsect (by decide)]
  have h₀ : Built n formatted [] := built_formatted hn (by omega)
  refine wp_seq (h₀.wp_ialloc T_DIR hpos (by decide)) fun i m₁ ⟨hi, h₁, _⟩ => ?_
  obtain rfl : i = ROOTINO := hi
  rw [wp_bind]
  refine wp_assert (fun hne => absurd rfl hne) fun _ => ?_
  rw [wp_bind]
  refine wp_imp (Built.wp_rootEntry (c := []) h₁ (Nat.zero_le _)) fun _ m₂ h₂ => ?_
  rw [wp_bind]
  refine wp_imp (h₂.wp_rootEntry (Nat.le_of_eq length_dirent)) fun _ m₃ h₃ => ?_
  exact hQ m₃ h₃

theorem wp_finish {Q : Unit → Image → Prop} (hQ : m.freeblock < BPB → Q () m.finished)
    (hE : BPB ≤ m.freeblock → ∀ e, E e) : finish.wp E Q m := by
  have hroot : ROOTINO < roomy := by decide
  rw [finish, wp_bind, wp_rinode hroot, wp_bind, wp_winode hroot, wp_bind,
    wp_gets, balloc, wp_bind]
  refine wp_assert (fun hge => hE (Nat.le_of_not_lt hge)) fun hlt => ?_
  rw [wp_wsect (by decide)]
  exact hQ hlt

/-- **A run of `mkfs`.** -/
theorem wp_main (hn : n ≤ roomy) (hlen : files.length + 1 < n) (hE : ¬Suits files → ∀ e, E e) :
    (main files).wp E (fun _ m' => ∃ m, Built n m (contents files) ∧ m' = m.finished) start := by
  refine wp_main_start hn (by omega) fun m h => ?_
  refine wp_seq (h.wp_files files hlen hE) fun _ m₁ ⟨h₁, _⟩ => ?_
  have hroom : m₁.freeblock < BPB := Nat.lt_of_le_of_lt h₁.room (by decide)
  exact wp_finish (fun _ => ⟨m₁, h₁, rfl⟩) fun hge => absurd hroom (Nat.not_lt_of_le hge)

theorem main_ok (h : Suits files) (hn : n ≤ roomy) (hlen : files.length + 1 < n) :
    ∃ m, Built n m (contents files) ∧ main files start = .ok ((), m.finished) := by
  have hrun := wp_main (E := fun _ => False) hn hlen fun hs => absurd h hs
  obtain ⟨_, _, heq, m, hm, rfl⟩ := exists_of_wp hrun
  exact ⟨m, hm, heq⟩

/-! ## Any run -/

/-- `k` inodes are taken, and perhaps some blocks. -/
def Climbs (k : Nat) (m m' : Image) : Prop :=
  m'.freeinode = m.freeinode + k ∧ m.freeblock ≤ m'.freeblock

theorem Climbs.refl : Climbs 0 m m := ⟨rfl, Nat.le_refl _⟩

theorem Climbs.trans (h : Climbs k m m') (h' : Climbs l m' m'') : Climbs (k + l) m m'' :=
  ⟨by rw [h'.1, h.1, Nat.add_assoc], Nat.le_trans h.2 h'.2⟩

/-- `x` takes `k` inodes. -/
def TakesInodes (k : Nat) (x : MkfsM α) : Prop := ∀ m, x.wp (fun _ => True) (fun _ => Climbs k m) m

theorem TakesInodes.bind {x : MkfsM α} {f : α → MkfsM β} (hx : TakesInodes k x)
    (hf : ∀ a, TakesInodes l (f a)) : TakesInodes (k + l) (x >>= f) := fun m =>
  wp_seq (hx m) fun a t ht => wp_imp (hf a t) fun _ _ hu => ht.trans hu

theorem TakesInodes.seq {x : MkfsM α} {f : α → MkfsM β} (hx : TakesInodes 0 x)
    (hf : ∀ a, TakesInodes k (f a)) : TakesInodes k (x >>= f) := Nat.zero_add k ▸ hx.bind hf

theorem TakesInodes.pure (a : α) : TakesInodes 0 (pure a : MkfsM α) := fun _ => .refl

theorem TakesInodes.gets {f : Image → α} : TakesInodes 0 (Prog.gets f : MkfsM α) := fun _ => .refl

theorem takes_assert {c : Prop} [Decidable c] : TakesInodes 0 (assert c) := fun _ =>
  wp_assert (fun _ _ => trivial) fun _ => .refl

theorem takes_rsect : TakesInodes 0 (rsect sec) := fun m => by
  unfold rsect
  split
  · exact .refl
  · trivial

theorem takes_wsect : TakesInodes 0 (wsect sec buf) := fun _ => .refl

theorem takes_winode : TakesInodes 0 (winode i d) := takes_rsect.seq fun _ => takes_wsect

theorem takes_rinode : TakesInodes 0 (rinode i) := takes_rsect.seq fun _ => .pure _

theorem takes_ialloc {type : UInt16} : TakesInodes 1 (ialloc type) := by
  have hmod : TakesInodes 1
      (Prog.modify fun s => { s with freeinode := s.freeinode + 1 } : MkfsM Unit) :=
    fun _ => ⟨rfl, Nat.le_refl _⟩
  exact TakesInodes.gets.seq fun _ => hmod.bind fun _ => takes_winode.seq fun _ => .pure _

theorem takes_nextBlock : TakesInodes 0 nextBlock := fun _ => ⟨rfl, Nat.le_succ _⟩

theorem takes_blockAddr : TakesInodes 0 (blockAddr d k) := by
  unfold blockAddr
  split
  · exact takes_nextBlock.seq fun _ => .pure _
  · exact .pure _

theorem takes_blockFor : TakesInodes 0 (blockFor d fbn) := by
  unfold blockFor
  split
  · exact takes_blockAddr
  · refine takes_blockAddr.seq fun r => takes_rsect.seq fun indirect => ?_
    split
    · exact takes_nextBlock.seq fun _ => takes_wsect.seq fun _ => .pure _
    · exact .pure _

theorem takes_iappendLoop : TakesInodes 0 (iappendLoop turns d off p) := by
  induction turns generalizing d off p with
  | zero => exact .pure _
  | succ turns ih =>
    unfold iappendLoop
    split
    · exact .pure _
    · exact takes_assert.seq fun _ => takes_blockFor.seq fun _ => takes_rsect.seq fun _ =>
        takes_wsect.seq fun _ => ih

theorem takes_iappend : TakesInodes 0 (iappend i p) :=
  takes_rinode.seq fun _ => takes_iappendLoop.seq fun _ => takes_winode

theorem takes_reads {reads : List (List UInt8)} : TakesInodes 0 (reads.forM (iappend i)) := by
  induction reads with
  | nil => exact .pure _
  | cons p reads ih => exact takes_iappend.seq fun _ => ih

theorem takes_addFile : TakesInodes 1 (addFile rootino f) :=
  takes_assert.seq fun _ => takes_ialloc.bind fun _ => takes_iappend.seq fun _ => takes_reads

theorem takes_files : TakesInodes files.length (files.forM (addFile rootino)) := by
  induction files with
  | nil => exact .pure _
  | cons f files ih =>
    rw [length_cons, Nat.add_comm]
    exact takes_addFile.bind fun _ => ih

theorem Built.le_freeblock (h : Built n m L) (hi : i < n) (htype : (nodeAt L i).type ≠ 0)
    (hk : k * BSIZE ≤ (nodeAt L i).data.length + (BSIZE - 1)) : nmeta + k ≤ m.freeblock := by
  obtain ⟨hty, -, hsize⟩ := h.node_eq hi
  rw [hty] at htype
  rw [hsize] at hk
  have hnz : ∀ bn < k, m.own n (i, slotOf bn) ≠ 0 := fun bn hbn => by
    refine h.inv.full i ?_ htype bn ?_
    · change i < (Mkfs.super n).ninodes.toNat
      rwa [super_ninodes h.roomy]
    · change bn * BSIZE < (dinodeAt (Mkfs.super n) (m.mounted n) i).size.toNat
      have := Nat.mul_le_mul_right BSIZE (Nat.succ_le_of_lt hbn)
      rw [Nat.succ_mul] at this
      simp only [BSIZE] at *
      omega
  have hmem : ∀ bn ∈ Finset.range k, m.own n (i, slotOf bn) ∈ Finset.Ico nmeta m.freeblock := by
    intro bn hbn
    have hne := hnz bn (Finset.mem_range.mp hbn)
    have hdata := h.inv.alloc.exact.pool hne
    have hused := (h.inv.alloc.exact.used_iff hdata).mpr ⟨_, rfl⟩
    obtain ⟨hge, hlt⟩ := isData_super.mp hdata
    rw [Finset.mem_Ico]
    exact ⟨hge, of_decide_eq_true ((blockBit_mounted h.room hlt).symm.trans hused)⟩
  have hinj : Set.InjOn (fun bn => m.own n (i, slotOf bn)) (Finset.range k) := by
    intro bn hbn bn' _ heq
    have := h.inv.alloc.exact.inj (hnz bn (Finset.mem_range.mp hbn)) heq
    exact slotOf_inj (congrArg Prod.snd this)
  have hcard := Finset.card_le_card_of_injOn _ hmem hinj
  rw [Finset.card_range, Nat.card_Ico] at hcard
  have := h.taken
  omega

/-- What is known of every run: with 206 files the root directory takes seven blocks. -/
theorem main_climbs (h : main files start = .ok ((), m')) : ∃ m : Image, m' = m.finished ∧
    m.freeblock < BPB ∧ m.freeinode = files.length + 2 ∧
    (206 ≤ files.length → nmeta + 7 ≤ m.freeblock) := by
  have hrun : (main files).wp (fun _ => True) (fun _ m' => ∃ m : Image, m' = m.finished ∧
      m.freeblock < BPB ∧ m.freeinode = files.length + 2 ∧
      (206 ≤ files.length → nmeta + 7 ≤ m.freeblock)) start := by
    refine wp_main_start (n := roomy) (Nat.le_refl _) (by decide) fun m hm => ?_
    have hfirst : (files.take 206).length ≤ 206 := length_take_le _ _
    rw [← take_append_drop 206 files, forM_eq_forM, forM_append, bind_assoc,
      ← forM_eq_forM]
    refine wp_seq (hm.wp_files (E := fun _ => True) (files.take 206) ?_
      fun _ _ => trivial) fun _ m₁ ⟨h₁, _⟩ => ?_
    · rw [nil_append, roomy_eq]
      omega
    refine wp_seq (takes_files m₁) fun _ m₂ h₂ => ?_
    refine wp_finish (fun hlt => ⟨m₂, rfl, hlt, ?_, fun hlen => ?_⟩) fun _ _ => trivial
    · rw [h₂.1, h₁.freeinode, length_contents, nil_append, length_append]
      omega
    · rw [length_append, length_take, length_drop] at hlen
      refine Nat.le_trans (h₁.le_freeblock (i := ROOTINO) (by decide)
        (by change T_DIR ≠ 0; decide) ?_) h₂.2
      change 7 * BSIZE ≤ (rootData ([] ++ files.take 206)).length + (BSIZE - 1)
      rw [nil_append, length_rootData, length_take]
      simp only [BSIZE, Dirent.size, DIRSIZ]
      omega
  exact wp_ok hrun h

end

end Xv6.Fs.Mkfs
