import Xv6.Fs.Formatted

/-!
# The image that `mkfs` writes

At the end the size of the root directory is rounded up and the free map is written. What the blocks
of the image say is known from the files that were added, as long as the inodes stay in their
blocks.

The image is what the kernel expects if there are at most 198 files: with more the inode numbers do
not stay below the number in the super block. A file that is read has all of its blocks, unless the
entries fill the last block of the root directory, which then has a size of one block more than it
has, or there are more than 206 files; then the free map is written over an inode.
-/

namespace Xv6.Fs.Mkfs

/-! ## The blocks of the image -/

section
variable {n i k b : Nat} {m m' : Image} {L : Contents} {files : List HostFile}

theorem finished_map : m.finished.disk 58 = bitmap m.freeblock := by
  unfold Image.finished
  dsimp only
  rw [update_self]

theorem finished_of_ne (h : b ≠ 58) :
    m.finished.disk b = putDinode sb m.disk ROOTINO m.rootInode b := update_of_ne h ..

theorem finished_data (hb : nmeta ≤ b) : m.finished.disk b = m.disk b := by
  rw [finished_of_ne (data_ne hb).1]
  refine update_of_ne ?_ ..
  have hroot : iblock sb ROOTINO = 32 := rfl
  rw [nmeta_eq] at hb
  omega

theorem finished_super : m.finished.disk 1 = m.disk 1 := by
  rw [finished_of_ne (by decide)]
  exact update_of_ne (by decide) ..

theorem dinodeAt_finished (hi : i < roomy) : dinodeAt sb m.finished.disk i =
    if i = ROOTINO then m.rootInode else dinodeAt sb m.disk i := by
  rw [← dinodeAt_putDinode]
  exact dinodeAt_congr (finished_of_ne (iblock_ne (n := NINODES) hi).1)

theorem addrs_finished (hi : i < roomy) :
    (dinodeAt sb m.finished.disk i).addrs = (dinodeAt sb m.disk i).addrs := by
  rw [dinodeAt_finished hi]
  split
  next h => rw [h]; rfl
  next => rfl

/-- The block numbers in the image are those of the files. -/
theorem Built.slot_finished (h : Built n m L) (hi : i < n) :
    slotAddr m.finished.disk (dinodeAt sb m.finished.disk i) k = m.own n (i, k) := by
  have hroomy : i < Mkfs.roomy := Nat.lt_of_lt_of_le hi h.roomy
  have hlt : i < (Mkfs.super n).ninodes.toNat := by rwa [super_ninodes h.roomy]
  have hdin : dinodeAt (Mkfs.super n) (m.mounted n) i = dinodeAt sb m.disk i :=
    dinodeAt_mounted hroomy
  rw [slotAddr_congr_addrs (addrs_finished hroomy)]
  by_cases htype : (dinodeAt sb m.disk i).type = 0
  · -- an inode without a type is not in use, and has no blocks
    have hunused : i = 0 ∨ L.length < i := by
      by_contra hused
      obtain ⟨j, rfl⟩ : ∃ j, i = j + 1 := ⟨i - 1, by omega⟩
      have hj : j < L.length := by omega
      have hnode := (h.node_eq hi).1
      rw [hdin, htype, nodeAt, List.getElem?_eq_getElem hj] at hnode
      exact h.type _ (List.getElem_mem hj) hnode
    rw [Image.own, Fs.own, hdin, if_neg fun hx => hx.2 htype, ← hdin, h.unused i hi hunused]
    exact slotAddr_of_empty addr_zero
  · rw [Image.own, own_of_alloc hlt (by rwa [hdin]), hdin]
    refine slotAddr_congr fun hnz => ?_
    have hown : m.own n (i, NDIRECT) = (dinodeAt sb m.disk i).addr NDIRECT := by
      rw [Image.own, own_of_le hlt (by rwa [hdin]) (Nat.le_refl _), hdin]
    have hdata := h.inv.alloc.exact.pool (x := (i, NDIRECT)) (by
      change m.own n (i, NDIRECT) ≠ 0
      rwa [hown])
    have hge : nmeta ≤ (dinodeAt sb m.disk i).addr NDIRECT := hown ▸ (isData_super.mp hdata).1
    rw [finished_data hge, mounted_data hge]

theorem Built.size_finished (h : Built n m L) (hi : i < n) (hne : i ≠ ROOTINO) :
    (dinodeAt sb m.finished.disk i).size.toNat = (nodeAt L i).data.length := by
  have hroomy : i < Mkfs.roomy := Nat.lt_of_lt_of_le hi h.roomy
  rw [dinodeAt_finished hroomy, if_neg hne, (h.node_eq hi).2.2, dinodeAt_mounted hroomy]

theorem Built.size_root (h : Built n m (contents files)) :
    (dinodeAt sb m.finished.disk ROOTINO).size.toNat =
      (Dirent.size * (files.length + 2) / BSIZE + 1) * BSIZE := by
  have hroot : ROOTINO < Mkfs.roomy := by decide
  have hlt := h.lt
  have hroomy := h.roomy
  rw [length_contents] at hlt
  rw [roomy_eq] at hroomy
  have hsize : (dinodeAt sb m.disk ROOTINO).size.toNat = Dirent.size * (files.length + 2) := by
    rw [← length_rootData, ← dinodeAt_mounted (n := n) hroot, ← (h.node_eq (by
      simp only [ROOTINO]
      omega)).2.2]
    rfl
  rw [dinodeAt_finished hroot, if_pos rfl, Image.rootInode, hsize]
  refine UInt32.toNat_ofNat_of_lt' ?_
  simp only [Dirent.size, DIRSIZ, BSIZE, UInt32.size]
  omega

end

/-! ## The layout -/

def logRegion (sb : Superblock) : Set Nat :=
  { b | sb.logstart.toNat ≤ b ∧ b < sb.logstart.toNat + sb.nlog.toNat }

def inodeRegion (sb : Superblock) : Set Nat := { b | ∃ i < sb.ninodes.toNat, b = iblock sb i }

def mapRegion (sb : Superblock) : Set Nat := { b | ∃ x < sb.size.toNat, b = bblock sb x }

def dataRegion (sb : Superblock) : Set Nat := { b | IsData sb b }

/-- The block number in place `k` of inode `i`, or of its indirect block. -/
def Image.stored (m : Image) (i k : Nat) : Nat := slotAddr m.disk (dinodeAt sb m.disk i) k

structure WellFormed (m : Image) : Prop where
  range : ∀ i < roomy, ∀ k, m.stored i k ≠ 0 → nmeta ≤ m.stored i k ∧ m.stored i k < FSSIZE
  distinct : ∀ i < roomy, ∀ j < roomy, ∀ k l, m.stored i k ≠ 0 → m.stored i k = m.stored j l →
    i = j ∧ k = l
  bitmap : ∀ b < BPB, blockBit sb m.disk b = decide (b < m.freeblock)
  inodes : ∀ i, 0 < i → i < m.freeinode → i < NINODES
  super : Superblock.load (m.disk 1) = sb
  regions : [{0, 1}, logRegion sb, inodeRegion sb, mapRegion sb, dataRegion sb].Pairwise Disjoint

theorem disjoint_of_lt {A B : Set Nat} (h : ∀ a ∈ A, ∀ b ∈ B, a < b) : Disjoint A B :=
  Set.disjoint_left.mpr fun a ha hb => Nat.lt_irrefl a (h a ha a hb)

theorem disjoint_regions :
    [{0, 1}, logRegion sb, inodeRegion sb, mapRegion sb, dataRegion sb].Pairwise Disjoint := by
  have hboot : ∀ b ∈ ({0, 1} : Set Nat), b < 2 := fun b hb => by
    rcases hb with rfl | rfl <;> decide
  have hlog : ∀ b ∈ logRegion sb, 2 ≤ b ∧ b < 32 := fun b hb => hb
  have hinode : ∀ b ∈ inodeRegion sb, 32 ≤ b ∧ b < 58 := by
    rintro b ⟨i, hi, rfl⟩
    exact ⟨Nat.le_add_left .., iblock_lt (n := NINODES) (Nat.lt_trans hi (by decide))⟩
  have hmap : ∀ b ∈ mapRegion sb, b = 58 := by
    rintro b ⟨x, hx, rfl⟩
    exact bblock_super (n := NINODES) (Nat.lt_trans hx (by decide))
  have hdata : ∀ b ∈ dataRegion sb, 59 ≤ b := fun b hb => (isData_super (n := NINODES).mp hb).1
  simp only [List.pairwise_cons, List.mem_cons, List.not_mem_nil, or_false, forall_eq_or_imp,
    forall_eq, IsEmpty.forall_iff, implies_true, List.Pairwise.nil, and_true]
  refine ⟨⟨?_, ?_, ?_, ?_⟩, ⟨?_, ?_, ?_⟩, ⟨?_, ?_⟩, ?_⟩ <;>
    refine disjoint_of_lt fun a ha b hb => ?_
  · have := hboot a ha; have := hlog b hb; omega
  · have := hboot a ha; have := hinode b hb; omega
  · have := hboot a ha; have := hmap b hb; omega
  · have := hboot a ha; have := hdata b hb; omega
  · have := hlog a ha; have := hinode b hb; omega
  · have := hlog a ha; have := hmap b hb; omega
  · have := hlog a ha; have := hdata b hb; omega
  · have := hinode a ha; have := hmap b hb; omega
  · have := hinode a ha; have := hdata b hb; omega
  · have := hmap a ha; have := hdata b hb; omega

section
variable {n i k b : Nat} {m m' : Image} {L : Contents} {files : List HostFile}

theorem Built.wellFormed (h : Built Mkfs.roomy m L) (hlen : L.length < NINODES) :
    WellFormed m.finished := by
  have hstored : ∀ i < Mkfs.roomy, ∀ k, m.finished.stored i k = m.own Mkfs.roomy (i, k) :=
    fun i hi k => h.slot_finished hi
  refine ⟨fun i hi k hne => ?_, fun i hi j hj k l hne heq => ?_, fun b hb => ?_, fun i _ hi => ?_,
    ?_, disjoint_regions⟩
  · rw [hstored i hi] at hne ⊢
    exact isData_super.mp (h.inv.alloc.exact.pool hne)
  · rw [hstored i hi] at hne heq
    rw [hstored j hj] at heq
    exact Prod.mk.inj (h.inv.alloc.exact.inj hne heq)
  · have hblock : bblock sb b = 58 := bblock_super (n := NINODES) hb
    rw [blockBit, hblock, finished_map, Nat.mod_eq_of_lt hb,
      bit_bitmap (Nat.le_trans h.room (by decide))]
    rfl
  · have := h.freeinode
    change i < m.freeinode at hi
    omega
  · rw [finished_super, h.super, load_superBlock, super_NINODES]

theorem WellFormed.length_le (h : main files start = .ok ((), m)) (hw : WellFormed m) :
    files.length ≤ 198 := by
  obtain ⟨m₀, rfl, -, hino, -⟩ := main_climbs h
  have := hw.inodes (files.length + 1) (Nat.succ_pos _) (by
    change files.length + 1 < m₀.freeinode
    omega)
  simp only [NINODES] at this
  omega

/-- **The layout of the image.** The block numbers in the inodes and indirect blocks are those of
data blocks, no two of them the same, the free map marks the blocks that are taken, the inode numbers
that are used are below `NINODES`, and the regions of the disk are disjoint, if and only if there are
no more than 198 files. -/
theorem image_wellFormed_iff (h : main files start = .ok ((), m)) :
    WellFormed m ↔ files.length ≤ 198 := by
  refine ⟨fun hw => hw.length_le h, fun hlen => ?_⟩
  obtain ⟨m₁, hm₁, rfl⟩ := wp_ok (wp_main (n := roomy) (E := fun _ => True) (Nat.le_refl _)
    (by rw [roomy_eq]; omega) fun _ _ => trivial) h
  refine hm₁.wellFormed ?_
  rw [length_contents]
  simp only [NINODES]
  omega

end

/-- The argument `_a`, for a file of three bytes. -/
def small : HostFile := ⟨[95, 97], [[120, 121], [122]], by decide, by decide⟩

/-- The argument `a`, for an empty file. -/
def empty : HostFile := ⟨[97], [], by decide, by decide⟩

theorem suits_small : Suits [small] := ⟨by decide, by decide, by decide⟩

theorem room_of_empty (h : ∀ f ∈ files, f.bytes = []) (hlen : files.length ≤ 199) :
    nmeta + total (contents files) ≤ FSSIZE := by
  have htotal : total (files.map fun f => (T_FILE, f.bytes)) = 0 := by
    clear hlen
    induction files with
    | nil => rfl
    | cons f files ih =>
      rw [List.map_cons, total_cons, h f List.mem_cons_self,
        ih fun g hg => h g (List.mem_cons_of_mem f hg)]
      rfl
  have hroot : blocks (rootData files).length ≤ blocks (Dirent.size * 201) := by
    refine blocks_mono ?_
    rw [length_rootData]
    exact Nat.mul_le_mul_left _ (by omega)
  rw [contents, total_cons, htotal]
  exact Nat.le_trans (Nat.add_le_add_left hroot _) (by decide)

theorem suits_empty (hn : n ≤ 199) : Suits (List.replicate n empty) where
  names f hf := by
    rw [List.eq_of_mem_replicate hf]
    decide
  sizes f hf := by
    rw [List.eq_of_mem_replicate hf]
    decide
  room := room_of_empty (fun f hf => by rw [List.eq_of_mem_replicate hf]; rfl)
    (by rwa [List.length_replicate])

theorem wellFormed_small : ∃ m, main [small] start = .ok ((), m) ∧ WellFormed m := by
  obtain ⟨m, -, hm⟩ := main_ok (n := roomy) suits_small (Nat.le_refl _) (by decide)
  exact ⟨_, hm, (image_wellFormed_iff hm).mpr (by decide)⟩

/-- With 199 files `mkfs` uses the inode number 200. -/
theorem not_wellFormed_empty : ∃ m, main (List.replicate 199 empty) start = .ok ((), m) ∧
    ¬WellFormed m := by
  obtain ⟨m, -, hm⟩ := main_ok (n := roomy) (suits_empty (Nat.le_refl _)) (Nat.le_refl _)
    (by rw [List.length_replicate]; decide)
  refine ⟨_, hm, fun hw => ?_⟩
  have := hw.length_le hm
  rw [List.length_replicate] at this
  exact absurd this (by decide)

/-! ## Reading -/

/-- Every block of inode `i` below its end is there. -/
def Full (disk : Disk) (i : Nat) : Prop :=
  ∀ bn, bn * BSIZE < (dinodeAt sb disk i).size.toNat →
    slotAddr disk (dinodeAt sb disk i) (slotOf bn) ≠ 0

/-- Reading inode `i` changes nothing. -/
def ReadsOnly (disk : Disk) (i : Nat) : Prop :=
  ∀ (dev : DevSw) (s : State) (p : Ip) (off n : UInt32), s.disk = disk →
    (s.icache p).din = dinodeAt sb disk i → ∃ r, readi dev p off n s = .ok (r, s)

section
variable {s : State} {p : Ip} {E : Fault → Prop} {bn off n : Nat}

theorem wp_readLoop_there (h : ∀ bn, bn * BSIZE < off + n →
    slotAddr s.disk (s.icache p).din (slotOf bn) ≠ 0) :
    (readLoop p turns off n).wp E (fun _ t => t = s) s := by
  induction turns generalizing off n with
  | zero => exact rfl
  | succ turns ih =>
    unfold readLoop
    split
    · exact rfl
    next h0 =>
      have hc : chunk off n ≤ n := Nat.min_le_left ..
      have hdiv := Nat.div_mul_le_self off BSIZE
      rw [wp_bind]
      refine wp_bmap_there (h _ (by omega)) ?_
      simp only [bread, wp_bind, wp_gets]
      exact ih fun bn hbn => h bn (by omega)

/-- A file without holes is read without any change. -/
theorem Full.readsOnly (h : Full disk i) : ReadsOnly disk i := by
  intro dev s p off n hdisk hdin
  have hrun : (readi dev p off n).wp (fun _ => False) (fun _ t => t = s) s := by
    simp only [readi, wp_bind, wp_gets]
    split
    · split <;> exact rfl
    · split
      · exact rfl
      next hok =>
        rw [uint32_add_lt_iff, UInt32.lt_iff_toNat_lt, not_or, Nat.not_lt, Nat.not_le] at hok
        have hadd : (off + n).toNat = off.toNat + n.toNat := by
          rw [UInt32.toNat_add, Nat.mod_eq_of_lt hok.2]
        rw [wp_bind]
        refine wp_readLoop_there fun bn hbn => ?_
        rw [hdin, hdisk]
        refine h bn ?_
        rw [← hdin]
        split at hbn
        next hlt =>
          rw [UInt32.toNat_sub_of_le _ _ (UInt32.le_iff_toNat_le.mpr hok.1)] at hbn
          omega
        next hge =>
          rw [UInt32.lt_iff_toNat_lt] at hge
          omega
  obtain ⟨r, t, heq, rfl⟩ := exists_of_wp hrun
  exact ⟨r, heq⟩

end

section
variable {n i k b used : Nat} {m m' : Image} {disk : Disk} {files : List HostFile}

theorem Built.full (h : Built n m (contents files)) (hlast : (files.length + 2) % 32 ≠ 0)
    (hpos : 0 < i) (hi : i < m.freeinode) : Full m.finished.disk i := by
  rw [h.freeinode, length_contents] at hi
  have hlt := h.lt
  rw [length_contents] at hlt
  have hin : i < n := by omega
  obtain ⟨j, rfl⟩ : ∃ j, i = j + 1 := ⟨i - 1, by omega⟩
  have htype : (nodeAt (contents files) (j + 1)).type ≠ 0 := by
    rw [nodeAt, List.getElem?_eq_getElem (by rw [length_contents]; omega)]
    exact h.type _ (List.getElem_mem _)
  obtain ⟨hty, -, hsize⟩ := h.node_eq hin
  have hfull : ∀ bn, bn * BSIZE < (nodeAt (contents files) (j + 1)).data.length →
      m.own n (j + 1, slotOf bn) ≠ 0 := fun bn hbn => by
    refine h.inv.full (j + 1) ?_ ?_ bn ?_
    · change j + 1 < (Mkfs.super n).ninodes.toNat
      rwa [super_ninodes h.roomy]
    · rw [hty] at htype
      exact htype
    · rw [hsize] at hbn
      exact hbn
  intro bn hbn
  rw [h.slot_finished hin]
  refine hfull bn ?_
  by_cases hroot : j + 1 = ROOTINO
  · rw [hroot, h.size_root] at hbn
    obtain rfl : j = 0 := Nat.succ.inj hroot
    change bn * BSIZE < (rootData files).length
    rw [length_rootData]
    simp only [Dirent.size, DIRSIZ, BSIZE] at hbn ⊢
    omega
  · rwa [h.size_finished hin hroot] at hbn

/-- The block after the entries of the root directory is missing, if they fill the last one. -/
theorem Built.own_hole (h : Built n m (contents files)) (hlast : (files.length + 2) % 32 = 0) :
    m.own n (ROOTINO, slotOf ((files.length + 2) / 32)) = 0 := by
  by_contra hne
  obtain ⟨bn, hbn, hslot | ⟨-, hslot⟩⟩ := h.only _ _ hne
  · have htouch : bn * BSIZE < 0 + (rootData files).length := hbn.2.2
    rw [length_rootData, ← slotOf_inj hslot] at htouch
    simp only [Dirent.size, DIRSIZ, BSIZE] at htouch
    omega
  · exact slotOf_ne _ hslot

theorem Built.hole (h : Built n m (contents files)) (hlast : (files.length + 2) % 32 = 0) :
    ¬Full m.finished.disk ROOTINO := by
  have hlt := h.lt
  rw [length_contents] at hlt
  intro hfull
  refine hfull ((files.length + 2) / 32) ?_ ?_
  · rw [h.size_root]
    simp only [Dirent.size, DIRSIZ, BSIZE]
    omega
  · rw [h.slot_finished (by simp only [ROOTINO]; omega), h.own_hole hlast]

/-! ### The inode in the free map -/

theorem word32_bitmap (h : 96 ≤ used) : (bitmap used).word32 8 = 0xffffffff := by
  induction used, h using Nat.le_induction with
  | base => decide +kernel
  | succ used hle ih =>
    rw [bitmap_succ, ← ih]
    refine Bytes.word32_congr fun j hj => Bytes.get_blit_of_not_mem (.inl ?_)
    omega

theorem word32_bitmap_small :
    ∀ used < 97, 66 ≤ used → (bitmap used).word32 8 ≠ 0 ∧ (bitmap used).word32 12 = 0 := by
  decide +kernel

/-- The inode after the last one for which there is room is the free map. -/
theorem not_full_map (hdisk : disk 58 = bitmap used) (hge : 66 ≤ used) : ¬Full disk roomy := by
  have hdin : dinodeAt sb disk roomy = Dinode.load (bitmap used) 0 := by
    rw [← hdisk]
    rfl
  intro hfull
  rw [Full, hdin] at hfull
  by_cases hsmall : used < 97
  · obtain ⟨hsize, haddr⟩ := word32_bitmap_small used hsmall hge
    refine hfull 0 ?_ ?_
    · rw [Nat.zero_mul]
      exact Nat.pos_of_ne_zero fun h0 => hsize (UInt32.toNat_inj.mp h0)
    · exact congrArg UInt32.toNat haddr
  · have hsize : (Dinode.load (bitmap used) 0).size = 0xffffffff := word32_bitmap (by omega)
    refine hfull MAXFILE ?_ (slotAddr_slotOf_of_le (Nat.le_refl _))
    rw [hsize]
    decide

/-- **Holes in the image.** Every file of the image has all of its blocks, so that `readi` changes
nothing, if and only if there are no more than 206 files and the entries of the root directory do
not fill its last block. -/
theorem image_full_iff (h : main files start = .ok ((), m)) :
    (∀ i, 0 < i → i < m.freeinode → Full m.disk i ∧ ReadsOnly m.disk i) ↔
      files.length ≤ 206 ∧ (files.length + 2) % 32 ≠ 0 := by
  obtain ⟨m₀, rfl, -, hino, hused⟩ := main_climbs h
  by_cases hlen : files.length ≤ 206
  · obtain ⟨m₁, hm₁, heq⟩ := wp_ok (wp_main (n := roomy) (E := fun _ => True) (Nat.le_refl _)
      (by rw [roomy_eq]; omega) fun _ _ => trivial) h
    rw [heq]
    refine ⟨fun hall => ⟨hlen, fun hlast => ?_⟩, fun hc i hpos hi => ?_⟩
    · refine hm₁.hole hlast (hall ROOTINO (by decide) ?_).1
      change 1 < m₁.freeinode
      rw [hm₁.freeinode, length_contents]
      omega
    · have hfull := hm₁.full hc.2 hpos hi
      exact ⟨hfull, hfull.readsOnly⟩
  · refine ⟨fun hall => ?_, fun hc => absurd hc.1 hlen⟩
    have hmap := not_full_map finished_map (Nat.le_trans (by decide) (hused (by omega)))
    refine absurd (hall roomy (by decide) ?_).1 hmap
    change roomy < m₀.freeinode
    rw [hino, roomy_eq]
    omega

end

theorem full_small : ∃ m, main [small] start = .ok ((), m) ∧
    ∀ i, 0 < i → i < m.freeinode → Full m.disk i ∧ ReadsOnly m.disk i := by
  obtain ⟨m, -, hm⟩ := main_ok (n := roomy) suits_small (Nat.le_refl _) (by decide)
  exact ⟨_, hm, (image_full_iff hm).mpr (by decide)⟩

/-- With 30 files the root directory has a second block by its size, but not on the disk. -/
theorem not_full_empty : ∃ m i, main (List.replicate 30 empty) start = .ok ((), m) ∧ 0 < i ∧
    i < m.freeinode ∧ ¬Full m.disk i := by
  have hlen : (List.replicate 30 empty).length = 30 := List.length_replicate
  obtain ⟨m, hb, hm⟩ := main_ok (n := roomy) (suits_empty (by decide : 30 ≤ 199)) (Nat.le_refl _)
    (by rw [hlen]; decide)
  refine ⟨_, ROOTINO, hm, by decide, ?_, hb.hole (by rw [hlen])⟩
  change 1 < m.freeinode
  rw [hb.freeinode, length_contents]
  omega

end Xv6.Fs.Mkfs
