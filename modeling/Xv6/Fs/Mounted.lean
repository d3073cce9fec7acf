import Xv6.Fs.Cache
import Xv6.Fs.Mkfs

/-!
# An unfinished image as a disk

`mkfs` takes the blocks in order and writes the free map last. With the map of the blocks that are
taken so far in its place the image is a disk at every point (`mounted`), and an inode that is being
appended to is an inode in the cache of the kernel, ahead of the disk (`Shows`). Seen in this way
`blockFor` does what `bmap` does, and the loop of `iappend` what the loop of `writei` does.

The number of inodes in the super block is a parameter here: the inode blocks have room for more of
them than `NINODES`, and `mkfs` does not stop there.
-/

namespace Xv6.Fs.Mkfs

/-! ## The layout -/

/-- The number of inodes for which there is room in the inode blocks. -/
def roomy : Nat := ninodeblocks * IPB

/-- The super block with `n` inodes. -/
def super (n : Nat) : Superblock := { sb with ninodes := UInt32.ofNat n }

def superBlock (n : Nat) : Block := Bytes.zero.setWords32 0 (Superblock.words (super n))

theorem super_NINODES : super NINODES = sb := rfl

@[simp] theorem super_size : (super n).size.toNat = FSSIZE := rfl

@[simp] theorem super_bmapstart : (super n).bmapstart.toNat = 58 := rfl

@[simp] theorem super_inodestart : (super n).inodestart.toNat = 32 := rfl

@[simp] theorem dataStart_super : dataStart (super n) = nmeta := by
  change dataStart sb = nmeta
  decide

theorem nmeta_eq : nmeta = 59 := rfl

theorem roomy_eq : roomy = 208 := rfl

theorem super_ninodes (hn : n ≤ roomy) : (super n).ninodes.toNat = n :=
  UInt32.toNat_ofNat_of_lt' (Nat.lt_of_le_of_lt hn (by decide))

theorem load_superBlock (n : Nat) : Superblock.load (superBlock n) = super n := by
  have hfit : 0 + 4 * (Superblock.words (super n)).length ≤ BSIZE := by
    change 0 + 4 * 7 ≤ 512
    decide
  have hwords : ∀ k, (hk : k < (Superblock.words (super n)).length) →
      (superBlock n).word32 (4 * k) = (Superblock.words (super n))[k] := fun k hk => by
    have := Bytes.word32_setWords32 Bytes.zero hfit hk
    rwa [Nat.zero_add] at this
  ext1
  · exact hwords 0 (Nat.succ_pos _)
  · exact hwords 1 (by change 1 < 7; decide)
  · exact hwords 2 (by change 2 < 7; decide)
  · exact hwords 3 (by change 3 < 7; decide)
  · exact hwords 4 (by change 4 < 7; decide)
  · exact hwords 5 (by change 5 < 7; decide)
  · exact hwords 6 (by change 6 < 7; decide)

theorem iblock_super (i : Nat) : iblock (super n) i = i / IPB + 32 := rfl

theorem bblock_super (hb : b < BPB) : bblock (super n) b = 58 := by
  rw [bblock, Nat.div_eq_of_lt hb, super_bmapstart]

theorem iblock_lt (hi : i < roomy) : iblock (super n) i < 58 := by
  rw [roomy_eq] at hi
  simp only [IPB, BSIZE, iblock_super]
  omega

theorem geometry_super (hn : n ≤ roomy) : Geometry (super n) where
  inodes := by rw [super_inodestart]; decide
  inodes_le := by rw [super_inodestart, super_bmapstart]; decide
  bitmap i hi := iblock_lt (by rw [super_ninodes hn] at hi; omega)
  data b hb := by
    rw [super_size] at hb
    rw [bblock_super (Nat.lt_trans hb (by decide)), dataStart_super]
    decide
  bitmap_le := by rw [super_bmapstart, dataStart_super]; decide
  size := by rw [super_size]; decide

theorem isData_super : IsData (super n) b ↔ nmeta ≤ b ∧ b < FSSIZE := by
  rw [IsData, dataStart_super, super_size]

/-! ## The free map -/

theorem bitmap_succ (used : Nat) : bitmap (used + 1) = (bitmap used).setBit used := by
  rw [bitmap, List.range_succ, List.foldl_append]
  rfl

theorem bit_bitmap (h : used ≤ BPB) (b : Nat) : (bitmap used).bit b = decide (b < used) := by
  induction used with
  | zero =>
    rw [Bytes.bit_eq_testBit, bitmap, List.range_zero, List.foldl_nil, Bytes.get_zero]
    exact Nat.zero_testBit _
  | succ used ih =>
    have hfit : used / 8 < BSIZE := by
      simp only [BPB, BSIZE] at h ⊢
      omega
    rw [bitmap_succ, Bytes.bit_setBit _ hfit, ih (Nat.le_of_succ_le h), ← Bool.decide_or]
    exact decide_eq_decide.mpr (by omega)

/-! ## Sectors -/

theorem sector_eq (h : b ≤ FSSIZE) : sector b = b := by
  rw [sector, Nat.mod_eq_of_lt, Nat.mul_div_cancel _ (by decide)]
  simp only [FSSIZE, BSIZE] at *
  omega

section
variable {E : Fault → Prop} {m : Image}

theorem wp_rsect {Q : Block → Image → Prop} (hb : b ≤ FSSIZE) (hE : b = FSSIZE → ∀ e, E e)
    (hQ : b < FSSIZE → Q (m.disk b) m) : (rsect b).wp E Q m := by
  rw [rsect, sector_eq hb]
  split
  next hlt => exact hQ hlt
  next hge => exact hE (Nat.le_antisymm hb (Nat.le_of_not_lt hge)) _

theorem wp_wsect {Q : Unit → Image → Prop} (hb : b ≤ FSSIZE) :
    (wsect b buf).wp E Q m ↔ Q () { m with disk := update m.disk b buf } := by
  rw [wsect, sector_eq hb, wp_modify, setAt_eq_update]

end

/-! ## The disk -/

/-- The disk with the free map of the blocks that are taken so far. -/
def Image.mounted (n : Nat) (m : Image) : Disk := fun b =>
  if b = 58 then bitmap m.freeblock else if b = 1 then superBlock n else m.disk b

/-- The next block is taken. -/
def Image.next (m : Image) : Image := { m with freeblock := m.freeblock + 1 }

section
variable {m : Image} {n b : Nat}

theorem mounted_map : m.mounted n 58 = bitmap m.freeblock := if_pos rfl

theorem mounted_super : m.mounted n 1 = superBlock n := rfl

theorem mounted_of_ne (h58 : b ≠ 58) (h1 : b ≠ 1) : m.mounted n b = m.disk b := by
  rw [Image.mounted, if_neg h58, if_neg h1]

theorem data_ne (hb : nmeta ≤ b) : b ≠ 58 ∧ b ≠ 1 := by
  rw [nmeta_eq] at hb
  omega

theorem iblock_ne (hi : i < roomy) : iblock (super n) i ≠ 58 ∧ iblock (super n) i ≠ 1 := by
  have hlt : iblock (super n) i < 58 := iblock_lt hi
  have hge : 32 ≤ iblock (super n) i := Nat.le_add_left ..
  omega

theorem mounted_data (hb : nmeta ≤ b) : m.mounted n b = m.disk b :=
  mounted_of_ne (data_ne hb).1 (data_ne hb).2

theorem mounted_iblock (hi : i < roomy) :
    m.mounted n (iblock (super n) i) = m.disk (iblock (super n) i) :=
  mounted_of_ne (iblock_ne hi).1 (iblock_ne hi).2

theorem blockBit_mounted (hm : m.freeblock ≤ FSSIZE) (hb : b < FSSIZE) :
    blockBit (super n) (m.mounted n) b = decide (b < m.freeblock) := by
  have hlt : b < BPB := Nat.lt_trans hb (by decide)
  rw [blockBit, bblock_super hlt, mounted_map, Nat.mod_eq_of_lt hlt,
    bit_bitmap (Nat.le_trans hm (by decide))]

theorem mounted_next (hzero : m.disk m.freeblock = Bytes.zero) (hge : nmeta ≤ m.freeblock)
    (hlt : m.freeblock < FSSIZE) : m.next.mounted n =
      update (markUsed (super n) (m.mounted n) m.freeblock) m.freeblock Bytes.zero := by
  have hbit : m.freeblock < BPB := Nat.lt_trans hlt (by decide)
  funext b
  rw [markUsed, bblock_super hbit, Nat.mod_eq_of_lt hbit]
  by_cases hb : b = m.freeblock
  · rw [hb, update_self, mounted_data hge]
    exact hzero
  · rw [update_of_ne hb]
    by_cases h58 : b = 58
    · rw [h58, update_self, mounted_map, mounted_map, ← bitmap_succ]
      rfl
    · rw [update_of_ne h58, Image.mounted, Image.mounted, if_neg h58, if_neg h58]
      rfl

theorem mounted_update (hb : b ≠ 58 ∧ b ≠ 1) : Image.mounted n { m with
    disk := update m.disk b data } = update (m.mounted n) b data := by
  funext c
  by_cases hc : c = b
  · rw [hc, update_self, mounted_of_ne hb.1 hb.2]
    exact update_self ..
  · rw [update_of_ne hc, Image.mounted, Image.mounted]
    dsimp only
    rw [update_of_ne hc]

theorem mounted_putDinode (hi : i < roomy) : Image.mounted n { m with
    disk := putDinode sb m.disk i d } = putDinode (super n) (m.mounted n) i d := by
  refine (mounted_update (iblock_ne (n := n) hi)).trans ?_
  rw [putDinode, mounted_iblock hi]
  rfl

end

/-! ## An inode that is being appended to -/

/-- Nothing changed but data and the blocks that are taken. -/
structure Keeps (m m' : Image) : Prop where
  freeinode : m'.freeinode = m.freeinode
  super : m'.disk 1 = m.disk 1
  le : m.freeblock ≤ m'.freeblock

theorem Keeps.refl : Keeps m m := ⟨rfl, rfl, Nat.le_refl _⟩

theorem Keeps.trans (h : Keeps m m') (h' : Keeps m' m'') : Keeps m m'' :=
  ⟨h'.freeinode.trans h.freeinode, h'.super.trans h.super, Nat.le_trans h.le h'.le⟩

theorem Keeps.next : Keeps m m.next := ⟨rfl, rfl, Nat.le_succ _⟩

theorem Keeps.update (hb : b ≠ 58 ∧ b ≠ 1) :
    Keeps m { m with disk := update m.disk b data } :=
  ⟨rfl, update_of_ne hb.2.symm .., Nat.le_refl _⟩

/-- In the state `s` of the kernel the disk is the image `m`, and the inode `i` is in entry `p` of
the cache, as `d`. The blocks that are not taken are zeroes. -/
structure Shows (n : Nat) (p : Ip) (i : Nat) (m : Image) (d : Dinode) (s : State) : Prop where
  sb : s.sb = super n
  disk : s.disk = m.mounted n
  inum : (s.icache p).inum = i
  din : (s.icache p).din = d
  working : Working s p
  fresh : ∀ b, m.freeblock ≤ b → m.disk b = Bytes.zero
  taken : nmeta ≤ m.freeblock
  room : m.freeblock ≤ FSSIZE

section
variable {n i k b : Nat} {p : Ip} {m m' : Image} {d : Dinode} {s t : State} {E : Fault → Prop}

theorem Shows.free (h : Shows n p i m d s) (hlt : m.freeblock < FSSIZE) :
    m.freeblock < s.sb.size.toNat ∧ blockBit s.sb s.disk m.freeblock = false := by
  rw [h.sb, h.disk, super_size, blockBit_mounted h.room hlt]
  exact ⟨hlt, decide_eq_false (Nat.lt_irrefl _)⟩

theorem Shows.isData (h : Shows n p i m d s) (hx : s.own p x ≠ 0) :
    nmeta ≤ s.own p x ∧ s.own p x < FSSIZE := by
  have := h.working.isData_own hx
  rwa [h.sb, isData_super] at this

theorem Shows.own_lt (h : Shows n p i m d s) (hx : s.own p x ≠ 0) : s.own p x < m.freeblock := by
  obtain ⟨hge, hlt⟩ := h.isData hx
  have hused := (h.working.alloc.exact.used_iff (h.working.isData_own hx)).mpr ⟨x, rfl⟩
  have hbit : blockBit s.sb s.disk (s.own p x) = decide (s.own p x < m.freeblock) := by
    rw [h.sb, h.disk]
    exact blockBit_mounted h.room hlt
  exact of_decide_eq_true (hbit.symm.trans hused)

theorem Shows.alloc_disk (h : Shows n p i m d s) (hlt : m.freeblock < FSSIZE) :
    (s.alloc m.freeblock).disk = m.next.mounted n := by
  rw [State.alloc_disk, mounted_next (h.fresh _ (Nat.le_refl _)) h.taken hlt, h.sb, h.disk]

theorem Shows.fresh_next (h : Shows n p i m d s) (hb : m.next.freeblock ≤ b) :
    m.next.disk b = Bytes.zero := h.fresh b (Nat.le_of_succ_le hb)

theorem Shows.setAddr (h : Shows n p i m d s) (hk : k ≤ NDIRECT) (h0 : d.addr k = 0)
    (hlt : m.freeblock < FSSIZE) :
    Shows n p i m.next (d.setAddr k m.freeblock)
        ((s.alloc m.freeblock).setDin p (d.setAddr k m.freeblock)) ∧
      Takes p k m.freeblock s ((s.alloc m.freeblock).setDin p (d.setAddr k m.freeblock)) := by
  obtain ⟨hfree, hbit⟩ := h.free hlt
  have htakes := h.working.takes_addr hk (by rw [h.din]; exact h0) hfree hbit
  rw [h.din] at htakes
  exact ⟨{
    sb := h.sb
    disk := h.alloc_disk hlt
    inum := by rw [State.setDin_self]; exact h.inum
    din := by rw [State.setDin_self]
    working := htakes.grows.working h.working
    fresh := fun _ => h.fresh_next
    taken := Nat.le_succ_of_le h.taken
    room := hlt }, htakes⟩

theorem Shows.write (h : Shows n p i m d s) (hb : nmeta ≤ b) (hlt : b < m.freeblock)
    (hw : Working (s.write b data) p) :
    Shows n p i { m with disk := update m.disk b data } d (s.write b data) where
  sb := h.sb
  disk := by rw [State.write_disk, h.disk, mounted_update (data_ne hb)]
  inum := h.inum
  din := h.din
  working := hw
  fresh := fun c hc => (update_of_ne (Nat.ne_of_gt (Nat.lt_of_lt_of_le hlt hc)) ..).trans
    (h.fresh c hc)
  taken := h.taken
  room := h.room

theorem Shows.own_of_le (h : Shows n p i m d s) (hk : k ≤ NDIRECT) : s.own p (i, k) = d.addr k := by
  rw [← h.inum, h.working.own_of_le hk, h.din]

theorem Shows.own_entry (h : Shows n p i m d s) (hnz : d.addr NDIRECT ≠ 0) (hj : j < NINDIRECT) :
    s.own p (i, NDIRECT + 1 + j) = ((m.disk (d.addr NDIRECT)).word32 (4 * j)).toNat := by
  have hown : s.own p (i, NDIRECT) = d.addr NDIRECT := h.own_of_le (Nat.le_refl _)
  have hge := (h.isData (x := (i, NDIRECT)) (by rwa [hown])).1
  rw [hown] at hge
  rw [← h.din] at hnz
  rw [← h.inum, h.working.own_entry hnz hj, h.din, h.disk, mounted_data hge]

/-! ## `blockFor` -/

/-- What `blockFor` leads to: it is what `bmap` leads to, unless there are no blocks left. -/
def Found (n : Nat) (p : Ip) (i fbn : Nat) (m : Image) (s : State) (r : Dinode × Nat)
    (m' : Image) : Prop :=
  Keeps m m' ∧ m'.freeblock ≤ m.freeblock + s.needs p fbn ∧
  (r.2 = FSSIZE ∧ FSSIZE < m'.freeblock ∨ ∃ t, Shows n p i m' r.1 t ∧ Mapped p fbn s r.2 t)

theorem Shows.needs_eq (h : Shows n p i m d s) : s.needs p fbn =
    (if s.own p (i, slotOf fbn) = 0 then 1 else 0) +
      if NDIRECT ≤ fbn ∧ d.addr NDIRECT = 0 then 1 else 0 := by
  rw [State.needs, h.inum, h.din]

theorem Shows.found_old (h : Shows n p i m d s) (hnz : s.own p (i, slotOf fbn) ≠ 0) :
    Found n p i fbn m s (d, s.own p (i, slotOf fbn)) m := by
  refine ⟨.refl, Nat.le_add_right .., .inr ⟨s, h, ?_⟩⟩
  rw [← h.inum] at hnz ⊢
  exact .refl h.working hnz

/-- The block is taken, and it is past the end of the disk. -/
theorem Shows.found_end (h : Shows n p i m d s) (hge : FSSIZE ≤ m.freeblock)
    (h0 : s.own p (i, slotOf fbn) = 0) (hk : Keeps m m') (hm : m'.freeblock = m.freeblock + 1) :
    Found n p i fbn m s (d', m.freeblock) m' := by
  have hroom := h.room
  refine ⟨hk, ?_, .inl ⟨by omega, by omega⟩⟩
  rw [h.needs_eq, if_pos h0]
  omega

theorem wp_nextBlock {Q : Nat → Image → Prop} :
    nextBlock.wp E Q m ↔ Q m.freeblock m.next := Iff.rfl

theorem wp_blockAddr {Q : Dinode × Nat → Image → Prop}
    (hold : d.addr k ≠ 0 → Q (d, d.addr k) m)
    (hnew : d.addr k = 0 → Q (d.setAddr k m.freeblock, m.freeblock) m.next) :
    (blockAddr d k).wp E Q m := by
  unfold blockAddr
  split
  next h0 =>
    exact hnew h0
  next hnz => exact hold hnz

theorem Shows.wp_direct (h : Shows n p i m d s) (hlt : fbn < NDIRECT) :
    (blockAddr d fbn).wp E (Found n p i fbn m s) m := by
  have hslot : slotOf fbn = fbn := if_pos hlt
  have hown := h.own_of_le (Nat.le_of_lt hlt)
  refine wp_blockAddr (fun hnz => ?_) fun h0 => ?_
  · have hold : Found n p i fbn m s (d, s.own p (i, slotOf fbn)) m :=
      h.found_old (by rw [hslot, hown]; exact hnz)
    rwa [hslot, hown] at hold
  · have hempty : s.own p (i, slotOf fbn) = 0 := by rw [hslot, hown, h0]
    by_cases hroom : m.freeblock < FSSIZE
    · obtain ⟨ht, htakes⟩ := h.setAddr (Nat.le_of_lt hlt) h0 hroom
      obtain ⟨hfree, hbit⟩ := h.free hroom
      have hlh := h.working.lh_addr (Nat.le_of_lt hlt) (by rw [h.din]; exact h0) hfree hbit
      rw [h.din] at hlh
      refine ⟨.next, ?_, .inr ⟨_, ht, .of_takes (by rwa [hslot]) hlh⟩⟩
      rw [h.needs_eq, if_pos hempty]
      exact Nat.add_le_add_left (Nat.le_add_right ..) _
    · exact h.found_end (Nat.le_of_not_lt hroom) hempty .next rfl

/-- The part of `blockFor` after the indirect block is known. -/
def entryFor (d : Dinode) (ind j : Nat) : MkfsM (Dinode × Nat) := do
  let indirect ← rsect ind
  if indirect.word32 (4 * j) = 0 then do
    let b ← nextBlock
    wsect ind (indirect.setWord32 (4 * j) (UInt32.ofNat b))
    pure (d, b)
  else pure (d, (indirect.word32 (4 * j)).toNat)

theorem blockFor_indirect (h : ¬fbn < NDIRECT) : blockFor d fbn =
    blockAddr d NDIRECT >>= fun r => entryFor r.1 r.2 (fbn - NDIRECT) := if_neg h

theorem Shows.wp_entryFor (h : Shows n p i m d s) (hnz : d.addr NDIRECT ≠ 0) (hj : j < NINDIRECT)
    (hfbn : fbn = NDIRECT + j) :
    (entryFor d (d.addr NDIRECT) j).wp E (Found n p i fbn m s) m := by
  have hind : s.own p (i, NDIRECT) = d.addr NDIRECT := h.own_of_le (Nat.le_refl _)
  obtain ⟨hge, hlt⟩ := h.isData (x := (i, NDIRECT)) (by rwa [hind])
  have hused := h.own_lt (x := (i, NDIRECT)) (by rwa [hind])
  rw [hind] at hge hlt hused
  have hslot : slotOf fbn = NDIRECT + 1 + j := by
    rw [slotOf, if_neg (by omega)]
    omega
  have hown := h.own_entry hnz hj
  rw [← hslot] at hown
  rw [entryFor, wp_bind]
  refine wp_rsect (Nat.le_of_lt hlt) (fun heq => absurd heq (Nat.ne_of_lt hlt)) fun _ => ?_
  split
  next h0 =>
    have hempty : s.own p (i, slotOf fbn) = 0 := by rw [hown, h0]; rfl
    rw [wp_bind, wp_nextBlock, wp_bind, wp_wsect (Nat.le_of_lt hlt)]
    have hkeeps : Keeps m { m.next with
        disk := update m.disk (d.addr NDIRECT) ((m.disk (d.addr NDIRECT)).setWord32
          (4 * j) (UInt32.ofNat m.freeblock)) } := Keeps.next.trans (.update (m := m.next) (data_ne hge))
    by_cases hroom : m.freeblock < FSSIZE
    · obtain ⟨hfree, hbit⟩ := h.free hroom
      have hmapped := h.working.mapped_entry hj (by rw [h.din]; exact hnz)
        (by rw [h.inum, ← hslot]; exact hempty) hfree hbit hslot
      have hdisk : s.disk (d.addr NDIRECT) = m.disk (d.addr NDIRECT) := by
        rw [h.disk, mounted_data hge]
      have hentry : s.allocEntry p j m.freeblock = (s.alloc m.freeblock).write (d.addr NDIRECT)
          ((m.disk (d.addr NDIRECT)).setWord32 (4 * j) (UInt32.ofNat m.freeblock)) := by
        rw [State.allocEntry, h.din, hdisk]
      refine ⟨hkeeps, ?_, .inr ⟨_, ?_, hmapped⟩⟩
      · rw [h.needs_eq, if_pos hempty]
        exact Nat.add_le_add_left (Nat.le_add_right ..) _
      · rw [hentry] at hmapped ⊢
        exact {
          sb := h.sb
          disk := by
            rw [State.write_disk, h.alloc_disk hroom]
            exact (mounted_update (m := m.next) (data_ne hge)).symm
          inum := h.inum
          din := h.din
          working := hmapped.grows.working h.working
          fresh := fun c hc => (update_of_ne (Nat.ne_of_gt
            (Nat.lt_of_lt_of_le hused (Nat.le_of_succ_le hc))) ..).trans
            (h.fresh c (Nat.le_of_succ_le hc))
          taken := Nat.le_succ_of_le h.taken
          room := hroom }
    · exact h.found_end (Nat.le_of_not_lt hroom) hempty hkeeps rfl
  next hne =>
    have hold : Found n p i fbn m s (d, s.own p (i, slotOf fbn)) m := by
      refine h.found_old ?_
      rw [hown]
      exact fun h0 => hne (UInt32.toNat_inj.mp h0)
    rwa [hown] at hold

theorem Shows.wp_blockFor (h : Shows n p i m d s) (hfbn : fbn < MAXFILE)
    (hE : FSSIZE < m.freeblock + s.needs p fbn → ∀ e, E e) :
    (blockFor d fbn).wp E (Found n p i fbn m s) m := by
  by_cases hlt : fbn < NDIRECT
  · rw [blockFor, if_pos hlt]
    exact h.wp_direct hlt
  · have hj : fbn - NDIRECT < NINDIRECT := by
      simp only [MAXFILE] at hfbn
      omega
    have hfbn' : fbn = NDIRECT + (fbn - NDIRECT) := by omega
    rw [blockFor_indirect hlt, wp_bind]
    refine wp_blockAddr (fun hnz => h.wp_entryFor hnz hj hfbn') fun h0 => ?_
    have hempty : s.own p (i, slotOf fbn) = 0 := by
      refine own_eq_zero_of_indirect ?_ ((h.own_of_le (Nat.le_refl _)).trans h0)
      rw [slotOf, if_neg hlt]
      omega
    have hneeds : s.needs p fbn = 2 := by
      rw [h.needs_eq, if_pos hempty, if_pos ⟨Nat.le_of_not_lt hlt, h0⟩]
    by_cases hroom : m.freeblock < FSSIZE
    · -- the indirect block is new, and the block is an entry of it
      obtain ⟨ht, htakes⟩ := h.setAddr (Nat.le_refl _) h0 hroom
      obtain ⟨hfree, hbit⟩ := h.free hroom
      have hlh := h.working.lh_addr (Nat.le_refl _) (by rw [h.din]; exact h0) hfree hbit
      rw [h.din] at hlh
      have haddr : (d.setAddr NDIRECT m.freeblock).addr NDIRECT = m.freeblock := by
        rw [Dinode.addr_setAddr (Nat.le_refl _) (Nat.lt_trans hroom (by decide)), if_pos rfl]
      have hge := h.taken
      rw [nmeta_eq] at hge
      have := ht.wp_entryFor (E := E) (by rw [haddr]; omega) hj hfbn'
      rw [haddr] at this
      refine wp_imp this ?_
      rintro r m' ⟨hk, hle, hr⟩
      refine ⟨Keeps.next.trans hk, ?_, ?_⟩
      · have hone : State.needs ((s.alloc m.freeblock).setDin p (d.setAddr NDIRECT m.freeblock)) p
            fbn ≤ 1 := by
          have hne : m.freeblock ≠ 0 := by omega
          rw [ht.needs_eq, haddr]
          simp only [hne, and_false, if_false]
          split <;> omega
        have hnext : m.next.freeblock = m.freeblock + 1 := rfl
        omega
      · refine hr.imp_right ?_
        rintro ⟨t, hs, hm⟩
        refine ⟨t, hs, ?_⟩
        exact hm.trans_indirect htakes hlh (Nat.le_of_not_lt hlt) (by rw [h.inum]; exact hempty)
    · have hend : m.freeblock = FSSIZE := Nat.le_antisymm h.room (Nat.le_of_not_lt hroom)
      rw [entryFor, wp_bind]
      refine wp_rsect (Nat.le_of_eq hend) (fun _ => hE (by omega)) fun hlt' => absurd hlt' hroom

/-! ## The loop of `iappend` -/

theorem wp_assert {c : Prop} [Decidable c] {Q : Unit → Image → Prop} (hE : ¬c → ∀ e, E e)
    (hQ : c → Q () m) : (assert c).wp E Q m := by
  refine wp_when (fun hc => hE hc _) fun hc => hQ (not_not.mp hc)

/-- The bytes are appended as `writei` would do it. -/
theorem Shows.wp_iappendLoop {src : List UInt8} (h : Shows n p i m d s) (hlen : src.length ≤ turns)
    (hE : MAXFILE * BSIZE < off + src.length ∨
      FSSIZE < m.freeblock + s.needed p off src.length → ∀ e, E e) :
    (iappendLoop turns d off src).wp E (fun r m' => r.2 = off + src.length ∧ Keeps m m' ∧
      m'.freeblock ≤ m.freeblock + s.needed p off src.length ∧
      ∃ t, Shows n p i m' r.1 t ∧ Written p off src s t) m := by
  induction turns generalizing m d off src s with
  | zero =>
    obtain rfl : src = [] := List.eq_nil_of_length_eq_zero (Nat.le_zero.mp hlen)
    exact ⟨rfl, .refl, Nat.le_add_right .., s, h, .nil h.working⟩
  | succ turns ih =>
    unfold iappendLoop
    split
    next h0 =>
      obtain rfl : src = [] := List.eq_nil_of_length_eq_zero h0
      exact ⟨rfl, .refl, Nat.le_add_right .., s, h, .nil h.working⟩
    next h0 =>
      have hpos : 0 < src.length := Nat.pos_of_ne_zero h0
      have hmod : off - off / BSIZE * BSIZE = off % BSIZE := by
        simp only [BSIZE]
        omega
      have hn1 : min src.length ((off / BSIZE + 1) * BSIZE - off) = chunk off src.length := by
        simp only [chunk, BSIZE]
        omega
      have hc : 0 < chunk off src.length := chunk_pos hpos
      have hcn : chunk off src.length ≤ src.length := Nat.min_le_left ..
      have htake : (src.take (chunk off src.length)).length = chunk off src.length :=
        List.length_take_of_le hcn
      dsimp only
      rw [hmod, hn1, wp_bind]
      refine wp_assert (fun hbig => hE (.inl ?_)) fun hbn => ?_
      · rw [Nat.not_lt, Nat.le_div_iff_mul_le (by decide)] at hbig
        omega
      have hneeds := s.needs_le_needed (p := p) hpos hbn
      rw [wp_bind]
      refine wp_imp (h.wp_blockFor hbn fun hfull => hE (.inr (by omega))) ?_
      rintro r m₁ ⟨hk, hle, hr⟩
      obtain ⟨d₁, x⟩ := r
      dsimp only at hr ⊢
      rw [wp_bind]
      rcases hr with ⟨rfl, hend⟩ | ⟨t, ht, hm⟩
      · exact wp_rsect (Nat.le_refl _) (fun _ => hE (.inr (by omega)))
          fun hlt => absurd hlt (Nat.lt_irrefl _)
      have hx : t.own p (i, slotOf (off / BSIZE)) = x := by
        rw [← hm.addr, h.inum]
      have hnz : t.own p (i, slotOf (off / BSIZE)) ≠ 0 := by
        rw [hx]
        exact hm.ne
      obtain ⟨hge, hlt⟩ := ht.isData hnz
      have hused := ht.own_lt hnz
      rw [hx] at hge hlt hused
      refine wp_rsect (Nat.le_of_lt hlt) (fun heq => absurd heq (Nat.ne_of_lt hlt)) fun _ => ?_
      rw [wp_bind, wp_wsect (Nat.le_of_lt hlt)]
      have hw : Written p off (src.take (chunk off src.length)) s _ :=
        hm.written h.working (by rw [htake]; exact hc) (by rw [htake]; exact Nat.min_le_right ..)
      rw [ht.disk, mounted_data hge] at hw
      have ht' := ht.write hge hused (hw.grows.working h.working)
      have hown : (t.write x ((m₁.disk x).blit (off % BSIZE)
          (src.take (chunk off src.length)))).own p = t.own p := by
        have := ht.working.own_write hnz (slotOf_ne _) ((m₁.disk x).blit (off % BSIZE)
          (src.take (chunk off src.length)))
        rwa [hx] at this
      have hneed := hm.needed_le h.working hpos hown rfl
      have hdrop : (src.drop (chunk off src.length)).length = src.length - chunk off src.length :=
        List.length_drop
      refine wp_imp (ih ht' (by omega) fun hbad => hE ?_) ?_
      · rw [hdrop] at hbad
        dsimp only at hbad
        omega
      rintro r m' ⟨hoff, hk', hle', u, hu, hwu⟩
      refine ⟨by omega, hk.trans ((Keeps.update (data_ne hge)).trans hk'), ?_, u, hu, ?_⟩
      · rw [hdrop] at hle'
        dsimp only at hle'
        omega
      · have := hw.append (b := src.drop (chunk off src.length)) (by rw [htake]; exact hwu)
        rwa [List.take_append_drop] at this

end

end Xv6.Fs.Mkfs
