import Xv6.Lib.Bitmap
import Xv6.Param

/-!
# The on-disk format

The structures of `fs.h`: the super block, the inodes in their blocks, and the free map. A disk is
read through `dinodeAt` and `blockBit`, and the three kinds of write that the file system makes (an
inode, a bit of the free map, a data block) each change one of these views and leave the others
alone, on a disk whose regions do not overlap (`Geometry`).
-/

namespace Xv6.Fs

def NDIRECT : Nat := 12

def NINDIRECT : Nat := BSIZE / 4

def MAXFILE : Nat := NDIRECT + NINDIRECT

/-- Inodes per block. -/
def IPB : Nat := BSIZE / 64

/-- Bitmap bits per block. -/
def BPB : Nat := BSIZE * 8

def T_DIR : UInt16 := 1

def T_FILE : UInt16 := 2

def T_DEV : UInt16 := 3

@[ext] structure Superblock where
  size : UInt32
  nblocks : UInt32
  ninodes : UInt32
  nlog : UInt32
  logstart : UInt32
  inodestart : UInt32
  bmapstart : UInt32
  deriving DecidableEq

def Superblock.load (b : Block) : Superblock where
  size := b.word32 0
  nblocks := b.word32 4
  ninodes := b.word32 8
  nlog := b.word32 12
  logstart := b.word32 16
  inodestart := b.word32 20
  bmapstart := b.word32 24

/-! ## Inodes -/

@[ext] structure Dinode where
  type : UInt16
  major : UInt16
  minor : UInt16
  nlink : UInt16
  size : UInt32
  addrs : Fin (NDIRECT + 1) → UInt32
  deriving DecidableEq

namespace Dinode

def zero : Dinode := ⟨0, 0, 0, 0, 0, fun _ => 0⟩

/-- `addrs[k]` -/
def addr (d : Dinode) (k : Nat) : Nat :=
  if h : k < NDIRECT + 1 then (d.addrs ⟨k, h⟩).toNat else 0

def setAddr (d : Dinode) (k b : Nat) : Dinode :=
  { d with addrs := fun j => if j.1 = k then UInt32.ofNat b else d.addrs j }

theorem addr_setAddr {d : Dinode} {k b j : Nat} (hk : k ≤ NDIRECT) (hb : b < 2 ^ 32) :
    (d.setAddr k b).addr j = if j = k then b else d.addr j := by
  unfold addr setAddr
  by_cases hjk : j = k
  · subst hjk
    rw [if_pos rfl, dif_pos (Nat.lt_succ_of_le hk)]
    exact (congrArg UInt32.toNat (if_pos rfl)).trans (Nat.mod_eq_of_lt hb)
  · simp only [if_neg hjk]

/-- The inode in place `k` of an inode block. -/
def load (b : Block) (k : Nat) : Dinode where
  type := b.word16 (64 * k)
  major := b.word16 (64 * k + 2)
  minor := b.word16 (64 * k + 4)
  nlink := b.word16 (64 * k + 6)
  size := b.word32 (64 * k + 8)
  addrs := fun j => b.word32 (64 * k + 12 + 4 * j)

/-- The words of an inode from its size on. -/
def words (d : Dinode) : List UInt32 := d.size :: List.ofFn d.addrs

@[simp] theorem length_words (d : Dinode) : d.words.length = 14 := by
  rfl

def store (b : Block) (k : Nat) (d : Dinode) : Block :=
  ((((b.setWord16 (64 * k) d.type).setWord16 (64 * k + 2) d.major).setWord16 (64 * k + 4)
    d.minor).setWord16 (64 * k + 6) d.nlink).setWords32 (64 * k + 8) d.words

theorem get_store_of_not_mem {b : Block} {k i : Nat} {d : Dinode}
    (h : i < 64 * k ∨ 64 * k + 64 ≤ i) : (d.store b k).get i = b.get i := by
  rw [store, Bytes.get_setWords32_of_not_mem (by rw [length_words]; omega),
    Bytes.get_setWord16_of_not_mem (by omega), Bytes.get_setWord16_of_not_mem (by omega),
    Bytes.get_setWord16_of_not_mem (by omega), Bytes.get_setWord16_of_not_mem (by omega)]

theorem load_congr {b b' : Block} {k : Nat}
    (h : ∀ i, 64 * k ≤ i → i < 64 * k + 64 → b.get i = b'.get i) : load b k = load b' k := by
  ext1
  · exact Bytes.word16_congr fun i hi => h _ (by omega) (by omega)
  · exact Bytes.word16_congr fun i hi => h _ (by omega) (by omega)
  · exact Bytes.word16_congr fun i hi => h _ (by omega) (by omega)
  · exact Bytes.word16_congr fun i hi => h _ (by omega) (by omega)
  · exact Bytes.word32_congr fun i hi => h _ (by omega) (by omega)
  · funext j
    have hj : j.1 < 13 := j.2
    exact Bytes.word32_congr fun i hi => h _ (by omega) (by omega)

theorem load_store_ne {b : Block} {k k' : Nat} {d : Dinode} (h : k' ≠ k) :
    load (d.store b k) k' = load b k' :=
  load_congr fun i hi hi' => get_store_of_not_mem (by omega)

/-- The short at `o` after the words that follow it, and the shorts after it, were stored. -/
theorem word16_store_aux {b : Block} {o p : Nat} {ws : List UInt32} (h : o + 2 ≤ p) :
    (b.setWords32 p ws).word16 o = b.word16 o :=
  Bytes.word16_congr fun _ _ => Bytes.get_setWords32_of_not_mem (by omega)

theorem word16_setWord16_after {b : Block} {o p : Nat} {v : UInt16} (h : o + 2 ≤ p) :
    (b.setWord16 p v).word16 o = b.word16 o :=
  Bytes.word16_congr fun _ _ => Bytes.get_setWord16_of_not_mem (by omega)

theorem load_store {b : Block} {k : Nat} {d : Dinode} (hk : k < IPB) : load (d.store b k) k = d := by
  have hfit : 64 * k + 64 ≤ BSIZE := by
    simp only [IPB] at hk ⊢
    omega
  have hwords : ∀ j, (hj : j < 14) →
      (d.store b k).word32 (64 * k + 8 + 4 * j) = d.words.get ⟨j, by simpa using hj⟩ := by
    intro j hj
    exact Bytes.word32_setWords32 _ (by rw [length_words]; omega) (by simpa using hj)
  ext1
  · simp only [load, store]
    rw [word16_store_aux (by omega), word16_setWord16_after (by omega),
      word16_setWord16_after (by omega), word16_setWord16_after (by omega),
      Bytes.word16_setWord16 _ _ (by omega)]
  · simp only [load, store]
    rw [word16_store_aux (by omega), word16_setWord16_after (by omega),
      word16_setWord16_after (by omega), Bytes.word16_setWord16 _ _ (by omega)]
  · simp only [load, store]
    rw [word16_store_aux (by omega), word16_setWord16_after (by omega),
      Bytes.word16_setWord16 _ _ (by omega)]
  · simp only [load, store]
    rw [word16_store_aux (by omega), Bytes.word16_setWord16 _ _ (by omega)]
  · exact hwords 0 (by omega)
  · funext j
    have hj : j.1 < 13 := j.2
    have := hwords (j.1 + 1) (by omega)
    rw [show 64 * k + 8 + 4 * (j.1 + 1) = 64 * k + 12 + 4 * j.1 by omega] at this
    refine this.trans ?_
    simp only [words, List.get_eq_getElem, List.getElem_cons_succ, List.getElem_ofFn]

end Dinode

/-! ## Regions of the disk -/

/-- `IBLOCK`: the block of inode `i`. -/
def iblock (sb : Superblock) (i : Nat) : Nat := i / IPB + sb.inodestart.toNat

/-- `BBLOCK`: the block of the free map with the bit of block `b`. -/
def bblock (sb : Superblock) (b : Nat) : Nat := b / BPB + sb.bmapstart.toNat

def dataStart (sb : Superblock) : Nat := sb.size.toNat - sb.nblocks.toNat

/-- The data area. -/
def IsData (sb : Superblock) (b : Nat) : Prop := dataStart sb ≤ b ∧ b < sb.size.toNat

instance (sb : Superblock) (b : Nat) : Decidable (IsData sb b) :=
  inferInstanceAs (Decidable (_ ∧ _))

/-- The super block, the inodes, the free map and the data blocks follow one another on the disk, and
a block number fits into an `int`. -/
structure Geometry (sb : Superblock) : Prop where
  inodes : 1 < sb.inodestart.toNat
  inodes_le : sb.inodestart.toNat ≤ sb.bmapstart.toNat
  bitmap : ∀ i < sb.ninodes.toNat, iblock sb i < sb.bmapstart.toNat
  data : ∀ b < sb.size.toNat, bblock sb b < dataStart sb
  bitmap_le : sb.bmapstart.toNat ≤ dataStart sb
  size : sb.size.toNat < 2 ^ 31

variable {sb : Superblock} {disk : Disk} {i j b x : Nat} {d : Dinode}

theorem Geometry.not_isData_zero (g : Geometry sb) : ¬IsData sb 0 := by
  intro h
  have := g.data 0 h.2
  have := h.1
  omega

/-! ## Views of the disk -/

def dinodeAt (sb : Superblock) (disk : Disk) (i : Nat) : Dinode :=
  Dinode.load (disk (iblock sb i)) (i % IPB)

def putDinode (sb : Superblock) (disk : Disk) (i : Nat) (d : Dinode) : Disk :=
  Function.update disk (iblock sb i) (d.store (disk (iblock sb i)) (i % IPB))

def blockBit (sb : Superblock) (disk : Disk) (b : Nat) : Bool :=
  (disk (bblock sb b)).bit (b % BPB)

def markUsed (sb : Superblock) (disk : Disk) (b : Nat) : Disk :=
  Function.update disk (bblock sb b) ((disk (bblock sb b)).setBit (b % BPB))

def markFree (sb : Superblock) (disk : Disk) (b : Nat) : Disk :=
  Function.update disk (bblock sb b) ((disk (bblock sb b)).clearBit (b % BPB))

theorem dinodeAt_putDinode (i j : Nat) :
    dinodeAt sb (putDinode sb disk i d) j = if j = i then d else dinodeAt sb disk j := by
  have hk : i % IPB < IPB := Nat.mod_lt _ (by decide)
  unfold dinodeAt putDinode
  by_cases hb : iblock sb j = iblock sb i
  · rw [hb, update_self]
    by_cases hm : j % IPB = i % IPB
    · have hij : j = i := by
        simp only [iblock, IPB, BSIZE] at hb hm
        omega
      rw [if_pos hij, hm, Dinode.load_store hk]
    · rw [if_neg fun h => hm (by rw [h]), Dinode.load_store_ne hm]
  · rw [if_neg fun h => hb (by rw [h]), update_of_ne hb]

theorem dinodeAt_congr (h : disk (iblock sb i) = disk' (iblock sb i)) :
    dinodeAt sb disk i = dinodeAt sb disk' i := by
  rw [dinodeAt, h, dinodeAt]

theorem blockBit_congr (h : disk (bblock sb b) = disk' (bblock sb b)) :
    blockBit sb disk b = blockBit sb disk' b := by
  rw [blockBit, h, blockBit]

theorem blockBit_markUsed (b x : Nat) :
    blockBit sb (markUsed sb disk b) x = (decide (x = b) || blockBit sb disk x) := by
  have hfit : (b % BPB) / 8 < BSIZE := by
    simp only [BPB, BSIZE]
    omega
  unfold blockBit markUsed
  by_cases hb : bblock sb x = bblock sb b
  · rw [hb, update_self, Bytes.bit_setBit _ hfit]
    congr 1
    simp only [decide_eq_decide]
    simp only [bblock, BPB, BSIZE] at hb ⊢
    omega
  · rw [decide_eq_false fun h => hb (by rw [h]), Bool.false_or, update_of_ne hb]

theorem blockBit_markFree (b x : Nat) :
    blockBit sb (markFree sb disk b) x = (!decide (x = b) && blockBit sb disk x) := by
  have hfit : (b % BPB) / 8 < BSIZE := by
    simp only [BPB, BSIZE]
    omega
  unfold blockBit markFree
  by_cases hb : bblock sb x = bblock sb b
  · rw [hb, update_self, Bytes.bit_clearBit _ hfit]
    congr 2
    simp only [decide_eq_decide]
    simp only [bblock, BPB, BSIZE] at hb ⊢
    omega
  · rw [decide_eq_false fun h => hb (by rw [h]), Bool.not_false, Bool.true_and,
      update_of_ne hb]

/-! ## What a write leaves alone -/

section
variable (g : Geometry sb)
include g

theorem Geometry.iblock_ne_bblock (hi : i < sb.ninodes.toNat) : iblock sb i ≠ bblock sb b := by
  have := g.bitmap i hi
  have : sb.bmapstart.toNat ≤ bblock sb b := Nat.le_add_left ..
  omega

theorem Geometry.iblock_ne_data (hi : i < sb.ninodes.toNat) (hx : IsData sb x) :
    iblock sb i ≠ x := by
  have := g.bitmap i hi
  have := g.bitmap_le
  have := hx.1
  omega

theorem Geometry.bblock_ne_data (hb : b < sb.size.toNat) (hx : IsData sb x) : bblock sb b ≠ x := by
  have := g.data b hb
  have := hx.1
  omega

theorem Geometry.one_ne_iblock : 1 ≠ iblock sb i := by
  have := g.inodes
  have : sb.inodestart.toNat ≤ iblock sb i := Nat.le_add_left ..
  omega

theorem Geometry.one_ne_bblock : 1 ≠ bblock sb b := by
  have := g.inodes
  have := g.inodes_le
  have : sb.bmapstart.toNat ≤ bblock sb b := Nat.le_add_left ..
  omega

theorem Geometry.one_ne_data (hx : IsData sb x) : 1 ≠ x := by
  have := g.inodes
  have := g.inodes_le
  have := g.bitmap_le
  have := hx.1
  omega

end

end Xv6.Fs
