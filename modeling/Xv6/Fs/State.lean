import Xv6.Fs.Layout
import Xv6.Lib.Prog
import Xv6.Lib.Run
import Xv6.Lib.Table
import Xv6.Log.Header

/-!
# The state of the file system, and its blocks

The state that the functions of `fs.c` work on, one call after the other: the blocks as the buffer
cache shows them, the in-memory super block, the inode cache, and what `log.c` knows of the
transaction in progress. A function is a program on this state that stops where the kernel panics,
or where the caller would sleep with no one left to wake it.

The buffer cache always has a buffer free here, so `bread` never fails, and a block that was
modified and handed to `log_write` is what later reads see. The blocks of the transactions that were
committed are recorded.
-/

namespace Xv6.Fs

open Finset

/-- `struct inode`: a cache entry. The copy of the disk inode counts once the entry is valid. -/
structure Inode where
  inum : Nat
  ref : Int
  locked : Bool
  valid : Bool
  din : Dinode

structure State where
  disk : Disk
  sb : Superblock
  icache : Fin NINODE → Inode
  /-- `log.size` -/
  logSize : Nat
  outstanding : Nat
  /-- `log.lh.block` -/
  lh : List Nat
  committed : List (List Nat)

/-- A function of the file system. -/
abbrev FsM := Prog State Fault

def panic (msg : String) : FsM α := Prog.stop (.panic msg)

/-- The caller sleeps, and no one is left to wake it. -/
def hang : FsM α := Prog.stop .disabled

/-! ## The log -/

def bread (b : Nat) : FsM Block := Prog.gets (·.disk b)

/-- Block `b` holds `data` and is part of the transaction. -/
def State.write (s : State) (b : Nat) (data : Block) : State :=
  { s with disk := setAt s.disk b data, lh := Log.absorb s.lh b }

/-- `log_write` of the buffer of block `b`, which the caller changed to `data`. -/
def logWrite (b : Nat) (data : Block) : FsM Unit := do
  let s ← Prog.gets id
  if LOGSIZE ≤ s.lh.length ∨ s.logSize - 1 ≤ s.lh.length then
    panic "too big a transaction"
  else if s.outstanding < 1 then
    panic "log_write outside of trans"
  else
    Prog.modify (·.write b data)

/-- `begin_op`. No other call is in progress that would commit and wake the caller. -/
def beginOp : FsM Unit := do
  let s ← Prog.gets id
  if s.lh.length + (s.outstanding + 1) * MAXOPBLOCKS > LOGSIZE then hang
  else Prog.modify fun s => { s with outstanding := s.outstanding + 1 }

/-- `commit`: the blocks of the transaction are on the disk, and the log is empty. -/
def State.commit (s : State) : State :=
  if s.lh = [] then s else { s with lh := [], committed := s.committed ++ [s.lh] }

def endOp : FsM Unit :=
  Prog.modify fun s =>
    let s' := { s with outstanding := s.outstanding - 1 }
    if s'.outstanding = 0 then s'.commit else s'

/-! ## Blocks -/

def readsb : FsM Unit := Prog.modify fun s => { s with sb := Superblock.load (s.disk 1) }

def bzero (b : Nat) : FsM Unit := logWrite b Bytes.zero

/-- The block that the two loops of `balloc` find: the first clear bit of the free map, one map
block after the other. -/
def findFree (sb : Superblock) (disk : Disk) : Option Nat :=
  (List.range ((sb.size.toNat + BPB - 1) / BPB)).findSome? fun k =>
    ((List.range (min BPB (sb.size.toNat - k * BPB))).find? fun bi =>
      !(disk (bblock sb (k * BPB))).bit bi).map (k * BPB + ·)

def balloc : FsM Nat := do
  let s ← Prog.gets id
  match findFree s.sb s.disk with
  | some b => do
    logWrite (bblock s.sb b) ((s.disk (bblock s.sb b)).setBit (b % BPB))
    bzero b
    pure b
  | none => panic "balloc: out of blocks"

def bfree (b : Nat) : FsM Unit := do
  readsb
  let s ← Prog.gets id
  if !blockBit s.sb s.disk b then panic "freeing free block"
  else logWrite (bblock s.sb b) ((s.disk (bblock s.sb b)).clearBit (b % BPB))

/-! ## Room for a write -/

/-- The blocks of the free map. -/
def mapBlocks (sb : Superblock) : Finset Nat := (Finset.range sb.size.toNat).image (bblock sb)

theorem bblock_mem_mapBlocks {sb : Superblock} (hb : b < sb.size.toNat) :
    bblock sb b ∈ mapBlocks sb :=
  mem_image_of_mem _ (mem_range.mpr hb)

/-- The blocks of the transaction, with those of the free map counted in advance. -/
def State.load (s : State) : Nat := s.lh.length + (mapBlocks s.sb \ s.lh.toFinset).card

def State.capacity (s : State) : Nat := min LOGSIZE (s.logSize - 1)

/-- The transaction has room for `k` more blocks beside those of the free map, unless the panics of
`log_write` are in `E`. -/
structure Room (E : Fault → Prop) (s : State) (k : Nat) : Prop where
  logs : E (.panic "too big a transaction") ∨ s.load + k < s.capacity
  trans : E (.panic "log_write outside of trans") ∨ 0 < s.outstanding

section
variable {E : Fault → Prop} {Q : Unit → State → Prop} {s : State} {b k k' : Nat} {data : Block}

theorem Room.of_true : Room (fun _ => True) s k := ⟨.inl trivial, .inl trivial⟩

theorem Room.mono (h : Room E s k) (hk : k' ≤ k) : Room E s k' :=
  ⟨h.logs.imp_right fun h => by omega, h.trans⟩

@[simp] theorem State.write_disk :
    (s.write b data).disk = update s.disk b data := setAt_eq_update ..

@[simp] theorem State.write_sb : (s.write b data).sb = s.sb := rfl

theorem State.mem_lh_write : c ∈ (s.write b data).lh ↔ c ∈ s.lh ∨ c = b := Log.mem_absorb

theorem State.load_write_of_mem (hb : b ∈ s.lh) : (s.write b data).load = s.load := by
  have : (s.write b data).lh = s.lh := if_pos hb
  rw [load, this, write_sb, load]

theorem State.load_write_map (hb : b ∈ mapBlocks s.sb) : (s.write b data).load = s.load := by
  by_cases hmem : b ∈ s.lh
  · exact load_write_of_mem hmem
  · have hlh : (s.write b data).lh = s.lh ++ [b] := if_neg hmem
    have hsdiff : mapBlocks s.sb \ (s.lh ++ [b]).toFinset =
        (mapBlocks s.sb \ s.lh.toFinset).erase b := by
      ext c
      simp only [mem_sdiff, List.mem_toFinset, List.mem_append, List.mem_singleton,
        mem_erase]
      tauto
    have hin : b ∈ mapBlocks s.sb \ s.lh.toFinset := by simp [hb, hmem]
    have hpos := card_pos.mpr ⟨b, hin⟩
    rw [load, hlh, write_sb, hsdiff, card_erase_of_mem hin, List.length_append,
      List.length_singleton, load]
    omega

theorem State.load_write_le (s : State) (b : Nat) (data : Block) : (s.write b data).load ≤ s.load + 1 := by
  have hlen := Log.length_absorb_le s.lh b
  have hsub : mapBlocks s.sb \ (s.write b data).lh.toFinset ⊆ mapBlocks s.sb \ s.lh.toFinset := by
    intro c
    simp only [mem_sdiff, List.mem_toFinset, mem_lh_write]
    tauto
  have := card_le_card hsub
  simp only [load] at *
  exact Nat.le_trans (Nat.add_le_add hlen this) (by omega)

theorem Room.write (h : Room E s (k + 1)) : Room E (s.write b data) k :=
  ⟨h.logs.imp_right fun h => by
    have := State.load_write_le s b data
    have : (s.write b data).capacity = s.capacity := rfl
    omega, h.trans⟩

theorem Room.write_map (h : Room E s k) (hb : b ∈ mapBlocks s.sb) : Room E (s.write b data) k :=
  ⟨h.logs.imp_right fun h => by rw [State.load_write_map hb]; exact h, h.trans⟩

theorem Room.write_of_mem (h : Room E s k) (hb : b ∈ s.lh) : Room E (s.write b data) k :=
  ⟨h.logs.imp_right fun h => by rw [State.load_write_of_mem hb]; exact h, h.trans⟩

theorem wp_logWrite (h : Room E s k) (hQ : Q () (s.write b data)) :
    (logWrite b data).wp E Q s := by
  simp only [logWrite, wp_bind, wp_gets, id]
  split
  next hfull =>
    refine h.logs.resolve_right fun hlt => ?_
    have : s.load < min LOGSIZE (s.logSize - 1) := Nat.lt_of_le_of_lt (Nat.le_add_right ..) hlt
    have : s.lh.length ≤ s.load := Nat.le_add_right ..
    omega
  next =>
    split
    next hout => exact h.trans.resolve_right (by omega)
    next => exact hQ

end

/-! ## Free blocks -/

def freeBlocks (sb : Superblock) (disk : Disk) : Finset Nat :=
  (Finset.range sb.size.toNat).filter fun b => blockBit sb disk b = false

/-- There are `n` free blocks, unless the panic of `balloc` is in `E`. -/
def Spare (E : Fault → Prop) (s : State) (n : Nat) : Prop :=
  E (.panic "balloc: out of blocks") ∨ n ≤ (freeBlocks s.sb s.disk).card

theorem Spare.of_true : Spare (fun _ => True) s n := .inl trivial

theorem Spare.mono (h : Spare E s n) (hn : m ≤ n) : Spare E s m := h.imp_right hn.trans

section
variable {sb : Superblock} {disk : Disk} {b : Nat}

theorem findFree_some (h : findFree sb disk = some b) :
    b < sb.size.toNat ∧ blockBit sb disk b = false := by
  obtain ⟨k, hk, hb⟩ := List.exists_of_findSome?_eq_some h
  rw [Option.map_eq_some_iff] at hb
  obtain ⟨bi, hbi, rfl⟩ := hb
  have hlt := List.mem_range.mp (List.mem_of_find?_eq_some hbi)
  have hbit := List.find?_some hbi
  have hBPB : 0 < BPB := by decide
  have hdiv : (k * BPB + bi) / BPB = k := by
    rw [Nat.mul_comm, Nat.mul_add_div hBPB, Nat.div_eq_of_lt (by omega), Nat.add_zero]
  have hdiv' : k * BPB / BPB = k := Nat.mul_div_cancel _ hBPB
  have hmod : (k * BPB + bi) % BPB = bi := by
    rw [Nat.mul_comm, Nat.mul_add_mod, Nat.mod_eq_of_lt (by omega)]
  refine ⟨by omega, ?_⟩
  rw [bblock, hdiv'] at hbit
  rw [blockBit, bblock, hdiv, hmod]
  simpa using hbit

theorem findFree_none (h : findFree sb disk = none) : freeBlocks sb disk = ∅ := by
  refine filter_eq_empty_iff.mpr fun b hb => ?_
  rw [mem_range] at hb
  have hBPB : 0 < BPB := by decide
  have hb' := Nat.div_add_mod b BPB
  have hmod := Nat.mod_lt b hBPB
  rw [Nat.mul_comm] at hb'
  have hk : b / BPB < (sb.size.toNat + BPB - 1) / BPB := by
    rw [Nat.lt_iff_add_one_le, Nat.le_div_iff_mul_le hBPB, Nat.add_mul]
    omega
  have := List.findSome?_eq_none_iff.mp h _ (List.mem_range.mpr hk)
  rw [Option.map_eq_none_iff, List.find?_eq_none] at this
  have := this (b % BPB) (List.mem_range.mpr (by omega))
  rw [bblock, Nat.mul_div_cancel _ hBPB] at this
  simpa [blockBit, bblock] using this

end

/-- The state after `balloc` returned `b`. -/
def State.alloc (s : State) (b : Nat) : State :=
  (s.write (bblock s.sb b) ((s.disk (bblock s.sb b)).setBit (b % BPB))).write b Bytes.zero

section
variable {E : Fault → Prop} {s : State} {b k n : Nat}

theorem wp_balloc {Q : Nat → State → Prop} (hr : Room E s k) (hs : Spare E s 1)
    (hQ : ∀ b, b < s.sb.size.toNat → blockBit s.sb s.disk b = false → Q b (s.alloc b)) :
    balloc.wp E Q s := by
  simp only [balloc, wp_bind, wp_gets, id]
  split
  next b hb =>
    obtain ⟨hlt, hbit⟩ := findFree_some hb
    have hr' : Room E (s.write _ ((s.disk (bblock s.sb b)).setBit (b % BPB))) k :=
      hr.write_map (bblock_mem_mapBlocks hlt)
    simp only [wp_bind]
    refine wp_logWrite hr ?_
    rw [bzero, wp_bind]
    refine wp_logWrite hr' ?_
    exact hQ b hlt hbit
  next hnone =>
    refine hs.resolve_right fun hcard => ?_
    rw [findFree_none hnone] at hcard
    exact absurd hcard (by decide)

theorem Room.alloc (h : Room E s (k + 1)) (hb : b < s.sb.size.toNat) : Room E (s.alloc b) k :=
  (h.write_map (bblock_mem_mapBlocks hb)).write

@[simp] theorem State.alloc_sb : (s.alloc b).sb = s.sb := rfl

theorem State.mem_lh_alloc : c ∈ (s.alloc b).lh ↔ c ∈ s.lh ∨ c = bblock s.sb b ∨ c = b := by
  rw [alloc, mem_lh_write, mem_lh_write, or_assoc]

theorem State.alloc_disk :
    (s.alloc b).disk = update (markUsed s.sb s.disk b) b Bytes.zero := by
  rw [alloc, write_disk, write_disk, markUsed]

theorem State.alloc_disk_self : (s.alloc b).disk b = Bytes.zero := by
  rw [alloc_disk, update_self]

theorem State.alloc_disk_of_ne (hb : x ≠ b) (hx : x ≠ bblock s.sb b) :
    (s.alloc b).disk x = s.disk x := by
  rw [alloc_disk, update_of_ne hb, markUsed, update_of_ne hx]

theorem State.blockBit_alloc (g : Geometry s.sb) (hb : IsData s.sb b) (hx : x < s.sb.size.toNat) :
    blockBit s.sb (s.alloc b).disk x = (decide (x = b) || blockBit s.sb s.disk x) := by
  rw [← blockBit_markUsed]
  refine blockBit_congr ?_
  rw [alloc_disk, update_of_ne (g.bblock_ne_data hx hb)]

theorem State.blockBit_write (g : Geometry s.sb) (hb : IsData s.sb b) (hx : x < s.sb.size.toNat) :
    blockBit s.sb (s.write b data).disk x = blockBit s.sb s.disk x := by
  refine blockBit_congr ?_
  rw [write_disk, update_of_ne (g.bblock_ne_data hx hb)]

theorem Spare.write (h : Spare E s n) (g : Geometry s.sb) (hb : IsData s.sb b) :
    Spare E (s.write b data) n := by
  refine h.imp_right fun hn => Nat.le_trans hn (Nat.le_of_eq ?_)
  refine congrArg Finset.card (filter_congr fun x hx => ?_)
  rw [State.write_sb, State.blockBit_write g hb (mem_range.mp hx)]

theorem Spare.alloc (h : Spare E s (n + 1)) (g : Geometry s.sb) (hb : IsData s.sb b)
    (hbit : blockBit s.sb s.disk b = false) : Spare E (s.alloc b) n := by
  refine h.imp_right fun hn => ?_
  have hmem : b ∈ freeBlocks s.sb s.disk :=
    mem_filter.mpr ⟨mem_range.mpr hb.2, hbit⟩
  have hfree : freeBlocks s.sb (s.alloc b).disk = (freeBlocks s.sb s.disk).erase b := by
    ext x
    simp only [freeBlocks, mem_filter, mem_range, mem_erase]
    constructor
    · intro hx
      rw [State.blockBit_alloc g hb hx.1, Bool.or_eq_false_iff, decide_eq_false_iff_not] at hx
      exact ⟨hx.2.1, hx.1, hx.2.2⟩
    · intro hx
      rw [State.blockBit_alloc g hb hx.2.1, Bool.or_eq_false_iff, decide_eq_false_iff_not]
      exact ⟨hx.2.1, hx.1, hx.2.2⟩
  rw [State.alloc_sb, hfree, card_erase_of_mem hmem]
  omega

end

end Xv6.Fs
