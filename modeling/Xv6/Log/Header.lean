import Xv6.Param
import Xv6.Lib.CInt

/-!
# The log header block

`struct logheader` is a count `n` followed by `n` block numbers, both in memory and in the first
block of the on-disk log. `write_head` stores only the count and the first `n` entries, so the
header block keeps whatever the entries after them held. What `read_head` reads back is what was
last written (`readHeader_store`).
-/

namespace Xv6.Log

/-- `struct logheader`: the logged block numbers. The array has `LOGSIZE` entries, so there are
never more of them. -/
structure LogHeader where
  block : List UInt32
  length_le : block.length ≤ LOGSIZE

/-- `log.lh.n`. -/
def LogHeader.n (lh : LogHeader) : Nat := lh.block.length

/-- The header after `log.lh.n = 0`. -/
def LogHeader.empty : LogHeader := ⟨[], Nat.zero_le _⟩

/-- Add `b` to the logged blocks unless it is there already (log absorption). -/
def absorb [DecidableEq α] (blocks : List α) (b : α) : List α :=
  if b ∈ blocks then blocks else blocks ++ [b]

theorem mem_absorb [DecidableEq α] {blocks : List α} {b c : α} :
    c ∈ absorb blocks b ↔ c ∈ blocks ∨ c = b := by
  unfold absorb
  split
  next hb => exact ⟨.inl, fun h => h.elim id fun he => he ▸ hb⟩
  next => simp

theorem length_absorb_le [DecidableEq α] (blocks : List α) (b : α) :
    (absorb blocks b).length ≤ blocks.length + 1 := by
  unfold absorb
  split <;> simp

/-- The header block `hb` after `write_head` stored `lh` into it. -/
def LogHeader.store (lh : LogHeader) (hb : Block) : Block :=
  (hb.setWord32 0 (UInt32.ofNat lh.n)).setWords32 4 lh.block

/-- `lh->n` of a header block. -/
def headerCount (hb : Block) : Int := cint (hb.word32 0)

/-- What `read_head` leaves in `log.lh`. A count that is not positive reads no entry; with one
above `LOGSIZE` the loop runs past the end of `log.lh.block`, which is undefined. -/
def readHeader (hb : Block) : Option LogHeader :=
  if h : (headerCount hb).toNat ≤ LOGSIZE then
    some ⟨(List.range (headerCount hb).toNat).map fun i => hb.word32 (4 + 4 * i), by simpa using h⟩
  else none

theorem headerCount_store (lh : LogHeader) (hb : Block) : headerCount (lh.store hb) = lh.n := by
  have hlen := lh.length_le
  have h0 : (lh.store hb).word32 0 = UInt32.ofNat lh.n := by
    rw [LogHeader.store, Bytes.word32_congr fun j hj => Bytes.get_setWords32_of_not_mem (by omega)]
    exact Bytes.word32_setWord32 _ _ (by simp)
  rw [headerCount, h0, cint_ofNat]
  simp only [LOGSIZE, MAXOPBLOCKS, LogHeader.n] at *
  omega

theorem readHeader_store (lh : LogHeader) (hb : Block) : readHeader (lh.store hb) = some lh := by
  have hlen := lh.length_le
  have hn : (headerCount (lh.store hb)).toNat = lh.block.length := by
    rw [headerCount_store]; rfl
  obtain ⟨bs, hbs⟩ := lh
  simp only [readHeader, hn, hlen, dif_pos, Option.some.injEq, LogHeader.mk.injEq]
  refine List.ext_getElem (by simp) fun i hi hi' => ?_
  simp only [LOGSIZE, MAXOPBLOCKS] at hlen
  have := Bytes.word32_setWords32 (hb.setWord32 0 (UInt32.ofNat bs.length))
    (by simp only [BSIZE]; omega : 4 + 4 * bs.length ≤ BSIZE) hi'
  simpa [LogHeader.store, LogHeader.n] using this

theorem readHeader_of_count_zero {hb : Block} (h : headerCount hb = 0) :
    readHeader hb = some .empty := by
  simp [readHeader, h, LogHeader.empty]

end Xv6.Log
