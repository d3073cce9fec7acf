import Xv6.Lib.Run
import Xv6.Param

/-!
# The disk in memory

Buffers, as the disk drivers see them, and `iderw` of `memide.c`, which copies a block between a
buffer and an array. The other driver, of `ide.c`, does the same with a queue and interrupts.
-/

namespace Xv6.Ide

/-- What the disk drivers use of `struct buf`: `B_VALID` and `B_DIRTY` of `flags`, the block that
the buffer is for, whether its sleep-lock is held, and the contents. -/
structure Buf where
  valid : Bool
  dirty : Bool
  locked : Bool
  dev : UInt32
  blockno : UInt32
  data : Block

/-- A request that was served: `b->flags |= B_VALID; b->flags &= ~B_DIRTY`. -/
def Buf.served (b : Buf) : Buf := { b with valid := true, dirty := false }

namespace Memide

/-- `memdisk` and the buffers. -/
structure State (β : Type) where
  memdisk : Disk
  buf : β → Buf

variable {β : Type} [DecidableEq β]

/-- `iderw` of `memide.c`. -/
def iderw (disksize : Nat) (m : State β) (b : β) : Except Fault (State β) :=
  let x := m.buf b
  if !x.locked then .error (.panic "iderw: buf not locked")
  else if x.valid && !x.dirty then .error (.panic "iderw: nothing to do")
  else if x.dev ≠ 1 then .error (.panic "iderw: request not for disk 1")
  else if x.blockno.toNat ≥ disksize then .error (.panic "iderw: block out of range")
  else if x.dirty then
    .ok {
      memdisk := Function.update m.memdisk x.blockno.toNat x.data
      buf := Function.update m.buf b x.served }
  else
    .ok { m with buf := Function.update m.buf b { x.served with data := m.memdisk x.blockno.toNat } }

end Memide

/-- The requests that `memide.c` serves without a panic. -/
structure Buf.Request (disksize : Nat) (x : Buf) : Prop where
  locked : x.locked = true
  todo : ¬(x.valid = true ∧ x.dirty = false)
  dev : x.dev = 1
  blockno : x.blockno.toNat < disksize

theorem Buf.Request.iderw [DecidableEq β] {m : Memide.State β} {b : β}
    (h : (m.buf b).Request disksize) : Memide.iderw disksize m b = .ok (if (m.buf b).dirty then {
        memdisk := update m.memdisk (m.buf b).blockno.toNat (m.buf b).data
        buf := update m.buf b (m.buf b).served }
      else { m with
        buf := update m.buf b
          { (m.buf b).served with data := m.memdisk (m.buf b).blockno.toNat } }) := by
  have htodo : ((m.buf b).valid && !(m.buf b).dirty) = false := by
    rw [Bool.eq_false_iff, ne_eq, Bool.and_eq_true, Bool.not_eq_true']
    exact h.todo
  rw [Memide.iderw]
  simp only [h.locked, htodo, h.dev, Bool.not_true, Bool.false_eq_true, ne_eq, not_true_eq_false,
    if_false, if_neg (Nat.not_le_of_lt h.blockno)]
  split <;> rfl

end Xv6.Ide
