import Xv6.Lib.Bytes

/-!
# Bits of a byte array

Bit `i` of an array is bit `i % 8` of byte `i / 8`. It is tested, set and cleared with the mask
`1 << (i % 8)`.
-/

namespace Bytes

variable {n : Nat}

def bit (b : Bytes n) (i : Nat) : Bool := b.get (i / 8) &&& 1 <<< UInt8.ofNat (i % 8) ≠ 0

def setBit (b : Bytes n) (i : Nat) : Bytes n :=
  b.blit (i / 8) [b.get (i / 8) ||| 1 <<< UInt8.ofNat (i % 8)]

def clearBit (b : Bytes n) (i : Nat) : Bytes n :=
  b.blit (i / 8) [b.get (i / 8) &&& ~~~(1 <<< UInt8.ofNat (i % 8))]

theorem toNat_mask : ∀ k : Fin 8, (1 <<< UInt8.ofNat k : UInt8).toNat = 2 ^ k.1 := by decide

theorem toNat_not_mask :
    ∀ k : Fin 8, (~~~(1 <<< UInt8.ofNat k) : UInt8).toNat = 255 - 2 ^ k.1 := by decide

theorem testBit_not_mask : ∀ k j : Fin 8, (255 - 2 ^ k.1).testBit j = decide (k ≠ j) := by decide

theorem bit_eq_testBit (b : Bytes n) (i : Nat) :
    b.bit i = (b.get (i / 8)).toNat.testBit (i % 8) := by
  have hk : i % 8 < 8 := Nat.mod_lt _ (by decide)
  rw [bit, Bool.eq_iff_iff, decide_eq_true_iff, ne_eq, ← UInt8.toNat_inj, UInt8.toNat_and,
    toNat_mask ⟨i % 8, hk⟩, Nat.and_two_pow]
  cases h : (b.get (i / 8)).toNat.testBit (i % 8) <;> simp

theorem bit_blit_byte (b : Bytes n) {i j : Nat} {x : UInt8} (hi : i / 8 < n) :
    (b.blit (i / 8) [x]).bit j = if j / 8 = i / 8 then x.toNat.testBit (j % 8) else b.bit j := by
  rw [bit_eq_testBit]
  split
  next h => rw [h, get_blit_of_mem (Nat.le_refl _) (by simp) hi]; simp
  next h =>
    have hne : j / 8 < i / 8 ∨ i / 8 + [x].length ≤ j / 8 := by
      rw [List.length_singleton]
      omega
    rw [get_blit_of_not_mem hne, bit_eq_testBit]

theorem bit_setBit (b : Bytes n) {i : Nat} (hi : i / 8 < n) (j : Nat) :
    (b.setBit i).bit j = (decide (j = i) || b.bit j) := by
  have hk : i % 8 < 8 := Nat.mod_lt _ (by decide)
  rw [setBit, bit_blit_byte b hi]
  split
  next h =>
    rw [UInt8.toNat_or, toNat_mask ⟨i % 8, hk⟩, Nat.testBit_or, Nat.testBit_two_pow, ← h,
      ← bit_eq_testBit, Bool.or_comm]
    congr 1
    simp only [decide_eq_decide]
    omega
  next h => rw [decide_eq_false fun heq => h (by rw [heq]), Bool.false_or]

theorem bit_clearBit (b : Bytes n) {i : Nat} (hi : i / 8 < n) (j : Nat) :
    (b.clearBit i).bit j = (!decide (j = i) && b.bit j) := by
  have hk : i % 8 < 8 := Nat.mod_lt _ (by decide)
  have hj : j % 8 < 8 := Nat.mod_lt _ (by decide)
  rw [clearBit, bit_blit_byte b hi]
  split
  next h =>
    rw [UInt8.toNat_and, toNat_not_mask ⟨i % 8, hk⟩, Nat.testBit_and,
      testBit_not_mask ⟨i % 8, hk⟩ ⟨j % 8, hj⟩, ← h, ← bit_eq_testBit, Bool.and_comm]
    congr 1
    rw [← decide_not, decide_eq_decide, ne_eq, Fin.mk.injEq]
    omega
  next h => rw [decide_eq_false fun heq => h (by rw [heq]), Bool.not_false, Bool.true_and]

end Bytes
