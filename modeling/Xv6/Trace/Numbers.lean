import Xv6.Lib.Decimal
import Xv6.Trace.Program

/-!
# The numbers of the dashboard

`itoa` and `itox` write the text of a number, as long as it is not negative, and `atoi` reads it.
-/

namespace Xv6.Trace

theorem digits_eq {base : Nat} (hb : 1 < base) (hle : base ≤ 16) (room val : Nat) :
    digits base room val = ((Nat.digits base val).take room).map digitChar := by
  induction room generalizing val with
  | zero => rfl
  | succ room ih =>
    rw [digits]
    split
    next hzero => rw [hzero, Nat.digits_zero, List.take_nil, List.map_nil]
    next hpos =>
      have hchar : ∀ d < 16, (cstring "0123456789abcdef").getD d 0 = digitChar d := by decide
      rw [Nat.digits_def' hb (Nat.pos_of_ne_zero hpos), List.take_succ_cons, List.map_cons, ih,
        hchar _ ((Nat.mod_lt _ (by omega)).trans_le hle)]

theorem digits_reverse {base val : Nat} (hb : 10 ≤ base) (hle : base ≤ 16) (hpos : val ≠ 0)
    (hlt : val < 2 ^ 32) : (digits base 15 val).reverse = numText base val := by
  have hlen : (Nat.digits base val).length ≤ 15 := by
    rw [Nat.digits_length_le_iff (by omega)]
    calc val < 2 ^ 32 := hlt
      _ ≤ 10 ^ 15 := by decide
      _ ≤ base ^ 15 := Nat.pow_le_pow_left hb 15
  rw [digits_eq (by omega) hle, List.take_of_length_le hlen, numText, if_neg hpos]

theorem itoa_of_nonneg {val : UInt32} (h : 0 ≤ cint val) : itoa val = decimal val.toNat := by
  have hval := cint_of_nonneg h
  have hlt := val.toNat_lt
  unfold itoa
  dsimp only
  rw [if_neg (not_lt.mpr h)]
  split
  next hzero =>
    rw [hval] at hzero
    rw [Int.natCast_eq_zero.mp hzero]
    rfl
  next hpos =>
    rw [hval] at hpos ⊢
    rw [if_neg fun hneg => hneg.1.not_ge (hval ▸ h), Int.toNat_natCast]
    exact digits_reverse (by decide) (by decide) (by omega) hlt

/-- A negative number is written with a sign; the least one has no digits. -/
theorem itoa_of_neg {val : UInt32} (h : cint val < 0) : itoa val =
    45 :: if (cint (-val)).toNat = 0 then [] else decimal (cint (-val)).toNat := by
  have hlt : (cint (-val)).toNat < 2 ^ 32 := by
    have := (-val).toNat_lt
    unfold cint
    split <;> omega
  have hroom : (digits 10 15 (cint (-val)).toNat).length < 15 := by
    have hlen : (Nat.digits 10 (cint (-val)).toNat).length ≤ 14 := by
      rw [Nat.digits_length_le_iff (by decide)]
      exact hlt.trans (by decide)
    rw [digits_eq (by decide) (by decide), List.length_map, List.length_take]
    omega
  have hne : cint (-val) ≠ 0 := by
    intro hzero
    have hneg : -val = 0 := by
      apply UInt32.toNat_inj.mp
      have := cint_of_nonneg hzero.ge
      change (-val).toNat = 0
      omega
    have hval : val = 0 := by rw [← UInt32.neg_neg (a := val), hneg]; rfl
    rw [hval] at h
    exact absurd h (by decide)
  unfold itoa
  dsimp only
  rw [if_pos h, if_neg hne, if_pos ⟨h, hroom⟩, List.reverse_append]
  refine congrArg (45 :: ·) ?_
  split
  next hzero => rw [hzero]; rfl
  next hpos => exact digits_reverse (by decide) (by decide) hpos hlt

theorem itox_eq (val : UInt32) : itox val = numText 16 val.toNat := by
  unfold itox
  split
  next hzero => rw [hzero]; rfl
  next hpos =>
    refine digits_reverse (by decide) (by decide) (fun hzero => hpos ?_) val.toNat_lt
    exact UInt32.toNat_inj.mp hzero

end Xv6.Trace
