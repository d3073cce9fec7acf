import Mathlib

/-!
# C integers

The value of a 32-bit pattern read as a signed `int`.
-/

/-- The value of a 32-bit pattern read as an `int`. -/
def cint (x : UInt32) : Int := if x.toNat < 2 ^ 31 then x.toNat else (x.toNat : Int) - 2 ^ 32

theorem cint_ofNat {k : Nat} (h : k < 2 ^ 31) : cint (UInt32.ofNat k) = k := by
  have hk : (UInt32.ofNat k).toNat = k := by
    rw [UInt32.toNat_ofNat', Nat.mod_eq_of_lt (by omega)]
  rw [cint, hk, if_pos h]

theorem cint_of_nonneg {x : UInt32} (h : 0 ≤ cint x) : cint x = x.toNat := by
  have hx := x.toNat_lt
  by_cases hlt : x.toNat < 2 ^ 31
  · rw [cint, if_pos hlt]
  · rw [cint] at h
    omega
