import Xv6.Trace.Numbers

/-!
# Printed integers

The kernel and the user library each have a function `print_d` that prints an integer. Both negate it as
an `int64`. The dashboard's `itoa` negates it as an `int`, and the least integer has no negative there.
-/

namespace Xv6.Strings

open Trace

/-! ## `print_d` -/

/-- `do { buf[i++] = digits[x % 10]; x /= 10; } while(x != 0);` -/
def printDigits (x : Nat) : List UInt8 :=
  (cstring "0123456789abcdef").getD (x % 10) 0 ::
    if x / 10 = 0 then [] else printDigits (x / 10)
decreasing_by omega

/-- What both functions `print_d` write to `buf`. -/
def printBuf (v : UInt32) : List UInt8 :=
  -- `x` has 64 bits, and `-x` does not overflow
  let x := if cint v < 0 then -cint v else cint v
  let buf := printDigits x.toNat
  if cint v < 0 then buf ++ cstring "-" else buf

/-- `print_d` of `console.c`: the characters that it gives to `consputc` -/
def Console.print_d (v : UInt32) : List UInt8 := (printBuf v).reverse

/-- `print_d` of `printf.c`: its calls of `putc` -/
def Printf.print_d (fd v : UInt32) : List (UInt32 × UInt8) := (printBuf v).reverse.map (fd, ·)

/-! ## The text of an integer -/

/-- The digits of an integer after the sign that a negative one has. -/
def intText (v : Int) : List UInt8 := if v < 0 then 45 :: decimal v.natAbs else decimal v.natAbs

/-- The integer that a text says. -/
def intVal : List UInt8 → Int
  | 45 :: s => -numVal 10 s
  | s => numVal 10 s

/-- `itoa` writes the text of the integer, which is what both functions `print_d` print. -/
structure ItoaRight (v : UInt32) : Prop where
  canonical : itoa v = intText (cint v)
  console : itoa v = Console.print_d v
  printf : ∀ fd, Printf.print_d fd v = (itoa v).map (fd, ·)
  reads : intVal (itoa v) = cint v

theorem intVal_intText (v : Int) : intVal (intText v) = v := by
  have hval : numVal 10 (decimal v.natAbs) = v.natAbs := numVal_numText (by decide) (by decide) _
  unfold intText
  split
  next hneg =>
    change -(numVal 10 (decimal v.natAbs) : Int) = v
    omega
  next hpos =>
    have hsign : ∀ s, decimal v.natAbs ≠ 45 :: s := by
      intro s heq
      have hmem := (isDecimal_decimal v.natAbs).2 45 (heq ▸ List.mem_cons_self)
      exact absurd hmem (by decide)
    unfold intVal
    split
    next s heq => exact absurd heq (hsign s)
    next => omega

theorem printDigits_reverse (x : Nat) : (printDigits x).reverse = decimal x := by
  induction x using Nat.strong_induction_on with
  | h x ih =>
    have hchar : ∀ d < 10, (cstring "0123456789abcdef").getD d 0 = digitChar d := by decide
    rw [printDigits, List.reverse_cons, hchar _ (Nat.mod_lt _ (by decide))]
    split
    next hlast =>
      have hlt : x < 10 := by omega
      rw [Nat.mod_eq_of_lt hlt, decimal_of_lt hlt]
      rfl
    next hmore => rw [ih (x / 10) (by omega), ← decimal_div (by omega)]

theorem print_d_eq (v : UInt32) : Console.print_d v = intText (cint v) := by
  unfold Console.print_d printBuf intText
  split
  next hneg =>
    rw [List.reverse_append, printDigits_reverse, show (-cint v).toNat = (cint v).natAbs by omega]
    rfl
  next hpos => rw [printDigits_reverse, show (cint v).toNat = (cint v).natAbs by omega]

/-! ## `itoa` -/

theorem cint_neg {v : UInt32} (h : cint v ≠ -2 ^ 31) : cint (-v) = -cint v := by
  have hlt := v.toNat_lt
  have hneg : (-v).toNat = (2 ^ 32 - v.toNat) % 2 ^ 32 := UInt32.toNat_neg v
  unfold cint at h ⊢
  split at h <;> split <;> omega

theorem itoa_eq_intText_iff (v : UInt32) : itoa v = intText (cint v) ↔ cint v ≠ -2 ^ 31 := by
  constructor
  · intro heq hleast
    have hv : v = 0x80000000 := by
      apply UInt32.toNat_inj.mp
      change v.toNat = 2 ^ 31
      unfold cint at hleast
      split at hleast <;> omega
    have hdigits : decimal (2 ^ 31) = [] := by
      rw [hv] at heq
      exact (List.cons_inj_right 45).mp heq.symm
    exact numText_ne_nil 10 _ hdigits
  · intro h
    by_cases hneg : cint v < 0
    · rw [itoa_of_neg hneg, cint_neg h, if_neg (by omega), intText, if_pos hneg,
        show (-cint v).toNat = (cint v).natAbs by omega]
    · have hval := cint_of_nonneg (not_lt.mp hneg)
      rw [itoa_of_nonneg (not_lt.mp hneg), intText, if_neg hneg, hval, Int.natAbs_natCast]

theorem length_itoa (v : UInt32) : (itoa v).length ≤ 11 := by
  have hlen {n : Nat} (hn : n < 2 ^ 32) : (decimal n).length ≤ 10 :=
    (length_numText_le (by decide) (by decide)).mpr (hn.trans (by decide))
  by_cases hneg : cint v < 0
  · have hlt : (cint (-v)).toNat < 2 ^ 32 := by
      have := (-v).toNat_lt
      unfold cint
      split <;> omega
    rw [itoa_of_neg hneg, List.length_cons]
    split
    next => decide
    next => exact Nat.succ_le_succ (hlen hlt)
  · rw [itoa_of_nonneg (not_lt.mp hneg)]
    exact (hlen v.toNat_lt).trans (by decide)

/-- **Printed integers.** Both functions `print_d` print the text of every integer, which says what it is.
`itoa` writes that text for every integer but the least one. `itox` writes a text that says what its
number is in base 16. Both texts have room in 16 bytes together with the zero after them. -/
theorem itoaRight_iff (v : UInt32) :
    Console.print_d v = intText (cint v) ∧ intVal (intText (cint v)) = cint v ∧
      (ItoaRight v ↔ cint v ≠ -2 ^ 31) ∧ numVal 16 (itox v) = v.toNat ∧
      (itoa v).length + 1 ≤ 16 ∧ (itox v).length + 1 ≤ 16 := by
  refine ⟨print_d_eq v, intVal_intText _, ⟨?_, ?_⟩, ?_, ?_, ?_⟩
  · intro h
    exact (itoa_eq_intText_iff v).mp h.canonical
  · intro h
    have heq := (itoa_eq_intText_iff v).mpr h
    have hconsole : itoa v = Console.print_d v := heq.trans (print_d_eq v).symm
    refine ⟨heq, hconsole, fun fd => ?_, ?_⟩
    · rw [hconsole]
      rfl
    · rw [heq, intVal_intText]
  · rw [itox_eq]
    exact numVal_numText (by decide) (by decide) _
  · exact Nat.succ_le_succ ((length_itoa v).trans (by decide))
  · rw [itox_eq]
    have hlen : (numText 16 v.toNat).length ≤ 8 :=
      (length_numText_le (by decide) (by decide)).mpr v.toNat_lt
    exact Nat.succ_le_succ (hlen.trans (by decide))

/-- The least integer is written as a sign alone. -/
theorem not_itoaRight_least : ¬ItoaRight 0x80000000 := by
  intro h
  exact (itoa_eq_intText_iff _).mp h.canonical (by decide)

end Xv6.Strings
