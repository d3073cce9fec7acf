import Mathlib

/-!
# Numbers as text

The text of a number is the list of its digits as characters, the first one not zero unless the number
is. It says what the number is (`numVal_numText`), and its length says how large the number is
(`length_numText_le`).
-/

/-- The character of a digit; those from ten on are letters. -/
def digitChar (d : Nat) : UInt8 := if d < 10 then UInt8.ofNat (48 + d) else UInt8.ofNat (87 + d)

/-- The text of `n` in base `b`. -/
def numText (b n : Nat) : List UInt8 :=
  if n = 0 then [48] else ((Nat.digits b n).map digitChar).reverse

/-- The decimal text of `n`. -/
abbrev decimal (n : Nat) : List UInt8 := numText 10 n

/-- A text that consists of decimal digits. -/
def IsDecimal (s : List UInt8) : Prop := s ≠ [] ∧ ∀ c ∈ s, 48 ≤ c ∧ c ≤ 57

/-- The value of a text of decimal digits. -/
def decimalVal (s : List UInt8) : Nat := s.foldl (fun v c => v * 10 + (c.toNat - 48)) 0

/-- The digit that a character stands for. -/
def charDigit (c : UInt8) : Nat := if c.toNat < 58 then c.toNat - 48 else c.toNat - 87

/-- The value of a text in base `b`. -/
def numVal (b : Nat) (s : List UInt8) : Nat := s.foldl (fun v c => v * b + charDigit c) 0

theorem toNat_digitChar {d : Nat} (h : d < 10) : (digitChar d).toNat = 48 + d := by
  rw [digitChar, if_pos h, UInt8.toNat_ofNat', Nat.mod_eq_of_lt (by omega)]

theorem numText_ne_nil (b n : Nat) : numText b n ≠ [] := by
  unfold numText
  split
  next => exact List.cons_ne_nil _ _
  next hn =>
    rw [ne_eq, List.reverse_eq_nil_iff, List.map_eq_nil_iff, Nat.digits_eq_nil_iff_eq_zero]
    exact hn

theorem isDecimal_decimal (n : Nat) : IsDecimal (decimal n) := by
  refine ⟨numText_ne_nil 10 n, fun c hc => ?_⟩
  unfold decimal numText at hc
  split at hc
  next =>
    rw [List.mem_singleton.mp hc]
    decide
  next =>
    rw [List.mem_reverse, List.mem_map] at hc
    obtain ⟨d, hd, rfl⟩ := hc
    have hlt : d < 10 := Nat.digits_lt_base (by decide) hd
    rw [UInt8.le_iff_toNat_le, UInt8.le_iff_toNat_le, toNat_digitChar hlt]
    change 48 ≤ 48 + d ∧ 48 + d ≤ 57
    omega

/-- What a text of digits says, the last one first, if `f` says what each character stands for. -/
theorem foldl_digits {b : Nat} {f : UInt8 → Nat} {ds : List Nat}
    (h : ∀ d ∈ ds, f (digitChar d) = d) :
    (ds.map digitChar).reverse.foldl (fun v c => v * b + f c) 0 = Nat.ofDigits b ds := by
  rw [List.foldl_reverse]
  induction ds with
  | nil => rfl
  | cons d ds ih =>
    rw [List.map_cons, List.foldr_cons, ih fun x hx => h x (List.mem_cons_of_mem _ hx),
      Nat.ofDigits_cons, h d List.mem_cons_self, Nat.mul_comm, Nat.add_comm]

theorem decimalVal_decimal (n : Nat) : decimalVal (decimal n) = n := by
  unfold decimal numText
  split
  next hn => rw [hn]; rfl
  next =>
    unfold decimalVal
    rw [foldl_digits fun d hd => ?_, Nat.ofDigits_digits]
    rw [toNat_digitChar (Nat.digits_lt_base (by decide) hd), Nat.add_sub_cancel_left]

theorem length_numText_le {b k n : Nat} (hb : 1 < b) (hk : 1 ≤ k) :
    (numText b n).length ≤ k ↔ n < b ^ k := by
  unfold numText
  split
  next hn =>
    rw [hn]
    exact iff_of_true hk (Nat.pow_pos (by omega))
  next => rw [List.length_reverse, List.length_map, Nat.digits_length_le_iff hb]

theorem numVal_numText {b : Nat} (hb : 1 < b) (hle : b ≤ 16) (n : Nat) :
    numVal b (numText b n) = n := by
  have hchar : ∀ d < 16, charDigit (digitChar d) = d := by decide
  unfold numVal numText
  split
  next hn =>
    rw [hn, List.foldl_cons, List.foldl_nil, Nat.zero_mul]
    decide
  next =>
    rw [foldl_digits fun d hd => hchar d ((Nat.digits_lt_base hb hd).trans_le hle),
      Nat.ofDigits_digits]

theorem decimal_of_lt {n : Nat} (h : n < 10) : decimal n = [digitChar n] := by
  unfold decimal numText
  split
  next hn => rw [hn]; rfl
  next hn => rw [Nat.digits_of_lt 10 n hn h]; rfl

/-- The last digit of a number with more than one. -/
theorem decimal_div {n : Nat} (h : 10 ≤ n) :
    decimal n = decimal (n / 10) ++ [digitChar (n % 10)] := by
  unfold decimal numText
  rw [if_neg (by omega), if_neg (by omega), Nat.digits_def' (by decide) (by omega), List.map_cons,
    List.reverse_cons]
