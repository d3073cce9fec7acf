import Mathlib

/-!
# Rings indexed by wrapping counters

A ring of `n` slots holds the last entries of an unbounded sequence, entry `i` in slot `i % n`.
`RingHolds` says which stretch of the sequence is still there. The counters that name entries are
32-bit and wrap; as long as `n` divides `2 ^ 32` a wrapped counter finds the same slot
(`ringSlot_ofNat`), and as long as the stretch is shorter than `2 ^ 32` the difference of two
wrapped counters is its length (`toNat_ofNat_sub`).
-/

variable {α : Type _} {n : Nat} [NeZero n]

/-- The slot of the ring that the counter `c` names. -/
def ringSlot (n : Nat) [NeZero n] (c : UInt32) : Fin n := Fin.ofNat n c.toNat

/-- The slots hold the entries of `xs` from `lo` up to `hi`. -/
def RingHolds (slots : Fin n → α) (xs : List α) (lo hi : Nat) : Prop :=
  ∀ i, lo ≤ i → i < hi → xs[i]? = some (slots (Fin.ofNat n i))

theorem ringSlot_ofNat (hn : n ∣ 2 ^ 32) (i : Nat) :
    ringSlot n (UInt32.ofNat i) = Fin.ofNat n i := by
  apply Fin.ext
  exact Nat.mod_mod_of_dvd i hn

theorem toNat_ofNat_sub {a b : Nat} (h : b ≤ a) (hlt : a - b < 2 ^ 32) :
    (UInt32.ofNat a - UInt32.ofNat b).toNat = a - b := by
  rw [UInt32.toNat_sub, UInt32.toNat_ofNat', UInt32.toNat_ofNat']
  omega

theorem ofNat_add_one (a : Nat) : UInt32.ofNat a + 1 = UInt32.ofNat (a + 1) := by
  apply UInt32.toNat_inj.mp
  simp

namespace RingHolds

variable {slots : Fin n → α} {xs : List α} {lo lo' hi : Nat}

theorem mono (h : RingHolds slots xs lo hi) (hlo : lo ≤ lo') : RingHolds slots xs lo' hi :=
  fun i h1 h2 => h i (Nat.le_trans hlo h1) h2

theorem push (h : RingHolds slots xs lo xs.length) (x : α) (hlo : lo ≤ lo')
    (hn : xs.length < lo' + n) :
    RingHolds (Function.update slots (Fin.ofNat n xs.length) x) (xs ++ [x]) lo' (xs.length + 1) := by
  intro i h1 h2
  by_cases hi : i = xs.length
  · subst hi
    simp
  · have hne : Fin.ofNat n i ≠ Fin.ofNat n xs.length := by
      intro he
      have hmod : i % n = xs.length % n := congrArg Fin.val he
      -- two places in one slot are at least `n` apart
      have hdvd : n ∣ xs.length - i := (Nat.modEq_iff_dvd' (by omega)).mp hmod
      have := Nat.le_of_dvd (by omega) hdvd
      omega
    rw [Function.update_of_ne hne, List.getElem?_append_left (by omega)]
    exact h i (by omega) (by omega)

end RingHolds
