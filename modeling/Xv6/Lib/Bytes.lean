import Mathlib

/-!
# Byte arrays of a fixed length

`Bytes n` is an array of `n` bytes. It is read and written through byte lists (`slice`, `blit`);
the little-endian words of C structures (`word16`, `word32`) are lists of two or four bytes. Every
fact about words is the same fact about slices: a slice is what was last written there
(`slice_blit_self`), and a write leaves the slices that it does not meet alone.
-/

/-- An array of `n` bytes. -/
@[ext] structure Bytes (n : Nat) where
  toList : List UInt8
  length_toList : toList.length = n
  deriving DecidableEq

/-! ## Little-endian numbers -/

/-- The number that a list of bytes stands for, least significant byte first. -/
def leNat : List UInt8 → Nat
  | [] => 0
  | b :: bs => b.toNat + 256 * leNat bs

/-- The `k` low bytes of `x`, least significant byte first. -/
def leBytes : Nat → Nat → List UInt8
  | 0, _ => []
  | k + 1, x => UInt8.ofNat x :: leBytes k (x / 256)

@[simp] theorem length_leBytes (k x : Nat) : (leBytes k x).length = k := by
  induction k generalizing x with
  | zero => rfl
  | succ k ih => simp [leBytes, ih]

theorem leNat_leBytes (k x : Nat) : leNat (leBytes k x) = x % 256 ^ k := by
  induction k generalizing x with
  | zero => simp [leBytes, leNat, Nat.mod_one]
  | succ k ih =>
    have hpow : 256 ^ (k + 1) = 256 * 256 ^ k := by rw [Nat.pow_succ, Nat.mul_comm]
    simp only [leBytes, leNat, ih, UInt8.toNat_ofNat']
    rw [hpow, Nat.mod_mul]

namespace Bytes

open List

variable {n : Nat}

/-- The byte at position `i`, and `0` past the end. -/
def get (b : Bytes n) (i : Nat) : UInt8 := b.toList.getD i 0

/-- The `m` bytes from position `o` on. -/
def slice (b : Bytes n) (o m : Nat) : List UInt8 := (List.range m).map fun i => b.get (o + i)

/-- Store the list `src` at position `o`; what does not fit is dropped. -/
def blit (b : Bytes n) (o : Nat) (src : List UInt8) : Bytes n where
  toList := b.toList.take o ++ src.take (n - o) ++ b.toList.drop (o + src.length)
  length_toList := by
    simp only [length_append, length_take, length_drop, b.length_toList]
    omega

/-- The array of zero bytes. -/
def zero : Bytes n := ⟨List.replicate n 0, length_replicate⟩

/-- The string that the array holds: its bytes up to the first zero byte. -/
def cstr (b : Bytes n) : List UInt8 := b.toList.takeWhile (· ≠ 0)

theorem get_of_le {b : Bytes n} {i : Nat} (h : n ≤ i) : b.get i = 0 :=
  getD_eq_default _ _ (by rwa [b.length_toList])

@[simp] theorem get_zero (i : Nat) : (zero : Bytes n).get i = 0 := by
  by_cases h : i < n
  · rw [get, zero, getD_replicate _ h]
  · exact get_of_le (Nat.le_of_not_lt h)

@[simp] theorem length_slice (b : Bytes n) (o m : Nat) : (b.slice o m).length = m := by
  simp [slice]

theorem getElem_slice (b : Bytes n) {o m i : Nat} (h : i < (b.slice o m).length) :
    (b.slice o m)[i] = b.get (o + i) := by
  simp [slice]

theorem get_blit (b : Bytes n) (o : Nat) (src : List UInt8) (i : Nat) :
    (b.blit o src).get i =
      if o ≤ i ∧ i < o + src.length ∧ i < n then src.getD (i - o) 0 else b.get i := by
  have hb := b.length_toList
  by_cases hn : i < n
  · simp only [get, blit, getD_eq_getElem?_getD, List.getElem?_append, List.getElem?_take,
      List.getElem?_drop, length_append, length_take, hb]
    split
    next h1 =>
      split
      next h2 => rw [if_pos (by omega), if_neg (by omega)]
      next h2 =>
        rw [if_pos (by omega), if_pos (by omega), show i - min o n = i - o by omega]
    next h1 =>
      rw [if_neg (by omega)]
      congr 2
      omega
  · rw [if_neg fun h => hn h.2.2, get_of_le (Nat.le_of_not_lt hn), get_of_le (Nat.le_of_not_lt hn)]

theorem get_blit_of_mem {b : Bytes n} {o i : Nat} {src : List UInt8} (h1 : o ≤ i)
    (h2 : i < o + src.length) (h3 : i < n) : (b.blit o src).get i = src.getD (i - o) 0 := by
  rw [get_blit, if_pos ⟨h1, h2, h3⟩]

theorem get_blit_of_not_mem {b : Bytes n} {o i : Nat} {src : List UInt8}
    (h : i < o ∨ o + src.length ≤ i) : (b.blit o src).get i = b.get i := by
  rw [get_blit, if_neg (by omega)]

theorem slice_congr {b b' : Bytes n} {o m : Nat}
    (h : ∀ i < m, b.get (o + i) = b'.get (o + i)) : b.slice o m = b'.slice o m := by
  exact map_congr_left fun i hi => h i (mem_range.mp hi)

theorem slice_blit_self (b : Bytes n) {o : Nat} {src : List UInt8} (h : o + src.length ≤ n) :
    (b.blit o src).slice o src.length = src := by
  refine ext_getElem (by simp) fun i hi hi' => ?_
  rw [getElem_slice, get_blit_of_mem (Nat.le_add_right ..) (by omega) (by omega)]
  simp [hi']

theorem slice_zero (o m : Nat) : (zero : Bytes n).slice o m = List.replicate m 0 := by
  refine ext_getElem (by simp) fun i hi hi' => ?_
  rw [getElem_slice]
  simp

/-! ## Words -/

/-- The 16-bit little-endian word at byte position `o`. -/
def word16 (b : Bytes n) (o : Nat) : UInt16 := UInt16.ofNat (leNat (b.slice o 2))

/-- The 32-bit little-endian word at byte position `o`. -/
def word32 (b : Bytes n) (o : Nat) : UInt32 := UInt32.ofNat (leNat (b.slice o 4))

/-- Store the 16-bit word `v` at byte position `o`. -/
def setWord16 (b : Bytes n) (o : Nat) (v : UInt16) : Bytes n := b.blit o (leBytes 2 v.toNat)

/-- Store the 32-bit word `v` at byte position `o`. -/
def setWord32 (b : Bytes n) (o : Nat) (v : UInt32) : Bytes n := b.blit o (leBytes 4 v.toNat)

/-- Store the 32-bit words `ws` one after the other from byte position `o` on. -/
def setWords32 (b : Bytes n) (o : Nat) : List UInt32 → Bytes n
  | [] => b
  | w :: ws => (b.setWord32 o w).setWords32 (o + 4) ws

theorem word16_congr {b b' : Bytes n} {o : Nat} (h : ∀ i < 2, b.get (o + i) = b'.get (o + i)) :
    b.word16 o = b'.word16 o := by
  simp only [word16, slice_congr h]

theorem word32_congr {b b' : Bytes n} {o : Nat} (h : ∀ i < 4, b.get (o + i) = b'.get (o + i)) :
    b.word32 o = b'.word32 o := by
  simp only [word32, slice_congr h]

theorem word16_setWord16 (b : Bytes n) {o : Nat} (v : UInt16) (h : o + 2 ≤ n) :
    (b.setWord16 o v).word16 o = v := by
  have hs : (b.blit o (leBytes 2 v.toNat)).slice o (leBytes 2 v.toNat).length = _ :=
    slice_blit_self b (by simpa using h)
  rw [length_leBytes] at hs
  have hv : v.toNat % 256 ^ 2 = v.toNat := Nat.mod_eq_of_lt v.toNat_lt
  rw [word16, setWord16, hs, leNat_leBytes, hv, UInt16.ofNat_toNat]

theorem word32_setWord32 (b : Bytes n) {o : Nat} (v : UInt32) (h : o + 4 ≤ n) :
    (b.setWord32 o v).word32 o = v := by
  have hs : (b.blit o (leBytes 4 v.toNat)).slice o (leBytes 4 v.toNat).length = _ :=
    slice_blit_self b (by simpa using h)
  rw [length_leBytes] at hs
  have hv : v.toNat % 256 ^ 4 = v.toNat := Nat.mod_eq_of_lt v.toNat_lt
  rw [word32, setWord32, hs, leNat_leBytes, hv, UInt32.ofNat_toNat]

theorem get_setWord16_of_not_mem {b : Bytes n} {o i : Nat} {v : UInt16}
    (h : i < o ∨ o + 2 ≤ i) : (b.setWord16 o v).get i = b.get i :=
  get_blit_of_not_mem (by simpa using h)

theorem get_setWord32_of_not_mem {b : Bytes n} {o i : Nat} {v : UInt32}
    (h : i < o ∨ o + 4 ≤ i) : (b.setWord32 o v).get i = b.get i :=
  get_blit_of_not_mem (by simpa using h)

theorem word32_setWord32_disjoint (b : Bytes n) {o o' : Nat} {v : UInt32}
    (h : o' + 4 ≤ o ∨ o + 4 ≤ o') : (b.setWord32 o v).word32 o' = b.word32 o' :=
  word32_congr fun i hi => get_setWord32_of_not_mem (by omega)

theorem get_setWords32_of_not_mem {b : Bytes n} {o i : Nat} {ws : List UInt32}
    (h : i < o ∨ o + 4 * ws.length ≤ i) : (b.setWords32 o ws).get i = b.get i := by
  induction ws generalizing b o with
  | nil => rfl
  | cons w ws ih =>
    rw [length_cons] at h
    rw [setWords32, ih (by omega), get_setWord32_of_not_mem (by omega)]

theorem word32_setWords32 {o k : Nat} {ws : List UInt32} (b : Bytes n)
    (hfit : o + 4 * ws.length ≤ n) (hk : k < ws.length) :
    (b.setWords32 o ws).word32 (o + 4 * k) = ws[k] := by
  induction ws generalizing b o k with
  | nil => exact absurd hk (Nat.not_lt_zero k)
  | cons w ws ih =>
    rw [length_cons] at hfit hk
    cases k with
    | zero =>
      -- the words that follow stay above the first one
      rw [setWords32, word32_congr fun j hj => get_setWords32_of_not_mem (by omega)]
      exact word32_setWord32 _ _ (by omega)
    | succ k =>
      rw [setWords32, show o + 4 * (k + 1) = o + 4 + 4 * k by omega, ih _ (by omega) (by omega)]
      rfl

@[simp] theorem word32_zero (o : Nat) : (zero : Bytes n).word32 o = 0 := by
  rw [word32, slice_zero]
  rfl

end Bytes
