import Xv6.Lib.CInt
import Xv6.Lib.Moves

/-!
# `memmove`

The kernel's `memmove` of `string.c` copies from the end if the source lies before the destination and
reaches into it, and otherwise from the start. The one of `ulib.c` always copies from the start.
-/

namespace Xv6.Strings

/-- The memory that pointers point to. -/
abbrev Memory := UInt64 → UInt8

/-- `while(n-- > 0) *d++ = *s++;` -/
def copyUp (m : Memory) (d s : UInt64) : Nat → Memory
  | 0 => m
  | n + 1 => copyUp (Function.update m d (m s)) (d + 1) (s + 1) n

/-- `while(n-- > 0) *--d = *--s;` -/
def copyDown (m : Memory) (d s : UInt64) : Nat → Memory
  | 0 => m
  | n + 1 => copyDown (Function.update m (d - 1) (m (s - 1))) (d - 1) (s - 1) n

/-- `memmove` of `string.c` -/
def Kernel.memmove (m : Memory) (dst src : UInt64) (n : UInt32) : Memory × UInt64 :=
  let s := src
  let d := dst
  if s < d ∧ s + n.toUInt64 > d then
    let s := s + n.toUInt64
    let d := d + n.toUInt64
    (copyDown m d s n.toNat, dst)
  else (copyUp m d s n.toNat, dst)

/-- `memmove` of `ulib.c`, whose argument `n` is an `int`. -/
def User.memmove (m : Memory) (vdst vsrc : UInt64) (n : UInt32) : Memory × UInt64 :=
  (copyUp m vdst vsrc (cint n).toNat, vdst)

/-- In `m'` the `n` bytes at `dst` are those that `m` has at `src`, and all others are those of `m`. -/
structure Moved (m : Memory) (dst src : UInt64) (n : Nat) (m' : Memory) : Prop where
  moved : ∀ i < n, m' (dst + .ofNat i) = m (src + .ofNat i)
  other : ∀ a, (∀ i < n, a ≠ dst + .ofNat i) → m' a = m a

/-- Both functions move the bytes, and so leave the same memory. -/
structure MovesRight (m : Memory) (dst src : UInt64) (n : UInt32) : Prop where
  kernel : Moved m dst src n.toNat (Kernel.memmove m dst src n).1
  user : Moved m dst src n.toNat (User.memmove m dst src n).1
  same : (Kernel.memmove m dst src n).1 = (User.memmove m dst src n).1

/-- A byte of the source that a copy from the start writes before it reads it gets the value that it
has. -/
def Repeats (m : Memory) (dst src : UInt64) (n : Nat) : Prop :=
  ∀ j < n, ∀ i < j, src + .ofNat j = dst + .ofNat i → m (src + .ofNat i) = m (src + .ofNat j)

section
variable {m m₁ m₂ : Memory} {d s dst src : UInt64} {n i j : Nat}

/-! ## Addresses -/

theorem add_ofNat_succ (a : UInt64) (k : Nat) : a + .ofNat (k + 1) = a + .ofNat k + 1 := by
  rw [UInt64.ofNat_add, ← UInt64.add_assoc]
  rfl

theorem sub_ofNat_succ (a : UInt64) (k : Nat) : a - .ofNat (k + 1) = a - .ofNat k - 1 := by
  have hone : UInt64.ofNat 1 = 1 := rfl
  rw [UInt64.ofNat_add]
  grind

theorem ofNat_inj (hi : i < 2 ^ 64) (hj : j < 2 ^ 64) (h : UInt64.ofNat i = .ofNat j) : i = j := by
  have hnat := congrArg UInt64.toNat h
  rwa [UInt64.toNat_ofNat_of_lt' hi, UInt64.toNat_ofNat_of_lt' hj] at hnat

theorem add_ofNat_ne (hi : i < 2 ^ 64) (hj : j < i) (a : UInt64) : a + .ofNat i ≠ a + .ofNat j := by
  intro h
  have heq : UInt64.ofNat i = .ofNat j := by grind
  have := ofNat_inj hi (by omega) heq
  omega

/-- The bytes of a region from its end on. -/
theorem add_sub_ofNat (a : UInt64) (h : i ≤ n) : a + .ofNat n - .ofNat (n - i) = a + .ofNat i := by
  have hn : UInt64.ofNat n = .ofNat i + .ofNat (n - i) := by
    rw [← UInt64.ofNat_add, Nat.add_sub_cancel' h]
  rw [hn, ← UInt64.add_assoc, UInt64.add_sub_cancel]

/-! ## The loops -/

theorem copyUp_moves (k : Nat) :
    copyUp (moves (d + .ofNat ·) (s + .ofNat ·) m k) (d + .ofNat k) (s + .ofNat k) n =
      moves (d + .ofNat ·) (s + .ofNat ·) m (k + n) := by
  induction n generalizing k with
  | zero => rfl
  | succ n ih =>
    rw [copyUp, ← add_ofNat_succ, ← add_ofNat_succ, Nat.add_comm n 1, ← Nat.add_assoc]
    exact ih (k + 1)

theorem copyUp_eq : copyUp m d s n = moves (d + .ofNat ·) (s + .ofNat ·) m n := by
  have hmoves := copyUp_moves (d := d) (s := s) (m := m) (n := n) 0
  have hzero : UInt64.ofNat 0 = 0 := rfl
  rwa [hzero, UInt64.add_zero, UInt64.add_zero, Nat.zero_add] at hmoves

theorem copyDown_moves (k : Nat) :
    copyDown (moves (fun i => d - .ofNat (i + 1)) (fun i => s - .ofNat (i + 1)) m k)
        (d - .ofNat k) (s - .ofNat k) n =
      moves (fun i => d - .ofNat (i + 1)) (fun i => s - .ofNat (i + 1)) m (k + n) := by
  induction n generalizing k with
  | zero => rfl
  | succ n ih =>
    rw [copyDown, ← sub_ofNat_succ, ← sub_ofNat_succ, Nat.add_comm n 1, ← Nat.add_assoc]
    exact ih (k + 1)

theorem copyDown_eq : copyDown m d s n =
    moves (fun i => d - .ofNat (i + 1)) (fun i => s - .ofNat (i + 1)) m n := by
  have hmoves := copyDown_moves (d := d) (s := s) (m := m) (n := n) 0
  have hzero : UInt64.ofNat 0 = 0 := rfl
  rwa [hzero, UInt64.sub_zero, UInt64.sub_zero, Nat.zero_add] at hmoves

theorem moved_copyUp_iff (hn : n < 2 ^ 64) :
    Moved m dst src n (copyUp m dst src n) ↔ Repeats m dst src n := by
  have hinj : ∀ i < n, ∀ j < i, dst + .ofNat i ≠ dst + .ofNat j := fun i hi j hj =>
    add_ofNat_ne (Nat.lt_trans hi hn) hj dst
  rw [copyUp_eq]
  exact ⟨fun h => (moves_iff hinj).mp h.moved,
    fun h => ⟨(moves_iff hinj).mpr h, fun a ha => moves_of_ne ha⟩⟩

/-- A copy from the end moves the bytes if the destination lies behind the start of the source. -/
theorem moved_copyDown (hn : n < 2 ^ 63) (hlt : (dst - src).toNat < n) :
    Moved m dst src n (copyDown m (dst + .ofNat n) (src + .ofNat n) n) := by
  have hend (a : UInt64) {i : Nat} (hi : i < n) :
      a + .ofNat n - .ofNat (n - 1 - i + 1) = a + .ofNat i := by
    rw [← add_sub_ofNat a (Nat.le_of_lt hi)]
    congr 2
    omega
  have hinj : ∀ i < n, ∀ j < i,
      dst + .ofNat n - .ofNat (i + 1) ≠ dst + .ofNat n - .ofNat (j + 1) := by
    intro i hi j hj heq
    have hsame : UInt64.ofNat (i + 1) = .ofNat (j + 1) := by grind
    have := ofNat_inj (by omega) (by omega) hsame
    omega
  rw [copyDown_eq]
  refine ⟨fun i hi => ?_, fun a ha => moves_of_ne fun i hi heq => ?_⟩
  · rw [← hend dst hi, ← hend src hi]
    refine (moves_iff hinj).mpr (fun j hj k hk heq => ?_) (n - 1 - i) (by omega)
    -- no byte of the source is written before it is read
    have hdist : dst - src + .ofNat (j - k) = 0 := by
      have hsplit : UInt64.ofNat (j + 1) = .ofNat (j - k) + .ofNat (k + 1) := by
        rw [← UInt64.ofNat_add]
        congr 1
        omega
      grind
    have hlt' : j - k < 2 ^ 64 := by omega
    have hnat : ((dst - src).toNat + (j - k)) % 2 ^ 64 = 0 := by
      rw [← UInt64.toNat_ofNat_of_lt' hlt', ← UInt64.toNat_add, hdist]
      rfl
    omega
  · rw [show i = n - 1 - (n - 1 - i) by omega, hend dst (by omega)] at heq
    exact ha _ (by omega) heq

theorem Moved.unique (h₁ : Moved m dst src n m₁) (h₂ : Moved m dst src n m₂) : m₁ = m₂ := by
  funext a
  by_cases ha : ∃ i < n, a = dst + .ofNat i
  · obtain ⟨i, hi, rfl⟩ := ha
    rw [h₁.moved i hi, h₂.moved i hi]
  · have hne : ∀ i < n, a ≠ dst + .ofNat i := fun i hi heq => ha ⟨i, hi, heq⟩
    rw [h₁.other a hne, h₂.other a hne]

end

/-! ## Both functions -/

section
variable {m : Memory} {dst src : UInt64} {n : UInt32}

theorem toUInt64_eq : n.toUInt64 = .ofNat n.toNat := by
  apply UInt64.toNat_inj.mp
  rw [UInt32.toNat_toUInt64, UInt64.toNat_ofNat_of_lt']
  exact Nat.lt_trans n.toNat_lt (by decide)

/-- The source reaches into the destination. -/
theorem sub_lt_of_reaches (h : src < dst ∧ src + n.toUInt64 > dst) :
    (dst - src).toNat < n.toNat := by
  have hlt := UInt64.lt_iff_toNat_lt.mp h.1
  have hgt := UInt64.lt_iff_toNat_lt.mp h.2
  rw [UInt64.toNat_add, UInt32.toNat_toUInt64] at hgt
  rw [UInt64.toNat_sub_of_le _ _ (UInt64.le_of_lt h.1)]
  omega

theorem moved_kernel_iff : Moved m dst src n.toNat (Kernel.memmove m dst src n).1 ↔
    (src < dst ∧ src + n.toUInt64 > dst) ∨ Repeats m dst src n.toNat := by
  have hn := n.toNat_lt
  unfold Kernel.memmove
  dsimp only
  split
  next h =>
    refine iff_of_true ?_ (.inl h)
    rw [toUInt64_eq]
    exact moved_copyDown (by omega) (sub_lt_of_reaches h)
  next h => rw [moved_copyUp_iff (by omega), or_iff_right h]

/-- A source that does not wrap around and does not reach into the destination is copied from the start
as it is. -/
theorem repeats_of_not_reaches (hwrap : src.toNat + n.toNat < 2 ^ 64)
    (h : ¬(src < dst ∧ src + n.toUInt64 > dst)) : Repeats m dst src n.toNat := by
  intro j hj i hij heq
  have hdst : dst = src + .ofNat (j - i) := by
    have hsplit : UInt64.ofNat j = .ofNat (j - i) + .ofNat i := by
      rw [← UInt64.ofNat_add, Nat.sub_add_cancel (Nat.le_of_lt hij)]
    grind
  have hlt : j - i < 2 ^ 64 := by omega
  have hnat : dst.toNat = src.toNat + (j - i) := by
    rw [hdst, UInt64.toNat_add, UInt64.toNat_ofNat_of_lt' hlt, Nat.mod_eq_of_lt (by omega)]
  refine absurd ⟨UInt64.lt_iff_toNat_lt.mpr ?_, UInt64.lt_iff_toNat_lt.mpr ?_⟩ h
  · omega
  · rw [UInt64.toNat_add, UInt32.toNat_toUInt64]
    omega

theorem moved_kernel (h : src.toNat + n.toNat < 2 ^ 64) :
    Moved m dst src n.toNat (Kernel.memmove m dst src n).1 := by
  rw [moved_kernel_iff]
  by_cases hreach : src < dst ∧ src + n.toUInt64 > dst
  · exact .inl hreach
  · exact .inr (repeats_of_not_reaches h hreach)

theorem moved_user_iff : Moved m dst src n.toNat (User.memmove m dst src n).1 ↔
    if n.toNat < 2 ^ 31 then Repeats m dst src n.toNat
    else ∀ i < n.toNat, m (dst + .ofNat i) = m (src + .ofNat i) := by
  unfold User.memmove cint
  split
  next => exact moved_copyUp_iff (by omega)
  next h =>
    -- a length from 2 ^ 31 on is negative, and nothing is copied
    have hzero : ((n.toNat : Int) - 2 ^ 32).toNat = 0 := by
      have := n.toNat_lt
      omega
    rw [hzero]
    exact ⟨fun h => h.moved, fun h => ⟨h, fun _ _ => rfl⟩⟩

end

/-- **Moving bytes.** The kernel's function moves the bytes of every source that does not wrap around.
The user library's does so just in case each byte of the source that it writes before it reads it gets
the value that it has, and a length that it takes for negative leaves nothing to do. -/
theorem memmove_iff (m : Memory) (dst src : UInt64) (n : UInt32) :
    (src.toNat + n.toNat < 2 ^ 64 → Moved m dst src n.toNat (Kernel.memmove m dst src n).1) ∧
    (MovesRight m dst src n ↔ if n.toNat < 2 ^ 31 then Repeats m dst src n.toNat
      else ∀ i < n.toNat, m (dst + .ofNat i) = m (src + .ofNat i)) := by
  refine ⟨moved_kernel, fun h => moved_user_iff.mp h.user, fun h => ?_⟩
  have huser := moved_user_iff.mpr h
  have hrepeats : Repeats m dst src n.toNat := by
    split at h
    next => exact h
    next =>
      intro j hj i hij heq
      rw [← h i (Nat.lt_trans hij hj), heq]
  have hkernel := moved_kernel_iff.mpr (.inr hrepeats)
  exact ⟨hkernel, huser, hkernel.unique huser⟩

/-- The two bytes at 0 are moved on by one. The second one is overwritten before it is read. -/
theorem not_movesRight_overlap : ¬MovesRight (fun a => a.toUInt8) 1 0 2 := by
  intro h
  have hbyte := h.user.moved 1 (by decide)
  exact absurd hbyte (by decide)

end Xv6.Strings
