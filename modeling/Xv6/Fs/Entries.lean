import Xv6.Fs.Frame
import Xv6.Fs.Refine
import Xv6.Lib.Slots

/-!
# The entries of a directory

A directory is a table of slots of `sizeof(struct dirent)` bytes; an entry with inode number `0` is
free. A name is what `strncmp` and `strncpy` see of a string: its first `DIRSIZ` bytes, up to a zero
byte (`cname`). The loops over the entries (`dirScan`) find the first slot that they look for, and a
slot that is written is a slot of the table that is stored.
-/

namespace Xv6.Fs

open List

/-! ## Names -/

/-- The first `DIRSIZ` bytes of a string, up to a zero byte. -/
def cname (name : List UInt8) : List UInt8 := (name.take DIRSIZ).takeWhile (· ≠ 0)

/-- A string that has ended reads as a zero byte. -/
theorem takeWhile_take_succ (t : List UInt8) (n : Nat) :
    (t.take (n + 1)).takeWhile (· ≠ 0) =
      if t.headD 0 = 0 then [] else t.headD 0 :: (t.tail.take n).takeWhile (· ≠ 0) := by
  cases t with
  | nil => rfl
  | cons c t =>
    rw [take_succ_cons, takeWhile_cons, headD_cons, tail_cons]
    by_cases hc : c = 0
    · rw [if_pos hc, if_neg (by simp [hc])]
    · rw [if_neg hc, if_pos (by simp [hc])]

theorem strncmp_eq_zero {p q : List UInt8} {n : Nat} :
    strncmp p q n = 0 ↔ (p.take n).takeWhile (· ≠ 0) = (q.take n).takeWhile (· ≠ 0) := by
  induction n generalizing p q with
  | zero => simp only [strncmp, take_zero]
  | succ n ih =>
    have hsub : ∀ {a b : UInt8}, (a.toNat : Int) - b.toNat = 0 ↔ a = b := by
      intro a b
      rw [← UInt8.toNat_inj]
      omega
    rw [strncmp, takeWhile_take_succ, takeWhile_take_succ]
    generalize p.headD 0 = c
    generalize q.headD 0 = d
    by_cases hcd : c = d
    · subst hcd
      by_cases hc : c = 0
      · rw [if_neg fun h => h.1 hc, if_pos hc, if_pos hc, hsub]
        exact ⟨fun _ => rfl, fun _ => rfl⟩
      · rw [if_pos ⟨hc, rfl⟩, if_neg hc, if_neg hc, ih, List.cons.injEq]
        exact ⟨fun h => ⟨rfl, h⟩, fun h => h.2⟩
    · rw [if_neg fun h => hcd h.2, hsub]
      refine ⟨fun h => absurd h hcd, fun h => ?_⟩
      split at h <;> split at h
      next hc hd => exact hc.trans hd.symm
      next => cases h
      next => cases h
      next => exact (List.cons.inj h).1

theorem namecmp_eq_zero {name name' : List UInt8} :
    namecmp name name' = 0 ↔ cname name = cname name' := strncmp_eq_zero

@[simp] theorem length_strncpy {t : List UInt8} {n : Nat} : (strncpy t n).length = n := by
  induction n generalizing t with
  | zero => rfl
  | succ n ih =>
    rw [strncpy]
    split
    · exact length_replicate
    · rw [length_cons, ih]

theorem takeWhile_strncpy {t : List UInt8} {n : Nat} :
    (strncpy t n).takeWhile (· ≠ 0) = (t.take n).takeWhile (· ≠ 0) := by
  induction n generalizing t with
  | zero => rfl
  | succ n ih =>
    rw [strncpy, takeWhile_take_succ]
    by_cases hc : t.headD 0 = 0
    · rw [if_pos hc, if_pos hc, replicate_succ, takeWhile_cons, if_neg (by simp)]
    · rw [if_neg hc, if_neg hc, takeWhile_cons, if_pos (by simpa using hc), ih]

theorem cname_strncpy {name : List UInt8} : cname (strncpy name DIRSIZ) = cname name := by
  rw [cname, take_of_length_le (Nat.le_of_eq length_strncpy), takeWhile_strncpy, cname]

/-! ## Slots -/

/-- What an entry is in the table. -/
def Dirent.slot (de : Dirent) : Option (List UInt8 × Nat) :=
  if de.inum = 0 then none else some (cname de.name, de.inum.toNat)

theorem Dirent.load_store {de : Dirent} (h : de.name.length = DIRSIZ) :
    Dirent.load de.store = de := by
  have hlen := length_leBytes 2 de.inum.toNat
  have hinum : de.inum.toNat % 256 ^ 2 = de.inum.toNat := Nat.mod_eq_of_lt de.inum.toNat_lt
  rw [store, load, take_left' hlen, drop_left' hlen, leNat_leBytes, hinum,
    UInt16.ofNat_toNat, ← h, take_length]

theorem Dirent.length_store {de : Dirent} (h : de.name.length = DIRSIZ) :
    de.store.length = Dirent.size := by
  rw [store, length_append, length_leBytes, h, size]

theorem slot_dirlink {name : List UInt8} {inum : Nat} (h : inum ≠ 0) (hlt : inum < 2 ^ 16) :
    Dirent.slot ⟨UInt16.ofNat inum, strncpy name DIRSIZ⟩ = some (cname name, inum) := by
  have htoNat : (UInt16.ofNat inum).toNat = inum := UInt16.toNat_ofNat_of_lt' hlt
  have hne : UInt16.ofNat inum ≠ 0 := fun h0 => h (by rw [← htoNat, h0]; rfl)
  rw [Dirent.slot, if_neg hne, htoNat, cname_strncpy]

/-- Bytes `Dirent.size * k` on of a directory. -/
def direntAt (data : List UInt8) (k : Nat) : Dirent :=
  Dirent.load ((data.drop (Dirent.size * k)).take Dirent.size)

def entries (data : List UInt8) : List Dirent :=
  (List.range (data.length / Dirent.size)).map (direntAt data)

/-- A directory as a table of names and inode numbers. -/
def dirSlots (data : List UInt8) : Slots (List UInt8) Nat := (entries data).map Dirent.slot

section
variable {data src : List UInt8} {k j off : Nat}

@[simp] theorem length_entries : (entries data).length = data.length / Dirent.size := by
  rw [entries, length_map, length_range]

@[simp] theorem length_dirSlots : (dirSlots data).length = data.length / Dirent.size := by
  rw [dirSlots, length_map, length_entries]

theorem getElem_entries (h : k < (entries data).length) : (entries data)[k] = direntAt data k := by
  simp only [entries, getElem_map, getElem_range]

theorem getElem?_dirSlots : (dirSlots data)[k]? =
    if k < data.length / Dirent.size then some (direntAt data k).slot else none := by
  rw [dirSlots, List.getElem?_map]
  split
  next h => rw [List.getElem?_eq_getElem (by rwa [length_entries]), getElem_entries, Option.map_some]
  next h => rw [List.getElem?_eq_none (by rw [length_entries]; omega), Option.map_none]

theorem getElem?_writeAt (h : off ≤ data.length) (x : Nat) : (writeAt data off src)[x]? =
    if off ≤ x ∧ x < off + src.length then src[x - off]? else data[x]? := by
  simp only [writeAt, List.getElem?_append, length_append, length_take,
    Nat.min_eq_left h, List.getElem?_take, List.getElem?_drop]
  split
  next h1 =>
    split
    next h2 => rw [if_neg (by omega)]
    next h2 => rw [if_pos (by omega)]
  next h1 =>
    rw [if_neg (by omega)]
    congr 1
    omega

theorem direntAt_writeAt (hoff : Dirent.size * k ≤ data.length) (hsrc : src.length = Dirent.size) :
    direntAt (writeAt data (Dirent.size * k) src) j =
      if j = k then Dirent.load src else direntAt data j := by
  unfold direntAt
  rw [← apply_ite Dirent.load]
  congr 1
  refine ext_getElem? fun x => ?_
  rw [List.getElem?_take, List.getElem?_drop, getElem?_writeAt hoff]
  by_cases hj : j = k
  · subst hj
    rw [if_pos rfl, Nat.add_sub_cancel_left]
    by_cases hx : x < Dirent.size
    · rw [if_pos hx, if_pos (by omega)]
    · rw [if_neg hx, List.getElem?_eq_none (by omega)]
  · rw [if_neg hj, List.getElem?_take, List.getElem?_drop]
    by_cases hx : x < Dirent.size
    · rw [if_pos hx, if_pos hx, if_neg]
      rw [hsrc]
      simp only [Dirent.size, DIRSIZ] at hx ⊢
      omega
    · rw [if_neg hx, if_neg hx]

theorem dirSlots_append (h : src.length = Dirent.size) :
    dirSlots (src ++ data) = (Dirent.load src).slot :: dirSlots data := by
  have hpos : 0 < Dirent.size := by decide
  have hlen : (src ++ data).length / Dirent.size = data.length / Dirent.size + 1 := by
    rw [length_append, h, Nat.add_comm, Nat.add_div_right _ hpos]
  have hfirst : direntAt (src ++ data) 0 = Dirent.load src := by
    rw [direntAt, Nat.mul_zero, drop_zero, take_left' h]
  have hrest : ∀ k, direntAt (src ++ data) (k + 1) = direntAt data k := fun k => by
    rw [direntAt, direntAt, Nat.mul_succ, Nat.add_comm, ← drop_drop, drop_left' h]
  rw [dirSlots, dirSlots, entries, entries, hlen, range_succ_eq_map, map_cons,
    map_cons, hfirst, map_map, map_map, map_map]
  refine congrArg _ (map_congr_left fun k _ => ?_)
  exact congrArg Dirent.slot (hrest k)

theorem dirSlots_zeroes (k : Nat) :
    dirSlots (List.replicate (Dirent.size * k) 0) = List.replicate k none := by
  induction k with
  | zero => rfl
  | succ k ih =>
    rw [Nat.mul_succ, Nat.add_comm, replicate_add, dirSlots_append length_replicate, ih]
    rfl

/-- An entry that is written is a slot that is stored. -/
theorem dirSlots_writeAt (hdata : data.length % Dirent.size = 0) (hk : k ≤ (dirSlots data).length)
    (hsrc : src.length = Dirent.size) :
    dirSlots (writeAt data (Dirent.size * k) src) =
      (dirSlots data).store k (Dirent.load src).slot := by
  have hpos : 0 < Dirent.size := by decide
  have hk' := hk
  rw [length_dirSlots] at hk
  have hlen : Dirent.size * (data.length / Dirent.size) = data.length := by
    have := Nat.div_add_mod data.length Dirent.size
    omega
  have hoff : Dirent.size * k ≤ data.length := by
    rw [← hlen]
    exact Nat.mul_le_mul_left _ hk
  have hdiv : (writeAt data (Dirent.size * k) src).length / Dirent.size =
      max (data.length / Dirent.size) (k + 1) := by
    rw [length_writeAt hoff, hsrc]
    generalize data.length / Dirent.size = m at *
    rw [← hlen, ← Nat.mul_succ, Nat.mul_max_mul_left, Nat.mul_div_cancel_left _ hpos]
  refine ext_getElem? fun j => ?_
  rw [Slots.getElem?_store hk', getElem?_dirSlots, getElem?_dirSlots, hdiv,
    direntAt_writeAt hoff hsrc]
  by_cases hj : j = k
  · rw [if_pos hj, if_pos hj, if_pos (by omega)]
  · rw [if_neg hj, if_neg hj]
    by_cases hlt : j < data.length / Dirent.size
    · rw [if_pos hlt, if_pos (by omega)]
    · rw [if_neg hlt, if_neg (by omega)]

end

end Xv6.Fs
