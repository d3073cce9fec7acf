import Xv6.Vm.Calls

/-!
# The sizes that `sbrk` reports

`growproc` adds its argument to the size modulo `2 ^ 64`. A request below zero gives a number above the
old size, and `deallocuvm` then returns the old size, which `growproc` takes for success.
-/

namespace Xv6.Vm

variable {k : Kern} {me : Slot} {r sz newsz : Nat} {n : Int} {s : Mem}

/-- A call of `sbrk` that reports success has changed the size by `n` and returns the old one; one that
cannot change it by `n` returns -1 and changes nothing. -/
structure SbrkRight (k : Kern) (me : Slot) (n : Int) : Prop where
  exact : ∀ o k', sysSbrk me n k = .ok (o, k') → o ≠ -1 →
    o = (k.proc me).sz ∧ ((k'.proc me).sz : Int) = (k.proc me).sz + n
  refused : (k.proc me).sz + n < 0 ∨ (KERNBASE : Int) ≤ (k.proc me).sz + n →
    sysSbrk me n k = .ok (-1, k)

/-- `allocuvm` that gets as far as its loop returns the new size or 0. -/
theorem wp_allocLoop_result (oldsz : Nat) (pages a : Nat) :
    Prog.wp (allocLoop r oldsz newsz pages a) (fun _ => True)
      (fun sz _ => sz = 0 ∨ sz = newsz) s := by
  induction pages generalizing a s with
  | zero => exact .inr rfl
  | succ pages ih =>
    refine wp_bind_any fun mem s₁ => ?_
    cases mem with
    | none => exact wp_bind_any fun _ _ => .inl rfl
    | some mem =>
      refine wp_bind_any fun _ s₂ => wp_bind_any fun o s₃ => ?_
      split
      · exact wp_bind_any fun _ _ => wp_bind_any fun _ _ => .inl rfl
      · exact ih (a + PGSIZE)

/-- The size that `growproc` gets for a process of size `sz`. -/
def newSize (pgdir sz : Nat) (n : Int) : VmM Nat :=
  if 0 < n then allocuvm pgdir sz (uint64 (sz + n))
  else if n < 0 then deallocuvm pgdir sz (uint64 (sz + n))
  else pure sz

/-- `growproc`, by the size that it gets. -/
theorem wp_growproc_size {E : Fault → Prop} {Q : Int → Kern → Prop}
    (hr : (k.proc me).pgdir = some r)
    (h : Prog.wp (newSize r (k.proc me).sz n) E (fun sz s =>
      if n ≠ 0 ∧ sz = 0 then Q (-1) { k with mem := s }
      else Q 0 { k with
        mem := s
        proc := update k.proc me { k.proc me with sz } }) k.mem) :
    Prog.wp (growproc me n) E Q k := by
  have hset : ∀ (sz : Nat) (s : Mem),
      (if n ≠ 0 ∧ sz = 0 then Q (-1) { k with mem := s }
        else Q 0 { k with
          mem := s
          proc := update k.proc me { k.proc me with sz } }) →
      Prog.wp (if n ≠ 0 ∧ sz = 0 then pure (-1)
        else do
          modifyProc me fun p => { p with sz }
          pure 0 : KernM Int) E Q { k with mem := s } := by
    intro sz s hq
    split at hq
    next hfail => rwa [if_pos hfail]
    next hfail =>
      rw [if_neg hfail, wp_bind]
      exact wp_modifyProc hq
  unfold growproc newSize at *
  rw [wp_bind, wp_gets]
  rw [wp_bind, wp_of_eq_ok (pgdirOf_eq hr)]
  split at h
  next hpos =>
    rw [if_pos hpos, wp_bind, vm, wp_zoom]
    exact wp_imp h hset
  next hpos =>
    rw [if_neg hpos]
    split at h
    next hneg =>
      rw [if_pos hneg, wp_bind, vm, wp_zoom]
      exact wp_imp h hset
    next hneg =>
      rw [if_neg hneg, wp_bind]
      exact hset _ k.mem h

section
variable (hr : (k.proc me).pgdir = some r)
include hr

theorem sysSbrk_fails (hn : n ≠ 0) (h : newSize r (k.proc me).sz n = pure 0) :
    sysSbrk me n k = .ok (-1, k) := by
  refine eq_ok_of_wp ?_
  unfold sysSbrk
  rw [wp_bind, wp_gets, wp_bind]
  refine wp_growproc_size hr ?_
  rw [h, wp_pure, if_pos ⟨hn, rfl⟩]
  exact ⟨rfl, rfl⟩

/-- `sbrk` that succeeds returns the old size, and the process has the size that `growproc` gets. -/
theorem wp_sysSbrk_size {Q : Nat → Prop}
    (h : Prog.wp (newSize r (k.proc me).sz n) (fun _ => True) (fun sz _ => n ≠ 0 ∧ sz = 0 ∨ Q sz)
      k.mem) :
    Prog.wp (sysSbrk me n) (fun _ => True)
      (fun o k' => o ≠ -1 → o = (k.proc me).sz ∧ Q (k'.proc me).sz) k := by
  unfold sysSbrk
  rw [wp_bind, wp_gets, wp_bind]
  refine wp_growproc_size hr (wp_imp h fun sz s hsz => ?_)
  split
  · exact fun hne => absurd rfl hne
  next hfail =>
    refine fun _ => ⟨rfl, ?_⟩
    simpa using hsz.resolve_left hfail

theorem sysSbrk_same (hpos : (k.proc me).sz ≠ 0) (h : newSize r (k.proc me).sz n = pure (k.proc me).sz) :
    ∃ k', sysSbrk me n k = .ok (((k.proc me).sz : Int), k') ∧ (k'.proc me).sz = (k.proc me).sz := by
  have hwp : Prog.wp (sysSbrk me n) (fun _ => False)
      (fun o k' => o = (k.proc me).sz ∧ (k'.proc me).sz = (k.proc me).sz) k := by
    unfold sysSbrk
    rw [wp_bind, wp_gets, wp_bind]
    refine wp_growproc_size hr ?_
    rw [h, wp_pure, if_neg fun hzero => hpos hzero.2]
    refine ⟨rfl, ?_⟩
    simp
  obtain ⟨o, k', heq, rfl, hsz⟩ := exists_of_wp hwp
  exact ⟨k', heq, hsz⟩

theorem not_sbrkRight (hn : n ≠ 0) (hpos : (k.proc me).sz ≠ 0)
    (h : newSize r (k.proc me).sz n = pure (k.proc me).sz) : ¬SbrkRight k me n := by
  intro hright
  obtain ⟨k', hrun, heq⟩ := sysSbrk_same hr hpos h
  have := (hright.exact _ _ hrun (by omega)).2
  omega

end

/-! ## The size that `growproc` gets -/

theorem newSize_of_kernbase (hsz : sz < KERNBASE) (hle : (KERNBASE : Int) ≤ sz + n)
    (hlt : sz + n < 2 ^ 64) : newSize r sz n = pure 0 := by
  have hnew : KERNBASE ≤ uint64 (sz + n) := by
    unfold uint64
    omega
  rw [newSize, if_pos (by omega), allocuvm, if_pos hnew]

/-- Below zero the sum is above the old size. -/
theorem newSize_of_neg (hlo : -2 ^ 63 ≤ n) (hneg : sz + n < 0) : newSize r sz n = pure sz := by
  have hnew : sz ≤ uint64 (sz + n) := by
    unfold uint64
    omega
  rw [newSize, if_neg (by omega), if_pos (by omega), deallocuvm, if_pos hnew]

/-- A sum that wraps is below the old size. -/
theorem newSize_of_wrap (hsz : sz < KERNBASE) (hhi : n < 2 ^ 63) (hwrap : 2 ^ 64 ≤ sz + n) :
    newSize r sz n = pure sz := by
  have hnew : uint64 (sz + n) < sz := by
    unfold uint64
    omega
  rw [newSize, if_pos (by simp only [KERNBASE] at hsz; omega), allocuvm, if_neg (by omega),
    if_pos hnew]

theorem wp_newSize (hle : 0 ≤ sz + n) (hlt : sz + n < 2 ^ 64) :
    Prog.wp (newSize r sz n) (fun _ => True)
      (fun sz' _ => n ≠ 0 ∧ sz' = 0 ∨ (sz' : Int) = sz + n) s := by
  have hnew : (uint64 (sz + n) : Int) = sz + n := by
    unfold uint64
    omega
  unfold newSize
  split
  next hpos =>
    unfold allocuvm
    split
    · exact .inl ⟨by omega, rfl⟩
    · rw [if_neg (by omega)]
      refine wp_imp (wp_allocLoop_result _ _ _) ?_
      rintro sz' _ (rfl | rfl)
      · exact .inl ⟨by omega, rfl⟩
      · exact .inr hnew
  next hpos =>
    split
    next hneg =>
      rw [deallocuvm, if_neg (by omega)]
      exact wp_bind_any fun _ _ => .inr hnew
    next hneg => exact .inr (by omega)

/-- **`sbrk`.** A call with any argument does what it reports exactly when the sum of the size and the
argument is not below zero, or the size is 0, and the sum does not wrap. -/
theorem sbrkRight_iff (k : Kern) (me : Slot) (r : Nat) (n : Int64)
    (hr : (k.proc me).pgdir = some r) (hsz : (k.proc me).sz < KERNBASE) :
    SbrkRight k me n.toInt ↔
      ((k.proc me).sz = 0 ∨ 0 ≤ (k.proc me).sz + n.toInt) ∧ (k.proc me).sz + n.toInt < 2 ^ 64 := by
  have hlo := n.le_toInt
  have hhi := n.toInt_lt
  generalize n.toInt = n at hlo hhi ⊢
  constructor
  · intro h
    constructor
    · by_contra hneg
      exact not_sbrkRight hr (by omega) (by omega) (newSize_of_neg hlo (by omega)) h
    · by_contra hwrap
      have hsame : newSize r (k.proc me).sz n = pure _ := newSize_of_wrap hsz hhi (by omega)
      simp only [KERNBASE] at hsz
      exact not_sbrkRight hr (by omega) (by omega) hsame h
  · rintro ⟨hor, hlt⟩
    by_cases hneg : (k.proc me).sz + n < 0
    · -- a process without memory
      have hzero : (k.proc me).sz = 0 := hor.resolve_right (by omega)
      have hfail := sysSbrk_fails hr (n := n) (by omega) (by rw [newSize_of_neg hlo hneg, hzero])
      refine ⟨fun o k' hrun hne => ?_, fun _ => hfail⟩
      rw [hfail] at hrun
      cases hrun
      exact absurd rfl hne
    · refine ⟨fun o k' hrun hne => ?_, fun hbad => ?_⟩
      · have hwp := wp_sysSbrk_size hr (wp_newSize (s := k.mem) (by omega) hlt)
        exact wp_ok hwp hrun hne
      · have hkern := hbad.resolve_left hneg
        exact sysSbrk_fails hr (by omega) (newSize_of_kernbase hsz hkern hlt)

/-- A process of two pages. -/
def twoPages : Kern :=
  { bss 0 with proc := fun _ => { VProc.zero with life := .used, pgdir := some 1, sz := 8192 } }

theorem sbrkRight_one_page : SbrkRight twoPages ⟨0, by decide⟩ (Int64.toInt (-4096)) :=
  (sbrkRight_iff twoPages ⟨0, by decide⟩ 1 (-4096) rfl (by decide)).mpr (by decide)

/-- To give up four pages of two is reported as a success. -/
theorem not_sbrkRight_four_pages : ¬SbrkRight twoPages ⟨0, by decide⟩ (Int64.toInt (-16384)) := by
  refine not_sbrkRight (r := 1) rfl (by decide) (by decide) ?_
  exact newSize_of_neg (by decide) (by decide)

end Xv6.Vm
