import Xv6.Syscall.Args

/-!
# Addresses in user memory

`fetchint`, `fetchaddr` and `fetchstr` of `syscall.c`, which check all 64 bits of an address, beside
`argptr` and `argstr`, which do not: the one compares the low half of the register with the size of
the process, the other passes the low half on as a signed integer.
-/

namespace Xv6.Syscall

variable {φ : Type}

/-! ## `syscall.c` -/

/-- The test with which `fetchint` and `fetchaddr` refuse to read `len` bytes at `addr`. -/
def unfetchable (sz addr len : UInt64) : Prop :=
  addr < UInt64.ofNat PGSIZE ∨ addr ≥ sz ∨ addr + len > sz

instance (sz addr len : UInt64) : Decidable (unfetchable sz addr len) := by
  unfold unfetchable
  infer_instance

/-- The bytes at `addr`, lowest first. -/
def load (mem : UInt64 → UInt8) (addr : UInt64) : Nat → Nat
  | 0 => 0
  | n + 1 => (mem addr).toNat + 256 * load mem (addr + 1) n

/-- `fetchint`: the `int` that it stores; `none` when it returns -1. -/
def fetchint (mem : UInt64 → UInt8) (sz addr : UInt64) : Option UInt32 :=
  if unfetchable sz addr 4 then none else some (UInt32.ofNat (load mem addr 4))

/-- `fetchaddr`: the `addr_t` that it stores; `none` when it returns -1. -/
def fetchaddr (mem : UInt64 → UInt8) (sz addr : UInt64) : Option UInt64 :=
  if unfetchable sz addr 8 then none else some (UInt64.ofNat (load mem addr 8))

/-- The loop of `fetchstr`, with `turns` bytes left before `ep`: how far it is to a NUL. -/
def fetchstrLoop (mem : UInt64 → UInt8) : (turns : Nat) → (s : UInt64) → Option Nat
  | 0, _ => none
  | turns + 1, s =>
    if mem s = 0 then some 0 else (fetchstrLoop mem turns (s + 1)).map (· + 1)

/-- `fetchstr`: the value returned, and the pointer that `*pp` is left with. -/
def fetchstr (mem : UInt64 → UInt8) (sz addr pp : UInt64) : Int × UInt64 :=
  if addr < UInt64.ofNat PGSIZE ∨ addr ≥ sz then (-1, pp)
  else
    match fetchstrLoop mem (sz.toNat - addr.toNat) addr with
    -- a difference of pointers, cut to an `int`
    | some len => (cint (UInt32.ofNat len), addr)
    | none => (-1, addr)

/-- An `int` converted to `addr_t`. -/
def ofInt32 (x : UInt32) : UInt64 := UInt64.ofInt (cint x)

def argstr (mem : UInt64 → UInt8) (p : Proc φ) (n : Fin 6) (pp : UInt64) : Int × UInt64 :=
  fetchstr mem p.sz (ofInt32 (argint p n)) pp

/-! ## Strings in memory -/

/-- From `addr` on there are `len` bytes that are not NUL, and one that is. -/
def StringAt (mem : UInt64 → UInt8) (addr : UInt64) (len : Nat) : Prop :=
  (∀ k < len, mem (addr + UInt64.ofNat k) ≠ 0) ∧ mem (addr + UInt64.ofNat len) = 0

section
variable {mem : UInt64 → UInt8} {sz addr pp : UInt64} {turns len : Nat}

theorem add_ofNat_succ (a : UInt64) (k : Nat) :
    a + UInt64.ofNat (k + 1) = a + 1 + UInt64.ofNat k := by
  rw [UInt64.ofNat_add, UInt64.add_comm (UInt64.ofNat k), ← UInt64.add_assoc]
  rfl

theorem stringAt_zero : StringAt mem addr 0 ↔ mem addr = 0 := by
  simp [StringAt]

theorem stringAt_succ : StringAt mem addr (len + 1) ↔ mem addr ≠ 0 ∧ StringAt mem (addr + 1) len := by
  constructor
  · rintro ⟨hne, hz⟩
    refine ⟨by simpa using hne 0 (Nat.succ_pos _), fun k hk => ?_, by rwa [← add_ofNat_succ]⟩
    rw [← add_ofNat_succ]
    exact hne _ (Nat.succ_lt_succ hk)
  · rintro ⟨h0, hne, hz⟩
    refine ⟨fun k hk => ?_, by rwa [add_ofNat_succ]⟩
    cases k with
    | zero => simpa using h0
    | succ k =>
      rw [add_ofNat_succ]
      exact hne k (Nat.lt_of_succ_lt_succ hk)

theorem fetchstrLoop_eq_some :
    fetchstrLoop mem turns addr = some len ↔ len < turns ∧ StringAt mem addr len := by
  induction turns generalizing addr len with
  | zero => simp [fetchstrLoop]
  | succ turns ih =>
    rw [fetchstrLoop]
    by_cases hz : mem addr = 0
    · cases len with
      | zero => simp [stringAt_zero]
      | succ len => simp [stringAt_succ, hz]
    · cases len with
      | zero => simp [stringAt_zero]
      | succ len => simp [stringAt_succ, hz, ih]

/-- A string in mapped memory whose length is an `int`. -/
def Fetched (mem : UInt64 → UInt8) (sz addr : UInt64) (len : Nat) : Prop :=
  StringAt mem addr len ∧ InMemory sz addr (len + 1) ∧ 0 ≤ cint (UInt32.ofNat len)

theorem inMemory_succ : InMemory sz addr (len + 1) ↔
    PGSIZE ≤ addr.toNat ∧ addr.toNat + len < sz.toNat := by
  constructor
  · intro h
    have h0 := h.2 addr.toNat (Nat.le_refl _) (by omega)
    have hl := h.2 (addr.toNat + len) (Nat.le_add_right ..) (by omega)
    exact ⟨h0.1, hl.2⟩
  · rintro ⟨hlo, hhi⟩
    exact ⟨by omega, fun b hb hb' => ⟨by omega, by omega⟩⟩

theorem outside_iff : (addr < UInt64.ofNat PGSIZE ∨ addr ≥ sz) ↔
    addr.toNat < PGSIZE ∨ sz.toNat ≤ addr.toNat := by
  rfl

theorem fetchstr_nonneg (h : 0 ≤ (fetchstr mem sz addr pp).1) :
    (fetchstr mem sz addr pp).2 = addr ∧ ∃ len, Fetched mem sz addr len := by
  unfold fetchstr at h ⊢
  split at h
  · simp at h
  next hin =>
    rw [if_neg hin]
    rw [outside_iff] at hin
    cases hl : fetchstrLoop mem (sz.toNat - addr.toNat) addr with
    | none => simp [hl] at h
    | some len =>
      rw [hl] at h
      obtain ⟨hlt, hs⟩ := fetchstrLoop_eq_some.mp hl
      exact ⟨rfl, len, hs, inMemory_succ.mpr ⟨by omega, by omega⟩, h⟩

theorem fetchstr_of_fetched (pp : UInt64) (h : Fetched mem sz addr len) :
    0 ≤ (fetchstr mem sz addr pp).1 ∧ (fetchstr mem sz addr pp).2 = addr := by
  obtain ⟨hs, hmem, hint⟩ := h
  obtain ⟨hlo, hhi⟩ := inMemory_succ.mp hmem
  have hin : ¬(addr < UInt64.ofNat PGSIZE ∨ addr ≥ sz) := by
    rw [outside_iff]
    omega
  have hl : fetchstrLoop mem (sz.toNat - addr.toNat) addr = some len :=
    fetchstrLoop_eq_some.mpr ⟨by omega, hs⟩
  rw [fetchstr, if_neg hin, hl]
  exact ⟨hint, rfl⟩

end

/-! ## What the checks require -/

/-- `argptr` stores the register, for exactly the buffers in mapped memory (an empty buffer may be
refused). -/
def ArgptrRight (p : Proc φ) (n : Fin 6) (pp : UInt64) (size : UInt32) : Prop :=
  ((argptr p n pp size).1 = 0 →
    (argptr p n pp size).2 = argaddr p n ∧ InMemory p.sz (argaddr p n) (cint size)) ∧
  (0 < cint size → InMemory p.sz (argaddr p n) (cint size) →
    argptr p n pp size = (0, argaddr p n))

/-- A string that `r` accepts is at `addr`, in mapped memory. -/
def StringRight (mem : UInt64 → UInt8) (sz addr : UInt64) (r : Int × UInt64) : Prop :=
  0 ≤ r.1 → r.2 = addr ∧ ∃ len : Nat, StringAt mem addr len ∧ InMemory sz addr (len + 1)

/-- The functions that take a register or an address treat `i`, the register of argument `n`, as
they should. -/
structure AddressesRight (mem : UInt64 → UInt8) (p : Proc φ) (n : Fin 6) (pp : UInt64)
    (size : UInt32) : Prop where
  argptr : ArgptrRight p n pp size
  argstr : StringRight mem p.sz (argaddr p n) (argstr mem p n pp)
  fetchstr : StringRight mem p.sz (argaddr p n) (fetchstr mem p.sz (argaddr p n) pp)
  fetchint : fetchint mem p.sz (argaddr p n) ≠ none → InMemory p.sz (argaddr p n) 4
  fetchaddr : fetchaddr mem p.sz (argaddr p n) ≠ none → InMemory p.sz (argaddr p n) 8

/-- What the register must be like for that. -/
structure AddressesFit (mem : UInt64 → UInt8) (p : Proc φ) (n : Fin 6) (size : UInt32) : Prop where
  /-- The low half of the register is refused, or all of it is right. -/
  argptr : cint size ≤ 0 ∨ p.sz.toNat ≤ (argaddr p n).toNat % 2 ^ 32 ∨
    p.sz.toNat < ((argaddr p n).toNat % 2 ^ 32 + size.toNat) % 2 ^ 32 ∨
    InMemory p.sz (argaddr p n) (cint size)
  /-- The low half with its sign is the register, or there is no string there. -/
  argstr : ofInt32 (argint p n) = argaddr p n ∨
    ∀ len, ¬Fetched mem p.sz (ofInt32 (argint p n)) len
  fetchint : p.sz ≤ argaddr p n ∨ (argaddr p n).toNat + 4 < 2 ^ 64
  fetchaddr : p.sz ≤ argaddr p n ∨ (argaddr p n).toNat + 8 < 2 ^ 64

section
variable {mem : UInt64 → UInt8} {p : Proc φ} {n : Fin 6} {pp sz addr : UInt64} {size : UInt32}

theorem inMemory_pos {k : Int} (hk : 0 < k) :
    InMemory sz addr k ↔ PGSIZE ≤ addr.toNat ∧ addr.toNat + k ≤ sz.toNat := by
  obtain ⟨len, rfl⟩ : ∃ len : Nat, k = len + 1 := ⟨(k - 1).toNat, by omega⟩
  rw [inMemory_succ]
  omega

theorem argptr_eq : argptr p n pp size =
    if cint size < 0 ∨ p.sz.toNat ≤ (argaddr p n).toNat % 2 ^ 32 ∨
      p.sz.toNat < ((argaddr p n).toNat % 2 ^ 32 + size.toNat) % 2 ^ 32
    then (-1, pp) else (0, argaddr p n) := by
  have hlow : (argaddr p n).toUInt32.toNat = (argaddr p n).toNat % 2 ^ 32 := by simp
  simp only [argptr, UInt64.le_iff_toNat_le, UInt64.lt_iff_toNat_lt,
    UInt32.toNat_toUInt64, UInt32.toNat_add, hlow]

/-- What `argptr` refuses is not in memory. -/
theorem argptr_complete (hpos : 0 < cint size) (h : InMemory p.sz (argaddr p n) (cint size)) :
    argptr p n pp size = (0, argaddr p n) := by
  obtain ⟨hlo, hhi⟩ := (inMemory_pos hpos).mp h
  have hsize := cint_of_nonneg (Int.le_of_lt hpos)
  rw [argptr_eq, if_neg (by omega)]

theorem argptrRight_iff : ArgptrRight p n pp size ↔
    cint size ≤ 0 ∨ p.sz.toNat ≤ (argaddr p n).toNat % 2 ^ 32 ∨
      p.sz.toNat < ((argaddr p n).toNat % 2 ^ 32 + size.toNat) % 2 ^ 32 ∨
      InMemory p.sz (argaddr p n) (cint size) := by
  refine ⟨fun h => ?_, fun h => ⟨fun hok => ?_, argptr_complete⟩⟩
  · have hok := h.1
    rw [argptr_eq] at hok
    split at hok
    · omega
    · exact .inr (.inr (.inr (hok rfl).2))
  · rw [argptr_eq] at hok ⊢
    split at hok
    · exact absurd hok (by decide : (-1 : UInt64) ≠ 0)
    next hin =>
      rw [if_neg hin]
      refine ⟨rfl, ?_⟩
      rcases h with h | h | h | h
      · exact ⟨by omega, fun b _ _ => by omega⟩
      · omega
      · omega
      · exact h

/-- The sum in the test of `fetchint` and `fetchaddr` may wrap. -/
theorem fetch_iff (sz addr : UInt64) {len : UInt64} (hpos : 0 < len.toNat)
    (hlt : len.toNat < PGSIZE) :
    (¬unfetchable sz addr len → InMemory sz addr len.toNat) ↔
      sz ≤ addr ∨ addr.toNat + len.toNat < 2 ^ 64 := by
  have hsz := sz.toNat_lt
  simp only [PGSIZE] at hlt
  rw [inMemory_pos (by omega), unfetchable, ← or_assoc, outside_iff, gt_iff_lt,
    UInt64.lt_iff_toNat_lt, UInt64.le_iff_toNat_le, UInt64.toNat_add]
  simp only [PGSIZE]
  omega

theorem argstr_iff : StringRight mem p.sz (argaddr p n) (argstr mem p n pp) ↔
    ofInt32 (argint p n) = argaddr p n ∨
      ∀ len, ¬Fetched mem p.sz (ofInt32 (argint p n)) len := by
  constructor
  · intro h
    by_cases hf : ∃ len, Fetched mem p.sz (ofInt32 (argint p n)) len
    · obtain ⟨len, hf⟩ := hf
      obtain ⟨hret, hptr⟩ := fetchstr_of_fetched pp hf
      exact .inl (hptr.symm.trans (h hret).1)
    · exact .inr fun len hl => hf ⟨len, hl⟩
  · intro h hret
    obtain ⟨hptr, len, hf⟩ := fetchstr_nonneg hret
    rcases h with h | h
    · rw [h] at hf
      exact ⟨hptr.trans h, len, hf.1, hf.2.1⟩
    · exact absurd hf (h len)

end

/-- **Addresses from registers.** `argptr` and `argstr` treat a register as they should exactly when
the half of it that they look at tells them to, and the others unless the end of what they read is
past the last address. -/
theorem addressesRight_iff (mem : UInt64 → UInt8) (p : Proc φ) (n : Fin 6) (pp : UInt64)
    (size : UInt32) : AddressesRight mem p n pp size ↔ AddressesFit mem p n size := by
  have h4 : fetchint mem p.sz (argaddr p n) ≠ none ↔ ¬unfetchable p.sz (argaddr p n) 4 := by
    simp [fetchint]
  have h8 : fetchaddr mem p.sz (argaddr p n) ≠ none ↔ ¬unfetchable p.sz (argaddr p n) 8 := by
    simp [fetchaddr]
  have hint := fetch_iff p.sz (argaddr p n) (by decide : 0 < (4 : UInt64).toNat) (by decide)
  have haddr := fetch_iff p.sz (argaddr p n) (by decide : 0 < (8 : UInt64).toNat) (by decide)
  rw [← h4] at hint
  rw [← h8] at haddr
  constructor
  · intro h
    exact ⟨argptrRight_iff.mp h.argptr, argstr_iff.mp h.argstr, hint.mp h.fetchint,
      haddr.mp h.fetchaddr⟩
  · intro h
    refine ⟨argptrRight_iff.mpr h.argptr, argstr_iff.mpr h.argstr, fun hret => ?_,
      hint.mpr h.fetchint, haddr.mpr h.fetchaddr⟩
    obtain ⟨hptr, len, hf⟩ := fetchstr_nonneg hret
    exact ⟨hptr, len, hf.1, hf.2.1⟩

/-- A process of two pages that passes an address beyond the first four gigabytes. -/
def beyond : Proc Unit where
  sz := 8192
  tf := ⟨0x100001000, 0, 0, 0, 0, 0⟩
  ofile := fun _ => none

/-- `argptr` accepts the address because of its low half. -/
theorem argptr_beyond : ¬AddressesRight (fun _ => 0) beyond 0 0 8 := by
  intro h
  have hmem := (h.argptr.1 rfl).2
  obtain ⟨-, hhi⟩ := (inMemory_pos (by decide)).mp hmem
  exact absurd hhi (by decide)

end Xv6.Syscall
