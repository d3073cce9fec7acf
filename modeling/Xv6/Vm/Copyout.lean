import Xv6.Lib.Writes
import Xv6.Vm.Exec
import Xv6.Vm.Ram

/-!
# Copying to user memory

`copyout` writes one piece for each page. `uva2ka` takes for granted that there is a page table for
the address; where there is none, the kernel faults. Apart from that, `copyout` returns 0 if all pages
are user pages, and then the bytes are written.
-/

namespace Xv6.Vm

open List

/-- The `i`-th address from `va` on. -/
def addr (va i : Nat) : Nat := (va + i) % 2 ^ 64

/-- Whether the page at an address is present and a user page. -/
def userAt (s : Mem) (pgdir a : Nat) : Bool := (pteOf s pgdir a).any fun e => e.p && e.u

/-- The page and the offset of the byte at an address. -/
def spot (s : Mem) (pgdir a : Nat) : Nat × Nat := (((pteOf s pgdir a).map Pte.ppn).getD 0, a % PGSIZE)

/-- The byte at an address. -/
def peek (s : Ram) (pgdir a : Nat) : UInt8 := s.data (spot s.mem pgdir a)

/-- There is a page table for each address before which all pages are user pages. -/
def NoHole (s : Mem) (pgdir va len : Nat) : Prop :=
  ∀ i < len, (∀ j < i, userAt s pgdir (addr va j) = true) → pteOf s pgdir (addr va i) ≠ none

/-- Where two addresses are the same byte of memory, the bytes for them are the same. -/
def Agrees (s : Mem) (pgdir va : Nat) (src : List UInt8) : Prop :=
  ∀ i j (hi : i < src.length) (hj : j < src.length),
    spot s pgdir (addr va i) = spot s pgdir (addr va j) → src[i] = src[j]

/-- `copyout` returns 0 if all pages are user pages, and -1 otherwise. If it returns 0, the bytes are
what was copied, and nothing else has changed. -/
def CopiesOut (s : Ram) (pgdir va : Nat) (src : List UInt8) : Prop :=
  ∃ x t, Ram.copyout pgdir va src s = .ok (x, t) ∧
    (x = 0 ↔ ∀ i < src.length, userAt s.mem pgdir (addr va i) = true) ∧ (x ≠ 0 → x = -1) ∧
    (x = 0 → t.mem = s.mem ∧ (∀ i (hi : i < src.length), peek t pgdir (addr va i) = src[i]) ∧
      ∀ y, (∀ i < src.length, spot s.mem pgdir (addr va i) ≠ y) → t.data y = s.data y)

section
variable {s : Ram} {m : Mem} {d va a b f o turns : Nat} {src : List UInt8}
variable {data : Nat × Nat → UInt8}

theorem put_eq_applyWrites :
    Ram.put data f o src = applyWrites data (src.mapIdx fun i b => ((f, o + i), b)) := by
  induction src generalizing data o with
  | nil =>
    funext x
    simp [Ram.put]
  | cons b src ih =>
    rw [mapIdx_cons, applyWrites_cons]
    have hshift : (fun i c => ((f, o + (i + 1)), c)) = fun i (c : UInt8) => ((f, o + 1 + i), c) := by
      funext i c
      rw [Nat.add_comm i 1, Nat.add_assoc]
    rw [hshift, ← ih]
    funext x
    obtain ⟨g, k⟩ := x
    simp only [Ram.put, Nat.add_zero]
    by_cases hg : g = f
    · subst hg
      rcases Nat.lt_trichotomy k o with hlt | rfl | hgt
      · rw [if_neg (by omega), if_neg (by omega), update_of_ne]
        exact fun heq => by simp only [Prod.mk.injEq] at heq; omega
      · rw [if_pos ⟨rfl, Nat.le_refl _⟩, if_neg (by omega), update_self, Nat.sub_self]
        rfl
      · rw [if_pos ⟨rfl, hgt.le⟩, if_pos ⟨rfl, hgt⟩, update_of_ne]
        · rw [show k - o = (k - (o + 1)) + 1 by omega, getD_cons_succ]
        · exact fun heq => by simp only [Prod.mk.injEq] at heq; omega
    · rw [if_neg fun h => hg h.1, if_neg fun h => hg h.1, update_of_ne]
      exact fun heq => hg (congrArg Prod.fst heq)

theorem pteOf_congr (h : a / PGSIZE = b / PGSIZE) : pteOf m d a = pteOf m d b := by
  rw [pteOf, pteOf, PGROUNDDOWN, PGROUNDDOWN, h]

theorem wp_uva2ka_pteOf {E : Fault → Prop} {Q : Option Nat → Mem → Prop}
    (hnone : pteOf m d va = none → E (.panic "trap"))
    (hsome : ∀ e, pteOf m d va = some e →
      Q (if e.p = true ∧ e.u = true then some e.ppn else none) m) :
    (uva2ka d (PGROUNDDOWN va)).wp E Q m := by
  have hwalk : (walkpgdir d (PGROUNDDOWN va) false).wp (fun _ => False) _ m := wp_walkpgdir_false
  obtain ⟨o, _, hwalk, rfl⟩ := exists_of_wp hwalk
  rw [pteOf, hwalk] at hnone hsome
  rw [uva2ka, wp_bind, wp_of_eq_ok hwalk]
  cases o with
  | none => exact hnone rfl
  | some x =>
    rw [wp_bind]
    refine wp_entry ?_
    have hQ := hsome _ rfl
    split
    next hpu =>
      rw [if_pos hpu] at hQ
      exact hQ
    next hpu =>
      rw [if_neg hpu] at hQ
      exact hQ

/-! ## The bytes -/

/-- The bytes that `copyout` writes, one after the other. -/
def pokes (m : Mem) (d va : Nat) (src : List UInt8) : List ((Nat × Nat) × UInt8) :=
  src.mapIdx fun i b => (spot m d (addr va i), b)

theorem pokes_append {src' : List UInt8} (hva : addr va src.length = a) :
    pokes m d va (src ++ src') = pokes m d va src ++ pokes m d a src' := by
  have haddr : ∀ i, addr va (i + src.length) = addr a i := by
    intro i
    rw [← hva]
    simp only [addr]
    omega
  simp only [pokes, mapIdx_append, haddr]

theorem addr_of_page (hva : va < 2 ^ 64) {i : Nat} (hi : i < PGSIZE - (va - PGROUNDDOWN va)) :
    addr va i = va + i ∧ (va + i) / PGSIZE = va / PGSIZE ∧
      (va + i) % PGSIZE = va - PGROUNDDOWN va + i := by
  simp only [addr, PGROUNDDOWN, PGSIZE] at *
  omega

theorem addr_next :
    addr va (PGSIZE - (va - PGROUNDDOWN va)) = (PGROUNDDOWN va + PGSIZE) % 2 ^ 64 := by
  simp only [addr, PGROUNDDOWN, PGSIZE]
  omega

theorem put_page {e : Pte} (hva : va < 2 ^ 64) (he : pteOf m d va = some e)
    (hlen : src.length ≤ PGSIZE - (va - PGROUNDDOWN va)) :
    Ram.put data e.ppn (va - PGROUNDDOWN va) src = applyWrites data (pokes m d va src) := by
  rw [put_eq_applyWrites, pokes]
  congr 1
  refine ext_getElem (by simp) fun i hi _ => ?_
  rw [length_mapIdx] at hi
  obtain ⟨haddr, hpage, hoff⟩ := addr_of_page hva (hi.trans_le hlen)
  simp only [getElem_mapIdx, spot, haddr, hoff, pteOf_congr hpage, he, Option.map_some,
    Option.getD_some]

/-- How far the user pages go. -/
theorem wp_outLoop (hturns : src.length ≤ turns) (hva : va < 2 ^ 64) :
    (Ram.outLoop d turns va src).wp
      (fun e => e.1 = .panic "trap" ∧ ∃ i < src.length,
        (∀ j < i, userAt s.mem d (addr va j) = true) ∧ pteOf s.mem d (addr va i) = none)
      (fun x t => t.mem = s.mem ∧
        (x = 0 ∧ (∀ i < src.length, userAt s.mem d (addr va i) = true) ∧
            t.data = applyWrites s.data (pokes s.mem d va src) ∨
          x = -1 ∧ ∃ i < src.length, (∀ j < i, userAt s.mem d (addr va j) = true) ∧
            pteOf s.mem d (addr va i) ≠ none ∧ ¬userAt s.mem d (addr va i) = true)) s := by
  induction turns generalizing s va src with
  | zero =>
    obtain rfl := eq_nil_of_length_eq_zero (Nat.le_zero.mp hturns)
    exact ⟨rfl, .inl ⟨rfl, fun i hi => absurd hi i.not_lt_zero, rfl⟩⟩
  | succ turns ih =>
    rw [Ram.outLoop]
    split
    next hlen =>
      obtain rfl := eq_nil_of_length_eq_zero hlen
      exact ⟨rfl, .inl ⟨rfl, fun i hi => absurd hi i.not_lt_zero, rfl⟩⟩
    next hlen =>
    have hpos : 0 < src.length := Nat.pos_of_ne_zero hlen
    have hzero : addr va 0 = va := Nat.mod_eq_of_lt hva
    rw [wp_bind, Ram.inMem, Prog.wp_within]
    have hfirst : ∀ j < 0, userAt s.mem d (addr va j) = true := fun j hj => absurd hj j.not_lt_zero
    refine wp_uva2ka_pteOf (fun hnone => ⟨rfl, 0, hpos, hfirst, ?_⟩) fun e he => ?_
    · rw [hzero, hnone]
    by_cases hpu : e.p = true ∧ e.u = true
    swap
    · rw [if_neg hpu]
      refine ⟨rfl, .inr ⟨rfl, 0, hpos, hfirst, ?_, ?_⟩⟩
      · rw [hzero, he]
        exact Option.some_ne_none _
      · rw [hzero, userAt, he]
        simpa using hpu
    rw [if_pos hpu]
    have huser : ∀ i < PGSIZE - (va - PGROUNDDOWN va), userAt s.mem d (addr va i) = true := by
      intro i hi
      obtain ⟨haddr, hpage, -⟩ := addr_of_page hva hi
      rw [haddr, userAt, pteOf_congr hpage, he]
      simpa using hpu
    dsimp only
    rw [wp_bind, Ram.store, wp_modify]
    rcases Nat.lt_or_ge (PGSIZE - (va - PGROUNDDOWN va)) src.length with hlt | hge
    · -- the bytes after those of this page
      have hone : 1 ≤ PGSIZE - (va - PGROUNDDOWN va) := by
        simp only [PGROUNDDOWN, PGSIZE]
        omega
      have htake : (src.take (PGSIZE - (va - PGROUNDDOWN va))).length =
          PGSIZE - (va - PGROUNDDOWN va) := length_take_of_le hlt.le
      have hpokes : pokes s.mem d va (src.take (PGSIZE - (va - PGROUNDDOWN va)) ++
          src.drop (PGSIZE - (va - PGROUNDDOWN va))) = _ := pokes_append (by rw [htake, addr_next])
      rw [take_append_drop] at hpokes
      have haddr : ∀ i, addr ((PGROUNDDOWN va + PGSIZE) % 2 ^ 64) i =
          addr va (PGSIZE - (va - PGROUNDDOWN va) + i) := by
        intro i
        simp only [addr, PGROUNDDOWN, PGSIZE]
        omega
      rw [Nat.min_eq_left hlt.le, put_page hva he (by rw [htake])]
      generalize PGSIZE - (va - PGROUNDDOWN va) = n at *
      have hall : ∀ i, (∀ j < i, userAt s.mem d (addr va (n + j)) = true) →
          ∀ j < n + i, userAt s.mem d (addr va j) = true := by
        intro i hi j hj
        rcases Nat.lt_or_ge j n with hjn | hjn
        · exact huser j hjn
        · rw [← Nat.add_sub_cancel' hjn]
          exact hi _ (by omega)
      refine wp_mono (ih (by rw [length_drop]; omega) (Nat.mod_lt _ (by decide))) ?_ ?_
      · rintro e ⟨he, i, hi, hj, hnone⟩
        rw [length_drop] at hi
        simp only [haddr] at hj hnone
        exact ⟨he, n + i, by omega, hall i hj, hnone⟩
      · rintro x t ⟨hmem, ht⟩
        simp only [haddr, length_drop] at ht
        rcases ht with ⟨hx, hi, hdata⟩ | ⟨hx, i, hi, hj, hi'⟩
        · refine ⟨hmem, .inl ⟨hx, ?_, ?_⟩⟩
          · have := hall (src.length - n) hi
            rwa [Nat.add_sub_cancel' hlt.le] at this
          · rw [hdata, hpokes, applyWrites_append]
        · exact ⟨hmem, .inr ⟨hx, n + i, by omega, hall i hj, hi'⟩⟩
    · -- there are none
      rw [Nat.min_eq_right hge, take_length, drop_length, put_page hva he hge]
      have hnil : ∀ {turns a s}, (Ram.outLoop d turns a []) s = .ok (0, s) := by
        intro turns a s
        cases turns <;> rfl
      rw [wp_of_eq_ok hnil]
      exact ⟨rfl, .inl ⟨rfl, fun i hi => huser i (by omega), rfl⟩⟩

theorem mem_pokes {x : (Nat × Nat) × UInt8} : x ∈ pokes m d va src ↔
    ∃ (i : Nat) (hi : i < src.length), (spot m d (addr va i), src[i]) = x := by
  rw [pokes, mem_mapIdx]

/-- If the bytes agree, each is where it was written last. -/
theorem applyWrites_pokes {i : Nat} (h : Agrees m d va src) (hi : i < src.length) :
    applyWrites data (pokes m d va src) (spot m d (addr va i)) = src[i] := by
  refine applyWrites_of_agree (mem_pokes.mpr ⟨i, hi, rfl⟩) fun b hb => ?_
  obtain ⟨j, hj, heq⟩ := mem_pokes.mp hb
  obtain ⟨hspot, rfl⟩ := Prod.mk.inj heq
  exact h j i hj hi hspot

end

/-- **`copyout`.** For every page table, address and bytes, `copyout` does what it is to do if and
only if there is a page table for the first page that is not a user page, and the bytes agree if all
pages are user pages. -/
theorem copiesOut_iff (s : Ram) (pgdir : Nat) (va : UInt64) (src : List UInt8) :
    CopiesOut s pgdir va.toNat src ↔ NoHole s.mem pgdir va.toNat src.length ∧
      ((∀ i < src.length, userAt s.mem pgdir (addr va.toNat i) = true) →
        Agrees s.mem pgdir va.toNat src) := by
  have hwp : (Ram.copyout pgdir va.toNat src).wp _ _ s :=
    wp_outLoop (d := pgdir) (Nat.le_refl src.length) va.toNat_lt
  generalize va.toNat = va at hwp ⊢
  have hpte {i : Nat} (hu : userAt s.mem pgdir (addr va i) = true) :
      pteOf s.mem pgdir (addr va i) ≠ none := by
    intro hnone
    rw [userAt, hnone] at hu
    cases hu
  constructor
  · rintro ⟨x, t, hrun, -, -, hbytes⟩
    obtain ⟨hmem, ⟨rfl, huser, -⟩ | ⟨-, i, hi, hbefore, hsome, hnot⟩⟩ := wp_ok hwp hrun
    · refine ⟨fun i hi _ => hpte (huser i hi), fun _ i j hi hj hspot => ?_⟩
      obtain ⟨-, hpeek, -⟩ := hbytes rfl
      have hsame : peek t pgdir (addr va i) = peek t pgdir (addr va j) := by
        rw [peek, peek, hmem, hspot]
      rw [← hpeek i hi, ← hpeek j hj, hsame]
    · refine ⟨fun j hj hall => ?_, fun huser => absurd (huser i hi) hnot⟩
      rcases Nat.lt_trichotomy j i with hlt | rfl | hgt
      · exact hpte (hbefore j hlt)
      · exact hsome
      · exact absurd (hall i hgt) hnot
  · rintro ⟨hhole, hagrees⟩
    cases hrun : Ram.copyout pgdir va src s with
    | error e =>
      rw [Prog.wp, hrun] at hwp
      obtain ⟨-, i, hi, hall, hnone⟩ := hwp
      exact absurd hnone (hhole i hi hall)
    | ok r =>
      obtain ⟨x, t⟩ := r
      refine ⟨x, t, hrun, ?_⟩
      obtain ⟨hmem, ⟨rfl, huser, hdata⟩ | ⟨rfl, i, hi, -, -, hnot⟩⟩ := wp_ok hwp hrun
      · refine ⟨iff_of_true rfl huser, absurd rfl, fun _ => ⟨hmem, fun i hi => ?_, fun y hy => ?_⟩⟩
        · rw [peek, hmem, hdata, applyWrites_pokes (hagrees huser) hi]
        · rw [hdata, applyWrites_of_not_mem]
          intro hmem
          obtain ⟨w, hw, rfl⟩ := mem_map.mp hmem
          obtain ⟨i, hi, rfl⟩ := mem_pokes.mp hw
          exact hy i hi rfl
      · refine ⟨iff_of_false (by decide) fun huser => hnot (huser i hi), fun _ => rfl, ?_⟩
        exact fun h => absurd h (by decide)

/-- A process with one page. -/
def onePage : RamM (Option Nat) := do
  match ← Ram.setupkvm with
  | none => pure none
  | some d => do
    let _ ← Ram.allocuvm d PGSIZE (2 * PGSIZE)
    pure (some d)

/-- The last `n` pages of memory are free. -/
def lastPages (n : Nat) : Ram :=
  let first := PHYSTOP / PGSIZE - n
  ⟨⟨first, List.range' first n, fun _ _ => .zero, 0⟩, fun _ => 0, [], []⟩

/-- There is no page table for the address `2 ^ 39`. -/
theorem copyout_faults : ∃ d s t, onePage (lastPages 10) = .ok (some d, s) ∧
    Ram.copyout d (2 ^ 39) [1] s = .error (.panic "trap", t) ∧ ¬CopiesOut s d (2 ^ 39) [1] := by
  obtain ⟨⟨_, s⟩, hone, d, rfl, ⟨_, t⟩, hout, rfl⟩ : ∃ x, onePage (lastPages 10) = .ok x ∧
      ∃ d ∈ x.1, ∃ e, Ram.copyout d (2 ^ 39) [1] x.2 = .error e ∧ e.1 = .panic "trap" := by
    decide +kernel
  refine ⟨d, s, t, hone, hout, ?_⟩
  rintro ⟨x, u, hrun, -⟩
  rw [hout] at hrun
  cases hrun

end Xv6.Vm
