import Xv6.Lib.Ring
import Xv6.Lib.Run

/-!
# Console input

The buffer of `console.c` between `consoleintr`, which stores and edits characters, and
`consoleread`. Three wrapping indices divide it: readers have taken the characters before `r`, those
up to `w` are committed, and those up to `e` may still be edited. What is echoed on the screen is
left out.

`Line` is what the buffer stands for: all input that was committed so far, and the line that is being
edited. `Holds` connects the two.
-/

namespace Xv6.Console

open List

@[simp] def INPUT_BUF : Nat := 128

instance : NeZero INPUT_BUF := ⟨by decide⟩

/-- `C(x)`: the character for Control and `x`. -/
def C (x : Char) : UInt8 := UInt8.ofNat x.toNat - UInt8.ofNat '@'.toNat

/-- `'\n'` -/
def newline : UInt8 := 10

/-- `'\r'` -/
def carriageReturn : UInt8 := 13

/-- `'\x7f'` -/
def delete : UInt8 := 0x7f

/-- `input`, without its lock. -/
structure Input where
  buf : Fin INPUT_BUF → UInt8
  r : UInt32
  w : UInt32
  e : UInt32

/-- The loop for `C('U')`, which makes at most `e - w` turns. -/
def killLoop : (turns : Nat) → Input → Input
  | 0, i => i
  | turns + 1, i =>
    if i.e ≠ i.w ∧ i.buf (ringSlot _ (i.e - 1)) ≠ newline then
      killLoop turns { i with e := i.e - 1 }
    else i

/-- A character that `consoleintr` gets, and whether it wakes the readers. -/
def key (i : Input) (c : UInt8) : Input × Bool :=
  if c = C 'Z' ∨ c = C 'P' then (i, false)
  else if c = C 'U' then (killLoop (i.e - i.w).toNat i, false)
  else if c = C 'H' ∨ c = delete then (if i.e ≠ i.w then { i with e := i.e - 1 } else i, false)
  else if c ≠ 0 ∧ i.e - i.r < UInt32.ofNat INPUT_BUF then
    let c := if c = carriageReturn then newline else c
    let i := { i with buf := Function.update i.buf (ringSlot _ i.e) c, e := i.e + 1 }
    if c = newline ∨ c = C 'D' ∨ i.e = i.r + UInt32.ofNat INPUT_BUF then
      ({ i with w := i.e }, true)
    else (i, false)
  else (i, false)

/-- The characters that `getc` has for one interrupt. -/
def consoleintr (i : Input) : List UInt8 → Input × Bool
  | [] => (i, false)
  | c :: cs =>
    let (i', wakes) := key i c
    let (i'', wakes') := consoleintr i' cs
    (i'', wakes || wakes')

inductive Ending
  | returns (r : Int)
  /-- `sleep(&input.r, &input.lock)`, with `n` bytes left to read. -/
  | sleeps (n : Nat)
  deriving DecidableEq

/-- What a stretch of `consoleread` under the lock does: the bytes it stores, whether it takes a
`C('D')`, and how it ends. -/
structure Stretch where
  input : Input
  bytes : List UInt8
  eof : Bool
  ending : Ending

/-- The loop of `consoleread`, from taking the lock to the next `sleep` or to the return. -/
def readLoop (killed : Bool) (target : Nat) : (n : Nat) → Input → Stretch
  | 0, i => ⟨i, [], false, .returns target⟩
  | n + 1, i =>
    if i.r = i.w then ⟨i, [], false, if killed then .returns (-1) else .sleeps (n + 1)⟩
    else
      let c := i.buf (ringSlot _ i.r)
      let i := { i with r := i.r + 1 }
      if c = C 'D' then
        if n + 1 < target then
          -- save it for the next call
          ⟨{ i with r := i.r - 1 }, [], false, .returns (target - (n + 1 : Nat))⟩
        else ⟨i, [], true, .returns (target - (n + 1 : Nat))⟩
      else if c = newline then ⟨i, [c], false, .returns (target - n)⟩
      else
        let s := readLoop killed target n i
        { s with bytes := c :: s.bytes }

/-! ## The line discipline -/

/-- The input committed so far, and the line that is being edited. -/
structure Line where
  committed : List UInt8
  edit : List UInt8

/-- A character arrives when readers have taken the first `taken` characters. -/
def Line.key (l : Line) (taken : Nat) (c : UInt8) : Line :=
  if c = C 'Z' ∨ c = C 'P' then l
  else if c = C 'U' then { l with edit := [] }
  else if c = C 'H' ∨ c = delete then { l with edit := l.edit.dropLast }
  else if c ≠ 0 ∧ l.committed.length + l.edit.length < taken + INPUT_BUF then
    let c := if c = carriageReturn then newline else c
    let edit := l.edit ++ [c]
    if c = newline ∨ c = C 'D' ∨ l.committed.length + edit.length = taken + INPUT_BUF then
      ⟨l.committed ++ edit, []⟩
    else { l with edit }
  else l

/-- The buffer holds what was committed and not yet taken, and the line. -/
structure Holds (i : Input) (l : Line) (taken : Nat) : Prop where
  r : i.r = UInt32.ofNat taken
  w : i.w = UInt32.ofNat l.committed.length
  e : i.e = UInt32.ofNat (l.committed.length + l.edit.length)
  le : taken ≤ l.committed.length
  size : l.committed.length + l.edit.length ≤ taken + INPUT_BUF
  ring : RingHolds i.buf (l.committed ++ l.edit) taken (l.committed.length + l.edit.length)
  line : newline ∉ l.edit

theorem ofNat_sub_one {a : Nat} : UInt32.ofNat (a + 1) - 1 = UInt32.ofNat a := by
  rw [← ofNat_add_one, UInt32.add_sub_cancel]

theorem ofNat_eq_ofNat_iff {a b : Nat} (h : b ≤ a) (hlt : a - b < 2 ^ 32) :
    UInt32.ofNat a = UInt32.ofNat b ↔ a = b := by
  refine ⟨fun heq => ?_, fun heq => heq ▸ rfl⟩
  have := toNat_ofNat_sub h hlt
  rw [heq, UInt32.sub_self] at this
  have h0 : (0 : UInt32).toNat = 0 := rfl
  omega

namespace Holds

variable {i : Input} {l : Line} {taken : Nat} {c : UInt8}

theorem start (buf : Fin INPUT_BUF → UInt8) : Holds ⟨buf, 0, 0, 0⟩ ⟨[], []⟩ 0 where
  r := rfl
  w := rfl
  e := rfl
  le := Nat.le_refl _
  size := Nat.zero_le _
  ring := fun k _ hk => absurd hk (Nat.not_lt_zero k)
  line := not_mem_nil

theorem sub_r (h : Holds i l taken) :
    (i.e - i.r).toNat = l.committed.length + l.edit.length - taken ∧
      (i.w - i.r).toNat = l.committed.length - taken := by
  have hle := h.le
  have hsize := h.size
  simp only [INPUT_BUF] at hsize
  rw [h.e, h.w, h.r, toNat_ofNat_sub (by omega) (by omega), toNat_ofNat_sub hle (by omega)]
  exact ⟨rfl, rfl⟩

theorem sub_w (h : Holds i l taken) : (i.e - i.w).toNat = l.edit.length := by
  have hle := h.le
  have hsize := h.size
  simp only [INPUT_BUF] at hsize
  rw [h.e, h.w, toNat_ofNat_sub (Nat.le_add_right ..) (by omega)]
  exact Nat.add_sub_cancel_left ..

theorem e_eq_w (h : Holds i l taken) : i.e = i.w ↔ l.edit = [] := by
  have hle := h.le
  have hsize := h.size
  simp only [INPUT_BUF] at hsize
  rw [h.e, h.w, ofNat_eq_ofNat_iff (Nat.le_add_right ..) (by omega), ← length_eq_zero_iff]
  omega

theorem r_eq_w (h : Holds i l taken) : i.r = i.w ↔ taken = l.committed.length := by
  have hle := h.le
  have hsize := h.size
  simp only [INPUT_BUF] at hsize
  rw [h.r, h.w, eq_comm, ofNat_eq_ofNat_iff hle (by omega), eq_comm]

/-! ## Editing -/

theorem last (h : Holds i l taken) {es : List UInt8} (hl : l.edit = es ++ [c]) :
    i.buf (ringSlot _ (i.e - 1)) = c := by
  have hlen : l.edit.length = es.length + 1 := by rw [hl, length_append]; rfl
  have hget := h.ring (l.committed.length + es.length) (by have := h.le; omega) (by omega)
  rw [h.e, hlen, ← Nat.add_assoc, ofNat_sub_one, ringSlot_ofNat (by decide)]
  rw [hl, ← append_assoc, ← length_append, List.getElem?_concat_length,
    Option.some.injEq, length_append] at hget
  exact hget.symm

theorem pop (h : Holds i l taken) {es : List UInt8} (hl : l.edit = es ++ [c]) :
    Holds { i with e := i.e - 1 } { l with edit := es } taken := by
  have hlen : l.edit.length = es.length + 1 := by rw [hl, length_append]; rfl
  have hsize := h.size
  refine ⟨h.r, h.w, ?_, h.le, ?_, fun k hk hlt => ?_, fun hmem => h.line ?_⟩
  · rw [h.e, hlen, ← Nat.add_assoc, ofNat_sub_one]
  · dsimp only
    omega
  · dsimp only at hlt
    have hget := h.ring k hk (by omega)
    rw [hl, ← append_assoc, List.getElem?_append_left (by rw [length_append]; omega)] at hget
    exact hget
  · rw [hl]
    exact mem_append_left _ hmem

theorem kill (h : Holds i l taken) {turns : Nat} (hturns : turns = l.edit.length) :
    Holds (killLoop turns i) { l with edit := [] } taken := by
  induction turns generalizing i l with
  | zero =>
    have : l.edit = [] := length_eq_zero_iff.mp hturns.symm
    rw [← this]
    exact h
  | succ turns ih =>
    have hne : l.edit ≠ [] := fun hnil => by simp [hnil] at hturns
    obtain ⟨es, c, hl⟩ := (eq_nil_or_concat' l.edit).resolve_left hne
    have hlast := h.last hl
    have hc : c ≠ newline := fun heq => h.line (by rw [hl, heq]; simp)
    rw [killLoop, if_pos ⟨mt h.e_eq_w.mp hne, by rwa [hlast]⟩]
    refine ih (l := { l with edit := es }) (h.pop hl) ?_
    rw [hl, length_append] at hturns
    exact Nat.succ.inj hturns

theorem put (h : Holds i l taken) (hlt : l.committed.length + l.edit.length < taken + INPUT_BUF) :
    RingHolds (Function.update i.buf (ringSlot _ i.e) c) (l.committed ++ (l.edit ++ [c])) taken
      (l.committed.length + (l.edit.length + 1)) := by
  have hslot : ringSlot INPUT_BUF i.e = Fin.ofNat _ (l.committed ++ l.edit).length := by
    rw [h.e, ringSlot_ofNat (by decide), length_append]
  have hring := h.ring
  rw [← length_append] at hring hlt
  have := hring.push c (Nat.le_refl taken) hlt
  rwa [hslot, ← append_assoc, ← Nat.add_assoc, ← length_append]

theorem key (h : Holds i l taken) (c : UInt8) : Holds (key i c).1 (l.key taken c) taken := by
  have hle := h.le
  unfold Console.key Line.key
  split
  · exact h
  split
  · exact h.kill h.sub_w
  split
  · split
    next hne =>
      have hne := mt h.e_eq_w.mpr hne
      obtain ⟨es, d, hl⟩ := (eq_nil_or_concat' l.edit).resolve_left hne
      rw [hl, dropLast_concat]
      exact h.pop hl
    next heq =>
      rw [not_not, h.e_eq_w] at heq
      rw [heq, dropLast_nil, ← heq]
      exact h
  have hroom : i.e - i.r < UInt32.ofNat INPUT_BUF ↔
      l.committed.length + l.edit.length < taken + INPUT_BUF := by
    have h128 : (UInt32.ofNat INPUT_BUF).toNat = INPUT_BUF := rfl
    rw [UInt32.lt_iff_toNat_lt, h.sub_r.1]
    omega
  simp only [hroom]
  split
  next hput =>
    generalize (if c = carriageReturn then newline else c) = d
    have hfull : i.e + 1 = i.r + UInt32.ofNat INPUT_BUF ↔
        l.committed.length + (l.edit.length + 1) = taken + INPUT_BUF := by
      rw [h.e, h.r, ofNat_add_one, ← UInt32.ofNat_add]
      refine ⟨fun heq => ?_, fun heq => ?_⟩
      · have := (ofNat_eq_ofNat_iff (a := taken + INPUT_BUF)
          (b := l.committed.length + l.edit.length + 1) hput.2 (by simp only [INPUT_BUF]; omega)).mp
            heq.symm
        omega
      · rw [← heq, Nat.add_assoc]
    have hlen : (l.edit ++ [d]).length = l.edit.length + 1 := by rw [length_append]; rfl
    simp only [hlen, hfull]
    have he : i.e + 1 = UInt32.ofNat (l.committed.length + (l.edit.length + 1)) := by
      rw [h.e, ofNat_add_one, Nat.add_assoc]
    split
    next =>
      refine ⟨h.r, ?_, ?_, ?_, ?_, ?_, not_mem_nil⟩
      all_goals dsimp only
      all_goals simp only [length_append, length_cons, length_nil, append_nil]
      · exact he
      · exact he
      · omega
      · omega
      · exact h.put hput.2
    next hopen =>
      refine ⟨h.r, h.w, ?_, hle, ?_, ?_, ?_⟩
      · rw [hlen]
        exact he
      · dsimp only
        omega
      · rw [hlen]
        exact h.put hput.2
      · rw [mem_append, mem_singleton]
        exact fun hmem => hmem.elim h.line fun heq => hopen (.inl heq.symm)
  next => exact h

end Holds

theorem Line.committed_key (l : Line) (taken : Nat) (c : UInt8) :
    l.committed <+: (l.key taken c).committed := by
  unfold Line.key
  split
  · exact prefix_rfl
  split
  · exact prefix_rfl
  split
  · exact prefix_rfl
  split
  · dsimp only
    generalize (if c = carriageReturn then newline else c) = d
    split
    · exact prefix_append ..
    · exact prefix_rfl
  · exact prefix_rfl

/-! ## Reading -/

/-- The characters that a stretch takes, without the value of a `C('D')`. -/
def Stretch.entries (s : Stretch) : List (Option UInt8) :=
  s.bytes.map some ++ if s.eof then [none] else []

section
variable {i : Input} {l : Line} {target taken n : Nat}

theorem Holds.readLoop (h : Holds i l taken) (killed : Bool) (target n : Nat) :
    let s := readLoop killed target n i
    Holds s.input l (taken + s.entries.length) ∧
      s.entries.map (·.getD (C 'D')) = (l.committed.drop taken).take s.entries.length := by
  induction n generalizing i taken with
  | zero => exact ⟨h, rfl⟩
  | succ n ih =>
    have hle := h.le
    rw [Console.readLoop]
    by_cases hempty : i.r = i.w
    · rw [if_pos hempty]
      exact ⟨h, rfl⟩
    rw [if_neg hempty]
    rw [h.r_eq_w] at hempty
    have hlt : taken < l.committed.length := by omega
    have hget : i.buf (ringSlot _ i.r) = l.committed[taken] := by
      have := h.ring taken (Nat.le_refl _) (by omega)
      rw [List.getElem?_append_left hlt, List.getElem?_eq_getElem hlt, Option.some.injEq] at this
      rw [h.r, ringSlot_ofNat (by decide), this]
    have hnext : Holds { i with r := i.r + 1 } l (taken + 1) :=
      ⟨by rw [h.r, ofNat_add_one], h.w, h.e, hlt, by have := h.size; omega,
        h.ring.mono (Nat.le_succ _), h.line⟩
    have hdrop := drop_eq_getElem_cons hlt
    dsimp only
    split
    next hD =>
      split
      · refine ⟨?_, rfl⟩
        rw [UInt32.add_sub_cancel]
        exact h
      · refine ⟨hnext, ?_⟩
        rw [hdrop, ← hget, hD]
        rfl
    split
    next hD hnl =>
      refine ⟨hnext, ?_⟩
      rw [hdrop, ← hget]
      rfl
    next hD hnl =>
      obtain ⟨hh, hs⟩ := ih hnext
      refine ⟨?_, ?_⟩
      · rw [Nat.add_assoc, Nat.add_comm 1] at hh
        exact hh
      · rw [hdrop, ← hget]
        exact congrArg (_ :: ·) hs

/-- A `C('D')` is not stored; it is taken by a call that has no bytes. A newline ends the call. -/
theorem readLoop_ending (i : Input) (htarget : 0 < target) (hn : n ≤ target) :
    let s := readLoop false target n i
    C 'D' ∉ s.bytes ∧
    match s.ending with
    | .sleeps m => s.eof = false ∧ newline ∉ s.bytes ∧ 0 < m ∧ m + s.bytes.length = n
    | .returns r => newline ∉ s.bytes.dropLast ∧
      if s.eof then r = 0 ∧ n = target ∧ s.bytes = []
      else r = (target - n + s.bytes.length : Nat) ∧ 0 < r := by
  induction n generalizing i with
  | zero =>
    refine ⟨not_mem_nil, not_mem_nil, ?_, ?_⟩
    · rfl
    · exact_mod_cast htarget
  | succ n ih =>
    rw [readLoop]
    split
    · exact ⟨not_mem_nil, rfl, not_mem_nil, Nat.succ_pos n, rfl⟩
    dsimp only
    split
    next hD =>
      split
      next hlt =>
        refine ⟨not_mem_nil, not_mem_nil, ?_⟩
        rw [if_neg Bool.false_ne_true]
        simp only [length_nil]
        omega
      next =>
        refine ⟨not_mem_nil, not_mem_nil, ?_⟩
        exact ⟨by omega, by omega, rfl⟩
    next hD =>
    split
    next hnl =>
      refine ⟨?_, not_mem_nil, ?_⟩
      · rw [mem_singleton]
        exact fun h => hD h.symm
      · rw [if_neg Bool.false_ne_true]
        simp only [length_singleton]
        omega
    next hnl =>
      obtain ⟨hbytes, hend⟩ := ih (i := { i with r := i.r + 1 }) (by omega)
      generalize readLoop false target n { i with r := i.r + 1 } = s at hbytes hend ⊢
      refine ⟨?_, ?_⟩
      · rw [mem_cons, not_or]
        exact ⟨fun h => hD h.symm, hbytes⟩
      · split
        next m hm =>
          rw [hm] at hend
          obtain ⟨heof, hnone, hpos, hlen⟩ := hend
          refine ⟨heof, ?_, hpos, ?_⟩
          · rw [mem_cons, not_or]
            exact ⟨fun h => hnl h.symm, hnone⟩
          · rw [length_cons]
            omega
        next r hr =>
          rw [hr] at hend
          obtain ⟨hnone, hcount⟩ := hend
          cases heof : s.eof with
          | true =>
            rw [heof, if_pos rfl] at hcount
            omega
          | false =>
            rw [heof, if_neg Bool.false_ne_true] at hcount
            refine ⟨?_, ?_⟩
            · cases hb : s.bytes with
              | nil => exact not_mem_nil
              | cons b bs =>
                rw [hb] at hnone
                rw [dropLast_cons_cons, mem_cons, not_or]
                exact ⟨fun h => hnl h.symm, hnone⟩
            · rw [if_neg Bool.false_ne_true, length_cons]
              omega

end

end Xv6.Console
