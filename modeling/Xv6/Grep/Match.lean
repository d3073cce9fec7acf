import Mathlib

/-!
# Patterns of `grep`

The matcher of `grep.c`, and the language of a pattern. A pattern and a text are the bytes of a string
before its NUL. `matchhere` goes through the pattern; `matchstar` and `matchText` have a loop over the
text.
-/

namespace Xv6.Grep

open List

def CARET : UInt8 := 94
def DOLLAR : UInt8 := 36
def DOT : UInt8 := 46
def STAR : UInt8 := 42

/-! ## The matcher -/

/-- The loop of `matchstar`; `here` is `matchhere` for the pattern after the star. -/
def matchstarLoop (here : List UInt8 → Bool) (c : UInt8) : List UInt8 → Bool
  | [] => here []
  | t :: text => here (t :: text) || ((t == c || c == DOT) && matchstarLoop here c text)

def matchhere : (re text : List UInt8) → Bool
  | [], _ => true
  | [c], text =>
    if c = DOLLAR then text.isEmpty
    else
      match text with
      | [] => false
      | t :: _ => c == DOT || c == t
  | c :: c' :: re, text =>
    if c' = STAR then matchstarLoop (matchhere re) c text
    else
      match text with
      | [] => false
      | t :: text => (c == DOT || c == t) && matchhere (c' :: re) text

def matchstar (c : UInt8) (re text : List UInt8) : Bool := matchstarLoop (matchhere re) c text

/-- The loop of `match`. -/
def matchLoop (re : List UInt8) : List UInt8 → Bool
  | [] => matchhere re []
  | t :: text => matchhere re (t :: text) || matchLoop re text

/-- `match`. -/
def matchText (re text : List UInt8) : Bool :=
  if re.head? = some CARET then matchhere re.tail text else matchLoop re text

/-! ## Languages -/

/-- What a character of a pattern stands for. -/
def atom (c : UInt8) : Language UInt8 := {w | ∃ t, w = [t] ∧ (c = DOT ∨ c = t)}

/-- The language of a pattern without its `^`. A final `$` adds nothing to a word. -/
def lang : List UInt8 → Language UInt8
  | [] => 1
  | [c] => if c = DOLLAR then 1 else atom c
  | c :: c' :: re => if c' = STAR then KStar.kstar (atom c) * lang re else atom c * lang (c' :: re)

/-- Whether a pattern has a final `$`. -/
def atEnd : List UInt8 → Bool
  | [] => false
  | [c] => c = DOLLAR
  | _ :: c' :: re => if c' = STAR then atEnd re else atEnd (c' :: re)

/-- `text` begins with a word of the pattern, which is all of it if the pattern has a final `$`. -/
def Begins (re text : List UInt8) : Prop :=
  ∃ w ∈ lang re, ∃ rest, text = w ++ rest ∧ (atEnd re = true → rest = [])

section
variable {c c' t : UInt8} {re text : List UInt8}

theorem mem_kstar_atom {w : List UInt8} :
    w ∈ KStar.kstar (atom c) ↔ ∀ t ∈ w, c = DOT ∨ c = t := by
  constructor
  · rintro ⟨L, rfl, hL⟩ t ht
    obtain ⟨y, hy, hty⟩ := mem_flatten.mp ht
    obtain ⟨s, rfl, hs⟩ := hL y hy
    rwa [mem_singleton.mp hty]
  · intro h
    refine ⟨w.map fun t => [t], ?_, fun y hy => ?_⟩
    · induction w with
      | nil => rfl
      | cons t w ih =>
        rw [forall_mem_cons] at h
        rw [map_cons, flatten_cons, ← ih h.2]
        rfl
    · obtain ⟨t, ht, rfl⟩ := mem_map.mp hy
      exact ⟨t, rfl, h t ht⟩

theorem stands_iff : (t == c || c == DOT) = true ↔ c = DOT ∨ c = t := by
  rw [Bool.or_eq_true, beq_iff_eq, beq_iff_eq, or_comm, eq_comm (a := t)]

theorem matchstarLoop_iff {here : List UInt8 → Bool} : matchstarLoop here c text = true ↔
    ∃ w, (∀ t ∈ w, c = DOT ∨ c = t) ∧ ∃ rest, text = w ++ rest ∧ here rest = true := by
  induction text with
  | nil =>
    constructor
    · exact fun h => ⟨[], nofun, [], rfl, h⟩
    · rintro ⟨w, -, rest, heq, h⟩
      rw [(append_eq_nil_iff.mp heq.symm).2] at h
      exact h
  | cons t text ih =>
    rw [matchstarLoop, Bool.or_eq_true, Bool.and_eq_true, ih]
    constructor
    · rintro (h | ⟨ht, w, hw, rest, rfl, h⟩)
      · exact ⟨[], nofun, _, rfl, h⟩
      · refine ⟨t :: w, forall_mem_cons.mpr ⟨?_, hw⟩, rest, rfl, h⟩
        exact stands_iff.mp ht
    · rintro ⟨w, hw, rest, heq, h⟩
      cases w with
      | nil =>
        rw [heq]
        exact .inl h
      | cons s w =>
        obtain ⟨rfl, rfl⟩ := heq
        rw [forall_mem_cons] at hw
        refine .inr ⟨?_, w, hw.2, rest, rfl, h⟩
        exact stands_iff.mpr hw.1

theorem begins_star (h : c' = STAR) : Begins (c :: c' :: re) text ↔
    ∃ w, (∀ t ∈ w, c = DOT ∨ c = t) ∧ ∃ rest, text = w ++ rest ∧ Begins re rest := by
  unfold Begins
  rw [lang, atEnd, if_pos h, if_pos h]
  constructor
  · rintro ⟨x, hx, rest, rfl, hend⟩
    obtain ⟨w, hw, v, hv, rfl⟩ := Language.mem_mul.mp hx
    exact ⟨w, mem_kstar_atom.mp hw, v ++ rest, append_assoc .., v, hv, rest, rfl, hend⟩
  · rintro ⟨w, hw, r, rfl, v, hv, rest, rfl, hend⟩
    exact ⟨w ++ v, Language.append_mem_mul (mem_kstar_atom.mpr hw) hv, rest,
      (append_assoc ..).symm, hend⟩

theorem begins_atom (h : c' ≠ STAR) : Begins (c :: c' :: re) text ↔
    ∃ t rest, text = t :: rest ∧ (c = DOT ∨ c = t) ∧ Begins (c' :: re) rest := by
  unfold Begins
  rw [lang, atEnd, if_neg h, if_neg h]
  constructor
  · rintro ⟨x, hx, rest, rfl, hend⟩
    obtain ⟨_, ⟨t, rfl, ht⟩, v, hv, rfl⟩ := Language.mem_mul.mp hx
    exact ⟨t, v ++ rest, rfl, ht, v, hv, rest, rfl, hend⟩
  · rintro ⟨t, r, rfl, ht, v, hv, rest, rfl, hend⟩
    have hatom : [t] ∈ atom c := ⟨t, rfl, ht⟩
    exact ⟨[t] ++ v, Language.append_mem_mul hatom hv, rest, rfl, hend⟩

theorem begins_singleton : Begins [c] text ↔
    if c = DOLLAR then text = [] else ∃ t rest, text = t :: rest ∧ (c = DOT ∨ c = t) := by
  unfold Begins
  rw [lang, atEnd, decide_eq_true_iff]
  split
  next h =>
    constructor
    · rintro ⟨w, rfl, rest, rfl, hend⟩
      exact hend h
    · rintro rfl
      exact ⟨[], rfl, [], rfl, fun _ => rfl⟩
  next h =>
    constructor
    · rintro ⟨_, ⟨t, rfl, ht⟩, rest, rfl, -⟩
      exact ⟨t, rest, rfl, ht⟩
    · rintro ⟨t, rest, rfl, ht⟩
      exact ⟨[t], ⟨t, rfl, ht⟩, rest, rfl, fun h' => absurd h' h⟩

end

theorem matchhere_iff : (re text : List UInt8) → (matchhere re text = true ↔ Begins re text)
  | [], text => by
    refine iff_of_true ?_ ⟨[], rfl, text, rfl, nofun⟩
    rw [matchhere]
  | [c], text => by
    rw [begins_singleton, matchhere.eq_def]
    dsimp only
    split
    next => exact isEmpty_iff
    next =>
      cases text with
      | nil => exact iff_of_false Bool.false_ne_true nofun
      | cons t text => simp
  | c :: c' :: re, text => by
    rw [matchhere.eq_def]
    dsimp only
    split
    next h =>
      rw [matchstarLoop_iff, begins_star h]
      simp only [matchhere_iff re]
    next h =>
      rw [begins_atom h]
      cases text with
      | nil => exact iff_of_false Bool.false_ne_true nofun
      | cons t text => simp [matchhere_iff (c' :: re)]

theorem matchLoop_iff (re : List UInt8) {text : List UInt8} :
    matchLoop re text = true ↔ ∃ pre rest, text = pre ++ rest ∧ Begins re rest := by
  induction text with
  | nil =>
    rw [matchLoop, matchhere_iff]
    constructor
    · exact fun h => ⟨[], [], rfl, h⟩
    · rintro ⟨pre, rest, heq, h⟩
      rwa [(append_eq_nil_iff.mp heq.symm).2] at h
  | cons t text ih =>
    rw [matchLoop, Bool.or_eq_true, matchhere_iff, ih]
    constructor
    · rintro (h | ⟨pre, rest, rfl, h⟩)
      · exact ⟨[], _, rfl, h⟩
      · exact ⟨t :: pre, rest, rfl, h⟩
    · rintro ⟨pre, rest, heq, h⟩
      cases pre with
      | nil => exact .inl (heq ▸ h)
      | cons s pre =>
        rw [cons_append, List.cons.injEq] at heq
        exact .inr ⟨pre, rest, heq.2, h⟩

/-- The pattern without the `^` at its beginning. -/
def body (re : List UInt8) : List UInt8 := if re.head? = some CARET then re.tail else re

/-- **Matching.** The matcher always ends, and it finds a match if and only if some part of the text, at its
beginning if the pattern starts with `^` and at its end if it has a final `$`, is a word of the language of
the pattern. -/
theorem matchText_iff (re text : List UInt8) : matchText re text = true ↔
    ∃ pre w post, text = pre ++ w ++ post ∧ w ∈ lang (body re) ∧
      (re.head? = some CARET → pre = []) ∧ (atEnd (body re) = true → post = []) := by
  unfold matchText body
  split
  next h =>
    rw [matchhere_iff]
    constructor
    · rintro ⟨w, hw, rest, rfl, hend⟩
      exact ⟨[], w, rest, rfl, hw, fun _ => rfl, hend⟩
    · rintro ⟨pre, w, post, rfl, hw, hpre, hend⟩
      rw [hpre h]
      exact ⟨w, hw, post, rfl, hend⟩
  next h =>
    rw [matchLoop_iff]
    constructor
    · rintro ⟨pre, rest, rfl, w, hw, post, rfl, hend⟩
      exact ⟨pre, w, post, (append_assoc ..).symm, hw, fun h' => absurd h' h, hend⟩
    · rintro ⟨pre, w, post, rfl, hw, -, hend⟩
      exact ⟨pre, w ++ post, append_assoc .., w, hw, post, rfl, hend⟩

example : matchText [97, 46, 42, 36] [98, 97, 99] = true := by decide

end Xv6.Grep
