import Xv6.Grep.Match

/-!
# `grep` and its buffer

`grep` reads into a buffer, writes the lines in it that match and keeps what is left for the next read,
unless no line ended in the buffer: then it drops all of it. So a line is whole only if every read before
its end brought the end of a line.
-/

namespace Xv6.Grep

open List

def NL : UInt8 := 10

/-! ## Lines -/

/-- The lines of a text that have an end. -/
def lines (s : List UInt8) : List (List UInt8) := (s.splitOn NL).dropLast

/-- What comes after the last line. -/
def last (s : List UInt8) : List UInt8 := (s.splitOn NL).getLast (splitOn_ne_nil NL s)

/-- The lines that match, each with its newline. -/
def written (pattern : List UInt8) (ls : List (List UInt8)) : List UInt8 :=
  (ls.filter (matchText pattern)).flatMap (· ++ [NL])

section
variable {l r s x : List UInt8} {ls ls' : List (List UInt8)}

theorem lines_of_not_mem (h : NL ∉ s) : lines s = [] := by
  rw [lines, splitOn_eq_singleton h, dropLast_singleton]

theorem last_of_not_mem (h : NL ∉ s) : last s = s := by
  simp only [last, splitOn_eq_singleton h, getLast_singleton]

theorem lines_cons (h : NL ∉ l) (r : List UInt8) : lines (l ++ NL :: r) = l :: lines r := by
  rw [lines, splitOn_append_cons_self_of_not_mem h,
    dropLast_cons_of_ne_nil (splitOn_ne_nil NL r), lines]

theorem last_cons (h : NL ∉ l) (r : List UInt8) : last (l ++ NL :: r) = last r := by
  simp only [last, splitOn_append_cons_self_of_not_mem h]
  exact getLast_cons (splitOn_ne_nil NL r)

/-- Line by line. -/
theorem line_induction {motive : List UInt8 → Prop} (last : ∀ s, NL ∉ s → motive s)
    (line : ∀ l r, NL ∉ l → motive r → motive (l ++ NL :: r)) (s : List UInt8) : motive s := by
  induction hn : s.length using Nat.strong_induction_on generalizing s with
  | _ n ih =>
    by_cases h : NL ∈ s
    · obtain ⟨l, r, rfl, hl⟩ := eq_append_cons_of_mem h
      refine line l r hl (ih r.length ?_ r rfl)
      rw [← hn, length_append, length_cons]
      omega
    · exact last s h

theorem not_mem_last (s : List UInt8) : NL ∉ last s := by
  induction s using line_induction with
  | last s h => rwa [last_of_not_mem h]
  | line l r hl ih => rwa [last_cons hl]

theorem not_mem_lines (s : List UInt8) : ∀ l ∈ lines s, NL ∉ l := by
  induction s using line_induction with
  | last s h =>
    rw [lines_of_not_mem h]
    exact nofun
  | line l r hl ih =>
    rw [lines_cons hl, forall_mem_cons]
    exact ⟨hl, ih⟩

theorem lines_append (x s : List UInt8) : lines (x ++ s) = lines x ++ lines (last x ++ s) := by
  induction x using line_induction with
  | last x h => rw [lines_of_not_mem h, last_of_not_mem h, nil_append]
  | line l r hl ih =>
    rw [append_assoc, cons_append, lines_cons hl, lines_cons hl, last_cons hl, ih,
      cons_append]

theorem lines_flatMap (h : ∀ l ∈ ls, NL ∉ l) : lines (ls.flatMap (· ++ [NL])) = ls := by
  induction ls with
  | nil => rfl
  | cons l ls ih =>
    rw [forall_mem_cons] at h
    rw [flatMap_cons, append_assoc, singleton_append, lines_cons h.1, ih h.2]

theorem written_eq_iff (pattern : List UInt8) (h : ∀ l ∈ ls, NL ∉ l) (h' : ∀ l ∈ ls', NL ∉ l) :
    written pattern ls = written pattern ls' ↔
      ls.filter (matchText pattern) = ls'.filter (matchText pattern) := by
  refine ⟨fun heq => ?_, fun heq => congrArg (List.flatMap (· ++ [NL])) heq⟩
  rw [← lines_flatMap fun l hl => h l (mem_of_mem_filter hl),
    ← lines_flatMap fun l hl => h' l (mem_of_mem_filter hl)]
  exact congrArg lines heq

/-- The bytes of the lines. -/
def total (ls : List (List UInt8)) : Nat := (ls.map List.length).sum

theorem total_append : total (ls ++ ls') = total ls + total ls' := by
  rw [total, map_append, sum_append]
  rfl

theorem total_lines_append (hx : NL ∉ x) (hs : NL ∈ s) :
    total (lines (x ++ s)) = x.length + total (lines s) := by
  obtain ⟨l, r, rfl, hl⟩ := eq_append_cons_of_mem hs
  have hxl : NL ∉ x ++ l := not_mem_append hx hl
  rw [← append_assoc, lines_cons hxl, lines_cons hl, total, total, map_cons, map_cons,
    sum_cons, sum_cons, length_append, Nat.add_assoc]

end

/-! ## The loops -/

/-- `strchr(s, c)`: what comes before `c` and what comes after it. -/
def strchr (c : UInt8) : List UInt8 → Option (List UInt8 × List UInt8)
  | [] => none
  | x :: s => if x = c then some ([], s) else (strchr c s).map fun q => (x :: q.1, q.2)

theorem strchr_of_not_mem {c : UInt8} {s : List UInt8} (h : c ∉ s) : strchr c s = none := by
  induction s with
  | nil => rfl
  | cons x s ih =>
    rw [mem_cons, not_or] at h
    rw [strchr, if_neg (Ne.symm h.1), ih h.2, Option.map_none]

theorem strchr_append {c : UInt8} {l : List UInt8} (h : c ∉ l) (r : List UInt8) :
    strchr c (l ++ c :: r) = some (l, r) := by
  induction l with
  | nil => exact if_pos rfl
  | cons x l ih =>
    rw [mem_cons, not_or] at h
    rw [cons_append, strchr, if_neg (Ne.symm h.1), ih h.2, Option.map_some]

theorem length_of_strchr {c : UInt8} {s l r : List UInt8} (h : strchr c s = some (l, r)) :
    r.length < s.length := by
  by_cases hc : c ∈ s
  · obtain ⟨l', r', rfl, hl⟩ := eq_append_cons_of_mem hc
    rw [strchr_append hl, Option.some.injEq, Prod.mk.injEq] at h
    rw [← h.2, length_append, length_cons]
    omega
  · rw [strchr_of_not_mem hc] at h
    cases h

/-- The loop over the lines from `p` on: what is written, and where `p` is in the end. -/
def scan (pattern p : List UInt8) : List UInt8 × List UInt8 :=
  match _h : strchr NL p with
  | none => ([], p)
  | some (line, rest) =>
    let (out, p) := scan pattern rest
    ((if matchText pattern line then line ++ [NL] else []) ++ out, p)
termination_by p.length
decreasing_by exact length_of_strchr _h

/-- What is done with the buffer after a read: what is written, and what is left in it. -/
def turn (pattern buf : List UInt8) : List UInt8 × List UInt8 :=
  let (out, p) := scan pattern buf
  -- `p == buf`: no line has an end
  (out, if p.length = buf.length then [] else p)

/-- `grep`, with what is in the buffer, and the bytes that each `read` gives. -/
def grep (pattern m : List UInt8) : (reads : List (List UInt8)) → List UInt8
  | [] => []
  | n :: reads =>
    let (out, m) := turn pattern (m ++ n)
    out ++ grep pattern m reads

/-- What is left in the buffer. -/
def carry (buf : List UInt8) : List UInt8 := if NL ∈ buf then last buf else []

/-- What `read` may give: at least one byte and at most `sizeof(buf)-m-1`, and no NUL. -/
def Reads (m : List UInt8) : List (List UInt8) → Prop
  | [] => True
  | n :: reads => n ≠ [] ∧ 0 ∉ n ∧ n.length ≤ 1024 - m.length - 1 ∧ Reads (carry (m ++ n)) reads

/-- The lines as `grep` sees them. -/
def seen (m : List UInt8) : List (List UInt8) → List (List UInt8)
  | [] => []
  | n :: reads => lines (m ++ n) ++ seen (carry (m ++ n)) reads

section
variable {pattern m : List UInt8} {reads : List (List UInt8)}

theorem scan_eq (pattern p : List UInt8) : scan pattern p = (written pattern (lines p), last p) := by
  induction p using line_induction with
  | last p h =>
    rw [scan.eq_def, lines_of_not_mem h, last_of_not_mem h]
    split
    next => rfl
    next line rest hq =>
      rw [strchr_of_not_mem h] at hq
      cases hq
  | line l r hl ih =>
    rw [scan.eq_def, lines_cons hl, last_cons hl]
    split
    next hq =>
      rw [strchr_append hl] at hq
      cases hq
    next line rest hq =>
      rw [strchr_append hl, Option.some.injEq] at hq
      obtain ⟨rfl, rfl⟩ := hq
      rw [ih]
      refine congrArg (·, last _) ?_
      rw [written, written, filter_cons]
      split
      · rw [flatMap_cons]
      · rfl

theorem length_last_eq_iff (s : List UInt8) : (last s).length = s.length ↔ NL ∉ s := by
  constructor
  · intro heq hmem
    obtain ⟨l, r, rfl, hl⟩ := eq_append_cons_of_mem hmem
    have hle : (last r).length ≤ r.length := by
      clear heq hmem
      induction r using line_induction with
      | last r h => rw [last_of_not_mem h]
      | line l' r' hl' ih =>
        rw [last_cons hl', length_append, length_cons]
        omega
    rw [last_cons hl, length_append, length_cons] at heq
    omega
  · exact fun h => congrArg List.length (last_of_not_mem h)

theorem turn_eq (pattern buf : List UInt8) :
    turn pattern buf = (written pattern (lines buf), carry buf) := by
  unfold turn carry
  rw [scan_eq]
  dsimp only
  by_cases h : NL ∈ buf
  · rw [if_pos h, if_neg fun heq => (length_last_eq_iff buf).mp heq h]
  · rw [if_neg h, if_pos ((length_last_eq_iff buf).mpr h)]

theorem grep_eq (pattern m : List UInt8) (reads : List (List UInt8)) :
    grep pattern m reads = written pattern (seen m reads) := by
  induction reads generalizing m with
  | nil => rfl
  | cons n reads ih =>
    rw [grep, turn_eq, seen]
    dsimp only
    rw [ih, written, written, written, filter_append, flatMap_append]

theorem carry_of_mem {n : List UInt8} (h : NL ∈ n) (m : List UInt8) : carry (m ++ n) = last (m ++ n) :=
  if_pos (mem_append_right m h)

theorem carry_of_not_mem {buf : List UInt8} (h : NL ∉ buf) : carry buf = [] := if_neg h

theorem not_mem_seen (m : List UInt8) (reads : List (List UInt8)) : ∀ l ∈ seen m reads, NL ∉ l := by
  induction reads generalizing m with
  | nil => exact nofun
  | cons n reads ih =>
    rw [seen, forall_mem_append]
    exact ⟨not_mem_lines _, ih _⟩

/-- Nothing is seen that is not there. -/
theorem total_seen_le (hm : NL ∉ m) : total (seen m reads) ≤ total (lines (m ++ reads.flatten)) := by
  induction reads generalizing m with
  | nil => exact Nat.zero_le _
  | cons n reads ih =>
    rw [seen, flatten_cons, ← append_assoc, total_append]
    by_cases hn : NL ∈ n
    · rw [carry_of_mem hn, lines_append (m ++ n), total_append]
      exact Nat.add_le_add_left (ih (not_mem_last _)) _
    · have hbuf : NL ∉ m ++ n := not_mem_append hm hn
      have hnil := ih not_mem_nil
      rw [carry_of_not_mem hbuf, lines_of_not_mem hbuf]
      rw [nil_append] at hnil
      by_cases hrest : NL ∈ reads.flatten
      · rw [total_lines_append hbuf hrest, total, map_nil, sum_nil]
        omega
      · rw [lines_of_not_mem hrest] at hnil
        exact (Nat.zero_add _).trans_le (hnil.trans (Nat.zero_le _))

/-- All lines are seen whole if and only if no read without the end of a line comes before one with it. -/
theorem seen_eq_iff (hm : NL ∉ m) (hne : ∀ n ∈ reads, n ≠ []) :
    seen m reads = lines (m ++ reads.flatten) ↔ reads.Pairwise fun n n' => NL ∈ n' → NL ∈ n := by
  induction reads generalizing m with
  | nil =>
    rw [flatten_nil, append_nil, lines_of_not_mem hm]
    exact iff_of_true rfl .nil
  | cons n reads ih =>
    rw [forall_mem_cons] at hne
    rw [seen, flatten_cons, ← append_assoc, pairwise_cons]
    by_cases hn : NL ∈ n
    · rw [carry_of_mem hn, lines_append (m ++ n), append_cancel_left_eq,
        ih (not_mem_last _) hne.2]
      exact (and_iff_right fun _ _ _ => hn).symm
    · have hbuf : NL ∉ m ++ n := not_mem_append hm hn
      rw [carry_of_not_mem hbuf, lines_of_not_mem hbuf, nil_append]
      by_cases hrest : NL ∈ reads.flatten
      · -- the bytes in the buffer are lost
        refine iff_of_false (fun heq => ?_) fun hpair => ?_
        · have hle : total (seen [] reads) ≤ total (lines reads.flatten) :=
            total_seen_le not_mem_nil
          rw [heq, total_lines_append hbuf hrest, length_append] at hle
          have := length_pos_of_ne_nil hne.1
          omega
        · obtain ⟨n', hn', hmem⟩ := mem_flatten.mp hrest
          exact hn (hpair.1 n' hn' hmem)
      · have hnone : ∀ n' ∈ reads, NL ∉ n' := fun n' hn' hmem =>
          hrest (mem_flatten.mpr ⟨n', hn', hmem⟩)
        have hpair : reads.Pairwise fun n n' => NL ∈ n' → NL ∈ n :=
          pairwise_of_forall_mem_list fun _ _ n' hn' hmem => absurd hmem (hnone n' hn')
        have hseen := (ih not_mem_nil hne.2).mpr hpair
        rw [nil_append, lines_of_not_mem hrest] at hseen
        rw [hseen, lines_of_not_mem (not_mem_append hbuf hrest)]
        exact iff_of_true rfl ⟨fun n' hn' hmem => absurd hmem (hnone n' hn'), hpair⟩

theorem Reads.ne_nil (h : Reads m reads) : ∀ n ∈ reads, n ≠ [] := by
  induction reads generalizing m with
  | nil => exact nofun
  | cons n reads ih => exact forall_mem_cons.mpr ⟨h.1, ih h.2.2.2⟩

end

/-- **`grep`.** For a pattern, the right lines are written if and only if those that are seen and match are
those of the text that match. This is so for all patterns if and only if every read before the last end of a
line brings the end of a line. -/
theorem grep_iff (reads : List (List UInt8)) (h : Reads [] reads) :
    (∀ pattern, grep pattern [] reads = written pattern (lines reads.flatten) ↔
      (seen [] reads).filter (matchText pattern) = (lines reads.flatten).filter (matchText pattern)) ∧
    ((∀ pattern, grep pattern [] reads = written pattern (lines reads.flatten)) ↔
      reads.Pairwise fun n n' => NL ∈ n' → NL ∈ n) := by
  have hone : ∀ pattern, grep pattern [] reads = written pattern (lines reads.flatten) ↔
      (seen [] reads).filter (matchText pattern) = (lines reads.flatten).filter (matchText pattern) := by
    intro pattern
    rw [grep_eq]
    exact written_eq_iff pattern (not_mem_seen _ _) (not_mem_lines _)
  have hseen := seen_eq_iff not_mem_nil h.ne_nil
  rw [nil_append] at hseen
  refine ⟨hone, ?_⟩
  rw [← hseen]
  constructor
  · intro hall
    -- the empty pattern matches every line
    have hempty : matchText [] = fun _ => true := by
      funext l
      cases l <;> rfl
    have hfilter := (hone []).mp (hall [])
    rwa [hempty, filter_true, filter_true] at hfilter
  · intro heq pattern
    rw [hone, heq]

/-- The line `abc` is read in two parts, and `c` is written. -/
theorem grep_drops : ∃ (pattern : List UInt8) (reads : List (List UInt8)), Reads [] reads ∧
    grep pattern [] reads ≠ written pattern (lines reads.flatten) := by
  refine ⟨[99], [[97, 98], [99, 10]], ⟨by decide, by decide, by decide, by decide, by decide,
    by decide, trivial⟩, ?_⟩
  rw [grep_eq]
  decide

theorem grep_two_reads : grep [97] [] [[97, 10, 98], [10]] = written [97] (lines [97, 10, 98, 10]) :=
  (grep_iff [[97, 10, 98], [10]] ⟨by decide, by decide, by decide, by decide, by decide, by decide,
    trivial⟩).2.mpr (by decide) [97]

end Xv6.Grep
