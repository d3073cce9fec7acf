import Xv6.Sh.Grammar

/-!
# From lines to commands

`Lexes` says which tokens a line has, by its bytes. The parser on the line goes along with the
parser on the tokens, so that `parsecmd` accepts the lines whose tokens are derived. A word reaches
as far as it can: the NUL behind one is in no other.
-/

namespace Xv6.Sh

open List

/-! ## The tokens of a line -/

/-- What `gettoken` returns for a token. -/
def Tok.code : Tok → UInt8
  | .bar => 124
  | .lparen => 40
  | .rparen => 41
  | .semi => 59
  | .amp => 38
  | .lt => 60
  | .gt => 62
  | .gtgt => 43
  | .word _ => 97

/-- The first byte of a token that is not a word. -/
def Tok.lead : Tok → Option UInt8
  | .gtgt => some 62
  | .word _ => none
  | t => some t.code

/-- A byte of a word. -/
def ordinary (c : UInt8) : Bool := c ∉ whitespace ∧ c ∉ symbols

section
variable (text : List UInt8)

/-- All bytes from one index to another have a property. -/
def Between (p : UInt8 → Bool) (s e : Nat) : Prop :=
  s ≤ e ∧ ∀ i, s ≤ i → i < e → ∃ c, text[i]? = some c ∧ p c

inductive TokenAt : Nat → Nat → Tok → Prop
  | symbol : t.lead = some c → t ≠ .gtgt → text[q]? = some c →
      (t = .gt → text[q + 1]? ≠ some 62) → TokenAt q (q + 1) t
  | gtgt : text[q]? = some 62 → text[q + 1]? = some 62 → TokenAt q (q + 2) .gtgt
  | word : q < e → Between text ordinary q e → (∀ c, text[e]? = some c → ordinary c = false) →
      TokenAt q e (.word ⟨q, e⟩)

/-- The tokens from an index on, with white space before, between and behind them. -/
inductive Lexes : Nat → List Tok → Prop
  | nil : Between text (· ∈ whitespace) s text.length → Lexes s []
  | cons : Between text (· ∈ whitespace) s q → TokenAt text q e t → Lexes e ts → Lexes s (t :: ts)

end

variable {text : List UInt8}

theorem takeWhile_spec (p : UInt8 → Bool) (l : List UInt8) :
    (∀ i < (l.takeWhile p).length, ∃ c, l[i]? = some c ∧ p c) ∧
      ∀ c, l[(l.takeWhile p).length]? = some c → p c = false := by
  induction l with
  | nil => simp
  | cons c l ih =>
    cases hc : p c with
    | false => simp [hc]
    | true =>
      rw [takeWhile_cons_of_pos hc, length_cons]
      refine ⟨fun i hi => ?_, fun d hd => ih.2 d hd⟩
      cases i with
      | zero => exact ⟨c, rfl, hc⟩
      | succ i => exact ih.1 i (by omega)

theorem scan_between (p : UInt8 → Bool) (s : Nat) : Between text p s (scan text p s) := by
  refine ⟨Nat.le_add_right .., fun i hs hi => ?_⟩
  obtain ⟨c, hc, hp⟩ := (takeWhile_spec p (text.drop s)).1 (i - s) (by rw [scan] at hi; omega)
  rw [List.getElem?_drop, Nat.add_sub_cancel' hs] at hc
  exact ⟨c, hc, hp⟩

theorem scan_stop (p : UInt8 → Bool) (s : Nat) (h : text[scan text p s]? = some c) :
    p c = false := by
  apply (takeWhile_spec p (text.drop s)).2
  rwa [List.getElem?_drop]

theorem scan_eq {p : UInt8 → Bool} (h : Between text p s e)
    (hstop : ∀ c, text[e]? = some c → p c = false) : scan text p s = e := by
  rcases Nat.lt_trichotomy (scan text p s) e with hlt | heq | hlt
  · obtain ⟨c, hc, hp⟩ := h.2 _ (scan_between p s).1 hlt
    rw [scan_stop p s hc] at hp
    cases hp
  · exact heq
  · obtain ⟨c, hc, hp⟩ := (scan_between p s).2 _ h.1 hlt
    rw [hstop c hc] at hp
    cases hp

theorem Between.self (p : UInt8 → Bool) (s : Nat) : Between text p s s :=
  ⟨Nat.le_refl s, fun _ hs hi => absurd hs (Nat.not_le.mpr hi)⟩

theorem scan_le (p : UInt8 → Bool) (h : s ≤ text.length) : scan text p s ≤ text.length := by
  have hlen := (List.takeWhile_prefix p (l := text.drop s)).length_le
  rw [length_drop] at hlen
  rw [scan]
  omega

theorem char_of (h : text[s]? = some c) : char text s = c := by
  rw [char, getD_eq_getElem?_getD, h, Option.getD_some]

theorem lt_length (h : text[s]? = some c) : s < text.length :=
  (List.getElem?_eq_some_iff.mp h).1

namespace TokenAt

variable {q e : Nat} {t : Tok}

/-- A token begins with the byte that `peek` looks for, or with one of a word. -/
theorem first (h : TokenAt text q e t) :
    ∃ c, text[q]? = some c ∧ c ∉ whitespace ∧ (t.lead = some c ∨ t.lead = none ∧ c ∉ symbols) := by
  cases h with
  | symbol hlead hne hq _ =>
    refine ⟨_, hq, ?_, .inl hlead⟩
    cases t <;> first | (cases hlead; decide) | cases hlead
  | gtgt hq _ => exact ⟨62, hq, by decide, .inl rfl⟩
  | word hlt hword _ =>
    obtain ⟨c, hc, hp⟩ := hword.2 q (Nat.le_refl q) hlt
    have hp' := of_decide_eq_true hp
    exact ⟨c, hc, hp'.1, .inr ⟨rfl, hp'.2⟩⟩

theorem lt (h : TokenAt text q e t) : q < e ∧ e ≤ text.length := by
  cases h with
  | symbol _ _ hq _ => exact ⟨Nat.lt_succ_self q, lt_length hq⟩
  | gtgt _ hq => exact ⟨by omega, lt_length hq⟩
  | word hlt hword _ =>
    obtain ⟨c, hc, -⟩ := hword.2 (e - 1) (by omega) (by omega)
    have := lt_length hc
    exact ⟨hlt, by omega⟩

theorem token_eq (h0 : 0 ∉ text) (h : TokenAt text q e t) : token text q = (t.code, e) := by
  cases h with
  | symbol hlead hne hq hgt =>
    rw [token, char_of hq]
    cases t with
    | gt =>
      cases hlead
      have hnext : char text (q + 1) ≠ 62 := by
        intro h
        apply hgt rfl
        rw [char, getD_eq_getElem?_getD] at h
        cases hc : text[q + 1]? with
        | none =>
          rw [hc] at h
          cases h
        | some c =>
          rw [hc] at h
          exact congrArg some h
      simp [Tok.code, hnext]
    | gtgt => exact absurd rfl hne
    | word w => cases hlead
    | _ =>
      cases hlead
      simp [Tok.code]
  | gtgt hq hq' =>
    rw [token, char_of hq, char_of hq']
    rfl
  | word hlt hword hstop =>
    obtain ⟨c, hc, hp⟩ := hword.2 q (Nat.le_refl q) hlt
    have hc0 : c ≠ 0 := by
      rintro rfl
      exact h0 (mem_of_getElem? hc)
    have hsym : c ∉ symbols := (of_decide_eq_true hp).2
    have hskip : skipWord text q = e := scan_eq hword hstop
    simp only [symbols, mem_cons, not_mem_nil, not_or] at hsym
    simp [token, char_of hc, hc0, hsym, hskip, Tok.code]

theorem word_eq (h : TokenAt text q e (.word w)) : w = ⟨q, e⟩ := by
  cases h with
  | symbol hlead => cases hlead
  | word => rfl

theorem unique (h0 : 0 ∉ text) (h : TokenAt text q e t) (h' : TokenAt text q e' t') :
    e = e' ∧ t = t' := by
  have htoken := h.token_eq h0
  rw [h'.token_eq h0, Prod.mk.injEq] at htoken
  obtain ⟨hcode, rfl⟩ := htoken
  refine ⟨rfl, ?_⟩
  cases t with
  | word w =>
    cases t' with
    | word w' => rw [h.word_eq, h'.word_eq]
    | _ => cases hcode
  | _ => cases t' <;> first | rfl | cases hcode

/-- A token begins at every byte that is not white space. -/
theorem of_first (hc : text[q]? = some c) (hws : c ∉ whitespace) : ∃ e t, TokenAt text q e t := by
  by_cases hsym : c ∈ symbols
  · simp only [symbols, mem_cons, not_mem_nil, or_false] at hsym
    rcases hsym with rfl | rfl | rfl | rfl | rfl | rfl | rfl
    · exact ⟨q + 1, .lt, .symbol rfl nofun hc nofun⟩
    · exact ⟨q + 1, .bar, .symbol rfl nofun hc nofun⟩
    · by_cases hnext : text[q + 1]? = some 62
      · exact ⟨q + 2, .gtgt, .gtgt hc hnext⟩
      · exact ⟨q + 1, .gt, .symbol rfl nofun hc fun _ => hnext⟩
    · exact ⟨q + 1, .amp, .symbol rfl nofun hc nofun⟩
    · exact ⟨q + 1, .semi, .symbol rfl nofun hc nofun⟩
    · exact ⟨q + 1, .lparen, .symbol rfl nofun hc nofun⟩
    · exact ⟨q + 1, .rparen, .symbol rfl nofun hc nofun⟩
  · have hord : ordinary c = true := decide_eq_true ⟨hws, hsym⟩
    have hne : scan text ordinary q ≠ q := by
      intro h
      have hstop := scan_stop ordinary q (c := c) (by rw [h, hc])
      rw [hord] at hstop
      cases hstop
    have hbetween : Between text ordinary q (scan text ordinary q) := scan_between _ q
    refine ⟨scan text ordinary q, .word ⟨q, _⟩, .word ?_ hbetween fun d hd => scan_stop _ _ hd⟩
    exact Nat.lt_of_le_of_ne hbetween.1 hne.symm

end TokenAt

namespace Lexes

variable {s : Nat} {ts : List Tok}

theorem skip_nil (h : Lexes text s []) : skip text s = text.length := by
  cases h with
  | nil h => exact scan_eq h (by simp)

theorem skip_cons (h : Lexes text s (t :: ts)) :
    ∃ e, TokenAt text (skip text s) e t ∧ Lexes text e ts := by
  cases h with
  | @cons _ q e _ _ hgap htok hrest =>
    obtain ⟨c, hc, hws, -⟩ := htok.first
    have hskip : skip text s = q := by
      apply scan_eq hgap
      intro d hd
      rw [hc] at hd
      cases hd
      exact decide_eq_false hws
    rw [hskip]
    exact ⟨e, htok, hrest⟩

theorem le (h : Lexes text s ts) : s + ts.length ≤ text.length := by
  induction h with
  | nil h => exact h.1
  | cons hgap htok _ ih =>
    have hlt := htok.lt.1
    have hle := hgap.1
    rw [length_cons]
    omega

theorem skip (h : Lexes text s ts) : Lexes text (skip text s) ts := by
  cases ts with
  | nil =>
    rw [h.skip_nil]
    exact .nil (.self _ _)
  | cons t ts =>
    obtain ⟨e, htok, hrest⟩ := h.skip_cons
    exact .cons (.self _ _) htok hrest

theorem exists_of_le (h : s ≤ text.length) : ∃ ts, Lexes text s ts := by
  induction hk : text.length - s using Nat.strong_induction_on generalizing s with
  | _ k ih =>
    have hgap : Between text (· ∈ whitespace) s (scan text (· ∈ whitespace) s) := scan_between _ s
    cases hc : text[scan text (· ∈ whitespace) s]? with
    | none =>
      have hend : scan text (· ∈ whitespace) s = text.length :=
        Nat.le_antisymm (scan_le _ h) (List.getElem?_eq_none_iff.mp hc)
      exact ⟨[], .nil (hend ▸ hgap)⟩
    | some c =>
      obtain ⟨e, t, htok⟩ := TokenAt.of_first hc (of_decide_eq_false (scan_stop _ _ hc))
      have hlt := htok.lt
      have hle := hgap.1
      obtain ⟨ts, hts⟩ := ih (text.length - e) (by omega) hlt.2 rfl
      exact ⟨t :: ts, .cons hgap htok hts⟩

theorem unique (h0 : 0 ∉ text) (h : Lexes text s ts) (h' : Lexes text s us) : ts = us := by
  induction ts generalizing s us with
  | nil =>
    cases us with
    | nil => rfl
    | cons u us =>
      obtain ⟨e, htok, -⟩ := h'.skip_cons
      have hlt := htok.lt
      rw [h.skip_nil] at hlt
      omega
  | cons t ts ih =>
    obtain ⟨e, htok, hrest⟩ := h.skip_cons
    cases us with
    | nil =>
      have hlt := htok.lt
      rw [h'.skip_nil] at hlt
      omega
    | cons u us =>
      obtain ⟨e', htok', hrest'⟩ := h'.skip_cons
      obtain ⟨rfl, rfl⟩ := htok.unique h0 htok'
      rw [ih hrest hrest']

theorem gettoken_nil (h : Lexes text s []) :
    gettoken text s = ⟨0, text.length, text.length, text.length⟩ := by
  have hskip := h.skip_nil
  have hchar : char text text.length = 0 := by simp [char]
  have htoken : token text text.length = (0, text.length) := by simp [token, hchar]
  have hskip' : Sh.skip text text.length = text.length :=
    scan_eq (.self _ _) (by simp)
  rw [gettoken, hskip, htoken]
  simp only [hskip']

theorem gettoken_cons (h0 : 0 ∉ text) (h : Lexes text s (t :: ts)) :
    (gettoken text s).ret = t.code ∧
      (∀ w, t = .word w → (⟨(gettoken text s).q, (gettoken text s).eq⟩ : Span) = w) ∧
      Lexes text (gettoken text s).s ts := by
  obtain ⟨e, htok, hrest⟩ := h.skip_cons
  rw [gettoken, htok.token_eq h0]
  refine ⟨rfl, ?_, hrest.skip⟩
  rintro w rfl
  cases htok with
  | symbol hlead => cases hlead
  | word => rfl

/-- What `peek` says, when it looks for bytes that are not in words. -/
theorem peek_eq (h0 : 0 ∉ text) (h : Lexes text s ts) : ∃ s', Lexes text s' ts ∧
    ∀ toks ⊆ symbols, peek text s toks = ((ts.head?.bind Tok.lead).any (· ∈ toks), s') := by
  refine ⟨_, h.skip, fun toks htoks => ?_⟩
  cases ts with
  | nil =>
    rw [peek, h.skip_nil]
    simp [char]
  | cons t ts =>
    obtain ⟨e, htok, -⟩ := h.skip_cons
    obtain ⟨c, hc, -, hlead⟩ := htok.first
    have hc0 : c ≠ 0 := by
      rintro rfl
      exact h0 (mem_of_getElem? hc)
    rw [peek, char_of hc]
    rcases hlead with hlead | ⟨hlead, hsym⟩
    · simp [hlead, hc0]
    · have hmem : c ∉ toks := fun h => hsym (htoks h)
      simp [hlead, hmem]

end Lexes

/-! ## The parser on the line and on its tokens -/

/-- The results agree, and what is left of the line has the tokens that are left. -/
def Agree (text : List UInt8) : Except Stop (α × Nat) → Except Stop (α × List Tok) → Prop
  | .ok (a, s), .ok (b, ts) => a = b ∧ Lexes text s ts
  | .error e, .error e' => e = e'
  | _, _ => False

theorem Agree.ok (h : Lexes text s ts) : Agree text (.ok (a, s)) (.ok (a, ts)) := ⟨rfl, h⟩

theorem Agree.bind {x : Except Stop (α × Nat)} {y : Except Stop (α × List Tok)}
    {f : α × Nat → Except Stop (β × Nat)} {g : α × List Tok → Except Stop (β × List Tok)}
    (h : Agree text x y) (hf : ∀ a s ts, Lexes text s ts → Agree text (f (a, s)) (g (a, ts))) :
    Agree text (x >>= f) (y >>= g) := by
  cases x with
  | error e =>
    cases y with
    | error e' => exact h
    | ok y => exact h.elim
  | ok x =>
    cases y with
    | error e' => exact h.elim
    | ok y =>
      obtain ⟨a, s⟩ := x
      obtain ⟨b, ts⟩ := y
      obtain ⟨rfl, hs⟩ := h
      exact hf a s ts hs

theorem Agree.error_left (h : Agree text (.error e) y) : y = .error e := by
  cases y with
  | error e' => exact congrArg Except.error (Eq.symm h)
  | ok y => exact h.elim

theorem Agree.ok_left (h : Agree text (.ok (a, s)) y) :
    ∃ ts, y = .ok (a, ts) ∧ Lexes text s ts := by
  cases y with
  | error e => exact h.elim
  | ok y =>
    obtain ⟨b, ts⟩ := y
    obtain ⟨rfl, hs⟩ := h
    exact ⟨ts, rfl, hs⟩

theorem Agree.ok_right (h : Agree text x (.ok (a, ts))) :
    ∃ s, x = .ok (a, s) ∧ Lexes text s ts := by
  cases x with
  | error e => exact h.elim
  | ok x =>
    obtain ⟨b, s⟩ := x
    obtain ⟨rfl, hs⟩ := h
    exact ⟨s, rfl, hs⟩

theorem redircmd_code {t : Tok} (hop : t.op = some mk) (file : Span) :
    redircmd t.code file = [mk file] := by
  cases t with
  | lt | gt | gtgt =>
    cases hop
    rfl
  | _ => cases hop

theorem lead_of_op {t : Tok} : t.lead.any (· ∈ [60, 62]) = t.op.isSome := by
  cases t <;> rfl

theorem lead_of_ends {t : Tok} : t.lead.any (· ∈ [124, 41, 38, 59]) = t.ends := by
  cases t <;> rfl

section
variable (h0 : 0 ∉ text)
include h0

theorem agree_redirs (h : Lexes text s ts) :
    Agree text (parseredirs text n rs s) (Tokens.redirs n rs ts) := by
  induction n generalizing rs s ts with
  | zero => rfl
  | succ n ih =>
    obtain ⟨s', h', hpeek⟩ := h.peek_eq h0
    rw [parseredirs, hpeek _ (by decide)]
    cases ts with
    | nil => exact .ok h'
    | cons t ts =>
      rw [Tokens.redirs]
      dsimp only [List.head?_cons, Option.bind_some]
      rw [lead_of_op]
      obtain ⟨-, -, hts⟩ := h'.gettoken_cons h0
      have hret := (h'.gettoken_cons h0).1
      cases hop : t.op with
      | none => exact .ok h'
      | some mk =>
        dsimp only [Option.isSome_some]
        rw [if_pos rfl, hret]
        cases ts with
        | nil =>
          rw [hts.gettoken_nil]
          rfl
        | cons u ts =>
          obtain ⟨hret', hspan, hts'⟩ := hts.gettoken_cons h0
          cases u with
          | word w =>
            rw [hret', if_neg (by simp [Tok.code]), hspan w rfl, redircmd_code hop]
            exact ih hts'
          | _ =>
            rw [hret', if_pos (by decide)]
            rfl

theorem agree_args (h : Lexes text s ts) :
    Agree text (parseargs text n argv rs s) (Tokens.args n argv rs ts) := by
  induction n generalizing argv rs s ts with
  | zero => rfl
  | succ n ih =>
    obtain ⟨s', h', hpeek⟩ := h.peek_eq h0
    rw [parseargs, hpeek _ (by decide), Tokens.args_succ]
    cases ts with
    | nil =>
      dsimp only [List.head?_nil, Option.bind_none, Option.any_none]
      rw [if_neg (by decide), h'.gettoken_nil, if_pos rfl]
      exact .ok (.nil (.self _ _))
    | cons t ts =>
      dsimp only [List.head?_cons, Option.bind_some]
      rw [lead_of_ends]
      obtain ⟨hret, hspan, hts⟩ := h'.gettoken_cons h0
      cases t with
      | word w =>
        rw [if_neg (by simp [Tok.ends]), hret, if_neg (by simp [Tok.code]),
          if_neg (by simp [Tok.code]), hspan w rfl]
        dsimp only
        by_cases hlen : (argv ++ [w]).length ≥ MAXARGS
        · rw [if_pos hlen, if_pos hlen]
          rfl
        · rw [if_neg hlen, if_neg hlen]
          exact (agree_redirs h0 hts).bind fun rs s ts h => ih h
      | bar | rparen | semi | amp => exact .ok h'
      | lparen | lt | gt | gtgt =>
        rw [if_neg (by decide), hret, if_neg (by decide), if_pos (by decide)]
        rfl

theorem agree_simple (h : Lexes text s ts) :
    Agree text (parseredirs text n [] s >>= fun (rs, s) => parseargs text n [] rs s)
      (Tokens.redirs n [] ts >>= fun (rs, ts) => Tokens.args n [] rs ts) :=
  (agree_redirs h0 h).bind fun _ _ _ h => agree_args h0 h

theorem agree_backs (h : Lexes text s ts) :
    Agree text (parseback text n cmd s) (Tokens.backs n cmd ts) := by
  induction n generalizing cmd s ts with
  | zero => rfl
  | succ n ih =>
    obtain ⟨s', h', hpeek⟩ := h.peek_eq h0
    rw [parseback, hpeek _ (by decide), Tokens.backs_succ]
    cases ts with
    | nil => exact .ok h'
    | cons t ts =>
      cases t with
      | amp => exact ih (h'.gettoken_cons h0).2.2
      | _ => exact .ok h'

def Agrees (text : List UInt8) (n : Nat) : Prop :=
  (∀ s ts, Lexes text s ts → Agree text (parseline text n s) (Tokens.line n ts)) ∧
  (∀ s ts, Lexes text s ts → Agree text (parsepipe text n s) (Tokens.pipe n ts)) ∧
  (∀ s ts, Lexes text s ts → Agree text (parseexec text n s) (Tokens.exec n ts)) ∧
  ∀ s ts, Lexes text s (.lparen :: ts) → Agree text (parseblock text n s) (Tokens.block n ts)

theorem agrees (n : Nat) : Agrees text n := by
  induction n with
  | zero =>
    refine ⟨fun s ts h => ?_, fun s ts h => ?_, fun s ts h => ?_, fun s ts h => ?_⟩
    · rw [parseline, Tokens.line]
      rfl
    · rw [parsepipe, Tokens.pipe]
      rfl
    · rw [parseexec, Tokens.exec]
      rfl
    · rw [parseblock, Tokens.block]
      rfl
  | succ n ih =>
    obtain ⟨ihline, ihpipe, ihexec, ihblock⟩ := ih
    refine ⟨fun s ts h => ?_, fun s ts h => ?_, fun s ts h => ?_, fun s ts h => ?_⟩
    · rw [parseline, Tokens.line]
      apply (ihpipe s ts h).bind
      intro cmd s ts h
      apply (agree_backs h0 h).bind
      intro cmd s ts h
      dsimp only
      obtain ⟨s', h', hpeek⟩ := h.peek_eq h0
      rw [hpeek _ (by decide)]
      cases ts with
      | nil => exact .ok h'
      | cons t ts =>
        cases t with
        | semi => exact (ihline _ _ (h'.gettoken_cons h0).2.2).bind fun right s ts h => .ok h
        | _ => exact .ok h'
    · rw [parsepipe, Tokens.pipe]
      apply (ihexec s ts h).bind
      intro cmd s ts h
      dsimp only
      obtain ⟨s', h', hpeek⟩ := h.peek_eq h0
      rw [hpeek _ (by decide)]
      cases ts with
      | nil => exact .ok h'
      | cons t ts =>
        cases t with
        | bar => exact (ihpipe _ _ (h'.gettoken_cons h0).2.2).bind fun right s ts h => .ok h
        | _ => exact .ok h'
    · obtain ⟨s', h', hpeek⟩ := h.peek_eq h0
      rw [parseexec, Tokens.exec_succ, hpeek _ (by decide)]
      cases ts with
      | nil => exact agree_simple h0 h'
      | cons t ts =>
        cases t with
        | lparen => exact ihblock s' ts h'
        | _ => exact agree_simple h0 h'
    · obtain ⟨s', h', hpeek⟩ := h.peek_eq h0
      rw [parseblock, Tokens.block, hpeek _ (by decide)]
      apply (ihline _ _ (h'.gettoken_cons h0).2.2).bind
      intro cmd s ts h
      dsimp only
      obtain ⟨s', h', hpeek⟩ := h.peek_eq h0
      rw [hpeek _ (by decide)]
      cases ts with
      | nil => rfl
      | cons t ts =>
        cases t with
        | rparen =>
          exact (agree_redirs h0 (h'.gettoken_cons h0).2.2).bind fun rs s ts h => .ok h
        | _ => rfl

end

theorem parsecmd_eq (text : List UInt8) (n : Nat) : parsecmd text n =
    parseline text n 0 >>= fun (cmd, s) =>
      if skip text s ≠ text.length then .error (.leftovers (skip text s))
      else .ok (cmd, nulterminate (text ++ [0]) cmd) := rfl

section
variable {n : Nat} {ts : List Tok} (h0 : 0 ∉ text) (hts : Lexes text 0 ts)
include h0 hts

theorem parsecmd_error (hn : 4 * ts.length + 5 ≤ n) (h : parsecmd text n = .error e) :
    e.SyntaxError := by
  have hagree := (agrees h0 n).1 0 ts hts
  rcases bind_eq_error.mp h with hline | ⟨⟨cmd, s⟩, hline, h₁⟩
  · rw [hline] at hagree
    exact Tokens.line_error hagree.error_left hn
  · dsimp only at h₁
    split at h₁
    · cases h₁
      trivial
    · cases h₁

theorem parsecmd_ok (hn : 4 * ts.length + 5 ≤ n) : parsecmd text n = .ok (cmd, buf) ↔
    Derives .line ts cmd ∧ buf = nulterminate (text ++ [0]) cmd := by
  have hagree := (agrees h0 n).1 0 ts hts
  rw [parsecmd_eq, bind_eq_ok, ← Tokens.line_eq_ok hn]
  constructor
  · rintro ⟨⟨cmd', s⟩, hline, h⟩
    dsimp only at h
    split at h
    · cases h
    next hend =>
      cases h
      rw [hline] at hagree
      obtain ⟨rest, htok, hrest⟩ := hagree.ok_left
      refine ⟨?_, rfl⟩
      cases rest with
      | nil => exact htok
      | cons t rest =>
        obtain ⟨e, hat, -⟩ := hrest.skip_cons
        have hlt := hat.lt
        omega
  · rintro ⟨htok, rfl⟩
    rw [htok] at hagree
    obtain ⟨s, hline, hs⟩ := hagree.ok_right
    refine ⟨(cmd, s), hline, ?_⟩
    dsimp only
    rw [if_neg (not_not_intro hs.skip_nil)]

end

/-! ## What the words read as -/

/-- The arguments and the files of the redirections. -/
def Cmd.words : Cmd → List Span
  | .exec argv => argv
  | .redir cmd r => cmd.words ++ [r.file]
  | .pipe left right => left.words ++ right.words
  | .list left right => left.words ++ right.words
  | .back cmd => cmd.words

/-- The string that a `char *` into the buffer points to. -/
def cstr (buf : List UInt8) (q : Nat) : List UInt8 := (buf.drop q).takeWhile (· ≠ 0)

theorem nulterminate_eq (buf : List UInt8) (cmd : Cmd) :
    nulterminate buf cmd = nulWords buf cmd.words := by
  induction cmd generalizing buf with
  | exec argv => rfl
  | redir cmd r ih =>
    rw [nulterminate, ih, Cmd.words, nulWords, nulWords, nulWords, foldl_append]
  | pipe left right ihl ihr =>
    rw [nulterminate, ihl, ihr, Cmd.words, nulWords, nulWords, nulWords, foldl_append]
  | list left right ihl ihr =>
    rw [nulterminate, ihl, ihr, Cmd.words, nulWords, nulWords, nulWords, foldl_append]
  | back cmd ih => exact ih buf

theorem nulWords_of_ne {buf : List UInt8} {ws : List Span} (h : ∀ w ∈ ws, w.eq ≠ i) :
    (nulWords buf ws)[i]? = buf[i]? := by
  induction ws generalizing buf with
  | nil => rfl
  | cons w ws ih =>
    have hw : w.eq ≠ i := h w mem_cons_self
    calc (nulWords (buf.set w.eq 0) ws)[i]? = (buf.set w.eq 0)[i]? :=
          ih fun w' hw' => h w' (mem_cons_of_mem w hw')
      _ = buf[i]? := List.getElem?_set_ne hw

theorem nulWords_of_mem {buf : List UInt8} {ws : List Span} (h : ∃ w ∈ ws, w.eq = i)
    (hc : (nulWords buf ws)[i]? = some c) : c = 0 := by
  induction ws generalizing buf with
  | nil => simp at h
  | cons w ws ih =>
    by_cases hws : ∃ w ∈ ws, w.eq = i
    · exact ih hws hc
    · have hset : (nulWords (buf.set w.eq 0) ws)[i]? = some c := hc
      obtain rfl : w.eq = i := by simpa [hws] using h
      rw [nulWords_of_ne fun w' hw' heq => hws ⟨w', hw', heq⟩, List.getElem?_set_self'] at hset
      cases hbuf : buf[w.eq]? with
      | none =>
        rw [hbuf] at hset
        cases hset
      | some d =>
        rw [hbuf] at hset
        exact (Option.some.inj hset).symm

theorem Tok.op_file {t : Tok} (h : t.op = some mk) : (mk file).file = file := by
  cases t with
  | lt | gt | gtgt =>
    cases h
    rfl
  | _ => cases h

theorem Redirs.words (h : Redirs ts rs) : ∀ r ∈ rs, .word r.file ∈ ts := by
  induction h with
  | nil => simp
  | cons hop _ ih =>
    intro r hr
    rcases mem_cons.mp hr with rfl | hr
    · simp [Tok.op_file hop]
    · simp [ih r hr]

theorem Args.words (h : Args ts argv rs) :
    (∀ w ∈ argv, .word w ∈ ts) ∧ ∀ r ∈ rs, .word r.file ∈ ts := by
  induction h with
  | nil => simp
  | word _ ih =>
    refine ⟨fun w hw => ?_, fun r hr => mem_cons_of_mem _ (ih.2 r hr)⟩
    rcases mem_cons.mp hw with rfl | hw
    · exact mem_cons_self
    · exact mem_cons_of_mem _ (ih.1 w hw)
  | redir hop _ ih =>
    refine ⟨fun w hw => by simp [ih.1 w hw], fun r hr => ?_⟩
    rcases mem_cons.mp hr with rfl | hr
    · simp [Tok.op_file hop]
    · simp [ih.2 r hr]

theorem words_redirs (cmd : Cmd) (rs : List Redir) :
    (cmd.redirs rs).words = cmd.words ++ rs.map (·.file) := by
  induction rs generalizing cmd with
  | nil => exact (append_nil _).symm
  | cons r rs ih =>
    calc ((Cmd.redir cmd r).redirs rs).words = (cmd.words ++ [r.file]) ++ rs.map (·.file) := ih _
      _ = cmd.words ++ (r :: rs).map (·.file) := by simp

theorem words_backs (cmd : Cmd) (k : Nat) : (cmd.backs k).words = cmd.words := by
  induction k generalizing cmd with
  | zero => rfl
  | succ k ih => exact ih (.back cmd)

theorem Derives.words (h : Derives p ts cmd) : ∀ w ∈ cmd.words, .word w ∈ ts := by
  induction h with
  | line _ ih =>
    intro w hw
    rw [words_backs] at hw
    exact mem_append_left _ (ih w hw)
  | seq _ _ ihl ihr =>
    intro w hw
    rw [Cmd.words, words_backs] at hw
    rcases mem_append.mp hw with hw | hw
    · simp [ihl w hw]
    · simp [ihr w hw]
  | pipe _ ih => exact ih
  | join _ _ ihl ihr =>
    intro w hw
    rcases mem_append.mp hw with hw | hw
    · simp [ihl w hw]
    · simp [ihr w hw]
  | block _ hredirs ih =>
    intro w hw
    rw [words_redirs] at hw
    rcases mem_append.mp hw with hw | hw
    · simp [ih w hw]
    · obtain ⟨r, hr, rfl⟩ := mem_map.mp hw
      simp [hredirs.words r hr]
  | simple hargs _ =>
    intro w hw
    rw [words_redirs] at hw
    rcases mem_append.mp hw with hw | hw
    · exact hargs.words.1 w hw
    · obtain ⟨r, hr, rfl⟩ := mem_map.mp hw
      exact hargs.words.2 r hr

theorem Lexes.word (h : Lexes text s ts) (hw : .word w ∈ ts) : TokenAt text w.q w.eq (.word w) := by
  induction h with
  | nil => cases hw
  | cons _ htok _ ih =>
    rcases mem_cons.mp hw with rfl | hw
    · obtain rfl := htok.word_eq
      exact htok
    · exact ih hw

theorem TokenAt.word_spec (h : TokenAt text q e (.word w)) :
    Between text ordinary q e ∧ ∀ c, text[e]? = some c → ordinary c = false := by
  cases h with
  | symbol hlead => cases hlead
  | word _ hword hstop => exact ⟨hword, hstop⟩

/-- No word ends inside another one, so each is there as a string. -/
theorem cstr_word (h0 : 0 ∉ text) {words : List Span}
    (hwords : ∀ w ∈ words, TokenAt text w.q w.eq (.word w)) (hw : w ∈ words) :
    cstr (nulWords (text ++ [0]) words) w.q = (text.drop w.q).take (w.eq - w.q) := by
  obtain ⟨hword, -⟩ := (hwords w hw).word_spec
  have hsame : ∀ i, w.q ≤ i → i < w.eq → (nulWords (text ++ [0]) words)[i]? = text[i]? := by
    intro i hq he
    obtain ⟨c, hc, hord⟩ := hword.2 i hq he
    rw [nulWords_of_ne, List.getElem?_append_left (lt_length hc)]
    rintro w' hw' rfl
    rw [(hwords w' hw').word_spec.2 c hc] at hord
    cases hord
  have hbetween : Between (nulWords (text ++ [0]) words) (· ≠ 0) w.q w.eq := by
    refine ⟨hword.1, fun i hq he => ?_⟩
    obtain ⟨c, hc, -⟩ := hword.2 i hq he
    refine ⟨c, (hsame i hq he).trans hc, decide_eq_true ?_⟩
    rintro rfl
    exact h0 (mem_of_getElem? hc)
  have hscan : scan (nulWords (text ++ [0]) words) (· ≠ 0) w.q = w.eq := by
    apply scan_eq hbetween
    intro c hc
    simpa using nulWords_of_mem ⟨w, hw, rfl⟩ hc
  rw [scan] at hscan
  rw [cstr, prefix_iff_eq_take.mp (List.takeWhile_prefix _), Nat.eq_sub_of_add_eq' hscan]
  apply ext_getElem?
  intro i
  rw [List.getElem?_take, List.getElem?_take]
  split
  next hi => rw [List.getElem?_drop, List.getElem?_drop, hsame _ (by omega) (by omega)]
  · rfl

/-- With enough depth, the parser ends; it makes the command of each line whose tokens are derived,
and reports an error for the others. The words of the command are strings in the buffer. -/
theorem parsecmd_right (text : List UInt8) (h0 : 0 ∉ text) (n : Nat)
    (hn : 4 * text.length + 5 ≤ n) :
    ∃ ts, (∀ us, Lexes text 0 us ↔ us = ts) ∧
      (∀ e, parsecmd text n = .error e → e.SyntaxError) ∧
      (∀ cmd, (∃ buf, parsecmd text n = .ok (cmd, buf)) ↔ Derives .line ts cmd) ∧
      ∀ cmd buf, parsecmd text n = .ok (cmd, buf) → ∀ w ∈ cmd.words,
        .word w ∈ ts ∧ cstr buf w.q = (text.drop w.q).take (w.eq - w.q) := by
  obtain ⟨ts, hts⟩ := Lexes.exists_of_le (Nat.zero_le text.length)
  have hle := hts.le
  have hn' : 4 * ts.length + 5 ≤ n := by omega
  refine ⟨ts, fun us => ⟨fun hus => hus.unique h0 hts, fun hus => hus ▸ hts⟩,
    fun e => parsecmd_error h0 hts hn', fun cmd => ?_, fun cmd buf h w hw => ?_⟩
  · simp only [parsecmd_ok h0 hts hn', exists_and_left, exists_eq, and_true]
  · obtain ⟨hder, rfl⟩ := (parsecmd_ok h0 hts hn').mp h
    refine ⟨hder.words w hw, ?_⟩
    rw [nulterminate_eq]
    exact cstr_word h0 (fun w' hw' => hts.word (hder.words w' hw')) hw

/-- `a|b>c` -/
theorem parsecmd_right_pipe :
    0 ∉ ([97, 124, 98, 62, 99] : List UInt8) ∧
    ∃ ts, (∀ us, Lexes [97, 124, 98, 62, 99] 0 us ↔ us = ts) ∧
      (∀ e, parsecmd [97, 124, 98, 62, 99] 25 = .error e → e.SyntaxError) ∧
      (∀ cmd, (∃ buf, parsecmd [97, 124, 98, 62, 99] 25 = .ok (cmd, buf)) ↔ Derives .line ts cmd) ∧
      ∀ cmd buf, parsecmd [97, 124, 98, 62, 99] 25 = .ok (cmd, buf) → ∀ w ∈ cmd.words,
        .word w ∈ ts ∧ cstr buf w.q = ([97, 124, 98, 62, 99].drop w.q).take (w.eq - w.q) :=
  ⟨by decide, parsecmd_right _ (by decide) 25 (by decide)⟩

example : parsecmd [97, 124, 98, 62, 99] 25 =
    .ok (.pipe (.exec [⟨0, 1⟩]) (.redir (.exec [⟨2, 3⟩]) ⟨⟨4, 5⟩, 0x201, 1⟩),
      [97, 0, 98, 0, 99, 0]) := by
  rfl

end Xv6.Sh
