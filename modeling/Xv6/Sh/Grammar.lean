import Xv6.Sh.Parse

/-!
# The grammar of command lines

    line  := pipe '&'* [';' line]
    pipe  := exec ['|' pipe]
    exec  := '(' line ')' redir* | (redir | word)*
    redir := ('<' | '>' | '>>') word

`Derives` relates the tokens of each part to its command. The functions of the parser on lists of
tokens (`line`, `pipe`, `exec`, `block`) accept what is derived, with the same command.
-/

namespace Xv6.Sh

open List
open Files (O_RDONLY O_WRONLY O_CREATE)

inductive Tok
  | bar
  | lparen
  | rparen
  | semi
  | amp
  | lt
  | gt
  | gtgt
  | word (w : Span)
  deriving DecidableEq

/-- What a token redirects. -/
def Tok.op : Tok → Option (Span → Redir)
  | .lt => some fun file => ⟨file, O_RDONLY, 0⟩
  | .gt | .gtgt => some fun file => ⟨file, O_WRONLY ||| O_CREATE, 1⟩
  | _ => none

/-- The tokens that end a simple command. -/
def Tok.ends : Tok → Bool
  | .bar | .rparen | .amp | .semi => true
  | _ => false

/-! ## Derivations -/

/-- `redir*` -/
inductive Redirs : List Tok → List Redir → Prop
  | nil : Redirs [] []
  | cons : t.op = some mk → Redirs ts rs → Redirs (t :: .word file :: ts) (mk file :: rs)

/-- `(redir | word)*` -/
inductive Args : List Tok → List Span → List Redir → Prop
  | nil : Args [] [] []
  | word : Args ts argv rs → Args (.word w :: ts) (w :: argv) rs
  | redir : t.op = some mk → Args ts argv rs → Args (t :: .word file :: ts) argv (mk file :: rs)

/-- The command in `k` background commands. -/
def Cmd.backs (cmd : Cmd) (k : Nat) : Cmd := .back^[k] cmd

inductive Part
  | line
  | pipe
  | exec

inductive Derives : Part → List Tok → Cmd → Prop
  | line : Derives .pipe ts cmd → Derives .line (ts ++ List.replicate k .amp) (cmd.backs k)
  | seq : Derives .pipe ts left → Derives .line us right →
      Derives .line (ts ++ List.replicate k .amp ++ .semi :: us) (.list (left.backs k) right)
  | pipe : Derives .exec ts cmd → Derives .pipe ts cmd
  | join : Derives .exec ts left → Derives .pipe us right →
      Derives .pipe (ts ++ .bar :: us) (.pipe left right)
  | block : Derives .line ts cmd → Redirs us rs →
      Derives .exec (.lparen :: ts ++ .rparen :: us) (cmd.redirs rs)
  | simple : Args ts argv rs → argv.length < MAXARGS →
      Derives .exec ts (.redirs (.exec argv) rs)

/-! ## The parser on tokens -/

/-- What the parser says of a line that is not derived. -/
def Stop.SyntaxError : Stop → Prop
  | .panic msg => msg = "missing file for redirection" ∨ msg = "too many args" ∨ msg = "syntax" ∨
      msg = "syntax - missing )"
  | .leftovers _ => True
  | .turns => False

namespace Tokens

def redirs : Nat → List Redir → List Tok → Except Stop (List Redir × List Tok)
  | 0, _, _ => .error .turns
  | _ + 1, rs, [] => .ok (rs, [])
  | n + 1, rs, t :: ts =>
    match t.op with
    | none => .ok (rs, t :: ts)
    | some mk =>
      match ts with
      | .word file :: ts => redirs n (rs ++ [mk file]) ts
      | _ => .error (.panic "missing file for redirection")

def args : Nat → List Span → List Redir → List Tok → Except Stop (Cmd × List Tok)
  | 0, _, _, _ => .error .turns
  | n + 1, argv, rs, ts =>
    match ts with
    | [] => .ok (.redirs (.exec argv) rs, [])
    | .word w :: ts =>
      if (argv ++ [w]).length ≥ MAXARGS then .error (.panic "too many args")
      else do
        let (rs, ts) ← redirs n rs ts
        args n (argv ++ [w]) rs ts
    | t :: ts =>
      if t.ends then .ok (.redirs (.exec argv) rs, t :: ts) else .error (.panic "syntax")

def backs : Nat → Cmd → List Tok → Except Stop (Cmd × List Tok)
  | 0, _, _ => .error .turns
  | n + 1, cmd, ts =>
    match ts with
    | .amp :: ts => backs n (.back cmd) ts
    | ts => .ok (cmd, ts)

mutual

def line : Nat → List Tok → Except Stop (Cmd × List Tok)
  | 0, _ => .error .turns
  | n + 1, ts => do
    let (cmd, ts) ← pipe n ts
    let (cmd, ts) ← backs n cmd ts
    match ts with
    | .semi :: ts => do
      let (right, ts) ← line n ts
      .ok (.list cmd right, ts)
    | ts => .ok (cmd, ts)
termination_by structural n => n

def pipe : Nat → List Tok → Except Stop (Cmd × List Tok)
  | 0, _ => .error .turns
  | n + 1, ts => do
    let (cmd, ts) ← exec n ts
    match ts with
    | .bar :: ts => do
      let (right, ts) ← pipe n ts
      .ok (.pipe cmd right, ts)
    | ts => .ok (cmd, ts)
termination_by structural n => n

def exec : Nat → List Tok → Except Stop (Cmd × List Tok)
  | 0, _ => .error .turns
  | n + 1, ts =>
    match ts with
    | .lparen :: ts => block n ts
    | ts => do
      let (rs, ts) ← redirs n [] ts
      args n [] rs ts
termination_by structural n => n

/-- A block, without its opening parenthesis. -/
def block : Nat → List Tok → Except Stop (Cmd × List Tok)
  | 0, _ => .error .turns
  | n + 1, ts => do
    let (cmd, ts) ← line n ts
    match ts with
    | .rparen :: ts => do
      let (rs, ts) ← redirs n [] ts
      .ok (cmd.redirs rs, ts)
    | _ => .error (.panic "syntax - missing )")
termination_by structural n => n

end

end Tokens

/-! ## What is accepted is derived -/

section
variable {ε α β : Type} {x : Except ε α} {f : α → Except ε β}

theorem bind_eq_ok {b : β} : (x >>= f) = .ok b ↔ ∃ a, x = .ok a ∧ f a = .ok b := by
  cases x with
  | error e => simp [bind, Except.bind]
  | ok a => simp [bind, Except.bind]

theorem bind_eq_error {e : ε} :
    (x >>= f) = .error e ↔ x = .error e ∨ ∃ a, x = .ok a ∧ f a = .error e := by
  cases x with
  | error e => simp [bind, Except.bind]
  | ok a => simp [bind, Except.bind]

/-- What the parser returns satisfies `Q`; if it was deep enough, an error is one in the line. -/
def Ends (deep : Prop) (Q : α → Prop) : Except Stop α → Prop
  | .ok a => Q a
  | .error e => deep → e.SyntaxError

section
variable {deep deep' : Prop} {Q : α → Prop} {x : Except Stop α} (h : Ends deep Q x)
  (hdeep : deep' → deep)
include h hdeep

theorem Ends.imp {Q' : α → Prop} (hQ : ∀ a, Q a → Q' a) : Ends deep' Q' x := by
  cases x with
  | error e => exact h ∘ hdeep
  | ok a => exact hQ a h

theorem Ends.bind {Q' : β → Prop} {f : α → Except Stop β} (hf : ∀ a, Q a → Ends deep' Q' (f a)) :
    Ends deep' Q' (x >>= f) := by
  cases x with
  | error e => exact h ∘ hdeep
  | ok a => exact hf a h

end

end

theorem Redirs.args (h : Redirs ts rs) (h' : Args us argv rs') :
    Args (ts ++ us) argv (rs ++ rs') := by
  induction h with
  | nil => exact h'
  | cons hop _ ih => exact .redir hop ih

namespace Tokens

variable {n : Nat} {ts rest : List Tok} {rs rs' : List Redir} {argv : List Span} {cmd : Cmd}

theorem args_succ : args (n + 1) argv rs ts =
    match ts with
    | [] => .ok (.redirs (.exec argv) rs, [])
    | .word w :: ts =>
      if (argv ++ [w]).length ≥ MAXARGS then .error (.panic "too many args")
      else do
        let (rs, ts) ← redirs n rs ts
        args n (argv ++ [w]) rs ts
    | t :: ts =>
      if t.ends then .ok (.redirs (.exec argv) rs, t :: ts) else .error (.panic "syntax") := by
  rw [args.eq_def]

theorem backs_succ : backs (n + 1) cmd ts =
    match ts with
    | .amp :: ts => backs n (.back cmd) ts
    | ts => .ok (cmd, ts) := by
  rw [backs.eq_def]

theorem exec_succ : exec (n + 1) ts =
    match ts with
    | .lparen :: ts => block n ts
    | ts => redirs n [] ts >>= fun (rs, ts) => args n [] rs ts := by
  rw [exec.eq_def]

theorem redirs_sound : Ends (ts.length < n) (fun r =>
    ∃ pre new, ts = pre ++ r.2 ∧ Redirs pre new ∧ r.1 = rs ++ new) (redirs n rs ts) := by
  induction n generalizing rs ts with
  | zero => exact fun hn => absurd hn (Nat.not_lt_zero _)
  | succ n ih =>
    cases ts with
    | nil => exact ⟨[], [], rfl, .nil, by simp⟩
    | cons t ts =>
      rw [redirs]
      split
      · exact ⟨[], [], rfl, .nil, by simp⟩
      next mk hop =>
        split
        next file ts =>
          refine ih.imp (fun hn => ?_) ?_
          · simp only [length_cons] at hn
            omega
          · rintro ⟨_, rest⟩ ⟨pre, new, rfl, hpre, rfl⟩
            exact ⟨t :: .word file :: pre, mk file :: new, rfl, .cons hop hpre, by simp⟩
        · exact fun _ => .inl rfl

theorem args_sound (hargv : argv.length < MAXARGS) : Ends (ts.length < n) (fun r =>
    ∃ pre ws new, ts = pre ++ r.2 ∧ Args pre ws new ∧ (argv ++ ws).length < MAXARGS ∧
      r.1 = .redirs (.exec (argv ++ ws)) (rs ++ new)) (args n argv rs ts) := by
  induction n generalizing argv rs ts with
  | zero => exact fun hn => absurd hn (Nat.not_lt_zero _)
  | succ n ih =>
    rw [args_succ]
    split
    · exact ⟨[], [], [], rfl, .nil, by simpa, by simp⟩
    next w ts =>
      split
      · exact fun _ => .inr (.inl rfl)
      next hlt =>
        refine redirs_sound.bind (fun hn => ?_) ?_
        · simp only [length_cons] at hn
          omega
        rintro ⟨_, ts₁⟩ ⟨pre₁, new₁, rfl, hpre₁, rfl⟩
        refine (ih (Nat.not_le.mp hlt)).imp (fun hn => ?_) ?_
        · simp only [length_cons, length_append] at hn
          omega
        rintro ⟨_, rest⟩ ⟨pre, ws, new, rfl, hpre, hlen, rfl⟩
        exact ⟨.word w :: (pre₁ ++ pre), w :: ws, new₁ ++ new, by simp, .word (hpre₁.args hpre),
          by simpa using hlen, by simp⟩
    · split
      · exact ⟨[], [], [], rfl, .nil, by simpa, by simp⟩
      · exact fun _ => .inr (.inr (.inl rfl))

theorem backs_sound : Ends (ts.length < n) (fun r =>
    ∃ k, ts = List.replicate k .amp ++ r.2 ∧ r.1 = cmd.backs k) (backs n cmd ts) := by
  induction n generalizing cmd ts with
  | zero => exact fun hn => absurd hn (Nat.not_lt_zero _)
  | succ n ih =>
    rw [backs_succ]
    split
    next ts =>
      refine ih.imp Nat.lt_of_succ_lt_succ ?_
      rintro ⟨_, rest⟩ ⟨k, rfl, rfl⟩
      exact ⟨k + 1, rfl, rfl⟩
    · exact ⟨0, rfl, rfl⟩

/-- What each function takes from the tokens is derived. With the depth that it needs, it stops for an
error in the line only. -/
def Sound (n : Nat) : Prop :=
  (∀ ts, Ends (4 * ts.length + 5 ≤ n) (fun r => ∃ pre, ts = pre ++ r.2 ∧ Derives .line pre r.1)
    (line n ts)) ∧
  (∀ ts, Ends (4 * ts.length + 4 ≤ n) (fun r => ∃ pre, ts = pre ++ r.2 ∧ Derives .pipe pre r.1)
    (pipe n ts)) ∧
  (∀ ts, Ends (4 * ts.length + 3 ≤ n) (fun r => ∃ pre, ts = pre ++ r.2 ∧ Derives .exec pre r.1)
    (exec n ts)) ∧
  ∀ ts, Ends (4 * ts.length + 6 ≤ n)
    (fun r => ∃ pre, .lparen :: ts = pre ++ r.2 ∧ Derives .exec pre r.1) (block n ts)

theorem sound (n : Nat) : Sound n := by
  induction n with
  | zero =>
    refine ⟨fun ts => ?_, fun ts => ?_, fun ts => ?_, fun ts => ?_⟩
    · rw [line]
      exact fun hn => absurd hn (Nat.not_succ_le_zero _)
    · rw [pipe]
      exact fun hn => absurd hn (Nat.not_succ_le_zero _)
    · rw [exec.eq_def]
      exact fun hn => absurd hn (Nat.not_succ_le_zero _)
    · rw [block]
      exact fun hn => absurd hn (Nat.not_succ_le_zero _)
  | succ n ih =>
    obtain ⟨ihline, ihpipe, ihexec, ihblock⟩ := ih
    refine ⟨fun ts => ?_, fun ts => ?_, fun ts => ?_, fun ts => ?_⟩
    · rw [line]
      refine (ihpipe ts).bind (fun hn => by omega) ?_
      rintro ⟨cmd, _⟩ ⟨pre, rfl, hpre⟩
      simp only [length_append]
      refine backs_sound.bind (fun hn => by omega) ?_
      rintro ⟨_, ts⟩ ⟨k, rfl, rfl⟩
      dsimp only
      split
      next ts =>
        refine (ihline ts).bind (fun hn => ?_) ?_
        · simp only [length_append, length_cons] at hn
          omega
        rintro ⟨right, rest⟩ ⟨pre', rfl, hpre'⟩
        exact ⟨pre ++ List.replicate k .amp ++ .semi :: pre', by simp, .seq hpre hpre'⟩
      · exact ⟨pre ++ List.replicate k .amp, by simp, .line hpre⟩
    · rw [pipe]
      refine (ihexec ts).bind (fun hn => by omega) ?_
      rintro ⟨cmd, ts⟩ ⟨pre, rfl, hpre⟩
      dsimp only
      split
      next ts =>
        refine (ihpipe ts).bind (fun hn => ?_) ?_
        · simp only [length_append, length_cons] at hn
          omega
        rintro ⟨right, rest⟩ ⟨pre', rfl, hpre'⟩
        exact ⟨pre ++ .bar :: pre', by simp, .join hpre hpre'⟩
      · exact ⟨pre, rfl, .pipe hpre⟩
    · rw [exec_succ]
      split
      next ts =>
        refine (ihblock ts).imp (fun hn => ?_) fun _ => id
        simp only [length_cons] at hn
        omega
      · refine redirs_sound.bind (fun hn => by omega) ?_
        rintro ⟨_, ts⟩ ⟨pre, new, rfl, hpre, rfl⟩
        refine (args_sound (by decide)).imp (fun hn => ?_) ?_
        · simp only [length_append] at hn
          omega
        rintro ⟨_, rest⟩ ⟨pre', ws, new', rfl, hpre', hlen, rfl⟩
        exact ⟨pre ++ pre', by simp, .simple (hpre.args hpre') hlen⟩
    · rw [block]
      refine (ihline ts).bind (fun hn => by omega) ?_
      rintro ⟨cmd, ts⟩ ⟨pre, rfl, hpre⟩
      dsimp only
      split
      next ts =>
        refine redirs_sound.bind (fun hn => ?_) ?_
        · simp only [length_append, length_cons] at hn
          omega
        rintro ⟨_, rest⟩ ⟨pre', new, rfl, hpre', rfl⟩
        exact ⟨.lparen :: pre ++ .rparen :: pre', by simp, .block hpre hpre'⟩
      · exact fun _ => .inr (.inr (.inr rfl))

end Tokens

/-! ## What is derived is accepted -/

/-- The tokens that may stand behind a part. -/
def Part.stops : Part → Tok → Bool
  | .line, .rparen => true
  | .line, _ => false
  | .pipe, .rparen | .pipe, .amp | .pipe, .semi => true
  | .pipe, _ => false
  | .exec, t => t.ends

def Part.Follow (p : Part) (rest : List Tok) : Prop := ∀ t us, rest = t :: us → p.stops t

/-- The depth that a part needs besides four times its number of tokens. -/
def Part.room : Part → Nat
  | .line => 5
  | .pipe => 4
  | .exec => 3

theorem Tok.op_of_ends (t : Tok) (h : t.ends) : t.op = none := by
  cases t <;> first | rfl | cases h

theorem Part.Follow.ne {p : Part} (h : p.Follow rest) (ht : p.stops t = false) : rest ≠ t :: us := by
  intro hrest
  rw [h t us hrest] at ht
  cases ht

theorem Args.ne_lparen (h : Args ts argv rs) : ts ≠ .lparen :: us := by
  rintro rfl
  cases h with
  | redir hop => cases hop

theorem Part.Follow.amps (h : Part.pipe.Follow rest) :
    Part.pipe.Follow (List.replicate k .amp ++ rest) := by
  cases k with
  | zero => exact h
  | succ k =>
    rintro _ _ ⟨rfl, rfl⟩
    rfl

theorem Part.Follow.pipe (h : Part.line.Follow rest) : Part.pipe.Follow rest := by
  rintro t us rfl
  have hstops := h t us rfl
  cases t <;> first | rfl | cases hstops

theorem Part.Follow.exec (h : Part.pipe.Follow rest) : Part.exec.Follow rest := by
  rintro t us rfl
  have hstops := h t us rfl
  cases t <;> first | rfl | cases hstops

namespace Tokens

theorem redirs_rest (h : ∀ t us, rest = t :: us → t.op = none) :
    redirs (n + 1) rs rest = .ok (rs, rest) := by
  cases rest with
  | nil => rfl
  | cons t us => rw [redirs, h t us rfl]

theorem redirs_cons (hop : t.op = some mk) :
    redirs (n + 1) rs (t :: .word file :: ts) = redirs n (rs ++ [mk file]) ts := by
  rw [redirs, hop]

theorem redirs_complete (h : Redirs pre new) (hrest : ∀ t us, rest = t :: us → t.op = none)
    (hn : pre.length < n) : redirs n rs (pre ++ rest) = .ok (rs ++ new, rest) := by
  induction h generalizing n rs with
  | nil =>
    obtain ⟨n, rfl⟩ := Nat.exists_eq_add_one_of_ne_zero (Nat.ne_of_gt hn)
    rw [nil_append, redirs_rest hrest, append_nil]
  | cons hop _ ih =>
    obtain ⟨n, rfl⟩ := Nat.exists_eq_add_one_of_ne_zero (Nat.ne_zero_of_lt hn)
    simp only [length_cons] at hn
    rw [cons_append, cons_append, redirs_cons hop, ih (by omega), append_assoc]
    rfl

theorem args_rest (h : Part.exec.Follow rest) :
    args (n + 1) argv rs rest = .ok (.redirs (.exec argv) rs, rest) := by
  cases rest with
  | nil => rfl
  | cons t us =>
    have hends : t.ends := h t us rfl
    cases t <;> first | rfl | cases hends

theorem args_complete (h : Args pre ws new) (hrest : Part.exec.Follow rest)
    (hlen : (argv ++ ws).length < MAXARGS) (hn : pre.length < n) (hm : pre.length < m) :
    (redirs n rs (pre ++ rest) >>= fun (rs, ts) => args m argv rs ts) =
      .ok (.redirs (.exec (argv ++ ws)) (rs ++ new), rest) := by
  induction h generalizing n m argv rs with
  | nil =>
    obtain ⟨n, rfl⟩ := Nat.exists_eq_add_one_of_ne_zero (Nat.ne_zero_of_lt hn)
    obtain ⟨m, rfl⟩ := Nat.exists_eq_add_one_of_ne_zero (Nat.ne_zero_of_lt hm)
    rw [nil_append, redirs_rest fun t us h => t.op_of_ends (hrest t us h), append_nil,
      append_nil]
    exact args_rest hrest
  | @word ts ws new w _ ih =>
    obtain ⟨n, rfl⟩ := Nat.exists_eq_add_one_of_ne_zero (Nat.ne_zero_of_lt hn)
    obtain ⟨m, rfl⟩ := Nat.exists_eq_add_one_of_ne_zero (Nat.ne_zero_of_lt hm)
    simp only [length_cons] at hn hm
    have hlen' : (argv ++ [w] ++ ws).length < MAXARGS := by simpa using hlen
    have hlt : ¬ (argv ++ [w]).length ≥ MAXARGS := by
      simp only [length_append] at hlen' ⊢
      omega
    have h : (redirs m rs (ts ++ rest) >>= fun (rs, ts) => args m (argv ++ [w]) rs ts) =
        .ok (.redirs (.exec (argv ++ [w] ++ ws)) (rs ++ new), rest) :=
      ih hlen' (by omega) (by omega)
    rw [append_assoc] at h
    change args (m + 1) argv rs (.word w :: (ts ++ rest)) = _
    rw [args_succ]
    dsimp only
    rw [if_neg hlt]
    exact h
  | redir hop _ ih =>
    obtain ⟨n, rfl⟩ := Nat.exists_eq_add_one_of_ne_zero (Nat.ne_zero_of_lt hn)
    simp only [length_cons] at hn hm
    rw [cons_append, cons_append, redirs_cons hop, ih hlen (by omega) (by omega),
      append_assoc]
    rfl

theorem backs_complete (hrest : ∀ us, rest ≠ .amp :: us) (hn : k < n) :
    backs n cmd (List.replicate k .amp ++ rest) = .ok (cmd.backs k, rest) := by
  induction k generalizing n cmd with
  | zero =>
    obtain ⟨n, rfl⟩ := Nat.exists_eq_add_one_of_ne_zero (Nat.ne_zero_of_lt hn)
    rw [replicate_zero, nil_append, backs_succ]
    split
    · exact absurd rfl (hrest _)
    · rfl
  | succ k ih =>
    obtain ⟨n, rfl⟩ := Nat.exists_eq_add_one_of_ne_zero (Nat.ne_zero_of_lt hn)
    exact ih (by omega)

def parse : Part → Nat → List Tok → Except Stop (Cmd × List Tok)
  | .line => line
  | .pipe => pipe
  | .exec => exec

theorem line_end (hpipe : pipe n ts = .ok (cmd, us)) (hbacks : backs n cmd us = .ok (cmd', vs))
    (hvs : ∀ ws, vs ≠ .semi :: ws) : line (n + 1) ts = .ok (cmd', vs) := by
  rw [line, hpipe]
  change (backs n cmd us >>= _) = _
  rw [hbacks]
  change (match vs with | .semi :: _ => _ | _ => _) = _
  split
  · exact absurd rfl (hvs _)
  · rfl

theorem line_semi (hpipe : pipe n ts = .ok (cmd, us))
    (hbacks : backs n cmd us = .ok (cmd', .semi :: vs)) (hline : line n vs = .ok (right, ws)) :
    line (n + 1) ts = .ok (.list cmd' right, ws) := by
  rw [line, hpipe]
  change (backs n cmd us >>= _) = _
  rw [hbacks]
  change (line n vs >>= _) = _
  rw [hline]
  rfl

theorem pipe_end (hexec : exec n ts = .ok (cmd, us)) (hus : ∀ vs, us ≠ .bar :: vs) :
    pipe (n + 1) ts = .ok (cmd, us) := by
  rw [pipe, hexec]
  change (match us with | .bar :: _ => _ | _ => _) = _
  split
  · exact absurd rfl (hus _)
  · rfl

theorem pipe_bar (hexec : exec n ts = .ok (cmd, .bar :: us)) (hpipe : pipe n us = .ok (right, vs)) :
    pipe (n + 1) ts = .ok (.pipe cmd right, vs) := by
  rw [pipe, hexec]
  change (pipe n us >>= _) = _
  rw [hpipe]
  rfl

theorem block_rparen (hline : line n ts = .ok (cmd, .rparen :: us))
    (hredirs : redirs n [] us = .ok (rs, vs)) : block (n + 1) ts = .ok (cmd.redirs rs, vs) := by
  rw [block, hline]
  change (redirs n [] us >>= _) = _
  rw [hredirs]
  rfl

theorem complete (h : Derives p pre cmd) (hrest : p.Follow rest)
    (hn : 4 * pre.length + p.room ≤ n) : parse p n (pre ++ rest) = .ok (cmd, rest) := by
  induction h generalizing n rest with
  | @line ts cmd k _ ih =>
    obtain ⟨n, rfl⟩ := Nat.exists_eq_add_one_of_ne_zero (Nat.ne_zero_of_lt hn)
    simp only [length_append, length_replicate, Part.room] at hn
    have hpipe : pipe n (ts ++ (List.replicate k .amp ++ rest)) = _ :=
      ih hrest.pipe.amps (by rw [Part.room]; omega)
    rw [append_assoc]
    apply line_end hpipe
    · exact backs_complete (fun _ => hrest.ne rfl) (by omega)
    · exact fun _ => hrest.ne rfl
  | @seq ts left us right k _ _ ihl ihr =>
    obtain ⟨n, rfl⟩ := Nat.exists_eq_add_one_of_ne_zero (Nat.ne_zero_of_lt hn)
    simp only [length_append, length_replicate, length_cons, Part.room] at hn
    have hsemi : Part.pipe.Follow (.semi :: (us ++ rest)) := by
      rintro _ _ ⟨rfl, rfl⟩
      rfl
    have hpipe : pipe n (ts ++ (List.replicate k .amp ++ .semi :: (us ++ rest))) = _ :=
      ihl hsemi.amps (by rw [Part.room]; omega)
    have hline : line n (us ++ rest) = _ := ihr hrest (by rw [Part.room]; omega)
    rw [append_assoc, append_assoc]
    apply line_semi hpipe _ hline
    exact backs_complete (by simp) (by omega)
  | pipe _ ih =>
    obtain ⟨n, rfl⟩ := Nat.exists_eq_add_one_of_ne_zero (Nat.ne_zero_of_lt hn)
    simp only [Part.room] at hn
    have hexec : exec n _ = _ := ih hrest.exec (by rw [Part.room]; omega)
    exact pipe_end hexec fun _ => hrest.ne rfl
  | @join ts left us right _ _ ihl ihr =>
    obtain ⟨n, rfl⟩ := Nat.exists_eq_add_one_of_ne_zero (Nat.ne_zero_of_lt hn)
    simp only [length_append, length_cons, Part.room] at hn
    have hbar : Part.exec.Follow (.bar :: (us ++ rest)) := by
      rintro _ _ ⟨rfl, rfl⟩
      rfl
    have hexec : exec n (ts ++ .bar :: (us ++ rest)) = _ := ihl hbar (by rw [Part.room]; omega)
    have hpipe : pipe n (us ++ rest) = _ := ihr hrest (by rw [Part.room]; omega)
    rw [append_assoc]
    exact pipe_bar hexec hpipe
  | @block ts cmd us rs _ hus ih =>
    simp only [length_append, length_cons] at hn
    obtain ⟨n, rfl⟩ : ∃ k, n = k + 2 := ⟨n - 2, by omega⟩
    have hclose : Part.line.Follow (.rparen :: (us ++ rest)) := by
      rintro _ _ ⟨rfl, rfl⟩
      rfl
    have hline : line n (ts ++ .rparen :: (us ++ rest)) = _ := ih hclose (by rw [Part.room]; omega)
    rw [parse, append_assoc]
    apply block_rparen hline
    exact redirs_complete hus (fun t us h => t.op_of_ends (hrest t us h)) (by omega)
  | @simple ts argv rs hargs hlen =>
    obtain ⟨n, rfl⟩ := Nat.exists_eq_add_one_of_ne_zero (Nat.ne_zero_of_lt hn)
    simp only [Part.room] at hn
    have hparen : ∀ us, ts ++ rest ≠ .lparen :: us := by
      intro us h
      rcases append_eq_cons_iff.mp h with ⟨-, h⟩ | ⟨ts', rfl, -⟩
      · exact hrest.ne rfl h
      · exact hargs.ne_lparen rfl
    rw [parse, exec_succ]
    split
    next us heq => exact absurd heq (hparen us)
    · exact args_complete hargs hrest hlen (by omega) (by omega)

theorem line_error (h : line n ts = .error e) (hn : 4 * ts.length + 5 ≤ n) : e.SyntaxError := by
  have hsound := (sound n).1 ts
  rw [h] at hsound
  exact hsound hn

/-- The parser accepts what is derived, and makes the command of the derivation. -/
theorem line_eq_ok (hn : 4 * ts.length + 5 ≤ n) :
    line n ts = .ok (cmd, []) ↔ Derives .line ts cmd := by
  constructor
  · intro h
    have hsound := (sound n).1 ts
    rw [h] at hsound
    obtain ⟨pre, rfl, hpre⟩ := hsound
    rwa [append_nil]
  · intro h
    have hparse : parse .line n (ts ++ []) = .ok (cmd, []) := complete h nofun hn
    rwa [append_nil] at hparse

end Tokens

end Xv6.Sh
