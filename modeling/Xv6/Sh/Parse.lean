import Xv6.Files.Table

/-!
# The parser of the shell

`parsecmd` of `sh.c` and the functions that it uses. The line is the bytes before its NUL, a pointer
into it is an index, and a command holds the places of its words. Functions that recur take a bound
on their depth, and stop with `turns` when it is used up. The memory for commands is taken to be
there.
-/

namespace Xv6.Sh

open Files (O_RDONLY O_WRONLY O_CREATE)

def MAXARGS : Nat := 10

/-! ## Commands -/

/-- A word of the line: the pointers to its first byte and behind its last one. -/
structure Span where
  q : Nat
  eq : Nat
  deriving DecidableEq

/-- What `struct redircmd` has besides the command. -/
structure Redir where
  file : Span
  mode : UInt32
  fd : Nat
  deriving DecidableEq

/-- `struct cmd`; `argv` has the places of the arguments before the null pointer. -/
inductive Cmd
  | exec (argv : List Span)
  | redir (cmd : Cmd) (r : Redir)
  | pipe (left right : Cmd)
  | list (left right : Cmd)
  | back (cmd : Cmd)
  deriving DecidableEq

/-- The command inside all redirections, the first one innermost. -/
def Cmd.redirs (cmd : Cmd) (rs : List Redir) : Cmd := rs.foldl .redir cmd

/-- Why the parser stops. -/
inductive Stop
  | panic (msg : String)
  /-- `parsecmd` prints what is left from the index on, and then panics. -/
  | leftovers (s : Nat)
  | turns
  deriving DecidableEq

/-! ## Tokens -/

/-- The bytes of `" \t\r\n\v"`. -/
def whitespace : List UInt8 := [32, 9, 13, 10, 11]

/-- The bytes of `"<|>&;()"`. -/
def symbols : List UInt8 := [60, 124, 62, 38, 59, 40, 41]

variable (line : List UInt8)

/-- `*s`, which is NUL at the end of the line. -/
def char (s : Nat) : UInt8 := line.getD s 0

/-- `while(s < es && p(*s)) s++` -/
def scan (p : UInt8 → Bool) (s : Nat) : Nat := s + ((line.drop s).takeWhile p).length

/-- The loop that skips white space. -/
def skip (s : Nat) : Nat := scan line (· ∈ whitespace) s

/-- The loop that skips a word. -/
def skipWord (s : Nat) : Nat := scan line (fun c => c ∉ whitespace ∧ c ∉ symbols) s

/-- The part of `gettoken` between the two skips: what it returns, and where the token ends. -/
def token (s : Nat) : UInt8 × Nat :=
  let c := char line s
  if c = 0 then (0, s)
  else if c = 124 ∨ c = 40 ∨ c = 41 ∨ c = 59 ∨ c = 38 ∨ c = 60 then (c, s + 1)
  else if c = 62 then
    if char line (s + 1) = 62 then (43, s + 2) else (62, s + 1)
  else (97, skipWord line s)

/-- What `gettoken` returns and leaves in its variables. -/
structure Token where
  ret : UInt8
  q : Nat
  eq : Nat
  s : Nat

def gettoken (s : Nat) : Token :=
  let q := skip line s
  let (ret, eq) := token line q
  ⟨ret, q, eq, skip line eq⟩

/-- `peek`: whether the next byte is one of `toks`, and the index that it leaves. -/
def peek (s : Nat) (toks : List UInt8) : Bool × Nat :=
  let s := skip line s
  (char line s ≠ 0 ∧ char line s ∈ toks, s)

/-! ## Parsing -/

/-- The command that the `switch` of `parseredirs` makes, if any. -/
def redircmd (tok : UInt8) (file : Span) : List Redir :=
  if tok = 60 then [⟨file, O_RDONLY, 0⟩]
  else if tok = 62 then [⟨file, O_WRONLY ||| O_CREATE, 1⟩]
  else if tok = 43 then [⟨file, O_WRONLY ||| O_CREATE, 1⟩]
  else []

/-- `parseredirs`, with the redirections that are around the command already. -/
def parseredirs : (n : Nat) → List Redir → Nat → Except Stop (List Redir × Nat)
  | 0, _, _ => .error .turns
  | n + 1, rs, s =>
    let (more, s) := peek line s [60, 62]
    if more then
      let tok := gettoken line s
      let file := gettoken line tok.s
      if file.ret ≠ 97 then .error (.panic "missing file for redirection")
      else parseredirs n (rs ++ redircmd tok.ret ⟨file.q, file.eq⟩) file.s
    else .ok (rs, s)

/-- The loop of `parseexec`. The command is filled in as it goes, inside the redirections. -/
def parseargs : (n : Nat) → List Span → List Redir → Nat → Except Stop (Cmd × Nat)
  | 0, _, _, _ => .error .turns
  | n + 1, argv, rs, s =>
    let (done, s) := peek line s [124, 41, 38, 59]
    if done then .ok (.redirs (.exec argv) rs, s)
    else
      let tok := gettoken line s
      if tok.ret = 0 then .ok (.redirs (.exec argv) rs, tok.s)
      else if tok.ret ≠ 97 then .error (.panic "syntax")
      else
        let argv := argv ++ [⟨tok.q, tok.eq⟩]
        if argv.length ≥ MAXARGS then .error (.panic "too many args")
        else do
          let (rs, s) ← parseredirs line n rs tok.s
          parseargs n argv rs s

/-- The loop of `parseline`. -/
def parseback : (n : Nat) → Cmd → Nat → Except Stop (Cmd × Nat)
  | 0, _, _ => .error .turns
  | n + 1, cmd, s =>
    let (more, s) := peek line s [38]
    if more then parseback n (.back cmd) (gettoken line s).s else .ok (cmd, s)

mutual

def parseline : (n : Nat) → Nat → Except Stop (Cmd × Nat)
  | 0, _ => .error .turns
  | n + 1, s => do
    let (cmd, s) ← parsepipe n s
    let (cmd, s) ← parseback line n cmd s
    let (more, s) := peek line s [59]
    if more then do
      let (right, s) ← parseline n (gettoken line s).s
      .ok (.list cmd right, s)
    else .ok (cmd, s)
termination_by structural n => n

def parsepipe : (n : Nat) → Nat → Except Stop (Cmd × Nat)
  | 0, _ => .error .turns
  | n + 1, s => do
    let (cmd, s) ← parseexec n s
    let (more, s) := peek line s [124]
    if more then do
      let (right, s) ← parsepipe n (gettoken line s).s
      .ok (.pipe cmd right, s)
    else .ok (cmd, s)
termination_by structural n => n

def parseexec : (n : Nat) → Nat → Except Stop (Cmd × Nat)
  | 0, _ => .error .turns
  | n + 1, s => do
    let (block, s) := peek line s [40]
    if block then parseblock n s
    else do
      let (rs, s) ← parseredirs line n [] s
      parseargs line n [] rs s
termination_by structural n => n

def parseblock : (n : Nat) → Nat → Except Stop (Cmd × Nat)
  | 0, _ => .error .turns
  | n + 1, s => do
    let (block, s) := peek line s [40]
    if !block then .error (.panic "parseblock")
    else do
      let (cmd, s) ← parseline n (gettoken line s).s
      let (close, s) := peek line s [41]
      if !close then .error (.panic "syntax - missing )")
      else do
        let (rs, s) ← parseredirs line n [] (gettoken line s).s
        .ok (cmd.redirs rs, s)
termination_by structural n => n

end

/-- `*eq = 0` for each of the words. -/
def nulWords (buf : List UInt8) (words : List Span) : List UInt8 :=
  words.foldl (fun buf w => buf.set w.eq 0) buf

def nulterminate (buf : List UInt8) : Cmd → List UInt8
  | .exec argv => nulWords buf argv
  | .redir cmd r => nulWords (nulterminate buf cmd) [r.file]
  | .pipe left right => nulterminate (nulterminate buf left) right
  | .list left right => nulterminate (nulterminate buf left) right
  | .back cmd => nulterminate buf cmd

/-- `parsecmd`: the command, and the buffer with the line as `nulterminate` leaves it. -/
def parsecmd (n : Nat) : Except Stop (Cmd × List UInt8) := do
  let (cmd, s) ← parseline line n 0
  let (_, s) := peek line s []
  if s ≠ line.length then .error (.leftovers s)
  else .ok (cmd, nulterminate (line ++ [0]) cmd)

end Xv6.Sh
