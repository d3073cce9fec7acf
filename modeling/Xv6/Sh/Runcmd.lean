import Xv6.Sh.Parse

/-!
# Running a command

`runcmd` of `sh.c`, with the descriptors of the processes that it forks. What a command comes to are
the programs that its processes call `exec` for. Each call of `fork`, `pipe` and `open` may fail. A pipe
is known by the place of its command.
-/

namespace Xv6.Sh

/-- What a descriptor is open for: something given to the shell, a file or a pipe. -/
inductive Desc
  | given (n : Nat)
  | file (r : Redir)
  | pipeRead (place : List Bool)
  | pipeWrite (place : List Bool)

/-- The descriptors of a process. -/
abbrev Ofile := List (Option Desc)

/-- The lowest free descriptor is made to be `d`. -/
def fdalloc (d : Desc) : Ofile → Option (Nat × Ofile)
  | [] => none
  | none :: ds => some (0, some d :: ds)
  | some x :: ds => (fdalloc d ds).map fun r => (r.1 + 1, some x :: r.2)

def close (fd : Nat) (ds : Ofile) : Ofile := ds.set fd none

def dup (fd : Nat) (ds : Ofile) : Ofile :=
  match ds.getD fd none with
  | none => ds
  | some d => ((fdalloc d ds).map Prod.snd).getD ds

/-- Whether the next calls succeed (after the last answer, all do), and the programs so far, each with
its arguments and descriptors. -/
structure Shell where
  answers : List Bool
  programs : List (List Span × Ofile)

/-- A call that may fail, and what follows if it does not. -/
def Shell.call (s : Shell) (k : Shell → Shell) : Shell :=
  let s' := { s with answers := s.answers.tail }
  if s.answers.headD true then k s' else s'

/-- `close(fd); dup(p); close(p[0]); close(p[1])` -/
def redirect (fd p p0 p1 : Nat) (ds : Ofile) : Ofile := close p1 (close p0 (dup p (close fd ds)))

def runcmd (place : List Bool) : Cmd → Ofile → Shell → Shell
  | .exec argv, ds, s =>
    if argv = [] then s else { s with programs := s.programs ++ [(argv, ds)] }
  | .redir cmd r, ds, s =>
    s.call fun s =>
      match fdalloc (.file r) (close r.fd ds) with
      | none => s
      | some (_, ds) => runcmd (true :: place) cmd ds s
  | .list left right, ds, s =>
    s.call fun s => runcmd (false :: place) right ds (runcmd (true :: place) left ds s)
  | .pipe left right, ds, s =>
    s.call fun s =>
      match fdalloc (.pipeRead place) ds with
      | none => s
      | some (p0, ds) =>
        match fdalloc (.pipeWrite place) ds with
        | none => s
        | some (p1, ds) =>
          s.call fun s =>
            Shell.call (runcmd (true :: place) left (redirect 1 p1 p0 p1 ds) s) fun s =>
              runcmd (false :: place) right (redirect 0 p0 p0 p1 ds) s
  | .back cmd, ds, s => s.call fun s => runcmd (true :: place) cmd ds s

/-! ## What a command means -/

/-- The programs of a command, with what is to be the input and the output of each. -/
def plan (place : List Bool) : Cmd → (stdin stdout : Desc) → List (List Span × Desc × Desc)
  | .exec argv, i, o => if argv = [] then [] else [(argv, i, o)]
  | .redir cmd r, i, o =>
    if r.fd = 0 then plan (true :: place) cmd (.file r) o else plan (true :: place) cmd i (.file r)
  | .list left right, i, o => plan (true :: place) left i o ++ plan (false :: place) right i o
  | .pipe left right, i, o =>
    plan (true :: place) left i (.pipeWrite place) ++ plan (false :: place) right (.pipeRead place) o
  | .back cmd, i, o => plan (true :: place) cmd i o

/-- Redirections are of the standard input or output. -/
def Cmd.Standard : Cmd → Prop
  | .exec _ => True
  | .redir cmd r => r.fd ≤ 1 ∧ cmd.Standard
  | .list left right | .pipe left right => left.Standard ∧ right.Standard
  | .back cmd => cmd.Standard

def three (i o e : Desc) : Ofile := some i :: some o :: some e :: List.replicate (NOFILE - 3) none

/-- From `s` to `t` come some of the programs planned: all, if no call fails. -/
def Comes (e : Desc) (ps : List (List Span × Desc × Desc)) (s t : Shell) : Prop :=
  ∃ qs, t.programs = s.programs ++ qs.map (fun q => (q.1, three q.2.1 q.2.2 e)) ∧ qs.Sublist ps ∧
    ((∀ a ∈ s.answers, a = true) → (∀ a ∈ t.answers, a = true) ∧ qs = ps)

variable {e : Desc} {ps ps' : List (List Span × Desc × Desc)} {s t u : Shell}

theorem Comes.call {k : Shell → Shell} (h : ∀ s', Comes e ps s' (k s')) :
    Comes e ps s (s.call k) := by
  obtain ⟨qs, hqs, hsub, hall⟩ := h { s with answers := s.answers.tail }
  unfold Shell.call
  split
  next => exact ⟨qs, hqs, hsub, fun ha => hall fun a hmem => ha a (List.mem_of_mem_tail hmem)⟩
  next hno =>
    refine ⟨[], (List.append_nil _).symm, List.nil_sublist _, fun ha => absurd ?_ hno⟩
    cases hans : s.answers with
    | nil => rfl
    | cons a as => exact ha a (hans ▸ List.mem_cons_self)

theorem Comes.append (h : Comes e ps s t) (h' : Comes e ps' t u) : Comes e (ps ++ ps') s u := by
  obtain ⟨qs, hqs, hsub, hall⟩ := h
  obtain ⟨qs', hqs', hsub', hall'⟩ := h'
  refine ⟨qs ++ qs', ?_, hsub.append hsub', fun ha => ?_⟩
  · rw [hqs', hqs, List.map_append, List.append_assoc]
  · obtain ⟨ht, rfl⟩ := hall ha
    obtain ⟨hu, rfl⟩ := hall' ht
    exact ⟨hu, rfl⟩

end Xv6.Sh
