import Xv6.Fs.DirMap

/-!
# Path names

`namex` walks from directory to directory. What it finds is said by `walk`, which looks at the nodes
alone, and by the names in the path.
-/

namespace Xv6.Fs

open List

/-- There is a root inode, and directories consist of whole entries that name inodes of the file
system. -/
structure Dirs (s : State) : Prop where
  root : ROOTINO < s.sb.ninodes.toNat
  whole : ∀ i, (s.node i).type = T_DIR → (s.node i).data.length % Dirent.size = 0
  range : ∀ i, (s.node i).type = T_DIR → ∀ (k : Nat) name inum,
    (s.slots i)[k]? = some (some (name, inum)) → inum < s.sb.ninodes.toNat

/-- The invariant around a call, with the references that are held. -/
structure Good (s : State) (r : Refs) : Prop extends Held s r where
  dirs : Dirs s

section
variable {s t : State} {p q : Ip} {r r' : Refs} {i : Nat}

/-- Only the contents of directories matter. -/
theorem Dirs.of_node (h : Dirs s) (hsb : t.sb = s.sb) (hnode : ∀ i, (t.node i).type = T_DIR →
    (s.node i).type = T_DIR ∧ (t.node i).data = (s.node i).data) : Dirs t := by
  refine ⟨hsb ▸ h.root, fun i hi => ?_, fun i hi k name inum hk => ?_⟩
  · rw [(hnode i hi).2]
    exact h.whole i (hnode i hi).1
  · rw [State.slots, (hnode i hi).2] at hk
    rw [hsb]
    exact h.range i (hnode i hi).1 k name inum hk

theorem Dirs.congr (h : Dirs s) (hsb : t.sb = s.sb) (hnode : t.node = s.node) : Dirs t :=
  h.of_node hsb fun i hi => by
    rw [hnode] at hi ⊢
    exact ⟨hi, rfl⟩

theorem FsInv.type_ne (h : FsInv s) (hv : Valid s p) : (s.node (s.icache p).inum).type ≠ 0 := by
  rw [(h.node_of_valid hv).1]
  exact h.cached.type p hv

theorem Good.openDir (h : Good s r) (hv : Valid s p)
    (htype : (s.node (s.icache p).inum).type = T_DIR) : OpenDir s p (s.icache p).inum where
  inv := h.inv.only hv
  valid := hv
  inum := rfl
  type := (h.inv.node_of_valid hv).1 ▸ htype
  size := h.dirs.whole _ htype

end

/-! ## Looking a name up -/

/-- The inode that `name` stands for in a directory. -/
def Node.lookup (nd : Node) (name : List UInt8) : Option Nat := (dirSlots nd.data).find (cname name)

/-! ## Walking along a path -/

/-- What `namex` finds, from inode `i` on. -/
def walk (node : Nat → Node) (nameiparent : Bool) :
    (turns : Nat) → (i : Nat) → (path name : List UInt8) → Option (Nat × List UInt8)
  | 0, _, _, _ => none
  | turns + 1, i, path, name =>
    match skipelem path with
    | some (elem, rest) =>
      if (node i).type ≠ T_DIR then none
      else if nameiparent ∧ rest = [] then some (i, elem)
      else
        match (node i).lookup elem with
        | none => none
        | some j => walk node nameiparent turns j rest elem
    | none => if nameiparent then none else some (i, name)

/-- What a path stands for, for a process whose current directory is inode `cwd`. -/
def resolve (node : Nat → Node) (cwd : Nat) (path : List UInt8) (nameiparent : Bool) :
    Option (Nat × List UInt8) :=
  walk node nameiparent (path.length + 1) (if path.head? = some slash then ROOTINO else cwd) path []

/-! ## Path names as lists of names -/

/-- The names in a path: what is between slashes and is not empty, cut off after `DIRSIZ` bytes. -/
def components (path : List UInt8) : List (List UInt8) :=
  ((path.splitOn slash).filter fun name => name ≠ []).map (·.take DIRSIZ)

/-- Look a name up in inode `i`, which has to be a directory. -/
def lookupIn (node : Nat → Node) (i : Nat) (name : List UInt8) : Option Nat :=
  if (node i).type = T_DIR then (node i).lookup name else none

/-- Look one name up after the other, from inode `i` on. -/
def follow (node : Nat → Node) (i : Nat) (names : List (List UInt8)) : Option Nat :=
  names.foldlM (lookupIn node) i

/-- Follow all names but the last one, which is returned with the directory that they lead to. -/
def followParent (node : Nat → Node) (i : Nat) (names : List (List UInt8)) :
    Option (Nat × List UInt8) := do
  let last ← names.getLast?
  let d ← follow node i names.dropLast
  if (node d).type = T_DIR then some (d, last) else none

section
variable {path elem rest : List UInt8}

theorem components_append_slash (x y : List UInt8) :
    components (x ++ slash :: y) = components x ++ components y := by
  simp only [components, splitOn_eq_splitOnP]
  rw [splitOnP_append_cons x y (by simp), filter_append, map_append]

theorem components_nil : components [] = [] := rfl

theorem components_slash (y : List UInt8) : components (slash :: y) = components y :=
  components_append_slash [] y

/-- Slashes at the front of a path belong to no name. -/
theorem components_dropWhile (path : List UInt8) :
    components (path.dropWhile (· = slash)) = components path := by
  induction path with
  | nil => rfl
  | cons c cs ih =>
    by_cases hc : c = slash
    · subst hc
      rw [components_slash, ← ih]
      rfl
    · rw [dropWhile_cons_of_neg (by simpa using hc)]

theorem components_word (hne : elem ≠ []) (hslash : ∀ c ∈ elem, c ≠ slash) :
    components elem = [elem.take DIRSIZ] := by
  rw [components, splitOn_eq_splitOnP,
    splitOnP_eq_singleton fun c hc => beq_false_of_ne (hslash c hc)]
  simp [hne]

theorem head?_dropWhile_slash : (path.dropWhile (· = slash)).head? ≠ some slash := by
  intro h
  have hnot := List.head?_dropWhile_not (fun c => decide (c = slash)) path
  rw [h] at hnot
  exact absurd hnot (by simp)

theorem components_takeWhile {c : UInt8} (hc : c ≠ slash) (cs : List UInt8) :
    components (c :: cs) = ((c :: cs).takeWhile (· ≠ slash)).take DIRSIZ ::
      components ((c :: cs).dropWhile (· ≠ slash)) := by
  have hsplit := takeWhile_append_dropWhile (p := fun c => decide (c ≠ slash)) (l := c :: cs)
  have hword : components ((c :: cs).takeWhile (· ≠ slash)) =
      [((c :: cs).takeWhile (· ≠ slash)).take DIRSIZ] := by
    refine components_word ?_ fun x hx => ?_
    · rw [takeWhile_cons_of_pos (by simpa using hc)]
      exact cons_ne_nil _ _
    · simpa using all_eq_true.mp all_takeWhile x hx
  have hhead := List.head?_dropWhile_not (fun c => decide (c ≠ slash)) (c :: cs)
  generalize (c :: cs).dropWhile (· ≠ slash) = rest at hsplit hhead
  conv_lhs => rw [← hsplit]
  cases rest with
  | nil => rw [append_nil, hword, components_nil]
  | cons d rest =>
    obtain rfl : d = slash := by simpa using hhead
    rw [components_append_slash, components_slash, hword]
    rfl

theorem skipelem_cases (path : List UInt8) :
    skipelem path = none ∧ components path = [] ∨
    ∃ elem rest, skipelem path = some (elem, rest) ∧ components path = elem :: components rest ∧
      rest.length < path.length ∧ rest.head? ≠ some slash := by
  rw [skipelem, ← components_dropWhile path]
  have hlen : (path.dropWhile (· = slash)).length ≤ path.length :=
    (dropWhile_suffix _).length_le
  have hhead : (path.dropWhile (· = slash)).head? ≠ some slash := head?_dropWhile_slash
  generalize path.dropWhile (· = slash) = path' at hlen hhead
  cases path' with
  | nil => exact .inl ⟨rfl, rfl⟩
  | cons c cs =>
    have hc : c ≠ slash := fun heq => hhead (by rw [heq]; rfl)
    refine .inr ⟨_, _, rfl, ?_, ?_, head?_dropWhile_slash⟩
    · rw [components_dropWhile]
      exact components_takeWhile hc cs
    · have hdrop : (c :: cs).dropWhile (· ≠ slash) = cs.dropWhile (· ≠ slash) :=
        dropWhile_cons_of_pos (by simpa using hc)
      have h₁ := (dropWhile_suffix (l := cs) (fun c => decide (c ≠ slash))).length_le
      have h₂ := (dropWhile_suffix (l := cs.dropWhile (· ≠ slash)) (· = slash)).length_le
      rw [hdrop]
      rw [length_cons] at hlen
      omega

end

section
variable {node : Nat → Node} {turns i : Nat} {path name : List UInt8}

theorem follow_cons {names : List (List UInt8)} :
    follow node i (name :: names) = (lookupIn node i name).bind (follow node · names) := rfl

/-- Where names lead to depends on types and contents only. -/
theorem follow_congr {node' : Nat → Node} {names : List (List UInt8)}
    (h : ∀ i, (node' i).type = (node i).type ∧ (node' i).data = (node i).data) :
    follow node' i names = follow node i names := by
  have hlookup : lookupIn node' = lookupIn node := by
    funext i name
    rw [lookupIn, lookupIn, (h i).1, Node.lookup, Node.lookup, (h i).2]
  rw [follow, follow, hlookup]

theorem followParent_congr {node' : Nat → Node} {names : List (List UInt8)}
    (h : ∀ i, (node' i).type = (node i).type ∧ (node' i).data = (node i).data) :
    followParent node' i names = followParent node i names := by
  simp only [followParent, follow_congr h, (h _).1]

/-- `namex` follows the names in its path. -/
theorem walk_eq_follow (hturns : path.length < turns) :
    (walk node false turns i path name).map Prod.fst = follow node i (components path) := by
  induction turns generalizing i path name with
  | zero => exact absurd hturns (Nat.not_lt_zero _)
  | succ turns ih =>
    unfold walk
    rcases skipelem_cases path with ⟨hskip, hnil⟩ | ⟨elem, rest, hskip, hcons, hlen, -⟩
    · rw [hskip, hnil]
      rfl
    · simp only [hskip, hcons, follow_cons, lookupIn]
      by_cases hdir : (node i).type = T_DIR
      · rw [if_neg (not_not_intro hdir), if_pos hdir]
        cases (node i).lookup elem with
        | none => rfl
        | some j => exact ih (Nat.lt_of_lt_of_le hlen (Nat.le_of_lt_succ hturns))
      · rw [if_pos hdir, if_neg hdir]
        rfl

theorem components_eq_nil (h : path.head? ≠ some slash) : components path = [] ↔ path = [] := by
  refine ⟨fun hnil => ?_, fun h => by rw [h]; rfl⟩
  cases path with
  | nil => rfl
  | cons c cs =>
    have hc : c ≠ slash := fun heq => h (by rw [heq]; rfl)
    rw [components_takeWhile hc] at hnil
    cases hnil

theorem followParent_cons {names : List (List UInt8)} (h : names ≠ []) :
    followParent node i (name :: names) =
      (lookupIn node i name).bind (followParent node · names) := by
  obtain ⟨x, xs, rfl⟩ := exists_cons_of_ne_nil h
  simp only [followParent, dropLast_cons_cons, follow_cons]
  cases lookupIn node i name with
  | none => cases (x :: xs).getLast? <;> rfl
  | some j => rfl

theorem walk_eq_followParent (hturns : path.length < turns) :
    walk node true turns i path name = followParent node i (components path) := by
  induction turns generalizing i path name with
  | zero => exact absurd hturns (Nat.not_lt_zero _)
  | succ turns ih =>
    unfold walk
    rcases skipelem_cases path with ⟨hskip, hnil⟩ | ⟨elem, rest, hskip, hcons, hlen, hhead⟩
    · rw [hskip, hnil]
      rfl
    · simp only [hskip, hcons, true_and]
      by_cases hrest : rest = []
      · rw [hrest, components_nil]
        simp only [followParent]
        by_cases hdir : (node i).type = T_DIR
        · simp [follow]
        · simp [follow]
      · have hnames := mt (components_eq_nil hhead).mp hrest
        rw [if_neg hrest, followParent_cons hnames, lookupIn]
        by_cases hdir : (node i).type = T_DIR
        · rw [if_neg (not_not_intro hdir), if_pos hdir]
          cases (node i).lookup elem with
          | none => rfl
          | some j => exact ih (Nat.lt_of_lt_of_le hlen (Nat.le_of_lt_succ hturns))
        · rw [if_pos hdir, if_neg hdir]
          rfl

end

/-! ## `namex` -/

section
variable {dev : DevSw} {s s₀ t : State} {p ip cwd : Ip} {r : Refs} {path name : List UInt8}
variable {npar : Bool} {turns : Nat}

/-- What a walk ends with: the inode that it found is held, and if it is a parent it is a directory
that is in the cache. -/
def Walked (r : Refs) (npar : Bool) (found : Option (Nat × List UInt8)) (s₀ : State)
    (x : Option (Ip × List UInt8)) (t : State) : Prop :=
  Quiet r s₀ t ∧
  match x with
  | none => Held t r ∧ found = none
  | some (q, name) => Held t (r + one q) ∧ found = some ((t.icache q).inum, name) ∧
    (npar = true → Valid t q ∧ (t.node (t.icache q).inum).type = T_DIR)

/-- What `namei` ends with. -/
def Named (r : Refs) (found : Option (Nat × List UInt8)) (s₀ : State) (x : Option Ip) (t : State) :
    Prop :=
  Quiet r s₀ t ∧
  match x with
  | none => Held t r ∧ found = none
  | some q => Held t (r + one q) ∧ found.map Prod.fst = some (t.icache q).inum

end

end Xv6.Fs
