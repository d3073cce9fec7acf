import Xv6.Console.Input

/-!
# Readers of the console

Interrupts bring characters, and any number of processes read them. A step is one stretch under
`input.lock`: the characters of one interrupt, or a call of `consoleread` up to its next `sleep` or
its return. No process is killed.

A run records the characters with the number that readers had taken before (`typed`), what readers
took, in order (`taken`), and the returns. So what was committed is a function of the history
(`lines`), and what readers took is what was committed first (`Books`).

A call that wants more bytes than are committed sleeps in the middle of a line, if the line filled
the buffer. Another reader may then take what follows, and the first one goes on after that: what it
returns is no longer one piece of the input. In a run in which this does not happen (`Unshared`),
every read returns one piece.
-/

namespace Xv6.Console

open List

/-- A call of `consoleread`, with a number: it wants `target` bytes and has `n` of them left. -/
structure Call where
  id : Nat
  n : Nat
  target : Nat
  asleep : Bool

structure Sys (π : Type) where
  input : Input
  proc : π → Option Call
  calls : Nat
  /-- The characters that readers took, with the number of the call, and none for a `C('D')`. -/
  taken : List (Nat × Option UInt8)
  /-- What calls returned. -/
  returned : List (Nat × Int)
  /-- The characters of all interrupts, with the number of characters taken before. -/
  typed : List (UInt8 × Nat)

def start (buf : Fin INPUT_BUF → UInt8) : Sys π where
  input := ⟨buf, 0, 0, 0⟩
  proc := fun _ => none
  calls := 0
  taken := []
  returned := []
  typed := []

inductive Step (π : Type)
  | intr (cs : List UInt8)
  | read (me : π) (n : Nat)
  | run (me : π)

/-- `wakeup(&input.r)` -/
def wakeup (proc : π → Option Call) : π → Option Call := fun q =>
  (proc q).map fun c => { c with asleep := false }

/-- The call after a stretch. -/
def Ending.next (e : Ending) (c : Call) : Option Call :=
  match e with
  | .returns _ => none
  | .sleeps n => some { c with n, asleep := true }

def Ending.result (e : Ending) (c : Call) : List (Nat × Int) :=
  match e with
  | .returns r => [(c.id, r)]
  | .sleeps _ => []

section
variable {π : Type} [DecidableEq π]

/-- A stretch of the call that `me` is in. -/
def stretch (s : Sys π) (me : π) : Except Fault (Sys π) :=
  match s.proc me with
  | none => .error .disabled
  | some c =>
    if c.asleep then .error .disabled
    else
      let r := readLoop false c.target c.n s.input
      .ok { s with
        input := r.input
        proc := Function.update s.proc me (r.ending.next c)
        taken := s.taken ++ r.entries.map (c.id, ·)
        returned := s.returned ++ r.ending.result c }

def step (s : Sys π) : Step π → Except Fault (Sys π)
  | .intr cs =>
    let (i, wakes) := consoleintr s.input cs
    .ok { s with
      input := i
      proc := if wakes then wakeup s.proc else s.proc
      typed := s.typed ++ cs.map (·, s.taken.length) }
  | .read me n =>
    match s.proc me with
    | some _ => .error .disabled
    | none => .ok { s with
      proc := Function.update s.proc me (some ⟨s.calls, n, n, false⟩)
      calls := s.calls + 1 }
  | .run me => stretch s me

end

/-- Calls are for some bytes. -/
def Positive (_ : Sys π) : Step π → Prop
  | .read _ n => 0 < n
  | _ => True

instance (s : Sys π) (a : Step π) : Decidable (Positive s a) := by
  unfold Positive
  split <;> infer_instance

/-- No reader runs while another one, which has taken some bytes, waits for more. -/
def Unshared (s : Sys π) : Step π → Prop
  | .run me => ∀ q c, s.proc q = some c → c.n < c.target → q = me
  | _ => True

/-! ## What the history says -/

/-- What was committed, and the line being edited, after the characters `typed`. -/
def lines (typed : List (UInt8 × Nat)) : Line := typed.foldl (fun l x => l.key x.2 x.1) ⟨[], []⟩

/-- What call `id` took. -/
def Sys.mine (s : Sys π) (id : Nat) : List (Nat × Option UInt8) := s.taken.filter fun x => x.1 = id

def Sys.entries (s : Sys π) (id : Nat) : List (Option UInt8) := (s.mine id).map Prod.snd

/-- A call returns `0` for a `C('D')`, or else as many bytes as it took, which go no further than a
newline. -/
def Delivered (es : List (Option UInt8)) (r : Int) : Prop :=
  r = 0 ∧ es = [none] ∨
  ∃ bs : List UInt8, es = bs.map some ∧ bs ≠ [] ∧ newline ∉ bs.dropLast ∧ r = bs.length

structure Books (s : Sys π) : Prop where
  input : Holds s.input (lines s.typed) s.taken.length
  stream : s.taken.map (·.2.getD (C 'D')) = (lines s.typed).committed.take s.taken.length
  data : ∀ x ∈ s.taken, x.2 ≠ some (C 'D')
  ids : ∀ x ∈ s.taken, x.1 < s.calls
  going : ∀ q c, s.proc q = some c → c.id < s.calls ∧ 0 < c.n ∧
    ∃ bs : List UInt8, s.entries c.id = bs.map some ∧ newline ∉ bs ∧ c.n + bs.length = c.target
  alone : ∀ q q' c c', s.proc q = some c → s.proc q' = some c' → c.id = c'.id → q = q'
  done : ∀ x ∈ s.returned, x.1 < s.calls ∧ (∀ q c, s.proc q = some c → c.id ≠ x.1) ∧
    Delivered (s.entries x.1) x.2
  once : (s.returned.map Prod.fst).Nodup
  every : ∀ id < s.calls, (∃ q c, s.proc q = some c ∧ c.id = id) ∨
    id ∈ s.returned.map Prod.fst

section
variable {π : Type} {s t : Sys π} {me q : π} {c : Call} {cs : List UInt8} {id : Nat}

theorem Books.start (buf : Fin INPUT_BUF → UInt8) : Books (start buf : Sys π) where
  input := Holds.start buf
  stream := rfl
  data := nofun
  ids := nofun
  going := nofun
  alone := nofun
  done := nofun
  once := nodup_nil
  every := nofun

/-! ## Interrupts -/

theorem lines_append {typed : List (UInt8 × Nat)} {n : Nat} :
    lines (typed ++ cs.map (·, n)) = cs.foldl (fun l c => l.key n c) (lines typed) := by
  rw [lines, foldl_append, foldl_map]
  rfl

theorem Holds.consoleintr {i : Input} {l : Line} {taken : Nat} (h : Holds i l taken)
    (cs : List UInt8) :
    Holds (consoleintr i cs).1 (cs.foldl (fun l c => l.key taken c) l) taken := by
  induction cs generalizing i l with
  | nil => exact h
  | cons c cs ih => exact ih (h.key c)

theorem committed_foldl (cs : List UInt8) (l : Line) (taken : Nat) :
    l.committed <+: (cs.foldl (fun l c => l.key taken c) l).committed := by
  induction cs generalizing l with
  | nil => exact prefix_rfl
  | cons c cs ih => exact (l.committed_key taken c).trans (ih _)

theorem wakeup_eq_some (h : wakeup s.proc q = some c) :
    ∃ c', s.proc q = some c' ∧ c'.id = c.id ∧ c'.n = c.n ∧ c'.target = c.target := by
  obtain ⟨c', hc', rfl⟩ := Option.map_eq_some_iff.mp h
  exact ⟨c', hc', rfl, rfl, rfl⟩

theorem Books.intr (h : Books s) {i : Input} {typed : List (UInt8 × Nat)}
    {proc : π → Option Call}
    (hproc : ∀ q c, proc q = some c →
      ∃ c', s.proc q = some c' ∧ c'.id = c.id ∧ c'.n = c.n ∧ c'.target = c.target)
    (hproc' : ∀ q c, s.proc q = some c → ∃ c', proc q = some c' ∧ c'.id = c.id)
    (hi : Holds i (lines typed) s.taken.length)
    (hl : (lines s.typed).committed <+: (lines typed).committed) :
    Books { s with input := i, proc := proc, typed := typed } where
  input := hi
  stream := by
    have := h.stream
    obtain ⟨rest, hrest⟩ := hl
    rw [this, ← hrest, take_append_of_le_length h.input.le]
  data := h.data
  ids := h.ids
  going := fun q c hc => by
    obtain ⟨c', hc', hid, hn, htarget⟩ := hproc q c hc
    rw [← hid, ← hn, ← htarget]
    exact h.going q c' hc'
  alone := fun q q' c c' hc hc' hid => by
    obtain ⟨d, hd, hdid, -⟩ := hproc q c hc
    obtain ⟨d', hd', hdid', -⟩ := hproc q' c' hc'
    exact h.alone q q' d d' hd hd' (by rw [hdid, hid, hdid'])
  done := fun x hx => by
    obtain ⟨hlt, hnot, hdel⟩ := h.done x hx
    refine ⟨hlt, fun q c hc => ?_, hdel⟩
    obtain ⟨c', hc', hid, -⟩ := hproc q c hc
    rw [← hid]
    exact hnot q c' hc'
  once := h.once
  every := fun id hid => (h.every id hid).imp_left fun ⟨q, c, hc, hcid⟩ => by
    obtain ⟨c', hc', hid'⟩ := hproc' q c hc
    exact ⟨q, c', hc', hid'.trans hcid⟩

/-! ## Calls -/

theorem mine_append {es : List (Option UInt8)} {input proc calls returned typed} {id' : Nat} :
    (⟨input, proc, calls, s.taken ++ es.map (id, ·), returned, typed⟩ : Sys π).mine id' =
      s.mine id' ++ if id' = id then es.map (id, ·) else [] := by
  simp only [Sys.mine, filter_append]
  congr 1
  split
  next h =>
    subst h
    exact filter_eq_self.mpr (by simp)
  next h => exact filter_eq_nil_iff.mpr (by simp [Ne.symm h])

theorem entries_append {es : List (Option UInt8)} {input proc calls returned typed} {id' : Nat} :
    (⟨input, proc, calls, s.taken ++ es.map (id, ·), returned, typed⟩ : Sys π).entries id' =
      s.entries id' ++ if id' = id then es else [] := by
  rw [Sys.entries, mine_append, map_append]
  congr 1
  split
  · rw [map_map]
    exact map_id es
  · rfl

theorem entries_eq_nil (h : Books s) (hid : s.calls ≤ id) : s.entries id = [] := by
  rw [Sys.entries, map_eq_nil_iff, Sys.mine, filter_eq_nil_iff]
  intro x hx heq
  have := h.ids x hx
  rw [decide_eq_true_eq] at heq
  omega

section
variable [DecidableEq π]

theorem update_eq_some {proc : π → Option Call} {x : Option Call}
    (h : Function.update proc me x q = some c) :
    q ≠ me ∧ proc q = some c ∨ q = me ∧ x = some c := by
  by_cases hq : q = me
  · rw [hq, Function.update_self] at h
    exact .inr ⟨hq, h⟩
  · rw [Function.update_of_ne hq] at h
    exact .inl ⟨hq, h⟩

theorem Books.read (h : Books s) (hme : s.proc me = none) {n : Nat} (hn : 0 < n) :
    Books { s with
      proc := Function.update s.proc me (some ⟨s.calls, n, n, false⟩)
      calls := s.calls + 1 } where
  input := h.input
  stream := h.stream
  data := h.data
  ids := fun x hx => Nat.lt_succ_of_lt (h.ids x hx)
  going := fun q c hc => by
    rcases update_eq_some hc with ⟨-, hc⟩ | ⟨-, hc⟩
    · obtain ⟨hlt, hrest⟩ := h.going q c hc
      exact ⟨Nat.lt_succ_of_lt hlt, hrest⟩
    · have hnil : s.entries s.calls = [] := entries_eq_nil h (Nat.le_refl _)
      cases hc
      exact ⟨Nat.lt_succ_self _, hn, [], hnil, not_mem_nil, rfl⟩
  alone := fun q q' c c' hc hc' hid => by
    have hnew : ∀ q c, s.proc q = some c → c.id ≠ s.calls := fun q c hc =>
      Nat.ne_of_lt (h.going q c hc).1
    rcases update_eq_some hc with ⟨-, hc⟩ | ⟨hq, hc⟩ <;>
      rcases update_eq_some hc' with ⟨-, hc'⟩ | ⟨hq', hc'⟩
    · exact h.alone q q' c c' hc hc' hid
    · cases hc'
      exact absurd hid (hnew q c hc)
    · cases hc
      exact absurd hid.symm (hnew q' c' hc')
    · rw [hq, hq']
  done := fun x hx => by
    obtain ⟨hlt, hnot, hdel⟩ := h.done x hx
    refine ⟨Nat.lt_succ_of_lt hlt, fun q c hc => ?_, hdel⟩
    rcases update_eq_some hc with ⟨-, hc⟩ | ⟨-, hc⟩
    · exact hnot q c hc
    · cases hc
      exact Nat.ne_of_gt hlt
  once := h.once
  every := fun id hid => by
    by_cases hlast : id = s.calls
    · exact .inl ⟨me, _, Function.update_self .., hlast.symm⟩
    · refine (h.every id (by have : id < s.calls + 1 := hid; omega)).imp_left
        fun ⟨q, c, hc, hcid⟩ => ⟨q, c, ?_, hcid⟩
      have hq : q ≠ me := fun heq => by
        rw [heq, hme] at hc
        cases hc
      exact (Function.update_of_ne hq ..).trans hc

theorem delivered_of_returns {r : Stretch} {bs : List UInt8} {n target : Nat} {x : Int}
    (hline : newline ∉ bs) (hcount : n + bs.length = target)
    (hnone : newline ∉ r.bytes.dropLast)
    (hcase : if r.eof then x = 0 ∧ n = target ∧ r.bytes = []
      else x = (target - n + r.bytes.length : Nat) ∧ 0 < x) :
    Delivered (bs.map some ++ r.entries) x := by
  unfold Stretch.entries
  cases heof : r.eof with
  | true =>
    rw [heof] at hcase
    obtain ⟨hzero, hall, hnil⟩ := hcase
    have hbs : bs = [] := length_eq_zero_iff.mp (by omega)
    refine .inl ⟨hzero, ?_⟩
    rw [hbs, hnil]
    rfl
  | false =>
    rw [heof, if_neg Bool.false_ne_true] at hcase
    refine .inr ⟨bs ++ r.bytes, ?_, fun hnil => ?_, ?_, ?_⟩
    · rw [if_neg Bool.false_ne_true, append_nil, map_append]
    · have := congrArg List.length hnil
      rw [length_append, length_nil] at this
      omega
    · by_cases hb : r.bytes = []
      · rw [hb, append_nil]
        exact fun hmem => hline (mem_of_mem_dropLast hmem)
      · rw [dropLast_append_of_ne_nil hb, mem_append, not_or]
        exact ⟨hline, hnone⟩
    · rw [length_append]
      omega

theorem Ending.next_id {e : Ending} {d : Call} (h : e.next c = some d) : d.id = c.id := by
  unfold next at h
  split at h
  · cases h
  · cases h
    rfl

theorem Books.stretch (h : Books s) (hs : stretch s me = .ok t) : Books t := by
  unfold Console.stretch at hs
  split at hs
  · cases hs
  next c hc =>
  split at hs
  · cases hs
  next hawake =>
  obtain ⟨hid, hpos, bs, hbs, hline, hcount⟩ := h.going me c hc
  obtain ⟨hD, hend⟩ := readLoop_ending s.input (show 0 < c.target by omega)
    (show c.n ≤ c.target by omega)
  obtain ⟨hh, hstream⟩ := h.input.readLoop false c.target c.n
  generalize readLoop false c.target c.n s.input = r at hs hD hend hh hstream
  cases hs
  have hlen : (s.taken ++ r.entries.map (c.id, ·)).length = s.taken.length + r.entries.length := by
    rw [length_append, length_map]
  have hother : ∀ q, q ≠ me → ∀ d, s.proc q = some d → d.id ≠ c.id := fun q hq d hd heq =>
    hq (h.alone q me d c hd hc heq)
  refine ⟨?_, ?_, ?_, ?_, fun q d hd => ?_, fun q q' d d' hd hd' hdid => ?_, fun x hx => ?_, ?_,
    fun id hlt => ?_⟩
  · rw [hlen]
    exact hh
  · rw [hlen, map_append, map_map, h.stream, take_add]
    exact congrArg _ hstream
  · intro x hx
    obtain hx | hx := mem_append.mp hx
    · exact h.data x hx
    · obtain ⟨y, hy, rfl⟩ := mem_map.mp hx
      rintro rfl
      rw [Stretch.entries, mem_append, mem_map] at hy
      rcases hy with ⟨b, hb, heq⟩ | hy
      · exact hD (Option.some.inj heq ▸ hb)
      · split at hy
        · cases mem_singleton.mp hy
        · cases hy
  · intro x hx
    obtain hx | hx := mem_append.mp hx
    · exact h.ids x hx
    · obtain ⟨y, -, rfl⟩ := mem_map.mp hx
      exact hid
  · rw [entries_append]
    rcases update_eq_some hd with ⟨hq, hd⟩ | ⟨-, hd⟩
    · obtain ⟨hlt, hn, hrest⟩ := h.going q d hd
      rw [if_neg (hother q hq d hd), append_nil]
      exact ⟨hlt, hn, hrest⟩
    · rw [Ending.next_id hd, if_pos rfl]
      cases he : r.ending with
      | returns x =>
        rw [he] at hd
        cases hd
      | sleeps m =>
        rw [he] at hd hend
        cases hd
        obtain ⟨heof, hnone, hm, hmlen⟩ := hend
        refine ⟨hid, hm, bs ++ r.bytes, ?_, ?_, ?_⟩
        · rw [Stretch.entries, heof, if_neg Bool.false_ne_true, append_nil, hbs,
            map_append]
        · rw [mem_append, not_or]
          exact ⟨hline, hnone⟩
        · rw [length_append]
          dsimp only
          omega
  · rcases update_eq_some hd with ⟨hq, hd⟩ | ⟨hq, hd⟩ <;>
      rcases update_eq_some hd' with ⟨hq', hd'⟩ | ⟨hq', hd'⟩
    · exact h.alone q q' d d' hd hd' hdid
    · exact absurd (hdid.trans (Ending.next_id hd')) (hother q hq d hd)
    · exact absurd (hdid.symm.trans (Ending.next_id hd)) (hother q' hq' d' hd')
    · rw [hq, hq']
  · rw [entries_append]
    obtain hx | hx := mem_append.mp hx
    · obtain ⟨hlt, hnot, hdel⟩ := h.done x hx
      have hxc : x.1 ≠ c.id := Ne.symm (hnot me c hc)
      rw [if_neg hxc, append_nil]
      refine ⟨hlt, fun q d hd => ?_, hdel⟩
      rcases update_eq_some hd with ⟨-, hd⟩ | ⟨-, hd⟩
      · exact hnot q d hd
      · rw [Ending.next_id hd]
        exact Ne.symm hxc
    · cases he : r.ending with
      | sleeps m =>
        rw [he] at hx
        cases hx
      | returns x' =>
        rw [he] at hx hend
        cases mem_singleton.mp hx
        rw [if_pos rfl, hbs]
        refine ⟨hid, fun q d hd => ?_, delivered_of_returns hline hcount hend.1 hend.2⟩
        rcases update_eq_some hd with ⟨hq, hd⟩ | ⟨-, hd⟩
        · exact hother q hq d hd
        · cases hd
  · rw [map_append, nodup_append]
    refine ⟨h.once, ?_, fun a ha b hb => ?_⟩
    · cases r.ending with
      | returns x => exact nodup_singleton _
      | sleeps m => exact nodup_nil
    · obtain ⟨x, hx, rfl⟩ := mem_map.mp ha
      have hxc : c.id ≠ x.1 := (h.done x hx).2.1 me c hc
      cases he : r.ending with
      | sleeps m =>
        rw [he] at hb
        cases hb
      | returns x' =>
        rw [he] at hb
        cases mem_singleton.mp hb
        exact Ne.symm hxc
  · rw [map_append, mem_append]
    rcases h.every id hlt with ⟨q, d, hd, hdid⟩ | hret
    · by_cases hq : q = me
      · have hcid : c.id = id := by
          rw [hq, hc] at hd
          rw [← hdid, Option.some.inj hd]
        cases he : r.ending with
        | returns x => exact .inr (.inr (mem_singleton.mpr hcid.symm))
        | sleeps m => exact .inl ⟨me, _, Function.update_self .., hcid⟩
      · exact .inl ⟨q, d, (Function.update_of_ne hq ..).trans hd, hdid⟩
    · exact .inr (.inl hret)

theorem Books.step {a : Step π} (h : Books s) (hpos : Positive s a) (hs : step s a = .ok t) :
    Books t := by
  cases a with
  | intr cs =>
    cases hs
    have hi := h.input.consoleintr cs
    have hl := committed_foldl cs (lines s.typed) s.taken.length
    rw [← lines_append] at hi hl
    refine h.intr (fun q c hc => ?_) (fun q c hc => ?_) hi hl
    · split at hc
      · exact wakeup_eq_some hc
      · exact ⟨c, hc, rfl, rfl, rfl⟩
    · split
      · exact ⟨{ c with asleep := false }, by rw [wakeup, hc]; rfl, rfl⟩
      · exact ⟨c, hc, rfl⟩
  | read me n =>
    simp only [Console.step] at hs
    split at hs
    · cases hs
    next hme =>
      cases hs
      exact h.read hme hpos
  | run me => exact h.stretch hs

/-! ## Reads in one piece -/

/-- What a call took is one piece of what readers took. -/
def Whole (s : Sys π) : Prop := ∀ id, ∃ pre post, s.taken = pre ++ s.mine id ++ post

/-- Beside that, a call that has taken some bytes and waits for more took the last ones. -/
structure Pieces (s : Sys π) : Prop where
  whole : Whole s
  last : ∀ q c, s.proc q = some c → c.n < c.target → ∃ pre, s.taken = pre ++ s.mine c.id

theorem Pieces.stretch (h : Pieces s) (hbooks : Books s) (hun : Unshared s (.run me))
    (hs : stretch s me = .ok t) : Pieces t := by
  unfold Console.stretch at hs
  split at hs
  · cases hs
  next c hc =>
  split at hs
  · cases hs
  generalize readLoop false c.target c.n s.input = r at hs
  cases hs
  -- the call took the last bytes, or it has not taken any
  have hlast : ∃ pre, s.taken = pre ++ s.mine c.id := by
    obtain ⟨-, hpos, bs, hbs, -, hcount⟩ := hbooks.going me c hc
    by_cases hlt : c.n < c.target
    · exact h.last me c hc hlt
    · have hnil : bs = [] := length_eq_zero_iff.mp (by omega)
      rw [hnil, Sys.entries, map_nil, map_eq_nil_iff] at hbs
      exact ⟨s.taken, by rw [hbs, append_nil]⟩
  obtain ⟨pre, hpre⟩ := hlast
  refine ⟨fun id => ?_, fun q d hd hlt => ?_⟩
  · rw [mine_append]
    by_cases hid : id = c.id
    · refine ⟨pre, [], ?_⟩
      rw [if_pos hid, hid, append_nil, ← append_assoc, ← hpre]
    · obtain ⟨pre', post, hpost⟩ := h.whole id
      refine ⟨pre', post ++ r.entries.map (c.id, ·), ?_⟩
      rw [if_neg hid, append_nil, ← append_assoc, ← hpost]
  · rcases update_eq_some hd with ⟨hq, hd⟩ | ⟨-, hd⟩
    · exact absurd (hun q d hd hlt) hq
    · refine ⟨pre, ?_⟩
      rw [mine_append, Ending.next_id hd, if_pos rfl, ← append_assoc, ← hpre]

theorem Pieces.step {a : Step π} (h : Pieces s) (hbooks : Books s) (hun : Unshared s a)
    (hs : step s a = .ok t) : Pieces t := by
  cases a with
  | intr cs =>
    cases hs
    refine ⟨h.whole, fun q c hc hlt => ?_⟩
    have hold : ∃ c', s.proc q = some c' ∧ c'.id = c.id ∧ c'.n = c.n ∧ c'.target = c.target := by
      split at hc
      · exact wakeup_eq_some hc
      · exact ⟨c, hc, rfl, rfl, rfl⟩
    obtain ⟨c', hc', hid, hn, htarget⟩ := hold
    rw [← hid]
    exact h.last q c' hc' (by omega)
  | read me n =>
    simp only [Console.step] at hs
    split at hs
    · cases hs
    cases hs
    refine ⟨h.whole, fun q c hc hlt => ?_⟩
    rcases update_eq_some hc with ⟨-, hc⟩ | ⟨-, hc⟩
    · exact h.last q c hc hlt
    · cases hc
      exact absurd hlt (Nat.lt_irrefl _)
  | run me => exact h.stretch hbooks hun hs

end

/-! ## What readers can rely on -/

/-- A character that `consoleintr` stores: none that edits the line or has another use. -/
def Ordinary (c : UInt8) : Prop :=
  c ≠ 0 ∧ c ≠ C 'Z' ∧ c ≠ C 'P' ∧ c ≠ C 'U' ∧ c ≠ C 'H' ∧ c ≠ delete

structure Disciplined (s : Sys π) : Prop where
  /-- The indices are in order, and no further apart than the size of the buffer. -/
  indices : (s.input.w - s.input.r).toNat ≤ (s.input.e - s.input.r).toNat ∧
    (s.input.e - s.input.r).toNat ≤ INPUT_BUF
  /-- No character changes what is committed and not yet read. -/
  edits : ∀ cs, (consoleintr s.input cs).1.r = s.input.r ∧
    (s.input.w - s.input.r).toNat ≤ ((consoleintr s.input cs).1.w - s.input.r).toNat ∧
    ∀ k < (s.input.w - s.input.r).toNat,
      (consoleintr s.input cs).1.buf (ringSlot _ (s.input.r + UInt32.ofNat k)) =
        s.input.buf (ringSlot _ (s.input.r + UInt32.ofNat k))
  /-- Readers took the committed input from the start on, and the buffer holds the rest of it. -/
  stream : s.taken.map (·.2.getD (C 'D')) ++
      (List.range (s.input.w - s.input.r).toNat).map
        (fun k => s.input.buf (ringSlot _ (s.input.r + UInt32.ofNat k))) =
    (lines s.typed).committed
  /-- A `C('D')` is not delivered as data. -/
  data : ∀ x ∈ s.taken, x.2 ≠ some (C 'D')
  /-- A read returns the bytes that it took, up to a newline, or `0` for a `C('D')`. -/
  reads : ∀ x ∈ s.returned, Delivered (s.entries x.1) x.2
  /-- A `C('D')` that was taken is all that some call took, and this call returned `0`, once. -/
  eof : ∀ id, (id, none) ∈ s.taken →
    s.entries id = [none] ∧ s.returned.filter (fun x => x.1 = id) = [(id, 0)]
  /-- A character is dropped only if the buffer is full. -/
  stored : ∀ c, Ordinary c → (s.input.e - s.input.r).toNat ≠ INPUT_BUF →
    (key s.input c).1.e = s.input.e + 1 ∧
    (key s.input c).1.buf (ringSlot _ s.input.e) = if c = carriageReturn then newline else c

theorem Holds.slot {i : Input} {l : Line} {taken k : Nat} (h : Holds i l taken)
    (hk : k < l.committed.length - taken) :
    l.committed[taken + k]? = some (i.buf (ringSlot _ (i.r + UInt32.ofNat k))) := by
  have hlt : taken + k < l.committed.length := by omega
  have := h.ring (taken + k) (Nat.le_add_right ..) (by omega)
  rw [List.getElem?_append_left hlt] at this
  rw [this, h.r, ← UInt32.ofNat_add, ringSlot_ofNat (by decide)]

theorem Holds.stored {i : Input} {l : Line} {taken : Nat} {c : UInt8} (h : Holds i l taken)
    (hc : Ordinary c) (hroom : (i.e - i.r).toNat ≠ INPUT_BUF) :
    (Console.key i c).1.e = i.e + 1 ∧
    (Console.key i c).1.buf (ringSlot _ i.e) = if c = carriageReturn then newline else c := by
  obtain ⟨h0, hZ, hP, hU, hH, hdel⟩ := hc
  have hlt : i.e - i.r < UInt32.ofNat INPUT_BUF := by
    have h128 : (UInt32.ofNat INPUT_BUF).toNat = INPUT_BUF := rfl
    have hsize := h.size
    rw [UInt32.lt_iff_toNat_lt]
    rw [h.sub_r.1] at hroom ⊢
    omega
  unfold Console.key
  rw [if_neg (not_or.mpr ⟨hZ, hP⟩), if_neg hU, if_neg (not_or.mpr ⟨hH, hdel⟩), if_pos ⟨h0, hlt⟩]
  dsimp only
  generalize (if c = carriageReturn then newline else c) = d
  split <;> exact ⟨rfl, Function.update_self ..⟩

theorem Books.eof (h : Books s) (hid : (id, none) ∈ s.taken) :
    s.entries id = [none] ∧ s.returned.filter (fun x => x.1 = id) = [(id, 0)] := by
  have hmem : none ∈ s.entries id :=
    mem_map.mpr ⟨_, mem_filter.mpr ⟨hid, by simp⟩, rfl⟩
  have hreturned : id ∈ s.returned.map Prod.fst := by
    refine (h.every id (h.ids _ hid)).resolve_left fun ⟨q, c, hc, hcid⟩ => ?_
    obtain ⟨-, -, bs, hbs, -⟩ := h.going q c hc
    rw [hcid] at hbs
    rw [hbs] at hmem
    obtain ⟨b, -, hb⟩ := mem_map.mp hmem
    cases hb
  obtain ⟨⟨id', r⟩, hx, rfl⟩ := mem_map.mp hreturned
  have hr : r = 0 ∧ s.entries id' = [none] := by
    rcases (h.done _ hx).2.2 with hzero | ⟨bs, hbs, -⟩
    · exact hzero
    · rw [hbs] at hmem
      obtain ⟨b, -, hb⟩ := mem_map.mp hmem
      cases hb
  refine ⟨hr.2, ?_⟩
  -- the numbers of the calls that returned are distinct
  obtain ⟨pre, post, hsplit⟩ := append_of_mem hx
  have honce := h.once
  rw [hsplit, map_append, map_cons] at honce
  have hnone : ∀ l : List (Nat × Int), (∀ y ∈ l, y.1 ≠ id') →
      l.filter (fun x => decide (x.1 = id')) = [] := fun l hl =>
    filter_eq_nil_iff.mpr fun y hy => by simpa using hl y hy
  have hpre : ∀ y ∈ pre, y.1 ≠ id' := fun y hy heq => by
    exact (nodup_append.mp honce).2.2 y.1 (mem_map_of_mem hy) id' mem_cons_self heq
  have hpost : ∀ y ∈ post, y.1 ≠ id' := fun y hy heq => by
    have := (nodup_cons.mp (nodup_append.mp honce).2.1).1
    exact this (mem_map.mpr ⟨y, hy, heq⟩)
  rw [hsplit, filter_append, filter_cons, hnone pre hpre, hnone post hpost, ← hr.1]
  simp

theorem Books.disciplined (h : Books s) : Disciplined s := by
  have hi := h.input
  obtain ⟨he, hw⟩ := hi.sub_r
  have hsize := hi.size
  refine ⟨⟨by omega, by omega⟩, fun cs => ?_, ?_, h.data, fun x hx => (h.done x hx).2.2,
    fun id => h.eof, fun c => hi.stored⟩
  · have hi' := hi.consoleintr cs
    have hr : (consoleintr s.input cs).1.r = s.input.r := hi'.r.trans hi.r.symm
    have hpre := committed_foldl cs (lines s.typed) s.taken.length
    have hlen := hpre.length_le
    refine ⟨hr, ?_, fun k hk => ?_⟩
    · rw [hw, ← hr, hi'.sub_r.2]
      omega
    · rw [hw] at hk
      have hbefore := hi.slot hk
      have hafter := hi'.slot (k := k) (by omega)
      obtain ⟨rest, hrest⟩ := hpre
      rw [← hrest, List.getElem?_append_left (by omega), hbefore, hr] at hafter
      exact (Option.some.inj hafter).symm
  · rw [h.stream, hw]
    have hrest : (List.range ((lines s.typed).committed.length - s.taken.length)).map
        (fun k => s.input.buf (ringSlot _ (s.input.r + UInt32.ofNat k))) =
        (lines s.typed).committed.drop s.taken.length := by
      refine ext_getElem? fun k => ?_
      rw [List.getElem?_drop, List.getElem?_map]
      by_cases hk : k < (lines s.typed).committed.length - s.taken.length
      · rw [List.getElem?_range hk, Option.map_some, hi.slot hk]
      · rw [List.getElem?_eq_none (by rw [length_range]; omega),
          List.getElem?_eq_none (by omega)]
        rfl
    rw [hrest, take_append_drop]

/-- **The console.** For any interleaving of characters and calls of `consoleread`, the indices and
the buffer are as they should be, and what readers take is the committed input (`Disciplined`). If
no reader runs while another one that has taken some bytes waits for more, every read takes one
piece of the input. -/
theorem console_disciplined [DecidableEq π] (buf : Fin INPUT_BUF → UInt8) :
    (∀ s : Sys π, Run step Positive (start buf) s → Disciplined s) ∧
    ∀ s : Sys π, Run step (fun s a => Positive s a ∧ Unshared s a) (start buf) s →
      Disciplined s ∧ Whole s := by
  refine ⟨fun s hrun => ?_, fun s hrun => ?_⟩
  · have h : Books s := hrun.invariant (.start buf) fun h hc hs => h.step hc hs
    exact h.disciplined
  · have h : Books s ∧ Pieces s := hrun.invariant (I := fun s => Books s ∧ Pieces s)
      ⟨.start buf, fun _ => ⟨[], [], rfl⟩, nofun⟩
      fun ⟨h, hp⟩ hc hs => ⟨h.step hc.1 hs, hp.step h hc.2 hs⟩
    exact ⟨h.1.disciplined, h.2.whole⟩

end

/-- A process reads a line of two characters. -/
theorem console_disciplined_line :
    ∃ s : Sys (Fin 1), Run step (fun s a => Positive s a ∧ Unshared s a) (start fun _ => 0) s ∧
      s.returned = [(0, 3)] ∧ Disciplined s ∧ Whole s := by
  have hone : ∀ s : Sys (Fin 1), Positive s (.run 0) ∧ Unshared s (.run 0) := fun _ =>
    ⟨trivial, fun q _ _ _ => Subsingleton.elim q 0⟩
  have hrun : Run step (fun s a => Positive s a ∧ Unshared s a)
      (start fun _ => 0 : Sys (Fin 1)) _ :=
    ((Run.refl.tail (a := .read 0 80) ⟨by decide, trivial⟩ rfl).tail
      (a := .intr [104, 105, carriageReturn]) ⟨trivial, trivial⟩ rfl).tail
      (a := .run 0) (hone _) rfl
  exact ⟨_, hrun, by decide, (console_disciplined _).2 _ hrun⟩

/-- A line fills the buffer; the reader that takes it waits for more. A second reader takes the
newline that follows, and the first one goes on with the next line. -/
def twoReaders : List (Step (Fin 2)) :=
  [.read 0 200, .intr (List.replicate INPUT_BUF 97), .run 0, .read 1 200, .intr [newline], .run 1,
    .intr [98, newline], .run 0]

theorem read_crosses_newline :
    ¬∀ s : Sys (Fin 2), Run step Positive (start fun _ => 0) s → Whole s := by
  intro h
  obtain ⟨s, hs, hlen, hmine, hget⟩ : ∃ s : Sys (Fin 2),
      Run.exec step Positive (start fun _ => 0) twoReaders = .ok s ∧ s.taken.length = 131 ∧
      (s.mine 0).length = 130 ∧ s.taken[128]? = some (1, some newline) := by decide +kernel
  obtain ⟨pre, post, hsplit⟩ := h s (Run.of_exec hs) 0
  have hle := congrArg List.length hsplit
  rw [length_append, length_append, hlen, hmine] at hle
  -- all but one of the entries are the first reader's, so the newline would be one of them
  rw [hsplit, append_assoc, List.getElem?_append_right (by omega),
    List.getElem?_append_left (by omega)] at hget
  have hmem := (mem_filter.mp (mem_of_getElem? hget)).2
  simp at hmem

end Xv6.Console
