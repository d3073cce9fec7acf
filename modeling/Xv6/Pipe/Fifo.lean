import Xv6.Pipe.Steps

/-!
# A pipe is a queue

The counters of a pipe are 32-bit and wrap. `Holds` says what they stand for: the pipe holds the
bytes that were stored and not yet read. Every stretch of `pipewrite` appends the bytes that it
stores, and every stretch of `piperead` takes the oldest ones. Over whole runs the bytes read are
those stored, in order, and every call of `pipewrite` has its own bytes stored in order.
-/

namespace Xv6.Pipe

open List

/-- The bytes `xs` were stored, and the first `r` of them read. -/
structure Holds (p : Pipe) (xs : List UInt8) (r : Nat) : Prop where
  nwrite : p.nwrite = UInt32.ofNat xs.length
  nread : p.nread = UInt32.ofNat r
  le : r ≤ xs.length
  size : xs.length ≤ r + PIPESIZE
  ring : RingHolds p.data xs r xs.length

namespace Holds

variable {p : Pipe} {xs : List UInt8} {r : Nat}

theorem start (data : Fin PIPESIZE → UInt8) : Holds (pipealloc data) [] 0 where
  nwrite := rfl
  nread := rfl
  le := Nat.le_refl _
  size := Nat.zero_le _
  ring := fun i _ hi => absurd hi (Nat.not_lt_zero i)

theorem used_eq (h : Holds p xs r) : p.used = xs.length - r := by
  have := h.size
  rw [used, h.nwrite, h.nread, toNat_ofNat_sub h.le]
  simp only [PIPESIZE] at this
  omega

theorem used_le (h : Holds p xs r) : p.used ≤ PIPESIZE := by
  have := h.size
  rw [h.used_eq]
  omega

theorem put (h : Holds p xs r) (hlt : p.used < PIPESIZE) (c : UInt8) :
    Holds (p.put c) (xs ++ [c]) r := by
  rw [h.used_eq] at hlt
  have hlen : (xs ++ [c]).length = xs.length + 1 := by simp
  have := h.le
  refine ⟨?_, h.nread, by omega, by omega, ?_⟩
  · rw [hlen, ← ofNat_add_one, ← h.nwrite]
    rfl
  · have hslot : ringSlot PIPESIZE p.nwrite = Fin.ofNat _ xs.length := by
      rw [h.nwrite, ringSlot_ofNat (by decide)]
    rw [hlen, Pipe.put, hslot]
    exact h.ring.push c (Nat.le_refl r) (by omega)

theorem puts (h : Holds p xs r) {bytes : List UInt8} (hfit : p.used + bytes.length ≤ PIPESIZE) :
    Holds (bytes.foldl Pipe.put p) (xs ++ bytes) r := by
  induction bytes generalizing p xs with
  | nil => rwa [append_nil]
  | cons c bytes ih =>
    rw [length_cons] at hfit
    have hlt : p.used < PIPESIZE := by omega
    have := ih (h.put hlt c) (by rw [used_put hlt]; omega)
    rwa [append_assoc] at this

theorem readLoop (h : Holds p xs r) (k : Nat) :
    (readLoop p k).1 = (xs.drop r).take k ∧
    Holds (Pipe.readLoop p k).2 xs (r + (Pipe.readLoop p k).1.length) ∧
    (Pipe.readLoop p k).2.readopen = p.readopen ∧
    (Pipe.readLoop p k).2.writeopen = p.writeopen := by
  induction k generalizing p r with
  | zero => exact ⟨rfl, h, rfl, rfl⟩
  | succ k ih =>
    have hle := h.le
    rw [Pipe.readLoop]
    by_cases hempty : p.nread = p.nwrite
    · have := empty_iff.mp hempty
      rw [h.used_eq] at this
      simp only [if_pos hempty]
      refine ⟨?_, h, trivial, trivial⟩
      rw [drop_eq_nil_of_le (by omega), take_nil]
    · have hlt : r < xs.length := by
        have := mt empty_iff.mpr hempty
        rw [h.used_eq] at this
        omega
      have hnext : Holds { p with nread := p.nread + 1 } xs (r + 1) := by
        have := h.size
        refine ⟨h.nwrite, ?_, hlt, by omega, h.ring.mono (Nat.le_succ r)⟩
        rw [← ofNat_add_one, ← h.nread]
      obtain ⟨hb, hh, hro, hwo⟩ := ih hnext
      simp only [if_neg hempty]
      refine ⟨?_, ?_, hro, hwo⟩
      · have hget := h.ring r (Nat.le_refl r) hlt
        rw [← ringSlot_ofNat (by decide), ← h.nread, List.getElem?_eq_getElem hlt,
          Option.some.injEq] at hget
        rw [hb, drop_eq_getElem_cons hlt, take_succ_cons, hget]
      · rw [length_cons, ← Nat.add_assoc, Nat.add_right_comm]
        exact hh

end Holds

/-! ## Stretches -/

section
variable {p : Pipe} {xs : List UInt8} {r : Nat}

theorem Holds.writeLoop (h : Holds p xs r) (n : Int) (killed : Bool) (rest : List UInt8) :
    let w := writeLoop n killed p rest
    Holds w.pipe (xs ++ w.moved) r ∧ w.moved ++ w.rest = rest ∧
      (w.ending = .returns n → 0 ≤ n → w.moved = rest) := by
  obtain ⟨hm, hr, hp, -, he⟩ := writeLoop_spec n killed h.used_le rest
  refine ⟨?_, ?_, fun hend hn => ?_⟩
  · rw [hp]
    refine h.puts ?_
    have := h.used_le
    rw [hm, length_take]
    omega
  · rw [hm, hr, take_append_drop]
  · split at he
    next hfit => rw [hm, take_of_length_le hfit]
    next hbig =>
      split at he
      · rw [he.2] at hend
        cases hend
        omega
      · rw [he.2] at hend
        cases hend

theorem Holds.readStretch (h : Holds p xs r) (n : Int) (killed : Bool) :
    let w := readStretch n killed p
    Holds w.pipe xs (r + w.moved.length) ∧ w.moved = (xs.drop r).take w.moved.length ∧
      (w.ending = .returns 0 → 0 < n → p.writeopen = false ∧ r = xs.length) := by
  have hle := h.le
  unfold Pipe.readStretch
  split
  next hempty =>
    split
    · exact ⟨h, rfl, nofun⟩
    · exact ⟨h, rfl, nofun⟩
  next hgo =>
    obtain ⟨hb, hh, -, -⟩ := h.readLoop n.toNat
    dsimp only
    refine ⟨hh, ?_, fun hend hn => ?_⟩
    · rw [hb, length_take, ← take_eq_take_min]
    · injection hend with hzero
      rw [hb, length_take, length_drop] at hzero
      have hr : r = xs.length := by omega
      refine ⟨?_, hr⟩
      by_contra hopen
      rw [Bool.not_eq_false] at hopen
      refine hgo ⟨empty_iff.mpr ?_, hopen⟩
      rw [h.used_eq]
      omega

end

/-! ## Runs -/

section
variable {π : Type} {s t : Sys π} {me q : π}

/-- What was stored and read so far, and how far each call of `pipewrite` has come. -/
structure Books (s : Sys π) : Prop where
  pipe : Holds s.pipe (s.stored.map Prod.snd) s.received.length
  received : s.received = (s.stored.map Prod.snd).take s.received.length
  tags : ∀ x ∈ s.stored, x.1 < s.calls.length
  source : ∀ id n src, s.calls[id]? = some (n, src) →
    src.length = n.toNat ∧ s.storedBy id <+: src
  going : ∀ q id n rest, (s.proc q).op = .write id n rest →
    ∃ src, s.calls[id]? = some (n, src) ∧ s.storedBy id ++ rest = src
  alone : ∀ q q' id n rest n' rest', (s.proc q).op = .write id n rest →
    (s.proc q').op = .write id n' rest' → q = q'
  done : ∀ id r, .write id r ∈ s.returned → id < s.calls.length ∧
    (∀ q n rest, (s.proc q).op ≠ .write id n rest) ∧
    ∀ n src, s.calls[id]? = some (n, src) → r = n → 0 ≤ n → s.storedBy id = src

theorem wakeup_op (c : Chan) (proc : π → Proc) (q : π) : (wakeup c proc q).op = (proc q).op := by
  unfold wakeup
  split <;> rfl

theorem wakeups_op (cs : List Chan) (proc : π → Proc) (q : π) :
    (cs.foldr wakeup proc q).op = (proc q).op := by
  induction cs with
  | nil => rfl
  | cons c cs ih => rw [foldr_cons, wakeup_op, ih]

theorem Stretch.procs_op [DecidableEq π] {r : Stretch} {proc : π → Proc} {op : Op} {late : Bool} :
    (r.procs proc me op late q).op =
      if q = me then if r.ending.chan = none then .idle else op else (proc q).op := by
  rw [procs, Function.update_apply]
  split
  · rfl
  · exact wakeups_op ..

theorem storedBy_append {id id' : Nat} {bytes : List UInt8} {proc pipe calls returned} :
    (⟨pipe, proc, calls, s.stored ++ bytes.map (id, ·), returned⟩ : Sys π).storedBy id' =
      s.storedBy id' ++ if id' = id then bytes else [] := by
  simp only [Sys.storedBy, filter_append, filter_map]
  split
  next h =>
    subst h
    simp [Function.comp_def]
  next h =>
    simp [Ne.symm h]

theorem Books.start (data : Fin PIPESIZE → UInt8) (killed : π → Bool) :
    Books (start data killed) := by
  refine ⟨.start data, rfl, nofun, nofun, nofun, nofun, nofun⟩

/-- A step that only wakes, kills or moves processes that are not in `pipewrite`. -/
theorem Books.congr (h : Books s) (hpipe : Holds t.pipe (s.stored.map Prod.snd) s.received.length)
    (hcalls : t.calls = s.calls) (hstored : t.stored = s.stored) (hret : t.returned = s.returned)
    (hop : ∀ q id n rest, (t.proc q).op = .write id n rest → (s.proc q).op = .write id n rest) :
    Books t := by
  have hrec : t.received = s.received := by rw [Sys.received, hret, Sys.received]
  have hby : t.storedBy = s.storedBy := by
    funext id
    rw [Sys.storedBy, hstored, Sys.storedBy]
  refine ⟨by rw [hstored, hrec]; exact hpipe, by rw [hstored, hrec]; exact h.received, ?_, ?_, ?_,
    ?_, ?_⟩
  · rw [hstored, hcalls]
    exact h.tags
  · rw [hcalls, hby]
    exact h.source
  · intro q id n rest hq
    rw [hcalls, hby]
    exact h.going q id n rest (hop q id n rest hq)
  · intro q q' id n rest n' rest' hq hq'
    exact h.alone q q' id n rest n' rest' (hop _ _ _ _ hq) (hop _ _ _ _ hq')
  · intro id r hr
    rw [hret] at hr
    obtain ⟨hlt, hno, hby'⟩ := h.done id r hr
    rw [hcalls, hby]
    exact ⟨hlt, fun q n rest hq => hno q n rest (hop q id n rest hq), hby'⟩

theorem storedBy_eq_nil {id : Nat} (h : Books s) (hid : s.calls.length ≤ id) : s.storedBy id = [] := by
  rw [Sys.storedBy, map_eq_nil_iff, filter_eq_nil_iff]
  intro x hx
  have := h.tags x hx
  simp only [decide_eq_true_eq]
  omega

variable [DecidableEq π]

theorem Books.call {n : Int} {src : List UInt8} (h : Books s) (hsrc : src.length = n.toNat) :
    Books { s with
      proc := Function.update s.proc me { s.proc me with op := .write s.calls.length n src }
      calls := s.calls ++ [(n, src)] } := by
  have hlen : (s.calls ++ [(n, src)]).length = s.calls.length + 1 := by
    rw [length_append, length_singleton]
  have hold : ∀ id n' src', (s.calls ++ [(n, src)])[id]? = some (n', src') →
      s.calls[id]? = some (n', src') ∨ id = s.calls.length ∧ n' = n ∧ src' = src := by
    intro id n' src' hid
    rcases Nat.lt_trichotomy id s.calls.length with hlt | rfl | hgt
    · rw [List.getElem?_append_left hlt] at hid
      exact .inl hid
    · rw [List.getElem?_concat_length] at hid
      cases hid
      exact .inr ⟨rfl, rfl, rfl⟩
    · rw [List.getElem?_eq_none (by rw [hlen]; exact hgt)] at hid
      cases hid
  have hnew : s.storedBy s.calls.length = [] := storedBy_eq_nil h (Nat.le_refl _)
  have hgoing : ∀ q id n' rest, (s.proc q).op = .write id n' rest → id < s.calls.length := by
    intro q id n' rest hq
    obtain ⟨src', hs', -⟩ := h.going q id n' rest hq
    exact (List.getElem?_eq_some_iff.mp hs').1
  refine ⟨h.pipe, h.received, fun x hx => ?_, fun id n' src' hid => ?_, fun q id n' rest hq => ?_,
    fun q q' id n' rest n'' rest' hq hq' => ?_, fun id r hr => ?_⟩
  · rw [hlen]
    exact Nat.lt_succ_of_lt (h.tags x hx)
  · obtain hid | ⟨rfl, rfl, rfl⟩ := hold id n' src' hid
    · exact h.source id n' src' hid
    · refine ⟨hsrc, ?_⟩
      change s.storedBy _ <+: _
      rw [hnew]
      exact nil_prefix
  · change (Function.update s.proc me _ q).op = _ at hq
    change ∃ src', (s.calls ++ [(n, src)])[id]? = some (n', src') ∧ s.storedBy id ++ rest = src'
    rw [Function.update_apply] at hq
    split at hq
    · cases hq
      exact ⟨src, List.getElem?_concat_length, by rw [hnew, nil_append]⟩
    · obtain ⟨src', hs', hby⟩ := h.going q id n' rest hq
      exact ⟨src', by rwa [List.getElem?_append_left (hgoing q id n' rest hq)], hby⟩
  · simp only [Function.update_apply] at hq hq'
    split at hq <;> split at hq'
    next h1 h2 => rw [h1, h2]
    next h1 h2 =>
      cases hq
      exact absurd (hgoing q' _ _ _ hq') (Nat.lt_irrefl _)
    next h1 h2 =>
      cases hq'
      exact absurd (hgoing q _ _ _ hq) (Nat.lt_irrefl _)
    next h1 h2 => exact h.alone q q' id n' rest n'' rest' hq hq'
  · obtain ⟨hlt, hno, hby⟩ := h.done id r hr
    refine ⟨by rw [hlen]; omega, fun q n' rest hq => ?_, fun n' src' hid => ?_⟩
    · simp only [Function.update_apply] at hq
      split at hq
      · cases hq
        exact absurd hlt (Nat.lt_irrefl _)
      · exact hno q n' rest hq
    · obtain hid | ⟨rfl, -, -⟩ := hold id n' src' hid
      · exact hby n' src' hid
      · exact absurd hlt (Nat.lt_irrefl _)

theorem Books.write {id : Nat} {n : Int} {rest : List UInt8} {late : Bool} (h : Books s)
    (hme : (s.proc me).op = .write id n rest) {r : Stretch}
    (hr : writeLoop n (s.proc me).killed s.pipe rest = r) :
    Books { s with
      pipe := r.pipe
      proc := r.procs s.proc me (.write id n r.rest) late
      stored := s.stored ++ r.moved.map (id, ·)
      returned := s.returned ++ r.ending.result (.write id) } := by
  obtain ⟨hh, hrest, hall⟩ := h.pipe.writeLoop n (s.proc me).killed rest
  rw [hr] at hh hrest hall
  obtain ⟨src, hsrc, hby⟩ := h.going me id n rest hme
  have hidlt := (List.getElem?_eq_some_iff.mp hsrc).1
  generalize ht : ({ s with
      pipe := r.pipe
      proc := r.procs s.proc me (.write id n r.rest) late
      stored := s.stored ++ r.moved.map (id, ·)
      returned := s.returned ++ r.ending.result (.write id) } : Sys π) = t
  have hstored : t.stored = s.stored ++ r.moved.map (id, ·) := by rw [← ht]
  have hcalls : t.calls = s.calls := by rw [← ht]
  have hret : t.returned = s.returned ++ r.ending.result (.write id) := by rw [← ht]
  have hop : ∀ q, (t.proc q).op = if q = me then if r.ending.chan = none then .idle
      else .write id n r.rest else (s.proc q).op := fun q => by
    rw [← ht]
    exact Stretch.procs_op
  have hbytes : t.stored.map Prod.snd = s.stored.map Prod.snd ++ r.moved := by
    rw [hstored, map_append]
    simp [Function.comp_def]
  have hrec : t.received = s.received := by
    rw [Sys.received, hret, Sys.received]
    cases r.ending <;> simp [Ending.result, Return.bytes]
  have hstoredBy : ∀ id', t.storedBy id' = s.storedBy id' ++ if id' = id then r.moved else [] := by
    intro id'
    rw [← ht]
    exact storedBy_append
  have hmine : s.storedBy id ++ r.moved ++ r.rest = src := by
    rw [append_assoc, hrest, hby]
  refine ⟨?_, ?_, fun x hx => ?_, fun id' n' src' hid => ?_, fun q id' n' rest' hq => ?_,
    fun q q' id' n' rest' n'' rest'' hq hq' => ?_, fun id' r' hr' => ?_⟩
  · rw [hbytes, hrec, ← ht]
    exact hh
  · rw [hrec, hbytes, take_append_of_le_length h.pipe.le]
    exact h.received
  · rw [hstored, mem_append] at hx
    rw [hcalls]
    obtain hx | hx := hx
    · exact h.tags x hx
    · obtain ⟨c, -, rfl⟩ := mem_map.mp hx
      exact hidlt
  · rw [hcalls] at hid
    obtain ⟨hlen, hpre⟩ := h.source id' n' src' hid
    refine ⟨hlen, ?_⟩
    rw [hstoredBy]
    split
    next heq =>
      subst heq
      rw [hsrc] at hid
      cases hid
      exact ⟨r.rest, hmine⟩
    next => rwa [append_nil]
  · rw [hop] at hq
    rw [hcalls, hstoredBy]
    split at hq
    · split at hq
      · cases hq
      · cases hq
        exact ⟨src, hsrc, by rw [if_pos rfl, hmine]⟩
    next hne =>
      obtain ⟨src', hs', hby'⟩ := h.going q id' n' rest' hq
      refine ⟨src', hs', ?_⟩
      rw [if_neg, append_nil, hby']
      rintro rfl
      exact hne (h.alone q me _ _ _ _ _ hq hme)
  · rw [hop] at hq hq'
    have hback : ∀ q id' n' rest', (if q = me then if r.ending.chan = none then .idle
        else .write id n r.rest else (s.proc q).op) = .write id' n' rest' →
        ∃ rest, (s.proc q).op = .write id' n' rest := by
      intro q id' n' rest' hq
      split at hq
      next heq =>
        split at hq
        · cases hq
        · cases hq
          exact ⟨rest, heq ▸ hme⟩
      · exact ⟨rest', hq⟩
    obtain ⟨_, hq⟩ := hback q _ _ _ hq
    obtain ⟨_, hq'⟩ := hback q' _ _ _ hq'
    exact h.alone q q' _ _ _ _ _ hq hq'
  · rw [hret, mem_append] at hr'
    rw [hcalls]
    obtain hr' | hr' := hr'
    · obtain ⟨hlt, hno, hdone⟩ := h.done id' r' hr'
      have hne : id' ≠ id := by
        rintro rfl
        exact hno me n rest hme
      refine ⟨hlt, fun q n' rest' hq => ?_, fun n' src' hid hrn hn => ?_⟩
      · rw [hop] at hq
        split at hq
        · split at hq
          · cases hq
          · cases hq
            exact hne rfl
        · exact hno q n' rest' hq
      · rw [hstoredBy, if_neg hne, append_nil]
        exact hdone n' src' hid hrn hn
    · -- the call returns in this stretch
      cases hend : r.ending with
      | sleeps c =>
        rw [hend] at hr'
        cases hr'
      | returns ret =>
        rw [hend, Ending.result, mem_singleton] at hr'
        cases hr'
        refine ⟨hidlt, fun q n' rest' hq => ?_, fun n' src' hid hrn hn => ?_⟩
        · rw [hop] at hq
          split at hq
          · rw [if_pos (by rw [hend]; rfl)] at hq
            cases hq
          next hne => exact hne (h.alone q me _ _ _ _ _ hq hme)
        · rw [hsrc] at hid
          cases hid
          rw [hrn] at hend
          rw [hstoredBy, if_pos rfl, hall hend hn, hby]

theorem Books.read {n : Int} {late : Bool} (h : Books s) {r : Stretch}
    (hr : readStretch n (s.proc me).killed s.pipe = r) :
    Books { s with
      pipe := r.pipe
      proc := r.procs s.proc me (.read n) late
      returned := s.returned ++ r.ending.result (.read n · r.moved) } := by
  obtain ⟨hh, hmoved, -⟩ := h.pipe.readStretch n (s.proc me).killed
  rw [hr] at hh hmoved
  -- what is moved is handed out, since only a stretch that returns moves bytes
  have hbytes : (r.ending.result (.read n · r.moved)).flatMap Return.bytes = r.moved := by
    rw [← hr, readStretch]
    split
    · split <;> rfl
    · simp [Ending.result, Return.bytes]
  generalize ht : ({ s with
      pipe := r.pipe
      proc := r.procs s.proc me (.read n) late
      returned := s.returned ++ r.ending.result (.read n · r.moved) } : Sys π) = t
  have hrec : t.received = s.received ++ r.moved := by
    rw [← ht, Sys.received, flatMap_append, hbytes, Sys.received]
  have hback : ∀ q id n' rest, (t.proc q).op = .write id n' rest →
      (s.proc q).op = .write id n' rest := by
    intro q id n' rest hq
    rw [← ht] at hq
    rw [Stretch.procs_op] at hq
    split at hq
    · split at hq <;> cases hq
    · exact hq
  have hret : ∀ id r', .write id r' ∈ t.returned → .write id r' ∈ s.returned := by
    intro id r' hr'
    rw [← ht] at hr'
    refine (mem_append.mp hr').resolve_right fun hin => ?_
    unfold Ending.result at hin
    split at hin <;> simp at hin
  have hsame : t.stored = s.stored ∧ t.calls = s.calls := by
    rw [← ht]
    exact ⟨rfl, rfl⟩
  have hby : t.storedBy = s.storedBy := by
    funext id
    rw [Sys.storedBy, hsame.1, Sys.storedBy]
  refine ⟨?_, ?_, ?_, ?_, fun q id n' rest hq => ?_, fun q q' id n' rest n'' rest' hq hq' =>
    h.alone q q' id n' rest n'' rest' (hback _ _ _ _ hq) (hback _ _ _ _ hq'), fun id r' hr' => ?_⟩
  · rw [hrec, length_append, ← ht]
    exact hh
  · rw [hrec, hsame.1, length_append, take_add, ← h.received, ← hmoved]
  · rw [hsame.1, hsame.2]
    exact h.tags
  · rw [hsame.2, hby]
    exact h.source
  · rw [hsame.2, hby]
    exact h.going q id n' rest (hback _ _ _ _ hq)
  · obtain ⟨hlt, hno, hdone⟩ := h.done id r' (hret id r' hr')
    rw [hsame.2, hby]
    exact ⟨hlt, fun q n' rest hq => hno q n' rest (hback _ _ _ _ hq), hdone⟩

variable [Fintype π]

theorem Books.step {a : Step π} (h : Books s) (hs : step s a = .ok t) : Books t := by
  cases a with
  | write me n addr =>
    simp only [Pipe.step] at hs
    split at hs
    · cases hs
    · cases hs
      exact h.call (by rw [length_map, length_range])
  | read me n =>
    simp only [Pipe.step] at hs
    split at hs
    · cases hs
    · cases hs
      refine h.congr h.pipe rfl rfl rfl fun q id n' rest hq => ?_
      simp only [Function.update_apply] at hq
      split at hq
      · cases hq
      · exact hq
  | run me late =>
    simp only [Pipe.step, stretch] at hs
    split at hs
    · cases hs
    split at hs
    · cases hs
    next id n rest hme =>
      cases hs
      exact h.write hme rfl
    next n _ =>
      cases hs
      exact h.read rfl
  | kill who =>
    cases hs
    refine h.congr h.pipe rfl rfl rfl fun q id n' rest hq => ?_
    simp only [Function.update_apply] at hq
    split at hq
    next heq => exact heq ▸ hq
    · exact hq
  | close writable =>
    have hpipe : ∀ ro wo, Holds { s.pipe with readopen := ro, writeopen := wo }
        (s.stored.map Prod.snd) s.received.length := fun _ _ =>
      ⟨h.pipe.nwrite, h.pipe.nread, h.pipe.le, h.pipe.size, h.pipe.ring⟩
    simp only [Pipe.step, pipeclose] at hs
    split at hs
    · split at hs
      · cases hs
      · cases hs
        exact h.congr (hpipe _ _) rfl rfl rfl fun q id n' rest hq => wakeup_op _ _ q ▸ hq
    · split at hs
      · cases hs
      · cases hs
        exact h.congr (hpipe _ _) rfl rfl rfl fun q id n' rest hq => wakeup_op _ _ q ▸ hq

theorem Books.run {data : Fin PIPESIZE → UInt8} {killed : π → Bool}
    (hrun : Run Pipe.step (fun _ _ => True) (Pipe.start data killed) s) : Books s :=
  hrun.invariant (.start data killed) fun h _ hs => h.step hs

/-- **A pipe is a queue.** In every run of calls of `pipewrite`, `piperead` and `pipeclose` by any
number of processes, from any state reached:

* at most `PIPESIZE` bytes are in the pipe;
* the bytes that `piperead` returned are a prefix of those that `pipewrite` stored;
* the bytes that each call of `pipewrite` stored are a prefix of its own, and all of them if it
  returned its byte count;
* a `piperead` of `n > 0` bytes that returns `0` finds the write end closed and every stored byte
  read. -/
theorem pipe_fifo {data : Fin PIPESIZE → UInt8} {killed : π → Bool}
    (hrun : Run Pipe.step (fun _ _ => True) (Pipe.start data killed) s) :
    (s.pipe.nwrite - s.pipe.nread).toNat ≤ PIPESIZE ∧
    s.received <+: s.stored.map Prod.snd ∧
    (∀ id n src, s.calls[id]? = some (n, src) →
      src.length = n.toNat ∧ s.storedBy id <+: src ∧
      (.write id n ∈ s.returned → 0 ≤ n → s.storedBy id = src)) ∧
    ∀ me n late, (s.proc me).op = .read n → 0 < n → Pipe.step s (.run me late) = .ok t →
      ∀ bytes, t.returned = s.returned ++ [.read n 0 bytes] →
        s.pipe.writeopen = false ∧ s.received = s.stored.map Prod.snd := by
  have h := Books.run hrun
  refine ⟨h.pipe.used_le, ?_, fun id n src hid => ?_, fun me n late hop hn hs bytes hret => ?_⟩
  · rw [h.received]
    exact take_prefix ..
  · exact ⟨(h.source id n src hid).1, (h.source id n src hid).2, fun hr hn =>
      (h.done id n hr).2.2 n src hid rfl hn⟩
  · simp only [Pipe.step, stretch, hop] at hs
    split at hs
    · cases hs
    · cases hs
      obtain ⟨-, -, hzero⟩ := h.pipe.readStretch n (s.proc me).killed
      have hend : (readStretch n (s.proc me).killed s.pipe).ending = .returns 0 := by
        have := append_cancel_left hret
        revert this
        cases (readStretch n (s.proc me).killed s.pipe).ending with
        | sleeps c => simp [Ending.result]
        | returns r =>
          rintro ⟨⟨-, rfl, -⟩, -⟩
          rfl
      obtain ⟨hclosed, hall⟩ := hzero hend hn
      refine ⟨hclosed, ?_⟩
      rw [h.received, hall, take_length]

end

/-- One process writes three bytes, and another reads two of them. -/
theorem pipe_fifo_two_bytes : ∃ s : Sys Bool,
    Run Pipe.step (fun _ _ => True) (Pipe.start (fun _ => 0) fun _ => false) s ∧
    s.received = [7, 8] ∧ s.stored.map Prod.snd = [7, 8, 9] ∧
    s.received <+: s.stored.map Prod.snd := by
  obtain ⟨s, hs, hrec, hst⟩ : ∃ s : Sys Bool, Run.exec Pipe.step (fun _ _ => True)
      (Pipe.start (fun _ => 0) fun _ => false)
      [.write true 3 fun i => UInt8.ofNat (7 + i), .run true false, .read false 2,
        .run false false] = .ok s ∧
      s.received = [7, 8] ∧ s.stored.map Prod.snd = [7, 8, 9] := ⟨_, rfl, rfl, rfl⟩
  have hs' := Run.of_exec hs
  exact ⟨s, hs', hrec, hst, (pipe_fifo (t := s) hs').2.1⟩

end Xv6.Pipe
