import Xv6.Malloc.Alloc

/-!
# Runs of the allocator

In every run in which no joined block has `2 ^ 32` units, more than the size in a header can be, the list is what it should be, the blocks tile the memory, and every call ends.
-/

namespace Xv6.Malloc

open List

variable {base gap : Nat} {mem : Nat → Header} {s s' : State} {heap heap' : Heap}
  {fs live : List Block} {turns turns' : Nat}

/-! ## What is asked of the heap -/

/-- The free blocks that are reached from `freep`, from `base` on; the list is circular. There is no
list before the first call of `malloc`. -/
def FreeList (base : Nat) (s : Heap) (fs : List Block) : Prop :=
  s.freep = 0 ∧ fs = [] ∨
    s.freep ≠ 0 ∧ Looped s.next base (fs.map (·.start)) ∧ base ∉ fs.map (·.start) ∧
      s.freep ∈ base :: fs.map (·.start) ∧ ∀ f ∈ fs, (s.size f.start).toNat = f.units

/-- The list is sorted by address up to the node that points to `base`, no block is next to another,
and each address that `sbrk` returned is in just one block, free or live. -/
def Right (base : Nat) (s : State) : Prop :=
  ∃ fs, FreeList base s.heap fs ∧ Sorted (sentinel base :: fs) ∧
    (∀ a, cover (fs ++ s.live) a = cover s.heap.got a) ∧ ∀ a, cover s.heap.got a ≤ 1

/-- What is freed, by the program or by `morecore`, has fewer than `2 ^ 32` units together with the
free blocks next to it. -/
def Fits (base : Nat) (s : State) : Call → Prop
  | .malloc nbytes answers => ∀ fs, FreeList base s.heap fs →
      (∀ f ∈ fs, f.units < (units nbytes).toNat) → ∀ gap ∈ answers.head?.join,
        joined fs ⟨s.heap.brk + gap, (coreUnits (units nbytes)).toNat⟩ < 2 ^ 32
  | .free ap => ∀ fs, FreeList base s.heap fs → ∀ b ∈ s.block ap, joined fs b < 2 ^ 32

/-- Only live blocks are freed. -/
def Call.Enabled (s : State) : Call → Prop
  | .malloc _ _ => True
  | .free ap => (s.block ap).isSome

/-- A block that `malloc` returns has room for the bytes behind its header; if it returns 0, the
free list and the live blocks are as before. -/
def Answered (base turns : Nat) (s s' : State) : Call → Prop
  | .malloc nbytes answers => ∃ ap, malloc base turns nbytes answers s.heap = some (ap, s'.heap) ∧
      (ap = 0 → s'.live = s.live ∧ ∀ fs, FreeList base s'.heap fs ↔ FreeList base s.heap fs) ∧
      (ap ≠ 0 → ∃ n, s'.live = ⟨ap - 16, n⟩ :: s.live ∧ ap + nbytes.toNat ≤ ap - 16 + 16 * n)
  | .free _ => True

/-! ## The invariant -/

/-- Nothing is allocated yet, or the heap is a ring. -/
def Inv (base : Nat) (s : State) : Prop :=
  s.heap.freep = 0 ∧ s.heap.got = [] ∧ s.live = [] ∧ base < s.heap.brk ∨
    s.heap.freep ≠ 0 ∧ ∃ fs, Ring base s.heap fs s.live

theorem Ring.freep_ne (h : Ring base heap fs live) (hbase : 0 < base) : heap.freep ≠ 0 := by
  obtain ⟨c, hc, hfreep⟩ := mem_map.mp h.freep
  have := h.base_le hc
  omega

theorem Ring.freeList (h : Ring base heap fs live) (hfreep : heap.freep ≠ 0) :
    FreeList base heap fs := by
  refine .inr ⟨hfreep, h.looped, fun hmem => ?_, h.freep,
    fun f hf => h.row.sizes f (mem_cons_of_mem _ hf)⟩
  obtain ⟨c, hc, hstart⟩ := mem_map.mp hmem
  exact absurd hstart (Nat.ne_of_gt (h.base_lt_start hc))

theorem Inv.right (h : Inv base s) : Right base s := by
  rcases h with ⟨hfreep, hgot, hlive, -⟩ | ⟨hfreep, fs, hring⟩
  · refine ⟨[], .inl ⟨hfreep, rfl⟩, pairwise_singleton .., fun a => ?_, fun a => ?_⟩
    · rw [hgot, hlive]
      rfl
    · rw [hgot]
      exact Nat.zero_le 1
  · exact ⟨fs, hring.freeList hfreep, hring.sorted, hring.tiles, hring.once⟩

theorem ring_base (h : base < heap.brk) (hgot : heap.got = []) :
    Ring base { heap.set base ⟨base, 0⟩ with freep := base } [] [] := by
  constructor
  case row =>
    refine ⟨Chained.cons_cons.mpr ⟨?_, .singleton base⟩, rfl, fun b hb => ?_⟩
    · change ((heap.set base ⟨base, 0⟩).mem base).ptr = base
      rw [Heap.set_self]
    · cases mem_singleton.mp hb
      change ((heap.set base ⟨base, 0⟩).mem base).size.toNat = 0
      rw [Heap.set_self]
      rfl
  case freep => exact mem_cons_self
  case sorted => exact pairwise_singleton ..
  case tiles =>
    intro a
    change cover [] a = cover heap.got a
    rw [hgot]
  case once =>
    intro a
    change cover heap.got a ≤ 1
    rw [hgot]
    exact Nat.zero_le 1
  case got_below =>
    intro r hr
    change r ∈ heap.got at hr
    rw [hgot] at hr
    cases hr
  case base_lt => exact h
  all_goals
    intro b hb
    cases hb

theorem freeList_base (hbase : 0 < base) (hfreep : heap.freep = 0) (fs : List Block) :
    FreeList base { heap.set base ⟨base, 0⟩ with freep := base } fs ↔ FreeList base heap fs := by
  have hnext : (heap.set base ⟨base, 0⟩).next base = base := by rw [Heap.next, Heap.set_self]
  constructor
  · rintro (⟨h, -⟩ | ⟨-, hloop, hbase', -, -⟩)
    · exact absurd h (Nat.ne_of_gt hbase)
    · cases fs with
      | nil => exact .inl ⟨hfreep, rfl⟩
      | cons f fs =>
        have hf : (heap.set base ⟨base, 0⟩).next base = f.start := (Chained.cons_cons.mp hloop).1
        rw [hnext] at hf
        exact absurd (mem_cons.mpr (.inl hf)) hbase'
  · rintro (⟨-, rfl⟩ | ⟨h, -⟩)
    · refine .inr ⟨Nat.ne_of_gt hbase, Chained.cons_cons.mpr ⟨hnext, .singleton base⟩, ?_, ?_, ?_⟩
      · exact not_mem_nil
      · exact mem_cons_self
      · exact fun f hf => absurd hf not_mem_nil
    · exact absurd hfreep h

theorem Inv.init (h : Inv base s) (hbase : 0 < base) : ∃ heap fs, Ring base heap fs s.live ∧
    heap.brk = s.heap.brk ∧ (∀ gs, FreeList base heap gs ↔ FreeList base s.heap gs) ∧
    ∀ turns nbytes answers, malloc base turns nbytes answers s.heap =
      mallocLoop turns (units nbytes) answers heap := by
  rcases h with ⟨hfreep, hgot, hlive, hbrk⟩ | ⟨hfreep, fs, hring⟩
  · refine ⟨{ s.heap.set base ⟨base, 0⟩ with freep := base }, [], ?_, rfl,
      freeList_base hbase hfreep, fun turns nbytes answers => ?_⟩
    · rw [hlive]
      exact ring_base hbrk hgot
    · rw [malloc, if_pos hfreep]
  · refine ⟨s.heap, fs, hring, rfl, fun _ => Iff.rfl, fun turns nbytes answers => ?_⟩
    rw [malloc, if_neg hfreep]

theorem units_toNat (nbytes : UInt32) : (units nbytes).toNat = (nbytes.toNat + 15) / 16 + 1 := by
  have hlt := nbytes.toNat_lt
  rw [units, UInt32.toNat_ofNat_of_lt']
  · omega
  · change _ < 2 ^ 32
    omega

theorem Inv.malloc (h : Inv base s) (hbase : 0 < base) {nbytes : UInt32}
    {answers : List (Option Nat)} (hfits : Fits base s (.malloc nbytes answers)) :
    ∃ n, ∀ turns ≥ n, ∃ s', step base s (turns, .malloc nbytes answers) = .ok s' ∧ Inv base s' ∧
      Answered base turns s s' (.malloc nbytes answers) := by
  obtain ⟨heap, fs, hring, hbrk, hlist, hmalloc⟩ := h.init hbase
  have hfreep := hring.freep_ne hbase
  have hunits := units_toNat nbytes
  refine ⟨fs.length + 2, fun turns hturns => ?_⟩
  have hfits' := hfits fs ((hlist fs).mp (hring.freeList hfreep))
  rw [← hbrk] at hfits'
  rcases hring.mallocLoop (by omega) hfits' hturns with hloop | ⟨b, heap', fs', hloop, hb, hring'⟩
  · refine ⟨⟨heap, s.live⟩, ?_, .inr ⟨hfreep, fs, hring⟩, 0, ?_, fun _ => ⟨rfl, hlist⟩, ?_⟩
    · rw [step]
      dsimp only
      rw [hmalloc, hloop]
      rfl
    · rw [hmalloc, hloop]
    · exact fun hne => absurd rfl hne
  · have hsize : (heap'.size b.start).toNat = b.units := hring'.sizes b mem_cons_self
    refine ⟨⟨heap', b :: s.live⟩, ?_, .inr ⟨hring'.freep_ne hbase, fs', hring'⟩, b.start + 16, ?_,
      ?_, fun _ => ⟨b.units, ?_, ?_⟩⟩
    · rw [step]
      dsimp only
      rw [hmalloc, hloop]
      dsimp only
      rw [if_neg (by omega), Nat.add_sub_cancel, hsize]
    · rw [hmalloc, hloop]
    · exact fun hzero => absurd hzero (by omega)
    · rw [Nat.add_sub_cancel]
    · omega

theorem Inv.free (h : Inv base s) (hbase : 0 < base) {ap : Nat} (hfits : Fits base s (.free ap))
    (henabled : (s.block ap).isSome) :
    ∃ n, ∀ turns ≥ n, ∃ s', step base s (turns, .free ap) = .ok s' ∧ Inv base s' := by
  obtain ⟨b, hblock⟩ := Option.isSome_iff_exists.mp henabled
  have hlive : b ∈ s.live := mem_of_find?_eq_some hblock
  have hap : b.start + 16 = ap := by simpa using List.find?_some hblock
  rcases h with ⟨-, -, hnil, -⟩ | ⟨hfreep, fs, hring⟩
  · rw [hnil] at hlive
    cases hlive
  have hfits' := hfits fs (hring.freeList hfreep) b hblock
  refine ⟨fs.length + 1, fun turns hturns => ?_⟩
  obtain ⟨heap', fs', hfree, hring', -, -⟩ :=
    (hring.perm_live (perm_cons_erase hlive)).free hfits' hturns
  refine ⟨⟨heap', s.live.erase b⟩, ?_, .inr ⟨hring'.freep_ne hbase, fs', hring'⟩⟩
  rw [step]
  dsimp only
  rw [hblock]
  rw [← hap, hfree]

theorem Inv.step (h : Inv base s) (hbase : 0 < base) {c : Call} (henabled : c.Enabled s)
    (hfits : Fits base s c) : ∃ n, ∀ turns ≥ n, ∃ s', step base s (turns, c) = .ok s' ∧
      Inv base s' ∧ Answered base turns s s' c := by
  cases c with
  | malloc nbytes answers => exact h.malloc hbase hfits
  | free ap =>
    obtain ⟨n, hn⟩ := h.free hbase hfits henabled
    refine ⟨n, fun turns hturns => ?_⟩
    obtain ⟨s', hstep, hinv⟩ := hn turns hturns
    exact ⟨s', hstep, hinv, trivial⟩

/-! ## More turns -/

theorem free_mono {ap : Nat} (h : free turns ap heap = some heap') (hle : turns ≤ turns') :
    free turns' ap heap = some heap' := by
  rw [Malloc.free] at h ⊢
  cases hseek : seek heap.next (between heap (ap - 16)) turns heap.freep with
  | none =>
    rw [hseek] at h
    cases h
  | some p =>
    rw [hseek] at h
    rw [seek_mono hseek hle]
    exact h

theorem morecore_mono {nu : UInt32} {answer : Option Nat}
    (h : morecore turns nu answer heap = some r) (hle : turns ≤ turns') :
    morecore turns' nu answer heap = some r := by
  cases answer with
  | none => exact h
  | some gap =>
    obtain ⟨heap', hfree, rfl⟩ := Option.map_eq_some_iff.mp h
    exact Option.map_eq_some_iff.mpr ⟨heap', free_mono hfree hle, rfl⟩

theorem mallocLoop_mono {nunits : UInt32} {answers : List (Option Nat)}
    (h : mallocLoop turns nunits answers heap = some r) (hle : turns ≤ turns') :
    mallocLoop turns' nunits answers heap = some r := by
  induction answers generalizing heap with
  | nil =>
    rw [mallocLoop.eq_def] at h ⊢
    cases hsearch : search turns nunits heap with
    | none =>
      rw [hsearch] at h
      cases h
    | some prevp =>
      rw [hsearch] at h
      rw [show search turns' nunits heap = some prevp from seek_mono hsearch hle]
      exact h
  | cons answer answers ih =>
    rw [mallocLoop.eq_def] at h ⊢
    cases hsearch : search turns nunits heap with
    | none =>
      rw [hsearch] at h
      cases h
    | some prevp =>
      rw [hsearch] at h
      rw [show search turns' nunits heap = some prevp from seek_mono hsearch hle]
      dsimp only at h ⊢
      split at h
      next hfit => rwa [if_pos hfit]
      next hfit =>
        rw [if_neg hfit]
        cases hcore : morecore turns nunits answer heap with
        | none =>
          rw [hcore] at h
          cases h
        | some core =>
          rw [hcore] at h
          rw [morecore_mono hcore hle]
          cases core with
          | none => exact h
          | some heap => exact ih h

theorem step_mono {c : Call} (h : step base s (turns, c) = .ok s') (hle : turns ≤ turns') :
    step base s (turns', c) = .ok s' := by
  rw [step.eq_def] at h ⊢
  cases c with
  | malloc nbytes answers =>
    dsimp only at h ⊢
    cases hmalloc : malloc base turns nbytes answers s.heap with
    | none =>
      rw [hmalloc] at h
      cases h
    | some r =>
      rw [hmalloc] at h
      rw [show malloc base turns' nbytes answers s.heap = some r from mallocLoop_mono hmalloc hle]
      exact h
  | free ap =>
    dsimp only at h ⊢
    cases hblock : s.block ap with
    | none =>
      rw [hblock] at h
      cases h
    | some b =>
      rw [hblock] at h
      cases hfree : free turns ap s.heap with
      | none =>
        rw [hfree] at h
        cases h
      | some heap =>
        rw [hfree] at h
        rw [free_mono hfree hle]
        exact h

/-- What a step does does not depend on the turns that it was given. -/
theorem Inv.of_step (h : Inv base s) (hbase : 0 < base) {c : Call} (hfits : Fits base s c)
    (hstep : Malloc.step base s (turns, c) = .ok s') : Inv base s' := by
  have henabled : c.Enabled s := by
    cases c with
    | malloc nbytes answers => trivial
    | free ap =>
      rw [Malloc.step.eq_def] at hstep
      cases hblock : s.block ap with
      | none =>
        simp only [hblock] at hstep
        cases hstep
      | some b => exact Option.isSome_iff_exists.mpr ⟨b, hblock⟩
  obtain ⟨n, hn⟩ := h.step hbase henabled hfits
  obtain ⟨t, ht, hinv, -⟩ := hn (max n turns) (Nat.le_max_left ..)
  have hmono := step_mono hstep (Nat.le_max_right n turns)
  rw [ht] at hmono
  cases hmono
  exact hinv

/-! ## Runs -/

theorem Inv.start (base gap : Nat) (mem : Nat → Header) : Inv base (start base gap mem) := by
  refine .inl ⟨rfl, rfl, rfl, ?_⟩
  change base < base + 16 + gap
  omega

/-- In runs in which all that is freed fits, the heap is right in every state reached, and every
call ends: `malloc` with a block that is large enough, or with nothing changed. -/
theorem heap_right (hbase : 0 < base)
    (h : Run (step base) (fun s a => Fits base s a.2) (start base gap mem) s) :
    Right base s ∧ ∀ c : Call, c.Enabled s → Fits base s c → ∃ n, ∀ turns ≥ n, ∃ s',
      step base s (turns, c) = .ok s' ∧ Answered base turns s s' c := by
  have hinv : Inv base s := by
    refine h.invariant (Inv.start base gap mem) fun {t a u} ht hfits hstep => ?_
    exact ht.of_step hbase hfits hstep
  refine ⟨hinv.right, fun c henabled hfits => ?_⟩
  obtain ⟨n, hn⟩ := hinv.step hbase henabled hfits
  refine ⟨n, fun turns hturns => ?_⟩
  obtain ⟨s', hstep, -, hanswered⟩ := hn turns hturns
  exact ⟨s', hstep, hanswered⟩

/-- One call of `malloc`, for which `sbrk` is called. -/
theorem heap_right_one :
    ∃ s, Run (step 16) (fun s a => Fits 16 s a.2) (start 16 0 fun _ => ⟨0, 0⟩) s ∧
      s.live = [⟨65520, 3⟩] ∧ Right 16 s ∧
      ∀ c : Call, c.Enabled s → Fits 16 s c → ∃ n, ∀ turns ≥ n, ∃ s',
        step 16 s (turns, c) = .ok s' ∧ Answered 16 turns s s' c := by
  have hfits : Fits 16 (start 16 0 fun _ => ⟨0, 0⟩) (.malloc 20 [some 0]) := by
    rintro fs (⟨-, rfl⟩ | ⟨h, -⟩) - gap hgap
    · cases hgap
      decide
    · exact absurd rfl h
  have hrun : Run (step 16) (fun s a => Fits 16 s a.2) (start 16 0 fun _ => ⟨0, 0⟩) _ :=
    .tail (a := (3, .malloc 20 [some 0])) .refl hfits rfl
  exact ⟨_, hrun, by decide, heap_right (by decide) hrun⟩

/-! ## Blocks that do not fit -/

/-- Sixteen blocks of the largest size, one behind the other, are allocated and then freed. -/
def overflow : List (Nat × Call) :=
  List.replicate 16 (3, .malloc 0xffffffff [some 0]) ++
    (List.range 16).map fun i => (3, .free (48 + i * 4294967312))

theorem overflow_run : ∃ s, Run (step 16) (fun _ _ => True) (start 16 0 fun _ => ⟨0, 0⟩) s ∧
    s.heap.freep ≠ 0 ∧ s.heap.next 16 = 32 ∧ s.heap.next 32 = 16 ∧ s.heap.size 32 = 16 ∧
    s.live = [] ∧ ⟨32, 268435457⟩ ∈ s.heap.got := by
  obtain ⟨s, hs, hrest⟩ : ∃ s, Run.exec (step 16) (fun _ _ => True) (start 16 0 fun _ => ⟨0, 0⟩)
      overflow = .ok s ∧ s.heap.freep ≠ 0 ∧ s.heap.next 16 = 32 ∧ s.heap.next 32 = 16 ∧
      s.heap.size 32 = 16 ∧ s.live = [] ∧ ⟨32, 268435457⟩ ∈ s.heap.got := by decide +kernel
  exact ⟨s, Run.of_exec hs, hrest⟩

/-- The size of the block that they are joined to is `2 ^ 32 + 16` units, of which the header says
16: the rest is lost. -/
theorem overflow_not_right :
    ∃ s, Run (step 16) (fun _ _ => True) (start 16 0 fun _ => ⟨0, 0⟩) s ∧ ¬ Right 16 s := by
  obtain ⟨s, hrun, hfreep, hnext, hnext', hsize, hlive, hgot⟩ := overflow_run
  refine ⟨s, hrun, ?_⟩
  rintro ⟨fs, hlist, -, htiles, -⟩
  obtain ⟨f, rfl, hstart, hunits⟩ : ∃ f, fs = [f] ∧ f.start = 32 ∧ f.units = 16 := by
    rcases hlist with ⟨hzero, -⟩ | ⟨-, hloop, hbase, -, hsizes⟩
    · exact absurd hzero hfreep
    rcases fs with _ | ⟨f, _ | ⟨g, fs⟩⟩
    · have hself : s.heap.next 16 = 16 := (Chained.cons_cons.mp hloop).1
      omega
    · have hf : s.heap.next 16 = f.start := (Chained.cons_cons.mp hloop).1
      have hf' := hsizes f mem_cons_self
      rw [← hf, hnext, hsize] at hf'
      exact ⟨f, rfl, hf.symm.trans hnext, hf'.symm⟩
    · obtain ⟨hf, hrest⟩ := Chained.cons_cons.mp hloop
      change s.heap.next 16 = f.start at hf
      have hg : s.heap.next f.start = g.start := (Chained.cons_cons.mp hrest).1
      rw [← hf, hnext, hnext'] at hg
      exact absurd (by simp [← hg]) hbase
  have hcover := htiles 288
  have hpos : 0 < cover s.heap.got 288 := by
    apply Extent.cover_pos (mem_map_of_mem hgot)
    · decide
    · decide
  rw [hlive, append_nil, cover_singleton, Block.stop, hstart, hunits,
    if_neg (by decide)] at hcover
  omega

end Xv6.Malloc
