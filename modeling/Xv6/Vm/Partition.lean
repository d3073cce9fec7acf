import Xv6.Vm.Calls

/-!
# Every page has one owner

The invariant holds after `main` and is kept by every step, so at every point between calls the
pages of the allocator are divided among the free list, boot, the processes and the pipes.
-/

namespace Xv6.Vm

variable {k k' : Kern} {me : Slot} {strict : Prop} {base r : Nat} {a : Action} {E : Fault → Prop}

/-! ## Boot -/

theorem wp_freerange {s : Mem} (hfree : s.freelist = []) :
    Prog.wp (freerange s.first) E (fun _ s' => Owns s' 0 ∧ s'.first = s.first) s := by
  have hloop : Prog.wp (freerange s.first) E (fun _ s' => s'.first = s.first ∧
      (↑s'.freelist : Multiset Nat) =
        (Finset.Ico s.first (s.first + (PHYSTOP / PGSIZE - s.first))).val) s := by
    unfold freerange
    generalize hN : PHYSTOP / PGSIZE - s.first = N
    refine wp_times (I := fun i (s' : Mem) => s'.first = s.first ∧
      (↑s'.freelist : Multiset Nat) = (Finset.Ico s.first (s.first + i)).val) ?_ ?_
    · rw [hfree, Nat.add_zero, Finset.Ico_self]
      exact ⟨rfl, rfl⟩
    · rintro i s' hi ⟨hfirst, hlist⟩
      unfold kfree
      rw [wp_bind, wp_gets, if_neg (by omega), wp_bind]
      refine wp_fill ⟨hfirst, ?_⟩
      rw [← Multiset.cons_coe, hlist, ← Nat.add_assoc,
        Nat.Ico_succ_right_eq_insert_Ico (Nat.le_add_right _ _),
        Finset.insert_val_of_notMem (by simp)]
  refine wp_imp hloop fun _ s' ⟨hfirst, hlist⟩ => ⟨?_, hfirst⟩
  rw [Owns, hlist, add_zero, hfirst, all]
  by_cases hle : s.first ≤ PHYSTOP / PGSIZE
  · rw [Nat.add_sub_cancel' hle]
  · rw [Finset.Ico_eq_empty (by omega), Finset.Ico_eq_empty (by omega)]

/-- Before `userinit` there are no processes, files and pipes. -/
structure Booting (base : Nat) (k : Kern) : Prop where
  owns : Owns k.mem ↑k.boot
  first : k.mem.first = base
  proc : ∀ p, k.proc p = .zero
  file : ∀ f, (k.file f).ref = 0 ∧ (k.file f).type = .none
  pipe : ∀ p, k.pipe p = none

theorem pipePages_eq_zero {pipe : Nat → Option Ends} (h : ∀ p, pipe p = none) :
    pipePages pipe = 0 := by
  rw [pipePages, Finset.filter_false_of_mem]
  · rfl
  · intro p _
    simp [h p]

theorem Booting.inv (h : Booting base k) (hpos : 0 < base) : Inv strict base k := by
  have howned : owned k = ↑k.boot := by
    rw [owned, pipePages_eq_zero h.pipe, Finset.sum_eq_zero, add_zero, add_zero]
    intro p _
    rw [h.proc p]
    exact procPages_of_unused rfl
  refine ⟨howned ▸ h.owns, h.first, hpos, fun p hp => absurd (h.pipe p) hp, fun p hp => ?_, ?_⟩
  · rw [h.proc p] at hp
    exact absurd rfl hp
  · refine ⟨.of_none (fun f p w hf => ?_) fun p => ?_, fun f _ => ?_⟩
    · exact absurd hf.1 (by rw [(h.file f).1]; exact Nat.lt_irrefl 0)
    · rw [Function.comp_apply, h.pipe p]
      rfl
    · rw [(h.file f).2]
      decide

theorem wp_bootAlloc (h : Booting base k) :
    Prog.wp bootAlloc (fun _ => True) (fun _ k' => Booting base k') k := by
  unfold bootAlloc
  rw [wp_bind, vm, wp_zoom]
  refine wp_mono (wp_kalloc h.owns) (fun _ _ => trivial) ?_
  rintro _ _ ⟨f, l, rfl, hl, rfl, howns⟩
  rw [wp_bind, vm, wp_zoom]
  refine wp_fill ?_
  exact ⟨howns.congr rfl rfl, h.first, h.proc, h.file, h.pipe⟩

theorem wp_kvmalloc (h : Booting base k) :
    Prog.wp kvmalloc (fun _ => True) (fun _ k' => Booting base k') k := by
  refine wp_seq (wp_bootAlloc h) fun kpml4 k₁ h₁ => ?_
  refine wp_seq (wp_bootAlloc h₁) fun kpdpt k₂ h₂ => ?_
  exact ⟨h₂.owns.congr rfl rfl, h₂.first, h₂.proc, h₂.file, h₂.pipe⟩

theorem wp_userinit (h : Inv strict base k) :
    Prog.wp userinit (fun _ => True) (fun _ k' => Inv strict base k') k := by
  unfold userinit
  rw [wp_bind]
  refine wp_allocproc h.owns (fun _ => trivial) (fun np f l hfind hl howns => ?_) fun _ _ _ => trivial
  have hnp : (k.proc np).life = .unused := by simpa using findProc_some hfind
  dsimp only
  rw [wp_bind, wp_modify, wp_bind, vm, wp_zoom]
  refine wp_mono (wp_setupkvm howns) (fun _ _ => trivial) ?_
  rintro _ s₁ ⟨d, rfl, howns₁, hkeeps₁, hfresh, -⟩
  dsimp only
  rw [wp_bind, vm, wp_zoom]
  refine wp_mono (wp_inituvm howns₁ hfresh) (fun _ _ => trivial) ?_
  rintro _ s₂ ⟨howns₂, hkeeps₂, hm⟩
  refine wp_modifyProc ?_
  dsimp only
  rw [update_idem, update_self]
  have hkeeps := hkeeps₁.trans hkeeps₂
  refine Inv.enter (k := k) rfl rfl rfl h hnp rfl (fun h => by cases h) rfl rfl
    ⟨⟨f, rfl⟩, ⟨d, rfl⟩, (by decide : 0 < PGSIZE * 2), .inl fun r' hr' => ?_⟩
    ⟨hkeeps.first, hkeeps.kpdpt, fun b hb => hkeeps.page b (Multiset.mem_cons_of_mem hb)⟩ howns₂
  cases hr'
  have hnp : npages (PGSIZE * 2) = 2 := by decide
  rw [← hnp] at hm
  exact hm

theorem main_inv {kernel ncpu : Nat} {k₀ : Kern} (h : main ncpu (bss kernel) = .ok ((), k₀)) :
    Inv strict (EXTMEM / PGSIZE + kernel) k₀ := by
  have hmain : Prog.wp (main ncpu) (fun _ => True)
      (fun _ k' => Inv strict (EXTMEM / PGSIZE + kernel) k') (bss kernel) := by
    unfold main
    rw [wp_bind, wp_gets, wp_bind, vm, wp_zoom]
    refine wp_imp (wp_freerange rfl) ?_
    rintro _ s ⟨howns, hfirst⟩
    have h₁ : Booting (EXTMEM / PGSIZE + kernel) { bss kernel with mem := s } :=
      ⟨howns, hfirst, fun _ => rfl, fun _ => ⟨rfl, rfl⟩, fun _ => rfl⟩
    refine wp_seq (wp_kvmalloc h₁) fun _ k₂ h₂ => ?_
    refine wp_seq (wp_bootAlloc h₂) fun _ k₃ h₃ => ?_
    refine wp_seq (wp_bootAlloc h₃) fun _ k₄ h₄ => ?_
    refine wp_seq (wp_times (I := fun _ => Booting _) h₄ fun i k _ h => ?_)
      fun _ k₅ h₅ => wp_userinit (h₅.inv (Nat.add_pos_left (by decide) _))
    refine wp_seq (wp_bootAlloc h) fun _ k' h' => ?_
    exact wp_seq (wp_bootAlloc h') fun _ k'' h'' => h''
  have hinv := wp_ok hmain h
  exact hinv

/-! ## Steps -/

theorem exists_of_fetch {s : Mem} {pc : Nat} (h : fetch s r pc = true) :
    ∃ y < USERPAGES, lookup s r (node y 4) ≠ none := by
  rw [fetch, Bool.and_eq_true, decide_eq_true_eq] at h
  obtain ⟨hpc, h⟩ := h
  have hx : pc / PGSIZE < USERPAGES := by
    show pc / 4096 < 2 ^ 35
    omega
  refine ⟨pc / PGSIZE, hx, fun hnone => ?_⟩
  rw [pteOf, PGROUNDDOWN, walkpgdir_false hx] at h
  cases hpt : lookup s r (node (pc / PGSIZE) 3) with
  | none =>
    rw [hpt] at h
    cases h
  | some pt =>
    rw [hpt] at h
    rw [lookup_page hx hpt] at hnone
    simp only [Option.map_some, Option.any_some, Bool.and_eq_true] at h
    rw [if_pos h.1] at hnone
    cases hnone

theorem enabled_caller (h : Inv strict base k) (ha : a.enabled k = true) (hcall : a.call ≠ .exit) :
    ∃ r, Caller k a.me r := by
  rw [Action.enabled, Bool.and_eq_true, decide_eq_true_eq] at ha
  obtain ⟨hlife, ha⟩ := ha
  obtain ⟨-, ⟨r, hr⟩, -, huser⟩ := h.space a.me (by rw [hlife]; decide)
  have hfetch : fetch k.mem r a.pc = true := by
    rw [hr] at ha
    cases hc : a.call <;> simp_all
  obtain ⟨y, hy, hpage⟩ := exists_of_fetch hfetch
  refine ⟨r, hlife, hr, ?_⟩
  rcases huser with huser | ⟨-, huser⟩
  · exact huser r hr
  · have := (huser r hr y hy).mp hpage
    omega

/-- The condition on `sbrk`: the process does not give up all its pages. -/
def Kept (k : Kern) (a : Action) : Prop :=
  match a.call with
  | .sbrk n => n.toInt = -((k.proc a.me).sz : Int) → (k.proc a.me).sz ≤ PGSIZE
  | _ => True

/-- The pages that a call takes. -/
def demand (k : Kern) (me : Slot) : Call → Nat
  | .fork => forkNeed k me
  | .exec im => execNeed im
  | .sbrk n => (k.proc me).pgdir.elim 0 fun r => sbrkNeed k.mem r (k.proc me).sz n.toInt
  | .pipe => pipeNeed k
  | _ => 0

theorem wp_run (h : Inv strict base k) (ha : a.enabled k = true) (hkept : strict → Kept k a) :
    Prog.wp (a.call.run a.me) (Needs k.mem (demand k a.me a.call) True)
      (fun _ k' => Inv strict base k' ∧ demand k a.me a.call ≤ k.mem.freelist.length) k := by
  have hzero {x : KernM Int} (hx : Prog.wp x (fun e => e ≠ oom) (fun _ k' => Inv strict base k') k) :
      Prog.wp x (Needs k.mem 0 True)
        (fun _ k' => Inv strict base k' ∧ 0 ≤ k.mem.freelist.length) k :=
    wp_mono hx (fun e he => .inr ⟨he, Nat.zero_le _, trivial⟩) fun _ k' hk' =>
      ⟨hk', Nat.zero_le _⟩
  have hlife : (k.proc a.me).life ≠ .unused := by
    rw [Action.enabled, Bool.and_eq_true, decide_eq_true_eq] at ha
    rw [ha.1]
    decide
  by_cases hexit : a.call = .exit
  · rw [hexit]
    exact hzero (wp_exit h hlife)
  obtain ⟨r, hc⟩ := enabled_caller h ha hexit
  obtain ⟨me, pc, call⟩ := a
  cases call with
  | fork =>
    refine wp_mono (wp_fork h hc) (fun e he => he.imp id ?_) fun _ _ => id
    rintro ⟨rfl, hle⟩
    exact ⟨by decide, hle, trivial⟩
  | exec im => exact wp_exec h hc
  | sbrk n =>
    have hneed : demand k me (.sbrk n) = sbrkNeed k.mem r (k.proc me).sz n.toInt := by
      rw [demand, hc.pgdir, Option.elim_some]
    dsimp only at hc ⊢
    rw [hneed]
    refine wp_imp (wp_sysSbrk h hc n.le_toInt hkept) fun _ k' ⟨hk', hle⟩ => ⟨hk'.1, hle⟩
  | pipe => exact wp_sysPipe h
  | close fd => exact hzero (wp_sysClose h)
  | exit => exact absurd rfl hexit
  | wait => exact hzero (wp_wait h)

theorem step_eq_ok (hs : step k a = .ok k') :
    a.enabled k = true ∧ ∃ o, a.call.run a.me k = .ok (o, k') := by
  unfold step at hs
  split at hs
  next ha =>
    refine ⟨ha, ?_⟩
    split at hs
    next => cases hs
    next o k'' heq =>
      cases hs
      exact ⟨o, heq⟩
  next => cases hs

theorem step_of_run {o : Int} (ha : a.enabled k = true) (hrun : a.call.run a.me k = .ok (o, k')) :
    step k a = .ok k' := by
  rw [step, if_pos ha, hrun]

theorem step_inv (h : Inv strict base k) (hkept : strict → Kept k a) (hs : step k a = .ok k') :
    Inv strict base k' := by
  obtain ⟨ha, o, hrun⟩ := step_eq_ok hs
  exact (wp_ok (wp_run h ha hkept) hrun).1

theorem run_inv (strict : Prop) {kernel ncpu : Nat} {k₀ : Kern} {C : Kern → Action → Prop}
    (hmain : main ncpu (bss kernel) = .ok ((), k₀)) (hrun : Run step C k₀ k)
    (hC : strict → ∀ k a, C k a → Kept k a) : Inv strict (EXTMEM / PGSIZE + kernel) k :=
  hrun.invariant (main_inv hmain) fun h hc hs => step_inv h (fun hstrict => hC hstrict _ _ hc) hs

/-- **Every page of the allocator has one owner** between the calls of any run: it is on the free list
once, or it is once a page of boot, of a process or of a pipe that has an open end. -/
theorem pages_partitioned {kernel ncpu : Nat} {k₀ : Kern}
    (hmain : main ncpu (bss kernel) = .ok ((), k₀)) (hrun : Run step (fun _ _ => True) k₀ k) :
    ↑k.mem.freelist + owned k = all (EXTMEM / PGSIZE + kernel) ∧
      ∀ p e, k.pipe p = some e → e.readopen = true ∨ e.writeopen = true := by
  have h := run_inv False hmain hrun False.elim
  exact ⟨h.first ▸ h.owns, fun p e => h.files.isOpen⟩

/-- The process in slot `i` makes a call from the first page of its program. -/
def userCall (i : Nat) (c : Call) : Action := ⟨Fin.ofNat 64 i, PGSIZE, c⟩

theorem pages_partitioned_fork_pipe : ∃ k₀ k, main 1 (bss 57048) = .ok ((), k₀) ∧
    Run step (fun _ _ => True) k₀ k ∧ (k.proc ⟨1, by decide⟩).life = .used ∧
    ↑k.mem.freelist + owned k = all (EXTMEM / PGSIZE + 57048) := by
  obtain ⟨⟨⟨⟩, k₀⟩, hmain, k, hk, hused⟩ : ∃ x, main 1 (bss 57048) = .ok x ∧
      ∃ k, Run.exec step (fun _ _ => True) x.2
        [userCall 0 .fork, userCall 1 .pipe, userCall 1 (.sbrk 5000)] = .ok k ∧
      (k.proc ⟨1, by decide⟩).life = .used := by decide +kernel
  have hrun := Run.of_exec hk
  exact ⟨k₀, k, hmain, hrun, hused, (pages_partitioned hmain hrun).1⟩

end Xv6.Vm
