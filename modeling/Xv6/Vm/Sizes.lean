import Xv6.Vm.Partition

/-!
# The size of a process and its pages

`growproc` takes the return value 0 of `deallocuvm` for an error. When a process gives up its whole
size, `deallocuvm` unmaps all pages and returns 0: `growproc` returns -1 and leaves the old size,
without the pages. In runs without such a call, the user pages of every process are those that its
size says.
-/

namespace Xv6.Vm

variable {k k' : Kern} {me : Slot} {r : Nat} {s : Mem} {va : Nat} {a : Action}

theorem present_iff (hva : va < 2 ^ 47) :
    present s r va = true ↔ lookup s r (node (va / PGSIZE) 4) ≠ none := by
  have hx : va / PGSIZE < USERPAGES := by
    show va / 4096 < 2 ^ 35
    omega
  rw [present, pteOf, PGROUNDDOWN, walkpgdir_false hx]
  cases hpt : lookup s r (node (va / PGSIZE) 3) with
  | none =>
    rw [lookup_node_succ (d := 3) (k := 0) rfl, hpt]
    simp
  | some pt =>
    rw [lookup_page hx hpt]
    cases hp : (s.page pt (PTX (va / PGSIZE * PGSIZE))).p <;> simp [hp]

/-- The user pages of a process that are present are those from `PGSIZE` up to its size. -/
def Sized (k : Kern) (p : Slot) : Prop :=
  ∀ r, (k.proc p).pgdir = some r → ∀ va < 2 ^ 47,
    (present k.mem r va = true ↔ PGSIZE ≤ va ∧ va < PGROUNDUP (k.proc p).sz)

def AllSized (k : Kern) : Prop := ∀ p, (k.proc p).life ≠ .unused → Sized k p

theorem AllSized.of_inv {base : Nat} (h : Inv True base k) : AllSized k := by
  intro p hlife r hr va hva
  have hspace := h.space p hlife
  have hm : Mapped k.mem r (npages (k.proc p).sz) :=
    hspace.user.resolve_right (fun hu => hu.1 trivial) r hr
  have howns := h.owns
  rw [owned_eq_others hlife hr] at howns
  have hbound := hm.le howns
  have hround : PGROUNDUP (k.proc p).sz = npages (k.proc p).sz * PGSIZE := by
    have hle := (le_npages _).trans (Nat.mul_le_mul_right PGSIZE hbound)
    have hsz : 57345 * PGSIZE + PGSIZE ≤ 2 ^ 64 := by decide
    exact PGROUNDUP_eq (by omega)
  have hx : va / PGSIZE < USERPAGES := by
    show va / 4096 < 2 ^ 35
    omega
  rw [present_iff hva, hm _ hx, hround]
  show 1 ≤ va / 4096 ∧ va / 4096 < _ ↔ 4096 ≤ va ∧ va < _ * 4096
  omega

/-- Giving up the whole size leaves the size without the pages. -/
theorem not_sized {sz : Nat} (hlife : (k.proc me).life ≠ .unused) (hr : (k.proc me).pgdir = some r)
    (hsz : (k.proc me).sz = sz) (hlt : PGSIZE < sz) (hle : sz ≤ 57345 * PGSIZE)
    (hm : Mapped k.mem r 1) : ¬AllSized k := by
  intro h
  have hround : PGSIZE < PGROUNDUP sz := by
    have hbound : 57345 * PGSIZE + PGSIZE ≤ 2 ^ 64 := by decide
    rw [PGROUNDUP_eq (by omega)]
    exact hlt.trans_le (le_npages _)
  have hpresent := (h me hlife r hr PGSIZE (by decide)).mpr ⟨le_rfl, hsz ▸ hround⟩
  rw [present_iff (by decide), hm _ (by decide)] at hpresent
  have hone : PGSIZE / PGSIZE = 1 := by decide
  omega

/-- A step keeps the pages that the sizes say exactly if it does not give up a whole size. -/
theorem step_sized {base : Nat} (h : Inv True base k) (hs : step k a = .ok k') :
    AllSized k' ↔ Kept k a := by
  refine ⟨fun hsized => ?_, fun hkept => .of_inv (step_inv h (fun _ => hkept) hs)⟩
  obtain ⟨ha, o, hrun⟩ := step_eq_ok hs
  obtain ⟨me, pc, call⟩ := a
  cases call with
  | sbrk n =>
    intro hn
    by_contra hlt
    obtain ⟨r, hc⟩ := enabled_caller h ha (fun h => by cases h)
    have h' : Inv False base k := h.weaken
    have hwp := wp_sysSbrk h' hc n.le_toInt False.elim
    obtain ⟨⟨-, hzero⟩, -⟩ := wp_ok hwp hrun
    obtain ⟨hproc, hm⟩ := hzero hn
    have hbound := (le_npages _).trans (Nat.mul_le_mul_right PGSIZE (hc.mapped.le (hc.owns h)))
    refine not_sized (by rw [hproc]; exact hc.ne_unused) (by rw [hproc]; exact hc.pgdir)
      (by rw [hproc]) (not_le.mp hlt) hbound hm hsized
  | _ => trivial

/-- What `growproc` may not change when it fails. -/
def SameMemory (k k' : Kern) (me : Slot) : Prop :=
  (k'.proc me).sz = (k.proc me).sz ∧
    ∀ r, (k.proc me).pgdir = some r → ∀ va < 2 ^ 47, present k'.mem r va = present k.mem r va

theorem growproc_fails {base : Nat} {n : Int64} (h : Inv True base k) (ha : a.enabled k = true)
    (hcall : a.call = .sbrk n) (hkept : Kept k a)
    (hrun : growproc a.me n.toInt k = .ok (-1, k')) : SameMemory k k' a.me := by
  obtain ⟨r, hc⟩ := enabled_caller h ha (fun h => by rw [hcall] at h; cases h)
  rw [Kept, hcall] at hkept
  obtain ⟨⟨-, hfail, -⟩, -⟩ := wp_ok (wp_growproc h hc n.le_toInt fun _ => hkept) hrun
  obtain ⟨hproc, hlookup⟩ := hfail (by decide) hkept
  refine ⟨by rw [hproc], fun r' hr' va hva => ?_⟩
  rw [hc.pgdir] at hr'
  cases hr'
  rw [Bool.eq_iff_iff, present_iff hva, present_iff hva, hlookup]

theorem fork_error {base : Nat} {e : Fault} (h : Inv True base k) (ha : a.enabled k = true)
    (hcall : a.call = .fork) (hrun : fork a.me k = .error e) : e = oom ∨ e = .panic "filedup" := by
  obtain ⟨r, hc⟩ := enabled_caller h ha (fun h => by rw [hcall] at h; cases h)
  have hwp := wp_fork h hc
  rw [Prog.wp, hrun] at hwp
  exact hwp.imp And.left And.left

/-- **The user pages of every process are those that its size says, in every run in which no process
with user pages gives up its whole size**; a step that does that breaks it. Until then `growproc`
changes nothing when it fails, and `copyuvm` finds every page. -/
theorem sized_iff_kept {kernel ncpu : Nat} {k₀ : Kern}
    (hmain : main ncpu (bss kernel) = .ok ((), k₀)) (hrun : Run step Kept k₀ k) :
    AllSized k ∧ (∀ a k', step k a = .ok k' → (AllSized k' ↔ Kept k a)) ∧
      (∀ (a : Action) n k', a.enabled k = true → a.call = .sbrk n → Kept k a →
        growproc a.me n.toInt k = .ok (-1, k') → SameMemory k k' a.me) ∧
      ∀ a : Action, a.enabled k = true → a.call = .fork →
        fork a.me k ≠ .error (.panic "copyuvm: pte should exist") ∧
        fork a.me k ≠ .error (.panic "copyuvm: page not present") := by
  have h := run_inv True hmain hrun fun _ _ _ => id
  refine ⟨.of_inv h, fun a k' => step_sized h, fun a n k' => growproc_fails h, fun a ha hcall => ?_⟩
  have herr (msg : String) (hne : Fault.panic msg ≠ oom ∧ Fault.panic msg ≠ .panic "filedup") :
      fork a.me k ≠ .error (.panic msg) := fun hrun =>
    (fork_error h ha hcall hrun).elim hne.1 hne.2
  exact ⟨herr _ (by decide), herr _ (by decide)⟩

instance (k : Kern) (a : Action) : Decidable (Kept k a) := by
  unfold Kept
  split <;> infer_instance

theorem sized_iff_kept_sbrk : ∃ k₀ k, main 1 (bss 57048) = .ok ((), k₀) ∧ Run step Kept k₀ k ∧
    (k.proc ⟨1, by decide⟩).sz = 5192 ∧ AllSized k := by
  obtain ⟨⟨⟨⟩, k₀⟩, hmain, k, hk, hsz⟩ : ∃ x, main 1 (bss 57048) = .ok x ∧
      ∃ k, Run.exec step Kept x.2 [userCall 0 .fork, userCall 1 (.sbrk (-3000))] = .ok k ∧
      (k.proc ⟨1, by decide⟩).sz = 5192 := by decide +kernel
  have hrun := Run.of_exec hk
  exact ⟨k₀, k, hmain, hrun, hsz, (sized_iff_kept hmain hrun).1⟩

/-- The first process gives up its two pages: `growproc` fails, the size stays, and the page at
`PGSIZE` is gone. -/
theorem size_without_pages : ∃ k₀ k r, main 1 (bss 57048) = .ok ((), k₀) ∧
    growproc ⟨0, by decide⟩ (-8192) k₀ = .ok (-1, k) ∧
    step k₀ (userCall 0 (.sbrk (-8192))) = .ok k ∧ (k.proc ⟨0, by decide⟩).life = .used ∧
    (k.proc ⟨0, by decide⟩).pgdir = some r ∧ PGSIZE < PGROUNDUP (k.proc ⟨0, by decide⟩).sz ∧
    present k₀.mem r PGSIZE = true ∧ present k.mem r PGSIZE = false := by
  obtain ⟨⟨⟨⟩, k₀⟩, hmain, ⟨_, k⟩, hgrow, rfl, henabled, hlife, r, hr, hrest⟩ : ∃ x,
      main 1 (bss 57048) = .ok x ∧ ∃ y, growproc ⟨0, by decide⟩ (-8192) x.2 = .ok y ∧ y.1 = -1 ∧
      (userCall 0 (.sbrk (-8192))).enabled x.2 = true ∧ (y.2.proc ⟨0, by decide⟩).life = .used ∧
      ∃ r ∈ (y.2.proc ⟨0, by decide⟩).pgdir, PGSIZE < PGROUNDUP (y.2.proc ⟨0, by decide⟩).sz ∧
      present x.2.mem r PGSIZE = true ∧ present y.2.mem r PGSIZE = false := by decide +kernel
  have hrun : (Call.sbrk (-8192)).run ⟨0, by decide⟩ k₀ = .ok (-1, k) := by
    refine eq_ok_of_wp ?_
    unfold Call.run sysSbrk
    rw [wp_bind, wp_gets, wp_bind]
    exact (wp_of_eq_ok hgrow).mpr ⟨rfl, rfl⟩
  exact ⟨k₀, k, r, hmain, hgrow, step_of_run henabled hrun, hlife, hr, hrest⟩

end Xv6.Vm
