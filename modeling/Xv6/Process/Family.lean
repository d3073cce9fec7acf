import Xv6.Process.Table

/-!
# The life of a process

Scheduling aside, a slot of the process table goes through four kinds of state: it is unused, an
embryo while its parent is in `fork`, live, and a zombie until its parent has waited for it. A
`Family` is the table seen this way, and `Family.Step` are the changes that `fork`, `exit` and `wait`
make to it. `Family.Inv` is what holds in every family: who is whose parent, and how the record of
forks, exits, frees and waits relates to the members.
-/

namespace Xv6.Process

inductive Kind
  | unused
  | embryo
  | live
  | zombie
  deriving DecidableEq

/-- How far a `fork` in progress has come. -/
inductive Stage
  | allocated
  | stacked
  | copied
  | adopted
  deriving DecidableEq

@[ext] structure Member where
  kind : Kind
  pid : UInt32
  parent : Option Slot
  kstack : Option UInt32
  pgdir : Option UInt32
  task : Option (Stage × Slot)

/-- Started, and not waited for yet. -/
@[grind] def Member.Grown (m : Member) : Prop := m.kind = .live ∨ m.kind = .zombie

@[ext] structure Family where
  member : Slot → Member
  init : Slot
  nextpid : UInt32
  forks : Nat
  log : List Event

namespace Family

def set (F : Family) (i : Slot) (m : Member) : Family :=
  { F with member := Function.update F.member i m }

/-- Two members change at a time: the slot that is being made, and the process in `fork`. -/
def set₂ (F : Family) (i : Slot) (m : Member) (j : Slot) (m' : Member) : Family :=
  (F.set i m).set j m'

/-- The changes of a family. -/
inductive Step (F : Family) : Family → Prop
  | alloc {me np} : (F.member me).kind = .live → (F.member me).task = none →
      (F.member np).kind = .unused →
      Step F { F.set₂ np { F.member np with kind := .embryo, pid := F.nextpid }
        me { F.member me with task := some (.allocated, np) } with
          nextpid := F.nextpid + 1, forks := F.forks + 1 }
  | stack {me np} : (F.member me).task = some (.allocated, np) →
      Step F (F.set₂ np { F.member np with kstack := some (F.member np).pid, task := none }
        me { F.member me with task := some (.stacked, np) })
  | noStack {me np} : (F.member me).task = some (.allocated, np) →
      Step F (F.set₂ np { F.member np with kind := .unused, kstack := none }
        me { F.member me with task := none })
  | copy {me np} : (F.member me).task = some (.stacked, np) →
      Step F (F.set₂ np { F.member np with pgdir := some (F.member np).pid }
        me { F.member me with task := some (.copied, np) })
  | noCopy {me np k} : (F.member me).task = some (.stacked, np) →
      (F.member np).kstack = some k →
      Step F { F.set₂ np { F.member np with kind := .unused, kstack := none, pgdir := none }
        me { F.member me with task := none } with log := .kfree k :: F.log }
  | adopt {me np} : (F.member me).task = some (.copied, np) →
      Step F (F.set₂ np { F.member np with parent := some me }
        me { F.member me with task := some (.adopted, np) })
  | start {me np} : (F.member me).task = some (.adopted, np) →
      Step F { F.set₂ np { F.member np with kind := .live }
        me { F.member me with task := none } with
          log := .fork (F.member me).pid (F.member np).pid :: F.log }
  | exit {me} : (F.member me).kind = .live → (F.member me).task = none → me ≠ F.init →
      Step F { F with
        member := fun i =>
          { F.member i with
            kind := if i = me then .zombie else (F.member i).kind
            parent := if (F.member i).parent = some me then some F.init else (F.member i).parent }
        log := .exit (F.member me).pid :: F.log }
  | reap {me p k g} : (F.member me).kind = .live → (F.member p).kind = .zombie →
      (F.member p).parent = some me → (F.member p).kstack = some k →
      (F.member p).pgdir = some g →
      Step F { F.set p { F.member p with
          kind := .unused, pid := 0, parent := none, kstack := none } with
        log := .wait (F.member me).pid (F.member p).pid :: .freevm g :: .kfree k :: F.log }

@[grind =] theorem member_set (F : Family) (i x : Slot) (m : Member) :
    (F.set i m).member x = if x = i then m else F.member x := by
  simp [set, update_apply]

@[grind =] theorem member_set₂ (F : Family) (i j x : Slot) (m m' : Member) :
    (F.set₂ i m j m').member x = if x = j then m' else if x = i then m else F.member x := by
  simp [set₂, member_set]

@[simp, grind =] theorem init_set (F : Family) (i : Slot) (m : Member) : (F.set i m).init = F.init :=
  rfl

@[simp, grind =] theorem init_set₂ (F : Family) (i j : Slot) (m m' : Member) :
    (F.set₂ i m j m').init = F.init := rfl

@[simp, grind =] theorem log_set₂ (F : Family) (i j : Slot) (m m' : Member) :
    (F.set₂ i m j m').log = F.log := rfl

@[grind =] theorem nextpid_set (F : Family) (i : Slot) (m : Member) :
    (F.set i m).nextpid = F.nextpid := rfl

@[grind =] theorem nextpid_set₂ (F : Family) (i j : Slot) (m m' : Member) :
    (F.set₂ i m j m').nextpid = F.nextpid := rfl

@[grind =] theorem forks_set (F : Family) (i : Slot) (m : Member) : (F.set i m).forks = F.forks := rfl

@[grind =] theorem forks_set₂ (F : Family) (i j : Slot) (m m' : Member) :
    (F.set₂ i m j m').forks = F.forks := rfl

end Family

/-! ## The record -/

namespace Event

/-- The process an event is about. -/
@[grind] def subject : Event → UInt32
  | .fork _ p | .exit p | .kfree p | .freevm p | .wait _ p => p

@[grind] def isWait (p : UInt32) : Event → Bool
  | .wait _ q => q = p
  | _ => false

end Event

/-- How often `wait` has returned `p`. -/
def waits (p : UInt32) (log : List Event) : Nat := log.countP (Event.isWait p)

@[grind =] theorem waits_cons (p : UInt32) (e : Event) (l : List Event) :
    waits p (e :: l) = waits p l + if e.isWait p then 1 else 0 := by
  rw [waits, List.countP_cons, waits]

theorem waits_eq_zero (h : ∀ e ∈ l, e.subject ≠ p) : waits p l = 0 := by
  rw [waits, List.countP_eq_zero]
  intro e he hw
  have := h e he
  cases e <;> simp_all [Event.isWait, Event.subject]

/-- An event that is no return of `wait` leaves the earlier returns as they are. -/
theorem wait_suffix_of_cons {log l : List Event} (h : .wait w p :: l <:+ e :: log)
    (he : ∀ w p, e ≠ .wait w p) : .wait w p :: l <:+ log := by
  rcases List.suffix_cons_iff.mp h with heq | hs
  · cases heq
    exact absurd rfl (he w p)
  · exact hs

/-- What the record holds when `wait` returns `p` to `w`: `p` has exited; `w` forked it, or the
forker has exited and `w` is the initial process; and the stack and page table of `p` have just been
freed. -/
structure MayWait (w p : UInt32) (log : List Event) : Prop where
  exited : .exit p ∈ log
  parent : ∃ f, .fork f p ∈ log ∧ w = if .exit f ∈ log then 1 else f
  frees : ∃ l, log = .freevm p :: .kfree p :: l

namespace Family

variable {F F' : Family}

/-! ## The invariant -/

/-- How the members hang together. -/
structure Tree (F : Family) : Prop where
  init_live : (F.member F.init).kind = .live
  unused : ∀ i, (F.member i).kind = .unused → (F.member i).parent = none
  embryo : ∀ i q, (F.member i).kind = .embryo → (F.member i).parent = some q →
    (F.member q).task = some (.adopted, i)
  kinds : ∀ q st np, (F.member q).task = some (st, np) →
    (F.member q).kind = .live ∧ (F.member np).kind = .embryo
  inj : ∀ q q' st st' np, (F.member q).task = some (st, np) →
    (F.member q').task = some (st', np) → q = q'
  adopted : ∀ q np, (F.member q).task = some (.adopted, np) → (F.member np).parent = some q

/-- A started process has the stack and page table that were allocated for it; one that is being
made has those that its stage calls for. -/
structure Stacks (F : Family) : Prop where
  grown : ∀ i, (F.member i).Grown →
    (F.member i).kstack = some (F.member i).pid ∧ (F.member i).pgdir = some (F.member i).pid
  kstack : ∀ q st np, (F.member q).task = some (st, np) → st ≠ .allocated →
    (F.member np).kstack = some (F.member np).pid
  pgdir : ∀ q st np, (F.member q).task = some (st, np) → st = .copied ∨ st = .adopted →
    (F.member np).pgdir = some (F.member np).pid

/-- Pids are handed out in order. -/
structure Pids (F : Family) : Prop where
  nextpid : F.nextpid.toNat = F.forks + 2
  init : (F.member F.init).pid = 1
  lt : ∀ i, (F.member i).kind ≠ .unused → (F.member i).pid.toNat < F.nextpid.toNat
  log_lt : ∀ e ∈ F.log, e.subject.toNat < F.nextpid.toNat
  distinct : ∀ i j, (F.member i).kind ≠ .unused → (F.member j).kind ≠ .unused →
    (F.member i).pid = (F.member j).pid → i = j

/-- What the record says of the members, and of those that are gone. -/
structure Record (F : Family) : Prop where
  exited : ∀ i, (F.member i).kind ≠ .unused →
    (.exit (F.member i).pid ∈ F.log ↔ (F.member i).kind = .zombie)
  unfreed : ∀ i, (F.member i).kind ≠ .unused → .kfree (F.member i).pid ∉ F.log ∧
    .freevm (F.member i).pid ∉ F.log ∧ waits (F.member i).pid F.log = 0
  unforked : ∀ i f, (F.member i).kind = .embryo → .fork f (F.member i).pid ∉ F.log
  fork_unique : ∀ f f' p, .fork f p ∈ F.log → .fork f' p ∈ F.log → f = f'
  freed : ∀ p, .exit p ∈ F.log →
    F.log.count (.kfree p) = waits p F.log ∧ F.log.count (.freevm p) = waits p F.log
  once : ∀ p, waits p F.log ≤ 1

/-- The parent of a started process is live: its forker, or the initial process once that has
exited. So whoever has waited for a process was its parent. -/
structure Parents (F : Family) : Prop where
  parent : ∀ i, (F.member i).Grown → i ≠ F.init → ∃ f q, .fork f (F.member i).pid ∈ F.log ∧
    (F.member i).parent = some q ∧ (F.member q).kind = .live ∧
    (F.member q).pid = if .exit f ∈ F.log then 1 else f
  waited : ∀ w p l, .wait w p :: l <:+ F.log → MayWait w p l

/-! ## Steps keep the invariant -/

theorem Tree.step (h : F.Tree) (hs : F.Step F') : F'.Tree := by
  obtain ⟨hinit, hunused, hembryo, hkinds, hinj, hadopted⟩ := h
  cases hs with
  | @noStack me np ht | @noCopy me np k ht hk =>
    have hpar : (F.member np).parent = none := by
      rw [Option.eq_none_iff_forall_ne_some]
      intro q hq
      have htq := hembryo np q (hkinds me _ np ht).2 hq
      cases hinj me q _ _ np ht htq
      rw [ht] at htq
      cases htq
    constructor <;> grind
  | _ => constructor <;> grind

theorem Stacks.step (h : F.Stacks) (ht : F.Tree) (hs : F.Step F') : F'.Stacks := by
  obtain ⟨hgrown, hkstack, hpgdir⟩ := h
  have hkinds := ht.kinds
  have hinj := ht.inj
  clear ht
  cases hs <;> constructor <;> grind

theorem Pids.step (h : F.Pids) (ht : F.Tree) (hst : F.Stacks) (hs : F.Step F')
    (hb : F'.forks < 2 ^ 31 - 1) : F'.Pids := by
  obtain ⟨hnext, hinit, hlt, hlog, hdist⟩ := h
  have hlive := ht.init_live
  have hkinds := ht.kinds
  have hinj := ht.inj
  have hkstack := hst.kstack
  have hgrown := hst.grown
  clear ht hst
  cases hs with
  | alloc hme ht hnp =>
    have hnext' : (F.nextpid + 1).toNat = F.forks + 3 := by
      simp only at hb
      rw [UInt32.toNat_add, hnext, UInt32.toNat_one]
      omega
    constructor <;> grind [UInt32.toNat_inj]
  | _ => constructor <;> grind

/-- Members may go unused and slots may be filled in, as long as no pid or record changes. -/
theorem Record.shrink (h : F.Record) (hlog : F'.log = F.log)
    (hm : ∀ i, (F'.member i).kind ≠ .unused →
      (F'.member i).kind = (F.member i).kind ∧ (F'.member i).pid = (F.member i).pid) :
    F'.Record := by
  obtain ⟨hexit, hunfreed, hunforked, huniq, hfreed, honce⟩ := h
  refine ⟨?_, ?_, ?_, ?_, ?_, ?_⟩ <;> rw [hlog]
  · intro i hi
    obtain ⟨hk, hpid⟩ := hm i hi
    rw [hk, hpid]
    exact hexit i (hk ▸ hi)
  · intro i hi
    obtain ⟨hk, hpid⟩ := hm i hi
    rw [hpid]
    exact hunfreed i (hk ▸ hi)
  · intro i f hi
    obtain ⟨hk, hpid⟩ := hm i (by rw [hi]; nofun)
    rw [hpid]
    exact hunforked i f (hk ▸ hi)
  · exact huniq
  · exact hfreed
  · exact honce

/-- An event about a process that is no member any more, or none yet, and has not exited. -/
theorem Record.kfree (h : F.Record) (hk : ∀ i, (F.member i).kind ≠ .unused → (F.member i).pid ≠ k)
    (hexit : .exit k ∉ F.log) : { F with log := .kfree k :: F.log }.Record := by
  obtain ⟨hexited, hunfreed, hunforked, huniq, hfreed, honce⟩ := h
  constructor <;> grind

theorem Record.step (h : F.Record) (ht : F.Tree) (hst : F.Stacks) (hp : F.Pids)
    (hs : F.Step F') : F'.Record := by
  have hkinds := ht.kinds
  have hdist := hp.distinct
  have hnew : ∀ e ∈ F.log, e.subject ≠ F.nextpid := by
    intro e he heq
    have := hp.log_lt e he
    rw [heq] at this
    exact Nat.lt_irrefl _ this
  cases hs with
  | alloc hme ht hnp =>
    have hnone := waits_eq_zero hnew
    obtain ⟨hexited, hunfreed, hunforked, huniq, hfreed, honce⟩ := h
    clear hp ht hst
    constructor <;> grind
  | stack ht => exact h.shrink rfl (by grind)
  | noStack ht => exact h.shrink rfl (by grind)
  | copy ht => exact h.shrink rfl (by grind)
  | adopt ht => exact h.shrink rfl (by grind)
  | @noCopy me np k ht hk =>
    obtain rfl : k = (F.member np).pid := by grind [hst.kstack]
    have hnp := (hkinds me _ np ht).2
    have hset : (F.set₂ np { F.member np with kind := .unused, kstack := none, pgdir := none }
        me { F.member me with task := none }).Record := h.shrink rfl (by grind)
    refine hset.kfree (by grind) fun hexit => ?_
    rw [log_set₂, h.exited np (by rw [hnp]; nofun), hnp] at hexit
    cases hexit
  | @start me np ht => 
    obtain ⟨hexited, hunfreed, hunforked, huniq, hfreed, honce⟩ := h
    clear hp hst
    constructor <;> grind
  | exit hme ht hne => 
    obtain ⟨hexited, hunfreed, hunforked, huniq, hfreed, honce⟩ := h
    clear hp hst
    constructor <;> grind
  | reap hme hz hpar hk hg => 
    obtain ⟨hexited, hunfreed, hunforked, huniq, hfreed, honce⟩ := h
    have := hst.grown
    clear hp hst
    constructor <;> grind

theorem Parents.keep (h : F.Parents) (es : List Event) (hinit : F'.init = F.init)
    (hlog : F'.log = es ++ F.log) (hes : ∀ p, .exit p ∉ es)
    (hgrown : ∀ i, (F'.member i).Grown → (F.member i).Grown ∧
      (F'.member i).pid = (F.member i).pid ∧ (F'.member i).parent = (F.member i).parent)
    (hlive : ∀ q, (F.member q).kind = .live →
      (F'.member q).kind = .live ∧ (F'.member q).pid = (F.member q).pid)
    (hw : ∀ w p l, .wait w p :: l <:+ F'.log → ¬.wait w p :: l <:+ F.log → MayWait w p l) :
    F'.Parents := by
  refine ⟨fun i hi hne => ?_, fun w p l hl => ?_⟩
  · obtain ⟨hi, hpid, hpar⟩ := hgrown i hi
    obtain ⟨f, q, hf, hq, hql, hqp⟩ := h.parent i hi (hinit ▸ hne)
    obtain ⟨hql', hqp'⟩ := hlive q hql
    refine ⟨f, q, ?_, hpar.trans hq, hql', ?_⟩
    · rw [hlog, hpid]
      exact List.mem_append_right _ hf
    · rw [hqp', hqp, hlog]
      simp only [List.mem_append, hes f, false_or]
  · by_cases hold : .wait w p :: l <:+ F.log
    · exact h.waited w p l hold
    · exact hw w p l hl hold

theorem Parents.step (h : F.Parents) (ht : F.Tree) (hst : F.Stacks) (hp : F.Pids) (hr : F.Record)
    (hs : F.Step F') : F'.Parents := by
  have hkinds := ht.kinds
  cases hs with
  | alloc hme ht hnp =>
    exact h.keep [] rfl rfl nofun (by grind) (by grind) fun _ _ _ hl hn => absurd hl hn
  | stack ht | noStack ht | copy ht | adopt ht =>
    exact h.keep [] rfl rfl nofun (by grind) (by grind) fun _ _ _ hl hn => absurd hl hn
  | noCopy ht hk =>
    exact h.keep [.kfree _] rfl rfl (by simp) (by grind) (by grind)
      fun _ _ _ hl hn => absurd (wait_suffix_of_cons hl nofun) hn
  | @start me np htask =>
    obtain ⟨hme, hnp⟩ := hkinds me _ np htask
    refine ⟨fun i hi hinit => ?_, fun w p l hl => h.waited w p l (wait_suffix_of_cons hl nofun)⟩
    by_cases hi' : i = np
    · refine ⟨(F.member me).pid, me, by grind, by grind [ht.adopted], by grind, ?_⟩
      have hlive : .exit (F.member me).pid ∉ F.log := by
        rw [hr.exited me (by rw [hme]; nofun), hme]
        nofun
      simp [member_set₂, hlive]
    · obtain ⟨f, q, hf, hq, hql, hqp⟩ := h.parent i (by grind) hinit
      have hqnp : q ≠ np := by rintro rfl; rw [hql] at hnp; cases hnp
      refine ⟨f, q, by grind, by grind, by grind, ?_⟩
      split <;> grind
  | @exit me hme htask hne =>
    have hexit : .exit (F.member me).pid ∉ F.log := by
      rw [hr.exited me (by rw [hme]; nofun), hme]
      nofun
    have hunused : (F.member me).kind ≠ .unused := by rw [hme]; nofun
    refine ⟨fun i hi hinit => ?_, fun w p l hl => h.waited w p l (wait_suffix_of_cons hl nofun)⟩
    obtain ⟨f, q, hf, hq, hql, hqp⟩ := h.parent i (by grind) hinit
    have hqu : (F.member q).kind ≠ .unused := by rw [hql]; nofun
    by_cases hqme : q = me
    · -- a child of the exiting process goes to the initial process
      subst hqme
      have hf' : f = (F.member q).pid := by
        rw [hqp]
        split
        next hmem =>
          rw [if_pos hmem, ← hp.init] at hqp
          exact absurd (hp.distinct _ _ hqu (by rw [ht.init_live]; nofun) hqp) hne
        next => rfl
      refine ⟨f, F.init, by simp [hf], by simp [hq], by simp [hne.symm, ht.init_live], ?_⟩
      simp [hf', hp.init]
    · have hf' : f ≠ (F.member me).pid := by
        rintro rfl
        rw [if_neg hexit] at hqp
        exact hqme (hp.distinct _ _ hqu hunused hqp)
      refine ⟨f, q, by simp [hf], by simp [hq, hqme], by simp [hql, hqme], ?_⟩
      simp [hqp, hf']
  | @reap me p k g hme hz hpar hk hg =>
    have hgrown := hst.grown p (.inr hz)
    obtain rfl : g = (F.member p).pid := by grind
    obtain rfl : k = (F.member p).pid := by grind
    refine h.keep [.wait _ _, .freevm _, .kfree _] rfl rfl (by simp) (by grind) (by grind) ?_
    intro w p' l hl hn
    rcases List.suffix_cons_iff.mp hl with heq | hl
    · cases heq
      have hinit : p ≠ F.init := by rintro rfl; rw [ht.init_live] at hz; cases hz
      obtain ⟨f, q, hf, hq, hql, hqp⟩ := h.parent p (.inr hz) hinit
      obtain rfl : q = me := by rw [hpar] at hq; cases hq; rfl
      refine ⟨?_, ⟨f, by simp [hf], by simp [hqp]⟩, _, rfl⟩
      simp [(hr.exited p (by rw [hz]; nofun)).mpr hz]
    · exact absurd (wait_suffix_of_cons (wait_suffix_of_cons hl nofun) nofun) hn

/-- What holds of a family at all times. -/
structure Inv (F : Family) : Prop where
  tree : F.Tree
  pages : F.Stacks
  pids : F.Pids
  record : F.Record
  parents : F.Parents

theorem Inv.step (h : F.Inv) (hs : F.Step F') (hb : F'.forks < 2 ^ 31 - 1) : F'.Inv where
  tree := h.tree.step hs
  pages := h.pages.step h.tree hs
  pids := h.pids.step h.tree h.pages hs hb
  record := h.record.step h.tree h.pages h.pids hs
  parents := h.parents.step h.tree h.pages h.pids h.record hs

theorem Step.init_eq (hs : F.Step F') : F'.init = F.init := by
  cases hs <;> rfl

theorem Step.forks_le (hs : F.Step F') : F.forks ≤ F'.forks := by
  cases hs with
  | alloc => exact Nat.le_succ _
  | _ => exact Nat.le_refl _

end Family

end Xv6.Process
