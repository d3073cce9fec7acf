import Xv6.Bio.Cache
import Xv6.Lib.Table

/-!
# What the buffer cache keeps

Three invariants of the buffer cache. The list holds every buffer, and those that nobody refers to
stand in the order in which they were released (`Order`). A buffer has as many references as its
reference count says, so that it is for the same block as long as a process waits for it or holds it
(`Refs`). The contents of a valid buffer are what was last written to its block; and no two buffers
that were ever in use are for the same block, so that a block that is not dirty in the cache can be
read from the disk (`Data`).

The buffers that were never in use are all for block 0 of device 0. Of several buffers for that
block, one that is in use comes first in the list and is the one that `bget` finds.
-/

namespace Xv6.Bio
open List
open Ide (Buf)

/-! ## Searching a list -/

section
variable {α : Type} {R : α → α → Prop} {test : α → Bool} {l : List α} {a b : α}

/-- The first match stands before every other one. -/
theorem rel_of_find (hR : l.Pairwise R) (hb : l.find? test = some b) (ha : a ∈ l)
    (htest : test a = true) (hne : a ≠ b) : R b a := by
  obtain ⟨-, as, bs, rfl, has⟩ := List.find?_eq_some_iff_append.mp hb
  rw [pairwise_append, pairwise_cons] at hR
  rw [mem_append, mem_cons] at ha
  rcases ha with ha | rfl | ha
  · have hno := has a ha
    rw [htest] at hno
    cases hno
  · exact absurd rfl hne
  · exact hR.2.1.1 a ha

/-- What stands before the first match is no match. -/
theorem pairwise_find (hnodup : l.Nodup) (hb : l.find? test = some b) :
    l.Pairwise fun x y => y = b → test x = false := by
  obtain ⟨-, as, bs, rfl, has⟩ := List.find?_eq_some_iff_append.mp hb
  rw [nodup_append, nodup_cons] at hnodup
  obtain ⟨-, ⟨hbs, -⟩, hdisj⟩ := hnodup
  refine pairwise_append.mpr ⟨?_, pairwise_cons.mpr ⟨?_, ?_⟩, ?_⟩
  · exact pairwise_of_forall_mem_list fun x _ y hy heq =>
      absurd heq (hdisj y hy b mem_cons_self)
  · intro y hy heq
    exact absurd (heq ▸ hy) hbs
  · exact pairwise_of_forall_mem_list fun x _ y hy heq => absurd (heq ▸ hy) hbs
  · intro x hx y _ _
    exact Bool.eq_false_iff.mpr fun ht => by simpa [ht] using has x hx

end

/-! ## The invariants -/

variable {π : Type}

/-- The references that a process has while it is in a call. -/
def Pc.refs (b : Fin NBUF) : Pc → Nat
  | .waits c _ _ | .drops c => if c = b then 1 else 0
  | .out => 0

structure Order (s : Sys π) (l : List (Fin NBUF)) : Prop where
  nodup : l.Nodup
  mem : ∀ b, b ∈ l
  seg : Seg s.links none (l.map some) none
  fresh : l.Pairwise fun b c => s.touched b = false → s.touched c = true →
    ¬((s.buf c).dev = 0 ∧ (s.buf c).blockno = 0)
  lru : l.Pairwise fun b c => s.users b = [] → s.users c = [] →
    s.released c < s.released b ∨ s.released c = 0
  clock : ∀ b, s.released b ≤ s.clock

structure Refs [DecidableEq π] (s : Sys π) : Prop where
  refcnt : ∀ b, s.refcnt b = (s.users b).length
  count : ∀ p b, (s.users b).count p = (s.holder b).toList.count p + (s.pc p).refs b
  locked : ∀ b, (s.buf b).locked = (s.holder b).isSome
  waits : ∀ p b dev blockno, s.pc p = .waits b dev blockno →
    (s.buf b).dev = dev ∧ (s.buf b).blockno = blockno

/-- What holds of each buffer and its holder. -/
structure Filled (latest : UInt32 → Disk) (x : Buf) (holder : Option π) : Prop where
  held : ∀ p, holder = some p → x.valid = true
  dirty : x.dirty = true → x.valid = true
  latest : x.valid = true → x.data = latest x.dev x.blockno.toNat

structure Data (s : Sys π) : Prop where
  filled : ∀ b, Filled s.latest (s.buf b) (s.holder b)
  disk : ∀ dev n, s.disk dev n = s.latest dev n ∨
    ∃ b, (s.buf b).dev = dev ∧ (s.buf b).blockno.toNat = n ∧ (s.buf b).dirty = true
  unique : ∀ b c, s.touched b = true → s.touched c = true → (s.buf b).dev = (s.buf c).dev →
    (s.buf b).blockno = (s.buf c).blockno → b = c
  fresh : ∀ b, s.touched b = false → s.users b = [] ∧ (s.buf b).dev = 0 ∧ (s.buf b).blockno = 0 ∧
    (s.buf b).valid = false ∧ (s.buf b).dirty = false

/-! ## The list -/

section
variable {s : Sys π} {l : List (Fin NBUF)} {dev blockno : UInt32} {b : Fin NBUF}

theorem Order.find_eq (h : Order s l) (test : Fin NBUF → Bool) :
    DLinks.find s.links.next none (Option.any test) (NBUF + 1) (s.links.next none) =
      (l.find? test).map some ∧
    DLinks.find s.links.prev none (Option.any test) (NBUF + 1) (s.links.prev none) =
      (l.reverse.find? test).map some := by
  have hlen : (l.map some).length < NBUF + 1 := by
    have hle := h.nodup.length_le_card
    rw [length_map]
    exact Nat.lt_succ_of_le hle
  refine ⟨?_, ?_⟩
  · rw [h.seg.find_eq (by simp) hlen, List.find?_map]
    rfl
  · rw [h.seg.reverse.find_eq (by simp) (by rw [length_reverse]; exact hlen),
      ← map_reverse, List.find?_map]
    rfl

theorem Order.bget_eq (h : Order s l) : bget s dev blockno =
    match l.find? (s.isFor dev blockno) with
    | some b => .ok (.cached b)
    | none => match l.reverse.find? s.unused with
      | some b => .ok (.recycled b)
      | none => .error (.panic "bget: no buffers") := by
  rw [bget, (h.find_eq _).1, (h.find_eq _).2]
  cases l.find? (s.isFor dev blockno) with
  | some b => rfl
  | none => cases l.reverse.find? s.unused <;> rfl

theorem isFor_iff : s.isFor dev blockno b = true ↔
    (s.buf b).dev = dev ∧ (s.buf b).blockno = blockno := by
  simp [Sys.isFor]

theorem unused_iff : s.unused b = true ↔ s.refcnt b = 0 ∧ (s.buf b).dirty = false := by
  simp [Sys.unused]

end

/-! ## `binit` -/

theorem seg_binit (k : DLinks Node) :
    Seg (binit k) none ((List.finRange NBUF).reverse.map some) none := by
  have hgen : ∀ (bs l : List (Fin NBUF)) (k : DLinks Node), (bs.reverse ++ l).Nodup →
      Seg k none (l.map some) none →
      Seg (bs.foldl (fun k b => k.push none (some b)) k) none ((bs.reverse ++ l).map some) none := by
    intro bs
    induction bs with
    | nil => exact fun _ _ _ h => h
    | cons b bs ih =>
      intro l k hnodup h
      rw [reverse_cons, append_assoc] at hnodup ⊢
      refine ih (b :: l) _ hnodup (h.push (by simp) ?_ (by simp) ?_)
      · exact (nodup_cons.mp (nodup_append.mp hnodup).2.1).2.map (Option.some_injective _)
      · rw [mem_map_of_injective (Option.some_injective _)]
        exact (nodup_cons.mp (nodup_append.mp hnodup).2.1).1
  have h := hgen (List.finRange NBUF) [] (k.empty none)
    (by rw [append_nil]; exact nodup_reverse.mpr (nodup_finRange _)) Seg.empty
  rwa [append_nil] at h

/-! ## References -/

section
variable [DecidableEq π] {s : Sys π} {l : List (Fin NBUF)} {dev blockno : UInt32} {b : Fin NBUF}
  {me : π}

theorem Refs.users_ne_nil (h : Refs s) (p : π)
    (hp : s.holder b = some p ∨ (s.pc p).refs b = 1) : s.users b ≠ [] := by
  intro hnil
  have hcount := h.count p b
  rw [hnil, count_nil] at hcount
  rcases hp with hp | hp
  · rw [hp, Option.toList_some, count_singleton_self] at hcount
    omega
  · omega

/-- A step changes one buffer, and where one process is in its call. A buffer is for the same block as
long as it has users. -/
theorem Refs.change {t : Sys π} (h : Refs s) (b : Fin NBUF) (me : π)
    (hother : ∀ c, c ≠ b → t.refcnt c = s.refcnt c ∧ t.users c = s.users c ∧
      t.holder c = s.holder c ∧ t.buf c = s.buf c)
    (hpc : ∀ p, p ≠ me → t.pc p = s.pc p) (hrefcnt : t.refcnt b = (t.users b).length)
    (hcount : ∀ p, (t.users b).count p = (t.holder b).toList.count p + (t.pc p).refs b)
    (hrefs : ∀ c, c ≠ b → (t.pc me).refs c = (s.pc me).refs c)
    (hlocked : (t.buf b).locked = (t.holder b).isSome)
    (hkey : s.users b = [] ∨ (t.buf b).dev = (s.buf b).dev ∧ (t.buf b).blockno = (s.buf b).blockno)
    (hwaits : ∀ c dev blockno, t.pc me = .waits c dev blockno →
      (t.buf c).dev = dev ∧ (t.buf c).blockno = blockno) : Refs t := by
  refine ⟨fun c => ?_, fun p c => ?_, fun c => ?_, fun p c dev blockno hp => ?_⟩
  · rcases eq_or_ne c b with rfl | hc
    · exact hrefcnt
    · rw [(hother c hc).1, (hother c hc).2.1, h.refcnt]
  · rcases eq_or_ne c b with rfl | hc
    · exact hcount p
    · rw [(hother c hc).2.1, (hother c hc).2.2.1, h.count]
      rcases eq_or_ne p me with rfl | hp
      · rw [hrefs c hc]
      · rw [hpc p hp]
  · rcases eq_or_ne c b with rfl | hc
    · exact hlocked
    · rw [(hother c hc).2.2.1, (hother c hc).2.2.2, h.locked]
  · rcases eq_or_ne p me with rfl | hpm
    · exact hwaits c dev blockno hp
    rw [hpc p hpm] at hp
    rw [← (h.waits p c dev blockno hp).1, ← (h.waits p c dev blockno hp).2]
    rcases eq_or_ne c b with rfl | hc
    · exact hkey.resolve_left (h.users_ne_nil p (.inr (by rw [hp]; exact if_pos rfl)))
    · rw [(hother c hc).2.2.2]
      exact ⟨rfl, rfl⟩

theorem Refs.refer (h : Refs s) {x : Buf} (hme : s.pc me = .out)
    (hlocked : x.locked = (s.buf b).locked)
    (hkey : s.users b = [] ∨ x.dev = (s.buf b).dev ∧ x.blockno = (s.buf b).blockno) :
    Refs (Sys.refer { s with buf := update s.buf b x } me b x.dev x.blockno) := by
  refine h.change b me
    (fun c hc => ⟨update_of_ne hc .., update_of_ne hc .., rfl, update_of_ne hc ..⟩)
    (fun p hp => update_of_ne hp ..) ?_ (fun p => ?_) (fun c hc => ?_) ?_ ?_ ?_ <;>
    simp only [Sys.refer, update_self]
  · rw [h.refcnt, length_cons]
  · rcases eq_or_ne p me with rfl | hp
    · rw [count_cons_self, h.count, hme, update_self, Pc.refs, Pc.refs, if_pos rfl]
    · rw [count_cons_of_ne hp.symm, h.count, update_of_ne hp]
  · rw [hme, Pc.refs, Pc.refs, if_neg (Ne.symm hc)]
  · rw [hlocked, h.locked]
  · exact hkey
  · rintro c dev blockno ⟨⟩
    rw [update_self]
    exact ⟨rfl, rfl⟩

/-- The holder of a buffer changes, and with it where the process is in its call. -/
theorem Refs.set_holder (h : Refs s) {x : Buf} {o : Option π} {pc : Pc}
    (hlocked : x.locked = o.isSome)
    (hkey : x.dev = (s.buf b).dev ∧ x.blockno = (s.buf b).blockno)
    (hself : o.toList.count me + pc.refs b = (s.holder b).toList.count me + (s.pc me).refs b)
    (hother : ∀ p, p ≠ me → o.toList.count p = (s.holder b).toList.count p)
    (hrefs : ∀ c, c ≠ b → pc.refs c = (s.pc me).refs c)
    (hpc : ∀ c dev blockno, pc ≠ .waits c dev blockno) :
    Refs { s with
      buf := update s.buf b x
      holder := update s.holder b o
      pc := update s.pc me pc } := by
  refine h.change b me (fun c hc => ⟨rfl, rfl, update_of_ne hc .., update_of_ne hc ..⟩)
    (fun p hp => update_of_ne hp ..) (h.refcnt b) (fun p => ?_) ?_ ?_ (.inr ?_) ?_ <;>
    simp only [update_self]
  · rcases eq_or_ne p me with rfl | hp
    · rw [update_self, hself, h.count]
    · rw [update_of_ne hp, hother p hp, h.count]
  · exact hrefs
  · exact hlocked
  · exact hkey
  · exact fun c dev blockno hp => absurd hp (hpc c dev blockno)

theorem Refs.drop (h : Refs s) (hme : s.pc me = .drops b) : Refs (drop s me b) := by
  have hcount := h.count me b
  rw [hme, Pc.refs, if_pos rfl] at hcount
  have hmem : me ∈ s.users b := by
    rw [← count_pos_iff]
    omega
  refine h.change b me (fun c hc => ⟨update_of_ne hc .., update_of_ne hc .., rfl, rfl⟩)
    (fun p hp => update_of_ne hp ..) ?_ (fun p => ?_) (fun c hc => ?_) (h.locked b)
    (.inr ⟨rfl, rfl⟩) ?_ <;> simp only [Bio.drop, update_self]
  · rw [h.refcnt, length_erase_of_mem hmem]
  · rcases eq_or_ne p me with rfl | hp
    · rw [update_self, count_erase_self, hcount]
      rfl
    · rw [update_of_ne hp, count_erase_of_ne hp, h.count]
  · rw [hme, Pc.refs, Pc.refs, if_neg (Ne.symm hc)]
  · rintro _ _ _ ⟨⟩

end

/-! ## The order of the list -/

section
variable {s : Sys π} {l : List (Fin NBUF)} {dev blockno : UInt32} {b : Fin NBUF} {me : π}

/-- The list stays as it is while the buffers keep their blocks and no buffer loses its last user. -/
theorem Order.of_same {t : Sys π} (h : Order s l) (hlinks : t.links = s.links)
    (htouched : t.touched = s.touched)
    (hkey : ∀ b, (t.buf b).dev = (s.buf b).dev ∧ (t.buf b).blockno = (s.buf b).blockno)
    (husers : ∀ b, t.users b = [] → s.users b = [] ∧ t.released b = s.released b)
    (hclock : ∀ b, t.released b ≤ t.clock) : Order t l where
  nodup := h.nodup
  mem := h.mem
  seg := hlinks ▸ h.seg
  fresh := h.fresh.imp fun {x y} hxy => by
    rw [htouched, (hkey y).1, (hkey y).2]
    exact hxy
  lru := h.lru.imp fun {x y} hxy hx hy => by
    rw [(husers x hx).2, (husers y hy).2]
    exact hxy (husers x hx).1 (husers y hy).1
  clock := hclock

theorem Order.refer [DecidableEq π] (h : Order s l) {x : Buf}
    (hbefore : l.Pairwise fun y z => z = b → s.touched y = false →
      ¬(x.dev = 0 ∧ x.blockno = 0)) :
    Order (Sys.refer { s with buf := update s.buf b x } me b dev blockno) l := by
  refine ⟨h.nodup, h.mem, h.seg, ?_, ?_, h.clock⟩
  · refine (h.fresh.and hbefore).imp fun {y z} hyz hy hz => ?_
    dsimp only [Sys.refer] at hy hz ⊢
    have hyb : y ≠ b := by
      rintro rfl
      rw [update_self] at hy
      cases hy
    rw [update_of_ne hyb] at hy
    by_cases hzb : z = b
    · rw [hzb, update_self]
      exact hyz.2 hzb hy
    · rw [update_of_ne hzb] at hz ⊢
      exact hyz.1 hy hz
  · have hne : ∀ z, update s.users b (me :: s.users b) z = [] → s.users z = [] := by
      intro z hz
      by_cases hzb : z = b
      · rw [hzb, update_self] at hz
        cases hz
      · rwa [update_of_ne hzb] at hz
    exact h.lru.imp fun {y z} hyz hy hz => hyz (hne y hy) (hne z hz)

/-- A buffer that is in use for block 0 of device 0 stands before those that were never in use. -/
theorem Order.before_cached (h : Order s l) (hd : Data s)
    (hb : l.find? (s.isFor dev blockno) = some b) :
    l.Pairwise fun y z => z = b → s.touched y = false →
      ¬((s.buf b).dev = 0 ∧ (s.buf b).blockno = 0) := by
  have hkey := isFor_iff.mp (List.find?_some hb)
  refine (pairwise_find h.nodup hb).imp fun {y z} hyz hz hy => ?_
  rintro ⟨hdev, hblockno⟩
  -- otherwise the loop would have found `y`
  obtain ⟨-, hydev, hyblockno, -⟩ := hd.fresh y hy
  have hno := hyz hz
  rw [isFor_iff.mpr ⟨hydev.trans (hdev.symm.trans hkey.1),
    hyblockno.trans (hblockno.symm.trans hkey.2)⟩] at hno
  cases hno

theorem Order.before_recycled (h : Order s l) (hd : Data s)
    (hnone : l.find? (s.isFor dev blockno) = none) :
    l.Pairwise fun y z => z = b → s.touched y = false → ¬(dev = 0 ∧ blockno = 0) := by
  refine pairwise_of_forall fun y z _ hy => ?_
  rintro ⟨rfl, rfl⟩
  obtain ⟨-, hydev, hyblockno, -⟩ := hd.fresh y hy
  exact List.find?_eq_none.mp hnone y (h.mem y) (isFor_iff.mpr ⟨hydev, hyblockno⟩)

/-- The buffer that is recycled was released before all others that could be. -/
theorem Order.recycled_lru (h : Order s l) (hb : l.reverse.find? s.unused = some b)
    (hrefcnt : ∀ c, s.refcnt c = (s.users c).length) {c : Fin NBUF} (hc : s.unused c = true)
    (hne : c ≠ b) : s.released b < s.released c ∨ s.released b = 0 := by
  have hnil : ∀ d, s.unused d = true → s.users d = [] := by
    intro d hd
    rw [← length_eq_zero_iff, ← hrefcnt]
    exact (unused_iff.mp hd).1
  exact rel_of_find (pairwise_reverse.mpr h.lru) hb (mem_reverse.mpr (h.mem c)) hc hne
    (hnil c hc) (hnil b (List.find?_some hb))

theorem Order.drop [DecidableEq π] (h : Order s l) (hr : Refs s) (hd : Data s)
    (hme : s.pc me = .drops b) : ∃ l', Order (drop s me b) l' := by
  have hmem : me ∈ s.users b := by
    rw [← count_pos_iff, hr.count, hme, Pc.refs, if_pos rfl]
    omega
  have htouched : s.touched b = true := by
    by_contra hno
    rw [(hd.fresh b (Bool.eq_false_iff.mpr hno)).1] at hmem
    cases hmem
  have hclock : ∀ c, update s.released b (s.clock + 1) c ≤ s.clock + 1 := by
    intro c
    by_cases hc : c = b
    · rw [hc, update_self]
    · rw [update_of_ne hc]
      exact Nat.le_succ_of_le (h.clock c)
  by_cases hlast : s.refcnt b - 1 = 0
  · obtain ⟨as, bs, rfl⟩ := append_of_mem (h.mem b)
    have hnodup := h.nodup
    have hrest : (as ++ bs).Nodup ∧ b ∉ as ++ bs := by
      rw [nodup_middle, nodup_cons] at hnodup
      exact hnodup.symm
    have hsub : (as ++ bs).Sublist (as ++ b :: bs) := by simp
    have hne : ∀ c ∈ as ++ bs, c ≠ b := fun c hc heq => hrest.2 (heq ▸ hc)
    refine ⟨b :: (as ++ bs), ?_, ?_, ?_, ?_, ?_, hclock⟩
    · exact nodup_cons.mpr hrest.symm
    · intro c
      have hc := h.mem c
      simp only [mem_append, mem_cons] at hc ⊢
      tauto
    · have hseg := h.seg
      rw [map_append] at hseg
      dsimp only [Bio.drop]
      rw [if_pos hlast]
      refine Seg.push ?_ (by simp) ?_ (by simp) ?_
      · rw [map_append]
        refine hseg.remove (by simp) (by simp) ?_
        rw [← map_cons, ← map_append]
        exact hnodup.map (Option.some_injective _)
      · exact hrest.1.map (Option.some_injective _)
      · rw [mem_map_of_injective (Option.some_injective _)]
        exact hrest.2
    · refine pairwise_cons.mpr ⟨fun c _ hb => ?_, h.fresh.sublist hsub⟩
      rw [show (Bio.drop s me b).touched b = _ from htouched] at hb
      cases hb
    · refine pairwise_cons.mpr ⟨fun c hc _ _ => .inl ?_, ?_⟩
      · dsimp only [Bio.drop]
        rw [update_self, update_of_ne (hne c hc)]
        exact Nat.lt_succ_of_le (h.clock c)
      · refine (h.lru.sublist hsub).imp_of_mem fun {x y} hx hy hxy => ?_
        dsimp only [Bio.drop]
        rw [update_of_ne (hne x hx), update_of_ne (hne y hy),
          update_of_ne (hne x hx), update_of_ne (hne y hy)]
        exact hxy
  · refine ⟨l, h.of_same (if_neg hlast) rfl (fun _ => ⟨rfl, rfl⟩) (fun c hc => ?_) hclock⟩
    dsimp only [Bio.drop] at hc ⊢
    have hcb : c ≠ b := by
      rintro rfl
      rw [update_self, ← length_eq_zero_iff, length_erase_of_mem hmem,
        ← hr.refcnt] at hc
      exact hlast hc
    rw [update_of_ne hcb] at hc ⊢
    exact ⟨hc, rfl⟩

end

/-! ## Contents -/

section
variable {s : Sys π} {l : List (Fin NBUF)} {dev blockno : UInt32} {b : Fin NBUF} {me : π}

theorem Data.touched_of_valid (h : Data s) (hb : (s.buf b).valid = true) : s.touched b = true := by
  by_contra hno
  rw [(h.fresh b (Bool.eq_false_iff.mpr hno)).2.2.2.1] at hb
  cases hb

theorem Data.touched_of_users (h : Data s) (hb : s.users b ≠ []) : s.touched b = true := by
  by_contra hno
  exact hb (h.fresh b (Bool.eq_false_iff.mpr hno)).1

/-- A block that is not dirty in its buffer can be read from the disk. -/
theorem Data.disk_eq (h : Data s) (hb : s.touched b = true) : (s.buf b).dirty = true ∨
    s.disk (s.buf b).dev (s.buf b).blockno.toNat = s.latest (s.buf b).dev (s.buf b).blockno.toNat := by
  rcases h.disk (s.buf b).dev (s.buf b).blockno.toNat with heq | ⟨c, hdev, hn, hdirty⟩
  · exact .inr heq
  · left
    rwa [← h.unique c b (h.touched_of_valid ((h.filled c).dirty hdirty)) hb hdev (UInt32.toNat_inj.mp hn)]

/-- A buffer gets a user; it was recycled, or is for the same block as before. -/
theorem Data.refer [DecidableEq π] (h : Data s) {x : Buf}
    (hx : x = s.buf b ∨ x.valid = false ∧ x.dirty = false ∧ (s.buf b).dirty = false ∧
      s.holder b = none)
    (hunique : ∀ c, c ≠ b → s.touched c = true →
      ¬((s.buf c).dev = x.dev ∧ (s.buf c).blockno = x.blockno)) :
    Data (Sys.refer { s with buf := update s.buf b x } me b dev blockno) := by
  have hother : ∀ {c}, c ≠ b → update s.buf b x c = s.buf c := fun hc =>
    update_of_ne hc ..
  have hself : update s.buf b x b = x := update_self ..
  refine ⟨fun c => ?_, fun dev n => ?_, fun c d hc hd hdev hblockno => ?_, fun c hc => ?_⟩ <;>
    dsimp only [Sys.refer] at *
  · by_cases hcb : c = b
    · subst hcb
      rw [hself]
      rcases hx with rfl | ⟨hvalid, hdirty, -, hnone⟩
      · exact h.filled c
      · rw [hnone]
        exact ⟨fun _ hp => (by cases hp), fun hd => (by rw [hdirty] at hd; cases hd),
          fun hv => (by rw [hvalid] at hv; cases hv)⟩
    · rw [hother hcb]
      exact h.filled c
  · refine (h.disk dev n).imp_right fun ⟨c, hdev, hn, hdirty⟩ => ⟨c, ?_⟩
    by_cases hcb : c = b
    · subst hcb
      rcases hx with rfl | ⟨-, -, hx, -⟩
      · rw [hself]
        exact ⟨hdev, hn, hdirty⟩
      · rw [hx] at hdirty
        cases hdirty
    · rw [hother hcb]
      exact ⟨hdev, hn, hdirty⟩
  · refine unique_update (fun x : Buf => (x.dev, x.blockno)) (fun c d hc hd heq =>
      h.unique c d hc hd (congrArg Prod.fst heq) (congrArg Prod.snd heq))
      (fun c hcb (hc : update s.touched b true c = true) => ?_)
      (fun c hcb _ hc heq => ?_) c d hc hd (congr (congrArg Prod.mk hdev) hblockno)
    · rwa [update_of_ne hcb] at hc
    · exact hunique c hcb hc ⟨congrArg Prod.fst heq, congrArg Prod.snd heq⟩
  · have hcb : c ≠ b := by
      rintro rfl
      rw [update_self] at hc
      cases hc
    rw [update_of_ne hcb] at hc ⊢
    rw [hother hcb]
    exact h.fresh c hc

/-- Buffer `b` becomes `x` and has the contents of its block, which may change. -/
structure Fills (s : Sys π) (b : Fin NBUF) (x : Buf) (disk latest : UInt32 → Disk) : Prop where
  key : x.dev = (s.buf b).dev ∧ x.blockno = (s.buf b).blockno
  valid : x.valid = true
  data : x.data = latest x.dev x.blockno.toNat
  clean : x.dirty = true ∨ disk x.dev x.blockno.toNat = latest x.dev x.blockno.toNat
  other : ∀ dev n, ¬(dev = x.dev ∧ n = x.blockno.toNat) →
    disk dev n = s.disk dev n ∧ latest dev n = s.latest dev n

theorem Data.write (h : Data s) {x : Buf} {holder : Fin NBUF → Option π} {pc : π → Pc}
    {disk latest : UInt32 → Disk} (hb : s.touched b = true) (hx : Fills s b x disk latest)
    (hholder : ∀ c p, c ≠ b → holder c = some p → s.holder c = some p) :
    Data { s with buf := update s.buf b x, holder, pc, disk, latest } := by
  obtain ⟨⟨hdev, hblockno⟩, hvalid, hdata, hclean, hother⟩ := hx
  have hne : ∀ {c}, c ≠ b → update s.buf b x c = s.buf c := fun hc =>
    update_of_ne hc ..
  have hself : update s.buf b x b = x := update_self ..
  refine ⟨fun c => ?_, fun dev n => ?_, fun c d hc hd hcd hcd' => ?_, fun c hc => ?_⟩ <;>
    dsimp only at *
  · by_cases hcb : c = b
    · rw [hcb, hself]
      exact ⟨fun _ _ => hvalid, fun _ => hvalid, fun _ => hdata⟩
    · rw [hne hcb]
      refine ⟨fun p hp => (h.filled c).held p (hholder c p hcb hp), (h.filled c).dirty, fun hv => ?_⟩
      have hkey : ¬((s.buf c).dev = x.dev ∧ (s.buf c).blockno.toNat = x.blockno.toNat) := by
        rintro ⟨hcdev, hcn⟩
        exact hcb (h.unique c b (h.touched_of_valid hv) hb (hcdev.trans hdev)
          ((UInt32.toNat_inj.mp hcn).trans hblockno))
      rw [(hother _ _ hkey).2]
      exact (h.filled c).latest hv
  · by_cases hkey : dev = x.dev ∧ n = x.blockno.toNat
    · rw [hkey.1, hkey.2]
      rcases hclean with hdirty | heq
      · exact .inr ⟨b, by rw [hself]; exact ⟨rfl, rfl, hdirty⟩⟩
      · exact .inl heq
    · rw [(hother _ _ hkey).1, (hother _ _ hkey).2]
      refine (h.disk dev n).imp_right fun ⟨c, hcdev, hcn, hdirty⟩ => ⟨c, ?_⟩
      have hcb : c ≠ b := by
        rintro rfl
        exact hkey ⟨hcdev.symm.trans hdev.symm, by rw [← hcn, hblockno]⟩
      rw [hne hcb]
      exact ⟨hcdev, hcn, hdirty⟩
  · have hsame : ∀ e, (update s.buf b x e).dev = (s.buf e).dev ∧
        (update s.buf b x e).blockno = (s.buf e).blockno := by
      intro e
      by_cases he : e = b
      · rw [he, hself]
        exact ⟨hdev, hblockno⟩
      · rw [hne he]
        exact ⟨rfl, rfl⟩
    rw [(hsame c).1, (hsame d).1] at hcd
    rw [(hsame c).2, (hsame d).2] at hcd'
    exact h.unique c d hc hd hcd hcd'
  · have hcb : c ≠ b := by
      rintro rfl
      rw [hb] at hc
      cases hc
    rw [hne hcb]
    exact h.fresh c hc

end

/-! ## Steps -/

section
variable [DecidableEq π] {refuse : UInt32 → UInt32 → Option String} {s t : Sys π}
  {l : List (Fin NBUF)} {dev blockno : UInt32} {b : Fin NBUF} {me : π}

structure Inv (s : Sys π) : Prop where
  order : ∃ l, Order s l
  refs : Refs s
  data : Data s

theorem Inv.cached (h : Inv s) (ho : Order s l) (hme : s.pc me = .out)
    (hb : l.find? (s.isFor dev blockno) = some b) : Inv (s.refer me b dev blockno) := by
  have hkey := isFor_iff.mp (List.find?_some hb)
  have hsame : { s with buf := update s.buf b (s.buf b) } = s := by
    rw [update_eq_self]
  have horder : Order (Sys.refer { s with buf := update s.buf b (s.buf b) } me b dev
      blockno) l := ho.refer (ho.before_cached h.data hb)
  have hdata : Data (Sys.refer { s with buf := update s.buf b (s.buf b) } me b dev
      blockno) := by
    refine h.data.refer (.inl rfl) fun c hne hc hcb => ?_
    cases htouched : s.touched b with
    | true => exact hne (h.data.unique c b hc htouched hcb.1 hcb.2)
    | false =>
      -- the buffer in use comes first
      obtain ⟨-, hdev, hblockno, -⟩ := h.data.fresh b htouched
      refine rel_of_find ho.fresh hb (ho.mem c) (isFor_iff.mpr ?_) hne htouched hc ?_
      · exact ⟨hcb.1.trans hkey.1, hcb.2.trans hkey.2⟩
      · exact ⟨hcb.1.trans hdev, hcb.2.trans hblockno⟩
  have hrefs := h.refs.refer (b := b) hme rfl (.inr ⟨rfl, rfl⟩)
  rw [hkey.1, hkey.2, hsame] at hrefs
  rw [hsame] at horder hdata
  exact ⟨⟨l, horder⟩, hrefs, hdata⟩

theorem Inv.recycled (h : Inv s) (ho : Order s l) (hme : s.pc me = .out)
    (hnone : l.find? (s.isFor dev blockno) = none) (hb : l.reverse.find? s.unused = some b) :
    Inv (Sys.refer { s with buf := update s.buf b (recycle (s.buf b) dev blockno) } me b dev
      blockno) := by
  obtain ⟨hrefcnt, hdirty⟩ := unused_iff.mp (List.find?_some hb)
  have husers : s.users b = [] := by rw [← length_eq_zero_iff, ← h.refs.refcnt, hrefcnt]
  have hholder : s.holder b = none := by
    cases hholder : s.holder b with
    | none => rfl
    | some p => exact absurd husers (h.refs.users_ne_nil p (.inl hholder))
  refine ⟨⟨l, ho.refer (ho.before_recycled h.data hnone)⟩, h.refs.refer hme rfl (.inl husers),
    h.data.refer (.inr ⟨rfl, rfl, hdirty, hholder⟩) fun c _ _ hc => ?_⟩
  exact List.find?_eq_none.mp hnone c (ho.mem c) (isFor_iff.mpr hc)

/-- A buffer in use gets the contents of its block, which may change, and perhaps another holder. -/
theorem Inv.write (h : Inv s) {x : Buf} {o : Option π} {pc : Pc} {disk latest : UInt32 → Disk}
    (husers : s.users b ≠ []) (hx : Fills s b x disk latest) (hlocked : x.locked = o.isSome)
    (hself : o.toList.count me + pc.refs b = (s.holder b).toList.count me + (s.pc me).refs b)
    (hother : ∀ p, p ≠ me → o.toList.count p = (s.holder b).toList.count p)
    (hrefs : ∀ c, c ≠ b → pc.refs c = (s.pc me).refs c)
    (hpc : ∀ c dev blockno, pc ≠ .waits c dev blockno) :
    Inv { s with
      buf := update s.buf b x
      holder := update s.holder b o
      pc := update s.pc me pc
      disk
      latest } := by
  obtain ⟨⟨l, ho⟩, hr, hd⟩ := h
  refine ⟨⟨l, ho.of_same rfl rfl (fun c => ?_) (fun c hc => ⟨hc, rfl⟩) ho.clock⟩, ?_, ?_⟩
  · dsimp only
    by_cases hc : c = b
    · rw [hc, update_self]
      exact hx.key
    · rw [update_of_ne hc]
      exact ⟨rfl, rfl⟩
  · have hset := hr.set_holder hlocked hx.key hself hother hrefs hpc
    exact ⟨hset.refcnt, hset.count, hset.locked, hset.waits⟩
  · refine hd.write (hd.touched_of_users husers) hx ?_
    intro c p hc hp
    rwa [update_of_ne hc] at hp

theorem Inv.holder_write (h : Inv s) {x : Buf} {disk latest : UInt32 → Disk}
    (hme : s.pc me = .out) (hholder : s.holder b = some me) (hx : Fills s b x disk latest)
    (hlocked : x.locked = (s.buf b).locked) :
    Inv { s with buf := update s.buf b x, disk, latest } := by
  have hwrite : Inv { s with
      buf := update s.buf b x
      holder := update s.holder b (s.holder b)
      pc := update s.pc me (s.pc me)
      disk
      latest } := by
    refine h.write (h.refs.users_ne_nil me (.inl hholder)) hx ?_ rfl (fun _ _ => rfl)
      (fun _ _ => rfl) ?_
    · rw [hlocked, h.refs.locked]
    · rw [hme]
      rintro _ _ _ ⟨⟩
  rwa [update_eq_self, update_eq_self] at hwrite

/-- The block and the flag `B_VALID` of a buffer that is referred to or dirty stay. -/
def Keeps (s t : Sys π) : Prop := ∀ b, 0 < s.refcnt b ∨ (s.buf b).dirty = true →
  (t.buf b).dev = (s.buf b).dev ∧ (t.buf b).blockno = (s.buf b).blockno ∧
    ((s.buf b).valid = true → (t.buf b).valid = true)

omit [DecidableEq π] in
theorem Keeps.of_buf (h : t.buf = s.buf) : Keeps s t := by
  intro b _
  rw [h]
  exact ⟨rfl, rfl, id⟩

omit [DecidableEq π] in
theorem Keeps.of_update {x : Buf} (h : t.buf = update s.buf b x)
    (hx : 0 < s.refcnt b ∨ (s.buf b).dirty = true → x.dev = (s.buf b).dev ∧
      x.blockno = (s.buf b).blockno ∧ ((s.buf b).valid = true → x.valid = true)) : Keeps s t := by
  intro c hc
  rw [h]
  by_cases hcb : c = b
  · subst hcb
    rw [update_self]
    exact hx hc
  · rw [update_of_ne hcb]
    exact ⟨rfl, rfl, id⟩

theorem Inv.logWrite (h : Inv s) {y : Block} (hme : s.pc me = .out) (hholder : s.holder b = some me) :
    Inv (logWrite s b y) := by
  exact h.holder_write hme hholder ⟨⟨rfl, rfl⟩, (h.data.filled b).held me hholder, setBlock_self.symm,
    .inl rfl, fun dev n hne => ⟨rfl, setBlock_of_ne hne⟩⟩ rfl

theorem Inv.bwrite (h : Inv s) {y : Block} (hme : s.pc me = .out)
    (hs : bwrite refuse s b y = .ok t) : Keeps s t ∧ (s.holder b = some me → Inv t) := by
  rw [Bio.bwrite] at hs
  split at hs
  · cases hs
  next hlocked =>
  simp only [iderw] at hs
  rw [if_neg hlocked] at hs
  simp only [Bool.not_true, Bool.and_false] at hs
  cases hrefuse : refuse (s.buf b).dev (s.buf b).blockno with
  | some msg =>
    rw [hrefuse] at hs
    cases hs
  | none =>
    rw [hrefuse] at hs
    cases hs
    refine ⟨.of_update rfl fun _ => ⟨rfl, rfl, fun _ => rfl⟩, fun hholder => ?_⟩
    exact h.holder_write hme hholder ⟨⟨rfl, rfl⟩, rfl, setBlock_self.symm,
      .inr (setBlock_self.trans setBlock_self.symm),
      fun dev n hne => ⟨setBlock_of_ne hne, setBlock_of_ne hne⟩⟩ rfl

theorem Inv.brelse (h : Inv s) (hme : s.pc me = .out) (hs : brelse s me b = .ok t) :
    Keeps s t ∧ (s.holder b = some me → Inv t) := by
  rw [Bio.brelse] at hs
  split at hs
  · cases hs
  cases hs
  refine ⟨.of_update rfl fun _ => ⟨rfl, rfl, id⟩, fun hholder => ?_⟩
  have husers := h.refs.users_ne_nil me (.inl hholder)
  have hvalid := (h.data.filled b).held me hholder
  refine h.write husers ⟨⟨rfl, rfl⟩, hvalid, (h.data.filled b).latest hvalid,
    h.data.disk_eq (h.data.touched_of_users husers), fun _ _ _ => ⟨rfl, rfl⟩⟩ rfl ?_
    (fun p hp => ?_) (fun c hc => ?_) ?_
  · rw [hholder, hme]
    simp [Pc.refs]
  · rw [hholder]
    simp [Ne.symm hp]
  · rw [hme, Pc.refs, Pc.refs, if_neg (Ne.symm hc)]
  · rintro _ _ _ ⟨⟩

theorem Inv.acquire (h : Inv s) (refuse : UInt32 → UInt32 → Option String)
    (hme : s.pc me = .waits b dev blockno) :
    (s.buf b).locked = true ∧ acquire refuse s me b = .error .disabled ∨
    ((s.buf b).valid = false ∧ ∃ msg, refuse dev blockno = some msg ∧
      acquire refuse s me b = .error (.panic msg)) ∨
    ∃ t, acquire refuse s me b = .ok t ∧ (Keeps s t ∧ Inv t) ∧ t.holder b = some me ∧
      (t.buf b).dev = dev ∧ (t.buf b).blockno = blockno ∧ (t.buf b).valid = true ∧
      (t.buf b).data = s.latest dev blockno.toNat := by
  obtain ⟨rfl, rfl⟩ := h.refs.waits me b dev blockno hme
  have husers := h.refs.users_ne_nil me (.inr (by rw [hme]; exact if_pos rfl))
  have htouched := h.data.touched_of_users husers
  rw [Bio.acquire]
  cases hlocked : (s.buf b).locked with
  | true => exact .inl ⟨rfl, rfl⟩
  | false =>
  right
  have hholder : s.holder b = none := by
    have hsome := h.refs.locked b
    rw [hlocked] at hsome
    exact Option.not_isSome_iff_eq_none.mp (by rw [← hsome]; exact Bool.false_ne_true)
  have hacquired : ∀ x : Buf, x.dev = (s.buf b).dev → x.blockno = (s.buf b).blockno →
      x.locked = true → x.valid = true → x.dirty = (s.buf b).dirty →
      x.data = s.latest (s.buf b).dev (s.buf b).blockno.toNat →
      let t := { s with
        buf := update s.buf b x
        holder := update s.holder b (some me)
        pc := update s.pc me .out }
      Keeps s t ∧ Inv t := by
    intro x hxdev hxblockno hxlocked hxvalid hxdirty hxdata
    rw [← hxdev, ← hxblockno] at hxdata
    have hclean := h.data.disk_eq htouched
    rw [← hxdirty, ← hxdev, ← hxblockno] at hclean
    refine ⟨.of_update rfl fun _ => ⟨hxdev, hxblockno, fun _ => hxvalid⟩, h.write husers
      ⟨⟨hxdev, hxblockno⟩, hxvalid, hxdata, hclean, fun _ _ _ => ⟨rfl, rfl⟩⟩ hxlocked ?_
      (fun p hp => ?_) (fun c hc => ?_) ?_⟩
    · rw [hholder, hme]
      simp [Pc.refs]
    · rw [hholder]
      simp [Ne.symm hp]
    · rw [hme, Pc.refs, Pc.refs, if_neg (Ne.symm hc)]
    · rintro _ _ _ ⟨⟩
  dsimp only
  cases hvalid : (s.buf b).valid with
  | true =>
    have hdata := (h.data.filled b).latest hvalid
    refine .inr ⟨_, rfl, hacquired _ rfl rfl rfl rfl rfl hdata, update_self .., ?_⟩
    dsimp only
    rw [update_self]
    exact ⟨rfl, rfl, rfl, hdata⟩
  | false =>
    have hdirty : (s.buf b).dirty = false := by
      by_contra hd
      rw [(h.data.filled b).dirty (Bool.eq_true_of_not_eq_false hd)] at hvalid
      cases hvalid
    have hdisk := (h.data.disk_eq htouched).resolve_left (by rw [hdirty]; exact Bool.false_ne_true)
    simp only [iderw, hdirty]
    cases hrefuse : refuse (s.buf b).dev (s.buf b).blockno with
    | some msg => exact .inl ⟨trivial, msg, rfl, rfl⟩
    | none =>
      refine .inr ⟨_, rfl, hacquired _ rfl rfl rfl rfl hdirty.symm hdisk, update_self .., ?_⟩
      dsimp only
      rw [update_self]
      exact ⟨rfl, rfl, rfl, hdisk⟩

theorem Data.drop (h : Data s) : Data (drop s me b) where
  filled := h.filled
  disk := h.disk
  unique := h.unique
  fresh c hc := by
    obtain ⟨husers, hrest⟩ := h.fresh c hc
    refine ⟨?_, hrest⟩
    dsimp only [Bio.drop]
    by_cases hcb : c = b
    · rw [hcb, update_self, ← hcb, husers]
      rfl
    · rw [update_of_ne hcb, husers]

theorem Inv.step {a : Step π} (h : Inv s) (hs : step refuse s a = .ok t) :
    Keeps s t ∧ (Holds s a → Inv t) := by
  obtain ⟨l, ho⟩ := h.order
  cases a with
  | bget me dev blockno =>
    rw [Bio.step] at hs
    split at hs
    next hme =>
      rw [ho.bget_eq] at hs
      cases hcached : l.find? (s.isFor dev blockno) with
      | some b =>
        rw [hcached] at hs
        cases hs
        exact ⟨.of_buf rfl, fun _ => h.cached ho hme hcached⟩
      | none =>
        rw [hcached] at hs
        cases hrecycled : l.reverse.find? s.unused with
        | some b =>
          rw [hrecycled] at hs
          cases hs
          refine ⟨.of_update rfl fun hb => ?_, fun _ => h.recycled ho hme hcached hrecycled⟩
          obtain ⟨hrefcnt, hdirty⟩ := unused_iff.mp (List.find?_some hrecycled)
          rw [hrefcnt, hdirty] at hb
          exact absurd hb (by decide)
        | none =>
          rw [hrecycled] at hs
          cases hs
    next => cases hs
  | acquire me =>
    rw [Bio.step] at hs
    split at hs
    next hme =>
      rcases h.acquire refuse hme with ⟨-, he⟩ | ⟨-, msg, -, he⟩ | ⟨t', ht', ⟨hkeeps, hinv⟩, -⟩
      · rw [he] at hs
        cases hs
      · rw [he] at hs
        cases hs
      · rw [ht'] at hs
        cases hs
        exact ⟨hkeeps, fun _ => hinv⟩
    next => cases hs
  | logWrite me b x =>
    rw [Bio.step] at hs
    split at hs
    next hme =>
      cases hs
      exact ⟨.of_update rfl fun _ => ⟨rfl, rfl, id⟩, h.logWrite hme⟩
    next => cases hs
  | bwrite me b x =>
    rw [Bio.step] at hs
    split at hs
    next hme => exact h.bwrite hme hs
    next => cases hs
  | brelse me b =>
    rw [Bio.step] at hs
    split at hs
    next hme => exact h.brelse hme hs
    next => cases hs
  | drop me =>
    rw [Bio.step] at hs
    split at hs
    next hme =>
      cases hs
      exact ⟨.of_buf rfl, fun _ => ⟨ho.drop h.refs h.data hme, h.refs.drop hme, h.data.drop⟩⟩
    next => cases hs

theorem Inv.start (disk : UInt32 → Disk) (data : Fin NBUF → Block) (k : DLinks Node) :
    Inv (start (π := π) disk data k) where
  order := ⟨_, {
    nodup := nodup_reverse.mpr (nodup_finRange _)
    mem := fun b => mem_reverse.mpr (mem_finRange b)
    seg := seg_binit k
    fresh := pairwise_of_forall fun _ _ _ hc => nomatch hc
    lru := pairwise_of_forall fun _ _ _ _ => .inr rfl
    clock := fun _ => Nat.le_refl _ }⟩
  refs := {
    refcnt := fun _ => rfl
    count := fun _ _ => rfl
    locked := fun _ => rfl
    waits := fun _ _ _ _ hp => nomatch hp }
  data := {
    filled := fun _ => ⟨(fun _ hp => nomatch hp), Bool.noConfusion, Bool.noConfusion⟩
    disk := fun _ _ => .inl rfl
    unique := fun _ _ hb => nomatch hb
    fresh := fun _ _ => ⟨rfl, rfl, rfl, rfl, rfl⟩ }

/-- What holds of the buffer cache in every state. -/
structure Coherent (refuse : UInt32 → UInt32 → Option String) (s : Sys π) : Prop where
  /-- The links form one circular list that has every buffer once. -/
  list : ∃ l : List (Fin NBUF), l.Nodup ∧ (∀ b, b ∈ l) ∧ Seg s.links none (l.map some) none
  unique : ∀ b c, 1 ≤ (s.buf b).dev → (s.buf b).dev = (s.buf c).dev →
    (s.buf b).blockno = (s.buf c).blockno → b = c
  /-- A buffer that is referred to or dirty is not recycled. -/
  kept : ∀ a t, step refuse s a = .ok t → Keeps s t
  /-- The buffer that is recycled was released before all others that could be, or never. -/
  lru : ∀ dev blockno b, bget s dev blockno = .ok (.recycled b) →
    s.refcnt b = 0 ∧ (s.buf b).dirty = false ∧
    ∀ c, c ≠ b → s.refcnt c = 0 → (s.buf c).dirty = false →
      s.released b < s.released c ∨ s.released b = 0
  /-- `bget` finds a buffer if there is one. -/
  gets : ∀ dev blockno b, (s.buf b).dev = dev ∧ (s.buf b).blockno = blockno ∨
    s.refcnt b = 0 ∧ (s.buf b).dirty = false → ∃ f, bget s dev blockno = .ok f
  /-- `bread` returns what was last written to the block, once it gets the lock of the buffer. -/
  bread : ∀ me b dev blockno, s.pc me = .waits b dev blockno → (s.buf b).locked = false →
    (s.buf b).valid = true ∨ refuse dev blockno = none →
    ∃ t, step refuse s (.acquire me) = .ok t ∧ t.holder b = some me ∧
      (t.buf b).dev = dev ∧ (t.buf b).blockno = blockno ∧ (t.buf b).valid = true ∧
      (t.buf b).data = s.latest dev blockno.toNat
  /-- A buffer that a process holds has what was last written to its block. -/
  held : ∀ me b, s.holder b = some me →
    (s.buf b).data = s.latest (s.buf b).dev (s.buf b).blockno.toNat

theorem Inv.coherent (h : Inv s) : Coherent refuse s where
  list := by
    obtain ⟨l, ho⟩ := h.order
    exact ⟨l, ho.nodup, ho.mem, ho.seg⟩
  unique b c hb hdev hblockno := by
    have htouched : ∀ d, 1 ≤ (s.buf d).dev → s.touched d = true := by
      intro d hd
      by_contra hno
      rw [(h.data.fresh d (Bool.eq_false_iff.mpr hno)).2.1] at hd
      exact absurd hd (by decide)
    exact h.data.unique b c (htouched b hb) (htouched c (hdev ▸ hb)) hdev hblockno
  kept _ _ hs := (h.step hs).1
  lru dev blockno b hb := by
    obtain ⟨l, ho⟩ := h.order
    rw [ho.bget_eq] at hb
    split at hb
    · cases hb
    split at hb
    next c hc =>
      cases hb
      obtain ⟨hrefcnt, hdirty⟩ := unused_iff.mp (List.find?_some hc)
      exact ⟨hrefcnt, hdirty, fun d hne hd hd' =>
        ho.recycled_lru hc h.refs.refcnt (unused_iff.mpr ⟨hd, hd'⟩) hne⟩
    next => cases hb
  gets dev blockno b hb := by
    obtain ⟨l, ho⟩ := h.order
    rw [ho.bget_eq]
    split
    · exact ⟨_, rfl⟩
    next hnone =>
    split
    · exact ⟨_, rfl⟩
    next hnone' =>
    rcases hb with hb | hb
    · exact absurd (isFor_iff.mpr hb) (List.find?_eq_none.mp hnone b (ho.mem b))
    · exact absurd (unused_iff.mpr hb)
        (List.find?_eq_none.mp hnone' b (mem_reverse.mpr (ho.mem b)))
  bread me b dev blockno hme hlocked hread := by
    rcases h.acquire refuse hme with ⟨hl, -⟩ | ⟨hvalid, msg, hmsg, -⟩ |
      ⟨t, ht, -, hholder, hdev, hblockno, hvalid, hdata⟩
    · rw [hlocked] at hl
      cases hl
    · rw [hvalid, hmsg] at hread
      exact absurd hread (by simp)
    · exact ⟨t, by rw [Bio.step, hme]; exact ht, hholder, hdev, hblockno, hvalid, hdata⟩
  held me b hb := (h.data.filled b).latest ((h.data.filled b).held me hb)

instance (s : Sys π) : (a : Step π) → Decidable (Holds s a)
  | .logWrite me b _ | .bwrite me b _ | .brelse me b => inferInstanceAs (Decidable (s.holder b = some me))
  | .bget _ _ _ | .acquire _ | .drop _ => inferInstanceAs (Decidable True)

end

end Xv6.Bio
