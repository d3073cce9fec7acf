import Xv6.Malloc.Blocks

/-!
# What `free` keeps

`Ring` is the invariant of the allocator: the free list is a circle from `base` on, sorted and
without neighbours, and together with the live blocks it tiles what `sbrk` returned.
-/

namespace Xv6.Malloc

open List
open Extent (Apart)

/-- `base`, a block without units. -/
def sentinel (base : Nat) : Block := ⟨base, 0⟩

structure Ring (base : Nat) (s : Heap) (fs live : List Block) : Prop where
  row : Row s base base (sentinel base :: fs)
  freep : s.freep ∈ (sentinel base :: fs).map (·.start)
  sorted : Sorted (sentinel base :: fs)
  sizes : ∀ b ∈ live, (s.size b.start).toNat = b.units
  pos : ∀ b ∈ fs ++ live, 0 < b.units
  above : ∀ b ∈ live, base < b.start
  below : ∀ b ∈ fs ++ live, b.stop ≤ s.brk
  tiles : ∀ a, cover (fs ++ live) a = cover s.got a
  once : ∀ a, cover s.got a ≤ 1
  got_below : ∀ r ∈ s.got, r.stop ≤ s.brk
  base_lt : base < s.brk

/-- Whether `f` ends where `b` begins, or begins where `b` ends. -/
def touches (b f : Block) : Bool := f.stop = b.start ∨ b.stop = f.start

/-- The units of `b` and of the free blocks next to it. -/
def joined (fs : List Block) (b : Block) : Nat :=
  b.units + ((fs.filter (touches b)).map (·.units)).sum

theorem joined_append (us vs : List Block) (b : Block) :
    joined (us ++ vs) b = joined us b + ((vs.filter (touches b)).map (·.units)).sum := by
  rw [joined, joined, filter_append, map_append, sum_append_nat, Nat.add_assoc]

theorem joined_sentinel (base : Nat) (fs : List Block) (b : Block) :
    joined (sentinel base :: fs) b = joined fs b := by
  rw [joined, joined, filter_cons]
  split
  · rw [map_cons, sum_cons, sentinel, Nat.zero_add]
  · rfl

theorem units_le_sum {l : List Block} (h : d ∈ l) (ht : touches b d) :
    d.units ≤ ((l.filter (touches b)).map (·.units)).sum :=
  le_sum_of_mem (mem_map_of_mem (mem_filter.mpr ⟨h, ht⟩))

theorem cover_sentinel (base : Nat) (fs : List Block) (a : Nat) :
    cover (sentinel base :: fs) a = cover fs a := by
  have hnone : cover [sentinel base] a = 0 := by
    rw [cover, map_singleton, Extent.cover_singleton, if_neg]
    simp only [Block.extent, Block.stop, sentinel]
    omega
  rw [cover_cons, hnone, Nat.zero_add]

namespace Ring

variable {base : Nat} {s : Heap} {fs live us vs : List Block} {b c : Block} {bp turns : Nat}

theorem start_lt (h : Ring base s fs live) (hc : sentinel base :: fs = us ++ c :: vs) :
    (∀ u ∈ us, u.stop < c.start) ∧ ∀ v ∈ vs, c.stop < v.start := by
  have hsorted := h.sorted
  rw [hc] at hsorted
  obtain ⟨-, hcvs, hcross⟩ := pairwise_append.mp hsorted
  exact ⟨fun u hu => hcross u hu c mem_cons_self, (pairwise_cons.mp hcvs).1⟩

theorem looped (h : Ring base s fs live) : Looped s.next base (fs.map (·.start)) := h.row.chained

theorem base_le (h : Ring base s fs live) (hc : c ∈ sentinel base :: fs) : base ≤ c.start := by
  rcases mem_cons.mp hc with rfl | hc
  · exact Nat.le_refl base
  · exact Nat.le_of_lt ((pairwise_cons.mp h.sorted).1 c hc)

theorem base_lt_start (h : Ring base s fs live) (hc : c ∈ fs) : base < c.start :=
  (pairwise_cons.mp h.sorted).1 c hc

theorem cover_le (h : Ring base s fs live) (a : Nat) :
    cover (fs ++ live) a ≤ 1 := by
  rw [h.tiles]
  exact h.once a

theorem apart (h : Ring base s fs (b :: live)) (hc : c ∈ fs ++ live) :
    Apart b.extent c.extent := by
  have hperm : (fs ++ b :: live).Perm (b :: (fs ++ live)) := perm_middle
  have hcover : ∀ a, Extent.cover (b.extent :: (fs ++ live).map Block.extent) a ≤ 1 := by
    intro a
    have hle := h.cover_le a
    rwa [cover, Extent.cover_perm (hperm.map Block.extent)] at hle
  have hb : 0 < b.units := h.pos b (by simp)
  have hc' : 0 < c.units := h.pos c (hperm.mem_iff.mpr (mem_cons_of_mem b hc))
  exact Apart.of_cover hcover (mem_map_of_mem hc) (Block.start_lt_stop hb)
    (Block.start_lt_stop hc')

theorem perm_live (h : Ring base s fs live) (hperm : live.Perm live') : Ring base s fs live' :=
  { h with
    sizes := fun b hb => h.sizes b (hperm.mem_iff.mpr hb)
    pos := fun b hb => h.pos b ((hperm.append_left fs).mem_iff.mpr hb)
    above := fun b hb => h.above b (hperm.mem_iff.mpr hb)
    below := fun b hb => h.below b ((hperm.append_left fs).mem_iff.mpr hb)
    tiles := fun a => by
      rw [← h.tiles, cover, cover, Extent.cover_perm ((hperm.append_left fs).map Block.extent)] }

theorem live_apart (h : Ring base s fs live) (hb : b ∈ live) (hc : c ∈ fs) :
    b.stop ≤ c.start ∨ c.stop ≤ b.start :=
  (h.perm_live (perm_cons_erase hb)).apart (mem_append_left _ hc)

theorem start_ne (h : Ring base s fs live) (hb : b ∈ live) (hc : c ∈ sentinel base :: fs) :
    b.start ≠ c.start := by
  rcases mem_cons.mp hc with rfl | hc
  · exact Nat.ne_of_gt (h.above b hb)
  · have hapart := h.live_apart hb hc
    have hb' := Block.start_lt_stop (h.pos b (mem_append_right fs hb))
    have hc' := Block.start_lt_stop (h.pos c (mem_append_left live hc))
    omega

theorem live_ne (h : Ring base s fs (b :: live)) (hc : c ∈ live) : c.start ≠ b.start := by
  have hb := Block.start_lt_stop (h.pos b (by simp))
  have hc' := Block.start_lt_stop (h.pos c (by simp [hc]))
  intro heq
  rcases h.apart (mem_append_right fs hc) with hle | hle
  · change b.stop ≤ c.start at hle
    omega
  · change c.stop ≤ b.start at hle
    omega

/-! ## The search of `free` -/

theorem between_iff (h : Ring base s fs live) (hc : sentinel base :: fs = us ++ c :: vs)
    (hbp : base < bp) : between s bp c.start ↔ c.start < bp ∧ ∀ v ∈ vs, bp < v.start := by
  have hbase : base ≤ c.start := h.base_le (by simp [hc])
  have hlt := (h.start_lt hc).2
  have hrow := h.row
  rw [hc] at hrow
  have htail := hrow.split.2.tail.2
  rw [between, decide_eq_true_iff]
  cases vs with
  | nil =>
    have hnext : s.next c.start = base := (Option.some.inj htail.head).symm
    rw [hnext]
    simp only [not_mem_nil, false_implies, implies_true, and_true]
    omega
  | cons d vs =>
    have hnext : s.next c.start = d.start := htail.tail.1
    have hd := hlt d mem_cons_self
    have hstart := c.start_le_stop
    have hsorted := h.sorted
    rw [hc] at hsorted
    have hdvs := (pairwise_cons.mp (pairwise_cons.mp
      (pairwise_append.mp hsorted).2.1).2).1
    rw [hnext]
    constructor
    · intro hbetween
      refine ⟨by omega, fun v hv => ?_⟩
      rcases mem_cons.mp hv with rfl | hv
      · omega
      · have hv' := hdvs v hv
        have hd' := d.start_le_stop
        omega
    · rintro ⟨hcbp, hvs⟩
      have := hvs d mem_cons_self
      omega

end Ring

/-- There is a last block that begins before an address. -/
theorem exists_last_lt {bs : List Block} (hbs : Sorted (c :: bs)) (hc : c.start < bp)
    (hne : ∀ b ∈ bs, b.start ≠ bp) :
    ∃ us d vs, c :: bs = us ++ d :: vs ∧ d.start < bp ∧ ∀ v ∈ vs, bp < v.start := by
  induction bs generalizing c with
  | nil => exact ⟨[], c, [], rfl, hc, fun _ hv => absurd hv not_mem_nil⟩
  | cons b bs ih =>
    obtain ⟨-, hbs'⟩ := pairwise_cons.mp hbs
    by_cases hb : b.start < bp
    · obtain ⟨us, d, vs, heq, hd, hvs⟩ :=
        ih hbs' hb fun x hx => hne x (mem_cons_of_mem b hx)
      exact ⟨c :: us, d, vs, by rw [heq, cons_append], hd, hvs⟩
    · refine ⟨[], c, b :: bs, rfl, hc, fun v hv => ?_⟩
      have hb' := hne b mem_cons_self
      rcases mem_cons.mp hv with rfl | hv
      · omega
      · have hv' := (pairwise_cons.mp hbs').1 v hv
        have hle := b.start_le_stop
        omega

namespace Ring

variable {base : Nat} {s : Heap} {fs live us vs : List Block} {b c : Block} {bp turns : Nat}

/-- The loop of `free` ends at the block that the new one belongs behind. -/
theorem seek_between (h : Ring base s fs (b :: live)) (hturns : fs.length < turns) :
    ∃ us c vs, sentinel base :: fs = us ++ c :: vs ∧ c.stop ≤ b.start ∧
      (∀ v ∈ vs, b.stop ≤ v.start) ∧
      seek s.next (between s b.start) turns s.freep = some c.start := by
  have habove : base < b.start := h.above b mem_cons_self
  have hne : ∀ c ∈ fs, c.start ≠ b.start :=
    fun c hc heq => h.start_ne mem_cons_self (mem_cons_of_mem _ hc) heq.symm
  obtain ⟨us, d, vs, hd, hlt, hvs⟩ := exists_last_lt h.sorted habove hne
  obtain ⟨l, hl, hperm⟩ := h.looped.from_mem h.freep
  have hmem : ∀ q, q ∈ s.freep :: l ↔ q ∈ (sentinel base :: fs).map (·.start) :=
    fun q => hperm.mem_iff
  have hstop : ∃ q ∈ s.freep :: l, between s b.start q := by
    refine ⟨d.start, (hmem _).mpr ?_, (h.between_iff hd habove).mpr ⟨hlt, hvs⟩⟩
    rw [hd]
    simp
  have hlen : l.length < turns := by
    have := hperm.length_eq
    simp only [length_cons, length_map] at this
    omega
  obtain ⟨xs, q, ys, hq, -, hbetween, hseek⟩ := hl.seek_eq hstop hlen
  obtain ⟨c, hc, rfl⟩ := mem_map.mp ((hmem q).mp (by rw [hq]; simp))
  obtain ⟨us', vs', hsplit⟩ := append_of_mem hc
  obtain ⟨hcb, hvs'⟩ := (h.between_iff hsplit habove).mp hbetween
  have hb := Block.start_lt_stop (h.pos b (by simp))
  refine ⟨us', c, vs', hsplit, ?_, fun v hv => ?_, hseek⟩
  · rcases mem_cons.mp hc with rfl | hc
    · exact Nat.le_of_lt hcb
    · rcases h.apart (mem_append_left live hc) with hle | hle
      · change b.stop ≤ c.start at hle
        omega
      · exact hle
  · have hv' : v ∈ fs := by
      cases us' with
      | nil =>
        cases hsplit
        exact hv
      | cons u us' =>
        cases hsplit
        simp [hv]
    have hlt := hvs' v hv
    rcases h.apart (mem_append_left live hv') with hle | hle
    · exact hle
    · have hv'' := Block.start_lt_stop (h.pos v (mem_append_left _ hv'))
      change v.stop ≤ b.start at hle
      omega

/-! ## The new list -/

theorem insert_eq (h : Ring base s fs (b :: live)) (hc : sentinel base :: fs = us ++ c :: vs) :
    ∃ fs', us ++ push c (push b vs) = sentinel base :: fs' := by
  cases us with
  | nil =>
    obtain ⟨rfl, rfl⟩ := List.cons.inj hc
    obtain ⟨n, l, hpush, hn⟩ := push_eq_cons b fs
    have habove : base < b.start := h.above b mem_cons_self
    refine ⟨n :: l, ?_⟩
    rw [nil_append, hpush, push, if_neg]
    simp only [Block.stop, sentinel]
    omega
  | cons u us =>
    cases hc
    exact ⟨us ++ push c (push b vs), rfl⟩

/-- What is joined fits into the size of a header. -/
theorem join_fits (hc : sentinel base :: fs = us ++ c :: vs) (hfits : joined fs b < 2 ^ 32)
    (hb : 0 < b.units) (hcb : c.stop ≤ b.start) (hvs : ∀ v ∈ vs, b.stop ≤ v.start) :
    (∀ d ∈ vs, b.stop = d.start → b.units + d.units < 2 ^ 32) ∧
      ∀ n ∈ push b vs, c.stop = n.start → c.units + n.units < 2 ^ 32 := by
  have hjoined : joined fs b =
      joined us b + ((([c] ++ vs).filter (touches b)).map (·.units)).sum := by
    rw [← joined_sentinel base, hc, ← joined_append]
    rfl
  rw [filter_append, map_append, sum_append_nat] at hjoined
  have hle : b.units ≤ joined us b := Nat.le_add_right ..
  have hvs_le : ∀ d ∈ vs, b.stop = d.start →
      d.units ≤ ((vs.filter (touches b)).map (·.units)).sum :=
    fun d hd heq => units_le_sum hd (by simp [touches, heq])
  have hc_le : c.stop = b.start → c.units ≤ ((([c].filter (touches b)).map (·.units)).sum) :=
    fun heq => units_le_sum mem_cons_self (by simp [touches, heq])
  refine ⟨fun d hd heq => ?_, fun n hn heq => ?_⟩
  · have := hvs_le d hd heq
    omega
  · have hb' := Block.start_lt_stop hb
    rcases mem_push hn with hn | ⟨d, hd, hbd, rfl⟩
    · rcases mem_cons.mp hn with rfl | hn
      · omega
      · have := hvs n hn
        omega
    · have := hvs_le d hd hbd
      have := hc_le heq
      change c.units + (b.units + d.units) < 2 ^ 32
      omega

/-- The heap that `free` leaves, with the row that its list is. -/
theorem insert_row (h : Ring base s fs (b :: live)) (hc : sentinel base :: fs = us ++ c :: vs)
    (hcb : c.stop ≤ b.start) (hvs : ∀ v ∈ vs, b.stop ≤ v.start) (hfits : joined fs b < 2 ^ 32) :
    Row (join (join s b.start (s.next c.start)) c.start b.start) base base
      (us ++ push c (push b vs)) := by
  have hb : 0 < b.units := h.pos b (by simp)
  have hstop := Block.start_lt_stop hb
  have habove : base < b.start := h.above b mem_cons_self
  have hcb' : c.start ≠ b.start := (h.start_ne mem_cons_self (by rw [hc]; simp)).symm
  have hlt : c.start < b.start := Nat.lt_of_le_of_ne (Nat.le_trans c.start_le_stop hcb) hcb'
  obtain ⟨hfits₁, hfits₂⟩ := join_fits hc hfits hb hcb hvs
  have hrow := h.row
  rw [hc] at hrow
  obtain ⟨hus, hcvs⟩ := hrow.split
  have hsize : (s.size c.start).toNat = c.units := hcvs.sizes c mem_cons_self
  have hrow₁ : Row (join s b.start (s.next c.start)) base b.start (push b vs) := by
    refine hcvs.tail.2.join (h.sizes b mem_cons_self) (fun d hd => ?_) (fun _ => ?_) hfits₁
    · have := hvs d hd
      omega
    · omega
  have hrow₂ : Row (join (join s b.start (s.next c.start)) c.start b.start) base c.start
      (push c (push b vs)) := by
    refine hrow₁.join ?_ (fun n hn => ?_) (fun hnil => ?_) hfits₂
    · rw [Heap.size, join_ne hcb']
      exact hsize
    · have := start_le_of_mem_push hvs hn
      omega
    · obtain ⟨n, l, hpush, -⟩ := push_eq_cons b vs
      rw [hpush] at hnil
      cases hnil
  refine Row.append (hus.congr fun u hu => ?_) hrow₂
  have hu' := (h.start_lt hc).1 u hu
  have hu'' := u.start_le_stop
  rw [join_ne (by omega), join_ne (by omega)]

theorem insert_sorted (h : Ring base s fs (b :: live)) (hc : sentinel base :: fs = us ++ c :: vs)
    (hcb : c.stop ≤ b.start) (hvs : ∀ v ∈ vs, b.stop ≤ v.start) :
    Sorted (us ++ push c (push b vs)) := by
  have hsorted := h.sorted
  rw [hc] at hsorted
  obtain ⟨hus, hcvs, -⟩ := pairwise_append.mp hsorted
  have hpush : ∀ n ∈ push b vs, c.stop ≤ n.start :=
    fun n hn => Nat.le_trans hcb (start_le_of_mem_push hvs hn)
  refine pairwise_append.mpr ⟨hus,
    sorted_push (sorted_push (pairwise_cons.mp hcvs).2 hvs) hpush, fun u hu n hn => ?_⟩
  exact Nat.lt_of_lt_of_le ((h.start_lt hc).1 u hu) (start_le_of_mem_push hpush hn)

theorem insert_cover (hc : sentinel base :: fs = us ++ c :: vs)
    (hfs' : us ++ push c (push b vs) = sentinel base :: fs') (a : Nat) :
    cover (fs' ++ live) a = cover (fs ++ b :: live) a := by
  have hold : cover fs a = cover us a + (cover [c] a + cover vs a) := by
    rw [← cover_sentinel base, hc, cover_append, cover_cons]
  have hnew : cover fs' a = cover us a + (cover [c] a + (cover [b] a + cover vs a)) := by
    rw [← cover_sentinel base, ← hfs', cover_append, cover_push, cover_cons, cover_push,
      cover_cons b vs]
  rw [cover_append, cover_append, cover_cons]
  omega

theorem insert_pos (h : Ring base s fs (b :: live)) (hc : sentinel base :: fs = us ++ c :: vs)
    (hn : n ∈ us ++ push c (push b vs)) (hbase : base < n.start) : 0 < n.units := by
  have hb : 0 < b.units := h.pos b (by simp)
  have hold : ∀ x ∈ us ++ c :: vs, base < x.start → 0 < x.units := by
    intro x hx hlt
    rw [← hc] at hx
    rcases mem_cons.mp hx with rfl | hx
    · exact absurd hlt (Nat.lt_irrefl base)
    · exact h.pos x (mem_append_left _ hx)
  rcases mem_append.mp hn with hn | hn
  · exact hold n (by simp [hn]) hbase
  · rcases mem_push hn with hn | ⟨d, -, -, rfl⟩
    · rcases mem_cons.mp hn with rfl | hn
      · exact hold n (by simp) hbase
      · rcases mem_push hn with hn | ⟨d, -, -, rfl⟩
        · rcases mem_cons.mp hn with rfl | hn
          · exact hb
          · exact hold n (by simp [hn]) hbase
        · exact Nat.add_pos_left hb _
    · exact Nat.add_pos_left (hold c (by simp) hbase) _

theorem insert_below (h : Ring base s fs (b :: live)) (hc : sentinel base :: fs = us ++ c :: vs)
    (hn : n ∈ us ++ push c (push b vs)) : n.stop ≤ s.brk := by
  have hold : ∀ x ∈ us ++ c :: vs, x.stop ≤ s.brk := by
    intro x hx
    rw [← hc] at hx
    rcases mem_cons.mp hx with rfl | hx
    · exact Nat.le_of_lt h.base_lt
    · exact h.below x (mem_append_left _ hx)
  have hb : ∀ d ∈ b :: vs, d.stop ≤ s.brk := by
    intro d hd
    rcases mem_cons.mp hd with rfl | hd
    · exact h.below d (by simp)
    · exact hold d (by simp [hd])
  rcases mem_append.mp hn with hn | hn
  · exact hold n (by simp [hn])
  · refine stop_le_of_mem_push (fun d hd => ?_) hn
    rcases mem_cons.mp hd with rfl | hd
    · exact hold d (by simp)
    · exact stop_le_of_mem_push hb hd

theorem insert (h : Ring base s fs (b :: live)) (hc : sentinel base :: fs = us ++ c :: vs)
    (hcb : c.stop ≤ b.start) (hvs : ∀ v ∈ vs, b.stop ≤ v.start) (hfits : joined fs b < 2 ^ 32)
    (hfs' : us ++ push c (push b vs) = sentinel base :: fs') :
    Ring base { join (join s b.start (s.next c.start)) c.start b.start with freep := c.start }
      fs' live where
  row := by
    have hrow := h.insert_row hc hcb hvs hfits
    rw [hfs'] at hrow
    exact ⟨hrow.chained, hrow.head, hrow.sizes⟩
  freep := by
    obtain ⟨n, l, hpush, hn⟩ := push_eq_cons c (push b vs)
    rw [← hfs', hpush, ← hn]
    simp
  sorted := hfs' ▸ h.insert_sorted hc hcb hvs
  sizes x hx := by
    have hxc : x.start ≠ c.start := h.start_ne (mem_cons_of_mem b hx) (by rw [hc]; simp)
    rw [← h.sizes x (mem_cons_of_mem b hx), Heap.size, Heap.size]
    rw [join_ne hxc, join_ne (h.live_ne hx)]
  pos x hx := by
    rcases mem_append.mp hx with hx | hx
    · have hsorted := h.insert_sorted hc hcb hvs
      rw [hfs'] at hsorted
      have hlt : base < x.start := (pairwise_cons.mp hsorted).1 x hx
      exact h.insert_pos hc (by rw [hfs']; exact mem_cons_of_mem _ hx) hlt
    · exact h.pos x (by simp [hx])
  above x hx := h.above x (mem_cons_of_mem b hx)
  below x hx := by
    have hx' : x.stop ≤ s.brk := by
      rcases mem_append.mp hx with hx | hx
      · exact h.insert_below hc (by rw [hfs']; exact mem_cons_of_mem _ hx)
      · exact h.below x (by simp [hx])
    simpa using hx'
  tiles a := by
    rw [insert_cover hc hfs', h.tiles]
    simp
  once a := by simpa using h.once a
  got_below r hr := by simpa using h.got_below r (by simpa using hr)
  base_lt := by simpa using h.base_lt

end Ring

/-- `free` ends and keeps the invariant, with the units of the block in one block of the list. -/
theorem Ring.free (h : Ring base s fs (b :: live)) (hfits : joined fs b < 2 ^ 32)
    (hturns : fs.length < turns) :
    ∃ s' fs', free turns (b.start + 16) s = some s' ∧ Ring base s' fs' live ∧
      fs'.length ≤ fs.length + 1 ∧ ∃ f ∈ fs', b.units ≤ f.units := by
  obtain ⟨us, c, vs, hc, hcb, hvs, hseek⟩ := h.seek_between hturns
  obtain ⟨fs', hfs'⟩ := h.insert_eq hc
  refine ⟨_, fs', ?_, h.insert hc hcb hvs hfits hfs', ?_, ?_⟩
  · rw [Malloc.free, Nat.add_sub_cancel, hseek]
  · have hlen := congrArg List.length hfs'
    have hlen' := congrArg List.length hc
    have hpush := length_push_le c (push b vs)
    have hpush' := length_push_le b vs
    simp only [length_append, length_cons] at hlen hlen'
    omega
  · have hb : 0 < b.units := h.pos b (by simp)
    obtain ⟨n, hn, hbn⟩ := exists_units_push (mem_cons_self (a := b) (l := vs))
    obtain ⟨f, hf, hnf⟩ := exists_units_push (mem_cons_of_mem c hn)
    have hf' : f ∈ sentinel base :: fs' := hfs' ▸ mem_append_right us hf
    rcases mem_cons.mp hf' with rfl | hf'
    · change n.units ≤ 0 at hnf
      omega
    · exact ⟨f, hf', Nat.le_trans hbn hnf⟩

end Xv6.Malloc
