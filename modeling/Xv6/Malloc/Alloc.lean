import Xv6.Malloc.Ring

/-!
# What `malloc` keeps

The search goes round the free list once. If no block has room, `morecore` adds one that has, so
that the next search ends with a block.
-/

namespace Xv6.Malloc

open List

namespace Ring

variable {base : Nat} {s : Heap} {fs live us vs : List Block} {b c d : Block} {turns : Nat}

/-! ## New memory -/

/-- Memory that `sbrk` returns, as a block that is not free yet. -/
theorem got (h : Ring base s fs live) (gap : Nat) {nu : UInt32} (hnu : 0 < nu.toNat) :
    Ring base (Heap.set { s with
        brk := s.brk + gap + nu.toNat * 16
        got := ⟨s.brk + gap, nu.toNat⟩ :: s.got } (s.brk + gap) ⟨p, nu⟩)
      fs (⟨s.brk + gap, nu.toNat⟩ :: live) := by
  have hframe : ∀ x < s.brk, (Heap.set { s with
      brk := s.brk + gap + nu.toNat * 16
      got := ⟨s.brk + gap, nu.toNat⟩ :: s.got } (s.brk + gap) ⟨p, nu⟩).mem x = s.mem x := by
    intro x hx
    rw [Heap.set_ne (by omega)]
  have hlt : ∀ x ∈ fs ++ live, x.start < s.brk := fun x hx =>
    Nat.lt_of_lt_of_le (Block.start_lt_stop (h.pos x hx)) (h.below x hx)
  have hbase := h.base_lt
  constructor
  case row =>
    refine h.row.congr fun x hx => hframe _ ?_
    rcases mem_cons.mp hx with rfl | hx
    · exact hbase
    · exact hlt x (mem_append_left _ hx)
  case freep => exact h.freep
  case sorted => exact h.sorted
  case sizes =>
    intro x hx
    rcases mem_cons.mp hx with rfl | hx
    · rw [Heap.size, Heap.set_self]
    · rw [Heap.size, hframe _ (hlt x (mem_append_right _ hx))]
      exact h.sizes x hx
  case pos =>
    intro x hx
    rcases mem_append.mp hx with hx | hx
    · exact h.pos x (mem_append_left _ hx)
    · rcases mem_cons.mp hx with rfl | hx
      · exact hnu
      · exact h.pos x (mem_append_right _ hx)
  case above =>
    intro x hx
    rcases mem_cons.mp hx with rfl | hx
    · change base < s.brk + gap
      omega
    · exact h.above x hx
  case below =>
    intro x hx
    change x.stop ≤ s.brk + gap + nu.toNat * 16
    rcases mem_append.mp hx with hx | hx
    · have := h.below x (mem_append_left _ hx)
      omega
    · rcases mem_cons.mp hx with rfl | hx
      · simp only [Block.stop]
        omega
      · have := h.below x (mem_append_right _ hx)
        omega
  case tiles =>
    intro a
    have htiles := h.tiles a
    change cover _ a = cover (_ :: s.got) a
    rw [cover_append] at htiles ⊢
    rw [cover_cons _ live, cover_cons _ s.got]
    omega
  case once =>
    intro a
    change cover (_ :: s.got) a ≤ 1
    rw [cover_cons, cover_singleton]
    split
    next ha =>
      have ha' : s.brk + gap ≤ a := ha.1
      have hzero : cover s.got a = 0 := cover_eq_zero fun r hr => by
        have := h.got_below r hr
        omega
      omega
    · have := h.once a
      omega
  case got_below =>
    intro r hr
    change r.stop ≤ s.brk + gap + nu.toNat * 16
    rcases mem_cons.mp hr with rfl | hr
    · simp only [Block.stop]
      omega
    · have := h.got_below r hr
      omega
  case base_lt =>
    change base < s.brk + gap + nu.toNat * 16
    omega

theorem coreUnits_ge (nu : UInt32) :
    nu.toNat ≤ (coreUnits nu).toNat ∧ 0 < (coreUnits nu).toNat := by
  rw [coreUnits]
  split
  next h =>
    have := UInt32.lt_iff_toNat_lt.mp h
    exact ⟨Nat.le_of_lt this, by decide⟩
  next h =>
    have h' : ¬ nu.toNat < 4096 := fun hlt => h (UInt32.lt_iff_toNat_lt.mpr hlt)
    exact ⟨Nat.le_refl _, by omega⟩

/-- `morecore` ends, and leaves a free block with room for the units, if `sbrk` does not fail. -/
theorem morecore (h : Ring base s fs live) {nu : UInt32} {gap : Nat}
    (hfits : joined fs ⟨s.brk + gap, (coreUnits nu).toNat⟩ < 2 ^ 32) (hturns : fs.length < turns) :
    ∃ s' fs', morecore turns nu (some gap) s = some (some s') ∧ Ring base s' fs' live ∧
      fs'.length ≤ fs.length + 1 ∧ ∃ f ∈ fs', nu.toNat ≤ f.units := by
  obtain ⟨hle, hpos⟩ := coreUnits_ge nu
  obtain ⟨s', fs', hfree, hring, hlen, f, hf, hunits⟩ :=
    (h.got (p := s.next (s.brk + gap)) gap hpos).free hfits hturns
  refine ⟨s', fs', ?_, hring, hlen, f, hf, Nat.le_trans hle hunits⟩
  rw [Malloc.morecore]
  dsimp only
  rw [← Option.map_some, ← hfree]
  rfl

/-! ## The search -/

theorem nodup (h : Ring base s fs live) : ((sentinel base :: fs).map (·.start)).Nodup := by
  refine List.Pairwise.map _ (fun x y hxy => ?_) h.sorted
  have := x.start_le_stop
  omega

/-- A search from `freep` ends before a block with room for the units, or there is none. -/
theorem search (h : Ring base s fs live) (nunits : UInt32) (hturns : fs.length < turns) :
    ∃ c ∈ sentinel base :: fs, Malloc.search turns nunits s = some c.start ∧
      (nunits ≤ s.size (s.next c.start) ∨ ∀ f ∈ fs, f.units < nunits.toNat) := by
  obtain ⟨l, hl, hperm⟩ := h.looped.from_mem h.freep
  have hmem : ∀ q, q ∈ s.freep :: l ↔ q ∈ (sentinel base :: fs).map (·.start) :=
    fun q => hperm.mem_iff
  have hnodup : (s.freep :: l).Nodup := hperm.nodup_iff.mpr h.nodup
  have hlen : l.length < turns := by
    have := hperm.length_eq
    simp only [length_cons, length_map] at this
    omega
  obtain ⟨r, hr, hnext⟩ := hl.exists_next mem_cons_self
  have hsome : ∃ q ∈ s.freep :: l,
      decide (nunits ≤ s.size (s.next q) ∨ s.next q = s.freep) = true :=
    ⟨r, hr, by simp [hnext]⟩
  obtain ⟨xs, q, ys, hq, hxs, hstop, hseek⟩ := hl.seek_eq hsome hlen
  obtain ⟨c, hc, rfl⟩ := mem_map.mp ((hmem q).mp (by rw [hq]; simp))
  refine ⟨c, hc, hseek, ?_⟩
  rcases of_decide_eq_true hstop with hroom | hlast
  · exact .inl hroom
  by_cases hroom : nunits ≤ s.size (s.next c.start)
  · exact .inl hroom
  -- the search is back at `freep`, so that it has seen all blocks
  refine .inr fun f hf => ?_
  obtain rfl := hl.eq_nil_of_next hnodup hq hlast
  have hf' : f.start ∈ s.freep :: l :=
    (hmem _).mpr (mem_map_of_mem (mem_cons_of_mem _ hf))
  obtain ⟨p, hp, hpf⟩ := hl.exists_next hf'
  have hsmall : ¬ nunits ≤ s.size f.start := by
    rw [← hpf]
    rw [hq] at hp
    rcases mem_append.mp hp with hp | hp
    · have hfalse := of_decide_eq_false (hxs p hp)
      exact fun hle => hfalse (.inl hle)
    · cases mem_singleton.mp hp
      exact hroom
  have hunits : (s.size f.start).toNat = f.units := h.row.sizes f (mem_cons_of_mem _ hf)
  rw [← hunits]
  exact Nat.not_le.mp fun hle => hsmall (UInt32.le_iff_toNat_le.mpr hle)

/-! ## The block -/

theorem behind (hc : sentinel base :: fs = us ++ c :: vs) :
    ∃ ws, fs = ws ++ vs ∧ ∀ vs', us ++ c :: vs' = sentinel base :: (ws ++ vs') := by
  cases us with
  | nil =>
    cases hc
    exact ⟨[], rfl, fun _ => rfl⟩
  | cons u us =>
    cases hc
    exact ⟨us ++ [c], by simp, fun _ => by simp⟩

/-- Another list and one more live block, with the same memory. -/
theorem replace (h : Ring base s fs live) (hrow : Row s' base base (sentinel base :: fs'))
    (hfreep : s'.freep ∈ (sentinel base :: fs').map (·.start))
    (hsorted : Sorted (sentinel base :: fs')) (hbrk : s'.brk = s.brk) (hgot : s'.got = s.got)
    (hlive : ∀ x ∈ live, s'.mem x.start = s.mem x.start)
    (hb : (s'.size b.start).toNat = b.units) (habove : base < b.start)
    (hnew : ∀ x ∈ b :: fs', 0 < x.units ∧ x.stop ≤ s.brk)
    (hcover : ∀ a, cover fs' a + cover [b] a = cover fs a) : Ring base s' fs' (b :: live) := by
  have hall : ∀ x ∈ fs' ++ b :: live, 0 < x.units ∧ x.stop ≤ s.brk := by
    intro x hx
    rcases mem_append.mp hx with hx | hx
    · exact hnew x (mem_cons_of_mem b hx)
    · rcases mem_cons.mp hx with rfl | hx
      · exact hnew x mem_cons_self
      · have hx' : x ∈ fs ++ live := mem_append_right fs hx
        exact ⟨h.pos x hx', h.below x hx'⟩
  constructor
  case row => exact hrow
  case freep => exact hfreep
  case sorted => exact hsorted
  case sizes =>
    intro x hx
    rcases mem_cons.mp hx with rfl | hx
    · exact hb
    · rw [Heap.size, hlive x hx]
      exact h.sizes x hx
  case pos => exact fun x hx => (hall x hx).1
  case above =>
    intro x hx
    rcases mem_cons.mp hx with rfl | hx
    · exact habove
    · exact h.above x hx
  case below =>
    rw [hbrk]
    exact fun x hx => (hall x hx).2
  case tiles =>
    intro a
    rw [hgot, ← h.tiles a, cover_append, cover_append, cover_cons b live, ← hcover a, Nat.add_assoc]
  case once =>
    rw [hgot]
    exact h.once
  case got_below =>
    rw [hgot, hbrk]
    exact h.got_below
  case base_lt =>
    rw [hbrk]
    exact h.base_lt

theorem take (h : Ring base s fs live) (hc : sentinel base :: fs = us ++ c :: d :: vs) :
    ∃ fs', Ring base { s.set c.start ⟨s.next d.start, s.size c.start⟩ with freep := c.start }
      fs' (d :: live) := by
  obtain ⟨hus, hds⟩ := h.start_lt hc
  obtain ⟨ws, rfl, hall⟩ := behind hc
  have hframe : ∀ x, x ≠ c.start →
      (s.set c.start ⟨s.next d.start, s.size c.start⟩).mem x = s.mem x := fun x hx => Heap.set_ne hx
  have hstart := c.start_le_stop
  have hcd := hds d mem_cons_self
  have hrow := h.row
  rw [hc] at hrow
  obtain ⟨hrus, hrcs⟩ := hrow.split
  have hrow' : Row (s.set c.start ⟨s.next d.start, s.size c.start⟩) base base (us ++ c :: vs) := by
    refine Row.append (hrus.congr fun u hu => hframe _ ?_)
      (Row.cons (hrcs.tail.2.tail.2.congr fun v hv => hframe _ ?_) ?_ ?_)
    · have := hus u hu
      have := u.start_le_stop
      omega
    · have := hds v (mem_cons_of_mem d hv)
      omega
    · rw [Heap.next, Heap.set_self]
    · rw [Heap.size, Heap.set_self]
      exact hrcs.sizes c mem_cons_self
  have hsorted : Sorted (us ++ c :: vs) := by
    have hsorted := h.sorted
    rw [hc] at hsorted
    have hsub := (List.Sublist.refl us).append ((sublist_cons_self d vs).cons_cons c)
    exact hsorted.sublist hsub
  have hmem : ∀ x ∈ d :: (ws ++ vs), x ∈ ws ++ d :: vs ++ live := by
    intro x hx
    exact mem_append_left live (perm_middle.mem_iff.mpr hx)
  refine ⟨ws ++ vs, h.replace ?_ ?_ ?_ rfl rfl (fun x hx => hframe _ ?_) ?_ ?_ (fun x hx => ?_) ?_⟩
  · rw [← hall vs]
    exact ⟨hrow'.chained, hrow'.head, hrow'.sizes⟩
  · rw [← hall vs]
    simp
  · exact hall vs ▸ hsorted
  · exact h.start_ne hx (by rw [hc]; simp)
  · change (((s.set c.start _).mem d.start).size).toNat = d.units
    rw [hframe _ (by omega)]
    exact hrcs.sizes d (by simp)
  · exact h.base_lt_start (by simp)
  · exact ⟨h.pos x (hmem x hx), h.below x (hmem x hx)⟩
  · intro a
    rw [cover_append, cover_append, cover_cons d vs]
    omega

theorem cut (h : Ring base s fs live) {nunits : UInt32} (hpos : 0 < nunits.toNat)
    (hc : sentinel base :: fs = us ++ c :: d :: vs) (hlt : nunits.toNat < d.units) :
    ∃ fs', Ring base { (s.set d.start ⟨s.next d.start, s.size d.start - nunits⟩).set
        (offset d.start (s.size d.start - nunits)) ⟨p, nunits⟩ with freep := c.start }
      fs' (⟨offset d.start (s.size d.start - nunits), nunits.toNat⟩ :: live) := by
  have hc' : sentinel base :: fs = (us ++ [c]) ++ d :: vs := by simpa using hc
  obtain ⟨hus, hds⟩ := h.start_lt hc'
  obtain ⟨ws, rfl, hall⟩ := behind hc
  have hrow := h.row
  rw [hc] at hrow
  obtain ⟨hrus, hrcs⟩ := hrow.split
  have hunits : (s.size d.start).toNat = d.units := hrcs.sizes d (by simp)
  -- the block that stays in the list, and the one that is cut off
  have hrest : (s.size d.start - nunits).toNat = d.units - nunits.toNat := by
    rw [UInt32.toNat_sub_of_le _ _ (UInt32.le_iff_toNat_le.mpr (by omega)), hunits]
  have hoffset : offset d.start (s.size d.start - nunits) =
      d.start + 16 * (d.units - nunits.toNat) := by rw [offset, hrest]
  have hdstop : d.stop = d.start + 16 * d.units := rfl
  generalize hq : offset d.start (s.size d.start - nunits) = q at hoffset ⊢
  have hframe : ∀ x, x ≠ d.start → x ≠ q →
      ((s.set d.start ⟨s.next d.start, s.size d.start - nunits⟩).set q ⟨p, nunits⟩).mem x =
        s.mem x := by
    intro x hxd hxq
    rw [Heap.set_ne hxq, Heap.set_ne hxd]
  have hd : ((s.set d.start ⟨s.next d.start, s.size d.start - nunits⟩).set q ⟨p, nunits⟩).mem
      d.start = ⟨s.next d.start, s.size d.start - nunits⟩ := by
    rw [Heap.set_ne (by omega), Heap.set_self]
  have hcd := hus c (by simp)
  have hcstart := c.start_le_stop
  have hrow' : Row ((s.set d.start ⟨s.next d.start, s.size d.start - nunits⟩).set q ⟨p, nunits⟩)
      base base (us ++ c :: ⟨d.start, d.units - nunits.toNat⟩ :: vs) := by
    refine Row.append (hrus.congr fun u hu => hframe _ ?_ ?_)
      (Row.cons (Row.cons (b := ⟨d.start, d.units - nunits.toNat⟩)
        (hrcs.tail.2.tail.2.congr fun v hv => hframe _ ?_ ?_) ?_ ?_) ?_ ?_)
    · have := hus u (by simp [hu])
      have := u.start_le_stop
      omega
    · have := hus u (by simp [hu])
      have := u.start_le_stop
      omega
    · have := hds v hv
      omega
    · have := hds v hv
      omega
    · rw [Heap.next, hd]
    · rw [Heap.size, hd]
      exact hrest
    · rw [Heap.next, hframe _ (by omega) (by omega)]
      exact hrcs.tail.2.tail.1
    · rw [Heap.size, hframe _ (by omega) (by omega)]
      exact hrcs.sizes c mem_cons_self
  have hsorted : Sorted (us ++ c :: ⟨d.start, d.units - nunits.toNat⟩ :: vs) := by
    have hsorted := h.sorted
    rw [hc'] at hsorted
    have hshrink : Sorted (us ++ [c] ++ ⟨d.start, d.units - nunits.toNat⟩ :: vs) := by
      refine hsorted.shrink rfl ?_
      simp only [Block.stop]
      omega
    simpa using hshrink
  have hdmem : d ∈ ws ++ d :: vs ++ live := by simp
  have hdbelow := h.below d hdmem
  have hdbase : base < d.start := h.base_lt_start (by simp)
  refine ⟨ws ++ ⟨d.start, d.units - nunits.toNat⟩ :: vs,
    h.replace ?_ ?_ ?_ rfl rfl (fun x hx => hframe _ ?_ ?_) ?_ ?_ (fun x hx => ?_) ?_⟩
  · rw [← hall]
    exact ⟨hrow'.chained, hrow'.head, hrow'.sizes⟩
  · rw [← hall]
    simp
  · exact hall _ ▸ hsorted
  · exact h.start_ne hx (by simp)
  · -- a live block does not begin inside the one that is cut
    have hapart := h.live_apart hx (c := d) (by simp)
    have hx' := Block.start_lt_stop (h.pos x (by simp [hx]))
    omega
  · change ((Heap.set _ q ⟨p, nunits⟩).mem q).size.toNat = _
    rw [Heap.set_self]
  · change base < q
    omega
  · rcases mem_cons.mp hx with rfl | hx
    · refine ⟨hpos, ?_⟩
      simp only [Block.stop]
      omega
    · rcases mem_append.mp hx with hx | hx
      · exact ⟨h.pos x (by simp [hx]), h.below x (by simp [hx])⟩
      · rcases mem_cons.mp hx with rfl | hx
        · refine ⟨?_, ?_⟩
          · dsimp only
            omega
          · simp only [Block.stop]
            omega
        · exact ⟨h.pos x (by simp [hx]), h.below x (by simp [hx])⟩
  · intro a
    have hjoin : cover [d] a =
        cover [⟨d.start, d.units - nunits.toNat⟩] a + cover [⟨q, nunits.toNat⟩] a := by
      rw [← cover_join]
      · simp only [Nat.sub_add_cancel (Nat.le_of_lt hlt)]
      · simp only [Block.stop]
        omega
    rw [cover_append, cover_append, cover_cons d vs, cover_cons _ vs]
    omega

theorem allocate (h : Ring base s fs live) {nunits : UInt32} (hc : c ∈ sentinel base :: fs)
    (hpos : 0 < nunits.toNat) (hroom : nunits ≤ s.size (s.next c.start)) :
    ∃ b s' fs', allocate nunits c.start (s.next c.start) s = (b.start + 16, s') ∧
      b.units = nunits.toNat ∧ Ring base s' fs' (b :: live) := by
  obtain ⟨us, vs, hsplit⟩ := append_of_mem hc
  have hrow := h.row
  rw [hsplit] at hrow
  have htail := hrow.split.2.tail.2
  have hroom' := UInt32.le_iff_toNat_le.mp hroom
  cases vs with
  | nil =>
    -- the block after the last one is `base`, which has no units
    have hnext : s.next c.start = base := (Option.some.inj htail.head).symm
    have hbase : (s.size base).toNat = 0 := h.row.sizes (sentinel base) mem_cons_self
    rw [hnext] at hroom'
    omega
  | cons d vs =>
    have hnext : s.next c.start = d.start := htail.tail.1
    have hunits : (s.size d.start).toNat = d.units := htail.sizes d mem_cons_self
    rw [hnext] at hroom' ⊢
    rw [Malloc.allocate]
    split
    next heq =>
      obtain ⟨fs', hring⟩ := h.take hsplit
      exact ⟨d, _, fs', rfl, by rw [← hunits, heq], hring⟩
    next hne =>
      have hlt : nunits.toNat < d.units := by
        have hne' : (s.size d.start).toNat ≠ nunits.toNat := fun h => hne (UInt32.toNat_inj.mp h)
        omega
      obtain ⟨fs', hring⟩ := h.cut hpos hsplit hlt
      exact ⟨_, _, fs', rfl, rfl, hring⟩

/-! ## The loop -/

theorem mallocLoop_allocate {prevp : Nat} {nunits : UInt32}
    (hsearch : Malloc.search turns nunits s = some prevp)
    (hfit : nunits ≤ s.size (s.next prevp)) (answers : List (Option Nat)) :
    mallocLoop turns nunits answers s =
      some (Malloc.allocate nunits prevp (s.next prevp) s) := by
  rw [mallocLoop.eq_def, hsearch]
  dsimp only
  rw [if_pos hfit]

/-- The loop ends with the first search if there is a block with room. -/
theorem mallocLoop_room (h : Ring base s fs live) {nunits : UInt32} (hpos : 0 < nunits.toNat)
    (hroom : ∃ f ∈ fs, nunits.toNat ≤ f.units) (hturns : fs.length < turns)
    (answers : List (Option Nat)) :
    ∃ b s' fs', mallocLoop turns nunits answers s = some (b.start + 16, s') ∧
      b.units = nunits.toNat ∧ Ring base s' fs' (b :: live) := by
  obtain ⟨c, hc, hsearch, hfound⟩ := h.search nunits hturns
  have hfit : nunits ≤ s.size (s.next c.start) := by
    rcases hfound with hfit | hnone
    · exact hfit
    · obtain ⟨f, hf, hle⟩ := hroom
      exact absurd hle (Nat.not_le.mpr (hnone f hf))
  obtain ⟨b, s', fs', halloc, hunits, hring⟩ := h.allocate hc hpos hfit
  exact ⟨b, s', fs', (mallocLoop_allocate hsearch hfit answers).trans (congrArg some halloc),
    hunits, hring⟩

/-- The loop of `malloc` ends with a block, or with no block and the heap as it was. -/
theorem mallocLoop (h : Ring base s fs live) {nunits : UInt32} (hpos : 0 < nunits.toNat)
    {answers : List (Option Nat)}
    (hfits : (∀ f ∈ fs, f.units < nunits.toNat) → ∀ gap ∈ answers.head?.join,
      joined fs ⟨s.brk + gap, (coreUnits nunits).toNat⟩ < 2 ^ 32)
    (hturns : fs.length + 1 < turns) :
    Malloc.mallocLoop turns nunits answers s = some (0, s) ∨
    ∃ b s' fs', Malloc.mallocLoop turns nunits answers s = some (b.start + 16, s') ∧
      b.units = nunits.toNat ∧ Ring base s' fs' (b :: live) := by
  obtain ⟨c, hc, hsearch, hfound⟩ := h.search nunits (Nat.lt_of_succ_lt hturns)
  by_cases hfit : nunits ≤ s.size (s.next c.start)
  · obtain ⟨b, s', fs', halloc, hunits, hring⟩ := h.allocate hc hpos hfit
    exact .inr ⟨b, s', fs', (mallocLoop_allocate hsearch hfit answers).trans (congrArg some halloc),
      hunits, hring⟩
  rw [Malloc.mallocLoop.eq_def, hsearch]
  dsimp only
  rw [if_neg hfit]
  rcases answers with _ | ⟨_ | gap, answers⟩
  · exact .inl rfl
  · exact .inl rfl
  · have hjoined := hfits (hfound.resolve_left hfit) gap rfl
    obtain ⟨s', fs', hcore, hring, hlen, f, hf, hunits⟩ :=
      h.morecore hjoined (Nat.lt_of_succ_lt hturns)
    dsimp only
    rw [hcore]
    exact .inr (hring.mallocLoop_room hpos ⟨f, hf, hunits⟩ (by omega) answers)

end Ring

end Xv6.Malloc
