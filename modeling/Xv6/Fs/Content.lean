import Xv6.Fs.Map

/-!
# The content of a file

The bytes of a file are those of its blocks, in the order of their indices. The loops of `readi` and
`writei` are followed block by block: reading returns the bytes and changes nothing, as long as
every block is there; writing replaces the bytes it is given and no others, of this file or of any
other (`Written`).
-/

namespace Xv6.Fs

open List

/-- Byte `x` of inode `i`. -/
def fileByte (sb : Superblock) (disk : Disk) (F : Nat → Dinode) (i x : Nat) : UInt8 :=
  (blockOf disk (own sb disk F (i, slotOf (x / BSIZE)))).get (x % BSIZE)

def State.byte (s : State) (p : Ip) (i x : Nat) : UInt8 := fileByte s.sb s.disk (view s p) i x

/-- Block `bn` has one of the `n` bytes from offset `off` on. -/
def Touches (off n bn : Nat) : Prop := 0 < n ∧ off / BSIZE ≤ bn ∧ bn * BSIZE < off + n

instance : Decidable (Touches off n bn) := inferInstanceAs (Decidable (_ ∧ _))

section
variable {s t u : State} {p : Ip} {E : Fault → Prop} {off n m bn turns : Nat}

theorem touches_first (hn : 0 < n) : Touches off n (off / BSIZE) := by
  refine ⟨hn, Nat.le_refl _, ?_⟩
  have := Nat.div_mul_le_self off BSIZE
  omega

theorem touches_step (hn : 0 < n) : Touches off n bn ↔
    bn = off / BSIZE ∨ Touches (off + chunk off n) (n - chunk off n) bn := by
  simp only [Touches, chunk, BSIZE]
  omega

theorem touches_rest_ne (h : Touches (off + chunk off n) (n - chunk off n) bn) :
    bn ≠ off / BSIZE := by
  simp only [Touches, chunk, BSIZE] at h ⊢
  omega

theorem chunk_pos (hn : 0 < n) : 0 < chunk off n := by
  simp only [chunk, BSIZE]
  omega

theorem own_eq_zero_of_gt (h : NDIRECT + NINDIRECT < k) : own sb disk F (i, k) = 0 := by
  unfold own slotAddr
  split
  · rw [if_neg (by omega), if_pos (.inr h)]
  · rfl

theorem lt_maxfile_of_own (h : own sb disk F (i, slotOf bn) ≠ 0) : bn < MAXFILE := by
  by_contra hge
  refine h (own_eq_zero_of_gt ?_)
  simp only [slotOf, MAXFILE] at *
  split <;> omega

/-! ## Reading -/

theorem byte_in_block {i x : Nat} (hx : x < BSIZE - off % BSIZE)
    (hnz : s.own p (i, slotOf (off / BSIZE)) ≠ 0) :
    s.byte p i (off + x) =
      (s.disk (s.own p (i, slotOf (off / BSIZE)))).get (off % BSIZE + x) := by
  have hdiv : (off + x) / BSIZE = off / BSIZE := by
    simp only [BSIZE] at hx ⊢
    omega
  have hmod : (off + x) % BSIZE = off % BSIZE + x := by
    simp only [BSIZE] at hx ⊢
    omega
  rw [State.byte, fileByte, hdiv, hmod]
  exact congrArg (Bytes.get · _) (if_neg hnz)

theorem wp_readLoop (h : Working s p) (hn : n ≤ turns)
    (hmap : ∀ bn, Touches off n bn → s.own p ((s.icache p).inum, slotOf bn) ≠ 0) :
    (readLoop p turns off n).wp E (fun data t => t = s ∧
      data = (List.range n).map fun x => s.byte p (s.icache p).inum (off + x)) s := by
  induction turns generalizing off n with
  | zero =>
    obtain rfl : n = 0 := Nat.le_zero.mp hn
    exact ⟨rfl, rfl⟩
  | succ turns ih =>
    unfold readLoop
    split
    next h0 =>
      subst h0
      exact ⟨rfl, rfl⟩
    next h0 =>
      have hpos : 0 < n := Nat.pos_of_ne_zero h0
      have hnz := hmap _ (touches_first hpos)
      have hc : 0 < chunk off n := chunk_pos hpos
      have hcn : chunk off n ≤ n := Nat.min_le_left ..
      rw [wp_bind]
      refine wp_bmap_old h hnz ?_
      simp only [bread, wp_bind, wp_gets]
      refine wp_imp (ih (by omega) fun bn hbn => hmap bn ((touches_step hpos).mpr (.inr hbn))) ?_
      rintro rest t ⟨ht, rfl⟩
      refine ⟨ht, ?_⟩
      -- the first bytes come from this block, the others from the next turns
      have hsplit : n = chunk off n + (n - chunk off n) := by omega
      conv => rhs; rw [hsplit, range_add, map_append, map_map]
      refine congrArg₂ _ ?_ (map_congr_left fun x _ => ?_)
      · refine map_congr_left fun x hx => ?_
        have hx : x < chunk off n := mem_range.mp hx
        exact (byte_in_block (Nat.lt_of_lt_of_le hx (Nat.min_le_right ..)) hnz).symm
      · rw [Function.comp_apply, Nat.add_assoc]

/-! ## Writing -/

/-- A place that may be filled for the `n` bytes from offset `off` on. -/
def Fills (off n k : Nat) : Prop :=
  ∃ bn, Touches off n bn ∧ (k = slotOf bn ∨ NDIRECT ≤ bn ∧ k = NDIRECT)

/-- The bytes `src` were written from offset `off` on into the file in entry `p`: their blocks are
there, and in the transaction, and no other byte of any file changed. -/
structure Written (p : Ip) (off : Nat) (src : List UInt8) (s t : State) : Prop where
  grows : Grows p (Fills off src.length) s t
  mapped : ∀ bn, Touches off src.length bn → t.own p ((s.icache p).inum, slotOf bn) ≠ 0
  byte : ∀ j x, t.byte p j x =
    if j = (s.icache p).inum ∧ off ≤ x ∧ x < off + src.length then src.getD (x - off) 0
    else s.byte p j x
  lh : ∀ c, c ∈ t.lh ↔ c ∈ s.lh ∨ Grew p s t c ∨
    ∃ bn, Touches off src.length bn ∧ c = t.own p ((s.icache p).inum, slotOf bn)

theorem Written.nil (h : Working s p) : Written p off [] s s where
  grows := .refl h
  mapped := fun _ hbn => absurd hbn.1 (Nat.lt_irrefl 0)
  byte := fun j x => by
    rw [if_neg]
    rw [length_nil]
    omega
  lh := fun c => by
    refine ⟨.inl, fun hc => hc.resolve_right fun hc => hc.elim grew_refl ?_⟩
    rintro ⟨bn, hbn, -⟩
    exact Nat.lt_irrefl 0 hbn.1

theorem touches_append {na nb : Nat} : Touches off (na + nb) bn ↔
    Touches off na bn ∨ Touches (off + na) nb bn := by
  simp only [Touches, BSIZE]
  omega

theorem Written.append {a b : List UInt8} (h : Written p off a s t)
    (h' : Written p (off + a.length) b t u) : Written p off (a ++ b) s u := by
  have hi := h.grows.inum
  have htouch : ∀ bn, Touches off (a ++ b).length bn ↔
      Touches off a.length bn ∨ Touches (off + a.length) b.length bn := fun bn => by
    rw [length_append]
    exact touches_append
  have hg : Grows p (Fills off (a ++ b).length) s t := h.grows.mono fun k ⟨bn, hbn, hk⟩ =>
    ⟨bn, (htouch bn).mpr (.inl hbn), hk⟩
  have hg' : Grows p (Fills off (a ++ b).length) t u := h'.grows.mono fun k ⟨bn, hbn, hk⟩ =>
    ⟨bn, (htouch bn).mpr (.inr hbn), hk⟩
  refine ⟨hg.trans hg', fun bn hbn => ?_, fun j x => ?_, fun c => ?_⟩
  · rcases (htouch bn).mp hbn with hbn | hbn
    · have := h.mapped bn hbn
      rwa [h'.grows.old this]
    · rw [← hi]
      exact h'.mapped bn hbn
  · rw [h'.byte, h.byte, hi, length_append]
    by_cases hj : j = (s.icache p).inum
    · simp only [hj, true_and]
      by_cases hb : off + a.length ≤ x ∧ x < off + a.length + b.length
      · rw [if_pos hb, if_pos (by omega), getD_append_right _ _ _ _ (by omega)]
        congr 1
        omega
      · rw [if_neg hb]
        by_cases ha : off ≤ x ∧ x < off + a.length
        · rw [if_pos ha, if_pos (by omega), getD_append _ _ _ _ (by omega)]
        · rw [if_neg ha, if_neg (by omega)]
    · simp only [hj, false_and, if_false]
  · rw [h'.lh, h.lh, h.grows.grew_trans h'.grows, hi]
    have hold : ∀ bn, Touches off a.length bn → u.own p ((s.icache p).inum, slotOf bn) =
        t.own p ((s.icache p).inum, slotOf bn) := fun bn hbn => h'.grows.old (h.mapped bn hbn)
    constructor
    · rintro ((hc | hc | ⟨bn, hbn, rfl⟩) | hc | ⟨bn, hbn, rfl⟩)
      · exact .inl hc
      · exact .inr (.inl (.inl hc))
      · exact .inr (.inr ⟨bn, (htouch bn).mpr (.inl hbn), (hold bn hbn).symm⟩)
      · exact .inr (.inl (.inr hc))
      · exact .inr (.inr ⟨bn, (htouch bn).mpr (.inr hbn), rfl⟩)
    · rintro (hc | (hc | hc) | ⟨bn, hbn, rfl⟩)
      · exact .inl (.inl hc)
      · exact .inl (.inr (.inl hc))
      · exact .inr (.inl hc)
      · rcases (htouch bn).mp hbn with hbn | hbn
        · exact .inl (.inr (.inr ⟨bn, hbn, hold bn hbn⟩))
        · exact .inr (.inr ⟨bn, hbn, rfl⟩)

/-! ### Writing one block -/

theorem Working.own_write (h : Working s p) {x : Nat × Nat} (hx : s.own p x ≠ 0)
    (hx2 : x.2 ≠ NDIRECT) (data : Block) :
    (s.write (s.own p x) data).own p = s.own p := by
  have hd := h.isData_own hx
  refine own_congr (fun j hj => ?_) fun j hj => ?_
  · have hic : (s.write (s.own p x) data).icache = s.icache := rfl
    rw [view, view, hic]
    by_cases hji : j = (s.icache p).inum
    · rw [hji, update_self, update_self]
    · rw [update_of_ne hji, update_of_ne hji]
      refine dinodeAt_congr ?_
      rw [State.write_disk, State.write_sb,
        update_of_ne (h.geometry.iblock_ne_data hj hd)]
  · have hne : s.own p (j, NDIRECT) ≠ s.own p x := fun heq =>
      hx2 (congrArg Prod.snd (h.own_inj hj heq)).symm
    rw [State.write_disk]
    exact update_of_ne hne ..

theorem Working.grows_write (h : Working s p) {x : Nat × Nat} (hx : s.own p x ≠ 0)
    (hx2 : x.2 ≠ NDIRECT) {data : Block} {K : Nat → Prop} :
    Grows p K s (s.write (s.own p x) data) := by
  have hd := h.isData_own hx
  have hown := h.own_write hx hx2 data
  refine ⟨rfl, rfl, rfl, rfl, ?_, ⟨_, (update_eq_self p s.icache).symm⟩, fun j hj => ?_,
    ⟨?_, fun c hc => ?_⟩, fun _ => by rw [hown], fun hne => absurd (congrFun hown _) hne⟩
  · rw [State.write_disk, update_of_ne (h.geometry.one_ne_data hd)]
  · refine dinodeAt_congr ?_
    rw [State.write_disk, update_of_ne (h.geometry.iblock_ne_data hj hd)]
  · exact h.alloc.exact.congr (congrFun hown) fun c hc => State.blockBit_write h.geometry hd hc.2
  · have hc' : c < s.sb.size.toNat := Nat.lt_of_lt_of_le hc (Nat.sub_le ..)
    rw [State.blockBit_write h.geometry hd hc']
    exact h.alloc.reserved c hc

theorem Working.blockOf_write (h : Working s p) {x y : Nat × Nat} (hx : s.own p x ≠ 0)
    {data : Block} :
    blockOf (s.write (s.own p x) data).disk (s.own p y) =
      if y = x then data else blockOf s.disk (s.own p y) := by
  rw [blockOf, State.write_disk]
  split
  next h0 =>
    have hyx : y ≠ x := fun hyx => hx (hyx ▸ h0)
    rw [if_neg hyx, blockOf, if_pos h0]
  next h0 =>
    by_cases hyx : y = x
    · rw [hyx, update_self, if_pos rfl]
    · rw [if_neg hyx, update_of_ne fun heq => hyx (h.own_inj h0 heq), blockOf, if_neg h0]

theorem touches_within (hn : 0 < n) (h : n ≤ BSIZE - off % BSIZE) :
    Touches off n bn ↔ bn = off / BSIZE := by
  simp only [Touches, BSIZE] at *
  omega

theorem Mapped.written {b : Nat} {src : List UInt8} (hm : Mapped p (off / BSIZE) s b t)
    (h : Working s p) (hpos : 0 < src.length) (hlen : src.length ≤ BSIZE - off % BSIZE) :
    Written p off src s (t.write b ((t.disk b).blit (off % BSIZE) src)) := by
  have hw := hm.grows.working h
  have hb := hm.addr
  have hnz : t.own p ((s.icache p).inum, slotOf (off / BSIZE)) ≠ 0 := hb ▸ hm.ne
  subst hb
  generalize hdata : (t.disk (t.own p ((s.icache p).inum, slotOf (off / BSIZE)))).blit
    (off % BSIZE) src = data
  have hown := hw.own_write hnz (slotOf_ne _) data
  have htouch : ∀ bn, Touches off src.length bn ↔ bn = off / BSIZE := fun bn =>
    touches_within hpos hlen
  refine ⟨?_, fun bn hbn => ?_, fun j x => ?_, fun c => ?_⟩
  · exact (hm.grows.mono fun k hk => ⟨_, (htouch _).mpr rfl, hk⟩).trans
      (hw.grows_write hnz (slotOf_ne _))
  · rw [hown, (htouch bn).mp hbn]
    exact hnz
  · have hbyte : s.byte p j x =
        (blockOf t.disk (t.own p (j, slotOf (x / BSIZE)))).get (x % BSIZE) := by
      rw [hm.blocks _ (slotOf_ne _)]
      rfl
    refine (congrArg (fun b => (blockOf _ b).get _) (congrFun hown _)).trans ?_
    rw [hw.blockOf_write hnz, hbyte]
    by_cases hx : j = (s.icache p).inum ∧ x / BSIZE = off / BSIZE
    · obtain ⟨rfl, hx⟩ := hx
      rw [hx, if_pos rfl, ← hdata, Bytes.get_blit, blockOf, if_neg hnz]
      have hiff : (off % BSIZE ≤ x % BSIZE ∧ x % BSIZE < off % BSIZE + src.length ∧
          x % BSIZE < BSIZE) ↔ off ≤ x ∧ x < off + src.length := by
        simp only [BSIZE] at *
        omega
      have hsub : x % BSIZE - off % BSIZE = x - off := by
        simp only [BSIZE] at *
        omega
      by_cases hin : off ≤ x ∧ x < off + src.length
      · rw [if_pos (hiff.mpr hin), if_pos ⟨rfl, hin⟩, hsub]
      · rw [if_neg fun h => hin (hiff.mp h), if_neg fun h => hin h.2]
    · rw [if_neg fun heq => hx ?_, if_neg fun hin => hx ⟨hin.1, ?_⟩]
      · simp only [BSIZE] at *
        omega
      · rw [Prod.mk.injEq] at heq
        exact ⟨heq.1, slotOf_inj heq.2⟩
  · have hno : ¬Grew p t
        (t.write (t.own p ((s.icache p).inum, slotOf (off / BSIZE))) data) c := by
      rintro ⟨k, h0, h1, -⟩
      rw [hown] at h1
      exact h1 h0
    rw [hm.grows.grew_trans (hw.grows_write (K := fun _ => True) hnz (slotOf_ne _)),
      State.mem_lh_write, hm.lh]
    simp only [hno, or_false, hown, htouch, exists_eq_left, or_assoc]

/-! ### The loop of `writei` -/

/-- The number of blocks with some of the `n` bytes from offset `off` on. -/
def span (off n : Nat) : Nat := if n = 0 then 0 else (off + n - 1) / BSIZE - off / BSIZE + 1

theorem span_step (hn : 0 < n) :
    span off n = span (off + chunk off n) (n - chunk off n) + 1 := by
  rw [span, if_neg (by omega), span]
  split
  all_goals
    simp only [chunk, BSIZE] at *
    omega

/-- The number of blocks that a write of `n` bytes from offset `off` on allocates. -/
def State.needed (s : State) (p : Ip) (off n : Nat) : Nat :=
  ((Finset.range MAXFILE).filter fun bn =>
    Touches off n bn ∧ s.own p ((s.icache p).inum, slotOf bn) = 0).card +
  if 0 < n ∧ NDIRECT * BSIZE < off + n ∧ (s.icache p).din.addr NDIRECT = 0 then 1 else 0

theorem State.needs_le_needed (s : State) (hn : 0 < n) (hbn : off / BSIZE < MAXFILE) :
    s.needs p (off / BSIZE) ≤ s.needed p off n := by
  refine Nat.add_le_add ?_ ?_
  · split
    next hz =>
      refine Finset.card_pos.mpr ⟨off / BSIZE, ?_⟩
      rw [Finset.mem_filter, Finset.mem_range]
      exact ⟨hbn, touches_first hn, hz⟩
    next => exact Nat.zero_le _
  · split
    next hc =>
      have := Nat.div_mul_le_self off BSIZE
      have := Nat.mul_le_mul_right BSIZE hc.1
      rw [if_pos ⟨hn, by omega, hc.2⟩]
    next => exact Nat.zero_le _

theorem Mapped.needed_le {b : Nat} (hm : Mapped p (off / BSIZE) s b t) (h : Working s p)
    (hn : 0 < n) (hown : u.own p = t.own p) (hic : u.icache = t.icache) :
    u.needed p (off + chunk off n) (n - chunk off n) + s.needs p (off / BSIZE) ≤
      s.needed p off n := by
  have hw := hm.grows.working h
  have hnz : t.own p ((s.icache p).inum, slotOf (off / BSIZE)) ≠ 0 := hm.addr ▸ hm.ne
  have hbn : off / BSIZE < MAXFILE := lt_maxfile_of_own hnz
  have hdirect : off / BSIZE < NDIRECT →
      (t.icache p).din.addr NDIRECT = (s.icache p).din.addr NDIRECT := by
    intro hlt
    rw [← hw.own_of_le (Nat.le_refl _), ← h.own_of_le (Nat.le_refl _), hm.grows.inum]
    by_contra hne
    have := (hm.grows.only hne).2
    exact this.elim (fun h => slotOf_ne _ h.symm) fun h => absurd h.1 (Nat.not_le_of_lt hlt)
  have hindirect : NDIRECT ≤ off / BSIZE → (t.icache p).din.addr NDIRECT ≠ 0 := by
    intro hge
    rw [← hw.own_of_le (Nat.le_refl _), hm.grows.inum]
    refine fun h0 => hnz (own_eq_zero_of_indirect ?_ h0)
    rw [slotOf, if_neg (by omega)]
    omega
  -- the blocks that are missing after this one were missing before it
  have hsub : (Finset.range MAXFILE).filter (fun bn =>
      Touches (off + chunk off n) (n - chunk off n) bn ∧
        u.own p ((u.icache p).inum, slotOf bn) = 0) ⊆
      ((Finset.range MAXFILE).filter fun bn =>
        Touches off n bn ∧ s.own p ((s.icache p).inum, slotOf bn) = 0).erase (off / BSIZE) := by
    intro bn
    simp only [Finset.mem_filter, Finset.mem_erase, hown, hic, hm.grows.inum]
    rintro ⟨hlt, htouch, h0⟩
    refine ⟨touches_rest_ne htouch, hlt, (touches_step hn).mpr (.inr htouch), ?_⟩
    by_contra hs
    exact hs (by rw [← hm.grows.old hs, h0])
  have hcard := Finset.card_le_card hsub
  have hind : (if 0 < n - chunk off n ∧ NDIRECT * BSIZE < off + chunk off n + (n - chunk off n) ∧
        (u.icache p).din.addr NDIRECT = 0 then 1 else 0) +
      (if NDIRECT ≤ off / BSIZE ∧ (s.icache p).din.addr NDIRECT = 0 then 1 else 0) ≤
      if 0 < n ∧ NDIRECT * BSIZE < off + n ∧ (s.icache p).din.addr NDIRECT = 0 then 1 else 0 := by
    have := Nat.div_mul_le_self off BSIZE
    rw [hic]
    by_cases hge : NDIRECT ≤ off / BSIZE ∧ (s.icache p).din.addr NDIRECT = 0
    · have := Nat.mul_le_mul_right BSIZE hge.1
      rw [if_neg fun h => hindirect hge.1 h.2.2, if_pos hge, if_pos ⟨hn, by omega, hge.2⟩]
    · split
      next hc =>
        have haddr : (s.icache p).din.addr NDIRECT = 0 := by
          rcases Nat.lt_or_ge (off / BSIZE) NDIRECT with hlt | hge
          · rw [← hdirect hlt, hc.2.2]
          · exact absurd hc.2.2 (hindirect hge)
        rw [if_pos ⟨hn, by omega, haddr⟩]
      next => exact Nat.zero_le _
  unfold State.needed State.needs
  by_cases hz : s.own p ((s.icache p).inum, slotOf (off / BSIZE)) = 0
  · have hmem : off / BSIZE ∈ (Finset.range MAXFILE).filter fun bn =>
        Touches off n bn ∧ s.own p ((s.icache p).inum, slotOf bn) = 0 := by
      simp only [Finset.mem_filter, Finset.mem_range]
      exact ⟨hbn, touches_first hn, hz⟩
    have hpos := Finset.card_pos.mpr ⟨_, hmem⟩
    rw [Finset.card_erase_of_mem hmem] at hcard
    rw [if_pos hz]
    omega
  · have := Finset.card_erase_le (s := (Finset.range MAXFILE).filter fun bn =>
        Touches off n bn ∧ s.own p ((s.icache p).inum, slotOf bn) = 0) (a := off / BSIZE)
    rw [if_neg hz]
    omega

theorem wp_writeLoop {src : List UInt8} {r : Nat} (h : Working s p) (hlen : src.length ≤ turns)
    (hfit : off + src.length ≤ MAXFILE * BSIZE)
    (hr : Room E s (r + span off src.length + s.due p))
    (hs : Spare E s (n + s.needed p off src.length)) :
    (writeLoop p turns off src).wp E
      (fun _ t => Written p off src s t ∧ Room E t r ∧ Spare E t n) s := by
  induction turns generalizing off src s with
  | zero =>
    obtain rfl : src = [] := eq_nil_of_length_eq_zero (Nat.le_zero.mp hlen)
    exact ⟨.nil h, hr.mono (by omega), hs.mono (by omega)⟩
  | succ turns ih =>
    unfold writeLoop
    split
    next h0 =>
      obtain rfl : src = [] := eq_nil_of_length_eq_zero h0
      exact ⟨.nil h, hr.mono (by omega), hs.mono (by omega)⟩
    next h0 =>
      have hpos : 0 < src.length := Nat.pos_of_ne_zero h0
      have hbn : off / BSIZE < MAXFILE := by
        rw [Nat.div_lt_iff_lt_mul (by decide)]
        omega
      have hc : 0 < chunk off src.length := chunk_pos hpos
      have hcn : chunk off src.length ≤ src.length := Nat.min_le_left ..
      have htake : (src.take (chunk off src.length)).length = chunk off src.length :=
        length_take_of_le hcn
      have hdrop : (src.drop (chunk off src.length)).length =
          src.length - chunk off src.length := length_drop ..
      rw [span_step hpos] at hr
      rw [wp_bind]
      have hneeds : s.needs p (off / BSIZE) ≤ s.needed p off src.length :=
        s.needs_le_needed hpos hbn
      refine wp_imp (wp_bmap (n := n + (s.needed p off src.length - s.needs p (off / BSIZE)))
        (r := r + span (off + chunk off src.length) (src.length - chunk off src.length)) h hbn
        (hr.mono (by omega)) (hs.mono (by omega))) ?_
      rintro b t ⟨hm, hspare, hroom⟩
      have hw := hm.grows.working h
      have hd : IsData t.sb b := by
        rw [← hm.addr]
        exact hw.isData_own (by rw [hm.addr]; exact hm.ne)
      have hwr : Written p off (src.take (chunk off src.length)) s _ :=
        hm.written h (by omega) (by rw [htake]; exact Nat.min_le_right ..)
      generalize hdata : (t.disk b).blit (off % BSIZE) (src.take (chunk off src.length)) = data
        at hwr
      have hroom' : Room E (t.write b data) (r + span (off + chunk off src.length)
          (src.length - chunk off src.length) + (t.write b data).due p) := by
        have hdue : (t.write b data).due p ≤ t.due p :=
          State.due_le rfl fun c hc => State.mem_lh_write.mpr (.inl hc)
        rcases hroom with hroom | ⟨hmem, hroom⟩
        · exact Room.write (hroom.mono (by omega))
        · exact (hroom.mono (by omega)).write_of_mem hmem
      have hspare' : Spare E (t.write b data) (n + (t.write b data).needed p
          (off + chunk off src.length) (src.length - chunk off src.length)) := by
        have hown : (t.write b data).own p = t.own p := by
          have := hw.own_write (by rw [hm.addr]; exact hm.ne :
            t.own p ((s.icache p).inum, slotOf (off / BSIZE)) ≠ 0) (slotOf_ne _) data
          rwa [hm.addr] at this
        have := hm.needed_le h hpos hown rfl
        exact (hspare.mono (by omega)).write hw.geometry hd
      simp only [bread, wp_bind, wp_gets]
      rw [hdata]
      refine wp_logWrite (k := 0) (by rcases hroom with hroom | ⟨-, hroom⟩ <;> exact hroom.mono (Nat.zero_le _)) ?_
      refine wp_imp (ih (hwr.grows.working h) (by omega) (by omega) (hdrop ▸ hroom')
        (hdrop ▸ hspare')) ?_
      rintro _ u ⟨hu, hroom, hspare⟩
      refine ⟨?_, hroom, hspare⟩
      rw [← htake] at hu
      have := hwr.append hu
      rwa [htake, take_append_drop] at this

end

end Xv6.Fs
