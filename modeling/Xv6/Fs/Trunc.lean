import Xv6.Fs.Nodes

/-!
# Freeing an inode

`itrunc` gives the blocks of an inode back one at a time. The entries of the indirect block stay as
they are while the blocks they name are freed, so on the way the places that still hold a block are
tracked apart from the disk (`Trunc`). When the inode is written back without its addresses and
type, the invariant holds again (`wp_ifree`).
-/

namespace Xv6.Fs

open State

/-- The state after `bfree`. -/
def State.free (s : State) (b : Nat) : State :=
  s.write (bblock s.sb b) ((s.disk (bblock s.sb b)).clearBit (b % BPB))

/-- The blocks in the places of all inodes, without those in the places `K` of the inode in entry
`p`. -/
def State.rest (s : State) (p : Ip) (K : Nat → Prop) [DecidablePred K] (x : Nat × Nat) : Nat :=
  if x.1 = (s.icache p).inum ∧ K x.2 then 0 else s.own p x

/-- The inode in entry `p` of `s` is being freed, and its places `K` have given their blocks back. -/
structure Trunc (p : Ip) (s : State) (K : Nat → Prop) [DecidablePred K] (t : State) : Prop where
  sb : t.sb = s.sb
  super : t.disk 1 = s.disk 1
  icache : ∃ d, t.icache = (s.setDin p d).icache
  table : ∀ j < s.sb.ninodes.toNat, j ≠ (s.icache p).inum →
    dinodeAt s.sb t.disk j = dinodeAt s.sb s.disk j
  data : ∀ x, IsData s.sb x → t.disk x = s.disk x
  reserved : ∀ b < dataStart s.sb, blockBit s.sb t.disk b = true
  exact : Exact (IsData s.sb) (s.rest p K) (blockBit s.sb t.disk)

section
variable {s t u : State} {p q : Ip} {K K' : Nat → Prop} [DecidablePred K] [DecidablePred K']
  {b k : Nat} {d : Dinode} {Q : Unit → State → Prop}

theorem wp_bfree (hsup : Superblock.load (s.disk 1) = s.sb) (hQ : Q () (s.free b)) :
    (bfree b).wp (fun _ => True) Q s := by
  have hs : { s with sb := Superblock.load (s.disk 1) } = s := by rw [hsup]
  simp only [bfree, readsb, wp_bind, wp_modify, wp_gets, hs]
  split
  · exact trivial
  · exact wp_logWrite (k := 0) .of_true hQ

@[simp] theorem State.free_icache : (s.free b).icache = s.icache := rfl

theorem State.free_disk : (s.free b).disk = markFree s.sb s.disk b := write_disk

theorem State.free_disk_of_ne (h : c ≠ bblock s.sb b) : (s.free b).disk c = s.disk c := by
  rw [free_disk, markFree, update_of_ne h]

theorem State.rest_of_not (h : ¬K k) :
    s.rest p K ((s.icache p).inum, k) = s.own p ((s.icache p).inum, k) :=
  if_neg fun hk => h hk.2

theorem State.rest_insert (hK : ∀ j, K' j ↔ j = k ∨ K j) (x : Nat × Nat) :
    s.rest p K' x = if x = ((s.icache p).inum, k) then 0 else s.rest p K x := by
  obtain ⟨i, j⟩ := x
  simp only [rest, Prod.mk.injEq, hK]
  split_ifs <;> first | rfl | tauto

theorem State.rest_congr (h : ∀ j, K' j → ¬K j → s.own p ((s.icache p).inum, j) = 0)
    (h' : ∀ j, K j → K' j) (x : Nat × Nat) : s.rest p K' x = s.rest p K x := by
  obtain ⟨i, j⟩ := x
  simp only [rest]
  split_ifs with h1 h2 h2
  · rfl
  · obtain ⟨rfl, hj⟩ := h1
    exact (h j hj fun hk => h2 ⟨rfl, hk⟩).symm
  · exact absurd ⟨h2.1, h' j h2.2⟩ h1
  · rfl

theorem Pending.trunc (h : Pending s p) (hK : ∀ k, ¬K k) : Trunc p s K s where
  sb := rfl
  super := rfl
  icache := ⟨_, (update_eq_self p s.icache).symm⟩
  table := fun _ _ _ => rfl
  data := fun _ _ => rfl
  reserved := h.alloc.reserved
  exact := h.alloc.exact.congr (fun _ => if_neg fun hx => hK _ hx.2) fun _ _ => rfl

/-- The places that gave nothing back were empty. -/
theorem Trunc.congr (h : Trunc p s K t)
    (hK : ∀ j, K' j → ¬K j → s.own p ((s.icache p).inum, j) = 0) (hK' : ∀ j, K j → K' j) :
    Trunc p s K' t :=
  { h with exact := h.exact.congr (rest_congr hK hK') fun _ _ => rfl }

theorem Trunc.super_eq (h : Trunc p s K t) (hp : Pending s p) :
    Superblock.load (t.disk 1) = t.sb := by
  rw [h.super, hp.super, h.sb]

theorem Trunc.free (h : Trunc p s K t) (g : Geometry s.sb)
    (hb : s.own p ((s.icache p).inum, k) = b) (hb0 : b ≠ 0) (hk : ¬K k)
    (hK : ∀ j, K' j ↔ j = k ∨ K j) : Trunc p s K' (t.free b) := by
  have hrest : s.rest p K ((s.icache p).inum, k) = b := (rest_of_not hk).trans hb
  have hd : IsData s.sb b := hrest ▸ h.exact.pool (hrest ▸ hb0)
  have hbit : ∀ c, blockBit s.sb (t.free b).disk c =
      (!decide (c = b) && blockBit s.sb t.disk c) := fun c => by
    rw [free_disk, h.sb, blockBit_markFree]
  have hne : bblock t.sb b = bblock s.sb b := by rw [h.sb]
  refine ⟨h.sb, ?_, h.icache, fun j hj hji => ?_, fun c hc => ?_, fun c hc => ?_, ?_⟩
  · rw [free_disk_of_ne (hne ▸ g.one_ne_bblock), h.super]
  · rw [← h.table j hj hji]
    exact dinodeAt_congr (free_disk_of_ne (hne ▸ g.iblock_ne_bblock hj))
  · rw [free_disk_of_ne (hne ▸ (g.bblock_ne_data hd.2 hc).symm), h.data c hc]
  · have hcb : c ≠ b := fun heq => absurd hd.1 (by omega)
    rw [hbit, h.reserved c hc, decide_eq_false hcb]
    rfl
  · exact h.exact.give g.not_isData_zero (hrest ▸ hb0) (rest_insert hK) fun c _ => by
      rw [hbit, hrest]

theorem Trunc.setDin (h : Trunc p s K t) : Trunc p s K (t.setDin p d) := by
  obtain ⟨d', hd'⟩ := h.icache
  refine { h with icache := ⟨d, ?_⟩ }
  simp only [State.setDin, hd', update_idem, update_self]

theorem Trunc.inum (h : Trunc p s K t) : (t.icache p).inum = (s.icache p).inum := by
  obtain ⟨d, hd⟩ := h.icache
  rw [hd, setDin_self]

theorem Trunc.flush (h : Trunc p s K t) (hw : Working s p) : Trunc p s K (t.flush p) := by
  have hib : iblock t.sb (t.icache p).inum = iblock s.sb (s.icache p).inum := by
    rw [h.sb, h.inum]
  have hbit : ∀ b, blockBit s.sb (t.flush p).disk b = blockBit s.sb t.disk b := fun b =>
    blockBit_congr (flush_disk_of_ne (hib ▸ (hw.geometry.iblock_ne_bblock hw.inum).symm))
  refine ⟨h.sb, ?_, h.icache, fun j hj hji => ?_, fun c hc => ?_, fun c hc => ?_, ?_⟩
  · rw [flush_disk_of_ne (hib ▸ hw.geometry.one_ne_iblock), h.super]
  · have := congrFun (dinodeAt_flush (s := t) (p := p)) j
    rw [view_of_ne (by rw [h.inum]; exact hji), h.sb] at this
    rw [this, h.table j hj hji]
  · rw [flush_disk_of_ne (hib ▸ (hw.geometry.iblock_ne_data hw.inum hc).symm), h.data c hc]
  · rw [hbit, h.reserved c hc]
  · exact h.exact.congr (fun _ => rfl) fun b _ => hbit b

/-! ## The steps of `itrunc` -/

theorem wp_freeAddr (hp : Pending s p) (h : Trunc p s K t) (hk : k ≤ NDIRECT) (hnk : ¬K k)
    (haddr : (t.icache p).din.addr k = (s.icache p).din.addr k) (hK : ∀ j, K' j ↔ j = k ∨ K j) :
    (freeAddr p k).wp (fun _ => True) (fun _ u => Trunc p s K' u ∧
      ∀ j, j ≠ k → (u.icache p).din.addr j = (t.icache p).din.addr j) t := by
  have hown : s.own p ((s.icache p).inum, k) = (t.icache p).din.addr k := by
    rw [hp.working.own_of_le hk, haddr]
  simp only [freeAddr, wp_bind, wp_gets]
  refine wp_when (fun hnz => ?_) fun hz => ⟨h.congr (fun j hj hnj => ?_) fun j hj => ?_, ?_⟩
  · rw [wp_bind]
    refine wp_bfree (h.super_eq hp) ?_
    rw [wp_modifyDin]
    refine ⟨(h.free hp.geometry hown hnz hnk hK).setDin, fun j hj => ?_⟩
    rw [setDin_self, free_icache, Dinode.addr_setAddr hk (by decide), if_neg hj]
  · rw [((hK j).mp hj).resolve_right hnj, hown]
    exact not_not.mp hz
  · exact (hK j).mpr (.inr hj)
  · exact fun _ _ => rfl

theorem wp_freeEntries (hp : Pending s p) (h : Trunc p s (· < NDIRECT) t)
    (haddr : (t.icache p).din.addr NDIRECT = (s.icache p).din.addr NDIRECT) :
    (freeEntries p).wp (fun _ => True) (fun _ u => Trunc p s (· ≠ NDIRECT) u ∧
      u.icache = t.icache) t := by
  simp only [freeEntries, wp_bind, wp_gets, id]
  have hw := hp.working
  have hind := hw.own_of_le (Nat.le_refl NDIRECT)
  have hlast : ∀ j, j ≠ NDIRECT → ¬(j < NDIRECT ∨ NDIRECT < j ∧ j < NDIRECT + 1 + NINDIRECT) →
      s.own p ((s.icache p).inum, j) = 0 := fun j hj hout =>
    own_eq_zero_of_gt (by omega)
  refine wp_when (fun hnz => ?_) fun hz => ⟨h.congr (fun j hj hout => ?_) fun j hj => ?_, rfl⟩
  · have hdata : t.disk ((t.icache p).din.addr NDIRECT) = s.disk ((t.icache p).din.addr NDIRECT) := by
      refine h.data _ ?_
      rw [haddr, ← hind]
      refine hw.isData_own ?_
      rw [hind, ← haddr]
      exact hnz
    -- after `j` turns the first `j` entries have given their blocks back
    have hstart : Trunc p s (fun m => m < NDIRECT ∨ NDIRECT < m ∧ m < NDIRECT + 1 + 0) t :=
      h.congr (fun j hj hout => by omega) fun j hj => .inl hj
    -- a closed number of turns would be unrolled
    generalize hN : NINDIRECT = N at *
    refine wp_imp (wp_times
      (I := fun j u => Trunc p s (fun m => m < NDIRECT ∨ NDIRECT < m ∧ m < NDIRECT + 1 + j) u ∧
        u.icache = t.icache) ⟨hstart, rfl⟩ fun j u hj hu => ?_) fun _ u hu =>
          ⟨hu.1.congr hlast fun j hj => by omega, hu.2⟩
    rw [← hN] at hj
    have hentry : s.own p ((s.icache p).inum, NDIRECT + 1 + j) =
        ((t.disk ((t.icache p).din.addr NDIRECT)).word32 (4 * j)).toNat := by
      rw [hdata, haddr]
      exact hw.own_entry (haddr ▸ hnz) hj
    refine wp_when (fun hne => wp_bfree (hu.1.super_eq hp) ⟨?_, hu.2⟩)
      fun he => ⟨hu.1.congr (fun m hm hout => ?_) fun m hm => by omega, hu.2⟩
    · refine hu.1.free hp.geometry hentry (fun h0 => hne ?_) (by omega) fun m => by omega
      exact UInt32.toNat_inj.mp h0
    · obtain rfl : m = NDIRECT + 1 + j := by omega
      rw [hentry, not_not.mp he]
      rfl
  · have hlt : NDIRECT < j := by omega
    refine own_eq_zero_of_indirect hlt (hind.trans ?_)
    rw [← haddr]
    exact not_not.mp hz
  · exact Nat.ne_of_lt hj

theorem wp_itrunc (hp : Pending s p) :
    (itrunc p).wp (fun _ => True) (fun _ t => Trunc p s (fun _ => True) t) s := by
  have hw := hp.working
  simp only [itrunc, wp_bind]
  refine wp_imp (wp_times
    (I := fun k t => Trunc p s (· < k) t ∧
      ∀ j, k ≤ j → (t.icache p).din.addr j = (s.icache p).din.addr j)
    ⟨hp.trunc (fun k => Nat.not_lt_zero k), fun _ _ => rfl⟩ fun k t hk ht => ?_) fun _ t ht => ?_
  · refine wp_imp (wp_freeAddr hp ht.1 (Nat.le_of_lt hk) (Nat.lt_irrefl k) (ht.2 k (Nat.le_refl k))
      fun j => by omega) fun _ u hu => ⟨hu.1, fun j hj => ?_⟩
    rw [hu.2 j (by omega), ht.2 j (by omega)]
  · refine wp_seq (wp_freeEntries hp ht.1 (ht.2 _ (Nat.le_refl _))) fun _ u hu => ?_
    have hall : ∀ j, True ↔ j = NDIRECT ∨ j ≠ NDIRECT := fun j => by simp only [true_iff]; omega
    refine wp_seq (wp_freeAddr hp hu.1 (Nat.le_refl _) (fun h => h rfl)
      (by rw [hu.2, ht.2 _ (Nat.le_refl _)]) hall) fun _ v hv => ?_
    rw [wp_bind, wp_modifyDin]
    exact wp_iupdate (k := 0) .of_true (hv.1.setDin.flush hw)

/-! ## `ifree` -/

theorem Trunc.inv (h : Trunc p s (fun _ => True) t) (hinv : FsInv s) (hv : Valid s p)
    (htype : (dinodeAt s.sb t.disk (s.icache p).inum).type = 0)
    (hicache : u.icache = update t.icache p { t.icache p with valid := false })
    (hsb : u.sb = t.sb) (hdisk : u.disk = t.disk) : FsInv u := by
  have hp := hinv.pending hv
  obtain ⟨d, hd⟩ := h.icache
  have hown : own s.sb t.disk (dinodeAt s.sb t.disk) = s.rest p fun _ => True := by
    funext x
    by_cases hx : x.1 = (s.icache p).inum
    · rw [State.rest, if_pos ⟨hx, trivial⟩, own, if_neg]
      exact fun h => h.2 (hx ▸ htype)
    · rw [State.rest, if_neg fun h => hx h.1, State.own, own, own, view_of_ne hx]
      by_cases hlt : x.1 < s.sb.ninodes.toNat
      · rw [h.table _ hlt hx]
        split
        next hal =>
          refine slotAddr_congr fun hnz => h.data _ ?_
          have : own s.sb s.disk _ (_, NDIRECT) = _ := own_of_le hlt hal.2 (Nat.le_refl NDIRECT)
          exact this ▸ hinv.alloc.exact.pool (this ▸ hnz)
        next => rfl
      · rw [if_neg fun h => hlt h.1, if_neg fun h => hlt h.1]
  have hent : ∀ q, u.icache q =
      if q = p then { s.icache p with din := d, valid := false } else s.icache q := fun q => by
    rw [hicache, hd, setDin_self]
    by_cases hq : q = p
    · rw [if_pos hq, hq, update_self]
    · rw [if_neg hq, update_of_ne hq, setDin_of_ne hq]
  have hinum : ∀ q, (u.icache q).inum = (s.icache q).inum := fun q => by
    rw [hent]
    split
    next hq => rw [hq]
    next => rfl
  have href : ∀ q, (u.icache q).ref = (s.icache q).ref := fun q => by
    rw [hent]
    split
    next hq => rw [hq]
    next => rfl
  have hvalid : ∀ q, Valid u q → q ≠ p ∧ Valid s q ∧ u.icache q = s.icache q := fun q hq => by
    have hqp : q ≠ p := by
      rintro rfl
      have := hq.2
      rw [hent, if_pos rfl] at this
      cases this
    have := hent q
    rw [if_neg hqp] at this
    exact ⟨hqp, by rwa [Valid, this] at hq, this⟩
  refine ⟨?_, ?_, ?_, ?_, ⟨fun q hq => ?_, fun q _ hq => ?_, fun q hq => ?_, fun q r hq hr heq => ?_⟩⟩
  · rw [hsb, h.sb]
    exact hinv.geometry
  · rw [hsb, hdisk]
    exact h.super_eq hp
  · rw [hsb, hdisk, h.sb]
    exact ⟨hown ▸ h.exact, h.reserved⟩
  · rw [hsb, hdisk, h.sb]
    intro j hj hty bn hbn
    have hji : j ≠ (s.icache p).inum := fun hji => hty (hji ▸ htype)
    rw [h.table j hj hji] at hty hbn
    rw [hown, State.rest, if_neg fun h => hji h.1, State.own, hinv.view_eq hv]
    exact hinv.full j hj hty bn hbn
  · rw [href] at hq
    rw [hinum, hsb, h.sb]
    exact hinv.cached.inum q hq
  · obtain ⟨hqp, hq, heq⟩ := hvalid q hq
    have hne : (s.icache q).inum ≠ (s.icache p).inum := fun he =>
      hqp (hinv.cached.unique q p hq.1 hv.1 he)
    rw [heq, hsb, hdisk, h.sb, h.table _ (hinv.cached.inum q hq.1) hne]
    exact hinv.cached.synced q (Option.some_ne_none q) hq
  · obtain ⟨-, hq, heq⟩ := hvalid q hq
    rw [heq]
    exact hinv.cached.type q hq
  · rw [href] at hq hr
    rw [hinum, hinum] at heq
    exact hinv.cached.unique q r hq hr heq

theorem Trunc.node_eq (h : Trunc p s (fun _ => True) t) (hinv : FsInv s)
    (hj : j ≠ (s.icache p).inum) : t.node j = s.node j := by
  rw [State.node, State.node, nodeOf, nodeOf, h.sb]
  split
  next hlt =>
    have hF := h.table j hlt hj
    have hown : ∀ k, own s.sb t.disk (dinodeAt s.sb t.disk) (j, k) =
        own s.sb s.disk (dinodeAt s.sb s.disk) (j, k) := fun k => by
      rw [own, own]
      simp only [hF]
      split
      next hal =>
        refine slotAddr_congr fun hnz => h.data _ ?_
        have : own s.sb s.disk _ (_, NDIRECT) = _ := own_of_le hlt hal.2 (Nat.le_refl NDIRECT)
        exact this ▸ hinv.alloc.exact.pool (this ▸ hnz)
      next => rfl
    rw [hF]
    congr 1
    refine List.map_congr_left fun x _ => ?_
    rw [fileByte, fileByte, hown, blockOf, blockOf]
    split
    · rfl
    next hnz => rw [h.data _ (hinv.alloc.exact.pool hnz)]
  next => rfl

/-- What `ifree` did. -/
structure Freed (p : Ip) (s t : State) : Prop where
  inv : FsInv t
  sb : t.sb = s.sb
  icache : ∃ d, t.icache = Function.update s.icache p { s.icache p with din := d, valid := false }
  type : (t.node (s.icache p).inum).type = 0
  node : ∀ j, j ≠ (s.icache p).inum → t.node j = s.node j

theorem wp_ifree (hinv : FsInv s) (hv : Valid s p) :
    (ifree p).wp (fun _ => True) (fun _ t => Freed p s t) s := by
  have hp := hinv.pending hv
  simp only [ifree, wp_bind]
  refine wp_imp (wp_itrunc hp) fun _ t ht => ?_
  rw [wp_bind, wp_modifyDin, wp_bind]
  refine wp_iupdate (k := 0) .of_true ?_
  generalize hd : { (t.icache p).din with type := 0 } = d
  rw [modifyInode, wp_modify, setAt_eq_update]
  have hu : Trunc p s (fun _ => True) ((t.setDin p d).flush p) := ht.setDin.flush hp.working
  have htype : (dinodeAt s.sb ((t.setDin p d).flush p).disk (s.icache p).inum).type = 0 := by
    have := congrFun (dinodeAt_flush (s := t.setDin p d) (p := p)) (s.icache p).inum
    rw [setDin_sb, ht.sb, view_setDin, ht.inum, update_self] at this
    rw [this, ← hd]
  obtain ⟨d', hd'⟩ := hu.icache
  refine ⟨hu.inv hinv hv htype rfl rfl rfl, hu.sb, ⟨d', ?_⟩, ?_, fun j hj => hu.node_eq hinv hj⟩
  · rw [hd', setDin_self]
    exact update_idem ..
  · have hn : ((t.setDin p d).flush p).node (s.icache p).inum =
        nodeOf s.sb ((t.setDin p d).flush p).disk
          (dinodeAt s.sb ((t.setDin p d).flush p).disk) (s.icache p).inum := by
      rw [State.node, hu.sb]
    have hi := hp.working.inum
    change (((t.setDin p d).flush p).node (s.icache p).inum).type = 0
    rw [hn, nodeOf, if_pos hi]
    exact htype

end

end Xv6.Fs
