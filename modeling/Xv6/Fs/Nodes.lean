import Xv6.Fs.Content

/-!
# Files as byte strings

What the file system stores is a table of nodes: a type, device numbers, a link count and a byte
string. The invariant `FsInv` says that the blocks are allocated as they should be, that no file has
a hole, and that the valid entries of the inode cache are copies of the inodes on the disk. While an
inode is being changed its entry is ahead of the disk (`Pending`), and `iupdate` ends that.

Under the invariant `readi` reads the byte string and changes nothing, and `writei` writes to it.
-/

namespace Xv6.Fs

open State
open List

/-- What a file is. A free inode has type `0`. -/
structure Node where
  type : UInt16
  major : UInt16
  minor : UInt16
  nlink : UInt16
  data : List UInt8

def Node.free : Node := ⟨0, 0, 0, 0, []⟩

/-- The bytes `src` in place of those from `off` on. -/
def writeAt (data : List UInt8) (off : Nat) (src : List UInt8) : List UInt8 :=
  data.take off ++ src ++ data.drop (off + src.length)

def nodeOf (sb : Superblock) (disk : Disk) (F : Nat → Dinode) (i : Nat) : Node :=
  if i < sb.ninodes.toNat then
    ⟨(F i).type, (F i).major, (F i).minor, (F i).nlink,
      (List.range (F i).size.toNat).map (fileByte sb disk F i)⟩
  else .free

/-- The nodes on the disk. -/
def State.node (s : State) : Nat → Node := nodeOf s.sb s.disk (dinodeAt s.sb s.disk)

/-- The nodes, with the copy in entry `p` of the cache in place of the one on the disk. -/
def State.viewNode (s : State) (p : Ip) : Nat → Node := nodeOf s.sb s.disk (view s p)

/-- Entry `p` of the cache is in use and holds a copy of its inode. -/
def Valid (s : State) (p : Ip) : Prop := 0 < (s.icache p).ref ∧ (s.icache p).valid = true

instance : Decidable (Valid s p) := inferInstanceAs (Decidable (_ ∧ _))

/-- Every block of every file is there, up to its size. -/
def NoHoles (sb : Superblock) (disk : Disk) (F : Nat → Dinode) : Prop :=
  ∀ i < sb.ninodes.toNat, (F i).type ≠ 0 → ∀ bn, bn * BSIZE < (F i).size.toNat →
    own sb disk F (i, slotOf bn) ≠ 0

/-- The entries of the cache other than `p` are copies of the inodes on the disk. -/
structure CachedBut (p : Option Ip) (s : State) : Prop where
  inum : ∀ q, 0 < (s.icache q).ref → (s.icache q).inum < s.sb.ninodes.toNat
  synced : ∀ q, some q ≠ p → Valid s q → (s.icache q).din = dinodeAt s.sb s.disk (s.icache q).inum
  type : ∀ q, Valid s q → (s.icache q).din.type ≠ 0
  unique : ∀ q r, 0 < (s.icache q).ref → 0 < (s.icache r).ref →
    (s.icache q).inum = (s.icache r).inum → q = r

structure FsInv (s : State) : Prop where
  geometry : Geometry s.sb
  super : Superblock.load (s.disk 1) = s.sb
  alloc : Alloc s.sb s.disk (dinodeAt s.sb s.disk)
  full : NoHoles s.sb s.disk (dinodeAt s.sb s.disk)
  cached : CachedBut none s

/-- The invariant while entry `p` is ahead of the disk. -/
structure Pending (s : State) (p : Ip) : Prop where
  geometry : Geometry s.sb
  super : Superblock.load (s.disk 1) = s.sb
  valid : Valid s p
  alloc : Alloc s.sb s.disk (view s p)
  full : NoHoles s.sb s.disk (view s p)
  cached : CachedBut (some p) s

section
variable {s t u : State} {p q : Ip} {d : Dinode} {dev : DevSw} {E : Fault → Prop}

theorem Pending.working (h : Pending s p) : Working s p where
  geometry := h.geometry
  inum := h.cached.inum p h.valid.1
  type := h.cached.type p h.valid
  alloc := h.alloc

theorem view_eq_of_synced (h : (s.icache p).din = dinodeAt s.sb s.disk (s.icache p).inum) :
    view s p = dinodeAt s.sb s.disk := by
  rw [view, h, update_eq_self]

theorem FsInv.view_eq (h : FsInv s) (hv : Valid s p) : view s p = dinodeAt s.sb s.disk :=
  view_eq_of_synced (h.cached.synced p nofun hv)

theorem FsInv.pending (h : FsInv s) (hv : Valid s p) : Pending s p where
  geometry := h.geometry
  super := h.super
  valid := hv
  alloc := h.view_eq hv ▸ h.alloc
  full := h.view_eq hv ▸ h.full
  cached := { h.cached with synced := fun q _ => h.cached.synced q nofun }

theorem FsInv.viewNode_eq (h : FsInv s) (hv : Valid s p) : s.viewNode p = s.node := by
  rw [State.viewNode, h.view_eq hv, State.node]

/-- The block after the largest file would have to be there. -/
theorem FsInv.size_le (h : FsInv s) (hi : i < s.sb.ninodes.toNat)
    (htype : (dinodeAt s.sb s.disk i).type ≠ 0) :
    (dinodeAt s.sb s.disk i).size.toNat ≤ MAXFILE * BSIZE := by
  by_contra hlt
  exact Nat.lt_irrefl _ (lt_maxfile_of_own (h.full i hi htype MAXFILE (Nat.not_le.mp hlt)))

theorem Pending.done (h : Pending s p)
    (hsync : (s.icache p).din = dinodeAt s.sb s.disk (s.icache p).inum) : FsInv s where
  geometry := h.geometry
  super := h.super
  alloc := view_eq_of_synced hsync ▸ h.alloc
  full := view_eq_of_synced hsync ▸ h.full
  cached.inum := h.cached.inum
  cached.synced := fun q _ hq => by
    by_cases hqp : q = p
    · rw [hqp, hsync]
    · exact h.cached.synced q (by simpa using hqp) hq
  cached.type := h.cached.type
  cached.unique := h.cached.unique

/-! ## `iupdate` -/

/-- The state after `iupdate`. -/
def State.flush (s : State) (p : Ip) : State :=
  s.write (iblock s.sb (s.icache p).inum)
    ((s.icache p).din.store (s.disk (iblock s.sb (s.icache p).inum)) ((s.icache p).inum % IPB))

theorem wp_iupdate {Q : Unit → State → Prop} (hr : Room E s k)
    (hQ : Q () (s.flush p)) : (iupdate p).wp E Q s := by
  simp only [iupdate, wp_bind]
  exact wp_logWrite hr hQ

@[simp] theorem State.flush_sb : (s.flush p).sb = s.sb := rfl

@[simp] theorem State.flush_icache : (s.flush p).icache = s.icache := rfl

theorem dinodeAt_flush : dinodeAt s.sb (s.flush p).disk = view s p := by
  funext j
  rw [State.flush, write_disk]
  rw [view, update_apply]
  exact dinodeAt_putDinode ..

theorem flush_disk_of_ne (h : b ≠ iblock s.sb (s.icache p).inum) :
    (s.flush p).disk b = s.disk b := by
  rw [State.flush, write_disk, update_of_ne h]

theorem Working.own_flush (h : Working s p) :
    own s.sb (s.flush p).disk (view s p) = s.own p := by
  refine own_congr (fun _ _ => rfl) fun i hi => ?_
  exact flush_disk_of_ne (h.geometry.iblock_ne_data h.inum (h.alloc.exact.pool hi)).symm

theorem Working.blockOf_flush (h : Working s p) (x : Nat × Nat) :
    blockOf (s.flush p).disk (s.own p x) = blockOf s.disk (s.own p x) := by
  unfold blockOf
  split
  · rfl
  next hx => exact flush_disk_of_ne (h.geometry.iblock_ne_data h.inum (h.isData_own hx)).symm

theorem Working.blockBit_flush (h : Working s p) (b : Nat) :
    blockBit s.sb (s.flush p).disk b = blockBit s.sb s.disk b :=
  blockBit_congr (flush_disk_of_ne (h.geometry.iblock_ne_bblock h.inum).symm)

theorem Spare.flush (h : Spare E s n) (g : Geometry s.sb)
    (hi : (s.icache p).inum < s.sb.ninodes.toNat) : Spare E (s.flush p) n := by
  refine h.imp_right fun hn => Nat.le_trans hn (Nat.le_of_eq ?_)
  refine congrArg Finset.card (Finset.filter_congr fun b _ => ?_)
  rw [flush_sb, blockBit_congr (flush_disk_of_ne (g.iblock_ne_bblock hi).symm)]

theorem Pending.flush (h : Pending s p) : FsInv (s.flush p) where
  geometry := h.geometry
  super := by
    rw [flush_disk_of_ne h.geometry.one_ne_iblock]
    exact h.super
  alloc := by
    rw [flush_sb, dinodeAt_flush]
    refine ⟨?_, fun b hb => ?_⟩
    · rw [h.working.own_flush]
      exact h.alloc.exact.congr (fun _ => rfl) fun b _ => h.working.blockBit_flush b
    · rw [h.working.blockBit_flush]
      exact h.alloc.reserved b hb
  full := by
    rw [flush_sb, dinodeAt_flush]
    intro i hi hty bn hbn
    rw [h.working.own_flush]
    exact h.full i hi hty bn hbn
  cached.inum := h.cached.inum
  cached.synced := fun q _ hq => by
    rw [flush_sb, dinodeAt_flush, flush_icache]
    by_cases hqp : q = p
    · rw [hqp, view_self]
    · have hne : (s.icache q).inum ≠ (s.icache p).inum := fun heq =>
        hqp (h.cached.unique q p hq.1 h.valid.1 heq)
      rw [view_of_ne hne]
      exact h.cached.synced q (by simpa using hqp) hq
  cached.type := h.cached.type
  cached.unique := h.cached.unique

theorem Pending.node_flush (h : Pending s p) : (s.flush p).node = s.viewNode p := by
  funext i
  rw [State.node, flush_sb, dinodeAt_flush, State.viewNode, nodeOf, nodeOf]
  split
  next hi =>
    congr 1
    refine map_congr_left fun x _ => ?_
    rw [fileByte, fileByte, h.working.own_flush, h.working.blockOf_flush, State.own]
  next => rfl

/-! ## Changes of the copy -/

/-- The cache entries differ in their copies at most. -/
def SameTags (s t : State) : Prop := ∀ q, t.icache q = { s.icache q with din := (t.icache q).din }

theorem SameTags.trans (h : SameTags s t) (h' : SameTags t u) : SameTags s u := fun q => by
  rw [h' q, h q]

theorem sameTags_setDin : SameTags s (s.setDin p d) := fun q => by
  by_cases hq : q = p
  · rw [hq, setDin_self]
  · rw [setDin_of_ne hq]

theorem SameTags.valid (h : SameTags s t) : Valid t q ↔ Valid s q := by
  rw [Valid, h q, Valid]

theorem Grows.sameTags (h : Grows p K s t) : SameTags s t := by
  obtain ⟨addrs, ha⟩ := h.icache
  intro q
  rw [ha]
  exact sameTags_setDin q

theorem Grows.view (h : Grows p K s t) (hj : j < s.sb.ninodes.toNat) :
    ∃ addrs, view t p j = { view s p j with addrs } := by
  by_cases hji : j = (s.icache p).inum
  · obtain ⟨addrs, ha⟩ := h.icache
    refine ⟨addrs, ?_⟩
    rw [hji, view_self, ← h.inum, view_self, ha, setDin_self]
  · refine ⟨(Fs.view s p j).addrs, ?_⟩
    rw [view_of_ne (by rw [h.inum]; exact hji), view_of_ne hji, h.sb, h.table j hj]

theorem Pending.grows (h : Pending s p) (hg : Grows p K s t) : Pending t p where
  geometry := hg.sb ▸ h.geometry
  super := by rw [hg.super, h.super, hg.sb]
  valid := hg.sameTags.valid.mpr h.valid
  alloc := by rw [hg.sb]; exact hg.alloc
  full := by
    rw [hg.sb]
    intro j hj hty bn hbn
    obtain ⟨addrs, ha⟩ := hg.view hj
    rw [ha] at hty hbn
    have hnz := h.full j hj hty bn hbn
    have := hg.old hnz
    rw [State.own, hg.sb] at this
    rw [this]
    exact hnz
  cached.inum := fun q hq => by
    rw [hg.sameTags q] at hq ⊢
    rw [hg.sb]
    exact h.cached.inum q hq
  cached.synced := fun q hqp hq => by
    obtain ⟨addrs, ha⟩ := hg.icache
    have hq' := hg.sameTags.valid.mp hq
    rw [ha, setDin_of_ne (by simpa using hqp), hg.sb, hg.table _ (h.cached.inum q hq'.1)]
    exact h.cached.synced q hqp hq'
  cached.type := fun q hq => by
    have hq' := hg.sameTags.valid.mp hq
    by_cases hqp : q = p
    · rw [hqp, hg.type]
      exact h.cached.type p h.valid
    · obtain ⟨addrs, ha⟩ := hg.icache
      rw [ha, setDin_of_ne hqp]
      exact h.cached.type q hq'
  cached.unique := fun q r hq hr heq => by
    rw [hg.sameTags q] at hq heq
    rw [hg.sameTags r] at hr heq
    exact h.cached.unique q r hq hr heq

theorem view_setDin : view (s.setDin p d) p = update (view s p) (s.icache p).inum d := by
  rw [view, setDin_self, view, update_idem]
  rfl

theorem own_setDin (htype : d.type = (s.icache p).din.type)
    (haddrs : d.addrs = (s.icache p).din.addrs) : (s.setDin p d).own p = s.own p := by
  rw [State.own, view_setDin]
  refine own_congr_addrs fun i _ => ?_
  by_cases hi : i = (s.icache p).inum
  · rw [hi, update_self, view_self]
    exact ⟨htype, haddrs⟩
  · rw [update_of_ne hi]
    exact ⟨rfl, rfl⟩

theorem Pending.setDin (h : Pending s p) (htype : d.type = (s.icache p).din.type)
    (haddrs : d.addrs = (s.icache p).din.addrs)
    (hsize : ∀ bn, bn * BSIZE < d.size.toNat → s.own p ((s.icache p).inum, slotOf bn) ≠ 0) :
    Pending (s.setDin p d) p := by
  have hown := own_setDin htype haddrs
  have htags : SameTags s (s.setDin p d) := sameTags_setDin
  refine ⟨h.geometry, h.super, htags.valid.mpr h.valid, ⟨?_, h.alloc.reserved⟩, ?_,
    ⟨fun q hq => ?_, fun q hqp hq => ?_, fun q hq => ?_, fun q r hq hr heq => ?_⟩⟩
  · exact h.alloc.exact.congr (congrFun hown) fun _ _ => rfl
  · intro j hj hty bn hbn
    have := congrFun hown (j, slotOf bn)
    rw [State.own] at this
    rw [this]
    rw [view_setDin] at hty hbn
    by_cases hji : j = (s.icache p).inum
    · subst hji
      rw [update_self] at hbn
      exact hsize bn hbn
    · rw [update_of_ne hji] at hty hbn
      exact h.full j hj hty bn hbn
  · rw [htags q] at hq ⊢
    exact h.cached.inum q hq
  · rw [setDin_of_ne (by simpa using hqp)]
    exact h.cached.synced q hqp (htags.valid.mp hq)
  · by_cases hqp : q = p
    · rw [hqp, setDin_self]
      exact fun h0 => h.cached.type p h.valid (htype ▸ h0)
    · rw [setDin_of_ne hqp]
      exact h.cached.type q (htags.valid.mp hq)
  · rw [htags q] at hq heq
    rw [htags r] at hr heq
    exact h.cached.unique q r hq hr heq

/-! ## `readi` -/

theorem uint32_add_lt_iff {a b : UInt32} : a + b < a ↔ 2 ^ 32 ≤ a.toNat + b.toNat := by
  have := b.toNat_lt
  rw [UInt32.lt_iff_toNat_lt, UInt32.toNat_add]
  omega

/-- What `readi` returns for a file with the bytes `data`. -/
def readResult (data : List UInt8) (off n : UInt32) : Int × List UInt8 :=
  if data.length < off.toNat ∨ 2 ^ 32 ≤ off.toNat + n.toNat then (-1, [])
  else (((data.drop off.toNat).take n.toNat).length, (data.drop off.toNat).take n.toNat)

theorem drop_take_map_range {f : Nat → UInt8} {size off n : Nat} :
    (((List.range size).map f).drop off).take n =
      (List.range (min n (size - off))).map fun x => f (off + x) := by
  refine ext_getElem ?_ fun x hx hx' => ?_
  · simp only [length_take, length_drop, length_map, length_range]
  · simp only [getElem_take, getElem_drop, getElem_map, getElem_range]

theorem Pending.data_eq (h : Pending s p) : (s.viewNode p (s.icache p).inum).data =
    (List.range (s.icache p).din.size.toNat).map (s.byte p (s.icache p).inum) := by
  rw [State.viewNode, nodeOf, if_pos h.working.inum, view_self]
  rfl

theorem wp_readi_dev {Q : Int × List UInt8 → State → Prop} (h : (s.icache p).din.type = T_DEV)
    (hQ : ∀ r, Q r s) : (readi dev p off n).wp E Q s := by
  simp only [readi, wp_bind, wp_gets, if_pos h]
  split <;> exact hQ _

theorem wp_readi (h : FsInv s) (hv : Valid s p) (hdev : (s.icache p).din.type ≠ T_DEV) :
    (readi dev p off n).wp E (fun r t => t = s ∧
      r = readResult (s.node (s.icache p).inum).data off n) s := by
  have hp := h.pending hv
  have hdata := hp.data_eq
  rw [h.viewNode_eq hv] at hdata
  have hlen : (s.node (s.icache p).inum).data.length = (s.icache p).din.size.toNat := by
    rw [hdata, length_map, length_range]
  simp only [readi, wp_bind, wp_gets, if_neg hdev]
  split
  next hbad =>
    rw [uint32_add_lt_iff, UInt32.lt_iff_toNat_lt, ← hlen] at hbad
    exact ⟨rfl, by rw [readResult, if_pos hbad]⟩
  next hok =>
    rw [uint32_add_lt_iff, UInt32.lt_iff_toNat_lt, not_or, Nat.not_le] at hok
    have hn : (if (s.icache p).din.size < off + n then (s.icache p).din.size - off
        else n).toNat = min n.toNat ((s.icache p).din.size.toNat - off.toNat) := by
      have hadd : (off + n).toNat = off.toNat + n.toNat := by
        rw [UInt32.toNat_add, Nat.mod_eq_of_lt hok.2]
      split
      next hlt =>
        rw [UInt32.lt_iff_toNat_lt] at hlt
        rw [UInt32.toNat_sub_of_le _ _ (UInt32.le_iff_toNat_le.mpr (by omega))]
        omega
      next hge =>
        rw [UInt32.lt_iff_toNat_lt] at hge
        omega
    rw [wp_bind, hn]
    refine wp_imp (wp_readLoop hp.working (Nat.le_refl _) fun bn hbn => ?_) ?_
    · have := hp.full _ hp.working.inum (by rw [view_self]; exact hp.working.type) bn
        (by rw [view_self]; have := hbn.2.2; omega)
      exact this
    · rintro data t ⟨ht, hd⟩
      refine ⟨ht, ?_⟩
      rw [readResult, if_neg (by omega), hd, hdata, drop_take_map_range, length_map, length_range]

/-! ## `writei` -/

/-- `writei` refuses `n` bytes at offset `off` of a file of `size` bytes. -/
def WriteRefused (size off n : Nat) : Prop :=
  size < off ∨ 2 ^ 32 ≤ off + n ∨ MAXFILE * BSIZE < off + n

instance : Decidable (WriteRefused size off n) := inferInstanceAs (Decidable (_ ∨ _))

/-- The end of `writei`: the size grows to `n`, if it was smaller. -/
def State.resize (s : State) (p : Ip) (n : Nat) : State :=
  if (s.icache p).din.size.toNat < n then
    (s.setDin p { (s.icache p).din with size := UInt32.ofNat n }).flush p
  else s

theorem wp_writei_dev {Q : Int → State → Prop} (h : (s.icache p).din.type = T_DEV)
    (hQ : ∀ r, Q r s) : (writei dev p src off).wp E Q s := by
  simp only [writei, wp_bind, wp_gets, if_pos h]
  split <;> exact hQ _

/-- `writei` of bytes for which there is room leaves `n` blocks free, if there are as many more than it
needs. -/
theorem wp_writei_spare {src : List UInt8} {off : UInt32} (h : FsInv s) (hv : Valid s p)
    (hdev : (s.icache p).din.type ≠ T_DEV) (hlen : src.length < 2 ^ 32)
    (hr : ¬WriteRefused (s.icache p).din.size.toNat off.toNat src.length →
      Room E s (1 + span off.toNat src.length + s.due p))
    (hs : ¬WriteRefused (s.icache p).din.size.toNat off.toNat src.length →
      Spare E s (n + s.needed p off.toNat src.length)) :
    (writei dev p src off).wp E (fun r t =>
      if WriteRefused (s.icache p).din.size.toNat off.toNat src.length then r = -1 ∧ t = s
      else r = src.length ∧
        ∃ u, Written p off.toNat src s u ∧ Spare E u n ∧
          t = u.resize p (off.toNat + src.length)) s := by
  have hn : (UInt32.ofNat src.length).toNat = src.length := UInt32.toNat_ofNat_of_lt' hlen
  simp only [writei, wp_bind, wp_gets, if_neg hdev]
  split
  next hbad =>
    rw [uint32_add_lt_iff, hn] at hbad
    exact (if_pos (hbad.imp_right .inl)).mpr ⟨rfl, rfl⟩
  next hok =>
    rw [uint32_add_lt_iff, UInt32.lt_iff_toNat_lt, not_or, Nat.not_le, hn] at hok
    have hadd : (off + UInt32.ofNat src.length).toNat = off.toNat + src.length := by
      rw [UInt32.toNat_add, hn, Nat.mod_eq_of_lt hok.2]
    split
    next hbad =>
      rw [hadd] at hbad
      exact (if_pos (.inr (.inr hbad))).mpr ⟨rfl, rfl⟩
    next hfit =>
      rw [hadd, Nat.not_lt] at hfit
      have href : ¬WriteRefused (s.icache p).din.size.toNat off.toNat src.length := by
        simp only [WriteRefused]
        omega
      simp only [if_neg href]
      rw [wp_bind]
      refine wp_imp (wp_writeLoop (r := 1) (n := n) (h.pending hv).working (Nat.le_refl _) hfit
        (hr href) (hs href)) ?_
      rintro _ u ⟨hu, hroom, hspare⟩
      simp only [wp_bind, wp_gets, hn]
      have hsize := hu.grows.size
      refine wp_when (fun hc => ?_) fun hc => ⟨rfl, u, hu, hspare, ?_⟩
      · rw [UInt32.lt_iff_toNat_lt, UInt32.lt_iff_toNat_lt, hadd] at hc
        rw [wp_bind, wp_modifyDin]
        refine wp_iupdate hroom.setDin ⟨rfl, u, hu, hspare, ?_⟩
        have hofNat : off + UInt32.ofNat src.length = UInt32.ofNat (off.toNat + src.length) := by
          rw [← hadd, UInt32.ofNat_toNat]
        rw [State.resize, if_pos hc.2, hofNat]
      · rw [UInt32.lt_iff_toNat_lt, UInt32.lt_iff_toNat_lt] at hc
        have hz : (0 : UInt32).toNat = 0 := rfl
        rw [State.resize, if_neg]
        rw [hsize] at hc ⊢
        omega

theorem wp_writei {src : List UInt8} {off : UInt32} (h : FsInv s) (hv : Valid s p)
    (hdev : (s.icache p).din.type ≠ T_DEV) (hlen : src.length < 2 ^ 32)
    (hr : ¬WriteRefused (s.icache p).din.size.toNat off.toNat src.length →
      Room E s (1 + span off.toNat src.length + s.due p))
    (hs : ¬WriteRefused (s.icache p).din.size.toNat off.toNat src.length →
      Spare E s (s.needed p off.toNat src.length)) :
    (writei dev p src off).wp E (fun r t =>
      if WriteRefused (s.icache p).din.size.toNat off.toNat src.length then r = -1 ∧ t = s
      else r = src.length ∧
        ∃ u, Written p off.toNat src s u ∧ t = u.resize p (off.toNat + src.length)) s := by
  refine wp_imp (wp_writei_spare (n := 0) h hv hdev hlen hr fun hok => ?_) fun r t ht => ?_
  · rw [Nat.zero_add]
    exact hs hok
  · split at ht
    next hbad => rwa [if_pos hbad]
    next hok =>
      obtain ⟨hr, u, hu, -, ht⟩ := ht
      rw [if_neg hok]
      exact ⟨hr, u, hu, ht⟩

theorem Spare.resize (h : Spare E s n) (g : Geometry s.sb)
    (hi : (s.icache p).inum < s.sb.ninodes.toNat) : Spare E (s.resize p m) n := by
  unfold State.resize
  split
  · refine Spare.flush (s := s.setDin p _) h g ?_
    rw [setDin_self]
    exact hi
  · exact h

theorem Written.resize_sb (h : Written p off src s u) : (u.resize p n).sb = s.sb := by
  unfold State.resize
  split
  · exact h.grows.sb
  · exact h.grows.sb

theorem Written.din_eq (h : Written p off src s u) (hp : Pending s p)
    (hle : ∀ bn, Touches off src.length bn → bn * BSIZE < (s.icache p).din.size.toNat) :
    (u.icache p).din = (s.icache p).din := by
  have hw := hp.working
  have hmap : ∀ bn, Touches off src.length bn →
      s.own p ((s.icache p).inum, slotOf bn) ≠ 0 := fun bn hbn =>
    hp.full _ hw.inum (by rw [view_self]; exact hw.type) bn (by rw [view_self]; exact hle bn hbn)
  have hown : ∀ k, u.own p ((s.icache p).inum, k) = s.own p ((s.icache p).inum, k) := by
    intro k
    by_contra hne
    obtain ⟨-, bn, hbn, hk | ⟨hge, hk⟩⟩ := h.grows.only hne
    · obtain rfl : k = slotOf bn := hk
      exact hne (h.grows.old (hmap bn hbn))
    · obtain rfl : k = NDIRECT := hk
      refine hne (h.grows.old fun h0 => hmap bn hbn (own_eq_zero_of_indirect ?_ h0))
      rw [slotOf, if_neg (by omega)]
      omega
  obtain ⟨addrs, ha⟩ := h.grows.icache
  have haddr : ∀ k ≤ NDIRECT, (u.icache p).din.addr k = (s.icache p).din.addr k := by
    intro k hk
    rw [← hw.own_of_le hk, ← (h.grows.working hw).own_of_le hk, h.grows.inum, hown]
  rw [ha, setDin_self] at haddr ⊢
  have : addrs = (s.icache p).din.addrs := by
    funext j
    have := haddr j.1 (Nat.le_of_lt_succ j.2)
    rw [Dinode.addr, dif_pos j.2, Dinode.addr, dif_pos j.2] at this
    exact UInt32.toNat_inj.mp this
  rw [this]

theorem writeAt_map_range {f : Nat → UInt8} {size off : Nat} {src : List UInt8}
    (hoff : off ≤ size) : writeAt ((List.range size).map f) off src =
      (List.range (max size (off + src.length))).map fun x =>
        if off ≤ x ∧ x < off + src.length then src.getD (x - off) 0 else f x := by
  refine ext_getElem ?_ fun x hx hx' => ?_
  · simp only [writeAt, length_append, length_take, length_drop, length_map,
      length_range]
    omega
  · simp only [writeAt, getElem_append, length_append, length_take, length_map,
      length_range, getElem_take, getElem_drop, getElem_map,
      getElem_range, Nat.min_eq_left hoff]
    split
    next h1 =>
      split
      next h2 => rw [if_neg (by omega)]
      next h2 => rw [if_pos (by omega), getD_eq_getElem _ _ (by omega)]
    next h1 =>
      rw [if_neg (by omega)]
      congr 1
      omega

/-- What `writei` did: the invariant holds again, and nothing changed but the bytes of the file. -/
structure Wrote (i off : Nat) (src : List UInt8) (s t : State) : Prop where
  inv : FsInv t
  tags : SameTags s t
  node : t.node = Function.update s.node i
    { s.node i with data := writeAt (s.node i).data off src }

theorem viewNode_write {v : State} {src : List UInt8} (hp : Pending s p)
    (hoff : off ≤ (s.icache p).din.size.toNat) (hlen : off + src.length < 2 ^ 32)
    (hsb : v.sb = s.sb)
    (hview : ∀ j < s.sb.ninodes.toNat, ∃ addrs, view v p j = { view s p j with
      addrs
      size := if j = (s.icache p).inum then
        UInt32.ofNat (max (s.icache p).din.size.toNat (off + src.length))
        else (view s p j).size })
    (hbyte : ∀ j x, v.byte p j x =
      if j = (s.icache p).inum ∧ off ≤ x ∧ x < off + src.length then src.getD (x - off) 0
      else s.byte p j x) :
    v.viewNode p = update (s.viewNode p) (s.icache p).inum
      { s.viewNode p (s.icache p).inum with
        data := writeAt (s.viewNode p (s.icache p).inum).data off src } := by
  have hi := hp.working.inum
  funext j
  by_cases hj : j < s.sb.ninodes.toNat
  · obtain ⟨addrs, ha⟩ := hview j hj
    have hv : v.viewNode p j = ⟨(view s p j).type, (view s p j).major, (view s p j).minor,
        (view s p j).nlink, (List.range (view v p j).size.toNat).map (v.byte p j)⟩ := by
      rw [State.viewNode, nodeOf, hsb, if_pos hj, ha]
      rw [← hsb]
      rfl
    rw [hv, funext (hbyte j)]
    by_cases hji : j = (s.icache p).inum
    · subst hji
      have hmax : (UInt32.ofNat (max (s.icache p).din.size.toNat (off + src.length))).toNat =
          max (s.icache p).din.size.toNat (off + src.length) :=
        UInt32.toNat_ofNat_of_lt' (Nat.max_lt.mpr ⟨(s.icache p).din.size.toNat_lt, hlen⟩)
      rw [update_self, hp.data_eq, writeAt_map_range hoff, ha]
      simp only [if_pos, true_and, hmax]
      rw [State.viewNode, nodeOf, if_pos hj]
    · rw [update_of_ne hji, ha]
      simp only [hji]
      rw [State.viewNode, nodeOf, if_pos hj]
      rfl
  · have hji : j ≠ (s.icache p).inum := fun h => hj (h ▸ hi)
    rw [update_of_ne hji, State.viewNode, State.viewNode, nodeOf, nodeOf, hsb, if_neg hj,
      if_neg hj]

theorem byte_setDin (htype : d.type = (s.icache p).din.type)
    (haddrs : d.addrs = (s.icache p).din.addrs) : (s.setDin p d).byte p = s.byte p := by
  funext j x
  have := congrFun (own_setDin htype haddrs) (j, slotOf (x / BSIZE))
  rw [State.own] at this
  rw [State.byte, fileByte, this]
  rfl

theorem Written.wrote (h : Written p off src s u) (hinv : FsInv s) (hv : Valid s p)
    (hoff : off ≤ (s.icache p).din.size.toNat) (hlen : off + src.length < 2 ^ 32) :
    Wrote (s.icache p).inum off src s (u.resize p (off + src.length)) := by
  have hp := hinv.pending hv
  have hw := hp.working
  have hsize := h.grows.size
  have hpu := hp.grows h.grows
  rw [State.resize]
  split
  next hlt =>
    rw [hsize] at hlt
    have hofNat : (UInt32.ofNat (off + src.length)).toNat = off + src.length :=
      UInt32.toNat_ofNat_of_lt' hlen
    generalize hd : { (u.icache p).din with size := UInt32.ofNat (off + src.length) } = d
    have htype : d.type = (u.icache p).din.type := by rw [← hd]
    have haddrs : d.addrs = (u.icache p).din.addrs := by rw [← hd]
    have hpd : Pending (u.setDin p d) p := by
      refine hpu.setDin htype haddrs fun bn hbn => ?_
      rw [← hd] at hbn
      rw [hofNat] at hbn
      rw [h.grows.inum]
      by_cases hold : bn * BSIZE < (s.icache p).din.size.toNat
      · have := hp.full _ hw.inum (by rw [view_self]; exact hw.type) bn (by rwa [view_self])
        have heq := h.grows.old this
        rw [heq]
        exact this
      · refine h.mapped bn ⟨by omega, ?_, hbn⟩
        simp only [BSIZE] at *
        omega
    refine ⟨hpd.flush, h.grows.sameTags.trans sameTags_setDin, ?_⟩
    rw [hpd.node_flush, ← hinv.viewNode_eq hv]
    refine viewNode_write hp hoff hlen h.grows.sb (fun j hj => ?_) fun j x => ?_
    · obtain ⟨addrs, ha⟩ := h.grows.view hj
      rw [view_setDin, h.grows.inum]
      by_cases hji : j = (s.icache p).inum
      · rw [if_pos hji, hji, update_self, view_self, ← hd, Nat.max_eq_right (by omega)]
        obtain ⟨addrs, ha⟩ := h.grows.icache
        exact ⟨addrs, by rw [ha, setDin_self]⟩
      · rw [if_neg hji, update_of_ne hji]
        exact ⟨addrs, ha⟩
    · rw [byte_setDin htype haddrs]
      exact h.byte j x
  next hge =>
    rw [hsize] at hge
    have hdin : (u.icache p).din = (s.icache p).din :=
      h.din_eq hp fun bn hbn => by have := hbn.2.2; omega
    have hsync : (u.icache p).din = dinodeAt u.sb u.disk (u.icache p).inum := by
      rw [hdin, h.grows.inum, h.grows.sb, h.grows.table _ hw.inum]
      exact hinv.cached.synced p nofun hv
    have hdone := hpu.done hsync
    refine ⟨hdone, h.grows.sameTags, ?_⟩
    rw [← hdone.viewNode_eq hpu.valid, ← hinv.viewNode_eq hv]
    refine viewNode_write hp hoff hlen h.grows.sb (fun j hj => ?_) h.byte
    obtain ⟨addrs, ha⟩ := h.grows.view hj
    refine ⟨addrs, ?_⟩
    rw [ha]
    split
    next hji =>
      rw [Nat.max_eq_left (by omega), UInt32.ofNat_toNat, hji, view_self]
    next => rfl

end

end Xv6.Fs
