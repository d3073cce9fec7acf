import Xv6.Fs.Inode
import Xv6.Lib.Owners

/-!
# Which inode owns which block

The places that hold block numbers are the addresses of the allocated inodes and the entries of
their indirect blocks. The allocation invariant `Alloc` says that the blocks in these places are
data blocks, no two of them the same, and that exactly these data blocks are marked in the free map.
It is stated for any table of inodes: while an inode is being changed, the table is the one on the
disk with the copy in the cache in its place (`view`).

`bmap` keeps the invariant and changes nothing but places that were empty (`Grows`). A block that is
not there reads as zeroes (`blockOf`), so that the blocks of a file stay what they were when one is
allocated.
-/

namespace Xv6.Fs

/-! ## Places -/

/-- The block number in place `k` of an inode: its addresses, and after them the entries of its
indirect block. -/
def slotAddr (disk : Disk) (d : Dinode) (k : Nat) : Nat :=
  if k ≤ NDIRECT then d.addr k
  else if d.addr NDIRECT = 0 ∨ NDIRECT + NINDIRECT < k then 0
  else ((disk (d.addr NDIRECT)).word32 (4 * (k - (NDIRECT + 1)))).toNat

/-- The place of the block with index `bn` of a file. -/
def slotOf (bn : Nat) : Nat := if bn < NDIRECT then bn else bn + 1

/-- The block number in place `x.2` of inode `x.1`. -/
def own (sb : Superblock) (disk : Disk) (F : Nat → Dinode) (x : Nat × Nat) : Nat :=
  if x.1 < sb.ninodes.toNat ∧ (F x.1).type ≠ 0 then slotAddr disk (F x.1) x.2 else 0

/-- The allocation invariant for the inodes `F`. The blocks before the data area are marked as
well. -/
structure Alloc (sb : Superblock) (disk : Disk) (F : Nat → Dinode) : Prop where
  exact : Exact (IsData sb) (own sb disk F) (blockBit sb disk)
  reserved : ∀ b < dataStart sb, blockBit sb disk b = true

theorem slotOf_inj (h : slotOf m = slotOf n) : m = n := by
  unfold slotOf at h
  split at h <;> split at h <;> omega

theorem slotOf_ne (n : Nat) : slotOf n ≠ NDIRECT := by
  unfold slotOf
  split <;> omega

section
variable {sb : Superblock} {disk disk' : Disk} {F F' : Nat → Dinode} {d : Dinode} {b i k : Nat}

theorem slotAddr_of_le (h : k ≤ NDIRECT) : slotAddr disk d k = d.addr k := if_pos h

theorem slotAddr_entry {j : Nat} (hd : d.addr NDIRECT ≠ 0) (hj : j < NINDIRECT) :
    slotAddr disk d (NDIRECT + 1 + j) = ((disk (d.addr NDIRECT)).word32 (4 * j)).toNat := by
  rw [slotAddr, if_neg (by omega), if_neg (by omega), Nat.add_sub_cancel_left]

theorem slotAddr_eq_zero (hk : NDIRECT < k) (hd : d.addr NDIRECT = 0) : slotAddr disk d k = 0 := by
  rw [slotAddr, if_neg (by omega), if_pos (.inl hd)]

theorem slotAddr_congr (h : d.addr NDIRECT ≠ 0 → disk' (d.addr NDIRECT) = disk (d.addr NDIRECT)) :
    slotAddr disk' d k = slotAddr disk d k := by
  unfold slotAddr
  split
  · rfl
  · split
    · rfl
    next hd => rw [h fun h0 => hd (.inl h0)]

theorem own_of_alloc (hi : i < sb.ninodes.toNat) (ht : (F i).type ≠ 0) :
    own sb disk F (i, k) = slotAddr disk (F i) k := if_pos ⟨hi, ht⟩

theorem own_of_le (hi : i < sb.ninodes.toNat) (ht : (F i).type ≠ 0) (hk : k ≤ NDIRECT) :
    own sb disk F (i, k) = (F i).addr k := (own_of_alloc hi ht).trans (slotAddr_of_le hk)

theorem own_eq_zero_of_indirect (hk : NDIRECT < k) (h : own sb disk F (i, NDIRECT) = 0) :
    own sb disk F (i, k) = 0 := by
  by_cases hx : i < sb.ninodes.toNat ∧ (F i).type ≠ 0
  · rw [own_of_le hx.1 hx.2 (Nat.le_refl _)] at h
    rw [own_of_alloc hx.1 hx.2, slotAddr_eq_zero hk h]
  · exact if_neg hx

theorem slotAddr_congr_addrs {d' : Dinode} (h : d'.addrs = d.addrs) :
    slotAddr disk d' k = slotAddr disk d k := by
  have haddr : d'.addr = d.addr := by
    funext k
    simp only [Dinode.addr, h]
  simp only [slotAddr, haddr]

theorem own_congr_addrs
    (h : ∀ i < sb.ninodes.toNat, (F' i).type = (F i).type ∧ (F' i).addrs = (F i).addrs) :
    own sb disk F' = own sb disk F := by
  funext x
  unfold own
  by_cases hx : x.1 < sb.ninodes.toNat
  · rw [(h _ hx).1, slotAddr_congr_addrs (h _ hx).2]
  · rw [if_neg fun h => hx h.1, if_neg fun h => hx h.1]

/-- The places change only with the inodes and with the indirect blocks. -/
theorem own_congr (hF : ∀ i < sb.ninodes.toNat, F' i = F i)
    (h : ∀ i, own sb disk F (i, NDIRECT) ≠ 0 →
      disk' (own sb disk F (i, NDIRECT)) = disk (own sb disk F (i, NDIRECT))) :
    own sb disk' F' = own sb disk F := by
  funext x
  unfold own
  by_cases hx : x.1 < sb.ninodes.toNat ∧ (F x.1).type ≠ 0
  · have := h x.1
    rw [own_of_le hx.1 hx.2 (Nat.le_refl _)] at this
    rw [hF _ hx.1, if_pos hx, if_pos hx, slotAddr_congr this]
  · by_cases hlt : x.1 < sb.ninodes.toNat
    · rw [hF _ hlt, if_neg hx, if_neg hx]
    · rw [if_neg fun h => hlt h.1, if_neg fun h => hlt h.1]

end

/-! ## Taking a block into an empty place -/

section
variable {sb : Superblock} {disk disk' : Disk} {F : Nat → Dinode} {b i k : Nat}

theorem Alloc.isData_of_free (h : Alloc sb disk F) (hb : b < sb.size.toNat)
    (hbit : blockBit sb disk b = false) : IsData sb b := by
  refine ⟨Nat.le_of_not_lt fun hlt => ?_, hb⟩
  rw [h.reserved b hlt] at hbit
  cases hbit

/-- `disk'` is `disk` after the free block `b` was marked and zeroed. -/
structure Took (sb : Superblock) (b : Nat) (disk disk' : Disk) : Prop where
  data : IsData sb b
  free : blockBit sb disk b = false
  bit : ∀ x < sb.size.toNat, blockBit sb disk' x = (decide (x = b) || blockBit sb disk x)
  zero : disk' b = Bytes.zero
  other : ∀ x, IsData sb x → x ≠ b → disk' x = disk x

theorem own_setAddr (h : Alloc sb disk F) (ht : Took sb b disk disk')
    (hi : i < sb.ninodes.toNat) (hty : (F i).type ≠ 0) (hk : k ≤ NDIRECT)
    (h0 : (F i).addr k = 0) (y : Nat × Nat) :
    own sb disk' (update F i ((F i).setAddr k b)) y =
      if y = (i, k) then b else own sb disk F y := by
  have hb : b < 2 ^ 32 := Nat.lt_trans ht.data.2 sb.size.toNat_lt
  have hne := h.exact.ne_of_unused ht.data ht.free
  obtain ⟨j, l⟩ := y
  by_cases hj : j = i
  · subst hj
    have hlt : l ≤ NDIRECT → slotAddr disk' ((F j).setAddr k b) l =
        if (j, l) = (j, k) then b else slotAddr disk (F j) l := by
      intro hl
      rw [slotAddr_of_le hl, slotAddr_of_le hl, Dinode.addr_setAddr hk hb]
      simp only [Prod.mk.injEq, true_and]
    have hgt : NDIRECT < l → slotAddr disk' ((F j).setAddr k b) l =
        if (j, l) = (j, k) then b else slotAddr disk (F j) l := by
      intro hl
      have hlk : (j, l) ≠ (j, k) := by
        simp only [ne_eq, Prod.mk.injEq]
        omega
      by_cases hkk : NDIRECT = k
      · -- a new indirect block has no entries
        subst hkk
        rw [slotAddr_eq_zero hl h0, slotAddr, if_neg (by omega)]
        split
        · rfl
        · rw [Dinode.addr_setAddr hk hb, if_pos rfl, ht.zero, Bytes.word32_zero]
          rfl
      · have hind : ((F j).setAddr k b).addr NDIRECT = (F j).addr NDIRECT := by
          rw [Dinode.addr_setAddr hk hb, if_neg hkk]
        simp only [slotAddr, hind]
        split
        · omega
        · split
          · rfl
          next hnz =>
            have hown : own sb disk F (j, NDIRECT) = (F j).addr NDIRECT :=
              own_of_le hi hty (Nat.le_refl _)
            have hnz' : own sb disk F (j, NDIRECT) ≠ 0 := fun h0 => hnz (.inl (hown ▸ h0))
            rw [ht.other _ (hown ▸ h.exact.pool hnz') (hown ▸ hne _)]
    have hty' : (update F j ((F j).setAddr k b) j).type ≠ 0 := by
      rw [update_self]
      exact hty
    rw [own_of_alloc hi hty', own_of_alloc hi hty, update_self]
    rcases Nat.lt_or_ge NDIRECT l with hl | hl
    · exact hgt hl
    · exact hlt hl
  · have hjl : (j, l) ≠ (i, k) := fun h => hj (congrArg Prod.fst h)
    simp only [own, update_of_ne hj]
    split
    next hx =>
      refine slotAddr_congr fun hnz => ?_
      have hown : own sb disk F (j, NDIRECT) = (F j).addr NDIRECT :=
        own_of_le hx.1 hx.2 (Nat.le_refl _)
      exact ht.other _ (hown ▸ h.exact.pool (hown ▸ hnz)) (hown ▸ hne _)
    · rfl

theorem own_setEntry (h : Alloc sb disk F) (ht : Took sb b disk disk')
    (hi : i < sb.ninodes.toNat) (hty : (F i).type ≠ 0) (hnz : (F i).addr NDIRECT ≠ 0) {j : Nat}
    (hj : j < NINDIRECT) (y : Nat × Nat) :
    own sb (update disk' ((F i).addr NDIRECT)
        ((disk ((F i).addr NDIRECT)).setWord32 (4 * j) (UInt32.ofNat b))) F y =
      if y = (i, NDIRECT + 1 + j) then b else own sb disk F y := by
  have hb : b < 2 ^ 32 := Nat.lt_trans ht.data.2 sb.size.toNat_lt
  have hne := h.exact.ne_of_unused ht.data ht.free
  have hind : own sb disk F (i, NDIRECT) = (F i).addr NDIRECT := own_of_le hi hty (Nat.le_refl _)
  have hfit : 4 * j + 4 ≤ BSIZE := by
    simp only [NINDIRECT] at hj ⊢
    omega
  obtain ⟨m, l⟩ := y
  by_cases hm : m = i
  · subst hm
    rw [own_of_alloc hi hty, own_of_alloc hi hty]
    by_cases hl : l = NDIRECT + 1 + j
    · subst hl
      rw [if_pos rfl, slotAddr_entry hnz hj, update_self, Bytes.word32_setWord32 _ _ hfit]
      exact Nat.mod_eq_of_lt hb
    · rw [if_neg (by simp only [Prod.mk.injEq, true_and]; exact hl)]
      unfold slotAddr
      split
      · rfl
      next hle =>
        split
        · rfl
        · rw [update_self, Bytes.word32_setWord32_disjoint]
          omega
  · rw [if_neg fun h => hm (congrArg Prod.fst h)]
    unfold own
    split
    next hx =>
      refine slotAddr_congr fun hmz => ?_
      have hown : own sb disk F (m, NDIRECT) = (F m).addr NDIRECT :=
        own_of_le hx.1 hx.2 (Nat.le_refl _)
      have hmi : (F m).addr NDIRECT ≠ (F i).addr NDIRECT := by
        rw [← hown, ← hind]
        intro heq
        exact hm (congrArg Prod.fst (h.exact.inj (hown ▸ hmz) heq))
      rw [update_of_ne hmi]
      exact ht.other _ (hown ▸ h.exact.pool (hown ▸ hmz)) (hown ▸ hne _)
    · rfl

end

/-! ## The inode that is being changed -/

/-- The inodes, with the copy in entry `p` of the cache in place of the one on the disk. -/
def view (s : State) (p : Ip) : Nat → Dinode :=
  Function.update (dinodeAt s.sb s.disk) (s.icache p).inum (s.icache p).din

def State.own (s : State) (p : Ip) : Nat × Nat → Nat := Fs.own s.sb s.disk (view s p)

/-- The content of block `b`, where `0` is a block of zeroes. -/
def blockOf (disk : Disk) (b : Nat) : Block := if b = 0 then Bytes.zero else disk b

def State.setDin (s : State) (p : Ip) (d : Dinode) : State :=
  { s with icache := Function.update s.icache p { s.icache p with din := d } }

/-- Entry `p` of the cache is a copy of an allocated inode. -/
structure Working (s : State) (p : Ip) : Prop where
  geometry : Geometry s.sb
  inum : (s.icache p).inum < s.sb.ninodes.toNat
  type : (s.icache p).din.type ≠ 0
  alloc : Alloc s.sb s.disk (view s p)

/-- No place changed but those in `K` of the inode in entry `p` that were empty. -/
structure Grows (p : Ip) (K : Nat → Prop) (s t : State) : Prop where
  sb : t.sb = s.sb
  logSize : t.logSize = s.logSize
  outstanding : t.outstanding = s.outstanding
  committed : t.committed = s.committed
  super : t.disk 1 = s.disk 1
  icache : ∃ addrs, t.icache = (s.setDin p { (s.icache p).din with addrs }).icache
  table : ∀ j < s.sb.ninodes.toNat, dinodeAt s.sb t.disk j = dinodeAt s.sb s.disk j
  alloc : Alloc s.sb t.disk (view t p)
  old : ∀ {x}, s.own p x ≠ 0 → t.own p x = s.own p x
  only : ∀ {x}, t.own p x ≠ s.own p x → x.1 = (s.icache p).inum ∧ K x.2

/-- The blocks of every file, apart from indirect blocks, are what they were. -/
def SameBlocks (p : Ip) (s t : State) : Prop :=
  ∀ x : Nat × Nat, x.2 ≠ NDIRECT → blockOf t.disk (t.own p x) = blockOf s.disk (s.own p x)

section
variable {s t u : State} {p q : Ip} {K K' : Nat → Prop} {b k : Nat}

@[simp] theorem State.setDin_sb : (s.setDin p d).sb = s.sb := rfl

@[simp] theorem State.setDin_disk : (s.setDin p d).disk = s.disk := rfl

@[simp] theorem State.setDin_self : ((s.setDin p d).icache p) = { s.icache p with din := d } :=
  update_self ..

theorem State.setDin_of_ne (h : q ≠ p) : (s.setDin p d).icache q = s.icache q :=
  update_of_ne h ..

theorem wp_modifyDin {E : Fault → Prop} {Q : Unit → State → Prop} {f : Dinode → Dinode} :
    (modifyDin p f).wp E Q s ↔ Q () (s.setDin p (f (s.icache p).din)) := by
  rw [modifyDin, modifyInode, wp_modify, setAt_eq_update, State.setDin]

theorem view_self : view s p (s.icache p).inum = (s.icache p).din := update_self ..

theorem view_of_ne (h : i ≠ (s.icache p).inum) : view s p i = dinodeAt s.sb s.disk i :=
  update_of_ne h ..

theorem Grows.inum (h : Grows p K s t) : (t.icache p).inum = (s.icache p).inum := by
  obtain ⟨addrs, ha⟩ := h.icache
  rw [ha, State.setDin_self]

theorem Grows.type (h : Grows p K s t) : (t.icache p).din.type = (s.icache p).din.type := by
  obtain ⟨addrs, ha⟩ := h.icache
  rw [ha, State.setDin_self]

theorem Grows.size (h : Grows p K s t) : (t.icache p).din.size = (s.icache p).din.size := by
  obtain ⟨addrs, ha⟩ := h.icache
  rw [ha, State.setDin_self]

theorem Grows.working (h : Grows p K s t) (hw : Working s p) : Working t p where
  geometry := h.sb ▸ hw.geometry
  inum := by rw [h.inum, h.sb]; exact hw.inum
  type := by rw [h.type]; exact hw.type
  alloc := by rw [h.sb]; exact h.alloc

theorem Grows.refl (h : Working s p) : Grows p K s s where
  sb := rfl
  logSize := rfl
  outstanding := rfl
  committed := rfl
  super := rfl
  icache := ⟨(s.icache p).din.addrs, (update_eq_self p s.icache).symm⟩
  table := fun _ _ => rfl
  alloc := h.alloc
  old := fun _ => rfl
  only := fun h => absurd rfl h

theorem Grows.mono (h : Grows p K s t) (hK : ∀ k, K k → K' k) : Grows p K' s t :=
  { h with only := fun hx => (h.only hx).imp_right (hK _) }

theorem Grows.trans (h : Grows p K s t) (h' : Grows p K t u) : Grows p K s u where
  sb := h'.sb.trans h.sb
  logSize := h'.logSize.trans h.logSize
  outstanding := h'.outstanding.trans h.outstanding
  committed := h'.committed.trans h.committed
  super := h'.super.trans h.super
  icache := by
    obtain ⟨a, ha⟩ := h.icache
    obtain ⟨a', ha'⟩ := h'.icache
    refine ⟨a', ?_⟩
    rw [ha', State.setDin, ha, State.setDin_self]
    exact update_idem ..
  table := fun j hj => (h.sb ▸ h'.table) j (h.sb ▸ hj) |>.trans (h.table j hj)
  alloc := h.sb ▸ h'.alloc
  old := fun {x} hx => by
    have := h.old hx
    rw [h'.old (this ▸ hx), this]
  only := fun {x} hx => by
    by_cases ht : t.own p x = s.own p x
    · have := h'.only (ht ▸ hx)
      rwa [h.inum] at this
    · exact h.only ht

/-! ## `bmap` -/

theorem Working.own_of_le (h : Working s p) (hk : k ≤ NDIRECT) :
    s.own p ((s.icache p).inum, k) = (s.icache p).din.addr k := by
  rw [State.own, Fs.own_of_le h.inum (by rw [view_self]; exact h.type) hk, view_self]

theorem Working.own_entry (h : Working s p) (hnz : (s.icache p).din.addr NDIRECT ≠ 0)
    (hj : j < NINDIRECT) : s.own p ((s.icache p).inum, NDIRECT + 1 + j) =
      ((s.disk ((s.icache p).din.addr NDIRECT)).word32 (4 * j)).toNat := by
  rw [State.own, own_of_alloc h.inum (by rw [view_self]; exact h.type), view_self,
    slotAddr_entry hnz hj]

theorem Working.isData_own (h : Working s p) (hx : s.own p x ≠ 0) : IsData s.sb (s.own p x) :=
  h.alloc.exact.pool hx

theorem Working.own_inj (h : Working s p) (hx : s.own p x ≠ 0) (heq : s.own p x = s.own p y) :
    x = y := h.alloc.exact.inj hx heq

theorem Working.took (h : Working s p) (hb : b < s.sb.size.toNat)
    (hbit : blockBit s.sb s.disk b = false) : Took s.sb b s.disk (s.alloc b).disk where
  data := h.alloc.isData_of_free hb hbit
  free := hbit
  bit := fun _ hx => State.blockBit_alloc h.geometry (h.alloc.isData_of_free hb hbit) hx
  zero := State.alloc_disk_self
  other := fun _ hx hne =>
    State.alloc_disk_of_ne hne (h.geometry.bblock_ne_data hb hx).symm

theorem Working.table_alloc (h : Working s p) (hd : IsData s.sb b) (j : Nat)
    (hj : j < s.sb.ninodes.toNat) :
    dinodeAt s.sb (s.alloc b).disk j = dinodeAt s.sb s.disk j :=
  dinodeAt_congr (State.alloc_disk_of_ne (h.geometry.iblock_ne_data hj hd)
    (h.geometry.iblock_ne_bblock hj))

/-- The block `b` went into the empty place `k` of the inode in entry `p`. -/
structure Takes (p : Ip) (k b : Nat) (s t : State) : Prop where
  empty : s.own p ((s.icache p).inum, k) = 0
  ne : b ≠ 0
  own : ∀ y, t.own p y = if y = ((s.icache p).inum, k) then b else s.own p y
  grows : Grows p (· = k) s t
  blocks : SameBlocks p s t

theorem Working.takes (h : Working s p) (hk : s.own p ((s.icache p).inum, k) = 0)
    (hd : IsData s.sb b) (hu : blockBit s.sb s.disk b = false) (hsb : t.sb = s.sb)
    (hlog : t.logSize = s.logSize) (hout : t.outstanding = s.outstanding)
    (hcom : t.committed = s.committed) (hsup : t.disk 1 = s.disk 1)
    (hic : ∃ addrs, t.icache = (s.setDin p { (s.icache p).din with addrs }).icache)
    (htab : ∀ j < s.sb.ninodes.toNat, dinodeAt s.sb t.disk j = dinodeAt s.sb s.disk j)
    (hbit : ∀ x < s.sb.size.toNat,
      blockBit s.sb t.disk x = (decide (x = b) || blockBit s.sb s.disk x))
    (hown : ∀ y, t.own p y = if y = ((s.icache p).inum, k) then b else s.own p y)
    (hzero : t.disk b = Bytes.zero)
    (hdata : ∀ x : Nat × Nat, x.2 ≠ NDIRECT → s.own p x ≠ 0 →
      t.disk (s.own p x) = s.disk (s.own p x)) : Takes p k b s t := by
  have h0 := h.geometry.not_isData_zero
  have hb0 : b ≠ 0 := fun hb0 => h0 (hb0 ▸ hd)
  have halloc : Alloc s.sb t.disk (view t p) := by
    refine ⟨?_, fun x hx => ?_⟩
    · have := h.alloc.exact.take h0 hk hd hu hown fun c hc => hbit c hc.2
      rwa [State.own, hsb] at this
    · have hx' : x < s.sb.size.toNat := Nat.lt_of_lt_of_le hx (Nat.sub_le ..)
      rw [hbit x hx', h.alloc.reserved x hx, Bool.or_true]
  refine ⟨hk, hb0, hown, ⟨hsb, hlog, hout, hcom, hsup, hic, htab, halloc, ?_, ?_⟩, ?_⟩
  · intro x hx
    rw [hown, if_neg fun heq => hx (by rw [heq, hk])]
  · intro x hx
    rw [hown] at hx
    split at hx
    next heq => rw [heq]; exact ⟨rfl, rfl⟩
    next => exact absurd rfl hx
  · intro x hx
    rw [hown]
    split
    next heq => rw [heq, hk, blockOf, if_neg hb0, hzero, blockOf, if_pos rfl]
    next =>
      unfold blockOf
      split
      · rfl
      next hnz => exact hdata x hx hnz

theorem Working.takes_addr (h : Working s p) (hk : k ≤ NDIRECT)
    (h0 : (s.icache p).din.addr k = 0) (hb : b < s.sb.size.toNat)
    (hbit : blockBit s.sb s.disk b = false) :
    Takes p k b s ((s.alloc b).setDin p ((s.icache p).din.setAddr k b)) := by
  have ht := h.took hb hbit
  have htab := h.table_alloc ht.data
  have hty : (view s p (s.icache p).inum).type ≠ 0 := by rw [view_self]; exact h.type
  refine h.takes (by rw [h.own_of_le hk, h0]) ht.data ht.free rfl rfl rfl rfl ?_ ⟨_, rfl⟩ htab
    ht.bit (fun y => ?_) ht.zero fun x _ hx => ?_
  · exact State.alloc_disk_of_ne (h.geometry.one_ne_data ht.data) h.geometry.one_ne_bblock
  · have := own_setAddr h.alloc ht h.inum hty hk (by rw [view_self]; exact h0) y
    refine Eq.trans (congrFun (own_congr (fun j hj => ?_) fun _ _ => rfl) y) this
    rw [view, State.setDin_self, view_self]
    by_cases hji : j = (s.icache p).inum
    · rw [hji, update_self]
      exact update_self ..
    · rw [update_of_ne hji, view_of_ne hji]
      exact (update_of_ne hji ..).trans (htab j hj)
  · exact ht.other _ (h.isData_own hx) (h.alloc.exact.ne_of_unused ht.data ht.free x)

/-- The state after `bmap` put the block `b` into entry `j` of the indirect block. -/
def State.allocEntry (s : State) (p : Ip) (j b : Nat) : State :=
  (s.alloc b).write ((s.icache p).din.addr NDIRECT)
    ((s.disk ((s.icache p).din.addr NDIRECT)).setWord32 (4 * j) (UInt32.ofNat b))

theorem Working.takes_entry (h : Working s p) {j : Nat} (hj : j < NINDIRECT)
    (hnz : (s.icache p).din.addr NDIRECT ≠ 0)
    (h0 : s.own p ((s.icache p).inum, NDIRECT + 1 + j) = 0) (hb : b < s.sb.size.toNat)
    (hbit : blockBit s.sb s.disk b = false) :
    Takes p (NDIRECT + 1 + j) b s (s.allocEntry p j b) := by
  have ht := h.took hb hbit
  have hind : s.own p ((s.icache p).inum, NDIRECT) = (s.icache p).din.addr NDIRECT :=
    h.own_of_le (Nat.le_refl _)
  have hdata : IsData s.sb ((s.icache p).din.addr NDIRECT) := by
    rw [← hind]
    exact h.isData_own (by rwa [hind])
  have hdisk : (s.allocEntry p j b).disk = update (s.alloc b).disk
      ((s.icache p).din.addr NDIRECT) ((s.disk ((s.icache p).din.addr NDIRECT)).setWord32 (4 * j)
        (UInt32.ofNat b)) := State.write_disk
  have htab : ∀ j' < s.sb.ninodes.toNat,
      dinodeAt s.sb (s.allocEntry p j b).disk j' = dinodeAt s.sb s.disk j' := by
    intro j' hj'
    rw [← h.table_alloc ht.data j' hj']
    refine dinodeAt_congr ?_
    rw [hdisk, update_of_ne (h.geometry.iblock_ne_data hj' hdata)]
  refine h.takes h0 ht.data ht.free rfl rfl rfl rfl ?_
    ⟨(s.icache p).din.addrs, (update_eq_self p s.icache).symm⟩ htab (fun x hx => ?_)
    (fun y => ?_) ?_ fun x hx hx0 => ?_
  · rw [hdisk, update_of_ne (h.geometry.one_ne_data hdata)]
    exact State.alloc_disk_of_ne (h.geometry.one_ne_data ht.data) h.geometry.one_ne_bblock
  · rw [← ht.bit x hx]
    refine blockBit_congr ?_
    rw [hdisk, update_of_ne (h.geometry.bblock_ne_data hx hdata)]
  · have hty : (view s p (s.icache p).inum).type ≠ 0 := by rw [view_self]; exact h.type
    have := own_setEntry h.alloc ht h.inum hty (by rw [view_self]; exact hnz) hj y
    rw [view_self, ← hdisk] at this
    refine Eq.trans (congrFun (own_congr (fun i hi => ?_) fun _ _ => rfl) y) this
    have hic : (s.allocEntry p j b).icache = s.icache := rfl
    rw [view, view, hic]
    by_cases hii : i = (s.icache p).inum
    · rw [hii, update_self, update_self]
    · rw [update_of_ne hii, update_of_ne hii]
      exact htab i hi
  · have hbind : b ≠ (s.icache p).din.addr NDIRECT := by
      rw [← hind]
      exact (h.alloc.exact.ne_of_unused ht.data ht.free _).symm
    rw [hdisk, update_of_ne hbind, ht.zero]
  · have hne : s.own p x ≠ (s.icache p).din.addr NDIRECT := by
      rw [← hind]
      intro heq
      exact hx (congrArg Prod.snd (h.own_inj hx0 heq))
    rw [hdisk, update_of_ne hne]
    exact ht.other _ (h.isData_own hx0) (h.alloc.exact.ne_of_unused ht.data ht.free x)

/-- The blocks that are logged when places of the inode in entry `p` are filled: for each of them
its block of the free map, the block itself, and the indirect block if the place is in it. -/
def Grew (p : Ip) (s t : State) (c : Nat) : Prop :=
  ∃ k, s.own p ((s.icache p).inum, k) = 0 ∧ t.own p ((s.icache p).inum, k) ≠ 0 ∧
    (c = bblock s.sb (t.own p ((s.icache p).inum, k)) ∨ c = t.own p ((s.icache p).inum, k) ∨
      NDIRECT < k ∧ c = t.own p ((s.icache p).inum, NDIRECT))

theorem Grows.grew_trans (h : Grows p K s t) (h' : Grows p K' t u) {c : Nat} :
    Grew p s u c ↔ Grew p s t c ∨ Grew p t u c := by
  unfold Grew
  rw [h.inum, h.sb]
  constructor
  · rintro ⟨k, hs, hu, hc⟩
    by_cases ht : t.own p ((s.icache p).inum, k) = 0
    · exact .inr ⟨k, ht, hu, hc⟩
    · have hut := h'.old ht
      refine .inl ⟨k, hs, ht, ?_⟩
      rw [hut] at hc
      refine hc.imp_right (Or.imp_right fun hc => ⟨hc.1, ?_⟩)
      by_cases hz : t.own p ((s.icache p).inum, NDIRECT) = 0
      · -- without an indirect block there are no entries
        exact absurd (own_eq_zero_of_indirect hc.1 hz) ht
      · rw [hc.2, h'.old hz]
  · rintro (⟨k, hs, ht, hc⟩ | ⟨k, ht, hu, hc⟩)
    · refine ⟨k, hs, by rwa [h'.old ht], ?_⟩
      rw [h'.old ht]
      refine hc.imp_right (Or.imp_right fun hc => ⟨hc.1, ?_⟩)
      by_cases hz : t.own p ((s.icache p).inum, NDIRECT) = 0
      · exact absurd (own_eq_zero_of_indirect hc.1 hz) ht
      · rw [hc.2, h'.old hz]
    · refine ⟨k, ?_, hu, hc⟩
      by_contra hs
      exact hs (by rw [← h.old hs, ht])

theorem grew_refl {c : Nat} : ¬Grew p s s c := fun ⟨_, h0, h1, _⟩ => h1 h0

theorem Takes.grew {c : Nat} (h : Takes p k b s t) : Grew p s t c ↔ c = bblock s.sb b ∨ c = b ∨
    NDIRECT < k ∧ c = t.own p ((s.icache p).inum, NDIRECT) := by
  have hself : t.own p ((s.icache p).inum, k) = b := by rw [h.own, if_pos rfl]
  constructor
  · rintro ⟨l, hs, ht, hc⟩
    obtain rfl : l = k := by
      by_contra hne
      rw [h.own, if_neg fun heq => hne (congrArg Prod.snd heq)] at ht
      exact ht hs
    rwa [hself] at hc
  · intro hc
    exact ⟨k, h.empty, by rw [hself]; exact h.ne, by rwa [hself]⟩

/-- What `bmap` establishes when it returns `b` for the block with index `bn`. -/
structure Mapped (p : Ip) (bn : Nat) (s : State) (b : Nat) (t : State) : Prop where
  grows : Grows p (fun k => k = slotOf bn ∨ NDIRECT ≤ bn ∧ k = NDIRECT) s t
  addr : t.own p ((s.icache p).inum, slotOf bn) = b
  ne : b ≠ 0
  blocks : SameBlocks p s t
  lh : ∀ c, c ∈ t.lh ↔ c ∈ s.lh ∨ Grew p s t c
  same : s.own p ((s.icache p).inum, slotOf bn) ≠ 0 → t = s

/-- `1` if the indirect block is not yet in the transaction. -/
def State.due (s : State) (p : Ip) : Nat :=
  if (s.icache p).din.addr NDIRECT ≠ 0 ∧ (s.icache p).din.addr NDIRECT ∈ s.lh then 0 else 1

/-- The number of blocks that `bmap` allocates for the block with index `bn`. -/
def State.needs (s : State) (p : Ip) (bn : Nat) : Nat :=
  (if s.own p ((s.icache p).inum, slotOf bn) = 0 then 1 else 0) +
    if NDIRECT ≤ bn ∧ (s.icache p).din.addr NDIRECT = 0 then 1 else 0

variable {E : Fault → Prop} {Q : Nat → State → Prop} {n r : Nat}

theorem wp_bmapAddr (h : Working s p) (hr : (s.icache p).din.addr k = 0 → Room E s (r + 1))
    (hs : (s.icache p).din.addr k = 0 → Spare E s (n + 1))
    (hold : (s.icache p).din.addr k ≠ 0 → Q ((s.icache p).din.addr k) s)
    (hnew : ∀ b, (s.icache p).din.addr k = 0 → b < s.sb.size.toNat →
      blockBit s.sb s.disk b = false → Room E (s.alloc b) r → Spare E (s.alloc b) n →
      Q b ((s.alloc b).setDin p ((s.icache p).din.setAddr k b))) :
    (bmapAddr p k).wp E Q s := by
  simp only [bmapAddr, wp_bind, wp_gets]
  split
  next h0 =>
    rw [wp_bind]
    refine wp_balloc (hr h0) ((hs h0).mono (Nat.le_add_left ..)) fun b hb hbit => ?_
    rw [wp_bind, wp_modifyDin]
    exact hnew b h0 hb hbit ((hr h0).alloc hb)
      ((hs h0).alloc h.geometry (h.alloc.isData_of_free hb hbit) hbit)
  next hnz => exact hold hnz

theorem wp_bmapEntry (h : Working s p) (hnz : (s.icache p).din.addr NDIRECT ≠ 0) {j : Nat}
    (hj : j < NINDIRECT)
    (hr : s.own p ((s.icache p).inum, NDIRECT + 1 + j) = 0 → Room E s (r + 1 + s.due p))
    (hs : s.own p ((s.icache p).inum, NDIRECT + 1 + j) = 0 → Spare E s (n + 1))
    (hold : s.own p ((s.icache p).inum, NDIRECT + 1 + j) ≠ 0 →
      Q (s.own p ((s.icache p).inum, NDIRECT + 1 + j)) s)
    (hnew : ∀ b, s.own p ((s.icache p).inum, NDIRECT + 1 + j) = 0 → b < s.sb.size.toNat →
      blockBit s.sb s.disk b = false → Room E (s.allocEntry p j b) r →
      Spare E (s.allocEntry p j b) n → Q b (s.allocEntry p j b)) :
    (bmapEntry ((s.icache p).din.addr NDIRECT) j).wp E Q s := by
  have hown := h.own_entry hnz hj
  simp only [bmapEntry, bread, wp_bind, wp_gets]
  split
  next h0 =>
    have h0' : s.own p ((s.icache p).inum, NDIRECT + 1 + j) = 0 := by rw [hown, h0]; rfl
    have hroom := hr h0'
    rw [wp_bind]
    refine wp_balloc hroom ((hs h0').mono (Nat.le_add_left ..)) fun b hb hbit => ?_
    have hd := h.alloc.isData_of_free hb hbit
    have hroom' : Room E (s.alloc b) (r + s.due p) :=
      (hroom.mono (by omega : r + s.due p + 1 ≤ r + 1 + s.due p)).alloc hb
    have hspare := (hs h0').alloc h.geometry hd hbit
    rw [wp_bind]
    refine wp_logWrite hroom' (hnew b h0' hb hbit ?_ ?_)
    · -- the indirect block is in the transaction, or one was counted for it
      by_cases hmem : (s.icache p).din.addr NDIRECT ∈ s.lh
      · have hmem' : (s.icache p).din.addr NDIRECT ∈ (s.alloc b).lh :=
          State.mem_lh_alloc.mpr (.inl hmem)
        exact (hroom'.mono (Nat.le_add_right ..)).write_of_mem hmem'
      · rw [State.due, if_neg fun h => hmem h.2] at hroom'
        exact hroom'.write
    · -- the indirect block is not in the free map
      have hind := h.own_of_le (Nat.le_refl NDIRECT)
      have hdata : IsData s.sb ((s.icache p).din.addr NDIRECT) := by
        rw [← hind]
        exact h.isData_own (by rwa [hind])
      exact hspare.write h.geometry hdata
  next hne =>
    have hne' : s.own p ((s.icache p).inum, NDIRECT + 1 + j) ≠ 0 := by
      rw [hown]
      exact fun h0 => hne (UInt32.toNat_inj.mp h0)
    have := hold hne'
    rw [hown] at this
    exact this

theorem Room.setDin (h : Room E s k) : Room E (s.setDin p d) k := ⟨h.logs, h.trans⟩

theorem Mapped.refl (h : Working s p) (hnz : s.own p ((s.icache p).inum, slotOf bn) ≠ 0) :
    Mapped p bn s (s.own p ((s.icache p).inum, slotOf bn)) s where
  grows := .refl h
  addr := rfl
  ne := hnz
  blocks := fun _ _ => rfl
  lh := fun _ => ⟨.inl, fun h => h.resolve_right grew_refl⟩
  same := fun _ => rfl

theorem slotAddr_slotOf_of_le (h : MAXFILE ≤ bn) : slotAddr disk d (slotOf bn) = 0 := by
  have hslot : NDIRECT + NINDIRECT < slotOf bn := by
    simp only [slotOf, MAXFILE] at h ⊢
    split <;> omega
  rw [slotAddr, if_neg (by omega), if_pos (.inr hslot)]

theorem wp_bmap_there
    (h : slotAddr s.disk (s.icache p).din (slotOf bn) ≠ 0)
    (hQ : Q (slotAddr s.disk (s.icache p).din (slotOf bn)) s) : (bmap p bn).wp E Q s := by
  have hlt : bn < MAXFILE := Nat.lt_of_not_le fun hge => h (slotAddr_slotOf_of_le hge)
  unfold bmap
  split
  next hdirect =>
    have hslot : slotOf bn = bn := if_pos hdirect
    rw [hslot, slotAddr_of_le (Nat.le_of_lt hdirect)] at h hQ
    simp only [bmapAddr, wp_bind, wp_gets, if_neg h]
    exact hQ
  next hge =>
    have hj : bn - NDIRECT < NINDIRECT := by
      simp only [MAXFILE] at hlt
      omega
    have hslot : slotOf bn = NDIRECT + 1 + (bn - NDIRECT) := by
      rw [slotOf, if_neg hge]
      omega
    rw [hslot] at h hQ
    have hind : (s.icache p).din.addr NDIRECT ≠ 0 := fun h0 => h (slotAddr_eq_zero (by omega) h0)
    rw [slotAddr_entry hind hj] at h hQ
    have hword : (s.disk ((s.icache p).din.addr NDIRECT)).word32 (4 * (bn - NDIRECT)) ≠ 0 :=
      fun h0 => h (by rw [h0]; rfl)
    simp only [if_pos hj, bmapAddr, bmapEntry, bread, wp_bind, wp_gets, if_neg hind,
      wp_pure, if_neg hword]
    exact hQ

theorem wp_bmap_old (h : Working s p) (hnz : s.own p ((s.icache p).inum, slotOf bn) ≠ 0)
    (hQ : Q (s.own p ((s.icache p).inum, slotOf bn)) s) : (bmap p bn).wp E Q s := by
  have hown : s.own p ((s.icache p).inum, slotOf bn) =
      slotAddr s.disk (s.icache p).din (slotOf bn) := by
    rw [State.own, own_of_alloc h.inum (by rw [view_self]; exact h.type), view_self]
  rw [hown] at hnz hQ
  exact wp_bmap_there hnz hQ

theorem State.due_le (haddr : (t.icache p).din.addr NDIRECT = (s.icache p).din.addr NDIRECT)
    (hlh : ∀ c ∈ s.lh, c ∈ t.lh) : t.due p ≤ s.due p := by
  unfold due
  split
  · exact Nat.zero_le _
  next ht =>
    rw [if_neg fun hs => ht ?_]
    rw [haddr]
    exact ⟨hs.1, hlh _ hs.2⟩

theorem State.due_eq_zero (h0 : (s.icache p).din.addr NDIRECT ≠ 0)
    (hlh : (s.icache p).din.addr NDIRECT ∈ s.lh) : s.due p = 0 := if_pos ⟨h0, hlh⟩

theorem State.mem_lh_allocEntry {j c : Nat} : c ∈ (s.allocEntry p j b).lh ↔
    c ∈ s.lh ∨ c = bblock s.sb b ∨ c = b ∨ c = (s.icache p).din.addr NDIRECT := by
  rw [allocEntry, mem_lh_write, mem_lh_alloc, or_assoc, or_assoc]

theorem Mapped.of_takes (h : Takes p (slotOf bn) b s t)
    (hlh : ∀ c, c ∈ t.lh ↔ c ∈ s.lh ∨ Grew p s t c) : Mapped p bn s b t where
  grows := h.grows.mono fun _ => .inl
  addr := by rw [h.own, if_pos rfl]
  ne := h.ne
  blocks := h.blocks
  lh := hlh
  same := fun hne => absurd h.empty hne

theorem Working.mapped_entry (h : Working s p) {j : Nat} (hj : j < NINDIRECT)
    (hnz : (s.icache p).din.addr NDIRECT ≠ 0)
    (h0 : s.own p ((s.icache p).inum, NDIRECT + 1 + j) = 0) (hb : b < s.sb.size.toNat)
    (hbit : blockBit s.sb s.disk b = false) (hslot : slotOf bn = NDIRECT + 1 + j) :
    Mapped p bn s b (s.allocEntry p j b) := by
  have ht := h.takes_entry hj hnz h0 hb hbit
  refine .of_takes (hslot ▸ ht) fun c => ?_
  have hind : (s.allocEntry p j b).own p ((s.icache p).inum, NDIRECT) =
      (s.icache p).din.addr NDIRECT := by
    rw [ht.own, if_neg (by simp only [Prod.mk.injEq]; omega)]
    exact h.own_of_le (Nat.le_refl _)
  rw [ht.grew, hind, State.mem_lh_allocEntry]
  simp only [show NDIRECT < NDIRECT + 1 + j by omega, true_and]

theorem Working.lh_addr (h : Working s p) (hk : k ≤ NDIRECT)
    (h0 : (s.icache p).din.addr k = 0) (hb : b < s.sb.size.toNat)
    (hbit : blockBit s.sb s.disk b = false) (c : Nat) :
    c ∈ (s.alloc b).lh ↔
      c ∈ s.lh ∨ Grew p s ((s.alloc b).setDin p ((s.icache p).din.setAddr k b)) c := by
  rw [(h.takes_addr hk h0 hb hbit).grew, State.mem_lh_alloc]
  simp only [show ¬NDIRECT < k by omega, false_and, or_false]

theorem Mapped.trans_indirect (h : Mapped p bn t b u) (ht : Takes p NDIRECT c s t)
    (hlh : ∀ c, c ∈ t.lh ↔ c ∈ s.lh ∨ Grew p s t c) (hbn : NDIRECT ≤ bn)
    (h0 : s.own p ((s.icache p).inum, slotOf bn) = 0) : Mapped p bn s b u where
  grows := (ht.grows.mono fun _ hk => .inr ⟨hbn, hk⟩).trans h.grows
  addr := by rw [← ht.grows.inum]; exact h.addr
  ne := h.ne
  blocks := fun x hx => (h.blocks x hx).trans (ht.blocks x hx)
  lh := fun c => by rw [h.lh, hlh, ht.grows.grew_trans h.grows, or_assoc]
  same := fun hne => absurd h0 hne

theorem wp_bmap (h : Working s p) (hbn : bn < MAXFILE) (hr : Room E s (r + 1 + s.due p))
    (hs : Spare E s (n + s.needs p bn)) :
    (bmap p bn).wp E (fun b t => Mapped p bn s b t ∧ Spare E t n ∧
      (Room E t (r + 1 + t.due p) ∨ b ∈ t.lh ∧ Room E t (r + t.due p))) s := by
  by_cases hnz : s.own p ((s.icache p).inum, slotOf bn) ≠ 0
  · exact wp_bmap_old h hnz ⟨.refl h hnz, hs.mono (Nat.le_add_right ..), .inl hr⟩
  rw [not_not] at hnz
  unfold bmap
  split
  next hlt =>
    have hslot : slotOf bn = bn := if_pos hlt
    have hown := h.own_of_le (Nat.le_of_lt hlt)
    have hneeds : s.needs p bn = 1 := by rw [State.needs, if_pos hnz, if_neg (by omega)]
    have h0 : (s.icache p).din.addr bn = 0 := by rw [← hown, ← hnz, hslot]
    rw [hneeds] at hs
    refine wp_bmapAddr (r := r + s.due p) h (fun _ => hr.mono (by omega)) (fun _ => hs)
      (fun hne => absurd h0 hne) fun b _ hb hbit hroom hspare => ?_
    have ht := h.takes_addr (Nat.le_of_lt hlt) h0 hb hbit
    refine ⟨.of_takes (hslot.symm ▸ ht) (h.lh_addr (Nat.le_of_lt hlt) h0 hb hbit), hspare,
      .inr ⟨?_, ?_⟩⟩
    · exact State.mem_lh_alloc.mpr (.inr (.inr rfl))
    · refine (hroom.mono (Nat.add_le_add_left (State.due_le ?_ fun c hc => ?_) r)).setDin
      · rw [State.setDin_self]
        exact (Dinode.addr_setAddr (Nat.le_of_lt hlt)
          (Nat.lt_trans hb s.sb.size.toNat_lt)).trans (if_neg (Nat.ne_of_gt hlt))
      · exact State.mem_lh_alloc.mpr (.inl hc)
  next hge =>
    have hj : bn - NDIRECT < NINDIRECT := by
      simp only [MAXFILE] at hbn
      omega
    have hslot : slotOf bn = NDIRECT + 1 + (bn - NDIRECT) := by
      rw [slotOf, if_neg hge]
      omega
    have hge' : NDIRECT ≤ bn := Nat.le_of_not_lt hge
    have hnz' := hslot ▸ hnz
    rw [if_pos hj, wp_bind]
    by_cases hind : (s.icache p).din.addr NDIRECT = 0
    · -- first the indirect block, then its entry
      have hneeds : s.needs p bn = 2 := by rw [State.needs, if_pos hnz, if_pos ⟨hge', hind⟩]
      have hdue : s.due p = 1 := if_neg fun h => h.1 hind
      rw [hneeds] at hs
      rw [hdue] at hr
      refine wp_bmapAddr (r := r + 1) (n := n + 1) h (fun _ => hr) (fun _ => hs)
        (fun hne => absurd hind hne) fun c _ hc hcbit hroom hspare => ?_
      have htake := h.takes_addr (Nat.le_refl _) hind hc hcbit
      have hlh := h.lh_addr (Nat.le_refl _) hind hc hcbit
      have hmem : c ∈ (s.alloc c).lh := State.mem_lh_alloc.mpr (.inr (.inr rfl))
      generalize ht : (s.alloc c).setDin p ((s.icache p).din.setAddr NDIRECT c) = t at htake hlh ⊢
      have htlh : t.lh = (s.alloc c).lh := by rw [← ht]; rfl
      rw [← htlh] at hlh hmem
      have hroom : Room E t (r + 1) := ht ▸ hroom.setDin
      have hspare : Spare E t (n + 1) := ht ▸ hspare
      have hg := htake.grows
      have hw := hg.working h
      have haddr : (t.icache p).din.addr NDIRECT = c := by
        rw [← hw.own_of_le (Nat.le_refl _), hg.inum, htake.own, if_pos rfl]
      have hc0 : (t.icache p).din.addr NDIRECT ≠ 0 := by rw [haddr]; exact htake.ne
      have hdue : t.due p = 0 := State.due_eq_zero hc0 (haddr ▸ hmem)
      have hent : t.own p ((t.icache p).inum, NDIRECT + 1 + (bn - NDIRECT)) = 0 := by
        rw [hg.inum, htake.own, if_neg (by simp only [Prod.mk.injEq]; omega)]
        exact hnz'
      have := wp_bmapEntry (E := E) (r := r) (n := n)
        (Q := fun b u => Mapped p bn s b u ∧ Spare E u n ∧
          (Room E u (r + 1 + u.due p) ∨ b ∈ u.lh ∧ Room E u (r + u.due p)))
        hw hc0 hj (fun _ => hdue ▸ hroom) (fun _ => hspare)
        (fun hne => absurd hent hne) fun b _ hb hbit hroom' hspare' => by
          refine ⟨(hw.mapped_entry hj hc0 hent hb hbit hslot).trans_indirect htake hlh hge' hnz,
            hspare', .inr ⟨State.mem_lh_allocEntry.mpr (.inr (.inr (.inl rfl))), ?_⟩⟩
          have hdue' : (t.allocEntry p (bn - NDIRECT) b).due p ≤ t.due p :=
            State.due_le rfl fun c hc => State.mem_lh_allocEntry.mpr (.inl hc)
          exact hroom'.mono (by omega)
      rwa [haddr] at this
    · have hneeds : s.needs p bn = 1 := by
        rw [State.needs, if_pos hnz, if_neg fun h => hind h.2]
      rw [hneeds] at hs
      refine wp_bmapAddr (r := 0) (n := 0) h (fun h0 => absurd h0 hind) (fun h0 => absurd h0 hind)
        (fun _ => ?_) fun _ h0 => absurd h0 hind
      refine wp_bmapEntry h hind hj (fun _ => hr) (fun _ => hs) (fun hne => absurd hnz' hne)
        fun b _ hb hbit hroom hspare => ?_
      refine ⟨h.mapped_entry hj hind hnz' hb hbit hslot, hspare,
        .inr ⟨State.mem_lh_allocEntry.mpr (.inr (.inr (.inl rfl))), ?_⟩⟩
      have hdue : (s.allocEntry p (bn - NDIRECT) b).due p = 0 :=
        State.due_eq_zero hind (State.mem_lh_allocEntry.mpr (.inr (.inr (.inr rfl))))
      rw [hdue]
      exact hroom

end

end Xv6.Fs
