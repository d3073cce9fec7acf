import Xv6.Fs.Mounted
import Xv6.Fs.Refine

/-!
# What `mkfs` has built so far

While `mkfs` runs, the image holds a list of files, each with a type and the bytes that were appended
to it (`Built`): seen as a disk it satisfies the invariant of the kernel, its nodes are these files,
and no more blocks are taken than they need. `ialloc` adds a file, and `iappend` bytes to one of
them.
-/

namespace Xv6.Fs.Mkfs

open State
open List

/-! ## Files -/

/-- The type and the bytes of each file, from inode `1` on. -/
abbrev Contents := List (UInt16 × List UInt8)

def fileNode : Option (UInt16 × List UInt8) → Node
  | some x => ⟨x.1, 0, 0, 1, x.2⟩
  | none => .free

/-- The node of an inode. Inode `0` is not used. -/
def nodeAt (L : Contents) : Nat → Node
  | 0 => .free
  | k + 1 => fileNode L[k]?

/-- The blocks of a file of `size` bytes, with its indirect block. -/
def blocks (size : Nat) : Nat :=
  (size + (BSIZE - 1)) / BSIZE + if NDIRECT * BSIZE < size then 1 else 0

def total (L : Contents) : Nat := (L.map fun x => blocks x.2.length).sum

section
variable {A B L : Contents} {x y : UInt16 × List UInt8} {i : Nat}

@[simp] theorem total_append : total (A ++ B) = total A + total B := by
  rw [total, map_append, sum_append, total, total]

@[simp] theorem total_cons : total (x :: B) = blocks x.2.length + total B := by
  rw [total, map_cons, sum_cons, total]

theorem total_nil : total [] = 0 := rfl

theorem blocks_mono (h : a ≤ b) : blocks a ≤ blocks b := by
  refine Nat.add_le_add (Nat.div_le_div_right (by omega)) ?_
  split <;> split <;> omega

theorem nodeAt_of_lt (h : L.length < i) : nodeAt L i = .free := by
  cases i with
  | zero => rfl
  | succ k =>
    rw [nodeAt, List.getElem?_eq_none (Nat.le_of_lt_succ h)]
    rfl

theorem nodeAt_self : nodeAt (A ++ x :: B) (A.length + 1) = ⟨x.1, 0, 0, 1, x.2⟩ := by
  rw [nodeAt, List.getElem?_append_right (Nat.le_refl _), Nat.sub_self]
  rfl

theorem nodeAt_set : nodeAt (A ++ y :: B) =
    update (nodeAt (A ++ x :: B)) (A.length + 1) ⟨y.1, 0, 0, 1, y.2⟩ := by
  funext i
  by_cases hi : i = A.length + 1
  · rw [hi, update_self, nodeAt_self]
  · rw [update_of_ne hi]
    cases i with
    | zero => rfl
    | succ k =>
      refine congrArg fileNode ?_
      rcases Nat.lt_or_ge k A.length with hlt | hge
      · rw [List.getElem?_append_left hlt, List.getElem?_append_left hlt]
      · obtain ⟨j, hj⟩ : ∃ j, k - A.length = j + 1 := ⟨k - A.length - 1, by omega⟩
        rw [List.getElem?_append_right hge, List.getElem?_append_right hge, hj,
          List.getElem?_cons_succ, List.getElem?_cons_succ]

theorem nodeAt_append : nodeAt (L ++ [y]) =
    update (nodeAt L) (L.length + 1) ⟨y.1, 0, 0, 1, y.2⟩ := by
  funext i
  by_cases hi : i = L.length + 1
  · rw [hi, update_self, nodeAt_self]
  · rw [update_of_ne hi]
    cases i with
    | zero => rfl
    | succ k =>
      refine congrArg fileNode ?_
      rcases Nat.lt_or_ge k L.length with hlt | hge
      · rw [List.getElem?_append_left hlt]
      · rw [List.getElem?_eq_none hge, List.getElem?_eq_none]
        rw [length_append, length_singleton]
        omega

end

/-! ## Facts about the kernel -/

section
variable {s t : State} {p : Ip} {d : Dinode} {off len : Nat}

theorem working_setDin (h : Working s p) (htype : d.type = (s.icache p).din.type)
    (haddrs : d.addrs = (s.icache p).din.addrs) : Working (s.setDin p d) p where
  geometry := h.geometry
  inum := by
    rw [setDin_self]
    exact h.inum
  type := by
    rw [setDin_self, htype]
    exact h.type
  alloc := ⟨h.alloc.exact.congr (congrFun (own_setDin htype haddrs)) fun _ _ => rfl,
    h.alloc.reserved⟩

theorem own_flushed (h : Working s p) :
    own s.sb (s.flush p).disk (dinodeAt s.sb (s.flush p).disk) = s.own p := by
  rw [dinodeAt_flush, h.own_flush]

theorem fileByte_flushed (h : Working s p) :
    fileByte s.sb (s.flush p).disk (dinodeAt s.sb (s.flush p).disk) = s.byte p := by
  funext j x
  rw [fileByte, own_flushed h, h.blockOf_flush]
  rfl

theorem fills_mono (h : Fills 0 off k) : Fills 0 (off + len) k := by
  obtain ⟨bn, hbn, hk⟩ := h
  refine ⟨bn, ⟨?_, hbn.2.1, ?_⟩, hk⟩
  · have := hbn.1
    omega
  · have := hbn.2.2
    omega

theorem fills_end (h : Fills off len k) : Fills 0 (off + len) k := by
  obtain ⟨bn, hbn, hk⟩ := h
  refine ⟨bn, ⟨?_, ?_, ?_⟩, hk⟩
  · have := hbn.1
    omega
  · exact Nat.zero_le _
  · have := hbn.2.2
    omega

theorem touches_last (hpos : 0 < len) : Touches off len ((off + len - 1) / BSIZE) := by
  simp only [Touches, BSIZE]
  omega

/-- Appending to a file without holes takes no more blocks than the bytes need. -/
theorem needed_add_blocks (h : Working s p)
    (hfull : ∀ bn, bn * BSIZE < off → s.own p ((s.icache p).inum, slotOf bn) ≠ 0) :
    s.needed p off len + blocks off ≤ blocks (off + len) := by
  have hsub : ((Finset.range MAXFILE).filter fun bn =>
      Touches off len bn ∧ s.own p ((s.icache p).inum, slotOf bn) = 0) ⊆
      Finset.Ico ((off + (BSIZE - 1)) / BSIZE) ((off + len + (BSIZE - 1)) / BSIZE) := by
    intro bn hbn
    obtain ⟨-, htouch, h0⟩ := Finset.mem_filter.mp hbn
    have hge : ¬bn * BSIZE < off := fun hlt => hfull bn hlt h0
    have hlt := htouch.2.2
    rw [Finset.mem_Ico]
    simp only [BSIZE] at *
    omega
  have hcard := Finset.card_le_card hsub
  rw [Nat.card_Ico] at hcard
  have hdiv : (off + (BSIZE - 1)) / BSIZE ≤ (off + len + (BSIZE - 1)) / BSIZE :=
    Nat.div_le_div_right (by omega)
  have hind : (if 0 < len ∧ NDIRECT * BSIZE < off + len ∧ (s.icache p).din.addr NDIRECT = 0 then 1
      else 0) + (if NDIRECT * BSIZE < off then 1 else 0) ≤
      if NDIRECT * BSIZE < off + len then 1 else 0 := by
    by_cases hbig : NDIRECT * BSIZE < off
    · have hnz : (s.icache p).din.addr NDIRECT ≠ 0 := by
        rw [← h.own_of_le (Nat.le_refl _)]
        exact fun h0 => hfull NDIRECT hbig (own_eq_zero_of_indirect (by decide) h0)
      rw [if_neg fun hc => hnz hc.2.2, if_pos hbig, if_pos (by omega)]
    · rw [if_neg hbig, Nat.add_zero]
      split
      next hc => rw [if_pos hc.2.1]
      next => exact Nat.zero_le _
  unfold State.needed blocks
  omega

end

/-! ## The invariant -/

/-- The state of a kernel that has opened no file of the image. -/
def Image.kernel (n : Nat) (m : Image) : State where
  disk := m.mounted n
  sb := super n
  icache := fun _ => ⟨0, 0, false, false, Dinode.zero⟩
  logSize := nlog
  outstanding := 0
  lh := []
  committed := []

/-- The places of the inodes that hold block numbers. -/
def Image.own (n : Nat) (m : Image) : Nat × Nat → Nat :=
  Fs.own (super n) (m.mounted n) (dinodeAt (super n) (m.mounted n))

def Image.byte (n : Nat) (m : Image) : Nat → Nat → UInt8 :=
  fileByte (super n) (m.mounted n) (dinodeAt (super n) (m.mounted n))

/-- The image, with room for inodes up to `n`, holds the files `L`. -/
structure Built (n : Nat) (m : Image) (L : Contents) : Prop where
  roomy : n ≤ roomy
  lt : L.length < n
  inv : FsInv (m.kernel n)
  node : (m.kernel n).node = nodeAt L
  type : ∀ x ∈ L, x.1 ≠ 0
  freeinode : m.freeinode = L.length + 1
  unused : ∀ i < n, i = 0 ∨ L.length < i → dinodeAt (super n) (m.mounted n) i = Dinode.zero
  only : ∀ i k, m.own n (i, k) ≠ 0 → Fills 0 (nodeAt L i).data.length k
  pad : ∀ i x, (nodeAt L i).data.length ≤ x → m.byte n i x = 0
  fresh : ∀ b, m.freeblock ≤ b → m.disk b = Bytes.zero
  taken : nmeta ≤ m.freeblock
  room : m.freeblock ≤ FSSIZE
  count : m.freeblock ≤ nmeta + total L
  super : m.disk 1 = superBlock NINODES

theorem cached_empty {s : State} (h : ∀ p, (s.icache p).ref = 0) : CachedBut none s := by
  have hno : ∀ p, ¬0 < (s.icache p).ref := fun p hp => by
    rw [h p] at hp
    exact absurd hp (Int.lt_irrefl 0)
  exact ⟨fun p hp => absurd hp (hno p), fun p _ hp => absurd hp.1 (hno p),
    fun p hp => absurd hp.1 (hno p), fun p _ hp => absurd hp (hno p)⟩

/-- The invariant does not depend on the cache. -/
theorem kernel_inv {m : Image} {s : State} (h : FsInv s) (hsb : s.sb = super n)
    (hdisk : s.disk = m.mounted n) : FsInv (m.kernel n) := by
  obtain ⟨hg, hs, ha, hf, -⟩ := h
  rw [hsb] at hg hs ha hf
  rw [hdisk] at hs ha hf
  exact ⟨hg, hs, ha, hf, cached_empty fun _ => rfl⟩

section
variable {n i : Nat} {m m' : Image} {L A B : Contents} {x : UInt16 × List UInt8} {p : Ip}
variable {E : Fault → Prop}

theorem Built.node_eq (h : Built n m L) (hi : i < n) :
    (nodeAt L i).type = (dinodeAt (Mkfs.super n) (m.mounted n) i).type ∧
    (nodeAt L i).nlink = (dinodeAt (Mkfs.super n) (m.mounted n) i).nlink ∧
    (nodeAt L i).data.length = (dinodeAt (Mkfs.super n) (m.mounted n) i).size.toNat := by
  have hi' : i < (m.kernel n).sb.ninodes.toNat := by
    change i < (Mkfs.super n).ninodes.toNat
    rwa [super_ninodes h.roomy]
  rw [← h.node, State.node, nodeOf, if_pos hi']
  exact ⟨rfl, rfl, by rw [length_map, length_range]; rfl⟩

/-! ## `winode` and `rinode` -/

theorem wp_rinode {Q : Dinode → Image → Prop} (hi : i < roomy) :
    (rinode i).wp E Q m ↔ Q (dinodeAt sb m.disk i) m := by
  have hlt : iblock sb i < 58 := iblock_lt (n := NINODES) hi
  have hsec : sector (iblock sb i) = iblock sb i :=
    sector_eq (Nat.le_of_lt (Nat.lt_trans hlt (by decide)))
  rw [rinode, wp_bind, rsect, hsec, if_pos (Nat.lt_trans hlt (by decide))]
  rfl

theorem wp_winode {Q : Unit → Image → Prop} (hi : i < roomy) :
    (winode i d).wp E Q m ↔ Q () { m with disk := putDinode sb m.disk i d } := by
  have hlt : iblock sb i < 58 := iblock_lt (n := NINODES) hi
  have hle : iblock sb i ≤ FSSIZE := Nat.le_of_lt (Nat.lt_trans hlt (by decide))
  rw [winode, wp_bind, rsect, sector_eq hle, if_pos (Nat.lt_trans hlt (by decide)),
    wp_gets, wp_wsect hle]
  rfl

theorem dinodeAt_mounted (hi : i < roomy) :
    dinodeAt (super n) (m.mounted n) i = dinodeAt sb m.disk i := by
  rw [dinodeAt, mounted_iblock hi]
  rfl

theorem Keeps.putDinode (hi : i < roomy) :
    Keeps m { m with disk := putDinode sb m.disk i d } :=
  .update (iblock_ne (n := NINODES) hi)

/-! ## `ialloc` -/

theorem fresh_putDinode (hi : i < Mkfs.roomy) (hfresh : ∀ b, m.freeblock ≤ b → m.disk b = Bytes.zero)
    (htaken : nmeta ≤ m.freeblock) (b : Nat) (hb : m.freeblock ≤ b) :
    putDinode sb m.disk i d b = Bytes.zero := by
  have hlt : iblock sb i < 58 := iblock_lt (n := NINODES) hi
  rw [nmeta_eq] at htaken
  exact (update_of_ne (by omega) ..).trans (hfresh b hb)

theorem Built.wp_ialloc (h : Built n m L) (type : UInt16) (hlt : L.length + 1 < n)
    (htype : type ≠ 0) :
    (ialloc type).wp E (fun i m' => i = L.length + 1 ∧ Built n m' (L ++ [(type, [])]) ∧
      m.freeblock ≤ m'.freeblock) m := by
  have hroomy := h.roomy
  have hi : L.length + 1 < Mkfs.roomy := by omega
  have hi' : L.length + 1 < (m.kernel n).sb.ninodes.toNat := by
    change L.length + 1 < (Mkfs.super n).ninodes.toNat
    rwa [super_ninodes h.roomy]
  simp only [ialloc, wp_bind, wp_gets, wp_modify, h.freeinode]
  rw [wp_winode hi]
  refine ⟨rfl, ?_, Nat.le_refl _⟩
  generalize hd : { Dinode.zero with type, nlink := 1 } = d
  generalize hm : Image.mk (putDinode sb m.disk (L.length + 1) d) (L.length + 1 + 1) m.freeblock = m'
  have haddr : ∀ k, d.addr k = 0 := by
    rw [← hd]
    exact addr_zero
  have hmounted : m'.mounted n = putDinode (Mkfs.super n) (m.mounted n) (L.length + 1) d := by
    rw [← hm]
    exact mounted_putDinode (m := m) hi
  have hfree : (dinodeAt (m.kernel n).sb (m.kernel n).disk (L.length + 1)).type = 0 :=
    congrArg Dinode.type (h.unused _ hlt (.inr (Nat.lt_succ_self _)))
  have hown : m'.own n = m.own n := by
    rw [Image.own, hmounted]
    exact h.inv.own_put hi' hfree haddr
  have hnode : (m'.kernel n).node = nodeAt (L ++ [(type, [])]) := by
    rw [h.inv.node_put (t := m'.kernel n) hi' hfree haddr (by rw [← hd]; rfl) rfl hmounted, h.node,
      nodeAt_append, ← hd]
    rfl
  have hdata : ∀ i, (nodeAt (L ++ [(type, [])]) i).data = (nodeAt L i).data := by
    intro i
    rw [nodeAt_append]
    by_cases hi : i = L.length + 1
    · rw [hi, update_self, nodeAt_of_lt (Nat.lt_succ_self _)]
      rfl
    · rw [update_of_ne hi]
  refine ⟨hroomy, ?_, h.inv.put (t := m'.kernel n) hi' hfree haddr (by rw [← hd]; rfl) rfl hmounted
    rfl, hnode, fun x hx => ?_, ?_, fun i hin hi0 => ?_, fun i k hk => ?_, fun i x hx => ?_, ?_, ?_,
    ?_, ?_, ?_⟩
  · rw [length_append]
    exact hlt
  · rcases mem_append.mp hx with hx | hx
    · exact h.type x hx
    · rw [mem_singleton.mp hx]
      exact htype
  · rw [← hm, length_append, length_singleton]
  · rw [length_append, length_singleton] at hi0
    rw [hmounted, dinodeAt_put, update_of_ne (by omega)]
    exact h.unused i hin (by omega)
  · rw [hdata]
    rw [hown] at hk
    exact h.only i k hk
  · rw [hdata] at hx
    rw [← h.pad i x hx]
    change (blockOf (m'.mounted n) (m'.own n _)).get _ = (blockOf (m.mounted n) (m.own n _)).get _
    rw [hown, blockOf, blockOf]
    split
    · rfl
    next hnz =>
      have hne : m.own n (i, slotOf (x / BSIZE)) ≠ iblock (Mkfs.super n) (L.length + 1) :=
        (h.inv.geometry.iblock_ne_data hi' (h.inv.alloc.exact.pool hnz)).symm
      rw [hmounted, putDinode, update_of_ne hne]
  · rw [← hm]
    exact fresh_putDinode hi h.fresh h.taken
  · rw [← hm]
    exact h.taken
  · rw [← hm]
    exact h.room
  · rw [← hm, total_append]
    exact Nat.le_trans h.count (by omega)
  · rw [← hm]
    exact (Keeps.putDinode hi).super.trans h.super

/-! ## `iappend` -/

/-- The state of a kernel that has opened inode `i` of the image. -/
def Image.opened (n : Nat) (m : Image) (p : Ip) (i : Nat) : State :=
  (m.kernel n).setInode p ⟨i, 1, false, true, dinodeAt (super n) (m.mounted n) i⟩

theorem Built.opened_inv (h : Built n m L) (hi : i < n) (htype : (nodeAt L i).type ≠ 0) :
    FsInv (m.opened n p i) ∧ Valid (m.opened n p i) p := by
  have hi' : i < (m.kernel n).sb.ninodes.toNat := by
    change i < (Mkfs.super n).ninodes.toNat
    rwa [super_ninodes h.roomy]
  refine ⟨h.inv.setInode (fun _ => hi') (fun _ _ => ⟨rfl, ?_⟩) fun _ q _ hq => ?_, ?_⟩
  · rw [(h.node_eq hi).1] at htype
    exact htype
  · exact absurd hq (Int.lt_irrefl 0)
  · rw [Valid, Image.opened, setInode_self]
    exact ⟨Int.one_pos, rfl⟩

theorem Built.shows (h : Built n m L) (hi : i < n) (htype : (nodeAt L i).type ≠ 0) :
    Shows n p i m (dinodeAt (Mkfs.super n) (m.mounted n) i) (m.opened n p i) := by
  obtain ⟨hinv, hv⟩ := h.opened_inv (p := p) hi htype
  exact {
    sb := rfl
    disk := rfl
    inum := by rw [Image.opened, setInode_self]
    din := by rw [Image.opened, setInode_self]
    working := (hinv.pending hv).working
    fresh := h.fresh
    taken := h.taken
    room := h.room }

theorem Shows.own_eq {d : Dinode} {s : State} (h : Shows n p i m d s) (hinv : FsInv s)
    (hv : Valid s p) : s.own p = m.own n ∧ s.byte p = m.byte n := by
  have hview := hinv.view_eq hv
  constructor
  · rw [State.own, hview, h.sb, h.disk]
    rfl
  · funext j x
    rw [State.byte, hview, h.sb, h.disk]
    rfl

theorem Shows.node_eq {d : Dinode} {s : State} (h : Shows n p i m d s) :
    s.node = (m.kernel n).node := by
  rw [State.node, h.sb, h.disk]
  rfl

/-- The bytes `src` were written from offset `off` on, which is the end of the file of inode `i`. -/
structure Appended (n i off : Nat) (src : List UInt8) (m m' : Image) : Prop extends Keeps m m' where
  inv : FsInv (m'.kernel n)
  node : (m'.kernel n).node = Function.update (m.kernel n).node i
    { (m.kernel n).node i with data := writeAt ((m.kernel n).node i).data off src }
  own : ∀ x, m'.own n x ≠ m.own n x → x.1 = i ∧ Fills off src.length x.2
  byte : ∀ j y, m'.byte n j y =
    if j = i ∧ off ≤ y ∧ y < off + src.length then src.getD (y - off) 0 else m.byte n j y
  table : ∀ j < n, j ≠ i →
    dinodeAt (Mkfs.super n) (m'.mounted n) j = dinodeAt (Mkfs.super n) (m.mounted n) j
  fresh : ∀ b, m'.freeblock ≤ b → m'.disk b = Bytes.zero
  taken : nmeta ≤ m'.freeblock
  room : m'.freeblock ≤ FSSIZE

/-- What `winode` makes of the image is what `iupdate` would make of the disk. -/
theorem Shows.flush_disk {t : State} {d d' : Dinode} (h : Shows n p i m d t) (hi : i < roomy) :
    ((t.setDin p d').flush p).disk =
      Image.mounted n { m with disk := putDinode Mkfs.sb m.disk i d' } := by
  rw [mounted_putDinode hi, State.flush, write_disk, setDin_self, setDin_sb,
    setDin_disk, h.sb, h.disk, h.inum]
  rfl

theorem written_end_lt {s t : State} {src : List UInt8} {off : Nat} (h : Written p off src s t)
    (hpos : 0 < src.length) : off + src.length < 2 ^ 32 := by
  have hlast := lt_maxfile_of_own (h.mapped _ (touches_last hpos))
  rw [Nat.div_lt_iff_lt_mul (by decide)] at hlast
  simp only [MAXFILE, NDIRECT, NINDIRECT, BSIZE] at hlast
  omega

theorem Shows.appended {s t : State} {d d₁ : Dinode} {src : List UInt8} (hs : Shows n p i m d s)
    (hinv : FsInv s) (hv : Valid s p) (ht : Shows n p i m' d₁ t) (hk : Keeps m m')
    (hw : Written p d.size.toNat src s t) (hpos : 0 < src.length) (hn : n ≤ roomy) (hi : i < n) :
    Appended n i d.size.toNat src m { m' with
      disk := putDinode Mkfs.sb m'.disk i
        { d₁ with size := UInt32.ofNat (d.size.toNat + src.length) } } := by
  have hroomy : i < Mkfs.roomy := Nat.lt_of_lt_of_le hi hn
  have hwrote := hw.wrote hinv hv (Nat.le_of_eq (by rw [hs.din])) (written_end_lt hw hpos)
  have hlt : (t.icache p).din.size.toNat < d.size.toNat + src.length := by
    rw [hw.grows.size, hs.din]
    omega
  generalize hd' : { d₁ with size := UInt32.ofNat (d.size.toNat + src.length) } = d'
  have htype : d'.type = (t.icache p).din.type := by rw [ht.din, ← hd']
  have haddrs : d'.addrs = (t.icache p).din.addrs := by rw [ht.din, ← hd']
  have hflush : ((t.setDin p d').flush p).disk = _ := ht.flush_disk hroomy
  have hv' := working_setDin ht.working htype haddrs
  rw [State.resize, if_pos hlt, ht.din, hd', hs.inum] at hwrote
  have hsb : ((t.setDin p d').flush p).sb = Mkfs.super n := ht.sb
  generalize hm : Image.mk (putDinode Mkfs.sb m'.disk i d') m'.freeinode m'.freeblock = m''
  rw [hm] at hflush
  obtain ⟨hown, hbyte⟩ := hs.own_eq hinv hv
  have hown' : m''.own n = t.own p := by
    rw [← own_setDin htype haddrs, ← own_flushed hv', hflush, setDin_sb, ht.sb]
    rfl
  have hbyte' : m''.byte n = t.byte p := by
    rw [← byte_setDin htype haddrs, ← fileByte_flushed hv', hflush, setDin_sb, ht.sb]
    rfl
  refine ⟨hk.trans (hm ▸ .putDinode hroomy), kernel_inv hwrote.inv hsb hflush, ?_, fun x hx => ?_,
    fun j y => ?_, fun j hj hji => ?_, ?_, ?_, ?_⟩
  · rw [← hs.node_eq, ← hwrote.node, State.node, State.node, hsb, hflush]
    rfl
  · rw [hown', ← hown] at hx
    rw [← hs.inum]
    exact hw.grows.only hx
  · rw [hbyte', hw.byte, hs.inum, hbyte]
  · have htable := hw.grows.table j (by rw [hs.sb, super_ninodes hn]; exact hj)
    have hview : view (t.setDin p d') p j = dinodeAt t.sb t.disk j := by
      refine view_of_ne ?_
      rw [setDin_self, ht.inum]
      exact hji
    rw [hw.grows.sb, htable, hs.sb, hs.disk] at hview
    rw [← hview, ← dinodeAt_flush, hflush, setDin_sb, ht.sb]
  · rw [← hm]
    exact fresh_putDinode hroomy ht.fresh ht.taken
  · rw [← hm]
    exact ht.taken
  · rw [← hm]
    exact ht.room

theorem Built.append {src : List UInt8} (h : Built n m (A ++ x :: B))
    (ha : Appended n (A.length + 1) x.2.length src m m')
    (hcount : m'.freeblock ≤ nmeta + total (A ++ (x.1, x.2 ++ src) :: B)) :
    Built n m' (A ++ (x.1, x.2 ++ src) :: B) := by
  have hnode : (m'.kernel n).node = nodeAt (A ++ (x.1, x.2 ++ src) :: B) := by
    rw [ha.node, h.node, nodeAt_set (x := x) (y := (x.1, x.2 ++ src)), nodeAt_self]
    congr 2
    rw [writeAt, take_length, drop_eq_nil_of_le (Nat.le_add_right ..), append_nil]
  have hother : ∀ j, j ≠ A.length + 1 → (nodeAt (A ++ (x.1, x.2 ++ src) :: B) j).data =
      (nodeAt (A ++ x :: B) j).data := fun j hj => by
    rw [nodeAt_set (x := x), update_of_ne hj]
  have hself : (nodeAt (A ++ (x.1, x.2 ++ src) :: B) (A.length + 1)).data.length =
      x.2.length + src.length := by
    rw [nodeAt_self]
    exact length_append
  have hlength : (A ++ (x.1, x.2 ++ src) :: B).length = (A ++ x :: B).length := by
    rw [length_append, length_append, length_cons, length_cons]
  refine ⟨h.roomy, hlength ▸ h.lt, ha.inv, hnode, fun y hy => ?_, ?_, fun j hj hj0 => ?_,
    fun j k hne => ?_, fun j y hy => ?_, ha.fresh, ha.taken, ha.room, hcount,
    ha.super.trans h.super⟩
  · rcases mem_append.mp hy with hy | hy
    · exact h.type y (mem_append_left _ hy)
    · rcases mem_cons.mp hy with rfl | hy
      · exact h.type x (mem_append_right _ (mem_cons_self ..))
      · exact h.type y (mem_append_right _ (mem_cons_of_mem _ hy))
  · rw [ha.freeinode, h.freeinode, hlength]
  · rw [hlength] at hj0
    rw [ha.table j hj ?_]
    · exact h.unused j hj hj0
    · rw [length_append, length_cons] at hj0
      omega
  · by_cases hold : m'.own n (j, k) = m.own n (j, k)
    · rw [hold] at hne
      have hfill := h.only j k hne
      by_cases hji : j = A.length + 1
      · subst hji
        rw [hself]
        rw [nodeAt_self] at hfill
        exact fills_mono hfill
      · rwa [hother j hji]
    · obtain ⟨rfl, hfill⟩ := ha.own _ hold
      rw [hself]
      exact fills_end hfill
  · rw [ha.byte]
    by_cases hji : j = A.length + 1
    · subst hji
      rw [hself] at hy
      rw [if_neg (by omega)]
      refine h.pad _ y ?_
      rw [nodeAt_self]
      exact Nat.le_trans (Nat.le_add_right ..) hy
    · rw [if_neg fun hc => hji hc.1]
      rw [hother j hji] at hy
      exact h.pad j y hy

theorem Built.wp_iappend {src : List UInt8} (h : Built n m (A ++ x :: B)) (hpos : 0 < src.length)
    (hE : MAXFILE * BSIZE < x.2.length + src.length ∨
      FSSIZE < nmeta + total (A ++ (x.1, x.2 ++ src) :: B) → ∀ e, E e) :
    (iappend (A.length + 1) src).wp E (fun _ m' => Built n m' (A ++ (x.1, x.2 ++ src) :: B) ∧
      m.freeblock ≤ m'.freeblock) m := by
  have hlen := h.lt
  rw [length_append, length_cons] at hlen
  have hi : A.length + 1 < n := by omega
  have hroomy : A.length + 1 < Mkfs.roomy := Nat.lt_of_lt_of_le hi h.roomy
  have htype : (nodeAt (A ++ x :: B) (A.length + 1)).type ≠ 0 := by
    rw [nodeAt_self]
    exact h.type x (mem_append_right _ (mem_cons_self ..))
  let p : Ip := ⟨0, by decide⟩
  obtain ⟨hinv, hv⟩ := h.opened_inv (p := p) hi htype
  have hs := h.shows (p := p) hi htype
  generalize m.opened n p (A.length + 1) = s at hinv hv hs
  have hsize : (dinodeAt (Mkfs.super n) (m.mounted n) (A.length + 1)).size.toNat = x.2.length := by
    rw [← (h.node_eq hi).2.2, nodeAt_self]
  rw [iappend, wp_bind, wp_rinode hroomy, ← dinodeAt_mounted (n := n) hroomy, wp_bind]
  generalize dinodeAt (Mkfs.super n) (m.mounted n) (A.length + 1) = d at hs hsize
  -- the blocks that are taken are those that the file lacks
  have hneed : s.needed p d.size.toNat src.length + blocks d.size.toNat ≤
      blocks (d.size.toNat + src.length) := by
    refine needed_add_blocks hs.working fun bn hbn => ?_
    have hp := hinv.pending hv
    refine hp.full _ hp.working.inum (by rw [view_self]; exact hp.working.type) bn ?_
    rw [view_self, hs.din]
    exact hbn
  have htotal : total (A ++ (x.1, x.2 ++ src) :: B) + blocks d.size.toNat =
      total (A ++ x :: B) + blocks (d.size.toNat + src.length) := by
    rw [hsize]
    simp only [total_append, total_cons, length_append]
    omega
  have hcount := h.count
  refine wp_imp (hs.wp_iappendLoop (Nat.le_refl _) fun hbad => hE ?_)
    fun r m₁ ⟨hoff, hk, hle, t, ht, hw⟩ => ?_
  · exact hbad.imp (fun hbig => hsize ▸ hbig) fun hfull => by omega
  obtain ⟨d₁, off⟩ := r
  dsimp only at hoff ht ⊢
  subst hoff
  have happ := hs.appended hinv hv ht hk hw hpos h.roomy hi
  rw [wp_winode hroomy]
  refine ⟨h.append (hsize ▸ happ) ?_, happ.le⟩
  dsimp only
  omega

end

end Xv6.Fs.Mkfs
