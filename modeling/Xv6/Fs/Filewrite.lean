import Xv6.Fs.Cache
import Xv6.Fs.Refine
import Xv6.Fs.Sys

/-!
# The transactions of `filewrite`

`filewrite` cuts its bytes into transactions of at most `maxChunk` bytes. The blocks that one of them
logs are counted exactly: the blocks with the bytes, the block of the free map if some of these are
new, the indirect block if it gets a new entry, and the inode block if the file grows. `begin_op`
reserves `MAXOPBLOCKS` blocks, and a whole chunk has more blocks than that.
-/

namespace Xv6.Fs

open List

/-! ## Counting the blocks of a write -/

/-- The indices of the blocks with some of the `n` bytes from offset `off` on. -/
def touched (off n : Nat) : Finset Nat :=
  if n = 0 then ∅ else Finset.Icc (off / BSIZE) ((off + n - 1) / BSIZE)

/-- Inode `i` has no block with index `bn`. -/
def State.hole (s : State) (i bn : Nat) : Prop :=
  Fs.own s.sb s.disk (dinodeAt s.sb s.disk) (i, slotOf bn) = 0

instance (s : State) (i bn : Nat) : Decidable (s.hole i bn) := inferInstanceAs (Decidable (_ = _))

/-- The number of blocks that a write of `n` bytes at offset `off` of inode `i` logs, on a disk whose
free map is one block. -/
def State.logCount (s : State) (i off n : Nat) : Nat :=
  span off n + (if ∃ bn ∈ touched off n, s.hole i bn then 1 else 0) +
    (if ∃ bn ∈ touched off n, NDIRECT ≤ bn ∧ s.hole i bn then 1 else 0) +
    if (s.node i).data.length < off + n then 1 else 0

section
variable {s t u : State} {p : Ip} {off n bn i : Nat} {src : List UInt8}

theorem mem_touched : bn ∈ touched off n ↔ Touches off n bn := by
  unfold touched
  split
  next h => exact ⟨fun h => absurd h (Finset.notMem_empty _), fun h' => absurd h'.1 (by omega)⟩
  next h =>
    rw [Finset.mem_Icc]
    simp only [Touches, BSIZE]
    omega

theorem card_touched : (touched off n).card = span off n := by
  unfold touched span
  split
  next => rfl
  next =>
    rw [Nat.card_Icc]
    have := Nat.div_le_div_right (c := BSIZE) (by omega : off ≤ off + n - 1)
    omega

theorem bblock_eq (hsize : s.sb.size.toNat ≤ FSSIZE) (hb : b < s.sb.size.toNat) :
    bblock s.sb b = s.sb.bmapstart.toNat := by
  rw [bblock, Nat.div_eq_of_lt, Nat.zero_add]
  have : FSSIZE < BPB := by decide
  omega

theorem mem_ite_singleton {c : Prop} [Decidable c] {x y : Nat} :
    y ∈ (if c then {x} else ∅ : Finset Nat) ↔ c ∧ y = x := by
  by_cases hc : c
  · rw [if_pos hc, Finset.mem_singleton]
    exact ⟨fun h => ⟨hc, h⟩, fun h => h.2⟩
  · rw [if_neg hc]
    exact ⟨fun h => absurd h (Finset.notMem_empty _), fun h => absurd h.1 hc⟩

theorem card_union_ite {A : Finset Nat} {c : Prop} [Decidable c] {x : Nat} (hx : c → x ∉ A) :
    (A ∪ if c then {x} else ∅).card = A.card + if c then 1 else 0 := by
  by_cases hc : c
  · rw [if_pos hc, if_pos hc, Finset.card_union_of_disjoint
      (Finset.disjoint_singleton_right.mpr (hx hc)), Finset.card_singleton]
  · rw [if_neg hc, if_neg hc, Finset.union_empty, Nat.add_zero]

end

/-! ## The blocks that `writei` logs -/

section
variable {s u : State} {p : Ip} {off : Nat} {src : List UInt8}

/-- The blocks that are logged before the inode. -/
def State.loggedData (s u : State) (p : Ip) (off n : Nat) : Finset Nat :=
  (touched off n).image (fun bn => u.own p ((s.icache p).inum, slotOf bn)) ∪
    (if ∃ bn ∈ touched off n, s.own p ((s.icache p).inum, slotOf bn) = 0
      then {s.sb.bmapstart.toNat} else ∅) ∪
    if ∃ bn ∈ touched off n, NDIRECT ≤ bn ∧ s.own p ((s.icache p).inum, slotOf bn) = 0
      then {u.own p ((s.icache p).inum, NDIRECT)} else ∅

theorem Written.bblock_eq (h : Written p off src s u) (hw : Working s p)
    (hsize : s.sb.size.toNat ≤ FSSIZE) (hx : u.own p x ≠ 0) :
    bblock s.sb (u.own p x) = s.sb.bmapstart.toNat := by
  have hd := (h.grows.working hw).isData_own hx
  rw [h.grows.sb] at hd
  exact Fs.bblock_eq hsize hd.2

theorem lt_slotOf (h : NDIRECT ≤ bn) : NDIRECT < slotOf bn := by
  rw [slotOf, if_neg (by omega)]
  omega

theorem le_of_lt_slotOf (h : NDIRECT < slotOf bn) : NDIRECT ≤ bn := by
  unfold slotOf at h
  split at h <;> omega

/-- A place that was filled was missing for a block of the write. -/
theorem Written.hole_of_filled (h : Written p off src s u)
    (h0 : s.own p ((s.icache p).inum, k) = 0) (h1 : u.own p ((s.icache p).inum, k) ≠ 0) :
    ∃ bn ∈ touched off src.length, s.own p ((s.icache p).inum, slotOf bn) = 0 ∧
      (k = slotOf bn ∨ NDIRECT ≤ bn ∧ k = NDIRECT) := by
  obtain ⟨-, bn, hbn, hk⟩ := h.grows.only (h0 ▸ h1)
  refine ⟨bn, mem_touched.mpr hbn, ?_, hk⟩
  rcases hk with rfl | ⟨hge, rfl⟩
  · exact h0
  · exact own_eq_zero_of_indirect (lt_slotOf hge) h0

theorem Written.lh_eq (h : Written p off src s u) (hw : Working s p)
    (hsize : s.sb.size.toNat ≤ FSSIZE) (hlh : s.lh = []) :
    u.lh.toFinset = s.loggedData u p off src.length := by
  ext c
  rw [mem_toFinset, h.lh, hlh]
  simp only [State.loggedData, Finset.mem_union, Finset.mem_image, mem_ite_singleton]
  constructor
  · rintro (hc | ⟨k, h0, h1, hc⟩ | ⟨bn, hbn, rfl⟩)
    · exact absurd hc not_mem_nil
    · obtain ⟨bn, hbn, hbn0, hk⟩ := h.hole_of_filled h0 h1
      rcases hc with rfl | rfl | ⟨hlt, rfl⟩
      · exact .inl (.inr ⟨⟨bn, hbn, hbn0⟩, h.bblock_eq hw hsize h1⟩)
      · rcases hk with rfl | ⟨hge, rfl⟩
        · exact .inl (.inl ⟨bn, hbn, rfl⟩)
        · exact .inr ⟨⟨bn, hbn, hge, hbn0⟩, rfl⟩
      · rcases hk with rfl | ⟨-, rfl⟩
        · exact .inr ⟨⟨bn, hbn, le_of_lt_slotOf hlt, hbn0⟩, rfl⟩
        · exact absurd hlt (Nat.lt_irrefl _)
    · exact .inl (.inl ⟨bn, mem_touched.mpr hbn, rfl⟩)
  · rintro ((⟨bn, hbn, rfl⟩ | ⟨⟨bn, hbn, hbn0⟩, rfl⟩) | ⟨⟨bn, hbn, hge, hbn0⟩, rfl⟩)
    · exact .inr (.inr ⟨bn, mem_touched.mp hbn, rfl⟩)
    · have hnz := h.mapped bn (mem_touched.mp hbn)
      exact .inr (.inl ⟨slotOf bn, hbn0, hnz, .inl (h.bblock_eq hw hsize hnz).symm⟩)
    · have hnz := h.mapped bn (mem_touched.mp hbn)
      exact .inr (.inl ⟨slotOf bn, hbn0, hnz, .inr (.inr ⟨lt_slotOf hge, rfl⟩)⟩)

theorem Written.indirect_ne (h : Written p off src s u) (hbn : bn ∈ touched off src.length)
    (hge : NDIRECT ≤ bn) : u.own p ((s.icache p).inum, NDIRECT) ≠ 0 := fun h0 =>
  h.mapped bn (mem_touched.mp hbn) (own_eq_zero_of_indirect (lt_slotOf hge) h0)

/-- The blocks that are logged are different ones. -/
theorem Written.card_loggedData (h : Written p off src s u) (hw : Working s p) :
    (s.loggedData u p off src.length).card = span off src.length +
      (if ∃ bn ∈ touched off src.length, s.own p ((s.icache p).inum, slotOf bn) = 0
        then 1 else 0) +
      if ∃ bn ∈ touched off src.length, NDIRECT ≤ bn ∧
          s.own p ((s.icache p).inum, slotOf bn) = 0 then 1 else 0 := by
  have hwu := h.grows.working hw
  have hdata : ∀ {x}, u.own p x ≠ 0 → IsData s.sb (u.own p x) := fun hx => by
    have := hwu.isData_own hx
    rwa [h.grows.sb] at this
  have hmap : ¬IsData s.sb s.sb.bmapstart.toNat := by
    intro hd
    have h0 : 0 < s.sb.size.toNat := Nat.lt_of_le_of_lt (Nat.zero_le _) hd.2
    have := hw.geometry.bblock_ne_data h0 hd
    rw [bblock, Nat.zero_div, Nat.zero_add] at this
    exact this rfl
  rw [State.loggedData, card_union_ite, card_union_ite, Finset.card_image_of_injOn, card_touched]
  · intro bn hbn bn' _ heq
    have hinj := hwu.own_inj (h.mapped bn (mem_touched.mp hbn)) heq
    exact slotOf_inj (congrArg Prod.snd hinj)
  · rintro - hc
    obtain ⟨bn, hbn, heq⟩ := Finset.mem_image.mp hc
    exact hmap (heq ▸ hdata (h.mapped bn (mem_touched.mp hbn)))
  · rintro ⟨bn, hbn, hge, -⟩ hc
    have hnz := h.indirect_ne hbn hge
    rcases Finset.mem_union.mp hc with hc | hc
    · obtain ⟨bn', hbn', heq⟩ := Finset.mem_image.mp hc
      have hinj := hwu.own_inj (h.mapped bn' (mem_touched.mp hbn')) heq
      exact slotOf_ne bn' (congrArg Prod.snd hinj)
    · exact hmap ((mem_ite_singleton.mp hc).2 ▸ hdata hnz)

theorem mem_lh_resize {n : Nat} {c : Nat} : c ∈ (u.resize p n).lh ↔ c ∈ u.lh ∨
    (u.icache p).din.size.toNat < n ∧ c = iblock u.sb (u.icache p).inum := by
  unfold State.resize
  split
  next h =>
    rw [State.flush, State.mem_lh_write, State.setDin_self]
    simp only [h, true_and]
    rfl
  next h => simp only [h, false_and, or_false]

theorem Written.card_lh (h : Written p off src s u) (hinv : FsInv s) (hv : Valid s p)
    (hsize : s.sb.size.toNat ≤ FSSIZE) (hlh : s.lh = []) :
    (u.resize p (off + src.length)).lh.toFinset.card =
      s.logCount (s.icache p).inum off src.length := by
  have hw := (hinv.pending hv).working
  have hown : s.own p = own s.sb s.disk (dinodeAt s.sb s.disk) := by
    rw [State.own, hinv.view_eq hv]
  have hlen : (u.icache p).din.size.toNat = (s.node (s.icache p).inum).data.length := by
    rw [h.grows.size, (hinv.node_of_valid hv).2.2]
  have hset : (u.resize p (off + src.length)).lh.toFinset = s.loggedData u p off src.length ∪
      if (s.node (s.icache p).inum).data.length < off + src.length
        then {iblock s.sb (s.icache p).inum} else ∅ := by
    rw [← h.lh_eq hw hsize hlh]
    ext c
    rw [mem_toFinset, mem_lh_resize, Finset.mem_union, mem_toFinset, mem_ite_singleton,
      hlen, h.grows.sb, h.grows.inum]
  have hinode : iblock s.sb (s.icache p).inum ∉ s.loggedData u p off src.length := by
    have hdata : ∀ {x}, u.own p x ≠ 0 → iblock s.sb (s.icache p).inum ≠ u.own p x := fun hx => by
      have := (h.grows.working hw).isData_own hx
      rw [h.grows.sb] at this
      exact hw.geometry.iblock_ne_data hw.inum this
    simp only [State.loggedData, Finset.mem_union, Finset.mem_image, mem_ite_singleton]
    rintro ((⟨bn, hbn, hc⟩ | ⟨-, hc⟩) | ⟨⟨bn, hbn, hge, -⟩, hc⟩)
    · exact hdata (h.mapped bn (mem_touched.mp hbn)) hc.symm
    · have := hw.geometry.bitmap _ hw.inum
      omega
    · exact hdata (h.indirect_ne hbn hge) hc
  rw [hset, card_union_ite fun _ => hinode, h.card_loggedData hw, hown]
  rfl

end

/-! ## One transaction -/

/-- No transaction is in progress. -/
structure Idle (s : State) : Prop where
  inv : FsInv s
  lh : s.lh = []
  outstanding : s.outstanding = 0

section
variable {s t : State} {p : Ip} {dev : DevSw} {src : List UInt8} {off : UInt32}

theorem FsInv.congr (h : FsInv s) (hsb : t.sb = s.sb) (hdisk : t.disk = s.disk)
    (hicache : t.icache = s.icache) : FsInv t := by
  obtain ⟨disk, sb, icache, _, _, _, _⟩ := t
  subst hsb hdisk hicache
  exact ⟨h.geometry, h.super, h.alloc, h.full,
    ⟨h.cached.inum, h.cached.synced, h.cached.type, h.cached.unique⟩⟩

theorem wp_beginOp {E : Fault → Prop} {Q : Unit → State → Prop}
    (hE : s.lh.length + (s.outstanding + 1) * MAXOPBLOCKS ≤ LOGSIZE ∨ ∀ e, E e)
    (hQ : Q () { s with outstanding := s.outstanding + 1 }) : beginOp.wp E Q s := by
  simp only [beginOp, wp_bind, wp_gets, id]
  split
  next hfull => exact hE.resolve_left (by omega) _
  · exact hQ

theorem wp_finish {E : Fault → Prop} {r : Int} (h : FsInv s) (hout : s.outstanding = 1)
    (hE : ((s.icache p).locked = true ∧ 0 < (s.icache p).ref) ∨ ∀ e, E e) :
    (do iunlock p; endOp; pure r : FsM Int).wp E (fun r' t => r' = r ∧ Idle t ∧
      t.sb = s.sb ∧ t.logSize = s.logSize ∧ t.icache p = { s.icache p with locked := false } ∧
      t.node = s.node ∧ t.disk = s.disk ∧
      t.committed = if s.lh = [] then s.committed else s.committed ++ [s.lh]) s := by
  rw [wp_bind]
  refine wp_iunlock_eq hE ?_
  have hu : FsInv (s.setInode p { s.icache p with locked := false }) :=
    h.setInode_same rfl id id rfl
  simp only [endOp, wp_bind, wp_modify, wp_pure, State.commit]
  have hzero : (s.setInode p { s.icache p with locked := false }).outstanding - 1 = 0 := by
    change s.outstanding - 1 = 0
    omega
  have hent : (s.setInode p { s.icache p with locked := false }).icache p =
      { s.icache p with locked := false } := State.setInode_self ..
  rw [if_pos hzero]
  by_cases hlh : s.lh = []
  · rw [if_pos (show (s.setInode p _).lh = [] from hlh), if_pos hlh]
    exact ⟨trivial, ⟨hu.congr rfl rfl rfl, hlh, hzero⟩, rfl, rfl, hent, rfl, rfl, rfl⟩
  · rw [if_neg (show (s.setInode p _).lh ≠ [] from hlh), if_neg hlh]
    exact ⟨trivial, ⟨hu.congr rfl rfl rfl, rfl, hzero⟩, rfl, rfl, hent, rfl, rfl, rfl⟩

/-- What a transaction for the bytes `src` did to the file in entry `p`. -/
def ChunkDone (p : Ip) (src : List UInt8) (off : UInt32) (s : State) (r : Int) (t : State) : Prop :=
  if (s.node (s.icache p).inum).type = T_DEV then t.committed = s.committed
  else if WriteRefused (s.node (s.icache p).inum).data.length off.toNat src.length then
    r = -1 ∧ t.committed = s.committed
  else ∃ T, t.committed = s.committed ++ [T] ∧
    T.toFinset.card = s.logCount (s.icache p).inum off.toNat src.length

/-- The file in entry `p` is what it was, and no transaction is in progress. -/
structure IdleAfter (p : Ip) (s t : State) : Prop extends Idle t where
  sb : t.sb = s.sb
  inum : (t.icache p).inum = (s.icache p).inum
  type : (t.node (s.icache p).inum).type = (s.node (s.icache p).inum).type

theorem wp_chunkBody (hinv : FsInv s) (hv : Valid s p) (hlh : s.lh = []) (hout : s.outstanding = 1)
    (hsize : s.sb.size.toNat ≤ FSSIZE) (hpos : 0 < src.length) (hlen : src.length < 2 ^ 32) :
    (do let r ← writei dev p src off; iunlock p; endOp; pure r : FsM Int).wp (fun _ => True)
      (fun r t => IdleAfter p s t ∧ ChunkDone p src off s r t) s := by
  obtain ⟨htype, -, hdata⟩ := hinv.node_of_valid hv
  rw [wp_bind]
  unfold ChunkDone
  rw [htype, hdata]
  by_cases hdev : (s.icache p).din.type = T_DEV
  · refine wp_writei_dev hdev fun r => ?_
    refine wp_imp (wp_finish hinv hout (.inr fun _ => trivial)) ?_
    rintro _ t ⟨-, ht, hsb, -, hent, hnode, -, hcom⟩
    rw [if_pos hlh] at hcom
    rw [if_pos hdev]
    exact ⟨⟨ht, hsb, by rw [hent], by rw [hnode]⟩, hcom⟩
  · refine wp_imp (wp_writei hinv hv hdev hlen (fun _ => .of_true) fun _ => .of_true)
      fun r u hu => ?_
    split at hu
    next hbad =>
      obtain ⟨rfl, rfl⟩ := hu
      refine wp_imp (wp_finish hinv hout (.inr fun _ => trivial)) ?_
      rintro _ t ⟨rfl, ht, hsb, -, hent, hnode, -, hcom⟩
      rw [if_pos hlh] at hcom
      rw [if_neg hdev, if_pos hbad]
      exact ⟨⟨ht, hsb, by rw [hent], by rw [hnode]⟩, rfl, hcom⟩
    next hok =>
      obtain ⟨rfl, w, hw, rfl⟩ := hu
      have hcard := hw.card_lh hinv hv hsize hlh
      have hfits := hok
      simp only [WriteRefused, not_or, Nat.not_lt, Nat.not_le] at hfits
      have hwrote := hw.wrote hinv hv hfits.1 hfits.2.1
      have hout' : (w.resize p (off.toNat + src.length)).outstanding = 1 := by
        unfold State.resize
        split <;> exact hw.grows.outstanding.trans hout
      have hcom' : (w.resize p (off.toNat + src.length)).committed = s.committed := by
        unfold State.resize
        split <;> exact hw.grows.committed
      have hsb' : (w.resize p (off.toNat + src.length)).sb = s.sb := hw.resize_sb
      generalize w.resize p (off.toNat + src.length) = u at *
      have hne : u.lh ≠ [] := by
        intro hnil
        rw [hnil, State.logCount, span, if_neg (by omega)] at hcard
        simp only [toFinset_nil, Finset.card_empty] at hcard
        omega
      refine wp_imp (wp_finish hwrote.inv hout' (.inr fun _ => trivial)) ?_
      rintro _ t ⟨-, ht, hsb, -, hent, hnode, -, hcom⟩
      rw [if_neg hne, hcom'] at hcom
      rw [if_neg hdev, if_neg hok]
      refine ⟨⟨ht, hsb.trans hsb', ?_, ?_⟩, u.lh, hcom, hcard⟩
      · rw [hent, hwrote.tags p]
      · rw [hnode, hwrote.node, update_self]

theorem wp_writeChunk (h : Idle s) (hsize : s.sb.size.toNat ≤ FSSIZE) (hpos : 0 < src.length)
    (hlen : src.length < 2 ^ 32) :
    (writeChunk dev p src off).wp (fun _ => True)
      (fun r t => IdleAfter p s t ∧ ChunkDone p src off s r t) s := by
  rw [writeChunk, wp_bind]
  refine wp_beginOp (.inr fun _ => trivial) ?_
  rw [wp_bind]
  have hbegun : FsInv { s with outstanding := s.outstanding + 1 } := h.inv.congr rfl rfl rfl
  refine wp_ilock_eq (.inr fun _ => trivial) fun href _ htype => ?_
  have hinum : ((State.lock { s with outstanding := s.outstanding + 1 } p).icache p).inum =
      (s.icache p).inum := by rw [State.lock, State.setInode_self]
  refine wp_imp (wp_chunkBody (hbegun.lock href htype) (valid_lock href) h.lh
    (congrArg (· + 1) h.outstanding) hsize hpos hlen) ?_
  rintro r t ⟨ht, hdone⟩
  unfold ChunkDone at hdone ⊢
  have htype := ht.type
  rw [hinum] at hdone htype
  exact ⟨⟨ht.toIdle, ht.sb, ht.inum.trans hinum, htype⟩, hdone⟩

end

/-! ## The loop -/

section
variable {dev : DevSw} {s t : Sys} {f : Fin NFILE} {src : List UInt8} {turns : Nat}

/-- The transactions that were committed after state `s`. -/
def Sys.issued (s t : Sys) : List (List Nat) := t.fs.committed.drop s.fs.committed.length

theorem take_maxChunk (h : 0 < src.length) :
    0 < (src.take maxChunk).length ∧ (src.take maxChunk).length < 2 ^ 32 := by
  have hmax : 0 < maxChunk ∧ maxChunk < 2 ^ 32 := by decide
  rw [length_take]
  omega

/-- Transactions are only added, and a device adds none. -/
theorem wp_filewriteLoop (h : Idle s.fs) (hsize : s.fs.sb.size.toNat ≤ FSSIZE) :
    (filewriteLoop dev f turns src).wp (fun _ => True) (fun _ t =>
      ∃ l, t.fs.committed = s.fs.committed ++ l ∧
        ((s.fs.node (s.fs.icache (s.file f).ip).inum).type = T_DEV → l = [])) s := by
  induction turns generalizing s src with
  | zero => exact ⟨[], (append_nil _).symm, fun _ => rfl⟩
  | succ turns ih =>
    unfold filewriteLoop
    split
    · exact ⟨[], (append_nil _).symm, fun _ => rfl⟩
    next hne =>
      obtain ⟨hpos, hlen⟩ := take_maxChunk (Nat.pos_of_ne_zero hne)
      simp only [wp_bind, wp_gets, inFs, wp_zoom]
      refine wp_imp (wp_writeChunk h hsize hpos hlen) ?_
      rintro r u ⟨hu, hdone⟩
      -- the transactions of this turn
      have hnew : ∃ l, u.committed = s.fs.committed ++ l ∧
          ((s.fs.node (s.fs.icache (s.file f).ip).inum).type = T_DEV → l = []) := by
        unfold ChunkDone at hdone
        split at hdone
        next => exact ⟨[], by rw [hdone, append_nil], fun _ => rfl⟩
        next hdev =>
          split at hdone
          · exact ⟨[], by rw [hdone.2, append_nil], fun _ => rfl⟩
          · obtain ⟨T, hT, -⟩ := hdone
            exact ⟨[T], hT, fun h => absurd h hdev⟩
      obtain ⟨l, hl, hldev⟩ := hnew
      simp only [modifyFile, wp_modify, setAt_eq_update]
      split
      · exact ⟨l, hl, hldev⟩
      split
      · exact trivial
      · refine wp_imp (ih hu.toIdle (by rw [hu.sb]; exact hsize)) ?_
        rintro _ t ⟨l', hl', hldev'⟩
        simp only [update_self, hu.inum, hu.type] at hl' hldev'
        refine ⟨l ++ l', by rw [hl', hl, append_assoc], fun hdev => ?_⟩
        rw [hldev hdev, hldev' hdev, append_nil]

theorem filewriteLoop_nil : filewriteLoop dev f turns [] = pure true := by
  cases turns <;> rfl

/-- The first transaction, and whether there are more. -/
theorem wp_filewriteLoop_first (h : Idle s.fs) (hsize : s.fs.sb.size.toNat ≤ FSSIZE)
    (hturns : 0 < turns) (hn : 0 < src.length) :
    (filewriteLoop dev f turns src).wp (fun _ => True) (fun _ t =>
      if (s.fs.node (s.fs.icache (s.file f).ip).inum).type = T_DEV ∨
        WriteRefused (s.fs.node (s.fs.icache (s.file f).ip).inum).data.length
          (s.file f).off.toNat (min src.length maxChunk)
      then t.fs.committed = s.fs.committed
      else ∃ T l, t.fs.committed = s.fs.committed ++ T :: l ∧
        T.toFinset.card = s.fs.logCount (s.fs.icache (s.file f).ip).inum (s.file f).off.toNat
          (min src.length maxChunk) ∧
        (src.length ≤ maxChunk → l = [])) s := by
  obtain ⟨turns, rfl⟩ := Nat.exists_eq_add_one_of_ne_zero (Nat.ne_of_gt hturns)
  obtain ⟨hpos, hlen⟩ := take_maxChunk hn
  have htake : (src.take maxChunk).length = min src.length maxChunk := by
    rw [length_take, Nat.min_comm]
  rw [filewriteLoop, if_neg (by omega)]
  simp only [wp_bind, wp_gets, inFs, wp_zoom]
  refine wp_imp (wp_writeChunk h hsize hpos hlen) ?_
  rintro r u ⟨hu, hdone⟩
  simp only [modifyFile, wp_modify, setAt_eq_update]
  generalize hv : ({ s with
    fs := u
    file := update s.file f { s.file f with off := advance (s.file f).off r } } : Sys) = v
  have hfs : v.fs = u := by rw [← hv]
  have hip : (v.file f).ip = (s.file f).ip := by
    rw [← hv]
    dsimp only
    rw [update_self]
  have hrest : (filewriteLoop dev f turns (src.drop maxChunk)).wp _ _ v :=
    wp_filewriteLoop (hfs ▸ hu.toIdle) (by rw [hfs, hu.sb]; exact hsize)
  rw [hfs, hip, hu.inum, hu.type] at hrest
  unfold ChunkDone at hdone
  rw [htake] at hdone
  split at hdone
  next hdev =>
    simp only [if_pos (Or.inl hdev)]
    split
    · rw [← hdone, ← hfs]
      exact rfl
    split
    · exact trivial
    · refine wp_imp hrest ?_
      rintro _ t ⟨l, hl, hnil⟩
      rw [hl, hnil hdev, append_nil, hdone]
  next hdev =>
    split at hdone
    next hbad =>
      simp only [if_pos (Or.inr hbad)]
      rw [if_pos (by rw [hdone.1]; decide)]
      rw [← hdone.2, ← hfs]
      exact rfl
    next hok =>
      obtain ⟨T, hcom, hcard⟩ := hdone
      simp only [if_neg (not_or.mpr ⟨hdev, hok⟩)]
      split
      · exact ⟨T, [], by rw [hfs, hcom], hcard, fun _ => rfl⟩
      split
      · exact trivial
      · by_cases hshort : src.length ≤ maxChunk
        · rw [drop_eq_nil_of_le hshort, filewriteLoop_nil]
          exact ⟨T, [], by rw [hfs, hcom], hcard, fun _ => rfl⟩
        · refine wp_imp hrest ?_
          rintro _ t ⟨l, hl, -⟩
          exact ⟨T, l, by rw [hl, hcom, append_assoc]; rfl, hcard, fun h => absurd h hshort⟩

theorem le_span_mul {off n : Nat} : n ≤ span off n * BSIZE := by
  unfold span
  split
  · omega
  · simp only [BSIZE]
    omega

/-- **Reservation of `filewrite`.** For every file whose disk is not larger than `FSSIZE`, while no
other transaction is in progress: the transactions that `filewrite` issues stay within the
`MAXOPBLOCKS` blocks that `begin_op` reserves for each if and only if the file is not writable, or is
a device, or the first piece of the bytes is refused, or the first piece logs no more blocks than
that. -/
theorem filewrite_reserved_iff {r : Int} (h : Idle s.fs) (hsize : s.fs.sb.size.toNat ≤ FSSIZE)
    (hn : 0 < src.length) (hret : filewrite dev f src s = .ok (r, t)) :
    (∀ T ∈ s.issued t, T.toFinset.card ≤ MAXOPBLOCKS) ↔
      (s.file f).writable = false ∨
      (s.fs.node (s.fs.icache (s.file f).ip).inum).type = T_DEV ∨
      WriteRefused (s.fs.node (s.fs.icache (s.file f).ip).inum).data.length (s.file f).off.toNat
        (min src.length maxChunk) ∨
      s.fs.logCount (s.fs.icache (s.file f).ip).inum (s.file f).off.toNat
        (min src.length maxChunk) ≤ MAXOPBLOCKS := by
  refine wp_ok (E := fun _ => True) (Q := fun _ t =>
    (∀ T ∈ s.issued t, T.toFinset.card ≤ MAXOPBLOCKS) ↔ _) ?_ hret
  have hnone : ∀ {t : Sys}, t.fs.committed = s.fs.committed →
      ∀ T ∈ s.issued t, T.toFinset.card ≤ MAXOPBLOCKS := fun hcom T hT => by
    rw [Sys.issued, hcom, drop_length] at hT
    exact absurd hT not_mem_nil
  simp only [filewrite, wp_bind, wp_gets]
  split
  next hw => exact iff_of_true (hnone rfl) (.inl hw)
  next hw =>
  split
  · rw [wp_bind]
    refine wp_imp (wp_filewriteLoop_first h hsize hn hn) fun _ t ht => ?_
    split at ht
    next hdone => exact iff_of_true (hnone ht) (.inr (hdone.imp_right .inl))
    next hdone =>
      obtain ⟨T, l, hcom, hcard, hshort⟩ := ht
      have hissued : s.issued t = T :: l := by
        rw [Sys.issued, hcom, drop_left]
      rw [wp_pure, hissued]
      constructor
      · intro hall
        exact .inr (.inr (.inr (hcard ▸ hall T mem_cons_self)))
      · intro hcond
        have hle : s.fs.logCount (s.fs.icache (s.file f).ip).inum (s.file f).off.toNat
            (min src.length maxChunk) ≤ MAXOPBLOCKS := by
          rcases hcond with hcond | hcond | hcond | hcond
          · exact absurd hcond hw
          · exact absurd (.inl hcond) hdone
          · exact absurd (.inr hcond) hdone
          · exact hcond
        -- a whole chunk has more blocks, so there is no other piece
        have hspan : span (s.file f).off.toNat (min src.length maxChunk) ≤ MAXOPBLOCKS :=
          Nat.le_trans (Nat.le_add_right_of_le (Nat.le_add_right_of_le (Nat.le_add_right ..))) hle
        have hbytes : min src.length maxChunk ≤ MAXOPBLOCKS * BSIZE :=
          Nat.le_trans le_span_mul (Nat.mul_le_mul_right _ hspan)
        have hmax : MAXOPBLOCKS * BSIZE < maxChunk := by decide
        rw [hshort (by omega)]
        intro T' hT'
        rw [mem_singleton.mp hT', hcard]
        exact hle
  · exact trivial

end

/-! ## The empty file, open for writing -/

namespace OneFile

/-- The file is in the cache, and no transaction is in progress. -/
def idle : State := { state with
  outstanding := 0
  icache := fun p => { state.icache p with locked := false } }

theorem idle_idle : Idle idle where
  inv := ⟨fsInv.geometry, fsInv.super, fsInv.alloc, fsInv.full,
    ⟨fsInv.cached.inum, fsInv.cached.synced, fsInv.cached.type, fsInv.cached.unique⟩⟩
  lh := rfl
  outstanding := rfl

def sys : Sys where
  fs := idle
  file := fun f => if f.1 = 0 then ⟨.inode, 1, true, true, ip, 0⟩ else ⟨.none, 0, false, false, ip, 0⟩
  task := fun _ => none

def file : Fin NFILE := ⟨0, by decide⟩

end OneFile

/-- A write of three bytes to the empty file stays within the reservation. -/
theorem filewrite_reserved_iff_small : ∃ t,
    filewrite OneFile.noDev OneFile.file [1, 2, 3] OneFile.sys = .ok (3, t) ∧
    ∀ T ∈ OneFile.sys.issued t, T.toFinset.card ≤ MAXOPBLOCKS := by
  obtain ⟨⟨_, t⟩, hret, rfl⟩ : ∃ x,
      filewrite OneFile.noDev OneFile.file [1, 2, 3] OneFile.sys = .ok x ∧ x.1 = 3 := by
    decide +kernel
  refine ⟨t, hret, (filewrite_reserved_iff OneFile.idle_idle (by decide) (by decide) hret).mpr ?_⟩
  exact .inr (.inr (.inr (by decide +kernel)))

/-- A whole chunk at the start of the empty file: thirteen blocks of the file, the indirect block,
the block of the free map and the inode block. -/
theorem filewrite_exceeds_reservation : ∃ t,
    filewrite OneFile.noDev OneFile.file (List.replicate maxChunk 0) OneFile.sys =
      .ok (maxChunk, t) ∧
    ∃ T ∈ OneFile.sys.issued t, T.toFinset.card = 16 ∧ MAXOPBLOCKS < 16 := by
  obtain ⟨⟨_, t⟩, hret, rfl, T, hT, hcard⟩ : ∃ x,
      filewrite OneFile.noDev OneFile.file (List.replicate maxChunk 0) OneFile.sys = .ok x ∧
      x.1 = maxChunk ∧ ∃ T ∈ OneFile.sys.issued x.2, T.toFinset.card = 16 := by decide +kernel
  exact ⟨t, hret, T, hT, hcard, by decide⟩

end Xv6.Fs
