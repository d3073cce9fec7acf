import Xv6.Fs.Nodes

/-!
# `readi` and `writei` refine operations on byte strings

From any state with the invariant `FsInv`, whatever calls of `readi` and `writei` were made in
between, a call of `readi` returns the bytes that the file has and changes nothing, and a call of
`writei` puts its bytes into the file and changes no other, unless it stops the kernel
(`WritePanic`).
-/

namespace Xv6.Fs

/-- A call of `readi` or `writei` on an entry of the inode cache. -/
inductive IoCall
  | read (p : Ip) (off n : UInt32)
  | write (p : Ip) (src : List UInt8) (off : UInt32)

/-- The number of bytes is an `uint`. -/
def IoCall.Fits : IoCall → Prop
  | read .. => True
  | write _ src _ => src.length < 2 ^ 32

def IoCall.ip : IoCall → Ip
  | read p .. => p
  | write p .. => p

def IoCall.exec (dev : DevSw) : IoCall → FsM Unit
  | read p off n => do
    let _ ← readi dev p off n
    pure ()
  | write p src off => do
    let _ ← writei dev p src off
    pure ()

/-- The callers hold a locked inode, so its cache entry is valid. -/
def ioStep (dev : DevSw) (s : State) (c : IoCall) : Except Fault State :=
  if 0 < (s.icache c.ip).ref ∧ (s.icache c.ip).valid = true then (c.exec dev s).map Prod.snd
  else .error .disabled

/-- The panics of `writei` for `n` bytes at offset `off`: there is too little room in the log,
there is no transaction, or there are too few free blocks. -/
def WritePanic (s : State) (p : Ip) (off n : Nat) (e : Fault) : Prop :=
  e = .panic "too big a transaction" ∧ s.capacity ≤ s.load + (1 + span off n + s.due p) ∨
  e = .panic "log_write outside of trans" ∧ s.outstanding = 0 ∨
  e = .panic "balloc: out of blocks" ∧ (freeBlocks s.sb s.disk).card < s.needed p off n

section
variable {dev : DevSw} {s t : State} {p : Ip} {c : IoCall} {src : List UInt8} {off n : UInt32}

theorem room_writePanic {off n : Nat} :
    Room (WritePanic s p off n) s (1 + span off n + s.due p) where
  logs := (Nat.lt_or_ge _ _).symm.imp_left fun h => .inl ⟨rfl, h⟩
  trans := (Nat.eq_zero_or_pos _).imp_left fun h => .inr (.inl ⟨rfl, h⟩)

theorem spare_writePanic {off n : Nat} : Spare (WritePanic s p off n) s (s.needed p off n) :=
  (Nat.lt_or_ge _ _).imp_left fun h => .inr (.inr ⟨rfl, h⟩)

theorem length_writeAt {data : List UInt8} {off : Nat} (h : off ≤ data.length) :
    (writeAt data off src).length = max data.length (off + src.length) := by
  simp only [writeAt, List.length_append, List.length_take, List.length_drop]
  omega

theorem FsInv.length_data (h : FsInv s) (hv : Valid s p) :
    (s.node (s.icache p).inum).data.length = (s.icache p).din.size.toNat := by
  rw [← h.viewNode_eq hv, (h.pending hv).data_eq, List.length_map, List.length_range]

theorem FsInv.ioStep (h : FsInv s) (hc : c.Fits) (hs : ioStep dev s c = .ok t) : FsInv t := by
  unfold Fs.ioStep at hs
  split at hs
  next hv =>
    suffices hwp : (c.exec dev).wp (fun _ => True) (fun _ t => FsInv t) s by
      obtain ⟨_, _, ht, rfl⟩ := wp_map_ok hwp hs
      exact ht
    cases c with
    | read p off n =>
      rw [IoCall.exec, wp_bind]
      by_cases hdev : (s.icache p).din.type = T_DEV
      · exact wp_readi_dev hdev fun _ => h
      · refine wp_imp (wp_readi h hv hdev) ?_
        rintro _ _ ⟨rfl, -⟩
        exact h
    | write p src off =>
      rw [IoCall.exec, wp_bind]
      by_cases hdev : (s.icache p).din.type = T_DEV
      · exact wp_writei_dev hdev fun _ => h
      · refine wp_imp (wp_writei h hv hdev hc (fun _ => .of_true) fun _ => .of_true) fun r t ht => ?_
        split at ht
        next => exact ht.2 ▸ h
        next hok =>
          obtain ⟨-, u, hu, rfl⟩ := ht
          simp only [WriteRefused, not_or, Nat.not_lt, Nat.not_le] at hok
          exact (hu.wrote h hv hok.1 hok.2.1).inv
  next => cases hs

/-- **Reading and writing files.** In every state that calls of `readi` and `writei` reach from one
with the invariant, for every inode in the cache that is not a device:

* `readi` returns what `readResult` says of its bytes, and changes nothing;
* `writei` returns `-1` and changes nothing if the offset is past the end, or the end of the bytes
  past `2 ^ 32` or the largest file;
* otherwise `writei` panics in one of three ways, or returns the number of bytes; it then has put
  them into the file and left every other file alone, the size is the larger one of the old size and
  the end of the bytes, the invariant holds, and the inode on the disk is the one in the cache. -/
theorem readi_writei_refine {s₀ : State} (h₀ : FsInv s₀)
    (hrun : Run (ioStep dev) (fun _ c => c.Fits) s₀ s) (hv : Valid s p)
    (hdev : (s.icache p).din.type ≠ T_DEV) :
    (∀ off n, readi dev p off n s =
      .ok (readResult (s.node (s.icache p).inum).data off n, s)) ∧
    ∀ src : List UInt8, src.length < 2 ^ 32 → ∀ off : UInt32,
      (WriteRefused (s.node (s.icache p).inum).data.length off.toNat src.length →
        writei dev p src off s = .ok (-1, s)) ∧
      (¬WriteRefused (s.node (s.icache p).inum).data.length off.toNat src.length →
        (writei dev p src off).wp (WritePanic s p off.toNat src.length) (fun r t =>
          r = src.length ∧
          (t.node (s.icache p).inum).data =
            writeAt (s.node (s.icache p).inum).data off.toNat src ∧
          (t.icache p).din.size.toNat =
            max (s.icache p).din.size.toNat (off.toNat + src.length) ∧
          (∀ j ≠ (s.icache p).inum, t.node j = s.node j) ∧
          (t.icache p).din = dinodeAt t.sb t.disk (s.icache p).inum ∧ FsInv t) s) := by
  have h : FsInv s := hrun.invariant h₀ fun ht hc hs => ht.ioStep hc hs
  have hlen := h.length_data hv
  refine ⟨fun off n => eq_ok_of_wp ?_, fun src hsrc off => ⟨fun hbad => ?_, fun hok => ?_⟩⟩
  · exact wp_imp (wp_readi h hv hdev) fun _ _ h => ⟨h.2, h.1⟩
  · rw [hlen] at hbad
    refine eq_ok_of_wp (wp_imp (wp_writei h hv hdev hsrc (absurd hbad) (absurd hbad))
      fun r t ht => ?_)
    rwa [if_pos hbad] at ht
  · rw [hlen] at hok
    refine wp_imp (wp_writei h hv hdev hsrc (fun _ => room_writePanic) fun _ =>
      spare_writePanic) fun r t ht => ?_
    rw [if_neg hok] at ht
    obtain ⟨hr, u, hu, rfl⟩ := ht
    simp only [WriteRefused, not_or, Nat.not_lt, Nat.not_le] at hok
    have hw := hu.wrote h hv hok.1 hok.2.1
    have hinum : ((u.resize p (off.toNat + src.length)).icache p).inum = (s.icache p).inum := by
      rw [hw.tags p]
    have hv' := hw.tags.valid.mpr hv
    have hdata : ((u.resize p (off.toNat + src.length)).node (s.icache p).inum).data =
        writeAt (s.node (s.icache p).inum).data off.toNat src := by
      rw [hw.node, update_self]
    refine ⟨hr, hdata, ?_, fun j hj => ?_, ?_, hw.inv⟩
    · rw [← hw.inv.length_data hv', hinum, hdata, length_writeAt (by omega), hlen]
    · rw [hw.node, update_of_ne hj]
    · rw [← hinum]
      exact hw.inv.cached.synced p (Option.some_ne_none p) hv'

end

/-! ## A disk with one empty file -/

/-- A disk on which every file is empty. -/
theorem FsInv.of_empty {s : State} (g : Geometry s.sb) (hsuper : Superblock.load (s.disk 1) = s.sb)
    (hempty : ∀ i < s.sb.ninodes.toNat, (dinodeAt s.sb s.disk i).size = 0 ∧
      ∀ k, (dinodeAt s.sb s.disk i).addrs k = 0)
    (hbits : ∀ b < s.sb.size.toNat, blockBit s.sb s.disk b = decide (b < dataStart s.sb))
    (hcached : CachedBut none s) : FsInv s := by
  have hown : ∀ x, own s.sb s.disk (dinodeAt s.sb s.disk) x = 0 := by
    intro x
    unfold own
    split
    next hx =>
      have haddr : ∀ k, (dinodeAt s.sb s.disk x.1).addr k = 0 := fun k => by
        unfold Dinode.addr
        split
        · rw [(hempty x.1 hx.1).2]
          rfl
        · rfl
      unfold slotAddr
      split
      · exact haddr _
      · rw [if_pos (.inl (haddr _))]
    next => rfl
  refine ⟨g, hsuper, ⟨⟨fun h => absurd (hown _) h, fun h => absurd (hown _) h, fun {b} hb => ?_⟩,
    fun b hb => ?_⟩, fun i hi _ bn hbn => ?_, hcached⟩
  · rw [hbits b hb.2, decide_eq_true_iff]
    refine ⟨fun h => absurd hb.1 (Nat.not_le_of_lt h), fun ⟨x, hx⟩ => ?_⟩
    rw [hown x] at hx
    exact absurd (hx ▸ hb) g.not_isData_zero
  · rw [hbits b (Nat.lt_of_lt_of_le hb (Nat.sub_le ..))]
    exact decide_eq_true hb
  · rw [(hempty i hi).1] at hbn
    exact absurd hbn (Nat.not_lt_zero _)

namespace OneFile

def sb : Superblock := ⟨64, 60, 2, 30, 0, 2, 3⟩

def din : Dinode := { Dinode.zero with type := T_FILE, nlink := 1 }

/-- The super block, a block of inodes, a block of the free map, and data blocks. -/
def disk : Disk := fun b =>
  if b = 1 then Bytes.zero.setWords32 0 [64, 60, 2, 30, 0, 2, 3]
  else if b = 2 then din.store Bytes.zero 1
  else if b = 3 then Bytes.zero.blit 0 [15]
  else Bytes.zero

/-- The file is in the first entry of the cache, in a transaction. -/
def state : State where
  disk := disk
  sb := sb
  icache := fun p => if p.1 = 0 then ⟨1, 1, true, true, din⟩ else ⟨0, 0, false, false, .zero⟩
  logSize := 30
  outstanding := 1
  lh := []
  committed := []

def ip : Ip := ⟨0, NINODE_pos⟩

def noDev : DevSw := ⟨fun _ => none, fun _ => none⟩

theorem dinodeAt_one : dinodeAt sb disk 1 = din := by
  have hdisk : disk 2 = din.store Bytes.zero 1 := (if_neg (by decide)).trans (if_pos rfl)
  rw [dinodeAt, show iblock sb 1 = 2 from rfl, hdisk]
  exact Dinode.load_store (by decide)

theorem fsInv : FsInv state := by
  refine .of_empty ⟨by decide, by decide, by decide, by decide, by decide, by decide⟩
    (by decide +kernel) (by decide +kernel) (by decide +kernel) ?_
  have hone : ∀ q, 0 < (state.icache q).ref → q = ip := by
    intro q hq
    by_contra hne
    have hq0 : q.1 ≠ 0 := fun h0 => hne (Fin.ext h0)
    simp only [state, if_neg hq0] at hq
    exact absurd hq (by decide)
  refine ⟨fun q hq => ?_, fun q _ hq => ?_, fun q hq => ?_, fun q r hq hr _ => ?_⟩
  · rw [hone q hq]
    decide
  · rw [hone q hq.1]
    exact dinodeAt_one.symm
  · rw [hone q hq.1]
    decide
  · rw [hone q hq, hone r hr]

end OneFile

/-- Reading and writing the empty file. -/
theorem readi_writei_refine_one_file :
    readi OneFile.noDev OneFile.ip 0 10 OneFile.state =
      .ok (readResult (OneFile.state.node 1).data 0 10, OneFile.state) ∧
    (writei OneFile.noDev OneFile.ip [1, 2, 3] 0).wp
      (WritePanic OneFile.state OneFile.ip 0 3)
      (fun r t => r = 3 ∧ (t.node 1).data = [1, 2, 3] ∧ FsInv t) OneFile.state := by
  have hv : Valid OneFile.state OneFile.ip := by decide
  have hrun : Run (ioStep OneFile.noDev) (fun _ c => c.Fits) OneFile.state OneFile.state := .refl
  obtain ⟨hread, hwrite⟩ := readi_writei_refine OneFile.fsInv hrun hv (by decide)
  have hdata : (OneFile.state.node 1).data = [] := by decide +kernel
  refine ⟨hread 0 10, ?_⟩
  refine wp_imp ((hwrite [1, 2, 3] (by decide) 0).2 (by decide +kernel)) ?_
  rintro r t ⟨hr, hnew, -, -, -, hinv⟩
  refine ⟨hr, hnew.trans ?_, hinv⟩
  rw [show (OneFile.state.icache OneFile.ip).inum = 1 from rfl, hdata]
  rfl

/-- Without room in the log `writei` does not return: the first 27 blocks, their indirect block and
the free map leave no place in the log for another block. -/
theorem writei_too_big :
    FsInv OneFile.state ∧ Valid OneFile.state OneFile.ip ∧
    (OneFile.state.icache OneFile.ip).din.type ≠ T_DEV ∧ 0 < OneFile.state.outstanding ∧
    OneFile.state.lh = [] ∧
    ¬WriteRefused (OneFile.state.node 1).data.length 0 (List.replicate (28 * BSIZE) 0).length ∧
    OneFile.state.needed OneFile.ip 0 (28 * BSIZE) ≤
      (freeBlocks OneFile.state.sb OneFile.state.disk).card ∧
    (match writei OneFile.noDev OneFile.ip (List.replicate (28 * BSIZE) 0) 0 OneFile.state with
      | .ok _ => none
      | .error e => some e) = some (.panic "too big a transaction") := by
  refine ⟨OneFile.fsInv, by decide, by decide, by decide, rfl, by decide +kernel,
    by decide +kernel, by decide +kernel⟩

end Xv6.Fs
