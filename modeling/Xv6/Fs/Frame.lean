import Xv6.Fs.Cache
import Xv6.Fs.Dir

/-!
# One inode at a time

`readi` and `writei` of an inode use no entry of the inode cache but its own. What was proved of them
under the invariant therefore holds whatever the other entries are: it is enough that the invariant
holds once those are taken away (`State.only`).
-/

namespace Xv6.Fs

open State
open Prog (Frames)

/-- Entry `p` of the cache is kept, the others are those of `c`. -/
def State.others (p : Ip) (s : State) (c : Ip → Inode) : State :=
  { s with icache := Function.update c p (s.icache p) }

/-- Entry `p` of the cache alone. -/
def State.only (s : State) (p : Ip) : State := s.others p fun _ => ⟨0, 0, false, false, .zero⟩

section
variable {s t : State} {p q : Ip} {c : Ip → Inode}

@[simp] theorem State.others_self : (s.others p c).icache p = s.icache p := update_self ..

theorem State.others_of_ne (h : q ≠ p) : (s.others p c).icache q = c q := update_of_ne h ..

@[simp] theorem State.only_self : (s.only p).icache p = s.icache p := others_self

@[simp] theorem State.node_others : (s.others p c).node = s.node := rfl

@[simp] theorem State.node_only : (s.only p).node = s.node := rfl

theorem State.only_others : (s.only p).others p s.icache = s := by
  rw [others, only_self, update_eq_self]
  rfl

theorem State.others_only : (s.others p c).only p = s.only p := by
  rw [only, others, others_self]
  rfl

theorem valid_only : Valid (s.only p) p ↔ Valid s p := by
  rw [Valid, only_self, Valid]

theorem State.only_ref (h : 0 < ((s.only p).icache q).ref) : q = p := by
  by_contra hq
  rw [only, others_of_ne hq] at h
  exact absurd h (Int.lt_irrefl 0)

theorem cachedBut_only (hinum : (s.icache p).inum < s.sb.ninodes.toNat)
    (hdin : Valid s p → (s.icache p).din = dinodeAt s.sb s.disk (s.icache p).inum ∧
      (s.icache p).din.type ≠ 0) : CachedBut none (s.only p) := by
  refine ⟨fun q hq => ?_, fun q _ hq => ?_, fun q hq => ?_, fun q r hq hr _ => ?_⟩
  · obtain rfl := only_ref hq
    rw [only_self]
    exact hinum
  · obtain rfl := only_ref hq.1
    rw [only_self]
    exact (hdin (valid_only.mp hq)).1
  · obtain rfl := only_ref hq.1
    rw [only_self]
    exact (hdin (valid_only.mp hq)).2
  · rw [only_ref hq, only_ref hr]

theorem FsInv.only (h : FsInv s) (hv : Valid s p) : FsInv (s.only p) :=
  ⟨h.geometry, h.super, h.alloc, h.full, cachedBut_only (h.cached.inum p hv.1) fun hv =>
    ⟨h.cached.synced p nofun hv, h.cached.type p hv⟩⟩

/-! ## The functions on one inode -/

section
variable {b k bn off n turns : Nat} {data : Block} {src : List UInt8}

theorem frames_logWrite : Frames (State.others p) (logWrite b data) := by
  refine .gets_bind (fun _ _ => rfl) fun s => ?_
  exact .ite (.stop _) (.ite (.stop _) (.modify fun _ _ => rfl))

theorem frames_balloc : Frames (State.others p) balloc := by
  refine .gets_bind (fun _ _ => rfl) fun s => ?_
  split
  · exact frames_logWrite.bind fun _ => frames_logWrite.bind fun _ => .pure _
  · exact .stop _

theorem frames_modifyDin {f : Dinode → Dinode} : Frames (State.others p) (modifyDin p f) := by
  refine .modify fun s c => ?_
  simp only [State.others, setAt_eq_update, update_self, update_idem]

theorem frames_bmapAddr : Frames (State.others p) (bmapAddr p k) := by
  refine .gets_bind (fun s c => by rw [others_self]) fun ip => ?_
  exact .ite (frames_balloc.bind fun _ => frames_modifyDin.bind fun _ => .pure _) (.pure _)

theorem frames_bmapEntry : Frames (State.others p) (bmapEntry b k) := by
  refine .gets_bind (fun _ _ => rfl) fun a => ?_
  exact .ite (frames_balloc.bind fun _ => frames_logWrite.bind fun _ => .pure _) (.pure _)

theorem frames_bmap : Frames (State.others p) (bmap p bn) :=
  .ite frames_bmapAddr (.ite (frames_bmapAddr.bind fun _ => frames_bmapEntry) (.stop _))

theorem frames_readLoop : Frames (State.others p) (readLoop p turns off n) := by
  induction turns generalizing off n with
  | zero => exact .pure _
  | succ turns ih =>
    refine .ite (.pure _) (frames_bmap.bind fun b => ?_)
    exact .gets_bind (fun _ _ => rfl) fun _ => ih.bind fun _ => .pure _

theorem frames_readi {dev : DevSw} {off n : UInt32} :
    Frames (State.others p) (readi dev p off n) := by
  refine .gets_bind (fun s c => by rw [others_self]) fun ip => ?_
  refine .ite ?_ (.ite (.pure _) (frames_readLoop.bind fun _ => .pure _))
  split <;> exact .pure _

theorem frames_writeLoop : Frames (State.others p) (writeLoop p turns off src) := by
  induction turns generalizing off src with
  | zero => exact .pure _
  | succ turns ih =>
    refine .ite (.pure _) (frames_bmap.bind fun b => ?_)
    exact .gets_bind (fun _ _ => rfl) fun _ => frames_logWrite.bind fun _ => ih

theorem frames_iupdate : Frames (State.others p) (iupdate p) := by
  refine .gets_bind (fun s c => ?_) fun s => frames_logWrite
  rw [id, others_self]
  rfl

theorem frames_writei {dev : DevSw} {off : UInt32} :
    Frames (State.others p) (writei dev p src off) := by
  refine .gets_bind (fun s c => by rw [others_self]) fun ip => ?_
  refine .ite ?_ (.ite (.pure _) (.ite (.pure _) (frames_writeLoop.bind fun _ => ?_)))
  · split <;> exact .pure _
  · refine .gets_bind (fun s c => by rw [others_self]) fun ip => ?_
    exact .bind (.when (frames_modifyDin.bind fun _ => frames_iupdate)) fun _ => .pure _

end

end

end Xv6.Fs
