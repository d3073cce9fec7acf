import Xv6.Fs.Sys

/-!
# What the file system stops with

Of the functions on inodes and directories, only `dirlink` and `create` stop because an entry could not
be written to a directory. For all the others, that is read off their code.
-/

namespace Xv6.Fs

open Prog (StopsIn)

/-- The panics for an entry that could not be written. -/
def EntryPanic (e : Fault) : Prop := e = .panic "dirlink" ∨ e = .panic "create: dirlink"

instance : DecidablePred EntryPanic := fun _ => inferInstanceAs (Decidable (_ ∨ _))

/-- Stopping for any other reason. -/
def OtherFault (e : Fault) : Prop := ¬EntryPanic e

instance : DecidablePred OtherFault := fun _ => inferInstanceAs (Decidable (¬_))

section
variable {dev : DevSw} {p q : Ip} {b k n off turns : Nat} {data : Block} {src path name : List UInt8}

theorem stopsIn_hang {α : Type} : StopsIn OtherFault (hang : FsM α) := .stop (by decide)

/-! ## Blocks -/

theorem stopsIn_logWrite : StopsIn OtherFault (logWrite b data) := by
  refine .bind (.gets _) fun s => ?_
  exact .ite (.stop (by decide)) (.ite (.stop (by decide)) (.modify _))

theorem stopsIn_beginOp : StopsIn OtherFault beginOp :=
  .bind (.gets _) fun _ => .ite stopsIn_hang (.modify _)

theorem stopsIn_endOp : StopsIn OtherFault endOp := .modify _

theorem stopsIn_balloc : StopsIn OtherFault balloc := by
  refine .bind (.gets _) fun s => ?_
  split
  · exact stopsIn_logWrite.bind fun _ => stopsIn_logWrite.bind fun _ => .pure _
  · exact .stop (by decide)

theorem stopsIn_bfree : StopsIn OtherFault (bfree b) := by
  refine .bind (.modify _) fun _ => .bind (.gets _) fun s => ?_
  exact .ite (.stop (by decide)) stopsIn_logWrite

/-! ## The inode cache -/

theorem stopsIn_modifyInode {f : Inode → Inode} : StopsIn OtherFault (modifyInode p f) := .modify _

theorem stopsIn_modifyDin {f : Dinode → Dinode} : StopsIn OtherFault (modifyDin p f) := .modify _

theorem stopsIn_iget : StopsIn OtherFault (iget n) := by
  refine .bind (.gets _) fun s => ?_
  split
  · exact stopsIn_modifyInode.bind fun _ => .pure _
  · split
    · exact stopsIn_modifyInode.bind fun _ => .pure _
    · exact .stop (by decide)

theorem stopsIn_idup : StopsIn OtherFault (idup p) := stopsIn_modifyInode.bind fun _ => .pure _

theorem stopsIn_ilock : StopsIn OtherFault (ilock p) := by
  refine .bind (.gets _) fun ip => .ite (.stop (by decide)) (.ite stopsIn_hang ?_)
  refine stopsIn_modifyInode.bind fun _ => .when ?_
  refine .bind (.gets _) fun s => ?_
  exact stopsIn_modifyInode.bind fun _ => .when (.stop (by decide))

theorem stopsIn_iunlock : StopsIn OtherFault (iunlock p) :=
  .bind (.gets _) fun _ => .ite (.stop (by decide)) stopsIn_modifyInode

theorem stopsIn_iupdate : StopsIn OtherFault (iupdate p) := .bind (.gets _) fun _ => stopsIn_logWrite

theorem stopsIn_ialloc {type : UInt16} : StopsIn OtherFault (ialloc type) := by
  refine .bind (.gets _) fun s => ?_
  split
  · exact stopsIn_logWrite.bind fun _ => stopsIn_iget
  · exact .stop (by decide)

theorem stopsIn_freeAddr : StopsIn OtherFault (freeAddr p k) :=
  .bind (.gets _) fun _ => .when (stopsIn_bfree.bind fun _ => stopsIn_modifyDin)

theorem stopsIn_freeEntries : StopsIn OtherFault (freeEntries p) := by
  refine .bind (.gets _) fun s => ?_
  -- a closed number of turns would be unrolled
  generalize NINDIRECT = N
  exact .when (.times fun _ => .when stopsIn_bfree)

theorem stopsIn_itrunc : StopsIn OtherFault (itrunc p) := by
  refine .bind (.times fun _ => stopsIn_freeAddr) fun _ => ?_
  refine stopsIn_freeEntries.bind fun _ => stopsIn_freeAddr.bind fun _ => ?_
  exact stopsIn_modifyDin.bind fun _ => stopsIn_iupdate

theorem stopsIn_iput : StopsIn OtherFault (iput p) := by
  refine .bind (.gets _) fun ip => .bind (.when ?_) fun _ => stopsIn_modifyInode
  refine stopsIn_itrunc.bind fun _ => stopsIn_modifyDin.bind fun _ => ?_
  exact stopsIn_iupdate.bind fun _ => stopsIn_modifyInode

theorem stopsIn_iunlockput : StopsIn OtherFault (iunlockput p) :=
  stopsIn_iunlock.bind fun _ => stopsIn_iput

/-! ## Content -/

theorem stopsIn_bmapAddr : StopsIn OtherFault (bmapAddr p k) := by
  refine .bind (.gets _) fun ip => .ite ?_ (.pure _)
  exact stopsIn_balloc.bind fun _ => stopsIn_modifyDin.bind fun _ => .pure _

theorem stopsIn_bmapEntry : StopsIn OtherFault (bmapEntry b k) := by
  refine .bind (.gets _) fun a => .ite ?_ (.pure _)
  exact stopsIn_balloc.bind fun _ => stopsIn_logWrite.bind fun _ => .pure _

theorem stopsIn_bmap : StopsIn OtherFault (bmap p k) :=
  .ite stopsIn_bmapAddr (.ite (stopsIn_bmapAddr.bind fun _ => stopsIn_bmapEntry)
    (.stop (by decide)))

theorem stopsIn_readLoop : StopsIn OtherFault (readLoop p turns off n) := by
  induction turns generalizing off n with
  | zero => exact .pure _
  | succ turns ih =>
    refine .ite (.pure _) (stopsIn_bmap.bind fun b => ?_)
    exact .bind (.gets _) fun _ => ih.bind fun _ => .pure _

theorem stopsIn_readi {off n : UInt32} : StopsIn OtherFault (readi dev p off n) := by
  refine .bind (.gets _) fun ip => .ite ?_ (.ite (.pure _) (stopsIn_readLoop.bind fun _ => .pure _))
  split <;> exact .pure _

/-! ## Directories and paths -/

theorem stopsIn_dirScan {msg : String} {found : Dirent → Bool} (h : OtherFault (.panic msg)) :
    StopsIn OtherFault (dirScan dev p msg found turns off) := by
  induction turns generalizing off with
  | zero => exact .pure _
  | succ turns ih =>
    exact stopsIn_readi.bind fun _ => .ite (.stop h) (.ite (.pure _) ih)

theorem stopsIn_dirlookup : StopsIn OtherFault (dirlookup dev p name) := by
  refine .bind (.gets _) fun d => .ite (.stop (by decide)) ?_
  refine (stopsIn_dirScan (by decide)).bind fun r => ?_
  dsimp only
  split
  · exact stopsIn_iget.bind fun _ => .pure _
  · exact .pure _

theorem stopsIn_namexLoop {npar : Bool} :
    StopsIn OtherFault (namexLoop dev npar turns p path name) := by
  induction turns generalizing p path name with
  | zero => exact stopsIn_hang
  | succ turns ih =>
    rw [namexLoop]
    split
    · refine stopsIn_ilock.bind fun _ => .bind (.gets _) fun d => ?_
      refine .ite (stopsIn_iunlockput.bind fun _ => .pure _) ?_
      refine .ite (stopsIn_iunlock.bind fun _ => .pure _) (stopsIn_dirlookup.bind fun x => ?_)
      split
      · exact stopsIn_iunlockput.bind fun _ => .pure _
      · exact stopsIn_iunlockput.bind fun _ => ih
    · exact .ite (stopsIn_iput.bind fun _ => .pure _) (.pure _)

theorem stopsIn_namex {npar : Bool} : StopsIn OtherFault (namex dev p path npar) := by
  rw [namex]
  split
  · exact stopsIn_iget.bind fun _ => stopsIn_namexLoop
  · exact stopsIn_idup.bind fun _ => stopsIn_namexLoop

theorem stopsIn_nameiparent : StopsIn OtherFault (nameiparent dev p path) := stopsIn_namex

theorem stopsIn_namei : StopsIn OtherFault (namei dev p path) := stopsIn_namex.bind fun _ => .pure _

end

end Xv6.Fs
