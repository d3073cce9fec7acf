import Xv6.Lib.Bytes
import Xv6.Lib.Prog

/-!
# Constants of `param.h`, `fs.h` and `stat.h`
-/

namespace Xv6

export Function (update update_apply update_eq_self update_idem update_of_ne update_self)
export Prog (eq_ok_of_wp exists_of_wp wp_also wp_bind wp_bind_any wp_gets wp_imp wp_map_ok wp_modify
  wp_mono wp_of_eq_ok wp_ok wp_pure wp_seq wp_times wp_when wp_zoom)

/-! ## `param.h` -/

/-- Maximum number of processes. -/
def NPROC : Nat := 64

theorem NPROC_pos : 0 < NPROC := by decide

theorem one_lt_NPROC : 1 < NPROC := by decide

/-- Open files per process. -/
def NOFILE : Nat := 16

/-- Open files per system. -/
def NFILE : Nat := 100

/-- Maximum number of active i-nodes. -/
def NINODE : Nat := 50

theorem NINODE_pos : 0 < NINODE := by decide

/-- Maximum major device number. -/
@[simp] def NDEV : Nat := 10

/-- Maximum number of blocks any file system operation writes. -/
@[simp] def MAXOPBLOCKS : Nat := 10

/-- Maximum number of data blocks in the on-disk log. -/
@[simp] def LOGSIZE : Nat := MAXOPBLOCKS * 3

/-- Size of the disk block cache. -/
def NBUF : Nat := MAXOPBLOCKS * 3

/-- Size of the file system in blocks. -/
@[simp] def FSSIZE : Nat := 1000

/-- The number of log blocks that `mkfs` lays out. -/
@[simp] def nlog : Nat := LOGSIZE

/-! ## `fs.h` -/

/-- The number of the root i-node. -/
@[simp] def ROOTINO : Nat := 1

/-- Block size in bytes. -/
@[simp] def BSIZE : Nat := 512

/-- A disk block. -/
abbrev Block := Bytes BSIZE

/-- A disk: the contents of each block. -/
abbrev Disk := Nat → Block

end Xv6
