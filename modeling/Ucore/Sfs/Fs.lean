import Mathlib.Tactic
import Mathlib.Logic.Function.Basic
import Ucore.Lib.Bytes
import Ucore.Sfs.Bitmap
import Ucore.Sfs.Format

/-!
# The state of a mounted Simple FS

`struct sfs_fs` together with the block device it is mounted on and the inodes it holds in memory.
An in-memory inode is named by its disk inode number, which is how `sfs->hash_list` finds it; the
two counters of the enclosing `struct inode` are kept with it. The scratch buffer `sfs_buffer` is
overwritten before every use and is local to the routines that use it, and the semaphores have no
counterpart here: the routines of this directory run one at a time.
-/

namespace Ucore

open Bytes

/-- A block device, seen through `dop_io` with transfers of one block.

`faults` forces the results of the operations to come: `some e` makes one fail with `e`, `none`
lets one through, and once the list is used up every operation goes through. -/
structure Device where
  dBlocks : ℕ
  blk : ℕ → Bytes
  faults : List (Option Errno)
  /-- `ramdisk_init` takes the size from a byte count cut to 32 bits. -/
  dBlocks_lt : dBlocks < 2 ^ 20

/-- `struct sfs_inode`, with `ref_count` and `open_count` of the `struct inode` around it. -/
structure SfsInode where
  din : SfsDiskInode
  dirty : Bool
  reclaimCount : ℕ
  refCount : ℕ
  openCount : ℕ

/-- `struct sfs_fs`. `inodes` is what looking up `hash_list` finds, `inodeList` is `inode_list`. -/
structure SfsFs where
  super : SfsSuper
  dev : Device
  freemap : Bitmap
  superDirty : Bool
  inodes : ℕ → Option SfsInode
  inodeList : List ℕ

namespace SfsFs

/-- Replace the contents of a device block. -/
def setBlk (s : SfsFs) (n : ℕ) (b : Bytes) : SfsFs :=
  { s with dev := { s.dev with blk := Function.update s.dev.blk n b } }

/-- Replace an in-memory inode. -/
def setInode (s : SfsFs) (k : ℕ) (sin : SfsInode) : SfsFs :=
  { s with inodes := Function.update s.inodes k (some sin) }

/-- Replace the in-memory freemap. -/
def setFreemap (s : SfsFs) (b : Bitmap) : SfsFs := { s with freemap := b }

/-- `sfs->super.unused_blocks --, sfs->super_dirty = 1`. -/
def chargeBlock (s : SfsFs) : SfsFs :=
  { s with
    super := { s.super with unusedBlocks := s.super.unusedBlocks - 1 }
    superDirty := true }

/-- `sfs->super.unused_blocks ++, sfs->super_dirty = 1`. -/
def creditBlock (s : SfsFs) : SfsFs :=
  { s with
    super := { s.super with unusedBlocks := s.super.unusedBlocks + 1 }
    superDirty := true }

section Projections

variable (s : SfsFs) (n k : ℕ) (b : Bytes) (sin : SfsInode)

@[simp] theorem setBlk_super : (s.setBlk n b).super = s.super := rfl
@[simp] theorem setBlk_freemap : (s.setBlk n b).freemap = s.freemap := rfl
@[simp] theorem setBlk_superDirty : (s.setBlk n b).superDirty = s.superDirty := rfl
@[simp] theorem setBlk_inodes : (s.setBlk n b).inodes = s.inodes := rfl
@[simp] theorem setBlk_inodeList : (s.setBlk n b).inodeList = s.inodeList := rfl
@[simp] theorem setBlk_dBlocks : (s.setBlk n b).dev.dBlocks = s.dev.dBlocks := rfl
@[simp] theorem setBlk_faults : (s.setBlk n b).dev.faults = s.dev.faults := rfl

@[simp] theorem setBlk_blk_self : (s.setBlk n b).dev.blk n = b := Function.update_self ..

theorem setBlk_blk_of_ne {m : ℕ} (h : m ≠ n) : (s.setBlk n b).dev.blk m = s.dev.blk m :=
  Function.update_of_ne h ..

@[simp] theorem setInode_super : (s.setInode k sin).super = s.super := rfl
@[simp] theorem setInode_dev : (s.setInode k sin).dev = s.dev := rfl
@[simp] theorem setInode_freemap : (s.setInode k sin).freemap = s.freemap := rfl
@[simp] theorem setInode_superDirty : (s.setInode k sin).superDirty = s.superDirty := rfl

@[simp] theorem setInode_inodeList : (s.setInode k sin).inodeList = s.inodeList := rfl

@[simp] theorem setInode_inodes_self : (s.setInode k sin).inodes k = some sin :=
  Function.update_self ..

theorem setInode_inodes_of_ne {j : ℕ} (h : j ≠ k) : (s.setInode k sin).inodes j = s.inodes j :=
  Function.update_of_ne h ..

@[simp] theorem setInode_setInode (sin' : SfsInode) :
    (s.setInode k sin).setInode k sin' = s.setInode k sin' := by
  simp [setInode]

end Projections

/-- The device does what it is asked and holds the whole file system; `sfs_do_mount` checks the
latter. -/
structure DevOk (s : SfsFs) : Prop where
  faults : s.dev.faults = []
  blocks_le : s.super.blocks ≤ s.dev.dBlocks

theorem DevOk.setBlk {s : SfsFs} (h : s.DevOk) (n : ℕ) (b : Bytes) : (s.setBlk n b).DevOk :=
  ⟨h.faults, h.blocks_le⟩

theorem DevOk.setInode {s : SfsFs} (h : s.DevOk) (k : ℕ) (sin : SfsInode) :
    (s.setInode k sin).DevOk :=
  ⟨h.faults, h.blocks_le⟩

/-- `blkno * SFS_BLKSIZE` does not leave 32 bits on such a device. -/
theorem DevOk.offset_mod {s : SfsFs} (h : s.DevOk) {blkno : ℕ} (hb : blkno < s.super.blocks) :
    blkno * 4096 % 2 ^ 32 = blkno * 4096 := by
  have := h.blocks_le
  have := s.dev.dBlocks_lt
  exact Nat.mod_eq_of_lt (by omega)

end SfsFs

end Ucore
