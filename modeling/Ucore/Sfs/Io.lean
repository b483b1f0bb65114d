import Ucore.Sfs.Fs
import Ucore.Lib.Prog

/-!
# Block and buffer I/O

`kern/fs/sfs/sfs_io.c`. A memory buffer together with a pointer into it is a `Bytes` and a base
offset; a routine that fills a buffer returns the filled buffer, and the routines for writing
return theirs as they got it, so that `sfs_rbuf` and `sfs_wbuf` share a type as the function
pointers of `sfs_io_nolock` require.
-/

namespace Ucore

open Bytes Prog

/-- `dop_io` on one block. As `disk0_io` does, it refuses a transfer that is not block-aligned or
runs past the end of the device. -/
def dopIo (offset : ℕ) (buf : Bytes) (base : ℕ) (write : Bool) : Prog Errno Device Bytes := do
  let dev ← get
  if offset % 4096 ≠ 0 ∨ dev.dBlocks < offset / 4096 + 1 then
    fail .inval
  else
    modify fun d ↦ { d with faults := d.faults.tail }
    match dev.faults.head? with
    | some (some e) => fail e
    | _ =>
      if write then
        modify fun d ↦ { d with
          blk := Function.update d.blk (offset / 4096)
            (memcpy (d.blk (offset / 4096)) 0 buf base 4096) }
        return buf
      else
        return memcpy buf base (dev.blk (offset / 4096)) 0 4096

/-- `sfs_rwblock_nolock`. The product `blkno * SFS_BLKSIZE` is one of `uint32_t`. -/
def sfsRwblockNolock (buf : Bytes) (base blkno : ℕ) (write check : Bool) :
    Prog Errno SfsFs Bytes := do
  let sfs ← get
  assert ((blkno ≠ 0 ∨ check = false) ∧ blkno < sfs.super.blocks)
  (dopIo (blkno * sfsBlksize % 2 ^ 32) buf base write).zoom SfsFs.dev
    fun dev s ↦ { s with dev := dev }

/-- `sfs_rwblock`: `nblks` consecutive blocks. -/
def sfsRwblock (buf : Bytes) (base blkno nblks : ℕ) (write : Bool) : Prog Errno SfsFs Bytes :=
  match nblks with
  | 0 => return buf
  | nblks + 1 => do
    let buf ← sfsRwblockNolock buf base blkno write true
    sfsRwblock buf (base + sfsBlksize) (blkno + 1) nblks write

def sfsRblock (buf : Bytes) (base blkno nblks : ℕ) : Prog Errno SfsFs Bytes :=
  sfsRwblock buf base blkno nblks false

def sfsWblock (buf : Bytes) (base blkno nblks : ℕ) : Prog Errno SfsFs Bytes :=
  sfsRwblock buf base blkno nblks true

def sfsRbuf (buf : Bytes) (base len blkno offset : ℕ) : Prog Errno SfsFs Bytes := do
  assert (offset < sfsBlksize ∧ offset + len ≤ sfsBlksize)
  let buffer ← sfsRwblockNolock zero 0 blkno false true
  return memcpy buf base buffer offset len

def sfsWbuf (buf : Bytes) (base len blkno offset : ℕ) : Prog Errno SfsFs Bytes := do
  assert (offset < sfsBlksize ∧ offset + len ≤ sfsBlksize)
  let buffer ← sfsRwblockNolock zero 0 blkno false true
  let _ ← sfsRwblockNolock (memcpy buffer offset buf base len) 0 blkno true true
  return buf

def sfsClearBlock (blkno nblks : ℕ) : Prog Errno SfsFs Unit :=
  match nblks with
  | 0 => return ()
  | nblks + 1 => do
    let _ ← sfsRwblockNolock zero 0 blkno true true
    sfsClearBlock (blkno + 1) nblks

def sfsSyncSuper : Prog Errno SfsFs Unit := do
  let sfs ← get
  let _ ← sfsRwblockNolock (memcpy zero 0 sfs.super.bytes 0 SfsSuper.size) 0 sfsBlknSuper true false
  return ()

/-- `bitmap_getdata`: the words of the map as they lie in memory. -/
def bitmapGetdata (b : Bitmap) : Bytes := fun i ↦ leByte (b.map (i / 4)).toNat (i % 4)

def sfsFreemapBlocks (super : SfsSuper) : ℕ := (super.blocks + (sfsBlkbits - 1)) / sfsBlkbits

def sfsSyncFreemap : Prog Errno SfsFs Unit := do
  let sfs ← get
  let _ ← sfsWblock (bitmapGetdata sfs.freemap) 0 sfsBlknFreemap (sfsFreemapBlocks sfs.super)
  return ()

/-! ## On a device that does what it is asked -/

section DevOk

variable {s : SfsFs} {blkno : ℕ}

theorem dopIo_read_eq {dev : Device} (hf : dev.faults = []) (hlt : blkno < dev.dBlocks)
    (buf : Bytes) (base : ℕ) :
    (dopIo (blkno * 4096) buf base false).run dev
      = .ok (memcpy buf base (dev.blk blkno) 0 4096) dev := by
  have hdiv : blkno * 4096 / 4096 = blkno := Nat.mul_div_cancel _ (by omega)
  have hok : ¬(blkno * 4096 % 4096 ≠ 0 ∨ dev.dBlocks < blkno + 1) := by omega
  obtain ⟨dBlocks, blk, faults, hlt'⟩ := dev
  subst hf
  rw [dopIo, get_bind_run, hdiv, if_neg hok]
  rfl

theorem dopIo_write_eq {dev : Device} (hf : dev.faults = []) (hlt : blkno < dev.dBlocks)
    (buf : Bytes) (base : ℕ) :
    (dopIo (blkno * 4096) buf base true).run dev
      = .ok buf { dev with
          blk := Function.update dev.blk blkno (memcpy (dev.blk blkno) 0 buf base 4096) } := by
  have hdiv : blkno * 4096 / 4096 = blkno := Nat.mul_div_cancel _ (by omega)
  have hok : ¬(blkno * 4096 % 4096 ≠ 0 ∨ dev.dBlocks < blkno + 1) := by omega
  obtain ⟨dBlocks, blk, faults, hlt'⟩ := dev
  subst hf
  rw [dopIo, get_bind_run, hdiv, if_neg hok]
  rfl

theorem sfsRwblockNolock_read (h : s.DevOk) {check : Bool} (hb : blkno ≠ 0 ∨ check = false)
    (hlt : blkno < s.super.blocks) (buf : Bytes) (base : ℕ) :
    (sfsRwblockNolock buf base blkno false check).run s
      = .ok (memcpy buf base (s.dev.blk blkno) 0 4096) s := by
  have hdev : blkno < s.dev.dBlocks := lt_of_lt_of_le hlt h.blocks_le
  rw [sfsRwblockNolock, get_bind_run, assert_bind_run ⟨hb, hlt⟩, sfsBlksize_eq, h.offset_mod hlt]
  exact zoom_of_ok (dopIo_read_eq h.faults hdev buf base)

theorem sfsRwblockNolock_write (h : s.DevOk) {check : Bool} (hb : blkno ≠ 0 ∨ check = false)
    (hlt : blkno < s.super.blocks) (buf : Bytes) (base : ℕ) :
    (sfsRwblockNolock buf base blkno true check).run s
      = .ok buf (s.setBlk blkno (memcpy (s.dev.blk blkno) 0 buf base 4096)) := by
  have hdev : blkno < s.dev.dBlocks := lt_of_lt_of_le hlt h.blocks_le
  rw [sfsRwblockNolock, get_bind_run, assert_bind_run ⟨hb, hlt⟩, sfsBlksize_eq, h.offset_mod hlt]
  exact zoom_of_ok (dopIo_write_eq h.faults hdev buf base)

theorem sfsRbuf_eq (h : s.DevOk) (hb : blkno ≠ 0) (hlt : blkno < s.super.blocks) (buf : Bytes)
    (base : ℕ) {len offset : ℕ} (hoff : offset < 4096) (hlen : offset + len ≤ 4096) :
    (sfsRbuf buf base len blkno offset).run s
      = .ok (memcpy buf base (s.dev.blk blkno) offset len) s := by
  rw [sfsRbuf, assert_bind_run ⟨hoff, hlen⟩,
    bind_of_ok (sfsRwblockNolock_read h (Or.inl hb) hlt zero 0), run_pure,
    memcpy_memcpy_src _ _ _ hlen]

theorem sfsWbuf_eq (h : s.DevOk) (hb : blkno ≠ 0) (hlt : blkno < s.super.blocks) (buf : Bytes)
    (base : ℕ) {len offset : ℕ} (hoff : offset < 4096) (hlen : offset + len ≤ 4096) :
    (sfsWbuf buf base len blkno offset).run s
      = .ok buf (s.setBlk blkno (memcpy (s.dev.blk blkno) offset buf base len)) := by
  rw [sfsWbuf, assert_bind_run ⟨hoff, hlen⟩,
    bind_of_ok (sfsRwblockNolock_read h (Or.inl hb) hlt zero 0),
    bind_of_ok (sfsRwblockNolock_write h (Or.inl hb) hlt _ 0), run_pure,
    memcpy_writeback _ _ _ hlen]

theorem sfsClearBlock_one_eq (h : s.DevOk) (hb : blkno ≠ 0) (hlt : blkno < s.super.blocks) :
    (sfsClearBlock blkno 1).run s
      = .ok () (s.setBlk blkno (memcpy (s.dev.blk blkno) 0 zero 0 4096)) := by
  rw [sfsClearBlock, bind_of_ok (sfsRwblockNolock_write h (Or.inl hb) hlt zero 0)]
  rfl

/-- A block number the assertion of `sfs_rwblock_nolock` rejects stops the machine. -/
theorem sfsRwblockNolock_panic {buf : Bytes} {base : ℕ} {write check : Bool}
    (h : (blkno = 0 ∧ check = true) ∨ s.super.blocks ≤ blkno) :
    (sfsRwblockNolock buf base blkno write check).run s = .panic := by
  rw [sfsRwblockNolock, get_bind_run, assert_bind_run_neg]
  rintro ⟨h₁ | h₁, h₂⟩
  · omega
  · rcases h with ⟨-, h⟩ | h
    · rw [h] at h₁
      exact Bool.noConfusion h₁
    · omega

end DevOk

/-! ## A small file system

An image of 32 blocks with two files, `3` and `6`, that are in memory: enough to run the
routines on. -/

/-- The on-disk inode of a file that needs no indirect block. -/
def SfsDiskInode.ofDirect (size type nlinks : ℕ) (entries : List ℕ) : SfsDiskInode where
  size := size
  type := type
  nlinks := nlinks
  blocks := entries.length
  direct j := entries.getD j 0
  indirect := 0

theorem SfsDiskInode.ofDirect_direct (size type nlinks : ℕ) (entries : List ℕ) (j : Fin 12) :
    (ofDirect size type nlinks entries).direct j = entries.getD j 0 := rfl

/-- A root directory without entries. -/
def sampleRoot : SfsDiskInode := .ofDirect 0 sfsTypeDir 2 []

/-- A file of two blocks. -/
def sampleFile : SfsDiskInode := .ofDirect 8192 sfsTypeFile 1 [4, 5]

/-- A file of ten bytes. -/
def sampleOther : SfsDiskInode := .ofDirect 10 sfsTypeFile 1 [7]

/-- The freemap: the blocks from 8 on are free. -/
def sampleFreemap : Bitmap := Bitmap.ofPred 32768 fun b ↦ decide (8 ≤ b) && decide (b < 32)

/-- The superblock. -/
def sampleSuper : SfsSuper := ⟨sfsMagic, 32, 24, fun _ ↦ 0⟩

/-- The device. -/
def sampleDev : Device where
  dBlocks := 32
  blk
    | 0 => sampleSuper.bytes
    | 1 => sampleRoot.bytes
    | 2 => bitmapGetdata sampleFreemap
    | 3 => sampleFile.bytes
    | 4 => fun _ ↦ 65
    | 5 => fun _ ↦ 66
    | 6 => sampleOther.bytes
    | 7 => fun _ ↦ 67
    | _ => zero
  faults := []
  dBlocks_lt := by norm_num

/-- The mounted file system, with both files open. -/
def sampleFs : SfsFs where
  super := sampleSuper
  dev := sampleDev
  freemap := sampleFreemap
  superDirty := false
  inodes k :=
    if k = 3 then some ⟨sampleFile, false, 1, 1, 1⟩
    else if k = 6 then some ⟨sampleOther, false, 1, 1, 1⟩
    else none
  inodeList := [6, 3]

end Ucore
