import Ucore.Sfs.FileIo

/-!
# Operations on one inode

The rest of `kern/fs/sfs/sfs_inode.c` that works on the inode rather than on its contents: loading
it, writing it back, changing its length, reclaiming it. Memory allocation succeeds here.
-/

namespace Ucore

open Bytes Prog

/-- `sfs_set_links`, together with the creation of the in-memory inode. -/
def SfsFs.setLinks (s : SfsFs) (k : ℕ) (sin : SfsInode) : SfsFs :=
  { s.setInode k sin with inodeList := k :: s.inodeList }

/-- `sfs_remove_links`, together with the release of the in-memory inode. -/
def SfsFs.removeLinks (s : SfsFs) (k : ℕ) : SfsFs :=
  { s with inodes := Function.update s.inodes k none, inodeList := s.inodeList.erase k }

/-- `lookup_sfs_nolock` on an inode that is in memory: one more reference, and if it is the first
one, one more reclaim to come. -/
def SfsInode.revive (sin : SfsInode) : SfsInode :=
  { sin with
    refCount := sin.refCount + 1
    reclaimCount := if sin.refCount = 0 then sin.reclaimCount + 1 else sin.reclaimCount }

theorem SfsInode.revive_din (sin : SfsInode) :
    sin.revive.din = { sin.din with size := sin.revive.din.size } := rfl

def sfsCreateInode (din : SfsDiskInode) : Prog Errno SfsFs SfsInode := do
  assert (din.type = sfsTypeDir ∨ din.type = sfsTypeFile)
  return { din := din, dirty := false, reclaimCount := 1, refCount := 1, openCount := 0 }

def sfsLoadInode (ino : ℕ) : Prog Errno SfsFs Unit := do
  match (← get).inodes ino with
  | some sin => putSin ino sin.revive
  | none =>
    let inuse ← sfsBlockInuse ino
    assert (inuse = true)
    let b ← sfsRbuf zero 0 SfsDiskInode.sizeof ino 0
    assert ((SfsDiskInode.ofBytes b).nlinks ≠ 0)
    let sin ← sfsCreateInode (SfsDiskInode.ofBytes b)
    modify fun s ↦ s.setLinks ino sin

/-- The failure branch of `sfs_fsync`. -/
def sfsFsyncFailed (k : ℕ) : Prog Errno SfsFs Unit := do
  let sin ← getSin k
  putSin k { sin with dirty := true }

def sfsFsync (k : ℕ) : Prog Errno SfsFs Unit := do
  let sin ← getSin k
  if sin.dirty = true then
    putSin k { sin with dirty := false }
    let _ ← (sfsWbuf sin.din.bytes 0 SfsDiskInode.sizeof k 0).onError (sfsFsyncFailed k)
    return ()
  else
    return ()

/-- The first loop of `sfs_truncfile`: append `n` blocks, the first with index `nblks`. -/
def sfsTruncEnlarge (k nblks : ℕ) : ℕ → Prog Errno SfsFs Unit
  | 0 => return ()
  | n + 1 => do
    let _ ← sfsBmapLoadNolock k nblks
    sfsTruncEnlarge k (nblks + 1) n

/-- The second loop of `sfs_truncfile`: cut off `n` blocks. -/
def sfsTruncReduce (k : ℕ) : ℕ → Prog Errno SfsFs Unit
  | 0 => return ()
  | n + 1 => do
    sfsBmapTruncateNolock k
    sfsTruncReduce k n

/-- The number of blocks `sfs_truncfile` gives a file of length `len`. -/
def truncBlocks (len : ℕ) : ℕ := (len + (sfsBlksize - 1)) / sfsBlksize

/-- The two loops of `sfs_truncfile`. -/
def sfsTruncLoops (k nblks tblks : ℕ) : Prog Errno SfsFs Unit :=
  if nblks < tblks then sfsTruncEnlarge k nblks (tblks - nblks)
  else sfsTruncReduce k (nblks - tblks)

def sfsTruncfile (k : ℕ) (len : ℤ) : Prog Errno SfsFs Unit := do
  if len < 0 ∨ (sfsMaxFileSize : ℤ) < len then
    fail .inval
  else
    let sin ← getSin k
    if sin.din.size = len.toNat then
      assert (truncBlocks len.toNat = sin.din.blocks)
    else
      sfsTruncLoops k sin.din.blocks (truncBlocks len.toNat)
      let sin ← getSin k
      assert (sin.din.blocks = truncBlocks len.toNat)
      putSin k (sin.grow len.toNat)

/-- `vop_truncate` on an inode of the file system: only files have the operation. -/
def vopTruncate (k : ℕ) (len : ℤ) : Prog Errno SfsFs Unit := do
  let sin ← getSin k
  assert (sin.din.type = sfsTypeFile)
  sfsTruncfile k len

def sfsTryseek (k : ℕ) (pos : ℤ) : Prog Errno SfsFs Unit := do
  if pos < 0 ∨ (sfsMaxFileSize : ℤ) ≤ pos then
    fail .inval
  else
    let sin ← getSin k
    if (sin.din.size : ℤ) < pos then
      vopTruncate k pos
    else
      return ()

/-- The part of `sfs_reclaim` that frees what an inode without links owned. -/
def sfsReclaimBlocks (k : ℕ) (sin : SfsInode) : Prog Errno SfsFs Unit :=
  if sin.din.nlinks = 0 then do
    sfsBlockFree k
    if sin.din.indirect ≠ 0 then sfsBlockFree sin.din.indirect else return ()
  else
    return ()

/-- The part of `sfs_reclaim` from `sfs_remove_links` on, with the assertions of `inode_kill`. -/
def sfsReclaimKill (k : ℕ) : Prog Errno SfsFs Unit := do
  let sin ← getSin k
  modify fun s ↦ s.removeLinks k
  sfsReclaimBlocks k sin
  assert (sin.refCount = 0 ∧ sin.openCount = 0)

/-- The part of `sfs_reclaim` that writes the inode back. -/
def sfsReclaimSync (k : ℕ) : Prog Errno SfsFs Unit := do
  let sin ← getSin k
  if sin.dirty = true then sfsFsync k else return ()

def sfsReclaim (k : ℕ) : Prog Errno SfsFs Unit := do
  let sin ← getSin k
  assert (0 < sin.reclaimCount)
  putSin k { sin with reclaimCount := sin.reclaimCount - 1 }
  if sin.reclaimCount - 1 ≠ 0 ∨ sin.refCount ≠ 0 then
    fail .busy
  else if sin.din.nlinks = 0 then
    vopTruncate k 0
    sfsReclaimSync k
    sfsReclaimKill k
  else
    sfsReclaimSync k
    sfsReclaimKill k

/-! ## Writing back -/

section Fsync

variable {s : SfsFs} {k : ℕ} {sin : SfsInode}

/-- The state after the inode was written back. -/
def SfsFs.writeBack (s : SfsFs) (k : ℕ) (sin : SfsInode) : SfsFs :=
  (s.setInode k { sin with dirty := false }).setBlk k
    (memcpy (s.dev.blk k) 0 sin.din.bytes 0 SfsDiskInode.sizeof)

theorem sfsFsync_clean (hk : s.inodes k = some sin) (h : sin.dirty = false) :
    (sfsFsync k).run s = .ok () s := by
  rw [sfsFsync, bind_of_ok (getSin_eq hk), if_neg (by simp [h]), run_pure]

theorem sfsFsync_dirty (ho : s.Ok) (hk : s.inodes k = some sin) (h : sin.dirty = true)
    (hused : s.Used k) : (sfsFsync k).run s = .ok () (s.writeBack k sin) := by
  have hok : (s.setInode k { sin with dirty := false }).DevOk := ho.toDevOk.setInode _ _
  have hsize : 0 + SfsDiskInode.sizeof ≤ 4096 := by
    rw [SfsDiskInode.sizeof]
    omega
  have hwrite := sfsWbuf_eq hok hused.1 hused.2.1 sin.din.bytes 0 (by omega) hsize
  rw [sfsFsync, bind_of_ok (getSin_eq hk), if_pos h,
    putSin_bind_run, bind_of_ok (onError_of_ok hwrite _)]
  rfl

end Fsync

/-! ## Changing the length -/

section Trunc

variable {s : SfsFs} {k : ℕ} {sin : SfsInode}

/-- Cutting off all blocks of an inode, one at a time. `I` is what is known of the state and is kept
by a truncation. -/
theorem sfsTruncReduce_eq {I : SfsFs → SfsInode → Prop} (n : ℕ) (hI : I s sin)
    (hok : ∀ {s sin}, I s sin → s.Ok ∧ s.inodes k = some sin ∧ s.Mapped sin.din)
    (hstep : ∀ {s sin b t sin'}, I s sin → s.Truncated k sin b t sin' → I t sin')
    (hn : n ≤ sin.din.blocks) :
    ∃ t sin', (sfsTruncReduce k n).run s = .ok () t ∧ I t sin' ∧
      sin'.din.blocks + n = sin.din.blocks := by
  induction n generalizing s sin with
  | zero => exact ⟨s, sin, rfl, hI, rfl⟩
  | succ n ih =>
    obtain ⟨ho, hk, hm⟩ := hok hI
    obtain ⟨b, t, sin', htrunc, hrun⟩ := sfsBmapTruncateNolock_eq ho hk hm (by omega)
    have hcut := htrunc.blocks
    obtain ⟨u, sin'', hrun', hI', hblocks⟩ := ih (hstep hI htrunc) (by omega)
    refine ⟨u, sin'', ?_, hI', by omega⟩
    rw [sfsTruncReduce, bind_of_ok hrun, hrun']

end Trunc

end Ucore
