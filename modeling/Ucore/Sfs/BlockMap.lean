import Ucore.Sfs.Io

/-!
# Block allocation and the block map of an inode

The part of `kern/fs/sfs/sfs_inode.c` that allocates and frees device blocks and that translates a
logical block of an inode to a device block: twelve direct entries in the inode itself, then up to
1024 entries in an indirect block on the device.
-/

namespace Ucore

open Bytes Prog

/-- Run a bitmap operation on the freemap. -/
def onFreemap {α : Type} (m : Prog Errno Bitmap α) : Prog Errno SfsFs α :=
  m.zoom SfsFs.freemap fun freemap s ↦ s.setFreemap freemap

/-- Follow the pointer to an in-memory inode. -/
def getSin (k : ℕ) : Prog Errno SfsFs SfsInode := do
  match (← get).inodes k with
  | some sin => return sin
  | none => halt

/-- Store through the pointer to an in-memory inode. -/
def putSin (k : ℕ) (sin : SfsInode) : Prog Errno SfsFs Unit := modify fun s ↦ s.setInode k sin

def sfsBlockInuse (ino : ℕ) : Prog Errno SfsFs Bool := do
  let sfs ← get
  if ino ≠ 0 ∧ ino < sfs.super.blocks then
    let free ← onFreemap (bitmapTest ino)
    return !free
  else
    halt

def sfsBlockAlloc : Prog Errno SfsFs ℕ := do
  let ino ← onFreemap bitmapAlloc
  let sfs ← get
  assert (0 < sfs.super.unusedBlocks)
  modify SfsFs.chargeBlock
  let inuse ← sfsBlockInuse ino
  assert (inuse = true)
  sfsClearBlock ino 1
  return ino

def sfsBlockFree (ino : ℕ) : Prog Errno SfsFs Unit := do
  let inuse ← sfsBlockInuse ino
  assert (inuse = true)
  onFreemap (bitmapFree ino)
  modify SfsFs.creditBlock

/-- The label `failed_cleanup` of `sfs_bmap_get_sub_nolock`. -/
def sfsBmapCleanup (entp ent : ℕ) : Prog Errno SfsFs Unit :=
  if ent ≠ entp then sfsBlockFree ent else return ()

/-- The part of `sfs_bmap_get_sub_nolock` that fills an empty slot of the entry block `ent`, which
is new if it differs from `*entp`. -/
def sfsBmapFillSlot (entp ent offset : ℕ) : Prog Errno SfsFs (ℕ × ℕ) := do
  let ino ← sfsBlockAlloc.onError (sfsBmapCleanup entp ent)
  let _ ← (sfsWbuf (le ino) 0 4 ent offset).onError do
    sfsBlockFree ino
    sfsBmapCleanup entp ent
  return (ent, ino)

/-- `sfs_bmap_get_sub_nolock`: the new `*entp` and the block found or made for slot `index`. -/
def sfsBmapGetSubNolock (entp index : ℕ) (create : Bool) : Prog Errno SfsFs (ℕ × ℕ) := do
  assert (index < sfsBlkNentry)
  if entp ≠ 0 then
    let word ← sfsRbuf zero 0 4 entp (4 * index)
    if read32 word 0 ≠ 0 ∨ create = false then
      return (entp, read32 word 0)
    else
      sfsBmapFillSlot entp entp (4 * index)
  else if create = false then
    return (entp, 0)
  else
    let ent ← sfsBlockAlloc
    sfsBmapFillSlot entp ent (4 * index)

/-- The label `out` of `sfs_bmap_get_nolock`. -/
def sfsBmapGetOut (ino : ℕ) : Prog Errno SfsFs ℕ := do
  if ino = 0 then
    return ino
  else
    let inuse ← sfsBlockInuse ino
    assert (inuse = true)
    return ino

/-- `din->direct[index] = ino, sin->dirty = 1`. -/
def SfsInode.setDirect (sin : SfsInode) (index : Fin 12) (ino : ℕ) : SfsInode :=
  { sin with
    din := { sin.din with direct := Function.update sin.din.direct index ino }
    dirty := true }

/-- `din->indirect = ent, sin->dirty = 1`. -/
def SfsInode.setIndirect (sin : SfsInode) (ent : ℕ) : SfsInode :=
  { sin with din := { sin.din with indirect := ent }, dirty := true }

/-- `din->blocks = n`. -/
def SfsInode.setBlocks (sin : SfsInode) (n : ℕ) : SfsInode :=
  { sin with din := { sin.din with blocks := n } }

def sfsBmapGetNolock (k index : ℕ) (create : Bool) : Prog Errno SfsFs ℕ := do
  let sin ← getSin k
  if h : index < 12 then
    if sin.din.direct ⟨index, h⟩ = 0 ∧ create = true then
      let ino ← sfsBlockAlloc
      putSin k (sin.setDirect ⟨index, h⟩ ino)
      sfsBmapGetOut ino
    else
      sfsBmapGetOut (sin.din.direct ⟨index, h⟩)
  else if index - sfsNdirect < sfsBlkNentry then
    let (ent, ino) ← sfsBmapGetSubNolock sin.din.indirect (index - sfsNdirect) create
    if ent ≠ sin.din.indirect then
      assert (sin.din.indirect = 0)
      putSin k (sin.setIndirect ent)
      sfsBmapGetOut ino
    else
      sfsBmapGetOut ino
  else
    halt

def sfsBmapFreeSubNolock (ent index : ℕ) : Prog Errno SfsFs Unit := do
  let inuse ← sfsBlockInuse ent
  assert (inuse = true ∧ index < sfsBlkNentry)
  let word ← sfsRbuf zero 0 4 ent (4 * index)
  if read32 word 0 ≠ 0 then
    let _ ← sfsWbuf (le 0) 0 4 ent (4 * index)
    sfsBlockFree (read32 word 0)
  else
    return ()

def sfsBmapFreeNolock (k index : ℕ) : Prog Errno SfsFs Unit := do
  let sin ← getSin k
  if h : index < 12 then
    if sin.din.direct ⟨index, h⟩ ≠ 0 then
      sfsBlockFree (sin.din.direct ⟨index, h⟩)
      putSin k (sin.setDirect ⟨index, h⟩ 0)
    else
      return ()
  else if index - sfsNdirect < sfsBlkNentry ∧ sin.din.indirect ≠ 0 then
    sfsBmapFreeSubNolock sin.din.indirect (index - sfsNdirect)
  else
    return ()

def sfsBmapLoadNolock (k index : ℕ) : Prog Errno SfsFs ℕ := do
  let sin ← getSin k
  assert (index ≤ sin.din.blocks)
  let ino ← sfsBmapGetNolock k index (decide (index = sin.din.blocks))
  let inuse ← sfsBlockInuse ino
  assert (inuse = true)
  if index = sin.din.blocks then
    let sin ← getSin k
    putSin k (sin.setBlocks (sin.din.blocks + 1))
    return ino
  else
    return ino

def sfsBmapTruncateNolock (k : ℕ) : Prog Errno SfsFs Unit := do
  let sin ← getSin k
  assert (sin.din.blocks ≠ 0)
  sfsBmapFreeNolock k (sin.din.blocks - 1)
  let sin ← getSin k
  putSin k { sin.setBlocks (sin.din.blocks - 1) with dirty := true }

namespace SfsFs

/-! ## Taking and releasing a block -/

/-- The state after block `b` was taken from the freemap and cleared. -/
def takeBlock (s : SfsFs) (b : ℕ) : SfsFs :=
  (s.setFreemap (s.freemap.flip b)).chargeBlock.setBlk b (memcpy (s.dev.blk b) 0 zero 0 4096)

/-- The state after block `b` was given back to the freemap. -/
def releaseBlock (s : SfsFs) (b : ℕ) : SfsFs := (s.setFreemap (s.freemap.set b)).creditBlock

/-- Block `b` is marked in use. -/
def Used (s : SfsFs) (b : ℕ) : Prop := b ≠ 0 ∧ b < s.super.blocks ∧ s.freemap.isFree b = false

/-- The device works and the in-memory superblock and freemap agree with each other. -/
structure Ok (s : SfsFs) : Prop extends s.DevOk where
  wf : s.freemap.Wf
  blocks_le_nbits : s.super.blocks ≤ s.freemap.nbits
  unused : s.super.unusedBlocks = s.freemap.freeCount

/-- Only blocks of the file system other than the superblock are marked free, as `mksfs` writes the
freemap. -/
def TailClear (s : SfsFs) : Prop :=
  ∀ b, s.freemap.isFree b = true → b ≠ 0 ∧ b < s.super.blocks

section Projections

variable (s : SfsFs) (b : ℕ)

@[simp] theorem takeBlock_freemap : (s.takeBlock b).freemap = s.freemap.flip b := rfl
@[simp] theorem takeBlock_blocks : (s.takeBlock b).super.blocks = s.super.blocks := rfl
@[simp] theorem takeBlock_superDirty : (s.takeBlock b).superDirty = true := rfl
@[simp] theorem takeBlock_inodes : (s.takeBlock b).inodes = s.inodes := rfl
@[simp] theorem takeBlock_faults : (s.takeBlock b).dev.faults = s.dev.faults := rfl
@[simp] theorem takeBlock_dBlocks : (s.takeBlock b).dev.dBlocks = s.dev.dBlocks := rfl

@[simp] theorem takeBlock_blk_self :
    (s.takeBlock b).dev.blk b = memcpy (s.dev.blk b) 0 zero 0 4096 := s.setBlk_blk_self b _

theorem takeBlock_blk_of_ne {c : ℕ} (h : c ≠ b) : (s.takeBlock b).dev.blk c = s.dev.blk c :=
  s.setBlk_blk_of_ne b _ h

@[simp] theorem releaseBlock_freemap : (s.releaseBlock b).freemap = s.freemap.set b := rfl
@[simp] theorem releaseBlock_blocks : (s.releaseBlock b).super.blocks = s.super.blocks := rfl
@[simp] theorem releaseBlock_superDirty : (s.releaseBlock b).superDirty = true := rfl
@[simp] theorem releaseBlock_inodes : (s.releaseBlock b).inodes = s.inodes := rfl
@[simp] theorem releaseBlock_dev : (s.releaseBlock b).dev = s.dev := rfl

end Projections

variable {s : SfsFs} {b : ℕ}

theorem Ok.setBlk (h : s.Ok) (n : ℕ) (c : Bytes) : (s.setBlk n c).Ok :=
  { h.toDevOk.setBlk n c with
    wf := h.wf
    blocks_le_nbits := h.blocks_le_nbits
    unused := h.unused }

theorem Ok.of_setBlk {n : ℕ} {c : Bytes} (h : (s.setBlk n c).Ok) : s.Ok where
  faults := h.faults
  blocks_le := h.blocks_le
  wf := h.wf
  blocks_le_nbits := h.blocks_le_nbits
  unused := h.unused

theorem Ok.setInode (h : s.Ok) (k : ℕ) (sin : SfsInode) : (s.setInode k sin).Ok :=
  { h.toDevOk.setInode k sin with
    wf := h.wf
    blocks_le_nbits := h.blocks_le_nbits
    unused := h.unused }

theorem Ok.takeBlock (h : s.Ok) (hb : s.freemap.isFree b = true) : (s.takeBlock b).Ok where
  faults := h.faults
  blocks_le := h.blocks_le
  wf := h.wf.flip (Bitmap.isFree_iff.mp hb).1
  blocks_le_nbits := h.blocks_le_nbits
  unused := by
    have hcount := Bitmap.freeCount_flip hb
    have hunused := h.unused
    change s.super.unusedBlocks - 1 = (s.freemap.flip b).freeCount
    omega

theorem Used.lt_nbits (h : s.Ok) (hb : s.Used b) : b < s.freemap.nbits :=
  lt_of_lt_of_le hb.2.1 h.blocks_le_nbits

theorem Ok.releaseBlock (h : s.Ok) (hb : s.Used b) : (s.releaseBlock b).Ok where
  faults := h.faults
  blocks_le := h.blocks_le
  wf := h.wf.set (hb.lt_nbits h)
  blocks_le_nbits := h.blocks_le_nbits
  unused := by
    have hcount := Bitmap.freeCount_set (hb.lt_nbits h) hb.2.2
    have hunused := h.unused
    change s.super.unusedBlocks + 1 = (s.freemap.set b).freeCount
    omega

theorem used_takeBlock (hb : s.freemap.isFree b = true) {c : ℕ} :
    (s.takeBlock b).Used c ↔ s.Used c ∨ (c = b ∧ b ≠ 0 ∧ b < s.super.blocks) := by
  rw [Used, Used, takeBlock_blocks, takeBlock_freemap, ← Bool.not_eq_true, ← Bool.not_eq_true,
    Bitmap.isFree_flip hb]
  by_cases hc : c = b
  · subst hc
    simp [hb]
  · simp [hc]

theorem used_releaseBlock (h : s.Ok) (hb : s.Used b) {c : ℕ} :
    (s.releaseBlock b).Used c ↔ s.Used c ∧ c ≠ b := by
  rw [Used, Used, releaseBlock_blocks, releaseBlock_freemap, ← Bool.not_eq_true,
    ← Bool.not_eq_true, Bitmap.isFree_set (hb.lt_nbits h)]
  tauto

theorem TailClear.zero (h : s.TailClear) : s.freemap.isFree 0 = false := by
  by_contra hfree
  exact (h 0 (by simpa using hfree)).1 rfl

theorem TailClear.takeBlock (h : s.TailClear) (hb : s.freemap.isFree b = true) :
    (s.takeBlock b).TailClear := by
  intro c hc
  rw [takeBlock_freemap, Bitmap.isFree_flip hb] at hc
  exact h c hc.1

theorem TailClear.releaseBlock (h : s.TailClear) (ho : s.Ok) (hb : s.Used b) :
    (s.releaseBlock b).TailClear := by
  intro c hc
  rw [releaseBlock_freemap, Bitmap.isFree_set (hb.lt_nbits ho)] at hc
  rcases hc with hc | rfl
  · exact h c hc
  · exact ⟨hb.1, hb.2.1⟩

end SfsFs

/-! ## What allocation and release do -/

section Alloc

variable {s : SfsFs} {b : ℕ}

theorem getSin_eq {k : ℕ} {sin : SfsInode} (h : s.inodes k = some sin) :
    (getSin k).run s = .ok sin s := by
  rw [getSin, get_bind_run, h]
  rfl

@[simp] theorem putSin_bind_run {α : Type} (k : ℕ) (sin : SfsInode)
    (f : Unit → Prog Errno SfsFs α) :
    (putSin k sin >>= f).run s = (f ()).run (s.setInode k sin) := rfl

theorem sfsBlockInuse_eq (h : s.Ok) (hb : b ≠ 0) (hlt : b < s.super.blocks) :
    (sfsBlockInuse b).run s = .ok (!s.freemap.isFree b) s := by
  have htest : (onFreemap (bitmapTest b)).run s = .ok (s.freemap.isFree b) s :=
    zoom_of_ok (bitmapTest_eq (lt_of_lt_of_le hlt h.blocks_le_nbits))
  rw [sfsBlockInuse, get_bind_run, if_pos ⟨hb, hlt⟩, bind_of_ok htest, run_pure]

theorem sfsBlockInuse_of_used (h : s.Ok) (hb : s.Used b) :
    (sfsBlockInuse b).run s = .ok true s := by
  rw [sfsBlockInuse_eq h hb.1 hb.2.1, hb.2.2]
  rfl

theorem sfsBlockInuse_panic (h : ¬(b ≠ 0 ∧ b < s.super.blocks)) :
    (sfsBlockInuse b).run s = .panic := by
  rw [sfsBlockInuse, get_bind_run, if_neg h, run_halt]

/-- Allocation takes and clears the smallest free block, reports that there is none, or stops the
machine because the bit it found free belongs to no block of the file system. -/
theorem sfsBlockAlloc_cases (h : s.Ok) :
    (∃ b, s.freemap.isFree b = true ∧ (∀ c < b, s.freemap.isFree c = false) ∧ b ≠ 0 ∧
        b < s.super.blocks ∧ sfsBlockAlloc.run s = .ok b (s.takeBlock b)) ∨
      ((∀ c, s.freemap.isFree c = false) ∧ sfsBlockAlloc.run s = .error .noMem s) ∨
      (¬s.TailClear ∧ sfsBlockAlloc.run s = .panic) := by
  rcases bitmapAlloc_cases h.wf with ⟨b, hfree, hfirst, hrun⟩ | ⟨hnone, hrun⟩
  · set t := (s.setFreemap (s.freemap.flip b)).chargeBlock with ht
    have hz : (onFreemap bitmapAlloc).run s = .ok b (s.setFreemap (s.freemap.flip b)) :=
      zoom_of_ok hrun
    have hpos : 0 < (s.setFreemap (s.freemap.flip b)).super.unusedBlocks :=
      lt_of_lt_of_eq (Bitmap.freeCount_pos hfree) h.unused.symm
    have hrest : sfsBlockAlloc.run s
        = (sfsBlockInuse b >>= fun inuse ↦ do
            assert (inuse = true)
            sfsClearBlock b 1
            return b).run t := by
      rw [sfsBlockAlloc, bind_of_ok hz, get_bind_run, assert_bind_run hpos, modify_bind_run]
    by_cases hb : b ≠ 0 ∧ b < s.super.blocks
    · refine Or.inl ⟨b, hfree, hfirst, hb.1, hb.2, ?_⟩
      have hok : t.Ok := (h.takeBlock hfree).of_setBlk
      have hused : t.Used b := (SfsFs.used_takeBlock hfree).mpr (Or.inr ⟨rfl, hb⟩)
      rw [hrest, bind_of_ok (sfsBlockInuse_of_used hok hused), assert_bind_run rfl,
        bind_of_ok (sfsClearBlock_one_eq hok.toDevOk hb.1 hb.2), run_pure]
      rfl
    · refine Or.inr (Or.inr ⟨fun hc ↦ hb (hc b hfree), ?_⟩)
      rw [hrest, bind_of_panic (sfsBlockInuse_panic (s := t) hb)]
  · have hz : (onFreemap bitmapAlloc).run s = .error .noMem s := zoom_of_error hrun
    exact Or.inr (Or.inl ⟨hnone, by rw [sfsBlockAlloc, bind_of_error hz]⟩)

theorem sfsBlockFree_eq (h : s.Ok) (hb : s.Used b) :
    (sfsBlockFree b).run s = .ok () (s.releaseBlock b) := by
  have hz : (onFreemap (bitmapFree b)).run s = .ok () (s.setFreemap (s.freemap.set b)) :=
    zoom_of_ok (bitmapFree_eq (hb.lt_nbits h) hb.2.2)
  rw [sfsBlockFree, bind_of_ok (sfsBlockInuse_of_used h hb), assert_bind_run rfl, bind_of_ok hz]
  rfl

/-- Giving back the block that was just taken leaves the freemap and the counter as they were. -/
theorem releaseBlock_takeBlock (h : s.Ok) (hb : s.freemap.isFree b = true) :
    (s.takeBlock b).releaseBlock b
      = { s.setBlk b (memcpy (s.dev.blk b) 0 zero 0 4096) with superDirty := true } := by
  have hpos : 0 < s.super.unusedBlocks := h.unused ▸ Bitmap.freeCount_pos hb
  have hsuper : s.super.unusedBlocks - 1 + 1 = s.super.unusedBlocks := by omega
  rw [SfsFs.releaseBlock, SfsFs.takeBlock]
  simp only [SfsFs.setFreemap, SfsFs.chargeBlock, SfsFs.creditBlock, SfsFs.setBlk,
    Bitmap.set_flip hb, hsuper]

end Alloc

/-! ## The small file system -/

theorem isFree_sampleFreemap (b : ℕ) : sampleFreemap.isFree b = true ↔ 8 ≤ b ∧ b < 32 := by
  rw [sampleFreemap, Bitmap.isFree_ofPred]
  simp only [Bool.and_eq_true, decide_eq_true_eq]
  omega

theorem freeCount_sampleFreemap : sampleFreemap.freeCount = 24 := by
  rw [sampleFreemap, Bitmap.freeCount_ofPred (Finset.Ico 8 32), Nat.card_Ico]
  intro i
  simp only [Finset.mem_Ico, Bool.and_eq_true, decide_eq_true_eq]
  omega

theorem sampleFs_freemap : sampleFs.freemap = sampleFreemap := rfl

theorem sampleFs_blocks : sampleFs.super.blocks = 32 := rfl

theorem sampleFs_dBlocks : sampleFs.dev.dBlocks = 32 := rfl

theorem sampleFs_unusedBlocks : sampleFs.super.unusedBlocks = 24 := rfl

theorem sampleFs_nbits : sampleFs.freemap.nbits = 32768 := rfl

/-- The inodes in memory. -/
theorem sampleFs_cached {k : ℕ} {sin : SfsInode} (h : sampleFs.inodes k = some sin) :
    (k = 3 ∧ sin = ⟨sampleFile, false, 1, 1, 1⟩) ∨
      (k = 6 ∧ sin = ⟨sampleOther, false, 1, 1, 1⟩) := by
  by_cases h3 : k = 3
  · subst h3
    exact Or.inl ⟨rfl, (Option.some.inj h).symm⟩
  · by_cases h6 : k = 6
    · subst h6
      exact Or.inr ⟨rfl, (Option.some.inj h).symm⟩
    · have hnone : sampleFs.inodes k = none := (if_neg h3).trans (if_neg h6)
      rw [hnone] at h
      cases h

theorem sampleFs_ok : sampleFs.Ok where
  faults := rfl
  blocks_le := by rw [sampleFs_blocks, sampleFs_dBlocks]
  wf := by
    rw [sampleFs_freemap]
    exact Bitmap.wf_ofPred _ _
  blocks_le_nbits := by
    rw [sampleFs_blocks, sampleFs_nbits]
    omega
  unused := by rw [sampleFs_freemap, freeCount_sampleFreemap, sampleFs_unusedBlocks]

theorem sampleFs_tailClear : sampleFs.TailClear := by
  intro b hb
  have hrange := (isFree_sampleFreemap b).mp hb
  exact ⟨by omega, hrange.2⟩

theorem sampleFs_used {b : ℕ} (h : b ≠ 0) (hlt : b < 8) : sampleFs.Used b := by
  refine ⟨h, by rw [sampleFs_blocks]; omega, ?_⟩
  rw [sampleFs_freemap, ← Bool.not_eq_true, isFree_sampleFreemap]
  omega

end Ucore
