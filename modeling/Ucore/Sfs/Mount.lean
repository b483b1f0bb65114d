import Ucore.Sfs.Inode

/-!
# Syncing and mounting

`kern/fs/sfs/sfs_fs.c`: `sfs_sync` writes the inodes, the superblock and the freemap back, and
`sfs_do_mount` reads a superblock and a freemap off a device. The devices here have blocks of
`SFS_BLKSIZE` bytes, and memory allocation succeeds.
-/

namespace Ucore

open Bytes Prog

/-! ## The code -/

/-- The loop of `sfs_sync` over `inode_list`; what `vop_fsync` returns is dropped. -/
def sfsSyncInodes : List ℕ → Prog Errno SfsFs Unit
  | [] => return ()
  | k :: list => do
    let _ ← (sfsFsync k).attempt
    sfsSyncInodes list

/-- `sfs->super_dirty = dirty`. -/
def SfsFs.setSuperDirty (s : SfsFs) (dirty : Bool) : SfsFs := { s with superDirty := dirty }

@[simp] theorem SfsFs.setSuperDirty_super (s : SfsFs) (dirty : Bool) :
    (s.setSuperDirty dirty).super = s.super := rfl

@[simp] theorem SfsFs.setSuperDirty_freemap (s : SfsFs) (dirty : Bool) :
    (s.setSuperDirty dirty).freemap = s.freemap := rfl

/-- The part of `sfs_sync` that writes a dirty superblock and the freemap back. -/
def sfsSyncDirty : Prog Errno SfsFs Unit := do
  modify (·.setSuperDirty false)
  sfsSyncSuper.onError (modify (·.setSuperDirty true))
  sfsSyncFreemap.onError (modify (·.setSuperDirty true))

def sfsSync : Prog Errno SfsFs Unit := do
  let sfs ← get
  sfsSyncInodes sfs.inodeList
  let sfs ← get
  if sfs.superDirty = true then sfsSyncDirty else return ()

def sfsInitRead (blkno : ℕ) (buf : Bytes) (base : ℕ) : Prog Errno Device Bytes :=
  dopIo (blkno * sfsBlksize % 2 ^ 32) buf base false

/-- The loop of `sfs_init_freemap`. -/
def sfsInitFreemap (data : Bytes) (base blkno : ℕ) : ℕ → Prog Errno Device Bytes
  | 0 => return data
  | nblks + 1 => do
    let data ← sfsInitRead blkno data base
    sfsInitFreemap data (base + sfsBlksize) (blkno + 1) nblks

def bitmapCreate (nbits : ℕ) : Bitmap := Bitmap.ofPred nbits fun _ ↦ true

/-- The bitmap with its words replaced by what lies in memory. -/
def Bitmap.setData (b : Bitmap) (data : Bytes) : Bitmap :=
  { b with map := fun ix ↦ BitVec.ofNat 32 (read32 data (4 * ix)) }

def sfsFreemapBits (super : SfsSuper) : ℕ :=
  (super.blocks + (sfsBlkbits - 1)) / sfsBlkbits * sfsBlkbits

/-- `super->info[SFS_MAX_INFO_LEN] = '\0'`. -/
def SfsSuper.terminate (super : SfsSuper) : SfsSuper :=
  { super with info := Function.update super.info 31 0 }

/-- The part of `sfs_do_mount` from `bitmap_create` on. -/
def sfsMountFreemap (super : SfsSuper) : Prog Errno Device SfsFs := do
  assert (sfsFreemapBits super ≠ 0)
  assert (4 * (bitmapCreate (sfsFreemapBits super)).nwords = sfsFreemapBlocks super * sfsBlksize)
  let data ← sfsInitFreemap (bitmapGetdata (bitmapCreate (sfsFreemapBits super))) 0 sfsBlknFreemap
    (sfsFreemapBlocks super)
  assert (((bitmapCreate (sfsFreemapBits super)).setData data).freeCount = super.unusedBlocks)
  let dev ← get
  return {
    super := super
    dev := dev
    freemap := (bitmapCreate (sfsFreemapBits super)).setData data
    superDirty := false
    inodes := fun _ ↦ none
    inodeList := [] }

def sfsDoMount : Prog Errno Device SfsFs := do
  let sfsBuffer ← sfsInitRead sfsBlknSuper zero 0
  let dev ← get
  if (SfsSuper.ofBytes sfsBuffer).magic ≠ sfsMagic ∨
      dev.dBlocks < (SfsSuper.ofBytes sfsBuffer).blocks then
    fail .inval
  else
    sfsMountFreemap (SfsSuper.ofBytes sfsBuffer).terminate

/-! ## Several blocks at once -/

/-- The state after `n` blocks from `blkno` on were overwritten with what `buf` holds from `base`
on. -/
def SfsFs.setBlks (s : SfsFs) (blkno n : ℕ) (buf : Bytes) (base : ℕ) : SfsFs :=
  { s with dev := { s.dev with
      blk := fun c ↦
        if blkno ≤ c ∧ c < blkno + n then
          memcpy (s.dev.blk c) 0 buf (base + 4096 * (c - blkno)) 4096
        else s.dev.blk c } }

section Blocks

variable {s : SfsFs} {blkno n : ℕ}

theorem SfsFs.setBlks_blk_of_mem {buf : Bytes} {base c : ℕ} (h₁ : blkno ≤ c) (h₂ : c < blkno + n) :
    (s.setBlks blkno n buf base).dev.blk c
      = memcpy (s.dev.blk c) 0 buf (base + 4096 * (c - blkno)) 4096 :=
  if_pos ⟨h₁, h₂⟩

theorem SfsFs.setBlks_blk_of_notMem {buf : Bytes} {base c : ℕ} (h : c < blkno ∨ blkno + n ≤ c) :
    (s.setBlks blkno n buf base).dev.blk c = s.dev.blk c :=
  if_neg fun hc ↦ by omega

theorem SfsFs.setBlks_zero (buf : Bytes) (base : ℕ) : s.setBlks blkno 0 buf base = s := by
  have hblk : (s.setBlks blkno 0 buf base).dev.blk = s.dev.blk := by
    funext c
    exact setBlks_blk_of_notMem (by omega)
  rw [setBlks] at hblk ⊢
  dsimp only at hblk
  rw [hblk]

theorem SfsFs.setBlks_succ (buf : Bytes) (base : ℕ) :
    (s.setBlk blkno (memcpy (s.dev.blk blkno) 0 buf base 4096)).setBlks (blkno + 1) n buf
      (base + 4096) = s.setBlks blkno (n + 1) buf base := by
  set t := s.setBlk blkno (memcpy (s.dev.blk blkno) 0 buf base 4096) with ht
  have hblk : (t.setBlks (blkno + 1) n buf (base + 4096)).dev.blk
      = (s.setBlks blkno (n + 1) buf base).dev.blk := by
    funext c
    rcases lt_trichotomy c blkno with hc | rfl | hc
    · rw [setBlks_blk_of_notMem (by omega), setBlks_blk_of_notMem (by omega), ht,
        setBlk_blk_of_ne _ _ _ (by omega)]
    · rw [setBlks_blk_of_notMem (by omega), setBlks_blk_of_mem (by omega) (by omega), ht,
        setBlk_blk_self, Nat.sub_self, Nat.mul_zero, Nat.add_zero]
    · by_cases hlt : c < blkno + 1 + n
      · have hoff : base + 4096 + 4096 * (c - (blkno + 1)) = base + 4096 * (c - blkno) := by omega
        rw [setBlks_blk_of_mem (by omega) (by omega), setBlks_blk_of_mem (by omega) (by omega), ht,
          setBlk_blk_of_ne _ _ _ (by omega), hoff]
      · rw [setBlks_blk_of_notMem (by omega), setBlks_blk_of_notMem (by omega), ht,
          setBlk_blk_of_ne _ _ _ (by omega)]
  rw [setBlks, setBlks] at hblk ⊢
  dsimp only at hblk
  rw [hblk, ht]
  rfl

/-- Writing `n` consecutive blocks. -/
theorem sfsRwblock_write_eq (h : s.DevOk) (hb : blkno ≠ 0) (hlt : blkno + n ≤ s.super.blocks)
    (buf : Bytes) (base : ℕ) :
    (sfsRwblock buf base blkno n true).run s = .ok buf (s.setBlks blkno n buf base) := by
  induction n generalizing s blkno base with
  | zero => rw [sfsRwblock, run_pure, SfsFs.setBlks_zero]
  | succ n ih =>
    have hone : (sfsRwblockNolock buf base blkno true true).run s = .ok buf _ :=
      sfsRwblockNolock_write h (Or.inl hb) (by omega) buf base
    rw [sfsRwblock, bind_of_ok hone, sfsBlksize_eq,
      ih (h.setBlk _ _) (Nat.succ_ne_zero _) (by rw [SfsFs.setBlk_super]; omega) (base + 4096),
      SfsFs.setBlks_succ]

theorem sfsInitRead_eq {dev : Device} (blkno : ℕ) (hf : dev.faults = []) (hlt : blkno < dev.dBlocks)
    (buf : Bytes) (base : ℕ) :
    (sfsInitRead blkno buf base).run dev
      = .ok (memcpy buf base (dev.blk blkno) 0 4096) dev := by
  have hmod : blkno * sfsBlksize % 2 ^ 32 = blkno * 4096 := by
    have := dev.dBlocks_lt
    rw [sfsBlksize_eq]
    exact Nat.mod_eq_of_lt (by omega)
  rw [sfsInitRead, hmod, dopIo_read_eq hf hlt]

/-- Reading `n` consecutive blocks fills the buffer with them and touches nothing else. -/
theorem sfsInitFreemap_eq {dev : Device} (blkno n : ℕ) (hf : dev.faults = [])
    (hlt : blkno + n ≤ dev.dBlocks) (data : Bytes) (base : ℕ) :
    ∃ data', (sfsInitFreemap data base blkno n).run dev = .ok data' dev ∧
      (∀ i < base, data' i = data i) ∧
      ∀ i < 4096 * n, data' (base + i) = dev.blk (blkno + i / 4096) (i % 4096) := by
  induction n generalizing blkno data base with
  | zero => exact ⟨data, rfl, fun _ _ ↦ rfl, fun i hi ↦ by omega⟩
  | succ n ih =>
    obtain ⟨data', hrun, hkeep, hread⟩ :=
      ih (blkno + 1) (by omega) (memcpy data base (dev.blk blkno) 0 4096) (base + 4096)
    refine ⟨data', ?_, fun i hi ↦ ?_, fun i hi ↦ ?_⟩
    · rw [sfsInitFreemap, bind_of_ok (sfsInitRead_eq blkno hf (by omega) data base), sfsBlksize_eq,
        hrun]
    · rw [hkeep i (by omega), memcpy_of_notMem (by omega)]
    · by_cases hfirst : i < 4096
      · have hdiv : i / 4096 = 0 := by omega
        have hmod : i % 4096 = i := by omega
        rw [hkeep _ (by omega), memcpy_of_mem (by omega) (by omega), hdiv, hmod, Nat.add_zero,
          Nat.zero_add, Nat.add_sub_cancel_left]
      · have hoff : base + i = base + 4096 + (i - 4096) := by omega
        have hblk : blkno + 1 + (i - 4096) / 4096 = blkno + i / 4096 := by omega
        have hmod : (i - 4096) % 4096 = i % 4096 := by omega
        rw [hoff, hread _ (by omega), hblk, hmod]

end Blocks

/-! ## The freemap in memory and on the device -/

section Freemap

variable {b : Bitmap} {data : Bytes} {n : ℕ}

/-- Words read back from where a freemap was written are its words. -/
theorem setData_map (hdata : ∀ i < 4 * n, data i = bitmapGetdata b i) {ix : ℕ} (hix : ix < n)
    (c : Bitmap) : (c.setData data).map ix = b.map ix := by
  have hword : read32 data (4 * ix) = (b.map ix).toNat := by
    refine read32_of_le (b.map ix).isLt fun i hi ↦ ?_
    have hdiv : (4 * ix + i) / 4 = ix := by omega
    have hmod : (4 * ix + i) % 4 = i := by omega
    rw [hdata _ (by omega), bitmapGetdata, hdiv, hmod]
  change BitVec.ofNat 32 (read32 data (4 * ix)) = b.map ix
  rw [hword, BitVec.ofNat_toNat, BitVec.setWidth_eq]

/-- The freemap that is read back marks the same blocks free. -/
theorem isFree_setData (hdata : ∀ i < 4 * n, data i = bitmapGetdata b i)
    (hbits : b.nbits = 32 * n) {c : Bitmap} (hc : c.nbits = b.nbits) (i : ℕ) :
    (c.setData data).isFree i = b.isFree i := by
  rw [Bitmap.isFree, Bitmap.isFree]
  change (decide (i < c.nbits) && _) = _
  rw [hc]
  by_cases hi : i < b.nbits
  · rw [Bitmap.bit, Bitmap.bit, setData_map hdata (by omega)]
  · rw [decide_eq_false hi, Bool.false_and, Bool.false_and]

theorem freeCount_congr {c : Bitmap} (hbits : c.nbits = b.nbits)
    (h : ∀ i, c.isFree i = b.isFree i) : c.freeCount = b.freeCount := by
  rw [Bitmap.freeCount, Bitmap.freeCount, hbits]
  simp only [h]

end Freemap

/-! ## Mounting what was written -/

/-- The superblock and the freemap of the device are these. -/
structure Device.Holds (dev : Device) (super : SfsSuper) (b : Bitmap) : Prop where
  superblock : ∀ i < 44, dev.blk sfsBlknSuper i = super.bytes i
  freemap : ∀ i < 4096 * sfsFreemapBlocks super,
    dev.blk (sfsBlknFreemap + i / 4096) (i % 4096) = bitmapGetdata b i

namespace SfsFs

/-- The superblock is one `sfs_do_mount` accepts, and the freemap has the size it gives it. -/
structure Mountable (s : SfsFs) : Prop where
  magic : s.super.magic = sfsMagic
  info : s.super.info 31 = 0
  nbits : s.freemap.nbits = sfsFreemapBits s.super
  freemap_le : sfsBlknFreemap + sfsFreemapBlocks s.super ≤ s.super.blocks

/-- Mounting the device of `s` again gave `m`: the same superblock, the same free blocks, and no
inode in memory yet. -/
structure Remounted (s m : SfsFs) : Prop where
  ok : m.Ok
  dev : m.dev = s.dev
  super : m.super = s.super
  nbits : m.freemap.nbits = s.freemap.nbits
  isFree : ∀ i, m.freemap.isFree i = s.freemap.isFree i
  superDirty : m.superDirty = false
  inodes : ∀ k, m.inodes k = none
  inodeList : m.inodeList = []

variable {s m : SfsFs}

theorem Ok.super_inRange (h : s.Ok) (hm : s.Mountable) : s.super.InRange where
  magic := by
    rw [hm.magic]
    decide
  blocks := by
    have := h.blocks_le
    have := s.dev.dBlocks_lt
    omega
  unusedBlocks := by
    have hcard := Finset.card_filter_le (Finset.range s.freemap.nbits)
      fun i ↦ s.freemap.isFree i = true
    have hbits := hm.nbits
    have := h.blocks_le
    have := s.dev.dBlocks_lt
    rw [Finset.card_range] at hcard
    rw [sfsFreemapBits, sfsBlkbits_eq] at hbits
    rw [h.unused, Bitmap.freeCount]
    omega

theorem Mountable.terminate (hm : s.Mountable) : s.super.terminate = s.super := by
  rw [SfsSuper.terminate, ← hm.info, Function.update_eq_self]

/-- A device that holds the superblock and the freemap of `s` mounts; the last byte of `info` may be
anything. -/
theorem sfsDoMount_eq (h : s.Ok) (hm : s.Mountable) {super : SfsSuper}
    (hterm : super.terminate = s.super) (hd : s.dev.Holds super s.freemap) :
    ∃ m, sfsDoMount.run s.dev = .ok m s.dev ∧ s.Remounted m := by
  have hmagic : super.magic = s.super.magic := (congrArg SfsSuper.magic hterm :)
  have hblocks : super.blocks = s.super.blocks := (congrArg SfsSuper.blocks hterm :)
  have hunused : super.unusedBlocks = s.super.unusedBlocks :=
    (congrArg SfsSuper.unusedBlocks hterm :)
  have hrange := h.super_inRange hm
  have hle := h.blocks_le
  have hfits := hm.freemap_le
  have hfm : sfsBlknFreemap = 2 := rfl
  have hread := sfsInitRead_eq sfsBlknSuper h.faults (by rw [sfsBlknSuper]; omega) zero 0
  set buf := memcpy zero 0 (s.dev.blk sfsBlknSuper) 0 4096 with hbuf
  -- the superblock reads back as it was written
  have hsuper : SfsSuper.ofBytes buf = super := by
    refine (SfsSuper.ofBytes_congr fun i hi ↦ ?_).trans (SfsSuper.ofBytes_bytes
      ⟨hmagic ▸ hrange.magic, hblocks ▸ hrange.blocks, hunused ▸ hrange.unusedBlocks⟩)
    rw [hbuf, memcpy_of_mem (by omega) (by omega), Nat.zero_add, Nat.sub_zero, hd.superblock i hi]
  set bits := sfsFreemapBits s.super with hbits
  have hblks : bits = 32768 * sfsFreemapBlocks s.super := by
    rw [hbits, sfsFreemapBits, sfsFreemapBlocks, sfsBlkbits_eq]
    omega
  have hpos : 0 < sfsFreemapBlocks s.super := by
    rw [sfsFreemapBlocks, sfsBlkbits_eq]
    omega
  have hwords : 4 * (bitmapCreate bits).nwords = sfsFreemapBlocks s.super * sfsBlksize := by
    change 4 * ((bits + 31) / 32) = _
    rw [sfsBlksize_eq]
    omega
  obtain ⟨data, hrun, -, hdata⟩ := sfsInitFreemap_eq sfsBlknFreemap
    (sfsFreemapBlocks s.super) h.faults (by omega) (bitmapGetdata (bitmapCreate bits)) 0
  -- and so does the freemap, block by block
  have hsame : ∀ i < 4 * (1024 * sfsFreemapBlocks s.super), data i = bitmapGetdata s.freemap i :=
    fun i hi ↦ by
      have := hdata i (by omega)
      rw [Nat.zero_add] at this
      rw [this, hd.freemap i (by rw [sfsFreemapBlocks, hblocks, ← sfsFreemapBlocks]; omega)]
  set b := (bitmapCreate bits).setData data with hb
  have hcreated : (bitmapCreate bits).nbits = s.freemap.nbits := hm.nbits.symm
  have hfree : ∀ i, b.isFree i = s.freemap.isFree i :=
    isFree_setData hsame (by rw [hm.nbits, ← hbits, hblks]; omega) hcreated
  have hcount : b.freeCount = s.super.unusedBlocks := by
    rw [h.unused]
    exact freeCount_congr hcreated hfree
  have hwf : b.Wf := by
    refine ⟨rfl, fun i h₁ h₂ ↦ ?_⟩
    change bits ≤ i at h₁
    change i < 32 * ((bits + 31) / 32) at h₂
    omega
  have hok : (⟨s.super, s.dev, b, false, fun _ ↦ none, []⟩ : SfsFs).Ok :=
    ⟨⟨h.faults, h.blocks_le⟩, hwf, h.blocks_le_nbits.trans hcreated.ge, hcount.symm⟩
  refine ⟨⟨s.super, s.dev, b, false, fun _ ↦ none, []⟩, ?_,
    ⟨hok, rfl, rfl, hcreated, hfree, rfl, fun _ ↦ rfl, rfl⟩⟩
  rw [sfsDoMount, bind_of_ok hread, get_bind_run, hsuper,
    if_neg (by rw [hmagic, hm.magic, hblocks]; omega), hterm,
    sfsMountFreemap, ← hbits, assert_bind_run (by omega), assert_bind_run hwords, bind_of_ok hrun,
    ← hb, assert_bind_run hcount, get_bind_run, run_pure]

end SfsFs

end Ucore
