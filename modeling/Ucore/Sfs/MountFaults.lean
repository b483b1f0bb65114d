import Ucore.Sfs.BitmapRuns
import Ucore.Sfs.Mount

/-!
# Mounting an image that nobody has checked

`sfs_do_mount` on a device with any content, when memory may run out at any point. The superblock
is checked for its magic number and its size, and every failure of an allocation or of a transfer
takes the way through the clean-up labels. What the freemap says is only asserted: the assertion of
`bitmap_create` meets a size of zero, which is also what a size close to `2 ^ 32` is rounded to, the
last assertion meets a count that is off, and nothing looks at the bits behind the last block
(`mountSafe_exact_iff`).

`Mount` has the same routine over the device that the file system runs on, where memory is there
and only transfers fail, and `BitmapRuns` has `bitmap_create` word by word. The last section joins
them: with memory granted and without faults the two mounts end alike (`sfsDoMount_like`), and the
bitmap they start from has the words that the loops of `bitmap_create` leave (`bitmapCreate_like`).
-/

namespace Ucore

open Bytes Prog

/-! ## The code -/

/-- A block device with its content. -/
structure BlockDevice where
  dBlocks : ℕ
  dBlocksize : ℕ
  blk : ℕ → Bytes

/-- What `sfs_do_mount` allocates. -/
inductive Chunk
  | fs | sfsBuffer | hashList | bitmap | map
  deriving DecidableEq

/-- How often memory was asked for, and what is allocated. -/
structure MountHeap where
  asked : ℕ
  live : List Chunk

/-- The heap after `c` was allocated. -/
def MountHeap.push (h : MountHeap) (c : Chunk) : MountHeap := ⟨h.asked + 1, c :: h.live⟩

section Code

variable (give : ℕ → Bool) (dev : BlockDevice)

/-- `kmalloc`, and whether it succeeds. -/
def kmallocChunk (c : Chunk) : Prog Errno MountHeap Bool :=
  ⟨fun h ↦ if give h.asked then .ok true (h.push c) else .ok false ⟨h.asked + 1, h.live⟩⟩

/-- `kfree` -/
def kfreeChunk (c : Chunk) : Prog Errno MountHeap Unit :=
  modify fun h ↦ { h with live := h.live.erase c }

/-- Allocate `c` and go on; when it fails, or what follows fails, `c` is not allocated afterwards.
The labels of `sfs_do_mount` run through the same clean-ups, the last one first. -/
def withChunk {α : Type} (c : Chunk) (m : Prog Errno MountHeap α) : Prog Errno MountHeap α := do
  let ok ← kmallocChunk give c
  if ok then m.onError (kfreeChunk c) else fail .noMem

/-- `sfs_init_read` with the checks of the device. -/
def sfsInitReadDev (blkno : ℕ) (buf : Bytes) (base : ℕ) : Prog Errno MountHeap Bytes :=
  let offset := blkno * sfsBlksize % 2 ^ 32
  if offset % 4096 ≠ 0 ∨ dev.dBlocks < offset / 4096 + 1 then fail .inval
  else pure (memcpy buf base (dev.blk (offset / 4096)) 0 4096)

/-- The loop of `sfs_init_freemap`. -/
def sfsInitFreemapLoop (data : Bytes) (base blkno : ℕ) : ℕ → Prog Errno MountHeap Bytes
  | 0 => return data
  | nblks + 1 => do
    let data ← sfsInitReadDev dev blkno data base
    sfsInitFreemapLoop data (base + sfsBlksize) (blkno + 1) nblks

/-- `sfs_init_freemap` -/
def sfsInitFreemapDev (freemap : Bitmap) (blkno nblks : ℕ) : Prog Errno MountHeap Bytes := do
  assert (4 * freemap.nwords = nblks * sfsBlksize % 2 ^ 32)
  sfsInitFreemapLoop dev (bitmapGetdata freemap) 0 blkno nblks

/-- `bitmap_create`; the sum in its assertion is one of `size_t`. -/
def bitmapCreateGive (nbits : ℕ) : Prog Errno MountHeap (Option Bitmap) := do
  assert (nbits ≠ 0 ∧ nbits < nbits + wordBits)
  let ok ← kmallocChunk give .bitmap
  if ok then do
    let ok ← kmallocChunk give .map
    if ok then return some (bitmapCreate nbits)
    else do
      kfreeChunk .bitmap
      return none
  else return none

def bitmapDestroy : Prog Errno MountHeap Unit := do
  kfreeChunk .map
  kfreeChunk .bitmap

/-- `freemap_size_nbits`, a `uint32_t`. -/
def freemapSizeNbits (super : SfsSuper) : ℕ := sfsFreemapBits super % 2 ^ 32

/-- The part of `sfs_do_mount` from `bitmap_create` on. -/
def mountFreemap (super : SfsSuper) : Prog Errno MountHeap (SfsSuper × Bitmap) := do
  let freemap ← bitmapCreateGive give (freemapSizeNbits super)
  match freemap with
  | none => fail .noMem
  | some freemap => do
    let data ← (sfsInitFreemapDev dev freemap sfsBlknFreemap (sfsFreemapBlocks super)).onError
      bitmapDestroy
    assert ((freemap.setData data).freeCount = super.unusedBlocks)
    return (super, freemap.setData data)

/-- The part of `sfs_do_mount` that needs `sfs_buffer`. -/
def mountSuper : Prog Errno MountHeap (SfsSuper × Bitmap) := do
  let sfsBuffer ← sfsInitReadDev dev sfsBlknSuper zero 0
  if (SfsSuper.ofBytes sfsBuffer).magic ≠ sfsMagic ∨
      dev.dBlocks < (SfsSuper.ofBytes sfsBuffer).blocks then
    fail .inval
  else
    withChunk give .hashList (mountFreemap give dev (SfsSuper.ofBytes sfsBuffer).terminate)

/-- `sfs_do_mount`: the superblock and the freemap of the new file system. -/
def sfsDoMountDev : Prog Errno MountHeap (SfsSuper × Bitmap) :=
  if dev.dBlocksize ≠ sfsBlksize then fail .naDev
  else withChunk give .fs (withChunk give .sfsBuffer (mountSuper give dev))

end Code

/-! ## What it should do -/

/-- A freemap that goes with its superblock. -/
def FreemapFits (r : SfsSuper × Bitmap) : Prop :=
  r.2.freeCount = r.1.unusedBlocks ∧ ∀ i, r.2.isFree i = true → i < r.1.blocks

/-- A routine either returns a superblock with a freemap that goes with it, or an error with nothing
left allocated that was not allocated before; it does not halt. -/
def MountSafe (m : Prog Errno MountHeap (SfsSuper × Bitmap)) (h : MountHeap) : Prop :=
  (m.run h).Ends (fun r _ ↦ FreemapFits r) (fun _ h' ↦ h'.live = h.live) False

/-- The superblock on a device. -/
def BlockDevice.super (dev : BlockDevice) : SfsSuper := SfsSuper.ofBytes (dev.blk 0)

/-- Bit `i` of the freemap on a device. -/
def BlockDevice.freemapBit (dev : BlockDevice) (i : ℕ) : Bool :=
  (dev.blk (2 + i / 32768) (i % 32768 / 8)).toNat.testBit (i % 8)

/-- The freemap on the device marks as many blocks free as the superblock says, and none behind the
last block. -/
def BlockDevice.Marks (dev : BlockDevice) (super : SfsSuper) : Prop :=
  ((Finset.range (sfsFreemapBits super)).filter fun i ↦ dev.freemapBit i = true).card =
      super.unusedBlocks ∧
    ∀ i < sfsFreemapBits super, dev.freemapBit i = true → i < super.blocks

/-- The superblock is refused. -/
def BlockDevice.Refused (dev : BlockDevice) : Prop :=
  dev.super.magic ≠ sfsMagic ∨ dev.dBlocks < dev.super.blocks

/-- The file system has a size that can be rounded up to whole freemap blocks. -/
def BlockDevice.SizeOk (dev : BlockDevice) : Prop :=
  0 < dev.super.blocks ∧ dev.super.blocks ≤ 2 ^ 32 - 32768

/-! ## Reading the freemap -/

section Freemap

variable {dev : BlockDevice} {h : MountHeap} {data : Bytes} {b : Bitmap}

theorem sfsInitReadDev_run {blkno : ℕ} (hb : blkno < 2 ^ 20) (buf : Bytes) (base : ℕ) :
    (sfsInitReadDev dev blkno buf base).run h =
      if dev.dBlocks ≤ blkno then .error .inval h
      else .ok (memcpy buf base (dev.blk blkno) 0 4096) h := by
  have hoff : blkno * sfsBlksize % 2 ^ 32 = blkno * 4096 := by
    rw [sfsBlksize_eq]
    exact Nat.mod_eq_of_lt (by omega)
  have hdiv : blkno * 4096 / 4096 = blkno := Nat.mul_div_cancel _ (by decide)
  have hmod : blkno * 4096 % 4096 = 0 := Nat.mul_mod_left _ _
  rw [sfsInitReadDev, hoff, hdiv, hmod]
  by_cases hin : dev.dBlocks ≤ blkno
  · rw [if_pos hin, if_pos (Or.inr (Nat.lt_succ_of_le hin)), run_fail]
  · rw [if_neg hin, if_neg (by omega), run_pure]

/-- The blocks are read one after the other, or the device ends before the last one. -/
theorem sfsInitFreemapLoop_run {blkno n : ℕ} (hb : blkno + n ≤ 2 ^ 20) (data : Bytes) (base : ℕ) :
    (dev.dBlocks < blkno + n ∧ 0 < n ∧
        (sfsInitFreemapLoop dev data base blkno n).run h = .error .inval h) ∨
      ((n = 0 ∨ blkno + n ≤ dev.dBlocks) ∧
        ∃ data', (sfsInitFreemapLoop dev data base blkno n).run h = .ok data' h ∧
          (∀ i < base, data' i = data i) ∧
          ∀ i < 4096 * n, data' (base + i) = dev.blk (blkno + i / 4096) (i % 4096)) := by
  induction n generalizing blkno data base with
  | zero => exact .inr ⟨.inl rfl, data, rfl, fun _ _ ↦ rfl, fun i hi ↦ by omega⟩
  | succ n ih =>
    rw [sfsInitFreemapLoop]
    have hread := @sfsInitReadDev_run dev h blkno (by omega) data base
    by_cases hin : dev.dBlocks ≤ blkno
    · rw [if_pos hin] at hread
      exact .inl ⟨by omega, Nat.succ_pos n, bind_of_error hread _⟩
    · rw [if_neg hin] at hread
      rw [bind_of_ok hread, sfsBlksize_eq]
      rcases @ih (blkno + 1) (by omega) (memcpy data base (dev.blk blkno) 0 4096)
          (base + 4096) with ⟨hout, -, hrun⟩ | ⟨hfit, data', hrun, hkeep, hrest⟩
      · exact .inl ⟨by omega, Nat.succ_pos n, hrun⟩
      · refine .inr ⟨.inr (by omega), data', hrun, fun i hi ↦ ?_, fun i hi ↦ ?_⟩
        · rw [hkeep i (by omega), memcpy_of_notMem (by omega)]
        · by_cases hfirst : i < 4096
          · have hdiv : i / 4096 = 0 := by omega
            have hmod : i % 4096 = i := by omega
            rw [hkeep _ (by omega), memcpy_of_mem (by omega) (by omega), hdiv, hmod, Nat.add_zero,
              Nat.zero_add, Nat.add_sub_cancel_left]
          · have hoff : base + i = base + 4096 + (i - 4096) := by omega
            have hblk : blkno + 1 + (i - 4096) / 4096 = blkno + i / 4096 := by omega
            have hmod : (i - 4096) % 4096 = i % 4096 := by omega
            rw [hoff, hrest _ (by omega), hblk, hmod]

/-- A bit of a word in memory is a bit of one of its bytes. -/
theorem testBit_read32 (data : Bytes) (o : ℕ) {k : ℕ} (hk : k < 32) :
    (read32 data o).testBit k = (data (o + k / 8)).toNat.testBit (k % 8) := by
  rw [← leByte_read32 data o (show k / 8 < 4 by omega), leByte_toNat]
  have hpow : 256 ^ (k / 8) = 2 ^ (8 * (k / 8)) := by rw [pow_mul]; rfl
  have hbyte : (256 : ℕ) = 2 ^ 8 := rfl
  have hbit : k % 8 + 8 * (k / 8) = k := Nat.mod_add_div k 8
  rw [hpow, hbyte, Nat.testBit_mod_two_pow, Nat.testBit_div_two_pow, hbit,
    decide_eq_true (Nat.mod_lt k (by decide)), Bool.true_and]

/-- The bits of the freemap that was read are those on the device. -/
theorem isFree_freemap {n : ℕ}
    (hdata : ∀ i < 4096 * n, data i = dev.blk (2 + i / 4096) (i % 4096)) (i : ℕ) :
    ((bitmapCreate (n * 32768)).setData data).isFree i = true ↔
      i < n * 32768 ∧ dev.freemapBit i = true := by
  rw [Bitmap.isFree_iff]
  refine and_congr_right fun hi ↦ ?_
  have hi : i < n * 32768 := hi
  have hbyte : 4 * (i / 32) + i % 32 / 8 = i / 8 := by omega
  have hbit : i % 32 % 8 = i % 8 := by omega
  have hblk : i / 8 / 4096 = i / 32768 := by omega
  have hoff : i / 8 % 4096 = i % 32768 / 8 := by omega
  have hmap : ((bitmapCreate (n * 32768)).setData data).bit i =
      (BitVec.ofNat 32 (read32 data (4 * (i / 32)))).getLsbD (i % 32) := rfl
  rw [hmap, BitVec.getLsbD_ofNat, decide_eq_true (Nat.mod_lt i (by decide)), Bool.true_and,
    testBit_read32 data _ (Nat.mod_lt i (by decide)), hbyte, hbit, hdata _ (by omega), hblk, hoff,
    BlockDevice.freemapBit]

theorem freeCount_freemap {n : ℕ}
    (hdata : ∀ i < 4096 * n, data i = dev.blk (2 + i / 4096) (i % 4096)) :
    ((bitmapCreate (n * 32768)).setData data).freeCount =
      ((Finset.range (n * 32768)).filter fun i ↦ dev.freemapBit i = true).card := by
  rw [Bitmap.freeCount]
  congr 1
  ext i
  rw [Finset.mem_filter, Finset.mem_filter, isFree_freemap hdata]
  have hbits : ((bitmapCreate (n * 32768)).setData data).nbits = n * 32768 := rfl
  rw [hbits, Finset.mem_range]
  exact ⟨fun hi ↦ ⟨hi.1, hi.2.2⟩, fun hi ↦ ⟨hi.1, hi.1, hi.2⟩⟩

end Freemap

/-! ## The clean-up chain -/

section Chain

variable {give : ℕ → Bool} {dev : BlockDevice} {h : MountHeap}

@[simp] theorem push_asked (h : MountHeap) (c : Chunk) : (h.push c).asked = h.asked + 1 := rfl

@[simp] theorem push_live (h : MountHeap) (c : Chunk) : (h.push c).live = c :: h.live := rfl

theorem kmallocChunk_run (c : Chunk) (h : MountHeap) : (kmallocChunk give c).run h =
    if give h.asked then .ok true (h.push c) else .ok false ⟨h.asked + 1, h.live⟩ := rfl

theorem kmallocChunk_of_not_give {c : Chunk} (hgive : give h.asked = false) :
    (kmallocChunk give c).run h = .ok false ⟨h.asked + 1, h.live⟩ := by
  rw [kmallocChunk_run, hgive, if_neg Bool.false_ne_true]

theorem kmallocChunk_of_give {c : Chunk} (hgive : give h.asked = true) :
    (kmallocChunk give c).run h = .ok true (h.push c) := by
  rw [kmallocChunk_run, hgive, if_pos rfl]

/-- An error leaves allocated what was allocated before. -/
def Clean (m : Prog Errno MountHeap (SfsSuper × Bitmap)) (h : MountHeap) : Prop :=
  (m.run h).Sat (fun _ _ ↦ True) fun _ h' ↦ h'.live = h.live

/-- The routine does not halt, and what it returns fits. -/
def Sound (m : Prog Errno MountHeap (SfsSuper × Bitmap)) (h : MountHeap) : Prop :=
  (m.run h).Ends (fun r _ ↦ FreemapFits r) (fun _ _ ↦ True) False

theorem Clean.mountSafe_iff_sound {m : Prog Errno MountHeap (SfsSuper × Bitmap)} (hc : Clean m h) :
    MountSafe m h ↔ Sound m h := by
  rw [Clean] at hc
  rw [MountSafe, Sound]
  cases hm : m.run h with
  | ok r h' => exact Iff.rfl
  | panic => exact Iff.rfl
  | error e h' =>
    rw [hm] at hc
    exact ⟨fun _ ↦ trivial, fun _ ↦ hc⟩

theorem kfreeChunk_fail_run {α : Type} (c : Chunk) (e : Errno) (h : MountHeap) :
    (kfreeChunk c >>= fun _ ↦ (fail e : Prog Errno MountHeap α)).run h =
      .error e { h with live := h.live.erase c } := rfl

theorem Clean.withChunk {m : Prog Errno MountHeap (SfsSuper × Bitmap)} {c : Chunk}
    (hm : Clean m (h.push c)) : Clean (withChunk give c m) h := by
  rw [Clean, Ucore.withChunk]
  cases hgive : give h.asked with
  | false =>
    rw [bind_of_ok (kmallocChunk_of_not_give hgive), if_neg Bool.false_ne_true, run_fail]
    rfl
  | true =>
    rw [bind_of_ok (kmallocChunk_of_give hgive), if_pos rfl, run_onError]
    rw [Clean] at hm
    cases hrun : m.run (h.push c) with
    | ok r h' => trivial
    | panic => trivial
    | error e h' =>
      rw [hrun, Outcome.sat_error, push_live] at hm
      dsimp only
      rw [kfreeChunk_fail_run, Outcome.sat_error]
      dsimp only
      rw [hm, List.erase_cons_head]

theorem sound_withChunk {m : Prog Errno MountHeap (SfsSuper × Bitmap)} {c : Chunk} :
    Sound (withChunk give c m) h ↔ give h.asked = false ∨ Sound m (h.push c) := by
  rw [Sound, withChunk]
  cases hgive : give h.asked with
  | false =>
    rw [bind_of_ok (kmallocChunk_of_not_give hgive), if_neg Bool.false_ne_true, run_fail]
    exact ⟨fun _ ↦ .inl rfl, fun _ ↦ trivial⟩
  | true =>
    rw [bind_of_ok (kmallocChunk_of_give hgive), if_pos rfl, run_onError, Sound]
    cases hrun : m.run (h.push c) with
    | ok r h' => simp [Outcome.Ends]
    | panic => simp [Outcome.Ends]
    | error e h' =>
      dsimp only
      rw [kfreeChunk_fail_run]
      simp [Outcome.Ends]

/-! ### From `bitmap_create` on -/

variable {super : SfsSuper}

theorem freemapSizeNbits_eq (hsize : super.blocks ≤ 2 ^ 32 - 32768) :
    freemapSizeNbits super = sfsFreemapBlocks super * 32768 := by
  rw [freemapSizeNbits, sfsFreemapBits, sfsFreemapBlocks, sfsBlkbits_eq]
  exact Nat.mod_eq_of_lt (by omega)

theorem freemapSizeNbits_eq_zero (hlt : super.blocks < 2 ^ 32)
    (hsize : ¬(0 < super.blocks ∧ super.blocks ≤ 2 ^ 32 - 32768)) : freemapSizeNbits super = 0 := by
  rw [freemapSizeNbits, sfsFreemapBits, sfsBlkbits_eq]
  rcases Nat.eq_zero_or_pos super.blocks with hzero | hpos
  · rw [hzero]
    rfl
  · have hdiv : (super.blocks + (32768 - 1)) / 32768 = 131072 := by omega
    rw [hdiv]
    rfl

theorem bitmapCreateGive_run {nbits : ℕ} (hn : nbits ≠ 0) : (bitmapCreateGive give nbits).run h =
    if give h.asked = false then .ok none ⟨h.asked + 1, h.live⟩
    else if give (h.asked + 1) = false then .ok none ⟨h.asked + 2, h.live⟩
    else .ok (some (bitmapCreate nbits)) ((h.push .bitmap).push .map) := by
  have hassert : nbits ≠ 0 ∧ nbits < nbits + wordBits := ⟨hn, Nat.lt_add_of_pos_right (by decide)⟩
  rw [bitmapCreateGive, assert_bind_run hassert]
  cases hgive : give h.asked with
  | false =>
    rw [bind_of_ok (kmallocChunk_of_not_give hgive), if_neg Bool.false_ne_true, if_pos rfl,
      run_pure]
  | true =>
    rw [bind_of_ok (kmallocChunk_of_give hgive), if_pos rfl, if_neg Bool.true_eq_false_eq_False]
    cases hgive' : give (h.asked + 1) with
    | false =>
      have hrun : (kmallocChunk give .map).run (h.push .bitmap) =
          .ok false ⟨h.asked + 2, .bitmap :: h.live⟩ := kmallocChunk_of_not_give hgive'
      rw [bind_of_ok hrun, if_neg Bool.false_ne_true, if_pos rfl, kfreeChunk, modify_bind_run,
        run_pure, List.erase_cons_head]
    | true =>
      have hrun : (kmallocChunk give .map).run (h.push .bitmap) =
          .ok true ((h.push .bitmap).push .map) := kmallocChunk_of_give hgive'
      rw [bind_of_ok hrun, if_pos rfl, if_neg Bool.true_eq_false_eq_False, run_pure]

/-- What happens once the bitmap is there. -/
theorem mountFreemap_read (hsize : 0 < super.blocks ∧ super.blocks ≤ 2 ^ 32 - 32768)
    (hgive : give h.asked = true) (hgive' : give (h.asked + 1) = true) :
    (dev.dBlocks < 2 + sfsFreemapBlocks super ∧ ∃ h', h'.live = h.live ∧
        (mountFreemap give dev super).run h = .error .inval h') ∨
      (2 + sfsFreemapBlocks super ≤ dev.dBlocks ∧ ∃ data,
        (∀ i < 4096 * sfsFreemapBlocks super, data i = dev.blk (2 + i / 4096) (i % 4096)) ∧
        (mountFreemap give dev super).run h =
          if ((bitmapCreate (sfsFreemapBlocks super * 32768)).setData data).freeCount =
              super.unusedBlocks then
            .ok (super, (bitmapCreate (sfsFreemapBlocks super * 32768)).setData data)
              ((h.push .bitmap).push .map)
          else .panic) := by
  have hblocks : 0 < sfsFreemapBlocks super ∧ sfsFreemapBlocks super ≤ 131071 := by
    rw [sfsFreemapBlocks, sfsBlkbits_eq]
    omega
  have hcreate : (bitmapCreateGive give (freemapSizeNbits super)).run h =
      .ok (some (bitmapCreate (sfsFreemapBlocks super * 32768))) ((h.push .bitmap).push .map) := by
    rw [freemapSizeNbits_eq hsize.2, bitmapCreateGive_run (by omega), hgive, hgive',
      if_neg Bool.true_eq_false_eq_False, if_neg Bool.true_eq_false_eq_False]
  -- the buffer of the bitmap is as long as its blocks
  have hlen : 4 * (bitmapCreate (sfsFreemapBlocks super * 32768)).nwords =
      sfsFreemapBlocks super * sfsBlksize % 2 ^ 32 := by
    have hwords : (bitmapCreate (sfsFreemapBlocks super * 32768)).nwords =
        (sfsFreemapBlocks super * 32768 + 31) / 32 := rfl
    rw [hwords, sfsBlksize_eq, Nat.mod_eq_of_lt (by omega)]
    omega
  rw [mountFreemap, bind_of_ok hcreate]
  dsimp only
  have hloop := @sfsInitFreemapLoop_run dev ((h.push .bitmap).push .map) 2 (sfsFreemapBlocks super)
    (by omega) (bitmapGetdata (bitmapCreate (sfsFreemapBlocks super * 32768))) 0
  rcases hloop with ⟨hout, -, hrun⟩ | ⟨hfit, data, hrun, -, hdata⟩
  · left
    have hload :
        (sfsInitFreemapDev dev (bitmapCreate (sfsFreemapBlocks super * 32768)) sfsBlknFreemap
        (sfsFreemapBlocks super)).run ((h.push .bitmap).push .map) =
          .error .inval ((h.push .bitmap).push .map) := by
      rw [sfsInitFreemapDev, assert_bind_run hlen]
      exact hrun
    -- the failing path frees the bitmap
    have hclean : ((sfsInitFreemapDev dev (bitmapCreate (sfsFreemapBlocks super * 32768))
        sfsBlknFreemap (sfsFreemapBlocks super)).onError bitmapDestroy).run
          ((h.push .bitmap).push .map) = .error .inval ⟨h.asked + 2, h.live⟩ := by
      rw [onError_of_error hload]
      change Outcome.error Errno.inval (⟨h.asked + 2,
        ((Chunk.map :: Chunk.bitmap :: h.live).erase .map).erase .bitmap⟩ : MountHeap) = _
      rw [List.erase_cons_head, List.erase_cons_head]
    exact ⟨hout, ⟨h.asked + 2, h.live⟩, rfl, bind_of_error hclean _⟩
  · right
    refine ⟨by omega, data, fun i hi ↦ ?_, ?_⟩
    · rw [← hdata i hi, Nat.zero_add]
    have hload :
        (sfsInitFreemapDev dev (bitmapCreate (sfsFreemapBlocks super * 32768)) sfsBlknFreemap
        (sfsFreemapBlocks super)).run ((h.push .bitmap).push .map) =
          .ok data ((h.push .bitmap).push .map) := by
      rw [sfsInitFreemapDev, assert_bind_run hlen]
      exact hrun
    rw [bind_of_ok (onError_of_ok hload _)]
    by_cases hcount : ((bitmapCreate (sfsFreemapBlocks super * 32768)).setData data).freeCount =
        super.unusedBlocks
    · rw [assert_bind_run hcount, if_pos hcount, run_pure]
    · rw [assert_bind_run_neg hcount, if_neg hcount]

theorem mountFreemap_clean_sound (hlt : super.blocks < 2 ^ 32) :
    Clean (mountFreemap give dev super) h ∧
      (Sound (mountFreemap give dev super) h ↔
        (0 < super.blocks ∧ super.blocks ≤ 2 ^ 32 - 32768) ∧
          (give h.asked = false ∨ give (h.asked + 1) = false ∨
            dev.dBlocks < 2 + sfsFreemapBlocks super ∨ dev.Marks super)) := by
  by_cases hsize : 0 < super.blocks ∧ super.blocks ≤ 2 ^ 32 - 32768
  swap
  · -- the size is rounded to zero
    have hrun : (mountFreemap give dev super).run h = .panic := by
      rw [mountFreemap, bitmapCreateGive]
      apply bind_of_panic
      apply assert_bind_run_neg
      rw [freemapSizeNbits_eq_zero hlt hsize]
      exact fun hc ↦ hc.1 rfl
    rw [Clean, Sound, hrun]
    exact ⟨trivial, fun hc ↦ hc.elim, fun hc ↦ absurd hc.1 hsize⟩
  have hnonzero : freemapSizeNbits super ≠ 0 := by
    rw [freemapSizeNbits_eq hsize.2, sfsFreemapBlocks, sfsBlkbits_eq]
    omega
  -- the two allocations, then the blocks of the freemap, then the count of the free ones
  cases hgive : give h.asked with
  | false =>
    have hrun : (mountFreemap give dev super).run h = .error .noMem ⟨h.asked + 1, h.live⟩ := by
      have hcreate := @bitmapCreateGive_run give h _ hnonzero
      rw [if_pos hgive] at hcreate
      rw [mountFreemap, bind_of_ok hcreate, run_fail]
    rw [Clean, Sound, hrun]
    exact ⟨rfl, fun _ ↦ ⟨hsize, .inl rfl⟩, fun _ ↦ trivial⟩
  | true =>
    cases hgive' : give (h.asked + 1) with
    | false =>
      have hrun : (mountFreemap give dev super).run h = .error .noMem ⟨h.asked + 2, h.live⟩ := by
        have hcreate := @bitmapCreateGive_run give h _ hnonzero
        rw [if_neg (hgive ▸ Bool.true_eq_false_eq_False), if_pos hgive'] at hcreate
        rw [mountFreemap, bind_of_ok hcreate, run_fail]
      rw [Clean, Sound, hrun]
      exact ⟨rfl, fun _ ↦ ⟨hsize, .inr (.inl rfl)⟩, fun _ ↦ trivial⟩
    | true =>
      rcases @mountFreemap_read give dev h super hsize hgive hgive' with
        ⟨hout, h', hlive, hrun⟩ | ⟨hin, data, hdata, hrun⟩
      · rw [Clean, Sound, hrun]
        exact ⟨hlive, fun _ ↦ ⟨hsize, .inr (.inr (.inl hout))⟩, fun _ ↦ trivial⟩
      · have hbits : sfsFreemapBits super = sfsFreemapBlocks super * 32768 := rfl
        rw [freeCount_freemap hdata] at hrun
        by_cases hcount : ((Finset.range (sfsFreemapBlocks super * 32768)).filter
            fun i ↦ dev.freemapBit i = true).card = super.unusedBlocks
        · rw [if_pos hcount] at hrun
          rw [Clean, Sound, hrun]
          refine ⟨trivial, fun hfits ↦ ⟨hsize, .inr (.inr (.inr ⟨hcount, fun i hi hbit ↦ ?_⟩))⟩, ?_⟩
          · exact hfits.2 i ((isFree_freemap hdata i).mpr ⟨hi, hbit⟩)
          · rintro ⟨-, hmarks⟩
            have hmarks : dev.Marks super := by
              rcases hmarks with hc | hc | hc | hc
              · exact absurd hc Bool.true_eq_false_eq_False
              · exact absurd hc Bool.true_eq_false_eq_False
              · exact absurd hc hin.not_gt
              · exact hc
            refine ⟨(freeCount_freemap hdata).trans hcount, fun i hi ↦ ?_⟩
            obtain ⟨hlt, hbit⟩ := (isFree_freemap hdata i).mp hi
            exact hmarks.2 i hlt hbit
        · rw [if_neg hcount] at hrun
          rw [Clean, Sound, hrun]
          refine ⟨trivial, fun hc ↦ hc.elim, ?_⟩
          rintro ⟨-, hmarks⟩
          rcases hmarks with hc | hc | hc | hc
          · exact absurd hc Bool.true_eq_false_eq_False
          · exact absurd hc Bool.true_eq_false_eq_False
          · exact absurd hc hin.not_gt
          · exact absurd hc.1 hcount

/-! ### The whole routine -/

theorem mountSuper_run (hin : dev.dBlocks ≠ 0) : (mountSuper give dev).run h =
    if dev.super.magic ≠ sfsMagic ∨ dev.dBlocks < dev.super.blocks then .error .inval h
    else (withChunk give .hashList (mountFreemap give dev dev.super.terminate)).run h := by
  have hread : (sfsInitReadDev dev sfsBlknSuper zero 0).run h =
      .ok (memcpy zero 0 (dev.blk 0) 0 4096) h := by
    have hrun := @sfsInitReadDev_run dev h 0 (by decide) zero 0
    rwa [if_neg (by omega)] at hrun
  have hsuper : SfsSuper.ofBytes (memcpy zero 0 (dev.blk 0) 0 4096) = dev.super := by
    apply SfsSuper.ofBytes_congr
    intro i hi
    rw [memcpy_of_mem (Nat.zero_le i) (by omega), Nat.zero_add, Nat.sub_zero]
  rw [mountSuper, bind_of_ok hread, hsuper]
  split_ifs
  · rfl
  · rfl

theorem mountSuper_clean_sound :
    Clean (mountSuper give dev) h ∧
      (Sound (mountSuper give dev) h ↔
        dev.dBlocks = 0 ∨ dev.Refused ∨ give h.asked = false ∨
          dev.SizeOk ∧ (give (h.asked + 1) = false ∨ give (h.asked + 2) = false ∨
            dev.dBlocks < 2 + sfsFreemapBlocks dev.super ∨ dev.Marks dev.super)) := by
  by_cases hin : dev.dBlocks = 0
  · have hrun : (mountSuper give dev).run h = .error .inval h := by
      have hread := @sfsInitReadDev_run dev h 0 (by decide) zero 0
      rw [if_pos (by omega)] at hread
      exact bind_of_error hread _
    rw [Clean, Sound, hrun]
    exact ⟨rfl, fun _ ↦ .inl hin, fun _ ↦ trivial⟩
  have hrun := @mountSuper_run give dev h hin
  by_cases href : dev.super.magic ≠ sfsMagic ∨ dev.dBlocks < dev.super.blocks
  · rw [if_pos href] at hrun
    rw [Clean, Sound, hrun]
    exact ⟨rfl, fun _ ↦ .inr (.inl href), fun _ ↦ trivial⟩
  · rw [if_neg href] at hrun
    have hlt : dev.super.terminate.blocks < 2 ^ 32 := read32_lt _ _
    obtain ⟨hclean, hsound⟩ :=
      @mountFreemap_clean_sound give dev (h.push .hashList) dev.super.terminate hlt
    have hchunk := @sound_withChunk give h (mountFreemap give dev dev.super.terminate) .hashList
    rw [Clean, Sound, hrun]
    refine ⟨hclean.withChunk, hchunk.trans ?_⟩
    rw [hsound]
    constructor
    · exact fun hc ↦ .inr (.inr hc)
    · exact fun hc ↦ (hc.resolve_left hin).resolve_left href

theorem mountSafe_of_blksize (hsize : dev.dBlocksize = sfsBlksize) :
    MountSafe (sfsDoMountDev give dev) h ↔
      give h.asked = false ∨ give (h.asked + 1) = false ∨ dev.dBlocks = 0 ∨ dev.Refused ∨
        give (h.asked + 2) = false ∨
        dev.SizeOk ∧ (give (h.asked + 3) = false ∨ give (h.asked + 4) = false ∨
          dev.dBlocks < 2 + sfsFreemapBlocks dev.super ∨ dev.Marks dev.super) := by
  obtain ⟨hclean, hsound⟩ := @mountSuper_clean_sound give dev ((h.push .fs).push .sfsBuffer)
  rw [sfsDoMountDev, if_neg (not_not.mpr hsize), hclean.withChunk.withChunk.mountSafe_iff_sound,
    sound_withChunk, sound_withChunk, hsound]
  rfl

/-- **When mounting is safe.** With a freemap that goes with it or an error that leaves nothing
allocated, `sfs_do_mount` ends exactly when it gives up before it creates the bitmap, or the size is
not zero and not rounded to zero and it gives up before it counts the free blocks, or these are as
many as the superblock says and none is behind the last block. -/
theorem mountSafe_exact_iff (give : ℕ → Bool) (dev : BlockDevice) (h : MountHeap) :
    MountSafe (sfsDoMountDev give dev) h ↔
      dev.dBlocksize ≠ sfsBlksize ∨ give h.asked = false ∨ give (h.asked + 1) = false ∨
        dev.dBlocks = 0 ∨ dev.Refused ∨ give (h.asked + 2) = false ∨
        dev.SizeOk ∧ (give (h.asked + 3) = false ∨ give (h.asked + 4) = false ∨
          dev.dBlocks < 2 + sfsFreemapBlocks dev.super ∨ dev.Marks dev.super) := by
  by_cases hsize : dev.dBlocksize = sfsBlksize
  · rw [mountSafe_of_blksize hsize]
    exact ⟨.inr, fun hc ↦ hc.resolve_left (not_not.mpr hsize)⟩
  · rw [sfsDoMountDev, if_pos hsize, MountSafe, run_fail]
    exact ⟨fun _ ↦ .inl hsize, fun _ ↦ rfl⟩

/-- An image whose superblock says that the file system has no blocks. -/
def noBlocks : BlockDevice where
  dBlocks := 8
  dBlocksize := 4096
  blk _ := (⟨sfsMagic, 0, 0, fun _ ↦ 0⟩ : SfsSuper).bytes

/-- The kernel halts on that image. -/
theorem noBlocks_not_mountSafe : ¬MountSafe (sfsDoMountDev (fun _ ↦ true) noBlocks) ⟨0, []⟩ := by
  have hsuper : noBlocks.super = ⟨sfsMagic, 0, 0, fun _ ↦ 0⟩ :=
    SfsSuper.ofBytes_bytes ⟨by decide, by decide, by decide⟩
  rw [mountSafe_of_blksize rfl, BlockDevice.Refused, BlockDevice.SizeOk, hsuper]
  simp [noBlocks]

end Chain

/-! ## With memory and without faults -/

section Agree

variable {dev : Device} {h : MountHeap}

/-- The bitmap that a mount starts from has every index free. -/
theorem bitmapCreate_stands (nbits : ℕ) :
    Stands (bitmapCreate nbits) nbits (Finset.range nbits) where
  wf := Bitmap.wf_ofPred nbits _
  nbits := rfl
  isFree i := by
    rw [bitmapCreate, Bitmap.isFree_ofPred, Bool.and_true, decide_eq_true_iff, Finset.mem_range]

/-- Two bitmaps of one size with the same words. -/
structure SameWords (b b' : Bitmap) : Prop where
  nbits : b.nbits = b'.nbits
  nwords : b.nwords = b'.nwords
  map : ∀ w < b.nwords, b.map w = b'.map w

/-- `bitmap_create` word by word, and as a mount uses it: both halt, or both find no memory, or both
return the same words. -/
theorem bitmapCreate_like (give : ℕ → Bool) (junk : ℕ → BitVec 32) (nbits : ℕ) :
    ((bitmapCreateWords junk (give h.asked) (give (h.asked + 1)) nbits).run ()).Like
      ((bitmapCreateGive give nbits).run h) (fun r _ r' _ ↦ Option.Rel SameWords r r')
      fun _ _ ↦ True := by
  by_cases hn : nbits = 0
  · have hassert : ¬(nbits ≠ 0 ∧ nbits < nbits + wordBits) := fun hc ↦ hc.1 hn
    rw [bitmapCreateWords, assert_bind_run_neg hassert, bitmapCreateGive,
      assert_bind_run_neg hassert]
    trivial
  have hassert : nbits ≠ 0 ∧ nbits < nbits + wordBits := ⟨hn, Nat.lt_add_of_pos_right (by decide)⟩
  rw [bitmapCreateGive_run hn]
  cases give h.asked with
  | false =>
    rw [bitmapCreateWords, assert_bind_run hassert, if_pos rfl, if_pos rfl]
    exact .none
  | true =>
    rw [if_neg Bool.true_eq_false_eq_False]
    cases give (h.asked + 1) with
    | false =>
      rw [bitmapCreateWords, assert_bind_run hassert, if_neg Bool.true_eq_false_eq_False,
        if_pos rfl, if_pos rfl]
      exact .none
    | true =>
      obtain ⟨b, hrun, hb⟩ := bitmapCreateWords_stands junk hn
      have hnew := bitmapCreate_stands nbits
      rw [hrun, if_neg Bool.true_eq_false_eq_False]
      exact .some ⟨hb.nbits.trans hnew.nbits.symm,
        by rw [hb.wf.nwords, hnew.wf.nwords, hb.nbits, hnew.nbits], fun w hw ↦ hb.map_eq hnew hw⟩

/-- A device on which no transfer fails, with the content that nobody has checked. -/
def Device.toBlockDevice (dev : Device) : BlockDevice := ⟨dev.dBlocks, sfsBlksize, dev.blk⟩

@[simp] theorem Device.toBlockDevice_dBlocks (dev : Device) :
    dev.toBlockDevice.dBlocks = dev.dBlocks := rfl

/-- Neither of two routines changes its state, and both return the same. -/
def Unchanged {α : Type} (dev : Device) (h : MountHeap) (a : α) (d : Device) (b : α)
    (h' : MountHeap) : Prop := a = b ∧ dev = d ∧ h = h'

theorem sfsInitRead_like (hf : dev.faults = []) {blkno : ℕ} (hb : blkno < 2 ^ 20) (buf : Bytes)
    (base : ℕ) : ((sfsInitRead blkno buf base).run dev).Like
      ((sfsInitReadDev dev.toBlockDevice blkno buf base).run h) (Unchanged dev h)
      fun _ _ ↦ True := by
  rw [sfsInitReadDev_run hb]
  by_cases hin : dev.dBlocks ≤ blkno
  · have hmod : blkno * sfsBlksize % 2 ^ 32 = blkno * 4096 := by
      rw [sfsBlksize_eq]
      exact Nat.mod_eq_of_lt (by omega)
    have hread : (sfsInitRead blkno buf base).run dev = .error .inval dev := by
      rw [sfsInitRead, hmod, dopIo, get_bind_run, if_pos (Or.inr (by omega)), run_fail]
    rw [hread, dev.toBlockDevice_dBlocks, if_pos hin]
    exact ⟨rfl, trivial⟩
  · rw [sfsInitRead_eq blkno hf (not_le.mp hin), dev.toBlockDevice_dBlocks, if_neg hin]
    exact ⟨rfl, rfl, rfl⟩

theorem sfsInitFreemap_like (hf : dev.faults = []) {blkno n : ℕ} (hb : blkno + n ≤ 2 ^ 20)
    (data : Bytes) (base : ℕ) : ((sfsInitFreemap data base blkno n).run dev).Like
      ((sfsInitFreemapLoop dev.toBlockDevice data base blkno n).run h) (Unchanged dev h)
      fun _ _ ↦ True := by
  induction n generalizing blkno data base with
  | zero => exact ⟨rfl, rfl, rfl⟩
  | succ n ih =>
    rw [sfsInitFreemap, sfsInitFreemapLoop]
    refine like_bind (sfsInitRead_like hf (by omega) data base) ?_
    rintro data _ _ _ ⟨rfl, rfl, rfl⟩
    exact ih (by omega) data _

/-- Memory that is granted, and given back on an error, changes nothing else. -/
theorem like_withChunk {α β : Type} {Q : α → Device → β → MountHeap → Prop}
    {o : Outcome Errno Device α} {m : Prog Errno MountHeap β} {c : Chunk}
    (ho : o.Like (m.run (h.push c)) Q fun _ _ ↦ True) :
    o.Like ((withChunk (fun _ ↦ true) c m).run h) Q fun _ _ ↦ True := by
  rw [withChunk, bind_of_ok (kmallocChunk_of_give rfl), if_pos rfl]
  exact like_onError ho fun _ ↦ ⟨_, rfl⟩

/-- From `bitmap_create` on. -/
theorem sfsMountFreemap_like (hf : dev.faults = []) {super : SfsSuper}
    (hblocks : super.blocks ≤ dev.dBlocks) : ((sfsMountFreemap super).run dev).Like
      ((mountFreemap (fun _ ↦ true) dev.toBlockDevice super).run h)
      (fun fs _ r _ ↦ r = (fs.super, fs.freemap)) fun _ _ ↦ True := by
  have hlt := dev.dBlocks_lt
  have hbits : freemapSizeNbits super = sfsFreemapBlocks super * 32768 :=
    freemapSizeNbits_eq (by omega)
  have heq : sfsFreemapBits super = sfsFreemapBlocks super * 32768 := rfl
  have hfew : sfsFreemapBlocks super ≤ 32 := by
    rw [sfsFreemapBlocks, sfsBlkbits_eq]
    omega
  rw [sfsMountFreemap, mountFreemap, hbits, heq]
  -- a file system without blocks meets the assertion on the size of the bitmap, in both
  rcases Nat.eq_zero_or_pos (sfsFreemapBlocks super) with hzero | hpos
  · rw [assert_bind_run_neg (not_not.mpr (by rw [hzero, Nat.zero_mul])), bitmapCreateGive]
    have hhalt : ¬(sfsFreemapBlocks super * 32768 ≠ 0 ∧
        sfsFreemapBlocks super * 32768 < sfsFreemapBlocks super * 32768 + wordBits) :=
      fun hc ↦ hc.1 (by rw [hzero, Nat.zero_mul])
    rw [bind_of_panic (assert_bind_run_neg hhalt _ _)]
    trivial
  have hwords : 4 * (bitmapCreate (sfsFreemapBlocks super * 32768)).nwords =
      sfsFreemapBlocks super * sfsBlksize := by
    change 4 * ((sfsFreemapBlocks super * 32768 + 31) / 32) = _
    rw [sfsBlksize_eq]
    omega
  have hwords' : 4 * (bitmapCreate (sfsFreemapBlocks super * 32768)).nwords =
      sfsFreemapBlocks super * sfsBlksize % 2 ^ 32 := by
    rw [hwords, sfsBlksize_eq, Nat.mod_eq_of_lt (by omega)]
  have hcreate : (bitmapCreateGive (fun _ ↦ true) (sfsFreemapBlocks super * 32768)).run h =
      .ok (some (bitmapCreate (sfsFreemapBlocks super * 32768))) ((h.push .bitmap).push .map) := by
    rw [bitmapCreateGive_run (by omega), if_neg Bool.true_eq_false_eq_False,
      if_neg Bool.true_eq_false_eq_False]
  rw [assert_bind_run (by omega), assert_bind_run hwords, bind_of_ok hcreate]
  have hread : ((sfsInitFreemap (bitmapGetdata (bitmapCreate (sfsFreemapBlocks super * 32768))) 0
      sfsBlknFreemap (sfsFreemapBlocks super)).run dev).Like
      ((sfsInitFreemapDev dev.toBlockDevice (bitmapCreate (sfsFreemapBlocks super * 32768))
        sfsBlknFreemap (sfsFreemapBlocks super)).run ((h.push .bitmap).push .map))
      (Unchanged dev ((h.push .bitmap).push .map)) fun _ _ ↦ True := by
    rw [sfsInitFreemapDev, assert_bind_run hwords']
    exact sfsInitFreemap_like hf (by rw [sfsBlknFreemap]; omega) _ 0
  refine like_bind (like_onError hread fun _ ↦ ⟨_, rfl⟩) ?_
  rintro data _ _ _ ⟨rfl, rfl, rfl⟩
  exact like_assert_bind Iff.rfl fun _ ↦ rfl

/-- The two models of mounting agree where memory is granted and no transfer fails: both return the
same superblock and freemap, or both fail with the same code, or both halt. -/
theorem sfsDoMount_like (hf : dev.faults = []) :
    (sfsDoMount.run dev).Like ((sfsDoMountDev (fun _ ↦ true) dev.toBlockDevice).run h)
      (fun fs _ r _ ↦ r = (fs.super, fs.freemap)) fun _ _ ↦ True := by
  have hsize : dev.toBlockDevice.dBlocksize = sfsBlksize := rfl
  rw [sfsDoMountDev, if_neg (not_not.mpr hsize), sfsDoMount]
  refine like_withChunk (like_withChunk ?_)
  rw [mountSuper]
  refine like_bind (sfsInitRead_like hf (by decide) zero 0) ?_
  rintro buf _ _ _ ⟨rfl, rfl, rfl⟩
  rw [get_bind_run, dev.toBlockDevice_dBlocks]
  by_cases hbad : (SfsSuper.ofBytes buf).magic ≠ sfsMagic ∨
      dev.dBlocks < (SfsSuper.ofBytes buf).blocks
  · rw [if_pos hbad, if_pos hbad]
    exact ⟨rfl, trivial⟩
  rw [if_neg hbad, if_neg hbad]
  refine like_withChunk ?_
  have hblocks : (SfsSuper.ofBytes buf).terminate.blocks ≤ dev.dBlocks :=
    not_lt.mp fun hc ↦ hbad (.inr hc)
  exact sfsMountFreemap_like hf hblocks

end Agree

end Ucore
