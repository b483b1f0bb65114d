import Ucore.Errno
import Ucore.Lib.Bytes
import Ucore.Lib.Prog

/-!
# The disk

`disk0_io` of `kern/fs/devs/dev_disk0.c` with what it stands on: the sector routines of
`kern/driver/ide.c`, the memory disk of `kern/driver/ramdisk.c`, and `iobuf_move` of
`kern/fs/iobuf.c`. The system is a uniprocessor one and the disk is locked, so that a transfer is
not interleaved with another.

The block number and the number of blocks are cut to 32 bits before they are compared with the size
of the disk. A range inside the disk is moved exactly (`disk0Io_of_inside`); a range far outside it
can pass the comparison, and these are the only ones that go wrong (`disk0Io_exact_iff`).
-/

namespace Ucore.Disk0

open Prog Bytes

/-! ## The routines -/

def sectsize : ℕ := 512

def disk0Blksize : ℕ := 4096

def disk0Bufsize : ℕ := 4 * disk0Blksize

def disk0BlkNsect : ℕ := disk0Blksize / sectsize

def maxNsecs : ℕ := 128

def maxDiskNsecs : ℕ := 0x10000000

/-- A number cut to `uint32_t`. -/
def uint32 (n : ℤ) : ℕ := (n % 2 ^ 32).toNat

/-- `struct iobuf`. -/
structure Iobuf where
  ioBase : ℕ
  ioOffset : ℤ
  ioLen : ℕ
  ioResid : ℕ

/-- `struct ide_device` of the disk, which is valid: `disk0_device_init` stops the machine
otherwise. `data` is the memory from `iobase` on, of which the first `size` sectors are the disk. -/
structure IdeDevice where
  size : ℕ
  data : Bytes
  /-- `ramdisk_init` takes the size from a byte count cut to 32 bits. -/
  size_lt : size < 2 ^ 23

/-- `dev->d_blocks`, as `disk0_device_init` sets it. -/
def IdeDevice.dBlocks (ide : IdeDevice) : ℕ := ide.size / disk0BlkNsect

/-- The machine that `disk0_io` works on. `mem` is the memory that `io_base` points into. -/
structure Machine where
  iob : Iobuf
  mem : Bytes
  disk0Buffer : Bytes
  ide : IdeDevice
  /-- The sectors that the memory disk has been asked for, in order. -/
  touched : List ℕ

/-- A routine on the disk. -/
abbrev DiskProg (α : Type) : Type := Prog Errno Machine α

/-- `iobuf_skip`. The offset is an `off_t`. -/
def iobufSkip (n : ℕ) : DiskProg Unit := do
  let s ← get
  assert (n ≤ s.iob.ioResid)
  modify fun s ↦ { s with
    iob := { s.iob with
      ioBase := s.iob.ioBase + n
      ioOffset := (s.iob.ioOffset + n).bmod (2 ^ 64)
      ioResid := s.iob.ioResid - n } }

/-- The part of `iobuf_move` that moves `alen` bytes between the buffer of the caller and
`disk0_buffer`. -/
def iobufCopy (alen : ℕ) (m2b : Bool) : DiskProg Unit := do
  modify fun s ↦ { s with
    mem := if m2b then memcpy s.mem s.iob.ioBase s.disk0Buffer 0 alen else s.mem
    disk0Buffer :=
      if m2b then s.disk0Buffer else memcpy s.disk0Buffer 0 s.mem s.iob.ioBase alen }
  iobufSkip alen

/-- `iobuf_move` with `disk0_buffer` as `data`: what it returns and what it stores through
`copiedp`. -/
def iobufMove (len : ℕ) (m2b : Bool) : DiskProg (Option Errno × ℕ) := do
  let s ← get
  let alen := min s.iob.ioResid len
  if 0 < alen then iobufCopy alen m2b else pure ()
  pure (if len - alen = 0 then none else some .noMem, alen)

/-- The sectors that a request reaches: `MIN(nsecs, dev->size - secno)` in `size_t`. -/
def IdeDevice.nsecs (ide : IdeDevice) (secno nsecs : ℕ) : ℕ :=
  min nsecs ((ide.size + 2 ^ 64 - secno) % 2 ^ 64)

/-- `ramdisk_read` into `disk0_buffer`. It does not fail: the number of sectors is unsigned. -/
def ramdiskRead (secno nsecs : ℕ) : DiskProg Unit :=
  modify fun s ↦ { s with
    disk0Buffer :=
      memcpy s.disk0Buffer 0 s.ide.data (secno * sectsize) (s.ide.nsecs secno nsecs * sectsize)
    touched := s.touched ++ List.range' secno (s.ide.nsecs secno nsecs) }

/-- `ramdisk_write` from `disk0_buffer`. -/
def ramdiskWrite (secno nsecs : ℕ) : DiskProg Unit :=
  modify fun s ↦ { s with
    ide := { s.ide with
      data :=
        memcpy s.ide.data (secno * sectsize) s.disk0Buffer 0 (s.ide.nsecs secno nsecs * sectsize) }
    touched := s.touched ++ List.range' secno (s.ide.nsecs secno nsecs) }

/-- The two routines of `ide.c`, with the routine of the device. -/
def ideSecs (secs : ℕ → ℕ → DiskProg Unit) (secno nsecs : ℕ) : DiskProg Unit := do
  assert (nsecs ≤ maxNsecs)
  assert (secno < maxDiskNsecs ∧ secno + nsecs ≤ maxDiskNsecs)
  secs secno nsecs

def ideReadSecs : ℕ → ℕ → DiskProg Unit := ideSecs ramdiskRead

def ideWriteSecs : ℕ → ℕ → DiskProg Unit := ideSecs ramdiskWrite

def disk0ReadBlksNolock (blkno nblks : ℕ) : DiskProg Unit :=
  ideReadSecs (uint32 (blkno * disk0BlkNsect)) (uint32 (nblks * disk0BlkNsect))

def disk0WriteBlksNolock (blkno nblks : ℕ) : DiskProg Unit :=
  ideWriteSecs (uint32 (blkno * disk0BlkNsect)) (uint32 (nblks * disk0BlkNsect))

/-- One round of the loop of `disk0_io`: `copied`. -/
def disk0Round (write : Bool) (resid blkno : ℕ) : DiskProg ℕ :=
  if write then do
    let r ← iobufMove disk0Bufsize false
    assert (r.2 ≠ 0 ∧ r.2 ≤ resid ∧ r.2 % disk0Blksize = 0)
    disk0WriteBlksNolock blkno (uint32 (r.2 / disk0Blksize : ℕ))
    pure r.2
  else do
    let alen := min disk0Bufsize resid
    disk0ReadBlksNolock blkno (uint32 (alen / disk0Blksize : ℕ))
    let r ← iobufMove alen true
    assert (r.2 = alen ∧ r.2 % disk0Blksize = 0)
    pure r.2

/-- The loop of `disk0_io`. A round moves a block at least, so that the loop is through after as
many rounds as there are blocks. -/
def disk0Loop (write : Bool) : ℕ → ℕ → ℕ → DiskProg Unit
  | 0, _, _ => pure ()
  | rounds + 1, resid, blkno =>
    if resid ≠ 0 then do
      let copied ← disk0Round write resid blkno
      disk0Loop write rounds (resid - copied) (uint32 (blkno + copied / disk0Blksize : ℕ))
    else
      pure ()

def disk0Io (write : Bool) : DiskProg Unit := do
  let s ← get
  let offset := s.iob.ioOffset
  let resid := s.iob.ioResid
  let blkno := uint32 (offset.tdiv disk0Blksize)
  let nblks := uint32 (resid / disk0Blksize : ℕ)
  if offset.tmod disk0Blksize ≠ 0 ∨ resid % disk0Blksize ≠ 0 then fail .inval
  else if s.ide.dBlocks < uint32 (blkno + nblks : ℕ) then fail .inval
  else if nblks = 0 then pure ()
  else disk0Loop write (resid / disk0Blksize) resid blkno

/-! ## A range that is moved -/

/-- From `s` to `s'`, the `n` bytes of the disk from `pos` on have been moved to or from the buffer
of the caller, by their sectors in order and by no others. -/
structure Moved (write : Bool) (pos n : ℕ) (s s' : Machine) : Prop where
  iob : s'.iob = { s.iob with
    ioBase := s.iob.ioBase + n
    ioOffset := s.iob.ioOffset + n
    ioResid := s.iob.ioResid - n }
  mem : s'.mem = if write then s.mem else memcpy s.mem s.iob.ioBase s.ide.data pos n
  data : s'.ide.data = if write then memcpy s.ide.data pos s.mem s.iob.ioBase n else s.ide.data
  size : s'.ide.size = s.ide.size
  touched : s'.touched = s.touched ++ List.range' (pos / sectsize) (n / sectsize)

section Moved

variable {write : Bool} {s s' s'' : Machine} {pos m n b j k : ℕ}

theorem Moved.refl (write : Bool) (pos : ℕ) (s : Machine) : Moved write pos 0 s s where
  iob := by
    rw [Nat.add_zero, Nat.cast_zero, add_zero, Nat.sub_zero]
  mem := by
    rw [memcpy_zero_len, ite_self]
  data := by
    rw [memcpy_zero_len, ite_self]
  size := rfl
  touched := by
    rw [Nat.zero_div, List.range'_zero, List.append_nil]

/-- Two moves, the second where the first has ended. -/
theorem Moved.trans (h : Moved write pos n s s') (h' : Moved write (pos + n) m s' s'')
    (hn : sectsize ∣ n) (hm : sectsize ∣ m) : Moved write pos (n + m) s s'' where
  iob := by
    rw [h'.iob, h.iob]
    dsimp only
    rw [Nat.add_assoc, Nat.cast_add, add_assoc, Nat.sub_sub]
  mem := by
    rw [h'.mem, h.mem, h.data, h.iob]
    cases write
    · simp only [Bool.false_eq_true, if_false]
      exact memcpy_memcpy_append ..
    · rfl
  data := by
    rw [h'.data, h.mem, h.data, h.iob]
    cases write
    · rfl
    · simp only [if_true]
      exact memcpy_memcpy_append ..
  size := h'.size.trans h.size
  touched := by
    rw [h'.touched, h.touched, List.append_assoc, Nat.add_div_of_dvd_left hn,
      Nat.add_div_of_dvd_left hm, List.range'_append_1]

theorem uint32_of_lt (h : n < 2 ^ 32) : uint32 n = n := by
  rw [uint32]
  omega

/-- What is copied to the front of a buffer and from there to its place is copied there. -/
theorem memcpy_through (dst b src : Bytes) (d p n : ℕ) :
    memcpy dst d (memcpy b 0 src p n) 0 n = memcpy dst d src p n := by
  funext i
  by_cases hi : d ≤ i ∧ i < d + n
  · have hlt : 0 + (i - d) < 0 + n := by omega
    rw [memcpy_of_mem hi.1 hi.2, memcpy_of_mem hi.1 hi.2, memcpy_of_mem (Nat.zero_le _) hlt,
      Nat.sub_zero, Nat.zero_add]
  · have hout : i < d ∨ d + n ≤ i := by omega
    rw [memcpy_of_notMem hout, memcpy_of_notMem hout]

/-- The machine after `iobuf_move` of `n` bytes. -/
def Machine.moved (m2b : Bool) (n : ℕ) (s : Machine) : Machine :=
  { s with
    iob := { s.iob with
      ioBase := s.iob.ioBase + n
      ioOffset := s.iob.ioOffset + n
      ioResid := s.iob.ioResid - n }
    mem := if m2b then memcpy s.mem s.iob.ioBase s.disk0Buffer 0 n else s.mem
    disk0Buffer := if m2b then s.disk0Buffer else memcpy s.disk0Buffer 0 s.mem s.iob.ioBase n }

/-- `iobuf_move` of `n` bytes that are left. -/
theorem iobufMove_run {len : ℕ} (m2b : Bool) (hn : min s.iob.ioResid len = n) (hpos : 0 < n)
    (hoff : (s.iob.ioOffset + n).bmod (2 ^ 64) = s.iob.ioOffset + n) :
    ∃ r, (iobufMove len m2b).run s = .ok (r, n) (s.moved m2b n) := by
  have hle : n ≤ s.iob.ioResid := hn ▸ min_le_left ..
  have hcopy : (iobufCopy n m2b).run s = .ok () (s.moved m2b n) := by
    rw [iobufCopy, modify_bind_run, iobufSkip, get_bind_run, assert_bind_run hle, run_modify]
    simp only [hoff, Machine.moved]
  refine ⟨if len - n = 0 then none else some .noMem, ?_⟩
  rw [iobufMove, get_bind_run]
  simp only [hn, if_pos hpos]
  rw [bind_of_ok hcopy, run_pure]

/-- The blocks of a request inside the disk, at the sector routines. -/
theorem ideSecs_run (secs : ℕ → ℕ → DiskProg Unit) (hj : j ≤ 4) (hb : b + j ≤ s.ide.dBlocks) :
    (ideSecs secs (uint32 (b * disk0BlkNsect : ℕ)) (uint32 (j * disk0BlkNsect : ℕ))).run s =
      (secs (b * 8) (j * 8)).run s := by
  have hsize := s.ide.size_lt
  have hnsect : disk0BlkNsect = 8 := rfl
  rw [IdeDevice.dBlocks, hnsect] at hb
  rw [hnsect, uint32_of_lt (by omega), uint32_of_lt (by omega), ideSecs, maxNsecs, maxDiskNsecs,
    assert_bind_run (by omega), assert_bind_run (by omega)]

/-- The device does not end inside such a request. -/
theorem nsecs_eq (hb : b + j ≤ s.ide.dBlocks) : s.ide.nsecs (b * 8) (j * 8) = j * 8 := by
  have hsize := s.ide.size_lt
  have hnsect : disk0BlkNsect = 8 := rfl
  rw [IdeDevice.dBlocks, hnsect] at hb
  rw [IdeDevice.nsecs]
  omega

theorem sectors_eq (b : ℕ) : b * 8 * sectsize = b * 4096 ∧ b * 4096 / sectsize = b * 8 := by
  rw [sectsize]
  omega

/-- A round moves the next four blocks, or what is left. -/
theorem disk0Round_run (hoff : s.iob.ioOffset = (b * 4096 : ℕ)) (hresid : s.iob.ioResid = k * 4096)
    (hk : 0 < k) (hb : b + k ≤ s.ide.dBlocks) :
    ∃ s', (disk0Round write (k * 4096) b).run s = .ok (min 4 k * 4096) s' ∧
      Moved write (b * 4096) (min 4 k * 4096) s s' := by
  -- the device is far smaller than what the counters hold, so nothing is cut
  have hsize : s.ide.dBlocks < 2 ^ 20 := by
    have hlt := s.ide.size_lt
    have hnsect : disk0BlkNsect = 8 := rfl
    rw [IdeDevice.dBlocks, hnsect]
    omega
  obtain ⟨j, hj⟩ : ∃ j, j = min 4 k := ⟨_, rfl⟩
  rw [← hj]
  have hin : b + j ≤ s.ide.dBlocks := by omega
  have hj4 : j ≤ 4 := by omega
  have hwrap : (s.iob.ioOffset + (j * 4096 : ℕ)).bmod (2 ^ 64) =
      s.iob.ioOffset + (j * 4096 : ℕ) := by
    rw [hoff]
    refine Int.bmod_eq_of_le ?_ ?_
    · omega
    · omega
  have hpos : 0 < j * 4096 := by omega
  have hblks : uint32 (j * 4096 / disk0Blksize : ℕ) = j := by
    rw [disk0Blksize, Nat.mul_div_cancel _ (by decide), uint32_of_lt (by omega)]
  have hmod : j * 4096 % disk0Blksize = 0 := Nat.mul_mod_left ..
  have hsect := sectors_eq b
  have hsect' := sectors_eq j
  cases write with
  | false =>
    have hmin : min disk0Bufsize (k * 4096) = j * 4096 := by
      rw [disk0Bufsize, disk0Blksize]
      omega
    have hread : (disk0ReadBlksNolock b j).run s = _ := ideSecs_run ramdiskRead hj4 hin
    rw [ramdiskRead, run_modify, nsecs_eq hin, hsect.1, hsect'.1] at hread
    obtain ⟨r, hmove⟩ := @iobufMove_run { s with
      disk0Buffer := memcpy s.disk0Buffer 0 s.ide.data (b * 4096) (j * 4096)
      touched := s.touched ++ List.range' (b * 8) (j * 8) } (j * 4096) (j * 4096) true
      (by dsimp only; omega) hpos hwrap
    refine ⟨Machine.moved true (j * 4096) { s with
      disk0Buffer := memcpy s.disk0Buffer 0 s.ide.data (b * 4096) (j * 4096)
      touched := s.touched ++ List.range' (b * 8) (j * 8) }, ?_, rfl, ?_, rfl, rfl, ?_⟩
    · rw [disk0Round, if_neg Bool.false_ne_true]
      dsimp only
      rw [hmin, hblks, bind_of_ok hread, bind_of_ok hmove, assert_bind_run ⟨rfl, hmod⟩, run_pure]
    · exact memcpy_through ..
    · rw [hsect.2, hsect'.2]
      rfl
  | true =>
    obtain ⟨r, hmove⟩ := @iobufMove_run s (j * 4096) disk0Bufsize false
      (by rw [disk0Bufsize, disk0Blksize]; omega) hpos hwrap
    have hle : j * 4096 ≤ k * 4096 := by omega
    have hin' : b + j ≤ (s.moved false (j * 4096)).ide.dBlocks := hin
    have hwrite : (disk0WriteBlksNolock b j).run (s.moved false (j * 4096)) = _ :=
      ideSecs_run ramdiskWrite hj4 hin'
    rw [ramdiskWrite, run_modify, nsecs_eq hin', hsect.1, hsect'.1] at hwrite
    refine ⟨{ s.moved false (j * 4096) with
      ide := { s.ide with
        data := memcpy s.ide.data (b * 4096) (s.moved false (j * 4096)).disk0Buffer 0 (j * 4096) }
      touched := s.touched ++ List.range' (b * 8) (j * 8) }, ?_, rfl, rfl, ?_, rfl, ?_⟩
    · rw [disk0Round, if_pos rfl, bind_of_ok hmove, assert_bind_run ⟨hpos.ne', hle, hmod⟩]
      dsimp only
      rw [hblks, bind_of_ok hwrite, run_pure]
      rfl
    · exact memcpy_through ..
    · rw [hsect.2, hsect'.2]

/-- The loop moves all blocks that are left. -/
theorem disk0Loop_run {rounds : ℕ} (hoff : s.iob.ioOffset = (b * 4096 : ℕ))
    (hresid : s.iob.ioResid = k * 4096) (hb : b + k ≤ s.ide.dBlocks) (hrounds : k ≤ rounds) :
    ∃ s', (disk0Loop write rounds (k * 4096) b).run s = .ok () s' ∧
      Moved write (b * 4096) (k * 4096) s s' := by
  induction rounds generalizing s b k with
  | zero =>
    obtain rfl : k = 0 := Nat.le_zero.mp hrounds
    rw [Nat.zero_mul]
    exact ⟨s, rfl, .refl ..⟩
  | succ rounds ih =>
    rcases Nat.eq_zero_or_pos k with rfl | hk
    · rw [Nat.zero_mul]
      exact ⟨s, rfl, .refl ..⟩
    obtain ⟨t, hround, hmoved⟩ := @disk0Round_run write s b k hoff hresid hk hb
    obtain ⟨j, hj⟩ : ∃ j, j = min 4 k := ⟨_, rfl⟩
    rw [← hj] at hround hmoved
    -- the rest starts `j` blocks further on
    have hblkno : uint32 (b + j * 4096 / disk0Blksize : ℕ) = b + j := by
      have hlt := s.ide.size_lt
      rw [IdeDevice.dBlocks, disk0BlkNsect, disk0Blksize, sectsize] at hb
      rw [disk0Blksize, Nat.mul_div_cancel _ (by decide), uint32_of_lt (by omega)]
    have hleft : k * 4096 - j * 4096 = (k - j) * 4096 := (Nat.sub_mul ..).symm
    have hsum : j * 4096 + (k - j) * 4096 = k * 4096 := by omega
    obtain ⟨s', hloop, hmoved'⟩ := @ih t (b + j) (k - j)
      (by rw [hmoved.iob, hoff]; push_cast; ring)
      (by rw [hmoved.iob, hresid]; exact hleft)
      (by rw [IdeDevice.dBlocks, hmoved.size]; exact le_trans (by omega) hb)
      (by omega)
    refine ⟨s', ?_, ?_⟩
    · rw [disk0Loop, if_pos (by omega), bind_of_ok hround, hleft, hblkno, hloop]
    · rw [Nat.add_mul] at hmoved'
      rw [← hsum]
      exact hmoved.trans hmoved' (by rw [sectsize]; omega) (by rw [sectsize]; omega)

end Moved

/-! ## What `disk0_io` does -/

/-- Offset and length are whole blocks, and the range lies inside the disk. -/
def Inside (s : Machine) : Prop :=
  s.iob.ioOffset % 4096 = 0 ∧ s.iob.ioResid % 4096 = 0 ∧ 0 ≤ s.iob.ioOffset ∧
    s.iob.ioOffset + s.iob.ioResid ≤ (s.ide.dBlocks * 4096 : ℕ)

/-- What `disk0_io` is to do. -/
structure Exact (write : Bool) (s : Machine) (o : Outcome Errno Machine Unit) : Prop where
  /-- A range inside the disk is moved. -/
  moved : Inside s → ∃ s', o = .ok () s' ∧
    Moved write s.iob.ioOffset.toNat s.iob.ioResid s s'
  /-- Any other is refused, and nothing has happened. -/
  refused : ¬Inside s → o = .error .inval s

section Exact

variable {write : Bool} {s : Machine}

/-- The blocks of a range inside the disk. -/
theorem Inside.blocks (h : Inside s) : ∃ b k : ℕ, s.iob.ioOffset = (b * 4096 : ℕ) ∧
    s.iob.ioResid = k * 4096 ∧ b + k ≤ s.ide.dBlocks := by
  obtain ⟨hoff, hresid, hpos, hle⟩ := h
  refine ⟨(s.iob.ioOffset / 4096).toNat, s.iob.ioResid / 4096, ?_, ?_, ?_⟩
  · omega
  · omega
  · omega

/-- The checks of `disk0_io` pass. -/
def Passes (s : Machine) : Prop :=
  s.iob.ioOffset.tmod disk0Blksize = 0 ∧ s.iob.ioResid % disk0Blksize = 0 ∧
    uint32 (uint32 (s.iob.ioOffset.tdiv disk0Blksize) +
      uint32 (s.iob.ioResid / disk0Blksize : ℕ) : ℕ) ≤ s.ide.dBlocks

instance (s : Machine) : Decidable (Passes s) := inferInstanceAs (Decidable (_ ∧ _ ∧ _))

theorem Inside.passes (h : Inside s) : Passes s := by
  obtain ⟨b, k, hoff, hresid, hle⟩ := h.blocks
  have hlt := s.ide.size_lt
  have hb : b + k < 2 ^ 20 := by
    rw [IdeDevice.dBlocks, disk0BlkNsect, disk0Blksize, sectsize] at hle
    omega
  have hcast : ((b * 4096 : ℕ) : ℤ) = (b : ℤ) * (4096 : ℕ) := Nat.cast_mul ..
  have hb₃₂ : uint32 b = b := uint32_of_lt (by omega)
  have hk₃₂ : uint32 k = k := uint32_of_lt (by omega)
  have hsum₃₂ : uint32 (b + k : ℕ) = b + k := uint32_of_lt (by omega)
  rw [Passes, hoff, hresid, disk0Blksize, hcast, Int.mul_tmod_left,
    Int.mul_tdiv_cancel _ (by decide), Nat.mul_div_cancel _ (by decide), hb₃₂, hk₃₂, hsum₃₂]
  exact ⟨rfl, Nat.mul_mod_left .., hle⟩

/-- A range that is refused. -/
theorem disk0Io_of_not_passes (h : ¬Passes s) : (disk0Io write).run s = .error .inval s := by
  rw [disk0Io, get_bind_run]
  by_cases halign : s.iob.ioOffset.tmod disk0Blksize ≠ 0 ∨ s.iob.ioResid % disk0Blksize ≠ 0
  · simp only [if_pos halign, run_fail]
  · have hlt : s.ide.dBlocks < uint32 (uint32 (s.iob.ioOffset.tdiv disk0Blksize) +
        uint32 (s.iob.ioResid / disk0Blksize : ℕ) : ℕ) := by
      rw [not_or, not_not, not_not] at halign
      exact not_le.mp fun hle ↦ h ⟨halign.1, halign.2, hle⟩
    simp only [if_neg halign, if_pos hlt, run_fail]

/-- A range that passes is not refused. -/
theorem disk0Io_of_passes (h : Passes s) : (disk0Io write).run s =
    if uint32 (s.iob.ioResid / disk0Blksize : ℕ) = 0 then .ok () s
    else (disk0Loop write (s.iob.ioResid / disk0Blksize) s.iob.ioResid
      (uint32 (s.iob.ioOffset.tdiv disk0Blksize))).run s := by
  obtain ⟨hoff, hresid, hle⟩ := h
  have halign : ¬(s.iob.ioOffset.tmod disk0Blksize ≠ 0 ∨ s.iob.ioResid % disk0Blksize ≠ 0) := by
    rw [not_or, not_not, not_not]
    exact ⟨hoff, hresid⟩
  rw [disk0Io, get_bind_run]
  simp only [if_neg halign, if_neg hle.not_gt]
  split
  · rfl
  · rfl

/-- A range inside the disk is moved. -/
theorem disk0Io_of_inside (h : Inside s) : ∃ s', (disk0Io write).run s = .ok () s' ∧
    Moved write s.iob.ioOffset.toNat s.iob.ioResid s s' := by
  obtain ⟨b, k, hoff, hresid, hle⟩ := h.blocks
  have hlt := s.ide.size_lt
  have hb : b + k < 2 ^ 20 := by
    rw [IdeDevice.dBlocks, disk0BlkNsect, disk0Blksize, sectsize] at hle
    omega
  have hcast : ((b * 4096 : ℕ) : ℤ) = (b : ℤ) * (4096 : ℕ) := Nat.cast_mul ..
  have hb₃₂ : uint32 b = b := uint32_of_lt (by omega)
  have hk₃₂ : uint32 k = k := uint32_of_lt (by omega)
  have hrun := @disk0Io_of_passes write s h.passes
  rw [hoff, hresid, disk0Blksize, hcast, Int.mul_tdiv_cancel _ (by decide),
    Nat.mul_div_cancel _ (by decide), hb₃₂, hk₃₂] at hrun
  rw [hrun, hoff, hresid, Int.toNat_natCast]
  by_cases hk : k = 0
  · rw [if_pos hk, hk, Nat.zero_mul]
    exact ⟨s, rfl, .refl ..⟩
  · rw [if_neg hk]
    exact disk0Loop_run hoff hresid hle le_rfl

/-- Once the checks have passed, nothing is refused any more. -/
theorem disk0Loop_sat (write : Bool) (rounds resid blkno : ℕ) (s : Machine) :
    ((disk0Loop write rounds resid blkno).run s).Sat (fun _ _ ↦ True) fun _ _ ↦ False := by
  have hskip : ∀ n t, ((iobufSkip n).run t).Sat (fun _ _ ↦ True) fun _ _ ↦ False := fun n t ↦
    sat_assert_bind fun _ ↦ trivial
  have hmove : ∀ len m2b t, ((iobufMove len m2b).run t).Sat (fun _ _ ↦ True) fun _ _ ↦ False := by
    intro len m2b t
    rw [iobufMove, get_bind_run]
    dsimp only
    split
    · exact sat_bind (hskip _ _) fun _ _ _ ↦ trivial
    · trivial
  induction rounds generalizing resid blkno s with
  | zero => trivial
  | succ rounds ih =>
    rw [disk0Loop]
    split
    swap
    · trivial
    refine @sat_bind _ _ _ _ _ _ _ _ _ (fun _ _ ↦ True) ?_ fun copied t _ ↦ ih _ _ t
    rw [disk0Round]
    cases write with
    | false =>
      refine @sat_bind _ _ _ _ _ _ _ _ _ (fun _ _ ↦ True) ?_ fun _ t _ ↦ ?_
      · exact sat_assert_bind fun _ ↦ sat_assert_bind fun _ ↦ trivial
      · exact sat_bind (hmove _ _ t) fun _ _ _ ↦ sat_assert_bind fun _ ↦ trivial
    | true =>
      refine sat_bind (hmove _ _ s) fun _ t _ ↦ sat_assert_bind fun _ ↦ ?_
      refine @sat_bind _ _ _ _ _ _ _ _ _ (fun _ _ ↦ True) ?_ fun _ _ _ ↦ trivial
      exact sat_assert_bind fun _ ↦ sat_assert_bind fun _ ↦ trivial

/-- `disk0_io` does what it is to do exactly when its checks refuse the range, or the range is
inside the disk: the checks compare numbers that have been cut to 32 bits. -/
theorem disk0Io_exact_iff (write : Bool) (s : Machine) :
    Exact write s ((disk0Io write).run s) ↔ ¬Passes s ∨ Inside s := by
  constructor
  · intro hexact
    by_contra hno
    rw [not_or, not_not] at hno
    have hinval := hexact.refused hno.2
    rw [disk0Io_of_passes hno.1] at hinval
    split at hinval
    · cases hinval
    · have hsat := disk0Loop_sat write (s.iob.ioResid / disk0Blksize) s.iob.ioResid
        (uint32 (s.iob.ioOffset.tdiv disk0Blksize)) s
      rw [hinval] at hsat
      exact hsat
  · rintro (hpass | hin)
    · exact ⟨fun hin ↦ absurd hin.passes hpass, fun _ ↦ disk0Io_of_not_passes hpass⟩
    · exact ⟨fun _ ↦ disk0Io_of_inside hin, fun hout ↦ absurd hin hout⟩

/-- A disk of one block, and a request for the block behind the first 16 TiB. -/
def farMachine : Machine :=
  ⟨⟨0, 2 ^ 44, 4096, 4096⟩, zero, zero, ⟨8, zero, by decide⟩, []⟩

/-- The number of that block is 0 in 32 bits: the first block is read. -/
theorem disk0Io_not_exact_sample : ∃ s', (disk0Io false).run farMachine = .ok () s' ∧
    s'.touched = List.range' 0 8 ∧ ¬Exact false farMachine ((disk0Io false).run farMachine) := by
  have hrun : ∃ s', (disk0Io false).run farMachine = .ok () s' ∧ s'.touched = List.range' 0 8 :=
    ⟨_, rfl, rfl⟩
  obtain ⟨s', hrun, htouched⟩ := hrun
  refine ⟨s', hrun, htouched, fun hexact ↦ ?_⟩
  have hinval := hexact.refused fun hin ↦ absurd hin.2.2.2 (by decide)
  rw [hrun] at hinval
  cases hinval

end Exact

end Ucore.Disk0
