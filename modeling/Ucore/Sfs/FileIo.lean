import Ucore.Sfs.BlockMapSpec

/-!
# Reading and writing a file

`sfs_io_nolock`: a transfer is cut into an unaligned head, whole blocks and an unaligned tail. The
labels of the source become functions here, one for each phase and one for `out`, so that a jump is
a call in tail position. A failed phase does not fail the routine as a whole: the code goes on to
`out` with what was transferred so far, and the result carries the error next to the count.
-/

namespace Ucore

open Bytes Prog

/-- What `sfs_io_nolock` hands back: its result, `*alenp` and the buffer. -/
structure IoResult where
  ret : Option Errno
  alen : ℕ
  buf : Bytes

/-- Conversion to `off_t`, a signed type of 64 bits. -/
def toOff (n : ℤ) : ℤ := n.bmod (2 ^ 64)

def sfsBufOp (write : Bool) (buf : Bytes) (base len blkno offset : ℕ) : Prog Errno SfsFs Bytes :=
  if write then sfsWbuf buf base len blkno offset else sfsRbuf buf base len blkno offset

def sfsBlockOp (write : Bool) (buf : Bytes) (base blkno nblks : ℕ) : Prog Errno SfsFs Bytes :=
  if write then sfsWblock buf base blkno nblks else sfsRblock buf base blkno nblks

/-- `sfs_bmap_load_nolock` followed by `sfs_buf_op`, as the head and the tail do. -/
def sfsIoPiece (k : ℕ) (buf : Bytes) (base size blkno blkoff : ℕ) (write : Bool) :
    Prog Errno SfsFs Bytes := do
  let ino ← sfsBmapLoadNolock k blkno
  sfsBufOp write buf base size ino blkoff

/-- `sfs_bmap_load_nolock` followed by `sfs_block_op`. The second call is given `blkno`, the logical
number of the first block, and not the device block that was just looked up. -/
def sfsIoBlocks (k : ℕ) (buf : Bytes) (base blkno nblks : ℕ) (write : Bool) :
    Prog Errno SfsFs Bytes := do
  let _ ← sfsBmapLoadNolock k blkno
  sfsBlockOp write buf base blkno nblks

/-- The part of `sfs_io_nolock` from `size = endpos % SFS_BLKSIZE` on. The pointer `buf` of the
source has moved `alen` bytes. -/
def sfsIoTail (k : ℕ) (buf : Bytes) (alen blkno endpos : ℕ) (write : Bool) :
    Prog Errno SfsFs IoResult := do
  if endpos % sfsBlksize ≠ 0 then
    match ← (sfsIoPiece k buf alen (endpos % sfsBlksize) blkno 0 write).attempt with
    | .ok buf => return ⟨none, alen + endpos % sfsBlksize, buf⟩
    | .error e => return ⟨some e, alen, buf⟩
  else
    return ⟨none, alen, buf⟩

/-- The part of `sfs_io_nolock` from `if (nblks > 0)` on. -/
def sfsIoMiddle (k : ℕ) (buf : Bytes) (alen blkno nblks endpos : ℕ) (write : Bool) :
    Prog Errno SfsFs IoResult := do
  if 0 < nblks then
    match ← (sfsIoBlocks k buf alen blkno nblks write).attempt with
    | .ok buf => sfsIoTail k buf (alen + nblks * sfsBlksize) (blkno + nblks) endpos write
    | .error e => return ⟨some e, alen, buf⟩
  else
    sfsIoTail k buf alen blkno endpos write

/-- The part of `sfs_io_nolock` from `blkoff = offset % SFS_BLKSIZE` on. -/
def sfsIoHead (k : ℕ) (buf : Bytes) (offset endpos : ℕ) (write : Bool) :
    Prog Errno SfsFs IoResult := do
  if offset % sfsBlksize ≠ 0 then
    if endpos / sfsBlksize - offset / sfsBlksize = 0 then
      match ← (sfsIoPiece k buf 0 (endpos - offset) (offset / sfsBlksize) (offset % sfsBlksize)
          write).attempt with
      | .ok buf => return ⟨none, endpos - offset, buf⟩
      | .error e => return ⟨some e, 0, buf⟩
    else
      match ← (sfsIoPiece k buf 0 (sfsBlksize - offset % sfsBlksize) (offset / sfsBlksize)
          (offset % sfsBlksize) write).attempt with
      | .ok buf =>
        sfsIoMiddle k buf (sfsBlksize - offset % sfsBlksize) (offset / sfsBlksize + 1)
          (endpos / sfsBlksize - offset / sfsBlksize - 1) endpos write
      | .error e => return ⟨some e, 0, buf⟩
  else
    sfsIoMiddle k buf 0 (offset / sfsBlksize) (endpos / sfsBlksize - offset / sfsBlksize)
      endpos write

/-- `sin->din->size = size, sin->dirty = 1`. -/
def SfsInode.grow (sin : SfsInode) (size : ℕ) : SfsInode :=
  { sin with din := { sin.din with size := size }, dirty := true }

theorem SfsInode.grow_din (sin : SfsInode) (size : ℕ) :
    (sin.grow size).din = { sin.din with size := (sin.grow size).din.size } := rfl

/-- The label `out` of `sfs_io_nolock`. -/
def sfsIoOut (k offset : ℕ) (r : IoResult) : Prog Errno SfsFs IoResult := do
  let sin ← getSin k
  if sin.din.size < offset + r.alen then
    putSin k (sin.grow (offset + r.alen))
    return r
  else
    return r

/-- The transfer from `offset` to `endpos`, with the label `out`. -/
def sfsIoSpan (k : ℕ) (buf : Bytes) (offset endpos : ℕ) (write : Bool) :
    Prog Errno SfsFs IoResult := do
  let r ← sfsIoHead k buf offset endpos write
  sfsIoOut k offset r

/-- `sfs_io_nolock`, with `alen` for `*alenp` on entry. -/
def sfsIoNolock (k : ℕ) (buf : Bytes) (offset : ℤ) (alen : ℕ) (write : Bool) :
    Prog Errno SfsFs IoResult := do
  let sin ← getSin k
  assert (sin.din.type ≠ sfsTypeDir)
  if offset < 0 ∨ (sfsMaxFileSize : ℤ) ≤ offset ∨ toOff (offset + alen) < offset then
    return ⟨some .inval, 0, buf⟩
  else if offset = toOff (offset + alen) then
    return ⟨none, 0, buf⟩
  else if write = true then
    sfsIoSpan k buf offset.toNat (min (toOff (offset + alen)).toNat sfsMaxFileSize) write
  else if sin.din.size ≤ offset.toNat then
    return ⟨none, 0, buf⟩
  else
    sfsIoSpan k buf offset.toNat
      (min (min (toOff (offset + alen)).toNat sfsMaxFileSize) sin.din.size) write

/-! ## Transfers that contain no whole block -/

/-- No aligned block lies inside `[offset, endpos)`. -/
def NoWholeBlock (offset endpos : ℕ) : Prop := endpos / 4096 ≤ (offset + 4095) / 4096

instance (offset endpos : ℕ) : Decidable (NoWholeBlock offset endpos) :=
  inferInstanceAs (Decidable (_ ≤ _))

/-- The end of the block an offset lies in. -/
def blockEnd (offset : ℕ) : ℕ := 4096 * (offset / 4096 + 1)

section Phases

variable {s t : SfsFs} {k offset endpos : ℕ} {buf buf' : Bytes} {write : Bool} {e : Errno}

theorem sfsIoTail_of_ok {alen blkno : ℕ} (hend : endpos % 4096 ≠ 0)
    (h : (sfsIoPiece k buf alen (endpos % 4096) blkno 0 write).run s = .ok buf' t) :
    (sfsIoTail k buf alen blkno endpos write).run s = .ok ⟨none, alen + endpos % 4096, buf'⟩ t := by
  rw [sfsIoTail, sfsBlksize_eq, if_pos hend, bind_of_ok (attempt_of_ok h)]
  rfl

theorem sfsIoTail_of_error {alen blkno : ℕ} (hend : endpos % 4096 ≠ 0)
    (h : (sfsIoPiece k buf alen (endpos % 4096) blkno 0 write).run s = .error e t) :
    (sfsIoTail k buf alen blkno endpos write).run s = .ok ⟨some e, alen, buf⟩ t := by
  rw [sfsIoTail, sfsBlksize_eq, if_pos hend, bind_of_ok (attempt_of_error h)]
  rfl

theorem sfsIoTail_of_panic {alen blkno : ℕ} (hend : endpos % 4096 ≠ 0)
    (h : (sfsIoPiece k buf alen (endpos % 4096) blkno 0 write).run s = .panic) :
    (sfsIoTail k buf alen blkno endpos write).run s = .panic := by
  rw [sfsIoTail, sfsBlksize_eq, if_pos hend, bind_of_panic (attempt_of_panic h)]

theorem sfsIoTail_aligned {alen blkno : ℕ} (hend : endpos % 4096 = 0) :
    (sfsIoTail k buf alen blkno endpos write).run s = .ok ⟨none, alen, buf⟩ s := by
  rw [sfsIoTail, sfsBlksize_eq, if_neg (by omega), run_pure]

theorem sfsIoMiddle_zero {alen blkno : ℕ} :
    (sfsIoMiddle k buf alen blkno 0 endpos write).run s
      = (sfsIoTail k buf alen blkno endpos write).run s := by
  rw [sfsIoMiddle, if_neg (by omega)]

theorem sfsIoMiddle_of_ok {alen blkno nblks : ℕ} (hpos : 0 < nblks)
    (h : (sfsIoBlocks k buf alen blkno nblks write).run s = .ok buf' t) :
    (sfsIoMiddle k buf alen blkno nblks endpos write).run s
      = (sfsIoTail k buf' (alen + nblks * 4096) (blkno + nblks) endpos write).run t := by
  rw [sfsIoMiddle, if_pos hpos, bind_of_ok (attempt_of_ok h), sfsBlksize_eq]

/-- What becomes of a transfer that is one piece, given how the piece ends. -/
def onePiece (len : ℕ) (buf : Bytes) : Outcome Errno SfsFs Bytes → Outcome Errno SfsFs IoResult
  | .ok buf' t => .ok ⟨none, len, buf'⟩ t
  | .error e t => .ok ⟨some e, 0, buf⟩ t
  | .panic => .panic

/-- A transfer inside one block that is not the whole block is one piece. -/
theorem sfsIoHead_one (hlt : offset < endpos) (hle : endpos ≤ blockEnd offset)
    (hno : NoWholeBlock offset endpos) :
    (sfsIoHead k buf offset endpos write).run s
      = onePiece (endpos - offset) buf
          ((sfsIoPiece k buf 0 (endpos - offset) (offset / 4096) (offset % 4096) write).run s) := by
  rw [blockEnd] at hle
  rw [NoWholeBlock] at hno
  rw [sfsIoHead, sfsBlksize_eq]
  by_cases hoff : offset % 4096 = 0
  · -- the head is empty, and so are the whole blocks: all of it is the tail
    have hend : endpos % 4096 = endpos - offset := by omega
    have hnz : endpos % 4096 ≠ 0 := by omega
    rw [if_neg (by omega), show endpos / 4096 - offset / 4096 = 0 by omega, sfsIoMiddle_zero,
      ← hend, hoff]
    cases hp : (sfsIoPiece k buf 0 (endpos % 4096) (offset / 4096) 0 write).run s with
    | ok buf' t => rw [sfsIoTail_of_ok hnz hp, onePiece, Nat.zero_add]
    | error e t => rw [sfsIoTail_of_error hnz hp, onePiece]
    | panic => rw [sfsIoTail_of_panic hnz hp, onePiece]
  · rw [if_pos hoff]
    by_cases hblk : endpos / 4096 - offset / 4096 = 0
    · rw [if_pos hblk]
      cases hp : (sfsIoPiece k buf 0 (endpos - offset) (offset / 4096) (offset % 4096)
          write).run s with
      | ok buf' t =>
        rw [bind_of_ok (attempt_of_ok hp)]
        rfl
      | error e t =>
        rw [bind_of_ok (attempt_of_error hp)]
        rfl
      | panic => rw [bind_of_panic (attempt_of_panic hp), onePiece]
    · -- the head reaches exactly the end of the block
      have hsize : 4096 - offset % 4096 = endpos - offset := by omega
      rw [if_neg hblk, hsize, show endpos / 4096 - offset / 4096 - 1 = 0 by omega]
      cases hp : (sfsIoPiece k buf 0 (endpos - offset) (offset / 4096) (offset % 4096)
          write).run s with
      | ok buf' t =>
        rw [bind_of_ok (attempt_of_ok hp)]
        dsimp only
        rw [sfsIoMiddle_zero, sfsIoTail_aligned (by omega), onePiece]
      | error e t =>
        rw [bind_of_ok (attempt_of_error hp)]
        rfl
      | panic => rw [bind_of_panic (attempt_of_panic hp), onePiece]

/-- What becomes of a transfer that is a head of `len` bytes and a tail, given how they end. -/
def twoPieces (len len' : ℕ) (buf : Bytes) (head : Outcome Errno SfsFs Bytes)
    (tail : Bytes → SfsFs → Outcome Errno SfsFs Bytes) : Outcome Errno SfsFs IoResult :=
  match head with
  | .ok buf' t =>
    match tail buf' t with
    | .ok buf'' u => .ok ⟨none, len + len', buf''⟩ u
    | .error e u => .ok ⟨some e, len, buf'⟩ u
    | .panic => .panic
  | .error e t => .ok ⟨some e, 0, buf⟩ t
  | .panic => .panic

/-- A transfer across the end of one block that contains no whole block is two pieces. -/
theorem sfsIoHead_two (hlt : blockEnd offset < endpos) (hno : NoWholeBlock offset endpos) :
    (sfsIoHead k buf offset endpos write).run s
      = twoPieces (blockEnd offset - offset) (endpos - blockEnd offset) buf
          ((sfsIoPiece k buf 0 (blockEnd offset - offset) (offset / 4096)
            (offset % 4096) write).run s)
          fun buf' t ↦ (sfsIoPiece k buf' (blockEnd offset - offset) (endpos - blockEnd offset)
            (offset / 4096 + 1) 0 write).run t := by
  rw [blockEnd] at *
  rw [NoWholeBlock] at hno
  have hoff : offset % 4096 ≠ 0 := by omega
  have hsize : 4096 - offset % 4096 = 4096 * (offset / 4096 + 1) - offset := by omega
  have hend : endpos % 4096 = endpos - 4096 * (offset / 4096 + 1) := by omega
  have hnz : endpos % 4096 ≠ 0 := by omega
  rw [sfsIoHead, sfsBlksize_eq, if_pos hoff, if_neg (by omega), hsize, ← hend,
    show endpos / 4096 - offset / 4096 - 1 = 0 by omega]
  cases hp : (sfsIoPiece k buf 0 (4096 * (offset / 4096 + 1) - offset) (offset / 4096)
      (offset % 4096) write).run s with
  | ok buf' t =>
    rw [bind_of_ok (attempt_of_ok hp)]
    dsimp only
    rw [sfsIoMiddle_zero, twoPieces]
    cases hq : (sfsIoPiece k buf' (4096 * (offset / 4096 + 1) - offset) (endpos % 4096)
        (offset / 4096 + 1) 0 write).run t with
    | ok buf'' u => rw [sfsIoTail_of_ok hnz hq]
    | error e u => rw [sfsIoTail_of_error hnz hq]
    | panic => rw [sfsIoTail_of_panic hnz hq]
  | error e t =>
    rw [bind_of_ok (attempt_of_error hp)]
    rfl
  | panic =>
    rw [bind_of_panic (attempt_of_panic hp)]
    rfl

/-- An aligned whole block is not read from where it is stored: the device block with the same
number as the logical block is. -/
theorem sfsIoBlocks_read_one (h : s.Ok) {sin : SfsInode} (hk : s.inodes k = some sin)
    (hm : s.Mapped sin.din) {i : ℕ} (hi : i < sin.din.blocks) (hi0 : i ≠ 0)
    (hlt : i < s.super.blocks) (buf : Bytes) (base : ℕ) :
    (sfsIoBlocks k buf base i 1 false).run s
      = .ok (memcpy buf base (s.dev.blk i) 0 4096) s := by
  rw [sfsIoBlocks, bind_of_ok (sfsBmapLoadNolock_lookup h hk hm hi), sfsBlockOp, if_neg (by simp),
    sfsRblock, sfsRwblock, bind_of_ok (sfsRwblockNolock_read h.toDevOk (Or.inl hi0) hlt _ _)]
  rfl

/-- Likewise for writing: the device block with the same number as the logical block is
overwritten. -/
theorem sfsIoBlocks_write_one (h : s.Ok) {sin : SfsInode} (hk : s.inodes k = some sin)
    (hm : s.Mapped sin.din) {i : ℕ} (hi : i < sin.din.blocks) (hi0 : i ≠ 0)
    (hlt : i < s.super.blocks) (buf : Bytes) (base : ℕ) :
    (sfsIoBlocks k buf base i 1 true).run s
      = .ok buf (s.setBlk i (memcpy (s.dev.blk i) 0 buf base 4096)) := by
  rw [sfsIoBlocks, bind_of_ok (sfsBmapLoadNolock_lookup h hk hm hi), sfsBlockOp, if_pos rfl,
    sfsWblock, sfsRwblock, bind_of_ok (sfsRwblockNolock_write h.toDevOk (Or.inl hi0) hlt _ _)]
  rfl

end Phases

/-! ## The checks before a transfer -/

section Start

variable {s : SfsFs} {k : ℕ} {sin : SfsInode}

theorem toOff_of_lt {n : ℕ} (h : n < 2 ^ 63) : toOff n = n :=
  Int.bmod_eq_of_le (by omega) (by omega)

/-- The checks at the top of `sfs_io_nolock`, for a transfer that passes them. -/
theorem sfsIoNolock_start (hk : s.inodes k = some sin) (htype : sin.din.type ≠ sfsTypeDir)
    (buf : Bytes) {offset len : ℕ} (write : Bool) (hpos : 0 < len)
    (hend : offset + len ≤ 4096 * 1036) :
    (sfsIoNolock k buf offset len write).run s
      = (if write = true then sfsIoSpan k buf offset (offset + len) write
        else if sin.din.size ≤ offset then return ⟨none, 0, buf⟩
        else sfsIoSpan k buf offset (min (offset + len) sin.din.size) write).run s := by
  have hoff : toOff (offset + len) = ((offset + len : ℕ) : ℤ) := by
    rw [← Nat.cast_add]
    exact toOff_of_lt (by omega)
  have hmax : min (offset + len) 134217728 = offset + len := by omega
  rw [sfsIoNolock, bind_of_ok (getSin_eq hk), assert_bind_run htype, hoff, sfsMaxFileSize_eq,
    if_neg (by omega), if_neg (by omega), Int.toNat_natCast, Int.toNat_natCast, hmax]

/-- A transfer of nothing does nothing. -/
theorem sfsIoNolock_zero (hk : s.inodes k = some sin) (htype : sin.din.type ≠ sfsTypeDir)
    (buf : Bytes) {offset : ℕ} (write : Bool) (hend : offset ≤ 4096 * 1036) :
    (sfsIoNolock k buf offset 0 write).run s = .ok ⟨none, 0, buf⟩ s := by
  have hoff : toOff (offset + (0 : ℕ)) = (offset : ℤ) := by
    rw [← Nat.cast_add]
    exact toOff_of_lt (by omega)
  rw [sfsIoNolock, bind_of_ok (getSin_eq hk), assert_bind_run htype, hoff, sfsMaxFileSize_eq,
    if_neg (by omega), if_pos rfl, run_pure]

end Start

end Ucore
