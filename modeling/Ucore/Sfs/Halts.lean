import Ucore.Sfs.FileSpec

/-!
# When a transfer stops the machine

`sfs_io_nolock` has no error path for a block number that an inode cannot have. A number beyond the
blocks of the file fails the assertion of `sfs_bmap_load_nolock`, the number 1036 behind a full map
reaches the panic of `sfs_bmap_get_nolock`, and the whole blocks of a transfer, which are moved
under their logical numbers, fail the assertion of `sfs_rwblock_nolock` when one of these is 0 or
not a block of the device. Everything else ends with a result or an error code.

## One translation

All of it comes down to one call of `sfs_bmap_load_nolock` (`sfsBmapLoadNolock_cases`). It stops, or
it fails because the device has too few blocks, or the inode has the block afterwards. In the last
case the block map is in order again (`SfsFs.Reaches`), and what the growth of the file still costs
is accounted for by `SfsFs.growCost`, so that the next phase can be looked at in the same way.

## Reads and writes

A read asks for blocks that the file has and changes nothing. It stops exactly when it moves block 0
as a whole (`sfsIoNolock_read_panic_iff`). A write can append. Its whole blocks land in other places
of the device than the file, and as long as the indirect block of the file is none of these places
the map stays in order; then the conditions before the call say whether it stops
(`sfsIoNolock_write_panic_iff`).
-/

namespace Ucore

open Bytes Prog

/-! ## One translation -/

section Load

variable {s t : SfsFs} {k j : ℕ} {sin sin' : SfsInode}

/-- What a translation of block `j` leaves: inode `k` has that block, and its map is in order. -/
structure SfsFs.Reaches (s : SfsFs) (k : ℕ) (sin : SfsInode) (j : ℕ) (t : SfsFs)
    (sin' : SfsInode) : Prop where
  fileOk : t.FileOk k sin'
  blocks : sin'.din.blocks = max sin.din.blocks (j + 1)
  growCost : ∀ n, sin'.din.blocks ≤ n →
    t.freemap.freeCount + SfsFs.growCost sin.din n = s.freemap.freeCount + SfsFs.growCost sin'.din n
  super : t.super.blocks = s.super.blocks
  /-- An indirect block is only added for a block behind the direct ones. -/
  indirect : sin'.din.indirect = sin.din.indirect ∨ sin.din.indirect = 0 ∧ 12 ≤ j

theorem SfsFs.FileOk.reaches_refl (h : s.FileOk k sin) (hj : j < sin.din.blocks) :
    s.Reaches k sin j s sin :=
  ⟨h, by omega, fun _ _ ↦ rfl, rfl, .inl rfl⟩

theorem SfsFs.Appended.reaches {b : ℕ} (ha : s.Appended k sin b t sin') (h : s.FileOk k sin) :
    s.Reaches k sin sin.din.blocks t sin' where
  fileOk := h.appended ha
  blocks := by rw [ha.blocks, max_eq_right (Nat.le_succ _)]
  growCost _ hn := ha.growCost hn
  super := by rw [ha.super]
  indirect := by
    rcases ha.indirect with ⟨hind, -⟩ | ⟨hzero, h12, -⟩
    · exact .inl hind
    · exact .inr ⟨hzero, h12⟩

/-- The map of a file survives a store to any block but its indirect block. -/
theorem SfsFs.FileOk.setBlk (h : s.FileOk k sin) {n : ℕ} (hn : n ≠ sin.din.indirect) (c : Bytes) :
    (s.setBlk n c).FileOk k sin :=
  ⟨h.ok.setBlk _ _, h.tail, h.cached, h.mapped.setBlk hn c⟩

theorem SfsFs.Reaches.setBlk (h : s.Reaches k sin j t sin') {n : ℕ} (hn : n ≠ sin'.din.indirect)
    (c : Bytes) : s.Reaches k sin j (t.setBlk n c) sin' :=
  ⟨h.fileOk.setBlk hn c, h.blocks, h.growCost, h.super, h.indirect⟩

theorem SfsFs.growCost_succ (din : SfsDiskInode) :
    SfsFs.growCost din (din.blocks + 1) = appendCost din := by
  rw [SfsFs.growCost, appendCost]
  split_ifs <;> omega

/-- An append takes as many blocks as it needs. -/
theorem SfsFs.Appended.cost {b : ℕ} (ha : s.Appended k sin b t sin') (h : s.FileOk k sin) :
    appendCost sin.din ≤ s.freemap.freeCount := by
  have hm := ha.mapped h.mapped
  have hblocks := ha.blocks
  rw [appendCost]
  rcases ha.indirect with ⟨hind, hcount⟩ | ⟨hzero, h12, -, -, -, -, hcount⟩
  · rw [if_neg, ← hcount]
    · exact Nat.le_add_left _ _
    · rintro ⟨h12, h0⟩
      exact hm.indirect_ne_zero (by omega) (hind.trans h0)
  · rw [if_pos ⟨h12, hzero⟩, ← hcount]
    exact Nat.le_add_left _ _

/-- A translation of block `j` stops the machine when the inode cannot have that block yet, or not
at all; it fails when the device is full, and otherwise the inode has the block. -/
theorem sfsBmapLoadNolock_cases (h : s.FileOk k sin) (j : ℕ) :
    ((sfsBmapLoadNolock k j).run s = .panic ∧ (sin.din.blocks < j ∨ 1036 ≤ j)) ∨
    (j ≤ sin.din.blocks ∧ j < 1036 ∧ SfsFs.growCost sin.din (j + 1) ≤ s.freemap.freeCount ∧
      ∃ t sin', (sfsBmapLoadNolock k j).run s = .ok (t.bmap sin'.din j) t ∧
        s.Reaches k sin j t sin') ∨
    (j ≤ sin.din.blocks ∧ j < 1036 ∧ s.freemap.freeCount < SfsFs.growCost sin.din (j + 1) ∧
      ∃ e t, (sfsBmapLoadNolock k j).run s = .error e t ∧ t.inodes k = some sin) := by
  have hle := h.mapped.blocks_le
  rcases lt_trichotomy j sin.din.blocks with hj | rfl | hj
  · refine .inr (.inl ⟨hj.le, by omega, ?_, s, sin, ?_, h.reaches_refl hj⟩)
    · rw [SfsFs.growCost_of_le h.mapped hj]
      exact Nat.zero_le _
    · exact sfsBmapLoadNolock_lookup h.ok h.cached h.mapped hj
  · by_cases hlt : sin.din.blocks < 1036
    · rw [SfsFs.growCost_succ]
      rcases sfsBmapLoadNolock_append h.ok h.cached h.mapped h.tail.zero hlt with
        ⟨b, t, sin', happ, hload⟩ | ⟨t, hno, hfull, hload⟩ | ⟨htail, -⟩
      · refine .inr (.inl ⟨le_rfl, hlt, happ.cost h, t, sin', ?_, happ.reaches h⟩)
        rw [happ.bmap_last, hload]
      · exact .inr (.inr ⟨le_rfl, hlt, hfull, _, t, hload, by rw [hno.inodes]; exact h.cached⟩)
      · exact absurd h.tail htail
    · have hfull : 1036 ≤ sin.din.blocks := not_lt.mp hlt
      exact .inl ⟨sfsBmapLoadNolock_panic_of_full h.cached hfull (le_refl _), .inr hfull⟩
  · exact .inl ⟨sfsBmapLoadNolock_panic_of_gt h.cached hj, .inl hj⟩

/-- The same for a piece of block `j` that is written. -/
theorem sfsIoPiece_write_cases (h : s.FileOk k sin) (buf : Bytes) (base j : ℕ) {off len : ℕ}
    (hlen : 0 < len) (hoff : off + len ≤ 4096) :
    ((sfsIoPiece k buf base len j off true).run s = .panic ∧ (sin.din.blocks < j ∨ 1036 ≤ j)) ∨
    (j ≤ sin.din.blocks ∧ j < 1036 ∧ SfsFs.growCost sin.din (j + 1) ≤ s.freemap.freeCount ∧
      ∃ t sin', (sfsIoPiece k buf base len j off true).run s = .ok buf t ∧
        s.Reaches k sin j t sin') ∨
    (j ≤ sin.din.blocks ∧ j < 1036 ∧ s.freemap.freeCount < SfsFs.growCost sin.din (j + 1) ∧
      ∃ e t, (sfsIoPiece k buf base len j off true).run s = .error e t ∧
        t.inodes k = some sin) := by
  rcases sfsBmapLoadNolock_cases h j with
    ⟨hload, hfar⟩ | ⟨hj, hlt, hroom, t, sin', hload, hr⟩ | ⟨hj, hlt, hfull, e, t, hload, hk⟩
  · refine .inl ⟨?_, hfar⟩
    rw [sfsIoPiece, bind_of_panic hload]
  · have hin : j < sin'.din.blocks := by
      have hblocks := hr.blocks
      omega
    have hused := hr.fileOk.mapped.used j hin
    refine .inr (.inl ⟨hj, hlt, hroom, _, sin', ?_,
      hr.setBlk (hr.fileOk.mapped.ne_indirect j hin)
        (memcpy (t.dev.blk (t.bmap sin'.din j)) off buf base len)⟩)
    rw [sfsIoPiece, bind_of_ok hload, sfsBufOp, if_pos rfl,
      sfsWbuf_eq hr.fileOk.ok.toDevOk hused.1 hused.2.1 _ _ (by omega) hoff]
  · refine .inr (.inr ⟨hj, hlt, hfull, e, t, ?_, hk⟩)
    rw [sfsIoPiece, bind_of_error hload]

end Load

/-! ## Reads -/

section Read

variable {s : SfsFs} {k offset endpos : ℕ} {sin : SfsInode}

/-- The blocks of a file are different blocks of the device, and block 0 is none of them. -/
theorem SfsFs.FileOk.lt_super (h : s.FileOk k sin) {i : ℕ} (hi : i < sin.din.blocks) :
    i + 1 < s.super.blocks := by
  have hcard : (Finset.range sin.din.blocks).card ≤ (Finset.Ico 1 s.super.blocks).card := by
    refine Finset.card_le_card_of_injOn (s.bmap sin.din) (fun j hj ↦ ?_) fun j hj j' hj' heq ↦ ?_
    · have hused := h.mapped.used j (Finset.mem_range.mp hj)
      exact Finset.mem_coe.mpr (Finset.mem_Ico.mpr ⟨Nat.pos_of_ne_zero hused.1, hused.2.1⟩)
    · exact h.mapped.inj j (Finset.mem_range.mp hj) j' (Finset.mem_range.mp hj') heq
  rw [Finset.card_range, Nat.card_Ico] at hcard
  omega

/-- Reading consecutive blocks of the device. -/
theorem sfsRwblock_read (h : s.Ok) (buf : Bytes) (base : ℕ) {blkno n : ℕ} (hne : blkno ≠ 0)
    (hle : blkno + n ≤ s.super.blocks) :
    ∃ buf', (sfsRwblock buf base blkno n false).run s = .ok buf' s := by
  induction n generalizing buf base blkno with
  | zero => exact ⟨buf, rfl⟩
  | succ n ih =>
    obtain ⟨buf', hrun⟩ := ih (memcpy buf base (s.dev.blk blkno) 0 4096) (base + sfsBlksize)
      (Nat.succ_ne_zero blkno) (by omega)
    refine ⟨buf', ?_⟩
    rw [sfsRwblock, bind_of_ok (sfsRwblockNolock_read h.toDevOk (.inl hne) (by omega) _ _), hrun]

theorem sfsIoTail_read (h : s.FileOk k sin) (buf : Bytes) (alen : ℕ) {blkno : ℕ}
    (hlt : endpos % 4096 ≠ 0 → blkno < sin.din.blocks) :
    ∃ r, (sfsIoTail k buf alen blkno endpos false).run s = .ok r s := by
  by_cases hend : endpos % 4096 = 0
  · exact ⟨_, sfsIoTail_aligned hend⟩
  · have hpiece := sfsIoPiece_read h buf alen (hlt hend) (Nat.pos_of_ne_zero hend)
      (show 0 + endpos % 4096 ≤ 4096 by omega)
    exact ⟨_, sfsIoTail_of_ok hend hpiece⟩

/-- Whole blocks are read from the device blocks with the same numbers, which are there. -/
theorem sfsIoMiddle_read (h : s.FileOk k sin) (buf : Bytes) (alen : ℕ) {blkno n : ℕ}
    (hsum : blkno + n = endpos / 4096) (hend : endpos ≤ 4096 * sin.din.blocks) :
    if 0 < n ∧ blkno = 0 then (sfsIoMiddle k buf alen blkno n endpos false).run s = .panic
    else ∃ r, (sfsIoMiddle k buf alen blkno n endpos false).run s = .ok r s := by
  by_cases hpos : 0 < n
  · have hload := sfsBmapLoadNolock_lookup h.ok h.cached h.mapped
      (show blkno < sin.din.blocks by omega)
    by_cases hzero : blkno = 0
    · rw [if_pos ⟨hpos, hzero⟩]
      obtain ⟨m, rfl⟩ : ∃ m, n = m + 1 := ⟨n - 1, by omega⟩
      have hstop : (sfsIoBlocks k buf alen blkno (m + 1) false).run s = .panic := by
        rw [sfsIoBlocks, bind_of_ok hload, sfsBlockOp, if_neg (by simp), sfsRblock, sfsRwblock,
          bind_of_panic (sfsRwblockNolock_panic (.inl ⟨hzero, rfl⟩))]
      rw [sfsIoMiddle, if_pos hpos, bind_of_panic (attempt_of_panic hstop)]
    · rw [if_neg fun hc ↦ hzero hc.2]
      have hlast := h.lt_super (show blkno + (n - 1) < sin.din.blocks by omega)
      obtain ⟨buf', hrun⟩ := sfsRwblock_read h.ok buf alen hzero
        (show blkno + n ≤ s.super.blocks by omega)
      have hblocks : (sfsIoBlocks k buf alen blkno n false).run s = .ok buf' s := by
        rw [sfsIoBlocks, bind_of_ok hload, sfsBlockOp, if_neg (by simp), sfsRblock, hrun]
      rw [sfsIoMiddle_of_ok hpos hblocks]
      exact sfsIoTail_read h _ _ (fun _ ↦ by omega)
  · have hn : n = 0 := by omega
    rw [if_neg fun hc ↦ hpos hc.1, hn, sfsIoMiddle_zero]
    exact sfsIoTail_read h _ _ (fun _ ↦ by omega)

theorem sfsIoHead_read_cases (h : s.FileOk k sin) (buf : Bytes) (hlt : offset < endpos)
    (hend : endpos ≤ 4096 * sin.din.blocks) :
    if offset = 0 ∧ 4096 ≤ endpos then (sfsIoHead k buf offset endpos false).run s = .panic
    else ∃ r, (sfsIoHead k buf offset endpos false).run s = .ok r s := by
  rw [sfsIoHead, sfsBlksize_eq]
  by_cases hoff : offset % 4096 ≠ 0
  · have hblk : offset / 4096 < sin.din.blocks := by omega
    rw [if_neg (by omega), if_pos hoff]
    by_cases hsame : endpos / 4096 - offset / 4096 = 0
    · have hpiece := sfsIoPiece_read h buf 0 hblk (show 0 < endpos - offset by omega)
        (show offset % 4096 + (endpos - offset) ≤ 4096 by omega)
      rw [if_pos hsame, bind_of_ok (attempt_of_ok hpiece)]
      exact ⟨_, rfl⟩
    · have hpiece := sfsIoPiece_read h buf 0 hblk (show 0 < 4096 - offset % 4096 by omega)
        (show offset % 4096 + (4096 - offset % 4096) ≤ 4096 by omega)
      rw [if_neg hsame, bind_of_ok (attempt_of_ok hpiece)]
      have hmiddle := sfsIoMiddle_read h
        (memcpy buf 0 (s.fileByte sin.din) (4096 * (offset / 4096) + offset % 4096)
          (4096 - offset % 4096)) (4096 - offset % 4096)
        (show offset / 4096 + 1 + (endpos / 4096 - offset / 4096 - 1) = endpos / 4096 by omega) hend
      rwa [if_neg (by omega)] at hmiddle
  · rw [if_neg hoff]
    have hmiddle := sfsIoMiddle_read h buf 0
      (show offset / 4096 + (endpos / 4096 - offset / 4096) = endpos / 4096 by omega) hend
    by_cases hfirst : offset = 0 ∧ 4096 ≤ endpos
    · rw [if_pos hfirst]
      rwa [if_pos (by omega)] at hmiddle
    · rw [if_neg hfirst]
      rwa [if_neg (by omega)] at hmiddle

/-- The label `out` has a result for whatever was transferred. -/
theorem sfsIoOut_ok {t : SfsFs} {sin' : SfsInode} (hk : t.inodes k = some sin') (offset : ℕ)
    (r : IoResult) : ∃ u, (sfsIoOut k offset r).run t = .ok r u := by
  rw [sfsIoOut, bind_of_ok (getSin_eq hk)]
  by_cases hgrow : sin'.din.size < offset + r.alen
  · rw [if_pos hgrow]
    exact ⟨_, rfl⟩
  · rw [if_neg hgrow]
    exact ⟨_, rfl⟩

/-- A read stops the machine exactly when it moves the first block of the file as a whole. -/
theorem sfsIoNolock_read_panic_iff (h : s.FileOk k sin) (htype : sin.din.type ≠ sfsTypeDir)
    (hsize : sin.din.size ≤ 4096 * sin.din.blocks) (buf : Bytes) (offset : ℤ) (alen : ℕ) :
    (sfsIoNolock k buf offset alen false).run s = .panic ↔
      offset = 0 ∧ 4096 ≤ min (ioEnd offset alen) sin.din.size := by
  rw [sfsIoNolock, bind_of_ok (getSin_eq h.cached), assert_bind_run htype, ioEnd, sfsMaxFileSize_eq]
  by_cases hbad : offset < 0 ∨ ((134217728 : ℕ) : ℤ) ≤ offset ∨ toOff (offset + alen) < offset
  · rw [if_pos hbad, run_pure]
    exact ⟨fun hc ↦ (Outcome.ok_ne_panic hc).elim, fun hc ↦ by omega⟩
  rw [if_neg hbad]
  by_cases hzero : offset = toOff (offset + alen)
  · rw [if_pos hzero, run_pure]
    exact ⟨fun hc ↦ (Outcome.ok_ne_panic hc).elim, fun hc ↦ by omega⟩
  rw [if_neg hzero, if_neg (by simp)]
  by_cases hpast : sin.din.size ≤ offset.toNat
  · rw [if_pos hpast, run_pure]
    exact ⟨fun hc ↦ (Outcome.ok_ne_panic hc).elim, fun hc ↦ by omega⟩
  rw [if_neg hpast, sfsIoSpan]
  have hhead := sfsIoHead_read_cases h buf
    (show offset.toNat < min (min (toOff (offset + alen)).toNat 134217728) sin.din.size by omega)
    ((min_le_right _ _).trans hsize)
  by_cases hfirst : offset = 0 ∧
      4096 ≤ min (min (toOff (offset + alen)).toNat 134217728) sin.din.size
  · rw [if_pos ⟨by omega, hfirst.2⟩] at hhead
    rw [bind_of_panic hhead]
    exact ⟨fun _ ↦ hfirst, fun _ ↦ rfl⟩
  · rw [if_neg (by omega)] at hhead
    obtain ⟨r, hrun⟩ := hhead
    obtain ⟨u, hout⟩ := sfsIoOut_ok h.cached offset.toNat r
    rw [bind_of_ok hrun, hout]
    exact ⟨fun hc ↦ (Outcome.ok_ne_panic hc).elim, fun hc ↦ (hfirst hc).elim⟩

end Read

/-! ## Writes -/

/-- The number of the first aligned block at or behind an offset. -/
def firstWhole (offset : ℕ) : ℕ := (offset + 4095) / 4096

/-- The whole blocks of a write, which land on the device blocks with their logical numbers, leave
alone the indirect block that the tail is looked up in. -/
def SparesIndirect (din : SfsDiskInode) (offset endpos : ℕ) : Prop :=
  NoWholeBlock offset endpos ∨ endpos % 4096 = 0 ∨
    if din.indirect = 0 then firstWhole offset < 12
    else din.indirect < firstWhole offset ∨ endpos / 4096 ≤ din.indirect

/-- A write from `offset` to `endpos` comes to a block number that stops the machine: the file does
not reach up to the offset; or the transfer goes beyond a map that the device can fill up; or it has
whole blocks and gets to them, and one of these is not a block of the device, or the tail behind
them is not the next block of the file. -/
def SfsFs.WriteStops (s : SfsFs) (din : SfsDiskInode) (offset endpos : ℕ) : Prop :=
  din.blocks < offset / 4096 ∨
    if NoWholeBlock offset endpos then
      4096 * 1036 < endpos ∧ SfsFs.growCost din 1036 ≤ s.freemap.freeCount
    else
      SfsFs.growCost din (min (firstWhole offset + 1) 1036) ≤ s.freemap.freeCount ∧
        (1036 ≤ firstWhole offset ∨ firstWhole offset = 0 ∨ s.super.blocks < endpos / 4096 ∨
          endpos % 4096 ≠ 0 ∧
            (max din.blocks (firstWhole offset + 1) < endpos / 4096 ∨ 1036 ≤ endpos / 4096))

instance (s : SfsFs) (din : SfsDiskInode) (offset endpos : ℕ) :
    Decidable (s.WriteStops din offset endpos) :=
  inferInstanceAs (Decidable (_ ∨ ite _ _ _))

section Write

variable {s : SfsFs} {k offset endpos : ℕ} {sin : SfsInode}

/-- Writing consecutive blocks of the device. A file that does not look its map up in them keeps
it. -/
theorem sfsRwblock_write (h : s.Ok) (k : ℕ) (sin : SfsInode) (buf : Bytes) (base : ℕ) {blkno n : ℕ}
    (hne : blkno ≠ 0) (hle : blkno + n ≤ s.super.blocks) :
    ∃ t, (sfsRwblock buf base blkno n true).run s = .ok buf t ∧ t.inodes = s.inodes ∧
      ((∀ i, blkno ≤ i → i < blkno + n → i ≠ sin.din.indirect) → s.FileOk k sin →
        t.FileOk k sin) := by
  induction n generalizing s base blkno with
  | zero => exact ⟨s, rfl, rfl, fun _ hok ↦ hok⟩
  | succ n ih =>
    obtain ⟨t, hrun, hinodes, hok⟩ :=
      ih (s := s.setBlk blkno (memcpy (s.dev.blk blkno) 0 buf base 4096)) (h.setBlk _ _)
        (base + sfsBlksize) (Nat.succ_ne_zero blkno)
        (show blkno + 1 + n ≤ s.super.blocks by omega)
    refine ⟨t, ?_, hinodes, fun hkeep hs ↦ ?_⟩
    · rw [sfsRwblock, bind_of_ok (sfsRwblockNolock_write h.toDevOk (.inl hne) (by omega) _ _), hrun]
    · exact hok (fun i hi hlt ↦ hkeep i (by omega) (by omega))
        (hs.setBlk (hkeep blkno le_rfl (by omega)) _)

/-- Block 0, or a number that the device does not have, stops the machine. -/
theorem sfsRwblock_write_panic (h : s.Ok) (buf : Bytes) (base : ℕ) {blkno n : ℕ} (hpos : 0 < n)
    (hbad : blkno = 0 ∨ s.super.blocks < blkno + n) :
    (sfsRwblock buf base blkno n true).run s = .panic := by
  induction n generalizing s base blkno with
  | zero => exact absurd hpos (lt_irrefl 0)
  | succ n ih =>
    rw [sfsRwblock]
    by_cases hstop : blkno = 0 ∨ s.super.blocks ≤ blkno
    · rw [bind_of_panic (sfsRwblockNolock_panic (hstop.imp (fun hz ↦ ⟨hz, rfl⟩) id))]
    · rw [not_or, not_le] at hstop
      rw [bind_of_ok (sfsRwblockNolock_write h.toDevOk (.inl hstop.1) hstop.2 _ _)]
      exact ih (h.setBlk _ _) _ (by omega) (.inr (show s.super.blocks < blkno + 1 + n by omega))

theorem sfsIoTail_write_cases (h : s.FileOk k sin) (buf : Bytes) (alen blkno endpos : ℕ) :
    if endpos % 4096 ≠ 0 ∧ (sin.din.blocks < blkno ∨ 1036 ≤ blkno) then
      (sfsIoTail k buf alen blkno endpos true).run s = .panic
    else ∃ r t sin', (sfsIoTail k buf alen blkno endpos true).run s = .ok r t ∧
      t.inodes k = some sin' := by
  by_cases hend : endpos % 4096 = 0
  · rw [if_neg fun hc ↦ hc.1 hend]
    exact ⟨_, s, sin, sfsIoTail_aligned hend, h.cached⟩
  rcases sfsIoPiece_write_cases h buf alen blkno (Nat.pos_of_ne_zero hend)
      (show 0 + endpos % 4096 ≤ 4096 by omega) with
    ⟨hpiece, hfar⟩ | ⟨hle, hlt, -, t, sin', hpiece, hr⟩ | ⟨hle, hlt, -, e, t, hpiece, hk⟩
  · rw [if_pos ⟨hend, hfar⟩]
    exact sfsIoTail_of_panic hend hpiece
  · rw [if_neg (by omega)]
    exact ⟨_, t, sin', sfsIoTail_of_ok hend hpiece, hr.fileOk.cached⟩
  · rw [if_neg (by omega)]
    exact ⟨_, t, sin, sfsIoTail_of_error hend hpiece, hk⟩

/-- The whole blocks and the tail behind them. -/
theorem sfsIoMiddle_write_cases (h : s.FileOk k sin) (buf : Bytes) (alen : ℕ) {blkno n : ℕ}
    (hpos : 0 < n) (hkeep : endpos % 4096 ≠ 0 →
      if sin.din.indirect = 0 then blkno < 12
      else sin.din.indirect < blkno ∨ blkno + n ≤ sin.din.indirect) :
    if sin.din.blocks < blkno ∨
        SfsFs.growCost sin.din (min (blkno + 1) 1036) ≤ s.freemap.freeCount ∧
          (1036 ≤ blkno ∨ blkno = 0 ∨ s.super.blocks < blkno + n ∨
            endpos % 4096 ≠ 0 ∧ (max sin.din.blocks (blkno + 1) < blkno + n ∨ 1036 ≤ blkno + n))
    then (sfsIoMiddle k buf alen blkno n endpos true).run s = .panic
    else ∃ r t sin', (sfsIoMiddle k buf alen blkno n endpos true).run s = .ok r t ∧
      t.inodes k = some sin' := by
  have hle := h.mapped.blocks_le
  have hstops : (sfsIoBlocks k buf alen blkno n true).run s = .panic →
      (sfsIoMiddle k buf alen blkno n endpos true).run s = .panic := fun hb ↦ by
    rw [sfsIoMiddle, if_pos hpos, bind_of_panic (attempt_of_panic hb)]
  -- the first whole block is looked up in the map; it can be out of reach, there, or not to be had
  rcases sfsBmapLoadNolock_cases h blkno with
    ⟨hload, hfar⟩ | ⟨hb, hlt, hroom, t, sin', hload, hr⟩ | ⟨hb, hlt, hfull, e, t, hload, hk⟩
  · rw [if_pos]
    · exact hstops (by rw [sfsIoBlocks, bind_of_panic hload])
    · rcases hfar with hfar | hfar
      · exact .inl hfar
      · rcases hle.lt_or_eq with hlt | heq
        · exact .inl (by omega)
        · refine .inr ⟨?_, .inl hfar⟩
          rw [SfsFs.growCost_of_le h.mapped (by omega)]
          exact Nat.zero_le _
  · have hsuper := hr.super
    have hblocks := hr.blocks
    -- the logical number is taken for one of the device, which must not be 0 or behind the end
    by_cases hbad : blkno = 0 ∨ t.super.blocks < blkno + n
    · rw [if_pos (.inr ⟨by rwa [min_eq_left (by omega)], by omega⟩)]
      refine hstops ?_
      rw [sfsIoBlocks, bind_of_ok hload, sfsBlockOp, if_pos rfl, sfsWblock,
        sfsRwblock_write_panic hr.fileOk.ok buf alen hpos hbad]
    rw [not_or, not_lt] at hbad
    obtain ⟨u, hrun, hinodes, hok⟩ :=
      sfsRwblock_write hr.fileOk.ok k sin' buf alen hbad.1 hbad.2
    have hwritten : (sfsIoBlocks k buf alen blkno n true).run s = .ok buf u := by
      rw [sfsIoBlocks, bind_of_ok hload, sfsBlockOp, if_pos rfl, sfsWblock, hrun]
    rw [sfsIoMiddle_of_ok hpos hwritten]
    by_cases hend : endpos % 4096 = 0
    · rw [if_neg (by omega), sfsIoTail_aligned hend]
      exact ⟨_, u, sin', rfl, by rw [hinodes]; exact hr.fileOk.cached⟩
    · -- the map is in order again, with the blocks that the first translation has left
      have hspared : ∀ i, blkno ≤ i → i < blkno + n → i ≠ sin'.din.indirect := by
        intro i hi hi'
        have hk := hkeep hend
        rcases hr.indirect with hind | ⟨hzero, h12⟩
        · rw [hind]
          split at hk
          · omega
          · omega
        · rw [if_pos hzero] at hk
          omega
      have htail := sfsIoTail_write_cases (hok hspared hr.fileOk) buf (alen + n * 4096)
        (blkno + n) endpos
      by_cases hstop : sin'.din.blocks < blkno + n ∨ 1036 ≤ blkno + n
      · rw [if_pos ⟨hend, hstop⟩] at htail
        rwa [if_pos (.inr ⟨by rwa [min_eq_left (by omega)], .inr (.inr (.inr ⟨hend, by omega⟩))⟩)]
      · rw [if_neg fun hc ↦ hstop hc.2] at htail
        rwa [if_neg (by omega)]
  · rw [if_neg (by rw [min_eq_left (by omega)]; omega)]
    have hfail : (sfsIoBlocks k buf alen blkno n true).run s = .error e t := by
      rw [sfsIoBlocks, bind_of_error hload]
    rw [sfsIoMiddle, if_pos hpos, bind_of_ok (attempt_of_error hfail)]
    exact ⟨_, t, sin, rfl, hk⟩

/-- A write without whole blocks is one piece or two. -/
theorem sfsIoHead_write_pieces (h : s.FileOk k sin) (buf : Bytes) (hlt : offset < endpos)
    (hno : NoWholeBlock offset endpos) :
    if s.WriteStops sin.din offset endpos then
      (sfsIoHead k buf offset endpos true).run s = .panic
    else ∃ r t sin', (sfsIoHead k buf offset endpos true).run s = .ok r t ∧
      t.inodes k = some sin' := by
  have hle := h.mapped.blocks_le
  have hwhole := hno
  rw [NoWholeBlock] at hwhole
  have hend : blockEnd offset = 4096 * (offset / 4096 + 1) := rfl
  simp only [SfsFs.WriteStops, if_pos hno]
  -- a map that is full has room for what is in it
  have hfull : 1036 ≤ offset / 4096 → offset / 4096 ≤ sin.din.blocks →
      4096 * 1036 < endpos ∧ SfsFs.growCost sin.din 1036 ≤ s.freemap.freeCount := by
    intro hge hin
    rw [SfsFs.growCost_of_le h.mapped (by omega)]
    omega
  rcases le_or_gt endpos (blockEnd offset) with hone | htwo
  · rw [sfsIoHead_one hlt hone hno]
    rcases sfsIoPiece_write_cases h buf 0 (offset / 4096) (show 0 < endpos - offset by omega)
        (show offset % 4096 + (endpos - offset) ≤ 4096 by omega) with
      ⟨hpiece, hfar⟩ | ⟨hin, hmap, -, t, sin', hpiece, hr⟩ | ⟨hin, hmap, -, e, t, hpiece, hk⟩
    · rw [hpiece, if_pos (by omega), onePiece]
    · rw [hpiece, if_neg (by omega)]
      exact ⟨_, t, sin', rfl, hr.fileOk.cached⟩
    · rw [hpiece, if_neg (by omega)]
      exact ⟨_, t, sin, rfl, hk⟩
  · rw [sfsIoHead_two htwo hno]
    rcases sfsIoPiece_write_cases h buf 0 (offset / 4096)
        (show 0 < blockEnd offset - offset by omega)
        (show offset % 4096 + (blockEnd offset - offset) ≤ 4096 by omega) with
      ⟨hpiece, hfar⟩ | ⟨hin, hmap, -, t, sin₁, hpiece, hr⟩ | ⟨hin, hmap, hshort, e, t, hpiece, hk⟩
    · rw [hpiece, if_pos (by omega), twoPieces]
    · -- the second piece is in the block behind the first, which the file can have now
      have hblocks := hr.blocks
      have hcost := hr.growCost 1036 hr.fileOk.mapped.blocks_le
      rw [hpiece, twoPieces]
      rcases sfsIoPiece_write_cases hr.fileOk buf (blockEnd offset - offset) (offset / 4096 + 1)
          (show 0 < endpos - blockEnd offset by omega)
          (show 0 + (endpos - blockEnd offset) ≤ 4096 by omega) with
        ⟨hnext, hfar⟩ | ⟨-, hmap', -, u, sin₂, hnext, hr'⟩ | ⟨-, hmap', -, e, u, hnext, hk⟩
      · have hlast : 1036 ≤ offset / 4096 + 1 := by omega
        rw [SfsFs.growCost_of_le hr.fileOk.mapped (by omega)] at hcost
        rw [hnext, if_pos (by omega)]
      · rw [hnext, if_neg (by omega)]
        exact ⟨_, u, sin₂, rfl, hr'.fileOk.cached⟩
      · rw [hnext, if_neg (by omega)]
        exact ⟨_, u, sin₁, rfl, hk⟩
    · have hmono : SfsFs.growCost sin.din (offset / 4096 + 1) ≤ SfsFs.growCost sin.din 1036 :=
        SfsFs.growCost_mono _ (by omega)
      rw [hpiece, twoPieces, if_neg (by omega)]
      exact ⟨_, t, sin, rfl, hk⟩

/-- A write with whole blocks: the head, if there is one, and then the rest. -/
theorem sfsIoHead_write_whole (h : s.FileOk k sin) (buf : Bytes)
    (hno : ¬NoWholeBlock offset endpos) (hspare : SparesIndirect sin.din offset endpos) :
    if s.WriteStops sin.din offset endpos then
      (sfsIoHead k buf offset endpos true).run s = .panic
    else ∃ r t sin', (sfsIoHead k buf offset endpos true).run s = .ok r t ∧
      t.inodes k = some sin' := by
  have hle := h.mapped.blocks_le
  have hkeep : endpos % 4096 ≠ 0 → if sin.din.indirect = 0 then firstWhole offset < 12
      else sin.din.indirect < firstWhole offset ∨ endpos / 4096 ≤ sin.din.indirect := fun hend ↦
    (hspare.resolve_left hno).resolve_left hend
  simp only [SfsFs.WriteStops, if_neg hno]
  rw [NoWholeBlock] at hno
  have hfirst : firstWhole offset = (offset + 4095) / 4096 := rfl
  rw [sfsIoHead, sfsBlksize_eq]
  by_cases hoff : offset % 4096 ≠ 0
  · have hwhole : firstWhole offset = offset / 4096 + 1 := by omega
    have hsum : offset / 4096 + 1 + (endpos / 4096 - offset / 4096 - 1) = endpos / 4096 := by omega
    rw [hwhole, if_pos hoff, if_neg (show ¬endpos / 4096 - offset / 4096 = 0 by omega)]
    rw [hwhole] at hkeep
    rcases sfsIoPiece_write_cases h buf 0 (offset / 4096)
        (show 0 < 4096 - offset % 4096 by omega)
        (show offset % 4096 + (4096 - offset % 4096) ≤ 4096 by omega) with
      ⟨hpiece, hfar⟩ | ⟨hin, hmap, -, t, sin₁, hpiece, hr⟩ | ⟨hin, hmap, hshort, e, t, hpiece, hk⟩
    · have hstops : sin.din.blocks < offset / 4096 ∨ 1036 ≤ offset / 4096 ∧
          SfsFs.growCost sin.din (min (offset / 4096 + 1 + 1) 1036) ≤ s.freemap.freeCount := by
        by_cases hin : sin.din.blocks < offset / 4096
        · exact .inl hin
        · rw [SfsFs.growCost_of_le h.mapped (by omega)]
          exact .inr ⟨by omega, Nat.zero_le _⟩
      rw [bind_of_panic (attempt_of_panic hpiece), if_pos (by omega)]
    -- behind the head the number of blocks needed in all is the same
    · have hblocks := hr.blocks
      have hsuper := hr.super
      have hcost : SfsFs.growCost sin₁.din (min (offset / 4096 + 1 + 1) 1036) ≤
            t.freemap.freeCount ↔
          SfsFs.growCost sin.din (min (offset / 4096 + 1 + 1) 1036) ≤ s.freemap.freeCount := by
        by_cases hbeyond : sin₁.din.blocks ≤ min (offset / 4096 + 1 + 1) 1036
        · have hsame := hr.growCost _ hbeyond
          omega
        · rw [SfsFs.growCost_of_le hr.fileOk.mapped (by omega),
            SfsFs.growCost_of_le h.mapped (by omega)]
          simp
      have hspared : endpos % 4096 ≠ 0 → if sin₁.din.indirect = 0 then offset / 4096 + 1 < 12
          else sin₁.din.indirect < offset / 4096 + 1 ∨
            offset / 4096 + 1 + (endpos / 4096 - offset / 4096 - 1) ≤ sin₁.din.indirect := by
        intro hend
        have hk := hkeep hend
        rcases hr.indirect with hind | ⟨hzero, h12⟩
        · rwa [hind, hsum]
        · rw [if_pos hzero] at hk
          omega
      have hmiddle := sfsIoMiddle_write_cases hr.fileOk buf (4096 - offset % 4096)
        (show 0 < endpos / 4096 - offset / 4096 - 1 by omega) hspared
      have hmax : max sin₁.din.blocks (offset / 4096 + 1 + 1) =
          max sin.din.blocks (offset / 4096 + 1 + 1) := by omega
      have hnot : ¬sin₁.din.blocks < offset / 4096 + 1 := by omega
      have hnot' : ¬sin.din.blocks < offset / 4096 := by omega
      rw [bind_of_ok (attempt_of_ok hpiece)]
      simp only [hcost, hsum, hmax, hsuper, hnot, false_or] at hmiddle
      simp only [hnot', false_or]
      exact hmiddle
    · have hmono : SfsFs.growCost sin.din (offset / 4096 + 1) ≤
          SfsFs.growCost sin.din (min (offset / 4096 + 1 + 1) 1036) :=
        SfsFs.growCost_mono _ (by omega)
      rw [bind_of_ok (attempt_of_error hpiece), if_neg (by omega)]
      exact ⟨_, t, sin, rfl, hk⟩
  · have hwhole : firstWhole offset = offset / 4096 := by omega
    have hsum : offset / 4096 + (endpos / 4096 - offset / 4096) = endpos / 4096 := by omega
    rw [hwhole] at hkeep
    have hmiddle := sfsIoMiddle_write_cases h buf 0
      (show 0 < endpos / 4096 - offset / 4096 by omega) (by rwa [hsum])
    rw [hsum] at hmiddle
    rwa [if_neg hoff, hwhole]

/-- Exactly when a write stops the machine: it passes the checks at the top, and comes to a block
number that it cannot have. -/
theorem sfsIoNolock_write_panic_iff (h : s.FileOk k sin) (htype : sin.din.type ≠ sfsTypeDir)
    (buf : Bytes) {offset : ℤ} {alen : ℕ}
    (hspare : SparesIndirect sin.din offset.toNat (ioEnd offset alen)) :
    (sfsIoNolock k buf offset alen true).run s = .panic ↔
      0 ≤ offset ∧ offset < sfsMaxFileSize ∧ offset < toOff (offset + alen) ∧
        s.WriteStops sin.din offset.toNat (ioEnd offset alen) := by
  rw [ioEnd] at *
  rw [sfsIoNolock, bind_of_ok (getSin_eq h.cached), assert_bind_run htype]
  by_cases hbad : offset < 0 ∨ (sfsMaxFileSize : ℤ) ≤ offset ∨ toOff (offset + alen) < offset
  · rw [if_pos hbad, run_pure]
    exact ⟨fun hc ↦ (Outcome.ok_ne_panic hc).elim, fun hc ↦ by omega⟩
  rw [if_neg hbad]
  by_cases hzero : offset = toOff (offset + alen)
  · rw [if_pos hzero, run_pure]
    exact ⟨fun hc ↦ (Outcome.ok_ne_panic hc).elim, fun hc ↦ by omega⟩
  rw [if_neg hzero, if_pos rfl, sfsIoSpan]
  have hlt : offset.toNat < min (toOff (offset + alen)).toNat sfsMaxFileSize := by omega
  have hhead := if hno : NoWholeBlock offset.toNat (min (toOff (offset + alen)).toNat
      sfsMaxFileSize) then sfsIoHead_write_pieces h buf hlt hno
    else sfsIoHead_write_whole h buf hno hspare
  by_cases hstops : s.WriteStops sin.din offset.toNat (min (toOff (offset + alen)).toNat
      sfsMaxFileSize)
  · rw [if_pos hstops] at hhead
    rw [bind_of_panic hhead]
    exact ⟨fun _ ↦ ⟨by omega, by omega, by omega, hstops⟩, fun _ ↦ rfl⟩
  · rw [if_neg hstops] at hhead
    obtain ⟨r, t, sin', hrun, hk⟩ := hhead
    obtain ⟨u, hout⟩ := sfsIoOut_ok hk offset.toNat r
    rw [bind_of_ok hrun, hout]
    exact ⟨fun hc ↦ (Outcome.ok_ne_panic hc).elim, fun hc ↦ (hstops hc.2.2.2).elim⟩

end Write

end Ucore
