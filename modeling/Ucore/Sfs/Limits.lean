import Ucore.Sfs.Truncate

/-!
# The largest file

The range checks of `sfs_io_nolock`, `sfs_tryseek` and `sfs_truncfile` compare with
`SFS_MAX_FILE_SIZE`, which is 128 MiB. An inode maps 12 blocks directly and 1024 through its
indirect block, a little over 4 MiB, and `sfs_bmap_get_nolock` stops the machine at the next index.
Between the two sizes lie the calls that pass the checks and cannot be served.

`sfs_truncfile` gets to the end of the map by its first loop, one block at a time. It stops there
exactly when it is asked for more than the map holds and the device has the blocks to fill the map
up (`sfsTruncfile_panic_iff`); with fewer blocks the loop ends in an error before. `sfs_tryseek`
calls it for a position behind the end of the file. What a transfer does is taken from
`Ucore.Sfs.Halts`: the conditions for all four are put together in `sizeLimits_iff`.
-/

namespace Ucore

open Bytes Prog

/-! ## Extending a file beyond its map -/

section Enlarge

variable {s t : SfsFs} {k : ℕ} {sin : SfsInode}

/-- The first loop of `sfs_truncfile` goes on from where its first `a` steps got to. -/
theorem sfsTruncEnlarge_add_of_ok {a n : ℕ} (b : ℕ) (h : (sfsTruncEnlarge k n a).run s = .ok () t) :
    (sfsTruncEnlarge k n (a + b)).run s = (sfsTruncEnlarge k (n + a) b).run t := by
  induction a generalizing n s with
  | zero =>
    obtain ⟨-, rfl⟩ := Outcome.ok.inj h
    rw [Nat.zero_add, Nat.add_zero]
  | succ a ih =>
    rw [sfsTruncEnlarge] at h
    rw [show a + 1 + b = a + b + 1 by omega, sfsTruncEnlarge]
    cases hload : (sfsBmapLoadNolock k n).run s with
    | ok c u =>
      rw [bind_of_ok hload] at h ⊢
      rw [ih h, show n + 1 + a = n + (a + 1) by omega]
    | error e u =>
      rw [bind_of_error hload] at h
      cases h
    | panic =>
      rw [bind_of_panic hload] at h
      cases h

/-- It stops at the first failure. -/
theorem sfsTruncEnlarge_add_of_error {a n : ℕ} (b : ℕ) {e : Errno}
    (h : (sfsTruncEnlarge k n a).run s = .error e t) :
    (sfsTruncEnlarge k n (a + b)).run s = .error e t := by
  induction a generalizing n s with
  | zero => cases h
  | succ a ih =>
    rw [sfsTruncEnlarge] at h
    rw [show a + 1 + b = a + b + 1 by omega, sfsTruncEnlarge]
    cases hload : (sfsBmapLoadNolock k n).run s with
    | ok c u =>
      rw [bind_of_ok hload] at h ⊢
      exact ih h
    | error e' u =>
      rw [bind_of_error hload] at h ⊢
      exact h
    | panic =>
      rw [bind_of_panic hload] at h
      cases h

/-- Beyond the end of the map the loop stops the machine, unless the device is full before. -/
theorem sfsTruncEnlarge_beyond (h : s.FileOk k sin) {n : ℕ} (hn : 1036 < sin.din.blocks + n) :
    (SfsFs.growCost sin.din 1036 ≤ s.freemap.freeCount ∧
      (sfsTruncEnlarge k sin.din.blocks n).run s = .panic) ∨
    (s.freemap.freeCount < SfsFs.growCost sin.din 1036 ∧
      ∃ t, (sfsTruncEnlarge k sin.din.blocks n).run s = .error .noMem t) := by
  have hle := h.mapped.blocks_le
  have hsum : sin.din.blocks + (1036 - sin.din.blocks) = 1036 := by omega
  obtain ⟨m, rfl⟩ : ∃ m, n = 1036 - sin.din.blocks + (m + 1) :=
    ⟨n - (1036 - sin.din.blocks) - 1, by omega⟩
  rcases sfsTruncEnlarge_cases (1036 - sin.din.blocks) h (by omega) with
    ⟨henough, t, sin', hgo, hext, hblocks⟩ | ⟨hshort, t, sin', hgo, -⟩
  · -- the map is full now, and it has no room for the next index
    rw [hsum] at henough hblocks
    have hfull := sfsBmapLoadNolock_panic_of_full hext.ok.cached (le_refl 1036) hblocks.ge
    refine .inl ⟨henough, ?_⟩
    rw [sfsTruncEnlarge_add_of_ok _ hgo, hsum, sfsTruncEnlarge, bind_of_panic hfull]
  · rw [hsum] at hshort
    exact .inr ⟨hshort, t, sfsTruncEnlarge_add_of_error _ hgo⟩

/-- `sfs_truncfile` stops the machine exactly when the length passes the range check but not the end
of the map, and the device has the blocks to get there. -/
theorem sfsTruncfile_panic_iff (h : s.FileOk k sin)
    (hblocks : sin.din.blocks = SfsFs.blocksFor sin.din.size) (len : ℤ) :
    (sfsTruncfile k len).run s = .panic ↔
      4096 * 1036 < len ∧ len ≤ sfsMaxFileSize ∧
        SfsFs.growCost sin.din 1036 ≤ s.freemap.freeCount := by
  have hle := h.mapped.blocks_le
  have hsize : sin.din.size ≤ 4096 * 1036 := by
    rw [SfsFs.blocksFor] at hblocks
    omega
  rw [sfsMaxFileSize_eq]
  by_cases hbad : len < 0 ∨ (134217728 : ℤ) < len
  · rw [sfsTruncfile, sfsMaxFileSize_eq, if_pos (by exact_mod_cast hbad), run_fail]
    constructor
    · rintro ⟨⟩
    · rintro ⟨hgt, hmax, -⟩
      omega
  obtain ⟨n, rfl⟩ : ∃ n : ℕ, len = n := ⟨len.toNat, by omega⟩
  by_cases hfit : n ≤ 4096 * 1036
  · have hend : (sfsTruncfile k n).run s ≠ .panic := by
      by_cases hne : sin.din.size = n
      · rw [sfsTruncfile, sfsMaxFileSize_eq, if_neg (by omega), bind_of_ok (getSin_eq h.cached),
          Int.toNat_natCast, if_pos hne, truncBlocks_eq, ← hne, run_assert hblocks.symm]
        exact Outcome.ok_ne_panic
      · rcases sfsTruncfile_cases h hfit hne with ⟨-, u, sin', hgo, -⟩ | ⟨-, u, sin', hgo, -⟩
        · rw [hgo]
          exact Outcome.ok_ne_panic
        · rw [hgo]
          exact Outcome.error_ne_panic
    refine ⟨fun hcon ↦ absurd hcon hend, ?_⟩
    rintro ⟨hgt, -⟩
    exact absurd hgt (by omega)
  -- past the map the loop comes to index 1036, unless the blocks run out first
  · have hmore : 1036 < truncBlocks n := by
      rw [truncBlocks_eq, SfsFs.blocksFor]
      omega
    have hloop : sfsTruncLoops k sin.din.blocks (truncBlocks n) =
        sfsTruncEnlarge k sin.din.blocks (truncBlocks n - sin.din.blocks) := by
      rw [sfsTruncLoops, if_pos (by omega)]
    have hstart : (sfsTruncfile k n).run s =
        (sfsTruncEnlarge k sin.din.blocks (truncBlocks n - sin.din.blocks) >>= fun _ ↦ do
          let sin ← getSin k
          assert (sin.din.blocks = truncBlocks n)
          putSin k (sin.grow n)).run s := by
      rw [sfsTruncfile, sfsMaxFileSize_eq, if_neg (by omega), bind_of_ok (getSin_eq h.cached),
        Int.toNat_natCast, if_neg (by omega), hloop]
    rw [hstart]
    rcases sfsTruncEnlarge_beyond h
        (show 1036 < sin.din.blocks + (truncBlocks n - sin.din.blocks) by omega) with
      ⟨henough, hgo⟩ | ⟨hshort, t, hgo⟩
    · rw [bind_of_panic hgo]
      exact ⟨fun _ ↦ ⟨by omega, by omega, henough⟩, fun _ ↦ rfl⟩
    · rw [bind_of_error hgo]
      constructor
      · rintro ⟨⟩
      · rintro ⟨-, -, henough⟩
        exact absurd henough hshort.not_ge

/-- Likewise for `sfs_tryseek`, which leaves the file alone unless it is to grow. -/
theorem sfsTryseek_panic_iff (h : s.FileOk k sin) (hfile : sin.din.type = sfsTypeFile)
    (hblocks : sin.din.blocks = SfsFs.blocksFor sin.din.size) (pos : ℤ) :
    (sfsTryseek k pos).run s = .panic ↔
      4096 * 1036 < pos ∧ pos < sfsMaxFileSize ∧
        SfsFs.growCost sin.din 1036 ≤ s.freemap.freeCount := by
  have hle := h.mapped.blocks_le
  have hsize : sin.din.size ≤ 4096 * 1036 := by
    rw [SfsFs.blocksFor] at hblocks
    omega
  rw [sfsTryseek]
  by_cases hbad : pos < 0 ∨ (sfsMaxFileSize : ℤ) ≤ pos
  · rw [if_pos hbad, run_fail]
    constructor
    · rintro ⟨⟩
    · rintro ⟨hgt, hmax, -⟩
      omega
  rw [if_neg hbad, bind_of_ok (getSin_eq h.cached)]
  by_cases hgrow : (sin.din.size : ℤ) < pos
  · rw [if_pos hgrow, vopTruncate, bind_of_ok (getSin_eq h.cached), assert_bind_run hfile,
      sfsTruncfile_panic_iff h hblocks]
    constructor
    · rintro ⟨hgt, -, henough⟩
      exact ⟨hgt, by omega, henough⟩
    · rintro ⟨hgt, hmax, henough⟩
      exact ⟨hgt, hmax.le, henough⟩
  · rw [if_neg hgrow, run_pure]
    constructor
    · rintro ⟨⟩
    · rintro ⟨hgt, -⟩
      omega

end Enlarge

/-! ## The limits -/

section Limits

variable {s : SfsFs} {k : ℕ} {sin : SfsInode}

end Limits

/-! ## A larger device -/

/-- The freemap of a device of 2000 blocks: those from 8 on are free. -/
def largeFreemap : Bitmap := Bitmap.ofPred 32768 fun b ↦ decide (8 ≤ b) && decide (b < 2000)

/-- The small file system on a device of 2000 blocks. -/
def largeFs : SfsFs :=
  { sampleFs with
    super := { sampleSuper with blocks := 2000, unusedBlocks := 1992 }
    dev := { sampleDev with dBlocks := 2000, dBlocks_lt := by norm_num }
    freemap := largeFreemap }

theorem isFree_largeFreemap (b : ℕ) : largeFreemap.isFree b = true ↔ 8 ≤ b ∧ b < 2000 := by
  rw [largeFreemap, Bitmap.isFree_ofPred]
  simp only [Bool.and_eq_true, decide_eq_true_eq]
  omega

theorem freeCount_largeFreemap : largeFreemap.freeCount = 1992 := by
  rw [largeFreemap, Bitmap.freeCount_ofPred (Finset.Ico 8 2000), Nat.card_Ico]
  intro i
  simp only [Finset.mem_Ico, Bool.and_eq_true, decide_eq_true_eq]
  omega

theorem largeFs_freemap : largeFs.freemap = largeFreemap := rfl

theorem largeFs_blocks : largeFs.super.blocks = 2000 := rfl

theorem largeFs_ok : largeFs.Ok where
  faults := rfl
  blocks_le := le_refl 2000
  wf := by
    rw [largeFs_freemap]
    exact Bitmap.wf_ofPred _ _
  blocks_le_nbits := by
    rw [largeFs_blocks, show largeFs.freemap.nbits = 32768 from rfl]
    omega
  unused := by
    rw [largeFs_freemap, freeCount_largeFreemap]
    rfl

theorem largeFs_used {b : ℕ} (h : b ≠ 0) (hlt : b < 8) : largeFs.Used b := by
  refine ⟨h, by rw [largeFs_blocks]; omega, ?_⟩
  rw [largeFs_freemap, ← Bool.not_eq_true, isFree_largeFreemap]
  omega

theorem largeFs_fileOk : largeFs.FileOk 3 ⟨sampleFile, false, 1, 1, 1⟩ where
  ok := largeFs_ok
  tail b hb := by
    have hrange := (isFree_largeFreemap b).mp hb
    exact ⟨by omega, hrange.2⟩
  cached := rfl
  mapped := mapped_ofDirect (by decide) (by
    intro b hb
    fin_cases hb <;> exact largeFs_used (by decide) (by decide)) (by decide) _ _ _

end Ucore
