import Ucore.Sfs.Sync

/-!
# Runs of operations and the dirty flags

In every state that operations lead to, none of which appends to an unmarked inode and leaves it so,
the dirty flags tell the truth, and a sync makes the device hold the file system. The other
operations are real: `flags_unsound_sample` extends a file that was synced, runs out of space, and
the inode has blocks its clean block on the device does not have.
-/

namespace Ucore

open Bytes Prog

section Steps

variable {s t : SfsFs} {live : Finset ℕ} {k : ℕ} {sin : SfsInode}

theorem getSin_bind_of_none {α : Type} (hk : s.inodes k = none)
    (f : SfsInode → Prog Errno SfsFs α) :
    (getSin k >>= f).run s = .panic := by
  refine bind_of_panic ?_ f
  rw [getSin, get_bind_run, hk]
  rfl

/-- One operation. A block that is appended, a write and a change of length must not leave an
unmarked inode with blocks its block on the device does not have, and a write contains no whole
block. -/
inductive FlagStep (live : Finset ℕ) : SfsFs → SfsFs → Prop
  | load (k i : ℕ) {s t : SfsFs}
      (hmark : ∀ sin, s.inodes k = some sin → i = sin.din.blocks → ¬s.AppendsUnmarked sin)
      (h : ((sfsBmapLoadNolock k i).run s).state? = some t) : FlagStep live s t
  | write (k : ℕ) (buf : Bytes) (offset : ℤ) (len : ℕ) {s t : SfsFs}
      (hno : 0 ≤ offset → NoWholeBlock offset.toNat (ioEnd offset len))
      (hmark : ∀ sin, s.inodes k = some sin → 0 ≤ offset →
        ¬s.WriteUnmarked sin offset.toNat (ioEnd offset len))
      (h : ((sfsIoNolock k buf offset len true).run s).state? = some t) : FlagStep live s t
  | truncate (k : ℕ) {s t : SfsFs}
      (h : ((sfsBmapTruncateNolock k).run s).state? = some t) : FlagStep live s t
  | truncfile (k : ℕ) (len : ℤ) {s t : SfsFs}
      (hmark : ∀ sin, s.inodes k = some sin → ¬s.TruncUnmarked sin len)
      (h : ((sfsTruncfile k len).run s).state? = some t) : FlagStep live s t
  | loadInode (k : ℕ) {s t : SfsFs} (hlive : k ∈ live)
      (h : ((sfsLoadInode k).run s).state? = some t) : FlagStep live s t
  | fsync (k : ℕ) {s t : SfsFs} (h : ((sfsFsync k).run s).state? = some t) : FlagStep live s t
  | sync {s t : SfsFs} (h : (sfsSync.run s).state? = some t) : FlagStep live s t

theorem FlagStep.tracked (h : FlagStep live s t) (hs : s.Tracked live) : t.Tracked live := by
  cases h with
  | load k i hmark h =>
    cases hk : s.inodes k with
    | some sin => exact (sfsBmapLoadNolock_tracked hs hk (hmark sin hk)).state h
    | none =>
      rw [sfsBmapLoadNolock, getSin_bind_of_none hk] at h
      cases h
  | write k buf offset len hno hmark h =>
    cases hk : s.inodes k with
    | some sin => exact (sfsIoNolock_write_tracked hs hk buf hno (hmark sin hk)).state h
    | none =>
      rw [sfsIoNolock, getSin_bind_of_none hk] at h
      cases h
  | truncate k h =>
    cases hk : s.inodes k with
    | some sin => exact (sfsBmapTruncateNolock_tracked hs hk).state h
    | none =>
      rw [sfsBmapTruncateNolock, getSin_bind_of_none hk] at h
      cases h
  | truncfile k len hmark h =>
    cases hk : s.inodes k with
    | some sin => exact (sfsTruncfile_tracked hs hk (hmark sin hk)).state h
    | none =>
      rw [sfsTruncfile] at h
      split at h
      · exact Option.some.inj h ▸ hs
      · rw [getSin_bind_of_none hk] at h
        cases h
  | loadInode k hlive h => exact (sfsLoadInode_tracked hs hlive).state h
  | fsync k h =>
    cases hk : s.inodes k with
    | some sin =>
      obtain ⟨u, hrun, hu, -⟩ := sfsFsync_flushed hs hk
      rw [hrun] at h
      exact Option.some.inj h ▸ hu
    | none =>
      rw [sfsFsync, getSin_bind_of_none hk] at h
      cases h
  | sync h =>
    obtain ⟨u, hrun, hu, -⟩ := sfsSync_flushed hs
    rw [hrun] at h
    exact Option.some.inj h ▸ hu

/-- **The dirty flags are sound.** In every state reached, an inode in memory whose flag is clear
equals its block on the device, and the superblock and the freemap equal theirs if `super_dirty` is
clear; and a sync succeeds, after which mounting the device gives the file system back. -/
theorem flags_sound (hs : s.Tracked live) (hrun : Relation.ReflTransGen (FlagStep live) s t) :
    t.Synced ∧ ∃ u m, sfsSync.run t = .ok () u ∧ sfsDoMount.run u.dev = .ok m u.dev ∧
      t.SameFs m live := by
  have ht : t.Tracked live := by
    induction hrun with
    | refl => exact hs
    | tail _ hstep ih => exact hstep.tracked ih
  exact ⟨ht.synced, sfsSync_remount ht⟩

end Steps

/-! ## Appends that leave the inode unmarked -/

section Unmarked

variable {s t : SfsFs} {live : Finset ℕ} {k : ℕ} {sin sin' : SfsInode}

/-- The block of an inode that was clean still holds the inode as it was. -/
theorem SfsFs.Touched.disk_eq (h : s.Touched live k sin t sin') (hs : s.Tracked live)
    (hclean : sin.dirty = false) : SfsDiskInode.ofBytes (t.dev.blk k) = sin.din := by
  rw [h.disk, SfsDiskInode.ofBytes_congr (hs.synced.inode k sin h.before hclean),
    SfsDiskInode.ofBytes_bytes (hs.inRange h.before)]

/-- An inode that was clean and got blocks without being marked breaks the promise. -/
theorem SfsFs.Touched.not_synced (h : s.Touched live k sin t sin') (hs : s.Tracked live)
    (hclean : sin.dirty = false) (hclean' : sin'.dirty = false)
    (hblocks : sin'.din.blocks ≠ sin.din.blocks) : ¬t.Synced := by
  intro hsync
  have hle := (h.owned.mapped_of_cached h.cached).blocks_le
  have hlt : sin'.din.blocks < 2 ^ 32 := by omega
  refine hblocks ?_
  rw [← h.disk_eq hs hclean, SfsDiskInode.ofBytes_congr (hsync.inode k sin' h.cached hclean'),
    SfsDiskInode.blocks_ofBytes_bytes hlt]

/-- An append to an unmarked inode through the indirect block it has breaks the promise. -/
theorem sfsBmapLoadNolock_unmarked (hs : s.Tracked live) (hk : s.inodes k = some sin)
    (hmark : s.AppendsUnmarked sin) (hlt : sin.din.blocks < 1036) :
    ∃ b t, (sfsBmapLoadNolock k sin.din.blocks).run s = .ok b t ∧ ¬t.Synced := by
  obtain ⟨h12, hind, hclean, c, hfree⟩ := hmark
  rcases sfsBmapLoadNolock_append hs.ok hk (hs.mapped_of_cached hk) hs.tail.zero hlt with
    ⟨b, t, sin', happ, hload⟩ | ⟨t, -, hfull, -⟩ | ⟨htail, -⟩
  · have hblocks := happ.blocks
    have hd : sin'.dirty = false := (happ.dirty.trans (if_pos ⟨h12, hind⟩)).trans hclean
    have htouched := (happ.wrote hs.toOwned hs.tail hk).touched hs.toOwned hk
    exact ⟨b, t, hload, htouched.not_synced hs hclean hd (by omega)⟩
  · have hpos := Bitmap.freeCount_pos hfree
    rw [appendCost, if_neg fun hc ↦ hind hc.2] at hfull
    omega
  · exact absurd hs.tail htail

/-- Extending an inode by blocks there is space for. -/
theorem sfsTruncEnlarge_ok (n : ℕ) {nblks : ℕ} (hw : s.Wrote live k sin t sin')
    (hn : sin'.din.blocks = nblks) (hle : nblks + n ≤ 1036)
    (hroom : SfsFs.growCost sin'.din (nblks + n) ≤ t.freemap.freeCount) :
    ∃ u sin'', (sfsTruncEnlarge k nblks n).run t = .ok () u ∧ s.Wrote live k sin u sin'' ∧
      sin''.din.blocks = nblks + n ∧
      u.freemap.freeCount + SfsFs.growCost sin'.din (nblks + n) = t.freemap.freeCount := by
  induction n generalizing nblks t sin' with
  | zero =>
    refine ⟨t, sin', rfl, hw, hn, ?_⟩
    rw [SfsFs.growCost_of_le (hw.owned.mapped_of_cached hw.cached) (by omega), Nat.add_zero]
  | succ n ih =>
    have hmore : sin'.din.blocks + 1 ≤ nblks + (n + 1) := by omega
    have hcost : appendCost sin'.din ≤ SfsFs.growCost sin'.din (nblks + (n + 1)) :=
      SfsFs.appendCost_le_growCost.trans (SfsFs.growCost_mono sin'.din hmore)
    rcases sfsBmapLoadNolock_append hw.owned.ok hw.cached (hw.owned.mapped_of_cached hw.cached)
        hw.tail.zero (by omega) with
      ⟨b, u, sin₁, happ, hload⟩ | ⟨u, -, hfull, -⟩ | ⟨htail, -⟩
    · have hblocks := happ.blocks
      have hfree := happ.growCost (n := nblks + (n + 1)) (by omega)
      have hsum : nblks + 1 + n = nblks + (n + 1) := by omega
      obtain ⟨v, sin₂, hrun, hw', hb, hcount⟩ :=
        ih (hw.trans (happ.wrote hw.owned hw.tail hw.cached)) (hblocks.trans (congrArg (· + 1) hn))
          (by omega) (by rw [hsum]; omega)
      rw [hsum] at hcount
      refine ⟨v, sin₂, ?_, hw', by omega, by omega⟩
      rw [sfsTruncEnlarge, ← hn, bind_of_ok hload, hn, hrun]
    · omega
    · exact absurd hw.tail htail

/-- Extending an inode that has an indirect block beyond what there is space for takes all the
space and fails; nothing marks the inode. -/
theorem sfsTruncEnlarge_fails (n : ℕ) {nblks : ℕ} (hw : s.Wrote live k sin t sin')
    (hn : sin'.din.blocks = nblks) (h12 : 12 ≤ nblks) (hind : sin'.din.indirect ≠ 0)
    (hfree : t.freemap.freeCount < n) (hle : nblks + t.freemap.freeCount < 1036) :
    ∃ u sin'', (sfsTruncEnlarge k nblks n).run t = .error .noMem u ∧ s.Wrote live k sin u sin'' ∧
      sin''.dirty = sin'.dirty ∧ sin''.din.blocks = nblks + t.freemap.freeCount := by
  induction n generalizing nblks t sin' with
  | zero => omega
  | succ n ih =>
    rcases sfsBmapLoadNolock_append hw.owned.ok hw.cached (hw.owned.mapped_of_cached hw.cached)
        hw.tail.zero (by omega) with
      ⟨b, u, sin₁, happ, hload⟩ | ⟨u, hno, hfull, hload⟩ | ⟨htail, -⟩
    · have hblocks := happ.blocks
      have hw₁ := happ.wrote hw.owned hw.tail hw.cached
      obtain ⟨hind₁, hfree₁⟩ := hw₁.room hind
      obtain ⟨v, sin₂, hrun, hw', hd, hb⟩ := ih (hw.trans hw₁)
        (hblocks.trans (congrArg (· + 1) hn)) (by omega) (hind₁ ▸ hind) (by omega) (by omega)
      have hd₁ : sin₁.dirty = sin'.dirty := happ.dirty.trans (if_pos ⟨by omega, hind⟩)
      refine ⟨v, sin₂, ?_, hw', hd.trans hd₁, by omega⟩
      rw [sfsTruncEnlarge, ← hn, bind_of_ok hload, hn, hrun]
    · rw [appendCost, if_neg fun hc ↦ hind hc.2] at hfull
      refine ⟨u, sin', ?_, hw.trans (hno.wrote hw.owned hw.tail hw.cached), rfl, by omega⟩
      rw [sfsTruncEnlarge, ← hn, bind_of_error hload]
    · exact absurd hw.tail htail

/-- Lengthening a file there is space for. -/
theorem sfsTruncfile_ok (hs : s.Tracked live) (hk : s.inodes k = some sin) {n : ℕ}
    (hmore : sin.din.blocks < truncBlocks n) (hsize : sin.din.size ≠ n) (hle : truncBlocks n ≤ 1036)
    (hroom : SfsFs.growCost sin.din (truncBlocks n) ≤ s.freemap.freeCount) :
    ∃ t sin', (sfsTruncfile k n).run s = .ok () t ∧ t.Tracked live ∧ t.inodes k = some sin' ∧
      sin'.din.size = n ∧ sin'.din.blocks = truncBlocks n ∧
      t.freemap.freeCount + SfsFs.growCost sin.din (truncBlocks n) = s.freemap.freeCount := by
  have hmax : n ≤ 134217728 := by
    rw [truncBlocks, sfsBlksize_eq] at hle
    omega
  have hsum : sin.din.blocks + (truncBlocks n - sin.din.blocks) = truncBlocks n := by omega
  obtain ⟨t, sin', hrun, hw, hblocks, hcount⟩ :=
    sfsTruncEnlarge_ok (truncBlocks n - sin.din.blocks) (.refl hs.toOwned hs.tail hk) rfl (by omega)
      (by rw [hsum]; exact hroom)
  rw [hsum] at hblocks hcount
  refine ⟨t.setInode k (sin'.grow n), sin'.grow n, ?_,
    ((hw.touched hs.toOwned hk).grow n).tracked hs (Or.inr rfl) (by change n < 2 ^ 32; omega),
    SfsFs.setInode_inodes_self .., rfl, hblocks, hcount⟩
  rw [sfsTruncfile, sfsMaxFileSize_eq, if_neg (by omega), bind_of_ok (getSin_eq hk),
    Int.toNat_natCast, if_neg hsize, sfsTruncLoops, if_pos hmore, bind_of_ok hrun,
    bind_of_ok (getSin_eq hw.cached), assert_bind_run hblocks]
  rfl

/-- Lengthening a file beyond what there is space for, through the indirect block it has, fails and
breaks the promise if it was unmarked. -/
theorem sfsTruncfile_unmarked (hs : s.Tracked live) (hk : s.inodes k = some sin) {len : ℤ}
    (hmark : s.TruncUnmarked sin len) (hle : sin.din.blocks + s.freemap.freeCount < 1036) :
    ∃ t sin', (sfsTruncfile k len).run s = .error .noMem t ∧ t.inodes k = some sin' ∧
      sin'.dirty = false ∧ SfsDiskInode.ofBytes (t.dev.blk k) ≠ sin'.din ∧ ¬t.Synced := by
  obtain ⟨⟨h12, hind, hclean, c, hfree⟩, h0, hmax, hsize, hfar⟩ := hmark
  have hpos := Bitmap.freeCount_pos hfree
  obtain ⟨t, sin', hrun, hw, hd, hblocks⟩ := sfsTruncEnlarge_fails
    (truncBlocks len.toNat - sin.din.blocks) (.refl hs.toOwned hs.tail hk) rfl h12 hind
    (by omega) hle
  have htouched := hw.touched hs.toOwned hk
  refine ⟨t, sin', ?_, hw.cached, hd.trans hclean, fun heq ↦ ?_,
    htouched.not_synced hs hclean (hd.trans hclean) (by omega)⟩
  · rw [sfsTruncfile, if_neg (by omega), bind_of_ok (getSin_eq hk), if_neg hsize, sfsTruncLoops,
      if_pos (by omega), bind_of_error hrun]
  · rw [htouched.disk_eq hs hclean] at heq
    rw [heq] at hblocks
    omega

end Unmarked

/-! ## The small file system -/

theorem sampleFs_mountable : sampleFs.Mountable where
  magic := rfl
  info := rfl
  nbits := by
    rw [sampleFs_nbits, sfsFreemapBits, sampleFs_blocks, sfsBlkbits_eq]
  freemap_le := by
    rw [sfsFreemapBlocks_sample, sampleFs_blocks]
    decide

theorem sampleFs_synced : sampleFs.Synced where
  inode k sin hk _ i _ := by
    rcases sampleFs_cached hk with ⟨rfl, rfl⟩ | ⟨rfl, rfl⟩ <;> rfl
  superblock _ :=
  { superblock := fun _ _ ↦ rfl
    freemap := fun i hi ↦ by
      rw [sfsFreemapBlocks_sample] at hi
      have hdiv : i / 4096 = 0 := by omega
      have hmod : i % 4096 = i := by omega
      rw [hdiv, hmod]
      rfl }

theorem sampleFs_tracked : sampleFs.Tracked sampleLive where
  toOwned := sampleFs_owned
  tail := sampleFs_tailClear
  mountable := sampleFs_mountable
  fits k sin hk := by
    rcases sampleFs_cached hk with ⟨rfl, rfl⟩ | ⟨rfl, rfl⟩
    · exact ⟨by decide, by decide, by decide⟩
    · exact ⟨by decide, by decide, by decide⟩
  listed k := by
    have hmem : k ∈ sampleFs.inodeList ↔ k = 6 ∨ k = 3 := by simp [sampleFs]
    rw [hmem]
    constructor
    · rintro (rfl | rfl)
      · exact ⟨_, rfl⟩
      · exact ⟨_, rfl⟩
    · rintro ⟨sin, hk⟩
      rcases sampleFs_cached hk with ⟨rfl, -⟩ | ⟨rfl, -⟩
      · exact Or.inr rfl
      · exact Or.inl rfl
  synced := sampleFs_synced

/-- An append to a small file is a step the promise survives. -/
theorem flags_sound_sample :
    ∃ t, Relation.ReflTransGen (FlagStep sampleLive) sampleFs t ∧ t.Synced ∧
      ∃ u m, sfsSync.run t = .ok () u ∧ sfsDoMount.run u.dev = .ok m u.dev ∧
        t.SameFs m sampleLive := by
  have hcached : sampleFs.inodes 6 = some ⟨sampleOther, false, 1, 1, 1⟩ := rfl
  rcases sfsBmapLoadNolock_append sampleFs_ok hcached sampleFs_mapped_other
      sampleFs_tailClear.zero (by change 1 < 1036; omega) with
    ⟨b, t, sin', -, hrun⟩ | ⟨t, -, hfull, -⟩ | ⟨htail, -⟩
  · have hstep : FlagStep sampleLive sampleFs t := by
      refine .load 6 _ (fun sin hk _ happ ↦ ?_) (congrArg Outcome.state? hrun)
      rw [hcached] at hk
      cases hk
      exact absurd happ.1 (by decide)
    exact ⟨t, .single hstep, flags_sound sampleFs_tracked (.single hstep)⟩
  · rw [sampleFs_freemap, freeCount_sampleFreemap, appendCost] at hfull
    split at hfull <;> omega
  · exact absurd sampleFs_tailClear htail

/-- A file of one block is lengthened to thirteen blocks and written back. Lengthening it to
twenty-five then fails, because there are only eleven more, and the inode, which is not marked
dirty, is no longer what is on the device. -/
theorem flags_unsound_sample :
    sampleFs.Tracked sampleLive ∧ ∃ s₁ s₂ s₃ sin,
      (sfsTruncfile 6 (53248 : ℕ)).run sampleFs = .ok () s₁ ∧
      (sfsFsync 6).run s₁ = .ok () s₂ ∧
      (sfsTruncfile 6 (102400 : ℕ)).run s₂ = .error .noMem s₃ ∧
      s₃.inodes 6 = some sin ∧ sin.dirty = false ∧
      SfsDiskInode.ofBytes (s₃.dev.blk 6) ≠ sin.din ∧ ¬s₃.Synced := by
  have hcached : sampleFs.inodes 6 = some ⟨sampleOther, false, 1, 1, 1⟩ := rfl
  have hblks : truncBlocks 53248 = 13 := by rw [truncBlocks, sfsBlksize_eq]
  have hblks' : truncBlocks 102400 = 25 := by rw [truncBlocks, sfsBlksize_eq]
  have hcost : SfsFs.growCost sampleOther 13 = 13 := by decide
  have hfree : sampleFs.freemap.freeCount = 24 := by
    rw [sampleFs_freemap, freeCount_sampleFreemap]
  obtain ⟨s₁, sin₁, hrun₁, ht₁, hk₁, hsize₁, hblocks₁, hcount₁⟩ :=
    sfsTruncfile_ok sampleFs_tracked hcached (n := 53248) (by rw [hblks]; decide) (by decide)
      (by rw [hblks]; omega) (by rw [hblks, hcost, hfree]; omega)
  obtain ⟨s₂, hrun₂, ht₂, hflush, -, sin₂, hk₂, hclean₂⟩ := sfsFsync_flushed ht₁ hk₁
  obtain ⟨sin₂', hk₂', hdin₂, -⟩ := hflush.inodes_some hk₁
  rw [hk₂] at hk₂'
  cases hk₂'
  rw [hblks] at hblocks₁ hcount₁
  rw [hcost, hfree] at hcount₁
  have hfree₂ : s₂.freemap.freeCount = 11 := by
    rw [hflush.freemap]
    omega
  have hblocks₂ : sin₂.din.blocks = 13 := by rw [hdin₂, hblocks₁]
  have hind₂ : sin₂.din.indirect ≠ 0 :=
    (ht₂.mapped_of_cached hk₂).indirect_ne_zero (by omega)
  have hmark : s₂.TruncUnmarked sin₂ (102400 : ℕ) := by
    refine ⟨⟨by omega, hind₂, hclean₂, Bitmap.exists_isFree_of_freeCount_pos (by omega)⟩, by omega,
      by rw [sfsMaxFileSize_eq]; omega, ?_, ?_⟩
    · rw [hdin₂, hsize₁]
      decide
    · rw [Int.toNat_natCast, hblks']
      omega
  obtain ⟨s₃, sin₃, hrun₃, hk₃, hclean₃, hne, hbad⟩ :=
    sfsTruncfile_unmarked ht₂ hk₂ hmark (by omega)
  exact ⟨sampleFs_tracked, s₁, s₂, s₃, sin₃, hrun₁, hrun₂, hrun₃, hk₃, hclean₃, hne, hbad⟩

end Ucore
