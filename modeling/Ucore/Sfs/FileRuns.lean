import Ucore.Sfs.Isolation

/-!
# Runs of file operations

`SfsFs.Consistent` is the invariant of a file system on which files are read, written, resized,
loaded and written back. In every state it leads to, a write that transfers no whole block is
isolated from the other files.
-/

namespace Ucore

open Bytes Prog

namespace SfsFs

/-- Ownership is exact, the freemap marks free only blocks of the file system, and every inode has
blocks for its size. -/
structure Consistent (s : SfsFs) (live : Finset ℕ) : Prop extends s.Owned live where
  tail : s.TailClear
  sizes : ∀ k ∈ live, blocksFor (s.dinOf k).size ≤ (s.dinOf k).blocks

variable {s t : SfsFs} {live : Finset ℕ} {k : ℕ} {sin sin' : SfsInode}

theorem Consistent.sizes_of_cached (h : s.Consistent live) (hk : s.inodes k = some sin) :
    blocksFor sin.din.size ≤ sin.din.blocks := by
  have := h.sizes k (h.cached k sin hk)
  rwa [dinOf_of_cached hk] at this

theorem Consistent.fileOk (h : s.Consistent live) (hk : s.inodes k = some sin) : s.FileOk k sin :=
  ⟨h.ok, h.tail, hk, h.mapped_of_cached hk⟩

/-- Only inode `k` changed, and its blocks hold its size. -/
theorem Consistent.of_others (h : s.Consistent live) (ho : t.Owned live) (ht : t.TailClear)
    (hothers : s.SameOthers t live k) (hk : t.inodes k = some sin')
    (hsizes : blocksFor sin'.din.size ≤ sin'.din.blocks) : t.Consistent live where
  toOwned := ho
  tail := ht
  sizes j hj := by
    rcases eq_or_ne j k with rfl | hjk
    · rwa [dinOf_of_cached hk]
    · rw [hothers.dinOf hj hjk]
      exact h.sizes j hj

theorem WriteDone.consistent (h : s.WriteDone live k sin t sin') (hs : s.Consistent live) :
    t.Consistent live :=
  hs.of_others h.owned h.tail (h.grown.sameOthers hs.toOwned) h.cached h.sizes

end SfsFs

/-! ## Single operations -/

section Single

variable {s : SfsFs} {live : Finset ℕ} {k : ℕ} {sin : SfsInode}

theorem sfsTruncfile_consistent (h : s.Consistent live) (len : ℤ) :
    ((sfsTruncfile k len).run s).Sat (fun _ t ↦ t.Consistent live) fun _ t ↦ t.Consistent live := by
  cases hk : s.inodes k with
  | none =>
    rw [sfsTruncfile]
    split
    · exact h
    · exact sat_getSin_bind fun sin hk' ↦ by
        rw [hk] at hk'
        cases hk'
  | some sin =>
    have hsize := h.sizes_of_cached hk
    refine (sfsTruncfile_sat h.toOwned h.tail hk len).imp (fun _ t ht ↦ ?_) fun _ t ht ↦ ?_
    · rcases ht with rfl | ⟨u, sin', hu, hblocks, -, rfl⟩
      · exact h
      · have hfit : SfsFs.blocksFor len.toNat ≤ sin'.din.blocks := hblocks.ge
        rcases hu with hw | hr
        · have hw' : s.SameOthers (u.setInode k (sin'.grow len.toNat)) live k :=
            (hw.grown.trans (SfsFs.grown_setInode hw.cached (SfsInode.grow_din sin' _))).sameOthers
              h.toOwned
          exact h.of_others (hw.owned.setInode hw.cached rfl) hw.tail hw'
            (SfsFs.setInode_inodes_self ..) hfit
        · exact h.of_others (hr.owned.setInode hr.cached rfl) hr.tail
            ⟨hr.others.blk, fun j hj ↦ (u.setInode_inodes_of_ne k _ hj).trans
              (hr.others.inodes j hj)⟩ (SfsFs.setInode_inodes_self ..) hfit
    · obtain ⟨sin', hw, -⟩ := ht
      refine h.of_others hw.owned hw.tail (hw.grown.sameOthers h.toOwned) hw.cached ?_
      rw [hw.attrs.1]
      exact hsize.trans hw.blocks_le

theorem sfsFsync_consistent (h : s.Consistent live) :
    ((sfsFsync k).run s).Sat (fun _ t ↦ t.Consistent live) fun _ t ↦ t.Consistent live := by
  cases hk : s.inodes k with
  | none =>
    exact sat_getSin_bind fun sin hk' ↦ by
      rw [hk] at hk'
      cases hk'
  | some sin =>
    by_cases hdirty : sin.dirty = true
    · have hlive := h.cached k sin hk
      have hsizes := h.sizes_of_cached hk
      rw [sfsFsync_dirty h.ok hk hdirty (h.used_inode hlive)]
      refine h.of_others (h.toOwned.writeBack hk) h.tail ⟨fun o c hc hne ↦ ?_, fun j hj ↦ ?_⟩
        (SfsFs.setInode_inodes_self ..) hsizes
      · refine SfsFs.setBlk_blk_of_ne _ _ _ (h.exact.ne hc (SfsFs.own_inode hlive) ?_)
        rintro rfl
        exact hne rfl
      · exact s.setInode_inodes_of_ne k _ hj
    · rw [sfsFsync_clean hk (by simpa using hdirty)]
      exact h

theorem sfsLoadInode_cached (hk : s.inodes k = some sin) :
    (sfsLoadInode k).run s = .ok () (s.setInode k sin.revive) := by
  rw [sfsLoadInode, get_bind_run, hk]
  rfl

/-- An inode that is not in memory is the one its block decodes to; it must have a link and be a
file or a directory. -/
theorem sfsLoadInode_new (ho : s.Ok) (hk : s.inodes k = none) (hused : s.Used k) :
    (sfsLoadInode k).run s
      = if (s.dinOf k).nlinks ≠ 0 ∧ ((s.dinOf k).type = sfsTypeDir ∨ (s.dinOf k).type = sfsTypeFile)
        then .ok () (s.setLinks k ⟨s.dinOf k, false, 1, 1, 0⟩) else .panic := by
  have hsize : 0 + SfsDiskInode.sizeof ≤ 4096 := by
    rw [SfsDiskInode.sizeof]
    omega
  have hread := sfsRbuf_eq ho.toDevOk hused.1 hused.2.1 zero 0 (by omega) hsize
  have hdin : SfsDiskInode.ofBytes (memcpy zero 0 (s.dev.blk k) 0 SfsDiskInode.sizeof)
      = s.dinOf k := by
    rw [SfsFs.dinOf_of_none hk]
    refine SfsDiskInode.ofBytes_congr fun i hi ↦ ?_
    rw [memcpy_of_mem (by omega) (by rw [SfsDiskInode.sizeof]; omega), Nat.zero_add, Nat.sub_zero]
  rw [sfsLoadInode, get_bind_run, hk]
  dsimp only
  rw [bind_of_ok (sfsBlockInuse_of_used ho hused), assert_bind_run rfl, bind_of_ok hread, hdin]
  by_cases hlinks : (s.dinOf k).nlinks ≠ 0
  · rw [assert_bind_run hlinks]
    by_cases htype : (s.dinOf k).type = sfsTypeDir ∨ (s.dinOf k).type = sfsTypeFile
    · have hcreate : (sfsCreateInode (s.dinOf k)).run s = .ok ⟨s.dinOf k, false, 1, 1, 0⟩ s := by
        rw [sfsCreateInode, assert_bind_run htype, run_pure]
      rw [bind_of_ok hcreate, run_modify, if_pos ⟨hlinks, htype⟩]
    · have hcreate : (sfsCreateInode (s.dinOf k)).run s = .panic := by
        rw [sfsCreateInode, assert_bind_run_neg htype]
      rw [bind_of_panic hcreate, if_neg fun h ↦ htype h.2]
  · rw [assert_bind_run_neg hlinks, if_neg fun h ↦ hlinks h.1]

theorem SfsFs.SameOthers.setLinks (s : SfsFs) (live : Finset ℕ) (k : ℕ) (sin : SfsInode) :
    s.SameOthers (s.setLinks k sin) live k :=
  ⟨fun _ _ _ _ ↦ rfl, fun _ hj ↦ s.setInode_inodes_of_ne k sin hj⟩

/-- Taking an inode the file system has into memory. -/
theorem SfsFs.Owned.setLinks (h : s.Owned live) (hlive : k ∈ live) (hdin : sin.din = s.dinOf k) :
    (s.setLinks k sin).Owned live := by
  have hok : (s.setLinks k sin).Ok :=
    ⟨⟨h.ok.faults, h.ok.blocks_le⟩, h.ok.wf, h.ok.blocks_le_nbits, h.ok.unused⟩
  have hset : (s.setLinks k sin).inodes k = some sin := SfsFs.setInode_inodes_self ..
  have hsame : (s.setLinks k sin).dinOf k = s.dinOf k := by
    rw [SfsFs.dinOf_of_cached hset, hdin]
  refine h.of_sameMap hok rfl (fun _ ↦ Iff.rfl) (.setLinks s live k sin)
    ⟨by rw [hsame], by rw [hsame], fun i ↦ ?_, by rw [hsame]⟩ hlive
  rw [hsame]
  exact SfsFs.bmap_congr rfl rfl fun _ ↦ rfl

/-- Loading an inode the file system has. -/
theorem sfsLoadInode_consistent (h : s.Consistent live) (hlive : k ∈ live) :
    ((sfsLoadInode k).run s).Sat (fun _ t ↦ t.Consistent live) fun _ t ↦ t.Consistent live := by
  cases hk : s.inodes k with
  | some sin =>
    have hsizes := h.sizes_of_cached hk
    rw [sfsLoadInode_cached hk]
    exact h.of_others (h.toOwned.setInode hk (SfsInode.revive_din sin)) h.tail
      ⟨fun _ _ _ _ ↦ rfl, fun j hj ↦ s.setInode_inodes_of_ne k _ hj⟩
      (SfsFs.setInode_inodes_self ..) hsizes
  | none =>
    rw [sfsLoadInode_new h.ok hk (h.used_inode hlive)]
    split
    · exact h.of_others (h.toOwned.setLinks hlive rfl) h.tail (.setLinks s live k _)
        (SfsFs.setInode_inodes_self ..) (h.sizes k hlive)
    · trivial

end Single

/-! ## Isolation -/

/-- What isolation means for a write to inode `k` that led from `s` to `t`. -/
structure Isolated (s t : SfsFs) (live : Finset ℕ) (k : ℕ) : Prop where
  /-- Only data blocks and the indirect block of the inode and free blocks changed. -/
  blk : ∀ c, t.dev.blk c ≠ s.dev.blk c → s.freemap.isFree c = true ∨
    s.own live (.indirect k) = some c ∨ ∃ i, s.own live (.data k i) = some c
  /-- The superblock, the freemap, the inodes and what belongs to other inodes did not. -/
  others : ∀ o c, s.own live o = some c → o ≠ .indirect k → (∀ i, o ≠ .data k i) →
    t.dev.blk c = s.dev.blk c
  /-- The other files read the same. -/
  reads : ∀ j sin, j ≠ k → s.inodes j = some sin → sin.din.type ≠ sfsTypeDir →
    ∀ buf offset len, NoWholeBlock offset.toNat (min (ioEnd offset len) sin.din.size) →
      ∃ r, (sfsIoNolock j buf offset len false).run s = .ok r s ∧
        (sfsIoNolock j buf offset len false).run t = .ok r t

/-- A write that contains no whole block returns, keeps the file system consistent and is
isolated. -/
theorem sfsIoNolock_write_isolated {s : SfsFs} {live : Finset ℕ} {k : ℕ} {sin : SfsInode}
    (h : s.Consistent live) (hk : s.inodes k = some sin) (htype : sin.din.type ≠ sfsTypeDir)
    {offset len : ℕ} (hoff : offset ≤ sin.din.size)
    (hend : offset + len ≤ 4096 * 1036) (hno : NoWholeBlock offset (offset + len)) (buf : Bytes) :
    ∃ r t, (sfsIoNolock k buf offset len true).run s = .ok r t ∧ t.Consistent live ∧
      Isolated s t live k := by
  obtain ⟨r, t, sin', hrun, hd⟩ := sfsIoNolock_write_done h.toOwned h.tail hk htype
    (h.sizes_of_cached hk) hoff hend hno buf
  have ht := hd.consistent h
  refine ⟨r, t, hrun, ht, fun c hc ↦ ?_, fun o c hc hind hdata ↦
    hd.grown.blk_of_own h.toOwned hc hind hdata, fun j sin₁ hjk hj htype₁ buf₁ off₁ len₁ hno₁ ↦ ?_⟩
  · rcases hd.grown.blk c with heq | hrest
    · exact absurd heq hc
    · exact hrest
  · have hj' : t.inodes j = some sin₁ := (hd.grown.inodes j hjk).trans hj
    have hlive := h.cached j sin₁ hj
    have hsizes := h.sizes_of_cached hj
    have hothers := hd.grown.sameOthers h.toOwned
    have hbyte : ∀ i < sin₁.din.size, s.fileByte sin₁.din i = t.fileByte sin₁.din i := fun i hi ↦ by
      have hblk : i / 4096 < sin₁.din.blocks := by
        rw [SfsFs.blocksFor] at hsizes
        omega
      have hmap := (hothers.sameMap hlive hjk).bmap (i / 4096)
      have hown := SfsFs.own_data hlive (i := i / 4096) (by rwa [SfsFs.dinOf_of_cached hj])
      rw [SfsFs.dinOf_of_cached hj, SfsFs.dinOf_of_cached hj'] at hmap
      rw [SfsFs.dinOf_of_cached hj] at hown
      rw [SfsFs.fileByte, SfsFs.fileByte, hmap,
        hothers.blk (.data j (i / 4096)) _ hown (by simpa [Owner.inode?] using hjk)]
    refine ⟨_, sfsIoNolock_read_eq (h.fileOk hj) htype₁ hsizes buf₁ hno₁, ?_⟩
    rw [sfsIoNolock_read_eq (ht.fileOk hj') htype₁ hsizes buf₁ hno₁,
      readResult_congr hbyte buf₁ off₁ len₁]

/-- One operation on a file: transfers contain no whole block, writes start at or before the end of
the file and stay inside the mappable blocks, and an inode that is loaded is one of the file
system. -/
inductive FileStep (live : Finset ℕ) : SfsFs → SfsFs → Prop
  | write (k : ℕ) (buf : Bytes) (offset len : ℕ) {s t : SfsFs} {sin : SfsInode}
      (hk : s.inodes k = some sin) (hoff : offset ≤ sin.din.size)
      (hend : offset + len ≤ 4096 * 1036) (hno : NoWholeBlock offset (offset + len))
      (h : ((sfsIoNolock k buf offset len true).run s).state? = some t) : FileStep live s t
  | read (k : ℕ) (buf : Bytes) (offset : ℤ) (len : ℕ) {s t : SfsFs} {sin : SfsInode}
      (hk : s.inodes k = some sin)
      (hno : NoWholeBlock offset.toNat (min (ioEnd offset len) sin.din.size))
      (h : ((sfsIoNolock k buf offset len false).run s).state? = some t) : FileStep live s t
  | truncfile (k : ℕ) (len : ℤ) {s t : SfsFs}
      (h : ((sfsTruncfile k len).run s).state? = some t) : FileStep live s t
  | fsync (k : ℕ) {s t : SfsFs} (h : ((sfsFsync k).run s).state? = some t) : FileStep live s t
  | loadInode (k : ℕ) {s t : SfsFs} (hlive : k ∈ live)
      (h : ((sfsLoadInode k).run s).state? = some t) : FileStep live s t

/-- A transfer to or from a directory stops the machine. -/
theorem sfsIoNolock_dir {s : SfsFs} {k : ℕ} {sin : SfsInode} (hk : s.inodes k = some sin)
    (htype : sin.din.type = sfsTypeDir) (buf : Bytes) (offset : ℤ) (len : ℕ) (write : Bool) :
    (sfsIoNolock k buf offset len write).run s = .panic := by
  rw [sfsIoNolock, bind_of_ok (getSin_eq hk), assert_bind_run_neg (not_not.mpr htype)]

theorem FileStep.consistent {s t : SfsFs} {live : Finset ℕ} (h : FileStep live s t)
    (hs : s.Consistent live) : t.Consistent live := by
  cases h with
  | write k buf offset len hk hoff hend hno h =>
    rename_i sin
    by_cases htype : sin.din.type = sfsTypeDir
    · rw [sfsIoNolock_dir hk htype] at h
      cases h
    · obtain ⟨r, u, hrun, hu, -⟩ := sfsIoNolock_write_isolated hs hk htype hoff hend hno buf
      rw [hrun] at h
      exact Option.some.inj h ▸ hu
  | read k buf offset len hk hno h =>
    rename_i sin
    by_cases htype : sin.din.type = sfsTypeDir
    · rw [sfsIoNolock_dir hk htype] at h
      cases h
    · rw [sfsIoNolock_read_eq (hs.fileOk hk) htype (hs.sizes_of_cached hk) buf hno] at h
      exact Option.some.inj h ▸ hs
  | truncfile k len h => exact (sfsTruncfile_consistent hs len).state h
  | fsync k h => exact (sfsFsync_consistent hs).state h
  | loadInode k hlive h => exact (sfsLoadInode_consistent hs hlive).state h

/-- **Files are isolated.** In every state that operations without whole blocks lead to from a
consistent one, every write without whole blocks returns and is isolated from the other files. -/
theorem writes_isolated {s t : SfsFs} {live : Finset ℕ} (h : s.Consistent live)
    (hrun : Relation.ReflTransGen (FileStep live) s t) :
    t.Consistent live ∧ ∀ k sin, t.inodes k = some sin → sin.din.type ≠ sfsTypeDir →
      ∀ buf offset len, offset ≤ sin.din.size → offset + len ≤ 4096 * 1036 →
        NoWholeBlock offset (offset + len) →
        ∃ r u, (sfsIoNolock k buf offset len true).run t = .ok r u ∧ Isolated t u live k := by
  have ht : t.Consistent live := by
    induction hrun with
    | refl => exact h
    | tail _ hstep ih => exact hstep.consistent ih
  refine ⟨ht, fun k sin hk htype buf offset len hoff hend hno ↦ ?_⟩
  obtain ⟨r, u, hrun, -, hiso⟩ := sfsIoNolock_write_isolated ht hk htype hoff hend hno buf
  exact ⟨r, u, hrun, hiso⟩

/-! ## A write of a whole block -/

/-- A write of one aligned block of a file, at any place but the first, overwrites the device block
whose number is the logical one. -/
theorem sfsIoNolock_write_block {s : SfsFs} {k : ℕ} {sin : SfsInode} (h : s.FileOk k sin)
    (htype : sin.din.type ≠ sfsTypeDir) {i : ℕ} (hi : 4096 * (i + 1) ≤ sin.din.size)
    (hblocks : i < sin.din.blocks) (hi0 : i ≠ 0) (hlt : i < s.super.blocks) (buf : Bytes) :
    (sfsIoNolock k buf (4096 * i : ℕ) 4096 true).run s
      = .ok ⟨none, 4096, buf⟩ (s.setBlk i (memcpy (s.dev.blk i) 0 buf 0 4096)) := by
  have hmapped := h.mapped.blocks_le
  have hlen : 4096 * i + 4096 ≤ 4096 * 1036 := by omega
  have hsum : 4096 * i + 4096 = 4096 * (i + 1) := by omega
  have hdiv : 4096 * (i + 1) / 4096 - 4096 * i / 4096 = 1 := by omega
  have hio := sfsIoBlocks_write_one h.ok h.cached h.mapped hblocks hi0 hlt buf 0
  set t := s.setBlk i (memcpy (s.dev.blk i) 0 buf 0 4096) with ht
  have hk : t.inodes k = some sin := h.cached
  have hhead : (sfsIoHead k buf (4096 * i) (4096 * (i + 1)) true).run s =
      .ok ⟨none, 4096, buf⟩ t := by
    rw [sfsIoHead, sfsBlksize_eq, if_neg (by omega), hdiv, Nat.mul_div_cancel_left _ (by omega),
      sfsIoMiddle_of_ok Nat.one_pos hio, sfsIoTail_aligned (by omega), Nat.one_mul, Nat.zero_add]
  rw [sfsIoNolock_start h.cached htype buf true (Nat.succ_pos _) hlen, if_pos rfl, hsum, sfsIoSpan,
    bind_of_ok hhead, sfsIoOut, bind_of_ok (getSin_eq hk), if_neg (by dsimp only; omega), run_pure]

theorem sampleFs_consistent : sampleFs.Consistent sampleLive where
  toOwned := sampleFs_owned
  tail := sampleFs_tailClear
  sizes k hk := by
    have hk' : k = 1 ∨ k = 3 ∨ k = 6 := by simpa [sampleLive] using hk
    rcases hk' with rfl | rfl | rfl
    · rw [sampleFs_dinOf_root]
      decide
    · exact le_refl 2
    · exact le_refl 1

theorem writes_isolated_sample :
    ∃ r u, (sfsIoNolock 6 zero (10 : ℕ) 20 true).run sampleFs = .ok r u ∧
      Isolated sampleFs u sampleLive 6 :=
  (writes_isolated sampleFs_consistent .refl).2 6 ⟨sampleOther, false, 1, 1, 1⟩ rfl (by decide) zero
    10 20 (by decide) (by norm_num) (by decide)

/-- Writing the second block of a file overwrites the root inode. -/
theorem write_not_isolated_sample :
    sampleFs.Consistent sampleLive ∧ sampleFs.inodes 3 = some ⟨sampleFile, false, 1, 1, 1⟩ ∧
      ∃ r t, (sfsIoNolock 3 (fun _ ↦ 90) (4096 * 1 : ℕ) 4096 true).run sampleFs = .ok r t ∧
        ¬Isolated sampleFs t sampleLive 3 := by
  have hfile : sampleFs.FileOk 3 ⟨sampleFile, false, 1, 1, 1⟩ := sampleFs_consistent.fileOk rfl
  refine ⟨sampleFs_consistent, rfl, _, _, sfsIoNolock_write_block hfile (by decide) (i := 1)
    (le_refl 8192) (by decide) Nat.one_ne_zero (by rw [sampleFs_blocks]; omega) _, fun hiso ↦ ?_⟩
  have hroot := hiso.others (.inode 1) 1 rfl (by simp) (by simp)
  have hbyte := congrFun hroot 0
  rw [SfsFs.setBlk_blk_self, memcpy_of_mem (by omega) (by omega)] at hbyte
  exact absurd hbyte (by decide)

end Ucore
