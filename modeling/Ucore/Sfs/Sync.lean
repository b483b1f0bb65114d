import Ucore.Sfs.FileRuns
import Ucore.Sfs.Mount

/-!
# What the dirty flags promise

An inode in memory that is not marked dirty equals its block on the device, and so do the superblock
and the freemap when `super_dirty` is clear (`SfsFs.Synced`). Every operation keeps this but one: an
append through an indirect block that is already there counts the block in the inode without marking
it. Runs without such an append keep the promise, and then mounting the device after a sync gives
the file system back.

## Operations

`SfsFs.Tracked` is the invariant of runs: ownership, the promise of the flags, and that the list of
inodes is the one of the inodes in memory. An operation on inode `k` leaves the block of `k` itself
alone and the other inodes as they were, and either it marks the superblock or it changes neither
superblock nor freemap; `Touched` says this, and it keeps `Tracked` when the inode is marked or has
not changed. `WriteUnmarked` is the write that does neither.

## Syncing

Writing metadata back moves it to where it belongs (`Flushed`) and clears a flag. After `sfs_sync`
every flag is clear, the device holds superblock, freemap and inodes, and the file system that
`sfs_do_mount` makes of it is the same one: `SfsFs.SameFs` compares superblock, free blocks, inodes,
block maps and contents (`sfsSync_remount`).
-/

namespace Ucore

open Bytes Prog

namespace SfsFs

/-- What the dirty flags promise. -/
structure Synced (s : SfsFs) : Prop where
  inode : ∀ k sin, s.inodes k = some sin → sin.dirty = false →
    ∀ i < 64, s.dev.blk k i = sin.din.bytes i
  superblock : s.superDirty = false → s.dev.Holds s.super s.freemap

/-- The fields of the inode that no block map bounds fit their C types. -/
def Fits (din : SfsDiskInode) : Prop := din.size < 2 ^ 32 ∧ din.type < 2 ^ 16 ∧ din.nlinks < 2 ^ 16

/-- The invariant of runs. -/
structure Tracked (s : SfsFs) (live : Finset ℕ) : Prop extends s.Owned live where
  tail : s.TailClear
  mountable : s.Mountable
  fits : ∀ k sin, s.inodes k = some sin → Fits sin.din
  /-- `inode_list` has the inodes in memory. -/
  listed : ∀ k, k ∈ s.inodeList ↔ ∃ sin, s.inodes k = some sin
  synced : s.Synced

section Tracked

variable {s t u : SfsFs} {live : Finset ℕ} {k : ℕ} {sin sin' : SfsInode}

/-- An inode in memory fits its C types. -/
theorem Tracked.inRange (h : s.Tracked live) (hk : s.inodes k = some sin) : sin.din.InRange := by
  have hm := h.mapped_of_cached hk
  have hle := h.ok.blocks_le
  have hdev := s.dev.dBlocks_lt
  obtain ⟨hsize, htype, hlinks⟩ := h.fits k sin hk
  have hused : ∀ b, s.Used b → b < 2 ^ 32 := fun b hb ↦ by
    have := hb.2.1
    omega
  refine ⟨hsize, htype, hlinks, ?_, fun j ↦ ?_, ?_⟩
  · have := hm.blocks_le
    omega
  · rw [← bmap_of_lt (s := s) j.isLt]
    rcases lt_or_ge (j : ℕ) sin.din.blocks with hj | hj
    · exact hused _ (hm.used j hj)
    · rw [hm.null j hj]
      omega
  · by_cases h0 : sin.din.indirect = 0
    · rw [h0]
      omega
    · exact hused _ (hm.indirect h0)

/-- A superblock of which only the number of free blocks changed mounts as before. -/
theorem Mountable.of_format (h : s.Mountable)
    (hs : t.super = { s.super with unusedBlocks := t.super.unusedBlocks })
    (hbits : t.freemap.nbits = s.freemap.nbits) : t.Mountable where
  magic := by rw [hs]; exact h.magic
  info := by rw [hs]; exact h.info
  nbits := by rw [hbits, hs]; exact h.nbits
  freemap_le := by rw [hs]; exact h.freemap_le

/-- What an operation on the inode `k` can have done to the state, leaving its own block on the
device alone. -/
structure Touched (s : SfsFs) (live : Finset ℕ) (k : ℕ) (sin : SfsInode) (t : SfsFs)
    (sin' : SfsInode) : Prop where
  owned : t.Owned live
  tail : t.TailClear
  before : s.inodes k = some sin
  cached : t.inodes k = some sin'
  others : s.SameOthers t live k
  disk : t.dev.blk k = s.dev.blk k
  inodeList : t.inodeList = s.inodeList
  attrs : sin'.din.type = sin.din.type ∧ sin'.din.nlinks = sin.din.nlinks
  format : t.super = { s.super with unusedBlocks := t.super.unusedBlocks } ∧
    t.freemap.nbits = s.freemap.nbits
  super : t.superDirty = true ∨
    (t.superDirty = s.superDirty ∧ t.super = s.super ∧ t.freemap = s.freemap)

theorem Wrote.touched (h : s.Wrote live k sin t sin') (ho : s.Owned live)
    (hk : s.inodes k = some sin) : s.Touched live k sin t sin' :=
  ⟨h.owned, h.tail, hk, h.cached, h.grown.sameOthers ho,
    h.grown.blk_of_own ho (own_inode (ho.cached k sin hk)) (by simp) (by simp), h.inodeList,
    h.attrs.2, h.format, h.super⟩

theorem Reduced.touched (h : s.Reduced live k sin t sin') (hk : s.inodes k = some sin) :
    s.Touched live k sin t sin' :=
  ⟨h.owned, h.tail, hk, h.cached, h.others, h.disk, h.inodeList, h.attrs, h.format, h.super⟩

theorem Touched.grow (h : s.Touched live k sin t sin') (n : ℕ) :
    s.Touched live k sin (t.setInode k (sin'.grow n)) (sin'.grow n) where
  owned := h.owned.setInode h.cached rfl
  tail := h.tail
  before := h.before
  cached := setInode_inodes_self ..
  others := ⟨h.others.blk, fun j hj ↦ (t.setInode_inodes_of_ne k _ hj).trans (h.others.inodes j hj)⟩
  disk := h.disk
  inodeList := h.inodeList
  attrs := h.attrs
  format := h.format
  super := h.super

/-- Contents of the superblock and the freemap survive what leaves their blocks alone. -/
theorem Holds.of_own (live : Finset ℕ) (h : s.dev.Holds s.super s.freemap)
    (hblk : ∀ o c, s.own live o = some c → o.inode? = none → t.dev.blk c = s.dev.blk c) :
    t.dev.Holds s.super s.freemap where
  superblock i hi := by rw [hblk .super _ rfl rfl, h.superblock i hi]
  freemap i hi := by
    have hj : i / 4096 < sfsFreemapBlocks s.super := by omega
    rw [hblk (.freemap (i / 4096)) _ (if_pos hj) rfl, h.freemap i hi]

/-- An operation that marks what it changes keeps the invariant. -/
theorem Touched.tracked (h : s.Touched live k sin t sin') (hs : s.Tracked live)
    (hd : sin' = sin ∨ sin'.dirty = true) (hsize : sin'.din.size < 2 ^ 32) : t.Tracked live where
  toOwned := h.owned
  tail := h.tail
  mountable := hs.mountable.of_format h.format.1 h.format.2
  fits j sin₁ hj := by
    rcases eq_or_ne j k with rfl | hjk
    · obtain rfl := Option.some.inj (h.cached.symm.trans hj)
      have hfits := hs.fits j sin h.before
      exact ⟨hsize, h.attrs.1 ▸ hfits.2.1, h.attrs.2 ▸ hfits.2.2⟩
    · rw [h.others.inodes j hjk] at hj
      exact hs.fits j sin₁ hj
  listed j := by
    rw [h.inodeList, hs.listed j]
    rcases eq_or_ne j k with rfl | hjk
    · exact ⟨fun _ ↦ ⟨sin', h.cached⟩, fun _ ↦ ⟨sin, h.before⟩⟩
    · rw [h.others.inodes j hjk]
  synced :=
  { inode := fun j sin₁ hj hclean i hi ↦ by
      rcases eq_or_ne j k with rfl | hjk
      · obtain rfl := Option.some.inj (h.cached.symm.trans hj)
        rcases hd with rfl | hd
        · rw [h.disk]
          exact hs.synced.inode j sin' h.before hclean i hi
        · rw [hclean] at hd
          exact Bool.noConfusion hd
      · rw [h.others.inodes j hjk] at hj
        have hown := own_inode (s := s) (hs.cached j sin₁ hj)
        rw [h.others.blk _ _ hown (by simpa [Owner.inode?] using hjk)]
        exact hs.synced.inode j sin₁ hj hclean i hi
    superblock := fun hclean ↦ by
      rcases h.super with hdirty | ⟨hsame, hsuper, hfree⟩
      · rw [hclean] at hdirty
        exact Bool.noConfusion hdirty
      · rw [hsuper, hfree]
        refine Holds.of_own live (hs.synced.superblock (hsame ▸ hclean)) fun o c hc hne ↦ ?_
        exact h.others.blk o c hc (by rw [hne]; simp) }

/-- A write would append through the indirect block that is there and end at or before the old
size, so that nothing marks the inode. -/
def WriteUnmarked (s : SfsFs) (sin : SfsInode) (offset endpos : ℕ) : Prop :=
  s.AppendsUnmarked sin ∧ offset < endpos ∧ sin.din.blocks < blocksFor endpos ∧
    min endpos (4096 * (sin.din.blocks + s.freemap.freeCount)) ≤ sin.din.size

end Tracked

end SfsFs

/-! ## Operations that change an inode -/

section Steps

variable {s : SfsFs} {live : Finset ℕ} {k : ℕ} {sin : SfsInode}

theorem sfsBmapLoadNolock_tracked (hs : s.Tracked live) (hk : s.inodes k = some sin) {i : ℕ}
    (hmark : i = sin.din.blocks → ¬s.AppendsUnmarked sin) :
    ((sfsBmapLoadNolock k i).run s).Sat (fun _ t ↦ t.Tracked live) fun _ t ↦ t.Tracked live := by
  have hend : ∀ t sin', s.Wrote live k sin t sin' → i = sin.din.blocks → t.Tracked live := by
    intro t sin' hw hi
    refine (hw.touched hs.toOwned hk).tracked hs ?_ (hw.attrs.1 ▸ (hs.fits k sin hk).1)
    rcases hw.dirty with hsame | hd | happ
    · exact Or.inl hsame
    · exact Or.inr hd
    · exact absurd happ (hmark hi)
  refine (sfsBmapLoadNolock_sat hs.toOwned hk i).imp (fun b t h ↦ ?_) fun e t h ↦ ?_
  · rcases h with ⟨rfl, -⟩ | ⟨hi, sin', happ⟩
    · exact hs
    · exact hend t sin' (happ.wrote hs.toOwned hs.tail hk) hi
  · exact hend t sin (h.2.1.wrote hs.toOwned hs.tail hk) h.2.2.1

theorem sfsBmapTruncateNolock_tracked (hs : s.Tracked live) (hk : s.inodes k = some sin) :
    ((sfsBmapTruncateNolock k).run s).Sat (fun _ t ↦ t.Tracked live) fun _ t ↦ t.Tracked live := by
  by_cases hne : sin.din.blocks ≠ 0
  · obtain ⟨b, t, sin', htrunc, hrun⟩ :=
      sfsBmapTruncateNolock_eq hs.ok hk (hs.mapped_of_cached hk) hne
    rw [hrun]
    have hred := (SfsFs.Reduced.refl hs.toOwned hs.tail hk).truncated htrunc
    exact (hred.touched hk).tracked hs (Or.inr htrunc.dirty)
      (htrunc.attrs.1 ▸ (hs.fits k sin hk).1)
  · rw [sfsBmapTruncateNolock, bind_of_ok (getSin_eq hk), assert_bind_run_neg hne]
    trivial

theorem sfsTruncfile_tracked (hs : s.Tracked live) (hk : s.inodes k = some sin) {len : ℤ}
    (hmark : ¬s.TruncUnmarked sin len) :
    ((sfsTruncfile k len).run s).Sat (fun _ t ↦ t.Tracked live) fun _ t ↦ t.Tracked live := by
  refine (sfsTruncfile_sat hs.toOwned hs.tail hk len).imp (fun _ t ht ↦ ?_) fun _ t ht ↦ ?_
  · rcases ht with rfl | ⟨u, sin', hu, -, hlen, rfl⟩
    · exact hs
    · have htouched : s.Touched live k sin u sin' :=
        hu.elim (·.touched hs.toOwned hk) (·.touched hk)
      refine (htouched.grow len.toNat).tracked hs (Or.inr rfl) ?_
      rw [sfsMaxFileSize_eq] at hlen
      change len.toNat < 2 ^ 32
      omega
  · obtain ⟨sin', hw, hd⟩ := ht
    refine (hw.touched hs.toOwned hk).tracked hs ?_ (hw.attrs.1 ▸ (hs.fits k sin hk).1)
    rcases hd with hsame | hd | htrunc
    · exact Or.inl hsame
    · exact Or.inr hd
    · exact absurd htrunc hmark

theorem sfsIoSpan_write_tracked (hs : s.Tracked live) (hk : s.inodes k = some sin) (buf : Bytes)
    {offset endpos : ℕ} (hno : NoWholeBlock offset endpos) (hlt : offset < endpos)
    (hmax : endpos < 2 ^ 32) (hmark : ¬s.WriteUnmarked sin offset endpos) :
    ((sfsIoSpan k buf offset endpos true).run s).Sat (fun _ t ↦ t.Tracked live)
      fun _ t ↦ t.Tracked live := by
  rw [sfsIoSpan]
  rcases sfsIoHead_spanEnds hs.toOwned hs.tail hk buf hno hlt with
    ⟨hrun, -⟩ | ⟨r, t, sin', hrun, hw, hr, hcase⟩
  · rw [bind_of_panic hrun]
    trivial
  · have htouched := hw.touched hs.toOwned hk
    rw [bind_of_ok hrun, sfsIoOut, bind_of_ok (getSin_eq hw.cached)]
    by_cases hgrow : sin'.din.size < offset + r.alen
    · rw [if_pos hgrow]
      refine (htouched.grow (offset + r.alen)).tracked hs (Or.inr rfl) ?_
      change offset + r.alen < 2 ^ 32
      omega
    · rw [if_neg hgrow]
      refine htouched.tracked hs ?_ (hw.attrs.1 ▸ (hs.fits k sin hk).1)
      rcases hcase with ⟨hsame, -⟩ | ⟨-, hblocks, hfar⟩
      · exact Or.inl hsame
      · rcases hw.dirty with hsame | hd | happ
        · exact Or.inl hsame
        · exact Or.inr hd
        · -- the write ended inside the old size, so it stayed inside the blocks there were
          have hsize := hw.attrs.1
          have hroom : offset + r.alen = endpos ∨
              4096 * (sin.din.blocks + s.freemap.freeCount) ≤ offset + r.alen :=
            hfar.imp id fun h ↦ h happ.2.1
          have hin : ¬sin.din.blocks < SfsFs.blocksFor endpos := fun hlong ↦
            hmark ⟨happ, hlt, hlong, by omega⟩
          refine Or.inl (hw.same ?_)
          rw [SfsFs.blocksFor] at hin hblocks
          omega

theorem sfsIoNolock_write_tracked (hs : s.Tracked live) (hk : s.inodes k = some sin) (buf : Bytes)
    {offset : ℤ} {len : ℕ} (hno : 0 ≤ offset → NoWholeBlock offset.toNat (ioEnd offset len))
    (hmark : 0 ≤ offset → ¬s.WriteUnmarked sin offset.toNat (ioEnd offset len)) :
    ((sfsIoNolock k buf offset len true).run s).Sat (fun _ t ↦ t.Tracked live)
      fun _ t ↦ t.Tracked live := by
  rw [sfsIoNolock, bind_of_ok (getSin_eq hk)]
  refine sat_assert_bind fun _ ↦ ?_
  by_cases hbad : offset < 0 ∨ (sfsMaxFileSize : ℤ) ≤ offset ∨ toOff (offset + len) < offset
  · rw [if_pos hbad]
    exact hs
  · rw [if_neg hbad]
    by_cases hzero : offset = toOff (offset + len)
    · rw [if_pos hzero]
      exact hs
    · rw [if_neg hzero, if_pos rfl]
      rw [ioEnd, sfsMaxFileSize_eq] at hno hmark
      rw [sfsMaxFileSize_eq] at hbad ⊢
      exact sfsIoSpan_write_tracked hs hk buf (hno (by omega)) (by omega) (by omega)
        (hmark (by omega))

/-- An inode that gets counters and keeps what is on the device. -/
theorem SfsFs.Tracked.setInode (hs : s.Tracked live) (hk : s.inodes k = some sin)
    {sin' : SfsInode} (hdin : sin'.din = sin.din) (hdirty : sin'.dirty = sin.dirty) :
    (s.setInode k sin').Tracked live where
  toOwned := hs.toOwned.setInode hk (by rw [hdin])
  tail := hs.tail
  mountable := hs.mountable.of_format rfl rfl
  fits j sin₁ hj := by
    rcases eq_or_ne j k with rfl | hjk
    · rw [SfsFs.setInode_inodes_self] at hj
      obtain rfl := Option.some.inj hj
      exact hdin ▸ hs.fits j sin hk
    · rw [SfsFs.setInode_inodes_of_ne _ _ _ hjk] at hj
      exact hs.fits j sin₁ hj
  listed j := by
    rw [SfsFs.setInode_inodeList, hs.listed j]
    rcases eq_or_ne j k with rfl | hjk
    · exact ⟨fun _ ↦ ⟨sin', SfsFs.setInode_inodes_self ..⟩, fun _ ↦ ⟨sin, hk⟩⟩
    · rw [SfsFs.setInode_inodes_of_ne _ _ _ hjk]
  synced :=
  { inode := fun j sin₁ hj hclean i hi ↦ by
      rcases eq_or_ne j k with rfl | hjk
      · rw [SfsFs.setInode_inodes_self] at hj
        obtain rfl := Option.some.inj hj
        rw [hdin]
        exact hs.synced.inode j sin hk (hdirty ▸ hclean) i hi
      · rw [SfsFs.setInode_inodes_of_ne _ _ _ hjk] at hj
        exact hs.synced.inode j sin₁ hj hclean i hi
    superblock := hs.synced.superblock }

/-- Taking an inode into memory as it is on the device. -/
theorem SfsFs.Tracked.setLinks (hs : s.Tracked live) (hlive : k ∈ live) (hk : s.inodes k = none)
    (hdin : sin.din = s.dinOf k) : (s.setLinks k sin).Tracked live where
  toOwned := hs.toOwned.setLinks hlive hdin
  tail := hs.tail
  mountable := hs.mountable.of_format rfl rfl
  fits j sin₁ hj := by
    by_cases hjk : j = k
    · subst hjk
      obtain rfl := Option.some.inj ((s.setInode_inodes_self j sin).symm.trans hj)
      have hrange := SfsDiskInode.ofBytes_inRange (s.dev.blk j)
      rw [hdin, SfsFs.dinOf_of_none hk]
      exact ⟨hrange.size, hrange.type, hrange.nlinks⟩
    · exact hs.fits j sin₁ ((s.setInode_inodes_of_ne k sin hjk).symm.trans hj)
  listed j := by
    change j ∈ k :: s.inodeList ↔ ∃ sin₁, (s.setInode k sin).inodes j = some sin₁
    rw [List.mem_cons, hs.listed j]
    rcases eq_or_ne j k with rfl | hjk
    · exact ⟨fun _ ↦ ⟨sin, SfsFs.setInode_inodes_self ..⟩, fun _ ↦ Or.inl rfl⟩
    · rw [SfsFs.setInode_inodes_of_ne _ _ _ hjk, or_iff_right hjk]
  synced :=
  { inode := fun j sin₁ hj hclean i hi ↦ by
      by_cases hjk : j = k
      · subst hjk
        obtain rfl := Option.some.inj ((s.setInode_inodes_self j sin).symm.trans hj)
        rw [hdin, SfsFs.dinOf_of_none hk, SfsDiskInode.bytes_ofBytes _ hi]
        rfl
      · exact hs.synced.inode j sin₁ ((s.setInode_inodes_of_ne k sin hjk).symm.trans hj) hclean i hi
    superblock := hs.synced.superblock }

theorem sfsLoadInode_tracked (hs : s.Tracked live) (hlive : k ∈ live) :
    ((sfsLoadInode k).run s).Sat (fun _ t ↦ t.Tracked live) fun _ t ↦ t.Tracked live := by
  cases hk : s.inodes k with
  | some sin =>
    rw [sfsLoadInode_cached hk]
    exact hs.setInode hk rfl rfl
  | none =>
    rw [sfsLoadInode_new hs.ok hk (hs.used_inode hlive)]
    split
    · exact hs.setLinks hlive hk rfl
    · trivial

end Steps

/-! ## Writing back -/

namespace SfsFs

/-- `t` is `s` after metadata was written to where it belongs on the device. -/
structure Flushed (s : SfsFs) (live : Finset ℕ) (t : SfsFs) : Prop where
  super : t.super = s.super
  freemap : t.freemap = s.freemap
  inodeList : t.inodeList = s.inodeList
  inodes : ∀ k, t.inodes k = s.inodes k ∨
    ∃ sin, s.inodes k = some sin ∧ t.inodes k = some { sin with dirty := false }
  disk : ∀ k ∈ live, s.inodes k = none → t.dev.blk k = s.dev.blk k
  blk : ∀ c ∉ live, c ≠ sfsBlknSuper →
    (∀ j < sfsFreemapBlocks s.super, c ≠ sfsBlknFreemap + j) → t.dev.blk c = s.dev.blk c

section Flushed

variable {s t u : SfsFs} {live : Finset ℕ} {k : ℕ} {sin : SfsInode}

theorem Flushed.refl : s.Flushed live s :=
  ⟨rfl, rfl, rfl, fun _ ↦ Or.inl rfl, fun _ _ _ ↦ rfl, fun _ _ _ _ ↦ rfl⟩

theorem Flushed.inodes_none (h : s.Flushed live t) (hk : s.inodes k = none) :
    t.inodes k = none := by
  rcases h.inodes k with heq | ⟨sin, hsin, -⟩
  · rw [heq, hk]
  · rw [hk] at hsin
    cases hsin

/-- An inode in memory is still there, as it was but for the flag. -/
theorem Flushed.inodes_some (h : s.Flushed live t) (hk : s.inodes k = some sin) :
    ∃ sin', t.inodes k = some sin' ∧ sin'.din = sin.din ∧
      (sin.dirty = false → sin'.dirty = false) := by
  rcases h.inodes k with heq | ⟨sin', hsin, hk'⟩
  · exact ⟨sin, heq.trans hk, rfl, id⟩
  · rw [hk] at hsin
    cases hsin
    exact ⟨_, hk', rfl, fun _ ↦ rfl⟩

theorem Flushed.exists_iff (h : s.Flushed live t) (k : ℕ) :
    (∃ sin, t.inodes k = some sin) ↔ ∃ sin, s.inodes k = some sin := by
  constructor
  · rintro ⟨sin, hk⟩
    cases hs : s.inodes k with
    | some sin' => exact ⟨sin', rfl⟩
    | none =>
      rw [h.inodes_none hs] at hk
      cases hk
  · rintro ⟨sin, hk⟩
    obtain ⟨sin', hk', -⟩ := h.inodes_some hk
    exact ⟨sin', hk'⟩

theorem Flushed.trans (h : s.Flushed live t) (h' : t.Flushed live u) : s.Flushed live u where
  super := h'.super.trans h.super
  freemap := h'.freemap.trans h.freemap
  inodeList := h'.inodeList.trans h.inodeList
  inodes k := by
    rcases h'.inodes k with heq' | ⟨sin', hk, hk'⟩
    · rw [heq']
      exact h.inodes k
    · rcases h.inodes k with heq | ⟨sin, hsin, heq⟩
      · exact Or.inr ⟨sin', heq ▸ hk, hk'⟩
      · rw [heq] at hk
        cases hk
        exact Or.inr ⟨sin, hsin, hk'⟩
  disk k hk hnone := (h'.disk k hk (h.inodes_none hnone)).trans (h.disk k hk hnone)
  blk c h₁ h₂ h₃ := (h'.blk c h₁ h₂ (by rwa [h.super])).trans (h.blk c h₁ h₂ h₃)

theorem Flushed.dinOf (h : s.Flushed live t) (hk : k ∈ live) : t.dinOf k = s.dinOf k := by
  cases hs : s.inodes k with
  | some sin =>
    obtain ⟨sin', hk', hdin, -⟩ := h.inodes_some hs
    rw [dinOf_of_cached hk', dinOf_of_cached hs, hdin]
  | none => rw [dinOf_of_none (h.inodes_none hs), dinOf_of_none hs, h.disk k hk hs]

/-- The contents of indirect blocks and data blocks are the same. -/
theorem Flushed.blk_of_own (h : s.Flushed live t) (ho : s.Owned live) {o : Owner} {c : ℕ}
    (hc : s.own live o = some c) (hinode : ∀ k, o ≠ .inode k) (hsuper : o.inode? ≠ none) :
    t.dev.blk c = s.dev.blk c := by
  have hzero : s.own live .super = some sfsBlknSuper := rfl
  refine h.blk c (fun hlive ↦ ?_) (ho.exact.ne hc hzero ?_) fun j hj ↦ ?_
  · exact hinode c (ho.exact.inj hc (own_inode hlive))
  · rintro rfl
    exact hsuper rfl
  · have hfm : s.own live (.freemap j) = some (sfsBlknFreemap + j) := if_pos hj
    refine ho.exact.ne hc hfm ?_
    rintro rfl
    exact hsuper rfl

theorem Flushed.sameMap (h : s.Flushed live t) (ho : s.Owned live) (hk : k ∈ live) :
    s.SameMap t k where
  blocks := by rw [h.dinOf hk]
  indirect := by rw [h.dinOf hk]
  bmap i := by
    rw [h.dinOf hk]
    exact bmap_congr rfl rfl fun hne ↦
      h.blk_of_own ho (own_indirect hk hne) (by simp) (by simp [Owner.inode?])
  nlinks := by rw [h.dinOf hk]

/-- Writing metadata back keeps the invariant, given that it keeps the promise of the flags. -/
theorem Flushed.tracked (h : s.Flushed live t) (hs : s.Tracked live) (ht : t.Ok)
    (hsync : t.Synced) :
    t.Tracked live where
  toOwned := by
    refine hs.toOwned.of_sameMaps ht (by rw [h.super]) (fun c ↦ by rw [h.freemap])
      (fun j hj ↦ h.sameMap hs.toOwned hj) fun j sin hj ↦ ?_
    obtain ⟨sin', hj'⟩ := (h.exists_iff j).mp ⟨sin, hj⟩
    exact hs.cached j sin' hj'
  tail c hc := by
    rw [h.freemap] at hc
    rw [h.super]
    exact hs.tail c hc
  mountable := hs.mountable.of_format (by rw [h.super]) (by rw [h.freemap])
  fits j sin hj := by
    rcases h.inodes j with heq | ⟨sin', hsin, hj'⟩
    · exact hs.fits j sin (heq ▸ hj)
    · rw [hj] at hj'
      cases hj'
      exact hs.fits j sin' hsin
  listed j := by rw [h.inodeList, hs.listed j, h.exists_iff j]
  synced := hsync

theorem Tracked.writeBack (hs : s.Tracked live) (hk : s.inodes k = some sin) :
    (s.writeBack k sin).Tracked live ∧ s.Flushed live (s.writeBack k sin) := by
  have hlive := hs.cached k sin hk
  have hself : (s.writeBack k sin).inodes k = some { sin with dirty := false } :=
    setInode_inodes_self ..
  have hother : ∀ j ≠ k, (s.writeBack k sin).inodes j = s.inodes j :=
    fun j hj ↦ s.setInode_inodes_of_ne k _ hj
  have hblk : ∀ c ≠ k, (s.writeBack k sin).dev.blk c = s.dev.blk c :=
    fun c hc ↦ setBlk_blk_of_ne _ _ _ hc
  have hflush : s.Flushed live (s.writeBack k sin) := by
    refine ⟨rfl, rfl, rfl, fun j ↦ ?_, fun j hj hnone ↦ hblk j ?_, fun c hc _ _ ↦ hblk c ?_⟩
    · rcases eq_or_ne j k with rfl | hjk
      · exact Or.inr ⟨sin, hk, hself⟩
      · exact Or.inl (hother j hjk)
    · rintro rfl
      rw [hk] at hnone
      cases hnone
    · rintro rfl
      exact hc hlive
  refine ⟨hflush.tracked hs (hs.toOwned.writeBack hk).ok
    ⟨fun j sin₁ hj hclean i hi ↦ ?_, fun h ↦ ?_⟩, hflush⟩
  · rcases eq_or_ne j k with rfl | hjk
    · rw [hself] at hj
      cases hj
      refine (congrFun (setBlk_blk_self ..) i).trans ?_
      rw [memcpy_of_mem (by omega) (by rw [SfsDiskInode.sizeof]; omega), Nat.zero_add, Nat.sub_zero]
    · rw [hother j hjk] at hj
      rw [hblk j hjk]
      exact hs.synced.inode j sin₁ hj hclean i hi
  · have hholds : (s.writeBack k sin).dev.Holds s.super s.freemap :=
      Holds.of_own live (hs.synced.superblock h) fun o c hc hne ↦ hblk c <| by
        refine hs.exact.ne hc (own_inode hlive) ?_
        rintro rfl
        cases hne
    exact hholds

/-- The state after the superblock and the freemap were written back. -/
def syncSuper (s : SfsFs) : SfsFs :=
  ((s.setSuperDirty false).setBlk sfsBlknSuper
      (memcpy (s.dev.blk sfsBlknSuper) 0
        (memcpy zero 0 s.super.bytes 0 SfsSuper.size) 0 4096)).setBlks
    sfsBlknFreemap (sfsFreemapBlocks s.super) (bitmapGetdata s.freemap) 0

theorem syncSuper_blk {c : ℕ} (h₁ : c ≠ sfsBlknSuper)
    (h₂ : ∀ j < sfsFreemapBlocks s.super, c ≠ sfsBlknFreemap + j) :
    s.syncSuper.dev.blk c = s.dev.blk c := by
  refine (setBlks_blk_of_notMem ?_).trans (setBlk_blk_of_ne _ _ _ h₁)
  by_contra hc
  exact h₂ (c - sfsBlknFreemap) (by omega) (by omega)

theorem Ok.syncSuper (h : s.Ok) : s.syncSuper.Ok where
  faults := h.faults
  blocks_le := h.blocks_le
  wf := h.wf
  blocks_le_nbits := h.blocks_le_nbits
  unused := h.unused

theorem holds_syncSuper : s.syncSuper.dev.Holds s.super s.freemap where
  superblock i hi := by
    have hblk : s.syncSuper.dev.blk sfsBlknSuper
        = memcpy (s.dev.blk sfsBlknSuper) 0
            (memcpy zero 0 s.super.bytes 0 SfsSuper.size) 0 4096 := by
      refine (setBlks_blk_of_notMem (Or.inl ?_)).trans (setBlk_blk_self ..)
      decide
    rw [hblk, memcpy_of_mem (by omega) (by omega), Nat.zero_add, Nat.sub_zero,
      memcpy_of_mem (by omega) (by rw [SfsSuper.size]; omega), Nat.zero_add, Nat.sub_zero]
  freemap i hi := by
    have hoff : 0 + 4096 * (sfsBlknFreemap + i / 4096 - sfsBlknFreemap) + (i % 4096 - 0) = i := by
      omega
    refine (congrFun (setBlks_blk_of_mem (by omega) (by omega)) _).trans ?_
    rw [memcpy_of_mem (by omega) (by omega), hoff]

theorem Tracked.syncSuper (hs : s.Tracked live) :
    s.syncSuper.Tracked live ∧ s.Flushed live s.syncSuper := by
  have hinode : ∀ j ∈ live, s.syncSuper.dev.blk j = s.dev.blk j := fun j hj ↦ by
    have hzero : s.own live .super = some sfsBlknSuper := rfl
    refine syncSuper_blk (hs.exact.ne (own_inode hj) hzero (by simp)) fun i hi ↦ ?_
    have hfm : s.own live (.freemap i) = some (sfsBlknFreemap + i) := if_pos hi
    exact hs.exact.ne (own_inode hj) hfm (by simp)
  have hflush : s.Flushed live s.syncSuper :=
    ⟨rfl, rfl, rfl, fun _ ↦ Or.inl rfl, fun j hj _ ↦ hinode j hj,
      fun c _ h₁ h₂ ↦ syncSuper_blk h₁ h₂⟩
  refine ⟨hflush.tracked hs hs.ok.syncSuper
    ⟨fun j sin hj hclean i hi ↦ ?_, fun _ ↦ holds_syncSuper⟩, hflush⟩
  rw [hinode j (hs.cached j sin hj)]
  exact hs.synced.inode j sin hj hclean i hi

end Flushed

end SfsFs

/-! ## `sfs_sync` -/

section Sync

variable {s : SfsFs} {live : Finset ℕ} {k : ℕ} {sin : SfsInode}

/-- Writing an inode back succeeds and leaves it clean. -/
theorem sfsFsync_flushed (hs : s.Tracked live) (hk : s.inodes k = some sin) :
    ∃ t, (sfsFsync k).run s = .ok () t ∧ t.Tracked live ∧ s.Flushed live t ∧
      t.superDirty = s.superDirty ∧ ∃ sin', t.inodes k = some sin' ∧ sin'.dirty = false := by
  by_cases hdirty : sin.dirty = true
  · obtain ⟨ht, hflush⟩ := hs.writeBack hk
    exact ⟨s.writeBack k sin, sfsFsync_dirty hs.ok hk hdirty (hs.used_inode (hs.cached k sin hk)),
      ht, hflush, rfl, _, SfsFs.setInode_inodes_self .., rfl⟩
  · have hclean : sin.dirty = false := by simpa using hdirty
    exact ⟨s, sfsFsync_clean hk hclean, hs, .refl, rfl, sin, hk, hclean⟩

/-- The loop of `sfs_sync` leaves every inode of the list clean. -/
theorem sfsSyncInodes_flushed (list : List ℕ) (hs : s.Tracked live)
    (hl : ∀ k ∈ list, ∃ sin, s.inodes k = some sin) :
    ∃ t, (sfsSyncInodes list).run s = .ok () t ∧ t.Tracked live ∧ s.Flushed live t ∧
      t.superDirty = s.superDirty ∧
        ∀ k ∈ list, ∃ sin, t.inodes k = some sin ∧ sin.dirty = false := by
  induction list generalizing s with
  | nil => exact ⟨s, rfl, hs, .refl, rfl, fun k hk ↦ absurd hk List.not_mem_nil⟩
  | cons k list ih =>
    obtain ⟨sin, hk⟩ := hl k List.mem_cons_self
    obtain ⟨t, hrun, ht, hflush, hsuper, sin₁, hk₁, hclean⟩ := sfsFsync_flushed hs hk
    obtain ⟨u, hrun', hu, hflush', hsuper', hall⟩ := ih ht fun j hj ↦
      (hflush.exists_iff j).mpr (hl j (List.mem_cons_of_mem _ hj))
    refine ⟨u, ?_, hu, hflush.trans hflush', hsuper'.trans hsuper, fun j hj ↦ ?_⟩
    · rw [sfsSyncInodes, bind_of_ok (attempt_of_ok hrun), hrun']
    · rcases List.mem_cons.mp hj with rfl | hj
      · obtain ⟨sin₂, hk₂, -, hclean₂⟩ := hflush'.inodes_some hk₁
        exact ⟨sin₂, hk₂, hclean₂ hclean⟩
      · exact hall j hj

/-- Writing the superblock and the freemap back succeeds. -/
theorem sfsSyncDirty_eq (ho : s.Ok) (hm : s.Mountable) :
    sfsSyncDirty.run s = .ok () s.syncSuper := by
  have hfits := hm.freemap_le
  have hpos : sfsBlknSuper < s.super.blocks := by
    have hfm : sfsBlknFreemap = 2 := rfl
    rw [sfsBlknSuper]
    omega
  set buf := memcpy zero 0 s.super.bytes 0 SfsSuper.size with hbuf
  set t := (s.setSuperDirty false).setBlk sfsBlknSuper
    (memcpy (s.dev.blk sfsBlknSuper) 0 buf 0 4096) with ht
  have hclear : (s.setSuperDirty false).DevOk := ⟨ho.faults, ho.blocks_le⟩
  have hwrite : (sfsRwblockNolock buf 0 sfsBlknSuper true false).run (s.setSuperDirty false)
      = .ok buf t := sfsRwblockNolock_write hclear (Or.inr rfl) hpos buf 0
  have hsuper : sfsSyncSuper.run (s.setSuperDirty false) = .ok () t := by
    rw [sfsSyncSuper, get_bind_run, SfsFs.setSuperDirty_super, bind_of_ok hwrite, run_pure]
  have hblks : (sfsWblock (bitmapGetdata s.freemap) 0 sfsBlknFreemap
      (sfsFreemapBlocks s.super)).run t = .ok (bitmapGetdata s.freemap) s.syncSuper := by
    have hdev : t.DevOk := hclear.setBlk _ _
    have hne : sfsBlknFreemap ≠ 0 := by decide
    rw [sfsWblock, sfsRwblock_write_eq hdev hne hfits, SfsFs.syncSuper]
  have hfreemap : sfsSyncFreemap.run t = .ok () s.syncSuper := by
    rw [sfsSyncFreemap, get_bind_run, ht, SfsFs.setBlk_freemap, SfsFs.setBlk_super,
      SfsFs.setSuperDirty_freemap, SfsFs.setSuperDirty_super, ← ht, bind_of_ok hblks, run_pure]
  rw [sfsSyncDirty, modify_bind_run, bind_of_ok (onError_of_ok hsuper _)]
  exact onError_of_ok hfreemap _

/-- `sfs_sync` succeeds and leaves nothing dirty. -/
theorem sfsSync_flushed (hs : s.Tracked live) :
    ∃ t, sfsSync.run s = .ok () t ∧ t.Tracked live ∧ s.Flushed live t ∧ t.superDirty = false ∧
      ∀ k sin, t.inodes k = some sin → sin.dirty = false := by
  obtain ⟨t, hrun, ht, hflush, hsuper, hall⟩ := sfsSyncInodes_flushed s.inodeList hs fun k hk ↦
    (hs.listed k).mp hk
  have hclean : ∀ k sin, t.inodes k = some sin → sin.dirty = false := fun k sin hk ↦ by
    have hmem : k ∈ s.inodeList := (hs.listed k).mpr ((hflush.exists_iff k).mp ⟨sin, hk⟩)
    obtain ⟨sin', hk', hd⟩ := hall k hmem
    rw [hk] at hk'
    cases hk'
    exact hd
  by_cases hd : t.superDirty = true
  · obtain ⟨hu, hflush'⟩ := ht.syncSuper
    refine ⟨t.syncSuper, ?_, hu, hflush.trans hflush', rfl, hclean⟩
    rw [sfsSync, get_bind_run, bind_of_ok hrun, get_bind_run, if_pos hd,
      sfsSyncDirty_eq ht.ok ht.mountable]
  · refine ⟨t, ?_, ht, hflush, by simpa using hd, hclean⟩
    rw [sfsSync, get_bind_run, bind_of_ok hrun, get_bind_run, if_neg hd, run_pure]

/-! ## Mounting after a sync -/

/-- The file system `m`, fresh from a mount, is `s`: it has the same superblock and free blocks, and
the same inodes, block maps and contents; loading an inode finds it as it was. -/
structure SfsFs.SameFs (s m : SfsFs) (live : Finset ℕ) : Prop where
  super : m.super = s.super
  isFree : ∀ b, m.freemap.isFree b = s.freemap.isFree b
  freeCount : m.freemap.freeCount = s.freemap.freeCount
  dinOf : ∀ k ∈ live, m.dinOf k = s.dinOf k
  bmap : ∀ k ∈ live, ∀ i, m.bmap (m.dinOf k) i = s.bmap (s.dinOf k) i
  data : ∀ k ∈ live, ∀ i < (s.dinOf k).blocks,
    m.dev.blk (s.bmap (s.dinOf k) i) = s.dev.blk (s.bmap (s.dinOf k) i)
  load : ∀ k ∈ live, (s.dinOf k).nlinks ≠ 0 →
    (s.dinOf k).type = sfsTypeDir ∨ (s.dinOf k).type = sfsTypeFile →
    (sfsLoadInode k).run m = .ok () (m.setLinks k ⟨s.dinOf k, false, 1, 1, 0⟩)

/-- What is mounted from a device that everything was written back to is what was in memory. -/
theorem SfsFs.Tracked.remount (hs : s.Tracked live) (hsuper : s.superDirty = false)
    (hclean : ∀ k sin, s.inodes k = some sin → sin.dirty = false) :
    ∃ m, sfsDoMount.run s.dev = .ok m s.dev ∧ s.SameFs m live := by
  obtain ⟨m, hrun, hm⟩ := SfsFs.sfsDoMount_eq hs.ok hs.mountable hs.mountable.terminate
    (hs.synced.superblock hsuper)
  have hdin : ∀ k, m.dinOf k = s.dinOf k := fun k ↦ by
    rw [SfsFs.dinOf_of_none (hm.inodes k), hm.dev]
    cases hk : s.inodes k with
    | none => rw [SfsFs.dinOf_of_none hk]
    | some sin =>
      rw [SfsFs.dinOf_of_cached hk,
        SfsDiskInode.ofBytes_congr (hs.synced.inode k sin hk (hclean k sin hk)),
        SfsDiskInode.ofBytes_bytes (hs.inRange hk)]
  have hbmap : ∀ k i, m.bmap (m.dinOf k) i = s.bmap (s.dinOf k) i := fun k i ↦ by
    rw [hdin]
    exact SfsFs.bmap_congr rfl rfl fun _ ↦ by rw [hm.dev]
  refine ⟨m, hrun, hm.super, hm.isFree, freeCount_congr hm.nbits hm.isFree, fun k _ ↦ hdin k,
    fun k _ i ↦ hbmap k i, fun k _ i _ ↦ by rw [hm.dev], fun k hk hlinks htype ↦ ?_⟩
  have hused : m.Used k := by
    obtain ⟨hne, hlt, hfree⟩ := hs.used_inode hk
    exact ⟨hne, by rwa [hm.super], by rwa [hm.isFree]⟩
  rw [sfsLoadInode_new hm.ok (hm.inodes k) hused, hdin, if_pos ⟨hlinks, htype⟩]

/-- Syncing and mounting again gives the file system back. -/
theorem sfsSync_remount (hs : s.Tracked live) :
    ∃ t m, sfsSync.run s = .ok () t ∧ sfsDoMount.run t.dev = .ok m t.dev ∧ s.SameFs m live := by
  obtain ⟨t, hrun, ht, hflush, hsuper, hclean⟩ := sfsSync_flushed hs
  obtain ⟨m, hmount, hsame⟩ := ht.remount hsuper hclean
  have hmap := fun k hk ↦ (hflush.sameMap (k := k) hs.toOwned hk).bmap
  refine ⟨t, m, hrun, hmount, hsame.super.trans hflush.super, fun b ↦ ?_, ?_, fun k hk ↦ ?_,
    fun k hk i ↦ ?_, fun k hk i hi ↦ ?_, fun k hk ↦ ?_⟩
  · rw [hsame.isFree, hflush.freemap]
  · rw [hsame.freeCount, hflush.freemap]
  · rw [hsame.dinOf k hk, hflush.dinOf hk]
  · rw [hsame.bmap k hk, hmap k hk]
  · have hdata := hsame.data k hk i (by rwa [hflush.dinOf hk])
    rw [hmap k hk] at hdata
    rw [hdata]
    exact hflush.blk_of_own hs.toOwned (SfsFs.own_data hk hi) (by simp) (by simp [Owner.inode?])
  · rw [← hflush.dinOf hk]
    exact hsame.load k hk

end Sync

end Ucore
