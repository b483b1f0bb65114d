import Ucore.Sfs.BlockMap

/-!
# What the block-map routines do

The block map of an inode is a function `SfsFs.bmap` from logical to device blocks. On an inode
whose map is in order (`SfsFs.Mapped`) a lookup reads that function and changes nothing, an append
extends it at `din->blocks` with a block that was free (`SfsFs.Appended`), and a truncation cuts it
at `din->blocks - 1` (`SfsFs.Truncated`). These three descriptions say everything the routines do
to the state, and nothing below them is unfolded again.
-/

namespace Ucore

open Bytes Prog

namespace SfsFs

/-- The device block of logical block `i`, or `0`. -/
def bmap (s : SfsFs) (din : SfsDiskInode) (i : ℕ) : ℕ :=
  if h : i < 12 then din.direct ⟨i, h⟩
  else if i < 1036 ∧ din.indirect ≠ 0 then read32 (s.dev.blk din.indirect) (4 * (i - 12))
  else 0

/-- The block map is in order: below `din->blocks` every logical block has a device block of its
own, all of them and the indirect block are in use, and at or beyond `din->blocks` there is
nothing. -/
structure Mapped (s : SfsFs) (din : SfsDiskInode) : Prop where
  used : ∀ i < din.blocks, s.Used (s.bmap din i)
  null : ∀ i, din.blocks ≤ i → s.bmap din i = 0
  indirect : din.indirect ≠ 0 → s.Used din.indirect
  inj : ∀ i < din.blocks, ∀ j < din.blocks, s.bmap din i = s.bmap din j → i = j
  ne_indirect : ∀ i < din.blocks, s.bmap din i ≠ din.indirect

section Bmap

variable {s : SfsFs} {din : SfsDiskInode}

theorem bmap_of_lt {i : ℕ} (h : i < 12) : s.bmap din i = din.direct ⟨i, h⟩ := dif_pos h

theorem bmap_of_slot {i : ℕ} (h : ¬i < 12) (h' : i < 1036) (hne : din.indirect ≠ 0) :
    s.bmap din i = read32 (s.dev.blk din.indirect) (4 * (i - 12)) := by
  rw [bmap, dif_neg h, if_pos ⟨h', hne⟩]

theorem bmap_of_indirect_zero {i : ℕ} (h : ¬i < 12) (h0 : din.indirect = 0) :
    s.bmap din i = 0 := by
  rw [bmap, dif_neg h, if_neg fun hc ↦ hc.2 h0]

theorem bmap_of_ge {i : ℕ} (h : 1036 ≤ i) : s.bmap din i = 0 := by
  rw [bmap, dif_neg (by omega), if_neg fun hc ↦ by omega]

theorem lt_of_bmap_ne_zero {i : ℕ} (h : s.bmap din i ≠ 0) : i < 1036 := by
  by_contra hge
  exact h (bmap_of_ge (by omega))

theorem indirect_ne_zero_of_bmap {i : ℕ} (h : s.bmap din i ≠ 0) (hi : ¬i < 12) :
    din.indirect ≠ 0 :=
  fun h0 ↦ h (bmap_of_indirect_zero hi h0)

/-- Beyond the direct entries the map depends on the indirect pointer and block only. -/
theorem bmap_congr_slot {t : SfsFs} {din' : SfsDiskInode} {i : ℕ} (h12 : ¬i < 12)
    (hi : din'.indirect = din.indirect)
    (hb : din.indirect ≠ 0 → t.dev.blk din.indirect = s.dev.blk din.indirect) :
    t.bmap din' i = s.bmap din i := by
  by_cases h0 : din.indirect = 0
  · rw [bmap_of_indirect_zero h12 h0, bmap_of_indirect_zero h12 (hi.trans h0)]
  · by_cases hlt : i < 1036
    · rw [bmap_of_slot h12 hlt h0, bmap_of_slot h12 hlt (hi ▸ h0), hi, hb h0]
    · rw [bmap_of_ge (by omega), bmap_of_ge (by omega)]

/-- The map depends on the direct entries, the indirect pointer and the indirect block only. -/
theorem bmap_congr {t : SfsFs} {din' : SfsDiskInode} {i : ℕ} (hd : din'.direct = din.direct)
    (hi : din'.indirect = din.indirect)
    (hb : din.indirect ≠ 0 → t.dev.blk din.indirect = s.dev.blk din.indirect) :
    t.bmap din' i = s.bmap din i := by
  by_cases h12 : i < 12
  · rw [bmap_of_lt h12, bmap_of_lt h12, hd]
  · exact bmap_congr_slot h12 hi hb

theorem Mapped.blocks_le (h : s.Mapped din) : din.blocks ≤ 1036 := by
  by_contra hgt
  exact (h.used 1036 (by omega)).1 (bmap_of_ge (le_refl _))

theorem Mapped.direct_eq_zero (h : s.Mapped din) {i : ℕ} (hi : i < 12) (hge : din.blocks ≤ i) :
    din.direct ⟨i, hi⟩ = 0 := by
  rw [← bmap_of_lt hi (s := s), h.null i hge]

/-- An inode with more than twelve blocks has an indirect block. -/
theorem Mapped.indirect_ne_zero (h : s.Mapped din) (hgt : 12 < din.blocks) : din.indirect ≠ 0 :=
  indirect_ne_zero_of_bmap (h.used 12 hgt).1 (by omega)

end Bmap

/-! ## The three descriptions -/

/-- `s'` is `s` after a successful append to inode `k`, which gave it block `b` and turned the inode
`sin` into `sin'`. -/
structure Appended (s : SfsFs) (k : ℕ) (sin : SfsInode) (b : ℕ) (s' : SfsFs) (sin' : SfsInode) :
    Prop where
  ok : s'.Ok
  tail : s.TailClear → s'.TailClear
  inodes : s'.inodes = Function.update s.inodes k (some sin')
  inodeList : s'.inodeList = s.inodeList
  counts : sin'.reclaimCount = sin.reclaimCount ∧ sin'.refCount = sin.refCount ∧
    sin'.openCount = sin.openCount
  attrs : sin'.din.size = sin.din.size ∧ sin'.din.type = sin.din.type ∧
    sin'.din.nlinks = sin.din.nlinks
  blocks : sin'.din.blocks = sin.din.blocks + 1
  bmap_last : s'.bmap sin'.din sin.din.blocks = b
  bmap_of_ne : ∀ i ≠ sin.din.blocks, s'.bmap sin'.din i = s.bmap sin.din i
  taken : s.freemap.isFree b = true ∧ b ≠ 0 ∧ b < s.super.blocks
  /-- The indirect block is the old one, or a second block taken for the purpose. -/
  indirect :
    (sin'.din.indirect = sin.din.indirect ∧ s'.freemap.freeCount + 1 = s.freemap.freeCount) ∨
    (sin.din.indirect = 0 ∧ 12 ≤ sin.din.blocks ∧ sin'.din.indirect ≠ b ∧
      s.freemap.isFree sin'.din.indirect = true ∧ sin'.din.indirect ≠ 0 ∧
      sin'.din.indirect < s.super.blocks ∧ s'.freemap.freeCount + 2 = s.freemap.freeCount)
  free : ∀ c, s'.freemap.isFree c = true ↔
    s.freemap.isFree c = true ∧ c ≠ b ∧ c ≠ sin'.din.indirect
  blk : ∀ c, c ≠ b → (c ≠ sin'.din.indirect ∨ c = 0) → s'.dev.blk c = s.dev.blk c
  cleared : ∀ i < 4096, s'.dev.blk b i = 0
  super : s'.super = { s.super with unusedBlocks := s'.super.unusedBlocks }
  nbits : s'.freemap.nbits = s.freemap.nbits
  superDirty : s'.superDirty = true
  /-- The inode is marked unless the number of the block went into an indirect block it had. -/
  dirty : sin'.dirty = if 12 ≤ sin.din.blocks ∧ sin.din.indirect ≠ 0 then sin.dirty else true

/-- `s'` is `s` after an append that found no block: only the contents of free blocks and
`super_dirty` may have changed. -/
structure NoSpace (s s' : SfsFs) : Prop where
  ok : s'.Ok
  inodes : s'.inodes = s.inodes
  inodeList : s'.inodeList = s.inodeList
  freemap : s'.freemap = s.freemap
  super : s'.super = s.super
  blk : ∀ c, s.freemap.isFree c = false → s'.dev.blk c = s.dev.blk c
  superDirty : s'.superDirty = true ∨ s' = s

/-- `s'` is `s` after the last block `b` of inode `k` was cut off, which turned the inode `sin` into
`sin'`. -/
structure Truncated (s : SfsFs) (k : ℕ) (sin : SfsInode) (b : ℕ) (s' : SfsFs) (sin' : SfsInode) :
    Prop where
  ok : s'.Ok
  tail : s.TailClear → s'.TailClear
  inodes : s'.inodes = Function.update s.inodes k (some sin')
  inodeList : s'.inodeList = s.inodeList
  counts : sin'.reclaimCount = sin.reclaimCount ∧ sin'.refCount = sin.refCount ∧
    sin'.openCount = sin.openCount
  attrs : sin'.din.size = sin.din.size ∧ sin'.din.type = sin.din.type ∧
    sin'.din.nlinks = sin.din.nlinks ∧ sin'.din.indirect = sin.din.indirect
  blocks : sin'.din.blocks + 1 = sin.din.blocks
  last : s.bmap sin.din sin'.din.blocks = b
  bmap_last : s'.bmap sin'.din sin'.din.blocks = 0
  bmap_of_ne : ∀ i ≠ sin'.din.blocks, s'.bmap sin'.din i = s.bmap sin.din i
  free : ∀ c, s'.freemap.isFree c = true ↔ s.freemap.isFree c = true ∨ c = b
  blk : ∀ c, (c ≠ sin.din.indirect ∨ c = 0) → s'.dev.blk c = s.dev.blk c
  super : s'.super = { s.super with unusedBlocks := s'.super.unusedBlocks }
  nbits : s'.freemap.nbits = s.freemap.nbits
  superDirty : s'.superDirty = true
  dirty : sin'.dirty = true

end SfsFs

/-! ## Lookup -/

section Lookup

variable {s : SfsFs} {k : ℕ} {sin : SfsInode}

theorem sfsBmapGetOut_eq (h : s.Ok) {b : ℕ} (hb : s.Used b) :
    (sfsBmapGetOut b).run s = .ok b s := by
  rw [sfsBmapGetOut, if_neg hb.1, bind_of_ok (sfsBlockInuse_of_used h hb), assert_bind_run rfl,
    run_pure]

/-- Reading slot `j` of an entry block. -/
theorem slot_read_eq (h : s.Ok) {ent j : ℕ} (he : s.Used ent) (hj : j < 1024) :
    (sfsRbuf zero 0 4 ent (4 * j)).run s = .ok (memcpy zero 0 (s.dev.blk ent) (4 * j) 4) s :=
  sfsRbuf_eq h.toDevOk he.1 he.2.1 _ _ (by omega) (by omega)

theorem read32_slot (b : Bytes) (j : ℕ) :
    read32 (memcpy zero 0 b (4 * j) 4) 0 = read32 b (4 * j) := by
  rw [read32, read32]
  simp [memcpy]

theorem sfsBmapGetNolock_of_used (h : s.Ok) (hk : s.inodes k = some sin) {i : ℕ} (create : Bool)
    (hi : s.Used (s.bmap sin.din i)) (hind : sin.din.indirect ≠ 0 → s.Used sin.din.indirect) :
    (sfsBmapGetNolock k i create).run s = .ok (s.bmap sin.din i) s := by
  rw [sfsBmapGetNolock, bind_of_ok (getSin_eq hk)]
  by_cases h12 : i < 12
  · rw [SfsFs.bmap_of_lt h12] at hi ⊢
    rw [dif_pos h12, if_neg fun hc ↦ hi.1 hc.1, sfsBmapGetOut_eq h hi]
  · have hlt := SfsFs.lt_of_bmap_ne_zero hi.1
    have hne := SfsFs.indirect_ne_zero_of_bmap hi.1 h12
    rw [SfsFs.bmap_of_slot h12 hlt hne] at hi ⊢
    have hsub : (sfsBmapGetSubNolock sin.din.indirect (i - 12) create).run s
        = .ok (sin.din.indirect, read32 (s.dev.blk sin.din.indirect) (4 * (i - 12))) s := by
      have hj : i - 12 < sfsBlkNentry := by
        rw [sfsBlkNentry_eq]
        omega
      rw [sfsBmapGetSubNolock, assert_bind_run hj, if_pos hne,
        bind_of_ok (slot_read_eq h (hind hne) hj), read32_slot, if_pos (Or.inl hi.1), run_pure]
    rw [dif_neg h12, sfsNdirect_eq, sfsBlkNentry_eq, if_pos (by omega), bind_of_ok hsub]
    dsimp only
    rw [if_neg (not_not.mpr rfl), sfsBmapGetOut_eq h hi]

/-- A lookup of a mapped block returns it and changes nothing. -/
theorem sfsBmapLoadNolock_of_used (h : s.Ok) (hk : s.inodes k = some sin) {i : ℕ}
    (hi : i < sin.din.blocks) (hused : s.Used (s.bmap sin.din i))
    (hind : sin.din.indirect ≠ 0 → s.Used sin.din.indirect) :
    (sfsBmapLoadNolock k i).run s = .ok (s.bmap sin.din i) s := by
  rw [sfsBmapLoadNolock, bind_of_ok (getSin_eq hk), assert_bind_run hi.le,
    bind_of_ok (sfsBmapGetNolock_of_used h hk _ hused hind),
    bind_of_ok (sfsBlockInuse_of_used h hused), assert_bind_run rfl, if_neg hi.ne, run_pure]

/-- A lookup below `din->blocks` returns the mapped block and changes nothing. -/
theorem sfsBmapLoadNolock_lookup (h : s.Ok) (hk : s.inodes k = some sin) (hm : s.Mapped sin.din)
    {i : ℕ} (hi : i < sin.din.blocks) :
    (sfsBmapLoadNolock k i).run s = .ok (s.bmap sin.din i) s :=
  sfsBmapLoadNolock_of_used h hk hi (hm.used i hi) hm.indirect

end Lookup

/-! ## Append -/

section Append

variable {s : SfsFs} {k : ℕ} {sin : SfsInode}

theorem SfsFs.Used.ne_of_isFree {b c : ℕ} (hc : s.Used c) (hb : s.freemap.isFree b = true) :
    c ≠ b := by
  rintro rfl
  rw [hc.2.2] at hb
  exact Bool.noConfusion hb

/-- Writing one word of an entry block. -/
theorem slot_write_eq (h : s.Ok) {ent j : ℕ} (he : s.Used ent) (hj : j < 1024) (n : ℕ) :
    (sfsWbuf (le n) 0 4 ent (4 * j)).run s
      = .ok (le n) (s.setBlk ent (memcpy (s.dev.blk ent) (4 * j) (le n) 0 4)) :=
  sfsWbuf_eq h.toDevOk he.1 he.2.1 _ _ (by omega) (by omega)

/-- Filling a slot of an entry block takes a block and writes its number there, or finds no block
and gives back the entry block if it is new. -/
theorem sfsBmapFillSlot_cases (h : s.Ok) (entp : ℕ) {ent j : ℕ} (he : s.Used ent) (hj : j < 1024) :
    (∃ b, s.freemap.isFree b = true ∧ b ≠ 0 ∧ b < s.super.blocks ∧
        (sfsBmapFillSlot entp ent (4 * j)).run s = .ok (ent, b)
          ((s.takeBlock b).setBlk ent (memcpy (s.dev.blk ent) (4 * j) (le b) 0 4))) ∨
      ((∀ c, s.freemap.isFree c = false) ∧
        (sfsBmapFillSlot entp ent (4 * j)).run s
          = .error .noMem (if ent ≠ entp then s.releaseBlock ent else s)) ∨
      (¬s.TailClear ∧ (sfsBmapFillSlot entp ent (4 * j)).run s = .panic) := by
  rcases sfsBlockAlloc_cases h with ⟨b, hfree, -, hb, hlt, hrun⟩ | ⟨hnone, hrun⟩ | ⟨htail, hrun⟩
  · have hne := he.ne_of_isFree hfree
    have hused : (s.takeBlock b).Used ent := (SfsFs.used_takeBlock hfree).mpr (Or.inl he)
    refine Or.inl ⟨b, hfree, hb, hlt, ?_⟩
    rw [sfsBmapFillSlot, bind_of_ok (onError_of_ok hrun _),
      bind_of_ok (onError_of_ok (slot_write_eq (h.takeBlock hfree) hused hj b) _), run_pure,
      SfsFs.takeBlock_blk_of_ne _ _ hne]
  · refine Or.inr (Or.inl ⟨hnone, ?_⟩)
    have hclean : (sfsBmapCleanup entp ent).run s
        = .ok () (if ent ≠ entp then s.releaseBlock ent else s) := by
      rw [sfsBmapCleanup]
      split
      · exact sfsBlockFree_eq h he
      · rfl
    have hfail : (sfsBlockAlloc.onError (sfsBmapCleanup entp ent)).run s
        = .error .noMem (if ent ≠ entp then s.releaseBlock ent else s) := by
      rw [onError_of_error hrun, bind_of_ok hclean, run_fail]
    rw [sfsBmapFillSlot, bind_of_error hfail]
  · exact Or.inr (Or.inr ⟨htail, by rw [sfsBmapFillSlot, bind_of_panic (onError_of_panic hrun _)]⟩)

theorem SfsFs.DevOk.lt_pow (h : s.DevOk) {b : ℕ} (hb : b < s.super.blocks) : b < 2 ^ 32 := by
  have := h.blocks_le
  have := s.dev.dBlocks_lt
  omega

theorem cleared_apply (c : Bytes) {i : ℕ} (hi : i < 4096) : memcpy c 0 zero 0 4096 i = 0 := by
  rw [memcpy_of_mem (by omega) (by omega), zero_apply]

theorem read32_cleared (c : Bytes) {j : ℕ} (hj : j < 1024) :
    read32 (memcpy c 0 zero 0 4096) (4 * j) = 0 := by
  rw [← read32_zero (4 * j)]
  exact read32_congr fun i _ hi ↦ cleared_apply c (by omega)

/-- The append of a direct block. -/
theorem appended_direct (h : s.Ok) (hm : s.Mapped sin.din) (h12 : sin.din.blocks < 12) {b : ℕ}
    (hfree : s.freemap.isFree b = true) (hb : b ≠ 0) (hlt : b < s.super.blocks)
    (h0 : s.freemap.isFree 0 = false) :
    s.Appended k sin b
      ((s.takeBlock b).setInode k
        ((sin.setDirect ⟨sin.din.blocks, h12⟩ b).setBlocks (sin.din.blocks + 1)))
      ((sin.setDirect ⟨sin.din.blocks, h12⟩ b).setBlocks (sin.din.blocks + 1)) where
  ok := (h.takeBlock hfree).setInode _ _
  tail ht := ht.takeBlock hfree
  inodes := rfl
  inodeList := rfl
  counts := ⟨rfl, rfl, rfl⟩
  attrs := ⟨rfl, rfl, rfl⟩
  blocks := rfl
  bmap_last := by
    rw [SfsFs.bmap_of_lt h12]
    exact Function.update_self ..
  bmap_of_ne i hi := by
    by_cases hi12 : i < 12
    · rw [SfsFs.bmap_of_lt hi12, SfsFs.bmap_of_lt hi12]
      exact Function.update_of_ne (fun hc ↦ hi (Fin.mk.inj hc)) ..
    · exact SfsFs.bmap_congr_slot hi12 rfl fun hne ↦
        s.takeBlock_blk_of_ne b ((hm.indirect hne).ne_of_isFree hfree)
  taken := ⟨hfree, hb, hlt⟩
  indirect := Or.inl ⟨rfl, Bitmap.freeCount_flip hfree⟩
  free c := by
    have hind : s.freemap.isFree sin.din.indirect = false := by
      by_cases hne : sin.din.indirect = 0
      · rw [hne, h0]
      · exact (hm.indirect hne).2.2
    refine (Bitmap.isFree_flip hfree c).trans
      ⟨fun ⟨hc, hcb⟩ ↦ ⟨hc, hcb, ?_⟩, fun hc ↦ ⟨hc.1, hc.2.1⟩⟩
    rintro rfl
    exact Bool.noConfusion (hc.symm.trans hind)
  blk c hc _ := s.takeBlock_blk_of_ne b hc
  cleared i hi := by
    rw [SfsFs.setInode_dev, SfsFs.takeBlock_blk_self]
    exact cleared_apply _ hi
  super := rfl
  nbits := rfl
  superDirty := rfl
  dirty := (if_neg fun hc ↦ absurd hc.1 (by omega)).symm

/-- The append of a block whose number goes into an existing indirect block. The inode is not marked
dirty. -/
theorem appended_slot (h : s.Ok) (hm : s.Mapped sin.din) {j : ℕ} (hj : sin.din.blocks = 12 + j)
    (hlt' : sin.din.blocks < 1036) (hne : sin.din.indirect ≠ 0) {b : ℕ}
    (hfree : s.freemap.isFree b = true) (hb : b ≠ 0) (hlt : b < s.super.blocks) :
    s.Appended k sin b
      (((s.takeBlock b).setBlk sin.din.indirect
          (memcpy (s.dev.blk sin.din.indirect) (4 * j) (le b) 0 4)).setInode k
        (sin.setBlocks (sin.din.blocks + 1)))
      (sin.setBlocks (sin.din.blocks + 1)) where
  ok := ((h.takeBlock hfree).setBlk _ _).setInode _ _
  tail ht := ht.takeBlock hfree
  inodes := rfl
  inodeList := rfl
  counts := ⟨rfl, rfl, rfl⟩
  attrs := ⟨rfl, rfl, rfl⟩
  blocks := rfl
  bmap_last := by
    refine (SfsFs.bmap_of_slot (by omega) hlt' hne).trans ?_
    rw [SfsFs.setInode_dev]
    refine (congrArg (read32 · _) (SfsFs.setBlk_blk_self ..)).trans ?_
    rw [show 4 * (sin.din.blocks - 12) = 4 * j by omega]
    exact read32_memcpy_le _ _ (h.toDevOk.lt_pow hlt)
  -- of the entry block only the word of the new index changes
  bmap_of_ne i hi := by
    by_cases hi12 : i < 12
    · rw [SfsFs.bmap_of_lt hi12, SfsFs.bmap_of_lt hi12]
      rfl
    · by_cases hlt'' : i < 1036
      · rw [SfsFs.bmap_of_slot hi12 hlt'' hne]
        refine (SfsFs.bmap_of_slot hi12 hlt'' hne).trans ?_
        rw [SfsFs.setInode_dev]
        refine (congrArg (read32 · _) (SfsFs.setBlk_blk_self ..)).trans ?_
        exact read32_memcpy_of_ne _ _ _ (by omega)
      · rw [SfsFs.bmap_of_ge (by omega), SfsFs.bmap_of_ge (by omega)]
  taken := ⟨hfree, hb, hlt⟩
  indirect := Or.inl ⟨rfl, Bitmap.freeCount_flip hfree⟩
  free c := by
    refine (Bitmap.isFree_flip hfree c).trans
      ⟨fun ⟨hc, hcb⟩ ↦ ⟨hc, hcb, ?_⟩, fun hc ↦ ⟨hc.1, hc.2.1⟩⟩
    rintro rfl
    exact Bool.noConfusion (hc.symm.trans (hm.indirect hne).2.2)
  blk c hcb hce := by
    have hce' : c ≠ sin.din.indirect := by
      rcases hce with hce | rfl
      · exact hce
      · exact hne.symm
    rw [SfsFs.setInode_dev, SfsFs.setBlk_blk_of_ne _ _ _ hce', SfsFs.takeBlock_blk_of_ne _ _ hcb]
  cleared i hi := by
    have hbe : b ≠ sin.din.indirect := ((hm.indirect hne).ne_of_isFree hfree).symm
    rw [SfsFs.setInode_dev, SfsFs.setBlk_blk_of_ne _ _ _ hbe, SfsFs.takeBlock_blk_self]
    exact cleared_apply _ hi
  super := rfl
  nbits := rfl
  superDirty := rfl
  dirty := (if_pos ⟨by omega, hne⟩).symm

/-- The append of the first block beyond the direct ones, which takes a block `e` for the entries
as well. -/
theorem appended_entry (h : s.Ok) {j : ℕ} (hj : sin.din.blocks = 12 + j)
    (hlt' : sin.din.blocks < 1036) (hzero : sin.din.indirect = 0) {e b : ℕ}
    (hefree : s.freemap.isFree e = true) (he : e ≠ 0) (helt : e < s.super.blocks)
    (hfree : (s.takeBlock e).freemap.isFree b = true) (hb : b ≠ 0) (hlt : b < s.super.blocks) :
    s.Appended k sin b
      ((((s.takeBlock e).takeBlock b).setBlk e
          (memcpy ((s.takeBlock e).dev.blk e) (4 * j) (le b) 0 4)).setInode k
        ((sin.setIndirect e).setBlocks (sin.din.blocks + 1)))
      ((sin.setIndirect e).setBlocks (sin.din.blocks + 1)) := by
  -- the second block that is taken is not the first
  have hpair : s.freemap.isFree b = true ∧ b ≠ e := (Bitmap.isFree_flip hefree b).mp hfree
  exact
  { ok := (((h.takeBlock hefree).takeBlock hfree).setBlk _ _).setInode _ _
    tail := fun ht ↦ (ht.takeBlock hefree).takeBlock hfree
    inodes := rfl
    inodeList := rfl
    counts := ⟨rfl, rfl, rfl⟩
    attrs := ⟨rfl, rfl, rfl⟩
    blocks := rfl
    bmap_last := by
      refine (SfsFs.bmap_of_slot (by omega) hlt' he).trans ?_
      rw [SfsFs.setInode_dev]
      refine (congrArg (read32 · _) (SfsFs.setBlk_blk_self ..)).trans ?_
      rw [show 4 * (sin.din.blocks - 12) = 4 * j by omega]
      exact read32_memcpy_le _ _ (h.toDevOk.lt_pow hlt)
    -- the other words of the new entry block are zero, as `sfs_block_alloc` clears it
    bmap_of_ne := fun i hi ↦ by
      by_cases hi12 : i < 12
      · rw [SfsFs.bmap_of_lt hi12, SfsFs.bmap_of_lt hi12]
        rfl
      · rw [SfsFs.bmap_of_indirect_zero hi12 hzero]
        by_cases hlt'' : i < 1036
        · refine (SfsFs.bmap_of_slot hi12 hlt'' he).trans ?_
          rw [SfsFs.setInode_dev]
          refine (congrArg (read32 · _) (SfsFs.setBlk_blk_self ..)).trans ?_
          refine (read32_memcpy_of_ne _ _ _ (by omega)).trans ?_
          rw [SfsFs.takeBlock_blk_self]
          exact read32_cleared _ (by omega)
        · exact SfsFs.bmap_of_ge (by omega)
    taken := ⟨hpair.1, hb, hlt⟩
    indirect := by
      have hcount₁ := Bitmap.freeCount_flip hefree
      have hcount₂ := Bitmap.freeCount_flip hfree
      refine Or.inr ⟨hzero, by omega, hpair.2.symm, hefree, he, helt, ?_⟩
      change ((s.takeBlock e).freemap.flip b).freeCount + 2 = s.freemap.freeCount
      rw [SfsFs.takeBlock_freemap] at hcount₂ ⊢
      omega
    free := fun c ↦ by
      refine (Bitmap.isFree_flip hfree c).trans ?_
      rw [SfsFs.takeBlock_freemap, Bitmap.isFree_flip hefree, and_assoc, and_comm (a := c ≠ e)]
      rfl
    blk := fun c hcb hce ↦ by
      have hce' : c ≠ e := by
        rcases hce with hce | rfl
        · exact hce
        · exact he.symm
      rw [SfsFs.setInode_dev, SfsFs.setBlk_blk_of_ne _ _ _ hce', SfsFs.takeBlock_blk_of_ne _ _ hcb]
      exact s.takeBlock_blk_of_ne e hce'
    cleared := fun i hi ↦ by
      rw [SfsFs.setInode_dev, SfsFs.setBlk_blk_of_ne _ _ _ hpair.2, SfsFs.takeBlock_blk_self]
      exact cleared_apply _ hi
    super := rfl
    nbits := rfl
    superDirty := rfl
    dirty := (if_neg fun hc ↦ hc.2 hzero).symm }

/-- Giving back a block that was taken for the entries leaves a state without space as it was. -/
theorem noSpace_releaseBlock (h : s.Ok) {e : ℕ} (hfree : s.freemap.isFree e = true) :
    s.NoSpace ((s.takeBlock e).releaseBlock e) := by
  rw [releaseBlock_takeBlock h hfree]
  exact
  { ok :=
    { faults := h.faults
      blocks_le := h.blocks_le
      wf := h.wf
      blocks_le_nbits := h.blocks_le_nbits
      unused := h.unused }
    inodes := rfl
    inodeList := rfl
    freemap := rfl
    super := rfl
    blk := fun c hc ↦ s.setBlk_blk_of_ne e _ fun hce ↦ by
      rw [hce, hfree] at hc
      exact Bool.noConfusion hc
    superDirty := Or.inl rfl }

theorem SfsFs.NoSpace.refl (h : s.Ok) : s.NoSpace s :=
  ⟨h, rfl, rfl, rfl, rfl, fun _ _ ↦ rfl, Or.inr rfl⟩

/-- What `sfs_bmap_load_nolock` does once `sfs_bmap_get_nolock` has made the block. -/
theorem sfsBmapLoadNolock_of_get {t : SfsFs} {sin₁ : SfsInode} {b : ℕ}
    (hk : s.inodes k = some sin)
    (hget : (sfsBmapGetNolock k sin.din.blocks true).run s = .ok b t) (ht : t.Ok) (hb : t.Used b)
    (hk₁ : t.inodes k = some sin₁) :
    (sfsBmapLoadNolock k sin.din.blocks).run s
      = .ok b (t.setInode k (sin₁.setBlocks (sin₁.din.blocks + 1))) := by
  have hget' : (sfsBmapGetNolock k sin.din.blocks (decide (sin.din.blocks = sin.din.blocks))).run s
      = .ok b t := by rwa [decide_eq_true rfl]
  rw [sfsBmapLoadNolock, bind_of_ok (getSin_eq hk), assert_bind_run (le_refl _), bind_of_ok hget',
    bind_of_ok (sfsBlockInuse_of_used ht hb), assert_bind_run rfl, if_pos rfl,
    bind_of_ok (getSin_eq hk₁)]
  rfl

theorem sfsBmapLoadNolock_of_get_error {t : SfsFs} {e : Errno} (hk : s.inodes k = some sin)
    (hget : (sfsBmapGetNolock k sin.din.blocks true).run s = .error e t) :
    (sfsBmapLoadNolock k sin.din.blocks).run s = .error e t := by
  have hget' : (sfsBmapGetNolock k sin.din.blocks (decide (sin.din.blocks = sin.din.blocks))).run s
      = .error e t := by rwa [decide_eq_true rfl]
  rw [sfsBmapLoadNolock, bind_of_ok (getSin_eq hk), assert_bind_run (le_refl _),
    bind_of_error hget']

theorem sfsBmapLoadNolock_of_get_panic (hk : s.inodes k = some sin)
    (hget : (sfsBmapGetNolock k sin.din.blocks true).run s = .panic) :
    (sfsBmapLoadNolock k sin.din.blocks).run s = .panic := by
  have hget' : (sfsBmapGetNolock k sin.din.blocks (decide (sin.din.blocks = sin.din.blocks))).run s
      = .panic := by rwa [decide_eq_true rfl]
  rw [sfsBmapLoadNolock, bind_of_ok (getSin_eq hk), assert_bind_run (le_refl _),
    bind_of_panic hget']

/-- The number of blocks an append takes: one for the data, and one for the entries if it is the
first append beyond the direct entries. -/
def appendCost (din : SfsDiskInode) : ℕ := if 12 ≤ din.blocks ∧ din.indirect = 0 then 2 else 1

/-- The three ways an append can end. -/
def AppendCases (s : SfsFs) (k : ℕ) (sin : SfsInode) : Prop :=
  (∃ b s' sin', s.Appended k sin b s' sin' ∧
      (sfsBmapLoadNolock k sin.din.blocks).run s = .ok b s') ∨
    (∃ s', s.NoSpace s' ∧ s.freemap.freeCount < appendCost sin.din ∧
      (sfsBmapLoadNolock k sin.din.blocks).run s = .error .noMem s') ∨
    (¬s.TailClear ∧ (sfsBmapLoadNolock k sin.din.blocks).run s = .panic)

theorem freeCount_eq_zero {b : Bitmap} (h : ∀ c, b.isFree c = false) : b.freeCount = 0 := by
  by_contra hne
  obtain ⟨i, hi⟩ := Bitmap.exists_isFree_of_freeCount_pos (Nat.pos_of_ne_zero hne)
  rw [h i] at hi
  exact Bool.noConfusion hi

theorem sfsBmapLoadNolock_direct (h : s.Ok) (hk : s.inodes k = some sin) (hm : s.Mapped sin.din)
    (h0 : s.freemap.isFree 0 = false) (h12 : sin.din.blocks < 12) : AppendCases s k sin := by
  have hnull := hm.direct_eq_zero h12 (le_refl _)
  have hstart : ∀ {o : Outcome Errno SfsFs ℕ},
      ((sfsBlockAlloc >>= fun ino ↦ do
          putSin k (sin.setDirect ⟨sin.din.blocks, h12⟩ ino)
          sfsBmapGetOut ino).run s) = o →
        (sfsBmapGetNolock k sin.din.blocks true).run s = o := by
    rintro o rfl
    rw [sfsBmapGetNolock, bind_of_ok (getSin_eq hk), dif_pos h12, if_pos ⟨hnull, rfl⟩]
  rcases sfsBlockAlloc_cases h with ⟨b, hfree, -, hb, hlt, hrun⟩ | ⟨hnone, hrun⟩ | ⟨htail, hrun⟩
  · set t := (s.takeBlock b).setInode k (sin.setDirect ⟨sin.din.blocks, h12⟩ b) with ht
    have hok : t.Ok := (h.takeBlock hfree).setInode _ _
    have hused : t.Used b := (SfsFs.used_takeBlock hfree).mpr (Or.inr ⟨rfl, hb, hlt⟩)
    have hget : (sfsBmapGetNolock k sin.din.blocks true).run s = .ok b t := by
      refine hstart ?_
      rw [bind_of_ok hrun, putSin_bind_run, sfsBmapGetOut_eq hok hused]
    have hload := sfsBmapLoadNolock_of_get hk hget hok hused (SfsFs.setInode_inodes_self ..)
    rw [ht, SfsFs.setInode_setInode] at hload
    exact Or.inl ⟨b, _, _, appended_direct h hm h12 hfree hb hlt h0, hload⟩
  · refine Or.inr (Or.inl ⟨s, SfsFs.NoSpace.refl h, ?_, ?_⟩)
    · rw [freeCount_eq_zero hnone, appendCost]
      split <;> omega
    · exact sfsBmapLoadNolock_of_get_error hk (hstart (bind_of_error hrun _))
  · exact Or.inr (Or.inr ⟨htail, sfsBmapLoadNolock_of_get_panic hk (hstart (bind_of_panic hrun _))⟩)

theorem sfsBmapGetNolock_slot (hk : s.inodes k = some sin) {i : ℕ} (h12 : ¬i < 12) (hlt : i < 1036)
    (create : Bool) :
    (sfsBmapGetNolock k i create).run s
      = (sfsBmapGetSubNolock sin.din.indirect (i - 12) create >>= fun p ↦
          if p.1 ≠ sin.din.indirect then do
            assert (sin.din.indirect = 0)
            putSin k (sin.setIndirect p.1)
            sfsBmapGetOut p.2
          else sfsBmapGetOut p.2).run s := by
  rw [sfsBmapGetNolock, bind_of_ok (getSin_eq hk), dif_neg h12, sfsNdirect_eq, sfsBlkNentry_eq,
    if_pos (by omega)]

theorem sfsBmapLoadNolock_slot (h : s.Ok) (hk : s.inodes k = some sin) (hm : s.Mapped sin.din)
    (h12 : ¬sin.din.blocks < 12) (hlt' : sin.din.blocks < 1036) (hne : sin.din.indirect ≠ 0) :
    AppendCases s k sin := by
  have hj : sin.din.blocks - 12 < sfsBlkNentry := by
    rw [sfsBlkNentry_eq]
    omega
  have hzero : read32 (s.dev.blk sin.din.indirect) (4 * (sin.din.blocks - 12)) = 0 := by
    rw [← SfsFs.bmap_of_slot h12 hlt' hne]
    exact hm.null _ (le_refl _)
  have hsub : (sfsBmapGetSubNolock sin.din.indirect (sin.din.blocks - 12) true).run s
      = (sfsBmapFillSlot sin.din.indirect sin.din.indirect (4 * (sin.din.blocks - 12))).run s := by
    rw [sfsBmapGetSubNolock, assert_bind_run hj, if_pos hne,
      bind_of_ok (slot_read_eq h (hm.indirect hne) hj), read32_slot, hzero, if_neg (by simp)]
  rcases sfsBmapFillSlot_cases h sin.din.indirect (hm.indirect hne) hj with
    ⟨b, hfree, hb, hlt, hrun⟩ | ⟨hnone, hrun⟩ | ⟨htail, hrun⟩
  · set t := (s.takeBlock b).setBlk sin.din.indirect
      (memcpy (s.dev.blk sin.din.indirect) (4 * (sin.din.blocks - 12)) (le b) 0 4) with ht
    have hok : t.Ok := (h.takeBlock hfree).setBlk _ _
    have hused : t.Used b := (SfsFs.used_takeBlock hfree).mpr (Or.inr ⟨rfl, hb, hlt⟩)
    have hget : (sfsBmapGetNolock k sin.din.blocks true).run s = .ok b t := by
      rw [sfsBmapGetNolock_slot hk h12 hlt', bind_of_ok (hsub.trans hrun),
        if_neg (not_not.mpr rfl), sfsBmapGetOut_eq hok hused]
    have hload := sfsBmapLoadNolock_of_get hk hget hok hused (by rw [ht]; exact hk)
    exact Or.inl ⟨b, _, _, appended_slot h hm (by omega) hlt' hne hfree hb hlt, hload⟩
  · rw [if_neg (not_not.mpr rfl)] at hrun
    refine Or.inr (Or.inl ⟨s, SfsFs.NoSpace.refl h, ?_, ?_⟩)
    · rw [freeCount_eq_zero hnone, appendCost]
      split <;> omega
    · refine sfsBmapLoadNolock_of_get_error hk ?_
      rw [sfsBmapGetNolock_slot hk h12 hlt', bind_of_error (hsub.trans hrun)]
  · refine Or.inr (Or.inr ⟨htail, sfsBmapLoadNolock_of_get_panic hk ?_⟩)
    rw [sfsBmapGetNolock_slot hk h12 hlt', bind_of_panic (hsub.trans hrun)]

theorem sfsBmapLoadNolock_entry (h : s.Ok) (hk : s.inodes k = some sin)
    (h12 : ¬sin.din.blocks < 12) (hlt' : sin.din.blocks < 1036) (hzero : sin.din.indirect = 0) :
    AppendCases s k sin := by
  have hj : sin.din.blocks - 12 < sfsBlkNentry := by
    rw [sfsBlkNentry_eq]
    omega
  have hcost : appendCost sin.din = 2 := if_pos ⟨by omega, hzero⟩
  have hsub : (sfsBmapGetSubNolock sin.din.indirect (sin.din.blocks - 12) true).run s
      = (sfsBlockAlloc >>= fun ent ↦
          sfsBmapFillSlot sin.din.indirect ent (4 * (sin.din.blocks - 12))).run s := by
    rw [sfsBmapGetSubNolock, assert_bind_run hj, if_neg (not_not.mpr hzero), if_neg (by simp)]
  -- two blocks are wanted: first one for the entries, then one for the data
  rcases sfsBlockAlloc_cases h with ⟨e, hefree, -, he, helt, halloc⟩ | ⟨hnone, hrun⟩ | ⟨htail, hrun⟩
  · have heok := h.takeBlock hefree
    have heused : (s.takeBlock e).Used e :=
      (SfsFs.used_takeBlock hefree).mpr (Or.inr ⟨rfl, he, helt⟩)
    have hne : e ≠ sin.din.indirect := by rwa [hzero]
    rcases sfsBmapFillSlot_cases heok sin.din.indirect heused hj with
      ⟨b, hfree, hb, hlt, hrun⟩ | ⟨hnone, hrun⟩ | ⟨htail, hrun⟩
    · set t := ((s.takeBlock e).takeBlock b).setBlk e
        (memcpy ((s.takeBlock e).dev.blk e) (4 * (sin.din.blocks - 12)) (le b) 0 4) with ht
      have hok : (t.setInode k (sin.setIndirect e)).Ok :=
        ((heok.takeBlock hfree).setBlk _ _).setInode _ _
      have hused : (t.setInode k (sin.setIndirect e)).Used b :=
        (SfsFs.used_takeBlock hfree).mpr (Or.inr ⟨rfl, hb, hlt⟩)
      have hget : (sfsBmapGetNolock k sin.din.blocks true).run s
          = .ok b (t.setInode k (sin.setIndirect e)) := by
        rw [sfsBmapGetNolock_slot hk h12 hlt',
          bind_of_ok (hsub.trans ((bind_of_ok halloc _).trans hrun)),
          if_pos hne, assert_bind_run hzero,
          putSin_bind_run, sfsBmapGetOut_eq hok hused]
      have hload := sfsBmapLoadNolock_of_get hk hget hok hused (SfsFs.setInode_inodes_self ..)
      rw [SfsFs.setInode_setInode] at hload
      exact Or.inl ⟨b, _, _, appended_entry h (by omega) hlt' hzero hefree he helt hfree hb hlt,
        hload⟩
    -- there is no second block, and the first is given back
    · rw [if_pos hne] at hrun
      refine Or.inr (Or.inl ⟨_, noSpace_releaseBlock h hefree, ?_, ?_⟩)
      · have hcount := Bitmap.freeCount_flip hefree
        have hnil := freeCount_eq_zero hnone
        rw [SfsFs.takeBlock_freemap] at hnil
        omega
      · refine sfsBmapLoadNolock_of_get_error hk ?_
        rw [sfsBmapGetNolock_slot hk h12 hlt',
          bind_of_error (hsub.trans ((bind_of_ok halloc _).trans hrun))]
    · refine Or.inr (Or.inr ⟨fun hc ↦ htail (hc.takeBlock hefree),
        sfsBmapLoadNolock_of_get_panic hk ?_⟩)
      rw [sfsBmapGetNolock_slot hk h12 hlt',
        bind_of_panic (hsub.trans ((bind_of_ok halloc _).trans hrun))]
  · refine Or.inr (Or.inl ⟨s, SfsFs.NoSpace.refl h, ?_, ?_⟩)
    · rw [freeCount_eq_zero hnone, hcost]
      omega
    · refine sfsBmapLoadNolock_of_get_error hk ?_
      rw [sfsBmapGetNolock_slot hk h12 hlt', bind_of_error (hsub.trans (bind_of_error hrun _))]
  · refine Or.inr (Or.inr ⟨htail, sfsBmapLoadNolock_of_get_panic hk ?_⟩)
    rw [sfsBmapGetNolock_slot hk h12 hlt', bind_of_panic (hsub.trans (bind_of_panic hrun _))]

/-- An append takes a block, or finds none and changes nothing that is in use, or stops the machine
on a freemap that marks free what is no block of the file system. -/
theorem sfsBmapLoadNolock_append (h : s.Ok) (hk : s.inodes k = some sin) (hm : s.Mapped sin.din)
    (h0 : s.freemap.isFree 0 = false) (hlt : sin.din.blocks < 1036) : AppendCases s k sin := by
  by_cases h12 : sin.din.blocks < 12
  · exact sfsBmapLoadNolock_direct h hk hm h0 h12
  · by_cases hzero : sin.din.indirect = 0
    · exact sfsBmapLoadNolock_entry h hk h12 hlt hzero
    · exact sfsBmapLoadNolock_slot h hk hm h12 hlt hzero

/-- The index must be at most `din->blocks`. -/
theorem sfsBmapLoadNolock_panic_of_gt (hk : s.inodes k = some sin) {i : ℕ}
    (hi : sin.din.blocks < i) : (sfsBmapLoadNolock k i).run s = .panic := by
  rw [sfsBmapLoadNolock, bind_of_ok (getSin_eq hk), assert_bind_run_neg (by omega)]

/-- There is nothing beyond the last slot of the indirect block. -/
theorem sfsBmapGetNolock_panic_of_full (hk : s.inodes k = some sin) {i : ℕ} (hi : 1036 ≤ i)
    (create : Bool) : (sfsBmapGetNolock k i create).run s = .panic := by
  rw [sfsBmapGetNolock, bind_of_ok (getSin_eq hk), dif_neg (by omega), sfsNdirect_eq,
    sfsBlkNentry_eq, if_neg (by omega), run_halt]

theorem sfsBmapLoadNolock_panic_of_full (hk : s.inodes k = some sin) {i : ℕ} (hi : 1036 ≤ i)
    (hle : i ≤ sin.din.blocks) : (sfsBmapLoadNolock k i).run s = .panic := by
  rw [sfsBmapLoadNolock, bind_of_ok (getSin_eq hk), assert_bind_run hle,
    bind_of_panic (sfsBmapGetNolock_panic_of_full hk hi _)]

end Append

/-! ## Truncation -/

section Truncate

variable {s : SfsFs} {k : ℕ} {sin : SfsInode}

/-- `din->blocks --, sin->dirty = 1`. -/
def SfsInode.cut (sin : SfsInode) : SfsInode :=
  { sin.setBlocks (sin.din.blocks - 1) with dirty := true }

theorem sfsBmapTruncateNolock_of_free {t : SfsFs} {sin₁ : SfsInode} (hk : s.inodes k = some sin)
    (hne : sin.din.blocks ≠ 0)
    (hfree : (sfsBmapFreeNolock k (sin.din.blocks - 1)).run s = .ok () t)
    (hk₁ : t.inodes k = some sin₁) :
    (sfsBmapTruncateNolock k).run s = .ok () (t.setInode k sin₁.cut) := by
  rw [sfsBmapTruncateNolock, bind_of_ok (getSin_eq hk), assert_bind_run hne, bind_of_ok hfree,
    bind_of_ok (getSin_eq hk₁)]
  rfl

/-- Cutting off a direct block. -/
theorem truncated_direct (h : s.Ok) (hm : s.Mapped sin.din) {n : ℕ}
    (hn : sin.din.blocks = n + 1) (h12 : n < 12) :
    s.Truncated k sin (s.bmap sin.din n)
      ((s.releaseBlock (s.bmap sin.din n)).setInode k (sin.setDirect ⟨n, h12⟩ 0).cut)
      (sin.setDirect ⟨n, h12⟩ 0).cut where
  ok := (h.releaseBlock (hm.used n (by omega))).setInode _ _
  tail ht := ht.releaseBlock h (hm.used n (by omega))
  inodes := rfl
  inodeList := rfl
  counts := ⟨rfl, rfl, rfl⟩
  attrs := ⟨rfl, rfl, rfl, rfl⟩
  blocks := by
    change sin.din.blocks - 1 + 1 = sin.din.blocks
    omega
  last := by
    change s.bmap sin.din (sin.din.blocks - 1) = _
    rw [hn, Nat.add_sub_cancel]
  bmap_last := by
    change SfsFs.bmap _ _ (sin.din.blocks - 1) = 0
    rw [hn, Nat.add_sub_cancel, SfsFs.bmap_of_lt h12]
    exact Function.update_self ..
  bmap_of_ne i hi := by
    have hin : i ≠ n := by
      change i ≠ sin.din.blocks - 1 at hi
      omega
    by_cases hi12 : i < 12
    · rw [SfsFs.bmap_of_lt hi12, SfsFs.bmap_of_lt hi12]
      exact Function.update_of_ne (fun hc ↦ hin (Fin.mk.inj hc)) ..
    · exact SfsFs.bmap_congr_slot hi12 rfl fun _ ↦ rfl
  free := Bitmap.isFree_set ((hm.used n (by omega)).lt_nbits h)
  blk _ _ := rfl
  super := rfl
  nbits := rfl
  superDirty := rfl
  dirty := rfl

/-- Cutting off a block whose number is in the indirect block. -/
theorem truncated_slot (h : s.Ok) (hm : s.Mapped sin.din) {n : ℕ} (hn : sin.din.blocks = n + 1)
    (h12 : ¬n < 12) :
    s.Truncated k sin (s.bmap sin.din n)
      (((s.setBlk sin.din.indirect
          (memcpy (s.dev.blk sin.din.indirect) (4 * (n - 12)) (le 0) 0 4)).releaseBlock
        (s.bmap sin.din n)).setInode k sin.cut) sin.cut := by
  have hused := hm.used n (by omega)
  have hne := hm.indirect_ne_zero (by omega)
  have hlt := hm.blocks_le
  exact
  { ok := ((h.setBlk _ _).releaseBlock hused).setInode _ _
    tail := fun ht ↦ SfsFs.TailClear.releaseBlock (s := s.setBlk _ _) ht (h.setBlk _ _) hused
    inodes := rfl
    inodeList := rfl
    counts := ⟨rfl, rfl, rfl⟩
    attrs := ⟨rfl, rfl, rfl, rfl⟩
    blocks := by
      change sin.din.blocks - 1 + 1 = sin.din.blocks
      omega
    last := by
      change s.bmap sin.din (sin.din.blocks - 1) = _
      rw [hn, Nat.add_sub_cancel]
    bmap_last := by
      change SfsFs.bmap _ _ (sin.din.blocks - 1) = 0
      rw [hn, Nat.add_sub_cancel]
      refine (SfsFs.bmap_of_slot h12 (by omega) hne).trans ?_
      refine (congrArg (read32 · _) (SfsFs.setBlk_blk_self ..)).trans ?_
      exact read32_memcpy_le _ _ (by omega)
    bmap_of_ne := fun i hi ↦ by
      have hin : i ≠ n := by
        change i ≠ sin.din.blocks - 1 at hi
        omega
      by_cases hi12 : i < 12
      · rw [SfsFs.bmap_of_lt hi12, SfsFs.bmap_of_lt hi12]
        rfl
      · by_cases hlt' : i < 1036
        · rw [SfsFs.bmap_of_slot hi12 hlt' hne]
          refine (SfsFs.bmap_of_slot hi12 hlt' hne).trans ?_
          refine (congrArg (read32 · _) (SfsFs.setBlk_blk_self ..)).trans ?_
          exact read32_memcpy_of_ne _ _ _ (by omega)
        · rw [SfsFs.bmap_of_ge (by omega), SfsFs.bmap_of_ge (by omega)]
    free := Bitmap.isFree_set (SfsFs.Used.lt_nbits (s := s) h hused)
    blk := fun c hc ↦ s.setBlk_blk_of_ne _ _ (by
      rcases hc with hc | rfl
      · exact hc
      · exact hne.symm)
    super := rfl
    nbits := rfl
    superDirty := rfl
    dirty := rfl }

/-- A truncation of an inode that has a block succeeds. -/
theorem sfsBmapTruncateNolock_eq (h : s.Ok) (hk : s.inodes k = some sin) (hm : s.Mapped sin.din)
    (hne : sin.din.blocks ≠ 0) :
    ∃ b s' sin', s.Truncated k sin b s' sin' ∧ (sfsBmapTruncateNolock k).run s = .ok () s' := by
  obtain ⟨n, hn⟩ := Nat.exists_eq_succ_of_ne_zero hne
  have hused := hm.used n (by omega)
  have hpred : sin.din.blocks - 1 = n := by omega
  by_cases h12 : n < 12
  · refine ⟨_, _, _, truncated_direct h hm hn h12, ?_⟩
    have hdirect := hused
    rw [SfsFs.bmap_of_lt h12] at hdirect
    have hfree : (sfsBmapFreeNolock k (sin.din.blocks - 1)).run s
        = .ok () ((s.releaseBlock (s.bmap sin.din n)).setInode k (sin.setDirect ⟨n, h12⟩ 0)) := by
      rw [hpred, sfsBmapFreeNolock, bind_of_ok (getSin_eq hk), dif_pos h12, if_pos hdirect.1,
        bind_of_ok (sfsBlockFree_eq h hdirect), SfsFs.bmap_of_lt h12]
      rfl
    have hcut := sfsBmapTruncateNolock_of_free hk hne hfree (SfsFs.setInode_inodes_self ..)
    rwa [SfsFs.setInode_setInode] at hcut
  · have hind := hm.indirect_ne_zero (by omega)
    have hlt := hm.blocks_le
    have hj : n - 12 < sfsBlkNentry := by
      rw [sfsBlkNentry_eq]
      omega
    refine ⟨_, _, _, truncated_slot h hm hn h12, ?_⟩
    have hslot := SfsFs.bmap_of_slot (s := s) h12 (by omega) hind
    have hfree : (sfsBmapFreeNolock k (sin.din.blocks - 1)).run s
        = .ok () ((s.setBlk sin.din.indirect
            (memcpy (s.dev.blk sin.din.indirect) (4 * (n - 12)) (le 0) 0 4)).releaseBlock
          (s.bmap sin.din n)) := by
      rw [hpred, sfsBmapFreeNolock, bind_of_ok (getSin_eq hk), dif_neg h12, sfsNdirect_eq,
        if_pos ⟨hj, hind⟩, sfsBmapFreeSubNolock,
        bind_of_ok (sfsBlockInuse_of_used h (hm.indirect hind)), assert_bind_run ⟨rfl, hj⟩,
        bind_of_ok (slot_read_eq h (hm.indirect hind) hj), read32_slot, ← hslot, if_pos hused.1,
        bind_of_ok (slot_write_eq h (hm.indirect hind) hj 0)]
      exact sfsBlockFree_eq (h.setBlk _ _) hused
    exact sfsBmapTruncateNolock_of_free hk hne hfree hk

end Truncate

/-! ## The map stays in order -/

namespace SfsFs

variable {s s' : SfsFs} {k b : ℕ} {sin sin' : SfsInode}

theorem Appended.cached (h : s.Appended k sin b s' sin') : s'.inodes k = some sin' := by
  rw [h.inodes, Function.update_self]

theorem Appended.used (h : s.Appended k sin b s' sin') {c : ℕ} (hc : s.Used c) : s'.Used c := by
  refine ⟨hc.1, ?_, ?_⟩
  · rw [h.super]
    exact hc.2.1
  · rw [← Bool.not_eq_true, h.free c, hc.2.2]
    simp

theorem Appended.used_last (h : s.Appended k sin b s' sin') : s'.Used b := by
  refine ⟨h.taken.2.1, ?_, ?_⟩
  · rw [h.super]
    exact h.taken.2.2
  · rw [← Bool.not_eq_true, h.free b]
    simp

theorem Appended.mapped (h : s.Appended k sin b s' sin') (hm : s.Mapped sin.din) :
    s'.Mapped sin'.din := by
  have hold : ∀ i < sin.din.blocks, s'.bmap sin'.din i = s.bmap sin.din i := fun i hi ↦
    h.bmap_of_ne i hi.ne
  have hfresh : ∀ i < sin.din.blocks, s.bmap sin.din i ≠ b := fun i hi ↦
    (hm.used i hi).ne_of_isFree h.taken.1
  refine ⟨fun i hi ↦ ?_, fun i hi ↦ ?_, fun hne ↦ ?_, fun i hi j hj hij ↦ ?_, fun i hi ↦ ?_⟩
  · rw [h.blocks] at hi
    rcases Nat.lt_succ_iff_lt_or_eq.mp hi with hi | rfl
    · exact hold i hi ▸ h.used (hm.used i hi)
    · exact h.bmap_last ▸ h.used_last
  · rw [h.blocks] at hi
    rw [h.bmap_of_ne i (by omega), hm.null i (by omega)]
  · rcases h.indirect with ⟨hind, -⟩ | ⟨-, -, -, hfree, hnz, hlt, -⟩
    · rw [hind] at hne ⊢
      exact h.used (hm.indirect hne)
    · refine ⟨hnz, ?_, ?_⟩
      · rw [h.super]
        exact hlt
      · rw [← Bool.not_eq_true, h.free]
        simp
  · rw [h.blocks] at hi hj
    rcases Nat.lt_succ_iff_lt_or_eq.mp hi with hi | rfl <;>
      rcases Nat.lt_succ_iff_lt_or_eq.mp hj with hj | rfl
    · rw [hold i hi, hold j hj] at hij
      exact hm.inj i hi j hj hij
    · rw [hold i hi, h.bmap_last] at hij
      exact absurd hij (hfresh i hi)
    · rw [hold j hj, h.bmap_last] at hij
      exact absurd hij.symm (hfresh j hj)
    · rfl
  · rw [h.blocks] at hi
    rcases h.indirect with ⟨hind, -⟩ | ⟨-, -, hneb, hfree, -, -, -⟩
    · rcases Nat.lt_succ_iff_lt_or_eq.mp hi with hi | rfl
      · rw [hold i hi, hind]
        exact hm.ne_indirect i hi
      · rw [h.bmap_last, hind]
        rcases eq_or_ne sin.din.indirect 0 with h0 | hnz
        · rw [h0]
          exact h.taken.2.1
        · exact ((hm.indirect hnz).ne_of_isFree h.taken.1).symm
    · rcases Nat.lt_succ_iff_lt_or_eq.mp hi with hi | rfl
      · rw [hold i hi]
        exact (hm.used i hi).ne_of_isFree hfree
      · rw [h.bmap_last]
        exact hneb.symm

theorem Truncated.cached (h : s.Truncated k sin b s' sin') : s'.inodes k = some sin' := by
  rw [h.inodes, Function.update_self]

theorem Truncated.used (h : s.Truncated k sin b s' sin') {c : ℕ} (hc : s.Used c) (hne : c ≠ b) :
    s'.Used c := by
  refine ⟨hc.1, ?_, ?_⟩
  · rw [h.super]
    exact hc.2.1
  · rw [← Bool.not_eq_true, h.free c, hc.2.2]
    simpa using hne

theorem Truncated.mapped (h : s.Truncated k sin b s' sin') (hm : s.Mapped sin.din) :
    s'.Mapped sin'.din := by
  have hlt : sin'.din.blocks < sin.din.blocks := by
    have := h.blocks
    omega
  have hold : ∀ i < sin'.din.blocks, s'.bmap sin'.din i = s.bmap sin.din i := fun i hi ↦
    h.bmap_of_ne i hi.ne
  refine ⟨fun i hi ↦ ?_, fun i hi ↦ ?_, fun hne ↦ ?_, fun i hi j hj hij ↦ ?_, fun i hi ↦ ?_⟩
  · rw [hold i hi]
    refine h.used (hm.used i (by omega)) fun hb ↦ ?_
    rw [← h.last] at hb
    exact hi.ne (hm.inj i (by omega) _ hlt hb)
  · rcases eq_or_ne i sin'.din.blocks with rfl | hne
    · exact h.bmap_last
    · have := h.blocks
      rw [h.bmap_of_ne i hne, hm.null i (by omega)]
  · rw [h.attrs.2.2.2] at hne ⊢
    refine h.used (hm.indirect hne) fun hb ↦ ?_
    rw [← h.last] at hb
    exact hm.ne_indirect _ hlt hb.symm
  · rw [hold i hi, hold j hj] at hij
    exact hm.inj i (by omega) j (by omega) hij
  · rw [hold i hi, h.attrs.2.2.2]
    exact hm.ne_indirect i (by omega)

/-- The map of an inode survives a change of the contents of blocks it does not use for entries. -/
theorem Mapped.setBlk {din : SfsDiskInode} (hm : s.Mapped din) {n : ℕ} (hn : n ≠ din.indirect)
    (c : Bytes) : (s.setBlk n c).Mapped din := by
  have hmap : ∀ i, (s.setBlk n c).bmap din i = s.bmap din i := fun i ↦
    bmap_congr rfl rfl fun _ ↦ s.setBlk_blk_of_ne n c hn.symm
  exact
  { used := fun i hi ↦ hmap i ▸ hm.used i hi
    null := fun i hi ↦ (hmap i).trans (hm.null i hi)
    indirect := hm.indirect
    inj := fun i hi j hj hij ↦ hm.inj i hi j hj (by rwa [hmap, hmap] at hij)
    ne_indirect := fun i hi ↦ hmap i ▸ hm.ne_indirect i hi }

end SfsFs

/-- The map of an inode with a few direct entries, all different and in use. -/
theorem mapped_ofDirect {s : SfsFs} {entries : List ℕ} (hlen : entries.length ≤ 12)
    (hused : ∀ b ∈ entries, s.Used b) (hnodup : entries.Nodup) (size type nlinks : ℕ) :
    s.Mapped (.ofDirect size type nlinks entries) := by
  have hmap : ∀ i < entries.length,
      entries[i]? = some (s.bmap (.ofDirect size type nlinks entries) i) := fun i hi ↦ by
    rw [SfsFs.bmap_of_lt (by omega), SfsDiskInode.ofDirect_direct, List.getD_eq_getElem?_getD,
      List.getElem?_eq_getElem hi, Option.getD_some]
  refine ⟨fun i hi ↦ hused _ (List.mem_of_getElem? (hmap i hi)), fun i hi ↦ ?_,
    fun hne ↦ absurd rfl hne, fun i hi j hj hij ↦ ?_, fun i hi ↦ ?_⟩
  · by_cases h12 : i < 12
    · rw [SfsFs.bmap_of_lt h12, SfsDiskInode.ofDirect_direct, List.getD_eq_getElem?_getD,
        List.getElem?_eq_none hi, Option.getD_none]
    · exact SfsFs.bmap_of_indirect_zero h12 rfl
  · refine (List.getElem?_inj hi hnodup).mp ?_
    rw [hmap i hi, hmap j hj, hij]
  · exact (hused _ (List.mem_of_getElem? (hmap i hi))).1

theorem sampleFs_mapped_file : sampleFs.Mapped sampleFile :=
  mapped_ofDirect (by decide) (by
    intro b hb
    fin_cases hb <;> exact sampleFs_used (by decide) (by decide)) (by decide) _ _ _

theorem sampleFs_mapped_other : sampleFs.Mapped sampleOther :=
  mapped_ofDirect (by decide) (by
    intro b hb
    fin_cases hb
    exact sampleFs_used (by decide) (by decide)) (by decide) _ _ _

end Ucore
