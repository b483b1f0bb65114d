import Ucore.Sfs.BlockMapSpec

/-!
# Block mapping on a device that fails

What `sfs_bmap_get_sub_nolock` and `sfs_bmap_get_nolock` leave behind when an operation of the block
device fails, or when there is no free block. The label `failed_cleanup` gives back what was taken
so far, but a block that `sfs_block_alloc` took is known to `sfs_block_alloc` only, and it does not
give it back when it cannot clear it (`sfsBmap_atomic_iff`).
-/

namespace Ucore

open Bytes Prog

namespace SfsFs

/-- The file system on a device that works from now on. -/
def quiet (s : SfsFs) : SfsFs := { s with dev := { s.dev with faults := [] } }

/-- The file system after one more operation of the device. -/
def tick (s : SfsFs) : SfsFs := { s with dev := { s.dev with faults := s.dev.faults.tail } }

/-- What the next operation of the device fails with. -/
def hit (s : SfsFs) : Option Errno := s.dev.faults.head?.join

/-- The superblock and the freemap agree with each other and with the device, which may fail. -/
structure InOrder (s : SfsFs) : Prop where
  ok : s.quiet.Ok
  tail : s.TailClear

section InOrder

variable {s : SfsFs} {b : ℕ}

theorem InOrder.blocks_le (h : s.InOrder) : s.super.blocks ≤ s.dev.dBlocks := h.ok.blocks_le

theorem InOrder.tick (h : s.InOrder) : s.tick.InOrder := ⟨h.ok, h.tail⟩

theorem InOrder.takeBlock (h : s.InOrder) (hb : s.freemap.isFree b = true) :
    (s.takeBlock b).InOrder :=
  ⟨SfsFs.Ok.takeBlock h.ok hb, h.tail.takeBlock hb⟩

theorem InOrder.chargeBlock (h : s.InOrder) (hb : s.freemap.isFree b = true) :
    (s.setFreemap (s.freemap.flip b)).chargeBlock.InOrder :=
  ⟨SfsFs.Ok.of_setBlk (SfsFs.Ok.takeBlock h.ok hb), h.tail.takeBlock hb⟩

theorem InOrder.offset_mod (h : s.InOrder) (hb : b < s.super.blocks) :
    b * 4096 % 2 ^ 32 = b * 4096 :=
  SfsFs.DevOk.offset_mod (s := s.quiet) h.ok.toDevOk hb

end InOrder

/-- What `sfs_bmap_get_nolock` is to leave behind when it fails: `t` has the blocks, the counter and
the inodes of `s`, and blocks in use are as they were. -/
structure Restored (s t : SfsFs) : Prop where
  freemap : t.freemap = s.freemap
  super : t.super = s.super
  inodes : t.inodes = s.inodes
  dBlocks : t.dev.dBlocks = s.dev.dBlocks
  blk : ∀ c, s.Used c → t.dev.blk c = s.dev.blk c

theorem Restored.refl (s : SfsFs) : s.Restored s := ⟨rfl, rfl, rfl, rfl, fun _ _ ↦ rfl⟩

theorem Restored.tick (s : SfsFs) : s.Restored s.tick := ⟨rfl, rfl, rfl, rfl, fun _ _ ↦ rfl⟩

theorem Restored.inOrder {s t : SfsFs} (h : s.Restored t) (hs : s.InOrder) : t.InOrder where
  ok :=
  { faults := rfl
    blocks_le := by
      change t.super.blocks ≤ t.dev.dBlocks
      rw [h.super, h.dBlocks]
      exact hs.blocks_le
    wf := by
      change t.freemap.Wf
      rw [h.freemap]
      exact hs.ok.wf
    blocks_le_nbits := by
      change t.super.blocks ≤ t.freemap.nbits
      rw [h.super, h.freemap]
      exact hs.ok.blocks_le_nbits
    unused := by
      change t.super.unusedBlocks = t.freemap.freeCount
      rw [h.super, h.freemap]
      exact hs.ok.unused }
  tail := by
    rw [TailClear, h.freemap, h.super]
    exact hs.tail

theorem Restored.used {s t : SfsFs} (h : s.Restored t) {c : ℕ} (hc : s.Used c) : t.Used c := by
  rwa [Used, h.super, h.freemap]

theorem Restored.trans {s t u : SfsFs} (h : s.Restored t) (h' : t.Restored u) : s.Restored u where
  freemap := h'.freemap.trans h.freemap
  super := h'.super.trans h.super
  inodes := h'.inodes.trans h.inodes
  dBlocks := h'.dBlocks.trans h.dBlocks
  blk c hc := by rw [h'.blk c (h.used hc), h.blk c hc]

/-- A block that was taken is given back. -/
theorem Restored.of_taken {s t : SfsFs} {b : ℕ} (h : s.InOrder) (hb : s.freemap.isFree b = true)
    (ht : (s.takeBlock b).Restored t) : s.Restored (t.releaseBlock b) where
  freemap := by
    change t.freemap.set b = s.freemap
    rw [ht.freemap, takeBlock_freemap, Bitmap.set_flip hb]
  super := by
    have hpos : 0 < s.super.unusedBlocks :=
      lt_of_lt_of_eq (Bitmap.freeCount_pos hb) h.ok.unused.symm
    have hsuper : s.super.unusedBlocks - 1 + 1 = s.super.unusedBlocks := by omega
    change { t.super with unusedBlocks := t.super.unusedBlocks + 1 } = s.super
    rw [ht.super]
    change { s.super with unusedBlocks := s.super.unusedBlocks - 1 + 1 } = s.super
    rw [hsuper]
  inodes := ht.inodes
  dBlocks := ht.dBlocks
  blk c hc := by
    have hne : c ≠ b := hc.ne_of_isFree hb
    have hc' : (s.takeBlock b).Used c := (used_takeBlock hb).mpr (.inl hc)
    exact (ht.blk c hc').trans (s.setBlk_blk_of_ne b _ hne)

end SfsFs

/-! ## The operations of the device -/

section Device

variable {s : SfsFs} {blkno : ℕ}

/-- An operation on a block of the file system gets to the device. -/
theorem sfsRwblockNolock_of_dopIo (h : s.InOrder) (hb : blkno ≠ 0) (hlt : blkno < s.super.blocks)
    (buf : Bytes) (base : ℕ) (write : Bool) :
    (sfsRwblockNolock buf base blkno write true).run s =
      ((dopIo (blkno * 4096) buf base write).zoom SfsFs.dev
        fun dev s ↦ { s with dev := dev }).run s := by
  rw [sfsRwblockNolock, get_bind_run, assert_bind_run ⟨.inl hb, hlt⟩, sfsBlksize_eq,
    h.offset_mod hlt]

theorem dopIo_guard {dev : Device} (hlt : blkno < dev.dBlocks) :
    ¬(blkno * 4096 % 4096 ≠ 0 ∨ dev.dBlocks < blkno * 4096 / 4096 + 1) := by
  rw [Nat.mul_div_cancel _ (by omega)]
  omega

theorem hit_eq_some {e : Errno} (hhit : s.hit = some e) :
    s.dev.faults.head? = some (some e) := by
  rw [SfsFs.hit] at hhit
  cases hf : s.dev.faults.head? with
  | none =>
    rw [hf] at hhit
    cases hhit
  | some o =>
    rw [hf] at hhit
    exact congrArg some hhit

theorem hit_eq_none (hhit : s.hit = none) :
    s.dev.faults.head? = none ∨ s.dev.faults.head? = some none := by
  rw [SfsFs.hit] at hhit
  cases hf : s.dev.faults.head? with
  | none => exact .inl rfl
  | some o =>
    rw [hf] at hhit
    exact .inr (congrArg some hhit)

theorem sfsRwblockNolock_hit (h : s.InOrder) (hb : blkno ≠ 0) (hlt : blkno < s.super.blocks)
    {e : Errno} (hhit : s.hit = some e) (buf : Bytes) (base : ℕ) (write : Bool) :
    (sfsRwblockNolock buf base blkno write true).run s = .error e s.tick := by
  have hrun : (dopIo (blkno * 4096) buf base write).run s.dev =
      .error e { s.dev with faults := s.dev.faults.tail } := by
    rw [dopIo, get_bind_run, if_neg (dopIo_guard (hlt.trans_le h.blocks_le)), modify_bind_run,
      hit_eq_some hhit]
    rfl
  rw [sfsRwblockNolock_of_dopIo h hb hlt]
  exact zoom_of_error hrun

theorem sfsRwblockNolock_read_tick (h : s.InOrder) (hb : blkno ≠ 0) (hlt : blkno < s.super.blocks)
    (hhit : s.hit = none) (buf : Bytes) (base : ℕ) :
    (sfsRwblockNolock buf base blkno false true).run s =
      .ok (memcpy buf base (s.dev.blk blkno) 0 4096) s.tick := by
  have hdiv : blkno * 4096 / 4096 = blkno := Nat.mul_div_cancel _ (by omega)
  have hrun : (dopIo (blkno * 4096) buf base false).run s.dev =
      .ok (memcpy buf base (s.dev.blk blkno) 0 4096)
        { s.dev with faults := s.dev.faults.tail } := by
    rw [dopIo, get_bind_run, if_neg (dopIo_guard (hlt.trans_le h.blocks_le)), modify_bind_run, hdiv]
    rcases hit_eq_none hhit with hhead | hhead
    · rw [hhead]
      rfl
    · rw [hhead]
      rfl
  rw [sfsRwblockNolock_of_dopIo h hb hlt]
  exact zoom_of_ok hrun

theorem sfsRwblockNolock_write_tick (h : s.InOrder) (hb : blkno ≠ 0) (hlt : blkno < s.super.blocks)
    (hhit : s.hit = none) (buf : Bytes) (base : ℕ) :
    (sfsRwblockNolock buf base blkno true true).run s =
      .ok buf (s.tick.setBlk blkno (memcpy (s.dev.blk blkno) 0 buf base 4096)) := by
  have hdiv : blkno * 4096 / 4096 = blkno := Nat.mul_div_cancel _ (by omega)
  have hrun : (dopIo (blkno * 4096) buf base true).run s.dev =
      .ok buf { s.dev with
        faults := s.dev.faults.tail
        blk := Function.update s.dev.blk blkno (memcpy (s.dev.blk blkno) 0 buf base 4096) } := by
    rw [dopIo, get_bind_run, if_neg (dopIo_guard (hlt.trans_le h.blocks_le)), modify_bind_run, hdiv]
    rcases hit_eq_none hhit with hhead | hhead
    · rw [hhead]
      rfl
    · rw [hhead]
      rfl
  rw [sfsRwblockNolock_of_dopIo h hb hlt]
  exact zoom_of_ok hrun

/-- Reading part of a block. -/
theorem sfsRbuf_cases (h : s.InOrder) (hb : s.Used blkno) (buf : Bytes) (base : ℕ) {len off : ℕ}
    (hoff : off < 4096) (hlen : off + len ≤ 4096) :
    (∃ e, s.hit = some e ∧ (sfsRbuf buf base len blkno off).run s = .error e s.tick) ∨
      (s.hit = none ∧ (sfsRbuf buf base len blkno off).run s =
        .ok (memcpy buf base (s.dev.blk blkno) off len) s.tick) := by
  cases hhit : s.hit with
  | some e =>
    refine .inl ⟨e, rfl, ?_⟩
    rw [sfsRbuf, assert_bind_run ⟨hoff, hlen⟩,
      bind_of_error (sfsRwblockNolock_hit h hb.1 hb.2.1 hhit zero 0 false)]
  | none =>
    refine .inr ⟨rfl, ?_⟩
    rw [sfsRbuf, assert_bind_run ⟨hoff, hlen⟩,
      bind_of_ok (sfsRwblockNolock_read_tick h hb.1 hb.2.1 hhit zero 0), run_pure,
      memcpy_memcpy_src _ _ _ hlen]

/-- Writing part of a block changes nothing unless it succeeds. -/
theorem sfsWbuf_error (h : s.InOrder) (hb : s.Used blkno) (buf : Bytes) (base : ℕ) {len off : ℕ}
    (hoff : off < 4096) (hlen : off + len ≤ 4096) :
    (∃ e t, (sfsWbuf buf base len blkno off).run s = .error e t ∧ s.Restored t) ∨
      ∃ t, (sfsWbuf buf base len blkno off).run s = .ok buf t := by
  cases hhit : s.hit with
  | some e =>
    refine .inl ⟨e, _, ?_, .tick s⟩
    rw [sfsWbuf, assert_bind_run ⟨hoff, hlen⟩,
      bind_of_error (sfsRwblockNolock_hit h hb.1 hb.2.1 hhit zero 0 false)]
  | none =>
    have hread := sfsRwblockNolock_read_tick h hb.1 hb.2.1 hhit zero 0
    cases hhit' : s.tick.hit with
    | some e =>
      refine .inl ⟨e, _, ?_, (SfsFs.Restored.tick s).trans (.tick s.tick)⟩
      rw [sfsWbuf, assert_bind_run ⟨hoff, hlen⟩, bind_of_ok hread,
        bind_of_error (sfsRwblockNolock_hit h.tick hb.1 hb.2.1 hhit' _ 0 true)]
    | none =>
      have hwrite := sfsRwblockNolock_write_tick h.tick hb.1 hb.2.1 hhit'
        (memcpy (memcpy zero 0 (s.dev.blk blkno) 0 4096) off buf base len) 0
      exact .inr ⟨_, by rw [sfsWbuf, assert_bind_run ⟨hoff, hlen⟩, bind_of_ok hread,
        bind_of_ok hwrite, run_pure]⟩

end Device

/-! ## Taking and releasing a block -/

section Alloc

variable {s : SfsFs} {b : ℕ}

theorem SfsFs.InOrder.blockInuse (h : s.InOrder) (hb : s.Used b) :
    (sfsBlockInuse b).run s = .ok true s := by
  have htest : (onFreemap (bitmapTest b)).run s = .ok (s.freemap.isFree b) s :=
    zoom_of_ok (bitmapTest_eq (hb.2.1.trans_le h.ok.blocks_le_nbits))
  rw [sfsBlockInuse, get_bind_run, if_pos ⟨hb.1, hb.2.1⟩, bind_of_ok htest, run_pure, hb.2.2]
  rfl

theorem SfsFs.InOrder.blockFree (h : s.InOrder) (hb : s.Used b) :
    (sfsBlockFree b).run s = .ok () (s.releaseBlock b) := by
  have hz : (onFreemap (bitmapFree b)).run s = .ok () (s.setFreemap (s.freemap.set b)) :=
    zoom_of_ok (bitmapFree_eq (hb.2.1.trans_le h.ok.blocks_le_nbits) hb.2.2)
  rw [sfsBlockFree, bind_of_ok (h.blockInuse hb), assert_bind_run rfl, bind_of_ok hz]
  rfl

/-- A block that was free is marked in use. -/
def SfsFs.leakBlock (s : SfsFs) (b : ℕ) : SfsFs :=
  (s.setFreemap (s.freemap.flip b)).chargeBlock.tick

/-- Allocation takes and clears a free block, finds none, or keeps the block that it could not
clear. -/
theorem sfsBlockAlloc_ways (h : s.InOrder) :
    (∃ b, s.freemap.isFree b = true ∧ (s.takeBlock b).Used b ∧ s.hit = none ∧
        sfsBlockAlloc.run s = .ok b (s.takeBlock b).tick) ∨
      (∃ b e, s.freemap.isFree b = true ∧ s.hit = some e ∧
        sfsBlockAlloc.run s = .error e (s.leakBlock b)) ∨
      ((∀ c, s.freemap.isFree c = false) ∧ sfsBlockAlloc.run s = .error .noMem s) := by
  rcases bitmapAlloc_cases h.ok.wf with ⟨b, hfree, -, hrun⟩ | ⟨hnone, hrun⟩
  · have hb := h.tail b hfree
    have hz : (onFreemap bitmapAlloc).run s = .ok b (s.setFreemap (s.freemap.flip b)) :=
      zoom_of_ok hrun
    have hpos : 0 < (s.setFreemap (s.freemap.flip b)).super.unusedBlocks :=
      lt_of_lt_of_eq (Bitmap.freeCount_pos hfree) h.ok.unused.symm
    have hused : (s.takeBlock b).Used b := (SfsFs.used_takeBlock hfree).mpr (.inr ⟨rfl, hb⟩)
    have hrest : sfsBlockAlloc.run s = (sfsClearBlock b 1 >>= fun _ ↦ return b).run
        (s.setFreemap (s.freemap.flip b)).chargeBlock := by
      rw [sfsBlockAlloc, bind_of_ok hz, get_bind_run, assert_bind_run hpos, modify_bind_run,
        bind_of_ok ((h.chargeBlock hfree).blockInuse hused), assert_bind_run rfl]
    cases hhit : s.hit with
    | some e =>
      have hclear := sfsRwblockNolock_hit (h.chargeBlock hfree) hb.1 hb.2 hhit zero 0 true
      refine .inr (.inl ⟨b, e, hfree, rfl, ?_⟩)
      rw [hrest, sfsClearBlock]
      exact bind_of_error (bind_of_error hclear _) _
    | none =>
      have hclear := sfsRwblockNolock_write_tick (h.chargeBlock hfree) hb.1 hb.2 hhit zero 0
      refine .inl ⟨b, hfree, hused, rfl, ?_⟩
      rw [hrest, sfsClearBlock]
      exact bind_of_ok ((bind_of_ok hclear _).trans rfl) _
  · have hz : (onFreemap bitmapAlloc).run s = .error .noMem s := zoom_of_error hrun
    exact .inr (.inr ⟨hnone, by rw [sfsBlockAlloc, bind_of_error hz]⟩)

end Alloc

/-! ## Filling a slot of the entry block -/

section Fill

variable {s u t w : SfsFs} {b ent entp j : ℕ}

/-- What `sfsBmapCleanup` leaves behind. -/
def SfsFs.cleanup (s : SfsFs) (entp ent : ℕ) : SfsFs :=
  if ent ≠ entp then s.releaseBlock ent else s

theorem SfsFs.InOrder.bmapCleanup (h : s.InOrder) (hent : s.Used ent) (entp : ℕ) :
    (sfsBmapCleanup entp ent).run s = .ok () (s.cleanup entp ent) := by
  rw [sfsBmapCleanup, SfsFs.cleanup]
  by_cases hne : ent ≠ entp
  · rw [if_pos hne, if_pos hne, h.blockFree hent]
  · rw [if_neg hne, if_neg hne, run_pure]

/-- Filling a slot fails with the state as it was before the entry block was taken, or keeps the
block that it could not clear: this is when there is one and the next operation of the device
fails. -/
theorem sfsBmapFillSlot_ways (h : u.InOrder) (hent : u.Used ent) (hj : j < 1024) (entp : ℕ) :
    ((u.hit = none ∨ u.freemap.freeCount = 0) ∧
      ∀ e t, (sfsBmapFillSlot entp ent (4 * j)).run u = .error e t →
        ∃ w, t = w.cleanup entp ent ∧ u.Restored w) ∨
    ((u.hit ≠ none ∧ u.freemap.freeCount ≠ 0) ∧
      ∃ e b, (sfsBmapFillSlot entp ent (4 * j)).run u =
          .error e ((u.leakBlock b).cleanup entp ent) ∧ u.freemap.isFree b = true) := by
  rcases sfsBlockAlloc_ways h with ⟨b, hfree, hused, hhit, halloc⟩ | ⟨b, e, hfree, hhit, halloc⟩ |
    ⟨hnone, halloc⟩
  · -- the block is cleared, and given back if the slot cannot be written
    refine .inl ⟨.inl hhit, fun e t hrun ↦ ?_⟩
    have hok : (u.takeBlock b).tick.InOrder := (h.takeBlock hfree).tick
    have hent' : (u.takeBlock b).tick.Used ent := (SfsFs.used_takeBlock hfree).mpr (.inl hent)
    rw [sfsBmapFillSlot, bind_of_ok (onError_of_ok halloc _)] at hrun
    rcases sfsWbuf_error hok hent' (le b) 0 (show 4 * j < 4096 by omega)
        (show 4 * j + 4 ≤ 4096 by omega) with ⟨e', v, hwbuf, hres⟩ | ⟨v, hwbuf⟩
    · have hback : u.Restored (v.releaseBlock b) :=
        .of_taken h hfree ((SfsFs.Restored.tick (u.takeBlock b)).trans hres)
      have hclean := (hback.inOrder h).bmapCleanup (hback.used hent) entp
      have hfree' : (sfsBlockFree b).run v = .ok () (v.releaseBlock b) :=
        (hres.inOrder hok).blockFree (hres.used hused)
      have herr : ((sfsWbuf (le b) 0 4 ent (4 * j)).onError do
          sfsBlockFree b
          sfsBmapCleanup entp ent).run (u.takeBlock b).tick =
            .error e' ((v.releaseBlock b).cleanup entp ent) := by
        rw [onError_of_error hwbuf]
        exact bind_of_ok ((bind_of_ok hfree' _).trans hclean) _
      rw [bind_of_error herr] at hrun
      obtain ⟨-, rfl⟩ := Outcome.error.inj hrun
      exact ⟨_, rfl, hback⟩
    · rw [bind_of_ok (onError_of_ok hwbuf _), run_pure] at hrun
      cases hrun
  · -- the block that could not be cleared stays taken
    have hok : (u.leakBlock b).InOrder := (h.chargeBlock hfree).tick
    have hent' : (u.leakBlock b).Used ent := (SfsFs.used_takeBlock hfree).mpr (.inl hent)
    have hcount := Bitmap.freeCount_pos hfree
    refine .inr ⟨⟨by rw [hhit]; rintro ⟨⟩, hcount.ne'⟩, e, b, ?_, hfree⟩
    rw [sfsBmapFillSlot]
    refine bind_of_error ?_ _
    rw [onError_of_error halloc, bind_of_ok (hok.bmapCleanup hent' entp), run_fail]
  · refine .inl ⟨.inr (freeCount_eq_zero hnone), fun e t hrun ↦ ?_⟩
    have herr : (sfsBlockAlloc.onError (sfsBmapCleanup entp ent)).run u =
        .error .noMem (u.cleanup entp ent) := by
      rw [onError_of_error halloc, bind_of_ok (h.bmapCleanup hent entp), run_fail]
    rw [sfsBmapFillSlot, bind_of_error herr] at hrun
    obtain ⟨-, rfl⟩ := Outcome.error.inj hrun
    exact ⟨u, rfl, .refl u⟩

theorem SfsFs.cleanup_self (s : SfsFs) (ent : ℕ) : s.cleanup ent ent = s := if_neg (not_not.mpr rfl)

theorem SfsFs.leakBlock_isFree (hb : s.freemap.isFree b = true) :
    (s.leakBlock b).freemap.isFree b = false := by
  rw [← Bool.not_eq_true]
  intro hcon
  exact ((Bitmap.isFree_flip hb b).mp hcon).2 rfl

/-- A block that was free and is not any more. -/
theorem SfsFs.not_restored (hs : s.freemap.isFree b = true) (ht : t.freemap.isFree b = false) :
    ¬s.Restored t := by
  intro hres
  rw [hres.freemap, hs] at ht
  cases ht

end Fill

/-! ## Mapping a block -/

section Map

variable {s : SfsFs} {k : ℕ} {sin : SfsInode}

/-- In `sfs_bmap_get_sub_nolock`: a block is taken, and the operation of the device that is to clear
it fails. Looking at an entry block takes one operation, and so does clearing a new one. -/
def SubClearFails (s : SfsFs) (entp index : ℕ) (create : Bool) : Prop :=
  index < 1024 ∧ create = true ∧
    if entp ≠ 0 then
      s.hit = none ∧ read32 (s.dev.blk entp) (4 * index) = 0 ∧ s.tick.hit ≠ none ∧
        0 < s.freemap.freeCount
    else
      (s.hit ≠ none ∧ 0 < s.freemap.freeCount) ∨
        (s.hit = none ∧ s.tick.hit ≠ none ∧ 1 < s.freemap.freeCount)

/-- Likewise in `sfs_bmap_get_nolock`. -/
def ClearFails (s : SfsFs) (sin : SfsInode) (index : ℕ) (create : Bool) : Prop :=
  if h : index < 12 then
    sin.din.direct ⟨index, h⟩ = 0 ∧ create = true ∧ s.hit ≠ none ∧ 0 < s.freemap.freeCount
  else
    SubClearFails s sin.din.indirect (index - 12) create

/-- `sfs_bmap_get_sub_nolock` behind its assertion. -/
theorem sfsBmapGetSubNolock_run {entp index : ℕ} {create : Bool} (hj : index < 1024) :
    (sfsBmapGetSubNolock entp index create).run s =
      (if entp ≠ 0 then do
        let word ← sfsRbuf zero 0 4 entp (4 * index)
        if read32 word 0 ≠ 0 ∨ create = false then
          return (entp, read32 word 0)
        else
          sfsBmapFillSlot entp entp (4 * index)
      else if create = false then
        return (entp, 0)
      else do
        let ent ← sfsBlockAlloc
        sfsBmapFillSlot entp ent (4 * index)).run s := by
  rw [sfsBmapGetSubNolock, sfsBlkNentry_eq, assert_bind_run hj]

/-- With a block of entries there is a word to read. -/
theorem sfsBmapGetSubNolock_present (h : s.InOrder) {entp index : ℕ} (hne : entp ≠ 0)
    (hent : s.Used entp) (hj : index < 1024) (create : Bool) :
    (¬SubClearFails s entp index create ∧
      ∀ e t, (sfsBmapGetSubNolock entp index create).run s = .error e t → s.Restored t) ∨
    (SubClearFails s entp index create ∧
      ∃ e t, (sfsBmapGetSubNolock entp index create).run s = .error e t ∧ ¬s.Restored t) := by
  rcases sfsRbuf_cases h hent zero 0 (show 4 * index < 4096 by omega)
      (show 4 * index + 4 ≤ 4096 by omega) with ⟨e, hhit, hread⟩ | ⟨hhit, hread⟩
  · refine .inl ⟨fun hc ↦ ?_, fun e' t hrun ↦ ?_⟩
    · have hmiss := hc.2.2
      rw [if_pos hne, hhit] at hmiss
      cases hmiss.1
    · rw [sfsBmapGetSubNolock_run hj, if_pos hne, bind_of_error hread] at hrun
      obtain ⟨-, rfl⟩ := Outcome.error.inj hrun
      exact .tick s
  · by_cases hword : read32 (s.dev.blk entp) (4 * index) ≠ 0 ∨ create = false
    · refine .inl ⟨fun hc ↦ ?_, fun e t hrun ↦ ?_⟩
      · have hmiss := hc.2.2
        rw [if_pos hne] at hmiss
        rcases hword with hword | hword
        · exact hword hmiss.2.1
        · rw [hword] at hc
          cases hc.2.1
      · rw [sfsBmapGetSubNolock_run hj, if_pos hne, bind_of_ok hread, read32_slot, if_pos hword,
          run_pure] at hrun
        cases hrun
    · have hrest : (sfsBmapGetSubNolock entp index create).run s =
          (sfsBmapFillSlot entp entp (4 * index)).run s.tick := by
        rw [sfsBmapGetSubNolock_run hj, if_pos hne, bind_of_ok hread, read32_slot, if_neg hword]
      rw [not_or, not_not, Bool.not_eq_false] at hword
      rw [hrest]
      rcases sfsBmapFillSlot_ways h.tick hent hj entp with
        ⟨hmiss, hfill⟩ | ⟨⟨hclear, hroom⟩, e, b, hfill, hfree⟩
      · refine .inl ⟨fun hc ↦ ?_, fun e t hrun ↦ ?_⟩
        · have hcl := hc.2.2
          rw [if_pos hne] at hcl
          rcases hmiss with hmiss | hmiss
          · exact hcl.2.2.1 hmiss
          · exact hcl.2.2.2.ne' hmiss
        · obtain ⟨w, rfl, hres⟩ := hfill e t hrun
          rw [SfsFs.cleanup_self]
          exact (SfsFs.Restored.tick s).trans hres
      · refine .inr ⟨⟨hj, hword.2, ?_⟩, e, _, hfill, ?_⟩
        · rw [if_pos hne]
          exact ⟨hhit, hword.1, hclear, Nat.pos_of_ne_zero hroom⟩
        · rw [SfsFs.cleanup_self]
          exact SfsFs.not_restored hfree (SfsFs.leakBlock_isFree hfree)

/-- Without one it is allocated first. -/
theorem sfsBmapGetSubNolock_absent (h : s.InOrder) {entp index : ℕ} (hzero : entp = 0)
    (hj : index < 1024) (create : Bool) :
    (¬SubClearFails s entp index create ∧
      ∀ e t, (sfsBmapGetSubNolock entp index create).run s = .error e t → s.Restored t) ∨
    (SubClearFails s entp index create ∧
      ∃ e t, (sfsBmapGetSubNolock entp index create).run s = .error e t ∧ ¬s.Restored t) := by
  have hne : ¬entp ≠ 0 := not_not.mpr hzero
  cases create with
  | false =>
    refine .inl ⟨fun hc ↦ Bool.noConfusion hc.2.1, fun e t hrun ↦ ?_⟩
    rw [sfsBmapGetSubNolock_run hj, if_neg hne, if_pos rfl, run_pure] at hrun
    cases hrun
  | true =>
    have hrest : (sfsBmapGetSubNolock entp index true).run s =
        (sfsBlockAlloc >>= fun ent ↦ sfsBmapFillSlot entp ent (4 * index)).run s := by
      rw [sfsBmapGetSubNolock_run hj, if_neg hne, if_neg (by simp)]
    rw [hrest]
    rcases sfsBlockAlloc_ways h with ⟨ent, hfree, hused, hhit, halloc⟩ |
      ⟨b, e, hfree, hhit, halloc⟩ | ⟨hnone, halloc⟩
    · have hne' : ent ≠ entp := by
        rw [hzero]
        exact hused.1
      -- the entry block is one of the free blocks there were
      have hcount : (s.takeBlock ent).freemap.freeCount + 1 = s.freemap.freeCount :=
        Bitmap.freeCount_flip hfree
      rw [bind_of_ok halloc]
      rcases sfsBmapFillSlot_ways (h.takeBlock hfree).tick hused hj entp with
        ⟨hmiss, hfill⟩ | ⟨⟨hclear, hroom⟩, e, b, hfill, hfree'⟩
      · refine .inl ⟨fun hc ↦ ?_, fun e t hrun ↦ ?_⟩
        · have hcl := hc.2.2
          rw [if_neg hne] at hcl
          rcases hcl with ⟨hcl, -⟩ | ⟨-, hcl, hroom⟩
          · exact hcl hhit
          · rcases hmiss with hmiss | hmiss
            · exact hcl hmiss
            · change (s.takeBlock ent).freemap.freeCount = 0 at hmiss
              omega
        · obtain ⟨w, rfl, hres⟩ := hfill e t hrun
          rw [SfsFs.cleanup, if_pos hne']
          exact .of_taken h hfree ((SfsFs.Restored.tick _).trans hres)
      · -- the entry block is given back, the block for the data is not
        have hfree₀ := (Bitmap.isFree_flip hfree b).mp hfree'
        have hleak := SfsFs.leakBlock_isFree hfree'
        have hlt : ent < ((s.takeBlock ent).tick.leakBlock b).freemap.nbits :=
          hused.2.1.trans_le h.ok.blocks_le_nbits
        refine .inr ⟨⟨hj, rfl, ?_⟩, e, _, hfill, ?_⟩
        · rw [if_neg hne]
          change (s.takeBlock ent).freemap.freeCount ≠ 0 at hroom
          exact .inr ⟨hhit, hclear, by omega⟩
        · rw [SfsFs.cleanup, if_pos hne']
          refine SfsFs.not_restored hfree₀.1 ?_
          rw [← Bool.not_eq_true]
          intro hcon
          rcases (Bitmap.isFree_set hlt b).mp hcon with hcon | hcon
          · rw [hleak] at hcon
            cases hcon
          · exact hfree₀.2 hcon
    · rw [bind_of_error halloc]
      refine .inr ⟨⟨hj, rfl, ?_⟩, e, _, rfl,
        SfsFs.not_restored hfree (SfsFs.leakBlock_isFree hfree)⟩
      rw [if_neg hne]
      exact .inl ⟨by rw [hhit]; rintro ⟨⟩, Bitmap.freeCount_pos hfree⟩
    · have hcount := freeCount_eq_zero hnone
      rw [bind_of_error halloc]
      refine .inl ⟨fun hc ↦ ?_, fun e t hrun ↦ ?_⟩
      · have hcl := hc.2.2
        rw [if_neg hne] at hcl
        omega
      · obtain ⟨-, rfl⟩ := Outcome.error.inj hrun
        exact .refl s

/-- `sfs_bmap_get_sub_nolock` fails in one of two ways. -/
theorem sfsBmapGetSubNolock_ways (h : s.InOrder) {entp : ℕ} (hent : entp ≠ 0 → s.Used entp)
    (index : ℕ) (create : Bool) :
    (¬SubClearFails s entp index create ∧
      ∀ e t, (sfsBmapGetSubNolock entp index create).run s = .error e t → s.Restored t) ∨
    (SubClearFails s entp index create ∧
      ∃ e t, (sfsBmapGetSubNolock entp index create).run s = .error e t ∧ ¬s.Restored t) := by
  by_cases hj : index < 1024
  · by_cases hne : entp ≠ 0
    · exact sfsBmapGetSubNolock_present h hne (hent hne) hj create
    · exact sfsBmapGetSubNolock_absent h (not_not.mp hne) hj create
  · refine .inl ⟨fun hc ↦ hj hc.1, fun e t hrun ↦ ?_⟩
    rw [sfsBmapGetSubNolock, sfsBlkNentry_eq, assert_bind_run_neg hj] at hrun
    cases hrun

theorem sfsBlockInuse_ne_error (b : ℕ) (e : Errno) (t : SfsFs) :
    (sfsBlockInuse b).run s ≠ .error e t := by
  rw [sfsBlockInuse, get_bind_run]
  by_cases hb : b ≠ 0 ∧ b < s.super.blocks
  · rw [if_pos hb]
    by_cases hlt : b < s.freemap.nbits
    · have htest : (onFreemap (bitmapTest b)).run s = .ok (s.freemap.isFree b) s :=
        zoom_of_ok (bitmapTest_eq hlt)
      rw [bind_of_ok htest]
      rintro ⟨⟩
    · have hpanic : (bitmapTest b).run s.freemap = .panic := by
        rw [bitmapTest, get_bind_run, assert_bind_run_neg hlt]
      have htest : (onFreemap (bitmapTest b)).run s = .panic := zoom_of_panic hpanic
      rw [bind_of_panic htest]
      rintro ⟨⟩
  · rw [if_neg hb]
    rintro ⟨⟩

theorem sfsBmapGetOut_ne_error (ino : ℕ) (e : Errno) (t : SfsFs) :
    (sfsBmapGetOut ino).run s ≠ .error e t := by
  rw [sfsBmapGetOut]
  by_cases hzero : ino = 0
  · rw [if_pos hzero]
    rintro ⟨⟩
  rw [if_neg hzero]
  cases huse : (sfsBlockInuse ino).run s with
  | ok inuse u =>
    rw [bind_of_ok huse]
    by_cases hin : inuse = true
    · rw [assert_bind_run hin]
      rintro ⟨⟩
    · rw [assert_bind_run_neg hin]
      rintro ⟨⟩
  | error e' u => exact absurd huse (sfsBlockInuse_ne_error ino e' u)
  | panic =>
    rw [bind_of_panic huse]
    rintro ⟨⟩

/-- `sfs_bmap_get_nolock` fails in one of two ways. -/
theorem sfsBmapGetNolock_ways (h : s.InOrder) (hk : s.inodes k = some sin)
    (hent : sin.din.indirect ≠ 0 → s.Used sin.din.indirect) (index : ℕ) (create : Bool) :
    (¬ClearFails s sin index create ∧
      ∀ e t, (sfsBmapGetNolock k index create).run s = .error e t → s.Restored t) ∨
    (ClearFails s sin index create ∧
      ∃ e t, (sfsBmapGetNolock k index create).run s = .error e t ∧ ¬s.Restored t) := by
  by_cases h12 : index < 12
  · rw [ClearFails, dif_pos h12]
    by_cases hnew : sin.din.direct ⟨index, h12⟩ = 0 ∧ create = true
    · have hrest : (sfsBmapGetNolock k index create).run s = (sfsBlockAlloc >>= fun ino ↦ do
          putSin k (sin.setDirect ⟨index, h12⟩ ino)
          sfsBmapGetOut ino).run s := by
        rw [sfsBmapGetNolock, bind_of_ok (getSin_eq hk), dif_pos h12, if_pos hnew]
      rw [hrest]
      rcases sfsBlockAlloc_ways h with ⟨b, hfree, -, hhit, halloc⟩ | ⟨b, e, hfree, hhit, halloc⟩ |
        ⟨hnone, halloc⟩
      · refine .inl ⟨fun hc ↦ hc.2.2.1 hhit, fun e t hrun ↦ ?_⟩
        rw [bind_of_ok halloc, putSin_bind_run] at hrun
        exact absurd hrun (sfsBmapGetOut_ne_error b e t)
      · rw [bind_of_error halloc]
        have hclear : s.hit ≠ none := by
          rw [hhit]
          rintro ⟨⟩
        exact .inr ⟨⟨hnew.1, hnew.2, hclear, Bitmap.freeCount_pos hfree⟩, e, _, rfl,
          SfsFs.not_restored hfree (SfsFs.leakBlock_isFree hfree)⟩
      · have hcount := freeCount_eq_zero hnone
        rw [bind_of_error halloc]
        refine .inl ⟨fun hc ↦ hc.2.2.2.ne' hcount, fun e t hrun ↦ ?_⟩
        obtain ⟨-, rfl⟩ := Outcome.error.inj hrun
        exact .refl s
    · refine .inl ⟨fun hc ↦ hnew ⟨hc.1, hc.2.1⟩, fun e t hrun ↦ ?_⟩
      rw [sfsBmapGetNolock, bind_of_ok (getSin_eq hk), dif_pos h12, if_neg hnew] at hrun
      exact absurd hrun (sfsBmapGetOut_ne_error _ e t)
  · rw [ClearFails, dif_neg h12]
    by_cases hlt : index - 12 < 1024
    swap
    · refine .inl ⟨fun hc ↦ hlt hc.1, fun e t hrun ↦ ?_⟩
      rw [sfsBmapGetNolock_panic_of_full hk (by omega)] at hrun
      cases hrun
    -- what follows the call of `sfs_bmap_get_sub_nolock` cannot fail
    have hpass : ∀ e t, (sfsBmapGetNolock k index create).run s = .error e t ↔
        (sfsBmapGetSubNolock sin.din.indirect (index - 12) create).run s = .error e t := by
      intro e t
      rw [sfsBmapGetNolock, bind_of_ok (getSin_eq hk), dif_neg h12, sfsNdirect_eq, sfsBlkNentry_eq,
        if_pos hlt]
      cases hsub : (sfsBmapGetSubNolock sin.din.indirect (index - 12) create).run s with
      | ok r u =>
        rw [bind_of_ok hsub]
        refine ⟨fun hrun ↦ ?_, fun hrun ↦ by cases hrun⟩
        dsimp only at hrun
        by_cases hnew : r.1 ≠ sin.din.indirect
        · rw [if_pos hnew] at hrun
          by_cases hzero : sin.din.indirect = 0
          · rw [assert_bind_run hzero, putSin_bind_run] at hrun
            exact absurd hrun (sfsBmapGetOut_ne_error _ e t)
          · rw [assert_bind_run_neg hzero] at hrun
            cases hrun
        · rw [if_neg hnew] at hrun
          exact absurd hrun (sfsBmapGetOut_ne_error _ e t)
      | error e' u =>
        rw [bind_of_error hsub]
        constructor
        · intro hrun
          obtain ⟨rfl, rfl⟩ := Outcome.error.inj hrun
          rfl
        · intro hrun
          obtain ⟨rfl, rfl⟩ := Outcome.error.inj hrun
          rfl
      | panic =>
        rw [bind_of_panic hsub]
        constructor
        · rintro ⟨⟩
        · rintro ⟨⟩
    simp only [hpass]
    exact sfsBmapGetSubNolock_ways h hent (index - 12) create

/-- When mapping a block fails, everything is as before the call exactly if the operation that
failed was not the one that was to clear a block that had just been taken. -/
theorem sfsBmap_atomic_iff (h : s.InOrder) :
    (∀ entp index create, (entp ≠ 0 → s.Used entp) →
      ((∀ e t, (sfsBmapGetSubNolock entp index create).run s = .error e t → s.Restored t) ↔
        ¬SubClearFails s entp index create)) ∧
    ∀ k sin index create, s.inodes k = some sin →
      (sin.din.indirect ≠ 0 → s.Used sin.din.indirect) →
      ((∀ e t, (sfsBmapGetNolock k index create).run s = .error e t → s.Restored t) ↔
        ¬ClearFails s sin index create) := by
  refine ⟨fun entp index create hent ↦ ?_, fun k sin index create hk hent ↦ ?_⟩
  · rcases sfsBmapGetSubNolock_ways h hent index create with ⟨hno, hall⟩ | ⟨hyes, e, t, hrun, hnot⟩
    · exact ⟨fun _ ↦ hno, fun _ ↦ hall⟩
    · exact ⟨fun hall ↦ absurd (hall e t hrun) hnot, fun hno ↦ absurd hyes hno⟩
  · rcases sfsBmapGetNolock_ways h hk hent index create with ⟨hno, hall⟩ | ⟨hyes, e, t, hrun, hnot⟩
    · exact ⟨fun _ ↦ hno, fun _ ↦ hall⟩
    · exact ⟨fun hall ↦ absurd (hall e t hrun) hnot, fun hno ↦ absurd hyes hno⟩

end Map

/-! ## A device that fails -/

/-- The small file system on a device whose next operation fails. -/
def faultyFs : SfsFs := { sampleFs with dev := { sampleDev with faults := [some .inval] } }

theorem faultyFs_inOrder : faultyFs.InOrder := ⟨sampleFs_ok, sampleFs_tailClear⟩

/-- Its file gets a third block. -/
theorem sfsBmap_atomic_faulty :
    (∀ entp index create, (entp ≠ 0 → faultyFs.Used entp) →
      ((∀ e t, (sfsBmapGetSubNolock entp index create).run faultyFs = .error e t →
          faultyFs.Restored t) ↔ ¬SubClearFails faultyFs entp index create)) ∧
    ∀ k sin index create, faultyFs.inodes k = some sin →
      (sin.din.indirect ≠ 0 → faultyFs.Used sin.din.indirect) →
      ((∀ e t, (sfsBmapGetNolock k index create).run faultyFs = .error e t →
          faultyFs.Restored t) ↔ ¬ClearFails faultyFs sin index create) :=
  sfsBmap_atomic_iff faultyFs_inOrder

/-- The block that is taken for it cannot be cleared. -/
theorem sfsBmapGetNolock_leaks : ∃ e t,
    (sfsBmapGetNolock 3 2 true).run faultyFs = .error e t ∧ ¬faultyFs.Restored t := by
  have hk : faultyFs.inodes 3 = some ⟨sampleFile, false, 1, 1, 1⟩ := rfl
  rcases sfsBmapGetNolock_ways faultyFs_inOrder hk (fun hne ↦ absurd rfl hne) 2 true with
    ⟨hno, -⟩ | ⟨-, hleak⟩
  · refine absurd ?_ hno
    rw [ClearFails, dif_pos (by omega)]
    refine ⟨rfl, rfl, by rintro ⟨⟩, ?_⟩
    rw [show faultyFs.freemap = sampleFreemap from rfl, freeCount_sampleFreemap]
    omega
  · exact hleak

end Ucore
