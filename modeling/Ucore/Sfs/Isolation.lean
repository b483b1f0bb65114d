import Ucore.Sfs.BlockRuns
import Ucore.Sfs.FileSpec

/-!
# Isolation of files

A write to a file that transfers no whole block changes the contents of data blocks and of the
indirect block of that file, and of blocks that were free, and of nothing else; so the other files
read as before.

## What a write can have done

`Grown` is the part that concerns other files: a block of the device is as it was, or it was free,
or inode `k` owned it, and what `k` owns afterwards it owned before or was free. `SfsFs.Wrote`
carries this through the parts of a write together with what the next part relies on: the blocks are
owned, the inode has at least the blocks it had, its attributes are the same, and it is marked
dirty unless nothing was appended or the append went through an indirect block that was there. Both
are transitive, so the transfer as a whole does what its parts do (`SpanEnds`), and `WriteDone` adds
the size that is set at the end.

## What other files see

The byte of another file is in a block that the other inode owns. That block is neither free nor
owned by `k`, by ownership, and so its contents are the same; nor has the map that leads to it
changed.
-/

namespace Ucore

open Bytes Prog

namespace SfsFs

/-- What happened between `s` and `t` concerns only blocks inode `k` owns and blocks that were
free. -/
structure Grown (s t : SfsFs) (live : Finset ℕ) (k : ℕ) : Prop where
  blk : ∀ c, t.dev.blk c = s.dev.blk c ∨ s.freemap.isFree c = true ∨
    s.own live (.indirect k) = some c ∨ ∃ i, s.own live (.data k i) = some c
  inodes : ∀ j ≠ k, t.inodes j = s.inodes j
  blocks : t.super.blocks = s.super.blocks
  free : ∀ c, t.freemap.isFree c = true → s.freemap.isFree c = true
  indirect : ∀ c, t.own live (.indirect k) = some c →
    s.own live (.indirect k) = some c ∨ s.freemap.isFree c = true
  data : ∀ i c, t.own live (.data k i) = some c →
    s.own live (.data k i) = some c ∨ s.freemap.isFree c = true

section Grown

variable {s t u : SfsFs} {live : Finset ℕ} {k b : ℕ} {sin sin' : SfsInode}

theorem Grown.refl : s.Grown s live k :=
  ⟨fun _ ↦ Or.inl rfl, fun _ _ ↦ rfl, rfl, fun _ h ↦ h, fun _ h ↦ Or.inl h, fun _ _ h ↦ Or.inl h⟩

theorem Grown.trans (h : s.Grown t live k) (h' : t.Grown u live k) : s.Grown u live k where
  blk c := by
    rcases h'.blk c with heq | hfree | hind | ⟨i, hdata⟩
    · rw [heq]
      exact h.blk c
    · exact Or.inr (Or.inl (h.free c hfree))
    · rcases h.indirect c hind with hown | hfree
      · exact Or.inr (Or.inr (Or.inl hown))
      · exact Or.inr (Or.inl hfree)
    · rcases h.data i c hdata with hown | hfree
      · exact Or.inr (Or.inr (Or.inr ⟨i, hown⟩))
      · exact Or.inr (Or.inl hfree)
  inodes j hj := (h'.inodes j hj).trans (h.inodes j hj)
  blocks := h'.blocks.trans h.blocks
  free c hc := h.free c (h'.free c hc)
  indirect c hc := by
    rcases h'.indirect c hc with hown | hfree
    · exact h.indirect c hown
    · exact Or.inr (h.free c hfree)
  data i c hc := by
    rcases h'.data i c hc with hown | hfree
    · exact h.data i c hown
    · exact Or.inr (h.free c hfree)

/-- A block that belongs to something else than the data or the indirect block of inode `k` is
unchanged. -/
theorem Grown.blk_of_own (h : s.Grown t live k) (ho : s.Owned live) {o : Owner} {c : ℕ}
    (hc : s.own live o = some c) (hind : o ≠ .indirect k) (hdata : ∀ i, o ≠ .data k i) :
    t.dev.blk c = s.dev.blk c := by
  rcases h.blk c with heq | hfree | hown | ⟨i, hown⟩
  · exact heq
  · exact absurd hfree (ho.exact.held hc).2
  · exact absurd (ho.exact.inj hc hown) hind
  · exact absurd (ho.exact.inj hc hown) (hdata i)

theorem Grown.sameOthers (h : s.Grown t live k) (ho : s.Owned live) : s.SameOthers t live k where
  blk _ _ hc hne := h.blk_of_own ho hc (fun heq ↦ hne (heq ▸ rfl)) fun _ heq ↦ hne (heq ▸ rfl)
  inodes := h.inodes

theorem Appended.grown (h : s.Appended k sin b t sin') (ho : s.Owned live)
    (hk : s.inodes k = some sin) : s.Grown t live k where
  blk c := by
    by_cases hb : c = b
    · exact Or.inr (Or.inl (hb ▸ h.taken.1))
    · by_cases hc : c ≠ sin'.din.indirect ∨ c = 0
      · exact Or.inl (h.blk c hb hc)
      · obtain ⟨rfl, hnz⟩ : c = sin'.din.indirect ∧ c ≠ 0 := by
          rw [not_or, not_not] at hc
          exact hc
        rcases h.indirect with ⟨hsame, -⟩ | ⟨-, -, -, hfree, -⟩
        · refine Or.inr (Or.inr (Or.inl ?_))
          rw [hsame] at hnz ⊢
          rw [own_indirect (ho.cached k sin hk) (by rwa [dinOf_of_cached hk]), dinOf_of_cached hk]
        · exact Or.inr (Or.inl hfree)
  inodes j hj := by rw [h.inodes, Function.update_of_ne hj]
  blocks := by rw [h.super]
  free c hc := ((h.free c).mp hc).1
  indirect c hc := by
    rw [h.own_eq ho hk, Function.update_of_ne (by simp)] at hc
    split at hc
    · exact Or.inl hc
    · next hnew =>
      rw [Function.update_self] at hc
      obtain rfl := Option.some.inj hc
      rcases h.indirect with ⟨hsame, -⟩ | ⟨-, -, -, hfree, -⟩
      · exact absurd hsame hnew
      · exact Or.inr hfree
  data i c hc := by
    rw [h.own_eq ho hk] at hc
    by_cases hi : i = sin.din.blocks
    · rw [hi, Function.update_self] at hc
      obtain rfl := Option.some.inj hc
      exact Or.inr h.taken.1
    · rw [Function.update_of_ne (by simpa using hi)] at hc
      split at hc
      · exact Or.inl hc
      · rw [Function.update_of_ne (by simp)] at hc
        exact Or.inl hc

theorem NoSpace.grown (h : s.NoSpace t) (ho : s.Owned live) (k : ℕ) : s.Grown t live k where
  blk c := by
    by_cases hc : s.freemap.isFree c = true
    · exact Or.inr (Or.inl hc)
    · exact Or.inl (h.blk c (by simpa using hc))
  inodes j _ := by rw [h.inodes]
  blocks := by rw [h.super]
  free c hc := by rwa [h.freemap] at hc
  indirect c hc := Or.inl (by rwa [h.own_eq ho] at hc)
  data i c hc := Or.inl (by rwa [h.own_eq ho] at hc)

/-- Storing to a data block of inode `k`. -/
theorem grown_setBlk (ho : s.Owned live) (hk : s.inodes k = some sin) {j : ℕ}
    (hj : j < sin.din.blocks) (c : Bytes) :
    s.Grown (s.setBlk (s.bmap sin.din j) c) live k := by
  have hlive := ho.cached k sin hk
  have hdata := own_data hlive (i := j) (by rwa [dinOf_of_cached hk])
  rw [dinOf_of_cached hk] at hdata
  have hcached : (s.setBlk (s.bmap sin.din j) c).inodes k = some sin := hk
  have hdin : (s.setBlk (s.bmap sin.din j) c).dinOf k = s.dinOf k := by
    rw [dinOf_of_cached hcached, dinOf_of_cached hk]
  have hmap : ∀ i, (s.setBlk (s.bmap sin.din j) c).bmap (s.dinOf k) i = s.bmap (s.dinOf k) i :=
    fun i ↦ bmap_congr rfl rfl fun hne ↦ by
      refine s.setBlk_blk_of_ne _ c ?_
      exact ho.exact.ne (own_indirect hlive hne) hdata (by simp)
  refine ⟨fun m ↦ ?_, fun _ _ ↦ rfl, rfl, fun _ h ↦ h, fun m hm ↦ Or.inl ?_, fun i m hm ↦ Or.inl ?_⟩
  · by_cases hm : m = s.bmap sin.din j
    · exact Or.inr (Or.inr (Or.inr ⟨j, hm ▸ hdata⟩))
    · exact Or.inl (s.setBlk_blk_of_ne _ c hm)
  · rwa [own, hdin] at hm
  · rwa [own, hdin, hmap] at hm

theorem grown_setInode (hk : s.inodes k = some sin)
    (hdin : sin'.din = { sin.din with size := sin'.din.size }) :
    s.Grown (s.setInode k sin') live k := by
  have hdin' : (s.setInode k sin').dinOf k = sin'.din := dinOf_of_cached (setInode_inodes_self ..)
  refine ⟨fun _ ↦ Or.inl rfl, fun j hj ↦ s.setInode_inodes_of_ne k sin' hj, rfl, fun _ h ↦ h,
    fun c hc ↦ Or.inl ?_, fun i c hc ↦ Or.inl ?_⟩
  · rw [own, hdin', hdin] at hc
    rwa [own, dinOf_of_cached hk]
  · have hmap : (s.setInode k sin').bmap sin'.din i = s.bmap sin.din i :=
      bmap_congr (by rw [hdin]) (by rw [hdin]) fun _ ↦ rfl
    rw [own, hdin', hmap, hdin] at hc
    rwa [own, dinOf_of_cached hk]

end Grown

/-- An append to the inode would find a block, go through the indirect block that is there, and
leave the inode unmarked. -/
def AppendsUnmarked (s : SfsFs) (sin : SfsInode) : Prop :=
  12 ≤ sin.din.blocks ∧ sin.din.indirect ≠ 0 ∧ sin.dirty = false ∧ ∃ b, s.freemap.isFree b = true

/-- What a part of a write to inode `k` can have done. -/
structure Wrote (s : SfsFs) (live : Finset ℕ) (k : ℕ) (sin : SfsInode) (t : SfsFs)
    (sin' : SfsInode) : Prop where
  owned : t.Owned live
  tail : t.TailClear
  cached : t.inodes k = some sin'
  grown : s.Grown t live k
  inodeList : t.inodeList = s.inodeList
  attrs : sin'.din.size = sin.din.size ∧ sin'.din.type = sin.din.type ∧
    sin'.din.nlinks = sin.din.nlinks
  blocks_le : sin.din.blocks ≤ sin'.din.blocks
  /-- Unless a block was appended the inode is the same. -/
  same : sin'.din.blocks = sin.din.blocks → sin' = sin
  dirty : sin' = sin ∨ sin'.dirty = true ∨ s.AppendsUnmarked sin
  /-- Through an indirect block that was there, a logical block costs one block. -/
  room : sin.din.indirect ≠ 0 → sin'.din.indirect = sin.din.indirect ∧
    t.freemap.freeCount + sin'.din.blocks = s.freemap.freeCount + sin.din.blocks
  format : t.super = { s.super with unusedBlocks := t.super.unusedBlocks } ∧
    t.freemap.nbits = s.freemap.nbits
  /-- Unless the superblock was marked dirty it and the freemap are the same. -/
  super : t.superDirty = true ∨
    (t.superDirty = s.superDirty ∧ t.super = s.super ∧ t.freemap = s.freemap)

section Wrote

variable {s t u : SfsFs} {live : Finset ℕ} {k b : ℕ} {sin sin' sin₁ sin₂ : SfsInode}

theorem Wrote.refl (ho : s.Owned live) (ht : s.TailClear) (hk : s.inodes k = some sin) :
    s.Wrote live k sin s sin :=
  ⟨ho, ht, hk, .refl, rfl, ⟨rfl, rfl, rfl⟩, le_refl _, fun _ ↦ rfl, Or.inl rfl,
    fun _ ↦ ⟨rfl, rfl⟩, ⟨rfl, rfl⟩, Or.inr ⟨rfl, rfl, rfl⟩⟩

theorem Wrote.trans (h : s.Wrote live k sin t sin₁) (h' : t.Wrote live k sin₁ u sin₂) :
    s.Wrote live k sin u sin₂ where
  owned := h'.owned
  tail := h'.tail
  cached := h'.cached
  grown := h.grown.trans h'.grown
  inodeList := h'.inodeList.trans h.inodeList
  attrs := ⟨h'.attrs.1.trans h.attrs.1, h'.attrs.2.1.trans h.attrs.2.1,
    h'.attrs.2.2.trans h.attrs.2.2⟩
  blocks_le := h.blocks_le.trans h'.blocks_le
  same hb := by
    have h₁ := h.blocks_le
    have h₂ := h'.blocks_le
    rw [h'.same (by omega), h.same (by omega)]
  dirty := by
    rcases h'.dirty with rfl | hd | ⟨h12, hind, hd, b, hfree⟩
    · exact h.dirty
    · exact Or.inr (Or.inl hd)
    · rcases h.dirty with rfl | hd' | happ
      · exact Or.inr (Or.inr ⟨h12, hind, hd, b, h.grown.free b hfree⟩)
      · rw [hd] at hd'
        exact Bool.noConfusion hd'
      · exact Or.inr (Or.inr happ)
  room hne := by
    obtain ⟨hind, hfree⟩ := h.room hne
    obtain ⟨hind', hfree'⟩ := h'.room (hind ▸ hne)
    exact ⟨hind'.trans hind, hfree'.trans hfree⟩
  format := by
    refine ⟨?_, h'.format.2.trans h.format.2⟩
    rw [h'.format.1, h.format.1]
  super := by
    rcases h'.super with hd | ⟨hd, hs, hf⟩
    · exact Or.inl hd
    · rcases h.super with hd' | ⟨hd', hs', hf'⟩
      · exact Or.inl (hd.trans hd')
      · exact Or.inr ⟨hd.trans hd', hs.trans hs', hf.trans hf'⟩

theorem Appended.wrote (h : s.Appended k sin b t sin') (ho : s.Owned live) (ht : s.TailClear)
    (hk : s.inodes k = some sin) : s.Wrote live k sin t sin' where
  owned := h.owned ho hk
  tail := h.tail ht
  cached := h.cached
  grown := h.grown ho hk
  inodeList := h.inodeList
  attrs := h.attrs
  blocks_le := by
    have := h.blocks
    omega
  same hb := by
    have := h.blocks
    omega
  dirty := by
    have hd := h.dirty
    by_cases hslot : 12 ≤ sin.din.blocks ∧ sin.din.indirect ≠ 0
    · rw [if_pos hslot] at hd
      by_cases hdirty : sin.dirty = true
      · exact Or.inr (Or.inl (hd.trans hdirty))
      · exact Or.inr (Or.inr ⟨hslot.1, hslot.2, by simpa using hdirty, b, h.taken.1⟩)
    · rw [if_neg hslot] at hd
      exact Or.inr (Or.inl hd)
  room hne := by
    have hblocks := h.blocks
    rcases h.indirect with ⟨hind, hfree⟩ | ⟨hind, -⟩
    · exact ⟨hind, by omega⟩
    · exact absurd hind hne
  format := ⟨h.super, h.nbits⟩
  super := Or.inl h.superDirty

theorem NoSpace.wrote (h : s.NoSpace t) (ho : s.Owned live) (ht : s.TailClear)
    (hk : s.inodes k = some sin) : s.Wrote live k sin t sin where
  owned := h.owned ho
  tail c hc := by
    rw [h.freemap] at hc
    rw [h.super]
    exact ht c hc
  cached := by rwa [h.inodes]
  grown := h.grown ho k
  inodeList := h.inodeList
  attrs := ⟨rfl, rfl, rfl⟩
  blocks_le := le_refl _
  same _ := rfl
  dirty := Or.inl rfl
  room _ := ⟨rfl, by rw [h.freemap]⟩
  format := ⟨by rw [h.super], by rw [h.freemap]⟩
  super := by
    rcases h.superDirty with hd | rfl
    · exact Or.inl hd
    · exact Or.inr ⟨rfl, rfl, rfl⟩

theorem wrote_setBlk (ho : s.Owned live) (ht : s.TailClear) (hk : s.inodes k = some sin) {j : ℕ}
    (hj : j < sin.din.blocks) (c : Bytes) :
    s.Wrote live k sin (s.setBlk (s.bmap sin.din j) c) sin where
  owned := by
    have hdata := own_data (ho.cached k sin hk) (i := j) (by rwa [dinOf_of_cached hk])
    rw [dinOf_of_cached hk] at hdata
    exact ho.setBlk hk hdata rfl (by simp) c
  tail := ht
  cached := hk
  grown := grown_setBlk ho hk hj c
  inodeList := rfl
  attrs := ⟨rfl, rfl, rfl⟩
  blocks_le := le_refl _
  same _ := rfl
  dirty := Or.inl rfl
  room _ := ⟨rfl, rfl⟩
  format := ⟨rfl, rfl⟩
  super := Or.inr ⟨rfl, rfl, rfl⟩

end Wrote

end SfsFs

/-! ## The parts of a write -/

section Write

variable {s : SfsFs} {live : Finset ℕ} {k : ℕ} {sin : SfsInode}

/-- How a write to block `j` ends: with the bytes written, in an inode that has the block, or for
lack of space for it; or it stops the machine because the inode cannot have that block yet. -/
def WriteEnds (s : SfsFs) (live : Finset ℕ) (k : ℕ) (sin : SfsInode) (j : ℕ) (buf : Bytes)
    (o : Outcome Errno SfsFs Bytes) : Prop :=
  (o = .panic ∧ (sin.din.blocks < j ∨ 1036 ≤ j)) ∨
    ∃ t sin', s.Wrote live k sin t sin' ∧
      ((o = .ok buf t ∧ sin'.din.blocks = max sin.din.blocks (j + 1)) ∨
        ∃ e, o = .error e t ∧ sin' = sin ∧ j = sin.din.blocks ∧
          s.freemap.freeCount < appendCost sin.din)

theorem sfsIoPiece_writeEnds (ho : s.Owned live) (ht : s.TailClear) (hk : s.inodes k = some sin)
    (buf : Bytes) (base j : ℕ) {off len : ℕ} (hlen : 0 < len) (hoff : off + len ≤ 4096) :
    WriteEnds s live k sin j buf ((sfsIoPiece k buf base len j off true).run s) := by
  have hm := ho.mapped_of_cached hk
  rcases lt_trichotomy j sin.din.blocks with hj | rfl | hj
  · have hused := hm.used j hj
    refine Or.inr ⟨_, sin, SfsFs.wrote_setBlk ho ht hk hj
      (memcpy (s.dev.blk (s.bmap sin.din j)) off buf base len), Or.inl ⟨?_, by omega⟩⟩
    rw [sfsIoPiece, bind_of_ok (sfsBmapLoadNolock_lookup ho.ok hk hm hj), sfsBufOp, if_pos rfl,
      sfsWbuf_eq ho.ok.toDevOk hused.1 hused.2.1 _ _ (by omega) hoff]
  · by_cases hlt : sin.din.blocks < 1036
    · rcases sfsBmapLoadNolock_append ho.ok hk hm ht.zero hlt with
        ⟨b, t, sin', happ, hload⟩ | ⟨t, hno, hfull, hload⟩ | ⟨htail, -⟩
      · have hw := happ.wrote ho ht hk
        have hj : sin.din.blocks < sin'.din.blocks := by
          have := happ.blocks
          omega
        have hused := (hw.owned.mapped_of_cached hw.cached).used _ hj
        have hstore := SfsFs.wrote_setBlk hw.owned hw.tail hw.cached hj
          (memcpy (t.dev.blk b) off buf base len)
        rw [happ.bmap_last] at hused hstore
        refine Or.inr ⟨_, sin', hw.trans hstore, Or.inl ⟨?_, by rw [happ.blocks]; omega⟩⟩
        rw [sfsIoPiece, bind_of_ok hload, sfsBufOp, if_pos rfl,
          sfsWbuf_eq hw.owned.ok.toDevOk hused.1 hused.2.1 _ _ (by omega) hoff]
      · refine Or.inr ⟨t, sin, hno.wrote ho ht hk, Or.inr ⟨.noMem, ?_, rfl, rfl, hfull⟩⟩
        rw [sfsIoPiece, bind_of_error hload]
      · exact absurd ht htail
    · refine Or.inl ⟨?_, Or.inr (by omega)⟩
      rw [sfsIoPiece, bind_of_panic (sfsBmapLoadNolock_panic_of_full hk (by omega) (le_refl _))]
  · refine Or.inl ⟨?_, Or.inl hj⟩
    rw [sfsIoPiece, bind_of_panic (sfsBmapLoadNolock_panic_of_gt hk hj)]

/-- How the transfer part of a write ends: with the bytes it counts written, all of them unless
space ran out; or it stops the machine because the inode cannot have all the blocks. -/
def SpanEnds (s : SfsFs) (live : Finset ℕ) (k : ℕ) (sin : SfsInode) (offset endpos : ℕ)
    (o : Outcome Errno SfsFs IoResult) : Prop :=
  (o = .panic ∧ (sin.din.blocks < offset / 4096 ∨ 4096 * 1036 < endpos)) ∨
    ∃ r t sin', o = .ok r t ∧ s.Wrote live k sin t sin' ∧ offset + r.alen ≤ endpos ∧
      (sin' = sin ∧ r.alen = 0 ∨
        0 < r.alen ∧ sin'.din.blocks = max sin.din.blocks (SfsFs.blocksFor (offset + r.alen)) ∧
          (offset + r.alen = endpos ∨ (sin.din.indirect ≠ 0 →
            4096 * (sin.din.blocks + s.freemap.freeCount) ≤ offset + r.alen)))

theorem sfsIoHead_spanEnds (ho : s.Owned live) (ht : s.TailClear) (hk : s.inodes k = some sin)
    (buf : Bytes) {offset endpos : ℕ} (hno : NoWholeBlock offset endpos) (hlt : offset < endpos) :
    SpanEnds s live k sin offset endpos ((sfsIoHead k buf offset endpos true).run s) := by
  -- without a whole block the transfer is one piece, or two in neighbouring blocks
  rcases le_or_gt endpos (blockEnd offset) with hle | hgt
  · have hle' := hle
    rw [blockEnd] at hle'
    have hfit : offset % 4096 + (endpos - offset) ≤ 4096 := by omega
    rw [sfsIoHead_one hlt hle hno]
    rcases sfsIoPiece_writeEnds ho ht hk buf 0 (offset / 4096) (by omega) hfit with
      ⟨hrun, hfar⟩ | ⟨t, sin', hw, ⟨hrun, hblocks⟩ | ⟨e, hrun, rfl, -⟩⟩
    · rw [hrun]
      exact Or.inl ⟨rfl, by omega⟩
    · rw [hrun]
      refine Or.inr ⟨⟨none, endpos - offset, buf⟩, t, sin', rfl, hw, ?_, Or.inr ⟨?_, ?_, Or.inl ?_⟩⟩
      · dsimp only
        omega
      · dsimp only
        omega
      · rw [hblocks, SfsFs.blocksFor]
        dsimp only
        omega
      · dsimp only
        omega
    · rw [hrun]
      exact Or.inr ⟨⟨some e, 0, buf⟩, t, sin', rfl, hw, hlt.le, Or.inl ⟨rfl, rfl⟩⟩
  · have hgt' := hgt
    have hno' := hno
    rw [blockEnd] at hgt'
    rw [NoWholeBlock] at hno'
    have hb : blockEnd offset = 4096 * (offset / 4096 + 1) := rfl
    have hfit : offset % 4096 + (blockEnd offset - offset) ≤ 4096 := by omega
    have hfit' : 0 + (endpos - blockEnd offset) ≤ 4096 := by omega
    rw [sfsIoHead_two hgt hno]
    rcases sfsIoPiece_writeEnds ho ht hk buf 0 (offset / 4096) (by omega) hfit with
      ⟨hrun, hfar⟩ | ⟨t, sin₁, hw, ⟨hrun, hblocks⟩ | ⟨e, hrun, rfl, -⟩⟩
    · rw [hrun]
      exact Or.inl ⟨rfl, by omega⟩
    · rw [hrun, twoPieces]
      rcases sfsIoPiece_writeEnds hw.owned hw.tail hw.cached buf (blockEnd offset - offset)
          (offset / 4096 + 1) (by omega) hfit' with
        ⟨hrun', hfar⟩ | ⟨u, sin₂, hw', ⟨hrun', hblocks'⟩ | ⟨e, hrun', rfl, hj, hfull⟩⟩
      · rw [hrun']
        exact Or.inl ⟨rfl, by omega⟩
      · rw [hrun']
        refine Or.inr ⟨⟨none, blockEnd offset - offset + (endpos - blockEnd offset), buf⟩, u, sin₂,
          rfl, hw.trans hw', ?_, Or.inr ⟨?_, ?_, Or.inl ?_⟩⟩
        · dsimp only
          omega
        · dsimp only
          omega
        · rw [hblocks', hblocks, SfsFs.blocksFor]
          dsimp only
          omega
        · dsimp only
          omega
      · rw [hrun']
        refine Or.inr ⟨⟨some e, blockEnd offset - offset, buf⟩, u, sin₂, rfl, hw.trans hw', ?_,
          Or.inr ⟨?_, ?_, Or.inr fun hne ↦ ?_⟩⟩
        · dsimp only
          omega
        · dsimp only
          omega
        · rw [hblocks, SfsFs.blocksFor]
          dsimp only
          omega
        · -- the second piece found no block, so the first one took the last
          obtain ⟨hind, hfree⟩ := hw.room hne
          rw [appendCost, if_neg fun hc ↦ hne (hind ▸ hc.2)] at hfull
          dsimp only
          omega
    · rw [hrun]
      exact Or.inr ⟨⟨some e, 0, buf⟩, t, sin₁, rfl, hw, hlt.le, Or.inl ⟨rfl, rfl⟩⟩

/-- What a whole write did: what its parts did, and the size is what the blocks hold. -/
structure SfsFs.WriteDone (s : SfsFs) (live : Finset ℕ) (k : ℕ) (sin : SfsInode) (t : SfsFs)
    (sin' : SfsInode) : Prop where
  owned : t.Owned live
  tail : t.TailClear
  cached : t.inodes k = some sin'
  grown : s.Grown t live k
  inodeList : t.inodeList = s.inodeList
  attrs : sin'.din.type = sin.din.type ∧ sin'.din.nlinks = sin.din.nlinks
  sizes : SfsFs.blocksFor sin'.din.size ≤ sin'.din.blocks
  size_le : sin'.din.size ≤ max sin.din.size (4096 * 1036)
  /-- An inode that was changed is marked dirty. -/
  dirty : sin' = sin ∨ sin'.dirty = true
  super : t.superDirty = true ∨
    (t.superDirty = s.superDirty ∧ t.super = s.super ∧ t.freemap = s.freemap)

theorem SfsFs.Wrote.done {t : SfsFs} {sin' : SfsInode} (h : s.Wrote live k sin t sin')
    (hsizes : SfsFs.blocksFor sin.din.size ≤ sin.din.blocks) (hsame : sin' = sin) :
    s.WriteDone live k sin t sin' where
  owned := h.owned
  tail := h.tail
  cached := h.cached
  grown := h.grown
  inodeList := h.inodeList
  attrs := h.attrs.2
  sizes := by rwa [hsame]
  size_le := by
    rw [hsame]
    exact le_max_left _ _
  dirty := Or.inl hsame
  super := h.super

theorem SfsFs.Wrote.done_grow {t : SfsFs} {sin' : SfsInode} (h : s.Wrote live k sin t sin') {n : ℕ}
    (hn : SfsFs.blocksFor n ≤ sin'.din.blocks) (hle : n ≤ 4096 * 1036) :
    s.WriteDone live k sin (t.setInode k (sin'.grow n)) (sin'.grow n) where
  owned := h.owned.setInode h.cached rfl
  tail := h.tail
  cached := SfsFs.setInode_inodes_self ..
  grown := h.grown.trans (SfsFs.grown_setInode h.cached rfl)
  inodeList := h.inodeList
  attrs := h.attrs.2
  sizes := hn
  size_le := hle.trans (le_max_right _ _)
  dirty := Or.inr rfl
  super := h.super

/-- A span without whole blocks that the inode can map is written, and the size is set to where the
writing ended. -/
theorem sfsIoSpan_write_done (ho : s.Owned live) (ht : s.TailClear) (hk : s.inodes k = some sin)
    (hsizes : SfsFs.blocksFor sin.din.size ≤ sin.din.blocks) (buf : Bytes) {offset endpos : ℕ}
    (hno : NoWholeBlock offset endpos) (hlt : offset < endpos) (hend : endpos ≤ 4096 * 1036)
    (hoff : offset ≤ sin.din.size) :
    ∃ r t sin', (sfsIoSpan k buf offset endpos true).run s = .ok r t ∧
      s.WriteDone live k sin t sin' := by
  have hblk : offset / 4096 ≤ sin.din.blocks := by
    rw [SfsFs.blocksFor] at hsizes
    omega
  rcases sfsIoHead_spanEnds ho ht hk buf hno hlt with ⟨-, hfar⟩ | ⟨r, t, sin', hrun, hw, hr, hcase⟩
  · omega
  have hsize := hw.attrs.1
  rw [sfsIoSpan, bind_of_ok hrun, sfsIoOut, bind_of_ok (getSin_eq hw.cached)]
  rcases hcase with ⟨hsame, hzero⟩ | ⟨halen, hblocks, -⟩
  · rw [if_neg (by omega), run_pure]
    exact ⟨r, t, sin', rfl, hw.done hsizes hsame⟩
  · by_cases hgrow : sin'.din.size < offset + r.alen
    · rw [if_pos hgrow]
      exact ⟨r, _, _, rfl, hw.done_grow (by omega) (by omega)⟩
    · rw [if_neg hgrow, run_pure]
      refine ⟨r, t, sin', rfl, hw.done hsizes (hw.same ?_)⟩
      rw [SfsFs.blocksFor] at hsizes hblocks
      omega

/-- A write that contains no whole block returns, and did what `SfsFs.WriteDone` says. -/
theorem sfsIoNolock_write_done (ho : s.Owned live) (ht : s.TailClear) (hk : s.inodes k = some sin)
    (htype : sin.din.type ≠ sfsTypeDir) (hsizes : SfsFs.blocksFor sin.din.size ≤ sin.din.blocks)
    {offset len : ℕ} (hoff : offset ≤ sin.din.size) (hend : offset + len ≤ 4096 * 1036)
    (hno : NoWholeBlock offset (offset + len)) (buf : Bytes) :
    ∃ r t sin', (sfsIoNolock k buf offset len true).run s = .ok r t ∧
      s.WriteDone live k sin t sin' := by
  rcases Nat.eq_zero_or_pos len with rfl | hpos
  · exact ⟨_, s, sin, sfsIoNolock_zero hk htype buf true (by omega),
      (SfsFs.Wrote.refl ho ht hk).done hsizes rfl⟩
  · rw [sfsIoNolock_start hk htype buf true hpos hend, if_pos rfl]
    exact sfsIoSpan_write_done ho ht hk hsizes buf hno (by omega) hend hoff

end Write

/-! ## Changing the length of a file -/

section Trunc

variable {s : SfsFs} {live : Finset ℕ} {k : ℕ} {sin : SfsInode}

theorem sfsTruncEnlarge_sat (n : ℕ) {nblks : ℕ} {t : SfsFs} {sin₁ : SfsInode}
    (hw : s.Wrote live k sin t sin₁) (hn : sin₁.din.blocks = nblks) :
    ((sfsTruncEnlarge k nblks n).run t).Sat
      (fun _ u ↦ ∃ sin', s.Wrote live k sin u sin' ∧ sin'.din.blocks = nblks + n)
      fun _ u ↦ ∃ sin', s.Wrote live k sin u sin' ∧
        (sin.din.indirect ≠ 0 → sin.din.blocks + s.freemap.freeCount < nblks + n) := by
  induction n generalizing nblks t sin₁ with
  | zero => exact ⟨sin₁, hw, hn⟩
  | succ n ih =>
    refine sat_bind ((sfsBmapLoadNolock_sat hw.owned hw.cached nblks).imp (fun _ _ h ↦ h)
      fun e u hu ↦ ⟨sin₁, hw.trans (hu.2.1.wrote hw.owned hw.tail hw.cached), fun hne ↦ ?_⟩)
      fun b u hu ↦ ?_
    · obtain ⟨hind, hfree⟩ := hw.room hne
      have hfull := hu.2.2.2
      rw [appendCost, if_neg fun hc ↦ hne (hind ▸ hc.2)] at hfull
      omega
    rcases hu with ⟨-, hlt, -⟩ | ⟨-, sin', happ⟩
    · omega
    · have hblocks := happ.blocks
      refine (ih (hw.trans (happ.wrote hw.owned hw.tail hw.cached)) (by omega)).imp
        (fun _ v hv ↦ ?_) fun _ v hv ↦ ?_
      · obtain ⟨sin'', hw'', hb⟩ := hv
        exact ⟨sin'', hw'', by omega⟩
      · obtain ⟨sin'', hw'', hroom⟩ := hv
        exact ⟨sin'', hw'', fun hne ↦ by have := hroom hne; omega⟩

/-- What cutting blocks off inode `k` can have done. -/
structure SfsFs.Reduced (s : SfsFs) (live : Finset ℕ) (k : ℕ) (sin : SfsInode) (t : SfsFs)
    (sin' : SfsInode) : Prop where
  owned : t.Owned live
  tail : t.TailClear
  cached : t.inodes k = some sin'
  others : s.SameOthers t live k
  disk : t.dev.blk k = s.dev.blk k
  inodeList : t.inodeList = s.inodeList
  attrs : sin'.din.type = sin.din.type ∧ sin'.din.nlinks = sin.din.nlinks
  format : t.super = { s.super with unusedBlocks := t.super.unusedBlocks } ∧
    t.freemap.nbits = s.freemap.nbits
  super : t.superDirty = true ∨
    (t.superDirty = s.superDirty ∧ t.super = s.super ∧ t.freemap = s.freemap)

theorem SfsFs.Reduced.refl (ho : s.Owned live) (ht : s.TailClear) (hk : s.inodes k = some sin) :
    s.Reduced live k sin s sin :=
  ⟨ho, ht, hk, ⟨fun _ _ _ _ ↦ rfl, fun _ _ ↦ rfl⟩, rfl, rfl, ⟨rfl, rfl⟩, ⟨rfl, rfl⟩,
    Or.inr ⟨rfl, rfl, rfl⟩⟩

theorem SfsFs.Reduced.truncated {t u : SfsFs} {sin₁ sin' : SfsInode} {b : ℕ}
    (h : s.Reduced live k sin t sin₁) (htrunc : t.Truncated k sin₁ b u sin') :
    s.Reduced live k sin u sin' where
  owned := htrunc.owned h.owned h.cached
  tail := htrunc.tail h.tail
  cached := htrunc.cached
  others :=
  { blk := fun o c hc hne ↦ by
      have hown : t.own live o = some c := (h.others.own (by rw [h.format.1]) hne).trans hc
      rw [(htrunc.sameOthers h.owned h.cached).blk o c hown hne, h.others.blk o c hc hne]
    inodes := fun j hj ↦ by
      rw [(htrunc.sameOthers h.owned h.cached).inodes j hj, h.others.inodes j hj] }
  disk := by
    rw [htrunc.blk k (Or.inl fun hc ↦ ?_), h.disk]
    have hlive := h.owned.cached k sin₁ h.cached
    have hk := h.owned.used_inode hlive
    have hne : (t.dinOf k).indirect ≠ 0 := by
      rw [dinOf_of_cached h.cached, ← hc]
      exact hk.1
    refine h.owned.exact.ne (own_inode hlive) (own_indirect hlive hne) (by simp) ?_
    rwa [dinOf_of_cached h.cached]
  inodeList := htrunc.inodeList.trans h.inodeList
  attrs := ⟨htrunc.attrs.2.1.trans h.attrs.1, htrunc.attrs.2.2.1.trans h.attrs.2⟩
  format := by
    refine ⟨?_, htrunc.nbits.trans h.format.2⟩
    rw [htrunc.super, h.format.1]
  super := Or.inl htrunc.superDirty

/-- Changing the length to `len` would append blocks without marking the inode and then fail for
lack of space. -/
def SfsFs.TruncUnmarked (s : SfsFs) (sin : SfsInode) (len : ℤ) : Prop :=
  s.AppendsUnmarked sin ∧ 0 ≤ len ∧ len ≤ sfsMaxFileSize ∧ sin.din.size ≠ len.toNat ∧
    sin.din.blocks + s.freemap.freeCount < truncBlocks len.toNat

/-- `sfs_truncfile` leaves the inode alone, or grows it or cuts it to the length asked for and marks
it dirty, or fails after some appends. -/
theorem sfsTruncfile_sat (ho : s.Owned live) (ht : s.TailClear) (hk : s.inodes k = some sin)
    (len : ℤ) :
    ((sfsTruncfile k len).run s).Sat
      (fun _ t ↦ t = s ∨ ∃ u sin', (s.Wrote live k sin u sin' ∨ s.Reduced live k sin u sin') ∧
        sin'.din.blocks = truncBlocks len.toNat ∧ len.toNat ≤ sfsMaxFileSize ∧
          t = u.setInode k (sin'.grow len.toNat))
      fun _ t ↦ ∃ sin', s.Wrote live k sin t sin' ∧
        (sin' = sin ∨ sin'.dirty = true ∨ s.TruncUnmarked sin len) := by
  rw [sfsTruncfile]
  by_cases hbad : len < 0 ∨ (sfsMaxFileSize : ℤ) < len
  · rw [if_pos hbad, run_fail]
    exact ⟨sin, .refl ho ht hk, Or.inl rfl⟩
  · rw [if_neg hbad, bind_of_ok (getSin_eq hk)]
    have hmax : len.toNat ≤ sfsMaxFileSize := by omega
    by_cases hsize : sin.din.size = len.toNat
    · rw [if_pos hsize]
      by_cases hblocks : truncBlocks len.toNat = sin.din.blocks
      · rw [run_assert hblocks]
        exact Or.inl rfl
      · rw [run_assert_neg hblocks]
        trivial
    · rw [if_neg hsize]
      -- both loops are followed by the check of the blocks and the new length
      have hend : ∀ u, (∃ sin', (s.Wrote live k sin u sin' ∨ s.Reduced live k sin u sin')) →
          ((getSin k >>= fun sin ↦ do
            assert (sin.din.blocks = truncBlocks len.toNat)
            putSin k (sin.grow len.toNat)).run u).Sat
          (fun _ t ↦ t = s ∨ ∃ u sin', (s.Wrote live k sin u sin' ∨ s.Reduced live k sin u sin') ∧
            sin'.din.blocks = truncBlocks len.toNat ∧ len.toNat ≤ sfsMaxFileSize ∧
              t = u.setInode k (sin'.grow len.toNat))
          fun _ t ↦ ∃ sin', s.Wrote live k sin t sin' ∧
            (sin' = sin ∨ sin'.dirty = true ∨ s.TruncUnmarked sin len) := by
        rintro u ⟨sin', hu⟩
        have hk' : u.inodes k = some sin' := hu.elim (·.cached) (·.cached)
        rw [bind_of_ok (getSin_eq hk')]
        refine sat_assert_bind fun hb ↦ ?_
        exact Or.inr ⟨u, sin', hu, hb, hmax, rfl⟩
      rw [sfsTruncLoops]
      by_cases hlt : sin.din.blocks < truncBlocks len.toNat
      · rw [if_pos hlt]
        refine sat_bind ((sfsTruncEnlarge_sat _ (.refl ho ht hk) rfl).imp (fun _ _ h ↦ h)
          fun _ t ht' ↦ ?_) fun _ u hu ↦ ?_
        · obtain ⟨sin', hw, hroom⟩ := ht'
          refine ⟨sin', hw, ?_⟩
          rcases hw.dirty with hsame | hd | happ
          · exact Or.inl hsame
          · exact Or.inr (Or.inl hd)
          · have := hroom happ.2.1
            exact Or.inr (Or.inr ⟨happ, by omega, by omega, hsize, by omega⟩)
        · obtain ⟨sin', hw, -⟩ := hu
          exact hend u ⟨sin', Or.inl hw⟩
      · rw [if_neg hlt]
        obtain ⟨u, sin', hrun, hred, -⟩ := sfsTruncReduce_eq
          (I := fun t sin' ↦ s.Reduced live k sin t sin')
          (sin.din.blocks - truncBlocks len.toNat)
          (.refl ho ht hk)
          (fun h ↦ ⟨h.owned.ok, h.cached, h.owned.mapped_of_cached h.cached⟩)
          (fun h htrunc ↦ h.truncated htrunc) (by omega)
        rw [bind_of_ok hrun]
        exact hend u ⟨sin', Or.inr hred⟩

end Trunc

end Ucore
