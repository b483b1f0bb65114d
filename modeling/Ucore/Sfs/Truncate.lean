import Ucore.Sfs.Halts
import Ucore.Sfs.Inode

/-!
# Changing the length of a file

What `sfs_truncfile` does to an inode whose block map is in order: how far the two loops get, what
the bytes of the file are then, and which blocks are free.

Blocks are appended and cut off one at a time and the size is set at the end. Two things follow. The
bytes behind the old end in the last block are not cleared, so that they show when the file grows
(`sfsTruncfile_exact_iff`); and a file that could not be extended keeps the blocks it got
(`sfsTruncfile_undone_iff`).
-/

namespace Ucore

open Bytes Prog

namespace SfsFs

variable {s t u : SfsFs} {k : ℕ} {sin sin' sin₁ : SfsInode}

/-- `t` is `s` after blocks were appended to inode `k`, turning `sin` into `sin'`: old bytes are as
before and new ones are zero. -/
structure Extended (s : SfsFs) (k : ℕ) (sin : SfsInode) (t : SfsFs) (sin' : SfsInode) : Prop where
  ok : t.FileOk k sin'
  size : sin'.din.size = sin.din.size
  type : sin'.din.type = sin.din.type
  le : sin.din.blocks ≤ sin'.din.blocks
  byte : ∀ i, i / 4096 < sin'.din.blocks →
    t.fileByte sin'.din i = if i / 4096 < sin.din.blocks then s.fileByte sin.din i else 0
  free : ∀ c, t.freemap.isFree c = true → s.freemap.isFree c = true

/-- `t` is `s` after blocks were cut off from inode `k`, turning `sin` into `sin'`. -/
structure Shortened (s : SfsFs) (k : ℕ) (sin : SfsInode) (t : SfsFs) (sin' : SfsInode) : Prop where
  ok : t.FileOk k sin'
  size : sin'.din.size = sin.din.size
  type : sin'.din.type = sin.din.type
  le : sin'.din.blocks ≤ sin.din.blocks
  byte : ∀ i, i / 4096 < sin'.din.blocks → t.fileByte sin'.din i = s.fileByte sin.din i
  bmap : ∀ j < sin'.din.blocks, t.bmap sin'.din j = s.bmap sin.din j
  free : ∀ c, t.freemap.isFree c = true ↔ s.freemap.isFree c = true ∨
    ∃ j, sin'.din.blocks ≤ j ∧ j < sin.din.blocks ∧ c = s.bmap sin.din j
  count : t.freemap.freeCount = s.freemap.freeCount + (sin.din.blocks - sin'.din.blocks)

theorem FileOk.extended_refl (h : s.FileOk k sin) : s.Extended k sin s sin :=
  ⟨h, rfl, rfl, le_rfl, fun _ hi ↦ (if_pos hi).symm, fun _ hc ↦ hc⟩

theorem FileOk.shortened_refl (h : s.FileOk k sin) : s.Shortened k sin s sin where
  ok := h
  size := rfl
  type := rfl
  le := le_rfl
  byte _ _ := rfl
  bmap _ _ := rfl
  free c := ⟨.inl, fun hc ↦ hc.resolve_right fun ⟨_, hle, hlt, _⟩ ↦ absurd hlt hle.not_gt⟩
  count := by rw [Nat.sub_self, Nat.add_zero]

theorem Appended.extended {b : ℕ} (ha : s.Appended k sin b t sin') (h : s.FileOk k sin) :
    s.Extended k sin t sin' where
  ok := h.appended ha
  size := ha.attrs.1
  type := ha.attrs.2.1
  le := by rw [ha.blocks]; exact Nat.le_succ _
  byte _ hi := ha.fileByte h.mapped hi
  free c hc := ((ha.free c).mp hc).1

theorem Extended.trans (h : s.Extended k sin t sin₁) (h' : t.Extended k sin₁ u sin') :
    s.Extended k sin u sin' where
  ok := h'.ok
  size := h'.size.trans h.size
  type := h'.type.trans h.type
  le := h.le.trans h'.le
  byte i hi := by
    rw [h'.byte i hi]
    have hle := h.le
    by_cases hlt : i / 4096 < sin₁.din.blocks
    · rw [if_pos hlt, h.byte i hlt]
    · rw [if_neg hlt, if_neg (by omega)]
  free c hc := h.free c (h'.free c hc)

/-- An append that found no block leaves the file as it was. -/
theorem NoSpace.extended (hn : s.NoSpace t) (h : s.FileOk k sin) : s.Extended k sin t sin := by
  have hused : ∀ c, s.Used c → t.Used c ∧ t.dev.blk c = s.dev.blk c := fun c hc ↦
    ⟨⟨hc.1, by rw [hn.super]; exact hc.2.1, by rw [hn.freemap]; exact hc.2.2⟩, hn.blk c hc.2.2⟩
  have hmap : ∀ i, t.bmap sin.din i = s.bmap sin.din i := fun i ↦
    bmap_congr rfl rfl fun hne ↦ (hused _ (h.mapped.indirect hne)).2
  refine ⟨⟨hn.ok, fun c hc ↦ ?_, by rw [hn.inodes]; exact h.cached, ?_⟩, rfl, rfl, le_rfl,
    fun i hi ↦ ?_, fun c hc ↦ by rwa [hn.freemap] at hc⟩
  · rw [hn.freemap] at hc
    rw [hn.super]
    exact h.tail c hc
  · refine ⟨fun i hi ↦ ?_, fun i hi ↦ ?_, fun hne ↦ (hused _ (h.mapped.indirect hne)).1,
      fun i hi j hj hij ↦ ?_, fun i hi ↦ ?_⟩
    · rw [hmap]
      exact (hused _ (h.mapped.used i hi)).1
    · rw [hmap]
      exact h.mapped.null i hi
    · rw [hmap, hmap] at hij
      exact h.mapped.inj i hi j hj hij
    · rw [hmap]
      exact h.mapped.ne_indirect i hi
  · rw [if_pos hi, fileByte, fileByte, hmap, (hused _ (h.mapped.used _ hi)).2]

theorem Truncated.shortened {b : ℕ} (hb : s.Truncated k sin b t sin') (h : s.FileOk k sin) :
    s.Shortened k sin t sin' := by
  have hblocks := hb.blocks
  have hmap : ∀ j < sin'.din.blocks, t.bmap sin'.din j = s.bmap sin.din j := fun j hj ↦
    hb.bmap_of_ne j hj.ne
  have hlast : sin'.din.blocks < sin.din.blocks := by omega
  have hused : s.Used b := hb.last ▸ h.mapped.used _ hlast
  have hfree : ∀ c, t.freemap.isFree c = true ↔ s.freemap.isFree c = true ∨ c = b := hb.free
  refine ⟨⟨hb.ok, hb.tail h.tail, hb.cached, hb.mapped h.mapped⟩, hb.attrs.1, hb.attrs.2.1,
    hlast.le, fun i hi ↦ ?_, hmap, fun c ↦ ?_, ?_⟩
  · rw [fileByte, fileByte, hmap _ hi, hb.blk _ (.inl (h.mapped.ne_indirect _ (hi.trans hlast)))]
  · rw [hfree]
    refine or_congr_right ⟨fun hc ↦ ⟨sin'.din.blocks, le_rfl, hlast, ?_⟩, ?_⟩
    · rw [hc, hb.last]
    · rintro ⟨j, hle, hlt, rfl⟩
      rw [show j = sin'.din.blocks by omega, hb.last]
  · have hlt : b < s.freemap.nbits := hused.lt_nbits h.ok
    have hset : ((Finset.range t.freemap.nbits).filter fun i ↦ t.freemap.isFree i = true) =
        insert b ((Finset.range s.freemap.nbits).filter fun i ↦ s.freemap.isFree i = true) := by
      ext c
      simp only [Finset.mem_filter, Finset.mem_range, Finset.mem_insert, hb.nbits, hfree]
      constructor
      · rintro ⟨hc, hfc | rfl⟩
        · exact .inr ⟨hc, hfc⟩
        · exact .inl rfl
      · rintro (rfl | ⟨hc, hfc⟩)
        · exact ⟨hlt, .inr rfl⟩
        · exact ⟨hc, .inl hfc⟩
    have hnot : b ∉ (Finset.range s.freemap.nbits).filter fun i ↦ s.freemap.isFree i = true := by
      rw [Finset.mem_filter, hused.2.2]
      exact fun hcon ↦ by cases hcon.2
    rw [Bitmap.freeCount, hset, Finset.card_insert_of_notMem hnot, ← Bitmap.freeCount]
    omega

theorem Shortened.trans (h : s.Shortened k sin t sin₁) (h' : t.Shortened k sin₁ u sin') :
    s.Shortened k sin u sin' where
  ok := h'.ok
  size := h'.size.trans h.size
  type := h'.type.trans h.type
  le := h'.le.trans h.le
  byte i hi := by rw [h'.byte i hi, h.byte i (hi.trans_le h'.le)]
  bmap j hj := by rw [h'.bmap j hj, h.bmap j (hj.trans_le h'.le)]
  free c := by
    have hle := h.le
    have hle' := h'.le
    rw [h'.free, h.free, or_assoc]
    refine or_congr_right ⟨?_, ?_⟩
    · rintro (⟨j, hj, hlt, rfl⟩ | ⟨j, hj, hlt, rfl⟩)
      · exact ⟨j, hle'.trans hj, hlt, rfl⟩
      · exact ⟨j, hj, hlt.trans_le hle, h.bmap j hlt⟩
    · rintro ⟨j, hj, hlt, rfl⟩
      by_cases hmid : j < sin₁.din.blocks
      · exact .inr ⟨j, hj, hmid, (h.bmap j hmid).symm⟩
      · exact .inl ⟨j, not_lt.mp hmid, hlt, rfl⟩
  count := by
    have hle := h.le
    have hle' := h'.le
    rw [h'.count, h.count]
    omega

end SfsFs

/-! ## The two loops -/

section Loops

variable {s : SfsFs} {k : ℕ} {sin : SfsInode}

/-- The first loop of `sfs_truncfile` gets to the end, or runs out of blocks: the blocks that were
appended until then stay. -/
theorem sfsTruncEnlarge_cases (n : ℕ) (h : s.FileOk k sin) (hn : sin.din.blocks + n ≤ 1036) :
    (SfsFs.growCost sin.din (sin.din.blocks + n) ≤ s.freemap.freeCount ∧
      ∃ t sin', (sfsTruncEnlarge k sin.din.blocks n).run s = .ok () t ∧
        s.Extended k sin t sin' ∧ sin'.din.blocks = sin.din.blocks + n) ∨
    (s.freemap.freeCount < SfsFs.growCost sin.din (sin.din.blocks + n) ∧
      ∃ t sin', (sfsTruncEnlarge k sin.din.blocks n).run s = .error .noMem t ∧
        s.Extended k sin t sin' ∧ sin'.din.blocks < sin.din.blocks + n ∧
        t.freemap.freeCount < appendCost sin'.din ∧
        (sin'.din.blocks = sin.din.blocks ↔ s.freemap.freeCount < appendCost sin.din)) := by
  induction n generalizing s sin with
  | zero =>
    refine .inl ⟨?_, s, sin, rfl, h.extended_refl, rfl⟩
    rw [Nat.add_zero, SfsFs.growCost_of_le h.mapped le_rfl]
    exact Nat.zero_le _
  | succ n ih =>
    have hmono := SfsFs.growCost_mono sin.din
      (show sin.din.blocks + 1 ≤ sin.din.blocks + (n + 1) by omega)
    have hcost : appendCost sin.din ≤ _ := SfsFs.appendCost_le_growCost
    rcases sfsBmapLoadNolock_append h.ok h.cached h.mapped h.tail.zero (by omega) with
      ⟨b, s', sin₁, happ, hload⟩ | ⟨s', hno, hfull, hload⟩ | ⟨htail, -⟩
    · have hext := happ.extended h
      have hblocks := happ.blocks
      have hgrow := happ.growCost (n := sin.din.blocks + (n + 1)) (by omega)
      have hsum : sin₁.din.blocks + n = sin.din.blocks + (n + 1) := by omega
      have hrun : (sfsTruncEnlarge k sin.din.blocks (n + 1)).run s =
          (sfsTruncEnlarge k sin₁.din.blocks n).run s' := by
        rw [sfsTruncEnlarge, bind_of_ok hload, hblocks]
      have hpaid := happ.cost h
      rw [hrun]
      rcases ih hext.ok (by omega) with ⟨henough, t, sin', hgo, hrest, hend⟩ |
        ⟨hshort, t, sin', hgo, hrest, hend, hleft, -⟩
      · rw [hsum] at henough
        exact .inl ⟨by omega, t, sin', hgo, hext.trans hrest, by omega⟩
      · rw [hsum] at hshort
        have hle := hrest.le
        exact .inr ⟨by omega, t, sin', hgo, hext.trans hrest, by omega, hleft, by omega⟩
    · refine .inr ⟨by omega, s', sin, ?_, hno.extended h, by omega, ?_, fun _ ↦ hfull, fun _ ↦ rfl⟩
      · rw [sfsTruncEnlarge, bind_of_error hload]
      · rwa [hno.freemap]
    · exact absurd h.tail htail

/-- The second loop of `sfs_truncfile` succeeds. -/
theorem sfsTruncReduce_cases (n : ℕ) (h : s.FileOk k sin) (hn : n ≤ sin.din.blocks) :
    ∃ t sin', (sfsTruncReduce k n).run s = .ok () t ∧ s.Shortened k sin t sin' ∧
      sin'.din.blocks + n = sin.din.blocks := by
  obtain ⟨t, sin', hrun, hred, hblocks⟩ := sfsTruncReduce_eq
    (I := fun t sin' ↦ s.Shortened k sin t sin') n h.shortened_refl
    (fun hr ↦ ⟨hr.ok.ok, hr.ok.cached, hr.ok.mapped⟩)
    (fun hr htrunc ↦ hr.trans (htrunc.shortened hr.ok)) hn
  exact ⟨t, sin', hrun, hred, hblocks⟩

end Loops

/-! ## The length of a file -/

section Resize

variable {s t : SfsFs} {k : ℕ} {sin sin' : SfsInode}

theorem truncBlocks_eq (n : ℕ) : truncBlocks n = SfsFs.blocksFor n := rfl

/-- `t` is `s` after inode `k` was brought to another number of blocks. -/
structure SfsFs.Resized (s : SfsFs) (k : ℕ) (sin : SfsInode) (t : SfsFs) (sin' : SfsInode) :
    Prop where
  ok : t.FileOk k sin'
  size : sin'.din.size = sin.din.size
  byte : ∀ i, i / 4096 < sin'.din.blocks →
    t.fileByte sin'.din i = if i / 4096 < sin.din.blocks then s.fileByte sin.din i else 0
  freed : ∀ c, t.freemap.isFree c = true ∧ s.freemap.isFree c = false ↔
    ∃ j, sin'.din.blocks ≤ j ∧ j < sin.din.blocks ∧ c = s.bmap sin.din j
  count : sin'.din.blocks ≤ sin.din.blocks →
    t.freemap.freeCount = s.freemap.freeCount + (sin.din.blocks - sin'.din.blocks)

theorem SfsFs.Extended.resized (h : s.Extended k sin t sin')
    (hlt : sin.din.blocks < sin'.din.blocks) : s.Resized k sin t sin' where
  ok := h.ok
  size := h.size
  byte := h.byte
  freed c := by
    constructor
    · rintro ⟨ht, hs⟩
      rw [h.free c ht] at hs
      cases hs
    · rintro ⟨j, hle, hj, -⟩
      exact absurd hlt (by omega)
  count hle := absurd hlt (by omega)

theorem SfsFs.Shortened.resized (h : s.Shortened k sin t sin') (hs : s.FileOk k sin) :
    s.Resized k sin t sin' where
  ok := h.ok
  size := h.size
  byte i hi := by rw [h.byte i hi, if_pos (hi.trans_le h.le)]
  freed c := by
    rw [h.free]
    constructor
    · rintro ⟨hc | hc, hnot⟩
      · rw [hc] at hnot
        cases hnot
      · exact hc
    · rintro ⟨j, hle, hlt, rfl⟩
      exact ⟨.inr ⟨j, hle, hlt, rfl⟩, (hs.mapped.used j hlt).2.2⟩
  count _ := h.count

/-- What `sfs_truncfile` does when it has to change the size: it runs out of blocks, or brings the
file to the number of blocks it is to have and then sets the size. -/
theorem sfsTruncfile_cases (h : s.FileOk k sin) {len : ℕ} (hlen : len ≤ 4096 * 1036)
    (hne : sin.din.size ≠ len) :
    (SfsFs.growCost sin.din (SfsFs.blocksFor len) ≤ s.freemap.freeCount ∧
        ∃ u sin', (sfsTruncfile k len).run s = .ok () (u.setInode k (sin'.grow len)) ∧
          s.Resized k sin u sin' ∧ sin'.din.blocks = SfsFs.blocksFor len) ∨
      (s.freemap.freeCount < SfsFs.growCost sin.din (SfsFs.blocksFor len) ∧
        ∃ t sin', (sfsTruncfile k len).run s = .error .noMem t ∧ s.Extended k sin t sin' ∧
          t.freemap.freeCount < appendCost sin'.din ∧
          (sin'.din.blocks = sin.din.blocks ↔ s.freemap.freeCount < appendCost sin.din)) := by
  have hbound : SfsFs.blocksFor len ≤ 1036 := by
    rw [SfsFs.blocksFor]
    omega
  have hstart : (sfsTruncfile k len).run s =
      (sfsTruncLoops k sin.din.blocks (truncBlocks len) >>= fun _ ↦ do
        let sin ← getSin k
        assert (sin.din.blocks = truncBlocks len)
        putSin k (sin.grow len)).run s := by
    rw [sfsTruncfile, sfsMaxFileSize_eq, if_neg (by omega), bind_of_ok (getSin_eq h.cached),
      Int.toNat_natCast, if_neg hne]
  -- when the loops are through, the assertion holds and the length is set
  have hend : ∀ u sin', u.inodes k = some sin' → sin'.din.blocks = SfsFs.blocksFor len →
      (sfsTruncLoops k sin.din.blocks (truncBlocks len)).run s = .ok () u →
      (sfsTruncfile k len).run s = .ok () (u.setInode k (sin'.grow len)) := by
    intro u sin' hu hblocks hgo
    rw [hstart, bind_of_ok hgo, bind_of_ok (getSin_eq hu), truncBlocks_eq, assert_bind_run hblocks]
    rfl
  by_cases hlt : sin.din.blocks < SfsFs.blocksFor len
  · have hsum : sin.din.blocks + (SfsFs.blocksFor len - sin.din.blocks) = SfsFs.blocksFor len := by
      omega
    have hloop : sfsTruncLoops k sin.din.blocks (truncBlocks len) =
        sfsTruncEnlarge k sin.din.blocks (SfsFs.blocksFor len - sin.din.blocks) := by
      rw [sfsTruncLoops, truncBlocks_eq, if_pos hlt]
    rcases sfsTruncEnlarge_cases (SfsFs.blocksFor len - sin.din.blocks) h (by omega) with
      ⟨henough, u, sin', hgo, hext, hblocks⟩ | ⟨hshort, t, sin', hgo, hext, -, hleft, hiff⟩
    · rw [hsum] at hblocks henough
      refine .inl ⟨henough, u, sin', hend u sin' hext.ok.cached hblocks ?_,
        hext.resized (by omega), hblocks⟩
      rw [hloop, hgo]
    · rw [hsum] at hshort
      refine .inr ⟨hshort, t, sin', ?_, hext, hleft, hiff⟩
      rw [hstart, hloop, bind_of_error hgo]
  · obtain ⟨u, sin', hgo, hred, hblocks⟩ :=
      sfsTruncReduce_cases (sin.din.blocks - SfsFs.blocksFor len) h (by omega)
    have hblocks' : sin'.din.blocks = SfsFs.blocksFor len := by omega
    refine .inl ⟨?_, u, sin', hend u sin' hred.ok.cached hblocks' ?_, hred.resized h, hblocks'⟩
    · rw [SfsFs.growCost_of_le h.mapped (by omega)]
      exact Nat.zero_le _
    · rw [sfsTruncLoops, truncBlocks_eq, if_neg hlt, hgo]

/-- What `sfs_truncfile` is to do: `t` is `s` with the file cut off or filled up with zeros, and the
blocks behind the new end are free again. -/
structure SfsFs.TruncExact (s : SfsFs) (sin : SfsInode) (len : ℕ) (t : SfsFs) (sin' : SfsInode) :
    Prop where
  size : sin'.din.size = len
  blocks : sin'.din.blocks = SfsFs.blocksFor len
  kept : ∀ i < min sin.din.size len, t.fileByte sin'.din i = s.fileByte sin.din i
  zero : ∀ i, sin.din.size ≤ i → i < len → t.fileByte sin'.din i = 0
  freed : ∀ c, t.freemap.isFree c = true ∧ s.freemap.isFree c = false ↔
    ∃ j, SfsFs.blocksFor len ≤ j ∧ j < sin.din.blocks ∧ c = s.bmap sin.din j
  count : SfsFs.blocksFor len ≤ sin.din.blocks →
    t.freemap.freeCount = s.freemap.freeCount + (sin.din.blocks - SfsFs.blocksFor len)

/-- When `sfs_truncfile` returns 0 the file has the new length and the blocks are accounted for. It
reads as it should exactly when the bytes of the old last block between the old and the new end were
zero. -/
theorem sfsTruncfile_exact_iff (h : s.FileOk k sin)
    (hblocks : sin.din.blocks = SfsFs.blocksFor sin.din.size) {len : ℕ} (hlen : len ≤ 4096 * 1036)
    (hrun : (sfsTruncfile k len).run s = .ok () t) :
    (∃ sin', t.inodes k = some sin' ∧ s.TruncExact sin len t sin') ↔
      ∀ i, sin.din.size ≤ i → i < len → i < 4096 * sin.din.blocks → s.fileByte sin.din i = 0 := by
  rw [SfsFs.blocksFor] at hblocks
  by_cases hne : sin.din.size = len
  · -- nothing is done at all
    have hsame : (sfsTruncfile k len).run s = .ok () s := by
      rw [sfsTruncfile, sfsMaxFileSize_eq, if_neg (by omega), bind_of_ok (getSin_eq h.cached),
        Int.toNat_natCast, if_pos hne, truncBlocks_eq, SfsFs.blocksFor, ← hne,
        run_assert hblocks.symm]
    obtain ⟨-, rfl⟩ := Outcome.ok.inj (hsame.symm.trans hrun)
    refine ⟨fun _ i hi hi' ↦ absurd hi' (by omega), fun _ ↦ ⟨sin, h.cached, hne, ?_, fun _ _ ↦ rfl,
      fun i hi hi' ↦ absurd hi' (by omega), fun c ↦ ?_, fun _ ↦ ?_⟩⟩
    · rw [SfsFs.blocksFor, ← hne, hblocks]
    · rw [SfsFs.blocksFor, ← hne]
      constructor
      · rintro ⟨hc, hc'⟩
        rw [hc] at hc'
        cases hc'
      · rintro ⟨j, hj, hj', -⟩
        exact absurd hj' (by omega)
    · rw [SfsFs.blocksFor, ← hne, hblocks, Nat.sub_self, Nat.add_zero]
  -- the blocks are changed and the length is set, as it has returned 0
  rcases sfsTruncfile_cases h hlen hne with ⟨-, u, sin', hgo, hres, hnew⟩ | ⟨-, t', -, hgo, -⟩
  swap
  · rw [hgo] at hrun
    cases hrun
  obtain ⟨-, rfl⟩ := Outcome.ok.inj (hgo.symm.trans hrun)
  have hfile : ∀ i, (u.setInode k (sin'.grow len)).fileByte (sin'.grow len).din i =
      u.fileByte sin'.din i := fun _ ↦ rfl
  have hnew' : sin'.din.blocks = (len + 4095) / 4096 := hnew
  constructor
  · rintro ⟨sin₂, hk₂, hexact⟩ i hi hi' hin
    rw [SfsFs.setInode_inodes_self] at hk₂
    have hzero := hexact.zero i hi hi'
    rw [← Option.some.inj hk₂, hfile, hres.byte i (by omega), if_pos (by omega)] at hzero
    exact hzero
  · intro hall
    refine ⟨_, SfsFs.setInode_inodes_self .., rfl, hnew, fun i hi ↦ ?_, fun i hi hi' ↦ ?_,
      fun c ↦ ?_, fun hle ↦ ?_⟩
    · rw [lt_min_iff] at hi
      rw [hfile, hres.byte i (by omega), if_pos (by omega)]
    · rw [hfile, hres.byte i (by omega)]
      split
      · exact hall i hi hi' (by omega)
      · rfl
    · rw [← hnew]
      exact hres.freed c
    · rw [← hnew] at hle ⊢
      exact hres.count hle

/-- A new size that needs the same number of blocks is just set. -/
theorem sfsTruncfile_same_blocks (hk : s.inodes k = some sin) {len : ℕ} (hlen : len ≤ 4096 * 1036)
    (hne : sin.din.size ≠ len) (hblocks : sin.din.blocks = SfsFs.blocksFor len) :
    (sfsTruncfile k len).run s = .ok () (s.setInode k (sin.grow len)) := by
  have hloop : sfsTruncLoops k sin.din.blocks (truncBlocks len) = return () := by
    rw [sfsTruncLoops, truncBlocks_eq, hblocks, if_neg (lt_irrefl _), Nat.sub_self, sfsTruncReduce]
  rw [sfsTruncfile, sfsMaxFileSize_eq, if_neg (by omega), bind_of_ok (getSin_eq hk),
    Int.toNat_natCast, if_neg hne, hloop, pure_bind_run, bind_of_ok (getSin_eq hk), truncBlocks_eq,
    assert_bind_run hblocks]
  rfl

theorem SfsFs.FileOk.grow (h : s.FileOk k sin) (len : ℕ) :
    (s.setInode k (sin.grow len)).FileOk k (sin.grow len) :=
  ⟨h.ok.setInode _ _, h.tail, SfsFs.setInode_inodes_self ..,
    ⟨h.mapped.used, h.mapped.null, h.mapped.indirect, h.mapped.inj, h.mapped.ne_indirect⟩⟩

theorem sampleFs_fileOk : sampleFs.FileOk 3 ⟨sampleFile, false, 1, 1, 1⟩ :=
  ⟨sampleFs_ok, sampleFs_tailClear, rfl, sampleFs_mapped_file⟩

/-- The file of the small file system is cut off to one block. -/
theorem sfsTruncfile_exact_sample : ∃ t, (sfsTruncfile 3 (4096 : ℕ)).run sampleFs = .ok () t ∧
    ∃ sin', t.inodes 3 = some sin' ∧
      sampleFs.TruncExact ⟨sampleFile, false, 1, 1, 1⟩ 4096 t sin' := by
  have hlen : 4096 ≤ 4096 * 1036 := by omega
  rcases sfsTruncfile_cases sampleFs_fileOk hlen (by decide) with
    ⟨-, u, sin', hgo, -⟩ | ⟨hshort, -⟩
  · refine ⟨_, hgo, (sfsTruncfile_exact_iff sampleFs_fileOk (by decide) (by omega) hgo).mpr ?_⟩
    intro i hi hi'
    exact absurd (show 8192 ≤ i from hi) (by omega)
  · rw [SfsFs.growCost_of_le sampleFs_mapped_file (by decide)] at hshort
    exact absurd hshort (Nat.not_lt_zero _)

/-- A file of 8192 bytes is cut off to 5000 and brought to 8192 again: the bytes behind the old end
are back. -/
theorem sfsTruncfile_exposes : ∃ s sin t, (sfsTruncfile 3 (5000 : ℕ)).run sampleFs = .ok () s ∧
    s.FileOk 3 sin ∧ sin.din.blocks = SfsFs.blocksFor sin.din.size ∧
    (sfsTruncfile 3 (8192 : ℕ)).run s = .ok () t ∧
    ¬∃ sin', t.inodes 3 = some sin' ∧ s.TruncExact sin 8192 t sin' := by
  have hok := sampleFs_fileOk.grow 5000
  have hcut := sfsTruncfile_same_blocks sampleFs_fileOk.cached (show 5000 ≤ 4096 * 1036 by omega)
    (by decide) (by decide)
  have hgrow := sfsTruncfile_same_blocks hok.cached (show 8192 ≤ 4096 * 1036 by omega) (by decide)
    (by decide)
  refine ⟨_, _, _, hcut, hok, by decide, hgrow, ?_⟩
  rintro ⟨sin', hk, hexact⟩
  rw [SfsFs.setInode_inodes_self] at hk
  have hzero := hexact.zero 5000 (by decide) (by omega)
  rw [← Option.some.inj hk] at hzero
  exact absurd hzero (by decide)

end Resize

/-! ## When a file cannot be extended -/

section Undone

variable {s t : SfsFs} {k : ℕ} {sin : SfsInode}

/-- An inode in order, and the routines that check it: the next `sfs_truncfile` does not trip an
assertion, and for a file neither does the next read or write at an offset that `sfs_tryseek` can
have left, between an offset and an end that `P` admits. -/
structure SfsFs.Sane (s : SfsFs) (k : ℕ) (sin : SfsInode) (P : ℕ → ℕ → Prop) : Prop where
  ok : s.FileOk k sin
  blocks : sin.din.blocks = SfsFs.blocksFor sin.din.size
  trunc : ∀ len : ℤ, (sfsTruncfile k len).run s ≠ .panic
  read : sin.din.type ≠ sfsTypeDir → ∀ (buf : Bytes) (offset alen : ℕ), offset ≤ sin.din.size →
    P offset (min (ioEnd offset alen) sin.din.size) →
    (sfsIoNolock k buf offset alen false).run s ≠ .panic
  write : sin.din.type ≠ sfsTypeDir → ∀ (buf : Bytes) (offset alen : ℕ), offset ≤ sin.din.size →
    P offset (ioEnd offset alen) → (sfsIoNolock k buf offset alen true).run s ≠ .panic

/-- A call of `sfs_truncfile`, or for a file a read or a write, that leaves `t`. -/
inductive SfsFs.Call (k : ℕ) (s t : SfsFs) : Prop
  | trunc (len : ℤ) (h : ((sfsTruncfile k len).run s).state? = some t)
  | io (sin : SfsInode) (buf : Bytes) (offset alen : ℕ) (write : Bool) (hk : s.inodes k = some sin)
    (htype : sin.din.type ≠ sfsTypeDir) (hoff : offset ≤ sin.din.size)
    (h : ((sfsIoNolock k buf offset alen write).run s).state? = some t)

/-- With no block to be had, the append of one fails and changes nothing that matters. -/
theorem SfsFs.FileOk.load_full (h : s.FileOk k sin) (hlt : sin.din.blocks < 1036)
    (hfull : s.freemap.freeCount < appendCost sin.din) :
    ∃ t, (sfsBmapLoadNolock k sin.din.blocks).run s = .error .noMem t ∧ t.FileOk k sin ∧
      t.freemap = s.freemap := by
  rcases sfsBmapLoadNolock_append h.ok h.cached h.mapped h.tail.zero hlt with
    ⟨b, s', sin₁, happ, -⟩ | ⟨s', hno, -, hload⟩ | ⟨htail, -⟩
  · exact absurd (happ.cost h) (by omega)
  · exact ⟨s', hload, (hno.extended h).ok, hno.freemap⟩
  · exact absurd h.tail htail

/-- On a device without a block to be had `sfs_truncfile` keeps to the blocks of the file: it
refuses the length or finds it set, or the first append fails, or the file gets shorter. -/
theorem sfsTruncfile_full (h : s.FileOk k sin)
    (hblocks : sin.din.blocks = SfsFs.blocksFor sin.din.size) (hlt : sin.din.blocks < 1036)
    (hfull : s.freemap.freeCount < appendCost sin.din) (len : ℤ) :
    (∃ e t, (sfsTruncfile k len).run s = .error e t ∧ t.FileOk k sin ∧ t.freemap = s.freemap) ∨
      (sin.din.size = len.toNat ∧ (sfsTruncfile k len).run s = .ok () s) ∨
      (SfsFs.blocksFor len.toNat ≤ sin.din.blocks ∧ sin.din.size ≠ len.toNat ∧
        ∃ t, (sfsTruncfile k len).run s = .ok () t) := by
  rw [sfsTruncfile, sfsMaxFileSize_eq]
  split
  · exact .inl ⟨_, s, rfl, h, rfl⟩
  rw [bind_of_ok (getSin_eq h.cached)]
  by_cases hsize : sin.din.size = len.toNat
  · rw [if_pos hsize, truncBlocks_eq, ← hsize, run_assert hblocks.symm]
    exact .inr (.inl ⟨rfl, rfl⟩)
  rw [if_neg hsize]
  by_cases hmore : sin.din.blocks < truncBlocks len.toNat
  · -- the first append fails
    obtain ⟨t, hload, hok, hfree⟩ := h.load_full hlt hfull
    obtain ⟨n, hn⟩ : ∃ n, truncBlocks len.toNat - sin.din.blocks = n + 1 :=
      ⟨truncBlocks len.toNat - sin.din.blocks - 1, by omega⟩
    have hloop : (sfsTruncLoops k sin.din.blocks (truncBlocks len.toNat)).run s =
        .error .noMem t := by
      rw [sfsTruncLoops, if_pos hmore, hn, sfsTruncEnlarge, bind_of_error hload]
    exact .inl ⟨_, t, bind_of_error hloop _, hok, hfree⟩
  · obtain ⟨u, sin', hgo, hred, hcut⟩ :=
      sfsTruncReduce_cases (sin.din.blocks - truncBlocks len.toNat) h (by omega)
    have hloop : (sfsTruncLoops k sin.din.blocks (truncBlocks len.toNat)).run s = .ok () u := by
      rw [sfsTruncLoops, if_neg hmore, hgo]
    rw [bind_of_ok hloop, bind_of_ok (getSin_eq hred.ok.cached), assert_bind_run (by omega)]
    exact .inr (.inr ⟨by rw [← truncBlocks_eq]; omega, hsize, _, rfl⟩)

/-- With too few free blocks for an append, nothing can go wrong in the next call but that there are
too few, whole blocks left out. -/
theorem SfsFs.FileOk.sane (h : s.FileOk k sin)
    (hblocks : sin.din.blocks = SfsFs.blocksFor sin.din.size) (hlt : sin.din.blocks < 1036)
    (hfull : s.freemap.freeCount < appendCost sin.din) :
    s.Sane k sin NoWholeBlock := by
  have hsize : sin.din.size ≤ 4096 * sin.din.blocks := by
    rw [SfsFs.blocksFor] at hblocks
    omega
  refine ⟨h, hblocks, fun len ↦ ?_, fun htype buf offset alen hoff hno ↦ ?_,
    fun htype buf offset alen hoff hno ↦ ?_⟩
  · rcases sfsTruncfile_full h hblocks hlt hfull len with
      ⟨e, t, hrun, -⟩ | ⟨-, hrun⟩ | ⟨-, -, t, hrun⟩
    · rw [hrun]
      exact Outcome.error_ne_panic
    · rw [hrun]
      exact Outcome.ok_ne_panic
    · rw [hrun]
      exact Outcome.ok_ne_panic
  · rw [Ne, sfsIoNolock_read_panic_iff h htype hsize]
    rw [NoWholeBlock] at hno
    omega
  · rw [Ne, sfsIoNolock_write_panic_iff h htype buf (.inl (by rwa [Int.toNat_natCast]))]
    rintro ⟨-, -, -, hstops⟩
    have hmono := SfsFs.growCost_mono sin.din (show sin.din.blocks + 1 ≤ 1036 by omega)
    rw [SfsFs.growCost_succ] at hmono
    rw [SfsFs.WriteStops, Int.toNat_natCast, if_pos hno] at hstops
    omega

/-- A file without blocks on a device without free blocks. -/
def SfsFs.Stuck (s : SfsFs) (k : ℕ) : Prop :=
  ∃ sin, s.FileOk k sin ∧ sin.din.blocks = 0 ∧ sin.din.size = 0 ∧ s.freemap.freeCount = 0

/-- Nothing can be read from it, and nothing written to it. -/
theorem sfsIoNolock_stuck (h : s.FileOk k sin) (hblocks : sin.din.blocks = 0)
    (hsize : sin.din.size = 0) (hfree : s.freemap.freeCount = 0)
    (htype : sin.din.type ≠ sfsTypeDir) (buf : Bytes) {offset : ℕ} (hoff : offset ≤ sin.din.size)
    (alen : ℕ) (write : Bool) :
    ∃ r t, (sfsIoNolock k buf offset alen write).run s = .ok r t ∧ t.Stuck k := by
  have hstuck : s.Stuck k := ⟨sin, h, hblocks, hsize, hfree⟩
  have hcost : appendCost sin.din = 1 := by
    rw [appendCost, if_neg (by omega)]
  obtain ⟨t, hload, hok, hsame⟩ := h.load_full (by omega) (by omega)
  have hstuck' : t.Stuck k := ⟨sin, hok, hblocks, hsize, by rw [hsame, hfree]⟩
  rw [hblocks] at hload
  have hout : ∀ e, (sfsIoOut k 0 ⟨some e, 0, buf⟩).run t = .ok ⟨some e, 0, buf⟩ t := fun e ↦ by
    rw [sfsIoOut, bind_of_ok (getSin_eq hok.cached), if_neg (by dsimp only; omega), run_pure]
  rw [sfsIoNolock, bind_of_ok (getSin_eq h.cached), assert_bind_run htype]
  split
  · exact ⟨_, s, rfl, hstuck⟩
  next hbad =>
  split
  · exact ⟨_, s, rfl, hstuck⟩
  next hzero =>
  split
  · have hpos : 0 < min (toOff (offset + alen)).toNat sfsMaxFileSize := by omega
    generalize min (toOff (offset + alen)).toNat sfsMaxFileSize = endpos at hpos
    have hhead : (sfsIoHead k buf 0 endpos write).run s = .ok ⟨some .noMem, 0, buf⟩ t := by
      rw [sfsIoHead, sfsBlksize_eq, if_neg (by omega), sfsIoMiddle]
      by_cases hwhole : 0 < endpos / 4096 - 0 / 4096
      · have hfail : (sfsIoBlocks k buf 0 (0 / 4096) (endpos / 4096 - 0 / 4096) write).run s =
            .error .noMem t := by
          rw [sfsIoBlocks, Nat.zero_div, bind_of_error hload]
        rw [if_pos hwhole, bind_of_ok (attempt_of_error hfail)]
        rfl
      · have hfail : (sfsIoPiece k buf 0 (endpos % 4096) (0 / 4096) 0 write).run s =
            .error .noMem t := by
          rw [sfsIoPiece, Nat.zero_div, bind_of_error hload]
        rw [if_neg hwhole, sfsIoTail_of_error (by omega) hfail]
    refine ⟨⟨some .noMem, 0, buf⟩, t, ?_, hstuck'⟩
    rw [Int.toNat_natCast, show offset = 0 by omega, sfsIoSpan, bind_of_ok hhead, hout]
  · rw [if_pos (by omega)]
    exact ⟨_, s, rfl, hstuck⟩

/-- It stays like that whatever is called, and no call stops the machine. -/
theorem SfsFs.Stuck.sane (h : s.Stuck k) : ∃ sin, s.Sane k sin fun _ _ ↦ True := by
  obtain ⟨sin, hok, hblocks, hsize, hfree⟩ := h
  have hcost : appendCost sin.din = 1 := by
    rw [appendCost, if_neg (by omega)]
  have hsane := hok.sane (by rw [hblocks, hsize]; rfl) (by omega) (by omega)
  refine ⟨sin, hok, hsane.blocks, hsane.trunc, fun htype buf offset alen hoff _ ↦ ?_,
    fun htype buf offset alen hoff _ ↦ ?_⟩
  all_goals
    obtain ⟨r, t, hrun, -⟩ := sfsIoNolock_stuck hok hblocks hsize hfree htype buf hoff alen _
    rw [hrun]
    exact Outcome.ok_ne_panic

theorem SfsFs.Stuck.call (h : s.Stuck k) (hcall : s.Call k t) : t.Stuck k := by
  obtain ⟨sin, hok, hblocks, hsize, hfree⟩ := h
  have hcost : appendCost sin.din = 1 := by
    rw [appendCost, if_neg (by omega)]
  cases hcall with
  | trunc len h =>
    rcases sfsTruncfile_full hok (by rw [hblocks, hsize]; rfl) (by omega) (by omega) len with
      ⟨e, u, hrun, hok', hsame⟩ | ⟨-, hrun⟩ | ⟨hle, hne, -⟩
    · rw [hrun, Outcome.state?_error] at h
      obtain rfl := Option.some.inj h
      exact ⟨sin, hok', hblocks, hsize, by rw [hsame, hfree]⟩
    · rw [hrun, Outcome.state?_ok] at h
      obtain rfl := Option.some.inj h
      exact ⟨sin, hok, hblocks, hsize, hfree⟩
    · rw [SfsFs.blocksFor] at hle
      omega
  | io sin' buf offset alen write hk htype hoff h =>
    obtain rfl := Option.some.inj (hok.cached.symm.trans hk)
    obtain ⟨r, u, hrun, hu⟩ := sfsIoNolock_stuck hok hblocks hsize hfree htype buf hoff alen write
    rw [hrun, Outcome.state?_ok] at h
    obtain rfl := Option.some.inj h
    exact hu

/-- A file with blocks on a device that has none to spare can be cut off and then not be brought
back to more than it had: an extension fails part way. -/
theorem SfsFs.FileOk.not_stable (h : s.FileOk k sin)
    (hblocks : sin.din.blocks = SfsFs.blocksFor sin.din.size) (hlt : sin.din.blocks < 1036)
    (hfull : s.freemap.freeCount < appendCost sin.din) (hpos : 0 < sin.din.blocks) :
    ∃ u v sin', s.Call k u ∧ u.Call k v ∧ v.inodes k = some sin' ∧
      sin'.din.blocks ≠ SfsFs.blocksFor sin'.din.size := by
  have hsize : sin.din.size ≠ 0 := fun hzero ↦ by
    rw [hblocks, hzero] at hpos
    exact absurd hpos (by decide)
  have hmore : sin.din.blocks + appendCost sin.din ≤ 1036 := by
    rw [appendCost]
    split
    · next hind =>
      have h12 : ¬12 < sin.din.blocks := fun hgt ↦ h.mapped.indirect_ne_zero hgt hind.2
      omega
    · omega
  -- first the file is cut off, which gives all its blocks back
  rcases sfsTruncfile_cases h (show 0 ≤ 4096 * 1036 by omega) hsize with
    ⟨-, u, sin₁, hcut, hres, hzero⟩ | ⟨hshort, -⟩
  swap
  · rw [SfsFs.growCost_of_le h.mapped (show SfsFs.blocksFor 0 ≤ _ from Nat.zero_le _)] at hshort
    exact absurd hshort (Nat.not_lt_zero _)
  have hzero : sin₁.din.blocks = 0 := hzero
  have hok := hres.ok.grow 0
  have hfree : u.freemap.freeCount = s.freemap.freeCount + sin.din.blocks := by
    have hcount := hres.count (by omega)
    omega
  have hcost : appendCost (sin₁.grow 0).din = 1 := by
    have hdin : (sin₁.grow 0).din.blocks = 0 := hzero
    rw [appendCost, if_neg (by omega)]
  -- then more is asked for than these: the extension takes them and fails
  have hlen : 4096 * (sin.din.blocks + appendCost sin.din) ≤ 4096 * 1036 := by omega
  have happend : 0 < appendCost sin.din := by omega
  have hgrow : (u.setInode k (sin₁.grow 0)).freemap.freeCount <
      SfsFs.growCost (sin₁.grow 0).din
        (SfsFs.blocksFor (4096 * (sin.din.blocks + appendCost sin.din))) := by
    have hdin : (sin₁.grow 0).din.blocks = 0 := hzero
    have hsame : (u.setInode k (sin₁.grow 0)).freemap.freeCount = u.freemap.freeCount := rfl
    rw [SfsFs.growCost, SfsFs.blocksFor, hdin, hsame]
    omega
  rcases sfsTruncfile_cases hok hlen (show (0 : ℕ) ≠ _ by omega) with
    ⟨henough, -⟩ | ⟨-, v, sin₂, hrun, hext, -, hiff⟩
  · exact absurd henough (by omega)
  refine ⟨_, v, sin₂, .trunc (0 : ℕ) (by rw [hcut, Outcome.state?_ok]),
    .trunc _ (by rw [hrun, Outcome.state?_error]), hext.ok.cached, ?_⟩
  have hsize₂ : sin₂.din.size = 0 := hext.size
  rw [hsize₂]
  intro hcon
  have hfew := hiff.mp (hcon.trans hzero.symm)
  have hsame : (u.setInode k (sin₁.grow 0)).freemap.freeCount = u.freemap.freeCount := rfl
  omega

end Undone

end Ucore
